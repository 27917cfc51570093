import MdCrdt.Doc.Lossless
import MdCrdt.Session.IntactEdits

/- Exact export after edits.

  A block of the source is written from its bytes until it is marked. An element id leads
  to the block it stands in through a map that is fixed when the source is adopted, so a
  mark can miss its block: a move gives a top-level block another element id, and that id
  is not in the map. If no operation of a run targets an element id that a move of that
  run gave to a block of the source, and each direct edit finds the block it names, every
  block that is written from its bytes still has the content it had when the source was
  adopted (`Tracked`).

  Correspondence (Rust ↔ Lean):
    what `render_with_frontmatter` writes for one block ↔ `bodyOf`
    `adopt_source_from` ↔ `SourcedDocument.adoptSourceFrom` -/
namespace MdCrdt
open Lib Lib.Utf8 List Option SortedMap DocumentSource
variable {e : OpId}

/-! ## What is written for a block -/

namespace DocumentSource
variable {source : DocumentSource}

/-- What exact export writes for a block. -/
def bodyOf (source : DocumentSource) (block : Block) : Option (List Char) :=
  match source.regions.get? block.id with
  | some region => source.renderBody region block
  | none => some (serializeBlock block)

/-- What may stand in front of a block: the bytes in front of its region, or the newlines that are
    missing behind the text so far. -/
def Leads (source : DocumentSource) (block : Block) (gap : List Char) : Prop :=
  gap ∈ [[], ['\n'], ['\n', '\n']] ∨ ∃ region, source.regions.get? block.id = some region ∧
    slice region.leadingStart region.leadingEnd source.original = some gap

end DocumentSource

namespace DocumentSource
variable {source : DocumentSource} {blocks : List Block}

/-- Marking elements makes the blocks dirty that the map has for them; nothing else changes. -/
theorem foldl_markElemDirty (source) (es : List OpId) : es.foldl markElemDirty source =
      { source with dirty := (es.filterMap source.rootByElem.get?).reverse ++ source.dirty } := by
  induction es generalizing source with
  | nil => rfl
  | cons e es ih =>
    rw [foldl_cons, ih, markElemDirty]
    cases h : source.rootByElem.get? e with
    | none | some root => simp [markDirty, h]

/-- The source has the bytes of the blocks, and its map leads to them. -/
structure Adopted (source : DocumentSource) (blocks : List Block) : Prop where
  bytes : ∀ t ∈ blocks, ∃ region bytes, source.regions.get? t.id = some region ∧
    slice region.bodyStart region.bodyEnd source.original = some bytes
  owner : ∀ id region, source.regions.get? id = some region → ∃ t ∈ blocks, t.id = id
  blockRoots : source.rootByBlock = rootsBy Prod.fst blocks
  elemRoots : source.rootByElem = rootsBy Prod.snd blocks
  clean : source.dirty = []

theorem mem_rootEntries : x ∈ rootEntries blocks ↔ ∃ t ∈ blocks, x.1 ∈ labels t ∧ x.2 = t.id := by
  obtain ⟨label, id⟩ := x
  simp only [rootEntries, mem_flatMap, List.mem_map, Prod.mk.injEq]
  constructor
  · rintro ⟨t, ht, l, hl, rfl, rfl⟩
    exact ⟨t, ht, hl, rfl⟩
  · rintro ⟨t, ht, hl, rfl⟩
    exact ⟨t, ht, label, hl, rfl, rfl⟩

section
variable {K : Type} [LinearOrder K] {key : BlockId × OpId → K}

theorem rootsBy_eq : rootsBy key blocks = ((rootEntries blocks).map (fun e => (key e.1, e.2))).foldl
    (fun m e => m.insert e.1 e.2) .empty := by
  rw [foldl_map]
  rfl

/-- The map leads from an id to a block it labels. -/
theorem labels_of_rootsBy {k id} (h : (rootsBy key blocks).get? k = some id) :
    ∃ t ∈ blocks, t.id = id ∧ ∃ x ∈ labels t, key x = k := by
  rw [rootsBy_eq] at h
  rcases mem_of_get?_foldl_insert h with hmem | hempty
  · obtain ⟨x, hx, heq⟩ := mem_map.mp hmem
    obtain ⟨t, ht, hlabel, hid⟩ := mem_rootEntries.mp hx
    cases heq
    exact ⟨t, ht, hid.symm, x.1, hlabel, rfl⟩
  · rw [get?_empty] at hempty
    cases hempty

/-- If an id labels one block only, the map leads there. -/
theorem get?_rootsBy (ht : t ∈ blocks) (hx : x ∈ labels t)
    (honly : ∀ t' ∈ blocks, ∀ x' ∈ labels t', key x' = key x → t'.id = t.id) :
    (rootsBy key blocks).get? (key x) = some t.id := by
  rw [rootsBy_eq]
  have hkey : (key x, t.id) ∈ (rootEntries blocks).map (fun e => (key e.1, e.2)) :=
    mem_map.mpr ⟨(x, t.id), mem_rootEntries.mpr ⟨t, ht, hx, rfl⟩, rfl⟩
  obtain ⟨root, hmem, hget⟩ := exists_get?_foldl_insert (mem_map_of_mem hkey) .empty
  obtain ⟨y, hy, heq⟩ := mem_map.mp hmem
  obtain ⟨t', ht', hlabel, hroot⟩ := mem_rootEntries.mp hy
  rw [Prod.mk.injEq] at heq
  rw [hget, ← heq.2, hroot, honly t' ht' y.1 hlabel heq.1]

end

/-- The bytes of a region can be cut out. -/
def Cuts (text : List Char) (region : SourceRegion) : Prop :=
  ∃ bytes, slice region.bodyStart region.bodyEnd text = some bytes

theorem cuts_regionsFrom (h : LaidOut text position spans) :
    ∀ e ∈ regionsFrom position' spans, Cuts text e.2 := by
  induction spans generalizing position position' with
  | nil => simp [regionsFrom]
  | cons span spans ih =>
    obtain ⟨id, start, stop⟩ := span
    obtain ⟨-, hle, ⟨front, hstart⟩, ⟨all, hstop⟩, hrest⟩ := h
    rw [regionsFrom]
    refine forall_mem_cons.mpr ⟨?_, ih hrest⟩
    obtain ⟨bytes, hbytes, -⟩ := slice_of_takeBytes hstart hstop hle
    exact ⟨bytes, hbytes⟩

/-- The regions of a parsed text can be cut out of it. -/
theorem cuts_of_parseDocument [Segmentation]
    (h : parseDocument text = some parsed) (hs : parsed.source = some source) {id region}
    (hregion : source.regions.get? id = some region) : Cuts source.original region := by
  obtain ⟨⟨frontmatter, startIndex⟩, hr, -⟩ := bind_eq_some_iff.mp h
  obtain ⟨blocks, spans, hread⟩ := (parseDocument_layout hr).of_eq h
  rw [hread.eq] at hs
  obtain rfl := some.inj hs
  rcases mem_of_get?_foldl_insert hregion with hmem | hempty
  · exact cuts_regionsFrom hread.laid _ hmem
  · cases hempty

theorem adoptRegions
    (hcuts : ∀ id region, source.regions.get? id = some region → Cuts source.original region)
    {l regions} (h : List.Forall₂ (fun p e =>
      (source.regions.get? p.2).map (fun region => (p.1.id, region)) = some e) l regions) :
    regions.map Prod.fst = (l.map Prod.fst).map Block.id ∧
      ∀ e ∈ regions, Cuts source.original e.2 := by
  induction h with
  | nil => exact ⟨rfl, by simp⟩
  | @cons p e _ _ hp _ ih =>
    obtain ⟨region, hregion, rfl⟩ := map_eq_some_iff.mp hp
    exact ⟨by simp [ih.1], forall_mem_cons.mpr ⟨hcuts _ _ hregion, ih.2⟩⟩

theorem adopted_of_adoptFor {adopted}
    (hcuts : ∀ id region, source.regions.get? id = some region → Cuts source.original region)
    (h : source.adoptFor blocks = some adopted) : adopted.Adopted blocks := by
  unfold adoptFor at h
  split at h
  · cases h
  · next hlength =>
    obtain ⟨regions, hregions, h⟩ := bind_eq_some_iff.mp h
    obtain rfl := some.inj h
    have hzip : (blocks.zip source.order).map Prod.fst = blocks :=
      map_fst_zip (le_of_eq (not_not.mp hlength))
    obtain ⟨hids, hcut⟩ := adoptRegions hcuts (forall₂_of_mapM hregions)
    rw [hzip] at hids
    refine ⟨fun t ht => ?_, fun id region hget => ?_, rfl, rfl, rfl⟩
    · obtain ⟨region, hmem, hget⟩ := exists_get?_foldl_insert
        (hids ▸ mem_map_of_mem ht) .empty
      obtain ⟨bytes, hbytes⟩ := hcut _ hmem
      exact ⟨region, bytes, hget, hbytes⟩
    · rcases mem_of_get?_foldl_insert hget with hmem | hempty
      · exact mem_map.mp (hids ▸ mem_map_of_mem hmem)
      · cases hempty

end DocumentSource

/-! ## Runs -/

namespace SourceStep
variable {step : SourceStep} {source : DocumentSource} {adopted : List Block} {d : Document}

/-- The step is aimed at what the label stands for. -/
def Targets (d : Document) (x : BlockId × OpId) : SourceStep → Prop
  | .doc op => x.2 ∈ d.targets op
  | .direct edit => x.1 = edit.blockId

def placements : SourceStep → List MovedBlockWire
  | .doc op => op.placements
  | .direct _ => []

/-- The blocks that a step makes dirty. -/
def roots (source : DocumentSource) (d : Document) : SourceStep → List BlockId
  | .doc op => ((d.marks op).filterMap source.rootByElem.get?).reverse
  | .direct edit =>
    if (edit.run d).isSome then (source.rootByBlock.get? edit.blockId).toList else []

theorem mark_eq (source) : step.mark d source =
    { source with dirty := step.roots source d ++ source.dirty } := by
  cases step with
  | doc op => exact foldl_markElemDirty source _
  | direct edit =>
    simp only [mark, roots, markBlockDirty, markDirty]
    split
    · cases source.rootByBlock.get? edit.blockId <;> rfl
    · rfl

/-- Only blocks that a step is aimed at become dirty. -/
theorem targets_of_roots (ha : source.Adopted adopted) {id} (h : id ∈ step.roots source d) :
    ∃ t ∈ adopted, t.id = id ∧ ∃ x ∈ labels t, step.Targets d x := by
  cases step with
  | doc op =>
    obtain ⟨e, he, hroot⟩ := mem_filterMap.mp (mem_reverse.mp h)
    rw [ha.elemRoots] at hroot
    obtain ⟨t, ht, hid, x, hx, rfl⟩ := labels_of_rootsBy hroot
    exact ⟨t, ht, hid, x, hx, d.marks_subset_targets op he⟩
  | direct edit =>
    simp only [roots] at h
    split at h
    · have hroot := mem_toList.mp h
      rw [ha.blockRoots] at hroot
      exact labels_of_rootsBy hroot
    · cases h

end SourceStep

/-- A move among the steps gave the element id to the block. -/
def GivenElem (steps : List SourceStep) (e : OpId) (id : BlockId) : Prop :=
  ∃ step ∈ steps, ∃ m ∈ step.placements, m.id = e ∧ m.blockId = id

/-- A block of the source that is not dirty has the content it was adopted with, and the element id
    it was adopted with or one that a move gave it. -/
def Tracked (adopted : List Block) (steps : List SourceStep) (dirty : List BlockId) (b : Block) :
    Prop :=
  ∀ t ∈ adopted, t.id = b.id → b.id ∈ dirty ∨
    t.kind = b.kind ∧ t.marks = b.marks ∧ (b.elemId = t.elemId ∨ GivenElem steps b.elemId b.id)

theorem Tracked.mono {adopted steps steps' dirty dirty' b} (h : Tracked adopted steps dirty b)
    (hsteps : steps ⊆ steps') (hdirty : dirty ⊆ dirty') : Tracked adopted steps' dirty' b := by
  intro t ht hid
  rcases h t ht hid with hd | ⟨hkind, hmarks, helem⟩
  · exact .inl (hdirty hd)
  · refine .inr ⟨hkind, hmarks, helem.imp_right ?_⟩
    rintro ⟨step, hstep, hm⟩
    exact ⟨step, hsteps hstep, hm⟩

/-- Blocks are told apart by the ids inside them. -/
def Separate (blocks : List Block) : Prop :=
  ∀ t ∈ blocks, ∀ x ∈ labels t, ∀ t' ∈ blocks, ∀ x' ∈ labels t',
    x'.1 = x.1 ∨ x'.2 = x.2 → t'.id = t.id

/-- Once the blocks that the map has for an element are dirty, and those that a move gave it to,
    nothing is asked of the blocks it names. -/
theorem frees_of_dirty {source : DocumentSource} {adopted steps dirty} (h : source.Adopted adopted)
    (hsep : Separate adopted) (hroot : ∀ id, source.rootByElem.get? e = some id → id ∈ dirty)
    (hplaced : ∀ t ∈ adopted, GivenElem steps e t.id → t.id ∈ dirty) :
    Frees (Tracked adopted steps dirty) e := by
  intro b hb hnames b' hid t ht htid
  rw [hid] at htid ⊢
  refine .inl ?_
  have hinside : Names e t → b.id ∈ dirty := by
    rintro ⟨id, hin⟩
    refine htid ▸ hroot t.id ?_
    rw [h.elemRoots]
    exact get?_rootsBy ht hin (fun t' ht' x' hx' hkey => hsep t ht _ hin t' ht' x' hx' (.inr hkey))
  rcases hb t ht htid with hdirty | ⟨hkind, -, helem⟩
  · exact hdirty
  · obtain ⟨id, hlabel⟩ := hnames
    rw [labels_eq] at hlabel
    rcases mem_cons.mp hlabel with heq | hlabel
    · cases heq
      rcases helem with helem | hplace
      · refine hinside ⟨t.id, ?_⟩
        rw [labels_eq, helem]
        exact mem_cons_self
      · exact htid ▸ hplaced t ht (htid ▸ hplace)
    · refine hinside ⟨id, ?_⟩
      rw [labels_eq, hkind]
      exact mem_cons_of_mem _ hlabel

/-- A direct edit that finds the block it is meant for keeps a document intact if nothing is asked
    of that block. -/
theorem DirectEdit.run_intact {G : Block → Prop} {edit : DirectEdit} {d d' : Document}
    (h : Whole G d) (hfound : ∀ p ∈ edit.found d, p.2.id = edit.blockId)
    (hfree : Exempt G edit.blockId) (hrun : edit.run d = some d') : Whole G d' := by
  obtain ⟨p, hp, hrun⟩ := bind_eq_some_iff.mp hrun
  obtain ⟨new, -, rfl⟩ := map_eq_some_iff.mp hrun
  have hid := hfound p hp
  obtain ⟨e, -, hvalue⟩ := bind_eq_some_iff.mp hp
  obtain ⟨b, hb, rfl⟩ := map_eq_some_iff.mp hvalue
  rw [Sequence.updateValue_of_value? hb (fun b =>
    { b with kind := b.kind.modifyText new.1, marks := new.2 })]
  refine ⟨h.sane.withValue (.refl _) (fun b' _ hs => ?_), intact_iff.mpr
    ((intact_iff.mp h.intact).withValue (fun b' hb' hin => ?_))⟩
  · have hm := hs.modifyText (f := new.1) (.refl _) (fun _ _ => trivial)
    exact ⟨⟨hm.elemId, hm.owns, hm.wrote⟩, hm.kind⟩
  · obtain rfl : b = b' := some.inj (hb.symm.trans hb')
    exact ⟨hfree _ hid, hin.kind.modifyText _⟩

namespace SourcedDocument
variable [Segmentation]
variable {d : SourcedDocument} {steps : List SourceStep} {source : DocumentSource}
  {adopted : List Block}

def dirty (d : SourcedDocument) : List BlockId :=
  match d.source with
  | none => []
  | some source => source.dirty

/-- An operation creates no block under the id of an adopted one, and targets no element that a
    move has given to an adopted block, unless that block is dirty already; a direct edit finds a
    block with the id it goes by. -/
def Admits (d : SourcedDocument) (adopted : List Block) (earlier : List SourceStep) :
    SourceStep → Prop
  | .doc op => (∀ id ∈ op.createdIds, ∀ t ∈ adopted, t.id ≠ id) ∧
    ∀ e ∈ d.document.targets op, ∀ t ∈ adopted,
      GivenElem (earlier ++ [.doc op]) e t.id → t.id ∈ d.dirty
  | .direct edit => ∀ p ∈ edit.found d.document, p.2.id = edit.blockId

/-- Each step of a run is admitted where it is made. -/
def Traceable (d : SourcedDocument) (adopted : List Block) (steps : List SourceStep) : Prop :=
  ∀ earlier step later, steps = earlier ++ step :: later →
    (d.applyAll earlier).Admits adopted earlier step

/-- A step of the run is aimed at what the label stands for. -/
def Targets (d : SourcedDocument) (steps : List SourceStep) (x : BlockId × OpId) : Prop :=
  ∃ earlier step later, steps = earlier ++ step :: later ∧
    step.Targets (d.applyAll earlier).document x

theorem applyAll_append_singleton (d : SourcedDocument) (steps step) :
    d.applyAll (steps ++ [step]) = (d.applyAll steps).apply step := foldl_concat ..

theorem Targets.append (h : d.Targets steps x) (step) : d.Targets (steps ++ [step]) x := by
  obtain ⟨earlier, step', later, rfl, hx⟩ := h
  exact ⟨earlier, step', later ++ [step], by simp, hx⟩

theorem Traceable.of_append (h : d.Traceable adopted (steps ++ [step])) :
    d.Traceable adopted steps := by
  rintro earlier step' later rfl
  exact h earlier step' (later ++ [step]) (by simp)

/-- What holds of a source after some steps: only the dirty blocks have changed, and a step was
    aimed at each of them. -/
structure Follows (source : DocumentSource) (adopted : List Block) (d : SourcedDocument)
    (steps : List SourceStep) (dirty : List BlockId) : Prop where
  now : (d.applyAll steps).source = some { source with dirty := dirty }
  marked : ∀ id ∈ dirty, ∃ t ∈ adopted, t.id = id ∧ ∃ x ∈ labels t, d.Targets steps x

theorem Follows.apply {dirty} (ha : source.Adopted adopted)
    (h : Follows source adopted d steps dirty) (step) : Follows source adopted d (steps ++ [step])
      (step.roots source (d.applyAll steps).document ++ dirty) := by
  refine ⟨?_, fun id hid => ?_⟩
  · rw [applyAll_append_singleton, SourcedDocument.apply, h.now]
    simp only [map_some, SourceStep.mark_eq]
    rfl
  · rcases mem_append.mp hid with hid | hid
    · obtain ⟨t, ht, htid, x, hx, htarget⟩ := SourceStep.targets_of_roots ha hid
      exact ⟨t, ht, htid, x, hx, steps, step, [], rfl, htarget⟩
    · obtain ⟨t, ht, htid, x, hx, htarget⟩ := h.marked id hid
      exact ⟨t, ht, htid, x, hx, htarget.append step⟩

theorem follows_nil (hs : d.source = some source) (hclean : source.dirty = []) :
    Follows source adopted d [] [] :=
  ⟨by rw [← hclean]; exact hs, by simp⟩

/-- One step: what is not dirty afterwards has its content still. -/
theorem tracked_apply (ha : source.Adopted adopted) (hsep : Separate adopted) {step dirty}
    (hf : Follows source adopted d steps dirty) (ht : d.Traceable adopted (steps ++ [step]))
    (h : Whole (Tracked adopted steps dirty) (d.applyAll steps).document) :
    Whole (Tracked adopted (steps ++ [step])
        (step.roots source (d.applyAll steps).document ++ dirty))
      (d.applyAll (steps ++ [step])).document := by
  have hadmits := ht steps step [] rfl
  rw [applyAll_append_singleton]
  have hmono : Whole (Tracked adopted (steps ++ [step])
      (step.roots source (d.applyAll steps).document ++ dirty)) (d.applyAll steps).document :=
    ⟨h.sane, h.intact.mono (fun b hb => hb.mono (subset_append_left steps [step])
      (subset_append_right _ dirty))⟩
  cases step with
  | doc op =>
    obtain ⟨hcreated, hplaced⟩ := hadmits
    refine applyDocOp_intact hmono (fun e he => ?_) (fun id hid b hb t ht htid => ?_)
      (fun m hm b hb hid t ht htid => ?_)
    · refine frees_of_dirty ha hsep (fun id hroot => ?_) (fun t ht hplace => ?_)
      · exact mem_append_left _ (mem_reverse.mpr (mem_filterMap.mpr ⟨e, he, hroot⟩))
      · have hmem := hplaced e (Document.marks_subset_targets _ op he) t ht hplace
        rw [SourcedDocument.dirty, hf.now] at hmem
        exact mem_append_right _ hmem
    · exact (hcreated id hid t ht (htid.trans hb)).elim
    · rcases hb t ht htid with hd | ⟨hkind, hmarks, -⟩
      · exact .inl hd
      · exact .inr ⟨hkind, hmarks, .inr ⟨.doc op, by simp, m, hm, rfl, hid.symm⟩⟩
  | direct edit =>
    simp only [SourcedDocument.apply, SourceStep.run]
    cases hrun : edit.run (d.applyAll steps).document with
    | none => exact hmono
    | some d' =>
      refine edit.run_intact hmono hadmits (fun b hb t ht htid => .inl (mem_append_left _ ?_)) hrun
      have hlabel : (t.id, t.elemId) ∈ labels t := by
        rw [labels_eq]
        exact mem_cons_self
      have hroot : (rootsBy Prod.fst adopted).get? t.id = some t.id := get?_rootsBy ht hlabel
        (fun t' ht' x' hx' hkey => hsep t ht _ hlabel t' ht' x' hx' (.inl hkey))
      simp only [SourceStep.roots, hrun, ha.blockRoots, isSome_some, if_true, ← hb, ← htid, hroot]
      exact mem_singleton_self _

/-- A whole run. -/
theorem tracked_applyAll (ha : source.Adopted adopted) (hsep : Separate adopted)
    (hs : d.source = some source) (hd : Whole (Tracked adopted [] []) d.document)
    (ht : d.Traceable adopted steps) : ∃ dirty, Follows source adopted d steps dirty ∧
      Whole (Tracked adopted steps dirty) (d.applyAll steps).document := by
  induction steps using List.reverseRecOn with
  | nil => exact ⟨[], follows_nil hs ha.clean, hd⟩
  | append_singleton steps step ih =>
    obtain ⟨dirty, hf, h⟩ := ih ht.of_append
    exact ⟨_, hf.apply ha step, tracked_apply ha hsep hf ht h⟩

end SourcedDocument

/-! ## Export after a run -/

/-- The block has the content that one of the adopted blocks had under its id. -/
def Unchanged (adopted : List Block) (b : Block) : Prop :=
  ∃ t ∈ adopted, t.id = b.id ∧ t.kind = b.kind ∧ t.marks = b.marks

/-- The id of a top-level block is the id of no other block. -/
def Document.Identified (d : Document) : Prop :=
  Whole (fun b => ∀ t ∈ d.blocks.iter, t.id = b.id → t = b) d

/-- After a run that is traceable, a block whose content has changed is written from its content,
    and a block that no step was aimed at is written from its bytes. -/
theorem exact_export_reflects_edits [Segmentation] {text : List Char} {d parsed : SourcedDocument}
    {source : DocumentSource} (hparsed : parseDocument text = some parsed)
    (hsource : (d.adoptSourceFrom parsed).source = some source)
    (hids : d.document.Identified) (hsep : Separate d.document.blocks.iter)
    {steps : List SourceStep}
    (hsteps : (d.adoptSourceFrom parsed).Traceable d.document.blocks.iter steps) :
    ∃ current, ((d.adoptSourceFrom parsed).applyAll steps).source = some current ∧
      ∀ b ∈ ((d.adoptSourceFrom parsed).applyAll steps).document.blocks.iter,
        (¬Unchanged d.document.blocks.iter b → current.bodyOf b = some (serializeBlock b)) ∧
        ∀ t ∈ d.document.blocks.iter, t.id = b.id →
          (∀ x ∈ labels t, ¬(d.adoptSourceFrom parsed).Targets steps x) →
          ∃ region bytes, source.regions.get? t.id = some region ∧
            slice region.bodyStart region.bodyEnd source.original = some bytes ∧
            current.bodyOf b = some bytes := by
  obtain ⟨base, hbase, hadopt⟩ := bind_eq_some_iff.mp hsource
  rcases ite_eq_iff.mp hadopt with ⟨-, hnone⟩ | ⟨-, hadopt⟩
  · cases hnone
  have ha := adopted_of_adoptFor
    (fun id region hregion => cuts_of_parseDocument hparsed hbase hregion) hadopt
  have hstart : Whole (Tracked d.document.blocks.iter [] []) (d.adoptSourceFrom parsed).document :=
    ⟨hids.sane, hids.intact.mono (fun b hb t ht hid => by
      obtain rfl := hb t ht hid
      exact .inr ⟨rfl, rfl, .inl rfl⟩)⟩
  obtain ⟨dirty, hf, hw⟩ := SourcedDocument.tracked_applyAll ha hsep hsource hstart hsteps
  refine ⟨_, hf.now, fun b hb => ⟨fun hchanged => ?_, fun t ht hid huntouched => ?_⟩⟩
  · have htracked := (hw.intact.iter hb).self
    rw [bodyOf]
    split
    · next region hregion =>
      obtain ⟨t, ht, hid⟩ := ha.owner b.id region hregion
      have hdirty : b.id ∈ dirty := (htracked t ht hid).resolve_right
        (fun hsame => hchanged ⟨t, ht, hid, hsame.1, hsame.2.1⟩)
      rw [renderBody, if_pos hdirty]
    · rfl
  · obtain ⟨region, bytes, hregion, hbytes⟩ := ha.bytes t ht
    have hclean : b.id ∉ dirty := by
      intro hdirty
      obtain ⟨t', ht', hid', x, hx, htargets⟩ := hf.marked _ hdirty
      obtain rfl := (hids.intact.iter ht').self t ht (hid.trans hid'.symm)
      exact huntouched x hx htargets
    refine ⟨region, bytes, hregion, hbytes, ?_⟩
    rw [bodyOf, ← hid, hregion]
    simp only [renderBody, hclean, if_false]
    exact hbytes

/-! ## A block that is moved and then edited -/

section
attribute [local instance] charSegmentation

def twoLines : List Char := ['a', '\n', '\n', 'b', '\n']

def paragraphAt (after : Option OpId) (id : OpId) (text : String) : DocOp :=
  .insertBlock none after id none ⟨blockIdFromOp id, .paragraph text⟩

/-- A document with these two lines, written by one peer. -/
def twoParagraphs : SourcedDocument :=
  ⟨[paragraphAt none ⟨1, 1⟩ "a", paragraphAt (some ⟨1, 1⟩) ⟨3, 1⟩ "b"].foldl applyDocOp
    .new, none⟩

/-- The first block goes behind the second. -/
def moveDown : DocOp :=
  .moveBlocks none ⟨5, 1⟩ [⟨⟨1, 1⟩, ⟨1, 1⟩, ⟨5, 1⟩, some ⟨3, 1⟩, none⟩]

/-- A letter behind the text of the first block, which stands under an element id. -/
def typeAt (elem : OpId) : DocOp := .insertText elem ⟨1, 1⟩ [⟨⟨6, 1⟩, some ⟨2, 1⟩, none, "x"⟩]

/-- The second block is made bold. -/
def boldSecond : DirectEdit where
  blockId := ⟨1, 3⟩
  indexed := true
  update b := some (id, b.marks.setMark ⟨7, 1⟩ .bold ⟨⟨4, 1⟩, .before⟩ ⟨⟨4, 1⟩, .after⟩
    .empty ⟨7, 1⟩)

theorem serializeBlock_congr (hkind : b.kind = b'.kind) (hmarks : b.marks = b'.marks) :
    serializeBlock b = serializeBlock b' := by
  obtain ⟨_, _, _, _, kind, marks⟩ := b
  obtain ⟨_, _, _, _, kind', marks'⟩ := b'
  obtain rfl : kind = kind' := hkind
  obtain rfl : marks = marks' := hmarks
  rw [serializeBlock, serializeBlock]

/-- The two paragraphs. -/
def firstLine : Block :=
  ⟨⟨1, 1⟩, ⟨1, 1⟩, ⟨1, 1⟩, .new, .paragraph (unitsFromStr "a" 2 1), .new⟩

def secondLine : Block :=
  ⟨⟨1, 3⟩, ⟨3, 1⟩, ⟨3, 1⟩, .new, .paragraph (unitsFromStr "b" 4 1), .new⟩

theorem iter_twoParagraphs : twoParagraphs.document.blocks.iter = [firstLine, secondLine] := rfl

theorem identified_twoParagraphs : twoParagraphs.document.Identified := by
  have hleaf : ∀ {G : Block → Prop} (text : Sequence TextUnit), IntactKind G (.paragraph text) :=
    fun _ => .leaf (by simp) (by simp)
  refine ⟨?_, intact_iff.mpr ?_⟩
  · have hnew : Rules.any.Blocks Document.new.blocks := Rules.blocks_new
    have hone := applyDocOp_keeps hnew (.refl _) (fits_any (paragraphAt none ⟨1, 1⟩ "a"))
    exact applyDocOp_keeps hone (.refl _) (fits_any (paragraphAt (some ⟨1, 1⟩) ⟨3, 1⟩ "b"))
  · have hfirst : IntactBlock (fun b => ∀ t ∈ twoParagraphs.document.blocks.iter,
        t.id = b.id → t = b) firstLine := by
      refine ⟨?_, hleaf _⟩
      rw [iter_twoParagraphs]
      simp [firstLine, secondLine]
    have hsecond : IntactBlock (fun b => ∀ t ∈ twoParagraphs.document.blocks.iter,
        t.id = b.id → t = b) secondLine := by
      refine ⟨?_, hleaf _⟩
      rw [iter_twoParagraphs]
      simp [firstLine, secondLine]
    show Sequence.Shows _ ((Sequence.new.apply (.insert none ⟨1, 1⟩ firstLine none)).apply
      (.insert (some ⟨1, 1⟩) ⟨3, 1⟩ secondLine none))
    exact (Sequence.shows_new.insert none hfirst).insert none hsecond

theorem separate_twoParagraphs : Separate twoParagraphs.document.blocks.iter := by
  rw [iter_twoParagraphs]
  simp [Separate, firstLine, secondLine, labels, labelsKind]

/-- A letter is typed into the first block, and the second one is made bold. -/
def afterEdits (parsed : SourcedDocument) : SourcedDocument :=
  (twoParagraphs.adoptSourceFrom parsed).applyAll [.doc (typeAt ⟨1, 1⟩), .direct boldSecond]

theorem traceable_typeAt (parsed adopted) : (twoParagraphs.adoptSourceFrom parsed).Traceable adopted
      [.doc (typeAt ⟨1, 1⟩), .direct boldSecond] := by
  rintro (_ | ⟨first, _ | _⟩) step later heq
  · cases heq
    refine ⟨by simp [typeAt, DocOp.createdIds], fun e he t ht hplaced => ?_⟩
    obtain ⟨step, hstep, m, hm, -⟩ := hplaced
    obtain rfl := mem_singleton.mp hstep
    cases hm
  · cases heq
    show ∀ p ∈ boldSecond.found (applyDocOp twoParagraphs.document (typeAt ⟨1, 1⟩)), p.2.id = ⟨1, 3⟩
    decide +kernel
  · simp at heq

theorem exact_export_typeAt : ∃ parsed current, parseDocument twoLines = some parsed ∧
      (afterEdits parsed).source = some current ∧ ∀ b ∈ (afterEdits parsed).document.blocks.iter,
        ¬Unchanged twoParagraphs.document.blocks.iter b →
          current.bodyOf b = some (serializeBlock b) := by
  have hsome : (parseDocument twoLines).isSome := by decide +kernel
  have hadopt : ∀ parsed ∈ parseDocument twoLines,
      (twoParagraphs.adoptSourceFrom parsed).source.isSome := by decide +kernel
  obtain ⟨parsed, hparsed⟩ := isSome_iff_exists.mp hsome
  obtain ⟨source, hsource⟩ := isSome_iff_exists.mp (hadopt parsed hparsed)
  obtain ⟨current, hcurrent, hbodies⟩ := exact_export_reflects_edits hparsed hsource
    identified_twoParagraphs separate_twoParagraphs (traceable_typeAt _ _)
  exact ⟨parsed, current, hparsed, hcurrent, fun b hb => (hbodies b hb).1⟩

/-- The first block is moved, and a letter is typed into it. -/
def afterMove (parsed : SourcedDocument) : SourcedDocument :=
  (twoParagraphs.adoptSourceFrom parsed).applyAll [.doc moveDown, .doc (typeAt ⟨5, 1⟩)]

/-- The text that is typed after the move is missing in the export. -/
theorem exact_export_misses_edit : ∃ parsed current b, parseDocument twoLines = some parsed ∧
      (afterMove parsed).source = some current ∧ b ∈ (afterMove parsed).document.blocks.iter ∧
      ¬Unchanged twoParagraphs.document.blocks.iter b ∧
      serializeBlock b = ['a', 'x'] ∧ current.bodyOf b = some ['a'] ∧
      (afterMove parsed).serialize .exact = some ['b', '\n', '\n', 'a', '\n'] := by
  have hsome : (parseDocument twoLines).isSome := by decide +kernel
  have hrun : ∀ parsed ∈ parseDocument twoLines, ∃ current ∈ (afterMove parsed).source,
      (∃ b ∈ (afterMove parsed).document.blocks.iter,
        serializeBlock b = ['a', 'x'] ∧ current.bodyOf b = some ['a']) ∧
      (afterMove parsed).serialize .exact = some ['b', '\n', '\n', 'a', '\n'] := by
    decide +kernel
  have hbefore : ∀ t ∈ twoParagraphs.document.blocks.iter, serializeBlock t ≠ ['a', 'x'] := by
    decide +kernel
  obtain ⟨parsed, hparsed⟩ := isSome_iff_exists.mp hsome
  obtain ⟨current, hcurrent, ⟨b, hb, hlive, hbody⟩, hexport⟩ := hrun parsed hparsed
  refine ⟨parsed, current, b, hparsed, hcurrent, hb, ?_, hlive, hbody, hexport⟩
  rintro ⟨t, ht, -, hkind, hmarks⟩
  exact hbefore t ht ((serializeBlock_congr hkind hmarks).trans hlive)

end
end MdCrdt
