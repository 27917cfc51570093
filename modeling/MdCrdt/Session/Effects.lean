import MdCrdt.Doc.Lookups
import MdCrdt.Session.Blockwise

/- Operations keep the rules of a document.

  What an operation brings in is judged once (`DocOp.Fits`): the ids and writers it
  names, what its text operations do to a body, what its table operation does to a
  table. An operation that fits takes a document that keeps `R` to one that keeps
  `R'` (`applyDocOp_keeps`), whatever the document is and wherever the operation
  lands in it. -/
namespace MdCrdt
open Lib List Option Document
variable {R R' : Rules} {d : Document} {id : OpId}

/-! ## Edits of a document -/

namespace Document
section
variable (h : R.Blocks d.blocks)
variable (parent : Option OpId)
include h

theorem applyAt_keeps (hop : op.Ok R.Stands) : R.Blocks (d.applyAt parent op).1.blocks := by
  cases parent with
  | none => exact h.apply hop
  | some p =>
    simp only [applyAt, withContainerChildrenMut]
    cases (containers d.blocks).find? (fun c => c.1 = p) with
    | none => exact h
    | some c => exact Rules.Blocks.modifyChildrenAt (.refl R) c.2 h (fun _ _ hc => hc.apply hop)

theorem insertBlockAt_keeps (after) (hb : R.Stands id b) (ro) :
    R.Blocks (d.insertBlockAt parent after id b ro).1.blocks :=
  applyAt_keeps h parent hb

theorem deleteBlockAt_keeps (target id) : R.Blocks (d.deleteBlockAt parent target id).1.blocks :=
  applyAt_keeps h parent trivial

theorem withBlockMut_keeps {A : Type} (hle : R.Le R') {elem} {f : Block → Block × A}
    (hf : ∀ id b, d.findBlock elem = some b → R.Stands id b → R'.Stands id (f b).1) {d' a}
    (hd : d.withBlockMut elem f = some (d', a)) :
    R'.Blocks d'.blocks ∧ ∃ b, d.findBlock elem = some b ∧ R.Stands elem b ∧ a = (f b).2 := by
  unfold withBlockMut at hd
  split at hd
  · next b path hb hp =>
    obtain ⟨rfl, rfl⟩ := Prod.mk.inj (some.inj hd)
    obtain ⟨-, path', hp', hat⟩ := findBlock_eq_some.mp hb
    obtain rfl : path' = path := some.inj (hp'.symm.trans hp)
    exact ⟨h.modifyAtPath hle (fun b' hat' => hf _ b' (hb.trans (hat.symm.trans hat'))), b, hb,
      findBlock_stands h hb, rfl⟩
  · cases hd

theorem updateBlock_keeps (hle : R.Le R') (elem)
    {f : Block → Block} (hf : ∀ id b, R.Stands id b → R'.Stands id (f b)) :
    R'.Blocks (d.updateBlock elem f).blocks := by
  unfold updateBlock
  cases hd : d.withBlockMut elem (fun block => (f block, ())) with
  | none => exact h.mono hle
  | some r => exact (withBlockMut_keeps h hle (fun id b _ => hf id b) hd).1

end

end Document

theorem textKind_keeps (h : R.text body) : R.Kind (textKind kind body) := by
  cases kind with
  | paragraph => exact .paragraph h
  | heading level => exact .heading h

/-- The rules of a document, block by block. -/
abbrev Rules.blockwise (R : Rules) : Blockwise where
  doc := fun d => R.Blocks d.blocks
  block := R.Stands
  placed := R.Stands
  kind := R.Kind
  items := R.Items
  item := R.ItemStands
  waits := R.Waits
  writes := R.wrote
  free := fun _ => True
  withBlockMut := fun h _ hf hd => by
    obtain ⟨hd', b, -, hb⟩ := withBlockMut_keeps h (.refl R) (fun id b _ hb => (hf id b hb).1) hd
    exact ⟨hd', _, b, hb⟩
  insertBlockAt := fun _ _ h _ hb _ => insertBlockAt_keeps h _ _ hb _
  deleteBlockAt := fun _ _ h _ => deleteBlockAt_keeps h _ _ _
  buryBlockAt := fun _ _ _ h _ hb _ => deleteBlockAt_keeps (insertBlockAt_keeps h _ _ hb _) _ _ _
  kindOf := fun hb => hb.kind
  withKind := fun hb hk => hb.withKind hk
  written := fun _ hb hid => ⟨⟨hb.elemId, hb.owns, hid⟩, hb.kind⟩
  list := ⟨fun hk => hk.items rfl, fun h => .list h.1 h.2⟩
  text := fun _ hb hk => textKind_keeps (hk.textOf hb)
  codeFence := .codeFence
  rawBlock := .rawBlock
  insert := fun _ _ h hi => h.apply hi
  delete := fun _ _ h => h.apply trivial
  task := fun _ _ _ h hid => h.withValue (.refl R) (fun _ _ hi => ⟨⟨hi.places, hid⟩, hi.children⟩)
  lost := fun hm => ⟨⟨hm.places, hm.wrote⟩, blocks_new⟩
  found := fun h hitem hm => by
    obtain ⟨⟨place, hstands⟩, hid⟩ := findListItemById_stands h hitem
    exact ⟨⟨by simpa only [hid] using hm.places, hstands.wrote⟩, hstands.children⟩

namespace Document
variable {moves : List MovedBlockWire}

/-! ## Moving blocks -/

/-- The ids a move brings in are in order. -/
def MovesFit (R : Rules) (moves : List MovedBlockWire) : Prop :=
  ∀ m ∈ moves, R.owns m.id m.blockId ∧ R.wrote m.id

/-- A clone of a moved block is the block that the move names. -/
def Clones (R : Rules) (m : MovedBlockWire) (p : Block × Option (Option OpId)) : Prop :=
  p.1.id = m.blockId ∧ R.wrote p.1.kindOp ∧ R.Kind p.1.kind

section
variable (h : R.Blocks d.blocks)
include h

theorem prepareMoves_clones (hm : MovesFit R moves)
    (hp : d.prepareMoves toParent moves = some (prepared, loses)) :
    List.Forall₂ (fun p m => Clones R m p) prepared moves := by
  obtain ⟨hlen, hclones⟩ := forall₂_iff_zip.mp (prepareMoves_eq_some hp)
  refine forall₂_iff_zip.mpr ⟨hlen, fun {p m} hmem => ?_⟩
  rcases hclones hmem with ⟨heq, -⟩ | ⟨hb, -⟩
  · rw [Clones, heq]; exact ⟨rfl, (hm m (of_mem_zip hmem).2).2, .rawBlock⟩
  · obtain ⟨hstands, hid⟩ := findBlockById_stands h hb
    exact ⟨hid, hstands.wrote, hstands.kind⟩

/-- Every clone stands in order under the id of its move. -/
theorem clone_stands (hm : MovesFit R moves)
    (hp : d.prepareMoves toParent moves = some (prepared, loses)) (hmem : p ∈ prepared.zip moves) :
    R.Stands p.2.id { p.1.1 with elemId := p.2.id } := by
  obtain ⟨hid, hwrote, hkind⟩ := (forall₂_iff_zip.mp (prepareMoves_clones h hm hp)).2 hmem
  obtain ⟨howns, -⟩ := hm p.2 (of_mem_zip hmem).2
  exact ⟨⟨rfl, by simpa only [hid] using howns, hwrote⟩, hkind⟩

end

end Document

/-! ## Text and tables -/

theorem Rules.Stands.modifyText (hle : R.Le R') (hf : ∀ body, R.text body → R'.text (f body))
    (h : R.Stands id b) : R'.Stands id { b with kind := b.kind.modifyText f } := by
  refine (h.mono hle).withKind ?_
  obtain ⟨_, _, _, _, kind, _⟩ := b
  have hk := h.kind
  cases hk with
  | paragraph ht => exact .paragraph (hf _ ht)
  | heading ht => exact .heading (hf _ ht)
  | list hi hw => exact .list (hi.mono hle) (fun m hm => (hw m hm).mono hle)
  | codeFence => exact .codeFence
  | blockQuote hc => exact .blockQuote (hc.mono hle)
  | rawBlock => exact .rawBlock
  | table ht => exact .table (hle.table _ ht)

theorem Rules.Stands.modifyTable (hle : R.Le R')
    (hf : ∀ t, R.table t → R'.table (f t)) (h : R.Stands id b) :
    R'.Stands id (b.modifyTable f) := by
  unfold Block.modifyTable
  cases hk : b.kind with
  | table t => exact (h.mono hle).withKind (.table (hf t (h.kind.tableOf hk)))
  | _ => exact h.mono hle

theorem updateTable_keeps (h : R.Blocks d.blocks) (hle : R.Le R') (tableElem tableId)
    (hf : ∀ t, R.table t → R'.table (f t)) : R'.Blocks (updateTable d tableElem tableId f).blocks :=
  updateBlock_keeps h hle _ (fun _ _ hb => hb.modifyTable hle hf)

theorem modifyText_keeps (h : R.Blocks d.blocks) (hle : R.Le R') (elem)
    (hops : ∀ body, R.text body → R'.text (body.applyAll ops)) :
    R'.Blocks (d.updateBlock elem (fun block => block.modifyText ops)).blocks :=
  updateBlock_keeps h hle _ (fun _ _ hb => hb.modifyText hle hops)

/-! ## Skeletons -/

variable [Segmentation]

namespace Rules

mutual

/-- What a skeleton expands to keeps the rules. -/
def KindFits (R : Rules) (elem : OpId) : BlockKindSkeleton → Prop
  | .paragraph text | .heading _ text => R.text (unitsFromStr text (elem.counter + 1) elem.peer)
  | .list _ items => ItemsFit R items
  | .blockQuote children => ChildrenFit R children
  | .table => R.table (Table.new (blockIdFromOp elem) elem elem)
  | .codeFence _ _ _ | .rawBlock _ => True

def ChildrenFit (R : Rules) : List BlockSkeletonInsert → Prop
  | [] => True
  | ⟨_, id, _, ⟨blockId, kind⟩⟩ :: rest =>
    (R.owns id blockId ∧ R.wrote id) ∧ KindFits R id kind ∧ ChildrenFit R rest

def ItemsFit (R : Rules) : List ListItemSkeleton → Prop
  | [] => True
  | ⟨_, id, _, blockId, _, taskOp, children⟩ :: rest =>
    (R.places id blockId ∧ R.wrote taskOp) ∧ ChildrenFit R children ∧ ItemsFit R rest

end

/-- Properties of kinds, of children and of list items that what fits the rules keeps. -/
structure Expands (R : Rules) (K : BlockKind → Prop) (B : Sequence Block → Prop)
    (I : Sequence ListItem → Prop) : Prop where
  text {k body} : blockTextSeq k = some body → R.text body → K k
  table {t} : R.table t → K (.table t)
  codeFence {style info text} : K (.codeFence style info text)
  rawBlock {raw} : K (.rawBlock raw)
  list {style items} : I items → K (.list style items [])
  blockQuote {children} : B children → K (.blockQuote children)
  noBlocks : B .new
  noItems : I .new
  block {s after id b ro} : B s → R.Head id b → b.marks = .new → K b.kind →
    B (s.apply (.insert after id b ro))
  item {s after id v ro} : I s → R.Place id v → v.elemId = id → B v.children →
    I (s.apply (.insert after id v ro))

section
variable {K : BlockKind → Prop} {B : Sequence Block → Prop} {I : Sequence ListItem → Prop}

mutual

theorem Expands.kind (X : R.Expands K B I) {elem} : ∀ {k : BlockKindSkeleton},
    R.KindFits elem k → K (kindFromSkeleton elem k)
  | .paragraph _, h | .heading _ _, h => by
    rw [KindFits] at h
    rw [kindFromSkeleton]; exact X.text rfl h
  | .list _ _, h => by
    rw [KindFits] at h
    rw [kindFromSkeleton]; exact X.list (X.items h X.noItems)
  | .blockQuote _, h => by
    rw [KindFits] at h
    rw [kindFromSkeleton]; exact X.blockQuote (X.children h X.noBlocks)
  | .table, h => by
    rw [KindFits] at h
    rw [kindFromSkeleton]; exact X.table h
  | .codeFence _ _ _, _ => by
    rw [kindFromSkeleton]; exact X.codeFence
  | .rawBlock _, _ => by
    rw [kindFromSkeleton]; exact X.rawBlock

theorem Expands.children (X : R.Expands K B I) : ∀ {l : List BlockSkeletonInsert} {s},
    R.ChildrenFit l → B s → B (childrenFromSkeleton l s)
  | [], _, _, hs => by
    rw [childrenFromSkeleton]
    exact hs
  | ⟨_, _, _, ⟨_, _⟩⟩ :: rest, s, h, hs => by
    rw [ChildrenFit] at h
    obtain ⟨⟨howns, hwrote⟩, hkind, hrest⟩ := h
    rw [childrenFromSkeleton]
    exact X.children hrest
      (X.block hs ⟨rfl, howns, hwrote⟩ rfl (X.kind hkind))

theorem Expands.items (X : R.Expands K B I) : ∀ {l : List ListItemSkeleton} {s},
    R.ItemsFit l → I s → I (itemsFromSkeleton l s)
  | [], _, _, hs => by
    rw [itemsFromSkeleton]
    exact hs
  | ⟨_, _, _, _, _, _, _⟩ :: rest, s, h, hs => by
    rw [ItemsFit] at h
    obtain ⟨⟨hplaces, hwrote⟩, hchildren, hrest⟩ := h
    rw [itemsFromSkeleton]
    exact X.items hrest
      (X.item hs ⟨hplaces, hwrote⟩ rfl (X.children hchildren X.noBlocks))

end

end

omit [Segmentation] in
theorem expands (R : Rules) : R.Expands R.Kind R.Blocks R.Items where
  text {k body} hk h := by
    cases k with
    | paragraph => exact .paragraph (some.inj hk ▸ h)
    | heading => exact .heading (some.inj hk ▸ h)
    | _ => cases hk
  table := .table
  codeFence := .codeFence
  rawBlock := .rawBlock
  list h := .list h (by simp)
  blockQuote := .blockQuote
  noBlocks := blocks_new
  noItems := items_new
  block hs hb _ hk := hs.apply (⟨hb, hk⟩ : R.Stands _ _)
  item hs hv _ hc := hs.apply (⟨hv, hc⟩ : R.ItemStands _ _)

end Rules

/-! ## Operations -/

/-- What an operation brings in keeps the rules `R'`, where the document keeps `R`. -/
def DocOp.Fits (R R' : Rules) : DocOp → Prop
  | .insertBlock _ _ id _ block =>
    R'.owns id block.blockId ∧ R'.wrote id ∧ R'.KindFits id block.kind
  | .insertText _ _ units =>
    ∀ body, R.text body → R'.text (body.applyAll (units.map TextUnitWire.insertOp))
  | .deleteText _ _ id targets =>
    ∀ body, R.text body → R'.text (body.applyAll (targets.map (fun target => .delete target id)))
  | .moveBlocks _ _ blocks => MovesFit R' blocks
  | .splitBlock _ _ id newBlockId _ _ units =>
    R'.owns id newBlockId ∧ R'.wrote id ∧
      R'.text (Sequence.fromOrdered (units.map (fun unit => (unit.id, ⟨unit.grapheme⟩)))) ∧
      ∀ body, R.text body →
        R'.text (body.applyAll (units.map (fun unit => .delete unit.sourceId id)))
  | .mergeBlocks _ _ _ _ after rightOrigin units =>
    ∀ body, R.text body → R'.text (body.applyAll (chainOps after rightOrigin units))
  | .insertTableRow _ _ after id rightOrigin cells => ∀ t, R.table t →
    R'.table (t.applyInsertRow after id rightOrigin
      (cells.map (fun cell => (cell.columnId, cell.value))))
  | .insertTableColumn _ _ after id rightOrigin alignment header => ∀ t, R.table t →
    R'.table (t.applyInsertColumn after id rightOrigin (alignmentFromWire alignment) header)
  | .setTableCell _ _ rowId columnId id value observed => ∀ t, R.table t →
    R'.table (t.setCellObserved rowId columnId value id observed)
  | .deleteTableRow _ _ target id => ∀ t, R.table t → R'.table (t.removeRow target id)
  | .deleteTableRowById _ _ target rowId id => ∀ t, R.table t →
    R'.table (t.removeRowById rowId target id)
  | .deleteTableColumnById _ _ target columnId id => ∀ t, R.table t →
    R'.table (t.removeColumnById columnId target id)
  | .setTableColumnAlignment _ _ columnId id alignment observed => ∀ t, R.table t →
    R'.table (t.setColumnAlignmentObserved columnId (alignmentFromWire alignment) id observed)
  | .moveTableRow _ _ rowId target id after rightOrigin observed => ∀ t, R.table t →
    R'.table (t.moveRow rowId target id after rightOrigin observed).1
  | .moveTableColumn _ _ columnId target id after rightOrigin observed => ∀ t, R.table t →
    R'.table (t.moveColumn columnId target id after rightOrigin observed).1
  | .insertListItem _ _ _ id _ _ => R'.places id (blockIdFromOp id) ∧ R'.wrote id
  | .moveListItem _ _ _ itemId _ id _ _ _ => R'.places id itemId ∧ R'.wrote id
  | .setListStyle _ _ id _ _ | .setListItemTask _ id _ _ | .setCodeFence _ _ id _ _ _ _
  | .convertTextBlock _ _ id _ _ | .replaceRawBlock _ _ id _ _ => R'.wrote id
  | .deleteBlock _ _ _ | .deleteBlockById _ _ _ _ | .setMark _ _ _ _ _ _ _ | .removeMark _ _ _ _ _
  | .setFrontmatterField _ _ _ | .initializeFrontmatter _ _ | .deleteListItemById _ _ _ _ _ => True

section
variable (h : R.Blocks d.blocks)
include h

theorem applySplitBlock_keeps (hle : R.Le R') {parent ro target newBlockId kind units}
    (hf : (DocOp.splitBlock parent target id newBlockId ro kind units).Fits R R') :
    R'.Blocks (applySplitBlock d parent target id newBlockId ro kind units).blocks := by
  obtain ⟨howns, hwrote, hbody, hdel⟩ := hf
  unfold applySplitBlock
  split
  · exact h.mono hle
  · next d' marks hd =>
    obtain ⟨hd', -⟩ := withBlockMut_keeps h hle (fun _ _ _ hb => hb.modifyText hle hdel) hd
    have hstands : R'.Stands id ⟨newBlockId, id, id, .new, textKind kind
        (Sequence.fromOrdered (units.map (fun unit => (unit.id, ⟨unit.grapheme⟩)))), marks⟩ :=
      ⟨⟨rfl, howns, hwrote⟩, textKind_keeps hbody⟩
    exact insertBlockAt_keeps hd' _ _ hstands _

theorem applyMergeBlocks_keeps (hle : R.Le R') {parent after ro left right units}
    (hf : (DocOp.mergeBlocks parent left right id after ro units).Fits R R') :
    R'.Blocks (applyMergeBlocks d parent left right id after ro units).blocks := by
  unfold applyMergeBlocks
  refine deleteBlockAt_keeps (updateBlock_keeps h hle _ (fun e b hb => ?_)) _ _ _
  have hm := hb.modifyText hle hf
  exact ⟨⟨hm.elemId, hm.owns, hm.wrote⟩, hm.kind⟩

/-- An operation that fits keeps the rules. -/
theorem applyDocOp_keeps (hle : R.Le R') (hf : op.Fits R R') :
    R'.Blocks (applyDocOp d op).blocks := by
  have h' := h.mono hle
  let X := R'.blockwise
  have he : ∀ l : List OpId, ∀ x ∈ l, X.free x := fun _ _ _ => trivial
  cases op with
  | insertBlock parent after id ro block =>
    obtain ⟨howns, hwrote, hkind⟩ := hf
    have hstands : R'.Stands id (blockFromSkeleton block id) :=
      ⟨⟨rfl, howns, hwrote⟩, R'.expands.kind hkind⟩
    exact insertBlockAt_keeps h' _ _ hstands _
  | deleteBlock => exact deleteBlockAt_keeps h' _ _ _
  | deleteBlockById =>
    simp only [applyDocOp]
    split <;> exact deleteBlockAt_keeps h' _ _ _
  | insertText | deleteText => exact modifyText_keeps h hle _ hf
  | setMark | removeMark =>
    exact updateBlock_keeps h' (.refl R') _ (fun e b hb =>
      ⟨⟨hb.elemId, hb.owns, hb.wrote⟩, hb.kind⟩)
  | setFrontmatterField => exact h'
  | initializeFrontmatter =>
    simp only [applyDocOp]
    split <;> exact h'
  | moveBlocks =>
    refine X.moveBlocksAt h' (he _) (fun prepared loses _ hp p hmem => ?_) _
    have hclone := clone_stands h' hf hp hmem
    cases loses <;> exact hclone
  | splitBlock => exact applySplitBlock_keeps h hle hf
  | mergeBlocks => exact applyMergeBlocks_keeps h hle hf
  | insertTableRow | insertTableColumn | setTableCell | deleteTableRow | deleteTableRowById
  | deleteTableColumnById | setTableColumnAlignment | moveTableRow | moveTableColumn =>
    exact updateTable_keeps h hle _ _ hf
  | insertListItem =>
    exact X.insertListItemAt h' (he _) ⟨⟨hf.1, hf.2⟩, Rules.blocks_new⟩
  | deleteListItemById => exact X.deleteListItemAt h' (he _) _ _
  | moveListItem => exact X.moveListItemAt h' (he _) ⟨hf.1, hf.2⟩
  | setListItemTask => exact X.setListItemTask h' (he _) _ hf _
  | setListStyle => exact X.setListStyle h' (he _) _ hf _
  | setCodeFence => exact X.setCodeFence h' (he _) _ _ _ hf _
  | convertTextBlock => exact X.convertTextBlock h' (he _) _ hf _
  | replaceRawBlock => exact X.replaceRawBlock h' (he _) _ hf _

end

end MdCrdt
