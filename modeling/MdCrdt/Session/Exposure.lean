import Mathlib.Algebra.Order.BigOperators.Group.List
import MdCrdt.Core.SequencePlace
import MdCrdt.Session.Brings

/- Documents on which an operation shows what it brings in.

  For an id that a structural operation brings, that it does not address and that is
  not among some known ids, there is a document that holds the known ids and what
  the operation addresses, and to which the operation adds the id. -/
namespace MdCrdt
open Lib List Option DocOp Document SortedMap Sequence
variable {units : List MovedTextUnitWire} {id : OpId}

namespace Sequence
variable {T : Type}
variable (within : T → List OpId)

/-- A sequence of one element. -/
def single (id : OpId) (v : T) : Sequence T :=
  ⟨[⟨id, some v, none, none⟩], empty.insert id 0, empty, empty⟩

theorem new_insert (id : OpId) (v : T) : new.apply (.insert none id v none) = single id v := by
  have hu : Unknown (new : Sequence T) id := ⟨by simp [elementIds, new], by simp [new], by simp [new]⟩
  rw [apply_insert_unknown ordered_new.toIndexed hu (by simp [Anchored])]
  have hg : Grounded [(⟨id, some v, none, none⟩ : Element T)] := grounded_nil.append (by simp) (by simp)
  have ho : orderElements [(⟨id, some v, none, none⟩ : Element T)] = [⟨id, some v, none, none⟩] :=
    perm_singleton.mp (orderElements_perm hg)
  simp only [withElement, rebuildOrder, new, nil_append, ho]
  rfl

theorem delivered_single (id : OpId) (v : T) :
    Delivered (fun op => op = .insert none id v none) (single id v) := by
  have h := apply_delivered delivered_new (.insert none id v none)
  rw [new_insert] at h
  simpa using h

@[simp] theorem value?_single (id : OpId) (v : T) : (single id v).value? id = some v := by
  simp [value?, getElement, single]

@[simp] theorem withValue_single (id v) (f : T → T) :
    (single id v).withValue id f = single id (f v) := by
  simp [withValue, single]

theorem mem_ids_fromOrdered (hp : p ∈ items) : p.1 ∈ (fromOrdered items).ids within := by
  obtain ⟨i, hi⟩ := mem_iff_getElem?.mp hp
  have hz : (p, i) ∈ items.zipIdx := mem_zipIdx_iff_getElem?.mpr hi
  exact mem_ids_of_element (mem_map_of_mem hz) mem_cons_self

/-- A delete of something else changes no element. -/
theorem mem_ids_delete_single (hne : target ≠ id) (opId : OpId) (hx : x ∈ id :: within v) :
    x ∈ ((single id v).apply (.delete target opId)).ids within := by
  have hindex := (delivered_single id v).toIndexed
  have ht : target ∉ (single id v).elementIds := by simpa [elementIds, single] using hne
  simp only [apply, applyNow, applyDelete_unknown hindex ht]
  exact mem_ids_of_element (e := ⟨id, some v, none, none⟩) mem_cons_self hx

theorem ids_single (id v) : (single id v).ids within = id :: within v := by
  simp [ids, single, Element.ids, pendingOps, values, empty]

end Sequence

/-- An id that is not in the list. -/
def freshId (l : List OpId) : OpId := ⟨(l.map OpId.counter).sum + 1, 0⟩

theorem freshId_notMem (l) : freshId l ∉ l := by
  intro h
  have := single_le_sum (by simp) _ (mem_map_of_mem (f := OpId.counter) h)
  simp [freshId] at this

def freshBlockId (l : List BlockId) : BlockId := ⟨0, (l.map BlockId.low).sum + 1⟩

theorem freshBlockId_notMem (l) : freshBlockId l ∉ l := by
  intro h
  have := single_le_sum (by simp) _ (mem_map_of_mem (f := BlockId.low) h)
  simp [freshBlockId] at this

/-! ## The stage -/

-- on a document that is written out, the way to a block is computed
attribute [local simp] pathOfElem blockIndex indexBlockSequence indexElements indexBlock indexKind
  indexItemSequence indexItems indexItem blockAtPath childrenAt Option.filter

/-- A list that holds the known ids in moves that wait, and the items. -/
def shelf (b : BlockId) (q : OpId) (known : List OpId) (items : Sequence ListItem) :
    Sequence Block :=
  .single q ⟨b, q, q, .new, .list ListStyle.default items
    (known.map (fun k => ⟨k, k, b, b, k, k, none, none, .new⟩)), .new⟩

/-- A list item around one block. -/
def around (b : BlockId) (q : OpId) (block : Block) : Sequence ListItem :=
  .single q ⟨b, q, none, q, .new, .new, .single block.elemId block⟩

/-- A document with the given children in a container. -/
def stage (b : BlockId) (parent : Option OpId) (children : Sequence Block) : Document :=
  match parent with
  | none => ⟨none, children⟩
  | some p => ⟨none, .single p ⟨b, p, p, .new, .blockQuote children, .new⟩⟩

variable {b : BlockId} {parent : Option OpId} {children : Sequence Block}

theorem ids_shelf (b q known items) :
    (shelf b q known items).ids blockIds = q :: q :: (items.ids itemIds ++ known) := by
  rw [shelf, ids_single, blockIds, kindIds, itemsIds_eq, List.map_map]
  have hk : (PendingListItemMove.id ∘ fun k => (⟨k, k, b, b, k, k, none, none, .new⟩ :
      PendingListItemMove)) = fun k => k := rfl
  rw [hk, List.map_id']
  rfl

theorem ids_around (b q block) :
    (around b q block).ids itemIds = q :: q :: block.elemId :: blockIds block := by
  rw [around, ids_single, itemIds, blocksIds_eq, ids_single]

theorem mem_ids_stage :
    x ∈ (stage b parent children).ids ↔ parent = some x ∨ x ∈ children.ids blockIds := by
  rw [Document.ids, blocksIds_eq]
  cases parent with
  | none => simp [stage]
  | some p =>
    rw [stage, ids_single, blockIds, kindIds, blocksIds_eq]
    simp [MarkSet.ids, MarkSet.new, values, empty, eq_comm]

theorem containerChildren_stage : (stage b parent children).containerChildren parent = some children := by
  cases parent with
  | none => rfl
  | some p =>
    have hf : (stage b (some p) children).findBlock p =
        some ⟨b, p, p, .new, .blockQuote children, .new⟩ := by
      simp [stage, findBlock, single, value?, getElement]
    simp [containerChildren, hf]

theorem applyAt_stage (op) :
    ((stage b parent children).applyAt parent op).1 = stage b parent (children.apply op) := by
  cases parent with
  | none => rfl
  | some p =>
    have hc : (containers (stage b (some p) children).blocks).find? (fun c => c.1 = p) =
        some (p, [.blockQuote p]) := by
      simp [stage, single, containers, directContainers, elementDirect]
    simp only [applyAt, withContainerChildrenMut, hc, map_some]
    simp [stage, modifyChildrenAt]

/-! ## Block inserts and moves -/

theorem delivered_shelf (b : BlockId) (q known items) :
    ∃ v, (shelf b q known items).Delivered (fun op => op = .insert none q v none) :=
  ⟨_, delivered_single q _⟩

variable {known : List OpId}

/-- An insert under a new id, on a stage. -/
theorem mem_insertBlockAt_stage (hq : id ≠ q) (after ro) (hx : x ∈ id :: blockIds v) :
    x ∈ ((stage b parent (shelf b q known items)).insertBlockAt parent after id v ro).1.ids := by
  rw [insertBlockAt, applyAt_stage, mem_ids_stage]
  obtain ⟨w, hd⟩ := delivered_shelf b q known items
  refine .inr (hd.mem_ids_insert ?_ ?_ after v ro hx)
  · intro a u r h
    injection h with _ h
    exact hq h
  · intro o h
    cases h

theorem prepareMoves_lost {d : Document} {moves : List MovedBlockWire}
    (h : ∀ m ∈ moves, d.findBlockById m.blockId = none) : d.prepareMoves toParent moves =
      some (moves.map (fun m => (lostBlock m, none)), !moves.isEmpty) := by
  induction moves with
  | nil => rfl
  | cons m moves ih =>
    obtain ⟨hm, hrest⟩ := forall_mem_cons.mp h
    rw [prepareMoves, hm, ih hrest]
    rfl

/-- One placement of a move that loses. -/
def placeLost (toParent : Option OpId) (moveId : OpId) (d : Document)
    (p : (Block × Option (Option OpId)) × MovedBlockWire) : Document :=
  if (d.containerChildren toParent).any (fun children => (children.getElement p.2.id).isSome) then d
  else
    let d := (d.insertBlockAt toParent p.2.after p.2.id { p.1.1 with elemId := p.2.id }
      p.2.rightOrigin).1
    (d.deleteBlockAt toParent p.2.id moveId).1

/-- Placements of a move that loses leave their ids, all in one sequence. -/
theorem placeLost_stage (b parent) (hD : children.Delivered D) (moveId)
    (l : List ((Block × Option (Option OpId)) × MovedBlockWire)) :
    ∃ children' D', l.foldl (placeLost parent moveId) (stage b parent children) =
        stage b parent children' ∧ children'.Delivered D' ∧ (∀ op, D op → D' op) ∧
      ∀ p ∈ l, ∃ after v ro, D' (.insert after p.2.id v ro) := by
  induction l generalizing children D with
  | nil => exact ⟨children, D, rfl, hD, fun _ h => h, by simp⟩
  | cons p l ih =>
    have hstep : ∃ children' D', placeLost parent moveId (stage b parent children) p =
        stage b parent children' ∧ children'.Delivered D' ∧ (∀ op, D op → D' op) ∧
        ∃ after v ro, D' (.insert after p.2.id v ro) := by
      unfold placeLost
      rw [containerChildren_stage]
      cases hg : children.getElement p.2.id with
      | some e =>
        obtain ⟨he, hid⟩ := (getElement_eq_some hD.toIndexed).mp hg
        obtain ⟨v, hv, -⟩ := hD.source e he
        exact ⟨children, D, by simp [hg], hD, fun _ h => h, _, v, _, hid ▸ hv⟩
      | none =>
        refine ⟨_, _, by simp only [hg, any_some, isSome_none, Bool.false_eq_true,
          if_false, insertBlockAt, deleteBlockAt, applyAt_stage]; rfl,
          apply_delivered (apply_delivered hD _) _,
          fun op h => .inr (Or.inr h), _, _, _, .inr (.inl rfl)⟩
    obtain ⟨c₁, D₁, heq, hD₁, hle, hp⟩ := hstep
    obtain ⟨c₂, D₂, heq₂, hD₂, hle₂, hl⟩ := ih hD₁
    refine ⟨c₂, D₂, by rw [foldl_cons, heq, heq₂], hD₂, fun op h => hle₂ op (hle op h), ?_⟩
    obtain ⟨after, v, ro, hp⟩ := hp
    exact forall_mem_cons.mpr ⟨⟨after, v, ro, hle₂ _ hp⟩, hl⟩

theorem findBlockById_stage (hb : blockId ≠ b) :
    (stage b parent (shelf b q known .new)).findBlockById blockId = none := by
  have hp : (stage b parent (shelf b q known .new)).pathOfBlock blockId = none := by
    cases parent <;>
      simp [stage, shelf, pathOfBlock, single, Sequence.new, Ne.symm hb]
  simp [findBlockById, hp]

/-! ## Splits and merges -/

/-- A block without text or children. -/
def leaf (b : BlockId) (id : OpId) (kind : BlockKind) : Block :=
  ⟨b, id, id, .new, kind, .new⟩

/-- Reaching the leaf that stands in an item of the shelf. -/
theorem withBlockMut_shelf {A : Type} (b : BlockId) (q₁ : OpId)
    (known : List OpId) (hq : id ≠ q₀) (f : Block → Block × A)
    (he : (f (leaf b id kind)).1.elemId = id) :
    withBlockMut ⟨none, shelf b q₀ known (around b q₁ (leaf b id kind))⟩ id f =
      some (⟨none, shelf b q₀ known (around b q₁ (f (leaf b id kind)).1)⟩, (f (leaf b id kind)).2) := by
  have hpath : pathOfElem ⟨none, shelf b q₀ known (around b q₁ (leaf b id kind))⟩ id =
      some ⟨[.listItem q₀ q₁], id⟩ := by
    simp [shelf, around, leaf, single, Ne.symm hq]
  have hfind : findBlock ⟨none, shelf b q₀ known (around b q₁ (leaf b id kind))⟩ id =
      some (leaf b id kind) := by
    rw [findBlock, hpath]
    simp [shelf, around, leaf]
  rw [withBlockMut, hfind, hpath]
  simp only [modifyAtPath, modifyChildrenAt, shelf, around, withValue_single, he]
  simp only [leaf, withValue_single]

/-- The block a split starts from is found on every stage, and is left as it is: it has no
    text. -/
theorem withBlockMut_stage {A : Type} (b parent) (q₁ : OpId) (known : List OpId) (hq : id ≠ q₀)
    (hc : c = shelf b q₀ known (around b q₁ (leaf b id (.rawBlock "")))) {f : Block → Block × A}
    (hf : ∀ v, blockTextSeq v.kind = none → (f v).1 = v) :
    ∃ a, (stage b parent c).withBlockMut id f = some (stage b parent c, a) := by
  have hraw := hf (leaf b id (.rawBlock "")) rfl
  cases parent with
  | none =>
    have hshelf := withBlockMut_shelf b q₁ known hq f (by rw [hraw]; rfl)
    rw [hraw, ← hc] at hshelf; exact ⟨_, hshelf⟩
  | some p =>
    by_cases hp : p = id
    · subst hp
      have hpath : (stage b (some p) c).pathOfElem p = some ⟨[], p⟩ := by
        simp [stage, single]
      have hfind : (stage b (some p) c).findBlock p =
          some ⟨b, p, p, .new, .blockQuote c, .new⟩ := by
        rw [findBlock, hpath]
        simp [stage]
      rw [withBlockMut, hfind, hpath]
      simp only [modifyAtPath, modifyChildrenAt, stage, withValue_single]
      rw [hf _ rfl]
      exact ⟨_, rfl⟩
    · have hpath : (stage b (some p) c).pathOfElem id =
          some ⟨[.blockQuote p, .listItem q₀ q₁], id⟩ := by
        simp [hc, stage, shelf, around, leaf, single, Ne.symm hq, hp]
      have hfind : (stage b (some p) c).findBlock id = some (leaf b id (.rawBlock "")) := by
        rw [findBlock, hpath]
        simp [hc, stage, shelf, around, leaf]
      rw [withBlockMut, hfind, hpath]
      simp only [hc, modifyAtPath, modifyChildrenAt, stage, shelf, around, withValue_single]
      have helem : (leaf b id (.rawBlock "")).elemId = id := rfl
      simp only [helem, withValue_single, hraw]
      exact ⟨_, rfl⟩

/-- The shelf is no container, and neither is what stands in its item. -/
theorem applyAt_shelf (hp : p ≠ q) (hv : ∃ body, v.kind = .paragraph body)
    (op) : applyAt ⟨none, shelf b q known (around b q v)⟩ (some p) op =
      (⟨none, shelf b q known (around b q v)⟩, false) := by
  obtain ⟨bid, elemId, kindOp, kindObserved, kind, marks⟩ := v
  obtain ⟨body, rfl⟩ := hv
  have hc : (containers (shelf b q known (around b q
      ⟨bid, elemId, kindOp, kindObserved, .paragraph body, marks⟩))).find? (fun c => c.1 = p) = none := by
    simp [shelf, around, single, containers, directContainers, elementDirect, containersElements,
      containersBlock, containersKind, containersItems, containersItemElements, containersItem,
      Ne.symm hp]
  simp only [applyAt, withContainerChildrenMut, hc, map_none]

theorem mem_chainOps (hu : u ∈ units) (after ro) :
    ∃ a v r, SequenceOp.insert a u.id v r ∈ chainOps after ro units := by
  induction units generalizing after ro with
  | nil => cases hu
  | cons w units ih =>
    rw [chainOps]
    rcases mem_cons.mp hu with rfl | hu
    · exact ⟨_, _, _, mem_cons_self⟩
    · obtain ⟨a, v, r, h⟩ := ih hu (some w.id) none
      exact ⟨a, v, r, mem_cons_of_mem _ h⟩

section Operations
variable [Segmentation] {known : List OpId} {x : OpId}

/-- A document that holds the known ids and what the operation addresses, and to which the
    operation adds `x`. -/
def Exposes (known : List OpId) (op : DocOp) (x : OpId) : Prop :=
  ∃ d : Document, (∀ k ∈ known, k ∈ d.ids) ∧ x ∉ d.ids ∧ x ∈ (applyDocOp d op).ids

theorem exposes_insertBlock {after ro block}
    (hx : x ∈ (insertBlock parent after id ro block).brings) (hk : x ∉ known)
    (ha : x ∉ (insertBlock parent after id ro block).addresses) :
    Exposes known (.insertBlock parent after id ro block) x := by
  have hq := freshId_notMem [x, id]
  generalize freshId [x, id] = q at hq
  simp only [mem_cons, not_mem_nil, or_false, not_or] at hq
  refine ⟨stage ⟨0, 0⟩ parent (shelf ⟨0, 0⟩ q known .new), fun k hk => ?_, ?_, ?_⟩
  · rw [mem_ids_stage, ids_shelf]
    simp [hk]
  · rw [mem_ids_stage, ids_shelf]
    simp only [addresses, mem_toList] at ha
    simp [ha, hk, Ne.symm hq.1, Sequence.ids, Sequence.new, pendingOps, values,
      empty]
  · exact mem_insertBlockAt_stage (Ne.symm hq.2) after ro hx

theorem exposes_moveBlocks {toParent blocks}
    (hx : x ∈ (moveBlocks toParent id blocks).brings) (hk : x ∉ known)
    (ha : x ∉ (moveBlocks toParent id blocks).addresses) :
    Exposes known (.moveBlocks toParent id blocks) x := by
  have hq := freshId_notMem [x]
  have hb := freshBlockId_notMem (blocks.map MovedBlockWire.blockId)
  generalize freshId [x] = q at hq
  generalize freshBlockId (blocks.map MovedBlockWire.blockId) = b at hb
  rw [mem_singleton] at hq
  refine ⟨stage b toParent (shelf b q known .new), fun k hk => ?_, ?_, ?_⟩
  · rw [mem_ids_stage, ids_shelf]
    simp [hk]
  · rw [mem_ids_stage, ids_shelf]
    simp only [addresses, mem_toList] at ha
    simp [ha, hk, Ne.symm hq, Sequence.ids, Sequence.new, pendingOps, values,
      empty]
  · obtain ⟨m, hm, rfl⟩ := mem_map.mp hx
    have hne : blocks.isEmpty = false := by
      cases blocks with
      | nil => cases hm
      | cons => rfl
    have hlost : ∀ m ∈ blocks, (stage b toParent (shelf b q known .new)).findBlockById m.blockId =
        none := fun m hm => findBlockById_stage (fun h => hb (h ▸ mem_map_of_mem hm))
    obtain ⟨v, hD⟩ := delivered_shelf b q known .new
    obtain ⟨c, D, heq, hD, -, hl⟩ := placeLost_stage b toParent hD id
      ((blocks.map (fun m => (lostBlock m, none))).zip blocks)
    have happ : applyDocOp (stage b toParent (shelf b q known .new)) (.moveBlocks toParent id blocks) =
        stage b toParent c := by
      rw [← heq]
      simp only [applyDocOp, moveBlocksAt, hne, containerChildren_stage,
        prepareMoves_lost hlost]
      rfl
    rw [happ, mem_ids_stage]
    obtain ⟨after, w, ro, hw⟩ := hl (((lostBlock m, none)), m) (by
      rw [zip_map_left]
      exact mem_map.mpr ⟨(m, m), mem_iff_getElem?.mpr (by
        obtain ⟨i, hi⟩ := mem_iff_getElem?.mp hm
        exact ⟨i, by simp [getElem?_zip_eq_some, hi]⟩), rfl⟩)
    exact .inr (hD.mem_ids hw)

theorem exposes_splitBlock
    (hx : x ∈ (splitBlock parent target id newBlockId ro kind units).brings) (hk : x ∉ known)
    (ha : x ∉ (splitBlock parent target id newBlockId ro kind units).addresses) :
    Exposes known (.splitBlock parent target id newBlockId ro kind units) x := by
  have hq := freshId_notMem [x, id, target]
  generalize freshId [x, id, target] = q at hq
  simp only [mem_cons, not_mem_nil, or_false, not_or] at hq
  obtain ⟨hqx, hqid, hqt⟩ := hq
  simp only [addresses, mem_cons, mem_toList, not_or] at ha
  refine ⟨stage ⟨0, 0⟩ parent (shelf ⟨0, 0⟩ q known (around ⟨0, 0⟩ q (leaf ⟨0, 0⟩ target (.rawBlock "")))),
    fun k hk => ?_, ?_, ?_⟩
  · rw [mem_ids_stage, ids_shelf]
    simp [hk]
  · rw [mem_ids_stage, ids_shelf, ids_around, leaf, blockIds, kindIds]
    simp [ha.1, ha.2, hk, Ne.symm hqx, MarkSet.ids, MarkSet.new, values, empty]
  · have hf : ∀ v : Block, blockTextSeq v.kind = none →
        v.modifyText (units.map (fun unit => .delete unit.sourceId id)) = v := by
      rintro ⟨_, _, _, _, k, _⟩ hv
      cases k with
      | paragraph | heading => cases hv
      | _ => rfl
    obtain ⟨marks, hmut⟩ := withBlockMut_stage ⟨0, 0⟩ parent q known (Ne.symm hqt) rfl (f := fun block =>
        (block.modifyText (units.map (fun unit => .delete unit.sourceId id)), block.marks)) hf
    simp only [applyDocOp, applySplitBlock, hmut]
    refine mem_insertBlockAt_stage (Ne.symm hqid) _ ro ?_
    rcases mem_cons.mp hx with rfl | hu
    · exact mem_cons_self
    · refine mem_cons_of_mem _ ?_
      rw [blockIds]
      refine mem_append_right _ ?_
      obtain ⟨u, hunit, rfl⟩ := mem_map.mp hu
      have hbody := mem_ids_fromOrdered (fun _ => [])
        (mem_map_of_mem (f := fun unit : MovedTextUnitWire =>
          (unit.id, (⟨unit.grapheme⟩ : TextUnit))) hunit)
      cases kind <;> rw [textKind, kindIds] <;> exact hbody

theorem exposes_mergeBlocks {after ro left right}
    (hx : x ∈ (mergeBlocks parent left right id after ro units).brings) (hk : x ∉ known)
    (ha : x ∉ (mergeBlocks parent left right id after ro units).addresses) :
    Exposes known (.mergeBlocks parent left right id after ro units) x := by
  have hq := freshId_notMem ([x, left, right] ++ parent.toList)
  generalize freshId ([x, left, right] ++ parent.toList) = q at hq
  simp only [mem_append, mem_cons, not_mem_nil, or_false, not_or, mem_toList] at hq
  obtain ⟨⟨hqx, hql, hqr⟩, hqp⟩ := hq
  simp only [addresses, mem_singleton] at ha
  refine ⟨⟨none, shelf ⟨0, 0⟩ q known (around ⟨0, 0⟩ q (leaf ⟨0, 0⟩ left (.paragraph .new)))⟩,
    fun k hk => ?_, ?_, ?_⟩
  · rw [Document.ids, blocksIds_eq, ids_shelf]
    simp [hk]
  · rw [Document.ids, blocksIds_eq, ids_shelf, ids_around, leaf, blockIds, kindIds]
    simp [ha, hk, Ne.symm hqx, MarkSet.ids, MarkSet.new, values, empty,
      Sequence.ids, Sequence.new, pendingOps]
  · generalize hd : (⟨none, shelf ⟨0, 0⟩ q known
      (around ⟨0, 0⟩ q (leaf ⟨0, 0⟩ left (.paragraph .new)))⟩ : Document) = d
    -- the left block with the units appended
    let grow : Block → Block := fun block =>
      { block.modifyText (chainOps after ro units) with
        marks := ((d.findBlock right).map Block.marks).elim block.marks block.marks.mergeFrom }
    have hupd : d.updateBlock left grow = ⟨none, shelf ⟨0, 0⟩ q known
        (around ⟨0, 0⟩ q (grow (leaf ⟨0, 0⟩ left (.paragraph .new))))⟩ := by
      subst hd
      rw [updateBlock, withBlockMut_shelf _ _ _ (Ne.symm hql) (fun block => (grow block, ())) rfl]
      rfl
    have hin : x ∈ (grow (leaf ⟨0, 0⟩ left (.paragraph .new))).elemId ::
        blockIds (grow (leaf ⟨0, 0⟩ left (.paragraph .new))) := by
      obtain ⟨u, hu, rfl⟩ := mem_map.mp hx
      obtain ⟨a, v, r, hop⟩ := mem_chainOps hu after ro
      have hdel := applyAll_delivered delivered_new (chainOps after ro units)
      refine mem_cons_of_mem _ ?_
      simp only [grow, leaf, Block.modifyText, BlockKind.modifyText, blockIds, kindIds]
      exact mem_append_right _ (hdel.mem_ids (.inl hop))
    show x ∈ ((d.updateBlock left grow).deleteBlockAt parent right id).1.ids
    rw [hupd]
    cases parent with
    | none =>
      rw [Document.ids, blocksIds_eq]
      refine mem_ids_delete_single blockIds (Ne.symm hqr) id ?_
      have := ids_shelf ⟨0, 0⟩ q known (around ⟨0, 0⟩ q (grow (leaf ⟨0, 0⟩ left (.paragraph .new))))
      rw [shelf, ids_single] at this
      rw [this, ids_around]
      simp only [mem_cons, mem_append] at hin ⊢
      tauto
    | some p =>
      have hp : p ≠ q := fun h => hqp (by rw [h])
      rw [deleteBlockAt, applyAt_shelf hp ⟨_, rfl⟩, Document.ids, blocksIds_eq, ids_shelf,
        ids_around]
      simp only [mem_cons, mem_append] at hin ⊢
      tauto

end Operations
end MdCrdt
