import MdCrdt.Core.SequenceIds
import MdCrdt.Doc.Document
import MdCrdt.Doc.Tree

/- The ids inside a document.

  Block elements, text units, list items, rows, columns and marks, at any depth,
  live or buried, and those that wait: inserts without their anchor and moves
  without their row, column or item. An edit adds no ids but those it is given; a
  lookup finds nothing but what is inside. -/
namespace MdCrdt
open Lib List Option
variable {id : OpId}

def MarkSet.ids (m : MarkSet) : List OpId := m.intervals.values.map MarkInterval.id

def Table.ids (t : Table) : List OpId :=
  t.columns.ids (fun _ => []) ++ t.rows.ids (fun _ => []) ++
    (t.pendingRowMoves ++ t.pendingColumnMoves).map PendingTableMove.id

mutual

def blockIds : Block → List OpId
  | ⟨_, elemId, _, _, kind, marks⟩ => elemId :: marks.ids ++ kindIds kind

def kindIds : BlockKind → List OpId
  | .paragraph text | .heading _ text => text.ids (fun _ => [])
  | .list _ items pendingMoves => itemsIds items ++ pendingMoves.map PendingListItemMove.id
  | .blockQuote children => blocksIds children
  | .table table => table.ids
  | .codeFence _ _ _ | .rawBlock _ => []

def blocksIds : Sequence Block → List OpId
  | ⟨elements, _, ⟨inserts⟩, ⟨deletes⟩⟩ =>
    blockElementsIds elements ++ (blockBufferIds inserts ++ blockBufferIds deletes)

def blockElementsIds : List (Element Block) → List OpId
  | [] => []
  | ⟨id, none, _, _⟩ :: rest => id :: blockElementsIds rest
  | ⟨id, some block, _, _⟩ :: rest => id :: blockIds block ++ blockElementsIds rest

def blockBufferIds : List (OpId × List (SequenceOp Block)) → List OpId
  | [] => []
  | (_, ops) :: rest => blockOpsIds ops ++ blockBufferIds rest

def blockOpsIds : List (SequenceOp Block) → List OpId
  | [] => []
  | .insert _ id block _ :: rest => id :: blockIds block ++ blockOpsIds rest
  | .delete _ _ :: rest => blockOpsIds rest

def itemIds : ListItem → List OpId
  | ⟨_, elemId, _, _, _, _, children⟩ => elemId :: blocksIds children

def itemsIds : Sequence ListItem → List OpId
  | ⟨elements, _, ⟨inserts⟩, ⟨deletes⟩⟩ =>
    itemElementsIds elements ++ (itemBufferIds inserts ++ itemBufferIds deletes)

def itemElementsIds : List (Element ListItem) → List OpId
  | [] => []
  | ⟨id, none, _, _⟩ :: rest => id :: itemElementsIds rest
  | ⟨id, some item, _, _⟩ :: rest => id :: itemIds item ++ itemElementsIds rest

def itemBufferIds : List (OpId × List (SequenceOp ListItem)) → List OpId
  | [] => []
  | (_, ops) :: rest => itemOpsIds ops ++ itemBufferIds rest

def itemOpsIds : List (SequenceOp ListItem) → List OpId
  | [] => []
  | .insert _ id item _ :: rest => id :: itemIds item ++ itemOpsIds rest
  | .delete _ _ :: rest => itemOpsIds rest

end

def Document.ids (d : Document) : List OpId := blocksIds d.blocks

/-! ## The walk as ids of a sequence -/

theorem blockElementsIds_eq (l) : blockElementsIds l = l.flatMap (Element.ids blockIds) := by
  refine eq_flatMap (by rw [blockElementsIds]) (fun e l => ?_) l
  obtain ⟨id, _ | v, after, ro⟩ := e <;> rw [blockElementsIds] <;> rfl

theorem blockOpsIds_eq (l) : blockOpsIds l = l.flatMap (SequenceOp.ids blockIds) := by
  induction l with
  | nil => rw [blockOpsIds]; rfl
  | cons op l ih => cases op <;> rw [blockOpsIds, ih] <;> rfl

theorem blockBufferIds_eq (l : List (OpId × List (SequenceOp Block))) :
    blockBufferIds l = (l.map Prod.snd).flatten.flatMap (SequenceOp.ids blockIds) := by
  induction l with
  | nil => rw [blockBufferIds]; rfl
  | cons e l ih =>
    rw [blockBufferIds, ih, blockOpsIds_eq, map_cons, flatten_cons, flatMap_append]

theorem blocksIds_eq (s) : blocksIds s = s.ids blockIds := by
  obtain ⟨elements, index, ⟨inserts⟩, ⟨deletes⟩⟩ := s
  rw [blocksIds, blockElementsIds_eq, blockBufferIds_eq, blockBufferIds_eq, ← flatMap_append,
    ← flatten_append]
  rfl

theorem itemElementsIds_eq (l) : itemElementsIds l = l.flatMap (Element.ids itemIds) := by
  refine eq_flatMap (by rw [itemElementsIds]) (fun e l => ?_) l
  obtain ⟨id, _ | v, after, ro⟩ := e <;> rw [itemElementsIds] <;> rfl

theorem itemOpsIds_eq (l) : itemOpsIds l = l.flatMap (SequenceOp.ids itemIds) := by
  induction l with
  | nil => rw [itemOpsIds]; rfl
  | cons op l ih => cases op <;> rw [itemOpsIds, ih] <;> rfl

theorem itemBufferIds_eq (l : List (OpId × List (SequenceOp ListItem))) :
    itemBufferIds l = (l.map Prod.snd).flatten.flatMap (SequenceOp.ids itemIds) := by
  induction l with
  | nil => rw [itemBufferIds]; rfl
  | cons e l ih =>
    rw [itemBufferIds, ih, itemOpsIds_eq, map_cons, flatten_cons, flatMap_append]

theorem itemsIds_eq (s) : itemsIds s = s.ids itemIds := by
  obtain ⟨elements, index, ⟨inserts⟩, ⟨deletes⟩⟩ := s
  rw [itemsIds, itemElementsIds_eq, itemBufferIds_eq, itemBufferIds_eq, ← flatMap_append,
    ← flatten_append]
  rfl

/-! ## What is inside -/

variable {P : OpId → Prop}

/-- Every id inside a document satisfies `P`. -/
def Document.Within (P : OpId → Prop) (d : Document) : Prop := d.blocks.Within blockIds P

theorem Document.within_iff {d : Document} : d.Within P ↔ ∀ x ∈ d.ids, P x := by
  rw [Document.ids, blocksIds_eq]
  exact Sequence.within_iff

/-- Every id inside a kind satisfies `P`. -/
def KindWithin (P : OpId → Prop) (k : BlockKind) : Prop := ∀ x ∈ kindIds k, P x

theorem kindWithin_text (h : blockTextSeq k = some text) :
    KindWithin P k ↔ text.Within (fun _ => []) P := by
  rw [Sequence.within_iff]
  cases k with
  | paragraph body | heading level body => rw [KindWithin, kindIds, some.inj h]
  | _ => cases h

theorem kindWithin_list : KindWithin P (.list style items pm) ↔
      items.Within itemIds P ∧ ∀ m ∈ pm, P m.id := by
  rw [KindWithin, kindIds, itemsIds_eq, Sequence.within_iff, forall_mem_append, List.forall_mem_map]

theorem kindWithin_blockQuote :
    KindWithin P (.blockQuote children) ↔ children.Within blockIds P := by
  rw [KindWithin, kindIds, blocksIds_eq, Sequence.within_iff]

theorem kindWithin_table : KindWithin P (.table t) ↔ ∀ x ∈ t.ids, P x := by
  rw [KindWithin, kindIds]

theorem kindWithin_codeFence :
    KindWithin P (.codeFence style info text) := by simp [KindWithin, kindIds]

theorem kindWithin_rawBlock : KindWithin P (.rawBlock raw) := by
  simp [KindWithin, kindIds]

/-- Every id inside a block satisfies `P`. -/
structure BlockWithin (P : OpId → Prop) (b : Block) : Prop where
  elemId : P b.elemId
  marks : ∀ x ∈ b.marks.ids, P x
  kind : KindWithin P b.kind

variable {b : Block} {s : Sequence Block}

theorem blockWithin_iff : BlockWithin P b ↔ ∀ x ∈ blockIds b, P x := by
  obtain ⟨id, elemId, kindOp, kindObserved, kind, marks⟩ := b
  rw [blockIds, forall_mem_append, forall_mem_cons]
  exact ⟨fun h => ⟨⟨h.elemId, h.marks⟩, h.kind⟩, fun h => ⟨h.1.1, h.1.2, h.2⟩⟩

/-- Every id inside a list item satisfies `P`. -/
structure ItemWithin (P : OpId → Prop) (item : ListItem) : Prop where
  elemId : P item.elemId
  children : item.children.Within blockIds P

theorem itemWithin_iff : ItemWithin P item ↔ ∀ x ∈ itemIds item, P x := by
  obtain ⟨id, elemId, task, taskOp, taskObserved, placementObserved, children⟩ := item
  rw [itemIds, blocksIds_eq, forall_mem_cons]
  exact ⟨fun h => ⟨h.elemId, Sequence.within_iff.mp h.children⟩,
    fun h => ⟨h.1, Sequence.within_iff.mpr h.2⟩⟩

theorem BlockWithin.withKind (h : BlockWithin P b) (hk : KindWithin P k) :
    BlockWithin P { b with kind := k } := ⟨h.elemId, h.marks, hk⟩

/-- A block that a sequence holds. -/
theorem Sequence.Within.block (h : s.Within blockIds P) (hb : s.value? id = some b) :
    BlockWithin P b := blockWithin_iff.mpr (h.value? hb)

theorem Sequence.Within.item {s : Sequence ListItem} (h : s.Within itemIds P)
    {item} (hi : s.value? id = some item) : ItemWithin P item :=
  itemWithin_iff.mpr (h.value? hi)

theorem Sequence.Within.withBlock (h : s.Within blockIds P) (id)
    (hf : ∀ b, BlockWithin P b → BlockWithin P (f b)) : (s.withValue id f).Within blockIds P :=
  h.withValue id (fun b hb => blockWithin_iff.mp (hf b (blockWithin_iff.mpr hb)))

theorem Sequence.Within.withItem {s : Sequence ListItem} (h : s.Within itemIds P) (id)
    (hf : ∀ item, ItemWithin P item → ItemWithin P (f item)) :
    (s.withValue id f).Within itemIds P :=
  h.withValue id (fun item hi => itemWithin_iff.mp (hf item (itemWithin_iff.mpr hi)))

theorem Sequence.Within.insertBlock (h : s.Within blockIds P) {after ro} (hid : P id)
    (hb : BlockWithin P b) : (s.apply (.insert after id b ro)).Within blockIds P :=
  h.apply (forall_mem_cons.mpr ⟨hid, blockWithin_iff.mp hb⟩)

theorem Sequence.Within.insertItem {s : Sequence ListItem} (h : s.Within itemIds P)
    {after item ro} (hid : P id)
    (hi : ItemWithin P item) : (s.apply (.insert after id item ro)).Within itemIds P :=
  h.apply (forall_mem_cons.mpr ⟨hid, itemWithin_iff.mp hi⟩)

/-! ## Paths -/

theorem within_modifyChildrenAt (hf : ∀ c, c.Within blockIds P → (f c).Within blockIds P) :
    ∀ (path : List BlockContainerPath) {s : Sequence Block}, s.Within blockIds P →
      (modifyChildrenAt f path s).Within blockIds P
  | [], _, h => hf _ h
  | .blockQuote id :: rest, s, h => by
    rw [modifyChildrenAt]
    refine h.withBlock id (fun b hb => ?_)
    cases hk : b.kind with
    | blockQuote children =>
      refine hb.withKind (kindWithin_blockQuote.mpr ?_)
      exact within_modifyChildrenAt hf rest (kindWithin_blockQuote.mp (hk ▸ hb.kind))
    | _ => exact hb
  | .listItem list place :: rest, s, h => by
    rw [modifyChildrenAt]
    refine h.withBlock list (fun b hb => ?_)
    cases hk : b.kind with
    | list style items pm =>
      obtain ⟨hitems, hpm⟩ := kindWithin_list.mp (hk ▸ hb.kind)
      refine hb.withKind (kindWithin_list.mpr ⟨?_, hpm⟩)
      exact hitems.withItem place (fun item hi =>
        ⟨hi.elemId, within_modifyChildrenAt hf rest hi.children⟩)
    | _ => exact hb

section
variable (h : s.Within blockIds P)
include h

theorem within_childrenAt {c : Sequence Block} (hc : childrenAt path s = some c) :
    c.Within blockIds P := by
  replace hc := leads_of_childrenAt hc
  induction hc with
  | here => exact h
  | quote hb hk _ ih => exact ih (kindWithin_blockQuote.mp (hk ▸ (h.block hb).kind))
  | item hb hk hi _ ih =>
    exact ih ((kindWithin_list.mp (hk ▸ (h.block hb).kind)).1.item hi).children

theorem within_blockAtPath (hb : blockAtPath s path = some b) : BlockWithin P b := by
  obtain ⟨c, hc, hv⟩ := bind_eq_some_iff.mp hb
  exact (within_childrenAt h hc).block hv

/-! ## Lookups -/

theorem within_listItems : ∀ item ∈ listItems s, ItemWithin P item := by
  induction s using tree_induction with
  | step s ih =>
    intro item hi
    rw [listItems_eq] at hi
    obtain ⟨e, he, hi⟩ := mem_flatMap.mp hi
    obtain ⟨b, hb, hi⟩ := mem_flatMap.mp hi
    have hv : e.value = some b := mem_toList.mp hb
    have hkind := (blockWithin_iff.mpr (h.value he hv)).kind
    have ih := ih b (.inl ⟨e, he, hv⟩)
    cases hk : b.kind with
    | blockQuote children =>
      rw [hk, listItemsKind] at hi
      exact ih.1 children hk (kindWithin_blockQuote.mp (hk ▸ hkind)) item hi
    | list style items pm =>
      rw [hk, listItemsKind_list] at hi
      obtain ⟨ie, hie, hi⟩ := mem_flatMap.mp hi
      obtain ⟨i, hiv, hi⟩ := mem_flatMap.mp hi
      have hiv : ie.value = some i := mem_toList.mp hiv
      have hitem := itemWithin_iff.mpr ((kindWithin_list.mp (hk ▸ hkind)).1.value hie hiv)
      rcases mem_cons.mp hi with rfl | hi
      · exact hitem
      · exact ih.2 style items pm hk i (.inl ⟨ie, hie, hiv⟩) hitem.children item hi
    | _ => simp [hk, listItemsKind] at hi

/-- What answers to an id as a container has it inside. -/
theorem within_containers (hc : c ∈ containers s) : P c.1 := by
  replace hc := contains_of_mem hc
  induction hc with
  | quote he hv => exact (blockWithin_iff.mpr (h.value he hv)).elemId
  | item he hv hk hie hiv =>
    have hitems := (kindWithin_list.mp (hk ▸ (blockWithin_iff.mpr (h.value he hv)).kind)).1
    exact (itemWithin_iff.mpr (hitems.value hie hiv)).elemId
  | inQuote he hv hk _ ih => exact ih (kindWithin_blockQuote.mp (hk ▸ (blockWithin_iff.mpr (h.value he hv)).kind))
  | inItem he hv hk hie hiv _ ih =>
    have hitems := (kindWithin_list.mp (hk ▸ (blockWithin_iff.mpr (h.value he hv)).kind)).1
    exact ih (itemWithin_iff.mpr (hitems.value hie hiv)).children

end

namespace Document
variable {d : Document}

section
variable (h : d.Within P)
include h

theorem within_findBlock
    (hb : d.findBlock elemId = some b) : BlockWithin P b ∧ b.elemId = elemId := by
  obtain ⟨hp, helem⟩ := filter_eq_some_iff.mp hb
  obtain ⟨path, -, hat⟩ := bind_eq_some_iff.mp hp
  exact ⟨within_blockAtPath h hat, of_decide_eq_true helem⟩

theorem within_findBlockById {id b} (hb : d.findBlockById id = some b) : BlockWithin P b := by
  obtain ⟨hp, -⟩ := filter_eq_some_iff.mp hb
  obtain ⟨path, -, hat⟩ := bind_eq_some_iff.mp hp
  exact within_blockAtPath h hat

theorem within_findListItem (hi : (listItems d.blocks).find? p = some item) : ItemWithin P item :=
  within_listItems h item (mem_of_find?_eq_some hi)

/-- A container that is found is inside the document. -/
theorem mem_of_containerChildren (hc : (d.containerChildren (some p)).isSome = true) : P p := by
  simp only [containerChildren] at hc
  split at hc
  · next children hk =>
    obtain ⟨b, hb, -⟩ := map_eq_some_iff.mp hk
    obtain ⟨hw, rfl⟩ := within_findBlock h hb
    exact hw.elemId
  · obtain ⟨children, hc⟩ := isSome_iff_exists.mp hc
    obtain ⟨item, hi, -⟩ := map_eq_some_iff.mp hc
    have helem := find?_some hi
    exact of_decide_eq_true helem ▸ (within_findListItem h hi).elemId

end

end Document
end MdCrdt
