import MdCrdt.Doc.Document
import MdCrdt.Doc.Tree

/- What lookups read of a document.

  Every lookup (`findBlock`, `findBlockById`, `blockParent`, `listItemPlacement`)
  goes through the outline: the live blocks in document order, each with its path,
  its two ids and, for a list, the places of its items. An edit inside one block
  that keeps the outline keeps the result of every lookup, and the edited block is
  found where it was (`tryBlock_some`). -/
namespace MdCrdt
open Lib List Option Sequence
variable {id : OpId}
variable (cs : List BlockContainerPath)

/-- What a lookup reads of one live block. -/
structure Outline where
  path : BlockPath
  id : BlockId
  elemId : OpId
  items : List (OpId × BlockId)

/-- Places and ids of the live items of a list. -/
def itemPlaces (items : Sequence ListItem) : List (OpId × BlockId) :=
  items.elements.filterMap (fun e => e.value.map (fun item => (e.id, item.id)))

def directItems (block : Block) : List (OpId × BlockId) :=
  match block.kind with
  | .list _ items _ => itemPlaces items
  | _ => []

def outlineOf (entry : BlockPath × Block) : Outline :=
  ⟨entry.1, entry.2.id, entry.2.elemId, directItems entry.2⟩

def outline (cs : List BlockContainerPath) (s : Sequence Block) : List Outline :=
  (indexBlockSequence cs s).map outlineOf

/-- The outline of what is inside a block that stands under `id`. -/
def outlineInside (cs : List BlockContainerPath) (id : OpId) (block : Block) : List Outline :=
  (indexBlock cs id block).map outlineOf

/-! ## The index, element by element -/

/-- What one element adds to the index. -/
def elementEntries (cs : List BlockContainerPath) (e : Element Block) : List (BlockPath × Block) :=
  match e.value with
  | none => []
  | some block => (⟨cs, e.id⟩, block) :: indexBlock cs e.id block

/-- What one item adds to the index. -/
def itemEntries (cs : List BlockContainerPath) (id : OpId) (e : Element ListItem) :
    List (BlockPath × Block) :=
  match e.value with
  | none => []
  | some item => indexBlockSequence (cs ++ [.listItem id e.id]) item.children

theorem indexElements_eq (l) : indexElements cs l = l.flatMap (elementEntries cs) := by
  refine eq_flatMap (by rw [indexElements]) (fun e l => ?_) l
  obtain ⟨id, _ | block, after, ro⟩ := e <;> simp [indexElements, elementEntries]

theorem indexItems_eq (id l) : indexItems cs id l = l.flatMap (itemEntries cs id) := by
  refine eq_flatMap (by rw [indexItems]) (fun e l => ?_) l
  obtain ⟨place, _ | ⟨_, _, _, _, _, _, children⟩, after, ro⟩ := e <;>
    simp [indexItems, indexItem, itemEntries]

theorem indexBlockSequence_eq (s) :
    indexBlockSequence cs s = s.elements.flatMap (elementEntries cs) := by
  obtain ⟨elements, _, _, _⟩ := s
  rw [indexBlockSequence, indexElements_eq]

theorem indexBlock_eq (id block) : indexBlock cs id block = indexKind cs id block.kind := by
  obtain ⟨_, _, _, _, kind, _⟩ := block
  rw [indexBlock]

theorem indexKind_blockQuote (id children) : indexKind cs id (.blockQuote children) =
      indexBlockSequence (cs ++ [.blockQuote id]) children := by
  rw [indexKind]

theorem indexKind_list (id style items pendingMoves) :
    indexKind cs id (.list style items pendingMoves) =
      items.elements.flatMap (itemEntries cs id) := by
  obtain ⟨elements, _, _, _⟩ := items
  rw [indexKind, indexItemSequence, indexItems_eq]

/-! ## Edits in place -/

theorem flatMap_modify {A B : Type} (F : A → List B) (g : A → A) :
    ∀ (l : List A) (i : Nat), (∀ a, l[i]? = some a → F (g a) = F a) →
      (l.modify i g).flatMap F = l.flatMap F
  | [], _, _ => by simp
  | a :: l, 0, h => by
    rw [modify_zero_cons, flatMap_cons, flatMap_cons, h a rfl]
  | a :: l, i + 1, h => by
    rw [modify_succ_cons, flatMap_cons, flatMap_cons,
      flatMap_modify F g l i (fun b hb => h b (by simpa using hb))]

namespace Sequence
variable {T : Type} {s : Sequence T}

/-- The value a lookup reads stands at the place the index names. -/
theorem value?_eq_some (h : s.value? id = some v) :
    ∃ i e, s.index.get? id = some i ∧ s.elements[i]? = some e ∧ e.value = some v := by
  obtain ⟨e, he, hv⟩ := bind_eq_some_iff.mp h
  obtain ⟨i, hi, hei⟩ := bind_eq_some_iff.mp he
  exact ⟨i, e, hi, hei, hv⟩

theorem value?_withValue_self (s : Sequence T) (id) (f : T → T) :
    (s.withValue id f).value? id = (s.value? id).map f := by
  unfold withValue value? getElement
  cases hi : s.index.get? id with
  | none => simp [hi]
  | some i =>
    simp only [hi, bind_some, getElem?_modify_eq]
    cases s.elements[i]? <;> simp

/-- An edit that keeps what `F` reads of the value keeps what `F` reads of the elements. -/
theorem flatMap_withValue {B : Type} (h : s.value? id = some v) (F : Element T → List B)
    (hF : ∀ e : Element T, e.value = some v → F { e with value := some (f v) } = F e) :
    (s.withValue id f).elements.flatMap F = s.elements.flatMap F := by
  obtain ⟨i, e, hi, he, hv⟩ := value?_eq_some h
  rw [withValue, hi]
  apply flatMap_modify
  intro a ha
  obtain rfl : e = a := some.inj (he.symm.trans ha)
  rw [hv]
  exact hF e hv

theorem withValue_eq_self (h : s.value? id = some v) (hf : f v = v) : s.withValue id f = s := by
  obtain ⟨i, ⟨eid, value, after, ro⟩, hi, he, hv⟩ := value?_eq_some h
  have hkeep : s.elements.modify i (fun e => { e with value := e.value.map f }) = s.elements := by
    apply ext_getElem?
    intro j
    rw [getElem?_modify]
    by_cases hij : i = j
    · subst hij
      obtain rfl : value = some v := hv
      simp [he, hf]
    · simp [hij]
  simp only [withValue, hi, hkeep]

end Sequence

theorem Block.with_kind (b : Block) {kind} (h : b.kind = kind) : { b with kind := kind } = b := by
  cases b
  cases h
  rfl

theorem ListItem.with_children (item : ListItem) {children}
    (h : item.children = children) : { item with children := children } = item := by
  cases item
  cases h
  rfl

/-- The two blocks look the same to every lookup. -/
structure SameOutline (b b' : Block) : Prop where
  id : b'.id = b.id
  elemId : b'.elemId = b.elemId
  items : directItems b' = directItems b
  inside : ∀ cs i, outlineInside cs i b' = outlineInside cs i b

theorem outline_eq_flatMap (s) :
    outline cs s = s.elements.flatMap (fun e => (elementEntries cs e).map outlineOf) := by
  rw [outline, indexBlockSequence_eq, map_flatMap]

variable {b : Block} {s : Sequence Block} {f : Block → Block}

theorem outline_withValue (h : s.value? id = some b) (hf : SameOutline b (f b))
    (cs) : outline cs (s.withValue id f) = outline cs s := by
  rw [outline_eq_flatMap, outline_eq_flatMap]
  apply flatMap_withValue h
  intro e he
  have hin := hf.inside cs e.id
  simp only [outlineInside] at hin
  simp only [elementEntries, he, map_cons, outlineOf, hf.id, hf.elemId, hf.items, hin]

theorem sameOutline_blockQuote {children children'}
    (hk : b.kind = .blockQuote children) (h : ∀ cs, outline cs children' = outline cs children) :
    SameOutline b { b with kind := .blockQuote children' } where
  id := rfl
  elemId := rfl
  items := by simp [directItems, hk]
  inside cs i := by
    simp only [outlineInside, indexBlock_eq, hk, indexKind_blockQuote]
    exact h _

theorem sameOutline_list (hk : b.kind = .list style items pm)
    (hp : itemPlaces items' = itemPlaces items)
    (h : ∀ cs i, items'.elements.flatMap (fun e => (itemEntries cs i e).map outlineOf) = items.elements.flatMap (fun e => (itemEntries cs i e).map outlineOf)) :
    SameOutline b { b with kind := .list style' items' pm' } where
  id := rfl
  elemId := rfl
  items := by simp [directItems, hk, hp]
  inside cs i := by
    simp only [outlineInside, indexBlock_eq, hk, indexKind_list, map_flatMap]
    exact h _ _

/-- An edit of an item that keeps its id and the outline of its children. -/
theorem sameOutline_item (hk : b.kind = .list style items pm)
    (hv : items.value? place = some item) {f} (hid : (f item).id = item.id)
    (h : ∀ cs, outline cs (f item).children = outline cs item.children) :
    SameOutline b { b with kind := .list style (items.withValue place f) pm } := by
  apply sameOutline_list hk
  · have hplaces : ∀ s, itemPlaces s = s.elements.flatMap (fun e =>
        (e.value.map (fun item => (e.id, item.id))).toList) := by
      intro s
      rw [itemPlaces, filterMap_eq_flatMap_toList]
    rw [hplaces, hplaces]
    apply flatMap_withValue hv
    intro e he
    simp [he, hid]
  · intro cs i
    apply flatMap_withValue hv
    intro e he
    simp only [itemEntries, he]
    exact h _

/-- A function edits the sequence a path leads to; the outline above it is that of the result. -/
theorem outline_modifyChildrenAt {f c path}
    (hc : childrenAt path s = some c) (hf : ∀ cs, outline cs (f c) = outline cs c) (cs) :
    outline cs (modifyChildrenAt f path s) = outline cs s := by
  replace hc := leads_of_childrenAt hc
  induction hc generalizing cs with
  | here => exact hf cs
  | quote hb hk _ ih =>
    rw [modifyChildrenAt]
    apply outline_withValue hb
    simp only [hk]
    exact sameOutline_blockQuote hk (ih hf)
  | item hb hk hi _ ih =>
    rw [modifyChildrenAt]
    apply outline_withValue hb
    simp only [hk]
    exact sameOutline_item hk hi rfl (ih hf)

theorem childrenAt_modifyChildrenAt {f c path} (hc : childrenAt path s = some c) :
    childrenAt path (modifyChildrenAt f path s) = some (f c) := by
  replace hc := leads_of_childrenAt hc
  induction hc with
  | here => rfl
  | quote hb hk _ ih =>
    simp only [childrenAt, modifyChildrenAt, value?_withValue_self, hb, map_some, bind_some, hk, ih]
  | item hb hk hi _ ih =>
    simp only [childrenAt, modifyChildrenAt, value?_withValue_self, hb, map_some, bind_some, hk, hi,
      ih]

theorem modifyChildrenAt_eq_self {f c path}
    (hc : childrenAt path s = some c) (hf : f c = c) : modifyChildrenAt f path s = s := by
  replace hc := leads_of_childrenAt hc
  induction hc with
  | here => exact hf
  | @quote id rest s children c b hb hk _ ih =>
    rw [modifyChildrenAt]
    apply withValue_eq_self hb
    simp only [hk, ih hf]
    exact b.with_kind hk
  | @item list place rest s c b style items pm item hb hk hi _ ih =>
    rw [modifyChildrenAt]
    apply withValue_eq_self hb
    have hkeep : { item with children := modifyChildrenAt f rest item.children } = item :=
      item.with_children (ih hf).symm
    simp only [hk]
    rw [withValue_eq_self hi hkeep]
    exact b.with_kind hk

/-! ## Edits of one block -/

theorem blockAtPath_modifyAtPath (h : blockAtPath s path = some b) (f : Block → Block) :
    blockAtPath (modifyAtPath s path f) path = some (f b) := by
  obtain ⟨c, hc, hb⟩ := bind_eq_some_iff.mp h
  rw [blockAtPath, modifyAtPath, childrenAt_modifyChildrenAt hc, bind_some, value?_withValue_self, hb]
  rfl

theorem outline_modifyAtPath (h : blockAtPath s path = some b)
    (hf : SameOutline b (f b)) (cs) : outline cs (modifyAtPath s path f) = outline cs s := by
  obtain ⟨c, hc, hb⟩ := bind_eq_some_iff.mp h
  exact outline_modifyChildrenAt hc (outline_withValue hb hf) cs

theorem modifyAtPath_eq_self (h : blockAtPath s path = some b) (hf : f b = b) :
    modifyAtPath s path f = s := by
  obtain ⟨c, hc, hb⟩ := bind_eq_some_iff.mp h
  exact modifyChildrenAt_eq_self hc (withValue_eq_self hb hf)

namespace Document
variable {d : Document} {path : BlockPath} {elemId : OpId} {b : Block}

def outline (d : Document) : List Outline := MdCrdt.outline [] d.blocks

theorem pathOfElem_eq (d : Document) (elemId) : d.pathOfElem elemId =
    (d.outline.find? (fun o => o.path.elemId = elemId)).map Outline.path := by
  rw [pathOfElem, outline, MdCrdt.outline, blockIndex, find?_map, Option.map_map]
  rfl

theorem pathOfBlock_eq (d : Document) (blockId) : d.pathOfBlock blockId =
    (d.outline.find? (fun o => o.id = blockId)).map Outline.path := by
  rw [pathOfBlock, outline, MdCrdt.outline, blockIndex, find?_map, Option.map_map]
  rfl

theorem find?_itemPlaces (itemId) (l : List (Element ListItem)) :
    ((l.filterMap (fun e => e.value.map (fun item => (e.id, item.id)))).find?
      (fun p => p.2 = itemId)).map Prod.fst =
    (l.find? (fun e => e.value.any (fun item => item.id = itemId))).map Element.id := by
  induction l with
  | nil => rfl
  | cons e l ih =>
    obtain ⟨id, value, after, ro⟩ := e
    cases value with
    | none => simpa using ih
    | some item =>
      by_cases h : item.id = itemId
      · simp [h]
      · simpa [h] using ih

theorem listItemPlacement_eq (d : Document) (itemId) : d.listItemPlacement itemId =
    d.outline.findSome? (fun o => ((o.items.find? (fun p => p.2 = itemId)).map Prod.fst).map
      (fun place => (o.id, o.elemId, place))) := by
  rw [listItemPlacement, outline, MdCrdt.outline, blockIndex, findSome?_map]
  congr 1
  funext entry
  simp only [Function.comp, outlineOf, directItems]
  cases hk : entry.2.kind with
  | list style items pm =>
    simp only [itemPlaces, find?_itemPlaces, Option.map_map]
    rfl
  | _ => rfl

theorem findBlock_eq_some : d.findBlock elemId = some b ↔
      b.elemId = elemId ∧ ∃ path, d.pathOfElem elemId = some path ∧
        blockAtPath d.blocks path = some b := by
  rw [findBlock, filter_eq_some_iff, bind_eq_some_iff]
  simp [and_comm]

theorem findBlockById_eq_some : d.findBlockById blockId = some b ↔
      b.id = blockId ∧ ∃ path, d.pathOfBlock blockId = some path ∧
        blockAtPath d.blocks path = some b := by
  rw [findBlockById, filter_eq_some_iff, bind_eq_some_iff]
  simp [and_comm]

/-- The block under an element id after an edit of it. -/
theorem withBlockMut_eq {R : Type} (h : d.findBlock elemId = some b)
    (hp : d.pathOfElem elemId = some path) (f : Block → Block × R) : d.withBlockMut elemId f =
      some ({ d with blocks := modifyAtPath d.blocks path (fun b => (f b).1) }, (f b).2) := by
  rw [withBlockMut, h, hp]

theorem withBlockMut_none {R : Type} (h : d.findBlock elemId = none) (f : Block → Block × R) :
    d.withBlockMut elemId f = none := by
  rw [withBlockMut, h]

/-- An edit that keeps the outline of the block it finds keeps every lookup, and the block is
    found as the edit left it. -/
structure Edited (d d' : Document) (path : BlockPath) (b b' : Block) : Prop where
  outline : d'.outline = d.outline
  before : blockAtPath d.blocks path = some b
  after : blockAtPath d'.blocks path = some b'

theorem edited_modifyAtPath (h : blockAtPath d.blocks path = some b) (hf : SameOutline b (f b)) :
    Edited d { d with blocks := modifyAtPath d.blocks path f } path b (f b) where
  outline := outline_modifyAtPath h hf []
  before := h
  after := blockAtPath_modifyAtPath h _

theorem Edited.pathOfElem (h : Edited d d' path b b')
    (elemId) : d'.pathOfElem elemId = d.pathOfElem elemId := by
  rw [pathOfElem_eq, pathOfElem_eq, h.outline]

theorem Edited.pathOfBlock (h : Edited d d' path b b')
    (blockId) : d'.pathOfBlock blockId = d.pathOfBlock blockId := by
  rw [pathOfBlock_eq, pathOfBlock_eq, h.outline]

theorem Edited.listItemPlacement (h : Edited d d' path b b')
    (itemId) : d'.listItemPlacement itemId = d.listItemPlacement itemId := by
  rw [listItemPlacement_eq, listItemPlacement_eq, h.outline]

theorem tryBlock_some {b b'} (h : d.findBlock elemId = some b)
    (hp : d.pathOfElem elemId = some path) {f} (hf : f b = some b') (hs : SameOutline b b') :
    Edited d (d.tryBlock elemId f).1 path b b' ∧ (d.tryBlock elemId f).2 = true := by
  obtain ⟨_, path', hp', hat⟩ := findBlock_eq_some.mp h
  obtain rfl : path' = path := some.inj (hp'.symm.trans hp)
  have hb : (f b).getD b = b' := by rw [hf]; rfl
  rw [tryBlock, withBlockMut_eq h hp]
  exact ⟨hb ▸ edited_modifyAtPath hat (hb.symm ▸ hs), by simp [hf]⟩

theorem tryBlock_none (h : d.findBlock elemId = some b) {f} (hf : f b = none) :
    d.tryBlock elemId f = (d, false) := by
  obtain ⟨_, path, hp, hat⟩ := findBlock_eq_some.mp h
  rw [tryBlock, withBlockMut_eq h hp]
  simp only [getD_some, hf, isSome_none]
  rw [modifyAtPath_eq_self hat (by rw [hf]; rfl)]

end Document
end MdCrdt
