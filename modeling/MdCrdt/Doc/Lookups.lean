import MdCrdt.Doc.Sane

/- Where lookups lead.

  In a tree whose sequences are all indexed, an entry of the block index is the
  block that stands at its path, and no path occurs twice. List items get an index
  of the same kind: the path of the list and the element of the item in it, in the
  order in which `findListItem` and `findListItemById` search. -/
namespace MdCrdt
open Lib List Option BlockPath Sequence
variable {s : Sequence Block} {item : ListItem} {b : Block} {cs : List BlockContainerPath}
variable {items : Sequence ListItem} {id : OpId}

/-- Where a list item stands: the path of its list and its element there. -/
structure ItemPlace where
  list : BlockPath
  place : OpId
  deriving DecidableEq, Repr

mutual

/-- Every live list item below a sequence with its place, an item before those inside it. -/
def indexListItems (containers : List BlockContainerPath) :
    Sequence Block → List (ItemPlace × ListItem)
  | ⟨elements, _, _, _⟩ => indexListItemsElements containers elements

def indexListItemsElements (containers : List BlockContainerPath) :
    List (Element Block) → List (ItemPlace × ListItem)
  | [] => []
  | ⟨_, none, _, _⟩ :: rest => indexListItemsElements containers rest
  | ⟨id, some block, _, _⟩ :: rest =>
    indexListItemsBlock containers id block ++ indexListItemsElements containers rest

def indexListItemsBlock (containers : List BlockContainerPath) (id : OpId) :
    Block → List (ItemPlace × ListItem)
  | ⟨_, _, _, _, kind, _⟩ => indexListItemsKind containers id kind

def indexListItemsKind (containers : List BlockContainerPath) (id : OpId) :
    BlockKind → List (ItemPlace × ListItem)
  | .blockQuote children => indexListItems (containers ++ [.blockQuote id]) children
  | .list _ items _ => indexListItemsItems containers id items
  | .paragraph _ | .heading _ _ | .codeFence _ _ _ | .rawBlock _ | .table _ => []

def indexListItemsItems (containers : List BlockContainerPath) (id : OpId) :
    Sequence ListItem → List (ItemPlace × ListItem)
  | ⟨elements, _, _, _⟩ => indexListItemsItemElements containers id elements

def indexListItemsItemElements (containers : List BlockContainerPath) (id : OpId) :
    List (Element ListItem) → List (ItemPlace × ListItem)
  | [] => []
  | ⟨_, none, _, _⟩ :: rest => indexListItemsItemElements containers id rest
  | ⟨place, some item, _, _⟩ :: rest =>
    (⟨⟨containers, id⟩, place⟩, item) ::
      indexListItemsItem (containers ++ [.listItem id place]) item ++
        indexListItemsItemElements containers id rest

def indexListItemsItem (containers : List BlockContainerPath) :
    ListItem → List (ItemPlace × ListItem)
  | ⟨_, _, _, _, _, _, children⟩ => indexListItems containers children

end

/-! ## The item index, element by element -/

/-- What one element adds to the item index. -/
def elementItems (cs : List BlockContainerPath) (e : Element Block) : List (ItemPlace × ListItem) :=
  match e.value with
  | none => []
  | some block => indexListItemsKind cs e.id block.kind

/-- What one item adds to the item index. -/
def itemItems (cs : List BlockContainerPath) (id : OpId) (e : Element ListItem) :
    List (ItemPlace × ListItem) :=
  match e.value with
  | none => []
  | some item =>
    (⟨⟨cs, id⟩, e.id⟩, item) :: indexListItems (cs ++ [.listItem id e.id]) item.children

theorem indexListItems_eq (cs s) : indexListItems cs s = s.elements.flatMap (elementItems cs) := by
  obtain ⟨elements, _, _, _⟩ := s
  rw [indexListItems]
  refine eq_flatMap (by rw [indexListItemsElements]) (fun e l => ?_) elements
  obtain ⟨id, _ | ⟨_, _, _, _, kind, _⟩, after, ro⟩ := e <;>
    simp [indexListItemsElements, indexListItemsBlock, elementItems]

theorem indexListItemsKind_blockQuote (cs id children) : indexListItemsKind cs id
    (.blockQuote children) = indexListItems (cs ++ [.blockQuote id]) children := by
  rw [indexListItemsKind]

theorem indexListItemsKind_list (cs id style items pm) :
    indexListItemsKind cs id (.list style items pm) = items.elements.flatMap (itemItems cs id) := by
  obtain ⟨elements, _, _, _⟩ := items
  rw [indexListItemsKind, indexListItemsItems]
  refine eq_flatMap (by rw [indexListItemsItemElements]) (fun e l => ?_) elements
  obtain ⟨place, _ | ⟨_, _, _, _, _, _, children⟩, after, ro⟩ := e <;>
    simp [indexListItemsItemElements, indexListItemsItem, itemItems]

/-! ## Items without their places -/

theorem listItems_eq_index (cs s) : listItems s = (indexListItems cs s).map Prod.snd := by
  induction s using tree_induction generalizing cs with
  | step s ih =>
    rw [listItems_eq, indexListItems_eq, map_flatMap]
    refine flatMap_congr (fun e he => ?_)
    cases hv : e.value with
    | none => simp [elementItems, hv]
    | some b =>
      have ih := ih b (.inl ⟨e, he, hv⟩)
      simp only [elementItems, hv, toList_some, flatMap_singleton]
      cases hk : b.kind with
      | blockQuote children => rw [listItemsKind, indexListItemsKind, ih.1 children hk]
      | list style items pm =>
        rw [listItemsKind_list, indexListItemsKind_list, map_flatMap]
        refine flatMap_congr (fun ie hie => ?_)
        cases hiv : ie.value with
        | none => simp [itemItems, hiv]
        | some item =>
          simp only [itemItems, hiv, toList_some, flatMap_singleton, map_cons]
          rw [ih.2 style items pm hk item (.inl ⟨ie, hie, hiv⟩)]
      | _ =>
        rw [listItemsKind, indexListItemsKind]
        rfl

/-! ## Entries stand at their places -/

theorem Sequence.value?_of_mem {T : Type} {s : Sequence T} (h : s.Indexed) {e : Element T}
    (he : e ∈ s.elements) {v} (hv : e.value = some v) : s.value? e.id = some v := by
  rw [value?, (getElement_eq_some h).mpr ⟨he, rfl⟩]
  exact hv

theorem Sequence.mem_of_value? {T : Type} {s : Sequence T} (h : s.Indexed) {v}
    (hv : s.value? id = some v) : ∃ e ∈ s.elements, e.id = id ∧ e.value = some v := by
  obtain ⟨e, he, hev⟩ := bind_eq_some_iff.mp hv
  obtain ⟨hmem, rfl⟩ := (getElement_eq_some h).mp he
  exact ⟨e, hmem, rfl, hev⟩

theorem Sequence.value?_of_getElement {T : Type} {s : Sequence T} (h : s.Indexed) {e : Element T}
    (he : e ∈ s.elements) : s.value? e.id = e.value := by
  rw [value?, (getElement_eq_some h).mpr ⟨he, rfl⟩]
  rfl

/-- The item at a place. -/
def itemAtPlace (s : Sequence Block) (p : ItemPlace) : Option ListItem :=
  (blockAtPath s p.list).bind (fun b => match b.kind with
    | .list _ items _ => items.value? p.place
    | _ => none)

theorem blockAtPath_blockQuote
    (hb : s.value? id = some b) {children} (hk : b.kind = .blockQuote children) (rel elem) :
    blockAtPath s ⟨.blockQuote id :: rel, elem⟩ = blockAtPath children ⟨rel, elem⟩ := by
  simp only [blockAtPath, childrenAt, hb, bind_some, hk]

theorem blockAtPath_listItem (hb : s.value? id = some b)
    (hk : b.kind = .list style items pm) (hi : items.value? place = some item) (rel elem) :
    blockAtPath s ⟨.listItem id place :: rel, elem⟩ = blockAtPath item.children ⟨rel, elem⟩ := by
  simp only [blockAtPath, childrenAt, hb, bind_some, hk, hi]

namespace Rules
variable {R : Rules}

theorem Blocks.index_at (h : R.Blocks s) {entry} (he : entry ∈ indexBlockSequence cs s) :
    ∃ rel, entry.1.containers = cs ++ rel ∧
      MdCrdt.blockAtPath s ⟨rel, entry.1.elemId⟩ = some entry.2 := by
  induction s using tree_induction generalizing cs with
  | step s ih =>
    rw [indexBlockSequence_eq] at he
    obtain ⟨e, hmem, he⟩ := mem_flatMap.mp he
    cases hv : e.value with
    | none => simp [elementEntries, hv] at he
    | some b =>
      have hval := value?_of_mem h.indexed hmem hv
      have hkind := (h.live hmem hv).kind
      have ih := ih b (.inl ⟨e, hmem, hv⟩)
      simp only [elementEntries, hv, mem_cons, indexBlock_eq] at he
      rcases he with rfl | he
      · exact ⟨[], by simp, hval⟩
      cases hk : b.kind with
      | blockQuote children =>
        rw [hk, indexKind_blockQuote] at he
        obtain ⟨rel, hrel, hat⟩ := ih.1 children hk (hkind.children hk) he
        exact ⟨.blockQuote e.id :: rel, by simpa using hrel, by rwa [blockAtPath_blockQuote hval hk]⟩
      | list style items pm =>
        rw [hk, indexKind_list] at he
        obtain ⟨ie, hie, he⟩ := mem_flatMap.mp he
        have hitems := (hkind.items hk).1
        cases hiv : ie.value with
        | none => simp [itemEntries, hiv] at he
        | some item =>
          simp only [itemEntries, hiv] at he
          obtain ⟨rel, hrel, hat⟩ := ih.2 style items pm hk item (.inl ⟨ie, hie, hiv⟩)
            (hitems.live hie hiv).children he
          have hplace := value?_of_mem hitems.indexed hie hiv
          exact ⟨.listItem e.id ie.id :: rel, by simpa using hrel,
            by rwa [blockAtPath_listItem hval hk hplace]⟩
      | _ => simp [hk, indexKind] at he

theorem Blocks.items_at (h : R.Blocks s) {entry} (he : entry ∈ indexListItems cs s) :
    ∃ rel, entry.1.list.containers = cs ++ rel ∧
      itemAtPlace s ⟨⟨rel, entry.1.list.elemId⟩, entry.1.place⟩ = some entry.2 := by
  induction s using tree_induction generalizing cs with
  | step s ih =>
    rw [indexListItems_eq] at he
    obtain ⟨e, hmem, he⟩ := mem_flatMap.mp he
    cases hv : e.value with
    | none => simp [elementItems, hv] at he
    | some b =>
      have hval := value?_of_mem h.indexed hmem hv
      have hkind := (h.live hmem hv).kind
      have ih := ih b (.inl ⟨e, hmem, hv⟩)
      simp only [elementItems, hv] at he
      cases hk : b.kind with
      | blockQuote children =>
        rw [hk, indexListItemsKind_blockQuote] at he
        obtain ⟨rel, hrel, hat⟩ := ih.1 children hk (hkind.children hk) he
        refine ⟨.blockQuote e.id :: rel, by simpa using hrel, ?_⟩
        simpa only [itemAtPlace, blockAtPath_blockQuote hval hk] using hat
      | list style items pm =>
        rw [hk, indexListItemsKind_list] at he
        obtain ⟨ie, hie, he⟩ := mem_flatMap.mp he
        have hitems := (hkind.items hk).1
        cases hiv : ie.value with
        | none => simp [itemItems, hiv] at he
        | some item =>
          have hplace := value?_of_mem hitems.indexed hie hiv
          simp only [itemItems, hiv, mem_cons] at he
          rcases he with rfl | he
          · refine ⟨[], by simp, ?_⟩
            simpa [itemAtPlace, MdCrdt.blockAtPath, MdCrdt.childrenAt, hval, hk] using hplace
          · obtain ⟨rel, hrel, hat⟩ := ih.2 style items pm hk item (.inl ⟨ie, hie, hiv⟩)
              (hitems.live hie hiv).children he
            refine ⟨.listItem e.id ie.id :: rel, by simpa using hrel, ?_⟩
            simpa only [itemAtPlace, blockAtPath_listItem hval hk hplace] using hat
      | _ => simp [hk, indexListItemsKind] at he

/-- A list item that a search finds stands somewhere. -/
theorem Blocks.listItem (h : R.Blocks s)
    (hi : item ∈ listItems s) : ∃ place, R.ItemStands place item := by
  rw [listItems_eq_index []] at hi
  obtain ⟨entry, he, rfl⟩ := mem_map.mp hi
  obtain ⟨rel, -, hat⟩ := h.items_at he
  obtain ⟨b, hb, hitem⟩ := bind_eq_some_iff.mp hat
  cases hk : b.kind with
  | list style items pm =>
    rw [hk] at hitem
    exact ⟨_, ((h.blockAtPath hb).kind.items hk).1.value? hitem⟩
  | _ => simp [hk] at hitem

end Rules

/-! ## Edits of one item -/

/-- The element of the outermost sequence that a path goes through. -/
def BlockPath.head (path : BlockPath) : OpId :=
  match path.containers with
  | [] => path.elemId
  | .blockQuote id :: _ => id
  | .listItem list _ :: _ => list

/-- A path seen from the container it is in. -/
def BlockPath.under (cs : List BlockContainerPath) (path : BlockPath) : BlockPath :=
  ⟨cs ++ path.containers, path.elemId⟩

theorem BlockPath.under_inj {p q : BlockPath} (h : p.under cs = q.under cs) : p = q := by
  obtain ⟨_, _⟩ := p
  obtain ⟨_, _⟩ := q
  simpa [under] using h

/-- The place, identity and task of an entry of the item index. -/
def taskEntry (e : ItemPlace × ListItem) : ItemPlace × BlockId × Option TaskState :=
  (e.1, e.2.id, e.2.task)

/-- Every live list item with its place and task. -/
def taskIndex (cs : List BlockContainerPath) (s : Sequence Block) :
    List (ItemPlace × BlockId × Option TaskState) :=
  (indexListItems cs s).map taskEntry

/-- Write the task of the entry at a place. -/
def writeTask (target : ItemPlace) (task : Option TaskState)
    (e : ItemPlace × BlockId × Option TaskState) : ItemPlace × BlockId × Option TaskState :=
  if e.1 = target then (e.1, e.2.1, task) else e

theorem map_writeTask_of_ne {l : List (ItemPlace × ListItem)} (h : ∀ e ∈ l, e.1 ≠ target) :
    (l.map taskEntry).map (writeTask target task) = l.map taskEntry := by
  rw [List.map_map]
  exact map_congr_left (fun e he => if_neg (h e he))

theorem Sequence.flatMap_withValue_map {T B C : Type} {s : Sequence T} (hi : s.Indexed)
    {f : T → T} {v} (hv : s.value? id = some v) {F : Element T → List B} {t : B → C} {u : C → C}
    (hself : ∀ e ∈ s.elements, e.id = id → e.value = some v →
      (F { e with value := some (f v) }).map t = ((F e).map t).map u)
    (hother : ∀ e ∈ s.elements, e.id ≠ id → ((F e).map t).map u = (F e).map t) :
    ((s.withValue id f).elements.flatMap F).map t = ((s.elements.flatMap F).map t).map u := by
  rw [hi.withValue_eq, map_flatMap, map_flatMap, map_flatMap, updateAt, flatMap_map]
  refine flatMap_congr (fun e he => ?_)
  by_cases hid : e.id = id
  · have hev : e.value = some v := by
      rw [← value?_of_getElement hi he, hid, hv]
    rw [if_pos hid]; simpa only [hev, map_some] using hself e he hid hev
  · rw [if_neg hid]
    exact (hother e he hid).symm

/-- A place that none of the items of a list but the one in `slot` holds, itself or inside it. -/
def ItemPlace.InSlot (cs : List BlockContainerPath) (id slot : OpId) (target : ItemPlace) : Prop :=
  ∀ other ≠ slot, target ≠ ⟨⟨cs, id⟩, other⟩ ∧
    ∀ rel, target.list.containers ≠ cs ++ .listItem id other :: rel

namespace Rules
variable {R : Rules} {cs : List BlockContainerPath} {id place : OpId} {task : Option TaskState}

theorem Kind.items_head (h : R.Kind k) (he : entry ∈ indexListItemsKind cs id k) :
    ∃ rel : BlockPath, entry.1.list = rel.under cs ∧ rel.head = id := by
  obtain ⟨⟨⟨containers, elemId⟩, place⟩, found⟩ := entry
  cases h with
  | blockQuote h =>
    rw [indexListItemsKind_blockQuote] at he
    obtain ⟨rel, hrel, -⟩ := h.items_at he
    exact ⟨⟨.blockQuote id :: rel, elemId⟩, by simpa [under] using hrel, rfl⟩
  | list h _ =>
    rw [indexListItemsKind_list] at he
    obtain ⟨e, hmem, he⟩ := mem_flatMap.mp he
    cases hev : e.value with
    | none => simp [itemItems, hev] at he
    | some item =>
      simp only [itemItems, hev, mem_cons] at he
      rcases he with he | he
      · obtain ⟨⟨⟨rfl, rfl⟩, -⟩, -⟩ : ((containers = cs ∧ elemId = id) ∧ place = e.id) ∧
            found = item := by simpa using he
        exact ⟨⟨[], elemId⟩, by simp [under], rfl⟩
      · obtain ⟨rel, hrel, -⟩ := (h.live hmem hev).children.items_at he
        exact ⟨⟨.listItem id e.id :: rel, elemId⟩, by simpa [under] using hrel, rfl⟩
  | _ => simp [indexListItemsKind] at he

/-- A write under one element of a sequence shows in what that element adds to the index. -/
theorem Blocks.taskIndex_withValue (h : R.Blocks s)
    (hv : s.value? id = some b) {f} (rel : BlockPath) (hhead : rel.head = id)
    (hf : (indexListItemsKind cs id (f b).kind).map taskEntry =
      ((indexListItemsKind cs id b.kind).map taskEntry).map (writeTask ⟨rel.under cs, place⟩ task)) :
    taskIndex cs (s.withValue id f) = (taskIndex cs s).map (writeTask ⟨rel.under cs, place⟩ task) := by
  simp only [taskIndex, indexListItems_eq]
  refine flatMap_withValue_map h.indexed hv ?_ ?_
  · rintro e - rfl hev
    simpa only [elementItems, hev] using hf
  · intro e hmem hne
    cases hev : e.value with
    | none => simp [elementItems, hev]
    | some other =>
      simp only [elementItems, hev]
      refine map_writeTask_of_ne (fun entry he heq => ?_)
      obtain ⟨rel', hlist, hhead'⟩ := (h.live hmem hev).kind.items_head he
      rw [heq] at hlist
      exact hne (hhead' ▸ under_inj hlist ▸ hhead)

theorem Items.taskIndex_withValue (h : R.Items items) {slot} (hv : items.value? slot = some item)
    {g} {target : ItemPlace} (hin : target.InSlot cs id slot)
    (hg : ∀ e, e.id = slot → e.value = some item →
      (itemItems cs id { e with value := some (g item) }).map taskEntry =
        ((itemItems cs id e).map taskEntry).map (writeTask target task)) :
    ((items.withValue slot g).elements.flatMap (itemItems cs id)).map taskEntry =
      ((items.elements.flatMap (itemItems cs id)).map taskEntry).map (writeTask target task) := by
  refine flatMap_withValue_map h.indexed hv (fun e _ => hg e) ?_
  intro e hmem hne
  refine map_writeTask_of_ne (fun entry he heq => ?_)
  obtain ⟨hplace, hout⟩ := hin e.id hne
  cases hev : e.value with
  | none => simp [itemItems, hev] at he
  | some other =>
    simp only [itemItems, hev, mem_cons] at he
    rcases he with he | he
    · exact hplace (by rw [← heq, he])
    · obtain ⟨rel, hrel, -⟩ := (h.live hmem hev).children.items_at he
      exact hout rel (by rw [← heq, hrel, append_assoc]; rfl)

/-- A write to an item of the list at a path changes the one entry at its place. -/
theorem taskIndex_write {f style pm} (hk : b.kind = .list style items pm)
    {g} (hv : items.value? place = some item)
    (hg : (g item).id = item.id ∧ (g item).task = task ∧ (g item).children = item.children)
    (hf : (f b).kind = .list style (items.withValue place g) pm) {elem} :
    ∀ (rel : List BlockContainerPath) {s : Sequence Block} (cs : List BlockContainerPath),
      R.Blocks s → blockAtPath s ⟨rel, elem⟩ = some b →
      taskIndex cs (modifyAtPath s ⟨rel, elem⟩ f) =
        (taskIndex cs s).map (writeTask ⟨⟨cs ++ rel, elem⟩, place⟩ task) := by
  intro rel s cs h hb
  obtain ⟨c, hc, hval⟩ := bind_eq_some_iff.mp hb
  replace hc : Leads rel s c := leads_of_childrenAt hc
  clear hb
  induction hc generalizing cs with
  | here =>
    have hitems := ((h.value? hval).kind.items hk).1
    refine h.taskIndex_withValue hval ⟨[], elem⟩ rfl ?_
    rw [hf, hk, indexListItemsKind_list, indexListItemsKind_list]
    refine hitems.taskIndex_withValue hv ?_ ?_
    · intro other hne
      simp [under, Ne.symm hne]
    · rintro e rfl hev
      simp only [itemItems, hev, hg.2.2, map_cons]
      rw [map_writeTask_of_ne (fun entry he heq => ?_)]
      · simp [taskEntry, writeTask, hg.1, hg.2.1, under]
      · obtain ⟨rel, hrel, -⟩ := (hitems.value? hv).children.items_at he
        simp [heq, under] at hrel
  | @quote id rest _ _ _ _ hquote hq hrest ih =>
    have ih := ih (cs ++ [.blockQuote id]) ((h.value? hquote).kind.children hq) hval
    refine h.taskIndex_withValue hquote ⟨.blockQuote id :: rest, elem⟩ rfl ?_
    simp only [hq, indexListItemsKind_blockQuote]
    simpa only [taskIndex, append_assoc, cons_append, nil_append,
      modifyAtPath, under] using ih
  | @item list slot rest _ _ _ _ _ _ _ houter ho hinner hrest ih =>
    have hslots := ((h.value? houter).kind.items ho).1
    have ih := ih (cs ++ [.listItem list slot]) (hslots.value? hinner).children hval
    refine h.taskIndex_withValue houter ⟨.listItem list slot :: rest, elem⟩ rfl ?_
    simp only [ho, indexListItemsKind_list]
    refine hslots.taskIndex_withValue hinner ?_ ?_
    · intro other hne
      simp [under, Ne.symm hne]
    · rintro e rfl hev
      simp only [itemItems, hev, map_cons]
      refine congrArg₂ List.cons ?_ ?_
      · simp [taskEntry, writeTask, under]
      · simpa only [taskIndex, append_assoc, cons_append, nil_append,
          modifyAtPath, under] using ih

end Rules

/-! ## Lookups in a document -/

namespace Document
variable {R : Rules} {d : Document}

section
variable (h : R.Blocks d.blocks)
include h

theorem find?_entry_at
    (hf : d.blockIndex.find? p = some (path, b)) : blockAtPath d.blocks path = some b := by
  obtain ⟨rel, hrel, hat⟩ := h.index_at (mem_of_find?_eq_some hf)
  obtain rfl : path.containers = rel := by simpa using hrel
  exact hat

/-- A block found by its id: the first entry of the index. -/
theorem findBlockById_eq_find? (id) :
    d.findBlockById id = (d.blockIndex.find? (fun entry => entry.2.id = id)).map Prod.snd := by
  unfold findBlockById pathOfBlock
  cases hf : d.blockIndex.find? (fun entry => entry.2.id = id) with
  | none => rfl
  | some entry =>
    obtain ⟨path, b⟩ := entry
    have hid : b.id = id := by simpa using find?_some hf
    simp [find?_entry_at h hf, filter_some, hid]

theorem findBlockById_stands {id}
    (hb : d.findBlockById id = some b) : R.Stands b.elemId b ∧ b.id = id := by
  obtain ⟨hid, path, -, hat⟩ := findBlockById_eq_some.mp hb
  have hs := h.blockAtPath hat
  exact ⟨hs.elemId ▸ hs, hid⟩

theorem findBlock_stands {elemId} (hb : d.findBlock elemId = some b) : R.Stands elemId b := by
  obtain ⟨hid, path, -, hat⟩ := findBlock_eq_some.mp hb
  have hs := h.blockAtPath hat
  rw [hs.elemId] at hid
  exact hid ▸ hs

theorem findListItemById_stands {id}
    (hi : d.findListItemById id = some item) : (∃ place, R.ItemStands place item) ∧ item.id = id :=
  ⟨h.listItem (mem_of_find?_eq_some hi), by simpa using find?_some hi⟩

end

end Document
end MdCrdt
