import MdCrdt.Doc.Block

/- The tree of blocks.

  A blockquote and a list item hold a sequence of blocks, so what is to hold of every
  sequence of a document may be assumed of the sequences inside its blocks
  (`tree_induction`), live or waiting. The walks over the tree list what they find
  element by element, and a path leads through the blocks it names. -/
namespace MdCrdt
open Lib List Option
variable (s : Sequence Block)

/-! ## Induction -/

/-- The value is live in the sequence or waits to be inserted. -/
def Sequence.Has {T : Type} (s : Sequence T) (v : T) : Prop :=
  (∃ e ∈ s.elements, e.value = some v) ∨
    ∃ after id ro, SequenceOp.insert after id v ro ∈ s.pendingOps

theorem Sequence.Has.sizeOf_lt {T : Type} [SizeOf T] {s : Sequence T} {v} (h : s.Has v) :
    sizeOf v < sizeOf s := by
  obtain ⟨elements, index, ⟨inserts⟩, ⟨deletes⟩⟩ := s
  have hs := Sequence.mk.sizeOf_spec elements index ⟨inserts⟩ ⟨deletes⟩
  simp only [SortedMap.mk.sizeOf_spec] at hs
  rcases h with ⟨⟨id, value, after, ro⟩, he, hv⟩ | ⟨after, id, ro, hop⟩
  · have hlt := sizeOf_lt_of_mem he
    cases hv
    simp only [Element.mk.sizeOf_spec, some.sizeOf_spec] at hlt
    omega
  · have hbuffer : ∀ {l : List (OpId × List (SequenceOp T))} {ops},
        ops ∈ (SortedMap.mk l).values → .insert after id v ro ∈ ops → sizeOf v < sizeOf l := by
      intro l ops hops hin
      obtain ⟨⟨k, ops'⟩, hk, rfl⟩ := mem_map.mp hops
      have h₁ := sizeOf_lt_of_mem hin
      have h₂ := sizeOf_lt_of_mem hk
      simp only [SequenceOp.insert.sizeOf_spec, Prod.mk.sizeOf_spec] at h₁ h₂
      omega
    obtain ⟨ops, hops, hin⟩ := mem_flatten.mp hop
    rcases mem_append.mp hops with hops | hops
    · have := hbuffer hops hin
      omega
    · have := hbuffer hops hin
      omega

/-- Induction over the sequences of blocks of a tree. -/
theorem tree_induction {M : Sequence Block → Prop} (step : ∀ s,
    (∀ b, s.Has b → (∀ c, b.kind = .blockQuote c → M c) ∧
      ∀ style items pm, b.kind = .list style items pm → ∀ item, items.Has item → M item.children) →
    M s) (s) : M s := by
  induction hn : sizeOf s using Nat.strongRecOn generalizing s with
  | ind n ih =>
    subst hn
    apply step
    intro b hb
    have hlt := hb.sizeOf_lt
    obtain ⟨_, _, _, _, kind, _⟩ := b
    simp only [Block.mk.sizeOf_spec] at hlt
    refine ⟨fun c hk => ?_, fun style items pm hk item hitem => ?_⟩
    · cases hk
      simp only [BlockKind.blockQuote.sizeOf_spec] at hlt
      exact ih _ (by omega) c rfl
    · cases hk
      have hlt' := hitem.sizeOf_lt
      obtain ⟨_, _, _, _, _, _, children⟩ := item
      simp only [BlockKind.list.sizeOf_spec, ListItem.mk.sizeOf_spec] at hlt hlt'
      exact ih _ (by omega) children rfl

/-! ## List items, element by element -/

/-- A walk that lists what each element adds. -/
theorem eq_flatMap {A B : Type} {F : List A → List B} {g : A → List B} (hnil : F [] = [])
    (hcons : ∀ a l, F (a :: l) = g a ++ F l) (l) : F l = l.flatMap g := by
  induction l with
  | nil => exact hnil
  | cons a l ih => rw [hcons, ih, flatMap_cons]

theorem listItems_eq : listItems s =
    s.elements.flatMap (fun e => e.value.toList.flatMap (fun b => listItemsKind b.kind)) := by
  obtain ⟨elements, _, _, _⟩ := s
  rw [listItems]
  refine eq_flatMap (by rw [listItemsElements]) (fun e l => ?_) elements
  obtain ⟨id, _ | ⟨_, _, _, _, kind, _⟩, after, ro⟩ := e <;>
    simp [listItemsElements, listItemsBlock]

theorem listItemsKind_list (style items pm) : listItemsKind (.list style items pm) =
      items.elements.flatMap (fun e =>
        e.value.toList.flatMap (fun item => item :: listItems item.children)) := by
  obtain ⟨elements, _, _, _⟩ := items
  rw [listItemsKind, listItemsItems]
  refine eq_flatMap (by rw [listItemsItemElements]) (fun e l => ?_) elements
  obtain ⟨id, _ | ⟨_, _, _, _, _, _, children⟩, after, ro⟩ := e <;>
    simp [listItemsItemElements, listItemsItem]

/-! ## The containers, element by element -/

/-- The containers inside one element. -/
def elementContainers (e : Element Block) : List (OpId × List BlockContainerPath) :=
  match e.value with
  | none => []
  | some block => containersKind e.id block.kind

/-- The containers inside one item. -/
def itemContainers (id : OpId) (e : Element ListItem) : List (OpId × List BlockContainerPath) :=
  match e.value with
  | none => []
  | some item => (containers item.children).map (fun c => (c.1, .listItem id e.id :: c.2))

theorem containersElements_eq (l) : containersElements l = l.flatMap elementContainers := by
  refine eq_flatMap (by rw [containersElements]) (fun e l => ?_) l
  obtain ⟨id, _ | ⟨_, _, _, _, kind, _⟩, after, ro⟩ := e <;>
    simp [containersElements, containersBlock, elementContainers]

theorem containersItemElements_eq (id l) :
    containersItemElements id l = l.flatMap (itemContainers id) := by
  refine eq_flatMap (by rw [containersItemElements]) (fun e l => ?_) l
  obtain ⟨place, _ | ⟨_, _, _, _, _, _, children⟩, after, ro⟩ := e <;>
    simp [containersItemElements, containersItem, itemContainers]

theorem containers_eq : containers s =
    (s.elements.flatMap elementDirect).map (fun c => (c.1, [c.2])) ++
      s.elements.flatMap elementContainers := by
  obtain ⟨elements, index, pendingInserts, pendingDeletes⟩ := s
  rw [containers, directContainers, containersElements_eq]

theorem containersKind_blockQuote (id children) : containersKind id (.blockQuote children) =
      (containers children).map (fun c => (c.1, .blockQuote id :: c.2)) := by
  rw [containersKind]

theorem containersKind_list (id style items pm) : containersKind id (.list style items pm) =
      items.elements.flatMap (itemContainers id) := by
  obtain ⟨elements, _, _, _⟩ := items
  rw [containersKind, containersItems, containersItemElements_eq]

/-- The containers of a tree with the paths to them, by the elements they stand in. -/
inductive Contains : Sequence Block → OpId × List BlockContainerPath → Prop
  | quote {s e b children} (he : e ∈ s.elements) (hv : e.value = some b)
      (hk : b.kind = .blockQuote children) : Contains s (b.elemId, [.blockQuote e.id])
  | item {s e b style items pm ie item} (he : e ∈ s.elements) (hv : e.value = some b)
      (hk : b.kind = .list style items pm) (hie : ie ∈ items.elements)
      (hiv : ie.value = some item) : Contains s (item.elemId, [.listItem e.id ie.id])
  | inQuote {s e b children c} (he : e ∈ s.elements) (hv : e.value = some b)
      (hk : b.kind = .blockQuote children) (h : Contains children c) :
      Contains s (c.1, .blockQuote e.id :: c.2)
  | inItem {s e b style items pm ie item c} (he : e ∈ s.elements) (hv : e.value = some b)
      (hk : b.kind = .list style items pm) (hie : ie ∈ items.elements)
      (hiv : ie.value = some item) (h : Contains item.children c) :
      Contains s (c.1, .listItem e.id ie.id :: c.2)

theorem contains_direct {s e c} (he : e ∈ s.elements) (hc : c ∈ elementDirect e) :
    Contains s (c.1, [c.2]) := by
  unfold elementDirect at hc
  cases hv : e.value with
  | none => simp [hv] at hc
  | some b =>
    simp only [hv] at hc
    cases hk : b.kind with
    | blockQuote children =>
      rw [hk] at hc; obtain rfl := mem_singleton.mp hc
      exact .quote he hv hk
    | list style items pm =>
      rw [hk] at hc
      obtain ⟨ie, hie, hc⟩ := mem_filterMap.mp hc
      obtain ⟨item, hiv, rfl⟩ := map_eq_some_iff.mp hc
      exact .item he hv hk hie hiv
    | _ => simp [hk] at hc

theorem contains_of_mem {s c} (hc : c ∈ containers s) : Contains s c := by
  induction s using tree_induction generalizing c with
  | step s ih =>
    rw [containers_eq, mem_append] at hc
    rcases hc with hc | hc
    · obtain ⟨c', hc', rfl⟩ := mem_map.mp hc
      obtain ⟨e, he, hc'⟩ := mem_flatMap.mp hc'
      exact contains_direct he hc'
    · obtain ⟨e, he, hc⟩ := mem_flatMap.mp hc
      unfold elementContainers at hc
      cases hv : e.value with
      | none => simp [hv] at hc
      | some b =>
        have ih := ih b (.inl ⟨e, he, hv⟩)
        simp only [hv] at hc
        cases hk : b.kind with
        | blockQuote children =>
          rw [hk, containersKind_blockQuote] at hc
          obtain ⟨c', hc', rfl⟩ := mem_map.mp hc
          exact .inQuote he hv hk (ih.1 children hk hc')
        | list style items pm =>
          rw [hk, containersKind_list] at hc
          obtain ⟨ie, hie, hc⟩ := mem_flatMap.mp hc
          cases hiv : ie.value with
          | none => simp [itemContainers, hiv] at hc
          | some item =>
            simp only [itemContainers, hiv] at hc
            obtain ⟨c', hc', rfl⟩ := mem_map.mp hc
            exact .inItem he hv hk hie hiv (ih.2 style items pm hk item (.inl ⟨ie, hie, hiv⟩) hc')
        | _ => simp [hk, containersKind] at hc

/-! ## Paths -/

/-- A path leads from a sequence to the children of the container it names. -/
inductive Leads : List BlockContainerPath → Sequence Block → Sequence Block → Prop
  | here {s : Sequence Block} : Leads [] s s
  | quote {id rest s children c b}
      (hb : s.value? id = some b) (hk : b.kind = .blockQuote children)
      (h : Leads rest children c) : Leads (.blockQuote id :: rest) s c
  | item {list place rest s c b style items pm item} (hb : s.value? list = some b) (hk : b.kind = .list style items pm)
      (hi : items.value? place = some item) (h : Leads rest item.children c) :
      Leads (.listItem list place :: rest) s c

theorem leads_of_childrenAt : ∀ {path : List BlockContainerPath} {s c : Sequence Block},
    childrenAt path s = some c → Leads path s c
  | [], s, c, h => some.inj h ▸ .here
  | .blockQuote id :: rest, s, c, h => by
    obtain ⟨b, hb, hrest⟩ := bind_eq_some_iff.mp h
    cases hk : b.kind with
    | blockQuote children =>
      rw [hk] at hrest
      exact .quote hb hk (leads_of_childrenAt hrest)
    | _ => simp [hk] at hrest
  | .listItem list place :: rest, s, c, h => by
    obtain ⟨b, hb, hrest⟩ := bind_eq_some_iff.mp h
    cases hk : b.kind with
    | list style items pm =>
      rw [hk] at hrest
      obtain ⟨item, hi, hrest⟩ := bind_eq_some_iff.mp hrest
      exact .item hb hk hi (leads_of_childrenAt hrest)
    | _ => simp [hk] at hrest

end MdCrdt
