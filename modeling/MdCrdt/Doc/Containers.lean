import MdCrdt.Doc.Lookups

/- Where the search for a container leads.

  `containers` lists the containers of a tree in the order of the search. In a tree whose
  sequences are indexed, the path of an entry leads to the children of a blockquote or
  list item that answers to the id (`containers_at`), and an edit at the path that a search
  finds does not change what the search finds (`search_modify`), so two edits of
  the children of one container are one edit (`withContainerChildrenMut_comp`). -/
namespace MdCrdt
open Lib List Option Sequence
variable {f : Sequence Block → Sequence Block}

/-! ## Where they stand -/

/-- A container is direct, or inside a block, or inside an item. -/
inductive Container (p : OpId) : Sequence Block → List BlockContainerPath → Prop
  | quote {s id b children}
      (hb : s.value? id = some b) (hk : b.kind = .blockQuote children) (hp : b.elemId = p) :
      Container p s [.blockQuote id]
  | item {s list place b style items pm item}
      (hb : s.value? list = some b) (hk : b.kind = .list style items pm)
      (hi : items.value? place = some item) (hp : item.elemId = p) :
      Container p s [.listItem list place]
  | inQuote {s id b children rest} (hb : s.value? id = some b)
      (hk : b.kind = .blockQuote children) (h : Container p children rest) :
      Container p s (.blockQuote id :: rest)
  | inItem {s list place b style items pm item rest} (hb : s.value? list = some b)
      (hk : b.kind = .list style items pm) (hi : items.value? place = some item)
      (h : Container p item.children rest) : Container p s (.listItem list place :: rest)

namespace Rules
variable {R : Rules}

theorem Blocks.containers_at (h : R.Blocks s) (hc : c ∈ containers s) : Container c.1 s c.2 := by
  replace hc := contains_of_mem hc
  induction hc with
  | quote he hv hk => exact .quote (value?_of_mem h.indexed he hv) hk rfl
  | item he hv hk hie hiv =>
    have hitems := ((h.live he hv).kind.items hk).1
    exact .item (value?_of_mem h.indexed he hv) hk (value?_of_mem hitems.indexed hie hiv) rfl
  | inQuote he hv hk _ ih =>
    exact .inQuote (value?_of_mem h.indexed he hv) hk (ih ((h.live he hv).kind.children hk))
  | inItem he hv hk hie hiv _ ih =>
    have hitems := ((h.live he hv).kind.items hk).1
    exact .inItem (value?_of_mem h.indexed he hv) hk (value?_of_mem hitems.indexed hie hiv)
      (ih (hitems.live hie hiv).children)

end Rules

/-! ## What a search finds -/

theorem findSome?_modify {A B : Type} (F : A → Option B) (g : A → A) :
    ∀ (l : List A) (i : Nat), (∀ a, l[i]? = some a → F (g a) = F a) →
      (l.modify i g).findSome? F = l.findSome? F
  | [], _, _ => by simp
  | a :: l, 0, h => by
    rw [modify_zero_cons, findSome?_cons, findSome?_cons, h a rfl]
  | a :: l, i + 1, h => by
    rw [modify_succ_cons, findSome?_cons, findSome?_cons,
      findSome?_modify F g l i (fun b hb => h b (by simpa using hb))]

/-- An edit that keeps what a search reads of the value keeps what it finds. -/
theorem Sequence.findSome?_withValue {T B : Type} {s : Sequence T} {id f v}
    (h : s.value? id = some v) (F : Element T → Option B)
    (hF : ∀ e ∈ s.elements, e.value = some v → F { e with value := some (f v) } = F e) :
    (s.withValue id f).elements.findSome? F = s.elements.findSome? F := by
  obtain ⟨i, e, hi, he, hv⟩ := value?_eq_some h
  rw [withValue, hi]
  apply findSome?_modify
  intro a ha
  obtain rfl : e = a := some.inj (he.symm.trans ha)
  rw [hv]
  exact hF e (mem_of_getElem? he) hv

/-- The first container below a sequence that answers to an id. -/
def search (p : OpId) (s : Sequence Block) : Option (List BlockContainerPath) :=
  ((containers s).find? (fun c => c.1 = p)).map Prod.snd

/-- What one element answers for its sequence. -/
def searchDirect (p : OpId) (e : Element Block) : Option (List BlockContainerPath) :=
  ((elementDirect e).find? (fun c => c.1 = p)).map (fun c => [c.2])

def searchElement (p : OpId) (e : Element Block) : Option (List BlockContainerPath) :=
  ((elementContainers e).find? (fun c => c.1 = p)).map Prod.snd

def searchItem (p : OpId) (id : OpId) (e : Element ListItem) : Option (List BlockContainerPath) :=
  e.value.bind (fun item => (search p item.children).map (.listItem id e.id :: ·))

theorem search_eq (p s) : search p s =
    (s.elements.findSome? (searchDirect p)).or (s.elements.findSome? (searchElement p)) := by
  rw [search, containers_eq, find?_append, find?_map, find?_flatMap,
    find?_flatMap, map_or, Option.map_map, map_findSome?, map_findSome?]
  rfl

variable {p : OpId} {e : Element Block} {path : List BlockContainerPath} {s : Sequence Block}

theorem searchElement_blockQuote (p) {b children}
    (hv : e.value = some b) (hk : b.kind = .blockQuote children) :
    searchElement p e = (search p children).map (.blockQuote e.id :: ·) := by
  simp only [searchElement, elementContainers, hv, hk, containersKind_blockQuote, find?_map,
    search, Option.map_map]
  rfl

theorem searchElement_list (p) (hv : e.value = some b) (hk : b.kind = .list style items pm) :
    searchElement p e = items.elements.findSome? (searchItem p e.id) := by
  simp only [searchElement, elementContainers, hv, hk, containersKind_list, find?_flatMap,
    map_findSome?]
  congr 1
  funext ie
  cases hie : ie.value with
  | none => simp [itemContainers, searchItem, hie]
  | some item =>
    simp only [Function.comp_apply, itemContainers, searchItem, hie, bind_some, search,
      find?_map, Option.map_map]
    rfl

/-- What an element finds inside itself leads through it. -/
theorem searchElement_eq_some (h : searchElement p e = some path) : ∃ b, e.value = some b ∧
      ((∃ children rest, b.kind = .blockQuote children ∧ search p children = some rest ∧
          path = .blockQuote e.id :: rest) ∨
        ∃ style items pm place rest, b.kind = .list style items pm ∧
          items.elements.findSome? (searchItem p e.id) = some path ∧
          path = .listItem e.id place :: rest) := by
  cases hv : e.value with
  | none => simp [searchElement, elementContainers, hv] at h
  | some b =>
    refine ⟨b, rfl, ?_⟩
    cases hk : b.kind with
    | blockQuote children =>
      rw [searchElement_blockQuote p hv hk] at h
      obtain ⟨rest, hrest, rfl⟩ := map_eq_some_iff.mp h
      exact .inl ⟨children, rest, rfl, hrest, rfl⟩
    | list style items pm =>
      rw [searchElement_list p hv hk] at h
      obtain ⟨ie, hie, hfound⟩ := exists_of_findSome?_eq_some h
      obtain ⟨item, -, hitem⟩ := bind_eq_some_iff.mp hfound
      obtain ⟨rest, -, rfl⟩ := map_eq_some_iff.mp hitem
      exact .inr ⟨style, items, pm, ie.id, rest, rfl, h, rfl⟩
    | _ =>
      simp [searchElement, elementContainers, hv, hk, containersKind] at h

theorem Rules.Blocks.search_at {R : Rules} (h : R.Blocks s) (hp : search p s = some path) :
    Container p s path := by
  obtain ⟨c, hc, rfl⟩ := map_eq_some_iff.mp hp
  have hid : c.1 = p := by simpa using find?_some hc
  exact hid ▸ h.containers_at (mem_of_find?_eq_some hc)

theorem searchDirect_eq_some (h : searchDirect p e = some path) : ∃ c, path = [c] := by
  obtain ⟨c, -, rfl⟩ := map_eq_some_iff.mp h
  exact ⟨c.2, rfl⟩

/-- A search finds no empty path. -/
theorem search_ne_nil (h : search p s = some path) : path ≠ [] := by
  rw [search_eq, or_eq_some_iff] at h
  rcases h with h | ⟨-, h⟩
  · obtain ⟨e, -, he⟩ := exists_of_findSome?_eq_some h
    obtain ⟨c, rfl⟩ := searchDirect_eq_some he
    simp
  · obtain ⟨e, -, he⟩ := exists_of_findSome?_eq_some h
    obtain ⟨b, -, ⟨_, _, _, _, rfl⟩ | ⟨_, _, _, _, _, _, _, rfl⟩⟩ := searchElement_eq_some he <;> simp

theorem searchDirect_congr (h : elementDirect e = elementDirect e') :
    searchDirect p e = searchDirect p e' := by
  rw [searchDirect, searchDirect, h]

theorem elementDirect_blockQuote {b children} (hv : e.value = some b)
    (hk : b.kind = .blockQuote children) : elementDirect e = [(b.elemId, .blockQuote e.id)] := by
  simp only [elementDirect, hv, hk]

/-- The items of a list answer to the same ids after an edit of the children of one of them. -/
theorem elementDirect_list (hid : e'.id = e.id)
    (hv : e.value = some b) (hk : b.kind = .list style items pm) (hv' : e'.value = some b')
    (hi : items.value? place = some item) (hg : (g item).elemId = item.elemId)
    (hk' : b'.kind = .list style (items.withValue place g) pm) :
    elementDirect e' = elementDirect e := by
  simp only [elementDirect, hv, hv', hk, hk', hid, filterMap_eq_flatMap_toList]
  refine flatMap_withValue hi _ (fun ie hie => ?_)
  simp [hie, hg]

/-- An edit of the children at a path leaves the containers of the sequence itself alone. -/
theorem searchDirect_modify (h : Container p s (c :: rest)) :
    (modifyChildrenAt f (c :: rest) s).elements.findSome? (searchDirect p) =
      s.elements.findSome? (searchDirect p) := by
  cases h with
  | quote hb hk | inQuote hb hk =>
    rw [modifyChildrenAt]
    refine findSome?_withValue hb _ (fun e _ he => searchDirect_congr ?_)
    rw [elementDirect_blockQuote he hk]
    simp only [hk]
    rw [elementDirect_blockQuote rfl rfl]
  | item hb hk hi | inItem hb hk hi =>
    rw [modifyChildrenAt]
    refine findSome?_withValue hb _ (fun e _ he => searchDirect_congr ?_)
    simp only [hk]
    exact elementDirect_list rfl he hk rfl hi rfl rfl

/-- An edit at the path that a search finds leaves what it finds alone. -/
theorem search_modify {R : Rules} :
    ∀ (path : List BlockContainerPath) {s : Sequence Block}, R.Blocks s →
      search p s = some path → search p (modifyChildrenAt f path s) = some path
  | [], s, _, h => (search_ne_nil h rfl).elim
  | c :: rest, s, hs, h => by
    have hc : Container p s (c :: rest) := hs.search_at h
    rw [search_eq, searchDirect_modify hc]
    rw [search_eq, or_eq_some_iff] at h
    rcases h with h | ⟨hnone, h⟩
    · rw [h, some_or]
    rw [hnone, none_or, ← h]
    obtain ⟨e, he, hfound⟩ := exists_of_findSome?_eq_some h
    obtain ⟨b, hv, hcase⟩ := searchElement_eq_some hfound
    have hb := value?_of_mem hs.indexed he hv
    rcases hcase with ⟨children, rest', hk, hrest, heq⟩ | ⟨style, items, pm, place, _, hk, hfound, heq⟩
    · obtain ⟨rfl, rfl⟩ := List.cons.inj heq
      rw [modifyChildrenAt]
      refine findSome?_withValue hb _ (fun e' he' hv' => ?_)
      simp only [hk]
      rw [searchElement_blockQuote p hv' hk, searchElement_blockQuote p rfl rfl,
        search_modify rest ((hs.value? hb).kind.children hk) hrest, hrest]
    · obtain ⟨rfl, -⟩ := List.cons.inj heq
      have hitems := ((hs.value? hb).kind.items hk).1
      obtain ⟨ie, hie, hitem⟩ := exists_of_findSome?_eq_some hfound
      obtain ⟨item, hiv, hitem⟩ := bind_eq_some_iff.mp hitem
      obtain ⟨found, hrest, heq'⟩ := map_eq_some_iff.mp hitem
      obtain ⟨hid, hfound'⟩ := List.cons.inj heq'
      cases hid
      rw [hfound'] at hrest
      have hi := value?_of_mem hitems.indexed hie hiv
      rw [modifyChildrenAt]
      refine findSome?_withValue hb _ (fun e' he' hv' => ?_)
      simp only [hk]
      rw [searchElement_list p hv' hk, searchElement_list p rfl rfl]
      refine findSome?_withValue hi _ (fun ie' _ hiv' => ?_)
      simp only [searchItem, hiv', bind_some]
      rw [search_modify rest (hitems.value? hi).children hrest, hrest]

theorem Sequence.withValue_withValue {T : Type} (s : Sequence T) (id) (f g : T → T) :
    (s.withValue id f).withValue id g = s.withValue id (fun v => g (f v)) := by
  unfold withValue
  cases hi : s.index.get? id with
  | none => simp [hi]
  | some i =>
    simp only [hi, modify_modify_eq]
    congr 2
    funext e
    simp [Function.comp_def]

theorem modifyChildrenAt_comp (f g : Sequence Block → Sequence Block) : ∀ path s,
      modifyChildrenAt g path (modifyChildrenAt f path s) = modifyChildrenAt (g ∘ f) path s
  | [], _ => rfl
  | .blockQuote id :: rest, s => by
    simp only [modifyChildrenAt, withValue_withValue]
    congr 1
    funext b
    cases hk : b.kind with
    | blockQuote children => simp only [modifyChildrenAt_comp f g rest children]
    | _ => simp only [hk]
  | .listItem list place :: rest, s => by
    simp only [modifyChildrenAt, withValue_withValue]
    congr 1
    funext b
    cases hk : b.kind with
    | list style items pm =>
      simp only [withValue_withValue, modifyChildrenAt_comp f g rest]
    | _ => simp only [hk]

namespace Document
variable {R : Rules} {d : Document}

theorem withContainerChildrenMut_eq (d : Document) (p) (f : Sequence Block → Sequence Block) :
    d.withContainerChildrenMut p f = (search p d.blocks).map (fun path =>
      { d with blocks := modifyChildrenAt f path d.blocks }) := by
  rw [withContainerChildrenMut, search, Option.map_map]
  rfl

/-- Two edits of the children of one container are one edit. -/
theorem withContainerChildrenMut_comp (h : R.Blocks d.blocks) {d' : Document}
    (hd : d.withContainerChildrenMut p f = some d') :
    d'.withContainerChildrenMut p g = d.withContainerChildrenMut p (g ∘ f) := by
  rw [withContainerChildrenMut_eq] at hd
  obtain ⟨path, hpath, rfl⟩ := map_eq_some_iff.mp hd
  rw [withContainerChildrenMut_eq, withContainerChildrenMut_eq, search_modify path h hpath, hpath,
    map_some, map_some, modifyChildrenAt_comp]

end Document
end MdCrdt
