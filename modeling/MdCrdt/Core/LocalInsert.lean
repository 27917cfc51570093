import MdCrdt.Core.Convergence

/- Where a local insert lands.

  In rebuilt order the element right behind an anchor is the anchor's first
  child, if it has children (`rightOf_iff_first`). A local insert takes the id of
  its right neighbour as right origin, and siblings are compared by the right
  origins' ids: the new element comes first among its siblings exactly when the
  neighbour is no sibling, or one without a right origin (`insert_rightOf_iff`). -/
namespace MdCrdt
open Lib List

/-- `id` stands right behind the anchor; first, for `none`. -/
def RightOf (ids : List OpId) (after : Option OpId) (id : OpId) : Prop :=
  match after with
  | none => ∃ l, ids = id :: l
  | some a => ∃ l₁ l₂, ids = l₁ ++ a :: id :: l₂

theorem RightOf.unique (hnd : ids.Nodup) {after x y}
    (hx : RightOf ids after x) (hy : RightOf ids after y) : x = y := by
  cases after with
  | none =>
    obtain ⟨l, rfl⟩ := hx
    obtain ⟨l', hl'⟩ := hy
    exact (List.cons.inj hl').1
  | some a =>
    obtain ⟨l₁, l₂, rfl⟩ := hx
    obtain ⟨l₁', l₂', heq⟩ := hy
    have hpos : l₁.length = l₁'.length := by
      have h1 : (l₁ ++ a :: x :: l₂)[l₁.length]? = some a := by simp
      have h2 : (l₁ ++ a :: x :: l₂)[l₁'.length]? = some a := by simp [heq]
      exact (getElem?_inj (by simp) hnd).mp (h1.trans h2.symm)
    obtain ⟨_, htail⟩ := append_inj heq hpos
    simp only [List.cons.injEq, true_and] at htail
    exact htail.1

namespace Sequence
variable {T : Type} {s : Sequence T} {after : Option OpId}

/-! ## The neighbour behind an anchor -/

theorem children_eq_nil (h : children l p = []) {e : Element T} (he : e ∈ l) : e.after ≠ p := by
  intro hp
  have hmem : e.id ∈ children l p := mem_map_of_mem (mem_siblings.mpr ⟨he, hp⟩)
  rw [h] at hmem
  cases hmem

/-- The first child of an anchor stands right behind it. -/
theorem rightOf_of_children (h : s.Ordered) (ha : ∀ a, after = some a → a ∈ s.elementIds)
    (hc : children s.elements after = c :: cs) : RightOf s.elementIds after c := by
  have hids : s.elementIds = walk (children s.elements) s.elements.length none := by
    rw [← ids_orderElements h.grounded, h.order]
    rfl
  obtain ⟨dp, h0, hd⟩ := h.grounded.depth
  have hids' : s.elementIds = walk (children s.elements) (s.elements.length + 1) none := by
    rw [hids, walk_of_le hd (by omega) (Nat.le_succ s.elements.length)]
  cases after with
  | none => exact ⟨_, by rw [hids', walk_succ, hc, flatMap_cons, block, cons_append]⟩
  | some a =>
    obtain ⟨m, A, B, hm, hw⟩ := walk_after hd _ none (by omega) (hids ▸ ha a rfl)
    rw [← walk_of_le hd hm (Nat.le_succ m), walk_succ _ m, hc, flatMap_cons, block,
      cons_append, cons_append] at hw
    exact ⟨A, _, hids.trans hw⟩

/-- An element stands right behind its anchor when it is the least of its siblings. -/
theorem rightOf_iff_first (h : s.Ordered) (he : e ∈ s.elements) :
    RightOf s.elementIds e.after e.id ↔ ∀ c ∈ s.elements, c.after = e.after → SiblingLe e c := by
  have hnd : s.elementIds.Nodup := h.grounded.distinct
  have hanchor : ∀ a, e.after = some a → a ∈ s.elementIds := fun a ha => h.grounded.anchor_mem he ha
  have hmem : e ∈ siblings s.elements e.after := mem_siblings.mpr ⟨he, rfl⟩
  have hsorted : (siblings s.elements e.after).Pairwise SiblingLe := pairwise_insertionSort _ _
  cases hs : siblings s.elements e.after with
  | nil =>
    rw [hs] at hmem
    cases hmem
  | cons f fs =>
    have hf : f ∈ s.elements ∧ f.after = e.after := mem_siblings.mp (hs ▸ mem_cons_self)
    have hright : RightOf s.elementIds e.after f.id :=
      rightOf_of_children h hanchor
        (show children s.elements e.after = f.id :: fs.map Element.id by rw [children, hs]; rfl)
    rw [hs] at hmem hsorted
    constructor
    · intro hr c hc hca
      obtain rfl := h.grounded.distinct.eq_of_id hf.1 he (hright.unique hnd hr)
      rcases mem_cons.mp (hs ▸ mem_siblings.mpr ⟨hc, hca⟩) with rfl | hc
      · exact (siblingLe_total c c).elim id id
      · exact (pairwise_cons.mp hsorted).1 c hc
    · intro hmin
      rcases mem_cons.mp hmem with rfl | hmem
      · exact hright
      · rwa [siblingLe_antisymm (hmin f hf.1 hf.2) ((pairwise_cons.mp hsorted).1 e hmem)]

/-- The element that `computeRightOrigin` names stands right behind the anchor. -/
theorem computeRightOrigin_eq_some (h : s.Indexed) (ha : ∀ a, after = some a → a ∈ s.elementIds) :
    s.computeRightOrigin after = some r ↔ RightOf s.elementIds after r := by
  cases after with
  | none =>
    simp only [computeRightOrigin, RightOf, elementIds]
    cases s.elements <;> simp [eq_comm]
  | some a =>
    obtain ⟨i, hi⟩ := SortedMap.contains_iff_get?.mp (h.contains.mpr (ha a rfl))
    have hi' := hi
    rw [h.index] at hi'
    obtain ⟨e, he, hid⟩ := rebuildIndex_get? h.grounded.distinct hi'
    have hai : s.elementIds[i]? = some a := by simp [elementIds, he, hid]
    have hro : s.computeRightOrigin (some a) = s.elementIds[i + 1]? := by
      simp [computeRightOrigin, hi, elementIds]
    rw [hro]
    constructor
    · intro hr
      refine ⟨s.elementIds.take i, s.elementIds.drop (i + 2), ?_⟩
      have h1 := List.getElem?_eq_some_iff.mp hai
      have h2 := List.getElem?_eq_some_iff.mp hr
      obtain ⟨hlt1, hv1⟩ := h1
      obtain ⟨hlt2, hv2⟩ := h2
      rw [← hv1, ← hv2, getElem_cons_drop hlt2, getElem_cons_drop hlt1, take_append_drop]
    · rintro ⟨l₁, l₂, hl⟩
      have hpos : i = l₁.length := by
        have h2 : s.elementIds[l₁.length]? = some a := by simp [hl]
        exact (getElem?_inj (List.getElem?_eq_some_iff.mp hai).1 h.grounded.distinct).mp
          (hai.trans h2.symm)
      simp [hl, hpos]

/-- The element right behind the anchor, if any. -/
def behind (s : Sequence T) (after : Option OpId) : Option (Element T) :=
  (s.computeRightOrigin after).bind s.getElement

/-- What a local insert after `after` needs to land right behind it: the element standing
    there was not inserted after the same anchor, or has no right origin. -/
def Clear (s : Sequence T) (after : Option OpId) : Prop :=
  ∀ r ∈ s.behind after, r.after = after → r.rightOrigin = none

instance (s : Sequence T) (after : Option OpId) : Decidable (s.Clear after) :=
  inferInstanceAs (Decidable (∀ r ∈ s.behind after, r.after = after → r.rightOrigin = none))

theorem computeRightOrigin_mem (h : s.computeRightOrigin after = some r) : r ∈ s.elementIds := by
  obtain ⟨e, he, rfl⟩ := Option.map_eq_some_iff.mp h
  exact mem_elementIds.mpr ⟨e, mem_of_getElem? he, rfl⟩

/-! ## Local runs -/

/-- Calls of `Sequence::insert` and `Sequence::delete`. -/
inductive LocalOp (T : Type) where
  | insert (after : Option OpId) (value : T) (id : OpId)
  | delete (target id : OpId)

namespace LocalOp

def id : LocalOp T → OpId
  | insert _ _ id => id
  | delete _ id => id

def run (s : Sequence T) : LocalOp T → Sequence T
  | insert after value id => s.insert after value id
  | delete target id => s.delete target id

end LocalOp

def runLocal (s : Sequence T) (ops : List (LocalOp T)) : Sequence T := ops.foldl LocalOp.run s

/-- What holds after local calls with increasing ids: an element is younger than its right
    origin. -/
structure LocalHistory (D : SequenceOp T → Prop) (s : Sequence T) : Prop extends Delivered D s where
  consistent : Consistent D
  origin : ∀ a id v r, D (.insert a id v (some r)) → r < id

/-- Every delivered insert is older than `id`. -/
def Below (D : SequenceOp T → Prop) (id : OpId) : Prop := ∀ a i v ro, D (.insert a i v ro) → i < id

theorem localHistory_new : LocalHistory (fun _ => False) (new : Sequence T) :=
  ⟨delivered_new, fun _ h => h.elim, fun _ _ _ _ h => h.elim⟩

section Step
variable {D : SequenceOp T → Prop} {after : Option OpId}

theorem LocalHistory.lt_of_mem (h : LocalHistory D s) {id x} (hb : Below D id)
    (hx : x ∈ s.elementIds) : x < id := by
  obtain ⟨e, he, rfl⟩ := mem_elementIds.mp hx
  obtain ⟨v, hv, _⟩ := h.source e he
  exact hb _ _ _ _ hv

theorem LocalHistory.insert (h : LocalHistory D s) {value id} (hb : Below D id) :
    LocalHistory (fun o => o = .insert after id value (s.computeRightOrigin after) ∨ D o)
      (s.insert after value id) where
  toDelivered := apply_delivered h.toDelivered _
  consistent := by
    rintro op (rfl | ho) op' (rfl | ho')
    · exact fun _ => ⟨rfl, rfl, rfl⟩
    · cases op' with
      | insert a i v ro => exact fun hi => absurd (hb _ _ _ _ ho') (by simp [hi])
      | delete => trivial
    · cases op with
      | insert a i v ro => exact fun hi => absurd (hb _ _ _ _ ho) (by simp [hi])
      | delete => trivial
    · exact h.consistent op ho op' ho'
  origin := by
    rintro a i v r (heq | ho)
    · obtain ⟨_, rfl, _, hro⟩ := SequenceOp.insert.inj heq
      exact h.lt_of_mem hb (computeRightOrigin_mem hro.symm)
    · exact h.origin a i v r ho

theorem LocalHistory.delete (h : LocalHistory D s) (target id) :
    LocalHistory (fun o => o = .delete target id ∨ D o) (s.delete target id) where
  toDelivered := apply_delivered h.toDelivered _
  consistent := by
    rintro op (rfl | ho) op' (rfl | ho')
    · trivial
    · trivial
    · cases op <;> trivial
    · exact h.consistent op ho op' ho'
  origin := by
    rintro a i v r (heq | ho)
    · cases heq
    · exact h.origin a i v r ho

/-- A run of local calls with increasing ids. -/
theorem runLocal_history (ops) (h : LocalHistory D s)
    (hinc : (ops.map LocalOp.id).Pairwise (· < ·)) (hb : ∀ op ∈ ops, Below D op.id) :
    ∃ D', LocalHistory D' (s.runLocal ops) ∧
      ∀ id, Below D id → (∀ op ∈ ops, op.id < id) → Below D' id := by
  induction ops generalizing D s with
  | nil => exact ⟨D, h, fun id hid _ => hid⟩
  | cons op ops ih =>
    obtain ⟨hhead, htail⟩ := pairwise_cons.mp hinc
    have hop := hb op mem_cons_self
    have hlt : ∀ op' ∈ ops, op.id < op'.id := fun op' ho => hhead _ (mem_map_of_mem ho)
    have hrest : ∀ op' ∈ ops, Below D op'.id := fun op' ho => hb op' (mem_cons_of_mem _ ho)
    cases op with
    | insert after value id =>
      have hbelow : ∀ x, Below D x → id < x →
          Below (fun o => o = .insert after id value (s.computeRightOrigin after) ∨ D o) x := by
        rintro x hx hidx a i v ro (heq | ho)
        · cases heq
          exact hidx
        · exact hx a i v ro ho
      obtain ⟨D', hD', hsub⟩ :=
        ih (h.insert hop) htail (fun op' ho => hbelow _ (hrest op' ho) (hlt op' ho))
      exact ⟨D', hD', fun x hx hall => hsub x (hbelow x hx (hall _ mem_cons_self))
        (fun op' ho => hall op' (mem_cons_of_mem _ ho))⟩
    | delete target id =>
      have hbelow : ∀ x, Below D x → Below (fun o => o = .delete target id ∨ D o) x := by
        rintro x hx a i v ro (heq | ho)
        · cases heq
        · exact hx a i v ro ho
      obtain ⟨D', hD', hsub⟩ :=
        ih (h.delete target id) htail (fun op' ho => hbelow _ (hrest op' ho))
      exact ⟨D', hD', fun x hx hall => hsub x (hbelow x hx)
        (fun op' ho => hall op' (mem_cons_of_mem _ ho))⟩

/-! ## Landing -/

theorem siblingLe_of_place {a b a' b' : Element T} (hid : a.id = a'.id)
    (hro : a.rightOrigin = a'.rightOrigin) (hid' : b.id = b'.id)
    (hro' : b.rightOrigin = b'.rightOrigin) : SiblingLe a b ↔ SiblingLe a' b' := by
  simp only [SiblingLe, compareSiblings, hid, hro, hid', hro']

/-- Elements of consistent histories with one id have one anchor and one right origin. -/
theorem Consistent.place (hc : Consistent D')
    (hsub : ∀ op, D op → D' op) (h : Delivered D s) (h' : Delivered D' s')
    (he : e ∈ s.elements) (he' : e' ∈ s'.elements) (hid : e.id = e'.id) :
    e.after = e'.after ∧ e.rightOrigin = e'.rightOrigin := by
  obtain ⟨v, hv, _⟩ := h.source e he
  obtain ⟨v', hv', _⟩ := h'.source e' he'
  obtain ⟨h1, _, h3⟩ := hc _ (hsub _ hv) _ hv' hid
  exact ⟨h1, h3⟩

/-- The new element lands right behind its anchor when it sorts in front of the siblings it
    finds there. -/
theorem insert_rightOf_iff_siblings (h : LocalHistory D s) {value id} (hb : Below D id)
    (ha : ∀ a, after = some a → a ∈ s.elementIds) :
    RightOf (s.insert after value id).elementIds after id ↔ ∀ c ∈ s.elements, c.after = after →
        SiblingLe ⟨id, some value, after, s.computeRightOrigin after⟩ c := by
  have h' : LocalHistory _ (s.insert after value id) := h.insert hb
  have hsub : ∀ op, D op → op = .insert after id value (s.computeRightOrigin after) ∨ D op :=
    fun _ ho => .inr ho
  have hids := h.toDelivered.ids_subset h'.toDelivered hsub
  -- the new element is there: it cannot wait for an anchor that is
  have hmem : id ∈ (s.insert after value id).elementIds := by
    rcases h'.covered _ (.inl rfl) with hs | hq | ⟨k, hk, hp⟩
    · exact hs
    · cases hq
    · rw [(h'.quiet k (hids k (ha k hk))).1] at hp
      cases hp
  obtain ⟨e, he, rfl⟩ := mem_elementIds.mp hmem
  obtain ⟨v, hv, _⟩ := h'.source e he
  obtain ⟨hafter, _, hro⟩ := h'.consistent _ hv _ (.inl rfl) rfl
  subst hafter
  have hplace : ∀ c c', c.id = c'.id → c.rightOrigin = c'.rightOrigin → (SiblingLe e c ↔
        SiblingLe ⟨e.id, some value, e.after, s.computeRightOrigin e.after⟩ c') :=
    fun c c' hid hro' => siblingLe_of_place (a := e) rfl hro hid hro'
  rw [rightOf_iff_first h'.ordered he]
  constructor
  · intro hmin c hc hca
    obtain ⟨c', hc', hid⟩ := mem_elementIds.mp (hids c.id (mem_elementIds.mpr ⟨c, hc, rfl⟩))
    obtain ⟨hpa, hpr⟩ := h'.consistent.place hsub h.toDelivered h'.toDelivered hc hc' hid.symm
    exact (hplace c' c hid hpr.symm).mp (hmin c' hc' (hpa ▸ hca))
  · intro hmin c hc hca
    obtain ⟨w, hw, _⟩ := h'.source c hc
    rcases hw with hw | hw
    · -- the new element itself
      have hid : c.id = e.id := by injection hw
      rw [h'.grounded.distinct.eq_of_id hc he hid]
      exact (siblingLe_total e e).elim (fun x => x) (fun x => x)
    · rcases h.covered _ hw with hs | hq | ⟨k, hk, hp⟩
      · obtain ⟨c₀, hc₀, hid⟩ := mem_elementIds.mp hs
        obtain ⟨hpa, hpr⟩ := h'.consistent.place hsub h.toDelivered h'.toDelivered hc₀ hc hid
        exact (hplace c c₀ hid.symm hpr.symm).mpr (hmin c₀ hc₀ (hpa.trans hca))
      · cases hq
      · rw [(h.quiet k (ha k (hca.symm.trans hk))).1] at hp
        cases hp

/-- A local insert lands right behind its anchor exactly when the way is clear. -/
theorem insert_rightOf_iff (h : LocalHistory D s) {value id} (hb : Below D id)
    (ha : ∀ a, after = some a → a ∈ s.elementIds) :
    RightOf (s.insert after value id).elementIds after id ↔ s.Clear after := by
  rw [insert_rightOf_iff_siblings h hb ha]
  have hsorted : (siblings s.elements after).Pairwise SiblingLe := pairwise_insertionSort _ _
  cases hs : siblings s.elements after with
  | nil =>
    have hnone : ∀ c ∈ s.elements, c.after ≠ after := fun c hc =>
      children_eq_nil (by rw [children, hs]; rfl) hc
    refine iff_of_true (fun c hc hca => absurd hca (hnone c hc)) (fun r hr hra => ?_)
    obtain ⟨_, _, hget⟩ := Option.bind_eq_some_iff.mp hr
    exact absurd hra (hnone r ((getElement_eq_some h.toIndexed).mp hget).1)
  | cons f fs =>
    have hf : f ∈ s.elements ∧ f.after = after := mem_siblings.mp (hs ▸ mem_cons_self)
    have hright : RightOf s.elementIds after f.id :=
      rightOf_of_children h.ordered ha
        (show children s.elements after = f.id :: fs.map Element.id by rw [children, hs]; rfl)
    have hro : s.computeRightOrigin after = some f.id :=
      (computeRightOrigin_eq_some h.toIndexed ha).mpr hright
    have hbehind : s.behind after = some f := by
      rw [behind, hro]
      exact (getElement_eq_some h.toIndexed).mpr ⟨hf.1, rfl⟩
    -- only the first sibling decides
    have hfirst : (∀ c ∈ s.elements, c.after = after →
        SiblingLe ⟨id, some value, after, s.computeRightOrigin after⟩ c) ↔
        SiblingLe ⟨id, some value, after, s.computeRightOrigin after⟩ f := by
      refine ⟨fun hall => hall f hf.1 hf.2, fun hlef c hc hca => ?_⟩
      rcases mem_cons.mp (hs ▸ mem_siblings.mpr ⟨hc, hca⟩) with rfl | hc
      · exact hlef
      · rw [hs] at hsorted
        exact siblingLe_trans hlef ((pairwise_cons.mp hsorted).1 c hc)
    have hclear : s.Clear after ↔ f.rightOrigin = none := by
      simp [Clear, hbehind, hf.2]
    rw [hfirst, hclear]
    cases hfo : f.rightOrigin with
    | none => simp [SiblingLe, compareSiblings, hro, hfo]
    | some x =>
      obtain ⟨v, hv, _⟩ := h.source f hf.1
      rw [hfo] at hv
      have hlt : x < f.id := h.origin _ _ _ _ hv
      simp [SiblingLe, compareSiblings, hro, hfo, hlt.ne', compare_gt_iff_gt, hlt]

end Step

end Sequence
end MdCrdt
