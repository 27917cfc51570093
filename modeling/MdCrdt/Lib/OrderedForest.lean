import Mathlib.Data.List.Nodup
import Mathlib.Data.List.Flatten
import Mathlib.Logic.Relation

/- The preorder walk of an ordered forest.

  `kids p` is the ordered list of children of `p`, with `none` for the root.
  `walk kids n p` lists everything below `p`, parents before children and
  siblings in order, down to depth `n`.

  1. `walk_of_le`: once `n` covers the depth below `p`, more fuel changes
     nothing; `walk_after`: what hangs below a node stands right behind it.
  2. `walk_leaf`: growing the forest by one leaf `x` puts `x` into the walk
     behind its elder siblings and everything below them, in front of its
     younger siblings, and moves nothing else.
  3. `walk_perm`: in a forest grown from nothing by adding leaves (`Built`) the
     walk meets every node once; `walk_add` is `walk_leaf` for such a forest. -/
namespace MdCrdt.Lib
open List Option Prod

variable {α : Type} {kids : Option α → List α} {dp : Option α → Nat} {p : Option α} {n : Nat}

/-- Everything below `p`, in preorder, down to depth `n`. -/
def walk (kids : Option α → List α) : Nat → Option α → List α
  | 0, _ => []
  | n + 1, p => (kids p).flatMap (fun c => c :: walk kids n (some c))

/-- A child with everything below it. -/
def block (kids : Option α → List α) (n : Nat) (c : α) : List α := c :: walk kids n (some c)

theorem walk_succ (kids : Option α → List α) (n p) :
    walk kids (n + 1) p = (kids p).flatMap (block kids n) := rfl

theorem walk_subset : ∀ n p, walk kids n p ⊆ walk kids (n + 1) p
  | 0, _ => nil_subset _
  | n + 1, p => by
    intro x hx
    obtain ⟨c, hc, hx⟩ := mem_flatMap.mp hx
    exact mem_flatMap.mpr ⟨c, hc, cons_subset_cons c (walk_subset n (some c)) hx⟩

/-- Depth bound: children are one deeper than their parent, and none is deeper than `N`. -/
structure Depth (kids : Option α → List α) (N : Nat) (dp : Option α → Nat) : Prop where
  child : ∀ p c, c ∈ kids p → dp (some c) = dp p + 1
  bound : ∀ p c, c ∈ kids p → dp (some c) ≤ N

theorem walk_stable (h : Depth kids N dp) : ∀ n p, N ≤ n + dp p →
    walk kids (n + 1) p = walk kids n p
  | 0, p, hn => by
    -- a child of `p` would be deeper than the bound
    have hnil : kids p = [] := by
      apply eq_nil_iff_forall_not_mem.mpr
      intro c hc
      have h1 := h.child p c hc
      have h2 := h.bound p c hc
      omega
    simp [walk, hnil]
  | n + 1, p, hn => by
    rw [walk_succ, walk_succ]
    apply flatMap_congr
    intro c hc
    have h1 := h.child p c hc
    simp only [block, List.cons.injEq, true_and]
    exact walk_stable h n (some c) (by omega)

theorem walk_of_le (h : Depth kids N dp)
    (hn : N ≤ n + dp p) (hm : n ≤ m) : walk kids m p = walk kids n p := by
  induction hm with
  | refl => rfl
  | @step m hm ih =>
    have hm : n ≤ m := hm
    rw [walk_stable h m p (by omega), ih]

/-- `x` hangs below `a`. -/
def Under (kids : Option α → List α) : α → α → Prop :=
  Relation.TransGen (fun a x => x ∈ kids (some a))

section Under
variable {N : Nat} {dp : Option α → Nat} {a x : α}

theorem under_of_mem_walk (n) (hx : x ∈ walk kids n (some a)) : Under kids a x := by
  induction n generalizing a with
  | zero => cases hx
  | succ n ih =>
    obtain ⟨c, hc, hxc⟩ := mem_flatMap.mp hx
    rcases mem_cons.mp hxc with rfl | hxc
    · exact Relation.TransGen.single hc
    · exact Relation.TransGen.head hc (ih hxc)

/-- With enough fuel the walk below a node lists all that hangs below it. -/
theorem mem_walk_iff (hd : Depth kids N dp) (hn : N ≤ n + dp (some a)) :
    x ∈ walk kids n (some a) ↔ Under kids a x := by
  refine ⟨under_of_mem_walk n, fun h => ?_⟩
  induction h using Relation.TransGen.head_induction_on generalizing n with
  | single hc =>
    have h1 := hd.child _ _ hc
    have h2 := hd.bound _ _ hc
    obtain ⟨m, rfl⟩ : ∃ m, n = m + 1 := ⟨n - 1, by omega⟩
    exact mem_flatMap.mpr ⟨x, hc, mem_cons_self⟩
  | head hc _ ih =>
    have h1 := hd.child _ _ hc
    have h2 := hd.bound _ _ hc
    obtain ⟨m, rfl⟩ : ∃ m, n = m + 1 := ⟨n - 1, by omega⟩
    exact mem_flatMap.mpr ⟨_, hc, mem_cons_of_mem _ (ih (by omega))⟩

/-- Everything below a node stands right behind it. -/
theorem walk_after (hd : Depth kids N dp) (n p) (hn : N ≤ n + dp p) (ha : a ∈ walk kids n p) :
    ∃ m A B, N ≤ m + dp (some a) ∧ walk kids n p = A ++ a :: (walk kids m (some a) ++ B) := by
  induction n generalizing p with
  | zero => cases ha
  | succ n ih =>
    obtain ⟨c, hc, hac⟩ := mem_flatMap.mp ha
    obtain ⟨s, t, hst⟩ := append_of_mem hc
    have hdc := hd.child p c hc
    rw [walk_succ, hst, flatMap_append, flatMap_cons]
    rcases mem_cons.mp hac with rfl | hac
    · exact ⟨n, s.flatMap (block kids n), t.flatMap (block kids n), by omega, by simp [block]⟩
    · obtain ⟨m, A, B, hm, hw⟩ := ih (some c) (by omega) hac
      exact ⟨m, s.flatMap (block kids n) ++ c :: A, B ++ t.flatMap (block kids n), hm,
        by simp [block, hw]⟩

end Under

/-- `kids'` is `kids` with the leaf `x` added below `p`, between `l₁` and `l₂`. -/
structure AddsLeaf (kids kids' : Option α → List α) (p : Option α) (x : α)
    (l₁ l₂ : List α) : Prop where
  old : kids p = l₁ ++ l₂
  new : kids' p = l₁ ++ x :: l₂
  other : ∀ q, q ≠ p → kids' q = kids q
  leaf : kids' (some x) = []

section Leaf
variable {kids kids' : Option α → List α} {p : Option α} {x : α} {l₁ l₂ : List α}

theorem AddsLeaf.walk_new (h : AddsLeaf kids kids' p x l₁ l₂) (n) : walk kids' n (some x) = [] := by
  cases n with
  | zero => rfl
  | succ n => simp [walk, h.leaf]

/-- Where `p` does not occur, the walk does not change. -/
theorem walk_same (h : AddsLeaf kids kids' p x l₁ l₂) : ∀ n q, q ≠ p →
    (∀ c ∈ walk kids n q, some c ≠ p) → walk kids' n q = walk kids n q
  | 0, _, _, _ => rfl
  | n + 1, q, hq, hn => by
    rw [walk_succ, walk_succ, h.other q hq]
    apply flatMap_congr
    intro c hc
    have hmem : ∀ y ∈ block kids n c, y ∈ walk kids (n + 1) q := fun y hy =>
      mem_flatMap.mpr ⟨c, hc, hy⟩
    have hcp : some c ≠ p := hn c (hmem c mem_cons_self)
    simp only [block, List.cons.injEq, true_and]
    exact walk_same h n (some c) hcp (fun y hy => hn y (hmem y (mem_cons_of_mem _ hy)))

theorem flatMap_block_same (h : AddsLeaf kids kids' p x l₁ l₂) {l : List α}
    (hl : ∀ c ∈ l, ∀ y ∈ block kids n c, some y ≠ p) :
    l.flatMap (block kids' n) = l.flatMap (block kids n) := by
  apply flatMap_congr
  intro c hc
  simp only [block, List.cons.injEq, true_and]
  exact walk_same h n (some c) (hl c hc c mem_cons_self)
    (fun y hy => hl c hc y (mem_cons_of_mem _ hy))

/-- The walk below `p` itself after the leaf is added. -/
theorem walk_leaf_here (h : AddsLeaf kids kids' p x l₁ l₂)
    (hnd : (p.toList ++ walk kids (n + 1) p).Nodup) :
    walk kids (n + 1) p = l₁.flatMap (block kids n) ++ l₂.flatMap (block kids n) ∧
    walk kids' (n + 1) p = l₁.flatMap (block kids n) ++ x :: l₂.flatMap (block kids n) := by
  have hp : ∀ c ∈ kids p, ∀ y ∈ block kids n c, some y ≠ p := by
    intro c hc y hy hyp
    subst hyp
    have hmem : y ∈ walk kids (n + 1) (some y) := mem_flatMap.mpr ⟨c, hc, hy⟩
    simp [hmem] at hnd
  refine ⟨by rw [walk_succ, h.old, flatMap_append], ?_⟩
  rw [walk_succ, h.new, flatMap_append, flatMap_cons]
  rw [flatMap_block_same h (fun c hc => hp c (by rw [h.old]; exact mem_append_left _ hc)),
    flatMap_block_same h (fun c hc => hp c (by rw [h.old]; exact mem_append_right _ hc))]
  simp [block, h.walk_new]

/-- Adding a leaf below `p` puts it right behind the elder siblings' blocks, wherever `p`
    stands in the walk below `q`, and leaves everything else in place. The blocks are cut off
    at the depth at which the walk is. -/
theorem walk_leaf (hd : Depth kids N dp) (h : AddsLeaf kids kids' p x l₁ l₂) : ∀ n q,
    (q.toList ++ walk kids (n + 1) q).Nodup → (q = p ∨ ∃ a, p = some a ∧ a ∈ walk kids n q) →
    ∃ m A B, n + dp q = m + dp p ∧ walk kids (n + 1) q =
        A ++ (l₁.flatMap (block kids m) ++ l₂.flatMap (block kids m)) ++ B ∧ walk kids' (n + 1) q =
        A ++ (l₁.flatMap (block kids m) ++ x :: l₂.flatMap (block kids m)) ++ B ∧
      ((q = p ∧ A = [] ∧ B = []) ∨ ∃ a A', p = some a ∧ A = A' ++ [a]) := by
  intro n q hnd hq
  by_cases hqp : q = p
  · subst hqp
    obtain ⟨h1, h2⟩ := walk_leaf_here h hnd
    exact ⟨n, [], [], rfl, by simpa using h1, by simpa using h2, .inl ⟨rfl, rfl, rfl⟩⟩
  · obtain ⟨a, hpa, ha⟩ := hq.resolve_left hqp
    cases n with
    | zero => cases ha
    | succ n =>
      -- `a` lies in the block of exactly one child `c` of `q`
      obtain ⟨c, hc, hac⟩ := mem_flatMap.mp ha
      obtain ⟨s, t, hst⟩ := append_of_mem hc
      have hwalk : walk kids (n + 1 + 1) q =
          s.flatMap (block kids (n + 1)) ++ (c :: walk kids (n + 1) (some c)) ++
            t.flatMap (block kids (n + 1)) := by
        rw [walk_succ, hst]; simp [block]
      have hndq : (walk kids (n + 1 + 1) q).Nodup := (nodup_append.mp hnd).2.1
      have hndc : ((some c).toList ++ walk kids (n + 1) (some c)).Nodup := by
        rw [hwalk] at hndq
        have := (nodup_append.mp (nodup_append.mp hndq).1).2.1
        simpa using this
      have hcin : some c = p ∨ ∃ a', p = some a' ∧ a' ∈ walk kids n (some c) := by
        rcases mem_cons.mp hac with hac | hac
        · exact .inl (by rw [hpa, hac])
        · exact .inr ⟨a, hpa, hac⟩
      obtain ⟨m, A, B, e0, e1, e2, hA⟩ := walk_leaf hd h n (some c) hndc hcin
      have hamem : a ∈ c :: walk kids (n + 1) (some c) :=
        cons_subset_cons c (walk_subset n (some c)) hac
      -- the blocks of the other children do not mention `a`
      have hother : ∀ d, (d ∈ s ∨ d ∈ t) → ∀ y ∈ block kids (n + 1) d, some y ≠ p := by
        intro d hd y hy hyp
        rw [hpa] at hyp
        have hya := some.inj hyp
        subst hya
        rw [hwalk] at hndq
        rcases hd with hd | hd
        · have h1 : y ∈ s.flatMap (block kids (n + 1)) := mem_flatMap.mpr ⟨d, hd, hy⟩
          have h2 := (nodup_append.mp (nodup_append.mp hndq).1).2.2
          exact h2 y h1 y hamem rfl
        · have h1 : y ∈ t.flatMap (block kids (n + 1)) := mem_flatMap.mpr ⟨d, hd, hy⟩
          have h2 := (nodup_append.mp hndq).2.2
          exact h2 y (mem_append_right _ hamem) y h1 rfl
      have hwalk' : walk kids' (n + 1 + 1) q =
          s.flatMap (block kids (n + 1)) ++ (c :: walk kids' (n + 1) (some c)) ++
            t.flatMap (block kids (n + 1)) := by
        rw [walk_succ, h.other q hqp, hst, flatMap_append, flatMap_cons,
          flatMap_block_same h (fun d hd => hother d (.inl hd)),
          flatMap_block_same h (fun d hd => hother d (.inr hd))]
        simp [block]
      refine ⟨m, s.flatMap (block kids (n + 1)) ++ (c :: A), B ++ t.flatMap (block kids (n + 1)),
        ?_, ?_, ?_, ?_⟩
      · have := hd.child q c hc
        omega
      · rw [hwalk, e1]; simp
      · rw [hwalk', e2]; simp
      · right
        rcases hA with ⟨hcp, rfl, _⟩ | ⟨a', A', ha', rfl⟩
        · exact ⟨c, s.flatMap (block kids (n + 1)), hcp.symm, by simp⟩
        · exact ⟨a', s.flatMap (block kids (n + 1)) ++ c :: A', ha', by simp⟩

end Leaf

/-! ## Forests grown leaf by leaf -/

/-- Links `(node, parent)`, the latest first: every node was new when it was added, and its
    parent was there. -/
inductive Built : List (α × Option α) → Prop
  | nil : Built []
  | cons {x p ls} : Built ls →
      x ∉ ls.map fst → (∀ a, p = some a → a ∈ ls.map fst) → Built ((x, p) :: ls)

theorem Built.nodup {ls : List (α × Option α)} (h : Built ls) : (ls.map fst).Nodup := by
  induction h with
  | nil => simp
  | cons _ hx _ ih => exact nodup_cons.mpr ⟨hx, ih⟩

theorem Built.parent_mem {ls : List (α × Option α)} (h : Built ls)
    (hm : (x, some a) ∈ ls) : a ∈ ls.map fst := by
  induction h with
  | nil => simp at hm
  | cons _ _ hp ih =>
    rcases mem_cons.mp hm with hm | hm
    · obtain ⟨rfl, rfl⟩ := Prod.mk.inj hm
      exact mem_cons_of_mem _ (hp a rfl)
    · exact mem_cons_of_mem _ (ih hm)

section Walk
variable [DecidableEq α] {ls : List (α × Option α)} {kids : Option α → List α}

theorem Built.depth (h : Built ls) : ∃ dp : Option α → Nat, dp none = 0 ∧
      ∀ e ∈ ls, dp (some e.1) = dp e.2 + 1 ∧ dp (some e.1) ≤ ls.length := by
  induction h with
  | nil => exact ⟨fun _ => 0, rfl, by simp⟩
  | @cons x p ls hb hx hp ih =>
    obtain ⟨dp, h0, hdp⟩ := ih
    refine ⟨fun q => if q = some x then dp p + 1 else dp q, by simpa using h0, ?_⟩
    -- no link of `ls` mentions the new node
    have hpx : p ≠ some x := fun h => hx (hp x h)
    intro e he
    rcases mem_cons.mp he with rfl | he
    · simp only [if_true, hpx, if_false, length_cons, true_and]
      cases p with
      | none => omega
      | some a =>
        obtain ⟨e, hmem, rfl⟩ := mem_map.mp (hp a rfl)
        have := (hdp e hmem).2
        omega
    · have h1 : some e.1 ≠ some x := fun h => hx (some.inj h ▸ mem_map_of_mem he)
      have h2 : e.2 ≠ some x := fun h => hx (hb.parent_mem (x := e.1) (by rw [← h]; exact he))
      simp only [h1, h2, if_false, length_cons]
      exact ⟨(hdp e he).1, by have := (hdp e he).2; omega⟩

/-- `kids` lists the children the links name. -/
def KidsOf (ls : List (α × Option α)) (kids : Option α → List α) : Prop :=
  ∀ p, (kids p).Perm ((ls.filter (fun e => e.2 = p)).map fst)

theorem KidsOf.mem (h : KidsOf ls kids) : c ∈ kids p ↔ (c, p) ∈ ls := by
  rw [(h p).mem_iff]
  simp

theorem KidsOf.depth (hb : Built ls) (h : KidsOf ls kids) :
    ∃ dp : Option α → Nat, dp none = 0 ∧ Depth kids ls.length dp := by
  obtain ⟨dp, h0, hdp⟩ := hb.depth
  exact ⟨dp, h0, fun p c hc => (hdp (c, p) (h.mem.mp hc)).1,
    fun p c hc => (hdp (c, p) (h.mem.mp hc)).2⟩

/-- Taking the latest node out of a forest leaves a forest to which it is added as a leaf. -/
theorem KidsOf.addsLeaf (hb : Built ((x, p) :: ls)) (h : KidsOf ((x, p) :: ls) kids) :
    ∃ kids₀ l₁ l₂, KidsOf ls kids₀ ∧ AddsLeaf kids₀ kids p x l₁ l₂ := by
  have hnd := hb.nodup
  obtain ⟨hx, _⟩ := nodup_cons.mp hnd
  have hkx : kids (some x) = [] := by
    apply eq_nil_iff_forall_not_mem.mpr
    intro c hc
    rcases mem_cons.mp (h.mem.mp hc) with hc | hc
    · obtain ⟨rfl, rfl⟩ := Prod.mk.inj hc
      cases hb with
      | cons _ _ hp => exact hx (hp c rfl)
    · cases hb with
      | cons hb _ _ => exact hx (hb.parent_mem hc)
  obtain ⟨l₁, l₂, hl⟩ := append_of_mem (h.mem.mpr (mem_cons_self (a := (x, p)) (l := ls)))
  refine ⟨fun q => if q = p then l₁ ++ l₂ else kids q, l₁, l₂, ?_, by simp, hl, ?_, hkx⟩
  · intro q
    by_cases hq : q = p
    · subst hq
      simp only [if_true]
      have h1 := h q
      rw [hl, filter_cons_of_pos (by simp), map_cons] at h1
      exact Perm.cons_inv (perm_middle.symm.trans h1)
    · simp only [hq, if_false]
      have h1 := h q
      rwa [filter_cons_of_neg (by simpa using fun h => hq h.symm)] at h1
  · intro q hq
    simp [hq]

/-- The walk of a grown forest meets every node once. -/
theorem walk_perm (hb : Built ls) :
    ∀ {kids : Option α → List α}, KidsOf ls kids → ∀ {n : Nat}, ls.length ≤ n →
      (walk kids n none).Perm (ls.map fst) := by
  induction hb with
  | nil =>
    intro kids h n _
    have hk : kids none = [] := perm_nil.mp (by simpa using h none)
    cases n <;> simp [walk, hk]
  | @cons x p ls hb hx hp ih =>
    intro kids h n hn
    obtain ⟨kids₀, l₁, l₂, h₀, hleaf⟩ := KidsOf.addsLeaf (Built.cons hb hx hp) h
    obtain ⟨m, rfl⟩ : ∃ m, n = m + 1 := ⟨n - 1, by simp at hn; omega⟩
    have hm : ls.length ≤ m := by simpa using hn
    have hperm := ih h₀ (n := m + 1) (by omega)
    have hnd : (walk kids₀ (m + 1) none).Nodup := hperm.nodup_iff.mpr hb.nodup
    have hin : (none : Option α) = p ∨ ∃ a, p = some a ∧ a ∈ walk kids₀ m none := by
      cases p with
      | none => exact .inl rfl
      | some a => exact .inr ⟨a, rfl, (ih h₀ hm).mem_iff.mpr (hp a rfl)⟩
    obtain ⟨dp, _, hd⟩ := h₀.depth hb
    obtain ⟨_, A, B, _, e1, e2, _⟩ := walk_leaf hd hleaf m none (by simpa using hnd) hin
    rw [e1, append_assoc, append_assoc, ← append_assoc] at hperm
    rw [e2, append_assoc, append_assoc, ← append_assoc, cons_append, map_cons]
    exact perm_middle.trans (hperm.cons x)

/-- Adding a leaf to a grown forest: the whole walk before and after. -/
theorem walk_add {l₁ l₂ : List α}
    (hb : Built ls) (hk : KidsOf ls kids) (h : AddsLeaf kids kids' p x l₁ l₂)
    (hp : ∀ a, p = some a → a ∈ ls.map fst) (hn : ls.length ≤ n) : ∃ A B, walk kids n none =
        A ++ (l₁.flatMap (block kids n) ++ l₂.flatMap (block kids n)) ++ B ∧
      walk kids' (n + 1) none =
        A ++ (l₁.flatMap (block kids n) ++ x :: l₂.flatMap (block kids n)) ++ B ∧
      ((p = none ∧ A = [] ∧ B = []) ∨ ∃ a A', p = some a ∧ A = A' ++ [a]) := by
  obtain ⟨dp, h0, hd⟩ := hk.depth hb
  have hnd : (walk kids (n + 1) none).Nodup :=
    (walk_perm hb hk (by omega)).nodup_iff.mpr hb.nodup
  have hin : (none : Option α) = p ∨ ∃ a, p = some a ∧ a ∈ walk kids n none := by
    cases p with
    | none => exact .inl rfl
    | some a => exact .inr ⟨a, rfl, (walk_perm hb hk hn).mem_iff.mpr (hp a rfl)⟩
  obtain ⟨m, A, B, hm, e1, e2, hA⟩ := walk_leaf hd h n none (by simpa using hnd) hin
  -- below a child of `p` the fuel `m` is enough, and so is `n`
  have hfuel : ∀ l : List α, (∀ c ∈ l, c ∈ kids p) →
      l.flatMap (block kids m) = l.flatMap (block kids n) := by
    intro l hl
    apply flatMap_congr
    intro c hc
    have hdc := hd.child p c (hl c hc)
    simp only [block, List.cons.injEq, true_and]
    exact (walk_of_le hd (by omega) (by omega)).symm
  rw [hfuel l₁ (fun c hc => h.old ▸ mem_append_left _ hc),
    hfuel l₂ (fun c hc => h.old ▸ mem_append_right _ hc)] at e1 e2
  refine ⟨A, B, ?_, e2, ?_⟩
  · rw [← walk_of_le hd (by omega) (Nat.le_succ n)]
    exact e1
  · rcases hA with ⟨hp0, hA⟩ | hA
    · exact .inl ⟨hp0.symm, hA⟩
    · exact .inr hA

end Walk

end MdCrdt.Lib
