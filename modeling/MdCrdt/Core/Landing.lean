import MdCrdt.Core.Convergence
import MdCrdt.Core.SequencePlace

/- Where a new element lands among the elements that are there.

  A new element goes behind its anchor and then passes its elder siblings with
  everything below them (`withElement_lands`). An element anchored at one that has no
  children lands right behind it, so a chain of new elements stays together
  (`chain_lands`), and a sequence that is written down in order is in order
  (`fromOrdered_append`). -/
namespace MdCrdt
open Lib Option Prod
open List hiding not_lt lt_irrefl
variable {T : Type} {n : Nat}

namespace SequenceOp
variable {op : SequenceOp T}

/-- Everything the operation names lies below the counter. -/
def Before (n : Nat) : SequenceOp T → Prop
  | .insert after id _ _ => id.counter < n ∧ ∀ a, after = some a → a.counter < n
  | .delete target _ => target.counter < n

/-- Everything the operation names satisfies `P`. -/
def Names (P : OpId → Prop) : SequenceOp T → Prop
  | .insert after id _ _ => P id ∧ ∀ a, after = some a → P a
  | .delete target _ => P target

theorem Names.mono (hpq : ∀ x, P x → Q x) (h : op.Names P) : op.Names Q := by
  cases op with
  | insert after id v ro => exact ⟨hpq _ h.1, fun a ha => hpq _ (h.2 a ha)⟩
  | delete target id => exact hpq _ h

theorem before_iff_names : op.Before n ↔ op.Names (fun x => x.counter < n) := by
  cases op with
  | insert | delete => exact Iff.rfl

end SequenceOp

namespace Sequence
variable {s : Sequence T} {e : Element T} {l : List (Element T)} {id : OpId}
variable (peer : PeerId)

/-! ## Elements and their ids -/

theorem filterMap_ids (h : Distinct l) : (l.map Element.id).filterMap (elementMap l).get? = l := by
  rw [filterMap_map]
  nth_rewrite 3 [← filterMap_some (l := l)]
  exact filterMap_congr (fun e he => (elementMap_get? h).mpr ⟨he, rfl⟩)

/-- The same elements with their ids in the same order are the same list. -/
theorem eq_of_ids (h : Distinct l) (hp : l.Perm l')
    (hids : l.map Element.id = l'.map Element.id) : l = l' := by
  rw [← filterMap_ids h, ← filterMap_ids (h.perm hp), hids, elementMap_congr h hp]

/-- An element occurs once. -/
theorem Distinct.split_unique
    (h : Distinct (A ++ e :: B)) (heq : A ++ e :: B = A' ++ e' :: B') (hid : e.id = e'.id) :
    A = A' ∧ B = B' := by
  have hpos : A.length = A'.length := by
    have h1 : ((A ++ e :: B).map Element.id)[A.length]? = some e.id := by simp
    have h2 : ((A ++ e :: B).map Element.id)[A'.length]? = some e.id := by simp [heq, hid]
    exact (getElem?_inj (by simp) h).mp (h1.trans h2.symm)
  obtain ⟨hA, htail⟩ := append_inj heq hpos
  exact ⟨hA, (List.cons.inj htail).2⟩

/-! ## One element -/

/-- What a new element passes on its way from the anchor: its elder siblings and all that hangs
    below them. -/
def passed (s : Sequence T) (e : Element T) : List OpId :=
  ((elder s.elements e).map Element.id).flatMap (below s.elements)

/-- The list ends with the anchor; it is empty for `none`. -/
def EndsAt (l : List (Element T)) : Option OpId → Prop
  | none => l = []
  | some a => ∃ l' x, l = l' ++ [x] ∧ x.id = a

/-- A new element lands behind its anchor and what it passes; nothing else moves. -/
theorem withElement_lands (h : s.Ordered) (hid : e.id ∉ s.elementIds) (ha : s.Anchored e.after) :
    ∃ A M B, s.elements = A ++ (M ++ B) ∧ (s.withElement e).elements = A ++ (M ++ e :: B) ∧
      M.map Element.id = s.passed e ∧ EndsAt A e.after := by
  obtain ⟨A, B, hold, hnew, hA⟩ := ids_orderElements_append h.grounded hid ha
  rw [h.order, append_assoc, append_assoc] at hold
  rw [append_assoc, append_assoc, cons_append] at hnew
  obtain ⟨eA, l, hels, rfl, hl⟩ := map_eq_append_iff.mp hold
  obtain ⟨eM, eB, rfl, hM, hB⟩ := map_eq_append_iff.mp hl
  refine ⟨eA, eM, eB, hels, ?_, hM, ?_⟩
  · have hperm : (s.withElement e).elements.Perm (eA ++ (eM ++ e :: eB)) := by
      refine (withElement_perm h.toIndexed hid ha).trans ?_
      rw [hels, ← append_assoc, ← append_assoc]
      exact (perm_append_singleton _ _).trans perm_middle.symm
    refine eq_of_ids (ordered_withElement h.toIndexed hid ha).grounded.distinct hperm ?_
    simp only [map_append, map_cons, hM, hB]
    exact hnew
  · rcases hA with ⟨hn, hA, -⟩ | ⟨a, A', hs, hA⟩
    · rw [hn]
      exact map_eq_nil_iff.mp hA
    · rw [hs]
      obtain ⟨l', x, rfl, -, hx⟩ := map_eq_append_iff.mp hA
      obtain ⟨y, rfl, hy⟩ := map_eq_singleton_iff.mp hx
      exact ⟨l', y, rfl, hy⟩

/-- Nothing is anchored at an element: the first one that is lands right behind it. -/
theorem withElement_behind (h : s.Ordered)
    (hs : s.elements = A ++ x :: B) (hafter : e.after = some x.id) (hid : e.id ∉ s.elementIds)
    (hleaf : ∀ c ∈ s.elements, c.after ≠ some x.id) :
    (s.withElement e).elements = A ++ x :: e :: B := by
  have hx : x.id ∈ s.elementIds := by simp [elementIds, hs]
  have ha : s.Anchored e.after := by
    intro a ha
    rw [hafter] at ha
    exact some.inj ha ▸ hx
  obtain ⟨A', M, B', hold, hnew, hM, hA⟩ := withElement_lands h hid ha
  have hnone : elder s.elements e = [] := by
    have hsib : siblings s.elements e.after = [] := by
      apply eq_nil_iff_forall_not_mem.mpr
      intro c hc
      obtain ⟨hc, hca⟩ := mem_siblings.mp hc
      exact hleaf c hc (hca.trans hafter)
    rw [elder, hsib, takeWhile_nil]
  have hMnil : M = [] := by
    rw [passed, hnone] at hM
    exact map_eq_nil_iff.mp hM
  subst hMnil
  rw [hafter] at hA
  obtain ⟨A'', y, rfl, hy⟩ := hA
  have hsplit : A ++ x :: B = A'' ++ y :: B' := by
    rw [← hs, hold]
    simp
  have hd : Distinct (A ++ x :: B) := hs ▸ h.grounded.distinct
  obtain ⟨rfl, rfl⟩ := hd.split_unique hsplit hy.symm
  obtain rfl : x = y := (List.cons.inj (append_cancel_left hsplit)).1
  rw [hnew]
  simp

/-! ## Histories -/

/-- Delivered operations that name nothing but ids with `P` led to the sequence. -/
def Knows (P : OpId → Prop) (s : Sequence T) : Prop :=
  ∃ D, s.Delivered D ∧ ∀ op, D op → op.Names P

theorem knows_new (P : OpId → Prop) : Knows P (new : Sequence T) :=
  ⟨fun _ => False, delivered_new, fun _ h => h.elim⟩

namespace Knows
variable {P : OpId → Prop}

section
variable (h : Knows P s)
include h

theorem mono (hpq : ∀ x, P x → Q x) : Knows Q s := by
  obtain ⟨D, hD, hb⟩ := h
  exact ⟨D, hD, fun op hop => (hb op hop).mono hpq⟩

theorem apply (hop : op.Names P) : Knows P (s.apply op) := by
  obtain ⟨D, hD, hb⟩ := h
  refine ⟨_, apply_delivered hD op, ?_⟩
  rintro o (rfl | ho)
  · exact hop
  · exact hb o ho

theorem ordered : s.Ordered := by
  obtain ⟨D, hD, -⟩ := h
  exact hD.ordered

theorem mem (he : e ∈ s.elements) : P e.id ∧ ∀ a, e.after = some a → P a := by
  obtain ⟨D, hD, hb⟩ := h
  obtain ⟨v, hv, -⟩ := hD.source e he
  exact hb _ hv

theorem notMem (hid : ¬P id) : id ∉ s.elementIds := by
  intro hm
  obtain ⟨e, he, rfl⟩ := mem_elementIds.mp hm
  exact hid (h.mem he).1

/-- Nothing waits for an id that is not known. -/
theorem unknown (hid : ¬P id) : s.Unknown id := by
  refine ⟨h.notMem hid, ?_, ?_⟩
  · obtain ⟨D, hD, hb⟩ := h
    refine hD.get?_insert_none (eq_nil_iff_forall_not_mem.mpr (fun op hop => ?_))
    obtain ⟨i, v, ro, rfl⟩ := hD.inserts id op hop
    have hpark : s.Parked (.insert (some id) i v ro) := ⟨id, rfl, hop⟩
    exact hid ((hb _ (hD.parked _ hpark)).2 id rfl)
  · obtain ⟨D, hD, hb⟩ := h
    refine hD.get?_delete_none (eq_nil_iff_forall_not_mem.mpr (fun op hop => ?_))
    obtain ⟨i, rfl⟩ := hD.deletes id op hop
    have hpark : s.Parked (.delete id i) := hop
    exact hid (hb _ (hD.parked _ hpark))

end

end Knows

/-! ## Histories below a counter -/

/-- Delivered operations that name nothing from the counter on led to the sequence. -/
def KnownBefore (n : Nat) (s : Sequence T) : Prop :=
  ∃ D, s.Delivered D ∧ ∀ op, D op → op.Before n

theorem knownBefore_iff : KnownBefore n s ↔ Knows (fun x => x.counter < n) s :=
  exists_congr (fun _ => and_congr_right (fun _ => forall_congr' (fun _ =>
    imp_congr_right (fun _ => SequenceOp.before_iff_names))))

namespace KnownBefore
variable {n : Nat}

section
variable (h : KnownBefore n s)
include h

theorem mono (hnm : n ≤ m) : KnownBefore m s :=
  knownBefore_iff.mpr ((knownBefore_iff.mp h).mono (fun _ hx => lt_of_lt_of_le hx hnm))

theorem apply (hop : op.Before n) : KnownBefore n (s.apply op) :=
  knownBefore_iff.mpr ((knownBefore_iff.mp h).apply (SequenceOp.before_iff_names.mp hop))

theorem applyAll (hops : ∀ op ∈ ops, op.Before n) : KnownBefore n (s.applyAll ops) :=
  foldlRecOn ops Sequence.apply h (fun _ hs op hop => hs.apply (hops op hop))

theorem ordered : s.Ordered := (knownBefore_iff.mp h).ordered

theorem mem (he : e ∈ s.elements) : e.id.counter < n ∧ ∀ a, e.after = some a → a.counter < n :=
  (knownBefore_iff.mp h).mem he

section
variable (hid : n ≤ id.counter)
include hid

theorem notMem : id ∉ s.elementIds :=
  (knownBefore_iff.mp h).notMem (not_lt.mpr hid)

/-- Nothing waits for an id from the counter on. -/
theorem unknown : s.Unknown id :=
  (knownBefore_iff.mp h).unknown (not_lt.mpr hid)

theorem apply_insert {after} (ha : s.Anchored after) (value ro) :
    s.apply (.insert after id value ro) = s.withElement ⟨id, some value, after, ro⟩ :=
  apply_insert_unknown h.ordered.toIndexed (h.unknown hid) ha value ro

end

end

end KnownBefore

/-! ## Chains of new elements -/

/-- Inserts of `values` under the ids of `peer` from counter `n` on, each anchored at the one
    before it. -/
def chainInserts (peer : PeerId) (n : Nat) (after : OpId) : List T → List (SequenceOp T)
  | [] => []
  | v :: rest => .insert (some after) ⟨n, peer⟩ v none :: chainInserts peer (n + 1) ⟨n, peer⟩ rest

/-- The elements a chain adds, with ids and values. -/
def chainUnits (peer : PeerId) (n : Nat) (values : List T) : List (OpId × T) :=
  values.zipIdx.map (fun p => (⟨n + p.2, peer⟩, p.1))

theorem chainUnits_cons (n : Nat) (v : T) (rest : List T) :
    chainUnits peer n (v :: rest) = (⟨n, peer⟩, v) :: chainUnits peer (n + 1) rest := by
  simp only [chainUnits, zipIdx_cons, map_cons, Nat.add_zero, Nat.zero_add]
  rw [zipIdx_succ, List.map_map]
  refine congrArg _ (map_congr_left (fun p _ => ?_))
  show ((⟨n + (p.2 + 1), peer⟩ : OpId), p.1) = (⟨n + 1 + p.2, peer⟩, p.1)
  rw [Nat.add_comm p.2 1, Nat.add_assoc]

/-- The elements with their ids and live values. -/
def liveUnits (l : List (Element T)) : List (OpId × T) :=
  l.filterMap (fun e => e.value.map (fun v => (e.id, v)))

theorem liveUnits_append (l l' : List (Element T)) :
    liveUnits (l ++ l') = liveUnits l ++ liveUnits l' := filterMap_append

/-- A chain behind an element that has no children stands right behind it. -/
def ChainLands (peer : PeerId) (values : List T) : Prop :=
  ∀ ⦃s : Sequence T⦄ ⦃n : Nat⦄ ⦃A B : List (Element T)⦄ ⦃x : Element T⦄, KnownBefore n s →
    s.elements = A ++ x :: B → (∀ c ∈ s.elements, c.after ≠ some x.id) →
    ∃ C, (s.applyAll (chainInserts peer n x.id values)).elements = A ++ x :: (C ++ B) ∧
      liveUnits C = chainUnits peer n values

/-- So does a chain behind an insert that has landed. -/
theorem ChainLands.behind {peer after ro v values A B} (hc : ChainLands peer values)
    (h : KnownBefore n s) (ha : s.Anchored after) (hold : s.elements = A ++ B)
    (hels : (s.apply (.insert after ⟨n, peer⟩ v ro)).elements =
      A ++ ⟨⟨n, peer⟩, some v, after, ro⟩ :: B) :
    ∃ C, (s.applyAll (.insert after ⟨n, peer⟩ v ro ::
        chainInserts peer (n + 1) ⟨n, peer⟩ values)).elements = A ++ (C ++ B) ∧
      liveUnits C = chainUnits peer n (v :: values) := by
  have hbelow : ∀ a, after = some a → a.counter < n := by
    intro a haa
    obtain ⟨e, he, rfl⟩ := mem_elementIds.mp (ha a haa)
    exact (h.mem he).1
  have h' : KnownBefore (n + 1) (s.apply (.insert after ⟨n, peer⟩ v ro)) :=
    (h.mono (Nat.le_succ n)).apply
      ⟨Nat.lt_succ_self n, fun a haa => Nat.lt_succ_of_lt (hbelow a haa)⟩
  -- nothing was anchored at the new element yet
  have hleaf : ∀ c ∈ (s.apply (.insert after ⟨n, peer⟩ v ro)).elements,
      c.after ≠ some ⟨n, peer⟩ := by
    intro c hc hca
    rw [hels] at hc
    have hcases : c ∈ s.elements ∨ c = ⟨⟨n, peer⟩, some v, after, ro⟩ := by
      rw [hold]
      simp only [mem_append, mem_cons] at hc ⊢
      tauto
    rcases hcases with hc | rfl
    · exact absurd ((h.mem hc).2 _ hca) (lt_irrefl n)
    · exact absurd (hbelow _ hca) (lt_irrefl n)
  obtain ⟨C, hC, hlive⟩ := hc h' hels hleaf
  refine ⟨⟨⟨n, peer⟩, some v, after, ro⟩ :: C, hC, ?_⟩
  rw [chainUnits_cons, ← hlive]
  rfl

theorem chain_lands (values : List T) : ChainLands peer values := by
  induction values with
  | nil =>
    intro s n A B x _ hs _
    exact ⟨[], hs, rfl⟩
  | cons v rest ih =>
    intro s n A B x h hs hleaf
    have ha : s.Anchored (some x.id) := by
      rintro a ⟨⟩
      simp [elementIds, hs]
    have hels := withElement_behind (e := ⟨⟨n, peer⟩, some v, some x.id, none⟩) h.ordered hs rfl
      (h.notMem le_rfl) hleaf
    rw [← h.apply_insert le_rfl ha] at hels
    rw [append_cons] at hs hels
    obtain ⟨C, hC, hlive⟩ := ih.behind h ha hs hels
    exact ⟨C, by rw [append_cons]; exact hC, hlive⟩

/-- An insert and a chain behind it stand together, behind what the first element passes. -/
theorem insert_chain_lands (h : KnownBefore n s) {after} (ha : s.Anchored after) (ro v values) :
    ∃ A M B C, s.elements = A ++ (M ++ B) ∧ (s.applyAll (.insert after ⟨n, peer⟩ v ro ::
        chainInserts peer (n + 1) ⟨n, peer⟩ values)).elements = A ++ (M ++ (C ++ B)) ∧
      liveUnits C = chainUnits peer n (v :: values) ∧
      M.map Element.id = s.passed ⟨⟨n, peer⟩, none, after, ro⟩ ∧ EndsAt A after := by
  obtain ⟨A, M, B, hold, hels, hM, hA⟩ :=
    withElement_lands (e := ⟨⟨n, peer⟩, some v, after, ro⟩) h.ordered (h.notMem le_rfl) ha
  rw [← h.apply_insert le_rfl ha v ro, ← append_assoc] at hels
  rw [← append_assoc] at hold
  obtain ⟨C, hC, hlive⟩ := (chain_lands peer values).behind h ha hold hels
  rw [append_assoc] at hold hC
  exact ⟨A, M, B, C, hold, hC, hlive, hM, hA⟩

/-! ## Positions among the live elements -/

/-- The anchor of an insert at a position among the live elements. -/
def anchorAt (s : Sequence T) (k : Nat) : Option OpId :=
  if k = 0 then none else ((liveUnits s.elements).map fst)[k - 1]?

theorem mem_liveUnits : u ∈ liveUnits l ↔ ∃ e ∈ l, e.id = u.1 ∧ e.value = some u.2 := by
  rw [liveUnits, mem_filterMap]
  refine exists_congr (fun e => and_congr_right (fun _ => ?_))
  rw [map_eq_some_iff]
  constructor
  · rintro ⟨v, hv, rfl⟩
    exact ⟨rfl, hv⟩
  · rintro ⟨hid, hv⟩
    exact ⟨u.2, hv, by rw [hid]⟩

theorem ids_liveUnits (l : List (Element T)) :
    (liveUnits l).map fst = (l.filter (fun e => e.value.isSome)).map Element.id := by
  induction l with
  | nil => rfl
  | cons e l ih =>
    obtain ⟨id, value, after, ro⟩ := e
    cases value with
    | none => exact ih
    | some v => exact congrArg (id :: ·) ih

theorem nodup_ids_liveUnits (h : Distinct l) : ((liveUnits l).map fst).Nodup := by
  rw [ids_liveUnits]
  exact h.sublist ((filter_sublist).map _)

/-- In front of a position stand as many live elements as it says. -/
theorem liveUnits_before (hs : s.elements = A ++ R)
    (hd : Distinct s.elements) (hk : k ≤ (liveUnits s.elements).length)
    (hA : EndsAt A (s.anchorAt k)) : (liveUnits A).length = k := by
  unfold anchorAt at hA
  split at hA
  · next h0 =>
    obtain rfl : A = [] := hA
    exact h0.symm
  · next h0 =>
    have hlt : k - 1 < (liveUnits s.elements).length := by omega
    obtain ⟨u, hu⟩ : ∃ u, (liveUnits s.elements)[k - 1]? = some u :=
      ⟨_, getElem?_eq_getElem hlt⟩
    rw [getElem?_map, hu, map_some] at hA
    obtain ⟨A', x, rfl, hx⟩ := hA
    -- the last element in front is the live one that stands at the position before
    obtain ⟨e, he, hid, hv⟩ := mem_liveUnits.mp (mem_of_getElem? hu)
    have hxe : x = e := hd.eq_of_id (by simp [hs]) he (hx.trans hid.symm)
    subst hxe
    have hlast : liveUnits (A' ++ [x]) = liveUnits A' ++ [u] := by
      rw [liveUnits_append]
      congr 1
      simp [liveUnits, hv, hid]
    have hpos : (liveUnits s.elements)[(liveUnits A').length]? = some u := by
      rw [hs, liveUnits_append, hlast]
      simp
    have hidx : k - 1 = (liveUnits A').length := by
      have h1 : ((liveUnits s.elements).map fst)[k - 1]? = some u.1 := by simp [hu]
      have h2 : ((liveUnits s.elements).map fst)[(liveUnits A').length]? = some u.1 := by
        simp [hpos]
      exact (getElem?_inj (by simpa using hlt) (nodup_ids_liveUnits hd)).mp (h1.trans h2.symm)
    rw [hlast, length_append, length_singleton, ← hidx]
    omega

/-- The live elements that a new element passes. -/
def overtaken (s : Sequence T) (e : Element T) : List OpId :=
  (s.passed e).filter (fun x => x ∈ (liveUnits s.elements).map fst)

theorem ids_liveUnits_of_append (hs : s.elements = A ++ (M ++ B))
    (hd : Distinct s.elements) : (liveUnits M).map fst =
      (M.map Element.id).filter (fun x => x ∈ (liveUnits s.elements).map fst) := by
  rw [ids_liveUnits, List.filter_map]
  refine congrArg _ (filter_congr (fun e he => ?_))
  have hmem : e ∈ s.elements := by
    rw [hs]
    simp [he]
  rw [Function.comp_apply, Bool.eq_iff_iff, decide_eq_true_eq, List.mem_map]
  constructor
  · intro hv
    obtain ⟨v, hv⟩ := isSome_iff_exists.mp hv
    exact ⟨(e.id, v), mem_liveUnits.mpr ⟨e, hmem, rfl, hv⟩, rfl⟩
  · rintro ⟨u, hu, hid⟩
    obtain ⟨e', he', hid', hv⟩ := mem_liveUnits.mp hu
    rw [hd.eq_of_id hmem he' (hid.symm.trans hid'.symm), hv]
    rfl

/-- Putting something new into a list: the place can be told from the result. -/
theorem insertion_place {α : Type} {V N : List α} (hk : k + m ≤ V.length)
    (hN : N ≠ []) (hfresh : ∀ x ∈ N, x ∉ V) :
    V.take (k + m) ++ N ++ V.drop (k + m) = V.take k ++ N ++ V.drop k ↔ m = 0 := by
  constructor
  · intro heq
    by_contra hm
    obtain ⟨x, N, rfl⟩ := exists_cons_of_ne_nil hN
    have hl : (V.take (k + m) ++ x :: N ++ V.drop (k + m))[k]? = V[k]? := by
      rw [append_assoc, getElem?_append_left (by rw [length_take]; omega),
        getElem?_take_of_lt (by omega)]
    have hr : (V.take k ++ x :: N ++ V.drop k)[k]? = some x := by
      have hlen : (V.take k).length = k := by rw [length_take]; omega
      rw [append_assoc, getElem?_append_right (by omega), hlen]
      simp
    rw [heq, hr] at hl
    exact hfresh x mem_cons_self (mem_of_getElem? hl.symm)
  · rintro rfl
    rfl

/-- Inserting a chain at a position of the live elements: it lands as many further on as there
    are live elements that the first one passes. -/
theorem insert_chain_live (h : KnownBefore n s)
    (hk : k ≤ (liveUnits s.elements).length) (ro : Option OpId) (v : T) (values : List T) :
    let V := liveUnits s.elements
    let jump := s.overtaken ⟨⟨n, peer⟩, none, s.anchorAt k, ro⟩
    let V' := liveUnits (s.applyAll (.insert (s.anchorAt k) ⟨n, peer⟩ v ro ::
      chainInserts peer (n + 1) ⟨n, peer⟩ values)).elements
    let new := chainUnits peer n (v :: values)
    V' = V.take (k + jump.length) ++ new ++ V.drop (k + jump.length) ∧
      (V' = V.take k ++ new ++ V.drop k ↔ jump = []) := by
  intro V jump V' new
  have hd := h.ordered.grounded.distinct
  have ha : s.Anchored (s.anchorAt k) := by
    intro a haa
    unfold anchorAt at haa
    split at haa
    · cases haa
    · obtain ⟨u, hu, rfl⟩ := mem_map.mp (mem_of_getElem? haa)
      obtain ⟨e, he, hid, -⟩ := mem_liveUnits.mp hu
      exact mem_elementIds.mpr ⟨e, he, hid⟩
  obtain ⟨A, M, B, C, hold, hnew, hC, hM, hA⟩ := insert_chain_lands peer h ha ro v values
  have hlenA := liveUnits_before hold hd hk hA
  have hjump : jump = (liveUnits M).map fst := by
    rw [ids_liveUnits_of_append hold hd, hM]
    rfl
  have hlenM : jump.length = (liveUnits M).length := by rw [hjump, length_map]
  have hV : V = (liveUnits A ++ liveUnits M) ++ liveUnits B := by
    show liveUnits s.elements = _
    rw [hold, liveUnits_append, liveUnits_append, append_assoc]
  have hlen : k + jump.length = (liveUnits A ++ liveUnits M).length := by
    rw [length_append, hlenA, hlenM]
  have hV' : V' = V.take (k + jump.length) ++ new ++ V.drop (k + jump.length) := by
    show liveUnits (applyAll s _).elements = _
    rw [hnew, hlen, hV, take_left, drop_left]
    simp only [liveUnits_append, hC, append_assoc]
    rfl
  refine ⟨hV', ?_⟩
  rw [hV', insertion_place, length_eq_zero_iff]
  · have hlenV := congrArg List.length hV
    rw [length_append] at hlenV
    omega
  · show chainUnits peer n (v :: values) ≠ []
    rw [chainUnits_cons]
    simp
  · -- the new ids lie above everything that is there
    intro u hu hin
    obtain ⟨p, -, rfl⟩ := mem_map.mp hu
    obtain ⟨e, he, hid, -⟩ := mem_liveUnits.mp hin
    have hlt := (h.mem he).1
    rw [hid] at hlt
    exact absurd hlt (by show ¬ n + p.2 < n; omega)

/-! ## Sequences written down in order -/

/-- What stands last. -/
def lastId (items : List (OpId × T)) : Option OpId := items.getLast?.map fst

theorem elements_fromOrdered_append (items) (x : OpId × T) : (fromOrdered (items ++ [x])).elements =
      (fromOrdered items).elements ++ [⟨x.1, some x.2, lastId items, none⟩] := by
  simp only [fromOrdered, zipIdx_append, map_append, zipIdx_singleton, map_singleton, zero_add]
  congr 1
  · refine map_congr_left (fun p hp => ?_)
    have hlt : p.2 < items.length := snd_lt_of_mem_zipIdx hp
    rw [getElem?_append_left (by omega)]
  · cases items using List.reverseRecOn with
    | nil => rfl
    | append_singleton l y => simp [lastId]

variable {items : List (OpId × T)}

/-- Every element is anchored at one of those before it. -/
theorem after_fromOrdered (he : e ∈ (fromOrdered items).elements)
    (ha : e.after = some a) : a ∈ items.dropLast.map fst := by
  induction items using List.reverseRecOn with
  | nil => cases he
  | append_singleton items x ih =>
    rw [elements_fromOrdered_append, mem_append, mem_singleton] at he
    rw [dropLast_concat]
    rcases he with he | rfl
    · exact map_subset _ (dropLast_subset items) (ih he)
    · obtain ⟨y, hy, rfl⟩ := map_eq_some_iff.mp ha
      exact mem_map_of_mem (mem_of_getLast? hy)

@[simp] theorem elementIds_fromOrdered (items : List (OpId × T)) :
    (fromOrdered items).elementIds = items.map fst := by
  induction items using List.reverseRecOn with
  | nil => rfl
  | append_singleton items x ih =>
    rw [elementIds, elements_fromOrdered_append, map_append, map_append, ← ih]
    rfl

/-- Writing down one more item is inserting it behind the last one. -/
theorem fromOrdered_append (h : (fromOrdered items).Ordered)
    (hnd : ((items ++ [x]).map fst).Nodup) : fromOrdered (items ++ [x]) =
      (fromOrdered items).apply (.insert (lastId items) x.1 x.2 none) := by
  have hx : x.1 ∉ (fromOrdered items).elementIds := by
    rw [elementIds_fromOrdered]
    rw [map_append, nodup_append] at hnd
    exact fun hm => hnd.2.2 _ hm _ (by simp) rfl
  have hu : (fromOrdered items).Unknown x.1 := ⟨hx, by simp [fromOrdered], by simp [fromOrdered]⟩
  have ha : (fromOrdered items).Anchored (lastId items) := by
    intro a ha
    obtain ⟨y, hy, rfl⟩ := map_eq_some_iff.mp ha
    rw [elementIds_fromOrdered]
    exact mem_map_of_mem (mem_of_getLast? hy)
  have hels : ((fromOrdered items).withElement ⟨x.1, some x.2, lastId items, none⟩).elements =
      (fromOrdered (items ++ [x])).elements := by
    rw [elements_fromOrdered_append]
    cases items using List.reverseRecOn with
    | nil => exact perm_singleton.mp (withElement_perm h.toIndexed hx ha)
    | append_singleton l y =>
      have hlast : lastId (l ++ [y]) = some y.1 := by simp [lastId]
      rw [hlast]
      rw [elements_fromOrdered_append] at *
      refine (withElement_behind (A := (fromOrdered l).elements) (B := []) h
        (elements_fromOrdered_append l y) (e := ⟨x.1, some x.2, some y.1, none⟩) rfl hx ?_).trans
        (by simp)
      intro c hc hca
      have hmem := after_fromOrdered hc hca
      rw [dropLast_concat] at hmem
      rw [map_append, map_append, nodup_append] at hnd
      exact (nodup_append.mp hnd.1).2.2 _ hmem _ (by simp) rfl
  rw [apply_insert_unknown h.toIndexed hu ha]
  simp only [withElement, rebuildOrder] at hels ⊢
  rw [hels]
  rfl

theorem knows_fromOrdered (hnd : (items.map fst).Nodup)
    (hP : ∀ p ∈ items, P p.1) : Knows P (fromOrdered items) := by
  induction items using List.reverseRecOn with
  | nil => exact knows_new P
  | append_singleton items x ih =>
    have hnd' : (items.map fst).Nodup := by
      rw [map_append] at hnd
      exact (nodup_append.mp hnd).1
    have h := ih hnd' (fun p hp => hP p (mem_append_left _ hp))
    rw [fromOrdered_append h.ordered hnd]
    refine h.apply ⟨hP x (by simp), fun a ha => ?_⟩
    obtain ⟨y, hy, rfl⟩ := map_eq_some_iff.mp ha
    exact hP y (mem_append_left _ (mem_of_getLast? hy))

theorem knownBefore_fromOrdered (hnd : (items.map fst).Nodup)
    (hlt : ∀ p ∈ items, p.1.counter < n) : KnownBefore n (fromOrdered items) :=
  knownBefore_iff.mpr (knows_fromOrdered hnd hlt)

end Sequence
end MdCrdt
