import MdCrdt.Session.Lifetime

/- How far a log has heard of a peer.

  The frontier of a log is the largest counter of a peer that it has seen or that waits
  in its buffer. Recording, buffering and promoting raise it by the operation at hand
  and no further, and a log that is restored has the frontier it was saved with. -/
namespace MdCrdt
open Lib SortedMap
open List hiding le_trans max_le_iff

/-! ## Largest counters -/

theorem maxCounter_le_iff : maxCounter p ids ≤ n ↔ ∀ x ∈ ids, x.peer = p → x.counter ≤ n := by
  have hfold : ∀ (l : List OpId) (m : Nat),
      l.foldl (fun m id => if id.peer = p then max m id.counter else m) m ≤ n ↔
        m ≤ n ∧ ∀ x ∈ l, x.peer = p → x.counter ≤ n := by
    intro l
    induction l with
    | nil => simp
    | cons a l ih =>
      intro m
      rw [foldl_cons, ih, forall_mem_cons]
      by_cases ha : a.peer = p
      · rw [if_pos ha, max_le_iff]
        simp [ha, and_assoc]
      · rw [if_neg ha]
        simp [ha]
  simpa [maxCounter] using hfold ids 0

theorem le_maxCounter (hx : x ∈ ids) : x.counter ≤ maxCounter x.peer ids :=
  maxCounter_le_iff.mp le_rfl x hx rfl

namespace SyncState
variable {P : Type} {s : SyncState P} {p : PeerId} {β : PeerId → Nat} {op : Operation P} {id : OpId}

/-! ## The frontier of a log -/

/-- The largest counter of a peer that has been seen or waits. -/
def frontier (s : SyncState P) (p : PeerId) : Nat :=
  max (s.stateVector.seen p) (maxCounter p s.pending.keys)

theorem ids_pendingOps (s : SyncState P) : s.pendingOps.map Operation.id = s.pending.keys := by
  rw [pendingOps, map_map]
  rfl

theorem frontier_le_iff : s.frontier p ≤ n ↔
    s.stateVector.seen p ≤ n ∧ ∀ id ∈ s.pending.keys, id.peer = p → id.counter ≤ n := by
  rw [frontier, max_le_iff, maxCounter_le_iff]

theorem seen_le_frontier : s.stateVector.seen p ≤ s.frontier p := le_max_left _ _

theorem le_frontier_of_waiting (h : id ∈ s.pending.keys) : id.counter ≤ s.frontier id.peer :=
  (le_maxCounter h).trans (le_max_right _ _)

/-- The log is covered by the state vector, and what waits is filed under its own id. -/
structure Filed (s : SyncState P) : Prop where
  covered : ∀ id, s.contains id = true → s.stateVector.covers id
  named : ∀ e ∈ s.pending.entries, e.2.1.id = e.1

/-- One log extends another and does not pass the bound. -/
structure Extends (β : PeerId → Nat) (s t : SyncState P) : Prop where
  filed : t.Filed
  grown : ∀ p, s.frontier p ≤ t.frontier p
  bounded : ∀ p, t.frontier p ≤ β p

theorem Extends.trans (h : s.Extends β t) (h' : t.Extends β u) : s.Extends β u :=
  ⟨h'.filed, fun p => (h.grown p).trans (h'.grown p), h'.bounded⟩

theorem filed_record (h : s.Filed) (op) : (s.record op).Filed := by
  refine ⟨fun id hid => ?_, by rw [pending_record]; exact h.named⟩
  rcases (contains_record op id).mp hid with rfl | hid
  · exact covers_record_self op
  · exact covers_record op (h.covered id hid)

theorem le_frontier_record (op) : op.id.counter ≤ (s.record op).frontier op.id.peer :=
  (covers_record_self op).trans seen_le_frontier

theorem frontier_le_record (op p) : s.frontier p ≤ (s.record op).frontier p := by
  rw [frontier_le_iff]
  refine ⟨(seen_le_record op p).trans seen_le_frontier, ?_⟩
  rintro id hid rfl
  exact le_frontier_of_waiting (by rwa [pending_record])

theorem extends_record (h : s.Filed) (hβ : ∀ p, s.frontier p ≤ β p)
    (hop : op.id.counter ≤ β op.id.peer) : Extends β s (s.record op) := by
  refine ⟨filed_record h op, frontier_le_record op, fun p => ?_⟩
  obtain ⟨hseen, hwait⟩ := frontier_le_iff.mp (hβ p)
  rw [frontier_le_iff, pending_record, seen_record]
  refine ⟨?_, hwait⟩
  split
  · next hp => exact max_le hseen (hp ▸ hop)
  · exact hseen

theorem extends_buffer (h : s.Filed) (hβ : ∀ p, s.frontier p ≤ β p) (n)
    (hop : op.id.counter ≤ β op.id.peer) :
    Extends β s { s with pending := s.pending.insert op.id (op, n) } := by
  refine ⟨⟨h.covered, fun e he => ?_⟩, fun p => ?_, fun p => ?_⟩
  · rcases mem_insertList he with rfl | he
    · rfl
    · exact h.named e he
  · rw [frontier_le_iff]
    refine ⟨le_max_left _ _, ?_⟩
    rintro id hid rfl
    exact le_frontier_of_waiting (mem_keys_insert.mpr (.inr hid))
  · obtain ⟨hseen, hwait⟩ := frontier_le_iff.mp (hβ p)
    refine frontier_le_iff.mpr ⟨hseen, fun id hid hp => ?_⟩
    rcases mem_keys_insert.mp hid with rfl | hid
    · exact hp ▸ hop
    · exact hwait id hid hp

theorem extends_promote (h : s.Filed) (hβ : ∀ p, s.frontier p ≤ β p)
    (hw : s.pending.get? id = some (op, n)) : Extends β s (s.promote id op) := by
  obtain rfl : op.id = id := h.named _ (get?_mem hw)
  have hkeys : ∀ k ∈ (s.pending.erase op.id).keys, k ∈ s.pending.keys :=
    fun k hk => ((filter_sublist).map Prod.fst).subset hk
  have herase : ({ s with pending := s.pending.erase op.id } : SyncState P).Filed :=
    ⟨h.covered, fun e he => h.named e (mem_of_mem_filter he)⟩
  have hbound : ∀ p, ({ s with pending := s.pending.erase op.id } : SyncState P).frontier p ≤ β p := by
    intro p
    obtain ⟨hseen, hwait⟩ := frontier_le_iff.mp (hβ p)
    exact frontier_le_iff.mpr ⟨hseen, fun k hk => hwait k (hkeys k hk)⟩
  have hmem : op.id ∈ s.pending.keys := mem_map_of_mem (get?_mem hw)
  have hrec := extends_record herase hbound ((le_frontier_of_waiting hmem).trans (hβ _))
  refine ⟨hrec.filed, fun p => ?_, hrec.bounded⟩
  rw [frontier_le_iff]
  refine ⟨(le_max_left (s.stateVector.seen p) _).trans (hrec.grown p), ?_⟩
  rintro k hk rfl
  -- the operation itself has moved from the buffer to the log
  by_cases hkid : k = op.id
  · exact hkid ▸ le_frontier_record op
  · refine le_trans (le_frontier_of_waiting ?_) (hrec.grown k.peer)
    obtain ⟨e, he, rfl⟩ := mem_map.mp hk
    exact mem_map_of_mem (mem_filter.mpr ⟨he, by simpa using hkid⟩)

/-! ## Restored logs -/

theorem seen_restoreApplied (ops : List (Operation P)) (s : SyncState P) (p) :
    (s.restoreApplied ops).stateVector.seen p =
      max (s.stateVector.seen p) (maxCounter p (ops.map Operation.id)) := by
  refine eq_of_forall_ge_iff (fun n => ?_)
  rw [max_le_iff, maxCounter_le_iff, forall_mem_map]
  induction ops generalizing s with
  | nil => simp [restoreApplied]
  | cons op ops ih =>
    refine (ih (s.record op)).trans ?_
    rw [seen_record, forall_mem_cons]
    by_cases hp : op.id.peer = p
    · rw [if_pos hp.symm, max_le_iff]
      simp [hp, and_assoc]
    · rw [if_neg (Ne.symm hp)]
      simp [hp]

theorem contains_restoreApplied {ops : List (Operation P)} {s : SyncState P}
    (h : (s.restoreApplied ops).contains id = true) :
    s.contains id = true ∨ id ∈ ops.map Operation.id := by
  induction ops generalizing s with
  | nil => exact .inl h
  | cons op ops ih =>
    rcases ih h with hc | hm
    · rcases (contains_record op id).mp hc with rfl | hc
      · exact .inr mem_cons_self
      · exact .inl hc
    · exact .inr (mem_cons_of_mem _ hm)

theorem stateVector_restorePending (ops) (s : SyncState P) :
    (s.restorePending ops).stateVector = s.stateVector := by
  induction ops generalizing s with
  | nil => rfl
  | cons op ops ih =>
    refine (ih _).trans ?_
    simp only
    split <;> rfl

/-- What is restored waits again, unless the log has it. -/
theorem waiting_restorePending {ops : List (Operation P × Nat)} {s : SyncState P}
    (h : id ∈ s.pending.keys ∨ id ∈ ops.map (fun e => e.1.id)) :
    s.contains id = true ∨ id ∈ (s.restorePending ops).pending.keys := by
  induction ops generalizing s with
  | nil => exact .inr (h.resolve_right (by simp))
  | cons op ops ih =>
    by_cases hc : s.ops.contains op.1.id = true
    · rw [restorePending, foldl_cons, if_pos hc]
      rcases h with h | h
      · exact ih (Or.inl h)
      · rcases mem_cons.mp h with rfl | h
        · exact .inl hc
        · exact ih (Or.inr h)
    · rw [restorePending, foldl_cons, if_neg hc]
      refine ih (s := { s with pending := s.pending.insert op.1.id op }) ?_
      rcases h with h | h
      · exact .inl (mem_keys_insert.mpr (Or.inr h))
      · rcases mem_cons.mp h with rfl | h
        · exact .inl (mem_keys_insert.mpr (.inl rfl))
        · exact .inr h

end SyncState
end MdCrdt
