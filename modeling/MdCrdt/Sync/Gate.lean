import MdCrdt.Sync.Checkpoint
import Mathlib.Data.Set.Insert
import Mathlib.Tactic.Tauto

/- The delivery gate.

  Operations come with the ranges of counters they cover. Where the ranges of each
  peer tile the counters from 1 on, the gate lets an operation through exactly when
  everything below it has gone through: the log of a peer always covers a prefix,
  the state vector names its end, and what waits does not touch it. A settled state
  with these properties is determined by what has been delivered (`Gate.unique`),
  so neither order nor repetition matters.

  The test of the gate is `start ≤ frontier + 1`; that it lets nothing through
  twice, or across a gap, is where the tiling is used (`Gate.start_eq`). -/
namespace MdCrdt
open Lib SortedMap

/-- An operation with the number of counters it covers. -/
abbrev Spanned (P : Type) := Operation P × Nat

namespace SyncState
variable {P : Type}

/-- The first counter the operation covers. -/
def start (e : Spanned P) : Nat := spanStart e.1.id.counter e.2

/-- The operation covers the counter. -/
def Covers (e : Spanned P) (c : Nat) : Prop := start e ≤ c ∧ c ≤ e.1.id.counter

/-- For each peer the ranges of the operations are disjoint and tile `1..n`. -/
structure Tiled (S : Set (Spanned P)) : Prop where
  tiles : ∀ p, ∃ n, ∀ c, (∃ e ∈ S, e.1.id.peer = p ∧ Covers e c) ↔ 1 ≤ c ∧ c ≤ n
  disjoint : ∀ e ∈ S, ∀ f ∈ S, e.1.id.peer = f.1.id.peer → ∀ c, Covers e c → Covers f c → e = f

/-- Take in one operation and promote what has become ready. -/
def deliver (s : SyncState P) (e : Spanned P) : SyncState P :=
  match s.applyOne e.1 e.2 with
  | (s', .applied) => s'.promoteReadyPending.1
  | (s', .buffered) => s'
  | (s', .alreadyPresent) => s'

/-- Deliveries one after the other to an empty log. -/
def deliverAll (ds : List (Spanned P)) : SyncState P := ds.foldl deliver new

/-! ## Tilings -/

theorem start_le (e : Spanned P) : start e ≤ e.1.id.counter := Nat.sub_le _ _

theorem covers_counter (e : Spanned P) : Covers e e.1.id.counter := ⟨start_le e, le_refl _⟩

theorem covers_start (e : Spanned P) : Covers e (start e) := ⟨le_refl _, start_le e⟩

namespace Tiled
variable {S : Set (Spanned P)} {e f : Spanned P}

theorem start_pos (h : Tiled S) (he : e ∈ S) : 1 ≤ start e := by
  obtain ⟨n, hn⟩ := h.tiles e.1.id.peer
  exact ((hn _).mp ⟨e, he, rfl, covers_start e⟩).1

/-- An operation is known by its id. -/
theorem eq_of_id (h : Tiled S) (he : e ∈ S) (hf : f ∈ S) (hid : e.1.id = f.1.id) : e = f :=
  h.disjoint e he f hf (by rw [hid]) _ (covers_counter e) (hid ▸ covers_counter f)

end Tiled

/-! ## The invariant -/

/-- What the gate has made of the deliveries in `D`. -/
structure Gate (D : Set (Spanned P)) (s : SyncState P) : Prop where
  logged : ∀ id pl, s.ops.get? id = some pl → ∃ n, (⟨id, pl⟩, n) ∈ D
  waiting : ∀ id o n, s.pending.get? id = some (o, n) →
    o.id = id ∧ (o, n) ∈ D ∧ s.contains id = false
  kept : ∀ e ∈ D, s.contains e.1.id = true ∨ s.pending.get? e.1.id = some e
  covered : ∀ p c, (∃ e ∈ D, s.contains e.1.id = true ∧ e.1.id.peer = p ∧ Covers e c) ↔
    1 ≤ c ∧ c ≤ s.stateVector.seen p
  entries : ∀ p, s.stateVector.get p ≠ some 0
  sorted : s.ops.Sorted ∧ s.pending.Sorted
  history : s.checkpointEpoch = 0 ∧ s.deltaFloor = .new

theorem gate_new : Gate ∅ (new : SyncState P) where
  logged := by simp [new]
  waiting := by simp [new]
  kept := by simp
  covered p c := by simp [new]; omega
  entries p := by simp [new, StateVector.new, StateVector.get]
  sorted := ⟨sorted_empty, sorted_empty⟩
  history := ⟨rfl, rfl⟩

namespace Gate
variable {S D : Set (Spanned P)} {s s' : SyncState P} {e f : Spanned P}

/-- An operation of the log is one of the deliveries. -/
theorem mem_of_contains (h : Gate D s) (hS : Tiled S) (hD : D ⊆ S) (he : e ∈ S)
    (hc : s.contains e.1.id = true) : e ∈ D ∧ s.ops.get? e.1.id = some e.1.payload := by
  obtain ⟨pl, hpl⟩ := contains_iff_get?.mp hc
  obtain ⟨n, hn⟩ := h.logged _ pl hpl
  have heq := hS.eq_of_id he (hD hn) rfl
  exact ⟨heq ▸ hn, by rw [hpl, heq]⟩

/-- An operation that gets through starts where the log of its peer ends. -/
theorem start_eq (h : Gate D s) (hS : Tiled S) (hD : D ⊆ S) (he : e ∈ S)
    (hc : s.contains e.1.id = false) (hr : s.Ready e.1.id e.2) :
    start e = s.stateVector.seen e.1.id.peer + 1 := by
  refine le_antisymm hr (Nat.succ_le_of_lt (not_le.mp (fun hle => ?_)))
  obtain ⟨f, hf, hfc, hpeer, hcov⟩ :=
    (h.covered e.1.id.peer (start e)).mpr ⟨hS.start_pos he, hle⟩
  obtain rfl := hS.disjoint f (hD hf) e he hpeer _ hcov (covers_start e)
  rw [hc] at hfc
  cases hfc

theorem contains_promote (s : SyncState P) (id) (op : Operation P) (k) :
    (s.promote id op).contains k = true ↔ k = op.id ∨ s.contains k = true :=
  contains_record op k

/-- An operation that is ready goes to the log. -/
theorem take (h : Gate D s) (hS : Tiled S) (hD : D ⊆ S) (he : e ∈ S)
    (hc : s.contains e.1.id = false) (hr : s.Ready e.1.id e.2) :
    Gate (insert e D) (s.promote e.1.id e.1) where
  logged id pl hpl := by
    rw [promote, ops_record] at hpl
    rcases get?_insert_eq_some.mp hpl with ⟨rfl, rfl⟩ | ⟨-, hpl⟩
    · exact ⟨e.2, Set.mem_insert e D⟩
    · obtain ⟨n, hn⟩ := h.logged id pl hpl
      exact ⟨n, Set.mem_insert_of_mem e hn⟩
  waiting id o n hw := by
    rw [promote, pending_record] at hw
    obtain ⟨hne, hw⟩ := get?_erase_eq_some.mp hw
    obtain ⟨h1, h2, h3⟩ := h.waiting id o n hw
    refine ⟨h1, Set.mem_insert_of_mem e h2, Bool.eq_false_iff.mpr (fun hk => ?_)⟩
    rcases (contains_promote s _ _ id).mp hk with hk | hk
    · exact hne hk
    · rw [h3] at hk
      cases hk
  kept f hf := by
    rw [contains_promote]
    rcases Set.mem_insert_iff.mp hf with rfl | hf
    · exact .inl (.inl rfl)
    · rcases h.kept f hf with hk | hk
      · exact .inl (.inr hk)
      · by_cases hid : f.1.id = e.1.id
        · exact .inl (.inl hid)
        · refine .inr ?_
          rw [promote, pending_record, get?_erase, if_neg hid]
          exact hk
  covered p c := by
    have hstart := h.start_eq hS hD he hc hr
    have hle := start_le e
    -- only the operation itself is new to the log
    have hlog : ∀ f, f ∈ insert e D ∧ (s.promote e.1.id e.1).contains f.1.id = true ↔
        f = e ∨ f ∈ D ∧ s.contains f.1.id = true := by
      intro f
      rw [contains_promote, Set.mem_insert_iff]
      constructor
      · rintro ⟨rfl | hf, hid | hk⟩
        · exact .inl rfl
        · exact .inl rfl
        · exact .inl (hS.eq_of_id (hD hf) he hid)
        · exact .inr ⟨hf, hk⟩
      · rintro (rfl | ⟨hf, hk⟩)
        · exact ⟨.inl rfl, .inl rfl⟩
        · exact ⟨.inr hf, .inr hk⟩
    simp only [← and_assoc, hlog]
    simp only [or_and_right, exists_or, exists_eq_left, and_assoc]
    rw [h.covered p c, promote, seen_record]
    by_cases hp : p = e.1.id.peer
    · have hpos := hS.start_pos he
      subst hp
      simp only [Covers, true_and, if_true]
      show _ ↔ 1 ≤ c ∧ c ≤ max (s.stateVector.seen e.1.id.peer) _
      omega
    · rw [if_neg hp]
      simp [Ne.symm hp]
  entries p := by
    have hpos := hS.start_pos he
    have hle := start_le e
    simp only [promote, record, observe]
    split
    · simp only [StateVector.get, StateVector.set, get?_insert]
      split
      · intro h0
        have := Option.some.inj h0
        omega
      · exact h.entries p
    · exact h.entries p
  sorted := by
    rw [promote, ops_record, pending_record]
    exact ⟨sorted_insert h.sorted.1 _ _, sorted_erase h.sorted.2 _⟩
  history := by
    have : (s.promote e.1.id e.1).checkpointEpoch = s.checkpointEpoch ∧
        (s.promote e.1.id e.1).deltaFloor = s.deltaFloor := by
      simp only [promote, record, observe]
      split <;> exact ⟨rfl, rfl⟩
    rw [this.1, this.2]
    exact h.history

/-- An operation that is not ready goes to the buffer. -/
theorem buffer (h : Gate D s) (hc : s.contains e.1.id = false) (hp : s.pending.get? e.1.id = none) :
    Gate (insert e D) { s with pending := s.pending.insert e.1.id e } where
  logged id pl hpl := by
    obtain ⟨n, hn⟩ := h.logged id pl hpl
    exact ⟨n, Set.mem_insert_of_mem e hn⟩
  waiting id o n hw := by
    rcases get?_insert_eq_some.mp hw with ⟨rfl, rfl⟩ | ⟨-, hw⟩
    · exact ⟨rfl, Set.mem_insert _ D, hc⟩
    · obtain ⟨h1, h2, h3⟩ := h.waiting id o n hw
      exact ⟨h1, Set.mem_insert_of_mem e h2, h3⟩
  kept f hf := by
    rw [get?_insert]
    rcases Set.mem_insert_iff.mp hf with rfl | hf
    · exact .inr (if_pos rfl)
    · refine (h.kept f hf).imp_right (fun hk => ?_)
      rw [if_neg (fun hid => ?_), hk]
      rw [hid, hp] at hk
      cases hk
  covered p c := by
    rw [← h.covered p c]
    constructor
    · rintro ⟨f, hf, hfc, hrest⟩
      rcases Set.mem_insert_iff.mp hf with rfl | hf
      · exact absurd hfc (by simpa [contains] using hc)
      · exact ⟨f, hf, hfc, hrest⟩
    · rintro ⟨f, hf, hrest⟩
      exact ⟨f, Set.mem_insert_of_mem e hf, hrest⟩
  __ := h
  sorted := ⟨h.sorted.1, sorted_insert h.sorted.2 _ _⟩

/-- Promotions keep the invariant. -/
theorem promotion (h : Gate D s) (hS : Tiled S) (hD : D ⊆ S)
    (hl : Promotion s l s') : Gate D s' := by
  induction hl with
  | nil => exact h
  | @cons s t id op n ops hw hr _ ih =>
    obtain ⟨rfl, hmem, hc⟩ := h.waiting _ _ _ hw
    have htake := h.take hS hD (hD hmem) hc hr
    rw [Set.insert_eq_of_mem hmem] at htake
    exact ih htake

/-- One delivery. -/
theorem step (h : Gate D s) (hset : s.Settled) (hS : Tiled S) (hD : D ⊆ S) (he : e ∈ S) :
    Gate (insert e D) (s.deliver e) ∧ (s.deliver e).Settled := by
  unfold deliver
  rcases s.applyOne_cases e.1 e.2 with
    ⟨hc, ha⟩ | ⟨hc, ⟨hp, ha⟩ | ⟨hp, ⟨hr, ha⟩ | ⟨hr, ha⟩⟩⟩ <;> rw [ha]
  · rw [Set.insert_eq_of_mem (h.mem_of_contains hS hD he hc).1]
    exact ⟨h, hset⟩
  · obtain ⟨⟨o, n⟩, hw⟩ := Option.isSome_iff_exists.mp hp
    obtain ⟨hid, hmem, -⟩ := h.waiting _ _ _ hw
    obtain rfl := hS.eq_of_id (hD hmem) he hid
    rw [Set.insert_eq_of_mem hmem]
    exact ⟨h, hset⟩
  · refine ⟨h.buffer hc hp, fun id o n hw => ?_⟩
    rcases get?_insert_eq_some.mp hw with ⟨rfl, hv⟩ | ⟨-, hw⟩
    · show ¬s.Ready e.1.id n
      rwa [← (Prod.mk.inj hv).2]
    · exact hset id o n hw
  · have htake := h.take hS hD he hc hr
    rw [promote, erase_of_get?_none hp] at htake
    exact ⟨htake.promotion hS (Set.insert_subset he hD) (promotion_ready _), settled _⟩

/-- Deliveries one after the other. -/
theorem run_from (hS : Tiled S) {ds : List (Spanned P)} (hds : ∀ e ∈ ds, e ∈ S) (h : Gate D s)
    (hset : s.Settled) (hD : D ⊆ S) :
    Gate (D ∪ {e | e ∈ ds}) (ds.foldl deliver s) ∧ (ds.foldl deliver s).Settled := by
  induction ds generalizing s D with
  | nil => simpa using ⟨h, hset⟩
  | cons e ds ih =>
    have he := hds e List.mem_cons_self
    obtain ⟨hg, hs⟩ := h.step hset hS hD he
    have hrest := ih (fun f hf => hds f (List.mem_cons_of_mem e hf)) hg hs (Set.insert_subset he hD)
    have hset' : insert e D ∪ {f | f ∈ ds} = D ∪ {f | f ∈ e :: ds} := by
      ext f
      simp only [Set.mem_union, Set.mem_insert_iff, Set.mem_ofPred_eq, List.mem_cons]
      tauto
    rwa [hset'] at hrest

theorem run (hS : Tiled S) (hds : ∀ e ∈ ds, e ∈ S) :
    Gate {e | e ∈ ds} (deliverAll ds) ∧ (deliverAll ds).Settled := by
  have h := run_from hS hds gate_new (by simp [Settled, new]) (Set.empty_subset S)
  rwa [Set.empty_union] at h

section
variable (h : Gate D s)
include h

/-- A settled log has reached the prefix of every log whose operations have been delivered to it. -/
theorem seen_le (hset : s.Settled) (h' : Gate D' s')
    (hsub : ∀ e ∈ D', s'.contains e.1.id = true → e ∈ D) (p) :
    s'.stateVector.seen p ≤ s.stateVector.seen p := by
  by_contra hlt
  have hlt := not_le.mp hlt
  -- the first counter beyond the prefix is covered by an operation that waits, yet is ready
  obtain ⟨e, he, hc, rfl, hcov⟩ :=
    (h'.covered p (s.stateVector.seen p + 1)).mpr ⟨Nat.succ_pos _, hlt⟩
  have he := hsub e he hc
  rcases h.kept e he with hk | hk
  · have := ((h.covered e.1.id.peer _).mp ⟨e, he, hk, rfl, hcov⟩).2
    omega
  · exact hset _ _ _ hk hcov.1

theorem contains_iff (hS : Tiled S) (hD : D ⊆ S) (he : e ∈ S) :
    s.contains e.1.id = true ↔ e.1.id.counter ≤ s.stateVector.seen e.1.id.peer := by
  constructor
  · intro hc
    have he := (h.mem_of_contains hS hD he hc).1
    exact ((h.covered _ _).mp ⟨e, he, hc, rfl, covers_counter e⟩).2
  · intro hle
    have hpos : 1 ≤ e.1.id.counter := le_trans (hS.start_pos he) (start_le e)
    obtain ⟨f, hf, hfc, hpeer, hcov⟩ := (h.covered _ _).mpr ⟨hpos, hle⟩
    obtain rfl := hS.disjoint f (hD hf) e he hpeer _ hcov (covers_counter e)
    exact hfc

theorem get?_eq (hS : Tiled S) (hD : D ⊆ S) (id pl) :
    s.ops.get? id = some pl ↔ ∃ n, (⟨id, pl⟩, n) ∈ S ∧ id.counter ≤ s.stateVector.seen id.peer := by
  constructor
  · intro hpl
    obtain ⟨n, hn⟩ := h.logged id pl hpl
    exact ⟨n, hD hn, (h.contains_iff hS hD (hD hn)).mp (contains_iff_get?.mpr ⟨pl, hpl⟩)⟩
  · rintro ⟨n, hn, hle⟩
    exact (h.mem_of_contains hS hD hn ((h.contains_iff hS hD hn).mpr hle)).2

/-- What a log has seen determines what is in it. -/
theorem ops_eq (h' : Gate D' s') (hS : Tiled S) (hD : D ⊆ S) (hD' : D' ⊆ S)
    (hseen : ∀ p, s.stateVector.seen p = s'.stateVector.seen p) : s.ops = s'.ops := by
  refine ext_get? h.sorted.1 h'.sorted.1 (fun id => Option.ext (fun pl => ?_))
  rw [h.get?_eq hS hD, h'.get?_eq hS hD', hseen]

theorem pending_eq (hS : Tiled S) (hD : D ⊆ S) (id e) : s.pending.get? id = some e ↔
      e.1.id = id ∧ e ∈ D ∧ ¬e.1.id.counter ≤ s.stateVector.seen e.1.id.peer := by
  constructor
  · intro hw
    obtain ⟨rfl, he, hc⟩ := h.waiting _ _ _ hw
    refine ⟨rfl, he, fun hle => ?_⟩
    rw [(h.contains_iff hS hD (hD he)).mpr hle] at hc
    cases hc
  · rintro ⟨rfl, he, hle⟩
    rcases h.kept e he with hk | hk
    · exact absurd ((h.contains_iff hS hD (hD he)).mp hk) hle
    · exact hk

/-- The state vector has an entry for the peers it has seen something of, and for no other. -/
theorem vector_eq (h' : Gate D s') (hseen : ∀ p, s.stateVector.seen p = s'.stateVector.seen p) :
    s.stateVector = s'.stateVector := by
  have hget : ∀ p, s.stateVector.get p = s'.stateVector.get p := by
    intro p
    have hp := hseen p
    have h0 := h.entries p
    have h0' := h'.entries p
    unfold StateVector.seen at hp
    cases hv : s.stateVector.get p <;> cases hv' : s'.stateVector.get p <;>
      simp_all
  have hpeers : s.stateVector.peers = s'.stateVector.peers :=
    ext_get? s.stateVector.sorted s'.stateVector.sorted hget
  cases hs : s.stateVector
  cases hs' : s'.stateVector
  simp_all

/-- A settled log is determined by what has been delivered. -/
theorem unique (hset : s.Settled) (h' : Gate D s') (hset' : s'.Settled)
    (hS : Tiled S) (hD : D ⊆ S) : s = s' := by
  have hseen : ∀ p, s.stateVector.seen p = s'.stateVector.seen p := fun p =>
    le_antisymm (h'.seen_le hset' h (fun _ he _ => he) p) (h.seen_le hset h' (fun _ he _ => he) p)
  have hops : s.ops = s'.ops := h.ops_eq h' hS hD hD hseen
  have hpending : s.pending = s'.pending := by
    refine ext_get? h.sorted.2 h'.sorted.2 (fun id => Option.ext (fun e => ?_))
    rw [h.pending_eq hS hD, h'.pending_eq hS hD, hseen]
  have hvector : s.stateVector = s'.stateVector := h.vector_eq h' hseen
  obtain ⟨ops, vector, pending, epoch, floor⟩ := s
  obtain ⟨ops', vector', pending', epoch', floor'⟩ := s'
  obtain ⟨rfl, rfl⟩ := h.history
  obtain ⟨rfl, rfl⟩ := h'.history
  simp only at hops hpending hvector
  rw [hops, hpending, hvector]

end

end Gate

/-- The delivery gate: for operations whose ranges tile, after any deliveries in any order and
    with any repetition, the log of each peer covers exactly the counters up to the one the state
    vector names, nothing in the buffer is ready, and the whole state is the one that any other
    deliveries of the same operations lead to. -/
theorem deliverAll_gate {S : Set (Spanned P)} (hS : Tiled S) (ds : List (Spanned P))
    (hds : ∀ e ∈ ds, e ∈ S) : (∀ p c, (deliverAll ds).stateVector.seen p = c →
      ∀ k, (∃ e ∈ ds, (deliverAll ds).ops.get? e.1.id = some e.1.payload ∧ e.1.id.peer = p ∧
        Covers e k) ↔ 1 ≤ k ∧ k ≤ c) ∧ (∀ id o n, (deliverAll ds).pending.get? id = some (o, n) →
      (deliverAll ds).stateVector.seen id.peer + 1 < spanStart id.counter n) ∧
    (∀ ds', (∀ e, e ∈ ds' ↔ e ∈ ds) → deliverAll ds' = deliverAll ds) := by
  obtain ⟨hg, hset⟩ := Gate.run hS hds
  refine ⟨?_, fun id o n hw => not_le.mp (hset id o n hw), fun ds' hds' => ?_⟩
  · rintro p c rfl k
    rw [← hg.covered p k]
    constructor
    · rintro ⟨e, he, hget, hrest⟩
      exact ⟨e, he, contains_iff_get?.mpr ⟨_, hget⟩, hrest⟩
    · rintro ⟨e, he, hc, hrest⟩
      exact ⟨e, he, (hg.mem_of_contains hS hds (hds e he) hc).2, hrest⟩
  · obtain ⟨hg', hset'⟩ := Gate.run hS (fun e he => hds e ((hds' e).mp he))
    have hsame : {e | e ∈ ds'} = {e | e ∈ ds} := Set.ext hds'
    rw [hsame] at hg'
    exact hg'.unique hset' hg hset hS hds

/-- Two operations of one peer, the first of which covers two counters. -/
theorem tiled_two : Tiled ({(⟨⟨2, 1⟩, "ab"⟩, 2), (⟨⟨3, 1⟩, "c"⟩, 1)} : Set (Spanned String)) where
  tiles p := by
    refine ⟨if p = 1 then 3 else 0, fun c => ?_⟩
    simp only [Set.mem_insert_iff, Set.mem_singleton_iff, exists_eq_or_imp, exists_eq_left, Covers,
      start, spanStart]
    by_cases hp : p = 1
    · subst hp
      simp only [if_true, true_and]
      omega
    · rw [if_neg hp]
      simp only [Ne.symm hp, false_and, or_self, false_iff]
      omega
  disjoint e he f hf _ c hce hcf := by
    simp only [Set.mem_insert_iff, Set.mem_singleton_iff] at he hf
    rcases he with rfl | rfl <;> rcases hf with rfl | rfl
    all_goals
      simp only [Covers, start, spanStart] at hce hcf
      first
        | rfl
        | omega

/-- Against the order and with a repetition: the later operation waits for the earlier. -/
theorem deliverAll_gate_two : (∀ p c, (deliverAll [(⟨⟨3, 1⟩, "c"⟩, 1), (⟨⟨2, 1⟩, "ab"⟩, 2),
        (⟨⟨3, 1⟩, "c"⟩, 1)]).stateVector.seen p = c →
      ∀ k, (∃ e ∈ [(⟨⟨3, 1⟩, "c"⟩, 1), (⟨⟨2, 1⟩, "ab"⟩, 2), (⟨⟨3, 1⟩, "c"⟩, 1)],
        (deliverAll [(⟨⟨3, 1⟩, "c"⟩, 1), (⟨⟨2, 1⟩, "ab"⟩, 2),
          (⟨⟨3, 1⟩, "c"⟩, 1)]).ops.get? e.1.id = some e.1.payload ∧ e.1.id.peer = p ∧
        Covers e k) ↔ 1 ≤ k ∧ k ≤ c) ∧
    deliverAll [((⟨⟨2, 1⟩, "ab"⟩ : Operation String), 2), (⟨⟨3, 1⟩, "c"⟩, 1)] =
      deliverAll [(⟨⟨3, 1⟩, "c"⟩, 1), (⟨⟨2, 1⟩, "ab"⟩, 2), (⟨⟨3, 1⟩, "c"⟩, 1)] := by
  have h := deliverAll_gate tiled_two
    [(⟨⟨3, 1⟩, "c"⟩, 1), (⟨⟨2, 1⟩, "ab"⟩, 2), (⟨⟨3, 1⟩, "c"⟩, 1)] (by simp)
  exact ⟨h.1, h.2.2 _ (by simp)⟩

/-! ## One round between two replicas

   One sends its state vector and is sent the delta above it. -/

section
variable {S : Set (Spanned P)} (ds ds' : List (Spanned P))

/-- The state vector determines the log: replicas that have seen the same of every peer have the
    same operations, whatever has been delivered to them and in which order. -/
theorem ops_eq_of_seen_eq (hS : Tiled S) (hds : ∀ e ∈ ds, e ∈ S) (hds' : ∀ e ∈ ds', e ∈ S)
    (hseen : ∀ p, (deliverAll ds).stateVector.seen p = (deliverAll ds').stateVector.seen p) :
    (deliverAll ds).ops = (deliverAll ds').ops :=
  (Gate.run hS hds).1.ops_eq (Gate.run hS hds').1 hS hds hds' hseen

/-- The second operation first, which waits, or last. -/
theorem ops_eq_of_seen_eq_swapped :
    (deliverAll [((⟨⟨3, 1⟩, "c"⟩ : Operation String), 1), (⟨⟨2, 1⟩, "ab"⟩, 2)]).ops.keys =
        [⟨2, 1⟩, ⟨3, 1⟩] ∧
    (deliverAll [((⟨⟨3, 1⟩, "c"⟩ : Operation String), 1), (⟨⟨2, 1⟩, "ab"⟩, 2)]).ops =
      (deliverAll [((⟨⟨2, 1⟩, "ab"⟩ : Operation String), 2), (⟨⟨3, 1⟩, "c"⟩, 1)]).ops :=
  ⟨by decide, ops_eq_of_seen_eq _ _ tiled_two (by simp) (by simp) (fun _ => rfl)⟩

/-- Pulling is complete. Of two replicas, each with any deliveries behind it, one asks the other
    for the delta above its state vector. It is sent one, of operations that exist; and once all
    of them have been delivered, in any order, repeated, and mixed with others, it has everything
    that the other one had. -/
theorem pull_complete (hS : Tiled S) (hds : ∀ e ∈ ds, e ∈ S) (hds' : ∀ e ∈ ds', e ∈ S) :
    ∃ message, (deliverAll ds).encodeChangesSince (deliverAll ds').stateVector = .ok message ∧
      (∀ o ∈ message.ops, ∃ n, (o, n) ∈ S) ∧ ∀ sent : List (Spanned P), (∀ e ∈ sent, e ∈ S) →
        (∀ o ∈ message.ops, ∃ n, (o, n) ∈ sent) → ∀ id payload,
          (deliverAll ds).ops.get? id = some payload →
            (deliverAll (ds' ++ sent)).ops.get? id = some payload := by
  obtain ⟨hg, -⟩ := Gate.run hS hds
  obtain ⟨hg', -⟩ := Gate.run hS hds'
  obtain ⟨message, hm⟩ :=
    ((deliverAll ds).encodeChangesSince_ok_iff (deliverAll ds').stateVector).mpr (fun p => by
      rw [hg.history.2]
      exact Nat.zero_le _)
  refine ⟨message, hm, fun o ho => ?_, fun sent hsent hall id payload hl => ?_⟩
  · obtain ⟨n, hn⟩ := hg.logged _ _ (get?_of_mem_changes hg.sorted.1 hm ho)
    exact ⟨n, hds _ hn⟩
  · have hmem : ∀ e ∈ ds' ++ sent, e ∈ S := List.forall_mem_append.mpr ⟨hds', hsent⟩
    obtain ⟨hr, hset⟩ := Gate.run hS hmem
    -- what the other one has is in the delta, or below the vector and so already there
    have hsub : ∀ e ∈ ds, (deliverAll ds).contains e.1.id = true → e ∈ ds' ++ sent := by
      intro e he hc
      have heS := hds e he
      by_cases hlt : (deliverAll ds').stateVector.seen e.1.id.peer < e.1.id.counter
      · obtain ⟨n, hn⟩ := hall _
          (mem_encodeChangesSince hm (hg.mem_of_contains hS hds heS hc).2 hlt)
        rw [hS.eq_of_id heS (hsent _ hn) rfl]
        exact List.mem_append_right _ hn
      · have hc' := (hg'.contains_iff hS hds' heS).mpr (not_lt.mp hlt)
        exact List.mem_append_left _ (hg'.mem_of_contains hS hds' heS hc').1
    obtain ⟨n, hn, hle⟩ := (hg.get?_eq hS hds id payload).mp hl
    exact (hr.get?_eq hS hmem id payload).mpr
      ⟨n, hn, le_trans hle (hr.seen_le hset hg hsub id.peer)⟩

/-- The asking replica holds an operation back, for want of the one it asks for. -/
theorem pull_complete_waiting : ∃ message,
    (deliverAll [((⟨⟨2, 1⟩, "ab"⟩ : Operation String), 2)]).encodeChangesSince
        (deliverAll [(⟨⟨3, 1⟩, "c"⟩, 1)]).stateVector = .ok message ∧
      (deliverAll [(⟨⟨3, 1⟩, "c"⟩, 1), (⟨⟨2, 1⟩, "ab"⟩, 2)]).ops.get? ⟨2, 1⟩ = some "ab" := by
  obtain ⟨message, hm, -, h⟩ := pull_complete [(⟨⟨2, 1⟩, "ab"⟩, 2)] [(⟨⟨3, 1⟩, "c"⟩, 1)] tiled_two
    (by simp) (by simp)
  refine ⟨message, hm, h [(⟨⟨2, 1⟩, "ab"⟩, 2)] (by simp) (fun o ho => ?_) ⟨2, 1⟩ "ab" rfl⟩
  cases hm
  obtain rfl := List.mem_singleton.mp ho
  exact ⟨2, List.mem_singleton.mpr rfl⟩

end

end SyncState
end MdCrdt
