import MdCrdt.Sync.Promotion

/- What the log of a replica holds.

  `H id payload span` describes the operations that exist. A log that takes in only
  such operations stays sound (`Sound`): everything it has recorded or buffered
  exists, the state vector covers what is recorded, and nothing buffered is
  recorded yet. -/
namespace MdCrdt
open Lib SortedMap
namespace SyncState
variable {P : Type} {H : OpId → P → Nat → Prop} {s s' : SyncState P} {op : Operation P} {n : Nat}

structure Sound (H : OpId → P → Nat → Prop) (s : SyncState P) : Prop where
  sorted : s.ops.Sorted
  logged : ∀ id p, s.ops.get? id = some p → ∃ n, H id p n
  covered : ∀ id, s.contains id = true → s.stateVector.covers id
  waiting : ∀ id o n, s.pending.get? id = some (o, n) →
    o.id = id ∧ H id o.payload n ∧ s.contains id = false
  reached : ∀ p, s.stateVector.seen p = 0 ∨ s.contains ⟨s.stateVector.seen p, p⟩ = true

theorem sound_new : Sound H (new : SyncState P) :=
  ⟨sorted_empty, by simp [new], by simp [new, contains, SortedMap.contains],
    by simp [new], by simp [new]⟩

theorem Sound.mono (h : s.Sound H) (hH : ∀ id p n, H id p n → H' id p n) : s.Sound H' where
  __ := h
  logged id p hp := (h.logged id p hp).imp (fun n hn => hH id p n hn)
  waiting id o n hn := by
    obtain ⟨h1, h2, h3⟩ := h.waiting id o n hn
    exact ⟨h1, hH _ _ _ h2, h3⟩

/-! ## Recording an operation -/

theorem seen_record (op p) : (s.record op).stateVector.seen p =
    if p = op.id.peer then max (s.stateVector.seen p) op.id.counter else s.stateVector.seen p := by
  simp only [record, observe]
  split
  · next h =>
    simp only [StateVector.seen_set]
    split
    · next hp => rw [hp, max_eq_right (le_of_lt h)]
    · rfl
  · next h =>
    split
    · next hp => rw [hp, max_eq_left (not_lt.mp h)]
    · rfl

theorem ops_record (op) : (s.record op).ops = s.ops.insert op.id op.payload := by
  simp only [record, observe]
  split <;> rfl

theorem contains_record (op id) :
    (s.record op).contains id = true ↔ id = op.id ∨ s.contains id = true := by
  simp only [contains, SortedMap.contains, ops_record, get?_insert]
  split
  · next h => simp [h]
  · next h => simp [h]

theorem not_contains_record {id} (hne : id ≠ op.id) (h : s.contains id = false) :
    (s.record op).contains id = false := by
  refine Bool.eq_false_iff.mpr (fun hin => ?_)
  rcases (contains_record op id).mp hin with hid | hin
  · exact hne hid
  · exact Bool.false_ne_true (h.symm.trans hin)

/-- What waits when an operation has been recorded and taken off. -/
theorem pending_of_record {pending : SortedMap OpId (Operation P × Nat)}
    (hp : ∀ k, pending.get? k = if k = op.id then none else s.pending.get? k)
    (hw : (record { s with pending := pending } op).pending.get? k = some w) :
    k ≠ op.id ∧ s.pending.get? k = some w := by
  simp only [pending_record, hp] at hw
  split at hw
  · cases hw
  · next hne => exact ⟨hne, hw⟩

theorem seen_le_record (op p) : s.stateVector.seen p ≤ (s.record op).stateVector.seen p := by
  rw [seen_record]
  split
  · exact le_max_left _ _
  · exact le_refl _

theorem covers_record {id} (op) (h : s.stateVector.covers id) :
    (s.record op).stateVector.covers id :=
  le_trans h (seen_le_record op id.peer)

theorem covers_record_self (op) : (s.record op).stateVector.covers op.id := by
  unfold StateVector.covers
  rw [seen_record, if_pos rfl]
  exact le_max_right _ _

theorem Sound.record (h : s.Sound H) (ho : H op.id op.payload n)
    (hp : s.pending.get? op.id = none) : (s.record op).Sound H where
  sorted := by
    rw [ops_record]
    exact sorted_insert h.sorted _ _
  logged id p hid := by
    rw [ops_record] at hid
    rcases get?_insert_eq_some.mp hid with ⟨rfl, rfl⟩ | ⟨-, hid⟩
    · exact ⟨n, ho⟩
    · exact h.logged id p hid
  covered id hid := by
    rcases (contains_record op id).mp hid with rfl | hid
    · exact covers_record_self op
    · exact covers_record op (h.covered id hid)
  waiting id o m hm := by
    rw [pending_record] at hm
    obtain ⟨h1, h2, h3⟩ := h.waiting id o m hm
    refine ⟨h1, h2, Bool.eq_false_iff.mpr (fun hc => ?_)⟩
    rcases (contains_record op id).mp hc with rfl | hc
    · rw [hp] at hm
      cases hm
    · rw [h3] at hc
      cases hc
  reached p := by
    rw [seen_record]
    split
    · next hpp =>
      rcases le_total op.id.counter (s.stateVector.seen p) with hm | hm
      · rw [max_eq_left hm]
        exact (h.reached p).imp_right (fun hc => (contains_record op _).mpr (.inr hc))
      · rw [max_eq_right hm, contains_record, hpp]
        exact .inr (.inl rfl)
    · exact (h.reached p).imp_right (fun hc => (contains_record op _).mpr (.inr hc))

/-- What a message for another replica carries is in the log. -/
theorem get?_of_mem_changes (hs : s.ops.Sorted) (hm : s.encodeChangesSince since = .ok message)
    (ho : o ∈ message.ops) : s.ops.get? o.id = some o.payload := by
  unfold encodeChangesSince at hm
  split at hm
  · cases hm
  · obtain rfl := Except.ok.inj hm
    obtain ⟨e, he, rfl⟩ := List.mem_map.mp ho
    exact get?_of_mem hs (List.mem_filter.mp he).1

/-- It exists. -/
theorem Sound.mem_changes (h : s.Sound H)
    (hm : s.encodeChangesSince since = .ok message) (ho : o ∈ message.ops) :
    ∃ n, H o.id o.payload n :=
  h.logged _ _ (get?_of_mem_changes h.sorted hm ho)

/-! ## Integrating an operation -/

theorem applyOne_cases (s : SyncState P) (op : Operation P) (n) :
    s.contains op.id = true ∧ s.applyOne op n = (s, .alreadyPresent) ∨
    s.contains op.id = false ∧ ((s.pending.get? op.id).isSome ∧ s.applyOne op n = (s, .buffered) ∨
      s.pending.get? op.id = none ∧ (¬s.Ready op.id n ∧
          s.applyOne op n = ({ s with pending := s.pending.insert op.id (op, n) }, .buffered) ∨
        s.Ready op.id n ∧ s.applyOne op n = (s.record op, .applied))) := by
  unfold applyOne
  by_cases hc : s.ops.contains op.id = true
  · exact .inl ⟨hc, if_pos hc⟩
  · rw [if_neg hc]
    refine .inr ⟨Bool.eq_false_iff.mpr hc, ?_⟩
    by_cases hp : s.pending.contains op.id = true
    · exact .inl ⟨hp, if_pos hp⟩
    · rw [if_neg hp]
      refine .inr ⟨by simpa [SortedMap.contains] using hp, ?_⟩
      by_cases hr : s.Ready op.id n
      · exact .inr ⟨hr, if_neg (not_lt.mpr hr)⟩
      · exact .inl ⟨hr, if_pos (not_le.mp hr)⟩

theorem applyOne_applied (h : s.applyOne op n = (s', .applied)) : s' = s.record op ∧
    s.contains op.id = false ∧ s.pending.get? op.id = none ∧ s.Ready op.id n := by
  rcases s.applyOne_cases op n with ⟨-, he⟩ | ⟨hc, ⟨-, he⟩ | ⟨hp, ⟨-, he⟩ | ⟨hr, he⟩⟩⟩
  all_goals
    obtain ⟨h1, h2⟩ := Prod.mk.inj (he.symm.trans h)
    cases h2
  exact ⟨h1.symm, hc, hp, hr⟩

theorem applyOne_buffered (h : s.applyOne op n = (s', .buffered)) :
    s.contains op.id = false ∧ (s' = s ∧ (s.pending.get? op.id).isSome ∨
      s' = { s with pending := s.pending.insert op.id (op, n) }) := by
  rcases s.applyOne_cases op n with ⟨-, he⟩ | ⟨hc, ⟨hp, he⟩ | ⟨hp, ⟨-, he⟩ | ⟨-, he⟩⟩⟩
  all_goals
    obtain ⟨h1, h2⟩ := Prod.mk.inj (he.symm.trans h)
    cases h2
  · exact ⟨hc, .inl ⟨h1.symm, hp⟩⟩
  · exact ⟨hc, .inr h1.symm⟩

/-- The operation waits, for the first time or again, with what waited before. -/
structure Buffered (s s' : SyncState P) (op : Operation P) : Prop where
  absent : s.contains op.id = false
  ops : s'.ops = s.ops
  pending : ∀ {k o m}, s'.pending.get? k = some (o, m) →
    s.pending.get? k = some (o, m) ∨ k = op.id ∧ o = op
  isSome : ∀ {k}, k = op.id ∨ (s.pending.get? k).isSome → (s'.pending.get? k).isSome
  sorted : s.pending.Sorted → s'.pending.Sorted

theorem buffered (h : s.applyOne op n = (s', .buffered)) : Buffered s s' op := by
  obtain ⟨hc, ⟨rfl, hw⟩ | rfl⟩ := applyOne_buffered h
  · exact ⟨hc, rfl, .inl, fun hk => hk.elim (fun hid => hid ▸ hw) id, id⟩
  · refine ⟨hc, rfl, fun hw => ?_, fun hk => ?_, fun hs => sorted_insert hs _ _⟩
    · rcases get?_insert_eq_some.mp hw with ⟨hid, hv⟩ | ⟨-, hw⟩
      · exact .inr ⟨hid, (Prod.mk.inj hv).1.symm⟩
      · exact .inl hw
    · rw [get?_insert]
      split
      · rfl
      · next hid => exact hk.resolve_left hid

theorem Buffered.contains (h : Buffered s s' op) (k) : s'.contains k = s.contains k := by
  rw [SyncState.contains, h.ops, SyncState.contains]

theorem applyOne_present (h : s.applyOne op n = (s', .alreadyPresent)) :
    s.contains op.id = true ∧ s' = s := by
  rcases s.applyOne_cases op n with ⟨hc, he⟩ | ⟨-, ⟨-, he⟩ | ⟨-, ⟨-, he⟩ | ⟨-, he⟩⟩⟩
  · exact ⟨hc, (Prod.mk.inj (he.symm.trans h)).1.symm⟩
  all_goals cases (Prod.mk.inj (he.symm.trans h)).2

theorem Sound.buffer (h : s.Sound H) (ho : H op.id op.payload n) (hc : s.contains op.id = false) :
    Sound H { s with pending := s.pending.insert op.id (op, n) } where
  __ := h
  waiting id o m hm := by
    rcases get?_insert_eq_some.mp hm with ⟨rfl, hv⟩ | ⟨-, hm⟩
    · obtain ⟨rfl, rfl⟩ := Prod.mk.inj hv
      exact ⟨rfl, ho, hc⟩
    · exact h.waiting id o m hm

theorem Sound.release (h : s.Sound H) (id) : Sound H { s with pending := s.pending.erase id } where
  __ := h
  waiting k o m hm := h.waiting k o m (get?_erase_eq_some.mp hm).2

/-! ## One operation -/

/-- What taking in one operation, from outside or off the buffer, has done to the log. -/
structure Records (H : OpId → P → Nat → Prop) (s s' : SyncState P) (o : Operation P) : Prop where
  sound : s'.Sound H
  fresh : s.contains o.id = false
  contains_iff : ∀ id, s'.contains id = true ↔ s.contains id = true ∨ id = o.id
  still_waiting : ∀ id, (s.pending.get? id).isSome →
    (s'.pending.get? id).isSome ∨ s'.contains id = true

theorem records_record (h : s.Sound H) (hc : s.contains op.id = false)
    (hp : s.pending.get? op.id = none) (hH : H op.id op.payload n) :
    Records H s (s.record op) op where
  sound := h.record hH hp
  fresh := hc
  contains_iff id := by rw [contains_record, or_comm]
  still_waiting id hid := .inl (by rwa [pending_record])

theorem records_promote (h : s.Sound H) {id} (hid : s.pending.get? id = some (op, n)) :
    Records H s (s.promote id op) op := by
  obtain ⟨rfl, hH, hc⟩ := h.waiting id op n hid
  have hrec := records_record (h.release op.id) hc (by simp) hH
  refine ⟨hrec.sound, hc, hrec.contains_iff, fun id hid => ?_⟩
  rw [promote, pending_record, contains_record, get?_erase]
  split
  · next he => exact .inr (.inl he)
  · exact .inl hid

end SyncState
end MdCrdt
