import MdCrdt.Sync.Log

/- What a pruned log still answers.

  `Reached s applied` is a log on any path of local operations, deliveries,
  promotions and checkpoints, with all the operations it has ever applied (the
  latest first). A checkpoint forgets operations, in the order of their ids and so
  across the peers, while the floor it raises is per peer. What holds through
  every later step is that an operation is still in the log or at or below the
  floor (`Retained`); a delta is encoded only from a vector that reaches the floor,
  so it misses nothing. -/
namespace MdCrdt
open Lib SortedMap StateVector
open List hiding le_trans le_refl not_lt
namespace SyncState
variable {P : Type} {s t : SyncState P} {applied : List (Operation P)} {id : OpId}
variable {op : Operation P}
variable (ids : List OpId)

/-- The states of a log, with the operations applied on the way, the latest first. -/
inductive Reached : SyncState P → List (Operation P) → Prop
  | new : Reached new []
  | addLocalOp {s : SyncState P} {applied : List (Operation P)} (op : Operation P)
      (h : Reached s applied) : Reached (s.addLocalOp op) (op :: applied)
  | applyOne {s : SyncState P} {applied : List (Operation P)} (op : Operation P) (span : Nat)
      (h : Reached s applied) : Reached (s.applyOne op span).1
        (if (s.applyOne op span).2 = .applied then op :: applied else applied)
  | promoteReadyPending {s : SyncState P} {applied : List (Operation P)} (h : Reached s applied) :
      Reached s.promoteReadyPending.1 (s.promoteReadyPending.2.reverse ++ applied)
  | checkpoint {s : SyncState P} {applied : List (Operation P)} (request : CheckpointRequest)
      (h : Reached s applied) : Reached (s.checkpoint request).1 applied

/-- The operation last applied under an id. -/
def lastApplied (applied : List (Operation P)) (id : OpId) : Option (Operation P) :=
  applied.find? (fun op => op.id = id)

/-- What was last applied under an id is in the log, or at or below the floor. -/
def Retained (s : SyncState P) (applied : List (Operation P)) : Prop :=
  ∀ id op, lastApplied applied id = some op →
    s.ops.get? id = some op.payload ∨ id.counter ≤ s.deltaFloor.seen id.peer

/-! ## Applying -/

theorem deltaFloor_record (s : SyncState P) (op) : (s.record op).deltaFloor = s.deltaFloor := by
  simp only [record, observe]
  split <;> rfl

theorem Retained.record (h : Retained s applied) (op) : Retained (s.record op) (op :: applied) := by
  intro id o ho
  rw [ops_record, get?_insert, deltaFloor_record]
  unfold lastApplied at ho
  by_cases hid : op.id = id
  · rw [find?_cons_of_pos (by simpa using hid)] at ho
    rw [if_pos hid.symm, Option.some.inj ho]
    exact .inl rfl
  · rw [find?_cons_of_neg (by simpa using hid)] at ho
    rw [if_neg (Ne.symm hid)]
    exact h id o ho

theorem Retained.promotion {ops} (h : Retained s applied)
    (hp : Promotion s ops t) : Retained t (ops.reverse ++ applied) := by
  induction hp generalizing applied with
  | nil => exact h
  | @cons s t id op n ops hw hr hp ih =>
    have hstep : Retained (s.promote id op) (op :: applied) :=
      Retained.record (s := { s with pending := s.pending.erase id }) h op
    simpa using ih hstep

/-! ## Checkpoints -/

theorem seen_prune (s : SyncState P) (id : OpId) (p) : (s.prune id).deltaFloor.seen p =
    if p = id.peer then max (s.deltaFloor.seen p) id.counter else s.deltaFloor.seen p := by
  simp only [prune, seen_set]
  split
  · next hp => rw [hp]
  · rfl

theorem Retained.prune (h : Retained s applied) (id) : Retained (s.prune id) applied := by
  intro k op hop
  rw [seen_prune]
  by_cases hk : k = id
  · right
    rw [hk, if_pos rfl]
    exact le_max_right _ _
  · rcases h k op hop with hget | hfloor
    · left
      rw [SyncState.prune, get?_erase, if_neg hk, hget]
    · right
      split
      · exact le_trans hfloor (le_max_left _ _)
      · exact hfloor

theorem Retained.pruneAll (h : Retained s applied) :
    Retained (ids.foldl SyncState.prune s) applied :=
  foldlRecOn (motive := (Retained · applied)) ids _ h (fun _ hs id _ => hs.prune id)

/-- The ids that a checkpoint takes off the log: none if it is refused, and otherwise the first
    ones of those that every lease has acknowledged, as many as the log has too many. -/
def prunable (s : SyncState P) (request : CheckpointRequest) : List OpId :=
  let required := s.ops.size - request.maxRetainedOps
  let eligible := s.ops.keys.filter (acknowledged request.activePeerLeases)
  if (firstDuplicate [] request.activePeerLeases).isSome ∨ eligible.length < required ∨
      2 ^ 64 ≤ s.checkpointEpoch + 1 then []
  else eligible.take required

/-- A checkpoint changes nothing, or prunes operations that every lease has acknowledged. -/
theorem checkpoint_cases (s : SyncState P) (request : CheckpointRequest) :
    (s.checkpoint request).1 = s ∨ (∃ report, (s.checkpoint request).2 = .ok report) ∧
      ∃ pruned, pruned = s.prunable request ∧ (∀ id ∈ pruned, s.contains id = true ∧
        acknowledged request.activePeerLeases id = true) ∧ (s.checkpoint request).1 =
          { pruned.foldl prune s with checkpointEpoch := s.checkpointEpoch + 1 } := by
  unfold checkpoint
  split
  · exact .inl rfl
  · next hdup =>
    simp only
    split
    · exact .inl rfl
    · split
      · exact .inl rfl
      · next heligible =>
        split
        · next hepoch =>
          have hpruned : s.prunable request = (s.ops.keys.filter (acknowledged
              request.activePeerLeases)).take (s.ops.size - request.maxRetainedOps) :=
            if_neg (not_or.mpr ⟨by simp [hdup], not_or.mpr ⟨heligible, not_le.mpr hepoch⟩⟩)
          refine .inr ⟨⟨_, rfl⟩, _, hpruned.symm, fun id hid => ?_, rfl⟩
          obtain ⟨hk, hack⟩ := mem_filter.mp (mem_of_mem_take hid)
          exact ⟨contains_iff_mem_keys.mpr hk, hack⟩
        · exact .inl rfl

theorem pending_pruneAll (s : SyncState P) : (ids.foldl prune s).pending = s.pending := by
  induction ids generalizing s with
  | nil => rfl
  | cons id ids ih => exact ih (s.prune id)

theorem pending_checkpoint (s : SyncState P) (request) :
    (s.checkpoint request).1.pending = s.pending := by
  rcases s.checkpoint_cases request with heq | ⟨-, pruned, -, -, heq⟩
  · rw [heq]
  · rw [heq]
    exact pending_pruneAll pruned s

theorem get?_of_pruneAll {ids : List OpId} {s : SyncState P}
    (h : (ids.foldl prune s).ops.get? id = some payload) : s.ops.get? id = some payload := by
  induction ids generalizing s with
  | nil => exact h
  | cons k ids ih => exact (get?_erase_eq_some.mp (ih h)).2

theorem sorted_pruneAll {s : SyncState P} (h : s.ops.Sorted) : (ids.foldl prune s).ops.Sorted :=
  foldlRecOn ids prune h (fun _ hs k _ => sorted_erase hs k)

theorem stateVector_pruneAll (s : SyncState P) :
    (ids.foldl prune s).stateVector = s.stateVector := by
  induction ids generalizing s with
  | nil => rfl
  | cons id ids ih => exact ih (s.prune id)

/-- A checkpoint only takes operations off. -/
theorem get?_of_checkpoint
    (h : (s.checkpoint request).1.ops.get? id = some payload) : s.ops.get? id = some payload := by
  rcases s.checkpoint_cases request with heq | ⟨-, pruned, -, -, heq⟩
  · rwa [heq] at h
  · rw [heq] at h
    exact get?_of_pruneAll h

theorem contains_of_checkpoint
    (h : (s.checkpoint request).1.contains id = true) : s.contains id = true := by
  obtain ⟨payload, hp⟩ := contains_iff_get?.mp h
  exact contains_iff_get?.mpr ⟨payload, get?_of_checkpoint hp⟩

theorem contains_pruneAll (h : s.contains id = true) {ids : List OpId} (hid : id ∉ ids) :
    (ids.foldl prune s).contains id = true := by
  induction ids generalizing s with
  | nil => exact h
  | cons k ids ih =>
    obtain ⟨hne, hrest⟩ := not_or.mp (mem_cons.not.mp hid)
    obtain ⟨payload, hp⟩ := contains_iff_get?.mp h
    exact ih (contains_iff_get?.mpr ⟨payload, get?_erase_eq_some.mpr ⟨hne, hp⟩⟩) hrest

/-- What is not prunable stays. -/
theorem contains_checkpoint (h : s.contains id = true) (hid : id ∉ s.prunable request) :
    (s.checkpoint request).1.contains id = true := by
  rcases s.checkpoint_cases request with heq | ⟨-, pruned, rfl, -, heq⟩
  · rwa [heq]
  · rw [heq]
    exact contains_pruneAll h hid

theorem sorted_checkpoint (h : s.ops.Sorted) (request) : (s.checkpoint request).1.ops.Sorted := by
  rcases s.checkpoint_cases request with heq | ⟨-, pruned, -, -, heq⟩
  · rwa [heq]
  · rw [heq]
    exact sorted_pruneAll pruned h

theorem stateVector_checkpoint (s : SyncState P) (request) :
    (s.checkpoint request).1.stateVector = s.stateVector := by
  rcases s.checkpoint_cases request with heq | ⟨-, pruned, -, -, heq⟩
  · rw [heq]
  · rw [heq]
    exact stateVector_pruneAll pruned s

theorem Retained.checkpoint (h : Retained s applied) (request) :
    Retained (s.checkpoint request).1 applied := by
  rcases s.checkpoint_cases request with heq | ⟨-, pruned, -, -, heq⟩
  · rwa [heq]
  · rw [heq]
    exact h.pruneAll pruned

/-- The floor rises to no more than what the lease has acknowledged. -/
theorem seen_pruneAll_le {lease : PeerLease} {ids : List OpId}
    (hids : ∀ id ∈ ids, id.counter ≤ lease.acknowledged.seen id.peer) (s : SyncState P)
    (p) : (ids.foldl prune s).deltaFloor.seen p ≤
      max (s.deltaFloor.seen p) (lease.acknowledged.seen p) := by
  induction ids generalizing s with
  | nil => exact le_max_left _ _
  | cons id ids ih =>
    have hid := hids id mem_cons_self
    refine le_trans (ih (fun k hk => hids k (mem_cons_of_mem id hk)) (s.prune id)) ?_
    rw [seen_prune]
    split
    · next hp =>
      subst hp
      omega
    · exact le_refl _

/-! ## Runs -/

/-- Along every run, what was applied is retained. -/
theorem Reached.retained (h : Reached s applied) : Retained s applied := by
  induction h with
  | new => simp [Retained, lastApplied]
  | addLocalOp op _ ih => exact ih.record op
  | @applyOne s applied op span _ ih =>
    rcases s.applyOne_cases op span with ⟨-, ha⟩ | ⟨-, ⟨-, ha⟩ | ⟨-, ⟨-, ha⟩ | ⟨-, ha⟩⟩⟩ <;> rw [ha]
    · exact ih
    · exact ih
    · exact ih
    · exact ih.record op
  | promoteReadyPending _ ih => exact ih.promotion (promotion_ready _)
  | checkpoint request _ ih => exact ih.checkpoint request

/-! ## Deltas -/

/-- A delta is encoded from exactly the vectors that reach the floor. -/
theorem encodeChangesSince_ok_iff (s : SyncState P) (since : StateVector) :
    (∃ message, s.encodeChangesSince since = .ok message) ↔
      ∀ p, s.deltaFloor.seen p ≤ since.seen p := by
  unfold encodeChangesSince
  constructor
  · rintro ⟨message, hm⟩ p
    split at hm
    · cases hm
    · next hany =>
      unfold seen at *
      cases hget : s.deltaFloor.get p with
      | none => exact Nat.zero_le _
      | some c =>
        by_contra hlt
        refine hany (any_eq_true.mpr ⟨(p, c), get?_mem hget, ?_⟩)
        simpa using hlt
  · intro hfloor
    rw [if_neg]
    · exact ⟨_, rfl⟩
    · intro hany
      obtain ⟨⟨p, c⟩, hmem, hlt⟩ := any_eq_true.mp hany
      have hget : s.deltaFloor.get p = some c := get?_of_mem s.deltaFloor.sorted hmem
      have hp := hfloor p
      rw [seen, hget] at hp
      exact absurd (of_decide_eq_true hlt) (not_lt.mpr hp)

theorem mem_encodeChangesSince (hm : s.encodeChangesSince since = .ok message)
    (hget : s.ops.get? id = some payload) (hlt : since.seen id.peer < id.counter) :
    ⟨id, payload⟩ ∈ message.ops := by
  unfold encodeChangesSince at hm
  split at hm
  · cases hm
  · cases hm
    exact mem_map.mpr ⟨(id, payload), mem_filter.mpr ⟨get?_mem hget, by simpa using hlt⟩, rfl⟩

theorem id_of_lastApplied (h : lastApplied applied id = some op) : op.id = id := by
  simpa using find?_some h

/-- A delta brings the operation last applied under every id above the vector. -/
theorem Retained.mem_delta (h : Retained s applied) (hm : s.encodeChangesSince since = .ok message)
    (hop : lastApplied applied id = some op) (hlt : since.seen id.peer < id.counter) :
    op ∈ message.ops := by
  have hid := id_of_lastApplied hop
  rcases h id op hop with hget | hfloor
  · rw [← hid] at hget hlt
    exact mem_encodeChangesSince hm hget hlt
  · have hreach := (encodeChangesSince_ok_iff s since).mp ⟨message, hm⟩ id.peer
    omega

theorem exists_lastApplied (h : op ∈ applied) : ∃ o, lastApplied applied op.id = some o := by
  refine Option.isSome_iff_exists.mp (find?_isSome.mpr ⟨op, h, ?_⟩)
  simp

/-- Deltas across checkpoints. A delta that is encoded brings, for every operation ever applied
    above the vector it starts from, the operation last applied under that id: the operation
    itself wherever no other was applied under its id. A checkpoint keeps the deltas from
    vectors that cover what one active lease has acknowledged, and changes nothing when it is
    refused. -/
theorem encodeChangesSince_complete (h : Reached s applied) :
    (∀ since message, s.encodeChangesSince since = .ok message →
      ∀ op ∈ applied, since.seen op.id.peer < op.id.counter →
        (∃ o ∈ message.ops, lastApplied applied op.id = some o) ∧
        ((∀ o ∈ applied, o.id = op.id → o = op) → op ∈ message.ops)) ∧
    (∀ request since, (∃ lease ∈ request.activePeerLeases,
        ∀ p, lease.acknowledged.seen p ≤ since.seen p) →
      (∃ message, s.encodeChangesSince since = .ok message) →
        ∃ message, (s.checkpoint request).1.encodeChangesSince since = .ok message) ∧
    (∀ request error, (s.checkpoint request).2 = .error error → (s.checkpoint request).1 = s) := by
  refine ⟨fun since message hm op hop hlt => ?_, ?_, fun request error he => ?_⟩
  · obtain ⟨o, ho⟩ := exists_lastApplied hop
    have hmem := h.retained.mem_delta hm ho hlt
    refine ⟨⟨o, hmem, ho⟩, fun honly => ?_⟩
    exact honly o (mem_of_find?_eq_some ho) (id_of_lastApplied ho) ▸ hmem
  · rintro request since ⟨lease, hlease, hcovers⟩ hok
    rw [encodeChangesSince_ok_iff] at hok ⊢
    intro p
    rcases s.checkpoint_cases request with heq | ⟨-, pruned, -, hpruned, heq⟩ <;> rw [heq]
    · exact hok p
    · have hack : ∀ id ∈ pruned, id.counter ≤ lease.acknowledged.seen id.peer := fun id hid =>
        of_decide_eq_true (all_eq_true.mp (hpruned id hid).2 lease hlease)
      exact le_trans (seen_pruneAll_le hack s p) (max_le (hok p) (hcovers p))
  · rcases s.checkpoint_cases request with heq | ⟨⟨report, hr⟩, -⟩
    · exact heq
    · rw [hr] at he
      cases he

/-- A log of two operations whose first is pruned: the delta above it still has the second. -/
theorem encodeChangesSince_complete_pruned :
    (((new : SyncState String).addLocalOp ⟨⟨1, 1⟩, "a"⟩).addLocalOp ⟨⟨2, 1⟩, "b"⟩
      |>.checkpoint ⟨1, [⟨2, StateVector.new.set 1 1⟩]⟩).1.contains ⟨1, 1⟩ = false ∧
    ∃ message, (((new : SyncState String).addLocalOp ⟨⟨1, 1⟩, "a"⟩).addLocalOp ⟨⟨2, 1⟩, "b"⟩
      |>.checkpoint ⟨1, [⟨2, StateVector.new.set 1 1⟩]⟩).1.encodeChangesSince
        (StateVector.new.set 1 1) = .ok message ∧ ⟨⟨2, 1⟩, "b"⟩ ∈ message.ops := by
  refine ⟨by decide, _, rfl, ?_⟩
  have h := encodeChangesSince_complete (.checkpoint ⟨1, [⟨2, StateVector.new.set 1 1⟩]⟩
    (.addLocalOp ⟨⟨2, 1⟩, "b"⟩ (.addLocalOp ⟨⟨1, 1⟩, "a"⟩ (.new : Reached (P := String) _ _))))
  refine (h.1 (StateVector.new.set 1 1) _ rfl ⟨⟨2, 1⟩, "b"⟩ mem_cons_self (by decide)).2 ?_
  intro o ho hid
  simp only [mem_cons, not_mem_nil, or_false] at ho
  rcases ho with rfl | rfl
  · rfl
  · cases hid

end SyncState
end MdCrdt
