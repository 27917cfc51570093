import MdCrdt.Sync.Gate

/- The gate with 64-bit counters.

  Elsewhere counters are natural numbers. Here the additions of the gate are those of
  the source: `frontier + 1` is a plain addition on `u64`, which stops the program (or
  wraps around) when it overflows, and is `none`.

  An addition overflows when the frontier of a peer has reached the last counter and
  another operation of that peer is looked at. `HasRoom` says of a state, and of the ids
  that are about to come, that this cannot happen: a peer whose frontier may rise has not
  reached the last counter, and where one of its operations carries that counter, it is
  the only one that is still to enter the log.

  Correspondence (Rust ↔ Lean):
    `frontier + 1` in `apply_one`, in `promote_ready_pending` ↔ `addU64`
    `apply_one`, `promote_ready_pending` ↔ `applyOne64`, `promoteReadyPending64` -/
namespace MdCrdt
open Lib Option SortedMap
open List hiding le_trans le_refl not_le

/-- `a + b` on `u64`, nothing where it overflows. -/
def addU64 (a b : Nat) : Option Nat := if a + b ≤ u64Max then some (a + b) else none

theorem addU64_one (h : a < u64Max) : addU64 a 1 = some (a + 1) := if_pos h

namespace SyncState
variable {P : Type}

/-! ## The additions of the source -/

def applyOne64 (s : SyncState P) (op : Operation P) (span : Nat) :
    Option (SyncState P × IntegrateResult) :=
  if s.ops.contains op.id then some (s, .alreadyPresent)
  else if s.pending.contains op.id then some (s, .buffered)
  else do
    let next ← addU64 (s.maxAppliedCounter op.id.peer) 1
    if next < spanStart op.id.counter span then
      some ({ s with pending := s.pending.insert op.id (op, span) }, .buffered)
    else some (s.record op, .applied)

def promotePass64 (s : SyncState P) : List OpId → Option (SyncState P × List (Operation P))
  | [] => some (s, [])
  | opId :: rest => do
    let next ← addU64 (s.maxAppliedCounter opId.peer) 1
    match s.pending.get? opId with
    | some (op, span) =>
      if spanStart opId.counter span ≤ next then
        let (s', promoted) ← ({ s with pending := s.pending.erase opId }.record op).promotePass64 rest
        some (s', op :: promoted)
      else s.promotePass64 rest
    | none => s.promotePass64 rest

def promoteLoop64 : Nat → SyncState P → Option (SyncState P × List (Operation P))
  | 0, s => some (s, [])
  | n + 1, s => do
    match ← s.promotePass64 s.pending.keys with
    | (s', []) => some (s', [])
    | (s', promoted) =>
      let (s'', more) ← promoteLoop64 n s'
      some (s'', promoted ++ more)

def promoteReadyPending64 (s : SyncState P) : Option (SyncState P × List (Operation P)) :=
  promoteLoop64 (s.pending.size + 1) s

/-- Take in one operation and promote what has become ready. -/
def deliver64 (s : SyncState P) (e : Spanned P) : Option (SyncState P) := do
  match ← s.applyOne64 e.1 e.2 with
  | (s', .applied) => (← s'.promoteReadyPending64).1
  | (s', .buffered) => s'
  | (s', .alreadyPresent) => s'

/-! ## Room for what is still to come -/

/-- What the types of the source say of the buffer: it is sorted, an operation waits under its own
    id, and its counter is a `u64`. -/
structure Buffer64 (s : SyncState P) : Prop where
  sorted : s.pending.Sorted
  waiting : ∀ id op n, s.pending.get? id = some (op, n) → op.id = id ∧ id.counter ≤ u64Max

/-- An id that may still enter the log: it waits, or it is about to come and not in the log. -/
def Open (ids : List OpId) (s : SyncState P) (id : OpId) : Prop :=
  (id ∈ ids ∧ s.contains id = false) ∨ (s.pending.get? id).isSome

/-- A peer whose frontier may rise: an operation of it is about to come that is neither in the log
    nor waiting, or one that waits is ready. -/
def Rises (ids : List OpId) (s : SyncState P) (peer : Nat) : Prop :=
  (∃ id ∈ ids, s.contains id = false ∧ s.pending.get? id = none ∧ id.peer = peer) ∨
    ∃ id op n, s.pending.get? id = some (op, n) ∧ s.Ready id n ∧ id.peer = peer

/-- The frontier of a peer that rises is below the last counter, and so is every operation of the
    peer, unless it is the only one that may still enter the log. -/
def HasRoom (ids : List OpId) (s : SyncState P) : Prop :=
  ∀ a, Open ids s a → Rises ids s a.peer → s.stateVector.seen a.peer < u64Max ∧
    ∀ b, Open ids s b → b.peer = a.peer → b ≠ a → b.counter < u64Max

/-- `HasRoom` as it is kept while a message is taken in: the peers that rise are fixed when it
    comes. -/
structure Room (rises : Nat → Prop) (ids : List OpId) (s : SyncState P) : Prop extends
    Buffer64 s where
  ready : ∀ id op n, s.pending.get? id = some (op, n) → s.Ready id n → rises id.peer
  fresh : ∀ id ∈ ids, s.contains id = false → s.pending.get? id = none → rises id.peer
  below : ∀ a, Open ids s a → rises a.peer → s.stateVector.seen a.peer < u64Max
  alone : ∀ a b, Open ids s a → Open ids s b → rises a.peer → b.peer = a.peer → b ≠ a →
    b.counter < u64Max

variable {s : SyncState P} {ids : List OpId} {rises : Nat → Prop} {op : Operation P} {id : OpId}

theorem HasRoom.room (h : HasRoom ids s) (hs : Buffer64 s) : Room (Rises ids s) ids s where
  toBuffer64 := hs
  ready id op n hw hr := .inr ⟨id, op, n, hw, hr, rfl⟩
  fresh id hid hc hp := .inl ⟨id, hid, hc, hp, rfl⟩
  below a ha hrises := (h a ha hrises).1
  alone a b ha hb hrises := (h a ha hrises).2 b hb

namespace Room

/-- The frontier behind which an operation waits has not reached the last counter: either it
    rises, or it is short of the operation. -/
theorem seen_lt (h : Room rises ids s) (hw : s.pending.get? id = some (op, n)) :
    s.stateVector.seen id.peer < u64Max := by
  by_cases hr : s.Ready id n
  · have hopen : Open ids s id := .inr (by rw [hw]; rfl)
    exact h.below id hopen (h.ready id op n hw hr)
  · have hle := (h.waiting id op n hw).2
    have hstart : spanStart id.counter n ≤ id.counter := Nat.sub_le _ _
    have hnot := not_le.mp hr
    omega

/-- An operation of a peer that rises enters the log and waits no longer. -/
theorem enter {t : SyncState P} (h : Room rises ids s) (hopen : Open ids s op.id)
    (hrises : rises op.id.peer) (hsorted : t.pending.Sorted)
    (hpending : ∀ k, t.pending.get? k = if k = op.id then none else s.pending.get? k)
    (hcontains : ∀ k, t.contains k = true ↔ k = op.id ∨ s.contains k = true)
    (hseen : ∀ p, t.stateVector.seen p =
      if p = op.id.peer then max (s.stateVector.seen p) op.id.counter else s.stateVector.seen p) :
    Room rises ids t := by
  have hwaits : ∀ k o n, t.pending.get? k = some (o, n) → s.pending.get? k = some (o, n) := by
    intro k o n hk
    rw [hpending] at hk
    split at hk
    · cases hk
    · exact hk
  have hunknown : ∀ k, t.contains k = false → k ≠ op.id ∧ s.contains k = false := by
    intro k hk
    rw [← Bool.not_eq_true, hcontains, not_or, Bool.not_eq_true] at hk
    exact hk
  -- what may still enter the log might have before, and is another operation
  have hstill : ∀ k, Open ids t k → k ≠ op.id ∧ Open ids s k := by
    rintro k (⟨hk, hc⟩ | hk)
    · exact ⟨(hunknown k hc).1, .inl ⟨hk, (hunknown k hc).2⟩⟩
    · rw [hpending] at hk
      split at hk
      · cases hk
      · next hne => exact ⟨hne, .inr hk⟩
  refine ⟨⟨hsorted, fun k o n hk => h.waiting k o n (hwaits k o n hk)⟩, ?_, ?_, ?_, ?_⟩
  · intro k o n hk hr
    rw [Ready, hseen] at hr
    split at hr
    · next hp => exact hp ▸ hrises
    · exact h.ready k o n (hwaits k o n hk) hr
  · intro k hk hc hp
    obtain ⟨hne, hc⟩ := hunknown k hc
    rw [hpending, if_neg hne] at hp
    exact h.fresh k hk hc hp
  · intro k hk hr
    obtain ⟨hne, hk⟩ := hstill k hk
    have hlt := h.below k hk hr
    rw [hseen]
    split
    · next hp => exact max_lt hlt (h.alone k op.id hk hopen hr hp.symm hne.symm)
    · exact hlt
  · exact fun a b ha hb => h.alone a b (hstill a ha).2 (hstill b hb).2

theorem record (h : Room rises ids s) (hid : op.id ∈ ids) (hc : s.contains op.id = false)
    (hp : s.pending.get? op.id = none) : Room rises ids (s.record op) := by
  refine h.enter (.inl ⟨hid, hc⟩) (h.fresh op.id hid hc hp) ?_ ?_ (contains_record op)
    (seen_record op)
  · rw [pending_record]
    exact h.sorted
  · intro k
    rw [pending_record]
    split
    · next hk => rw [hk, hp]
    · rfl

theorem promote (h : Room rises ids s) (hw : s.pending.get? op.id = some (op, n))
    (hr : s.Ready op.id n) : Room rises ids (s.promote op.id op) := by
  refine h.enter (.inr (by rw [hw]; rfl)) (h.ready _ op n hw hr) ?_ ?_ (contains_record op)
    (seen_record op)
  · rw [SyncState.promote, pending_record]
    exact sorted_erase h.sorted op.id
  · intro k
    rw [SyncState.promote, pending_record]
    exact get?_erase s.pending op.id k

/-- An operation that is not ready waits. -/
theorem wait (h : Room rises ids s) (hid : op.id ∈ ids) (hle : op.id.counter ≤ u64Max)
    (hc : s.contains op.id = false) (hr : ¬s.Ready op.id n) :
    Room rises ids { s with pending := s.pending.insert op.id (op, n) } := by
  have hstill : ∀ k, Open ids { s with pending := s.pending.insert op.id (op, n) } k →
      Open ids s k := by
    rintro k (hk | hk)
    · exact .inl hk
    · dsimp only at hk
      rw [get?_insert] at hk
      split at hk
      · next he => exact .inl ⟨he ▸ hid, he ▸ hc⟩
      · exact .inr hk
  refine ⟨⟨sorted_insert h.sorted _ _, ?_⟩, ?_, ?_, fun a ha => h.below a (hstill a ha),
    fun a b ha hb => h.alone a b (hstill a ha) (hstill b hb)⟩
  · intro k o m hk
    rcases get?_insert_eq_some.mp hk with ⟨rfl, hv⟩ | ⟨-, hk⟩
    · obtain ⟨rfl, -⟩ := Prod.mk.inj hv
      exact ⟨rfl, hle⟩
    · exact h.waiting k o m hk
  · intro k o m hk hready
    rcases get?_insert_eq_some.mp hk with ⟨rfl, hv⟩ | ⟨-, hk⟩
    · obtain ⟨-, rfl⟩ := Prod.mk.inj hv
      exact absurd hready hr
    · exact h.ready k o m hk hready
  · intro k hk hck hpk
    dsimp only at hpk
    rw [get?_insert] at hpk
    split at hpk
    · cases hpk
    · exact h.fresh k hk hck hpk

/-! ## The additions do not overflow -/

theorem promotePass64_eq {keys : List OpId} (h : Room rises ids s)
    (hkeys : ∀ id ∈ keys, (s.pending.get? id).isSome) (hnodup : keys.Nodup) :
    s.promotePass64 keys = some (s.promotePass keys) ∧ Room rises ids (s.promotePass keys).1 := by
  induction keys generalizing s with
  | nil => exact ⟨rfl, h⟩
  | cons id keys ih =>
    obtain ⟨⟨op, n⟩, hw⟩ := isSome_iff_exists.mp (hkeys id mem_cons_self)
    obtain ⟨rfl, -⟩ := h.waiting id op n hw
    have hadd : addU64 (s.maxAppliedCounter op.id.peer) 1 =
        some (s.maxAppliedCounter op.id.peer + 1) := addU64_one (h.seen_lt hw)
    obtain ⟨hnot, hnodup⟩ := nodup_cons.mp hnodup
    have hkeys' : ∀ k ∈ keys, (s.pending.get? k).isSome := fun k hk => hkeys k (mem_cons_of_mem _ hk)
    rw [promotePass64, promotePass, hadd]
    simp only [hw, bind_eq_bind, bind_some]
    split
    · next hready =>
      have hstill : ∀ k ∈ keys, ((s.promote op.id op).pending.get? k).isSome := fun k hk => by
        have hne : k ≠ op.id := fun he => hnot (he ▸ hk)
        rw [SyncState.promote, pending_record, get?_erase, if_neg hne]
        exact hkeys' k hk
      obtain ⟨hnext, hroom⟩ := ih (h.promote hw hready) hstill hnodup
      rw [SyncState.promote] at hnext hroom
      rw [hnext]
      exact ⟨rfl, hroom⟩
    · exact ih h hkeys' hnodup

theorem promoteLoop64_eq (h : Room rises ids s) (k : Nat) :
    promoteLoop64 k s = some (promoteLoop k s) ∧ Room rises ids (promoteLoop k s).1 := by
  induction k generalizing s with
  | zero => exact ⟨rfl, h⟩
  | succ k ih =>
    obtain ⟨hpass, hroom⟩ := h.promotePass64_eq
      (fun id => contains_iff_mem_keys.mpr) (nodup_keys h.sorted)
    rw [promoteLoop64, promoteLoop, hpass]
    cases heq : s.promotePass s.pending.keys with
    | mk s' promoted =>
      rw [heq] at hroom
      cases promoted with
      | nil => exact ⟨rfl, hroom⟩
      | cons op promoted =>
        obtain ⟨hloop, hend⟩ := ih hroom
        simp only [bind_eq_bind, bind_some, hloop]
        exact ⟨trivial, hend⟩

/-- The gate adds to the frontier unless the operation is known already. -/
theorem applyOne64_eq (s : SyncState P) (op : Operation P) (n)
    (h : s.contains op.id = true ∨ (s.pending.get? op.id).isSome ∨
      s.stateVector.seen op.id.peer < u64Max) :
    s.applyOne64 op n = some (s.applyOne op n) := by
  unfold applyOne64 applyOne
  by_cases hc : s.ops.contains op.id = true
  · rw [if_pos hc, if_pos hc]
  · rw [if_neg hc, if_neg hc]
    by_cases hp : s.pending.contains op.id = true
    · rw [if_pos hp, if_pos hp]
    · have hlt := (h.resolve_left hc).resolve_left hp
      rw [if_neg hp, if_neg hp, maxAppliedCounter, addU64_one hlt]
      simp only [bind_eq_bind, bind_some]
      split <;> rfl

/-- **One delivery.** Where there is room, the additions of a delivery do not overflow, and there
    is room for the next one. -/
theorem deliver64_eq (h : Room rises ids s) (hid : e.1.id ∈ ids) (hle : e.1.id.counter ≤ u64Max) :
    s.deliver64 e = some (s.deliver e) ∧ Room rises ids (s.deliver e) := by
  rw [deliver64, deliver]
  rcases s.applyOne_cases e.1 e.2 with ⟨hc, ha⟩ | ⟨hc, ⟨hp, ha⟩ | ⟨hp, ⟨hr, ha⟩ | ⟨hr, ha⟩⟩⟩
  · rw [applyOne64_eq s e.1 e.2 (.inl hc), ha]
    exact ⟨rfl, h⟩
  · rw [applyOne64_eq s e.1 e.2 (.inr (.inl hp)), ha]
    exact ⟨rfl, h⟩
  · have hlt := h.below e.1.id (.inl ⟨hid, hc⟩) (h.fresh e.1.id hid hc hp)
    rw [applyOne64_eq s e.1 e.2 (.inr (.inr hlt)), ha]
    exact ⟨rfl, h.wait hid hle hc hr⟩
  · have hlt := h.below e.1.id (.inl ⟨hid, hc⟩) (h.fresh e.1.id hid hc hp)
    obtain ⟨hloop, hroom⟩ := (h.record hid hc hp).promoteLoop64_eq ((s.record e.1).pending.size + 1)
    rw [applyOne64_eq s e.1 e.2 (.inr (.inr hlt)), ha]
    simp only [bind_eq_bind, bind_some, promoteReadyPending64, hloop]
    exact ⟨rfl, hroom⟩

/-- Deliveries one after the other. -/
theorem foldlM_deliver64 (ds : List (Spanned P)) (h : Room rises ids s)
    (hds : ∀ e ∈ ds, e.1.id ∈ ids ∧ e.1.id.counter ≤ u64Max) :
    ds.foldlM deliver64 s = some (ds.foldl deliver s) ∧ Room rises ids (ds.foldl deliver s) := by
  induction ds generalizing s with
  | nil => exact ⟨rfl, h⟩
  | cons e ds ih =>
    obtain ⟨hid, hle⟩ := hds e mem_cons_self
    obtain ⟨hdeliver, hroom⟩ := h.deliver64_eq hid hle
    rw [foldlM_cons, foldl_cons, hdeliver]
    exact ih hroom (fun e he => hds e (mem_cons_of_mem _ he))

end Room

end SyncState
end MdCrdt
