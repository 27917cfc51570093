import MdCrdt.Core.OpId

/- The operation log of a replica (`sync/mod.rs`, `sync/validation.rs`).

  Payloads are opaque here. An operation covers a range of counters of its peer
  that ends at its id; it is applied once the counters below the range have been
  seen, and waits in `pending` until then.

  A checkpoint prunes the log: it takes operations off that every active lease has
  acknowledged, and raises the delta floor of their peers, below which no delta is
  encoded any more.

  Correspondence (Rust ↔ Lean):
    the `while` loop of `promote_ready_pending`, one pass over the ids
      ↔ `promoteLoop`, `promotePass`
    the loop of `checkpoint` over the leases, over the pruned ids
      ↔ `firstDuplicate`, `prune`
  The outbox and the sent set are not modelled: they only name what is still to be
  sent. -/
namespace MdCrdt
open Lib

structure Operation (P : Type) where
  id : OpId
  payload : P

structure ChangeMessage (P : Type) where
  since : StateVector
  ops : List (Operation P)

/-- A peer that deltas are kept for, and what it has acknowledged. -/
structure PeerLease where
  peer : PeerId
  acknowledged : StateVector

structure CheckpointRequest where
  maxRetainedOps : Nat
  activePeerLeases : List PeerLease

structure CheckpointReport where
  checkpointEpoch : Nat
  prunedOps : Nat
  retainedOps : Nat
  deltaFloor : StateVector

inductive CheckpointError where
  | duplicatePeerLease (peer : PeerId)
  | retentionBlocked (requiredPrune eligiblePrune : Nat)
  | epochOverflow
  deriving DecidableEq, Repr

/-- The answer to a peer that is behind the last checkpoint. -/
structure RebaseRequired where
  checkpointEpoch : Nat
  deltaFloor : StateVector

inductive IntegrateResult where
  | alreadyPresent | buffered | applied
  deriving DecidableEq, Repr

structure SyncState (P : Type) where
  ops : SortedMap OpId P
  stateVector : StateVector
  pending : SortedMap OpId (Operation P × Nat)
  checkpointEpoch : Nat
  deltaFloor : StateVector

namespace SyncState
variable {P : Type}

def new : SyncState P :=
  ⟨.empty, .new, .empty, 0, .new⟩

def contains (s : SyncState P) (id : OpId) : Bool := s.ops.contains id

/-- Raise the counter seen of the peer to that of `id`. -/
def observe (s : SyncState P) (id : OpId) : SyncState P :=
  if s.stateVector.seen id.peer < id.counter then
    { s with stateVector := s.stateVector.set id.peer id.counter }
  else s

def maxAppliedCounter (s : SyncState P) (peer : PeerId) : Nat := s.stateVector.seen peer

/-- The first counter an operation covers. -/
def spanStart (idCounter span : Nat) : Nat := idCounter - (span - 1)

/-- Observe an operation and write it to the log. -/
def record (s : SyncState P) (op : Operation P) : SyncState P :=
  let s := s.observe op.id
  { s with ops := s.ops.insert op.id op.payload }

def applyOne (s : SyncState P) (op : Operation P) (span : Nat) : SyncState P × IntegrateResult :=
  if s.ops.contains op.id then (s, .alreadyPresent)
  else if s.pending.contains op.id then (s, .buffered)
  else if s.maxAppliedCounter op.id.peer + 1 < spanStart op.id.counter span then
    ({ s with pending := s.pending.insert op.id (op, span) }, .buffered)
  else (s.record op, .applied)

/-- One pass over the ids that waited when it began. -/
def promotePass (s : SyncState P) : List OpId → SyncState P × List (Operation P)
  | [] => (s, [])
  | opId :: rest =>
    match s.pending.get? opId with
    | some (op, span) =>
      if spanStart opId.counter span ≤ s.maxAppliedCounter opId.peer + 1 then
        let s := { s with pending := s.pending.erase opId }
        let (s', promoted) := (s.record op).promotePass rest
        (s', op :: promoted)
      else s.promotePass rest
    | none => s.promotePass rest

/-- Passes until one promotes nothing; every other pass takes an operation off the buffer. -/
def promoteLoop : Nat → SyncState P → SyncState P × List (Operation P)
  | 0, s => (s, [])
  | n + 1, s =>
    match s.promotePass s.pending.keys with
    | (s', []) => (s', [])
    | (s', promoted) =>
      let (s'', more) := promoteLoop n s'
      (s'', promoted ++ more)

def promoteReadyPending (s : SyncState P) : SyncState P × List (Operation P) :=
  promoteLoop (s.pending.size + 1) s

/-- The operations of the log above a state vector, in the order of their ids. Refused where
    the log has been pruned above the vector. -/
def encodeChangesSince (s : SyncState P) (since : StateVector) :
    Except RebaseRequired (ChangeMessage P) :=
  if s.deltaFloor.peers.entries.any (fun e => since.seen e.1 < e.2) then
    .error ⟨s.checkpointEpoch, s.deltaFloor⟩
  else
    .ok ⟨since, (s.ops.entries.filter (fun e => since.seen e.1.peer < e.1.counter)).map
      (fun e => ⟨e.1, e.2⟩)⟩

/-! ## Checkpoints -/

/-- The first peer that is named by two leases. -/
def firstDuplicate (leased : List PeerId) : List PeerLease → Option PeerId
  | [] => none
  | lease :: rest =>
    if lease.peer ∈ leased then some lease.peer else firstDuplicate (lease.peer :: leased) rest

/-- Every lease has acknowledged the operation. -/
def acknowledged (leases : List PeerLease) (id : OpId) : Bool :=
  leases.all (fun lease => id.counter ≤ lease.acknowledged.seen id.peer)

/-- Take an operation off the log and raise the floor of its peer. -/
def prune (s : SyncState P) (id : OpId) : SyncState P :=
  { s with ops := s.ops.erase id,
           deltaFloor := s.deltaFloor.set id.peer (max (s.deltaFloor.seen id.peer) id.counter) }

def checkpoint (s : SyncState P) (request : CheckpointRequest) :
    SyncState P × Except CheckpointError CheckpointReport :=
  match firstDuplicate [] request.activePeerLeases with
  | some peer => (s, .error (.duplicatePeerLease peer))
  | none =>
    let requiredPrune := s.ops.size - request.maxRetainedOps
    if requiredPrune = 0 then
      (s, .ok ⟨s.checkpointEpoch, 0, s.ops.size, s.deltaFloor⟩)
    else
      let eligible := s.ops.keys.filter (acknowledged request.activePeerLeases)
      if eligible.length < requiredPrune then
        (s, .error (.retentionBlocked requiredPrune eligible.length))
      else
        let pruned := eligible.take requiredPrune
        if s.checkpointEpoch + 1 < 2 ^ 64 then
          let s' := { pruned.foldl prune s with checkpointEpoch := s.checkpointEpoch + 1 }
          (s', .ok ⟨s'.checkpointEpoch, pruned.length, s'.ops.size, s'.deltaFloor⟩)
        else (s, .error .epochOverflow)

/-! ## Persistence -/

def appliedOps (s : SyncState P) : List (Operation P) := s.ops.entries.map (fun e => ⟨e.1, e.2⟩)

/-- Waiting operations; their spans are computed anew on restore. -/
def pendingOps (s : SyncState P) : List (Operation P) :=
  s.pending.entries.map (fun e => ⟨e.1, e.2.1.payload⟩)

def restoreApplied (s : SyncState P) (ops : List (Operation P)) : SyncState P :=
  ops.foldl record s

def restorePending (s : SyncState P) (ops : List (Operation P × Nat)) : SyncState P :=
  ops.foldl (fun s e => if s.ops.contains e.1.id then s
    else { s with pending := s.pending.insert e.1.id e }) s

def restoreHistory (s : SyncState P) (stateVector : StateVector) (checkpointEpoch : Nat)
    (deltaFloor : StateVector) : SyncState P :=
  { s with stateVector := stateVector, checkpointEpoch := checkpointEpoch, deltaFloor := deltaFloor }

def pendingCount (s : SyncState P) : Nat := s.pending.size

def addLocalOp (s : SyncState P) (op : Operation P) : SyncState P := s.record op

end SyncState

/-! ## Validation -/

inductive MalformedKind where
  | emptyPayload | zeroCounter
  deriving DecidableEq, Repr

inductive ValidationError where
  | malformedOperation (opId : OpId) (kind : MalformedKind)
  | resourceLimitExceeded (limit actual : Nat)
  | bufferFull (capacity : Nat)
  deriving Repr

structure ValidationLimits where
  maxOpsPerMessage : Nat
  maxPayloadBytes : Nat
  maxPendingBuffer : Nat
  deriving DecidableEq, Repr

def ValidationLimits.default : ValidationLimits := ⟨10000, 10 * 1024 * 1024, 100000⟩

def validateOps {P : Type} (length : P → Nat) : List (Operation P) → Except ValidationError Unit
  | [] => .ok ()
  | op :: rest =>
    if length op.payload = 0 then .error (.malformedOperation op.id .emptyPayload)
    else if op.id.counter = 0 then .error (.malformedOperation op.id .zeroCounter)
    else validateOps length rest

def validateChanges {P : Type} (length : P → Nat) (message : ChangeMessage P)
    (limits : ValidationLimits) (pendingCount : Nat) : Except ValidationError Unit :=
  if limits.maxOpsPerMessage < message.ops.length then
    .error (.resourceLimitExceeded limits.maxOpsPerMessage message.ops.length)
  else
    let totalPayload := (message.ops.map (fun op => length op.payload)).sum
    if limits.maxPayloadBytes < totalPayload then
      .error (.resourceLimitExceeded limits.maxPayloadBytes totalPayload)
    else if limits.maxPendingBuffer < pendingCount + message.ops.length then
      .error (.bufferFull limits.maxPendingBuffer)
    else validateOps length message.ops

end MdCrdt
