import MdCrdt.Session.Extents
import MdCrdt.Session.Integration
import MdCrdt.Sync.Overflow

/- Messages with 64-bit counters.

  What a session hands to the gate is computed with saturating additions: the largest id
  that an operation embeds, and the counters it covers. Only the gate adds to a frontier
  without a check (`Sync.Overflow`). So messages with any ids and payloads are taken in
  without an overflow as long as each of them finds room for the ids it brings.

  Correspondence (Rust ↔ Lean):
    the checks of `apply_remote`, its use of the gate ↔ `prepareOps64`, `receive64`
  The document and the deferred envelopes play no part in the gate. How many envelopes a
  session has deferred, which is counted against the limits, comes with the message. -/
namespace MdCrdt
open Lib Serde SyncState
open List hiding le_refl

section Segmentation
variable [Segmentation]

/-! ## Messages -/

section Messages
variable [Serde]

/-- The checks of `apply_remote` on the operations that are new to the log. -/
abbrev prepareOps64 : Bool → SyncState Payload → List (Operation Payload) →
    Except SessionError (List (Operation Payload × Envelope)) :=
  Session.prepareOpsBy operationExtent64

/-- A message, the limits it is checked against and the number of deferred envelopes. -/
structure Incoming [Serde] where
  message : ChangeMessage Payload
  limits : ValidationLimits
  deferredCount : Nat

/-- The operations that a message hands to the gate: none where it is refused. -/
def Incoming.accepted (unitMode : Bool) (sync : SyncState Payload) (m : Incoming) :
    List (Spanned Payload) :=
  match validateChanges Serde.length m.message m.limits (sync.pendingCount + m.deferredCount) with
  | .error _ => []
  | .ok () => match prepareOps64 unitMode sync m.message.ops with
    | .error _ => []
    | .ok prepared => prepared.map (fun p => (p.1, (operationExtent64 p.2).2))

/-- The log after a message, nothing if an addition has overflowed. -/
def receive64 (unitMode : Bool) (sync : SyncState Payload) (m : Incoming) :
    Option (SyncState Payload) :=
  (m.accepted unitMode sync).foldlM deliver64 sync

/-- The log after a message if additions had no bound. -/
def receive (unitMode : Bool) (sync : SyncState Payload) (m : Incoming) : SyncState Payload :=
  (m.accepted unitMode sync).foldl deliver sync

/-- Each message finds room for the ids it brings. -/
def RoomForAll (unitMode : Bool) : SyncState Payload → List Incoming → Prop
  | _, [] => True
  | sync, m :: rest =>
    sync.HasRoom (m.message.ops.map Operation.id) ∧ RoomForAll unitMode (receive unitMode sync m) rest

variable {unitMode : Bool} {sync : SyncState Payload}

theorem mem_accepted {m : Incoming} (h : e ∈ m.accepted unitMode sync) : e.1 ∈ m.message.ops := by
  unfold Incoming.accepted at h
  split at h
  · cases h
  · split at h
    · cases h
    · next prepared hp =>
      obtain ⟨p, hpm, rfl⟩ := mem_map.mp h
      exact (Session.prepareOpsBy_checked hp p hpm).1

/-- One message. Where there is room for the ids it brings, no addition overflows. -/
theorem receive64_eq {m : Incoming} (hs : sync.Buffer64)
    (hm : ∀ op ∈ m.message.ops, op.id.counter ≤ u64Max)
    (hroom : sync.HasRoom (m.message.ops.map Operation.id)) :
    receive64 unitMode sync m = some (receive unitMode sync m) ∧
      (receive unitMode sync m).Buffer64 := by
  obtain ⟨hfold, hend⟩ := (hroom.room hs).foldlM_deliver64 (m.accepted unitMode sync)
    (fun e he => ⟨mem_map_of_mem (mem_accepted he), hm e.1 (mem_accepted he)⟩)
  exact ⟨hfold, hend.toBuffer64⟩

/-- **When messages do not overflow the gate.** Messages with any ids and payloads are taken in
    one after the other without an overflow, as long as each of them finds room for the ids it
    brings. -/
theorem receiveAll64_of_room (unitMode : Bool) (sync : SyncState Payload)
    (messages : List Incoming) (hs : sync.Buffer64)
    (hm : ∀ m ∈ messages, ∀ op ∈ m.message.ops, op.id.counter ≤ u64Max)
    (hroom : RoomForAll unitMode sync messages) :
    messages.foldlM (receive64 unitMode) sync = some (messages.foldl (receive unitMode) sync) := by
  induction messages generalizing sync with
  | nil => rfl
  | cons m rest ih =>
    obtain ⟨hfirst, hrest⟩ := hroom
    obtain ⟨h64, hbuffer⟩ := receive64_eq hs (hm m mem_cons_self) hfirst
    rw [foldlM_cons, foldl_cons, h64]
    exact ih _ hbuffer (fun m' h => hm m' (mem_cons_of_mem _ h)) hrest

/-! ### The session -/

namespace Session

/-- How many envelopes a session has deferred. -/
def deferredCount (s : Session) : Nat :=
  (s.pendingEnvelopes.keys.filter (fun id => s.sync.contains id)).length

/-- Below the last counter, the checks are those of the session. -/
theorem prepareOps64_eq (s : Session) {ops} (hops : ∀ op ∈ ops, op.id.counter < u64Max) :
    prepareOps64 s.unitMode s.sync ops = s.prepareOps ops := by
  induction ops with
  | nil => rfl
  | cons op rest ih =>
    have hlt := hops op mem_cons_self
    have hmax : ∀ env, (op.id ≠ (operationExtent64 env).1) = (op.id ≠ (operationExtent env).1) :=
      fun env => by rw [ne_eq, ne_eq, isMax64_iff hlt env]
    have hrest : prepareOpsBy operationExtent64 s.unitMode s.sync rest =
        prepareOpsBy operationExtent s.unitMode s.sync rest :=
      ih (fun o ho => hops o (mem_cons_of_mem _ ho))
    rw [prepareOps64, prepareOps, prepareOpsBy, prepareOpsBy, hrest]
    simp only [hmax]

theorem drainPromoted_sync {s : Session} (result) (hd : PendingDecodes s.sync) :
    ∃ s' result', s.drainPromoted result = (s', .ok result') ∧
      s'.sync = s.sync.promoteReadyPending.1 ∧ PendingDecodes s'.sync := by
  obtain ⟨hd', hops⟩ := hd.promotion (promotion_ready s.sync)
  obtain ⟨result', hok, -, hsync⟩ := @Integration.applyPromoted _ _ _
    { s with sync := s.sync.promoteReadyPending.1 } result _ integration_trivial _ hops trivial
  exact ⟨_, result', Prod.ext rfl hok, hsync, hsync ▸ hd'⟩

/-- The log after the operations of a message is the one that the gate makes of them. -/
theorem integrateOps_sync {s : Session} {result}
    {prepared : List (Operation Payload × Envelope)} (hd : PendingDecodes s.sync)
    (hp : ∀ p ∈ prepared, decode p.1.payload = .ok p.2) : (s.integrateOps result prepared).1.sync =
      (prepared.map (fun p => (p.1, (operationExtent p.2).2))).foldl deliver s.sync := by
  induction prepared generalizing s result with
  | nil =>
    rw [Session.integrateOps]
    exact drainDeferred_sync s result
  | cons p prepared ih =>
    obtain ⟨op, env⟩ := p
    have hp' : ∀ p ∈ prepared, decode p.1.payload = .ok p.2 :=
      fun p h => hp p (mem_cons_of_mem _ h)
    have henv := hp (op, env) mem_cons_self
    rw [map_cons, foldl_cons, deliver, Session.integrateOps]
    cases ha : s.sync.applyOne op (operationExtent env).2 with
    | mk sync' r =>
      have hd' : PendingDecodes sync' := hd.applyOne henv ha
      cases r with
      | alreadyPresent =>
        obtain ⟨-, rfl⟩ := applyOne_present ha
        exact ih hd hp'
      | buffered =>
        exact @ih { s with sync := sync', pendingEnvelopes := s.pendingEnvelopes.insert op.id env } _
          hd' hp'
      | applied =>
        -- behind the log, what was promoted is applied or deferred, and then what was deferred
        have hsync₁ : ({ s with sync := sync' }.applyOrDefer op.id env result).1.sync = sync' :=
          applyOrDefer_sync _ _ _ _
        have hd₁ : PendingDecodes ({ s with sync := sync' }.applyOrDefer op.id env result).1.sync := by
          rw [hsync₁]
          exact hd'
        obtain ⟨s₂, result₂, hdrain, hsync₂, hd₂⟩ := drainPromoted_sync
          ({ s with sync := sync' }.applyOrDefer op.id env result).2 hd₁
        have hsync₃ := drainDeferred_sync s₂ result₂
        simp only [hdrain]
        rw [ih (hsync₃.symm ▸ hd₂) hp', hsync₃, hsync₂, hsync₁]

/-- A session takes in a message as the gate does. -/
theorem applyRemote_sync {s : Session} {message : ChangeMessage Payload}
    {limits} (hd : PendingDecodes s.sync)
    (hops : ∀ op ∈ message.ops, op.id.counter < u64Max) : (s.applyRemote message limits).1.sync =
      receive s.unitMode s.sync ⟨message, limits, s.deferredCount⟩ := by
  unfold Session.applyRemote receive Incoming.accepted deferredCount
  simp only [prepareOps64_eq s hops]
  cases validateChanges Serde.length message limits (s.sync.pendingCount +
    (s.pendingEnvelopes.keys.filter (fun id => s.sync.contains id)).length) with
  | error e => rfl
  | ok u =>
    cases hprep : s.prepareOps message.ops with
    | error e => rfl
    | ok prepared =>
      have hchecked := prepareOps_checked hprep
      simp only
      rw [integrateOps_sync hd (fun p hp => (hchecked p hp).2.decodes)]
      congr 1
      refine map_congr_left (fun p hp => ?_)
      obtain ⟨hmem, hc⟩ := hchecked p hp
      rw [span64_eq (hops p.1 hmem) hc.isMax]

end Session

end Messages
end Segmentation

section Examples
attribute [local instance] charSegmentation envelopeSerde

/-- Two units of text with the first and with the last counter. -/
def wideInsert : Operation Envelope :=
  ⟨⟨u64Max, 1⟩, (DocOp.insertText ⟨1, 2⟩ ⟨2, 1⟩
    [⟨⟨1, 1⟩, none, none, "a"⟩, ⟨⟨u64Max, 1⟩, some ⟨1, 1⟩, none, "b"⟩]).envelope⟩

/-- A deletion under a counter in between. -/
def nextDelete : Operation Envelope :=
  ⟨⟨2, 1⟩, (DocOp.deleteText ⟨1, 2⟩ ⟨2, 1⟩ ⟨2, 1⟩ [⟨1, 1⟩]).envelope⟩

/-- Each message is accepted; the second one overflows the addition to the frontier. -/
theorem nextDelete_overflows : wideInsert.id.counter ≤ u64Max ∧ nextDelete.id.counter ≤ u64Max ∧
      ([⟨⟨.new, [wideInsert]⟩, .default, 0⟩].foldlM (receive64 true)
        .new).isSome = true ∧ ([⟨⟨.new, [wideInsert]⟩, .default, 0⟩,
        ⟨⟨.new, [nextDelete]⟩, .default, 0⟩].foldlM (receive64 true)
        .new).isSome = false := by
  decide +kernel

/-- A deletion of another peer. -/
def otherDelete : Operation Envelope :=
  ⟨⟨1, 3⟩, (DocOp.deleteText ⟨1, 2⟩ ⟨2, 1⟩ ⟨1, 3⟩ [⟨1, 1⟩]).envelope⟩

/-- Where nothing waits, there is room for one operation of a peer below the last counter. -/
theorem hasRoom_single {s : SyncState Envelope} {id : OpId} (hp : s.pending.keys = [])
    (hlt : s.stateVector.seen id.peer < u64Max) : s.HasRoom [id] := by
  have honly : ∀ k, SyncState.Open [id] s k → k = id := by
    rintro k (⟨hk, -⟩ | hk)
    · exact mem_singleton.mp hk
    · have hmem := SortedMap.contains_iff_mem_keys.mp hk
      rw [hp] at hmem
      cases hmem
  intro a ha _
  rw [honly a ha]
  exact ⟨hlt, fun b hb _ hne => absurd (honly b hb) hne⟩

/-- The last counter of a peer enters the log, and then another peer's operation. -/
theorem wideInsert_then_other : ([⟨⟨.new, [wideInsert]⟩, .default, 0⟩,
      ⟨⟨.new, [otherDelete]⟩, .default, 0⟩].foldlM (receive64 true) .new).map
        (fun s => s.ops.keys) = some [otherDelete.id, wideInsert.id] := by
  rw [receiveAll64_of_room true .new _ ?_ ?_ ?_]
  · decide +kernel
  · exact ⟨SortedMap.sorted_empty, fun _ _ _ h => by cases h⟩
  · decide +kernel
  · refine ⟨hasRoom_single rfl (by decide +kernel), hasRoom_single ?_ ?_, trivial⟩
    · decide +kernel
    · decide +kernel

/-- The operation that the deletion in between waits for. -/
def firstInsert : Operation Envelope :=
  ⟨⟨1, 1⟩, (DocOp.insertText ⟨1, 2⟩ ⟨2, 1⟩ [⟨⟨1, 1⟩, none, none, "a"⟩]).envelope⟩

/-- A session in which the deletion waits. -/
def waitingSession : Session :=
  ((Session.new 2).applyRemote ⟨.new, [nextDelete]⟩ .default).1

/-- A session takes in what an operation waits for as the gate does: both enter the log. -/
theorem applyRemote_sync_promotes : waitingSession.sync.pending.keys = [nextDelete.id] ∧
    (receive true waitingSession.sync ⟨⟨.new, [firstInsert]⟩, .default, 0⟩).ops.keys =
      [firstInsert.id, nextDelete.id] ∧
    (waitingSession.applyRemote ⟨.new, [firstInsert]⟩ .default).1.sync =
      receive true waitingSession.sync ⟨⟨.new, [firstInsert]⟩, .default, 0⟩ := by
  refine ⟨by decide +kernel, by decide +kernel, Session.applyRemote_sync (s := waitingSession) ?_ ?_⟩
  · exact Session.PendingDecodes.next (fun _ h => absurd h not_mem_nil) _ _
  · decide +kernel

end Examples
end MdCrdt
