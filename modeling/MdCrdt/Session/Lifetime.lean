import MdCrdt.Session.Integration
import MdCrdt.Session.Snapshot
import MdCrdt.Session.Spans
import MdCrdt.Sync.Checkpoint

/- Messages are taken in as a whole or not at all.

  The one error of `applyRemote` that can come after the first change is that a
  promoted payload does not decode. Along the whole life of a session (local calls,
  any messages, checkpoints, snapshots that are saved and restored) what waits in
  the log has been decoded once, so that error never comes. -/
namespace MdCrdt
open Lib List SortedMap SyncState Except
variable {P : Type} {s : SyncState P}

theorem SyncState.pending_appendAll (l) (s : SyncState P) :
    (s.appendAll l).pending = s.pending := by
  induction l generalizing s with
  | nil => rfl
  | cons e l ih => exact (ih (s.addLocalOp e.1)).trans (pending_record s e.1)

theorem SyncState.pending_restoreApplied (ops) (s : SyncState P) :
    (s.restoreApplied ops).pending = s.pending := by
  induction ops generalizing s with
  | nil => rfl
  | cons op ops ih => exact (ih (s.record op)).trans (pending_record s op)

theorem SyncState.ops_restorePending (ops) (s : SyncState P) :
    (s.restorePending ops).ops = s.ops := by
  induction ops generalizing s with
  | nil => rfl
  | cons op ops ih =>
    refine (ih _).trans ?_
    simp only
    split <;> rfl

/-- Restoring the operations of a log gives the log. -/
theorem SyncState.ops_restoreApplied (h : s.ops.Sorted) :
    (new.restoreApplied s.appliedOps).ops = s.ops := by
  have hfold : ∀ (l : List (OpId × P)) (t : SyncState P),
      (t.restoreApplied (l.map (fun e => ⟨e.1, e.2⟩))).ops =
        l.foldl (fun m e => m.insert e.1 e.2) t.ops := by
    intro l
    induction l with
    | nil => exact fun _ => rfl
    | cons e l ih =>
      intro t
      refine (ih (t.record ⟨e.1, e.2⟩)).trans ?_
      rw [ops_record]
      rfl
  exact (hfold s.ops.entries new).trans (foldl_insert_entries h)

theorem SyncState.sorted_restorePending (ops)
    (h : s.pending.Sorted) : (s.restorePending ops).pending.Sorted := by
  refine foldlRecOn (motive := fun s : SyncState P => s.pending.Sorted) ops _ h (fun s hs op _ => ?_)
  split
  · exact hs
  · exact sorted_insert hs _ _

theorem SyncState.mem_restorePending {ops e} (he : e ∈ (s.restorePending ops).pending.entries) :
    e ∈ s.pending.entries ∨ e.2 ∈ ops ∧ e.1 = e.2.1.id := by
  induction ops generalizing s with
  | nil => exact .inl he
  | cons op ops ih =>
    rcases ih he with he | ⟨he, hid⟩
    · simp only at he
      split at he
      · exact .inl he
      · rcases mem_insertList he with rfl | he
        · exact .inr ⟨mem_cons_self, rfl⟩
        · exact .inl he
    · exact .inr ⟨mem_cons_of_mem op he, hid⟩

namespace Session
variable [Segmentation] [Serde] {s : Session} {snap : SessionSnapshot}

/-- The sessions that local calls, messages, checkpoints and snapshots lead to. -/
inductive Reachable : Session → Prop
  | start (peer : PeerId) (unitMode : Bool) : Reachable (withMode peer unitMode)
  | call {s : Session} (c : Call) (h : Reachable s) : Reachable (s.after c)
  | applyRemote {s : Session} (message : ChangeMessage Serde.Payload) (limits : ValidationLimits)
      (h : Reachable s) : Reachable (s.applyRemote message limits).1
  | checkpointHistory {s : Session} (request : CheckpointRequest) (h : Reachable s) :
      Reachable (s.checkpointHistory request).1
  | restore {s s' : Session} {snap : SessionSnapshot} (h : Reachable s)
      (hsave : s.saveSnapshot = .ok snap) (hrestore : restoreFromSnapshot snap = .ok s') :
      Reachable s'

omit [Segmentation] in
theorem saveSnapshot_ok (h : s.saveSnapshot = .ok snap) :
    ∃ deferred, encodeDeferred s.deferred = .ok deferred ∧
      snap = ⟨snapshotFormatVersion, s.peer, s.nextCounter, s.unitMode, s.sync.stateVector,
        s.sync.checkpointEpoch, s.sync.deltaFloor, s.document, s.sync.appliedOps,
        s.sync.pendingOps, deferred⟩ := by
  unfold saveSnapshot at h
  cases hd : encodeDeferred s.deferred with
  | error e => rw [hd] at h; cases h
  | ok deferred =>
    rw [hd] at h
    exact ⟨deferred, rfl, (ok.inj h).symm⟩

theorem restoreFromSnapshot_ok (h : restoreFromSnapshot snap = .ok s) :
    ∃ envelopes, decodeDeferred .empty snap.deferred = .ok envelopes ∧
      s = ⟨snap.peer, snap.nextCounter, snap.document.reload,
        (restoreSync snap.ops snap.pending).restoreHistory snap.stateVector snap.checkpointEpoch
          snap.deltaFloor, snap.unitMode, envelopes⟩ := by
  simp only [restoreFromSnapshot] at h
  split at h
  · cases h
  · split at h
    · cases h
    · cases hd : decodeDeferred .empty snap.deferred with
      | error e => rw [hd] at h; cases h
      | ok envelopes =>
        rw [hd] at h
        exact ⟨envelopes, rfl, (ok.inj h).symm⟩

omit [Segmentation] in
theorem decodeDeferred_encodeDeferred [LimitedSerde] {l ops}
    {acc envelopes : SortedMap OpId Envelope}
    (hv : ∀ e ∈ l, e.2.version = wireVersion) (hl : encodeDeferred l = .ok ops)
    (hd : decodeDeferred acc ops = .ok envelopes) :
    envelopes = l.foldl (fun m e => m.insert e.1 e.2) acc := by
  induction l generalizing ops acc with
  | nil =>
    obtain rfl := ok.inj hl
    exact (ok.inj hd).symm
  | cons e l ih =>
    obtain ⟨id, env⟩ := e
    rw [encodeDeferred] at hl
    split at hl
    · cases hl
    · next payload hp =>
      cases hrest : encodeDeferred l with
      | error e => rw [hrest] at hl; cases hl
      | ok rest =>
        rw [hrest] at hl
        obtain rfl := ok.inj hl
        simp only [decodeDeferred, decode_encode_of_version (hv (id, env) mem_cons_self) hp] at hd
        exact ih (fun e he => hv e (mem_cons_of_mem _ he)) hrest hd

/-- What waits in a restored log has waited in the log it was saved from. -/
theorem mem_restoreSync {ops} {sync : SyncState Serde.Payload} {e}
    (he : e ∈ (restoreSync ops sync.pendingOps).pending.entries) :
    ∃ w ∈ sync.pending.entries, e.1 = w.1 ∧ e.2.1 = ⟨w.1, w.2.1.payload⟩ := by
  rcases mem_restorePending he with he | ⟨he, hid⟩
  · rw [pending_restoreApplied] at he
    cases he
  · obtain ⟨o, ho, heq⟩ := mem_map.mp he
    obtain ⟨w, hw, rfl⟩ := mem_map.mp ho
    have hop := congrArg Prod.fst heq
    exact ⟨w, hw, hid.trans (congrArg Operation.id hop.symm), hop.symm⟩

theorem PendingDecodes.restoreSync {sync : SyncState Serde.Payload} (h : PendingDecodes sync)
    (ops) : PendingDecodes (Session.restoreSync ops sync.pendingOps) := by
  intro e he
  obtain ⟨w, hw, -, hop⟩ := mem_restoreSync he
  rw [hop]
  exact h w hw

theorem PendingDecodes.restore {s s' : Session} (h : PendingDecodes s.sync)
    (hsave : s.saveSnapshot = .ok snap) (hrestore : restoreFromSnapshot snap = .ok s') :
    PendingDecodes s'.sync := by
  obtain ⟨deferred, -, rfl⟩ := saveSnapshot_ok hsave
  obtain ⟨envelopes, -, rfl⟩ := restoreFromSnapshot_ok hrestore
  exact h.restoreSync s.sync.appliedOps

theorem Reachable.pendingDecodes (h : Reachable s) : PendingDecodes s.sync := by
  induction h with
  | start peer unitMode => exact fun e he => by cases he
  | @call s c _ ih =>
    obtain ⟨log, hsync, -⟩ := after_appends s c
    intro e he
    rw [hsync, pending_appendAll] at he
    exact ih e he
  | @applyRemote s message limits _ ih => exact ih.next message limits
  | @checkpointHistory s request _ ih =>
    intro e he
    rw [Session.checkpointHistory, pending_checkpoint] at he
    exact ih e he
  | restore _ hsave hrestore ih => exact ih.restore hsave hrestore

/-- All or nothing: a message that is refused has changed nothing of a reachable session. -/
theorem applyRemote_error_unchanged {s : Session} (h : Reachable s)
    (message : ChangeMessage Serde.Payload) (limits : ValidationLimits) (error : SessionError)
    (he : (s.applyRemote message limits).2 = .error error) :
    (s.applyRemote message limits).1 = s := by
  rcases h.pendingDecodes.applyRemote message limits with ⟨error', heq⟩ | ⟨s', result, heq, -⟩
  · rw [heq]
  · rw [heq] at he
    cases he

end Session

section
attribute [local instance] charSegmentation envelopeSerde

/-- A session that has written a block and keeps a write that waits for its predecessor. -/
def withWaiting : Session :=
  (((Session.new 2).after (.insertParagraphIn none none "a")).applyRemote ⟨.new,
    [⟨⟨2, 3⟩, (DocOp.setFrontmatterField ⟨2, 3⟩ "a" none).envelope⟩]⟩ .default).1

/-- An operation under a wrong id, behind one that could be taken in. -/
theorem applyRemote_error_unchanged_second : withWaiting.sync.pending.keys = [⟨2, 3⟩] ∧
    (withWaiting.applyRemote ⟨.new,
      [⟨⟨1, 1⟩, (DocOp.setFrontmatterField ⟨1, 1⟩ "a" none).envelope⟩,
       ⟨⟨2, 1⟩, (DocOp.setFrontmatterField ⟨3, 1⟩ "a" none).envelope⟩]⟩
        ValidationLimits.default).1 = withWaiting :=
  ⟨by decide +kernel, Session.applyRemote_error_unchanged
    (.applyRemote _ _ (.call _ (.start 2 true))) _ _ .operationIdMismatch rfl⟩

end
end MdCrdt
