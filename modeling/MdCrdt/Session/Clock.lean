import MdCrdt.Session.Frontier
import MdCrdt.Session.OwnIds

/- The clock of a session.

  A session numbers its operations from `nextCounter`. Whatever there is of its own
  peer should lie below: in the state vector, the log, the buffer and the document
  (`Fresh`). `applyRemote` never looks at the clock, so a message that brings the
  session's own earlier operations can leave it behind; `importState` computes it from
  the log, the buffer and a walk that passes over text, so it can be behind for a
  document whose operations have been pruned from the log.

  As long as every id in the document, and every id that what waits can bring into it,
  lies at the frontier of its peer or below (`Traceable`), restarting, joining under
  another peer id and rebasing find a fresh clock. Local calls keep it so. Messages do
  if they account for the ids they bring (`Traces`), and importing does if the log and
  the buffer of the other session still account for its document (`Carries`). -/
namespace MdCrdt
open Lib SortedMap SyncState Document
open List hiding le_antisymm max_le_iff

section Bounds
variable [Segmentation] [Serde]

/-- Every id the operation brings is within the bound of its peer. -/
def DocOp.BringsUnder (β : PeerId → Nat) (op : DocOp) : Prop :=
  ∀ x ∈ op.brings, x.counter ≤ β x.peer

/-- So is what a payload brings, if it decodes. -/
def PayloadUnder (β : PeerId → Nat) (payload : Serde.Payload) : Prop :=
  ∀ env, decode payload = .ok env → env.docOp.BringsUnder β

namespace Session
variable {deferred : List (Operation Serde.Payload)}

/-- The ids in a document, and those that what waits can bring into it, are within a bound. -/
structure Covered (β : PeerId → Nat) (s : Session) : Prop where
  document : ∀ x ∈ s.document.ids, x.counter ≤ β x.peer
  kept : ∀ e ∈ s.pendingEnvelopes.entries, e.2.version = wireVersion ∧ e.2.docOp.BringsUnder β
  waiting : ∀ e ∈ s.sync.pending.entries, PayloadUnder β e.2.1.payload

/-- No id of the local peer has a counter that the clock has yet to give out. -/
structure Fresh (s : Session) : Prop where
  seen : s.sync.stateVector.seen s.peer < s.nextCounter
  logged : ∀ id ∈ s.sync.ops.keys, id.peer = s.peer → id.counter < s.nextCounter
  waiting : ∀ id ∈ s.sync.pendingOps.map Operation.id, id.peer = s.peer → id.counter < s.nextCounter
  document : ∀ id ∈ s.document.ids, id.peer = s.peer → id.counter < s.nextCounter

/-- Every id is accounted for by what the log has seen or holds back, and the clock is ahead. -/
structure Traceable (s : Session) : Prop where
  covered : s.Covered s.sync.frontier
  filed : s.sync.Filed
  decodes : PendingDecodes s.sync
  clock : s.sync.frontier s.peer < s.nextCounter

variable {s s' : Session} {β β' : PeerId → Nat}

theorem Covered.mono (h : s.Covered β) (hle : ∀ p, β p ≤ β' p) : s.Covered β' where
  document x hx := (h.document x hx).trans (hle _)
  kept e he := ⟨(h.kept e he).1, fun x hx => ((h.kept e he).2 x hx).trans (hle _)⟩
  waiting e he env henv x hx := (h.waiting e he env henv x hx).trans (hle _)

theorem Traceable.fresh (h : s.Traceable) : s.Fresh where
  seen := seen_le_frontier.trans_lt h.clock
  logged id hid hp := by
    have hc := h.filed.covered id (contains_iff_mem_keys.mpr hid)
    exact (hc.trans seen_le_frontier).trans_lt (hp ▸ h.clock)
  waiting id hid hp := by
    rw [ids_pendingOps] at hid
    exact (le_frontier_of_waiting hid).trans_lt (hp ▸ h.clock)
  document id hid hp := (h.covered.document id hid).trans_lt (hp ▸ h.clock)

theorem traceable_start (peer unitMode) : (withMode peer unitMode).Traceable where
  covered := by
    refine ⟨within_iff.mp Sequence.within_new, fun e he => ?_, fun e he => ?_⟩
    · cases he
    · cases he
  filed := by
    refine ⟨fun id hid => ?_, fun e he => ?_⟩
    · cases hid
    · cases he
  decodes e he := by cases he
  clock := one_pos

/-! ## Local calls -/

theorem Traceable.commits (h : s.Traceable) (hc : s.Creates op)
    (hs : s.Commits op s') : s'.Traceable := by
  obtain ⟨payload, -, rfl⟩ := hs
  have hpeer := hc.counters.peer
  have hgrown := frontier_le_record (s := s.sync) ⟨opId op, payload⟩
  have hself : (opId op).counter ≤ (s.sync.record ⟨opId op, payload⟩).frontier s.peer :=
    hpeer ▸ le_frontier_record (s := s.sync) ⟨opId op, payload⟩
  have hmono := h.covered.mono hgrown
  refine ⟨⟨?_, hmono.kept, fun e he => ?_⟩, filed_record h.filed _, fun e he => ?_, ?_⟩
  · refine within_iff.mp (applyDocOp_within (within_iff.mpr hmono.document)
      (fun _ x hx => ?_))
    rcases hc.brings x hx with hx | ⟨hp, hle⟩
    · exact hmono.document x hx
    · rw [hp]
      exact hle.trans hself
  · exact hmono.waiting e (by rwa [addLocalOp, pending_record] at he)
  · exact h.decodes e (by rwa [addLocalOp, pending_record] at he)
  · -- the clock has been behind the operation, and the operation is the last
    refine Nat.lt_succ_of_le (frontier_le_iff.mpr ⟨?_, fun id hid hp => ?_⟩)
    · have hseen := seen_le_frontier.trans_lt h.clock
      rw [addLocalOp, seen_record]
      split
      · exact max_le (hseen.le.trans hc.counters.le) le_rfl
      · exact hseen.le.trans hc.counters.le
    · rw [addLocalOp, pending_record] at hid
      have hlt := (le_frontier_of_waiting hid).trans_lt (hp ▸ h.clock)
      exact hlt.le.trans hc.counters.le

theorem Traceable.chain {ops} (h : s.Traceable) (hc : s.Chain ops s') : s'.Traceable := by
  induction hc with
  | nil => exact h
  | cons hc hs _ ih => exact ih (h.commits hc hs)

theorem Traceable.after (h : s.Traceable) (c) : (s.after c).Traceable := by
  rcases s.after_chain c with ⟨ops, hc⟩ | ⟨unitMode, rfl⟩
  · exact h.chain hc
  · exact ⟨⟨h.covered.document, h.covered.kept, h.covered.waiting⟩, h.filed, h.decodes, h.clock⟩

/-! ## Messages -/

/-- The largest counter of a peer that is known once a message has been taken in. -/
def messageBound (s : Session) (message : ChangeMessage Serde.Payload) (p : PeerId) : Nat :=
  max (s.sync.frontier p) (maxCounter p (message.ops.map Operation.id))

/-- A message accounts for its ids: operations of the local peer are behind its clock, and no
    id is brought in ahead of the operations of its peer. -/
structure Traces (s : Session) (message : ChangeMessage Serde.Payload) : Prop where
  own : ∀ o ∈ message.ops, o.id.peer = s.peer → o.id.counter < s.nextCounter
  brings : ∀ o ∈ message.ops, PayloadUnder (s.messageBound message) o.payload

/-- What has become of a session while it takes in operations up to a bound. -/
structure Taking (β : PeerId → Nat) (s : Session) (todo : List (Operation Serde.Payload))
    (t : Session) : Prop where
  covered : t.Covered β
  promoted : ∀ o ∈ todo, PayloadUnder β o.payload
  log : s.sync.Extends β t.sync
  peer : t.peer = s.peer
  clock : t.nextCounter = s.nextCounter

theorem Covered.applyOrDefer (h : s.Covered β) (hv : env.version = wireVersion)
    (henv : env.docOp.BringsUnder β) (id result) : (s.applyOrDefer id env result).1.Covered β := by
  unfold Session.applyOrDefer
  split
  · refine ⟨h.document, fun e he => ?_, h.waiting⟩
    rcases mem_insertList he with rfl | he
    · exact ⟨hv, henv⟩
    · exact h.kept e he
  · refine ⟨fun x hx => ?_, h.kept, h.waiting⟩
    rcases mem_ids_apply hx with hx | ⟨hx, -⟩
    · exact h.document x hx
    · exact henv x hx

theorem applyOrDefer_peer (s : Session) (id env result) :
    (s.applyOrDefer id env result).1.peer = s.peer ∧
      (s.applyOrDefer id env result).1.nextCounter = s.nextCounter := by
  unfold Session.applyOrDefer
  split <;> exact ⟨rfl, rfl⟩

namespace Taking
variable {t : Session} {todo : List (Operation Serde.Payload)}

section
variable (h : Taking β s todo t)
include h

theorem applyOrDefer (hv : env.version = wireVersion) (henv : env.docOp.BringsUnder β) (id result) :
    Taking β s todo (t.applyOrDefer id env result).1 where
  covered := h.covered.applyOrDefer hv henv id result
  __ := h
  log := by
    rw [applyOrDefer_sync]
    exact h.log
  peer := (applyOrDefer_peer t id env result).1.trans h.peer
  clock := (applyOrDefer_peer t id env result).2.trans h.clock

/-- The session the taking in is compared to may be a later one. -/
theorem rebase : Taking β t todo t :=
  ⟨h.covered, h.promoted, ⟨h.log.filed, fun _ => le_rfl, h.log.bounded⟩, rfl, rfl⟩

/-- Envelopes of the message may be kept, and kept ones dropped. -/
theorem withEnvelopes {envelopes : SortedMap OpId Envelope}
    (he : ∀ e ∈ envelopes.entries, e ∈ t.pendingEnvelopes.entries ∨
      e.2.version = wireVersion ∧ e.2.docOp.BringsUnder β) :
    Taking β s todo { t with pendingEnvelopes := envelopes } :=
  ⟨⟨h.covered.document, fun e hin => (he e hin).elim (h.covered.kept e) id, h.covered.waiting⟩,
    h.promoted, h.log, h.peer, h.clock⟩

theorem withSync {sync} (hlog : t.sync.Extends β sync)
    (hw : ∀ e ∈ sync.pending.entries, e ∈ t.sync.pending.entries ∨ PayloadUnder β e.2.1.payload) :
    Taking β s todo { t with sync := sync } :=
  ⟨⟨h.covered.document, h.covered.kept, fun e hin => (hw e hin).elim (h.covered.waiting e) id⟩,
    h.promoted, h.log.trans hlog, h.peer, h.clock⟩

end

end Taking

/-- Within a bound for the operations of the message and for what they bring, every action
    stays within it. -/
theorem taking_integration (β : PeerId → Nat) (s) :
    Integration (fun o => o.id.counter ≤ β o.id.peer ∧ PayloadUnder β o.payload)
      (fun todo t _ => Taking β s todo t) where
  log h hq henv _ := by
    have hlog := extends_record h.log.filed h.log.bounded hq.1
    refine (h.withSync hlog (fun e he => ?_)).applyOrDefer (decode_version henv) (hq.2 _ henv) _ _
    rw [pending_record] at he
    exact .inl he
  wait {t _ op env _} h hq henv ha := by
    have hkept : Taking β s []
        { t with pendingEnvelopes := t.pendingEnvelopes.insert op.id env } := by
      refine h.withEnvelopes (fun e he => (mem_insertList he).symm.imp_right ?_)
      rintro rfl
      exact ⟨decode_version henv, hq.2 _ henv⟩
    obtain ⟨-, ⟨rfl, -⟩ | rfl⟩ := applyOne_buffered ha
    · exact hkept
    · refine hkept.withSync (extends_buffer h.log.filed h.log.bounded _ hq.1)
        (fun e he => ?_)
      refine (mem_insertList he).symm.imp_right ?_
      rintro rfl
      exact hq.2
  promote h hw _ := by
    have hs := h.withSync (extends_promote h.log.filed h.log.bounded hw) (fun e he => by
      rw [promote, pending_record] at he
      exact .inl (mem_of_mem_filter he))
    exact { hs with promoted := forall_mem_push h.promoted (h.covered.waiting _ (get?_mem hw)) }
  settle h hf := by
    have hrest := { h with promoted := fun o ho => h.promoted o (mem_cons_of_mem _ ho) }
    cases hf with
    | kept hk =>
      obtain ⟨hv, henv⟩ := h.covered.kept _ (get?_mem hk)
      exact (hrest.withEnvelopes (fun e he => .inl (mem_of_mem_filter he))).applyOrDefer
        hv henv _ _
    | decoded _ hd =>
      exact hrest.applyOrDefer (decode_version hd) (h.promoted _ mem_cons_self _ hd) _ _
  release h hk _ := by
    obtain ⟨hv, henv⟩ := h.covered.kept _ (get?_mem hk)
    exact (h.withEnvelopes (fun e he => .inl (mem_of_mem_filter he))).applyOrDefer hv henv _ _

/-- Operations that are taken in are known from then on. -/
theorem le_frontier_integrateOps (result) (h : Taking β s [] s) (hd : PendingDecodes s.sync)
    (hp : ∀ q ∈ prepared, (q.1.id.counter ≤ β q.1.id.peer ∧ PayloadUnder β q.1.payload) ∧
      decode q.1.payload = .ok q.2) : ∀ q ∈ prepared, q.1.id.counter ≤
      (s.integrateOps result prepared).1.sync.frontier q.1.id.peer := by
  induction prepared generalizing s result with
  | nil => simp
  | cons q prepared ih =>
    obtain ⟨op, env⟩ := q
    obtain ⟨⟨hq, henv⟩, hrest⟩ := forall_mem_cons.mp hp
    -- known after the first operation, and still at the end
    have hstep : ∀ {t : Session} {r : SessionApplyResult}, Taking β t [] t →
        PendingDecodes t.sync → op.id.counter ≤ t.sync.frontier op.id.peer →
        ∀ q ∈ (op, env) :: prepared, q.1.id.counter ≤
          (t.integrateOps r prepared).1.sync.frontier q.1.id.peer := by
      intro t r ht hdt hop
      refine forall_mem_cons.mpr ⟨?_, ih r ht hdt hrest⟩
      obtain ⟨t₁, r₁, ht₁, -, heq⟩ := (taking_integration β t).integrateOps hrest hdt ht
      rw [heq, drainDeferred_sync]
      exact hop.trans (ht₁.log.grown _)
    rw [Session.integrateOps]
    split
    · next ha =>
      exact hstep h hd ((h.log.filed.covered _ (applyOne_present ha).1).trans
        seen_le_frontier)
    · next sync ha =>
      have hwait := @Integration.wait _ _ _ _ (taking_integration β s) s result op env sync h hq
        henv ha
      refine hstep hwait.rebase (hd.applyOne henv ha) (le_frontier_of_waiting ?_)
      obtain ⟨-, ⟨rfl, hw⟩ | rfl⟩ := applyOne_buffered ha
      · exact contains_iff_mem_keys.mp hw
      · exact mem_keys_insert.mpr (.inl rfl)
    · next sync ha =>
      obtain ⟨rfl, -⟩ := applyOne_applied ha
      have hlog := @Integration.log _ _ _ _ (taking_integration β s) s result op env h hq henv ha
      have hsync := applyOrDefer_sync { s with sync := s.sync.record op } op.id env result
      simp only
      generalize ({ s with sync := s.sync.record op } : Session).applyOrDefer op.id env result =
        handled at hlog hsync ⊢
      have hop : op.id.counter ≤ handled.1.sync.frontier op.id.peer := by
        rw [hsync]
        exact le_frontier_record op
      have hdh : PendingDecodes handled.1.sync := by
        rw [hsync]
        exact hd.applyOne henv ha
      obtain ⟨result', hr, hi, hdd⟩ := @Integration.drainPromoted _ _ _ handled.1 handled.2 _
        (taking_integration β handled.1) hdh hlog.rebase
      generalize handled.1.drainPromoted handled.2 = drained at hr hi hdd ⊢
      obtain ⟨t, r⟩ := drained
      obtain rfl : r = .ok result' := hr
      have hdef := @Integration.drainDeferred _ _ _ t result' _ (taking_integration β handled.1) hi
      refine hstep hdef.rebase ?_ ?_
      · rwa [drainDeferred_sync]
      · exact hop.trans (hdef.log.grown _)

variable {message : ChangeMessage Serde.Payload} {limits : ValidationLimits}
  {result : SessionApplyResult}

theorem le_frontier_applyRemote (h : Taking β s [] s) (hd : PendingDecodes s.sync)
    (hq : ∀ o ∈ message.ops, o.id.counter ≤ β o.id.peer ∧ PayloadUnder β o.payload)
    (hok : s.applyRemote message limits = (s', .ok result)) :
    ∀ o ∈ message.ops, o.id.counter ≤ s'.sync.frontier o.id.peer := by
  simp only [Session.applyRemote] at hok
  split at hok
  · cases (Prod.mk.inj hok).2
  · split at hok
    · cases (Prod.mk.inj hok).2
    · next prepared hprep =>
      have hp : ∀ q ∈ prepared, (q.1.id.counter ≤ β q.1.id.peer ∧ PayloadUnder β q.1.payload) ∧
          decode q.1.payload = .ok q.2 := fun q hin =>
        ⟨hq _ (prepareOps_ok hprep q hin).1, (prepareOps_ok hprep q hin).2⟩
      intro o ho
      rcases mem_prepareOps hprep ho with hc | ⟨env, hin⟩
      · obtain ⟨t, r, ht, -, heq⟩ := (taking_integration β s).integrateOps hp hd h
        obtain ⟨rfl, -⟩ := Prod.mk.inj (heq.symm.trans hok)
        rw [drainDeferred_sync]
        exact ((h.log.filed.covered _ hc).trans seen_le_frontier).trans (ht.log.grown _)
      · have hknown := le_frontier_integrateOps ⟨[], []⟩ h hd hp _ hin
        rwa [hok] at hknown

/-- Taking in a message that brings no id ahead of its peer's operations moves the frontier up
    to the operations of the message, and everything stays below it. -/
theorem Traceable.taken (h : s.Traceable) (hok : s.applyRemote message limits = (s', .ok result))
    (hm : ∀ o ∈ message.ops, PayloadUnder (s.messageBound message) o.payload) :
    Taking (s.messageBound message) s [] s' ∧ PendingDecodes s'.sync ∧
      ∀ p, s'.sync.frontier p = s.messageBound message p := by
  have hle : ∀ p, s.sync.frontier p ≤ s.messageBound message p := fun p => le_max_left _ _
  have hids : ∀ o ∈ message.ops, o.id.counter ≤ s.messageBound message o.id.peer := fun o ho =>
    (le_maxCounter (mem_map_of_mem ho)).trans (le_max_right _ _)
  have hq := fun o ho => And.intro (hids o ho) (hm o ho)
  have hstart : Taking (s.messageBound message) s [] s :=
    ⟨h.covered.mono hle, by simp, ⟨h.filed, fun _ => le_rfl, hle⟩, rfl, rfl⟩
  rcases (taking_integration (s.messageBound message) s).applyRemote hq limits h.decodes hstart with
    ⟨error, herr⟩ | ⟨t, r, heq, ht, hd⟩
  · rw [herr] at hok
    cases (Prod.mk.inj hok).2
  · obtain ⟨rfl, -⟩ := Prod.mk.inj (heq.symm.trans hok)
    refine ⟨ht, hd, fun p => le_antisymm (ht.log.bounded p) ?_⟩
    -- what the message was allowed to bring is known now
    refine max_le (ht.log.grown p) (maxCounter_le_iff.mpr ?_)
    rintro x hx rfl
    obtain ⟨o, ho, rfl⟩ := mem_map.mp hx
    exact le_frontier_applyRemote hstart h.decodes hq hok o ho

theorem Traceable.messageBound_lt_iff (h : s.Traceable) (message) :
    s.messageBound message s.peer < s.nextCounter ↔
      ∀ o ∈ message.ops, o.id.peer = s.peer → o.id.counter < s.nextCounter := by
  rw [messageBound, max_lt_iff, ← Nat.le_sub_one_iff_lt h.clock.pos, ← Nat.le_sub_one_iff_lt
    h.clock.pos, maxCounter_le_iff, List.forall_mem_map, Nat.le_sub_one_iff_lt h.clock.pos]
  simp only [h.clock, true_and, Nat.le_sub_one_iff_lt h.clock.pos]

/-- A message that accounts for its ids keeps the session accounted for. -/
theorem Traceable.applyRemote (h : s.Traceable)
    (hok : s.applyRemote message limits = (s', .ok result)) (hm : s.Traces message) :
    s'.Traceable := by
  obtain ⟨ht, hd, hfrontier⟩ := h.taken hok hm.brings
  refine ⟨ht.covered.mono (fun p => (hfrontier p).ge), ht.log.filed, hd, ?_⟩
  rw [hfrontier, ht.peer, ht.clock]
  exact (h.messageBound_lt_iff message).mpr hm.own

omit [Segmentation] in
theorem Fresh.frontier_lt (h : s.Fresh) : s.sync.frontier s.peer < s.nextCounter := by
  have hpos : 0 < s.nextCounter := h.seen.pos
  rw [← Nat.le_sub_one_iff_lt hpos, frontier_le_iff]
  refine ⟨Nat.le_sub_one_of_lt h.seen, fun id hid hp => Nat.le_sub_one_of_lt ?_⟩
  exact h.waiting id (by rwa [ids_pendingOps]) hp

/-! ## Checkpoints, restarts, other peers -/

theorem Traceable.checkpointHistory (h : s.Traceable) (request) :
    (s.checkpointHistory request).1.Traceable := by
  have hpending := pending_checkpoint s.sync request
  have hvector := stateVector_checkpoint s.sync request
  have hfrontier : (s.checkpointHistory request).1.sync.frontier = s.sync.frontier := by
    funext p
    simp only [Session.checkpointHistory, SyncState.frontier, hpending, hvector]
  refine ⟨?_, ⟨fun id hid => ?_, fun e he => ?_⟩, fun e he => ?_, ?_⟩
  · rw [hfrontier]
    exact ⟨h.covered.document, h.covered.kept, fun e he => h.covered.waiting e (hpending ▸ he)⟩
  · have hc := h.filed.covered id (contains_of_checkpoint hid)
    rwa [StateVector.covers, Session.checkpointHistory, hvector]
  · exact h.filed.named e (hpending ▸ he)
  · exact h.decodes e (hpending ▸ he)
  · rw [hfrontier]
    exact h.clock

theorem Traceable.rebindPeer (h : s.Traceable)
    (hroom : s.sync.frontier localPeer < u64Max) : (s.rebindPeer localPeer).Traceable := by
  refine ⟨⟨h.covered.document, h.covered.kept, h.covered.waiting⟩, h.filed, h.decodes, ?_⟩
  refine lt_min (Nat.lt_succ_of_le (max_le ?_ ?_)) hroom
  · exact ((le_max_left _ _).trans (le_max_right _ _)).trans (le_max_left _ _)
  · show maxCounter localPeer s.sync.pending.keys ≤ _
    rw [← ids_pendingOps]
    exact le_max_right _ _

/-- A restored log is filed, and what waited adds to its frontier as before. -/
theorem filed_restored {ops vector} (pending) (hv : ∀ op ∈ ops, vector.covers op.id) (epoch floor) :
    ((restoreSync ops pending).restoreHistory vector epoch floor).Filed ∧
    ∀ p, ((restoreSync ops pending).restoreHistory vector epoch floor).frontier p =
      max (vector.seen p) (maxCounter p (pending.map Operation.id)) := by
  have hcontains : ∀ id, (SyncState.new.restoreApplied ops).contains id = true →
      vector.covers id := by
    intro id hid
    rcases contains_restoreApplied hid with hid | hid
    · cases hid
    · obtain ⟨op, hop, rfl⟩ := mem_map.mp hid
      exact hv op hop
  have hentries : ∀ e ∈ (restoreSync ops pending).pending.entries,
      e.2.1 ∈ pending ∧ e.1 = e.2.1.id := by
    intro e he
    rcases mem_restorePending he with he | ⟨he, hid⟩
    · rw [pending_restoreApplied] at he
      cases he
    · obtain ⟨op, hop, heq⟩ := mem_map.mp he
      exact ⟨heq ▸ hop, hid⟩
  refine ⟨⟨fun id hid => hcontains id ?_, fun e he => (hentries e he).2.symm⟩,
    fun p => eq_of_forall_ge_iff (fun n => ?_)⟩
  · have hops := ops_restorePending
      (pending.map (fun op => (op, spanOfPayload op.payload))) (SyncState.new.restoreApplied ops)
    rwa [SyncState.contains, ← hops]
  · rw [frontier_le_iff, max_le_iff, maxCounter_le_iff]
    refine and_congr_right (fun hseen => ⟨fun h id hid hp => ?_, fun h id hid hp => ?_⟩)
    · have hin : id ∈ (pending.map (fun op => (op, spanOfPayload op.payload))).map
          (fun e => e.1.id) := by rwa [map_map]
      rcases waiting_restorePending (s := SyncState.new.restoreApplied ops)
        (.inr hin) with hc | hw
      · subst hp
        exact (hcontains id hc).trans hseen
      · exact h id hw hp
    · obtain ⟨e, he, rfl⟩ := mem_map.mp hid
      obtain ⟨hop, hid⟩ := hentries e he
      exact h _ (hid ▸ mem_map_of_mem hop) hp

/-- What is restored of a session stays within the bound it kept to. -/
theorem Covered.restored [LimitedSerde] (h : s.Covered β)
    {envelopes : SortedMap OpId Envelope} (henc : encodeDeferred s.deferred = .ok deferred)
    (hdec : decodeDeferred .empty deferred = .ok envelopes) :
    (∀ x ∈ s.document.reload.ids, x.counter ≤ β x.peer) ∧
    (∀ e ∈ envelopes.entries, e.2.version = wireVersion ∧ e.2.docOp.BringsUnder β) ∧
    ∀ ops, ∀ e ∈ (restoreSync ops s.sync.pendingOps).pending.entries,
      PayloadUnder β e.2.1.payload := by
  have hmem : ∀ e ∈ s.deferred, e ∈ s.pendingEnvelopes.entries :=
    fun e he => mem_of_mem_filter he
  refine ⟨ids_reload h.document, fun e he => ?_, fun ops e he => ?_⟩
  · rw [decodeDeferred_encodeDeferred (fun e he => (h.kept e (hmem e he)).1) henc hdec] at he
    rcases mem_foldl_insert he with ⟨a, ha, rfl⟩ | he
    · exact h.kept a (hmem a ha)
    · cases he
  · obtain ⟨w, hw, -, hop⟩ := mem_restoreSync he
    rw [hop]
    exact h.waiting w hw

theorem Traceable.restore [LimitedSerde] {snap} (h : s.Traceable)
    (hsave : s.saveSnapshot = .ok snap) (hrestore : restoreFromSnapshot snap = .ok s') :
    s'.Traceable ∧ s'.sync.frontier = s.sync.frontier := by
  obtain ⟨deferred, henc, rfl⟩ := saveSnapshot_ok hsave
  obtain ⟨envelopes, hdec, rfl⟩ := restoreFromSnapshot_ok hrestore
  obtain ⟨hdoc, hkept, hwait⟩ := h.covered.restored henc hdec
  have hcov : ∀ op ∈ s.sync.appliedOps, s.sync.stateVector.covers op.id := by
    intro op hop
    obtain ⟨e, he, rfl⟩ := mem_map.mp hop
    exact h.filed.covered _ (contains_iff_mem_keys.mpr (mem_map_of_mem he))
  obtain ⟨hfiled, hfrontier⟩ := filed_restored s.sync.pendingOps hcov s.sync.checkpointEpoch
    s.sync.deltaFloor
  have hsame : ((restoreSync s.sync.appliedOps s.sync.pendingOps).restoreHistory s.sync.stateVector
      s.sync.checkpointEpoch s.sync.deltaFloor).frontier = s.sync.frontier := by
    funext p
    rw [hfrontier p, ids_pendingOps]
    rfl
  refine ⟨⟨?_, hfiled, h.decodes.restoreSync _, ?_⟩, hsame⟩
  · rw [hsame]
    exact ⟨hdoc, hkept, hwait _⟩
  · rw [hsame]
    exact h.clock

/-- The largest counter of a peer among the operations that a session can hand over. -/
def exportBound (s : Session) (p : PeerId) : Nat :=
  max (maxCounter p (s.sync.appliedOps.map Operation.id))
    (maxCounter p (s.sync.pendingOps.map Operation.id))

/-- The log and the buffer account for the document and for what waits. -/
def Carries (s : Session) : Prop := s.Covered s.exportBound

theorem importState_ok {document ops pending localPeer unitMode}
    (h : importState document ops pending deferred localPeer unitMode = .ok s) :
    ∃ envelopes, decodeDeferred .empty deferred = .ok envelopes ∧
      s = ⟨localPeer, saturatingAdd (max (maxCounterForPeer localPeer ops document.reload)
        (maxCounter localPeer (pending.map Operation.id))) 1, document.reload,
        restoreSync ops pending, unitMode, envelopes⟩ := by
  simp only [importState] at h
  cases hd : decodeDeferred .empty deferred with
  | error e => rw [hd] at h; cases h
  | ok envelopes =>
    rw [hd] at h
    exact ⟨envelopes, rfl, (Except.ok.inj h).symm⟩

theorem Carries.importState [LimitedSerde]
    {localPeer unitMode} (h : s.Carries) (hroom : s.exportBound localPeer < u64Max)
    (hd : PendingDecodes s.sync)
    (henc : encodeDeferred s.deferred = .ok deferred)
    (himp : Session.importState s.document s.sync.appliedOps s.sync.pendingOps deferred localPeer
      unitMode = .ok s') : s'.Traceable := by
  obtain ⟨envelopes, hdec, rfl⟩ := importState_ok himp
  obtain ⟨hdoc, hkept, hwait⟩ := Covered.restored h henc hdec
  set r := restoreSync s.sync.appliedOps s.sync.pendingOps with hr
  have hseen : ∀ p, r.stateVector.seen p = maxCounter p (s.sync.appliedOps.map Operation.id) := by
    intro p
    rw [hr, restoreSync, stateVector_restorePending, seen_restoreApplied]
    simp [SyncState.new]
  have hcov : ∀ op ∈ s.sync.appliedOps, r.stateVector.covers op.id := by
    intro op hop
    rw [StateVector.covers, hseen]
    exact le_maxCounter (List.mem_map_of_mem hop)
  obtain ⟨hfiled, hfrontier⟩ :=
    filed_restored s.sync.pendingOps hcov r.checkpointEpoch r.deltaFloor
  have hsame : r.frontier = s.exportBound := by
    funext p
    rw [exportBound, ← hseen p]
    exact hfrontier p
  refine ⟨?_, hfiled, hd.restoreSync _, ?_⟩
  · rw [hsame]
    exact ⟨hdoc, hkept, hwait _⟩
  · rw [hsame]
    refine lt_min (Nat.lt_succ_of_le (max_le_max (maxCounter_le_iff.mpr ?_) le_rfl)) hroom
    rintro x hx rfl
    exact le_maxCounter (mem_append_left _ hx)

/-! ## Whole lives -/

/-- The sessions that local calls, checkpoints, restarts and joins lead to while there are
    counters left, and messages and imports that account for their ids. -/
inductive Life : Session → Prop
  | start (peer : PeerId) (unitMode : Bool) : Life (withMode peer unitMode)
  | call {s : Session} (c : Call) (h : Life s) (hroom : (s.after c).nextCounter ≤ u64Max) :
      Life (s.after c)
  | applyRemote {s s' : Session} {message : ChangeMessage Serde.Payload}
      {limits : ValidationLimits} {result : SessionApplyResult} (h : Life s)
      (hok : s.applyRemote message limits = (s', .ok result)) (hm : s.Traces message) : Life s'
  | checkpointHistory {s : Session} (request : CheckpointRequest) (h : Life s) :
      Life (s.checkpointHistory request).1
  | restore {s s' : Session} {snap : SessionSnapshot} (h : Life s)
      (hsave : s.saveSnapshot = .ok snap) (hrestore : restoreFromSnapshot snap = .ok s') : Life s'
  | rebindPeer {s : Session} (localPeer : PeerId) (h : Life s)
      (hroom : s.sync.frontier localPeer < u64Max) : Life (s.rebindPeer localPeer)
  | rebase {s s' : Session} {snap : SessionSnapshot} {localPeer : PeerId} (h : Life s)
      (hsave : s.saveSnapshot = .ok snap) (hroom : s.sync.frontier localPeer < u64Max)
      (hrebase : rebaseFromSnapshot snap localPeer = .ok s') : Life s'
  | importState {s s' : Session} {deferred : List (Operation Serde.Payload)} {localPeer : PeerId}
      {unitMode : Bool} (h : Life s) (hc : s.Carries) (hroom : s.exportBound localPeer < u64Max)
      (henc : encodeDeferred s.deferred = .ok deferred)
      (himp : importState s.document s.sync.appliedOps s.sync.pendingOps deferred localPeer
        unitMode = .ok s') : Life s'

theorem Life.traceable [LimitedSerde] (h : Life s) : s.Traceable := by
  induction h with
  | start peer unitMode => exact traceable_start peer unitMode
  | call c _ _ ih => exact ih.after c
  | applyRemote _ hok hm ih => exact ih.applyRemote hok hm
  | checkpointHistory request _ ih => exact ih.checkpointHistory request
  | restore _ hsave hrestore ih => exact (ih.restore hsave hrestore).1
  | rebindPeer localPeer _ hroom ih => exact ih.rebindPeer hroom
  | @rebase s s' snap localPeer _ hsave hroom hrebase ih =>
    rw [rebaseFromSnapshot] at hrebase
    cases hr : restoreFromSnapshot snap with
    | error e => rw [hr] at hrebase; cases hrebase
    | ok t =>
      rw [hr] at hrebase
      obtain rfl := Except.ok.inj hrebase
      obtain ⟨ht, hfrontier⟩ := ih.restore hsave hr
      exact ht.rebindPeer (hfrontier ▸ hroom)
  | importState _ hc hroom henc himp ih => exact hc.importState hroom ih.decodes henc himp

/-- In every session of such a life the local peer's next id is new. What a message may bring of
    the local peer cannot be relaxed: one that brings no id ahead of its peer's operations leaves
    the clock ahead exactly when its own operations of the local peer are behind the clock. -/
theorem life_fresh [LimitedSerde] (h : Life s) : s.Fresh ∧
    ∀ (message : ChangeMessage Serde.Payload) (limits : ValidationLimits) (s' : Session)
      (result : SessionApplyResult), s.applyRemote message limits = (s', .ok result) →
      (∀ o ∈ message.ops, PayloadUnder (s.messageBound message) o.payload) →
      (s'.Fresh ↔ ∀ o ∈ message.ops, o.id.peer = s.peer → o.id.counter < s.nextCounter) := by
  have hs := h.traceable
  refine ⟨hs.fresh, fun message limits s' result hok hm => ⟨fun hfresh => ?_, fun hown => ?_⟩⟩
  · obtain ⟨ht, -, hfrontier⟩ := hs.taken hok hm
    have hlt := hfresh.frontier_lt
    rw [hfrontier, ht.peer, ht.clock] at hlt
    exact (hs.messageBound_lt_iff message).mp hlt
  · exact (hs.applyRemote hok ⟨hown, hm⟩).fresh

end Session
end Bounds

section Examples
attribute [local instance] charSegmentation envelopeSerde

/-- A paragraph of peer 1 and two units in it. -/
def letter : ChangeMessage Envelope :=
  ⟨.new,
    [⟨⟨1, 1⟩, (DocOp.insertBlock none none ⟨1, 1⟩ none ⟨⟨1, 1⟩, .paragraph ""⟩).envelope⟩,
     ⟨⟨3, 1⟩, (DocOp.insertText ⟨1, 1⟩ ⟨1, 1⟩ [⟨⟨2, 1⟩, none, none, "a"⟩,
       ⟨⟨3, 1⟩, some ⟨2, 1⟩, none, "b"⟩]).envelope⟩]⟩

/-- Peer 2 takes it in and goes on as peer 1. -/
theorem life_fresh_rejoined :
    (((Session.new 2).applyRemote letter .default).1.rebindPeer 1).Fresh := by
  have := envelopeSerde_lawful
  have hm : (Session.new 2).Traces letter := by
    refine ⟨by decide, ?_⟩
    simp only [letter, forall_mem_cons]
    refine ⟨fun env hd => ?_, fun env hd => ?_, by simp⟩
    · obtain rfl := Except.ok.inj hd
      unfold DocOp.BringsUnder
      decide +kernel
    · obtain rfl := Except.ok.inj hd
      unfold DocOp.BringsUnder
      decide +kernel
  have hok : (Session.new 2).applyRemote letter .default =
      (((Session.new 2).applyRemote letter .default).1, .ok ⟨[⟨1, 1⟩, ⟨3, 1⟩], []⟩) := rfl
  exact (Session.life_fresh (.rebindPeer 1 (.applyRemote (.start 2 true) hok hm)
    (by decide +kernel))).1

/-- A paragraph and a unit of peer 1, the log pruned. -/
def prunedSession : Session :=
  ((((Session.new 1).after (.insertParagraphIn none none "")).after
    (.insertText ⟨1, 1⟩ 0 "a")).checkpointHistory ⟨0, []⟩).1

/-- A session of peer 1 that starts anew gets back what it had made before: its clock would give
    the id out again. So it would if it imported a document whose last unit is its own. -/
theorem clock_behind_own_operation : (∃ (message : ChangeMessage Envelope) (s : Session)
    (result : SessionApplyResult),
    ((Session.new 1).after (.setFrontmatterField "a" none)).encodeChangesSince .new =
      .ok message ∧ (Session.new 1).applyRemote message .default = (s, .ok result) ∧
    s.sync.stateVector.seen 1 = 1 ∧ s.nextCounter = 1 ∧ ¬s.Fresh) ∧
    ∃ s : Session, Session.importState prunedSession.document prunedSession.sync.appliedOps
      prunedSession.sync.pendingOps [] 1 true = .ok s ∧
      ⟨2, 1⟩ ∈ s.document.ids ∧ s.nextCounter = 2 ∧ ¬s.Fresh := by
  refine ⟨⟨_, _, _, rfl, rfl, by decide +kernel, by decide +kernel, fun h => ?_⟩,
    ⟨_, rfl, by decide +kernel, by decide +kernel, fun h => ?_⟩⟩
  · exact absurd h.seen (by decide +kernel)
  · exact absurd (h.document ⟨2, 1⟩ (by decide +kernel) rfl) (by decide +kernel)

end Examples
end MdCrdt
