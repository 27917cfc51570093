import MdCrdt.Session.Lifetime

/- Deliveries to one session, and checkpoints between them.

  A ledger follows a session through messages, checkpoints and restarts: which ids
  were reported as applied, which operations have been in the log, and which ids
  checkpoints have taken off it. An id is recognised as a duplicate only while it is
  in the log, so a checkpoint makes room for a second application; and a deferred
  operation is applied only while it is in the log, so a checkpoint can strand it.
  As long as no pruned operation is delivered again, each id is reported, and an
  envelope delivered under it is applied, at most once (`Once`). -/
namespace MdCrdt
open Lib List SortedMap SyncState

section
variable [Segmentation] [Serde]

/-- What a session goes through. -/
inductive Event where
  | receive (message : ChangeMessage Serde.Payload) (limits : ValidationLimits)
  | checkpoint (request : CheckpointRequest)
  | restart

/-- A session with its past. -/
structure Ledger where
  session : Session
  reported : List OpId
  logged : List (Operation Serde.Payload)
  pruned : List OpId

namespace Ledger
open Session

def start (peer : PeerId) (unitMode : Bool) : Ledger := ⟨withMode peer unitMode, [], [], []⟩

/-- A snapshot is saved and restored; if that is refused, the session goes on as it is. -/
def restarted (s : Session) : Session :=
  match s.saveSnapshot with
  | .error _ => s
  | .ok snap => match restoreFromSnapshot snap with
    | .error _ => s
    | .ok s' => s'

def step (l : Ledger) : Event → Ledger
  | .receive message limits =>
    let (s, result) := l.session.applyRemote message limits
    let applied := match result with
      | .ok result => result.applied
      | .error _ => []
    ⟨s, l.reported ++ applied, l.logged ++ s.sync.appliedOps, l.pruned⟩
  | .checkpoint request =>
    let s := (l.session.checkpointHistory request).1
    ⟨s, l.reported, l.logged,
      l.pruned ++ l.session.sync.ops.keys.filter (fun id => !s.sync.contains id)⟩
  | .restart => { l with session := restarted l.session }

def run (peer : PeerId) (unitMode : Bool) (events : List Event) : Ledger :=
  events.foldl step (start peer unitMode)

end Ledger

namespace Session
variable {s : Session} {id : OpId} {env : Envelope} {result : SessionApplyResult}

theorem applyOrDefer_of_ready (h : s.observedFrontierIsReady env = true) (id result) :
    s.applyOrDefer id env result = ({ s with document := applyEnvelopeToDocument s.document env },
        ⟨if id ∈ result.applied then result.applied else result.applied ++ [id],
          result.buffered.filter (fun pending => pending ≠ id)⟩) :=
  if_neg (by simp [h])

theorem applyOrDefer_of_not_ready (h : s.observedFrontierIsReady env = false) (id result) :
    (s.applyOrDefer id env result).1 =
      { s with pendingEnvelopes := s.pendingEnvelopes.insert id env } ∧
    (s.applyOrDefer id env result).2.applied = result.applied := by
  unfold applyOrDefer
  rw [if_pos (by simp [h])]
  refine ⟨rfl, ?_⟩
  simp only
  split <;> rfl

/-- What is kept once an operation has been dealt with. -/
theorem get?_closed (s : Session) (id env result k) :
    ((s.unkeep id).applyOrDefer id env result).1.pendingEnvelopes.get? k =
      if k = id then if s.observedFrontierIsReady env then none else some env
      else s.pendingEnvelopes.get? k := by
  have hsame : (s.unkeep id).observedFrontierIsReady env = s.observedFrontierIsReady env := rfl
  cases hr : s.observedFrontierIsReady env with
  | true => rw [applyOrDefer_of_ready (hsame.trans hr), get?_erase]; rfl
  | false =>
    rw [(applyOrDefer_of_not_ready (hsame.trans hr) id result).1, get?_insert, get?_erase]
    split <;> rfl

theorem mem_applyOrDefer (s : Session) (id env result k) :
    k ∈ (s.applyOrDefer id env result).2.applied ↔
      k ∈ result.applied ∨ s.observedFrontierIsReady env = true ∧ k = id := by
  cases hr : s.observedFrontierIsReady env with
  | true =>
    rw [applyOrDefer_of_ready hr]
    by_cases hin : id ∈ result.applied
    · rw [if_pos hin]
      exact ⟨.inl, fun hk => hk.elim (fun hk => hk) (fun hk => hk.2 ▸ hin)⟩
    · rw [if_neg hin]; simp
  | false => rw [(applyOrDefer_of_not_ready hr id result).2]; simp

/-! ## At most once -/

/-- The envelope of a delivered operation. -/
def Brought (delivered : Operation Serde.Payload → Prop) (id : OpId) (env : Envelope) : Prop :=
  ∃ payload, delivered ⟨id, payload⟩ ∧ decode payload = .ok env

/-- What was reported was applied once each, under an envelope delivered with the id; `todo` has
    been logged and not been dealt with. -/
structure Once (delivered : Operation Serde.Payload → Prop) (pruned reported : List OpId)
    (todo : List OpId) (s : Session) (result : SessionApplyResult) : Prop where
  nodup : (reported ++ result.applied).Nodup
  document : ∃ trace : List (OpId × Envelope), trace.map Prod.fst = reported ++ result.applied ∧
    (∀ e ∈ trace, Brought delivered e.1 e.2) ∧
    s.document = trace.foldl (fun d e => applyEnvelopeToDocument d e.2) .new
  known : ∀ id ∈ reported ++ result.applied, s.sync.contains id = true ∨ id ∈ pruned
  waiting : ∀ id op n, s.sync.pending.get? id = some (op, n) →
    op.id = id ∧ s.sync.contains id = false ∧ id ∉ pruned ∧ delivered op
  kept : ∀ id env, s.pendingEnvelopes.get? id = some env → Brought delivered id env ∧
    id ∉ reported ++ result.applied ∧
    ((s.sync.pending.get? id).isSome ∨ s.sync.contains id = true ∨ id ∈ pruned)
  todo_nodup : todo.Nodup
  todo_open : ∀ id ∈ todo, s.sync.contains id = true ∧ id ∉ reported ++ result.applied

namespace Once
variable {delivered : Operation Serde.Payload → Prop} {pruned reported todo : List OpId}
  {op : Operation Serde.Payload}

theorem start (peer unitMode) : Once delivered [] [] [] (withMode peer unitMode) ⟨[], []⟩ where
  nodup := nodup_nil
  document := ⟨[], rfl, by simp, rfl⟩
  known := by simp
  waiting := by simp [withMode, SyncState.new]
  kept := by simp [withMode]
  todo_nodup := nodup_nil
  todo_open := by simp

/-- Letting go of a kept envelope. -/
theorem forget (h : Once delivered pruned reported todo s result) (id) :
    Once delivered pruned reported todo (s.unkeep id) result where
  __ := h
  kept k env hk := h.kept k env (get?_erase_eq_some.mp hk).2

/-- The next operation is applied or deferred. -/
theorem finish (h : Once delivered pruned reported (id :: todo) s result)
    (hn : s.pendingEnvelopes.get? id = none) (henv : Brought delivered id env) :
    Once delivered pruned reported todo (s.applyOrDefer id env result).1
      (s.applyOrDefer id env result).2 := by
  obtain ⟨hopen, hrest⟩ := forall_mem_cons.mp h.todo_open
  obtain ⟨hnotin, htodo⟩ := nodup_cons.mp h.todo_nodup
  have hne : ∀ k ∈ todo, k ≠ id := fun k hk he => hnotin (he ▸ hk)
  cases hr : s.observedFrontierIsReady env with
  | false =>
    obtain ⟨hs, happ⟩ := applyOrDefer_of_not_ready hr id result
    rw [hs]
    refine ⟨happ ▸ h.nodup, happ ▸ h.document, happ ▸ h.known, h.waiting, ?_, htodo, happ ▸ hrest⟩
    intro k env' hk
    rw [happ]
    rcases get?_insert_eq_some.mp hk with ⟨rfl, -⟩ | ⟨-, hk⟩
    · exact ⟨by simp_all, hopen.2, .inr (.inl hopen.1)⟩
    · exact h.kept k env' hk
  | true =>
    have hnew : id ∉ result.applied := fun hm => hopen.2 (mem_append_right _ hm)
    rw [applyOrDefer_of_ready hr, if_neg hnew]
    -- the reported ids grow by this one
    have hmem : ∀ k, k ∈ reported ++ (result.applied ++ [id]) ↔
        k ∈ reported ++ result.applied ∨ k = id := by
      intro k
      simp only [mem_append, mem_singleton, or_assoc]
    refine ⟨?_, ?_, ?_, h.waiting, ?_, htodo, ?_⟩
    · rw [← append_assoc]
      exact nodup_push h.nodup hopen.2
    · obtain ⟨trace, hids, hbrought, hdoc⟩ := h.document
      refine ⟨trace ++ [(id, env)], ?_, forall_mem_append.mpr ⟨hbrought, by simpa⟩, ?_⟩
      · rw [map_append, hids, ← append_assoc]
        rfl
      · rw [foldl_append, ← hdoc]
        rfl
    · intro k hk
      rcases (hmem k).mp hk with hk | rfl
      · exact h.known k hk
      · exact .inl hopen.1
    · intro k env' hk
      obtain ⟨hbrought, hnot, hplace⟩ := h.kept k env' hk
      refine ⟨hbrought, fun hrep => ?_, hplace⟩
      rcases (hmem k).mp hrep with hrep | rfl
      · exact hnot hrep
      · rw [hn] at hk
        cases hk
    · intro k hk
      refine ⟨(hrest k hk).1, fun hrep => ?_⟩
      rcases (hmem k).mp hrep with hrep | heq
      · exact (hrest k hk).2 hrep
      · exact hne k hk heq

/-- Another operation goes to the log. -/
theorem record (h : Once delivered pruned reported todo s result) (op)
    (pending : SortedMap OpId (Operation Serde.Payload × Nat))
    (hpend : ∀ k, pending.get? k = if k = op.id then none else s.sync.pending.get? k)
    (hc : s.sync.contains op.id = false) (hp : op.id ∉ pruned) :
    Once delivered pruned reported (todo ++ [op.id])
      { s with sync := record { s.sync with pending := pending } op } result where
  __ := h
  known id hid := (h.known id hid).imp_left (fun hk => (contains_record op id).mpr (.inr hk))
  waiting id o n hw := by
    obtain ⟨hne, hw⟩ := pending_of_record hpend hw
    obtain ⟨h1, h2, h3⟩ := h.waiting id o n hw
    exact ⟨h1, not_contains_record hne h2, h3⟩
  kept id env hk := by
    obtain ⟨hbrought, hnot, hplace⟩ := h.kept id env hk
    refine ⟨hbrought, hnot, ?_⟩
    by_cases hid : id = op.id
    · exact .inr (.inl ((contains_record op id).mpr (.inl hid)))
    · rcases hplace with hw | hw | hw
      · left
        simpa only [pending_record, hpend, if_neg hid] using hw
      · exact .inr (.inl ((contains_record op id).mpr (.inr hw)))
      · exact .inr (.inr hw)
  todo_nodup := by
    refine nodup_push h.todo_nodup (fun hk => ?_)
    exact Bool.false_ne_true (hc.symm.trans (h.todo_open _ hk).1)
  todo_open id hid := by
    rcases mem_append.mp hid with hid | hid
    · exact ⟨(contains_record op id).mpr (.inr (h.todo_open id hid).1),
        (h.todo_open id hid).2⟩
    · rw [mem_singleton.mp hid]
      refine ⟨(contains_record op _).mpr (.inl rfl), fun hrep => ?_⟩
      rcases h.known _ hrep with hk | hk
      · exact Bool.false_ne_true (hc.symm.trans hk)
      · exact hp hk

/-- An operation waits. -/
theorem wait (h : Once delivered pruned reported [] s result) {sync}
    (hb : Buffered s.sync sync op) (hp : op.id ∉ pruned) (hop : delivered op)
    (henv : decode op.payload = .ok env) : Once delivered pruned reported []
      { s with sync := sync, pendingEnvelopes := s.pendingEnvelopes.insert op.id env }
      { result with buffered := result.buffered ++ [op.id] } := by
  refine ⟨h.nodup, h.document, ?_, ?_, ?_, nodup_nil, by simp⟩
  · intro id hid
    rw [hb.contains]
    exact h.known id hid
  · intro id o n hw
    rw [hb.contains]
    rcases hb.pending hw with hw | ⟨rfl, rfl⟩
    · exact h.waiting id o n hw
    · exact ⟨rfl, hb.absent, hp, hop⟩
  · intro id env' hk
    rw [hb.contains]
    rcases get?_insert_eq_some.mp hk with ⟨rfl, rfl⟩ | ⟨-, hk⟩
    · refine ⟨⟨op.payload, hop, henv⟩, fun hr => ?_, .inl (hb.isSome (.inl rfl))⟩
      rcases h.known _ hr with hk | hk
      · exact Bool.false_ne_true (hb.absent.symm.trans hk)
      · exact hp hk
    · obtain ⟨hbrought, hnot, hplace⟩ := h.kept id env' hk
      exact ⟨hbrought, hnot, hplace.imp_left (fun hw => hb.isSome (.inr hw))⟩

theorem integration (delivered pruned reported) :
    Integration (fun op => op.id ∉ pruned ∧ delivered op) (fun todo s result =>
      Once delivered pruned reported (todo.map Operation.id) s result ∧
        ∀ op ∈ todo, delivered op) where
  log {s result op env} h hq henv ha := by
    obtain ⟨h, -⟩ := h
    obtain ⟨-, hc, hp, -⟩ := applyOne_applied ha
    have hrec := h.record op s.sync.pending (fun k => ?_) hc hq.1
    · refine ⟨hrec.finish ?_ ⟨op.payload, hq.2, henv⟩, by simp⟩
      rw [Option.eq_none_iff_forall_ne_some]
      intro env' he
      rcases (h.kept _ _ he).2.2 with hw | hw | hw
      · rw [hp] at hw
        cases hw
      · exact Bool.false_ne_true (hc.symm.trans hw)
      · exact hq.1 hw
    · split
      · next hk => rw [hk, hp]
      · rfl
  wait {s result op env sync} h hq henv ha :=
    ⟨h.1.wait (buffered ha) hq.1 hq.2 henv, by simp⟩
  promote {todo s result id op n} h hw _ := by
    obtain ⟨h, htodo⟩ := h
    obtain ⟨rfl, hc, hp, hop⟩ := h.waiting _ _ _ hw
    have hrec := h.record op (s.sync.pending.erase op.id) (fun k => get?_erase _ _ _) hc hp
    rw [map_append]
    exact ⟨hrec, forall_mem_append.mpr ⟨htodo, by simpa⟩⟩
  settle {op todo s s₁ result env} h hf := by
    obtain ⟨h, htodo⟩ := h
    obtain ⟨hop, htodo⟩ := forall_mem_cons.mp htodo
    cases hf with
    | kept hk => exact ⟨(h.forget op.id).finish (by simp) (h.kept _ _ hk).1, htodo⟩
    | decoded hn henv => exact ⟨h.finish hn ⟨op.payload, hop, henv⟩, htodo⟩
  release {s result id env} h hk hc := by
    obtain ⟨h, -⟩ := h
    have hopen : Once delivered pruned reported [id] (s.unkeep id) result := by
      have hforget := h.forget id
      refine ⟨hforget.nodup, hforget.document, hforget.known, hforget.waiting, hforget.kept,
        nodup_singleton id, fun k hk' => ?_⟩
      rw [mem_singleton.mp hk']
      exact ⟨hc, (h.kept id env hk).2.1⟩
    exact ⟨hopen.finish (by simp) (h.kept id env hk).1, by simp⟩

/-- A checkpoint moves ids from the log to the pruned ones. -/
theorem checkpoint (h : Once delivered pruned reported [] s ⟨[], []⟩) (request) :
    Once delivered (pruned ++ s.sync.ops.keys.filter
        (fun id => !(s.checkpointHistory request).1.sync.contains id)) reported []
      (s.checkpointHistory request).1 ⟨[], []⟩ := by
  have hmove : ∀ id, s.sync.contains id = true ∨ id ∈ pruned →
      (s.checkpointHistory request).1.sync.contains id = true ∨
        id ∈ pruned ++ s.sync.ops.keys.filter
          (fun id => !(s.checkpointHistory request).1.sync.contains id) := by
    rintro id (hc | hp)
    · by_cases hc' : (s.checkpointHistory request).1.sync.contains id = true
      · exact .inl hc'
      · refine .inr (mem_append_right _ (mem_filter.mpr ⟨?_, by simpa using hc'⟩))
        exact contains_iff_mem_keys.mp hc
    · exact .inr (mem_append_left _ hp)
  have hpending : (s.checkpointHistory request).1.sync.pending = s.sync.pending :=
    pending_checkpoint s.sync request
  refine ⟨h.nodup, h.document, fun id hid => hmove id (h.known id hid), fun id op n hw => ?_,
    fun id env hk => ?_, nodup_nil, by simp⟩
  · rw [hpending] at hw
    obtain ⟨h1, h2, h3, h4⟩ := h.waiting id op n hw
    refine ⟨h1, Bool.eq_false_iff.mpr (fun hc => ?_), fun hp => ?_, h4⟩
    · exact Bool.false_ne_true (h2.symm.trans (contains_of_checkpoint hc))
    · rcases mem_append.mp hp with hp | hp
      · exact h3 hp
      · have hc := contains_iff_mem_keys.mpr (mem_of_mem_filter hp)
        exact Bool.false_ne_true (h2.symm.trans hc)
  · obtain ⟨hbrought, hnot, hplace⟩ := h.kept id env hk
    refine ⟨hbrought, hnot, ?_⟩
    rcases hplace with hw | hc
    · exact .inl (hpending ▸ hw)
    · exact .inr (hmove id hc)

/-- The result of a call joins what has been reported. -/
theorem carry (h : Once delivered pruned reported [] s result) :
    Once delivered pruned (reported ++ result.applied) [] s ⟨[], []⟩ where
  nodup := by simpa using h.nodup
  document := by simpa using h.document
  known := by simpa using h.known
  __ := h
  kept := by simpa using h.kept
  todo_nodup := nodup_nil
  todo_open := by simp

/-- A message without pruned operations. -/
theorem receive (h : Once delivered pruned reported [] s ⟨[], []⟩) (hd : PendingDecodes s.sync)
    (hm : ∀ o ∈ message.ops, o.id ∉ pruned ∧ delivered o)
    (limits) : (∃ error, s.applyRemote message limits = (s, .error error)) ∨
    ∃ s' result, s.applyRemote message limits = (s', .ok result) ∧ PendingDecodes s'.sync ∧
      Once delivered pruned (reported ++ result.applied) [] s' ⟨[], []⟩ := by
  rcases (integration delivered pruned reported).applyRemote hm limits hd ⟨h, by simp⟩ with
    he | ⟨s', result, heq, ⟨ho, -⟩, hd'⟩
  · exact .inl he
  · exact .inr ⟨s', result, heq, hd', ho.carry⟩

end Once
end Session

namespace Ledger
open Session

/-- A message that brings an operation which a checkpoint has pruned. -/
def Redelivers (l : Ledger) : Event → Prop
  | .receive message _ => ∃ o ∈ message.ops, o.id ∈ l.pruned
  | _ => False

/-- Messages and checkpoints, and no pruned operation is delivered again. -/
def NeverRedelivers : Ledger → List Event → Prop
  | _, [] => True
  | _, .restart :: _ => False
  | l, e :: events => ¬l.Redelivers e ∧ NeverRedelivers (l.step e) events

/-- The operations of the messages. -/
def Delivered (events : List Event) (o : Operation Serde.Payload) : Prop :=
  ∃ message limits, .receive message limits ∈ events ∧ o ∈ message.ops

theorem once_step {l : Ledger} {all : List Event}
    (h : Once (Delivered all) l.pruned l.reported [] l.session ⟨[], []⟩)
    (hd : PendingDecodes l.session.sync) (he : e ∈ all) (hne : e ≠ .restart)
    (hr : ¬l.Redelivers e) :
    Once (Delivered all) (l.step e).pruned (l.step e).reported [] (l.step e).session ⟨[], []⟩ ∧
      PendingDecodes (l.step e).session.sync := by
  cases e with
  | restart => exact absurd rfl hne
  | checkpoint request =>
    refine ⟨h.checkpoint request, fun w hw => hd w ?_⟩
    rwa [step, Session.checkpointHistory, pending_checkpoint] at hw
  | receive message limits =>
    have hm : ∀ o ∈ message.ops, o.id ∉ l.pruned ∧ Delivered all o :=
      fun o ho => ⟨fun hp => hr ⟨o, ho, hp⟩, message, limits, he, ho⟩
    rcases h.receive hd hm limits with ⟨error, heq⟩ | ⟨s', result, heq, hd', ho⟩
    · simp only [step, heq, append_nil]
      exact ⟨h, hd⟩
    · simp only [step, heq]
      exact ⟨ho, hd'⟩

theorem once_run {l : Ledger} {all events : List Event} (hall : ∀ e ∈ events, e ∈ all)
    (h : Once (Delivered all) l.pruned l.reported [] l.session ⟨[], []⟩)
    (hd : PendingDecodes l.session.sync) (hr : l.NeverRedelivers events) :
    Once (Delivered all) (events.foldl step l).pruned (events.foldl step l).reported []
      (events.foldl step l).session ⟨[], []⟩ := by
  induction events generalizing l with
  | nil => exact h
  | cons e events ih =>
    cases e with
    | restart => exact hr.elim
    | checkpoint request | receive message limits =>
      obtain ⟨he, hrest⟩ := forall_mem_cons.mp hall
      obtain ⟨h', hd'⟩ := once_step h hd he (by simp) hr.1
      exact ih hrest h' hd' hr.2

/-- Exactly once: in every run of messages and checkpoints in which no message brings an
    operation that a checkpoint has pruned, no id is reported twice, and the document is what the
    reported operations make of an empty one, each applied once under the envelope of a payload
    that a message brought for its id. -/
theorem applied_once (peer : PeerId) (unitMode : Bool) (events : List Event)
    (h : (start peer unitMode).NeverRedelivers events) : (run peer unitMode events).reported.Nodup ∧
    ∃ trace : List (OpId × Envelope), trace.map Prod.fst = (run peer unitMode events).reported ∧
      (∀ e ∈ trace, ∃ message limits payload, .receive message limits ∈ events ∧
        ⟨e.1, payload⟩ ∈ message.ops ∧ decode payload = .ok e.2) ∧
      (run peer unitMode events).session.document =
        trace.foldl (fun d e => applyEnvelopeToDocument d e.2) .new := by
  have hrun := once_run (l := start peer unitMode) (fun _ he => he) (Once.start peer unitMode)
    (fun e he => by cases he) h
  obtain ⟨trace, hids, hbrought, hdoc⟩ := hrun.document
  refine ⟨by simpa [run] using hrun.nodup, trace, by simpa [run] using hids, fun e he => ?_, hdoc⟩
  obtain ⟨payload, ⟨message, limits, hin, ho⟩, henv⟩ := hbrought e he
  exact ⟨message, limits, payload, hin, ho, henv⟩

end Ledger
end

section
attribute [local instance] charSegmentation envelopeSerde

/-- A message with one operation of another peer. -/
def fieldMessage : ChangeMessage Envelope :=
  ⟨.new, [⟨⟨1, 1⟩, (DocOp.setFrontmatterField ⟨1, 1⟩ "a" none).envelope⟩]⟩

/-- Delivered, pruned and delivered again, an operation is reported twice. -/
theorem Ledger.pruned_reported_twice :
    (Ledger.run 2 true [.receive fieldMessage .default, .checkpoint ⟨0, []⟩,
      .receive fieldMessage .default]).reported = [⟨1, 1⟩, ⟨1, 1⟩] := by
  decide +kernel

/-- The first operation is delivered twice and pruned, and another one comes in. -/
def prunedBetween : List Event :=
  [.receive fieldMessage .default, .receive fieldMessage .default, .checkpoint ⟨0, []⟩,
    .receive ⟨.new, [⟨⟨2, 1⟩, (DocOp.setFrontmatterField ⟨2, 1⟩ "b" none).envelope⟩]⟩
      .default]

/-- The second delivery is recognised, and the checkpoint does no harm. -/
theorem Ledger.applied_once_repeated : (Ledger.run 2 true prunedBetween).reported =
      [⟨1, 1⟩, ⟨2, 1⟩] ∧ (Ledger.run 2 true prunedBetween).pruned = [⟨1, 1⟩] ∧
    (Ledger.run 2 true prunedBetween).reported.Nodup := by
  refine ⟨by decide +kernel, by decide +kernel, (Ledger.applied_once 2 true prunedBetween
    ⟨?_, ?_, (fun h => h), ?_, trivial⟩).1⟩
  · rintro ⟨o, -, ho⟩
    cases ho
  · rintro ⟨o, -, ho⟩
    cases ho
  · rintro ⟨o, ho, hp⟩
    obtain rfl := mem_singleton.mp ho
    exact absurd hp (by decide +kernel)

end
end MdCrdt
