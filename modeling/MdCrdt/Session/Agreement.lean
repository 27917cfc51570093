import MdCrdt.Session.Deliveries

/- The log and the document agree.

  The log keeps payloads, the document has taken in envelopes. They agree when the
  document is what the logged payloads, decoded, make of the empty one, each applied
  once and in some order. An operation that waits is in two places: its payload in
  the buffer of the log, where the first delivery stays, its envelope in
  `pendingEnvelopes`, where the last one does. So the two part when a message brings
  another payload under the id of an operation that waits (`applied_not_as_logged`).
  They also part when the session gives out an id that is in the log already. In every
  session that went through neither, they agree (`log_and_document_agree`). -/
namespace MdCrdt
open Lib List Option SortedMap Bool SyncState

section
variable [Segmentation] [Serde]

/-- What the log holds under an id, applied to a document. -/
def applyLogged (sync : SyncState Serde.Payload) (d : Document) (id : OpId) : Document :=
  match (sync.ops.get? id).map decode with
  | some (.ok envelope) => applyEnvelopeToDocument d envelope
  | _ => d

namespace Session
variable {sync : SyncState Serde.Payload} {id : OpId} {s : Session}

omit [Segmentation] in
/-- The log holds a payload under the id, and it decodes to the envelope. -/
def LoggedAs (sync : SyncState Serde.Payload) (id : OpId) (env : Envelope) : Prop :=
  ∃ payload, sync.ops.get? id = some payload ∧ decode payload = .ok env

theorem LoggedAs.apply (h : LoggedAs sync id env) (d) :
    applyLogged sync d id = applyEnvelopeToDocument d env := by
  obtain ⟨payload, hget, hdec⟩ := h
  simp only [applyLogged, hget, map_some, hdec]

omit [Segmentation] in
theorem LoggedAs.contains (h : LoggedAs sync id env) : sync.contains id = true := by
  obtain ⟨payload, hget, -⟩ := h
  exact contains_iff_get?.mpr ⟨payload, hget⟩

/-- A new entry of the log leaves the others. -/
theorem foldl_applyLogged_congr {sync' : SyncState Serde.Payload} {ids : List OpId}
    (h : ∀ id ∈ ids, sync'.ops.get? id = sync.ops.get? id) (d) :
    ids.foldl (applyLogged sync') d = ids.foldl (applyLogged sync) d :=
  foldl_ext _ _ d (fun d id hid => by rw [applyLogged, h id hid, applyLogged])

/-! ## The invariant -/

/-- The log, the buffers and the document agree: `reported` is what earlier calls have applied and
    `base` the document they have left, `todo` has been logged and not been dealt with, and
    messages bring what satisfies `Q`. -/
structure Agrees (Q : Operation Serde.Payload → Prop) (reported : List OpId) (base : Document)
    (todo : List (Operation Serde.Payload)) (s : Session) (result : SessionApplyResult) : Prop where
  waiting : ∀ id op n, s.sync.pending.get? id = some (op, n) →
    op.id = id ∧ s.sync.contains id = false ∧
    (∀ env, s.pendingEnvelopes.get? id = some env → decode op.payload = .ok env) ∧
    ∀ o, Q o → o.id = id → decode o.payload = decode op.payload
  kept : ∀ id env, s.pendingEnvelopes.get? id = some env → id ∉ reported ++ result.applied ∧
    ((s.sync.pending.get? id).isSome ∨ LoggedAs s.sync id env)
  todo_nodup : (todo.map Operation.id).Nodup
  todo_open : ∀ o ∈ todo, s.sync.ops.get? o.id = some o.payload ∧ o.id ∉ reported ++ result.applied
  nodup : (reported ++ result.applied).Nodup
  applied : ∀ id ∈ reported ++ result.applied, ∃ env, LoggedAs s.sync id env
  before : base = reported.foldl (applyLogged s.sync) .new
  document : s.document = result.applied.foldl (applyLogged s.sync) base

namespace Agrees
variable {Q : Operation Serde.Payload → Prop} {reported : List OpId} {base : Document}
variable {env : Envelope}
  {todo : List (Operation Serde.Payload)} {s : Session} {result : SessionApplyResult}
  {op : Operation Serde.Payload}

theorem start (peer unitMode) : Agrees Q [] .new [] (withMode peer unitMode) ⟨[], []⟩ where
  waiting := by simp [withMode, SyncState.new]
  kept := by simp [withMode]
  todo_nodup := nodup_nil
  todo_open := by simp
  nodup := nodup_nil
  applied := by simp
  before := rfl
  document := rfl

section
variable (h : Agrees Q reported base todo s result)
include h

/-- What is kept for a logged operation is what the log holds. -/
theorem kept_logged (hk : s.pendingEnvelopes.get? id = some env) (hc : s.sync.contains id = true) :
    LoggedAs s.sync id env := by
  rcases (h.kept id env hk).2 with hw | hl
  · obtain ⟨⟨op, n⟩, hw⟩ := isSome_iff_exists.mp hw
    exact absurd hc (by rw [(h.waiting id op n hw).2.1]; decide)
  · exact hl

/-- An operation is dealt with under the envelope that the log holds for it. -/
theorem close (hl : LoggedAs s.sync id env) (hopen : id ∉ reported ++ result.applied) :
    Agrees Q reported base (todo.filter (fun o => o.id ≠ id))
      ((s.unkeep id).applyOrDefer id env result).1 ((s.unkeep id).applyOrDefer id env result).2 := by
  have hmem : ∀ {o}, o ∈ todo.filter (fun o => o.id ≠ id) → o ∈ todo ∧ o.id ≠ id := by
    intro o ho
    simpa using ho
  have hnodup : ((todo.filter (fun o => o.id ≠ id)).map Operation.id).Nodup :=
    h.todo_nodup.sublist (filter_sublist.map _)
  have hnew : id ∉ result.applied := fun hin => hopen (mem_append_right _ hin)
  have hget := get?_closed s id env result
  set s₀ := s.unkeep id
  have hsync : (s₀.applyOrDefer id env result).1.sync = s.sync := applyOrDefer_sync s₀ id env result
  have hrep : ∀ {k}, k ∈ reported ++ (s₀.applyOrDefer id env result).2.applied →
      k ∈ reported ++ result.applied ∨ s.observedFrontierIsReady env = true ∧ k = id := by
    intro k hk
    rw [mem_append, mem_applyOrDefer] at hk
    exact hk.elim (fun hk => .inl (mem_append_left _ hk)) (Or.imp_left (mem_append_right _))
  refine ⟨fun k o n hw => ?_, fun k env' hk => ?_, hnodup, fun o ho => ?_, ?_, fun k hk => ?_,
    by rw [hsync]; exact h.before, ?_⟩
  · rw [hsync] at hw ⊢
    obtain ⟨h1, h2, h3, h4⟩ := h.waiting k o n hw
    have hne : k ≠ id := fun hid => false_ne_true (h2.symm.trans (hid ▸ hl.contains))
    exact ⟨h1, h2, fun env' hk => h3 env' (by rwa [hget, if_neg hne] at hk), h4⟩
  · rw [hget] at hk; rw [hsync]
    split_ifs at hk with hid hr
    · rw [hid, ← some.inj hk]
      exact ⟨fun hin => (hrep hin).elim hopen (fun hin => hr hin.1), .inr hl⟩
    · obtain ⟨hnot, hcase⟩ := h.kept k env' hk
      exact ⟨fun hin => (hrep hin).elim hnot (fun hin => hid hin.2), hcase⟩
  · obtain ⟨ho, hne⟩ := hmem ho
    obtain ⟨hlog, hnot⟩ := h.todo_open o ho
    rw [hsync]; exact ⟨hlog, fun hin => (hrep hin).elim hnot (fun hin => hne hin.2)⟩
  · cases hr : s₀.observedFrontierIsReady env with
    | true =>
      rw [applyOrDefer_of_ready hr, if_neg hnew, ← append_assoc]
      exact nodup_push h.nodup hopen
    | false => rw [(applyOrDefer_of_not_ready hr id result).2]; exact h.nodup
  · rw [hsync]
    rcases hrep hk with hk | ⟨-, rfl⟩
    · exact h.applied k hk
    · exact ⟨env, hl⟩
  · rw [hsync]
    cases hr : s₀.observedFrontierIsReady env with
    | true =>
      rw [applyOrDefer_of_ready hr, if_neg hnew, foldl_append, ← h.document]
      exact (hl.apply s.document).symm
    | false =>
      obtain ⟨hs, happlied⟩ := applyOrDefer_of_not_ready hr id result
      rw [hs, happlied]; exact h.document

/-- An operation enters the log. -/
theorem record (op) {pending : SortedMap OpId (Operation Serde.Payload × Nat)}
    (hpend : ∀ k, pending.get? k = if k = op.id then none else s.sync.pending.get? k)
    (hc : s.sync.contains op.id = false)
    (henv : ∀ env, s.pendingEnvelopes.get? op.id = some env → decode op.payload = .ok env) :
    Agrees Q reported base (todo ++ [op])
      { s with sync := SyncState.record { s.sync with pending := pending } op } result := by
  have hops : ∀ k, (SyncState.record { s.sync with pending := pending } op).ops.get? k =
      if k = op.id then some op.payload else s.sync.ops.get? k := by
    intro k
    rw [ops_record, get?_insert]
  have hold : ∀ {k env}, LoggedAs s.sync k env →
      LoggedAs (SyncState.record { s.sync with pending := pending } op) k env := by
    intro k env hl
    have hne : k ≠ op.id := fun hid => false_ne_true (hc.symm.trans (hid ▸ hl.contains))
    obtain ⟨payload, hget, hdec⟩ := hl
    exact ⟨payload, by rw [hops, if_neg hne, hget], hdec⟩
  have hfresh : ∀ k ∈ reported ++ result.applied, k ≠ op.id := by
    rintro k hk rfl
    obtain ⟨env, hl⟩ := h.applied _ hk
    exact false_ne_true (hc.symm.trans hl.contains)
  have hopen : ∀ o ∈ todo, o.id ≠ op.id := by
    intro o ho hid
    have hin := contains_iff_get?.mpr ⟨_, (h.todo_open o ho).1⟩
    rw [hid] at hin
    exact false_ne_true (hc.symm.trans hin)
  have hsame : ∀ k ∈ reported ++ result.applied,
      (SyncState.record { s.sync with pending := pending } op).ops.get? k = s.sync.ops.get? k :=
    fun k hk => by rw [hops, if_neg (hfresh k hk)]
  refine ⟨fun k o n hw => ?_, fun k env hk => ?_, ?_, fun o ho => ?_, h.nodup, fun k hk => ?_, ?_, ?_⟩
  · obtain ⟨hne, hw⟩ := pending_of_record hpend hw
    obtain ⟨h1, h2, h3, h4⟩ := h.waiting k o n hw
    exact ⟨h1, not_contains_record hne h2, h3, h4⟩
  · obtain ⟨hnot, hcase⟩ := h.kept k env hk
    refine ⟨hnot, ?_⟩
    by_cases hid : k = op.id
    · subst hid
      exact .inr ⟨op.payload, by rw [hops, if_pos rfl], henv env hk⟩
    · refine hcase.imp (fun hw => ?_) hold
      simpa only [pending_record, hpend, if_neg hid] using hw
  · rw [map_append]
    refine nodup_push h.todo_nodup (fun hk => ?_)
    obtain ⟨o, ho, hid⟩ := mem_map.mp hk
    exact hopen o ho hid
  · simp only [hops]
    rcases mem_append.mp ho with ho | ho
    · rw [if_neg (hopen o ho)]
      exact h.todo_open o ho
    · obtain rfl := mem_singleton.mp ho
      exact ⟨if_pos rfl, fun hin => hfresh _ hin rfl⟩
  · obtain ⟨env, hl⟩ := h.applied k hk
    exact ⟨env, hold hl⟩
  · exact h.before.trans (foldl_applyLogged_congr
      (fun k hk => hsame k (mem_append_left _ hk)) _).symm
  · exact h.document.trans (foldl_applyLogged_congr
      (fun k hk => hsame k (mem_append_right _ hk)) _).symm

end

/-- An operation waits. -/
theorem wait (h : Agrees Q reported base [] s result) (hq : Q op)
    (hQ : ∀ o o', Q o → Q o' → o.id = o'.id → decode o.payload = decode o'.payload)
    (hb : SyncState.Buffered s.sync sync op) (hdec : decode op.payload = .ok env) :
    Agrees Q reported base []
      { s with sync := sync, pendingEnvelopes := s.pendingEnvelopes.insert op.id env }
      { result with buffered := result.buffered ++ [op.id] } := by
  have hlogged : ∀ {k env}, LoggedAs s.sync k env → LoggedAs sync k env := by
    rintro k env ⟨payload, hget, hd⟩
    exact ⟨payload, by rw [hb.ops, hget], hd⟩
  refine ⟨fun k o n hw => ?_, fun k env' hk => ?_, nodup_nil, by simp, h.nodup,
    fun k hk => (h.applied k hk).imp (fun _ => hlogged), ?_, ?_⟩
  · rw [hb.contains]
    rcases hb.pending hw with hw | ⟨rfl, rfl⟩
    · obtain ⟨h1, h2, h3, h4⟩ := h.waiting k o n hw
      refine ⟨h1, h2, fun env' hk => ?_, h4⟩
      rcases get?_insert_eq_some.mp hk with ⟨hid, rfl⟩ | ⟨-, hk⟩
      · rw [← h4 op hq hid.symm, hdec]
      · exact h3 env' hk
    · refine ⟨rfl, hb.absent, fun env' hk => ?_, fun o' ho' hid => hQ o' _ ho' hq hid⟩
      rw [get?_insert, if_pos rfl] at hk
      rw [hdec, some.inj hk]
  · rcases get?_insert_eq_some.mp hk with ⟨hid, -⟩ | ⟨-, hk⟩
    · refine ⟨fun hin => ?_, .inl (hb.isSome (.inl hid))⟩
      obtain ⟨env'', hl⟩ := h.applied k hin
      exact false_ne_true (hb.absent.symm.trans (hid ▸ hl.contains))
    · obtain ⟨hnot, hcase'⟩ := h.kept k env' hk
      exact ⟨hnot, hcase'.imp (fun hw => hb.isSome (.inr hw)) hlogged⟩
  · exact h.before.trans (foldl_applyLogged_congr (fun k _ => by rw [hb.ops]) _).symm
  · exact h.document.trans (foldl_applyLogged_congr (fun k _ => by rw [hb.ops]) _).symm

/-- The next operation of `todo`, with its envelope taken from where it is. -/
theorem settle (h : Agrees Q reported base (op :: todo) s result)
    (hf : Fetches s op env s₁) : Agrees Q reported base todo
      (s₁.applyOrDefer op.id env result).1 (s₁.applyOrDefer op.id env result).2 := by
  obtain ⟨⟨hlog, hopen⟩, -⟩ := forall_mem_cons.mp h.todo_open
  have hc : s.sync.contains op.id = true := contains_iff_get?.mpr ⟨_, hlog⟩
  cases hf with
  | kept hk =>
    have hclose := h.close (h.kept_logged hk hc) hopen
    rwa [filter_settled h.todo_nodup] at hclose
  | decoded hn hd =>
    have hclose := h.close ⟨op.payload, hlog, hd⟩ hopen
    rw [filter_settled h.todo_nodup, unkeep, erase_of_get?_none hn] at hclose
    exact hclose

/-- Nothing is kept under a new id. -/
theorem get?_of_new (h : Agrees Q reported base todo s result) (hc : s.sync.contains id = false)
    (hp : s.sync.pending.get? id = none) : s.pendingEnvelopes.get? id = none := by
  rw [eq_none_iff_forall_ne_some]
  intro env hk
  rcases (h.kept _ _ hk).2 with hw | hl
  · rw [hp] at hw
    cases hw
  · exact false_ne_true (hc.symm.trans hl.contains)

theorem integration (reported base)
    (hQ : ∀ o o', Q o → Q o' → o.id = o'.id → decode o.payload = decode o'.payload) :
    Integration Q (Agrees Q reported base) where
  log {s result op env} h _ hdec ha := by
    obtain ⟨-, hc, hp, -⟩ := applyOne_applied ha
    have hn := h.get?_of_new hc hp
    have hrec : Agrees Q reported base ([] ++ [op]) { s with sync := s.sync.record op } result :=
      h.record op (fun k => by split <;> simp_all) hc (fun env' hk => by rw [hn] at hk; cases hk)
    exact hrec.settle (.decoded hn hdec)
  wait {s result op env sync} h hq hdec ha := h.wait hq hQ (buffered ha) hdec
  promote {todo s result id op n} h hw _ := by
    obtain ⟨rfl, hc, henv, -⟩ := h.waiting _ _ _ hw
    exact h.record op (fun k => get?_erase _ _ _) hc henv
  settle h hf := h.settle hf
  release {s result id env} h hk hc := h.close (h.kept_logged hk hc) (h.kept id env hk).1

/-- Between two calls. -/
theorem carry (h : Agrees Q reported base [] s result)
    (hq : ∀ id op n, s.sync.pending.get? id = some (op, n) → ∀ o, P o → o.id = id →
      decode o.payload = decode op.payload) :
    Agrees P (reported ++ result.applied) s.document [] s ⟨[], []⟩ where
  waiting id op n hw := by
    obtain ⟨h1, h2, h3, -⟩ := h.waiting id op n hw
    exact ⟨h1, h2, h3, hq id op n hw⟩
  kept := by simpa using h.kept
  todo_nodup := nodup_nil
  todo_open := by simp
  nodup := by simpa using h.nodup
  applied := by simpa using h.applied
  before := by rw [foldl_append, ← h.before, h.document]
  document := rfl

/-- A local edit under an id that nobody has used. -/
theorem commits [LimitedSerde] {op s'} (h : Agrees Q reported base [] s ⟨[], []⟩)
    (hs : s.Commits op s') (hc : s.sync.contains (opId op) = false)
    (hp : s.sync.pending.get? (opId op) = none) :
    Agrees Q (reported ++ [opId op]) s'.document [] s' ⟨[], []⟩ := by
  obtain ⟨payload, henc, rfl⟩ := hs
  have hn := h.get?_of_new hc hp
  have hrec : Agrees Q reported base ([] ++ [⟨opId op, payload⟩])
      { s with sync := s.sync.record ⟨opId op, payload⟩ } ⟨[], []⟩ :=
    h.record ⟨opId op, payload⟩ (fun k => by split <;> simp_all) hc
      (fun env hk => by rw [hn] at hk; cases hk)
  obtain ⟨hlog, hopen⟩ := hrec.todo_open _ (mem_append_right _ (mem_singleton_self _))
  have hnew : LoggedAs (s.sync.record ⟨opId op, payload⟩) (opId op) op.envelope :=
    ⟨payload, hlog, decode_encode henc⟩
  rw [append_nil] at hopen
  refine ⟨hrec.waiting, fun k env hk => ?_, nodup_nil, by simp, ?_, fun k hk => ?_, ?_, rfl⟩
  · obtain ⟨hnot, hcase⟩ := hrec.kept k env hk
    refine ⟨fun hin => ?_, hcase⟩
    rw [append_nil, mem_append, mem_singleton] at hin
    rcases hin with hin | rfl
    · exact hnot (by simpa using hin)
    · rw [hn] at hk
      cases hk
  · rw [append_nil]
    exact nodup_push (by simpa using h.nodup) hopen
  · rw [append_nil, mem_append, mem_singleton] at hk
    rcases hk with hk | rfl
    · exact hrec.applied k (by simpa using hk)
    · exact ⟨op.envelope, hnew⟩
  · rw [foldl_append, foldl_cons, foldl_nil]
    have hdoc : s.document = reported.foldl (applyLogged (s.sync.record ⟨opId op, payload⟩))
        .new := hrec.document.trans hrec.before
    exact (congrArg (fun d => applyDocOp d op) hdoc).trans (hnew.apply _).symm

end Agrees

/-! ## Sessions -/

/-- Under one id a message brings one operation, and that of an operation that waits if one waits
    under it. -/
def OnePayload (s : Session) (message : ChangeMessage Serde.Payload) : Prop :=
  (∀ o ∈ message.ops, ∀ o' ∈ message.ops, o.id = o'.id → decode o.payload = decode o'.payload) ∧
  ∀ o ∈ message.ops, ∀ w n, s.sync.pending.get? o.id = some (w, n) →
    decode o.payload = decode w.payload

/-- The ids that the session gives out next are neither in its log nor waiting. -/
def Unclaimed (s : Session) : Prop :=
  ∀ id, id.peer = s.peer → s.nextCounter ≤ id.counter →
    s.sync.contains id = false ∧ s.sync.pending.get? id = none

/-- A session that edits under ids of its own and receives one payload for an id. -/
inductive Orderly : Session → Prop
  | start (peer : PeerId) (unitMode : Bool) : Orderly (withMode peer unitMode)
  | call {s : Session} (c : Call) (h : Orderly s) (hfree : s.Unclaimed) : Orderly (s.after c)
  | applyRemote {s : Session} {message : ChangeMessage Serde.Payload} (limits : ValidationLimits)
      (h : Orderly s) (hone : s.OnePayload message) : Orderly (s.applyRemote message limits).1

theorem Unclaimed.commits (h : s.Unclaimed) (hc : s.Creates op)
    (hs : s.Commits op s') : s'.Unclaimed := by
  obtain ⟨payload, -, rfl⟩ := hs
  intro id hpeer hle
  obtain ⟨hnot, hnone⟩ := h id hpeer ((hc.counters.le.trans (Nat.le_succ _)).trans hle)
  refine ⟨eq_false_iff.mpr (fun hin => ?_), ?_⟩
  · rcases (contains_record _ id).mp hin with rfl | hin
    · exact absurd hle (Nat.not_succ_le_self _)
    · exact false_ne_true (hnot.symm.trans hin)
  · rw [addLocalOp, pending_record]
    exact hnone

theorem Agrees.chain [LimitedSerde] {Q reported base t ops}
    (hc : s.Chain ops t) (h : Agrees Q reported base [] s ⟨[], []⟩) (hfree : s.Unclaimed) :
    Agrees Q (reported ++ ops.map opId) t.document [] t ⟨[], []⟩ := by
  induction hc generalizing reported base with
  | nil => simpa [h.document] using h
  | cons hcr hs _ ih =>
    obtain ⟨hnot, hnone⟩ := hfree _ hcr.counters.peer hcr.counters.le
    have := ih (h.commits hs hnot hnone) (hfree.commits hcr hs)
    rwa [append_assoc] at this

/-- One call of `applyRemote`: what is reported as applied is applied as it is logged. -/
theorem Agrees.applyRemote (h : Agrees Q reported base [] s ⟨[], []⟩) (hd : PendingDecodes s.sync)
    (hone : s.OnePayload message)
    (limits) : (∃ error, s.applyRemote message limits = (s, .error error)) ∨
    ∃ s' result, s.applyRemote message limits = (s', .ok result) ∧
      Agrees (fun o => o ∈ message.ops) reported s.document [] s' result := by
  have hmsg : Agrees (fun o => o ∈ message.ops) reported s.document [] s ⟨[], []⟩ := by
    have := h.carry (P := fun o => o ∈ message.ops)
      (fun id op n hw o ho hid => hone.2 o ho op n (hid ▸ hw))
    rwa [append_nil] at this
  have hI := Agrees.integration (Q := fun o => o ∈ message.ops) reported s.document
    (fun o o' ho ho' hid => hone.1 o ho o' ho' hid)
  rcases hI.applyRemote (fun _ ho => ho) limits hd hmsg with he | ⟨s', result, heq, ha, -⟩
  · exact .inl he
  · exact .inr ⟨s', result, heq, ha⟩

theorem Orderly.pendingDecodes (h : s.Orderly) : PendingDecodes s.sync := by
  induction h with
  | start peer unitMode => exact fun e he => by cases he
  | @call s c _ _ ih =>
    obtain ⟨log, hsync, -⟩ := after_appends s c
    intro e he
    rw [hsync, pending_appendAll] at he
    exact ih e he
  | @applyRemote s message limits _ _ ih => exact ih.next message limits

theorem Orderly.agrees [LimitedSerde] (h : s.Orderly) :
    ∃ reported, Agrees (fun _ => False) reported s.document [] s ⟨[], []⟩ := by
  induction h with
  | start peer unitMode => exact ⟨[], .start peer unitMode⟩
  | @call s c _ hfree ih =>
    obtain ⟨reported, ha⟩ := ih
    rcases s.after_chain c with ⟨ops, hc⟩ | ⟨unitMode, rfl⟩
    · exact ⟨_, ha.chain hc hfree⟩
    · exact ⟨reported, ha.waiting, ha.kept, ha.todo_nodup, ha.todo_open, ha.nodup, ha.applied,
        ha.before, ha.document⟩
  | @applyRemote s message limits hs hone ih =>
    obtain ⟨reported, ha⟩ := ih
    rcases ha.applyRemote hs.pendingDecodes hone limits with ⟨error, heq⟩ | ⟨s', result, heq, ha'⟩
    · rw [heq]
      exact ⟨reported, ha⟩
    · rw [heq]
      exact ⟨_, ha'.carry (fun _ _ _ _ _ ho => ho.elim)⟩

/-- The log and the document agree. The document of an orderly session is what the payloads of its
    log, decoded, make of the empty document, each applied at most once; and what the next message
    has applied is applied as it is then logged, in the order of the report. -/
theorem log_and_document_agree [LimitedSerde] {s : Session} (h : s.Orderly) :
    (∃ ids : List OpId, ids.Nodup ∧ (∀ id ∈ ids, ∃ env, LoggedAs s.sync id env) ∧
      s.document = ids.foldl (applyLogged s.sync) .new) ∧
    ∀ message limits s' result, s.OnePayload message →
      s.applyRemote message limits = (s', .ok result) →
      (∀ id ∈ result.applied, ∃ env, LoggedAs s'.sync id env) ∧
        s'.document = result.applied.foldl (applyLogged s'.sync) s.document := by
  obtain ⟨reported, ha⟩ := h.agrees
  refine ⟨⟨reported, by simpa using ha.nodup, by simpa using ha.applied, ha.before⟩,
    fun message limits s' result hone hr => ?_⟩
  rcases ha.applyRemote h.pendingDecodes hone limits with ⟨error, heq⟩ | ⟨s₁, result₁, heq, ha'⟩
  · rw [heq] at hr
    cases (Prod.mk.inj hr).2
  · obtain ⟨rfl, hres⟩ := Prod.mk.inj (heq.symm.trans hr)
    obtain rfl := Except.ok.inj hres
    exact ⟨fun id hid => ha'.applied id (mem_append_right _ hid), ha'.document⟩

end Session
end

/-! ## Two payloads under one id -/

section Examples
attribute [local instance] charSegmentation envelopeSerde

/-- A field of the frontmatter, written by peer 1. -/
def fieldWrite (counter : Nat) (value : String) : Operation Envelope :=
  ⟨⟨counter, 1⟩, (DocOp.setFrontmatterField ⟨counter, 1⟩ "a" (some value)).envelope⟩

/-- The second operation of peer 1, with two different payloads, and then the first one. -/
def reusedId : List (ChangeMessage Envelope) :=
  [⟨.new, [fieldWrite 2 "x"]⟩, ⟨.new, [fieldWrite 2 "y"]⟩,
   ⟨.new, [fieldWrite 1 "z"]⟩]

def receiveAll (s : Session) (messages : List (ChangeMessage Envelope)) : Session :=
  messages.foldl (fun s message => (s.applyRemote message .default).1) s

/-- The log holds the first payload of the operation; the document shows the second one, and not
    what the log makes of it. -/
theorem applied_not_as_logged :
    (receiveAll (Session.new 2) reusedId).sync.ops.get? ⟨2, 1⟩ = some (fieldWrite 2 "x").payload ∧
    (receiveAll (Session.new 2) reusedId).document.frontmatter =
      ([(fieldWrite 1 "z").payload, (fieldWrite 2 "y").payload].foldl applyEnvelopeToDocument
        .new).frontmatter ∧ (receiveAll (Session.new 2) reusedId).document.frontmatter ≠
      ([⟨1, 1⟩, ⟨2, 1⟩].foldl (applyLogged (receiveAll (Session.new 2) reusedId).sync)
        .new).frontmatter := by
  refine ⟨rfl, by decide +kernel, by decide +kernel⟩

/-- The second operation of peer 1 twice, with the same payload. -/
def repeatedId : List (ChangeMessage Envelope) :=
  [⟨.new, [fieldWrite 2 "x"]⟩, ⟨.new, [fieldWrite 2 "x"]⟩]

theorem repeatedId_orderly : (receiveAll (Session.new 2) repeatedId).Orderly := by
  refine .applyRemote .default (.applyRemote .default (.start 2 true) ⟨by simp, ?_⟩) ⟨by simp, ?_⟩
  · simp [Session.new, Session.withMode, new]
  · simp only [forall_mem_singleton]
    intro w n hw
    have hwait : ((receiveAll (Session.new 2) [⟨.new, [fieldWrite 2 "x"]⟩]).sync.pending.get?
        ⟨2, 1⟩) = some (fieldWrite 2 "x", 1) := rfl
    obtain rfl : fieldWrite 2 "x" = w := (Prod.mk.inj (some.inj (hwait.symm.trans hw))).1
    rfl

/-- The first operation then brings both into the document, as they are logged. -/
theorem applied_as_logged :
    (receiveAll (Session.new 2) (repeatedId ++ [⟨.new, [fieldWrite 1 "z"]⟩])).document =
      [⟨1, 1⟩, ⟨2, 1⟩].foldl (applyLogged (receiveAll (Session.new 2)
        (repeatedId ++ [⟨.new, [fieldWrite 1 "z"]⟩])).sync)
        (receiveAll (Session.new 2) repeatedId).document := by
  have := envelopeSerde_lawful
  have hone : (receiveAll (Session.new 2) repeatedId).OnePayload
      ⟨.new, [fieldWrite 1 "z"]⟩ := by
    refine ⟨by simp, ?_⟩
    simp only [forall_mem_singleton]
    intro w n hw
    have hnone : (receiveAll (Session.new 2) repeatedId).sync.pending.get? ⟨1, 1⟩ = none := rfl
    rw [show (fieldWrite 1 "z").id = ⟨1, 1⟩ from rfl, hnone] at hw
    cases hw
  exact ((Session.log_and_document_agree repeatedId_orderly).2 _ .default _ ⟨[⟨1, 1⟩, ⟨2, 1⟩], []⟩ hone rfl).2

end Examples
end MdCrdt
