import MdCrdt.Session.Session
import MdCrdt.Sync.Log

/- What happens while a session takes in a message.

  `applyRemote` interleaves the log, the buffer of the log, the deferred envelopes
  and the document. Seen one action at a time, an operation is logged and applied or
  deferred, or it waits; waiting ones are promoted, and then applied or deferred; and
  what was deferred is applied once it is ready. Between two actions some operations
  may have been promoted and not yet dealt with (`todo`). A property that each action
  keeps (`Integration`) holds at the end of the call.

  The only error that can come up after the first action is that a promoted payload
  does not decode. It never does: whatever waits has been decoded before
  (`PendingDecodes`). So every message is taken in as a whole or not at all. -/
namespace MdCrdt
open Lib List Session
variable [Segmentation] [Serde]

namespace Session
variable {s : Session} {prepared : List (Operation Serde.Payload × Envelope)}
  {ops : List (Operation Serde.Payload)}

/-- Everything that waits in the log decodes. -/
def PendingDecodes (sync : SyncState Serde.Payload) : Prop :=
  ∀ e ∈ sync.pending.entries, ∃ env, decode e.2.1.payload = .ok env

/-- The session no longer keeps an envelope. -/
abbrev unkeep (s : Session) (id : OpId) : Session :=
  { s with pendingEnvelopes := s.pendingEnvelopes.erase id }

/-- Where the envelope of a promoted operation comes from: it has been kept, or is decoded. -/
inductive Fetches (s : Session) (op : Operation Serde.Payload) : Envelope → Session → Prop
  | kept {env : Envelope} (h : s.pendingEnvelopes.get? op.id = some env) :
      Fetches s op env { s with pendingEnvelopes := s.pendingEnvelopes.erase op.id }
  | decoded {env : Envelope} (hn : s.pendingEnvelopes.get? op.id = none)
      (h : decode op.payload = .ok env) : Fetches s op env s

/-- The actions keep `I`, for messages whose operations satisfy `Q`. -/
structure Integration (Q : Operation Serde.Payload → Prop)
    (I : List (Operation Serde.Payload) → Session → SessionApplyResult → Prop) : Prop where
  log : ∀ {s result op env}, I [] s result → Q op → decode op.payload = .ok env →
    s.sync.applyOne op (operationExtent env).2 = (s.sync.record op, .applied) →
    I [] ({ s with sync := s.sync.record op }.applyOrDefer op.id env result).1
      ({ s with sync := s.sync.record op }.applyOrDefer op.id env result).2
  wait : ∀ {s result op env sync}, I [] s result → Q op → decode op.payload = .ok env →
    s.sync.applyOne op (operationExtent env).2 = (sync, .buffered) →
    I [] { s with sync := sync, pendingEnvelopes := s.pendingEnvelopes.insert op.id env }
      { result with buffered := result.buffered ++ [op.id] }
  promote : ∀ {todo s result id op n}, I todo s result → s.sync.pending.get? id = some (op, n) →
    s.sync.Ready id n → I (todo ++ [op]) { s with sync := s.sync.promote id op } result
  settle : ∀ {op todo s s₁ result env}, I (op :: todo) s result → Fetches s op env s₁ →
    I todo (s₁.applyOrDefer op.id env result).1 (s₁.applyOrDefer op.id env result).2
  release : ∀ {s result id env}, I [] s result → s.pendingEnvelopes.get? id = some env →
    s.sync.contains id = true →
    I [] ({ s with pendingEnvelopes := s.pendingEnvelopes.erase id }.applyOrDefer id env result).1
      ({ s with pendingEnvelopes := s.pendingEnvelopes.erase id }.applyOrDefer id env result).2

omit [Segmentation] [Serde] in
theorem filter_settled {P : Type} {op : Operation P} {todo}
    (h : ((op :: todo).map Operation.id).Nodup) :
    (op :: todo).filter (fun o => o.id ≠ op.id) = todo := by
  obtain ⟨hnotin, -⟩ := nodup_cons.mp h
  rw [filter_cons_of_neg (by simp)]
  exact filter_eq_self.mpr
    (fun o ho => by simpa using fun hid : o.id = op.id => hnotin (hid ▸ mem_map_of_mem ho))

theorem applyOrDefer_sync (s : Session) (id env result) :
    (s.applyOrDefer id env result).1.sync = s.sync := by
  unfold applyOrDefer
  split <;> rfl

omit [Segmentation] in
theorem contains_of_readyDeferred {id} (h : id ∈ s.readyDeferred) : s.sync.contains id = true := by
  obtain ⟨e, he, rfl⟩ := mem_map.mp h
  have := (mem_filter.mp he).2
  simp only [Bool.and_eq_true] at this
  exact this.1

theorem applyDeferred_sync (s : Session) (result ids) :
    (s.applyDeferred result ids).1.sync = s.sync := by
  induction ids generalizing s result with
  | nil => rfl
  | cons id ids ih =>
    rw [applyDeferred]
    split
    · rw [ih, applyOrDefer_sync]
    · exact ih s result

theorem drainDeferred_sync (s : Session) (result) : (s.drainDeferred result).1.sync = s.sync := by
  unfold drainDeferred
  generalize s.pendingEnvelopes.size + 1 = n
  induction n generalizing s result with
  | zero => rfl
  | succ n ih =>
    rw [drainDeferredLoop]
    split
    · rfl
    · rw [ih, applyDeferred_sync]

/-- What the checks on one operation of a message have established. -/
structure Checked (op : Operation Serde.Payload) (env : Envelope) : Prop where
  decodes : decode op.payload = .ok env
  isMax : op.id = (operationExtent env).1
  peers : peersConsistent op.id.peer env = true

section
variable {extent : Envelope → OpId × Nat} {unitMode : Bool} {sync : SyncState Serde.Payload}

omit [Segmentation] in
/-- One operation is in the log already, or it has passed the checks and is prepared. -/
theorem prepareOpsBy_cons (h : prepareOpsBy extent unitMode sync (o :: rest) = .ok prepared) :
    sync.contains o.id = true ∧ prepareOpsBy extent unitMode sync rest = .ok prepared ∨
    ∃ env rest', (decode o.payload = .ok env ∧ o.id = (extent env).1 ∧
        peersConsistent o.id.peer env = true) ∧
      prepareOpsBy extent unitMode sync rest = .ok rest' ∧ prepared = (o, env) :: rest' := by
  rw [prepareOpsBy] at h
  split at h
  · next hc => exact .inl ⟨hc, h⟩
  · split at h
    · cases h
    · split at h
      · cases h
      · next env henv =>
        -- whichever checks ran, they passed
        have htail : ∃ rest', prepareOpsBy extent unitMode sync rest = .ok rest' ∧
            prepared = (o, env) :: rest' ∧
            ¬o.id ≠ (extent env).1 ∧ ¬(!peersConsistent o.id.peer env) = true := by
          simp only [bind, Except.bind] at h
          repeat' split at h
          all_goals first
            | (cases h; done)
            | exact ⟨_, by assumption, (Except.ok.inj h).symm, by assumption, by assumption⟩
        obtain ⟨rest', hrest, hprep, hmax, hpeers⟩ := htail
        exact .inr ⟨env, rest', ⟨henv, not_not.mp hmax, by simpa using hpeers⟩, hrest, hprep⟩

omit [Segmentation] in
/-- The operations a message brings, decoded and checked. -/
theorem prepareOpsBy_checked (h : prepareOpsBy extent unitMode sync ops = .ok prepared) :
    ∀ p ∈ prepared, p.1 ∈ ops ∧ decode p.1.payload = .ok p.2 ∧ p.1.id = (extent p.2).1 ∧
      peersConsistent p.1.id.peer p.2 = true := by
  induction ops generalizing prepared with
  | nil =>
    obtain rfl := Except.ok.inj h
    simp
  | cons o rest ih =>
    intro p hp
    rcases prepareOpsBy_cons h with ⟨-, hrest⟩ | ⟨env, rest', hc, hrest, rfl⟩
    · exact ⟨mem_cons_of_mem _ (ih hrest p hp).1, (ih hrest p hp).2⟩
    · rcases mem_cons.mp hp with rfl | hp
      · exact ⟨mem_cons_self, hc⟩
      · exact ⟨mem_cons_of_mem _ (ih hrest p hp).1, (ih hrest p hp).2⟩

end

section
variable (h : s.prepareOps ops = .ok prepared)
include h

theorem prepareOps_checked : ∀ p ∈ prepared, p.1 ∈ ops ∧ Checked p.1 p.2 := by
  intro p hp
  obtain ⟨hm, hd, hmax, hpeers⟩ := prepareOpsBy_checked h p hp
  exact ⟨hm, hd, hmax, hpeers⟩

/-- Every operation of the message is among them, unless the log has it. -/
theorem mem_prepareOps
    (ho : o ∈ ops) : s.sync.contains o.id = true ∨ ∃ env, (o, env) ∈ prepared := by
  induction ops generalizing prepared with
  | nil => cases ho
  | cons o' rest ih =>
    rcases prepareOpsBy_cons h with ⟨hc, hrest⟩ | ⟨env, rest', -, hrest, rfl⟩
    · rcases mem_cons.mp ho with rfl | ho
      · exact .inl hc
      · exact ih hrest ho
    · rcases mem_cons.mp ho with rfl | ho
      · exact .inr ⟨env, mem_cons_self⟩
      · exact (ih hrest ho).imp_right (fun ⟨env, hin⟩ => ⟨env, mem_cons_of_mem _ hin⟩)

theorem prepareOps_ok : ∀ p ∈ prepared, p.1 ∈ ops ∧ decode p.1.payload = .ok p.2 :=
  fun p hp => ⟨(prepareOps_checked h p hp).1, (prepareOps_checked h p hp).2.decodes⟩

end

/-! ## What waits decodes -/

omit [Segmentation] in
theorem PendingDecodes.applyOne {sync sync' op env n r}
    (h : PendingDecodes sync) (hd : decode op.payload = .ok env)
    (ha : sync.applyOne op n = (sync', r)) : PendingDecodes sync' := by
  rcases sync.applyOne_cases op n with ⟨-, he⟩ | ⟨-, ⟨-, he⟩ | ⟨-, ⟨-, he⟩ | ⟨-, he⟩⟩⟩
  all_goals
    rw [he] at ha
    obtain ⟨rfl, -⟩ := Prod.mk.inj ha
  · exact h
  · exact h
  · intro e he
    rcases SortedMap.mem_insertList he with rfl | he
    · exact ⟨env, hd⟩
    · exact h e he
  · intro e he
    rw [SyncState.pending_record] at he
    exact h e he

omit [Segmentation] in
theorem PendingDecodes.promote {sync} (h : PendingDecodes sync)
    (id op) : PendingDecodes (sync.promote id op) := by
  intro e he
  rw [SyncState.promote, SyncState.pending_record] at he
  exact h e (mem_of_mem_filter he)

omit [Segmentation] in
theorem PendingDecodes.promotion {sync sync'}
    (hp : sync.Promotion ops sync') (h : PendingDecodes sync) :
    PendingDecodes sync' ∧ ∀ op ∈ ops, ∃ env, decode op.payload = .ok env := by
  induction hp with
  | nil => exact ⟨h, by simp⟩
  | @cons sync sync' id op n ops hw hr _ ih =>
    obtain ⟨hd, hops⟩ := ih (h.promote id op)
    exact ⟨hd, forall_mem_cons.mpr ⟨h _ (SortedMap.get?_mem hw), hops⟩⟩

/-! ## The loops -/

namespace Integration
variable {Q : Operation Serde.Payload → Prop} {s : Session} {result : SessionApplyResult}
  {I : List (Operation Serde.Payload) → Session → SessionApplyResult → Prop}

section
variable (hI : Integration Q I)
include hI

theorem promotion {sync sync' todo ops} (hp : sync.Promotion ops sync')
    (h : I todo { s with sync := sync } result) :
    I (todo ++ ops) { s with sync := sync' } result := by
  induction hp generalizing todo with
  | nil => rwa [append_nil]
  | cons hw hr _ ih =>
    have := ih (hI.promote h hw hr)
    rwa [append_assoc] at this

theorem applyPromoted {ops}
    (hd : ∀ op ∈ ops, ∃ env, decode op.payload = .ok env) (h : I ops s result) :
    ∃ result', (s.applyPromoted result ops).2 = .ok result' ∧
      I [] (s.applyPromoted result ops).1 result' ∧ (s.applyPromoted result ops).1.sync = s.sync := by
  induction ops generalizing s result with
  | nil => exact ⟨result, rfl, h, rfl⟩
  | cons op ops ih =>
    have hrest := fun o ho => hd o (mem_cons_of_mem op ho)
    cases hget : s.pendingEnvelopes.get? op.id with
    | some env =>
      obtain ⟨result', hr, hi, hs⟩ := ih hrest (hI.settle h (.kept hget))
      simp only [applyPromoted, hget]
      exact ⟨result', hr, hi, by rw [hs, applyOrDefer_sync]⟩
    | none =>
      obtain ⟨env, henv⟩ := hd op mem_cons_self
      obtain ⟨result', hr, hi, hs⟩ := ih hrest (hI.settle h (.decoded hget henv))
      simp only [applyPromoted, hget, henv]
      exact ⟨result', hr, hi, by rw [hs, applyOrDefer_sync]⟩

theorem drainPromoted (hd : PendingDecodes s.sync) (h : I [] s result) :
    ∃ result', (s.drainPromoted result).2 = .ok result' ∧ I [] (s.drainPromoted result).1 result' ∧
      PendingDecodes (s.drainPromoted result).1.sync := by
  have hp := SyncState.promotion_ready s.sync
  obtain ⟨hd', hops⟩ := hd.promotion hp
  obtain ⟨result', hr, hi, hs⟩ := hI.applyPromoted hops (hI.promotion hp h)
  refine ⟨result', hr, hi, ?_⟩
  rw [Session.drainPromoted, hs]
  exact hd'

theorem applyDeferred (hids : ∀ id ∈ ids, s.sync.contains id = true) (h : I [] s result) :
    I [] (s.applyDeferred result ids).1 (s.applyDeferred result ids).2 := by
  induction ids generalizing s result with
  | nil => exact h
  | cons id ids ih =>
    have hrest := fun k hk => hids k (mem_cons_of_mem id hk)
    cases hget : s.pendingEnvelopes.get? id with
    | none =>
      simp only [applyDeferred, hget]
      exact ih hrest h
    | some env =>
      simp only [applyDeferred, hget]
      refine ih (fun k hk => ?_) (hI.release h hget (hids id mem_cons_self))
      rw [applyOrDefer_sync]
      exact hrest k hk

theorem drainDeferredLoop (n) (h : I [] s result) :
    I [] (drainDeferredLoop n s result).1 (drainDeferredLoop n s result).2 := by
  induction n generalizing s result with
  | zero => exact h
  | succ n ih =>
    rw [drainDeferredLoop]
    split
    · exact h
    · exact ih (hI.applyDeferred (fun id hid => contains_of_readyDeferred hid) h)

theorem drainDeferred (h : I [] s result) :
    I [] (s.drainDeferred result).1 (s.drainDeferred result).2 :=
  hI.drainDeferredLoop _ h

/-- One operation after the other; the deferred envelopes are drained at the end. -/
theorem integrateOps {prepared}
    (hp : ∀ p ∈ prepared, Q p.1 ∧ decode p.1.payload = .ok p.2) (hd : PendingDecodes s.sync)
    (h : I [] s result) : ∃ s₁ result₁, I [] s₁ result₁ ∧ PendingDecodes s₁.sync ∧
      s.integrateOps result prepared =
        ((s₁.drainDeferred result₁).1, .ok (s₁.drainDeferred result₁).2) := by
  induction prepared generalizing s result with
  | nil => exact ⟨s, result, h, hd, rfl⟩
  | cons p prepared ih =>
    obtain ⟨op, env⟩ := p
    obtain ⟨hq, henv⟩ := hp (op, env) mem_cons_self
    have hrest := fun p' hp' => hp p' (mem_cons_of_mem (op, env) hp')
    rw [integrateOps]
    split
    · exact ih hrest hd h
    · next sync ha => exact ih hrest (hd.applyOne henv ha) (hI.wait h hq henv ha)
    · next sync ha =>
      obtain ⟨rfl, -⟩ := SyncState.applyOne_applied ha
      have hsettled := hI.log h hq henv ha
      have hd' : PendingDecodes (({ s with sync := s.sync.record op } : Session).applyOrDefer op.id
          env result).1.sync := by
        rw [applyOrDefer_sync]
        exact hd.applyOne henv ha
      simp only
      generalize ({ s with sync := s.sync.record op } : Session).applyOrDefer op.id env result =
        handled at hsettled hd' ⊢
      obtain ⟨result', hr, hi, hd''⟩ := hI.drainPromoted hd' hsettled
      generalize handled.1.drainPromoted handled.2 = drained at hr hi hd'' ⊢
      obtain ⟨s', r'⟩ := drained
      obtain rfl : r' = .ok result' := hr
      refine ih hrest ?_ (hI.drainDeferred hi)
      rwa [drainDeferred_sync]

/-- A message is refused and nothing has changed, or it is taken in up to the last draining of
    the deferred envelopes and `I` holds. -/
theorem applyRemote_drained (hm : ∀ o ∈ message.ops, Q o) (limits) (hd : PendingDecodes s.sync)
    (h : I [] s ⟨[], []⟩) : (∃ error, s.applyRemote message limits = (s, .error error)) ∨
    ∃ s₁ result₁, I [] s₁ result₁ ∧ PendingDecodes s₁.sync ∧ s.applyRemote message limits =
      ((s₁.drainDeferred result₁).1, .ok (s₁.drainDeferred result₁).2) := by
  simp only [applyRemote]
  split
  · exact .inl ⟨_, rfl⟩
  · split
    · exact .inl ⟨_, rfl⟩
    · next prepared hprep =>
      exact .inr (hI.integrateOps (fun p hp =>
        ⟨hm _ (prepareOps_ok hprep p hp).1, (prepareOps_ok hprep p hp).2⟩) hd h)

/-- A message is refused and nothing has changed, or it is taken in and `I` holds. -/
theorem applyRemote (hm : ∀ o ∈ message.ops, Q o) (limits) (hd : PendingDecodes s.sync)
    (h : I [] s ⟨[], []⟩) : (∃ error, s.applyRemote message limits = (s, .error error)) ∨
    ∃ s' result', s.applyRemote message limits = (s', .ok result') ∧ I [] s' result' ∧
      PendingDecodes s'.sync := by
  rcases hI.applyRemote_drained hm limits hd h with he | ⟨s₁, result₁, hi, hd₁, heq⟩
  · exact .inl he
  · refine .inr ⟨_, _, heq, hI.drainDeferred hi, ?_⟩
    rwa [drainDeferred_sync]

end

end Integration

/-- The rule for nothing but what `applyRemote` does to the buffer. -/
theorem integration_trivial :
    Integration (fun _ => True) (fun _ (_ : Session) (_ : SessionApplyResult) => True) :=
  ⟨fun _ _ _ _ => trivial, fun _ _ _ _ => trivial, fun _ _ _ => trivial, fun _ _ => trivial,
    fun _ _ _ => trivial⟩

/-- A message is refused and changes nothing, or it is taken in and what waits still decodes. -/
theorem PendingDecodes.applyRemote (h : PendingDecodes s.sync) (message limits) :
    (∃ error, s.applyRemote message limits = (s, .error error)) ∨
    ∃ s' result, s.applyRemote message limits = (s', .ok result) ∧ PendingDecodes s'.sync := by
  rcases integration_trivial.applyRemote (fun _ _ => trivial) limits h trivial with
    he | ⟨s', result, heq, -, hd⟩
  · exact .inl he
  · exact .inr ⟨s', result, heq, hd⟩

theorem PendingDecodes.next (h : PendingDecodes s.sync) (message limits) : PendingDecodes
    (s.applyRemote message limits).1.sync := by
  rcases h.applyRemote message limits with ⟨error, heq⟩ | ⟨s', result, heq, hd⟩
  · rwa [heq]
  · rwa [heq]

end Session
end MdCrdt
