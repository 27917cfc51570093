import MdCrdt.Session.Deliveries

/- Deferred operations are not lost, unless a checkpoint takes them off the log.

  An operation that has been logged before what its author had observed is deferred:
  its envelope is kept until the state vector has caught up. `Kept` says that every
  operation that was ever in the log has been applied, under the envelope it decodes
  to, or is deferred in this sense; and after every call nothing that is deferred is
  ready (`DrainedDeferred`). The envelope is found through the log, so a checkpoint
  must not prune a deferred operation; and it is kept by id alone, so a second
  payload under the id of a waiting operation would take its place. -/
namespace MdCrdt
open Lib List SortedMap SyncState Ledger
open Option hiding or_assoc

section
variable [Segmentation] [Serde]

namespace Session
variable {s : Session} {result : SessionApplyResult}

/-! ## Draining -/

/-- Nothing that is deferred is ready. -/
def DrainedDeferred (s : Session) : Prop :=
  ∀ id env, s.pendingEnvelopes.get? id = some env → s.sync.contains id = true →
    s.observedFrontierIsReady env = false

omit [Segmentation] in
theorem drained_of_readyDeferred (h : s.readyDeferred = []) : s.DrainedDeferred := by
  intro id env hk hc
  by_contra hr
  have hmem : id ∈ s.readyDeferred := mem_map.mpr ⟨(id, env),
    mem_filter.mpr ⟨get?_mem hk, by simpa [hc] using hr⟩, rfl⟩
  rw [h] at hmem
  cases hmem

omit [Segmentation] in
theorem readyDeferred_of_drained (hs : s.pendingEnvelopes.Sorted) (h : s.DrainedDeferred) :
    s.readyDeferred = [] := by
  refine eq_nil_iff_forall_not_mem.mpr (fun id hid => ?_)
  obtain ⟨⟨k, env⟩, he, rfl⟩ := mem_map.mp hid
  obtain ⟨hmem, hb⟩ := mem_filter.mp he
  obtain ⟨hc, hr⟩ := (Bool.and_eq_true _ _).mp hb
  exact Bool.false_ne_true ((h k env (get?_of_mem hs hmem) hc).symm.trans hr)

omit [Segmentation] in
theorem observedFrontierIsReady_congr {t : Session} (h : s.sync = t.sync) (env) :
    s.observedFrontierIsReady env = t.observedFrontierIsReady env := by
  unfold observedFrontierIsReady stateVector
  rw [h]

theorem sorted_applyOrDefer (hs : s.pendingEnvelopes.Sorted) (id env result) :
    (s.applyOrDefer id env result).1.pendingEnvelopes.Sorted := by
  unfold applyOrDefer
  split
  · exact sorted_insert hs id env
  · exact hs

theorem sorted_applyDeferred (hs : s.pendingEnvelopes.Sorted) (result ids) :
    (s.applyDeferred result ids).1.pendingEnvelopes.Sorted := by
  induction ids generalizing s result with
  | nil => exact hs
  | cons id ids ih =>
    rw [Session.applyDeferred]
    split
    · exact ih (sorted_applyOrDefer (sorted_erase hs id) id _ _) _
    · exact ih hs _

/-- Taking off envelopes that are ready leaves the others as they are. -/
theorem get?_applyDeferred (result)
    (hready : ∀ id ∈ ids, ∀ env, s.pendingEnvelopes.get? id = some env →
      s.observedFrontierIsReady env = true) (k) :
    (s.applyDeferred result ids).1.pendingEnvelopes.get? k =
      if k ∈ ids then none else s.pendingEnvelopes.get? k := by
  induction ids generalizing s result with
  | nil => simp [Session.applyDeferred]
  | cons id ids ih =>
    have hrest := fun k hk => hready k (mem_cons_of_mem id hk)
    cases hget : s.pendingEnvelopes.get? id with
    | none =>
      simp only [Session.applyDeferred, hget]
      rw [ih result hrest]
      by_cases hk : k ∈ ids
      · simp [hk]
      · by_cases hid : k = id
        · simp [hid, hget]
        · simp [hk, hid]
    | some env =>
      have hr : (s.unkeep id).observedFrontierIsReady env = true := hready id mem_cons_self env hget
      simp only [Session.applyDeferred, hget, applyOrDefer_of_ready hr]
      rw [ih _ (fun j hj env' henv' => ?_)]
      · by_cases hk : k ∈ ids
        · simp [hk]
        · by_cases hid : k = id
          · simp [hid]
          · simp [hk, hid]
      · exact hrest j hj env' (get?_erase_eq_some.mp henv').2

/-- One pass takes off everything that is ready, and the next one ends the loop. -/
theorem drained_drainDeferred (hs : s.pendingEnvelopes.Sorted) (result) :
    (s.drainDeferred result).1.DrainedDeferred := by
  unfold drainDeferred
  rw [drainDeferredLoop]
  split
  · next hempty => exact drained_of_readyDeferred (List.isEmpty_iff.mp hempty)
  · next hne =>
    -- the log has an entry for what is ready, so a second pass is left
    obtain ⟨m, hm⟩ : ∃ m, s.pendingEnvelopes.size = m + 1 := by
      refine Nat.exists_eq_succ_of_ne_zero (fun h0 => hne ?_)
      have hnil : s.pendingEnvelopes.entries = [] := length_eq_zero_iff.mp h0
      simp [readyDeferred, hnil]
    have hdrained : (s.applyDeferred result s.readyDeferred).1.DrainedDeferred := by
      intro id env hk hc
      rw [get?_applyDeferred result (fun id hid env henv => ?_)] at hk
      · split at hk
        · cases hk
        · next hnot =>
          rw [applyDeferred_sync] at hc
          by_contra hr
          refine hnot (List.mem_map.mpr ⟨(id, env), mem_filter.mpr ⟨get?_mem hk, ?_⟩, rfl⟩)
          rw [observedFrontierIsReady_congr (applyDeferred_sync s _ _), Bool.not_eq_false] at hr
          simp [hc, hr]
      · obtain ⟨⟨k, env'⟩, he, rfl⟩ := List.mem_map.mp hid
        obtain ⟨hmem, hb⟩ := mem_filter.mp he
        rw [get?_of_mem hs hmem] at henv
        exact some.inj henv ▸ ((Bool.and_eq_true _ _).mp hb).2
    rw [hm]
    simp only
    rw [drainDeferredLoop, if_pos (by
      rw [readyDeferred_of_drained (sorted_applyDeferred hs _ _) hdrained]
      rfl)]
    exact hdrained

/-! ## What has happened to the operations of the log -/

end Session

/-- What has happened to a document. -/
inductive DocEvent where
  | applied (id : OpId) (envelope : Envelope)
  | reloaded

def DocEvent.run (d : Document) : DocEvent → Document
  | .applied _ envelope => applyEnvelopeToDocument d envelope
  | .reloaded => d.reload

namespace Session
variable {s : Session} {result : SessionApplyResult}

/-- The operation has been applied, or is deferred: kept, and in the log. -/
def AppliedOrDeferred (trace : List DocEvent) (s : Session) (o : Operation Serde.Payload) : Prop :=
  ∃ env, decode o.payload = .ok env ∧ (.applied o.id env ∈ trace ∨
    s.pendingEnvelopes.get? o.id = some env ∧ s.sync.contains o.id = true)

/-- Everything that was logged has been applied or is deferred, but for what is in `todo`. -/
def Accounted (logged : List (Operation Serde.Payload)) (reported : List OpId)
    (todo : List (Operation Serde.Payload)) (s : Session) (result : SessionApplyResult) : Prop :=
  ∃ trace : List DocEvent, s.document = trace.foldl DocEvent.run .new ∧
    (∀ id, id ∈ reported ++ result.applied ↔ ∃ env, .applied id env ∈ trace) ∧
    ∀ o, o ∈ logged ∨ s.sync.ops.get? o.id = some o.payload → o ∈ todo ∨ AppliedOrDeferred trace s o

/-- The envelopes that are kept are those of the operations they are kept for. -/
structure Kept (Q : Operation Serde.Payload → Prop) (logged : List (Operation Serde.Payload))
    (reported : List OpId) (todo : List (Operation Serde.Payload)) (s : Session)
    (result : SessionApplyResult) : Prop where
  ops_sorted : s.sync.ops.Sorted
  pending_sorted : s.sync.pending.Sorted
  envelopes_sorted : s.pendingEnvelopes.Sorted
  owned : ∀ id env, s.pendingEnvelopes.get? id = some env → env.version = wireVersion ∧
    ((s.sync.pending.get? id).isSome ∨ s.sync.contains id = true)
  waiting : ∀ id op n, s.sync.pending.get? id = some (op, n) →
    op.id = id ∧ s.sync.contains id = false ∧
    (∀ env, s.pendingEnvelopes.get? id = some env → decode op.payload = .ok env) ∧
    ∀ o, Q o → o.id = id → o.payload = op.payload
  todo_nodup : (todo.map Operation.id).Nodup
  todo_logged : ∀ o ∈ todo, s.sync.ops.get? o.id = some o.payload ∧
    ∀ env, s.pendingEnvelopes.get? o.id = some env → decode o.payload = .ok env
  accounted : Accounted logged reported todo s result

namespace Kept
variable {Q : Operation Serde.Payload → Prop} {logged todo : List (Operation Serde.Payload)}
  {reported : List OpId} {op : Operation Serde.Payload}
variable {env : Envelope}

omit [Segmentation] in
theorem get?_of_mem_appliedOps {sync : SyncState Serde.Payload} (hs : sync.ops.Sorted)
    (h : op ∈ sync.appliedOps) : sync.ops.get? op.id = some op.payload := by
  obtain ⟨e, he, rfl⟩ := mem_map.mp h
  exact get?_of_mem hs he

omit [Segmentation] in
theorem known_of_append {sync : SyncState Serde.Payload} (hs : sync.ops.Sorted)
    (h : op ∈ logged ++ sync.appliedOps ∨ sync.ops.get? op.id = some op.payload) :
    op ∈ logged ∨ sync.ops.get? op.id = some op.payload := by
  rcases h with h | h
  · exact (mem_append.mp h).imp_right (get?_of_mem_appliedOps hs)
  · exact .inr h

/-- What is kept under an id is applied or deferred, and with it whatever operation it is kept
    for. -/
theorem close (h : Kept Q logged reported todo s result) {id}
    (hc : s.sync.contains id = true) (hv : env.version = wireVersion)
    (hall : ∀ env', s.pendingEnvelopes.get? id = some env' → env' = env)
    (htodo : ∀ o ∈ todo, o.id = id → decode o.payload = .ok env) :
    Kept Q logged reported (todo.filter (fun o => o.id ≠ id))
      ((s.unkeep id).applyOrDefer id env result).1 ((s.unkeep id).applyOrDefer id env result).2 := by
  have hmem : ∀ {o}, o ∈ todo.filter (fun o => o.id ≠ id) → o ∈ todo ∧ o.id ≠ id := by
    intro o ho
    simpa using ho
  have hsync := applyOrDefer_sync (s.unkeep id) id env result
  refine ⟨by rw [hsync]; exact h.ops_sorted, by rw [hsync]; exact h.pending_sorted,
    sorted_applyOrDefer (sorted_erase h.envelopes_sorted id) _ _ _, ?_, ?_,
    h.todo_nodup.sublist (filter_sublist.map _), ?_, ?_⟩
  · intro k env' hk
    rw [get?_closed] at hk
    rw [hsync]
    split_ifs at hk with hid
    · exact ⟨some.inj hk ▸ hv, .inr (hid ▸ hc)⟩
    · exact h.owned k env' hk
  · intro k o n hw
    rw [hsync] at hw ⊢
    obtain ⟨h1, h2, h3, h4⟩ := h.waiting k o n hw
    have hne : k ≠ id := fun hid => Bool.false_ne_true (h2.symm.trans (hid ▸ hc))
    exact ⟨h1, h2, fun env' hk => h3 env' (by rwa [get?_closed, if_neg hne] at hk), h4⟩
  · intro o ho
    obtain ⟨ho, hne⟩ := hmem ho
    rw [hsync, get?_closed, if_neg hne]
    exact h.todo_logged o ho
  · obtain ⟨trace, hdoc, hrep, hacc⟩ := h.accounted
    simp only [Accounted, AppliedOrDeferred, hsync, get?_closed]
    cases hr : s.observedFrontierIsReady env with
    | true =>
      have hr' : (s.unkeep id).observedFrontierIsReady env = true := hr
      refine ⟨trace ++ [.applied id env], ?_, fun k => ?_, fun o ho => ?_⟩
      · rw [applyOrDefer_of_ready hr', foldl_append, ← hdoc]; rfl
      · have hiff := mem_applyOrDefer (s.unkeep id) id env result k
        rw [mem_append, hiff, ← or_assoc, ← mem_append, hrep k, hr']
        simp only [true_and, mem_append, mem_singleton, DocEvent.applied.injEq]
        constructor
        · rintro (⟨env', hk⟩ | rfl)
          · exact ⟨env', .inl hk⟩
          · exact ⟨env, .inr ⟨rfl, rfl⟩⟩
        · rintro ⟨env', hk | ⟨rfl, -⟩⟩
          · exact .inl ⟨env', hk⟩
          · exact .inr rfl
      · rcases hacc o ho with ho | ⟨env', hdec, happ | ⟨hk, hcon⟩⟩
        · by_cases hid : o.id = id
          · exact .inr ⟨env, htodo o ho hid, .inl (by simp [hid])⟩
          · exact .inl (mem_filter.mpr ⟨ho, by simpa using hid⟩)
        · exact .inr ⟨env', hdec, .inl (mem_append_left _ happ)⟩
        · by_cases hid : o.id = id
          · obtain rfl := hall env' (hid ▸ hk)
            exact .inr ⟨env', hdec, .inl (by simp [hid])⟩
          · exact .inr ⟨env', hdec, .inr ⟨by rw [if_neg hid]; exact hk, hcon⟩⟩
    | false =>
      have hr' : (s.unkeep id).observedFrontierIsReady env = false := hr
      obtain ⟨hs, happlied⟩ := applyOrDefer_of_not_ready hr' id result
      rw [hs, happlied]
      refine ⟨trace, hdoc, hrep, fun o ho => ?_⟩
      rcases hacc o ho with ho | ⟨env', hdec, happ | ⟨hk, hcon⟩⟩
      · by_cases hid : o.id = id
        · exact .inr ⟨env, htodo o ho hid, .inr ⟨by simp [hid], hid ▸ hc⟩⟩
        · exact .inl (mem_filter.mpr ⟨ho, by simpa using hid⟩)
      · exact .inr ⟨env', hdec, .inl happ⟩
      · refine .inr ⟨env', hdec, .inr ⟨?_, hcon⟩⟩
        by_cases hid : o.id = id
        · rw [hall env' (hid ▸ hk), if_pos hid]; rfl
        · rwa [if_neg hid]

/-- Another operation goes to the log. -/
theorem record (h : Kept Q logged reported todo s result) (op)
    {pending : SortedMap OpId (Operation Serde.Payload × Nat)} (hsorted : pending.Sorted)
    (hpend : ∀ k, pending.get? k = if k = op.id then none else s.sync.pending.get? k)
    (hc : s.sync.contains op.id = false)
    (henv : ∀ env, s.pendingEnvelopes.get? op.id = some env → decode op.payload = .ok env) :
    Kept Q logged reported (todo ++ [op])
      { s with sync := record { s.sync with pending := pending } op } result := by
  have hfresh : ∀ o ∈ todo, o.id ≠ op.id := by
    intro o ho hid
    have hin := contains_iff_get?.mpr ⟨_, (h.todo_logged o ho).1⟩
    rw [hid] at hin
    exact Bool.false_ne_true (hc.symm.trans hin)
  have hops : ∀ k, (SyncState.record { s.sync with pending := pending } op).ops.get? k =
      if k = op.id then some op.payload else s.sync.ops.get? k := by
    intro k
    rw [ops_record, get?_insert]
  obtain ⟨trace, hdoc, hrep, hacc⟩ := h.accounted
  refine ⟨?_, ?_, h.envelopes_sorted, ?_, ?_, ?_, ?_, trace, hdoc, hrep, ?_⟩
  · rw [ops_record]
    exact sorted_insert h.ops_sorted _ _
  · rw [pending_record]
    exact hsorted
  · intro k env hk
    refine ⟨(h.owned k env hk).1, ?_⟩
    by_cases hid : k = op.id
    · exact .inr ((contains_record op k).mpr (.inl hid))
    · rcases (h.owned k env hk).2 with hw | hw
      · left
        simpa only [pending_record, hpend, if_neg hid] using hw
      · exact .inr ((contains_record op k).mpr (.inr hw))
  · intro k o n hw
    obtain ⟨hne, hw⟩ := pending_of_record hpend hw
    obtain ⟨h1, h2, h3, h4⟩ := h.waiting k o n hw
    exact ⟨h1, not_contains_record hne h2, h3, h4⟩
  · rw [map_append]
    refine nodup_push h.todo_nodup (fun hk => ?_)
    obtain ⟨o, ho, hid⟩ := mem_map.mp hk
    exact hfresh o ho hid
  · intro o ho
    simp only [hops]
    rcases mem_append.mp ho with ho | ho
    · rw [if_neg (hfresh o ho)]
      exact h.todo_logged o ho
    · obtain rfl := mem_singleton.mp ho
      rw [if_pos rfl]
      exact ⟨rfl, henv⟩
  · intro o ho
    simp only [hops] at ho
    by_cases hnew : o.id = op.id ∧ o.payload = op.payload
    · obtain ⟨oid, opayload⟩ := o
      obtain ⟨rfl, rfl⟩ := hnew
      exact .inl (mem_append_right _ (mem_singleton.mpr rfl))
    · have hold : o ∈ logged ∨ s.sync.ops.get? o.id = some o.payload := by
        refine ho.imp_right (fun hget => ?_)
        split at hget
        · next hid => exact absurd ⟨hid, (some.inj hget).symm⟩ hnew
        · exact hget
      rcases hacc o hold with ho | ⟨env, hdec, hin⟩
      · exact .inl (mem_append_left _ ho)
      · refine .inr ⟨env, hdec, hin.imp_right (fun hk => ⟨hk.1, ?_⟩)⟩
        exact (contains_record op _).mpr (.inr hk.2)

/-- An operation waits. -/
theorem wait (h : Kept Q logged reported [] s result) {sync} (hq : Q op)
    (hQ : ∀ o o', Q o → Q o' → o.id = o'.id → o.payload = o'.payload)
    (hb : Buffered s.sync sync op) (hdec : decode op.payload = .ok env) : Kept Q logged reported []
      { s with sync := sync, pendingEnvelopes := s.pendingEnvelopes.insert op.id env }
      { result with buffered := result.buffered ++ [op.id] } := by
  obtain ⟨trace, hdoc, hrep, hacc⟩ := h.accounted
  refine ⟨hb.ops ▸ h.ops_sorted, hb.sorted h.pending_sorted, sorted_insert h.envelopes_sorted _ _,
    ?_, ?_, nodup_nil, by simp, trace, hdoc, hrep, ?_⟩
  · intro k env' hk
    rw [hb.contains]
    rcases get?_insert_eq_some.mp hk with ⟨hid, rfl⟩ | ⟨-, hk⟩
    · exact ⟨decode_version hdec, .inl (hb.isSome (.inl hid))⟩
    · exact ⟨(h.owned k env' hk).1, (h.owned k env' hk).2.imp_left (fun hw => hb.isSome (.inr hw))⟩
  · intro k o n hw
    rw [hb.contains]
    rcases hb.pending hw with hw | ⟨rfl, rfl⟩
    · obtain ⟨h1, h2, h3, h4⟩ := h.waiting k o n hw
      refine ⟨h1, h2, fun env' hk => ?_, h4⟩
      rcases get?_insert_eq_some.mp hk with ⟨hid, rfl⟩ | ⟨-, hk⟩
      · rw [← h4 op hq hid.symm, hdec]
      · exact h3 env' hk
    · refine ⟨rfl, hb.absent, fun env' hk => ?_, fun o' ho' hid => hQ o' _ ho' hq hid⟩
      rw [get?_insert, if_pos rfl] at hk
      rw [hdec, some.inj hk]
  · intro o ho
    rw [hb.ops] at ho
    rcases hacc o ho with ho | ⟨env', hd, hin⟩
    · cases ho
    · refine .inr ⟨env', hd, hin.imp_right (fun hk => ?_)⟩
      have hne : o.id ≠ op.id := by
        rintro hid
        rw [hid, hb.absent] at hk
        cases hk.2
      rw [hb.contains, get?_insert, if_neg hne]
      exact hk

/-- Dealing with the next operation. -/
theorem settle (h : Kept Q logged reported (op :: todo) s result)
    (hf : Fetches s op env s₁) : Kept Q logged reported todo
      (s₁.applyOrDefer op.id env result).1 (s₁.applyOrDefer op.id env result).2 := by
  obtain ⟨⟨hlog, hdec⟩, -⟩ := forall_mem_cons.mp h.todo_logged
  have hc : s.sync.contains op.id = true := contains_iff_get?.mpr ⟨_, hlog⟩
  obtain ⟨hnotin, -⟩ := nodup_cons.mp h.todo_nodup
  have hne : ∀ o ∈ todo, o.id ≠ op.id := fun o ho hid => hnotin (hid ▸ mem_map_of_mem ho)
  have hpayload : ∀ env', decode op.payload = .ok env' →
      ∀ o ∈ op :: todo, o.id = op.id → decode o.payload = .ok env' := by
    intro env' hd o ho hid
    rcases mem_cons.mp ho with rfl | ho
    · exact hd
    · exact absurd hid (hne o ho)
  cases hf with
  | kept hk =>
    have hclose := h.close hc (h.owned _ _ hk).1
      (fun env' hk' => some.inj (hk'.symm.trans hk)) (hpayload env (hdec env hk))
    rwa [filter_settled h.todo_nodup] at hclose
  | decoded hn hd =>
    have hclose := h.close hc (decode_version hd) (fun env' hk' => by rw [hn] at hk'; cases hk')
      (hpayload env hd)
    rw [filter_settled h.todo_nodup, unkeep, erase_of_get?_none hn] at hclose
    exact hclose

theorem integration (logged reported)
    (hQ : ∀ o o', Q o → Q o' → o.id = o'.id → o.payload = o'.payload) :
    Integration Q (Kept Q logged reported) where
  log {s result op env} h _ hdec ha := by
    obtain ⟨-, hc, hp, -⟩ := applyOne_applied ha
    have hn : s.pendingEnvelopes.get? op.id = none := by
      rw [eq_none_iff_forall_ne_some]
      intro env' hk
      rcases (h.owned _ _ hk).2 with hw | hw
      · rw [hp] at hw
        cases hw
      · exact Bool.false_ne_true (hc.symm.trans hw)
    have hrec : Kept Q logged reported ([] ++ [op]) { s with sync := s.sync.record op } result :=
      h.record op h.pending_sorted (fun k => by split <;> simp_all) hc
        (fun env' hk => by rw [hn] at hk; cases hk)
    exact hrec.settle (.decoded hn hdec)
  wait {s result op env sync} h hq hdec ha := h.wait hq hQ (buffered ha) hdec
  promote {todo s result id op n} h hw _ := by
    obtain ⟨rfl, hc, henv, -⟩ := h.waiting _ _ _ hw
    exact h.record op (sorted_erase h.pending_sorted op.id) (fun k => get?_erase _ _ _) hc henv
  settle h hf := h.settle hf
  release {s result id env} h hk hc :=
    h.close hc (h.owned _ _ hk).1 (fun env' hk' => some.inj (hk'.symm.trans hk)) (by simp)

theorem start (peer unitMode) :
    Kept (fun _ => False) [] [] [] (withMode peer unitMode) ⟨[], []⟩ where
  ops_sorted := sorted_empty
  pending_sorted := sorted_empty
  envelopes_sorted := sorted_empty
  owned := by simp [withMode]
  waiting := by simp [withMode, SyncState.new]
  todo_nodup := nodup_nil
  todo_logged := by simp
  accounted := ⟨[], rfl, by simp, by simp [withMode, SyncState.new]⟩

/-- A checkpoint that leaves the deferred operations in the log. -/
theorem checkpoint (h : Kept Q logged reported [] s ⟨[], []⟩)
    (hspare : ∀ id ∈ s.sync.prunable request, s.pendingEnvelopes.get? id = none) :
    Kept Q logged reported [] (s.checkpointHistory request).1 ⟨[], []⟩ := by
  have hkeep : ∀ id env, s.pendingEnvelopes.get? id = some env → s.sync.contains id = true →
      (s.checkpointHistory request).1.sync.contains id = true := fun id env hk hc =>
    contains_checkpoint hc (fun hp => by simp [hspare id hp] at hk)
  have hpending : (s.checkpointHistory request).1.sync.pending = s.sync.pending :=
    pending_checkpoint s.sync request
  obtain ⟨trace, hdoc, hrep, hacc⟩ := h.accounted
  refine ⟨sorted_checkpoint h.ops_sorted request, hpending ▸ h.pending_sorted,
    h.envelopes_sorted, fun id env hk => ?_, fun id op n hw => ?_, nodup_nil, by simp, trace,
    hdoc, hrep, fun o ho => ?_⟩
  · refine ⟨(h.owned id env hk).1, ?_⟩
    rw [hpending]
    exact (h.owned id env hk).2.imp_right (hkeep id env hk)
  · rw [hpending] at hw
    obtain ⟨h1, h2, h3, h4⟩ := h.waiting id op n hw
    refine ⟨h1, Bool.eq_false_iff.mpr (fun hc => ?_), h3, h4⟩
    exact Bool.false_ne_true (h2.symm.trans (contains_of_checkpoint hc))
  · rcases hacc o (ho.imp_right get?_of_checkpoint) with ho | ⟨env, hdec, hin⟩
    · cases ho
    · exact .inr ⟨env, hdec, hin.imp_right (fun hk => ⟨hk.1, hkeep o.id env hk.1 hk.2⟩)⟩

end Kept

/-! ## Restarts -/

/-- What a restart keeps of a session. -/
structure Restarted (s s' : Session) : Prop where
  document : s'.document = s.document.reload
  ops : s'.sync.ops = s.sync.ops
  stateVector : s'.sync.stateVector = s.sync.stateVector
  pending_sorted : s'.sync.pending.Sorted
  pending : ∀ id op n, s'.sync.pending.get? id = some (op, n) →
    ∃ w m, s.sync.pending.get? id = some (w, m) ∧ op = ⟨id, w.payload⟩
  envelopes_sorted : s'.pendingEnvelopes.Sorted
  envelopes : ∀ id env, s'.pendingEnvelopes.get? id = some env ↔
    s.pendingEnvelopes.get? id = some env ∧ s.sync.contains id = true

theorem Kept.restarted [LimitedSerde] {Q logged reported s' snap}
    (h : Kept Q logged reported [] s ⟨[], []⟩)
    (hsave : s.saveSnapshot = .ok snap) (hrestore : restoreFromSnapshot snap = .ok s') :
    Restarted s s' := by
  obtain ⟨deferred, henc, rfl⟩ := saveSnapshot_ok hsave
  obtain ⟨envelopes, hdec, rfl⟩ := restoreFromSnapshot_ok hrestore
  have hmem : ∀ e, e ∈ s.deferred ↔ s.pendingEnvelopes.get? e.1 = some e.2 ∧
      s.sync.contains e.1 = true := by
    intro e
    refine mem_filter.trans (and_congr_left (fun _ => ?_))
    exact ⟨get?_of_mem h.envelopes_sorted, get?_mem⟩
  have hsorted : s.deferred.Pairwise (fun a b => a.1 < b.1) := h.envelopes_sorted.filter _
  have henv : envelopes = ⟨s.deferred⟩ :=
    (decodeDeferred_encodeDeferred (fun e he => (h.owned e.1 e.2 ((hmem e).mp he).1).1) henc
      hdec).trans (foldl_insert hsorted (by simp))
  subst henv
  refine ⟨rfl, ?_, rfl, ?_, fun id op n hw => ?_, hsorted, fun id env => ?_⟩
  · exact (ops_restorePending _ _).trans (ops_restoreApplied h.ops_sorted)
  · refine sorted_restorePending _ ?_
    rw [pending_restoreApplied]
    exact sorted_empty
  · obtain ⟨⟨k, w, m⟩, hwm, hid, hop⟩ := mem_restoreSync (get?_mem hw)
    obtain rfl : id = k := hid
    exact ⟨w, m, get?_of_mem h.pending_sorted hwm, hop⟩
  · exact ⟨fun hk => (hmem (id, env)).mp (get?_mem hk),
      fun hk => get?_of_mem (m := ⟨s.deferred⟩) hsorted ((hmem (id, env)).mpr hk)⟩

namespace Restarted
variable {s' : Session}

omit [Segmentation] in
theorem contains (h : Restarted s s') (id) : s'.sync.contains id = s.sync.contains id := by
  rw [SyncState.contains, h.ops, SyncState.contains]

theorem kept {Q logged reported} (hr : Restarted s s')
    (h : Kept Q logged reported [] s ⟨[], []⟩) : Kept Q logged reported [] s' ⟨[], []⟩ := by
  obtain ⟨trace, hdoc, hrep, hacc⟩ := h.accounted
  refine ⟨hr.ops ▸ h.ops_sorted, hr.pending_sorted, hr.envelopes_sorted, fun id env hk => ?_,
    fun id op n hw => ?_, nodup_nil, by simp, trace ++ [.reloaded], ?_, fun id => ?_,
    fun o ho => ?_⟩
  · obtain ⟨hk, hc⟩ := (hr.envelopes id env).mp hk
    exact ⟨(h.owned id env hk).1, .inr (by rwa [hr.contains])⟩
  · obtain ⟨w, m, hw', rfl⟩ := hr.pending id op n hw
    obtain ⟨h1, h2, h3, h4⟩ := h.waiting id w m hw'
    exact ⟨rfl, by rwa [hr.contains], fun env hk => h3 env ((hr.envelopes id env).mp hk).1, h4⟩
  · rw [foldl_append, ← hdoc, hr.document]
    rfl
  · rw [hrep id]
    simp
  · rw [hr.ops] at ho
    rcases hacc o ho with ho | ⟨env, hdec, hin⟩
    · cases ho
    · refine .inr ⟨env, hdec, hin.imp (mem_append_left _) (fun hk => ?_)⟩
      exact ⟨(hr.envelopes o.id env).mpr hk, by rw [hr.contains]; exact hk.2⟩

omit [Segmentation] in
theorem drained (hr : Restarted s s') (h : s.DrainedDeferred) : s'.DrainedDeferred := by
  intro id env hk hc
  obtain ⟨hk, hc⟩ := (hr.envelopes id env).mp hk
  have := h id env hk hc
  rwa [observedFrontierIsReady, Session.stateVector, hr.stateVector]

end Restarted
end Session

/-! ## Ledgers -/

namespace Ledger
open Session
variable {l : Ledger}

/-- No deferred operation is among those that a checkpoint may prune; a message has one payload
    for an id, and that of the waiting operation if one waits under it. -/
def Spares (l : Ledger) : Event → Prop
  | .receive message _ =>
    (∀ o ∈ message.ops, ∀ o' ∈ message.ops, o.id = o'.id → o.payload = o'.payload) ∧
    ∀ o ∈ message.ops, ∀ w n, l.session.sync.pending.get? o.id = some (w, n) → o.payload = w.payload
  | .checkpoint request =>
    ∀ id ∈ l.session.sync.prunable request, l.session.pendingEnvelopes.get? id = none
  | .restart => True

def AlwaysSpares : Ledger → List Event → Prop
  | _, [] => True
  | l, e :: events => l.Spares e ∧ AlwaysSpares (l.step e) events

/-- What a ledger keeps. -/
structure Holds (l : Ledger) : Prop where
  kept : Kept (fun _ => False) l.logged l.reported [] l.session ⟨[], []⟩
  drained : l.session.DrainedDeferred
  decodes : PendingDecodes l.session.sync

section
variable (h : l.Holds)
include h

theorem holds_receive (limits) (hs : l.Spares (.receive message limits)) :
    (l.step (.receive message limits)).Holds := by
  have hkept : Kept (fun o => o ∈ message.ops) l.logged l.reported [] l.session ⟨[], []⟩ :=
    { h.kept with
      waiting := fun id op n hw => by
        obtain ⟨h1, h2, h3, -⟩ := h.kept.waiting id op n hw
        exact ⟨h1, h2, h3, fun o ho hid => hs.2 o ho op n (hid ▸ hw)⟩ }
  have hI := Kept.integration (Q := fun o => o ∈ message.ops) l.logged l.reported
    (fun o o' ho ho' hid => hs.1 o ho o' ho' hid)
  rcases hI.applyRemote_drained (fun _ ho => ho) limits h.decodes hkept with
    ⟨error, heq⟩ | ⟨s₁, result₁, hk₁, hd₁, heq⟩
  · simp only [step, heq, append_nil]
    refine ⟨{ h.kept with accounted := ?_ }, h.drained, h.decodes⟩
    obtain ⟨trace, hdoc, hrep, hacc⟩ := h.kept.accounted
    exact ⟨trace, hdoc, hrep, fun o ho => hacc o (Kept.known_of_append h.kept.ops_sorted ho)⟩
  · have hk := hI.drainDeferred hk₁
    simp only [step, heq]
    refine ⟨?_, drained_drainDeferred hk₁.envelopes_sorted result₁, ?_⟩
    · refine ⟨hk.ops_sorted, hk.pending_sorted, hk.envelopes_sorted, hk.owned,
        fun id op n hw => ?_, nodup_nil, by simp, ?_⟩
      · obtain ⟨h1, h2, h3, -⟩ := hk.waiting id op n hw
        exact ⟨h1, h2, h3, fun o ho => ho.elim⟩
      · obtain ⟨trace, hdoc, hrep, hacc⟩ := hk.accounted
        exact ⟨trace, hdoc, by simpa using hrep,
          fun o ho => hacc o (Kept.known_of_append hk.ops_sorted ho)⟩
    · rwa [drainDeferred_sync]

theorem holds_checkpoint
    (hs : l.Spares (.checkpoint request)) : (l.step (.checkpoint request)).Holds := by
  refine ⟨h.kept.checkpoint hs, fun id env hk hc => ?_, fun e he => ?_⟩
  · have := h.drained id env hk (contains_of_checkpoint hc)
    rwa [observedFrontierIsReady, Session.stateVector, step, checkpointHistory,
      stateVector_checkpoint]
  · rw [step, checkpointHistory, pending_checkpoint] at he
    exact h.decodes e he

theorem holds_restart [LimitedSerde] : (l.step .restart).Holds := by
  simp only [step, restarted]
  split
  · exact h
  · next snap hsave =>
    split
    · exact h
    · next s' hrestore =>
      have hr := h.kept.restarted hsave hrestore
      exact ⟨hr.kept h.kept, hr.drained h.drained, h.decodes.restore hsave hrestore⟩

theorem holds_step [LimitedSerde] (hs : l.Spares e) : (l.step e).Holds := by
  cases e with
  | receive message limits => exact holds_receive h limits hs
  | checkpoint request => exact holds_checkpoint h hs
  | restart => exact holds_restart h

theorem holds_run [LimitedSerde] (hs : l.AlwaysSpares events) : (events.foldl step l).Holds := by
  induction events generalizing l with
  | nil => exact h
  | cons e events ih => exact ih (holds_step h hs.1) hs.2

end

theorem holds_start (peer unitMode) : (start peer unitMode).Holds :=
  ⟨Kept.start peer unitMode, fun id env hk => by simp [start, withMode] at hk, fun e he => by cases he⟩

/-- Deferred operations are not lost: in every run of messages, checkpoints and restarts in which
    checkpoints spare the deferred operations and ids are not reused for another payload, every
    operation that was ever in the log has been applied to the document, and reported, or it is
    deferred and its observed vector is not yet covered. -/
theorem deferred_not_lost [LimitedSerde] (peer : PeerId) (unitMode : Bool) (events : List Event)
    (h : (start peer unitMode).AlwaysSpares events) : ∃ trace : List DocEvent,
      (run peer unitMode events).session.document = trace.foldl DocEvent.run .new ∧
      (∀ id, id ∈ (run peer unitMode events).reported ↔ ∃ env, .applied id env ∈ trace) ∧
      ∀ o ∈ (run peer unitMode events).logged, ∃ env, decode o.payload = .ok env ∧
        (.applied o.id env ∈ trace ∨
          (run peer unitMode events).session.pendingEnvelopes.get? o.id = some env ∧
          (run peer unitMode events).session.sync.contains o.id = true ∧
          (run peer unitMode events).session.observedFrontierIsReady env = false) := by
  have hrun : (run peer unitMode events).Holds := holds_run (holds_start peer unitMode) h
  obtain ⟨trace, hdoc, hrep, hacc⟩ := hrun.kept.accounted
  refine ⟨trace, hdoc, by simpa using hrep, fun o ho => ?_⟩
  rcases hacc o (.inl ho) with hnil | ⟨env, hdec, hin⟩
  · cases hnil
  · exact ⟨env, hdec, hin.imp_right (fun hk => ⟨hk.1, hk.2, hrun.drained o.id env hk.1 hk.2⟩)⟩

end Ledger
end

section
attribute [local instance] charSegmentation envelopeSerde

/-- A write of peer 1 that has observed an operation of peer 3. -/
def lateWrite : Envelope :=
  (DocOp.replaceRawBlock ⟨9, 9⟩ ⟨9, 9⟩ ⟨1, 1⟩ "a" (StateVector.new.set 3 1)).envelope

def lateMessage : ChangeMessage Envelope := ⟨.new, [⟨⟨1, 1⟩, lateWrite⟩]⟩

/-- The operation that the write has observed. -/
def observedMessage : ChangeMessage Envelope :=
  ⟨.new, [⟨⟨1, 3⟩, (DocOp.setFrontmatterField ⟨1, 3⟩ "a" none).envelope⟩]⟩

/-- The write is deferred and pruned by a checkpoint. When what it has observed arrives it is not
    applied. -/
theorem Ledger.deferred_lost : ∃ events : List Event, ∃ o ∈ (run 2 true events).logged,
    ∃ env, decode o.payload = .ok env ∧
      (run 2 true events).session.observedFrontierIsReady env = true ∧
      o.id ∉ (run 2 true events).reported := by
  refine ⟨[.receive lateMessage .default, .checkpoint ⟨0, []⟩, .receive observedMessage .default],
    ⟨⟨1, 1⟩, lateWrite⟩, mem_cons_self, lateWrite, rfl, ?_, ?_⟩
  · decide +kernel
  · decide +kernel

/-- Without the checkpoint, and with a restart in its place, it is applied. -/
theorem Ledger.deferred_not_lost_restart : (run 2 true [.receive lateMessage .default, .restart,
      .receive observedMessage .default]).reported = [⟨1, 3⟩, ⟨1, 1⟩] ∧
    ∃ trace : List DocEvent, (run 2 true [.receive lateMessage .default, .restart,
      .receive observedMessage .default]).session.document =
        trace.foldl DocEvent.run .new := by
  have := envelopeSerde_lawful
  have hone : ∀ (m : ChangeMessage Envelope) (o : Operation Envelope), m.ops = [o] →
      ∀ a ∈ m.ops, ∀ b ∈ m.ops, a.id = b.id → a.payload = b.payload := by
    intro m o hm a ha b hb _
    rw [hm, mem_singleton] at ha hb
    rw [ha, hb]
  have hempty : (run 2 true [.receive lateMessage .default,
      .restart]).session.sync.pending.keys = [] := by decide +kernel
  have hnone : ∀ o ∈ observedMessage.ops, ∀ w n, (run 2 true
      [.receive lateMessage .default, .restart]).session.sync.pending.get? o.id = some (w, n) →
      o.payload = w.payload := by
    intro o _ w n hw
    have hin := contains_iff_mem_keys.mp (contains_iff_get?.mpr ⟨_, hw⟩)
    rw [hempty] at hin
    cases hin
  obtain ⟨trace, hdoc, -⟩ := deferred_not_lost 2 true
    [.receive lateMessage .default, .restart, .receive observedMessage .default]
    ⟨⟨hone _ _ rfl, fun o _ w n hw => by cases hw⟩, trivial, ⟨hone _ _ rfl, hnone⟩, trivial⟩
  exact ⟨by decide +kernel, trace, hdoc⟩

end
end MdCrdt
