import MdCrdt.Session.Calls
import MdCrdt.Session.Integration

/- Runs of any number of sessions.

  A world has one session for each peer. In a step a session makes a local edit, or
  takes in a message; what a message carries has been created by some session, but
  it may come in any order, again, or never. `Run w created` lists what has been
  created on the way to `w`.

  However its messages arrive, the document of a session is the result of applying
  created operations one after the other to an empty document, each of them once
  (`Tracks`): the log, the buffer of the log and the deferred envelopes only decide
  on the order. -/
namespace MdCrdt
open Lib Session Option SortedMap SyncState Function
open List hiding le_trans not_le
variable [Segmentation] [Serde] {op : DocOp}

/-- The payload is that of a created operation. -/
def Honest (created : List DocOp) (id : OpId) (payload : Serde.Payload) (span : Nat) : Prop :=
  ∃ op ∈ created, opId op = id ∧ encode op.envelope = .ok payload ∧
    span = (operationExtent op.envelope).2

/-- The operation of a message has been created. -/
def Sent (created : List DocOp) (o : Operation Serde.Payload) : Prop :=
  ∃ op ∈ created, opId op = o.id ∧ encode op.envelope = .ok o.payload

namespace Session
variable {sync : SyncState Serde.Payload} {id : OpId}

/-- The session has applied the operations `applied` to its document, in that order; those under
    the ids `todo` are in the log and still to be handled. -/
structure Tracks (created : List DocOp) (todo : List OpId) (applied : List DocOp) (s : Session) :
    Prop where
  sync : s.sync.Sound (Honest created)
  document : s.document = applied.foldl applyDocOp .new
  mem_created : ∀ op ∈ applied, op ∈ created
  nodup : (applied.map opId).Nodup
  logged : ∀ op ∈ applied, s.sync.contains (opId op) = true
  deferred : ∀ id env, s.pendingEnvelopes.get? id = some env →
    (∃ op ∈ created, env = op.envelope ∧ opId op = id) ∧ id ∉ applied.map opId ∧
      ((s.sync.pending.get? id).isSome ∨ s.sync.contains id = true)
  complete : ∀ id, s.sync.contains id = true →
    id ∈ applied.map opId ∨ (s.pendingEnvelopes.get? id).isSome ∨ id ∈ todo
  todo_nodup : todo.Nodup
  todo_open : ∀ id ∈ todo, s.sync.contains id = true ∧ id ∉ applied.map opId

variable {created : List DocOp} {todo : List OpId} {applied : List DocOp} {s : Session}

theorem tracks_withMode (peer mode) : Tracks created [] [] (withMode peer mode) where
  sync := sound_new
  document := rfl
  mem_created := by simp
  nodup := by simp
  logged := by simp
  deferred := by simp [withMode]
  complete := by simp [withMode, SyncState.new, SyncState.contains, SortedMap.contains]
  todo_nodup := by simp
  todo_open := by simp

theorem Tracks.mono (h : Tracks created todo applied s)
    (hsub : ∀ op ∈ created, op ∈ created') : Tracks created' todo applied s where
  sync := h.sync.mono (fun _ _ _ ⟨op, hop, hrest⟩ => ⟨op, hsub op hop, hrest⟩)
  __ := h
  mem_created op hop := hsub op (h.mem_created op hop)
  deferred id env he := by
    obtain ⟨⟨op, hop, hrest⟩, hrest'⟩ := h.deferred id env he
    exact ⟨⟨op, hsub op hop, hrest⟩, hrest'⟩

/-- Taking in a message leaves the peer and its counter alone. -/
def Same (s s' : Session) : Prop := s'.peer = s.peer ∧ s'.nextCounter = s.nextCounter

theorem Same.applyOrDefer (h : Same s₀ s) (id env result) : Same s₀
    (s.applyOrDefer id env result).1 := by
  unfold Session.applyOrDefer
  split <;> exact h

/-! ## Handling one operation -/

/-- Applying an operation that the log has recorded. -/
theorem Tracks.apply (h : Tracks created (id :: todo) applied s)
    (hop : op ∈ created) (hid : opId op = id) (hnone : s.pendingEnvelopes.get? id = none) :
    Tracks created todo (applied ++ [op]) { s with document := applyDocOp s.document op } := by
  obtain ⟨hfresh, hnodup⟩ := nodup_cons.mp h.todo_nodup
  obtain ⟨hlogged, hnew⟩ := h.todo_open id mem_cons_self
  have hmem : ∀ k, k ∈ (applied ++ [op]).map opId ↔ k ∈ applied.map opId ∨ k = id := by
    intro k
    rw [map_append, mem_append, map_singleton, mem_singleton, hid]
  refine ⟨h.sync, ?_, ?_, ?_, ?_, ?_, ?_, hnodup, ?_⟩
  · simp only [foldl_append, foldl_cons, foldl_nil, ← h.document]
  · exact forall_mem_push h.mem_created hop
  · rw [map_append, map_singleton, hid]
    exact nodup_push h.nodup hnew
  · exact forall_mem_push h.logged (by rw [hid]; exact hlogged)
  · intro k env hk
    obtain ⟨h1, h2, h3⟩ := h.deferred k env hk
    refine ⟨h1, fun hc => ?_, h3⟩
    rcases (hmem k).mp hc with hc | rfl
    · exact h2 hc
    · rw [hnone] at hk
      cases hk
  · intro k hk
    rw [hmem]
    rcases h.complete k hk with hk | hk | hk
    · exact .inl (.inl hk)
    · exact .inr (.inl hk)
    · rcases mem_cons.mp hk with rfl | hk
      · exact .inl (.inr rfl)
      · exact .inr (.inr hk)
  · intro k hk
    obtain ⟨h1, h2⟩ := h.todo_open k (mem_cons_of_mem _ hk)
    refine ⟨h1, fun hc => ?_⟩
    rcases (hmem k).mp hc with hc | rfl
    · exact h2 hc
    · exact hfresh hk

/-- Applying or deferring an operation that the log has recorded. -/
theorem Tracks.applyOrDefer (h : Tracks created (id :: todo) applied s)
    (hop : op ∈ created) (hid : opId op = id) (hnone : s.pendingEnvelopes.get? id = none) (result) :
    ∃ applied', Tracks created todo applied' (s.applyOrDefer id op.envelope result).1 := by
  obtain ⟨-, hnodup⟩ := nodup_cons.mp h.todo_nodup
  obtain ⟨hlogged, hnew⟩ := h.todo_open id mem_cons_self
  unfold Session.applyOrDefer
  split
  · refine ⟨applied, h.sync, h.document, h.mem_created, h.nodup, h.logged, ?_, ?_, hnodup,
      fun k hk => h.todo_open k (mem_cons_of_mem _ hk)⟩
    · intro k env hk
      rcases get?_insert_eq_some.mp hk with ⟨rfl, rfl⟩ | ⟨-, hk⟩
      · exact ⟨⟨op, hop, rfl, hid⟩, hnew, .inr hlogged⟩
      · exact h.deferred k env hk
    · intro k hk
      simp only [get?_insert]
      rcases h.complete k hk with hk | hk | hk
      · exact .inl hk
      · right; left
        split
        · rfl
        · exact hk
      · rcases mem_cons.mp hk with rfl | hk
        · simp
        · exact .inr (.inr hk)
  · exact ⟨_, h.apply hop hid hnone⟩

/-- The envelope of an operation that is to be handled is taken out. -/
theorem Tracks.erase (h : Tracks created todo applied s) (hid : id ∈ todo')
    (hsub : ∀ k ∈ todo, k ∈ todo') (hn : todo'.Nodup)
    (hopen : ∀ k ∈ todo', s.sync.contains k = true ∧ k ∉ applied.map opId) :
    Tracks created todo' applied (s.unkeep id) where
  __ := h
  deferred k e hk := h.deferred k e (get?_erase_eq_some.mp hk).2
  complete k hk := by
    simp only [get?_erase]
    by_cases he : k = id
    · exact .inr (.inr (he ▸ hid))
    · rw [if_neg he]
      exact (h.complete k hk).imp_right (Or.imp_right (hsub k))
  todo_nodup := hn
  todo_open := hopen

/-- A deferred envelope comes back to be handled. -/
theorem Tracks.release (h : Tracks created todo applied s)
    (hid : s.pendingEnvelopes.get? id = some env) (hlogged : s.sync.contains id = true)
    (hnew : id ∉ todo) : Tracks created (id :: todo) applied (s.unkeep id) :=
  h.erase mem_cons_self (fun _ => mem_cons_of_mem _) (nodup_cons.mpr ⟨hnew, h.todo_nodup⟩)
    (forall_mem_cons.mpr ⟨⟨hlogged, (h.deferred id env hid).2.1⟩, h.todo_open⟩)

/-! ## Recording and promoting -/

/-- The log records an operation: it is to be handled. -/
theorem Tracks.recorded (h : Tracks created todo applied s)
    (hp : Records (Honest created) s.sync sync o) :
    Tracks created (todo ++ [o.id]) applied { s with sync := sync } where
  sync := hp.sound
  __ := h
  logged op hop := (hp.contains_iff _).mpr (.inl (h.logged op hop))
  deferred id env he := by
    obtain ⟨h1, h2, h3⟩ := h.deferred id env he
    refine ⟨h1, h2, ?_⟩
    rcases h3 with h3 | h3
    · exact hp.still_waiting id h3
    · exact .inr ((hp.contains_iff id).mpr (.inl h3))
  complete id hid := by
    rw [mem_append, mem_singleton]
    rcases (hp.contains_iff id).mp hid with hid | hid
    · rcases h.complete id hid with hid | hid | hid
      · exact .inl hid
      · exact .inr (.inl hid)
      · exact .inr (.inr (.inl hid))
    · exact .inr (.inr (.inr hid))
  todo_nodup := by
    refine nodup_push h.todo_nodup (fun hid => ?_)
    exact Bool.false_ne_true (hp.fresh.symm.trans (h.todo_open _ hid).1)
  todo_open id hid := by
    rcases mem_append.mp hid with hid | hid
    · exact ⟨(hp.contains_iff id).mpr (.inl (h.todo_open id hid).1), (h.todo_open id hid).2⟩
    · rw [mem_singleton.mp hid]
      refine ⟨(hp.contains_iff _).mpr (.inr rfl), fun hc => ?_⟩
      obtain ⟨op, hop, hid⟩ := mem_map.mp hc
      exact Bool.false_ne_true (hp.fresh.symm.trans (hid ▸ h.logged op hop))

/-- No envelope is kept for an operation that is neither logged nor waits. -/
theorem Tracks.not_kept (h : Tracks created todo applied s)
    (hc : s.sync.contains id = false) (hp : s.sync.pending.get? id = none) :
    s.pendingEnvelopes.get? id = none := by
  rw [eq_none_iff_forall_ne_some]
  intro env he
  rcases (h.deferred _ _ he).2.2 with hw | hw
  · rw [hp] at hw
    cases hw
  · exact Bool.false_ne_true (hc.symm.trans hw)

/-- An operation that waits for earlier ones of its peer. -/
theorem Tracks.buffer (h : Tracks created [] applied s)
    (hop : op ∈ created) (hid : opId op = o.id) (hpay : encode op.envelope = .ok o.payload)
    (hb : s.sync.applyOne o (operationExtent op.envelope).2 = (sync, .buffered)) :
    Tracks created [] applied
      { s with sync := sync, pendingEnvelopes := s.pendingEnvelopes.insert o.id op.envelope } := by
  obtain ⟨hc, hsync⟩ := applyOne_buffered hb
  have hsound : sync.Sound (Honest created) := by
    rcases hsync with ⟨rfl, _⟩ | rfl
    · exact h.sync
    · exact h.sync.buffer ⟨op, hop, hid, hpay, rfl⟩ hc
  refine ⟨hsound, h.document, h.mem_created, h.nodup, ?_, ?_, ?_, h.todo_nodup, by simp⟩
  · intro op' hop'
    rw [(buffered hb).contains]
    exact h.logged op' hop'
  · intro k env hk
    rcases get?_insert_eq_some.mp hk with ⟨rfl, rfl⟩ | ⟨-, hk⟩
    · refine ⟨⟨op, hop, rfl, hid⟩, fun hcon => ?_, .inl ((buffered hb).isSome (.inl rfl))⟩
      obtain ⟨op', hop', hid'⟩ := mem_map.mp hcon
      have := h.logged op' hop'
      rw [hid', hc] at this
      cases this
    · obtain ⟨h1, h2, h3⟩ := h.deferred k env hk
      refine ⟨h1, h2, ?_⟩
      rcases h3 with h3 | h3
      · exact .inl ((buffered hb).isSome (.inr h3))
      · right
        rw [(buffered hb).contains]
        exact h3
  · intro k hk
    rw [(buffered hb).contains] at hk
    simp only [get?_insert]
    rcases h.complete k hk with hk | hk | hk
    · exact .inl hk
    · right; left
      split
      · rfl
      · exact hk
    · cases hk

/-! ## Messages -/

/-- Every action on a message of created operations keeps track. -/
theorem integration_tracks [LimitedSerde] (s₀) :
    Integration (Sent created) (fun todo s _ => Same s₀ s ∧
      (∃ applied, Tracks created (todo.map Operation.id) applied s) ∧
      ∀ o ∈ todo, Sent created o) where
  log {s result o env} h hq hdec ha := by
    obtain ⟨hsame, ⟨applied, ht⟩, -⟩ := h
    obtain ⟨op, hop, hid, hpay⟩ := hq
    obtain rfl := Except.ok.inj ((decode_encode hpay).symm.trans hdec)
    obtain ⟨-, hc, hpend, -⟩ := applyOne_applied ha
    have hrec := ht.recorded (records_record ht.sync hc hpend ⟨op, hop, hid, hpay, rfl⟩)
    exact ⟨Same.applyOrDefer (s := { s with sync := s.sync.record o }) hsame _ _ _,
      hrec.applyOrDefer hop hid (ht.not_kept hc hpend) result, by simp⟩
  wait h hq hdec ha := by
    obtain ⟨hsame, ⟨applied, ht⟩, -⟩ := h
    obtain ⟨op, hop, hid, hpay⟩ := hq
    obtain rfl := Except.ok.inj ((decode_encode hpay).symm.trans hdec)
    exact ⟨hsame, ⟨applied, ht.buffer hop hid hpay ha⟩, by simp⟩
  promote h hw _ := by
    obtain ⟨hsame, ⟨applied, ht⟩, hsent⟩ := h
    obtain ⟨rfl, ⟨op, hop, hid, hpay, -⟩, -⟩ := ht.sync.waiting _ _ _ hw
    refine ⟨hsame, ⟨applied, ?_⟩, ?_⟩
    · rw [map_append]
      exact ht.recorded (records_promote ht.sync hw)
    · exact forall_mem_push hsent ⟨op, hop, hid, hpay⟩
  settle {o todo s s₁ result env} h hf := by
    obtain ⟨hsame, ⟨applied, ht⟩, hsent⟩ := h
    obtain ⟨⟨op, hop, hid, hpay⟩, hrest⟩ := forall_mem_cons.mp hsent
    cases hf with
    | kept hk =>
      obtain ⟨⟨op, hop, rfl, hid⟩, -⟩ := ht.deferred _ _ hk
      exact ⟨Same.applyOrDefer (s := s.unkeep o.id) hsame _ _ _,
        (ht.erase mem_cons_self (fun _ hk => hk) ht.todo_nodup ht.todo_open).applyOrDefer hop hid (by simp) result, hrest⟩
    | decoded hn hdec =>
      obtain rfl := Except.ok.inj ((decode_encode hpay).symm.trans hdec)
      exact ⟨hsame.applyOrDefer _ _ _, ht.applyOrDefer hop hid hn result, hrest⟩
  release {s result id env} h hk hc := by
    obtain ⟨hsame, ⟨applied, ht⟩, hsent⟩ := h
    obtain ⟨⟨op, hop, rfl, hid⟩, -⟩ := ht.deferred _ _ hk
    exact ⟨Same.applyOrDefer (s := s.unkeep id) hsame _ _ _,
      (ht.release hk hc (by simp)).applyOrDefer hop hid (by simp) result, hsent⟩

/-- A session takes in a message of created operations. -/
theorem Tracks.applyRemote [LimitedSerde] (h : Tracks created [] applied s)
    (hd : PendingDecodes s.sync) (hm : ∀ o ∈ message.ops, Sent created o) (limits) :
    Same s (s.applyRemote message limits).1 ∧
      ∃ applied', Tracks created [] applied' (s.applyRemote message limits).1 := by
  rcases (integration_tracks s).applyRemote hm limits hd ⟨⟨rfl, rfl⟩, ⟨applied, h⟩, by simp⟩ with
    ⟨error, heq⟩ | ⟨s', result, heq, ⟨hsame, ht, -⟩, -⟩
  · rw [heq]
    exact ⟨⟨rfl, rfl⟩, applied, h⟩
  · rw [heq]
    exact ⟨hsame, ht⟩

/-- A session commits an operation of its own. -/
theorem Tracks.commits (h : Tracks created [] applied s)
    (hfresh : ∀ o ∈ created, opId o ≠ opId op) (hc : s.Commits op s') :
    Tracks (op :: created) [] (applied ++ [op]) s' := by
  obtain ⟨payload, hpay, rfl⟩ := hc
  have hnot : s.sync.contains (opId op) = false := by
    refine Bool.eq_false_iff.mpr (fun hcon => ?_)
    obtain ⟨p, hp⟩ := contains_iff_get?.mp hcon
    obtain ⟨n, o, ho, hid, -⟩ := h.sync.logged _ _ hp
    exact hfresh o ho hid
  have hwait : s.sync.pending.get? (opId op) = none := by
    rw [eq_none_iff_forall_ne_some]
    rintro ⟨o, n⟩ hw
    obtain ⟨-, ⟨o', ho', hid, -⟩, -⟩ := h.sync.waiting _ _ _ hw
    exact hfresh o' ho' hid
  have hnone := h.not_kept hnot hwait
  have h' := h.mono (fun o ho => mem_cons_of_mem op ho)
  have hhonest : Honest (op :: created) (opId op) payload (operationExtent op.envelope).2 :=
    ⟨op, mem_cons_self, rfl, hpay, rfl⟩
  have hrecords : Records (Honest (op :: created)) s.sync
      (s.sync.record ⟨opId op, payload⟩) ⟨opId op, payload⟩ :=
    records_record h'.sync hnot hwait hhonest
  have hrec := h'.recorded hrecords
  have ht := hrec.apply mem_cons_self rfl hnone
  exact { ht with }

end Session

/-! ## Runs -/

/-- One session for each peer. -/
abbrev World := PeerId → Session

/-- Worlds that any number of steps lead to, with all that has been created on the way, the
    newest operation first. -/
inductive Run : World → List DocOp → Prop
  | start : Run Session.new []
  | edit {w : World} {created : List DocOp} (p : PeerId) {op : DocOp} {s' : Session}
      (h : Run w created) (hc : (w p).Creates op) (hn : op.Numbered)
      (hs : (w p).Commits op s') : Run (Function.update w p s') (op :: created)
  | receive {w : World} {created : List DocOp} (p : PeerId)
      (message : ChangeMessage Serde.Payload) (limits : ValidationLimits) (h : Run w created)
      (hm : ∀ o ∈ message.ops, Sent created o) :
      Run (Function.update w p ((w p).applyRemote message limits).1) created

namespace Run
variable {w : World} {created : List DocOp}

/-- What every run establishes about the clocks. -/
structure Clocks (w : World) (created : List DocOp) : Prop where
  peer : ∀ p, (w p).peer = p
  below : ∀ op ∈ created, (opId op).counter < (w (opId op).peer).nextCounter
  ordered : created.Pairwise (fun later earlier =>
    (opId later).peer = (opId earlier).peer → (opId earlier).counter < firstCounter later)
  first_le : ∀ op ∈ created, firstCounter op ≤ (opId op).counter

theorem opId_ne_of_fresh (hk : Clocks w created)
    (hc : Counters (w p) op) : ∀ o ∈ created, opId o ≠ opId op := by
  intro o ho he
  have := hk.below o ho
  rw [he, hc.peer, hk.peer] at this
  exact absurd hc.le (not_le.mpr this)

theorem clocks_edit (hk : Clocks w created) (hc : Counters (w p) op) (hs : (w p).Commits op s') :
    Clocks (update w p s') (op :: created) := by
  obtain ⟨payload, -, rfl⟩ := hs
  have hpeer : (opId op).peer = p := hc.peer.trans (hk.peer p)
  refine ⟨fun q => ?_, fun o ho => ?_, pairwise_cons.mpr ⟨fun o ho he => ?_, hk.ordered⟩,
    fun o ho => ?_⟩
  · by_cases hq : q = p
    · subst hq
      rw [update_self]
      exact hk.peer q
    · rw [update_of_ne hq]
      exact hk.peer q
  · rcases mem_cons.mp ho with rfl | ho
    · rw [hpeer, update_self]
      exact Nat.lt_succ_self _
    · by_cases hq : (opId o).peer = p
      · rw [hq, update_self]
        have := hk.below o ho
        rw [hq] at this
        exact lt_of_lt_of_le this (le_trans hc.le (Nat.le_succ _))
      · rw [update_of_ne hq]
        exact hk.below o ho
  · have := hk.below o ho
    rw [← he, hpeer] at this
    rw [hc.first]
    exact this
  · rcases mem_cons.mp ho with rfl | ho
    · rw [hc.first]
      exact hc.le
    · exact hk.first_le o ho

theorem decodes (h : Run w created) (p) : PendingDecodes (w p).sync := by
  induction h generalizing p with
  | start => exact fun e he => by cases he
  | @edit w created q op s' h hc hn hs ih =>
    by_cases hq : p = q
    · subst hq
      obtain ⟨payload, -, rfl⟩ := hs
      rw [update_self]
      intro e he
      rw [addLocalOp, pending_record] at he
      exact ih p e he
    · rw [update_of_ne hq]
      exact ih p
  | @receive w created q message limits h hm ih =>
    by_cases hq : p = q
    · subst hq
      rw [update_self]
      rcases (ih p).applyRemote message limits with ⟨error, heq⟩ | ⟨s', result, heq, hd⟩
      · rw [heq]
        exact ih p
      · rw [heq]
        exact hd
    · rw [update_of_ne hq]
      exact ih p

/-- The sessions of a run: their clocks, and the documents as folds of what they applied. -/
theorem sessions [LimitedSerde] (h : Run w created) :
    Clocks w created ∧ ∀ p, ∃ applied, (w p).Tracks created [] applied := by
  induction h with
  | start =>
    refine ⟨⟨fun _ => rfl, by simp, by simp, by simp⟩, fun p => ⟨[], tracks_withMode p true⟩⟩
  | @edit w created p op s' h hc hn hs ih =>
    obtain ⟨hk, ht⟩ := ih
    refine ⟨clocks_edit hk hc.counters hs, fun q => ?_⟩
    by_cases hq : q = p
    · subst hq
      obtain ⟨applied, hq⟩ := ht q
      rw [update_self]
      exact ⟨_, hq.commits (opId_ne_of_fresh hk hc.counters) hs⟩
    · obtain ⟨applied, hq'⟩ := ht q
      rw [update_of_ne hq]
      exact ⟨applied, hq'.mono (fun o ho => mem_cons_of_mem op ho)⟩
  | @receive w created p message limits h hm ih =>
    obtain ⟨hk, ht⟩ := ih
    obtain ⟨applied, hp⟩ := ht p
    obtain ⟨hsame, ht'⟩ := hp.applyRemote (h.decodes p) hm limits
    have hpeer : ∀ q, (update w p ((w p).applyRemote message limits).1 q).peer =
        (w q).peer ∧ (update w p ((w p).applyRemote message limits).1 q).nextCounter =
        (w q).nextCounter := by
      intro q
      by_cases hq : q = p
      · subst hq
        rw [update_self]
        exact hsame
      · rw [update_of_ne hq]
        exact ⟨rfl, rfl⟩
    refine ⟨⟨fun q => ?_, fun o ho => ?_, hk.ordered, hk.first_le⟩, fun q => ?_⟩
    · rw [(hpeer q).1, hk.peer]
    · rw [(hpeer _).2]
      exact hk.below o ho
    · by_cases hq : q = p
      · subst hq
        rw [update_self]
        exact ht'
      · rw [update_of_ne hq]
        exact ht q

/-- What an operation was created on: an earlier world of the run. -/
theorem origin (h : Run w created) (hop : op ∈ created) :
    ∃ w₀ created₀ p, Run w₀ created₀ ∧ (w₀ p).Creates op ∧ op.Numbered ∧
      op :: created₀ <:+ created := by
  induction h with
  | start => cases hop
  | @edit w created p op' s' h hc hn hs ih =>
    rcases mem_cons.mp hop with rfl | hop
    · exact ⟨w, created, p, h, hc, hn, suffix_refl _⟩
    · obtain ⟨w₀, created₀, q, h₀, hc₀, hn₀, hsuf⟩ := ih hop
      exact ⟨w₀, created₀, q, h₀, hc₀, hn₀, hsuf.trans (suffix_cons _ _)⟩
  | receive p message limits h hm ih => exact ih hop

/-! ## Calls as steps -/

theorem chain {ops p s t} (hc : s.Chain ops t)
    (hn : ∀ op ∈ ops, op.Numbered) (h : Run w created) (hs : w p = s) :
    ∃ created', Run (update w p t) created' := by
  induction hc generalizing w created with
  | nil =>
    refine ⟨created, ?_⟩
    rwa [← hs, update_eq_self]
  | @cons s s' t op ops hcr hco _ ih =>
    subst hs
    have hone := h.edit p hcr (hn op mem_cons_self) hco
    have hrest := ih (fun o ho => hn o (mem_cons_of_mem op ho)) hone (update_self p s' w)
    rwa [update_idem] at hrest

/-- What a session does locally is a run. -/
theorem local_edits (p) {s} (h : Makes DocOp.Numbered (Session.new p) s) :
    ∃ created, Run (update Session.new p s) created := by
  obtain ⟨ops, hc, hn⟩ := h
  exact Run.start.chain hc hn rfl

/-- Calls of one session, whether they were refused or not, are a run. -/
theorem calls (p) {cs : List Call} (hcs : ∀ c ∈ cs, Plain c) :
    ∃ w created, Run w created ∧ w p = cs.foldl after (Session.new p) := by
  obtain ⟨created, h⟩ := local_edits p (makes_calls hcs (Session.new p))
  exact ⟨_, created, h, update_self ..⟩

/-- One session takes in what another has for it. -/
theorem sync [LimitedSerde] (h : Run w created) (p q)
    (hm : (w q).encodeChangesSince since = .ok message) (limits) :
    Run (update w p ((w p).applyRemote message limits).1) created := by
  refine h.receive p message limits (fun o ho => ?_)
  obtain ⟨applied, ht⟩ := h.sessions.2 q
  obtain ⟨n, op, hop, hid, hpay, -⟩ := ht.sync.mem_changes hm ho
  exact ⟨op, hop, hid, hpay⟩

end Run
end MdCrdt
