import MdCrdt.Session.OwnIds
import MdCrdt.Session.Deliveries

/- Replay of a log with one author.

  A commit applies the very envelope it writes to the log, so a receiver that takes
  the operations in the order in which they were created is, after each of them,
  where the author was (`Mirrors`). Three things have to be checked on the way: every
  operation a session creates passes the checks of a receiver (`Passes`), the order of
  the ids is the order of creation (`Consecutive`), and the frontier an operation names
  is the vector its author had, which the receiver has reached.

  The author has to be in unit mode, as `new` makes it: in string mode a block may
  bring text along, which a receiver in unit mode refuses. -/
namespace MdCrdt
open Lib SortedMap Serde Session DocOp
open List hiding not_lt

namespace Session
open SyncState
variable [Segmentation] [Serde] {s t r : Session} {op : DocOp} {ops : List DocOp}

/-! ## The checks of a receiver -/

/-- What a receiver in unit mode checks before it takes an operation. -/
structure Passes (o : Operation Payload) (env : Envelope) : Prop extends Checked o env where
  counter : o.id.counter ≠ 0
  nonempty : Serde.length o.payload ≠ 0
  skeleton : ∀ parent after id rightOrigin block,
    env.body = .doc (.insertBlock parent after id rightOrigin block) →
      validateBlockSkeleton block.kind = .ok ()
  textless : insertBlockParagraphIsEmpty env = true

theorem prepareOps_cons_of_passes (h : Passes o env) (hnew : r.sync.contains o.id = false)
    (hrest : r.prepareOps rest = .ok prepared) :
    r.prepareOps (o :: rest) = .ok ((o, env) :: prepared) := by
  have hversion : ¬env.version ≠ wireVersion := not_ne_iff.mpr (decode_version h.decodes)
  rw [prepareOps, prepareOpsBy, if_neg (by simp [hnew]), if_neg h.counter, h.decodes]
  simp only [bind, Except.bind, if_neg hversion, h.textless, ← h.isMax, h.peers, hrest]
  split
  · next parent after id rightOrigin block hbody =>
    simp [h.skeleton _ _ _ _ _ hbody]
  · simp

/-- Operations that are new to the log and pass are all prepared. -/
theorem prepareOps_of_passes
    (h : ∀ p ∈ sent, Passes p.1 p.2) (hnew : ∀ p ∈ sent, r.sync.contains p.1.id = false) :
    r.prepareOps (sent.map Prod.fst) = .ok sent := by
  induction sent with
  | nil => rfl
  | cons p sent ih =>
    obtain ⟨hp, hsent⟩ := forall_mem_cons.mp h
    obtain ⟨hnp, hnsent⟩ := forall_mem_cons.mp hnew
    exact prepareOps_cons_of_passes hp hnp (ih hsent hnsent)

omit [Segmentation] in
/-- The ids a session allocates are its own. -/
theorem Creates.peersConsistent (h : s.Creates op) : peersConsistent s.peer op.envelope = true := by
  cases h with
  | insertBlock hc ha hk hv hp hu => simp [MdCrdt.peersConsistent, envelope, peekNextId, hp]
  | insertText hb ht ho hne =>
    simp only [MdCrdt.peersConsistent, envelope, List.all_eq_true, decide_eq_true_eq]
    exact fun u hu => (mem_pasteUnits hu).1
  | moveBlocks hne hd ha ht hat =>
    simp only [MdCrdt.peersConsistent, envelope, List.all_eq_true, decide_eq_true_eq,
      Bool.and_eq_true, true_and]
    exact fun m hm => (mem_placements hm).1
  | mergeBlocks hc hadj hl hr =>
    simp only [MdCrdt.peersConsistent, envelope, List.all_eq_true, decide_eq_true_eq,
      Bool.or_eq_true]
    exact fun u hu => (mem_mergeUnits hu).2
  | _ => simp [MdCrdt.peersConsistent, envelope, headId, peekNextId]

/-- No envelope is written as an empty payload. -/
def NonemptyPayloads : Prop := ∀ (e : Envelope) (p : Payload), toVec e = .ok p → 0 < Serde.length p

/-- Every operation that a session in unit mode creates passes. -/
theorem Creates.passes [LimitedSerde] (hlength : NonemptyPayloads) (h : s.Creates op)
    (hunit : s.unitMode = true) (hpos : 0 < s.nextCounter) (hp : encode op.envelope = .ok payload) :
    Passes ⟨opId op, payload⟩ op.envelope where
  decodes := decode_encode hp
  isMax := rfl
  peers := h.counters.peer ▸ h.peersConsistent
  counter := (lt_of_lt_of_le hpos h.counters.le).ne'
  nonempty := (hlength _ _ (encode_ok hp).2).ne'
  skeleton := by
    intro parent after id rightOrigin block hbody
    cases h with
    | insertBlock hc ha hk hv hp hu =>
      cases hbody
      exact hv
    | _ => cases hbody
  textless := by
    cases h with
    | insertBlock hc ha hk hv hp hu => exact hu hunit
    | _ => rfl

omit [Segmentation] in
/-- An operation names no frontier, or the vector its author had. -/
theorem Creates.observes (h : s.Creates op) : envelopeObservedFrontier op.envelope = none ∨
      envelopeObservedFrontier op.envelope = some s.stateVector := by
  cases h <;> first | exact .inl rfl | exact .inr rfl

/-! ## One step -/

/-- A receiver that has taken all that the author has made. -/
structure Mirrors (s r : Session) : Prop where
  document : r.document = s.document
  sync : r.sync = s.sync
  waiting : r.pendingEnvelopes = .empty
  frontier : Frontier s.peer s.nextCounter s.sync
  sorted : s.stateVector.peers.Sorted

omit [Segmentation] in
theorem mirrors_new (author peer) : Mirrors (new author) (new peer) where
  document := rfl
  sync := rfl
  waiting := rfl
  frontier := frontier_new author
  sorted := sorted_empty

theorem drainDeferred_empty (h : r.pendingEnvelopes = .empty)
    (result) : r.drainDeferred result = (r, result) := by
  have hready : r.readyDeferred.isEmpty = true := by
    rw [readyDeferred, h]
    rfl
  rw [drainDeferred, drainDeferredLoop, if_pos hready]

theorem drainPromoted_empty (h : r.sync.pending = .empty) (result) :
    r.drainPromoted result = (r, .ok result) := by
  rw [drainPromoted, promoteReadyPending_empty h]
  rfl

omit [Segmentation] in
theorem sorted_record {sync : SyncState Payload} (h : sync.stateVector.peers.Sorted)
    (o) : (sync.record o).stateVector.peers.Sorted := by
  simp only [SyncState.record, observe]
  split
  · exact sorted_insert h _ _
  · exact h

omit [Segmentation] in
/-- Once the operation is in the log, its frontier has been reached. -/
theorem Mirrors.ready (h : Mirrors s r) (hc : s.Creates op) (o) :
    ({ r with sync := s.sync.record o } : Session).observedFrontierIsReady op.envelope = true := by
  unfold observedFrontierIsReady
  rcases hc.observes with hobs | hobs
  · rw [hobs]
  · rw [hobs]
    simp only [all_eq_true, decide_eq_true_eq]
    intro e he
    have hseen : s.sync.stateVector.seen e.1 = e.2 := by
      show (s.stateVector.peers.get? e.1).getD 0 = e.2
      rw [get?_of_mem h.sorted he]
      rfl
    calc e.2 = s.sync.stateVector.seen e.1 := hseen.symm
      _ ≤ (s.sync.record o).stateVector.seen e.1 := seen_le_record o e.1

/-- The next operation is applied at once, and the receiver is where the author is. -/
theorem Mirrors.step (h : Mirrors s r) (hc : s.Creates op)
    (hs : t = { s with document := applyDocOp s.document op,
                       sync := s.sync.addLocalOp ⟨opId op, payload⟩,
                       nextCounter := (opId op).counter + 1 })
    (happlied : opId op ∉ applied)
    (rest) :
    ∃ r', Mirrors t r' ∧ r.integrateOps ⟨applied, []⟩ ((⟨opId op, payload⟩, op.envelope) :: rest) =
        r'.integrateOps ⟨applied ++ [opId op], []⟩ rest := by
  obtain ⟨hpeer, hfirst, hle⟩ := hc.counters
  have hone : r.sync.applyOne ⟨opId op, payload⟩ (operationExtent op.envelope).2 =
      (s.sync.record ⟨opId op, payload⟩, .applied) := by
    rw [h.sync]
    exact h.frontier.applyOne (e := (⟨opId op, payload⟩, (operationExtent op.envelope).2)) hpeer
      hfirst hle
  have hfrontier := h.frontier.record (e := (⟨opId op, payload⟩, 1)) hpeer hle
  obtain ⟨r', hr'⟩ : ∃ r', r' = ({ r with
      sync := s.sync.record ⟨opId op, payload⟩,
      document := applyEnvelopeToDocument r.document op.envelope } : Session) := ⟨_, rfl⟩
  have hm : Mirrors t r' := by
    subst hs hr'
    exact ⟨by rw [h.document]; rfl, rfl, h.waiting, hfrontier, sorted_record h.sorted _⟩
  have hempty : r'.sync.pending = .empty := by
    rw [hr']
    exact hfrontier.empty
  refine ⟨r', hm, ?_⟩
  rw [integrateOps, hone]
  simp only [applyOrDefer_of_ready (h.ready hc _), if_neg happlied, filter_nil]
  rw [← hr', drainPromoted_empty hempty]
  simp only [drainDeferred_empty hm.waiting]

/-! ## Whole logs -/

/-- What a chain of commits writes is in the order of the ids, passes the checks of a receiver,
    and takes one that mirrors the author before the chain to one that mirrors them after it. -/
theorem Chain.mirrored [LimitedSerde] (hlength : NonemptyPayloads) (h : Chain s ops t)
    (hunit : s.unitMode = true) (hpos : 0 < s.nextCounter)
    (hbelow : ∀ e ∈ s.sync.ops.entries, e.1.counter < s.nextCounter) :
    ∃ sent : List (Operation Payload × Envelope),
      t.sync.ops.entries = s.sync.ops.entries ++ sent.map (fun p => (p.1.id, p.1.payload)) ∧
      (∀ p ∈ sent, Passes p.1 p.2) ∧
      ∀ r applied, Mirrors s r → (∀ i ∈ applied, i.counter < s.nextCounter) →
        ∃ r', Mirrors t r' ∧ r.integrateOps ⟨applied, []⟩ sent =
          (r', .ok ⟨applied ++ sent.map (fun p => p.1.id), []⟩) := by
  induction h with
  | nil =>
    refine ⟨[], by simp, by simp, fun r applied hm _ => ⟨r, hm, ?_⟩⟩
    rw [integrateOps, drainDeferred_empty hm.waiting]
    simp
  | @cons s s' t op ops hc hs hrest ih =>
    obtain ⟨payload, hp, hs'⟩ := hs
    have hle := hc.counters.le
    have hnext : s'.nextCounter = (opId op).counter + 1 := by rw [hs']
    have hentries : s'.sync.ops.entries = s.sync.ops.entries ++ [(opId op, payload)] := by
      rw [hs', addLocalOp, ops_record]
      exact insertList_of_lt _ (fun e he =>
        OpId.lt_iff.mpr (.inl (lt_of_lt_of_le (hbelow e he) hle)))
    have hbelow' : ∀ e ∈ s'.sync.ops.entries, e.1.counter < s'.nextCounter := by
      intro e he
      rw [hentries] at he
      rcases mem_append.mp he with he | he
      · have := hbelow e he
        omega
      · obtain rfl := mem_singleton.mp he
        rw [hnext]
        exact Nat.lt_succ_self _
    obtain ⟨sent, hsent, hpass, hrun⟩ := ih (by rw [hs']; exact hunit) (by omega) hbelow'
    refine ⟨(⟨opId op, payload⟩, op.envelope) :: sent, ?_, ?_, fun r applied hm happlied => ?_⟩
    · rw [hsent, hentries]
      simp
    · exact forall_mem_cons.mpr ⟨hc.passes hlength hunit hpos hp, hpass⟩
    · have hfresh : opId op ∉ applied := fun hin => absurd (happlied _ hin) (not_lt.mpr hle)
      obtain ⟨r', hm', hstep⟩ := hm.step hc hs' hfresh sent
      have hnew : ∀ i ∈ applied ++ [opId op], i.counter < s'.nextCounter := by
        intro i hi
        rcases mem_append.mp hi with hi | hi
        · have := happlied i hi
          omega
        · obtain rfl := mem_singleton.mp hi
          rw [hnext]
          exact Nat.lt_succ_self _
      obtain ⟨r'', hm'', hend⟩ := hrun r' _ hm' hnew
      exact ⟨r'', hm'', by rw [hstep, hend]; simp⟩

theorem Chain.unitMode (h : Chain s ops t) : t.unitMode = s.unitMode := by
  induction h with
  | nil => rfl
  | cons hc hs _ ih =>
    obtain ⟨payload, -, rfl⟩ := hs
    exact ih

/-- Calls that do not leave unit mode make a chain. -/
theorem calls_chain {calls : List Call} (hcalls : ∀ c ∈ calls, c ≠ .setUnitMode false)
    (hunit : s.unitMode = true) : ∃ ops, Chain s ops (calls.foldl after s) := by
  induction calls generalizing s with
  | nil => exact ⟨[], .nil⟩
  | cons c calls ih =>
    obtain ⟨hc, hrest⟩ := forall_mem_cons.mp hcalls
    have hone : ∃ ops, Chain s ops (s.after c) := by
      rcases s.after_chain c with h | ⟨mode, rfl⟩
      · exact h
      · -- the session is in unit mode already
        have hmode : mode = true := by simpa using hc
        have hsame : s.after (.setUnitMode mode) = s := by
          show ({ s with unitMode := mode } : Session) = s
          rw [hmode, ← hunit]
        exact ⟨[], hsame.symm ▸ .nil⟩
    obtain ⟨ops, h⟩ := hone
    obtain ⟨ops', h'⟩ := ih (s := s.after c) hrest (h.unitMode.trans hunit)
    exact ⟨ops ++ ops', h.append h'⟩

theorem validateOps_of_passes {sent : List (Operation Payload × Envelope)}
    (h : ∀ p ∈ sent, Passes p.1 p.2) : validateOps Serde.length (sent.map Prod.fst) = .ok () := by
  induction sent with
  | nil => rfl
  | cons p sent ih =>
    obtain ⟨hp, hsent⟩ := forall_mem_cons.mp h
    rw [map_cons, validateOps, if_neg hp.nonempty, if_neg hp.counter]
    exact ih hsent

theorem Chain.deltaFloor (h : Chain s ops t) : t.sync.deltaFloor = s.sync.deltaFloor := by
  induction h with
  | nil => rfl
  | cons hc hs _ ih =>
    obtain ⟨payload, -, rfl⟩ := hs
    rw [ih]
    exact deltaFloor_record _ _

omit [Segmentation] in
/-- A log that was never pruned is sent as it is. -/
theorem encodeChangesSince_new (hfloor : t.sync.deltaFloor = .new)
    (hpos : ∀ e ∈ t.sync.ops.entries, e.1.counter ≠ 0) :
    t.encodeChangesSince .new = .ok ⟨.new, t.sync.appliedOps⟩ := by
  have hall : t.sync.ops.entries.filter (fun e => StateVector.new.seen e.1.peer < e.1.counter) =
      t.sync.ops.entries :=
    filter_eq_self.mpr (fun e he => decide_eq_true (pos_of_ne_zero (hpos e he)))
  unfold Session.encodeChangesSince SyncState.encodeChangesSince
  rw [hfloor, hall]
  rfl

/-- Replay of a single author. Whatever calls are made on a new session, its log is sent as one
    message, and a new session that takes the message within its limits applies every operation
    of it, keeps none back, and has the author's document. -/
theorem single_author_replay [LimitedSerde] (hlength : NonemptyPayloads) (author peer : PeerId)
    (calls : List Call) (hcalls : ∀ c ∈ calls, c ≠ .setUnitMode false) :
    let s := calls.foldl after (new author)
    s.encodeChangesSince .new = .ok ⟨.new, s.sync.appliedOps⟩ ∧
    ∀ limits : ValidationLimits, s.sync.appliedOps.length ≤ limits.maxOpsPerMessage →
      (s.sync.appliedOps.map (fun op => Serde.length op.payload)).sum ≤ limits.maxPayloadBytes →
      s.sync.appliedOps.length ≤ limits.maxPendingBuffer →
      ∃ r, (new peer).applyRemote ⟨.new, s.sync.appliedOps⟩ limits =
          (r, .ok ⟨s.sync.appliedOps.map Operation.id, []⟩) ∧
        r.sync.pending = .empty ∧ r.pendingEnvelopes = .empty ∧
        r.document = s.document := by
  intro s
  obtain ⟨ops, hchain⟩ := calls_chain (s := new author) hcalls rfl
  obtain ⟨sent, hsent, hpass, hrun⟩ := hchain.mirrored hlength rfl one_pos
    (by simp [new, withMode, SyncState.new, SortedMap.empty])
  obtain ⟨r, hm, hrun⟩ := hrun (new peer) [] (mirrors_new author peer) (by simp)
  have hentries : s.sync.ops.entries = sent.map (fun p => (p.1.id, p.1.payload)) := hsent
  have hlog : s.sync.appliedOps = sent.map Prod.fst := by
    rw [SyncState.appliedOps, hentries, map_map]
    rfl
  have hpos : ∀ e ∈ s.sync.ops.entries, e.1.counter ≠ 0 := by
    rw [hentries, forall_mem_map]
    exact fun p hp => (hpass p hp).counter
  refine ⟨encodeChangesSince_new hchain.deltaFloor hpos, fun limits hops hbytes hbuffer => ?_⟩
  rw [hlog] at hops hbytes hbuffer ⊢
  have hvalid : validateChanges Serde.length ⟨.new, sent.map Prod.fst⟩ limits 0 =
      .ok () := by
    rw [validateChanges, if_neg (not_lt.mpr hops)]
    simp only [if_neg (not_lt.mpr hbytes), zero_add, if_neg (not_lt.mpr hbuffer)]
    exact validateOps_of_passes hpass
  refine ⟨r, ?_, hm.sync ▸ hm.frontier.empty, hm.waiting, hm.document⟩
  have hcount : (new peer).sync.pendingCount + ((new peer).pendingEnvelopes.keys.filter
      (fun id => (new peer).sync.contains id)).length = 0 := rfl
  simp only [applyRemote]
  rw [hcount, hvalid]
  simp only [prepareOps_of_passes (r := new peer) hpass (fun _ _ => rfl), hrun, map_map]
  rfl

end Session

section
attribute [local instance] charSegmentation envelopeSerde

/-- A heading, a paragraph with text and a mark on it. -/
def shortNote : List Call :=
  [.insertBlockIn none none (.heading 1 .new), .insertParagraphIn none none "hi",
    .setMark ⟨1, 2⟩ 0 2 .bold .empty]

/-- The four operations of a short note, taken by another peer. -/
theorem shortNote_replayed :
    (shortNote.foldl after (Session.new 1)).sync.appliedOps.map Operation.id =
      [⟨1, 1⟩, ⟨2, 1⟩, ⟨4, 1⟩, ⟨5, 1⟩] ∧ ∃ r, (Session.new 2).applyRemote ⟨.new,
        (shortNote.foldl after (Session.new 1)).sync.appliedOps⟩ ValidationLimits.default =
        (r, .ok ⟨(shortNote.foldl after (Session.new 1)).sync.appliedOps.map Operation.id,
          []⟩) ∧ r.sync.pending = .empty ∧ r.pendingEnvelopes = .empty ∧
      r.document = (shortNote.foldl after (Session.new 1)).document :=
  have := envelopeSerde_lawful
  ⟨by decide +kernel,
    (single_author_replay (fun _ _ _ => one_pos) 1 2 shortNote (by simp [shortNote])).2 .default
      (by decide +kernel) (by decide +kernel) (by decide +kernel)⟩

end
end MdCrdt
