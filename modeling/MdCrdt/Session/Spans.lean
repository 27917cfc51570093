import MdCrdt.Session.Calls
import MdCrdt.Session.Extents
import MdCrdt.Sync.Gate

/- Local logs have no gaps.

  Each operation a session commits starts at its clock and moves the clock behind
  its id (`Creates.counters`). What a call appends to the log is therefore a list of
  consecutive ranges (`Consecutive`) from the clock before the call to the clock
  after it, however many commits the call consists of. A log of consecutive ranges
  from counter 1 passes the delivery gate of an empty log without waiting, and the
  order of the ids is the order in which it was written. -/
namespace MdCrdt
open Lib SortedMap
open List hiding le_trans not_lt

namespace SyncState
variable {P : Type} {peer : PeerId} {lo hi : Nat} {e : Spanned P} {l : List (Spanned P)}
  {s : SyncState P}

/-- Ranges of one peer, one after the other, from `lo` to below `hi`. -/
def Consecutive (peer : PeerId) : Nat → List (Spanned P) → Nat → Prop
  | lo, [], hi => lo = hi
  | lo, e :: rest, hi => e.1.id.peer = peer ∧ start e = lo ∧ lo ≤ e.1.id.counter ∧
    Consecutive peer (e.1.id.counter + 1) rest hi

theorem Consecutive.append (h : Consecutive peer lo l mid)
    (h' : Consecutive peer mid l' hi) : Consecutive peer lo (l ++ l') hi := by
  induction l generalizing lo with
  | nil => exact (show lo = mid from h) ▸ h'
  | cons e l ih => exact ⟨h.1, h.2.1, h.2.2.1, ih h.2.2.2⟩

theorem Consecutive.split (h : Consecutive peer lo (pre ++ e :: post) hi) :
    ∃ mid, Consecutive peer lo pre mid ∧ e.1.id.peer = peer ∧ start e = mid ∧
      mid ≤ e.1.id.counter := by
  induction pre generalizing lo with
  | nil => exact ⟨lo, rfl, h.1, h.2.1, h.2.2.1⟩
  | cons f pre ih =>
    obtain ⟨mid, hpre, he⟩ := ih h.2.2.2
    exact ⟨mid, ⟨h.1, h.2.1, h.2.2.1, hpre⟩, he⟩

section
variable (h : Consecutive peer lo l hi)
include h

theorem Consecutive.le : lo ≤ hi := by
  induction l generalizing lo with
  | nil => exact le_of_eq h
  | cons e l ih => exact le_trans (Nat.le_succ_of_le h.2.2.1) (ih h.2.2.2)

/-- Consecutive ranges cover everything between their ends. -/
theorem Consecutive.covers_iff (k) : (∃ e ∈ l, Covers e k) ↔ lo ≤ k ∧ k < hi := by
  induction l generalizing lo with
  | nil =>
    have heq : lo = hi := h
    simp only [not_mem_nil, false_and, exists_false, false_iff]
    omega
  | cons e l ih =>
    obtain ⟨-, hstart, hle, hrest⟩ := h
    have hend : e.1.id.counter + 1 ≤ hi := hrest.le
    simp only [mem_cons, exists_eq_or_imp, ih hrest]
    rw [Covers, hstart]
    omega

theorem Consecutive.peer_eq : ∀ e ∈ l, e.1.id.peer = peer := by
  induction l generalizing lo with
  | nil => simp
  | cons f l ih =>
    intro e he
    rcases mem_cons.mp he with rfl | he
    · exact h.1
    · exact ih h.2.2.2 e he

/-- Consecutive ranges do not meet. -/
theorem Consecutive.disjoint : l.Pairwise (fun e f => ∀ k, ¬(Covers e k ∧ Covers f k)) := by
  induction l generalizing lo with
  | nil => exact List.Pairwise.nil
  | cons e l ih =>
    obtain ⟨-, -, -, hrest⟩ := h
    refine pairwise_cons.mpr ⟨fun f hf k hk => ?_, ih hrest⟩
    have := (hrest.covers_iff k).mp ⟨f, hf, hk.2⟩
    have := hk.1.2
    omega

end

/-! ## Passing the gate -/

/-- An empty buffer, and a log of the peer that ends below `lo`. -/
structure Frontier (peer : PeerId) (lo : Nat) (s : SyncState P) : Prop where
  empty : s.pending = empty
  seen : s.stateVector.seen peer + 1 = lo
  below : ∀ id, s.contains id = true → id.peer = peer → id.counter < lo

theorem frontier_new (peer) : Frontier peer 1 (new : SyncState P) :=
  ⟨rfl, rfl, by simp [new, contains, SortedMap.contains]⟩

/-- The range that starts at the frontier is applied at once. -/
theorem Frontier.applyOne (h : Frontier peer lo s) (hp : e.1.id.peer = peer) (hs : start e = lo)
    (hle : lo ≤ e.1.id.counter) : s.applyOne e.1 e.2 = (s.record e.1, .applied) := by
  have hready : s.Ready e.1.id e.2 := by
    unfold Ready
    rw [hp, h.seen]
    exact le_of_eq hs
  rcases s.applyOne_cases e.1 e.2 with ⟨hc, -⟩ | ⟨-, ⟨hw, -⟩ | ⟨-, ⟨hr, -⟩ | ⟨-, ha⟩⟩⟩
  · exact absurd (h.below _ hc hp) (not_lt.mpr hle)
  · rw [h.empty] at hw
    cases hw
  · exact absurd hready hr
  · exact ha

theorem Frontier.record (h : Frontier peer lo s) (hp : e.1.id.peer = peer)
    (hle : lo ≤ e.1.id.counter) : Frontier peer (e.1.id.counter + 1) (s.record e.1) where
  empty := by rw [pending_record, h.empty]
  seen := by
    have := h.seen
    rw [seen_record, if_pos hp.symm, max_eq_right (by omega)]
  below id hc hid := by
    rcases (contains_record e.1 id).mp hc with rfl | hc
    · exact Nat.lt_succ_self _
    · exact lt_of_lt_of_le (h.below id hc hid) (Nat.le_succ_of_le hle)

theorem promoteReadyPending_empty (h : s.pending = empty) : s.promoteReadyPending = (s, []) := by
  rw [promoteReadyPending, h]
  show promoteLoop 1 s = (s, [])
  rw [promoteLoop, h]
  rfl

theorem Frontier.deliver (h : Frontier peer lo s) (hp : e.1.id.peer = peer) (hs : start e = lo)
    (hle : lo ≤ e.1.id.counter) : s.deliver e = s.record e.1 := by
  unfold SyncState.deliver
  rw [h.applyOne hp hs hle]
  show (s.record e.1).promoteReadyPending.1 = _
  rw [promoteReadyPending_empty (h.record hp hle).empty]

theorem Frontier.deliverAll (h : Frontier peer lo s) (hl : Consecutive peer lo l hi) :
    Frontier peer hi (l.foldl SyncState.deliver s) := by
  induction l generalizing lo s with
  | nil => exact (show lo = hi from hl) ▸ h
  | cons e l ih =>
    obtain ⟨hp, hs, hle, hrest⟩ := hl
    rw [foldl_cons, h.deliver hp hs hle]
    exact ih (h.record hp hle) hrest

/-- The log that appends the operations one by one. -/
def appendAll (s : SyncState P) (l : List (Spanned P)) : SyncState P :=
  l.foldl (fun s e => s.addLocalOp e.1) s

/-- Appending ranges behind all that is there appends to the log in the order of the ids. -/
theorem Consecutive.entries_appendAll (h : Consecutive peer lo l hi)
    (hs : ∀ e ∈ s.ops.entries, e.1.counter < lo) :
    (s.appendAll l).ops.entries = s.ops.entries ++ l.map (fun e => (e.1.id, e.1.payload)) := by
  induction l generalizing lo s with
  | nil => simp [appendAll]
  | cons e l ih =>
    obtain ⟨hp, hstart, hle, hrest⟩ := h
    have hone : (s.record e.1).ops.entries = s.ops.entries ++ [(e.1.id, e.1.payload)] := by
      rw [ops_record]
      refine insertList_of_lt _ (fun x hx => OpId.lt_iff.mpr (.inl ?_))
      exact lt_of_lt_of_le (hs x hx) hle
    have hnext : ∀ x ∈ (s.record e.1).ops.entries, x.1.counter < e.1.id.counter + 1 := by
      intro x hx
      rw [hone] at hx
      rcases mem_append.mp hx with hx | hx
      · have := hs x hx
        omega
      · rw [mem_singleton.mp hx]
        exact Nat.lt_succ_self _
    have hrec := ih hrest hnext
    rw [hone] at hrec
    simpa [appendAll, addLocalOp] using hrec

end SyncState

/-! ## What a session appends -/

namespace Session
open SyncState
variable [Segmentation] [Serde] {s t : Session}

/-- The entry of the log in which an operation is committed. -/
def LogsAs (op : DocOp) (e : Spanned Serde.Payload) : Prop :=
  encode op.envelope = .ok e.1.payload ∧ operationExtent op.envelope = (e.1.id, e.2)

/-- A session that has appended consecutive ranges from its clock on. -/
def Appends (s t : Session) : Prop :=
  ∃ log : List (Spanned Serde.Payload), t.sync = s.sync.appendAll log ∧ t.peer = s.peer ∧
    Consecutive s.peer s.nextCounter log t.nextCounter ∧ ∀ e ∈ log, ∃ op, LogsAs op e

theorem appends_commit (hc : s.Creates op) (hs : s.Commits op t) : Appends s t := by
  obtain ⟨payload, hp, rfl⟩ := hs
  obtain ⟨hpeer, hfirst, hle⟩ := hc.counters
  refine ⟨[(⟨opId op, payload⟩, (operationExtent op.envelope).2)], rfl, rfl,
    ⟨hpeer, hfirst, hle, rfl⟩, ?_⟩
  simp only [mem_singleton, forall_eq]
  exact ⟨op, hp, rfl⟩

theorem Appends.trans (h : Appends s t) (h' : Appends t u) : Appends s u := by
  obtain ⟨log, hsync, hpeer, hcon, hlogs⟩ := h
  obtain ⟨log', hsync', hpeer', hcon', hlogs'⟩ := h'
  refine ⟨log ++ log', ?_, hpeer'.trans hpeer, hcon.append (hpeer ▸ hcon'),
    forall_mem_append.mpr ⟨hlogs, hlogs'⟩⟩
  rw [hsync', hsync, appendAll, appendAll, appendAll, foldl_append]

theorem appends_of_same (hsync : t.sync = s.sync) (hpeer : t.peer = s.peer)
    (hclock : t.nextCounter = s.nextCounter) : Appends s t :=
  ⟨[], hsync, hpeer, hclock.symm, by simp⟩

theorem Chain.appends {ops} (h : Chain s ops t) : Appends s t := by
  induction h with
  | nil => exact appends_of_same rfl rfl rfl
  | cons hc hs _ ih => exact (appends_commit hc hs).trans ih

theorem after_appends (s c) : Appends s (s.after c) := by
  rcases s.after_chain c with ⟨ops, h⟩ | ⟨unitMode, rfl⟩
  · exact h.appends
  · exact appends_of_same rfl rfl rfl

theorem calls_append (calls : List Call) (s) : Appends s (calls.foldl after s) := by
  induction calls generalizing s with
  | nil => exact appends_of_same rfl rfl rfl
  | cons c calls ih => exact (after_appends s c).trans (ih (s.after c))

theorem LogsAs.span [LimitedSerde] (h : LogsAs op e) :
    decode e.1.payload = .ok op.envelope ∧ spanOfPayload e.1.payload = e.2 := by
  have hd := decode_encode h.1
  exact ⟨hd, by rw [spanOfPayload, hd]; exact congrArg Prod.snd h.2⟩

/-- The log of a session, with the ranges its payloads cover, as it is sent. -/
def spannedLog (s : Session) : List (Spanned Serde.Payload) :=
  s.sync.appliedOps.map (fun o => (o, spanOfPayload o.payload))

theorem spannedLog_of_appends [LimitedSerde] (peer mode)
    (h : Appends (withMode peer mode) t) : Consecutive peer 1 t.spannedLog t.nextCounter := by
  obtain ⟨log, hsync, -, hcon, hlogs⟩ := h
  have hentries : t.sync.ops.entries = log.map (fun e => (e.1.id, e.1.payload)) := by
    rw [hsync, hcon.entries_appendAll (by simp [withMode, SyncState.new, empty])]
    rfl
  have heq : t.spannedLog = log := by
    rw [spannedLog, appliedOps, hentries, map_map, map_map]
    refine (map_congr_left (fun e he => ?_)).trans (map_id log)
    obtain ⟨op, hop⟩ := hlogs e he
    exact Prod.ext rfl hop.span.2
  rw [heq]
  exact hcon

/-- Local commits have no gaps. What a call appends to the log, whether it was refused on the way
    or not, are operations of the session's peer whose ranges are disjoint and cover exactly the
    counters from the clock before the call to below the clock after it. So the log of a session
    that was only edited locally passes through the gate of an empty log without waiting. The
    clock after the calls is to be a `u64`: where it would not be, the addition of the source
    overflows. -/
theorem after_gapless [LimitedSerde] :
    (∀ (s : Session) (c : Call), (s.after c).nextCounter ≤ u64Max →
      ∃ log : List (Spanned Serde.Payload),
      (s.after c).sync = log.foldl (fun sync e => sync.addLocalOp e.1) s.sync ∧
      (∀ e ∈ log, e.1.id.peer = s.peer ∧ ∃ envelope, decode e.1.payload = .ok envelope ∧
        operationExtent64 envelope = (e.1.id, e.2)) ∧
      log.Pairwise (fun e f => ∀ k, ¬(Covers e k ∧ Covers f k)) ∧
      ∀ k, (∃ e ∈ log, Covers e k) ↔ s.nextCounter ≤ k ∧ k < (s.after c).nextCounter) ∧
    (∀ peer mode (calls : List Call) pre e post,
      (calls.foldl after (withMode peer mode)).nextCounter ≤ u64Max →
      (calls.foldl after (withMode peer mode)).spannedLog = pre ++ e :: post →
        ((deliverAll pre).applyOne e.1 e.2).2 = .applied) := by
  refine ⟨fun s c hroom => ?_, fun peer mode calls pre e post _ hlog => ?_⟩
  · obtain ⟨log, hsync, -, hcon, hlogs⟩ := after_appends s c
    refine ⟨log, hsync, fun e he => ⟨hcon.peer_eq e he, ?_⟩, hcon.disjoint, hcon.covers_iff⟩
    obtain ⟨op, hop⟩ := hlogs e he
    have hlt := ((hcon.covers_iff e.1.id.counter).mp ⟨e, he, covers_counter e⟩).2
    refine ⟨op.envelope, hop.span.1, (operationExtent64_eq ?_).trans hop.2⟩
    rw [hop.2]
    exact hlt.trans_le hroom
  · have hcon := spannedLog_of_appends peer mode (calls_append calls (withMode peer mode))
    rw [hlog] at hcon
    obtain ⟨mid, hpre, hp, hs, hle⟩ := hcon.split
    have hat : Frontier peer mid (deliverAll pre) := (frontier_new peer).deliverAll hpre
    rw [hat.applyOne hp hs hle]

end Session

section
attribute [local instance] charSegmentation envelopeSerde

/-- A list and an item in it, which make a log of two operations. -/
theorem after_gapless_list : ([Call.insertBlockIn none none (.list .default .new []),
      .insertListItem ⟨1, 1⟩ none none].foldl Session.after (Session.new 1)).spannedLog.length = 2 ∧
    ∀ pre e post, ([Call.insertBlockIn none none (.list .default .new []),
      .insertListItem ⟨1, 1⟩ none none].foldl Session.after (Session.new 1)).spannedLog =
        pre ++ e :: post → ((SyncState.deliverAll pre).applyOne e.1 e.2).2 = .applied :=
  have := envelopeSerde_lawful
  ⟨by decide +kernel, fun _ _ _ => Session.after_gapless.2 1 true _ _ _ _ (by decide +kernel)⟩

end
end MdCrdt
