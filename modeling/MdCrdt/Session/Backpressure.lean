import Mathlib.Data.Finset.Card
import MdCrdt.Session.Lifetime
import MdCrdt.Session.Overflow

/- How much a session holds back.

  An operation that cannot be applied waits in the buffer of the log or, once it is
  logged, as a deferred envelope. `validate_changes` compares the number of both with
  `max_pending_buffer`, once and in front of a message. Behind the check operations pass
  from one place to the other, one change at a time (`Shifts`). Whatever is held back on
  the way was held back before or comes with the message, and nothing comes to be held
  back in both places (`Within`). So the bound stands in every state on the way. -/
namespace MdCrdt
open Lib List SortedMap SyncState Serde

namespace Session
variable [Serde]

/-- The number of operations that wait or are deferred. -/
def heldBack (s : Session) : Nat := s.sync.pendingCount + s.deferredCount

/-- The changes that `apply_remote` makes for the operations of a message, in any order. In the
    `hand` are logged operations that have not been applied or deferred. -/
inductive Shifts [Segmentation] (ops : List (Operation Payload)) (s : Session) :
    List OpId → Session → Prop
  | start : Shifts ops s [] s
  /-- `apply_one` logs an operation, -/
  | log {hand t op n sync} (h : Shifts ops s hand t) (hop : op ∈ ops)
      (ha : t.sync.applyOne op n = (sync, .applied)) :
      Shifts ops s (op.id :: hand) { t with sync := sync }
  /-- or buffers it, and its envelope is kept. -/
  | buffer {hand t op n sync} (h : Shifts ops s hand t) (hop : op ∈ ops)
      (ha : t.sync.applyOne op n = (sync, .buffered)) : Shifts ops s hand { t with sync := sync }
  | keep {hand t id} (h : Shifts ops s hand t) (hc : t.sync.contains id = false) (env : Envelope) :
      Shifts ops s hand { t with pendingEnvelopes := t.pendingEnvelopes.insert id env }
  /-- An operation leaves the buffer, and is logged. -/
  | leave {hand t} (h : Shifts ops s hand t) (id : OpId) :
      Shifts ops s hand { t with sync := { t.sync with pending := t.sync.pending.erase id } }
  | promote {hand t id op n} (h : Shifts ops s hand t)
      (hw : t.sync.pending.get? id = some (op, n)) :
      Shifts ops s (op.id :: hand) { t with sync := t.sync.promote id op }
  /-- The envelope of a logged operation is taken out, and applied or deferred. -/
  | take {hand t id env} (h : Shifts ops s hand t) (hk : t.pendingEnvelopes.get? id = some env)
      (hc : t.sync.contains id = true) :
      Shifts ops s (id :: hand) { t with pendingEnvelopes := t.pendingEnvelopes.erase id }
  | settle {hand t id} (h : Shifts ops s hand t) (hid : id ∈ hand) (env : Envelope)
      (result : SessionApplyResult) : Shifts ops s hand (t.applyOrDefer id env result).1

/-- The states of a session while it is given a message. -/
def During [Segmentation] (s : Session) (message : ChangeMessage Payload)
    (limits : ValidationLimits) (t : Session) : Prop :=
  t = s ∨ validateChanges Serde.length message limits s.heldBack = .ok () ∧
    ∃ hand, Shifts message.ops s hand t

/-- The buffers are maps, and operations wait under their ids. -/
structure Buffers (s : Session) : Prop where
  pending : s.sync.pending.Sorted
  envelopes : s.pendingEnvelopes.Sorted
  keyed : ∀ {id op n}, s.sync.pending.get? id = some (op, n) → op.id = id

/-! ## What is held back -/

variable {s t u : Session} {ops : List (Operation Payload)} {hand hand' : List OpId} {id : OpId}

theorem Buffers.of_eq (hs : s.Buffers) (hp : t.sync.pending = s.sync.pending)
    (he : t.pendingEnvelopes = s.pendingEnvelopes) : t.Buffers :=
  ⟨hp ▸ hs.pending, he ▸ hs.envelopes, fun hw => hs.keyed (hp ▸ hw)⟩

def Waits (s : Session) (id : OpId) : Prop := ∃ w, s.sync.pending.get? id = some w

/-- Logged, and in the hand or deferred. -/
def Behind (hand : List OpId) (s : Session) (id : OpId) : Prop :=
  id ∈ hand ∨ (∃ env, s.pendingEnvelopes.get? id = some env) ∧ s.sync.contains id = true

/-- What is held back was held back before or comes with the message, and what is held back twice
    was so before. -/
structure Within (ops : List (Operation Payload)) (s : Session) (hand : List OpId)
    (t : Session) : Prop where
  buffers : t.Buffers
  logged : ∀ id ∈ hand, t.sync.contains id = true
  either : ∀ id, t.Waits id ∨ Behind hand t id →
    s.Waits id ∨ Behind [] s id ∨ id ∈ ops.map Operation.id
  both : ∀ id, t.Waits id → Behind hand t id → s.Waits id ∧ Behind [] s id

namespace Within
variable (h : Within ops s hand t)
include h

/-- One change: what comes to wait is of the message and not logged, and what comes to be logged
    is of the message or has waited, and waits no longer. -/
theorem step (hb : u.Buffers) (hl : ∀ id ∈ hand', u.sync.contains id = true)
    (hw : ∀ id, u.Waits id → t.Waits id ∨ id ∈ ops.map Operation.id ∧ ¬Behind hand' u id)
    (hd : ∀ id, Behind hand' u id → Behind hand t id ∨
      (t.Waits id ∨ id ∈ ops.map Operation.id) ∧ ¬u.Waits id) : Within ops s hand' u := by
  refine ⟨hb, hl, fun id hid => ?_, fun id hwait hbehind => ?_⟩
  · rcases hid with hid | hid
    · rcases hw id hid with hid | ⟨hm, -⟩
      · exact h.either id (.inl hid)
      · exact .inr (.inr hm)
    · rcases hd id hid with hid | ⟨hid | hm, -⟩
      · exact h.either id (.inr hid)
      · exact h.either id (.inl hid)
      · exact .inr (.inr hm)
  · have hold := (hw id hwait).resolve_right (fun hn => hn.2 hbehind)
    exact h.both id hold ((hd id hbehind).resolve_right (fun hn => hn.2 hwait))

theorem contains (hid : Behind hand t id) : t.sync.contains id = true :=
  hid.elim (h.logged id) And.right

/-- Recording an operation, which goes to the hand. -/
theorem record {pending : SortedMap OpId (Operation Payload × Nat)} (hs : pending.Sorted)
    (hp : ∀ k, pending.get? k = if k = op.id then none else t.sync.pending.get? k)
    (hop : t.Waits op.id ∨ op.id ∈ ops.map Operation.id) : Within ops s (op.id :: hand)
      { t with sync := record { t.sync with pending := pending } op } := by
  refine h.step ⟨?_, h.buffers.envelopes, fun hw => h.buffers.keyed (pending_of_record hp hw).2⟩
    (fun id hid => ?_) (fun id hw => ?_) (fun id hid => ?_)
  · rw [pending_record]
    exact hs
  · exact (contains_record op id).mpr ((mem_cons.mp hid).imp_right (h.logged id))
  · obtain ⟨w, hw⟩ := hw
    exact .inl ⟨w, (pending_of_record hp hw).2⟩
  · have hnot : ¬Waits { t with sync := SyncState.record { t.sync with pending := pending } op } op.id :=
      fun ⟨_, hw⟩ => (pending_of_record hp hw).1 rfl
    rcases hid with hid | ⟨hk, hc⟩
    · rcases mem_cons.mp hid with rfl | hid
      · exact .inr ⟨hop, hnot⟩
      · exact .inl (.inl hid)
    · rcases (contains_record op id).mp hc with rfl | hc
      · exact .inr ⟨hop, hnot⟩
      · exact .inl (.inr ⟨hk, hc⟩)

/-- The envelopes are changed for ids in the hand, or not in the log. -/
theorem withEnvelopes {envelopes : SortedMap OpId Envelope} (he : envelopes.Sorted)
    (hl : ∀ id ∈ hand', t.sync.contains id = true)
    (hk : ∀ id, id ∈ hand' ∨ (∃ env, envelopes.get? id = some env) ∧ t.sync.contains id = true →
      Behind hand t id) : Within ops s hand' { t with pendingEnvelopes := envelopes } :=
  h.step ⟨h.buffers.pending, he, h.buffers.keyed⟩ hl (fun _ hw => .inl hw)
    (fun id hid => .inl (hk id hid))

end Within

/-- No more is held back than before and than the message brings. -/
theorem Within.heldBack_le (hs : s.Buffers) (h : Within ops s hand t) :
    t.heldBack ≤ s.heldBack + ops.length := by
  let P (u : Session) : Finset OpId := u.sync.pending.keys.toFinset
  let D (u : Session) : Finset OpId :=
    (u.pendingEnvelopes.keys.filter (fun id => u.sync.contains id)).toFinset
  have hcard : ∀ u, u.Buffers → u.heldBack = (P u).card + (D u).card := by
    intro u hu
    rw [toFinset_card_of_nodup (nodup_keys hu.pending),
      toFinset_card_of_nodup ((nodup_keys hu.envelopes).filter _)]
    simp [heldBack, deferredCount, pendingCount, SortedMap.keys, size]
  have hP : ∀ {u : Session} {id}, id ∈ P u ↔ u.Waits id := by
    simp [P, Waits, ← contains_iff_mem_keys, contains_iff_get?]
  have hD : ∀ {u : Session} {id}, id ∈ D u ↔ Behind [] u id := by
    simp [D, Behind, ← contains_iff_mem_keys, contains_iff_get?]
  have hunion : P t ∪ D t ⊆ (P s ∪ D s) ∪ (ops.map Operation.id).toFinset := by
    intro id hid
    simp only [Finset.mem_union, hP, hD, mem_toFinset, or_assoc] at hid ⊢
    exact h.either id (hid.imp_right (Or.imp_left (by simp)))
  have hinter : P t ∩ D t ⊆ P s ∩ D s := by
    intro id hid
    simp only [Finset.mem_inter, hP, hD] at hid ⊢
    exact h.both id hid.1 (hid.2.imp_left (by simp))
  have hops := toFinset_card_le (ops.map Operation.id)
  rw [length_map] at hops
  have h1 := (Finset.card_le_card hunion).trans (Finset.card_union_le _ _)
  have h2 := Finset.card_le_card hinter
  have h3 := Finset.card_union_add_card_inter (P t) (D t)
  have h4 := Finset.card_union_add_card_inter (P s) (D s)
  rw [hcard t h.buffers, hcard s hs]
  omega

/-! ## Calls -/

variable [Segmentation]

theorem Shifts.within (hs : s.Buffers) (h : Shifts ops s hand t) : Within ops s hand t := by
  induction h with
  | start => exact ⟨hs, by simp, fun _ hid => hid.imp_right .inl, fun _ hw hd => ⟨hw, hd⟩⟩
  | @log hand t op n sync _ hop ha ih =>
    obtain ⟨rfl, -, hp, -⟩ := applyOne_applied ha
    exact ih.record ih.buffers.pending (fun k => by split <;> simp_all)
      (.inr (mem_map_of_mem hop))
  | @buffer hand t op n sync _ hop ha ih =>
    have hb := buffered ha
    have hbehind : ∀ {id}, Behind hand { t with sync := sync } id → Behind hand t id :=
      fun hid => hid.imp_right (fun hk => ⟨hk.1, (hb.contains _).symm.trans hk.2⟩)
    refine ih.step ⟨hb.sorted ih.buffers.pending, ih.buffers.envelopes, fun hw => ?_⟩
      (fun id hid => (hb.contains id).trans (ih.logged id hid)) (fun id hw => ?_)
      (fun id hid => .inl (hbehind hid))
    · rcases hb.pending hw with hw | ⟨rfl, rfl⟩
      · exact ih.buffers.keyed hw
      · rfl
    · obtain ⟨w, hw⟩ := hw
      rcases hb.pending hw with hw | ⟨rfl, -⟩
      · exact .inl ⟨w, hw⟩
      · refine .inr ⟨mem_map_of_mem hop, fun hid => ?_⟩
        exact Bool.false_ne_true (hb.absent.symm.trans (ih.contains (hbehind hid)))
  | @keep hand t id _ hc env ih =>
    refine ih.withEnvelopes (sorted_insert ih.buffers.envelopes id env) ih.logged (fun k hk => ?_)
    refine hk.imp_right (fun hk => ?_)
    obtain ⟨⟨env', hk⟩, hin⟩ := hk
    rcases get?_insert_eq_some.mp hk with ⟨rfl, -⟩ | ⟨-, hk⟩
    · exact absurd hin (by simp [hc])
    · exact ⟨⟨env', hk⟩, hin⟩
  | @leave hand t _ id ih =>
    have hold : ∀ {k w}, (t.sync.pending.erase id).get? k = some w → t.sync.pending.get? k = some w :=
      fun hw => (get?_erase_eq_some.mp hw).2
    exact ih.step ⟨sorted_erase ih.buffers.pending id, ih.buffers.envelopes,
      fun hw => ih.buffers.keyed (hold hw)⟩ ih.logged (fun _ hw => .inl (hw.imp (fun _ => hold)))
      (fun _ hid => .inl hid)
  | @promote hand t id op n _ hw ih =>
    obtain rfl := ih.buffers.keyed hw
    exact ih.record (sorted_erase ih.buffers.pending op.id) (fun k => get?_erase _ _ _) (.inl ⟨_, hw⟩)
  | @take hand t id env _ hk hc ih =>
    refine ih.withEnvelopes (sorted_erase ih.buffers.envelopes id)
      (forall_mem_cons.mpr ⟨hc, ih.logged⟩) (fun k hk' => ?_)
    rcases hk' with hm | ⟨⟨env', hk'⟩, hin⟩
    · rcases mem_cons.mp hm with rfl | hm
      · exact .inr ⟨⟨env, hk⟩, hc⟩
      · exact .inl hm
    · exact .inr ⟨⟨env', (get?_erase_eq_some.mp hk').2⟩, hin⟩
  | @settle hand t id _ hid env result ih =>
    unfold applyOrDefer
    split
    · refine ih.withEnvelopes (sorted_insert ih.buffers.envelopes id env) ih.logged (fun k hk => ?_)
      rcases hk with hm | ⟨⟨env', hk⟩, hin⟩
      · exact .inl hm
      · rcases get?_insert_eq_some.mp hk with ⟨rfl, -⟩ | ⟨-, hk⟩
        · exact .inl hid
        · exact .inr ⟨⟨env', hk⟩, hin⟩
    · exact ⟨⟨ih.buffers.pending, ih.buffers.envelopes, ih.buffers.keyed⟩, ih.logged, ih.either, ih.both⟩

/-- Taking in a message is a sequence of these changes. -/
theorem integration_shifts (hs : s.Buffers) : Integration (fun o => o ∈ ops)
    (fun todo t _ => ∃ hand, Shifts ops s hand t ∧ ∀ o ∈ todo, o.id ∈ hand) where
  log h hop _ ha := by
    obtain ⟨hand, h, -⟩ := h
    exact ⟨_, (h.log hop ha).settle mem_cons_self _ _, by simp⟩
  wait {t _ op env sync} h hop _ ha := by
    obtain ⟨hand, h, -⟩ := h
    have hb := buffered ha
    exact ⟨hand, (h.buffer hop ha).keep ((hb.contains op.id).trans hb.absent) env, by simp⟩
  promote h hw _ := by
    obtain ⟨hand, h, htodo⟩ := h
    exact ⟨_, h.promote hw,
      forall_mem_push (fun o ho => mem_cons_of_mem _ (htodo o ho)) mem_cons_self⟩
  settle h hf := by
    obtain ⟨hand, h, htodo⟩ := h
    obtain ⟨hid, hrest⟩ := forall_mem_cons.mp htodo
    cases hf with
    | kept hk =>
      have htake := h.take hk ((h.within hs).logged _ hid)
      exact ⟨_, htake.settle mem_cons_self _ _, fun o ho => mem_cons_of_mem _ (hrest o ho)⟩
    | decoded _ _ => exact ⟨hand, h.settle hid _ _, hrest⟩
  release h hk hc := by
    obtain ⟨hand, h, -⟩ := h
    exact ⟨_, (h.take hk hc).settle mem_cons_self _ _, by simp⟩

section
variable {message : ChangeMessage Payload} {limits : ValidationLimits}

/-- The outcome of a call is the last of its states. -/
theorem during_applyRemote (hs : s.Buffers) (hd : PendingDecodes s.sync) :
    s.During message limits (s.applyRemote message limits).1 := by
  cases hv : validateChanges Serde.length message limits s.heldBack with
  | error e =>
    have hrefused : s.applyRemote message limits = (s, .error (.validation e)) := by
      simp only [heldBack, deferredCount] at hv
      simp only [Session.applyRemote, hv]
    exact .inl (by rw [hrefused])
  | ok u =>
    rcases (integration_shifts hs).applyRemote (fun _ ho => ho) limits hd
      ⟨[], .start, by simp⟩ with ⟨error, heq⟩ | ⟨t, result, heq, ⟨hand, h, -⟩, -⟩
    · exact .inl (by rw [heq])
    · exact .inr ⟨hv, hand, by rwa [heq]⟩

theorem During.heldBack_le (hs : s.Buffers) (hb : s.heldBack ≤ limits.maxPendingBuffer)
    (h : s.During message limits t) : t.heldBack ≤ limits.maxPendingBuffer := by
  rcases h with rfl | ⟨hv, hand, h⟩
  · exact hb
  · refine ((h.within hs).heldBack_le hs).trans (not_lt.mp (fun hfull => ?_))
    simp only [validateChanges, if_pos hfull] at hv
    repeat' split at hv
    all_goals cases hv

end

omit [Segmentation] in
theorem sorted_decodeDeferred {m m' : SortedMap OpId Envelope} (hm : m.Sorted)
    (h : decodeDeferred m ops = .ok m') : m'.Sorted := by
  induction ops generalizing m with
  | nil => exact Except.ok.inj h ▸ hm
  | cons op ops ih =>
    rw [decodeDeferred] at h
    split at h
    · cases h
    · exact ih (sorted_insert hm _ _) h

theorem Chain.buffers {ops} (h : s.Chain ops t) (hs : s.Buffers) : t.Buffers := by
  induction h with
  | nil => exact hs
  | cons _ hc _ ih =>
    obtain ⟨payload, -, rfl⟩ := hc
    exact ih (hs.of_eq (pending_record _ _) rfl)

theorem Reachable.buffers (h : Reachable s) : s.Buffers := by
  induction h with
  | start peer unitMode => exact ⟨sorted_empty, sorted_empty, fun hw => by cases hw⟩
  | @call s c _ ih =>
    rcases s.after_chain c with ⟨ops, h⟩ | ⟨unitMode, rfl⟩
    · exact h.buffers ih
    · exact ih.of_eq rfl rfl
  | @applyRemote s message limits h ih =>
    rcases during_applyRemote ih h.pendingDecodes with heq | ⟨-, hand, h⟩
    · rwa [heq]
    · exact (h.within ih).buffers
  | checkpointHistory request _ ih => exact ih.of_eq (pending_checkpoint _ request) rfl
  | restore _ hsave hrestore _ =>
    obtain ⟨deferred, -, rfl⟩ := saveSnapshot_ok hsave
    obtain ⟨envelopes, hd, rfl⟩ := restoreFromSnapshot_ok hrestore
    refine ⟨sorted_restorePending _ ?_, sorted_decodeDeferred sorted_empty hd, fun hw => ?_⟩
    · rw [pending_restoreApplied]
      exact sorted_empty
    · obtain ⟨w, -, hid, hop⟩ := mem_restoreSync (get?_mem hw)
      exact (congrArg Operation.id hop).trans hid.symm

/-- **Bounded buffering.** Under fixed limits, a session that holds back no more than the limit
    does so in every state of every later call: the call passes through states that are within
    the bound, and its outcome is one of them. -/
theorem buffering_bounded {s : Session} (h : Reachable s) (limits : ValidationLimits)
    (hb : s.heldBack ≤ limits.maxPendingBuffer) (messages : List (ChangeMessage Payload))
    (message : ChangeMessage Payload) :
    let t := messages.foldl (fun s message => (s.applyRemote message limits).1) s
    t.During message limits (t.applyRemote message limits).1 ∧
      ∀ u, t.During message limits u → u.heldBack ≤ limits.maxPendingBuffer := by
  induction messages generalizing s with
  | nil =>
    exact ⟨during_applyRemote h.buffers h.pendingDecodes, fun u hu => hu.heldBack_le h.buffers hb⟩
  | cons m messages ih =>
    refine ih (h.applyRemote m limits) ?_
    exact (during_applyRemote h.buffers h.pendingDecodes).heldBack_le h.buffers hb

end Session

section Examples
attribute [local instance] charSegmentation envelopeSerde

/-- The second operation of peer 1. -/
def secondWrite : Operation Envelope :=
  ⟨⟨2, 1⟩, (DocOp.setFrontmatterField ⟨2, 1⟩ "a" none).envelope⟩

/-- With room for one operation it waits, and no message makes it two. -/
theorem one_waits : let limits : ValidationLimits := ⟨10, 10, 1⟩
    let t := ((Session.new 2).applyRemote ⟨.new, [secondWrite]⟩ limits).1
    t.heldBack = 1 ∧ ∀ message u, t.During message limits u → u.heldBack ≤ 1 := by
  exact ⟨by decide +kernel, fun message => (Session.buffering_bounded (.start 2 true) _
    (by decide +kernel) [⟨.new, [secondWrite]⟩] message).2⟩

end Examples
end MdCrdt
