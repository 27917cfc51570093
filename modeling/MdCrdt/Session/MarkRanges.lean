import MdCrdt.Core.SequenceStable
import MdCrdt.Doc.MarkSpans
import MdCrdt.Session.Wire

/- Marks when text or a range of the mark is taken away.

  A deleted unit leaves the order that anchors are resolved in, and an anchor without its
  unit resolves as if it stood at the first one. So a mark stays on its units only where
  that makes no difference (`deleted_marks_exact_iff`).

  `remove_mark` over a range drops the interval and sets what is left of it on both sides
  again. Only the left end of the interval is compared with the left end of the range, and
  right with right, so a range away from the interval makes it longer. The ids of what is
  left are two counters behind that of the remove, which lie below the last 64-bit one. -/
namespace MdCrdt
open Lib SortedMap Sequence
open List hiding le_trans le_total

namespace MarkSet
variable {order targets : List OpId} {a : Anchor} {interval : MarkInterval}

/-! ## Positions of anchors -/

/-- In an order without repetitions the last place of an id is its first. -/
theorem lastIdx_eq (hn : order.Nodup) (id) :
    ((order.zipIdx.reverse.find? (fun p => p.1 = id)).map Prod.snd).getD 0 =
      if id ∈ order then order.idxOf id else 0 := by
  cases hf : order.zipIdx.reverse.find? (fun p => p.1 = id) with
  | none =>
    have hnot : id ∉ order := by
      intro hid
      obtain ⟨i, hi, rfl⟩ := getElem_of_mem hid
      have hmem : (order[i], i) ∈ order.zipIdx := mem_zipIdx_iff_getElem?.mpr (by simp)
      simpa using find?_eq_none.mp hf _ (mem_reverse.mpr hmem)
    rw [if_neg hnot]
    rfl
  | some p =>
    have hp := mem_zipIdx_iff_getElem?.mp (mem_reverse.mp (mem_of_find?_eq_some hf))
    obtain ⟨hi, hget⟩ := List.getElem?_eq_some_iff.mp hp
    obtain rfl : p.1 = id := by simpa using find?_some hf
    rw [if_pos (hget ▸ getElem_mem hi), ← hget, hn.idxOf_getElem]
    rfl

theorem resolveAnchor_before (hn : order.Nodup) (hb : a.bias = .before) :
    resolveAnchor a order = if a.elemId ∈ order then order.idxOf a.elemId else 0 := by
  simp only [resolveAnchor, resolveAnchorIn, lastIdx_eq hn, hb]

theorem resolveAnchor_after (hn : order.Nodup) (hb : a.bias = .after) : resolveAnchor a order =
    if a.elemId ∈ order then order.idxOf a.elemId + 1 else min 1 order.length := by
  simp only [resolveAnchor, resolveAnchorIn, lastIdx_eq hn, hb]
  split
  · next h => exact min_eq_left (Nat.succ_le_of_lt (idxOf_lt_length_of_mem h))
  · rfl

/-! ## Deleted units -/

/-- The units that are left. -/
def remaining (order targets : List OpId) : List OpId := order.filter (· ∉ targets)

theorem mem_remaining {id} : id ∈ remaining order targets ↔ id ∈ order ∧ id ∉ targets := by
  simp [remaining]

theorem nodup_remaining (hn : order.Nodup) : (remaining order targets).Nodup := hn.filter _

/-- How many units are left in front of the position of an anchor. -/
def front (order targets : List OpId) (anchor : Anchor) : Nat :=
  (remaining (order.take (resolveAnchor anchor order)) targets).length

/-- The unit carries the mark of the interval. -/
def Carries (m : MarkSet) (order : List OpId) (unit : OpId) (interval : MarkInterval) : Prop :=
  ∃ r ∈ m.resolvedIntervals order, r.1 = interval ∧
    r.2.1 ≤ order.idxOf unit ∧ order.idxOf unit < r.2.2

theorem carries_iff {m : MarkSet} : m.Carries order unit interval ↔
      interval ∈ m.activeIntervals ∧ Over interval order (order.idxOf unit) := by
  simp only [Carries, resolvedIntervals, mem_map, exists_exists_and_eq_and, Over]
  exact ⟨fun h => by obtain ⟨_, h, rfl, hr⟩ := h; exact ⟨h, hr⟩, fun h => ⟨interval, h.1, rfl, h.2⟩⟩

theorem idxOf_remaining (order) {id} (hid : id ∉ targets) : (remaining order targets).idxOf id =
      (remaining (order.take (order.idxOf id)) targets).length := by
  unfold remaining
  induction order with
  | nil => rfl
  | cons b order ih =>
    by_cases hb : b = id
    · simp [hb, hid]
    · by_cases hk : b ∈ targets
      · simpa [idxOf_cons_ne order hb, hk] using ih
      · simpa [idxOf_cons_ne order hb, idxOf_cons_ne _ hb, hk] using ih

theorem remaining_mono :
    Monotone (fun k => (remaining (order.take k) targets).length) := fun _ _ h =>
  ((take_sublist_take_left h).filter _).length_le

theorem front_le : front order targets a ≤ (remaining order targets).length :=
  ((take_sublist _ order).filter _).length_le

/-- The range of an interval, counted in units that are left. -/
theorem over_iff (hu : unit ∈ remaining order targets) : Over interval order (order.idxOf unit) ↔
      min (front order targets interval.start) (front order targets interval.stop) ≤
        (remaining order targets).idxOf unit ∧ (remaining order targets).idxOf unit <
      max (front order targets interval.start) (front order targets interval.stop) := by
  obtain ⟨hmem, hk⟩ := mem_remaining.mp hu
  -- a unit that is left counts as one
  have hlt : ∀ {k}, order.idxOf unit < k ↔
      (remaining (order.take (order.idxOf unit)) targets).length <
        (remaining (order.take k) targets).length := by
    intro k
    refine ⟨fun h => lt_of_lt_of_le ?_ (remaining_mono (Nat.succ_le_of_lt h)),
      fun h => lt_of_not_ge (fun hge => absurd (remaining_mono hge) (not_le.mpr h))⟩
    have hget : order[order.idxOf unit]? = some unit := by
      simp [getElem?_eq_getElem (idxOf_lt_length_of_mem hmem)]
    simp [remaining, take_add_one, hget, hk]
  rw [idxOf_remaining order hk]
  simp only [Over, front, min_le_iff, lt_max_iff]
  simp only [← not_lt, hlt]

/-- A range keeps the positions below `n` if its first end may be lost to the front and its last
    one to the first position: the ends stay, or change places. -/
theorem same_positions_iff {p q : Prop} [Decidable p] [Decidable q] (hA : A ≤ n)
    (hB : B ≤ n) (hS : S = if p then 0 else A) (hE : E = if q then B else min 1 n) :
    (∀ j < n, (min S E ≤ j ∧ j < max S E ↔ min A B ≤ j ∧ j < max A B)) ↔
      (p → A = 0) ∧ (q ∨ B = min 1 n) ∨ p ∧ ¬q ∧ A = min 1 n ∧ B = 0 := by
  have hranges : (∀ j < n, (min S E ≤ j ∧ j < max S E ↔ min A B ≤ j ∧ j < max A B)) ↔
      A = S ∧ B = E ∨ A = E ∧ B = S ∨ A = B ∧ S = E := by
    have hSn : S ≤ n := by split at hS <;> omega
    have hEn : E ≤ n := by split at hE <;> omega
    constructor
    · intro h
      have hlow := h (min A B)
      have hhigh := h (max A B - 1)
      have hlow' := h (min S E)
      have hhigh' := h (max S E - 1)
      omega
    · intro h j hj
      omega
  rw [hranges]
  by_cases hp : p <;> by_cases hq : q <;> simp only [hp, hq, if_true, if_false] at hS hE ⊢ <;> grind

/-- What an interval needs to keep its mark where it is: its first unit stays unless no unit in
    front of it does, and its last one unless one unit stays up to the end. -/
def HoldsFast (order targets : List OpId) (interval : MarkInterval) : Prop :=
  let first := min 1 (remaining order targets).length
  let lost := interval.start.elemId ∈ order ∧ interval.start.elemId ∈ targets
  let stopped := interval.stop.elemId ∈ remaining order targets
  (lost → front order targets interval.start = 0) ∧
      (stopped ∨ front order targets interval.stop = first) ∨
    lost ∧ ¬stopped ∧ front order targets interval.start = first ∧
      front order targets interval.stop = 0

section Deleted
variable (hn : order.Nodup)
include hn

/-- Where the first unit of a range resolves to among the units that are left. -/
theorem start_left (hb : a.bias = .before) : resolveAnchor a (remaining order targets) =
    if a.elemId ∈ order ∧ a.elemId ∈ targets then 0 else front order targets a := by
  simp only [front, resolveAnchor_before (nodup_remaining hn) hb, resolveAnchor_before hn hb,
    mem_remaining]
  by_cases ho : a.elemId ∈ order
  · by_cases ht : a.elemId ∈ targets
    · simp [ho, ht]
    · simpa [ho, ht] using idxOf_remaining order ht
  · simp [ho, remaining]

theorem stop_left (hb : a.bias = .after) : resolveAnchor a (remaining order targets) =
    if a.elemId ∈ remaining order targets then front order targets a
    else min 1 (remaining order targets).length := by
  rw [resolveAnchor_after (nodup_remaining hn) hb]
  split
  · next h =>
    obtain ⟨ho, ht⟩ := mem_remaining.mp h
    rw [front, resolveAnchor_after hn hb, if_pos ho, idxOf_remaining order ht]
    simp [remaining, take_add_one, getElem?_eq_getElem (idxOf_lt_length_of_mem ho), ht]
  · rfl

theorem holdsFast_iff {m : MarkSet} (hm : interval ∈ m.activeIntervals)
    (hstart : interval.start.bias = .before) (hstop : interval.stop.bias = .after) :
    (∀ unit ∈ remaining order targets, (m.Carries (remaining order targets) unit interval ↔
      m.Carries order unit interval)) ↔ HoldsFast order targets interval := by
  have hn' : (remaining order targets).Nodup := nodup_remaining hn
  -- every position among the units that are left is that of a unit
  have hall : (∀ unit ∈ remaining order targets,
      (m.Carries (remaining order targets) unit interval ↔ m.Carries order unit interval)) ↔
      ∀ j < (remaining order targets).length, (Over interval (remaining order targets) j ↔
        min (front order targets interval.start) (front order targets interval.stop) ≤ j ∧
        j < max (front order targets interval.start) (front order targets interval.stop)) := by
    simp only [carries_iff, hm, true_and]
    constructor
    · intro h j hj
      have hu := h _ (getElem_mem hj)
      rwa [over_iff (getElem_mem hj), hn'.idxOf_getElem] at hu
    · intro h unit hu
      rw [over_iff hu]
      exact h _ (idxOf_lt_length_of_mem hu)
  rw [hall]
  exact same_positions_iff front_le front_le (start_left hn hstart) (stop_left hn hstop)

end Deleted
end MarkSet

section Deletes
variable {targets : List OpId} {body : Sequence TextUnit}

/-- A delete buries the unit that it names, if there is one. -/
theorem elements_delete (hi : body.Indexed) (target id) :
    (body.apply (.delete target id)).elements = updateAt target bury body.elements ∧
    (body.apply (.delete target id)).index = body.index := by
  by_cases ht : target ∈ body.elementIds
  · rw [apply_delete_known hi ht]
    exact ⟨rfl, rfl⟩
  · simp only [Sequence.apply, applyNow, applyDelete_unknown hi ht]
    exact ⟨(updateAt_of_notMem ht _).symm, rfl⟩

theorem paragraphVisibleIds_delete (hi : body.Indexed) (target id) :
    paragraphVisibleIds (body.apply (.delete target id)) =
      (paragraphVisibleIds body).filter (· ≠ target) := by
  simp only [paragraphVisibleIds, (elements_delete hi target id).1, updateAt]
  generalize body.elements = l
  induction l with
  | nil => rfl
  | cons e l ih =>
    by_cases he : e.id = target
    · cases hv : e.value <;> simpa [he, hv, bury] using ih
    · cases hv : e.value <;> simpa [he, hv] using ih

/-- Deletes leave the visible units that they do not name. -/
theorem paragraphVisibleIds_deletes (hi : body.Indexed) (id) :
    paragraphVisibleIds (body.applyAll (targets.map (fun target => .delete target id))) =
      MarkSet.remaining (paragraphVisibleIds body) targets := by
  induction targets generalizing body with
  | nil => simp [applyAll, MarkSet.remaining]
  | cons target targets ih =>
    obtain ⟨hel, hindex⟩ := elements_delete hi target id
    have hi' := hi.of_updateAt keepsPlace_bury hel hindex
    rw [map_cons, applyAll, foldl_cons, ← applyAll, ih hi',
      paragraphVisibleIds_delete hi, MarkSet.remaining, MarkSet.remaining, filter_filter]
    congr 1
    funext x
    simp [Bool.and_comm]

theorem nodup_paragraphVisibleIds (hr : body.Reached) : (paragraphVisibleIds body).Nodup :=
  (filter_sublist.map _).nodup hr.ordered.grounded.distinct

/-- After units of a text block are deleted, the units that are left carry the marks they
    carried before exactly if every active interval holds fast. -/
theorem deleted_marks_exact_iff {block : Block} (hbody : blockTextSeq block.kind = some body)
    (hr : body.Reached) (hset : ∀ interval ∈ block.marks.activeIntervals,
      interval.start.bias = .before ∧ interval.stop.bias = .after) (targets : List OpId)
    (id : OpId) :
    ∃ body', blockTextSeq (block.modifyText (targets.map (.delete · id))).kind = some body' ∧
      ((∀ unit ∈ paragraphVisibleIds body', ∀ interval,
        (block.modifyText (targets.map (.delete · id))).marks.Carries
            (paragraphVisibleIds body') unit interval ↔
          block.marks.Carries (paragraphVisibleIds body) unit interval) ↔
      ∀ interval ∈ block.marks.activeIntervals,
        MarkSet.HoldsFast (paragraphVisibleIds body) targets interval) := by
  have hn := nodup_paragraphVisibleIds hr
  refine ⟨body.applyAll (targets.map (.delete · id)), ?_, ?_⟩
  · unfold Block.modifyText
    cases hk : block.kind <;> simp_all [blockTextSeq, BlockKind.modifyText]
  rw [paragraphVisibleIds_deletes hr.ordered.toIndexed]
  constructor
  · intro h interval hm
    exact (MarkSet.holdsFast_iff hn hm (hset _ hm).1 (hset _ hm).2).mp (fun u hu => h u hu interval)
  · intro h unit hu interval
    by_cases hm : interval ∈ block.marks.activeIntervals
    · exact (MarkSet.holdsFast_iff hn hm (hset _ hm).1 (hset _ hm).2).mpr (h interval hm) unit hu
    · -- only active intervals are carried
      simp [MarkSet.carries_iff, Block.modifyText, hm]

def boldInterval : MarkInterval :=
  ⟨⟨4, 1⟩, .bold, ⟨⟨1, 1⟩, .before⟩, ⟨⟨1, 1⟩, .after⟩, .empty, ⟨4, 1⟩⟩

/-- "abc" with `a` in bold. -/
def boldInitial : Block :=
  { Block.new (.paragraph (fromOrdered
      [(⟨1, 1⟩, ⟨"a"⟩), (⟨2, 1⟩, ⟨"b"⟩), (⟨3, 1⟩, ⟨"c"⟩)])) ⟨9, 1⟩ with
    marks := MarkSet.new.setMark ⟨4, 1⟩ .bold ⟨⟨1, 1⟩, .before⟩ ⟨⟨1, 1⟩, .after⟩ .empty
      ⟨4, 1⟩ }

def wholeInterval : MarkInterval :=
  ⟨⟨4, 1⟩, .bold, ⟨⟨1, 1⟩, .before⟩, ⟨⟨3, 1⟩, .after⟩, .empty, ⟨4, 1⟩⟩

/-- "abc" in bold. -/
def boldWord : Block :=
  { boldInitial with
    marks := MarkSet.new.setMark ⟨4, 1⟩ .bold ⟨⟨1, 1⟩, .before⟩ ⟨⟨3, 1⟩, .after⟩ .empty ⟨4, 1⟩ }

/-- Without `a`, where the mark starts, it stays on `b` and `c`. -/
theorem deleted_marks_exact_start : ∃ body',
    blockTextSeq (boldWord.modifyText [.delete ⟨1, 1⟩ ⟨5, 1⟩]).kind = some body' ∧
    ∀ unit ∈ paragraphVisibleIds body', ∀ interval,
      (boldWord.modifyText [.delete ⟨1, 1⟩ ⟨5, 1⟩]).marks.Carries (paragraphVisibleIds body')
          unit interval ↔ boldWord.marks.Carries [⟨1, 1⟩, ⟨2, 1⟩, ⟨3, 1⟩] unit interval := by
  obtain ⟨body', hbody', h⟩ := deleted_marks_exact_iff
    (rfl : blockTextSeq boldWord.kind = some _) (.fromOrdered (by decide)) (by decide)
    [⟨1, 1⟩] ⟨5, 1⟩
  exact ⟨body', hbody', h.mpr (by unfold MarkSet.HoldsFast; decide)⟩

/-- A mark on `a` alone is on `b` without `a`. -/
theorem deleted_marks_move : ∃ body',
    blockTextSeq (boldInitial.modifyText [.delete ⟨1, 1⟩ ⟨5, 1⟩]).kind = some body' ∧
    ∃ unit ∈ paragraphVisibleIds body', ∃ interval,
      (boldInitial.modifyText [.delete ⟨1, 1⟩ ⟨5, 1⟩]).marks.Carries (paragraphVisibleIds body')
          unit interval ∧ ¬boldInitial.marks.Carries [⟨1, 1⟩, ⟨2, 1⟩, ⟨3, 1⟩] unit interval := by
  refine ⟨_, rfl, ⟨2, 1⟩, by decide, boldInterval, ?_⟩
  simp only [MarkSet.carries_iff, MarkSet.Over]
  decide

end Deletes

/-! ## A mark removed over a range -/

/-- The errors of the methods of `Document`. -/
inductive EditError where
  | blockNotFound | invalidOffset | invalidGraphemeBoundary
  deriving DecidableEq, Repr

/-- What `remove_mark` did to the mark set of a block, for the other replicas. -/
inductive EditOp where
  | setMark (blockId : BlockId) (intervalId : OpId) (kind : MarkKind) (start stop : Anchor)
      (attrs : SortedMap String MarkValue) (opId : OpId)
  | removeMark (blockId : BlockId) (intervalId : OpId) (observed : StateVector) (opId : OpId)

namespace MarkSet

/-- `resolve_anchor` of `mark_ops.rs`, which takes the first of several equal ids. -/
def positionOf (anchor : Anchor) (order : List OpId) : Nat :=
  let idx := (order.idxOf? anchor.elemId).getD 0
  if anchor.bias = .before then idx else min (idx + 1) order.length

/-- What is left of an interval, under an id of its own. -/
def remnant (interval : MarkInterval) (id : OpId) (start stop : Anchor) : MarkInterval :=
  ⟨id, interval.kind, start, stop, interval.attrs.mapVal (fun reg => ⟨reg.value, id⟩), id⟩

def lowerRemoveMarkRange (m : MarkSet) (intervalId : OpId) (removeStart removeEnd : Anchor)
    (nextId : OpId) (order : List OpId) : List MarkInterval × List OpId :=
  if m.isActive intervalId then
    ((m.activeIntervals.find? (fun interval => interval.id = intervalId)).toList.flatMap
      (fun interval =>
        (if positionOf interval.start order < positionOf removeStart order then
          [remnant interval nextId interval.start removeStart] else []) ++
        (if positionOf removeEnd order < positionOf interval.stop order then
          [remnant interval ⟨nextId.counter + 1, nextId.peer⟩ removeEnd interval.stop] else [])),
      [intervalId])
  else ([], [])

def setInterval (m : MarkSet) (interval : MarkInterval) : MarkSet :=
  m.setMark interval.id interval.kind interval.start interval.stop
    (interval.attrs.mapVal LwwRegister.value) interval.opId

/-- The interval with this id is active over the position. -/
def Covers (m : MarkSet) (order : List OpId) (id : OpId) (i : Nat) : Prop :=
  ∃ r ∈ m.resolvedIntervals order, r.1.id = id ∧ r.2.1 ≤ i ∧ i < r.2.2

/-- Intervals stand under their ids. -/
structure Keyed (m : MarkSet) : Prop where
  sorted : m.intervals.Sorted
  id_eq : ∀ {i interval}, m.intervals.get? i = some interval → interval.id = i

/-- Nothing has been said about the id. -/
def Unused (m : MarkSet) (id : OpId) : Prop := m.intervals.get? id = none ∧ m.removes.get? id = none

section
variable {m : MarkSet} {interval : MarkInterval} {id j : OpId} {i : Nat}

theorem positionOf_eq (hn : order.Nodup) : positionOf a order = resolveAnchor a order := by
  have hfirst : (order.idxOf? a.elemId).getD 0 =
      if a.elemId ∈ order then order.idxOf a.elemId else 0 := by
    rw [idxOf_eq_getD_idxOf?]
    cases h : order.idxOf? a.elemId with
    | none => simp [idxOf?_eq_none_iff.mp h]
    | some k =>
      have hmem : a.elemId ∈ order := by
        by_contra hnot
        simp [idxOf?_eq_none_iff.mpr hnot] at h
      simp [hmem]
  simp only [positionOf, resolveAnchor, resolveAnchorIn, hfirst, lastIdx_eq hn]
  cases a.bias <;> rfl

theorem Keyed.mem_activeIntervals (h : m.Keyed) : interval ∈ m.activeIntervals ↔
    m.intervals.get? interval.id = some interval ∧ m.isActive interval.id := by
  rw [activeIntervals, mem_filter]
  refine and_congr_left (fun _ => ⟨fun hv => ?_, fun hv => ?_⟩)
  · obtain ⟨e, he, rfl⟩ := mem_map.mp hv
    have hget := get?_of_mem h.sorted he
    rwa [h.id_eq hget]
  · exact mem_map.mpr ⟨_, get?_mem hv, rfl⟩

theorem Keyed.covers_iff (h : m.Keyed) : m.Covers order j i ↔
    ∃ interval, m.intervals.get? j = some interval ∧ m.isActive j ∧ Over interval order i := by
  simp only [Covers, resolvedIntervals, mem_map, exists_exists_and_eq_and,
    h.mem_activeIntervals]
  constructor
  · rintro ⟨v, ⟨hv, hact⟩, rfl, hover⟩
    exact ⟨v, hv, hact, hover⟩
  · rintro ⟨v, hv, hact, hover⟩
    obtain rfl := h.id_eq hv
    exact ⟨v, ⟨hv, hact⟩, rfl, hover⟩

/-- A remove of the interval is there that is not older. -/
def Late (m : MarkSet) (id removeId : OpId) : Prop :=
  (m.removes.get? id).any (fun existing => removeId ≤ existing.opId)

/-- A remove hides its interval unless it comes late. -/
theorem Keyed.removeMark (h : m.Keyed) {observed} (hobs : observed.covers id)
    (opId) : (m.removeMark id observed opId).Keyed ∧
      (∀ {j}, j ≠ id → m.Unused j → (m.removeMark id observed opId).Unused j) ∧
      ∀ {j i}, (m.removeMark id observed opId).Covers order j i ↔
        m.Covers order j i ∧ (j = id → m.Late id opId) := by
  unfold MarkSet.removeMark Late
  split
  · next hlate => exact ⟨h, fun _ hj => hj, by simp [hlate]⟩
  · next hlate =>
    have hk : ({ m with removes := m.removes.insert id ⟨observed, opId⟩ } : MarkSet).Keyed :=
      ⟨h.sorted, h.id_eq⟩
    refine ⟨hk, fun hj hu => ⟨hu.1, by simpa [hj] using hu.2⟩, fun {j i} => ?_⟩
    rw [hk.covers_iff, h.covers_iff]
    by_cases hj : j = id
    · subst hj
      simp only [isActive, get?_insert, hlate]
      cases hget : m.intervals.get? j with
      | none => simp
      | some v => simpa [h.id_eq hget] using fun hlt => absurd hobs (not_le.mpr hlt)
    · simp [isActive, hj]

/-- A new interval adds its own range. -/
theorem Keyed.setInterval (h : m.Keyed) (hu : m.Unused interval.id) :
    (m.setInterval interval).Keyed ∧
      (∀ {j}, j ≠ interval.id → m.Unused j → (m.setInterval interval).Unused j) ∧
      ∀ {j i}, (m.setInterval interval).Covers order j i ↔
        m.Covers order j i ∨ j = interval.id ∧ Over interval order i := by
  obtain ⟨attrs, hset⟩ : ∃ attrs, m.setInterval interval =
      ⟨m.intervals.insert interval.id { interval with attrs := attrs }, m.removes⟩ :=
    ⟨_, by simp [MarkSet.setInterval, setMark, hu.1]; rfl⟩
  have hk : (m.setInterval interval).Keyed := by
    rw [hset]
    refine ⟨sorted_insert h.sorted _ _, fun {j v} hv => ?_⟩
    rcases get?_insert_eq_some.mp hv with ⟨hj, rfl⟩ | ⟨-, hv⟩
    · exact hj.symm
    · exact h.id_eq hv
  refine ⟨hk, ?_, fun {j i} => ?_⟩
  · intro j hj hid
    rw [hset]
    exact ⟨by simpa [hj] using hid.1, hid.2⟩
  · rw [hk.covers_iff, h.covers_iff, hset]
    by_cases hj : j = interval.id
    · subst hj
      simp [isActive, hu.1, hu.2, Over]
    · simp [isActive, hj]

theorem Keyed.setIntervals (h : m.Keyed) {news : List MarkInterval}
    (hnews : (news.map MarkInterval.id).Nodup) (hu : ∀ v ∈ news, m.Unused v.id) :
    (news.foldl MarkSet.setInterval m).Covers order j i ↔
      m.Covers order j i ∨ ∃ v ∈ news, j = v.id ∧ Over v order i := by
  induction news generalizing m with
  | nil => simp
  | cons v news ih =>
    obtain ⟨hv, hnews⟩ := nodup_cons.mp hnews
    obtain ⟨hk, hunused, hcovers⟩ := h.setInterval (hu v mem_cons_self)
    rw [foldl_cons, ih hk hnews (fun w hw => hunused (fun he => hv (he ▸ mem_map_of_mem hw))
      (hu w (mem_cons_of_mem _ hw))), hcovers]
    simp [or_assoc]

/-- The remnants that are needed. -/
theorem Keyed.lowerRemoveMarkRange_eq (h : m.Keyed) (hn : order.Nodup)
    (hm : interval ∈ m.activeIntervals) (start stop next) :
    (m.lowerRemoveMarkRange interval.id start stop next order).1.Sublist
      [remnant interval next interval.start start,
        remnant interval ⟨next.counter + 1, next.peer⟩ stop interval.stop] ∧
    ∀ {v}, v ∈ (m.lowerRemoveMarkRange interval.id start stop next order).1 ↔
      resolveAnchor interval.start order < resolveAnchor start order ∧
        v = remnant interval next interval.start start ∨
      resolveAnchor stop order < resolveAnchor interval.stop order ∧
        v = remnant interval ⟨next.counter + 1, next.peer⟩ stop interval.stop := by
  obtain ⟨hget, hact⟩ := h.mem_activeIntervals.mp hm
  have hfind : m.activeIntervals.find? (fun v => v.id = interval.id) = some interval := by
    cases hf : m.activeIntervals.find? (fun v => v.id = interval.id) with
    | none => simpa using find?_eq_none.mp hf _ hm
    | some v =>
      have hid : v.id = interval.id := by simpa using find?_some hf
      have hv := (h.mem_activeIntervals.mp (mem_of_find?_eq_some hf)).1
      exact hv.symm.trans (hid ▸ hget)
  simp only [lowerRemoveMarkRange, hact, if_true, hfind, Option.toList_some, flatMap_singleton,
    positionOf_eq hn]
  by_cases hl : resolveAnchor interval.start order < resolveAnchor start order <;>
    by_cases hr : resolveAnchor stop order < resolveAnchor interval.stop order <;>
      simp [hl, hr]

/-- The ids of an interval and of its remnants. -/
def remnantIds (id removeId : OpId) : List OpId :=
  [id, ⟨removeId.counter + 1, removeId.peer⟩, ⟨removeId.counter + 2, removeId.peer⟩]

/-- What `remove_mark` makes of a mark set. -/
def cut (m : MarkSet) (intervalId removeId : OpId) (observed : StateVector)
    (removeStart removeEnd : Anchor) (order : List OpId) : MarkSet :=
  (m.lowerRemoveMarkRange intervalId removeStart removeEnd ⟨removeId.counter + 1, removeId.peer⟩
    order).1.foldl setInterval (m.removeMark intervalId observed removeId)

/-- The marks that are left: those of the interval if the remove comes late, and the remnants. -/
theorem Keyed.covers_cut (h : m.Keyed) (hn : order.Nodup) (hm : interval ∈ m.activeIntervals)
    {observed : StateVector} (hobs : observed.covers interval.id) {removeId : OpId}
    (hleft : m.Unused ⟨removeId.counter + 1, removeId.peer⟩)
    (hright : m.Unused ⟨removeId.counter + 2, removeId.peer⟩) (start stop) :
    (∃ id ∈ remnantIds interval.id removeId,
      (m.cut interval.id removeId observed start stop order).Covers order id i) ↔
    m.Late interval.id removeId ∧ Over interval order i ∨
    resolveAnchor interval.start order < resolveAnchor start order ∧
      Over { interval with stop := start } order i ∨
    resolveAnchor stop order < resolveAnchor interval.stop order ∧
      Over { interval with start := stop } order i := by
  obtain ⟨hget, hact⟩ := h.mem_activeIntervals.mp hm
  obtain ⟨hk, hunused, hcovers⟩ := @h.removeMark _ _ order _ hobs removeId
  have hne : ∀ {j}, m.Unused j → j ≠ interval.id := by
    rintro j hj rfl
    simp [hj.1] at hget
  have hover : m.Covers order interval.id i ↔ Over interval order i := by
    simp [h.covers_iff, hget, hact]
  have hnone : ∀ {j}, m.Unused j → ¬m.Covers order j i := by
    intro j hj
    simp [h.covers_iff, hj.1]
  -- both remnants, where they are needed
  obtain ⟨hsub, hmem⟩ := h.lowerRemoveMarkRange_eq hn hm start stop
    ⟨removeId.counter + 1, removeId.peer⟩
  have hcut : ∀ {j}, (m.cut interval.id removeId observed start stop order).Covers order j i ↔ _ :=
    hk.setIntervals (((hsub.map _).nodup (by simp [remnant]))) (fun v hv => by
      have hv := hsub.subset hv
      simp only [mem_cons, not_mem_nil, or_false] at hv
      obtain rfl | rfl := hv
      · exact hunused (hne hleft) hleft
      · exact hunused (hne hright) hright)
  simp only [hcut, hcovers, hmem]
  constructor
  · rintro ⟨j, hj, ⟨hj', hlate⟩ | ⟨v, hv, rfl, hv'⟩⟩
    · simp only [remnantIds, mem_cons, not_mem_nil, or_false] at hj
      obtain rfl | rfl | rfl := hj
      · exact .inl ⟨hlate rfl, hover.mp hj'⟩
      · exact absurd hj' (hnone hleft)
      · exact absurd hj' (hnone hright)
    · obtain ⟨hl, rfl⟩ | ⟨hr, rfl⟩ := hv
      · exact .inr (.inl ⟨hl, hv'⟩)
      · exact .inr (.inr ⟨hr, hv'⟩)
  · rintro (⟨hlate, hi⟩ | ⟨hl, hi⟩ | ⟨hr, hi⟩)
    · exact ⟨_, mem_cons_self, .inl ⟨hover.mpr hi, fun _ => hlate⟩⟩
    · exact ⟨_, by simp [remnantIds, remnant], .inr ⟨_, .inl ⟨hl, rfl⟩, rfl, hi⟩⟩
    · exact ⟨_, by simp [remnantIds, remnant], .inr ⟨_, .inr ⟨hr, rfl⟩, rfl, hi⟩⟩

end

/-- A range from `S` to `E` is freed of the range from `a` to `b` by keeping what lies in front of
    `a` and behind `b` exactly if they meet, or, where it stays as a whole, if they do not. -/
theorem cut_iff {late : Prop} {S E a b : Nat} (hab : a ≤ b) :
    (∀ i, (late ∧ (min S E ≤ i ∧ i < max S E) ∨ S < a ∧ (min S a ≤ i ∧ i < max S a) ∨
        b < E ∧ (min b E ≤ i ∧ i < max b E)) ↔ (min S E ≤ i ∧ i < max S E) ∧ ¬(a ≤ i ∧ i < b)) ↔
    (¬late → a ≤ E ∧ S ≤ b) ∧
      (late → a ≤ max S E ∧ min S E ≤ b ∧ min (max S E) b ≤ max (min S E) a) := by
  have hfront : ∀ i, S < a ∧ (min S a ≤ i ∧ i < max S a) ↔ S ≤ i ∧ i < a := by omega
  have hback : ∀ i, b < E ∧ (min b E ≤ i ∧ i < max b E) ↔ b ≤ i ∧ i < E := by omega
  simp only [hfront, hback]
  by_cases hlate : late
  · simp only [hlate, true_and, not_true_eq_false, false_imp_iff, true_imp_iff]
    refine ⟨fun h => ⟨?_, ?_, ?_⟩, fun h i => by omega⟩
    · have := h (a - 1)
      omega
    · have := h b
      omega
    · have := h (max (min S E) a)
      omega
  · simp only [hlate, false_and, false_or, not_false_eq_true, false_imp_iff, true_imp_iff, and_true]
    refine ⟨fun h => ⟨?_, ?_⟩, fun h i => by omega⟩
    · have hlast := h (a - 1)
      have hstop := h E
      omega
    · have hfirst := h b
      have hstart := h (S - 1)
      omega

end MarkSet

/-- `Document::remove_mark`; the block is marked dirty in the source layer. -/
def Document.removeMark (d : Document) (blockId : BlockId) (intervalId removeId : OpId)
    (observed : StateVector) (removeStart removeEnd : Anchor) :
    Except EditError (Document × List EditOp) :=
  (d.blockElemId blockId).elim (.error .blockNotFound) (fun elem =>
    (d.blocks.value? elem).elim (.error .blockNotFound) (fun block =>
      if (block.marks.interval intervalId).isNone then .error .invalidOffset
      else
        let order := ((blockTextSeq block.kind).map paragraphVisibleIds).getD []
        let news := (block.marks.lowerRemoveMarkRange intervalId removeStart removeEnd
          ⟨removeId.counter + 1, removeId.peer⟩ order).1
        let updated := { block with
          marks := news.foldl MarkSet.setInterval
            (block.marks.removeMark intervalId observed removeId) }
        .ok ({ d with blocks := d.blocks.updateValue elem updated },
          .removeMark blockId intervalId observed removeId :: news.map (fun interval =>
            .setMark blockId interval.id interval.kind interval.start interval.stop
              (interval.attrs.mapVal LwwRegister.value) interval.opId))))

theorem value?_updateValue {T : Type} {s : Sequence T} {id v}
    (h : s.value? id = some v) (w) : (s.updateValue id w).value? id = some w := by
  simp only [value?, getElement, Option.bind_eq_some_iff] at h
  obtain ⟨e, ⟨i, hi, he⟩, -⟩ := h
  simp [value?, getElement, updateValue, hi, he]

/-- Removing a mark over a range removes it from exactly that range if the range meets the
    interval, each from its first to its last position; or, where a later remove of the interval
    is there already, if the two have no position in common. -/
theorem removeMark_exact_iff {d : Document} {blockId : BlockId} {elem : OpId} {block : Block}
    {body : Sequence TextUnit} {interval : MarkInterval} (removeId : OpId) {observed : StateVector}
    (removeStart removeEnd : Anchor) (helem : d.blockElemId blockId = some elem)
    (hblock : d.blocks.value? elem = some block) (hbody : blockTextSeq block.kind = some body)
    (hr : body.Reached) (hk : block.marks.Keyed) (hm : interval ∈ block.marks.activeIntervals)
    (hobs : observed.covers interval.id)
    (hleft : block.marks.Unused ⟨removeId.counter + 1, removeId.peer⟩)
    (hright : block.marks.Unused ⟨removeId.counter + 2, removeId.peer⟩)
    {order : List OpId} (horder : order = paragraphVisibleIds body) {S E a b : Nat}
    (hS : S = MarkSet.resolveAnchor interval.start order)
    (hE : E = MarkSet.resolveAnchor interval.stop order)
    (ha : a = MarkSet.resolveAnchor removeStart order)
    (hb : b = MarkSet.resolveAnchor removeEnd order) (hab : a ≤ b) :
    ∃ d' ops block', d.removeMark blockId interval.id removeId observed removeStart removeEnd =
        .ok (d', ops) ∧ d'.blocks.value? elem = some block' ∧ block'.kind = block.kind ∧
      ((∀ i, (∃ id ∈ MarkSet.remnantIds interval.id removeId, block'.marks.Covers order id i) ↔
        (min S E ≤ i ∧ i < max S E) ∧ ¬(a ≤ i ∧ i < b)) ↔
      (¬block.marks.Late interval.id removeId → a ≤ E ∧ S ≤ b) ∧
        (block.marks.Late interval.id removeId →
          a ≤ max S E ∧ min S E ≤ b ∧ min (max S E) b ≤ max (min S E) a)) := by
  subst horder hS hE ha hb
  have hget := (hk.mem_activeIntervals.mp hm).1
  obtain ⟨ops, hok⟩ : ∃ ops, d.removeMark blockId interval.id removeId observed removeStart
      removeEnd = .ok (⟨d.frontmatter, d.blocks.updateValue elem ⟨block.id, block.elemId,
        block.kindOp, block.kindObserved, block.kind, block.marks.cut interval.id removeId observed
          removeStart removeEnd (paragraphVisibleIds body)⟩⟩, ops) := by
    simp only [Document.removeMark, helem, hblock, MarkSet.interval, hget, hbody, Option.elim_some]
    exact ⟨_, rfl⟩
  refine ⟨_, ops, _, hok, value?_updateValue hblock _, rfl, ?_⟩
  have hcovers := fun i => @hk.covers_cut _ _ i _ (nodup_paragraphVisibleIds hr) hm _ hobs _
    hleft hright removeStart removeEnd
  rw [forall_congr' (fun i => iff_congr (hcovers i) Iff.rfl)]
  exact MarkSet.cut_iff hab

def boldDocument : Document := ⟨none, fromOrdered [(⟨9, 1⟩, boldInitial)]⟩

def boldWordDocument : Document := ⟨none, fromOrdered [(⟨9, 1⟩, boldWord)]⟩

/-- Taken from `b`, the mark is left on `a` and on `c`. -/
theorem removeMark_exact_middle : ∃ d' ops block', boldWordDocument.removeMark boldWord.id ⟨4, 1⟩
      ⟨6, 1⟩ (StateVector.new.set 1 4) ⟨⟨2, 1⟩, .before⟩ ⟨⟨2, 1⟩, .after⟩ = .ok (d', ops) ∧
    d'.blocks.value? ⟨9, 1⟩ = some block' ∧ ∀ i, (∃ id ∈ MarkSet.remnantIds ⟨4, 1⟩ ⟨6, 1⟩,
      block'.marks.Covers [⟨1, 1⟩, ⟨2, 1⟩, ⟨3, 1⟩] id i) ↔ (0 ≤ i ∧ i < 3) ∧ ¬(1 ≤ i ∧ i < 2) := by
  have hk : boldWord.marks.Keyed := (@MarkSet.Keyed.setInterval _ wholeInterval []
    ⟨by decide, by simp [MarkSet.new]⟩ ⟨rfl, rfl⟩).1
  obtain ⟨d', ops, block', hok, hblock', -, h⟩ := removeMark_exact_iff ⟨6, 1⟩ ⟨⟨2, 1⟩, .before⟩
    ⟨⟨2, 1⟩, .after⟩ (rfl : boldWordDocument.blockElemId boldWord.id = some ⟨9, 1⟩) rfl rfl
    (.fromOrdered (by decide)) hk (by decide : wholeInterval ∈ _)
    (by decide : (StateVector.new.set 1 4).covers _) ⟨rfl, rfl⟩ ⟨rfl, rfl⟩ rfl rfl rfl rfl rfl
    (by decide)
  exact ⟨d', ops, block', hok, hblock', h.mpr (by unfold MarkSet.Late; decide)⟩

/-- Taken from `c`, a mark on `a` is on `b` as well. -/
theorem removeMark_grows : ∃ d' ops block', boldDocument.removeMark boldInitial.id ⟨4, 1⟩ ⟨6, 1⟩
      (StateVector.new.set 1 4) ⟨⟨3, 1⟩, .before⟩ ⟨⟨3, 1⟩, .after⟩ = .ok (d', ops) ∧
    d'.blocks.value? ⟨9, 1⟩ = some block' ∧ ¬∀ i, (∃ id ∈ MarkSet.remnantIds ⟨4, 1⟩ ⟨6, 1⟩,
      block'.marks.Covers [⟨1, 1⟩, ⟨2, 1⟩, ⟨3, 1⟩] id i) ↔ (0 ≤ i ∧ i < 1) ∧ ¬(2 ≤ i ∧ i < 3) := by
  refine ⟨_, _, _, rfl, rfl, fun h => ?_⟩
  have hb := (h 1).mp ⟨⟨7, 1⟩, by decide, by unfold MarkSet.Covers; decide⟩
  omega

end MdCrdt
