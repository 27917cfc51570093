import Mathlib.Data.List.Chain
import MdCrdt.Doc.Serialize

/- Rendered spans (`render_spans` of `core/mark.rs`).

  A table with one row per position is filled with the ids of the active intervals over
  that position; each row is sorted and freed of repetitions. A second scan cuts the
  positions into spans of equal rows. It moves the first row of each span out of the
  table, which no later comparison notices: they all read rows behind it.

  Correspondence (Rust ↔ Lean):
    `marks_at` and the loop over intervals ↔ `pushInterval`, `markTable`
    `marks.sort(); marks.dedup()` ↔ `tidyRow`
    the inner and the outer `while` ↔ `spanEnd`, `spansFrom` -/
namespace MdCrdt
open List hiding le_trans le_total

structure Span where
  start : Nat
  stop : Nat
  marks : List OpId
  deriving DecidableEq, Repr

namespace MarkSet
variable {x : OpId} {order : List OpId} {table : List (List OpId)}

/-- `Vec::dedup`: drop what equals the element in front of it. -/
def dedupRow : List OpId → List OpId
  | [] => []
  | [a] => [a]
  | a :: b :: l => if a = b then dedupRow (b :: l) else a :: dedupRow (b :: l)

def tidyRow (row : List OpId) : List OpId := dedupRow (row.mergeSort (· ≤ ·))

/-- Push an id to the rows of a range, as far as the table goes. -/
def pushMark (table : List (List OpId)) (start stop : Nat) (id : OpId) : List (List OpId) :=
  (List.range' start (stop - start)).foldl (fun table idx => table.modify idx (· ++ [id])) table

def pushInterval (order : List OpId) (visibleLen : Nat) (table : List (List OpId))
    (interval : MarkInterval) : List (List OpId) :=
  let start := resolveAnchorIn interval.start order visibleLen
  let stop := resolveAnchorIn interval.stop order visibleLen
  if start ≤ stop then pushMark table start stop interval.id
  else pushMark table stop start interval.id

def markTable (m : MarkSet) (order : List OpId) (visibleLen : Nat) : List (List OpId) :=
  (m.activeIntervals.foldl (pushInterval order visibleLen)
    (List.replicate (visibleLen + 1) [])).map tidyRow

/-- The first position from `stop` on whose row is another one. -/
def spanEnd (table : List (List OpId)) (current : List OpId) (visibleLen stop : Nat) : Nat :=
  if stop < visibleLen ∧ table.getD stop [] = current then
    spanEnd table current visibleLen (stop + 1)
  else stop
termination_by visibleLen - stop

theorem le_spanEnd (table current visibleLen stop) :
    stop ≤ spanEnd table current visibleLen stop := by
  fun_induction spanEnd with
  | case1 stop _ ih => omega
  | case2 stop _ => exact le_refl _

def spansFrom (table : List (List OpId)) (visibleLen start : Nat) : List Span :=
  if start < visibleLen then
    let current := table.getD start []
    -- `mem::take` leaves an empty row behind
    let rest := table.set start []
    let stop := spanEnd rest current visibleLen (start + 1)
    ⟨start, stop, current⟩ :: spansFrom rest visibleLen stop
  else []
termination_by visibleLen - start
decreasing_by
  have h := le_spanEnd (table.set start []) (table.getD start []) visibleLen (start + 1)
  omega

def renderSpans (m : MarkSet) (order : List OpId) (visibleLen : Nat) : List Span :=
  spansFrom (m.markTable order visibleLen) visibleLen 0

/-! ## The rows -/

theorem mem_dedupRow (l) : x ∈ dedupRow l ↔ x ∈ l := by
  fun_induction dedupRow with
  | case1 => rfl
  | case2 => rfl
  | case3 a l ih => simp_all
  | case4 a b l hne ih => simp_all

theorem strict_dedupRow (h : l.Pairwise (· ≤ ·)) : (dedupRow l).Pairwise (· < ·) := by
  fun_induction dedupRow with
  | case1 => exact List.Pairwise.nil
  | case2 a => exact pairwise_singleton _ _
  | case3 a l ih => exact ih (pairwise_cons.mp h).2
  | case4 a b l hne ih =>
    have hcons := pairwise_cons.mp h
    refine pairwise_cons.mpr ⟨?_, ih hcons.2⟩
    intro x hx
    -- `b` is larger than `a`, and what stands behind is not smaller than `b`
    have hab : a < b := lt_of_le_of_ne (hcons.1 b mem_cons_self) hne
    have hx' := (mem_dedupRow (b :: l)).mp hx
    rcases mem_cons.mp hx' with rfl | hmem
    · exact hab
    · exact lt_of_lt_of_le hab ((pairwise_cons.mp hcons.2).1 x hmem)

theorem strict_tidyRow (row) : (tidyRow row).Pairwise (· < ·) := by
  apply strict_dedupRow
  have hsorted := @pairwise_mergeSort OpId (fun a b => decide (a ≤ b))
    (fun a b c hab hbc => by simp only [decide_eq_true_eq] at *; exact le_trans hab hbc)
    (fun a b => by simpa using le_total a b) row
  simpa using hsorted

theorem mem_tidyRow : x ∈ tidyRow row ↔ x ∈ row := by
  rw [tidyRow, mem_dedupRow]
  exact (mergeSort_perm row _).mem_iff

theorem getElem?_pushRange (id i k) : ∀ (start : Nat) (table : List (List OpId)),
    ((List.range' start k).foldl (fun table idx => table.modify idx (· ++ [id])) table)[i]? =
      if start ≤ i ∧ i < start + k then table[i]?.map (· ++ [id]) else table[i]? := by
  induction k with
  | zero =>
    intro start table
    rw [if_neg (by omega)]
    rfl
  | succ k ih =>
    intro start table
    rw [range'_succ, foldl_cons, ih, getElem?_modify]
    by_cases hi : start = i
    · -- the row of this turn; the later turns are behind it
      rw [if_neg (by omega), if_pos (by omega)]
      simp [hi]
    · by_cases hlater : start + 1 ≤ i ∧ i < start + 1 + k
      · rw [if_pos hlater, if_pos (by omega)]
        simp [hi]
      · rw [if_neg hlater, if_neg (by omega)]
        simp [hi]

theorem mem_pushMark {start stop i id x}
    (hi : i < table.length) : x ∈ (pushMark table start stop id).getD i [] ↔
      x ∈ table.getD i [] ∨ (x = id ∧ start ≤ i ∧ i < stop) := by
  simp only [getD_eq_getElem?_getD, pushMark, getElem?_pushRange, getElem?_eq_getElem hi]
  by_cases hr : start ≤ i ∧ i < start + (stop - start)
  · rw [if_pos hr]
    have hstop : i < stop := by omega
    simp [hr.1, hstop]
  · rw [if_neg hr]
    have hout : ¬(start ≤ i ∧ i < stop) := by omega
    simp [hout]

theorem length_pushMark (table start stop id) :
    (pushMark table start stop id).length = table.length := by
  unfold pushMark
  induction List.range' start (stop - start) generalizing table with
  | nil => rfl
  | cons idx l ih => simp [ih]

/-- The position lies in the range of the interval. -/
def Over (interval : MarkInterval) (order : List OpId) (i : Nat) : Prop :=
  min (resolveAnchor interval.start order) (resolveAnchor interval.stop order) ≤ i ∧
    i < max (resolveAnchor interval.start order) (resolveAnchor interval.stop order)

theorem mem_pushInterval {interval i} (hi : i < table.length) :
    x ∈ (pushInterval order order.length table interval).getD i [] ↔
      x ∈ table.getD i [] ∨ (x = interval.id ∧ Over interval order i) := by
  simp only [pushInterval, Over, resolveAnchor]
  split
  · next hle => rw [mem_pushMark hi, min_eq_left hle, max_eq_right hle]
  · next hle =>
    have hge := le_of_not_ge hle
    rw [mem_pushMark hi, min_eq_right hge, max_eq_left hge]

theorem mem_foldl_pushInterval (l : List MarkInterval) :
    ∀ {table : List (List OpId)}, i < table.length →
      (x ∈ (l.foldl (pushInterval order order.length) table).getD i [] ↔
        x ∈ table.getD i [] ∨ ∃ interval ∈ l, x = interval.id ∧ Over interval order i) := by
  induction l with
  | nil => simp
  | cons interval l ih =>
    intro table hi
    have hlen : i < (pushInterval order order.length table interval).length := by
      simp only [pushInterval]
      split <;> simpa only [length_pushMark] using hi
    rw [foldl_cons, ih hlen, mem_pushInterval hi]
    simp only [mem_cons, exists_eq_or_imp, or_assoc]

theorem getD_markTable (m : MarkSet) (order : List OpId) (i) :
    (m.markTable order order.length).getD i [] = tidyRow
      ((m.activeIntervals.foldl (pushInterval order order.length)
        (List.replicate (order.length + 1) [])).getD i []) := by
  simp only [markTable, getD_eq_getElem?_getD, getElem?_map]
  generalize List.foldl _ _ _ = table
  cases (table : List (List OpId))[i]? with
  | none => simp [tidyRow, dedupRow]
  | some row => rfl

/-- A row holds the ids of the active intervals over its position. -/
theorem mem_markTable {m : MarkSet} (hi : i < order.length) :
    x ∈ (m.markTable order order.length).getD i [] ↔
      ∃ interval ∈ m.activeIntervals, x = interval.id ∧ Over interval order i := by
  rw [getD_markTable, mem_tidyRow, mem_foldl_pushInterval _ (by simpa using Nat.lt_succ_of_lt hi)]
  simp [getD_eq_getElem?_getD, Nat.lt_succ_of_lt hi]

/-! ## The scan -/

/-- The spans cover the positions from `start` to `stop` one after the other, none empty. -/
def Tiles (start stop : Nat) : List Span → Prop
  | [] => start = stop
  | span :: spans => span.start = start ∧ span.start < span.stop ∧ Tiles span.stop stop spans

theorem Tiles.stop_le (h : Tiles start stop spans) :
    start ≤ stop ∧ ∀ span ∈ spans, span.stop ≤ stop := by
  induction spans generalizing start with
  | nil =>
    have hnil : start = stop := h
    simp [hnil]
  | cons span spans ih =>
    obtain ⟨hstart, hlt, htail⟩ := h
    obtain ⟨hle, hspans⟩ := ih htail
    refine ⟨by omega, ?_⟩
    intro other hother
    rcases mem_cons.mp hother with rfl | hother
    · exact hle
    · exact hspans other hother

section Scan
variable {row : Nat → List OpId} {visibleLen : Nat}

theorem spanEnd_spec (current stop)
    (hrow : ∀ i, stop ≤ i → table.getD i [] = row i) (hstop : stop ≤ visibleLen) :
    spanEnd table current visibleLen stop ≤ visibleLen ∧
    (∀ i, stop ≤ i → i < spanEnd table current visibleLen stop → row i = current) ∧
    (spanEnd table current visibleLen stop < visibleLen →
      row (spanEnd table current visibleLen stop) ≠ current) := by
  fun_induction spanEnd table current visibleLen stop with
  | case1 stop hcond ih =>
    obtain ⟨hle, hsame, hnext⟩ := ih (fun i hi => hrow i (by omega)) (by omega)
    refine ⟨hle, ?_, hnext⟩
    intro i hi hlt
    by_cases heq : i = stop
    · rw [heq, ← hrow stop (le_refl _)]
      exact hcond.2
    · exact hsame i (by omega) hlt
  | case2 stop hcond =>
    refine ⟨hstop, fun i hi hlt => by omega, ?_⟩
    intro hlt heq
    exact hcond ⟨hlt, (hrow stop (le_refl _)).trans heq⟩

/-- As long as the rows not yet scanned are intact, the spans tile the rest and each has the
    row of every one of its positions. -/
theorem spansFrom_spec (table start)
    (hrow : ∀ i, start ≤ i → table.getD i [] = row i) (hstart : start ≤ visibleLen) :
    Tiles start visibleLen (spansFrom table visibleLen start) ∧
    (spansFrom table visibleLen start).IsChain (fun a b => a.marks ≠ b.marks) ∧
    (∀ span ∈ spansFrom table visibleLen start, ∀ i, span.start ≤ i → i < span.stop →
      span.marks = row i) ∧
    ∀ span ∈ (spansFrom table visibleLen start).head?, span.marks = row start := by
  fun_induction spansFrom table visibleLen start with
  | case1 table start hlt current rest stop ih =>
    have hrest : ∀ i, start + 1 ≤ i → rest.getD i [] = row i := by
      intro i hi
      have hne : start ≠ i := by omega
      simpa [rest, getD_eq_getElem?_getD, getElem?_set, hne] using hrow i (by omega)
    have hstop : start + 1 ≤ stop := le_spanEnd rest current visibleLen (start + 1)
    obtain ⟨hle, hsame, hnext⟩ := spanEnd_spec current (start + 1) hrest hlt
    obtain ⟨htiles, hchain, hmarks, hhead⟩ := ih (fun i hi => hrest i (by omega)) hle
    have hcurrent : current = row start := hrow start (le_refl _)
    refine ⟨⟨rfl, hstop, htiles⟩, ?_, ?_, ?_⟩
    · refine hchain.cons ?_
      intro span hspan heq
      have hlast : stop < visibleLen := by
        by_contra hge
        rw [spansFrom, if_neg hge] at hspan
        cases hspan
      exact hnext hlast ((hhead span hspan).symm.trans heq.symm)
    · intro span hspan i hi hlt
      rcases mem_cons.mp hspan with rfl | hspan
      · by_cases heq : i = start
        · rw [heq]
          exact hcurrent
        · have hi' : start + 1 ≤ i := by
            have : start ≤ i := hi
            omega
          exact (hsame i hi' hlt).symm
      · exact hmarks span hspan i hi hlt
    · intro span hspan
      rw [← Option.some.inj hspan]
      exact hcurrent
  | case2 table start hlt =>
    have heq : start = visibleLen := by omega
    simp [Tiles, heq]

end Scan

/-- The spans tile the text, neighbours differ, and a span lists in order the active
    intervals over each of its positions. -/
theorem renderSpans_exact (m : MarkSet) (order : List OpId) :
    Tiles 0 order.length (m.renderSpans order order.length) ∧
    (m.renderSpans order order.length).IsChain (fun a b => a.marks ≠ b.marks) ∧
    ∀ span ∈ m.renderSpans order order.length, ∀ i, span.start ≤ i → i < span.stop →
      span.marks.Pairwise (· < ·) ∧ ∀ x, x ∈ span.marks ↔
        ∃ r ∈ m.resolvedIntervals order, r.1.id = x ∧ r.2.1 ≤ i ∧ i < r.2.2 := by
  obtain ⟨htiles, hchain, hmarks, _⟩ := spansFrom_spec (m.markTable order order.length) 0
    (fun _ _ => rfl) (Nat.zero_le order.length)
  refine ⟨htiles, hchain, ?_⟩
  intro span hspan i hi hlt
  have hbound : i < order.length := lt_of_lt_of_le hlt (htiles.stop_le.2 span hspan)
  rw [hmarks span hspan i hi hlt]
  refine ⟨getD_markTable m order i ▸ strict_tidyRow _, ?_⟩
  intro x
  rw [mem_markTable hbound]
  simp only [resolvedIntervals, mem_map, exists_exists_and_eq_and, Over, @eq_comm _ x]

end MarkSet
end MdCrdt
