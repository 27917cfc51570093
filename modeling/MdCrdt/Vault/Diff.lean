import MdCrdt.Lib.CommonSublist

/- The grapheme diff of a text ingest (`filesync/diff.rs`).

  `lcsSteps` fills a table row by row and walks back through it from its last corner.
  Every entry is the length of a longest common sublist of two prefixes (`Row`), and the
  walk finds as many matches as the entry it starts from says.

  Correspondence (Rust ↔ Lean):
    the inner loop over `j`, the outer loop over `i` ↔ `fillRow`, `fillRows`
    the `while` loop, its steps in the order pushed ↔ `traceback`
  The entries are counted in `u32`. None reaches 2^32, since no table of 2^64 entries
  can be allocated. -/
namespace MdCrdt
open Lib List

inductive GraphemeStep where
  | equal (old new : Nat)
  | delete (old : Nat)
  | insert (new : Nat)
  deriving DecidableEq, Repr

namespace GraphemeStep

/-- The old index that a step is about. -/
def old? : GraphemeStep → Option Nat
  | equal old _ | delete old => some old
  | insert _ => none

/-- The new index that a step is about. -/
def new? : GraphemeStep → Option Nat
  | equal _ new | insert new => some new
  | delete _ => none

def isEqual : GraphemeStep → Bool
  | equal _ _ => true
  | delete _ | insert _ => false

end GraphemeStep

open GraphemeStep

/-- The rest of a row: `above` starts above and `left` stands to the left of the next entry. -/
def fillRow (g : String) : List String → List Nat → Nat → List Nat
  | h :: new, corner :: up :: above, left =>
    let entry := if g = h then corner + 1 else max left up
    entry :: fillRow g new (up :: above) entry
  | _, _, _ => []

/-- The rows below `above`. -/
def fillRows (new : List String) : List String → List Nat → List (List Nat)
  | [], _ => []
  | g :: old, above =>
    let row := 0 :: fillRow g new above 0
    row :: fillRows new old row

def lcsTable (old new : List String) : List (List Nat) :=
  let zeros := replicate (new.length + 1) 0
  zeros :: fillRows new old zeros

/-- An entry of the table. -/
def entryAt (dp : List (List Nat)) (i j : Nat) : Nat := (dp.getD i []).getD j 0

/-- The walk back from `(i, j)`. -/
def traceback (old new : List String) (dp : List (List Nat)) : Nat → Nat → List GraphemeStep
  | 0, 0 => []
  | 0, j + 1 => .insert j :: traceback old new dp 0 j
  | i + 1, 0 => .delete i :: traceback old new dp i 0
  | i + 1, j + 1 =>
    if old[i]? = new[j]? then .equal i j :: traceback old new dp i j
    else if entryAt dp i (j + 1) ≤ entryAt dp (i + 1) j then
      .insert j :: traceback old new dp (i + 1) j
    else .delete i :: traceback old new dp i (j + 1)
termination_by i j => i + j

def lcsSteps (old new : List String) : List GraphemeStep :=
  (traceback old new (lcsTable old new) old.length new.length).reverse

/-! ## The table -/

/-- The row of a prefix `xs`, from the entry of the prefix `ys` on. -/
def Row (xs : List String) : List String → List String → List Nat → Prop
  | ys, [], row => ∃ n, row = [n] ∧ LongestCommon xs ys n
  | ys, h :: new, row => ∃ n rest, row = n :: rest ∧ LongestCommon xs ys n ∧
      Row xs (ys ++ [h]) new rest

theorem row_zeros (ys new : List String) : Row [] ys new (replicate (new.length + 1) 0) := by
  induction new generalizing ys with
  | nil => exact ⟨0, rfl, .nil ys⟩
  | cons h new ih => exact ⟨0, _, rfl, .nil ys, ih _⟩

theorem Row.next (h : Row xs ys new above) (hl : LongestCommon (xs ++ [g]) ys left) :
    Row (xs ++ [g]) ys new (left :: fillRow g new above left) := by
  induction new generalizing ys above left with
  | nil => exact ⟨left, rfl, hl⟩
  | cons h' new ih =>
    obtain ⟨corner, above, rfl, hcorner, hrest⟩ := h
    have hup : ∃ up above', above = up :: above' ∧ LongestCommon xs (ys ++ [h']) up := by
      cases new with
      | nil =>
        obtain ⟨up, rfl, hup⟩ := hrest
        exact ⟨up, [], rfl, hup⟩
      | cons _ _ =>
        obtain ⟨up, above', rfl, hup, -⟩ := hrest
        exact ⟨up, above', rfl, hup⟩
    obtain ⟨up, above', rfl, hup⟩ := hup
    refine ⟨left, _, rfl, hl, ih hrest ?_⟩
    by_cases hg : g = h'
    · subst hg
      rw [if_pos rfl]
      exact hcorner.concat g
    · rw [if_neg hg]
      exact hl.max hg hup

theorem Row.entry (h : Row xs ys new row) (hj : j ≤ new.length) :
    LongestCommon xs (ys ++ new.take j) (row.getD j 0) := by
  induction new generalizing ys row j with
  | nil =>
    obtain ⟨n, rfl, hn⟩ := h
    obtain rfl : j = 0 := by simpa using hj
    simpa using hn
  | cons g new ih =>
    obtain ⟨n, rest, rfl, hn, hrest⟩ := h
    cases j with
    | zero => simpa using hn
    | succ j => simpa using ih hrest (Nat.le_of_succ_le_succ hj)

theorem row_fillRows (h : Row xs [] new above) (hi : i ≤ old.length) :
    Row (xs ++ old.take i) [] new ((above :: fillRows new old above).getD i []) := by
  induction old generalizing xs above i with
  | nil =>
    obtain rfl : i = 0 := by simpa using hi
    simpa using h
  | cons g old ih =>
    cases i with
    | zero => simpa using h
    | succ i =>
      have hrow := ih (h.next (LongestCommon.nil (xs ++ [g])).symm) (Nat.le_of_succ_le_succ hi)
      simpa [fillRows] using hrow

theorem entryAt_lcsTable {old new : List String} (hi : i ≤ old.length) (hj : j ≤ new.length) :
    LongestCommon (old.take i) (new.take j) (entryAt (lcsTable old new) i j) := by
  have hrow := row_fillRows (row_zeros [] new) hi
  simpa [entryAt, lcsTable] using hrow.entry hj

/-! ## The walk -/

section Walk
variable {old new : List String} {dp : List (List Nat)} {i j : Nat}

theorem reverse_traceback_old : (traceback old new dp i j).reverse.filterMap old? = range i := by
  fun_induction traceback old new dp i j <;>
    simp_all [filterMap_append, old?, range_succ]

theorem reverse_traceback_new : (traceback old new dp i j).reverse.filterMap new? = range j := by
  fun_induction traceback old new dp i j <;>
    simp_all [filterMap_append, new?, range_succ]

theorem mem_traceback_equal (hi : i ≤ old.length)
    (h : GraphemeStep.equal a b ∈ traceback old new dp i j) :
    ∃ g, old[a]? = some g ∧ new[b]? = some g := by
  fun_induction traceback old new dp i j <;> grind

/-- Where the last graphemes differ, the better of the two neighbours counts. -/
theorem longestCommon_mismatch (hi : i < old.length) (hj : j < new.length)
    (hne : old[i]? ≠ new[j]?) : LongestCommon (old.take (i + 1)) (new.take (j + 1))
      (max (entryAt (lcsTable old new) (i + 1) j) (entryAt (lcsTable old new) i (j + 1))) := by
  have hleft := entryAt_lcsTable (i := i + 1) hi hj.le
  have hup := entryAt_lcsTable (j := j + 1) hi.le hj
  rw [getElem?_eq_getElem hi, getElem?_eq_getElem hj] at hne
  rw [take_add_one, getElem?_eq_getElem hi] at hleft ⊢
  rw [take_add_one, getElem?_eq_getElem hj] at hup ⊢
  exact hleft.max (fun he => hne (congrArg some he)) hup

/-- The walk finds as many matches as there can be. -/
theorem countP_traceback (hi : i ≤ old.length) (hj : j ≤ new.length) :
    LongestCommon (old.take i) (new.take j)
      ((traceback old new (lcsTable old new) i j).countP isEqual) := by
  fun_induction traceback old new (lcsTable old new) i j with
  | case1 => exact .nil _
  | case2 j ih =>
    rw [countP_cons_of_neg Bool.false_ne_true,
      (ih hi (Nat.le_of_succ_le hj)).unique (LongestCommon.nil _)]
    exact .nil _
  | case3 i ih =>
    rw [countP_cons_of_neg Bool.false_ne_true,
      (ih (Nat.le_of_succ_le hi) hj).symm.unique (LongestCommon.nil _)]
    exact (LongestCommon.nil _).symm
  | case4 i j heq ih =>
    have hnew : new[j]? = some old[i] := by rw [← heq, getElem?_eq_getElem hi]
    rw [countP_cons_of_pos rfl, take_add_one, take_add_one, hnew, getElem?_eq_getElem hi]
    exact (ih (Nat.le_of_succ_le hi) (Nat.le_of_succ_le hj)).concat _
  | case5 i j hne hle ih =>
    have hleft := ih hi (Nat.le_of_succ_le hj)
    have hbest := longestCommon_mismatch hi hj hne
    rw [max_eq_left hle, (entryAt_lcsTable hi (Nat.le_of_succ_le hj)).unique hleft] at hbest
    rwa [countP_cons_of_neg Bool.false_ne_true]
  | case6 i j hne hlt ih =>
    have hup := ih (Nat.le_of_succ_le hi) hj
    have hbest := longestCommon_mismatch hi hj hne
    rw [max_eq_right (Nat.le_of_not_le hlt),
      (entryAt_lcsTable (Nat.le_of_succ_le hi) hj).unique hup] at hbest
    rwa [countP_cons_of_neg Bool.false_ne_true]

end Walk

/-- **The diff is an optimal alignment.** -/
theorem lcsSteps_optimal (old new : List String) :
    (lcsSteps old new).filterMap old? = range old.length ∧
    (lcsSteps old new).filterMap new? = range new.length ∧
    (∀ i j, .equal i j ∈ lcsSteps old new → ∃ g, old[i]? = some g ∧ new[j]? = some g) ∧
    LongestCommon old new ((lcsSteps old new).countP isEqual) := by
  refine ⟨reverse_traceback_old, reverse_traceback_new, fun i j h => ?_, ?_⟩
  · exact mem_traceback_equal le_rfl (mem_reverse.mp h)
  · have h := @countP_traceback old new _ _ le_rfl le_rfl
    rwa [take_length, take_length, ← countP_reverse] at h

end MdCrdt
