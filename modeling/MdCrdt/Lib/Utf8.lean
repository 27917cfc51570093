import Mathlib.Algebra.GroupWithZero.Nat
import Mathlib.Data.List.TakeWhile

/- Text under byte offsets.

  A text is a list of characters; a position in it is the number of bytes in front of
  it, in UTF-8. Taking a part of a text is partial: it fails behind the end of the text
  and inside a character. A part that can be taken splits the text into lists of
  characters (`dropBytes_eq_some`, `takeBytes_eq_some`), and proofs about positions are
  proofs about such splits. -/
namespace MdCrdt.Lib.Utf8
open List Option
variable {p : Char → Bool}

/-- The number of bytes of a text. -/
def size (s : List Char) : Nat := (s.map Char.utf8Size).sum

/-- What stands at a position and behind it. -/
def dropBytes : Nat → List Char → Option (List Char)
  | 0, s => some s
  | _ + 1, [] => none
  | n + 1, c :: s => if c.utf8Size ≤ n + 1 then dropBytes (n + 1 - c.utf8Size) s else none

/-- What stands in front of a position. -/
def takeBytes : Nat → List Char → Option (List Char)
  | 0, _ => some []
  | _ + 1, [] => none
  | n + 1, c :: s =>
    if c.utf8Size ≤ n + 1 then (takeBytes (n + 1 - c.utf8Size) s).map (c :: ·) else none

/-- What stands between two positions. -/
def slice (start stop : Nat) (s : List Char) : Option (List Char) :=
  if start ≤ stop then (takeBytes stop s).bind (dropBytes start) else none

/-- The position of the first occurrence. -/
def find (needle : List Char) : List Char → Option Nat
  | [] => if needle.isEmpty then some 0 else none
  | c :: s =>
    if needle.isPrefixOf (c :: s) then some 0 else (find needle s).map (· + c.utf8Size)

variable {s t u : List Char} {i j : Nat}

@[simp] theorem size_nil : size [] = 0 := rfl

@[simp] theorem size_cons (c s) : size (c :: s) = c.utf8Size + size s := by
  simp [size]

@[simp] theorem size_append (s t) : size (s ++ t) = size s + size t := by
  simp [size]

theorem length_le_size (s) : s.length ≤ size s := by
  induction s with
  | nil => exact le_refl _
  | cons c s ih =>
    have := c.utf8Size_pos
    rw [length_cons, size_cons]
    omega

theorem eq_nil_of_size_eq_zero (h : size s = 0) : s = [] :=
  length_eq_zero_iff.mp (Nat.le_zero.mp (h ▸ length_le_size s))

/-- Characters of one byte each. -/
theorem size_eq_length (h : ∀ c ∈ s, c.utf8Size = 1) : size s = s.length := by
  induction s with
  | nil => rfl
  | cons c s ih =>
    obtain ⟨hc, hs⟩ := forall_mem_cons.mp h
    rw [size_cons, hc, ih hs, length_cons, add_comm]

/-! ## Parts -/

theorem dropBytes_size_append (s t) : dropBytes (size s) (s ++ t) = some t := by
  induction s with
  | nil => simp [dropBytes]
  | cons c s ih =>
    obtain ⟨n, hn⟩ := Nat.exists_eq_succ_of_ne_zero (Nat.ne_of_gt c.utf8Size_pos)
    rw [size_cons, hn, Nat.succ_add, cons_append, dropBytes, if_pos (by omega), hn]
    rw [show n + size s + 1 - n.succ = size s by omega, ih]

theorem takeBytes_size_append (s t) : takeBytes (size s) (s ++ t) = some s := by
  induction s with
  | nil => simp [takeBytes]
  | cons c s ih =>
    obtain ⟨n, hn⟩ := Nat.exists_eq_succ_of_ne_zero (Nat.ne_of_gt c.utf8Size_pos)
    rw [size_cons, hn, Nat.succ_add, cons_append, takeBytes, if_pos (by omega), hn]
    rw [show n + size s + 1 - n.succ = size s by omega, ih]
    rfl

theorem dropBytes_eq_some : dropBytes i s = some t ↔ ∃ p, s = p ++ t ∧ size p = i := by
  refine ⟨fun h => ?_, fun ⟨p, hs, hi⟩ => by rw [hs, ← hi, dropBytes_size_append]⟩
  induction s generalizing i with
  | nil =>
    cases i with
    | zero => exact ⟨[], some.inj h, rfl⟩
    | succ i => cases h
  | cons c s ih =>
    cases i with
    | zero => exact ⟨[], some.inj h, rfl⟩
    | succ i =>
      rw [dropBytes] at h
      split at h
      · next hc =>
        obtain ⟨p, rfl, hp⟩ := ih h
        exact ⟨c :: p, rfl, by rw [size_cons, hp]; omega⟩
      · cases h

theorem takeBytes_eq_some : takeBytes i s = some t ↔ ∃ q, s = t ++ q ∧ size t = i := by
  refine ⟨fun h => ?_, fun ⟨q, hs, hi⟩ => by rw [hs, ← hi, takeBytes_size_append]⟩
  induction s generalizing i t with
  | nil =>
    cases i with
    | zero => exact ⟨[], by rw [← some.inj h]; rfl, by rw [← some.inj h]; rfl⟩
    | succ i => cases h
  | cons c s ih =>
    cases i with
    | zero => exact ⟨c :: s, by rw [← some.inj h]; rfl, by rw [← some.inj h]; rfl⟩
    | succ i =>
      rw [takeBytes] at h
      split at h
      · next hc =>
        obtain ⟨p, hp, rfl⟩ := map_eq_some_iff.mp h
        obtain ⟨q, rfl, hq⟩ := ih hp
        exact ⟨q, rfl, by rw [size_cons, hq]; omega⟩
      · cases h

theorem slice_append (s t u) : slice (size s) (size s + size t) (s ++ t ++ u) = some t := by
  rw [slice, if_pos (Nat.le_add_right _ _), ← size_append, takeBytes_size_append]
  exact dropBytes_size_append s t

/-- Two positions at which the text can be cut: what stands between them completes the first part
    to the second. -/
theorem slice_of_takeBytes (hs : takeBytes i s = some t) (hs' : takeBytes j s = some u)
    (hle : i ≤ j) : ∃ m, slice i j s = some m ∧ u = t ++ m := by
  obtain ⟨q, hq, ht⟩ := takeBytes_eq_some.mp hs
  obtain ⟨q', hq', hu⟩ := takeBytes_eq_some.mp hs'
  have hpre : t <+: u := by
    by_cases hlen : t.length ≤ u.length
    · exact prefix_of_prefix_length_le ⟨q, hq.symm⟩ ⟨q', hq'.symm⟩ hlen
    · -- the other way round, and then nothing stands between them
      obtain ⟨m, hm⟩ := prefix_of_prefix_length_le ⟨q', hq'.symm⟩ ⟨q, hq.symm⟩
        (Nat.le_of_not_le hlen)
      have hzero : size m = 0 := by
        rw [← hm, size_append] at ht
        omega
      rw [eq_nil_of_size_eq_zero hzero, append_nil] at hm
      exact hm ▸ prefix_refl _
  obtain ⟨m, rfl⟩ := hpre
  refine ⟨m, ?_, rfl⟩
  rw [size_append] at hu
  rw [hq', ← ht, ← hu]
  exact slice_append t m q'

section
variable (hp : ∀ c, p c = true → c.utf8Size = 1)
include hp

/-- Positions inside a run of characters of one byte. -/
theorem split_run (hn : n ≤ (s.takeWhile p).length) : size (s.take n) = n := by
  have htake : s.take n = (s.takeWhile p).take n :=
    calc s.take n = (s.takeWhile p ++ s.dropWhile p).take n := by
          rw [takeWhile_append_dropWhile]
      _ = (s.takeWhile p).take n := take_append_of_le_length hn
  rw [htake, size_eq_length, length_take, min_eq_left hn]
  exact fun c hc => hp c (mem_takeWhile_imp (mem_of_mem_take hc))

theorem dropBytes_run (hn : n ≤ (s.takeWhile p).length) : dropBytes n s = some (s.drop n) :=
  dropBytes_eq_some.mpr ⟨s.take n, (take_append_drop n s).symm, split_run hp hn⟩

theorem takeBytes_run (hn : n ≤ (s.takeWhile p).length) : takeBytes n s = some (s.take n) :=
  takeBytes_eq_some.mpr ⟨s.drop n, (take_append_drop n s).symm, split_run hp hn⟩

end

theorem utf8Size_of_eq {c : Char} (hc : c.utf8Size = 1) :
    ∀ d, decide (d = c) = true → d.utf8Size = 1 :=
  fun _ hd => of_decide_eq_true hd ▸ hc

/-! ## Occurrences -/

theorem find_eq_some (h : find needle s = some i) : ∃ p q, s = p ++ needle ++ q ∧ size p = i := by
  induction s generalizing i with
  | nil =>
    rw [find] at h
    split at h
    · next hn =>
      obtain rfl := isEmpty_iff.mp hn
      exact ⟨[], [], rfl, some.inj h⟩
    · cases h
  | cons c s ih =>
    rw [find] at h
    split at h
    · next hp =>
      obtain ⟨q, hq⟩ := isPrefixOf_iff_prefix.mp hp
      exact ⟨[], q, by rw [nil_append, hq], some.inj h⟩
    · obtain ⟨j, hj, rfl⟩ := map_eq_some_iff.mp h
      obtain ⟨p, q, rfl, hp⟩ := ih hj
      exact ⟨c :: p, q, rfl, by rw [size_cons, hp, add_comm]⟩

end MdCrdt.Lib.Utf8
