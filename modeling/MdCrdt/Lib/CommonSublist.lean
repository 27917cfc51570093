import Mathlib.Data.List.Basic
import Mathlib.Order.Bounds.Basic
import Mathlib.Order.MinMax

/- Longest common sublists.

  How the length of a longest common sublist of two lists changes when both grow at the
  end: equal last entries are always matched, of unequal ones one stays out. -/
namespace MdCrdt.Lib
open List
variable {α : Type*} {xs ys l : List α} {a b : α} {n m : Nat}

/-- `n` is the length of a longest common sublist. -/
def LongestCommon (xs ys : List α) (n : Nat) : Prop :=
  IsGreatest {k | ∃ l, l <+ xs ∧ l <+ ys ∧ l.length = k} n

theorem sublist_concat : l <+ xs ++ [a] ↔ l <+ xs ∨ ∃ l', l = l' ++ [a] ∧ l' <+ xs := by
  rw [sublist_append_iff]
  constructor
  · rintro ⟨l₁, l₂, rfl, h₁, h₂⟩
    rcases sublist_singleton.mp h₂ with rfl | rfl
    · exact .inl (by simpa using h₁)
    · exact .inr ⟨l₁, rfl, h₁⟩
  · rintro (h | ⟨l', rfl, h⟩)
    · exact ⟨l, [], by simp, h, nil_sublist _⟩
    · exact ⟨l', [a], rfl, h, Sublist.refl _⟩

namespace LongestCommon

theorem symm (h : LongestCommon xs ys n) : LongestCommon ys xs n := by
  obtain ⟨⟨l, hx, hy, hl⟩, hn⟩ := h
  exact ⟨⟨l, hy, hx, hl⟩, fun k ⟨l', hy', hx', hk⟩ => hn ⟨l', hx', hy', hk⟩⟩

theorem nil (ys : List α) : LongestCommon [] ys 0 := by
  refine ⟨⟨[], Sublist.refl _, nil_sublist _, rfl⟩, ?_⟩
  rintro k ⟨l, hl, -, rfl⟩
  simp [sublist_nil.mp hl]

/-- Equal last entries are matched. -/
theorem concat (h : LongestCommon xs ys n) (a : α) :
    LongestCommon (xs ++ [a]) (ys ++ [a]) (n + 1) := by
  obtain ⟨⟨l, hx, hy, rfl⟩, hn⟩ := h
  refine ⟨⟨l ++ [a], hx.append (Sublist.refl _), hy.append (Sublist.refl _), by simp⟩, ?_⟩
  rintro k ⟨l', hx', hy', rfl⟩
  -- without its last entry a common sublist is one of the shorter lists
  have hinit : ∀ {zs : List α}, l' <+ zs ++ [a] → l'.dropLast <+ zs := by
    intro zs h
    rcases sublist_concat.mp h with h | ⟨l₁, rfl, h⟩
    · exact (dropLast_sublist l').trans h
    · rwa [dropLast_concat]
  have hle := hn ⟨_, hinit hx', hinit hy', rfl⟩
  rw [length_dropLast] at hle
  omega

/-- Of unequal last entries one stays out. -/
theorem max (hab : a ≠ b) (hn : LongestCommon (xs ++ [a]) ys n)
    (hm : LongestCommon xs (ys ++ [b]) m) :
    LongestCommon (xs ++ [a]) (ys ++ [b]) (max n m) := by
  constructor
  · rcases max_choice n m with h | h <;> rw [h]
    · obtain ⟨l, hx, hy, hl⟩ := hn.1
      exact ⟨l, hx, hy.trans (sublist_append_left _ _), hl⟩
    · obtain ⟨l, hx, hy, hl⟩ := hm.1
      exact ⟨l, hx.trans (sublist_append_left _ _), hy, hl⟩
  · rintro k ⟨l, hx, hy, rfl⟩
    rcases sublist_concat.mp hx with h | ⟨l', rfl, -⟩
    · exact le_max_of_le_right (hm.2 ⟨l, h, hy, rfl⟩)
    · rcases sublist_concat.mp hy with h | ⟨l₂, he, -⟩
      · exact le_max_of_le_left (hn.2 ⟨_, hx, h, rfl⟩)
      · exact absurd (by simpa using (append_inj' he rfl).2) hab

end LongestCommon
end MdCrdt.Lib
