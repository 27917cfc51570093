import Mathlib.Data.List.Basic
import Mathlib.Order.Lattice

/- Cells that keep the newest of the writes they were given.

  `Newest stamp l c` says that the cell `c` holds a write of `l` with the largest
  stamp. It leaves open which of several writes with one stamp is held, so it fits a
  register that replaces at equal stamps and one that does not; where equal stamps
  mean equal writes, the cell is a function of the set of writes alone. -/
namespace MdCrdt.Lib
variable {W K : Type} [LinearOrder K] {stamp : W → K} {l l' : List W}

def Newest (stamp : W → K) (l : List W) (cell : Option W) : Prop :=
  cell.elim (l = []) (fun w => w ∈ l ∧ ∀ v ∈ l, stamp v ≤ stamp w)

namespace Newest
variable {c : Option W}

/-- Equal stamps mean equal writes: then the set of writes decides the cell. -/
theorem unique (h : Newest stamp l c) (h' : Newest stamp l' c')
    (hmem : ∀ w, w ∈ l ↔ w ∈ l') (hl : ∀ v ∈ l, ∀ w ∈ l, stamp v = stamp w → v = w) : c = c' := by
  cases c with
  | none =>
    have hnil : l = [] := h
    cases c' with
    | none => rfl
    | some w =>
      have hw : w ∈ l := (hmem w).mpr h'.1
      simp [hnil] at hw
  | some v =>
    cases c' with
    | none =>
      have hnil : l' = [] := h'
      have hv : v ∈ l' := (hmem v).mp h.1
      simp [hnil] at hv
    | some w =>
      have hw : w ∈ l := (hmem w).mpr h'.1
      have hvw : stamp v = stamp w := le_antisymm (h'.2 v ((hmem v).mp h.1)) (h.2 w hw)
      rw [hl v h.1 w hw hvw]

theorem stamp_eq (h : Newest stamp l (some v)) (h' : Newest stamp l (some w)) :
    stamp v = stamp w := le_antisymm (h'.2 v h.1) (h.2 w h'.1)

/-- Of two cells, the one with the larger stamp is the newest of both. -/
theorem append (h : Newest stamp l (some v)) (h' : Newest stamp l' c)
    (hc : ∀ w ∈ c, stamp w ≤ stamp v) : Newest stamp (l ++ l') (some v) := by
  refine ⟨List.mem_append_left _ h.1, ?_⟩
  intro x hx
  rcases List.mem_append.mp hx with hx | hx
  · exact h.2 x hx
  · cases c with
    | none =>
      have hnil : l' = [] := h'
      simp [hnil] at hx
    | some w => exact le_trans (h'.2 x hx) (hc w rfl)

theorem append_comm (h : Newest stamp (l ++ l') c) : Newest stamp (l' ++ l) c := by
  cases c with
  | none =>
    have hnil : l ++ l' = [] := h
    have hboth := List.append_eq_nil_iff.mp hnil
    simp [Newest, hboth.1, hboth.2]
  | some w =>
    refine ⟨by simpa [or_comm] using h.1, ?_⟩
    intro v hv
    exact h.2 v (by simpa [or_comm] using hv)

/-- The newest of `l` is that of `l ++ l'` where every write of `l'` is followed by one of `l`. -/
theorem eq_append_iff (h : Newest stamp l c) (h' : Newest stamp (l ++ l') c')
    (hl : ∀ v ∈ l ++ l', ∀ w ∈ l ++ l', stamp v = stamp w → v = w) :
    c = c' ↔ ∀ w ∈ l', ∃ v ∈ l, stamp w ≤ stamp v := by
  constructor
  · intro heq w hw
    subst heq
    cases c with
    | none =>
      have hnil : l ++ l' = [] := h'
      simp [(List.append_eq_nil_iff.mp hnil).2] at hw
    | some v => exact ⟨v, h.1, h'.2 w (List.mem_append_right _ hw)⟩
  · intro hout
    refine unique ?_ h' (fun _ => Iff.rfl) hl
    cases c with
    | none =>
      have hnil : l = [] := h
      have hnil' : l' = [] := by
        apply List.eq_nil_iff_forall_not_mem.mpr
        intro w hw
        obtain ⟨v, hv, _⟩ := hout w hw
        simp [hnil] at hv
      simp [Newest, hnil, hnil']
    | some v =>
      refine ⟨List.mem_append_left _ h.1, ?_⟩
      intro x hx
      rcases List.mem_append.mp hx with hx | hx
      · exact h.2 x hx
      · obtain ⟨y, hy, hxy⟩ := hout x hx
        exact le_trans hxy (h.2 y hy)

theorem single (w) : Newest stamp [w] (some w) := by
  simp [Newest]

/-- A write that is not older replaces what the cell holds. -/
theorem replace (h : Newest stamp l c) (hw : ∀ v ∈ c, stamp v ≤ stamp w) :
    Newest stamp (l ++ [w]) (some w) :=
  append_comm ((single w).append h hw)

/-- A write that is not newer leaves the cell as it is. -/
theorem keep (h : Newest stamp l (some v)) (hw : stamp w ≤ stamp v) :
    Newest stamp (l ++ [w]) (some v) :=
  h.append (single w) (by simpa using hw)

end Newest
end MdCrdt.Lib
