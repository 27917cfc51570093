import Mathlib.Data.List.Forall2
import Mathlib.Logic.Basic

/- Computations that may fail, and do not.

  `Returns P o` says that a partial computation has a result, and that the result
  satisfies `P`. The rules follow the way such computations are put together: a result
  of the first part that satisfies its condition is all the second part may rely on. -/
namespace MdCrdt.Lib
open List Option

/-- The computation has a result, and it satisfies `P`. -/
def Returns {A : Type} (P : A → Prop) (o : Option A) : Prop := ∃ a, o = some a ∧ P a

variable {A B : Type} {P : A → Prop} {Q : B → Prop}

theorem returns_some (h : P a) : Returns P (some a) := ⟨a, rfl, h⟩

theorem returns_of_eq (ho : o = some a) (h : P a) : Returns P o :=
  ⟨a, ho, h⟩

theorem Returns.bind (h : Returns P o) (hf : ∀ a, P a → Returns Q (f a)) : Returns Q (o >>= f) := by
  obtain ⟨a, rfl, ha⟩ := h
  exact hf a ha

/-- The first part is known to have this result. -/
theorem returns_bind {f : A → Option B} (ho : o = some a)
    (hf : Returns Q (f a)) : Returns Q (o >>= f) := by
  rw [ho]
  exact hf

theorem Returns.map (h : Returns P o) (hf : ∀ a, P a → Q (f a)) : Returns Q (o.map f) := by
  obtain ⟨a, rfl, ha⟩ := h
  exact returns_some (hf a ha)

theorem Returns.mono (h : Returns P o) (hp : ∀ a, P a → P' a) : Returns P' o := by
  obtain ⟨a, rfl, ha⟩ := h
  exact returns_some (hp a ha)

theorem Returns.of_eq (h : Returns P o) (ho : o = some a) : P a := by
  obtain ⟨b, hb, hP⟩ := h
  exact some.inj (hb.symm.trans ho) ▸ hP

/-- A loop over a list, with an invariant of the accumulator. -/
theorem returns_foldlM {I : B → Prop} {f : B → A → Option B} {l : List A}
    (hf : ∀ b, I b → ∀ a ∈ l, Returns I (f b a)) (hb : I b) : Returns I (l.foldlM f b) := by
  induction l generalizing b with
  | nil => exact returns_some hb
  | cons a l ih =>
    rw [foldlM_cons]
    exact (hf b hb a mem_cons_self).bind
      (fun b' hb' => ih (fun b hb a ha => hf b hb a (mem_cons_of_mem _ ha)) hb')

/-- A map over a list that has a result has one for every entry. -/
theorem forall₂_of_mapM {f : A → Option B} (h : l.mapM f = some l') :
    List.Forall₂ (fun a b => f a = some b) l l' := by
  induction l generalizing l' with
  | nil =>
    obtain rfl := some.inj h
    exact .nil
  | cons a l ih =>
    rw [mapM_cons] at h
    obtain ⟨b, hb, h⟩ := bind_eq_some_iff.mp h
    obtain ⟨rest, hrest, h⟩ := bind_eq_some_iff.mp h
    obtain rfl := some.inj h
    exact .cons hb (ih hrest)

end MdCrdt.Lib
