import Mathlib.Logic.Relation

/- Mutations that may fail half way.

  A method that changes its receiver step by step and stops at the first error
  leaves behind what the steps before the error have done. `Mutation S E A` is such
  a method; `attempt` turns a transition that does nothing on an error into one. A
  relation that is reflexive and transitive and holds across every transition holds
  across every mutation put together from them (`Along`). -/
namespace MdCrdt.Lib

/-- A method on a state `S` with result `A` that stops at an error of type `E`. -/
abbrev Mutation (S E A : Type) := ExceptT E (StateM S) A

namespace Mutation
variable {S E A B : Type}

/-- The state a mutation leaves behind. -/
def exec (m : Mutation S E A) (s : S) : S := (StateT.run (ExceptT.run m) s).2

/-- The result of a mutation. -/
def result (m : Mutation S E A) (s : S) : Except E A := (StateT.run (ExceptT.run m) s).1

/-- A transition that leaves the state alone on an error. -/
def attempt (f : S → Except E (S × A)) : Mutation S E A := fun s =>
  match f s with
  | .ok (s', a) => (.ok a, s')
  | .error e => (.error e, s)

/-- A check that does not change the state. -/
def check (f : S → Except E A) : Mutation S E A := fun s => (f s, s)

/-- The relation holds between every state and the one the mutation leaves behind. -/
def Along (R : S → S → Prop) (m : Mutation S E A) : Prop := ∀ s, R s (m.exec s)

variable {R : S → S → Prop}

section Refl
variable [Std.Refl R]

theorem along_pure (a) : Along R (pure a : Mutation S E A) := fun s => Std.Refl.refl s

theorem along_throw (e) : Along R (throw e : Mutation S E A) := fun s => Std.Refl.refl s

theorem along_check (f : S → Except E A) : Along R (check f) := fun s => Std.Refl.refl s

theorem along_attempt {f : S → Except E (S × A)} (h : ∀ s s' a, f s = .ok (s', a) → R s s') :
    Along R (attempt f) := by
  intro s
  simp only [exec, StateT.run, ExceptT.run, attempt]
  cases hf : f s with
  | error e => exact Std.Refl.refl s
  | ok r => exact h s r.1 r.2 hf

end Refl

theorem along_bind [IsTrans S R] {f : A → Mutation S E B} (hm : Along R m)
    (hf : ∀ a, Along R (f a)) : Along R (m >>= f) := by
  intro s
  have h := hm s
  simp only [exec, StateT.run, ExceptT.run, bind, ExceptT.bind, ExceptT.mk, ExceptT.bindCont,
    StateT.bind] at h ⊢
  cases hr : m s with
  | mk r s' =>
    rw [hr] at h
    cases r with
    | ok a => exact IsTrans.trans _ _ _ h (hf a s')
    | error e => exact h

theorem along_foldlM [Std.Refl R] [IsTrans S R] {f : B → A → Mutation S E B}
    (hf : ∀ b a, Along R (f b a)) (l : List A) (b) : Along R (l.foldlM f b) := by
  induction l generalizing b with
  | nil => exact along_pure b
  | cons a l ih =>
    rw [List.foldlM_cons]
    exact along_bind (hf b a) ih

theorem along_discard [Std.Refl R] [IsTrans S R] {m : Mutation S E A} (h : Along R m) :
    Along R (discard m) :=
  along_bind h (fun _ => along_pure _)

end Mutation
end MdCrdt.Lib
