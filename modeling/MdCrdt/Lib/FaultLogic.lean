import Mathlib.Logic.Basic

/- Programs on a machine that may fail or stop.

  A program issues one command at a time and goes on with the answer. The machine
  carries a command out as a fate decides: as asked, with an error, or not to the end,
  in which case there is no answer and the program is over. `run` follows a list of
  fates and has none left to fear at its end.

  `Holds` is a program logic for such machines: from a state on, whatever admissible
  fates the commands meet, every state on the way satisfies the invariant and the
  result satisfies the postcondition. States where a program was stopped are among the
  states on the way, so the invariant is what a later program may rely on. -/
namespace MdCrdt.Lib
open List

/-- A program over commands `C` with answers `R`. -/
inductive Prog (C : Type) (R : C → Type) (A : Type) where
  | ret (a : A)
  | call (c : C) (k : R c → Prog C R A)

namespace Prog
variable {C : Type} {R : C → Type} {A B E S F : Type}

def bind : Prog C R A → (A → Prog C R B) → Prog C R B
  | .ret a, f => f a
  | .call c k, f => .call c (fun r => (k r).bind f)

instance : Monad (Prog C R) where
  pure := .ret
  bind := .bind

section Run
variable (exec : (c : C) → F → S → Option (R c) × S) (last : F)
variable {p : Prog C R A} {f : A → Prog C R B} {s : S}

/-- Run a program under a list of fates, then under `last`. -/
def run : Prog C R A → List F → S → Option A × S
  | .ret a, _, s => (some a, s)
  | .call c k, fates, s =>
    match exec c (fates.headD last) s with
    | (none, s') => (none, s')
    | (some r, s') => (k r).run fates.tail s'

/-- Every state on the way satisfies `I`, and the result satisfies `Q`. -/
def Holds (allowed : F → Prop) (I : S → Prop) : Prog C R A → (A → S → Prop) → S → Prop
  | .ret a, Q, s => Q a s
  | .call c k, Q, s => ∀ fate, allowed fate → I (exec c fate s).2 ∧
      ∀ r, (exec c fate s).1 = some r → (k r).Holds allowed I Q (exec c fate s).2

variable {exec} {allowed : F → Prop} {I : S → Prop}

/-- What the logic says about a program is so. -/
theorem Holds.run (h : p.Holds exec allowed I Q s) (hlast : allowed last)
    (hf : ∀ fate ∈ fates, allowed fate) :
    (∀ a, (p.run exec last fates s).1 = some a → Q a (p.run exec last fates s).2) ∧
      ((p.run exec last fates s).1 = none → I (p.run exec last fates s).2) := by
  induction p generalizing fates s with
  | ret a => exact ⟨fun b hb => Option.some.inj hb ▸ h, fun hn => (by cases hn)⟩
  | call c k ih =>
    have hfate : allowed (fates.headD last) := by
      cases fates with
      | nil => exact hlast
      | cons fate fates => exact hf fate mem_cons_self
    obtain ⟨hinv, hnext⟩ := h _ hfate
    have htail : ∀ fate ∈ fates.tail, allowed fate := fun fate hm => hf fate (mem_of_mem_tail hm)
    simp only [Prog.run]
    cases hex : exec c (fates.headD last) s with
    | mk o s' =>
      rw [hex] at hinv hnext
      cases o with
      | none => exact ⟨fun a ha => (by cases ha), fun _ => hinv⟩
      | some r => exact ih r (hnext r rfl) htail

/-- A program that no fate stops has a result. -/
theorem run_isSome (h : ∀ c s fate, fate ∈ fates ∨ fate = last → (exec c fate s).1.isSome) :
    (p.run exec last fates s).1.isSome := by
  induction p generalizing fates s with
  | ret a => rfl
  | call c k ih =>
    have hfate : fates.headD last ∈ fates ∨ fates.headD last = last := by
      cases fates with
      | nil => exact .inr rfl
      | cons fate fates => exact .inl mem_cons_self
    have hsome := h c s _ hfate
    simp only [Prog.run]
    cases hex : exec c (fates.headD last) s with
    | mk o s' =>
      rw [hex] at hsome
      cases o with
      | none => cases hsome
      | some r =>
        exact ih r (fun c s fate hm => h c s fate (hm.imp_left mem_of_mem_tail))

/-- Without fates, a sequence runs its parts one after the other. -/
theorem run_bind (exec : (c : C) → F → S → Option (R c) × S) (last) (p : Prog C R A)
    (f : A → Prog C R B) (s) :
    (p.bind f).run exec last [] s = match p.run exec last [] s with
      | (none, s') => (none, s')
      | (some a, s') => (f a).run exec last [] s' := by
  induction p generalizing s with
  | ret a => rfl
  | call c k ih =>
    simp only [Prog.bind, Prog.run]
    cases exec c (([] : List F).headD last) s with
    | mk o s' =>
      cases o with
      | none => rfl
      | some r => exact ih r s'

/-! ## Where a program may be stopped -/

/-- Some fates stop the program in the state. -/
def Stops (exec : (c : C) → F → S → Option (R c) × S) (last : F) (p : Prog C R A) (s s' : S) : Prop :=
  ∃ fates, p.run exec last fates s = (none, s')

theorem Stops.bind (h : Stops exec last p s s') : Stops exec last (p.bind f) s s' := by
  obtain ⟨fates, h⟩ := h
  refine ⟨fates, ?_⟩
  induction p generalizing fates s with
  | ret a => cases h
  | call c k ih =>
    simp only [Prog.bind, Prog.run] at h ⊢
    cases hex : exec c (fates.headD last) s with
    | mk o s₁ =>
      rw [hex] at h
      cases o with
      | none =>
        obtain rfl : s₁ = s' := congrArg Prod.snd h
        rfl
      | some r => exact ih r fates.tail h

/-- It may be stopped behind a part that was carried out. -/
theorem Stops.after (h : p.run exec last [] s = (some a, s₁))
    (hf : Stops exec last (f a) s₁ s') : Stops exec last (p.bind f) s s' := by
  induction p generalizing s with
  | ret b =>
    cases h
    exact hf
  | call c k ih =>
    simp only [Prog.run, headD_nil, tail_nil] at h
    cases hex : exec c last s with
    | mk o s₂ =>
      rw [hex] at h
      cases o with
      | none => cases h
      | some r =>
        obtain ⟨fates, hr⟩ := ih r h
        refine ⟨last :: fates, ?_⟩
        simp only [Prog.bind, Prog.run, headD_cons, tail_cons, hex]
        exact hr

/-! ## Rules -/

theorem Holds.mono (h : p.Holds exec allowed I Q s)
    (hI : ∀ s, I s → J s) (hQ : ∀ a s, Q a s → Q' a s) : p.Holds exec allowed J Q' s := by
  induction p generalizing s with
  | ret a => exact hQ a s h
  | call c k ih => exact fun fate hf => ⟨hI _ (h fate hf).1, fun r hr => ih r ((h fate hf).2 r hr)⟩

theorem Holds.post (h : p.Holds exec allowed I Q s)
    (hQ : ∀ a s, Q a s → Q' a s) : p.Holds exec allowed I Q' s :=
  h.mono (fun _ hs => hs) hQ

theorem Holds.bind (h : p.Holds exec allowed I Q s)
    (hf : ∀ a s, Q a s → (f a).Holds exec allowed I Q' s) :
    (p >>= f).Holds exec allowed I Q' s := by
  induction p generalizing s with
  | ret a => exact hf a s h
  | call c k ih => exact fun fate hfate => ⟨(h fate hfate).1, fun r hr => ih r ((h fate hfate).2 r hr)⟩

end Run

/-! ## Programs that may raise an error -/

/-- The program of a computation with errors. -/
abbrev Fallible (C : Type) (R : C → Type) (E A : Type) := ExceptT E (Prog C R) A

/-- Put the answer of a command that may fail into the computation. -/
def attempt {c : C} (answer : R c → Except E A) : Fallible C R E A :=
  ExceptT.mk (.call c (fun r => .ret (answer r)))

/-- Go on whatever the outcome. -/
def tolerate (p : Fallible C R E A) : Fallible C R E Unit :=
  ExceptT.mk (p.run.bind (fun _ => .ret (.ok ())))

/-- Run the handler on an error and raise what it answers. -/
def onError (p : Fallible C R E A) (handler : E → Fallible C R E E) : Fallible C R E A :=
  ExceptT.mk (p.run.bind (fun
    | .ok a => .ret (.ok a)
    | .error e => (handler e).run.bind (fun
      | .ok e' => .ret (.error e')
      | .error e' => .ret (.error e'))))

section Fallible
variable {exec : (c : C) → F → S → Option (R c) × S} {allowed : F → Prop} {I : S → Prop}
variable {f : A → Fallible C R E Unit}

/-- `Holds` for a computation with errors: one postcondition for a value, one for an error. -/
def HoldsE (exec : (c : C) → F → S → Option (R c) × S) (allowed : F → Prop) (I : S → Prop)
    (p : Fallible C R E A) (Q : A → S → Prop) (X : E → S → Prop) (s : S) : Prop :=
  p.run.Holds exec allowed I (fun r s => match r with
    | .ok a => Q a s
    | .error e => X e s) s

variable {p : Fallible C R E A} {Q Q' : A → S → Prop} {X X' : E → S → Prop} {s : S}

theorem holdsE_pure (h : Q a s) : HoldsE exec allowed I (pure a : Fallible C R E A) Q X s := h

theorem holdsE_throw (h : X e s) : HoldsE exec allowed I (throw e : Fallible C R E A) Q X s := h

section
variable (h : HoldsE exec allowed I p Q X s)
include h

theorem HoldsE.post (hQ : ∀ a s, Q a s → Q' a s)
    (hX : ∀ e s, X e s → X' e s) : HoldsE exec allowed I p Q' X' s :=
  Holds.post h (fun r s hr => match r with
    | .ok a => hQ a s hr
    | .error e => hX e s hr)

theorem HoldsE.postOk (hQ : ∀ a s, Q a s → Q' a s) : HoldsE exec allowed I p Q' X s :=
  h.post hQ (fun _ _ hx => hx)

theorem HoldsE.mono (hI : ∀ s, I s → J s)
    (hQ : ∀ a s, Q a s → Q' a s) (hX : ∀ e s, X e s → X' e s) : HoldsE exec allowed J p Q' X' s :=
  Holds.mono h hI (fun r s hr => match r with
    | .ok a => hQ a s hr
    | .error e => hX e s hr)

theorem HoldsE.bind {f : A → Fallible C R E B} {Q' : B → S → Prop} (hf : ∀ a s, Q a s → HoldsE exec allowed I (f a) Q' X s) :
    HoldsE exec allowed I (p >>= f) Q' X s :=
  Holds.bind h (fun r s hr => match r with
    | .ok a => hf a s hr
    | .error _ => hr)

end

/-- What a computation keeps holds wherever it ends. -/
theorem HoldsE.ends (h : HoldsE exec (fun _ => True) I p (fun _ s => I s) (fun _ s => I s) s)
    (last fates) : I (p.run.run exec last fates s).2 := by
  have hrun := Holds.run last h trivial (fun fate (_ : fate ∈ fates) => trivial)
  cases hr : (p.run.run exec last fates s).1 with
  | none => exact hrun.2 hr
  | some r =>
    cases r with
    | ok a | error e => exact hrun.1 _ hr

theorem HoldsE.tolerate {Q'}
    (h : HoldsE exec allowed I p (fun _ s => Q' () s) (fun _ s => Q' () s) s) :
    HoldsE exec allowed I (tolerate p) Q' X s :=
  Holds.bind h (fun r _ hr => match r with
    | .ok _ => hr
    | .error _ => hr)

theorem HoldsE.onError (h : HoldsE exec allowed I p Q Y s)
    (hh : ∀ e s, Y e s → HoldsE exec allowed I (handler e) X X s) :
    HoldsE exec allowed I (onError p handler) Q X s :=
  Holds.bind h (fun r s hr => match r with
    | .ok _ => hr
    | .error e => Holds.bind (hh e s hr) (fun r _ hr => match r with
      | .ok _ => hr
      | .error _ => hr))

theorem holdsE_ite {c : Prop} [Decidable c]
    (hp : c → HoldsE exec allowed I p Q X s) (hq : ¬c → HoldsE exec allowed I q Q X s) :
    HoldsE exec allowed I (if c then p else q) Q X s := by
  split
  · next h => exact hp h
  · next h => exact hq h

/-- The rule for a loop: `J` is what holds in front of the rest of the list. -/
theorem holdsE_forM_map {item : B → A} {J : List B → S → Prop} (h : J l s)
    (hf : ∀ b l s, J (b :: l) s → HoldsE exec allowed I (f (item b)) (fun _ s => J l s) X s) :
    HoldsE exec allowed I ((l.map item).forM f) (fun _ s => J [] s) X s := by
  induction l generalizing s with
  | nil => exact h
  | cons b l ih => exact (hf b l s h).bind (fun _ s hs => ih hs)

theorem holdsE_forM {J : List A → S → Prop} (h : J l s)
    (hf : ∀ a l s, J (a :: l) s → HoldsE exec allowed I (f a) (fun _ s => J l s) X s) :
    HoldsE exec allowed I (l.forM f) (fun _ s => J [] s) X s := by
  have hmap : HoldsE exec allowed I ((l.map id).forM f) (fun _ s => J [] s) X s :=
    holdsE_forM_map h hf
  rwa [map_id] at hmap

/-! ### Invariants -/

/-- A computation that keeps `I` whatever happens to it. -/
def Keeps (exec : (c : C) → F → S → Option (R c) × S) (allowed : F → Prop) (I : S → Prop)
    (p : Fallible C R E A) : Prop :=
  ∀ s, I s → HoldsE exec allowed I p (fun _ s => I s) (fun _ s => I s) s

theorem keeps_pure (a) : Keeps exec allowed I (pure a : Fallible C R E A) := fun _ h => h

theorem keeps_throw (e) : Keeps exec allowed I (throw e : Fallible C R E A) := fun _ h => h

theorem keeps_attempt {answer : R c → Except E A}
    (h : ∀ s fate, allowed fate → I s → I (exec c fate s).2) :
    Keeps exec allowed I (attempt answer) := by
  intro s hs fate hfate
  refine ⟨h s fate hfate hs, fun r _ => ?_⟩
  change match answer r with
    | .ok _ | .error _ => I (exec c fate s).2
  cases answer r with
  | ok a | error e => exact h s fate hfate hs

theorem Keeps.bind {f : A → Fallible C R E B} (hp : Keeps exec allowed I p)
    (hf : ∀ a, Keeps exec allowed I (f a)) : Keeps exec allowed I (p >>= f) :=
  fun s h => (hp s h).bind (fun a s h => hf a s h)

theorem keeps_ite {c : Prop} [Decidable c] {p q : Fallible C R E A} (hp : Keeps exec allowed I p)
    (hq : Keeps exec allowed I q) : Keeps exec allowed I (if c then p else q) :=
  fun s h => holdsE_ite (fun _ => hp s h) (fun _ => hq s h)

theorem keeps_forM {l : List A} (hf : ∀ a ∈ l, Keeps exec allowed I (f a)) :
    Keeps exec allowed I (l.forM f) := by
  induction l with
  | nil => exact keeps_pure ()
  | cons a l ih =>
    exact (hf a mem_cons_self).bind (fun _ => ih (fun b hb => hf b (mem_cons_of_mem _ hb)))

theorem Keeps.tolerate (hp : Keeps exec allowed I p) : Keeps exec allowed I (tolerate p) :=
  fun s h => HoldsE.tolerate (hp s h)

theorem Keeps.onError (hp : Keeps exec allowed I p)
    (hh : ∀ e, Keeps exec allowed I (handler e)) : Keeps exec allowed I (onError p handler) :=
  fun s h => HoldsE.onError (hp s h) (fun e s h => hh e s h)

end Fallible
end Prog
end MdCrdt.Lib
