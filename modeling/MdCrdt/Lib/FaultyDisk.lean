import MdCrdt.Lib.FaultLogic
import MdCrdt.Lib.SortedMap

/- Files on a disk that may fail.

  A disk maps keys to contents. A command meets a fate: it goes through, it fails with
  an I/O error, or the process stops in it. Renaming, removing and making an entry are
  atomic. Whatever overwrites an entry may leave anything in it when it does not go
  through. The order in which a directory is listed is not known; it is a parameter.

  `logged` keeps a record of the commands that were carried out and of their fates, for
  statements about what has happened on the way. -/
namespace MdCrdt.Lib
open SortedMap

/-! ## Fates -/

/-- What happens to a command. An entry that is not overwritten to the end holds `torn`. -/
inductive Fate (B : Type) where
  | ok
  | fail (torn : Option B)
  | crash (torn : Option B)

section Fate
variable {A B S : Type}

/-- A change that is made as a whole or not at all; `none` where it cannot be made. -/
def change (fate : Fate B) (s : S) (result : Option S) : Option (Except Unit Unit) × S :=
  match fate, result with
  | .ok, some s' => (some (.ok ()), s')
  | .ok, none => (some (.error ()), s)
  | .fail _, _ => (some (.error ()), s)
  | .crash _, _ => (none, s)

/-- A change of what an entry holds. -/
def refill (fate : Fate B) (s : S) (put : B → S) (b : B) : Option (Except Unit Unit) × S :=
  match fate with
  | .ok => (some (.ok ()), put b)
  | .fail torn => (some (.error ()), torn.elim s put)
  | .crash torn => (none, torn.elim s put)

/-- An answer about the entries as they are. -/
def look (fate : Fate B) (s : S) (answer : A) : Option A × S :=
  match fate with
  | .ok | .fail _ => (some answer, s)
  | .crash _ => (none, s)

/-- An answer that an I/O error may take the place of. -/
def inspect (fate : Fate B) (s : S) (answer : Except Unit A) : Option (Except Unit A) × S :=
  match fate with
  | .ok => (some answer, s)
  | .fail _ => (some (.error ()), s)
  | .crash _ => (none, s)

/-! ### Rules -/

/-- May a command fail? -/
def MayFail (allowed : Fate B → Prop) : Prop := ∃ torn, allowed (.fail torn)

variable {allowed : Fate B → Prop} {I : S → Prop} {s : S} (hI : I s)
include hI

theorem step_look {Q : A → S → Prop} (hQ : Q answer s) :
    ∀ fate, allowed fate → I (look fate s answer).2 ∧ ∀ r, (look fate s answer).1 = some r →
      Q r (look fate s answer).2 := by
  rintro (_ | torn | torn) _
  · exact ⟨hI, fun r hr => Option.some.inj hr ▸ hQ⟩
  · exact ⟨hI, fun r hr => Option.some.inj hr ▸ hQ⟩
  · exact ⟨hI, nofun⟩

theorem step_inspect {Q : Except Unit A → S → Prop}
    (hQ : Q answer s) (hX : MayFail allowed → Q (.error ()) s) :
    ∀ fate, allowed fate → I (inspect fate s answer).2 ∧
      ∀ r, (inspect fate s answer).1 = some r → Q r (inspect fate s answer).2 := by
  rintro (_ | torn | torn) hf
  · exact ⟨hI, fun r hr => Option.some.inj hr ▸ hQ⟩
  · exact ⟨hI, fun r hr => Option.some.inj hr ▸ hX ⟨torn, hf⟩⟩
  · exact ⟨hI, nofun⟩

theorem step_change {Q : Except Unit Unit → S → Prop}
    (hQ : ∀ s', result = some s' → I s' ∧ Q (.ok ()) s')
    (hX : result = none ∨ MayFail allowed → Q (.error ()) s) :
    ∀ fate, allowed fate → I (change fate s result).2 ∧
      ∀ r, (change fate s result).1 = some r → Q r (change fate s result).2 := by
  rintro (_ | torn | torn) hf
  · cases result with
    | none => exact ⟨hI, fun r hr => Option.some.inj hr ▸ hX (.inl rfl)⟩
    | some s' =>
      obtain ⟨hI', hQ'⟩ := hQ s' rfl
      exact ⟨hI', fun r hr => Option.some.inj hr ▸ hQ'⟩
  · exact ⟨hI, fun r hr => Option.some.inj hr ▸ hX (.inr ⟨torn, hf⟩)⟩
  · exact ⟨hI, nofun⟩

theorem step_refill {put : B → S} {Q : Except Unit Unit → S → Prop}
    (hput : ∀ b, I (put b)) (hQ : Q (.ok ()) (put b))
    (hX : MayFail allowed → Q (.error ()) s ∧ ∀ b, Q (.error ()) (put b)) :
    ∀ fate, allowed fate → I (refill fate s put b).2 ∧
      ∀ r, (refill fate s put b).1 = some r → Q r (refill fate s put b).2 := by
  rintro (_ | torn | torn) hf
  · exact ⟨hput b, fun r hr => Option.some.inj hr ▸ hQ⟩
  · obtain ⟨h, hb⟩ := hX ⟨torn, hf⟩
    cases torn with
    | none => exact ⟨hI, fun r hr => Option.some.inj hr ▸ h⟩
    | some b' => exact ⟨hput b', fun r hr => Option.some.inj hr ▸ hb b'⟩
  · cases torn with
    | none => exact ⟨hI, nofun⟩
    | some b' => exact ⟨hput b', nofun⟩

end Fate

/-! ## Disks -/

/-- Entries by key. -/
structure Disk (K B : Type) [LinearOrder K] where
  map : SortedMap K B
  sorted : map.Sorted

namespace Disk
variable {K B : Type} [LinearOrder K]

def empty : Disk K B := ⟨.empty, sorted_empty⟩

def get? (d : Disk K B) (k : K) : Option B := d.map.get? k

def put (d : Disk K B) (k : K) (b : B) : Disk K B :=
  ⟨d.map.insert k b, sorted_insert d.sorted k b⟩

def del (d : Disk K B) (k : K) : Disk K B := ⟨d.map.erase k, sorted_erase d.sorted k⟩

def keys (d : Disk K B) : List K := d.map.keys

@[simp] theorem get?_put (d : Disk K B) (k k' b) :
    (d.put k b).get? k' = if k' = k then some b else d.get? k' := get?_insert _ _ _ _

@[simp] theorem get?_del (d : Disk K B) (k k') :
    (d.del k).get? k' = if k' = k then none else d.get? k' := get?_erase _ _ _

theorem mem_keys {d : Disk K B} : k ∈ d.keys ↔ ∃ b, d.get? k = some b := by
  rw [keys, ← contains_iff_mem_keys, contains_iff_get?]
  rfl

theorem nodup_keys (d : Disk K B) : d.keys.Nodup := SortedMap.nodup_keys d.sorted

/-- The disks agree outside the keys that satisfy `p`. -/
def AgreeOff (p : K → Prop) (d d' : Disk K B) : Prop := ∀ k, ¬p k → d'.get? k = d.get? k

variable {p : K → Prop} {d d' d'' : Disk K B}

theorem AgreeOff.refl (p : K → Prop) (d : Disk K B) : AgreeOff p d d := fun _ _ => rfl

theorem AgreeOff.trans (h : AgreeOff p d d') (h' : AgreeOff p d' d'') : AgreeOff p d d'' :=
  fun k hk => (h' k hk).trans (h k hk)

theorem agreeOff_put (hk : p k) (b) : AgreeOff p d (d.put k b) := by
  intro k' hk'
  rw [get?_put, if_neg (fun h => hk' (by rwa [h]))]

/-! ## Commands -/

inductive Cmd (K B : Type) where
  | exist (k : K)
  | read (k : K)
  | create (k : K) (b : B)
  | overwrite (k : K) (b : B)
  | copy (source destination : K)
  | rename (source destination : K)
  | remove (k : K)
  | list (p : K → Bool)
  | other

/-- The answer to a command; `Except Unit` for one that may fail. Reading what is not there is
    not an error here. -/
def Answer : Cmd K B → Type
  | .exist _ => Bool
  | .read _ => Except Unit (Option B)
  | .list _ => Except Unit (List K)
  | .create _ _ | .overwrite _ _ | .copy _ _ | .rename _ _ | .remove _ | .other => Except Unit Unit

def exec (order : List K → List K) (c : Cmd K B) (fate : Fate B) (d : Disk K B) :
    Option (Answer c) × Disk K B :=
  match c with
  | .exist k => look fate d (d.get? k).isSome
  | .read k => inspect fate d (.ok (d.get? k))
  | .list p => inspect fate d (.ok (order (d.keys.filter p)))
  | .create k b => change fate d (some (if (d.get? k).isSome then d else d.put k b))
  | .overwrite k b => refill fate d (d.put k) b
  | .copy a b => match d.get? a with
    | none => change fate d none
    | some content => refill fate d (d.put b) content
  | .rename a b => change fate d ((d.get? a).map (fun content => (d.del a).put b content))
  | .remove k => change fate d ((d.get? k).map (fun _ => d.del k))
  | .other => change fate d (some d)

end Disk

/-! ## A record of what has happened -/

namespace Prog
variable {C : Type} {R : C → Type} {A S F : Type}

/-- The machine with a record of commands and fates. -/
def logged (exec : (c : C) → F → S → Option (R c) × S) (c : C) (fate : F) (s : S × List (C × F)) :
    Option (R c) × (S × List (C × F)) :=
  ((exec c fate s.1).1, ((exec c fate s.1).2, s.2 ++ [(c, fate)]))

/-- What holds of the states with a record holds of the states without one. -/
theorem Holds.of_logged {exec : (c : C) → F → S → Option (R c) × S} {allowed : F → Prop}
    {I : S → Prop} {p : Prog C R A} {Q : A → S → Prop}
    (h : p.Holds (logged exec) allowed (fun s => I s.1) (fun a s => Q a s.1) s) :
    p.Holds exec allowed I Q s.1 := by
  induction p generalizing s with
  | ret a => exact h
  | call c k ih =>
    exact fun fate hf => ⟨(h fate hf).1, fun r hr => ih r ((h fate hf).2 r hr)⟩

theorem HoldsE.of_logged {E : Type} {exec : (c : C) → F → S → Option (R c) × S} {allowed : F → Prop}
    {I : S → Prop} {p} {Q : A → S → Prop} {X : E → S → Prop}
    (h : HoldsE (logged exec) allowed (fun s => I s.1) p (fun a s => Q a s.1) (fun e s => X e s.1) s) :
    HoldsE exec allowed I p Q X s.1 :=
  Holds.of_logged (Holds.post h (fun r _ hr => match r with
    | .ok _ => hr
    | .error _ => hr))

end Prog
end MdCrdt.Lib
