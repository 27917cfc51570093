import Mathlib.Data.Prod.Lex
import MdCrdt.Lib.SortedMap

/- Operation ids and state vectors (`core/mod.rs`).

  An `OpId` is ordered by counter, then by peer, as the derived `Ord` of the
  source orders it. A `StateVector` maps peers to the highest counter seen of
  each; a missing peer reads as counter 0 wherever the source writes
  `get(peer).unwrap_or(0)` (`StateVector.seen`).

  Counters and peer ids are natural numbers. Where the source adds to them without a
  check, or saturates, at the end of the range of `u64`, the bound is stated: see
  `Sync/Overflow.lean` and `Session/Overflow.lean`. -/
namespace MdCrdt
open Lib SortedMap

/-- `u64::MAX`. -/
def u64Max : Nat := 2 ^ 64 - 1

/-- `u64::saturating_add`. -/
def saturatingAdd (a b : Nat) : Nat := min (a + b) u64Max

abbrev PeerId := Nat

structure OpId where
  counter : Nat
  peer : PeerId
  deriving Repr

namespace OpId

/-- The pair the derived order compares. -/
def key (o : OpId) : Nat ×ₗ Nat := toLex (o.counter, o.peer)

theorem key_injective : Function.Injective key
  | ⟨_, _⟩, ⟨_, _⟩, h => by simpa [key] using h

instance : LinearOrder OpId := LinearOrder.lift' key key_injective

instance : LawfulBEq OpId := inferInstance

theorem lt_iff {a b : OpId} :
    a < b ↔ a.counter < b.counter ∨ (a.counter = b.counter ∧ a.peer < b.peer) :=
  Prod.Lex.lt_iff

theorem ext_iff' {a b : OpId} : a = b ↔ a.counter = b.counter ∧ a.peer = b.peer := by
  cases a; cases b; simp

end OpId

/-- Highest counter seen of each peer. -/
structure StateVector where
  peers : SortedMap PeerId Nat
  sorted : peers.Sorted
  deriving DecidableEq

namespace StateVector

def new : StateVector := ⟨.empty, sorted_empty⟩

instance : Inhabited StateVector := ⟨new⟩

def get (sv : StateVector) (peer : PeerId) : Option Nat := sv.peers.get? peer

def set (sv : StateVector) (peer : PeerId) (counter : Nat) : StateVector :=
  ⟨sv.peers.insert peer counter, sorted_insert sv.sorted peer counter⟩

/-- `get(peer).unwrap_or(0)`. -/
def seen (sv : StateVector) (peer : PeerId) : Nat := (sv.get peer).getD 0

/-- The vector has seen the counter of `id`. -/
def covers (sv : StateVector) (id : OpId) : Prop := id.counter ≤ sv.seen id.peer

instance (sv : StateVector) (id : OpId) : Decidable (sv.covers id) :=
  inferInstanceAs (Decidable (_ ≤ _))

@[simp] theorem seen_new (p) : new.seen p = 0 := rfl

@[simp] theorem seen_set (sv : StateVector) (p c q) :
    (sv.set p c).seen q = if q = p then c else sv.seen q := by
  unfold seen get set
  rw [get?_insert]
  split <;> rfl

end StateVector
end MdCrdt
