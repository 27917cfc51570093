import Mathlib.Data.String.Basic
import MdCrdt.Core.OpId

/- Last-writer-wins registers (`core/mod.rs`) and mark sets (`core/mark.rs`).

  A mark interval is set under its own id and removed under that id; of several
  removes of one interval the one with the largest id is kept. -/
namespace MdCrdt
open Lib

structure LwwRegister (T : Type) where
  value : T
  opId : OpId
  deriving DecidableEq, Repr

namespace LwwRegister
variable {T : Type}

def set (r : LwwRegister T) (value : T) (opId : OpId) : LwwRegister T :=
  if r.opId ≤ opId then ⟨value, opId⟩ else r

end LwwRegister

inductive MarkKind where
  | bold | italic | code | link
  | custom (name : String)
  deriving DecidableEq, Repr

inductive MarkValue where
  | string (s : String)
  | bool (b : Bool)
  deriving DecidableEq, Repr

inductive AnchorBias where
  | before | after
  deriving DecidableEq, Repr

structure Anchor where
  elemId : OpId
  bias : AnchorBias
  deriving DecidableEq, Repr

structure MarkInterval where
  id : OpId
  kind : MarkKind
  start : Anchor
  stop : Anchor
  attrs : SortedMap String (LwwRegister MarkValue)
  opId : OpId
  deriving DecidableEq, Repr

structure RemoveMark where
  observed : StateVector
  opId : OpId
  deriving DecidableEq

/-- Set and removed intervals of one block. -/
structure MarkSet where
  intervals : SortedMap OpId MarkInterval
  removes : SortedMap OpId RemoveMark
  deriving DecidableEq

namespace MarkSet

def new : MarkSet := ⟨.empty, .empty⟩

/-- `entry(key).and_modify(set).or_insert_with(new)`. -/
def setAttr (attrs : SortedMap String (LwwRegister MarkValue)) (key : String) (value : MarkValue)
    (opId : OpId) : SortedMap String (LwwRegister MarkValue) :=
  match attrs.get? key with
  | some reg => attrs.insert key (reg.set value opId)
  | none => attrs.insert key ⟨value, opId⟩

def setMark (m : MarkSet) (intervalId : OpId) (kind : MarkKind) (start stop : Anchor)
    (attrs : SortedMap String MarkValue) (opId : OpId) : MarkSet :=
  let entry := (m.intervals.get? intervalId).getD
    ⟨intervalId, kind, start, stop, .empty, opId⟩
  let updated : MarkInterval := if entry.opId ≤ opId then
      ⟨entry.id, kind, start, stop, entry.attrs, opId⟩
    else entry
  let attrs := attrs.entries.foldl (fun acc kv => setAttr acc kv.1 kv.2 opId) updated.attrs
  { m with intervals := m.intervals.insert intervalId { updated with attrs := attrs } }

def removeMark (m : MarkSet) (intervalId : OpId) (observed : StateVector) (opId : OpId) : MarkSet :=
  if (m.removes.get? intervalId).any (fun existing => opId ≤ existing.opId) then m
  else { m with removes := m.removes.insert intervalId ⟨observed, opId⟩ }

/-- Keep of both the entry with the larger id. -/
def mergeNewest {V : Type} (opId : V → OpId) (m other : SortedMap OpId V) : SortedMap OpId V :=
  other.entries.foldl (fun acc e =>
    if (acc.get? e.1).any (fun existing => opId e.2 ≤ opId existing) then acc
    else acc.insert e.1 e.2) m

/-- Merge the mark history of a block whose units are appended here. -/
def mergeFrom (m other : MarkSet) : MarkSet :=
  { intervals := mergeNewest MarkInterval.opId m.intervals other.intervals
    removes := mergeNewest RemoveMark.opId m.removes other.removes }

def interval (m : MarkSet) (intervalId : OpId) : Option MarkInterval := m.intervals.get? intervalId

/-- The interval is set and no remove saw it. -/
def isActive (m : MarkSet) (intervalId : OpId) : Bool :=
  match m.intervals.get? intervalId with
  | none => false
  | some interval => (m.removes.get? intervalId).all (fun remove =>
      remove.observed.seen interval.id.peer < interval.id.counter)

end MarkSet
end MdCrdt
