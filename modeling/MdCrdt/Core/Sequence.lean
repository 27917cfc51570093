import Mathlib.Data.List.Sort
import MdCrdt.Lib.OrderedForest
import MdCrdt.Core.OpId

/- The replicated sequence (`core/mod.rs`, `Sequence`), as the default build
  computes it: every insert rebuilds the whole order.

  An element names the element it was inserted after (`after`) and the right
  neighbour it had then (`rightOrigin`). The order of the elements is the
  preorder walk of the `after` tree, siblings sorted by `compareSiblings`.
  An insert whose anchor is unknown waits in `pendingInserts` under the anchor,
  a delete whose target is unknown in `pendingDeletes` under the target;
  `processPending` drains both through a work queue.

  Correspondence (Rust ↔ Lean):
    `element_map` of `rebuild_order` ↔ `elementMap`
    `children` of `rebuild_order`, sorted ↔ `children`
    `walk_children` ↔ `Lib.walk`
    the `while` loop of `process_pending` ↔ `drainStep`, `drainQueue`
  The `feature = "sequence_incremental"` branches are off in this build. -/
namespace MdCrdt
open Lib SortedMap

structure Element (T : Type) where
  id : OpId
  value : Option T
  after : Option OpId
  rightOrigin : Option OpId
  deriving DecidableEq, Repr

inductive SequenceOp (T : Type) where
  | insert (after : Option OpId) (id : OpId) (value : T) (rightOrigin : Option OpId)
  | delete (target : OpId) (id : OpId)
  deriving DecidableEq, Repr

structure Sequence (T : Type) where
  elements : List (Element T)
  index : SortedMap OpId Nat
  pendingInserts : SortedMap OpId (List (SequenceOp T))
  pendingDeletes : SortedMap OpId (List (SequenceOp T))
  deriving DecidableEq, Repr

/-- The order among elements inserted after the same anchor. -/
def compareSiblings {T : Type} (a b : Element T) : Ordering :=
  match a.rightOrigin, b.rightOrigin with
  | some ra, some rb => if ra = rb then compare b.id a.id else compare ra rb
  | some _, none => .lt
  | none, some _ => .gt
  | none, none => compare b.id a.id

/-- `a` may stand in front of `b`. -/
def SiblingLe {T : Type} (a b : Element T) : Prop := compareSiblings a b ≠ .gt

instance {T : Type} : DecidableRel (SiblingLe (T := T)) :=
  fun a b => inferInstanceAs (Decidable (compareSiblings a b ≠ .gt))

namespace Sequence
variable {T : Type}

def new : Sequence T := ⟨[], empty, empty, empty⟩

instance : Inhabited (Sequence T) := ⟨new⟩

/-- Values of the elements that are not tombstones, in order. -/
def iter (s : Sequence T) : List T := s.elements.filterMap Element.value

def lenVisible (s : Sequence T) : Nat := (s.elements.filter (fun e => e.value.isSome)).length

def elementIds (s : Sequence T) : List OpId := s.elements.map Element.id

def getElement (s : Sequence T) (id : OpId) : Option (Element T) :=
  (s.index.get? id).bind (fun i => s.elements[i]?)

/-- Replace the value of the element `id`, a tombstone included. -/
def updateValue (s : Sequence T) (id : OpId) (value : T) : Sequence T :=
  match s.index.get? id with
  | some i => { s with elements := s.elements.modify i (fun e => { e with value := some value }) }
  | none => s

/-- The live value of the element `id`. -/
def value? (s : Sequence T) (id : OpId) : Option T := (s.getElement id).bind Element.value

/-- Mutate the value of the element `id` in place; nothing happens to an unknown or
    tombstoned element. -/
def withValue (s : Sequence T) (id : OpId) (f : T → T) : Sequence T :=
  match s.index.get? id with
  | some i => { s with elements := s.elements.modify i (fun e => { e with value := e.value.map f }) }
  | none => s

def rebuildIndex (elements : List (Element T)) : SortedMap OpId Nat :=
  elements.zipIdx.foldl (fun m e => m.insert e.1.id e.2) empty

def elementMap (elements : List (Element T)) : SortedMap OpId (Element T) :=
  elements.foldl (fun m e => m.insert e.id e) empty

/-- The elements anchored at `p`, in sibling order. -/
def siblings (elements : List (Element T)) (p : Option OpId) : List (Element T) :=
  (elements.filter (fun e => e.after = p)).insertionSort SiblingLe

def children (elements : List (Element T)) (p : Option OpId) : List OpId :=
  (siblings elements p).map Element.id

/-- The elements in rebuilt order. The source moves each element out of the map with
    `remove` where this looks it up: the walk meets every id once. -/
def orderElements (elements : List (Element T)) : List (Element T) :=
  let map := elementMap elements
  (walk (children map.values) map.size none).filterMap map.get?

def rebuildOrder (s : Sequence T) : Sequence T :=
  let elements := orderElements s.elements
  { s with elements := elements, index := rebuildIndex elements }

/-- A sequence holding `items` in the given order, each anchored at the one before it. -/
def fromOrdered (items : List (OpId × T)) : Sequence T :=
  let elements := items.zipIdx.map (fun p =>
    { id := p.1.1, value := some p.1.2, rightOrigin := none,
      after := if p.2 = 0 then none else (items[p.2 - 1]?).map Prod.fst })
  { elements := elements, index := rebuildIndex elements,
    pendingInserts := empty, pendingDeletes := empty }

/-- Insert an element whose anchor is known; the flag says whether the id is now present. -/
def applyInsertInternal (s : Sequence T) (after : Option OpId) (id : OpId) (value : T)
    (rightOrigin : Option OpId) (rebuild : Bool) : Sequence T × Bool :=
  if s.index.contains id then (s, true)
  else if after.any (fun anchor => !s.index.contains anchor) then (s, false)
  else
    let element : Element T := ⟨id, some value, after, rightOrigin⟩
    let s' := { s with elements := s.elements ++ [element] }
    if rebuild then (s'.rebuildOrder, true)
    else ({ s' with index := s.index.insert id s.elements.length }, true)

def applyInsert (s : Sequence T) (after : Option OpId) (id : OpId) (value : T)
    (rightOrigin : Option OpId) : Sequence T × Bool :=
  s.applyInsertInternal after id value rightOrigin true

/-- Tombstone the target; the flag says whether it is known. -/
def applyDelete (s : Sequence T) (target : OpId) : Sequence T × Bool :=
  match s.index.get? target with
  | none => (s, false)
  | some i => ({ s with elements := s.elements.modify i (fun e => { e with value := none }) }, true)

/-- `entry(key).or_default().push(op)`. -/
def pushPending (m : SortedMap OpId (List (SequenceOp T))) (key : OpId) (op : SequenceOp T) :
    SortedMap OpId (List (SequenceOp T)) :=
  m.insert key ((m.get? key).getD [] ++ [op])

/-- Buffer an insert under its anchor. -/
def bufferInsert (s : Sequence T) (after : Option OpId) (id : OpId) (value : T)
    (rightOrigin : Option OpId) : Sequence T :=
  match after with
  | none => s
  | some anchor =>
    { s with pendingInserts :=
        pushPending s.pendingInserts anchor (.insert (some anchor) id value rightOrigin) }

/-- Buffer a delete under its target. -/
def bufferDelete (s : Sequence T) (target id : OpId) : Sequence T :=
  { s with pendingDeletes := pushPending s.pendingDeletes target (.delete target id) }

def applyNow (s : Sequence T) : SequenceOp T → Sequence T × Option OpId
  | .insert after id value rightOrigin =>
    match s.applyInsert after id value rightOrigin with
    | (s', true) => (s', some id)
    | (_, false) => (s.bufferInsert after id value rightOrigin, none)
  | .delete target id =>
    match s.applyDelete target with
    | (s', true) => (s', none)
    | (_, false) => (s.bufferDelete target id, none)

/-- Move the operations waiting for `id` behind the queue, inserts first. -/
def enqueuePending (s : Sequence T) (id : OpId) (queue : List (SequenceOp T)) :
    Sequence T × List (SequenceOp T) :=
  ({ s with pendingInserts := s.pendingInserts.erase id,
            pendingDeletes := s.pendingDeletes.erase id },
    queue ++ (s.pendingInserts.get? id).getD [] ++ (s.pendingDeletes.get? id).getD [])

def pendingOps (s : Sequence T) : List (SequenceOp T) :=
  (s.pendingInserts.values ++ s.pendingDeletes.values).flatten

/-- Operations waiting in either buffer. -/
def pendingCount (s : Sequence T) : Nat :=
  s.pendingInserts.total List.length + s.pendingDeletes.total List.length

/-- One turn of the work-queue loop, for the operation taken off the queue; the flag says
    whether an insert went through. A refused operation goes back to its buffer. -/
def drainStep (s : Sequence T) (queue : List (SequenceOp T)) :
    SequenceOp T → Sequence T × List (SequenceOp T) × Bool
  | .insert after id value rightOrigin =>
    match s.applyInsertInternal after id value rightOrigin false with
    | (s', true) => ((s'.enqueuePending id queue).1, (s'.enqueuePending id queue).2, true)
    | (_, false) => (s.bufferInsert after id value rightOrigin, queue, false)
  | .delete target id =>
    match s.applyDelete target with
    | (s', true) => (s', queue, false)
    | (_, false) => (s.bufferDelete target id, queue, false)

def drainQueue : Nat → Sequence T → List (SequenceOp T) → Bool → Sequence T × Bool
  | 0, s, _, inserted => (s, inserted)
  | _ + 1, s, [], inserted => (s, inserted)
  | n + 1, s, op :: queue, inserted =>
    let turn := s.drainStep queue op
    drainQueue n turn.1 turn.2.1 (inserted || turn.2.2)

/-- What a turn of the loop makes smaller: an operation that goes through leaves the total for
    good, and between two of them the queue only gets shorter. -/
def drainLoad (s : Sequence T) (queue : List (SequenceOp T)) : Nat :=
  (s.pendingCount + queue.length) * (s.pendingCount + queue.length) + queue.length

def processPending (s : Sequence T) (insertedId : OpId) : Sequence T :=
  let (s', queue) := s.enqueuePending insertedId []
  let (s'', inserted) := drainQueue (drainLoad s' queue) s' queue false
  if inserted then s''.rebuildOrder else s''

def apply (s : Sequence T) (op : SequenceOp T) : Sequence T :=
  match s.applyNow op with
  | (s', some insertedId) => s'.processPending insertedId
  | (s', none) => s'

def applyAll (s : Sequence T) (ops : List (SequenceOp T)) : Sequence T := ops.foldl apply s

/-- The element that stands right behind the anchor, or first for `none`. -/
def computeRightOrigin (s : Sequence T) (after : Option OpId) : Option OpId :=
  let position := match after with
    | none => 0
    | some anchor => (s.index.get? anchor).getD 0 + 1
  (s.elements[position]?).map Element.id

def insert (s : Sequence T) (after : Option OpId) (value : T) (id : OpId) : Sequence T :=
  s.apply (.insert after id value (s.computeRightOrigin after))

def delete (s : Sequence T) (target id : OpId) : Sequence T := s.apply (.delete target id)

end Sequence
end MdCrdt
