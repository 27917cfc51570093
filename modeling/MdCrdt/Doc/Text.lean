import MdCrdt.Core.Sequence

/- Block ids and text bodies (`doc/mod.rs`, `doc/text.rs`).

  A paragraph or heading body is a sequence of grapheme units. Segmentation into
  grapheme clusters is the work of an external library: it is a parameter
  (`Segmentation`), and nothing is assumed about it. -/
namespace MdCrdt
open Lib

/-- A 128-bit id, as its two halves. -/
structure BlockId where
  high : Nat
  low : Nat
  deriving Repr

namespace BlockId

def key (b : BlockId) : Nat ×ₗ Nat := toLex (b.high, b.low)

theorem key_injective : Function.Injective key
  | ⟨_, _⟩, ⟨_, _⟩, h => by simpa [key] using h

instance : LinearOrder BlockId := LinearOrder.lift' key key_injective

end BlockId

/-- The id of what an operation creates: the peer in the high half, the counter in the low. -/
def blockIdFromOp (op : OpId) : BlockId := ⟨op.peer, op.counter⟩

theorem blockIdFromOp_injective : Function.Injective blockIdFromOp
  | ⟨_, _⟩, ⟨_, _⟩, h => by
    obtain ⟨h1, h2⟩ := BlockId.mk.inj h
    exact congrArg₂ OpId.mk h2 h1

/-- One grapheme cluster; the id of its sequence element is the unit's identity. -/
structure TextUnit where
  grapheme : String
  deriving DecidableEq, Repr

/-- `UnicodeSegmentation::graphemes(s, true)`. -/
class Segmentation where
  graphemes : String → List String

/-- One grapheme per character: what segmentation does on plain text. -/
@[reducible] def charSegmentation : Segmentation := ⟨fun s => s.toList.map (fun c => String.ofList [c])⟩

section Units
variable [Segmentation]

def graphemeCount (s : String) : Nat := (Segmentation.graphemes s).length

/-- The units of a string, with ids from `counter` on. -/
def unitsFromStr (s : String) (counter : Nat) (peer : PeerId) : Sequence TextUnit :=
  Sequence.fromOrdered
    ((Segmentation.graphemes s).zipIdx.map (fun g => (⟨counter + g.2, peer⟩, ⟨g.1⟩)))

end Units

def paragraphVisibleString (seq : Sequence TextUnit) : String :=
  seq.iter.foldl (fun out unit => out ++ unit.grapheme) ""

/-- Ids of the visible units, in order. -/
def paragraphVisibleIds (seq : Sequence TextUnit) : List OpId :=
  (seq.elements.filter (fun e => e.value.isSome)).map Element.id

/-- The left anchor of an insert at a grapheme offset. -/
def afterForGraphemeOffset (seq : Sequence TextUnit) (graphemeOffset : Nat) : Option OpId :=
  if graphemeOffset = 0 then none else (paragraphVisibleIds seq)[graphemeOffset - 1]?

end MdCrdt
