import MdCrdt.Doc.Parser

/- From blocks to Markdown (`doc/serialize.rs`, `doc/inline.rs`, the half that writes, and
  `resolved_intervals` of `core/mark.rs`).

  A text block is written with the delimiters of its active marks. Of several links over
  one grapheme the newest is written; intervals with the same delimiters that meet are
  merged; wherever an interval starts or ends, the delimiters of those that are open and
  should not be are closed from the innermost on, and the ones that should be open are
  opened again.

  Correspondence (Rust ↔ Lean):
    `link_winners[i]` ↔ `linkWinner`
    the loop that turns winners into ranges ↔ `linkRanges`
    the loop over `ranges[1..]` ↔ `mergeRanges`
    the final loop of `serialize_text` ↔ `switchDelimiters`, `emitFrom`
    the loops of `serialize_list` over items, children ↔ `itemElementsLines`,
      `childElementsLines` -/
namespace MdCrdt
open Lib List

/-! ## Marks -/

namespace MarkSet

def activeIntervals (m : MarkSet) : List MarkInterval :=
  m.intervals.values.filter (fun interval => m.isActive interval.id)

/-- `resolve_anchor` with the length of the visible text given apart. -/
def resolveAnchorIn (anchor : Anchor) (order : List OpId) (visibleLen : Nat) : Nat :=
  -- the index map keeps the last of several equal ids
  let base := ((order.zipIdx.reverse.find? (fun p => p.1 = anchor.elemId)).map Prod.snd).getD 0
  match anchor.bias with
  | .before => base
  | .after => min (base + 1) visibleLen

def resolveAnchor (anchor : Anchor) (order : List OpId) : Nat :=
  resolveAnchorIn anchor order order.length

/-- Active intervals as ranges of visible graphemes. -/
def resolvedIntervals (m : MarkSet) (order : List OpId) : List (MarkInterval × Nat × Nat) :=
  m.activeIntervals.map (fun interval =>
    let start := resolveAnchor interval.start order
    let stop := resolveAnchor interval.stop order
    (interval, min start stop, max start stop))

end MarkSet

def delimiterAttr (interval : MarkInterval) : Option String :=
  (interval.attrs.get? "delimiter").bind (fun value => match value.value with
    | .string value => some value
    | .bool _ => none)

def hrefAttr (interval : MarkInterval) : String :=
  ((interval.attrs.get? "href").bind (fun value => match value.value with
    | .string value => some value
    | .bool _ => none)).getD ""

/-- The delimiter of an interval, given the one of a link. -/
def delimiter (interval : MarkInterval) (link : String) : String :=
  match interval.kind with
  | .bold => (delimiterAttr interval).getD "**"
  | .italic => (delimiterAttr interval).getD "*"
  | .code => (delimiterAttr interval).getD "\x60"
  | .link => link
  | .custom _ => ""

def openDelimiter (interval : MarkInterval) : String := delimiter interval "["

def closeDelimiter (interval : MarkInterval) : String :=
  delimiter interval ("](" ++ hrefAttr interval ++ ")")

def markNestingRank : MarkKind → Nat
  | .link => 0
  | .bold => 1
  | .italic => 2
  | .code => 3
  | .custom _ => 4

/-- The place of a kind in the derived order, with the name of a custom one. -/
def MarkKind.orderKey : MarkKind → Nat ×ₗ String
  | .bold => toLex (0, "")
  | .italic => toLex (1, "")
  | .code => toLex (2, "")
  | .link => toLex (3, "")
  | .custom name => toLex (4, name)

/-- Intervals with the same kind and delimiters are merged. -/
def renderKey (interval : MarkInterval) : (Nat ×ₗ String) ×ₗ String ×ₗ String :=
  toLex (interval.kind.orderKey, toLex (openDelimiter interval, closeDelimiter interval))

/-- The newest of the links over a grapheme. -/
def linkWinner (links : List (MarkInterval × Nat × Nat)) (index : Nat) : Option MarkInterval :=
  links.foldl (fun winner link =>
    if link.2.1 ≤ index ∧ index < link.2.2 then
      match winner with
      | some current =>
        if toLex (current.opId, current.id) < toLex (link.1.opId, link.1.id) then some link.1
        else winner
      | none => some link.1
    else winner) none

/-- Stretches with one winner, from `start` on; `last` is the one that is being read. -/
def linkRanges (start index : Nat) (last : Option MarkInterval) :
    List (Option MarkInterval) → List (MarkInterval × Nat × Nat)
  | [] => last.toList.map (fun winner => (winner, start, index))
  | next :: rest =>
    if last.isSome && (last.map MarkInterval.id = next.map MarkInterval.id) then
      linkRanges start (index + 1) last rest
    else last.toList.map (fun winner => (winner, start, index)) ++
      linkRanges index (index + 1) next rest

/-- Merge the ranges of one group that meet; the interval with the smallest id stands for all. -/
def mergeRanges (representative : MarkInterval) (start stop : Nat) :
    List (MarkInterval × Nat × Nat) → List (MarkInterval × Nat × Nat)
  | [] => [(representative, start, stop)]
  | (interval, nextStart, nextStop) :: rest =>
    if nextStart ≤ stop then
      mergeRanges (if interval.id < representative.id then interval else representative) start
        (max stop nextStop) rest
    else (representative, start, stop) :: mergeRanges interval nextStart nextStop rest

def rangeKey (range : MarkInterval × Nat × Nat) : Nat ×ₗ Nat ×ₗ OpId :=
  toLex (range.2.1, toLex (range.2.2, range.1.id))

/-- The ranges to write, group by group. -/
def mergedIntervals (projected : List (MarkInterval × Nat × Nat)) :
    List (MarkInterval × Nat × Nat) :=
  let groups := projected.foldl (fun groups range =>
    let key := renderKey range.1
    groups.insert key ((groups.get? key).getD [] ++ [range]))
    (.empty : SortedMap _ (List (MarkInterval × Nat × Nat)))
  groups.values.flatMap (fun ranges =>
    match ranges.insertionSort (fun a b => rangeKey a ≤ rangeKey b) with
    | [] => []
    | (interval, start, stop) :: rest => mergeRanges interval start stop rest)

/-- Outer intervals first: those that start earlier, end later, rank lower. -/
def nestingKey (range : MarkInterval × Nat × Nat) : Nat ×ₗ Natᵒᵈ ×ₗ Nat ×ₗ OpId :=
  toLex (range.2.1, toLex (OrderDual.toDual range.2.2,
    toLex (markNestingRank range.1.kind, range.1.id)))

/-- The number of intervals two stacks have in common from the outermost on. -/
def sharedDepth : List MarkInterval → List MarkInterval → Nat
  | a :: as, b :: bs => if a.id = b.id then sharedDepth as bs + 1 else 0
  | _, _ => 0

/-- What is active and open from `index` on, and the delimiters written in front of it. -/
def switchDelimiters (intervals : List (MarkInterval × Nat × Nat)) (index : Nat)
    (active : List (MarkInterval × Nat × Nat)) (openStack : List MarkInterval) :
    List (MarkInterval × Nat × Nat) × List MarkInterval × List String :=
  let ending := (intervals.filter (fun range => range.2.2 = index)).map (fun range => range.1.id)
  let starting := intervals.filter (fun range => range.2.1 = index)
  if ending.isEmpty && starting.isEmpty then (active, openStack, [])
  else
    let active := ((active.filter (fun range => range.1.id ∉ ending)) ++ starting).insertionSort
      (fun a b => nestingKey a ≤ nestingKey b)
    let desired := active.map Prod.fst
    let shared := sharedDepth openStack desired
    (active, desired, (openStack.drop shared).reverse.map closeDelimiter ++
      (desired.drop shared).map openDelimiter)

/-- The graphemes from `index` on with the delimiters between them. -/
def emitFrom (intervals : List (MarkInterval × Nat × Nat)) (index : Nat)
    (active : List (MarkInterval × Nat × Nat)) (openStack : List MarkInterval) :
    List String → List String
  | [] => (switchDelimiters intervals index active openStack).2.2
  | grapheme :: rest =>
    let turn := switchDelimiters intervals index active openStack
    turn.2.2 ++ grapheme :: emitFrom intervals (index + 1) turn.1 turn.2.1 rest

def serializeText (marks : MarkSet) (text : Sequence TextUnit) : List Char :=
  let ids := paragraphVisibleIds text
  let graphemes := text.iter.map TextUnit.grapheme
  let resolved := marks.resolvedIntervals ids
  if resolved.isEmpty then (String.join graphemes).toList
  else
    let valid := resolved.filter (fun range => range.2.1 < range.2.2 ∧ range.2.2 ≤ graphemes.length)
    let links := valid.filter (fun range => range.1.kind = .link)
    let projected := valid.filter (fun range => range.1.kind ≠ .link) ++
      linkRanges 0 0 none ((range graphemes.length).map (linkWinner links))
    (String.join (emitFrom (mergedIntervals projected) 0 [] [] graphemes)).toList

/-! ## Tables -/

namespace Table

def rowCells (t : Table) (rowId : BlockId) : List String :=
  t.columnsInOrder.map (fun column => (t.cellValue rowId column.id).getD "")

end Table

def escapeTableCell (cell : String) : List Char :=
  cell.toList.flatMap (fun c => if c = '\\' || c = '|' then ['\\', c] else [c])

/-- Cells between bars. -/
def tableLine (cells : List (List Char)) : List Char :=
  ['|', ' '] ++ intercalate [' ', '|', ' '] cells ++ [' ', '|']

def resize (count : Nat) (cells : List String) : List String :=
  cells.take count ++ replicate (count - cells.length) ""

def alignmentMarker : ColumnAlignment → List Char
  | .left => ['-', '-', '-']
  | .center => [':', '-', '-', '-', ':']
  | .right => ['-', '-', '-', ':']

def serializeTable (t : Table) : List Char :=
  let columns := t.columnsInOrder
  let header := t.rowCells t.headerRowId
  let rows := (t.rows.iter.filter (fun row => !row.deleted.value)).map (fun row => t.rowCells row.id)
  let colCount := rows.foldl (fun count row => max count row.length)
    (max header.length columns.length)
  if colCount = 0 then []
  else
    let line := fun cells => tableLine ((resize colCount cells).map escapeTableCell)
    let alignments := (range colCount).map (fun idx =>
      alignmentMarker (((columns[idx]?).map (fun column => column.alignment.value)).getD .left))
    joinLines (line header :: tableLine alignments :: rows.map line)

/-! ## Blocks -/

def listMarker (style : ListStyle) (n : Nat) : List Char :=
  if style.ordered then
    (toString (min (style.start + n) 999999999)).toList ++
      [match style.delimiter with | .period => '.' | .parenthesis => ')', ' ']
  else [match style.bullet with | .dash => '-' | .plus => '+' | .asterisk => '*', ' ']

def taskMarker : Option TaskState → List Char
  | some .unchecked => ['[', ' ', ']', ' ']
  | some .checked => ['[', 'x', ']', ' ']
  | none => []

def quoteLine (line : List Char) : List Char := if line.isEmpty then ['>'] else '>' :: ' ' :: line

/-- A child behind the marker: its first line follows it, the others are indented. -/
def firstChildLines (pad head body : List Char) : List (List Char) :=
  (head ++ (lines body).head?.getD []) :: (lines body).tail.map (fun line => pad ++ [' ', ' '] ++ line)

/-- A later child: a blank line, then its lines, indented. -/
def laterChildLines (pad body : List Char) : List (List Char) :=
  [] :: (lines body).map (fun line => pad ++ [' ', ' '] ++ line)

mutual

def serializeBlock : Block → List Char
  | ⟨_, _, _, _, kind, marks⟩ => serializeKind marks kind

def serializeKind (marks : MarkSet) : BlockKind → List Char
  | .paragraph text => serializeText marks text
  | .heading level text =>
    replicate (max 1 (min level 6)) '#' ++ ' ' :: serializeText marks text
  | .list style items _ => joinLines (listLines style 0 items)
  | .codeFence style info text =>
    let fence := replicate (max style.length 3) (fenceChar style.marker)
    fence ++ (info.getD "").toList ++ '\n' :: text.toList ++ '\n' :: fence
  | .blockQuote children =>
    -- children that come to nothing are skipped
    let rendered := (serializeSequence children).filter (fun output => !(trim output).isEmpty)
    if rendered.isEmpty then []
    else joinLines ((lines (intercalate ['\n', '\n'] rendered)).map quoteLine)
  | .rawBlock raw => raw.toList
  | .table table => serializeTable table

def serializeSequence : Sequence Block → List (List Char)
  | ⟨elements, _, _, _⟩ => serializeElements elements

def serializeElements : List (Element Block) → List (List Char)
  | [] => []
  | ⟨_, none, _, _⟩ :: rest => serializeElements rest
  | ⟨_, some block, _, _⟩ :: rest => serializeBlock block :: serializeElements rest

/-- The lines of a list. -/
def listLines (style : ListStyle) (indent : Nat) : Sequence ListItem → List (List Char)
  | ⟨elements, _, _, _⟩ => itemElementsLines style indent 0 elements

def itemElementsLines (style : ListStyle) (indent n : Nat) :
    List (Element ListItem) → List (List Char)
  | [] => []
  | ⟨_, none, _, _⟩ :: rest => itemElementsLines style indent n rest
  | ⟨_, some item, _, _⟩ :: rest =>
    (if style.loose && decide (0 < n) then [[]] else []) ++
      itemLines indent (replicate indent ' ' ++ listMarker style n) item ++
      itemElementsLines style indent (n + 1) rest

def itemLines (indent : Nat) (marker : List Char) : ListItem → List (List Char)
  | ⟨_, _, task, _, _, _, ⟨elements, _, _, _⟩⟩ =>
    if elements.all (fun e => e.value.isNone) then [marker ++ taskMarker task]
    else childElementsLines indent (marker ++ taskMarker task) 0 elements

def childElementsLines (indent : Nat) (head : List Char) (ci : Nat) :
    List (Element Block) → List (List Char)
  | [] => []
  | ⟨_, none, _, _⟩ :: rest => childElementsLines indent head ci rest
  | ⟨_, some child, _, _⟩ :: rest =>
    childLines indent head ci child ++ childElementsLines indent head (ci + 1) rest

def childLines (indent : Nat) (head : List Char) (ci : Nat) : Block → List (List Char)
  | ⟨_, _, _, _, .list style items _, _⟩ =>
    (if ci = 0 then [head] else []) ++ [joinLines (listLines style (indent + 2) items)]
  | ⟨_, _, _, _, kind, marks⟩ =>
    let body := serializeKind marks kind
    let pad := replicate indent ' '
    if ci = 0 then firstChildLines pad head body else laterChildLines pad body

end

/-! ## Structural equivalence -/

/-- Lines without blanks at their end; of several blank lines in a row one is kept. -/
def collapseBlank (previousBlank : Bool) : List (List Char) → List (List Char)
  | [] => []
  | line :: rest =>
    let trimmed := trimEnd line
    if trimmed.isEmpty then
      if previousBlank then collapseBlank true rest else [] :: collapseBlank true rest
    else trimmed :: collapseBlank false rest

def normalizeStructural (text : List Char) : List Char :=
  let collapsed := (collapseBlank false (lines text)).dropWhile isEmpty
  joinLines ((collapsed.reverse.dropWhile isEmpty).reverse)

end MdCrdt
