import MdCrdt.Doc.Document
import MdCrdt.Doc.Serialize

/- The source text of a document (`doc/source.rs`, `Parser::parse`, `serialize_with_config`).

  A parsed document keeps the text it was read from, and for every top-level block the
  bytes in front of it (its leading) and its own bytes (its body). In exact mode a block
  that has not been marked dirty is written with its original bytes; what has a region is
  found by the id of the block, what is dirty through two maps from the ids inside a block
  to the block, which are fixed when the source is adopted.

  Correspondence (Rust ↔ Lean):
    `Document` with its `source` ↔ `SourcedDocument`
    `index_block` over a list of blocks ↔ `rootsBy`
    the search for the end of the frontmatter ↔ `frontmatterAt`
    the loop of `render_with_frontmatter` ↔ `RenderState`, `renderBlock`
  `none` is a panic, as in `Doc/Inline.lean`. -/
namespace MdCrdt
open Lib Lib.Utf8 SortedMap

/-! ## Lines with their place in the text -/

structure SourceLine where
  text : List Char
  start : Nat
  contentEnd : Nat

/-- Pieces that end behind a line feed. -/
def splitInclusive : List Char → List (List Char)
  | [] => []
  | c :: rest =>
    if c = '\n' then [c] :: splitInclusive rest
    else match splitInclusive rest with
      | [] => [[c]]
      | segment :: segments => (c :: segment) :: segments

/-- A piece without its line feed and a carriage return in front of it. -/
def logicalLine (segment : List Char) : List Char :=
  if segment.getLast? = some '\n' then
    let line := segment.dropLast
    if line.getLast? = some '\r' then line.dropLast else line
  else segment

def sourceLinesFrom (start : Nat) : List (List Char) → List SourceLine
  | [] => []
  | segment :: segments =>
    let logical := logicalLine segment
    ⟨logical, start, start + size logical⟩ :: sourceLinesFrom (start + size segment) segments

def sourceLines (text : List Char) : List SourceLine := sourceLinesFrom 0 (splitInclusive text)

/-! ## Regions -/

structure SourceRegion where
  leadingStart : Nat
  leadingEnd : Nat
  bodyStart : Nat
  bodyEnd : Nat
  deriving DecidableEq, Repr

structure DocumentSource where
  original : List Char
  preambleEnd : Nat
  trailerStart : Nat
  order : List BlockId
  regions : SortedMap BlockId SourceRegion
  rootByBlock : SortedMap BlockId BlockId
  rootByElem : SortedMap OpId BlockId
  dirty : List BlockId
  deriving DecidableEq, Repr

mutual

/-- Block id and element id of a block and of everything live inside it. -/
def labels : Block → List (BlockId × OpId)
  | ⟨id, elemId, _, _, kind, _⟩ => (id, elemId) :: labelsKind kind

def labelsKind : BlockKind → List (BlockId × OpId)
  | .blockQuote children => labelsSequence children
  | .list _ items _ => labelsItems items
  | .paragraph _ | .heading _ _ | .codeFence _ _ _ | .rawBlock _ | .table _ => []

def labelsSequence : Sequence Block → List (BlockId × OpId)
  | ⟨elements, _, _, _⟩ => labelsElements elements

def labelsElements : List (Element Block) → List (BlockId × OpId)
  | [] => []
  | ⟨_, none, _, _⟩ :: rest => labelsElements rest
  | ⟨_, some block, _, _⟩ :: rest => labels block ++ labelsElements rest

def labelsItems : Sequence ListItem → List (BlockId × OpId)
  | ⟨elements, _, _, _⟩ => labelsItemElements elements

def labelsItemElements : List (Element ListItem) → List (BlockId × OpId)
  | [] => []
  | ⟨_, none, _, _⟩ :: rest => labelsItemElements rest
  | ⟨_, some item, _, _⟩ :: rest => labelsItem item ++ labelsItemElements rest

def labelsItem : ListItem → List (BlockId × OpId)
  | ⟨id, elemId, _, _, _, _, children⟩ => (id, elemId) :: labelsSequence children

end

/-- The ids inside each block with the id of the block, as they are put into the maps. -/
def rootEntries (blocks : List Block) : List ((BlockId × OpId) × BlockId) :=
  blocks.flatMap (fun block => (labels block).map (fun label => (label, block.id)))

/-- The map from the ids of one sort inside the blocks to the blocks. -/
def rootsBy {K : Type} [LinearOrder K] (key : BlockId × OpId → K) (blocks : List Block) :
    SortedMap K BlockId :=
  (rootEntries blocks).foldl (fun m e => m.insert (key e.1) e.2) empty

namespace DocumentSource

/-- Regions of blocks one behind the other, the first leading from `previousEnd` on. -/
def regionsFrom (previousEnd : Nat) : List (BlockId × Nat × Nat) → List (BlockId × SourceRegion)
  | [] => []
  | (id, start, stop) :: rest =>
    (id, ⟨previousEnd, start, start, stop⟩) :: regionsFrom stop rest

def new (original : List Char) (spans : List (BlockId × Nat × Nat)) (blocks : List Block) :
    DocumentSource :=
  let preambleEnd := (spans.head?.map (fun span => span.2.1)).getD (size original)
  { original := original
    preambleEnd := preambleEnd
    trailerStart := (spans.getLast?.map (fun span => span.2.2)).getD (size original)
    order := spans.map Prod.fst
    regions := (regionsFrom preambleEnd spans).foldl (fun m e => m.insert e.1 e.2) empty
    rootByBlock := rootsBy Prod.fst blocks
    rootByElem := rootsBy Prod.snd blocks
    dirty := [] }

/-- Give the regions, in their order, to other blocks. -/
def adoptFor (source : DocumentSource) (blocks : List Block) : Option DocumentSource :=
  if blocks.length ≠ source.order.length then none else do
  let regions ← (blocks.zip source.order).mapM (fun p =>
    (source.regions.get? p.2).map (fun region => (p.1.id, region)))
  some { source with
    order := blocks.map Block.id
    regions := regions.foldl (fun m e => m.insert e.1 e.2) empty
    rootByBlock := rootsBy Prod.fst blocks
    rootByElem := rootsBy Prod.snd blocks
    dirty := [] }

def markDirty (source : DocumentSource) (root : Option BlockId) : DocumentSource :=
  match root with
  | some root => { source with dirty := root :: source.dirty }
  | none => source

def markBlockDirty (source : DocumentSource) (blockId : BlockId) : DocumentSource :=
  source.markDirty (source.rootByBlock.get? blockId)

def markElemDirty (source : DocumentSource) (elemId : OpId) : DocumentSource :=
  source.markDirty (source.rootByElem.get? elemId)

/-! ## Rendering -/

/-- The preamble with other frontmatter. -/
def renderReplacedFrontmatter (source : DocumentSource) (frontmatter : List Char) :
    Option (List Char) := do
  let preamble ← takeBytes source.preambleEnd source.original
  let remainder ← (if ['-', '-', '-'].isPrefixOf preamble then do
      let firstLineEnd := ((find ['\n'] preamble).map (· + 1)).getD (size preamble)
      let behindFirst ← dropBytes firstLineEnd preamble
      match find ['\n', '-', '-', '-'] behindFirst with
      | none => some []
      | some relative =>
        let closing := firstLineEnd + relative + 1
        let behindClosing ← dropBytes closing preamble
        dropBytes (((find ['\n'] behindClosing).map (fun relative => closing + relative + 1)).getD
          (size preamble)) preamble
    else some preamble)
  some (['-', '-', '-', '\n'] ++ frontmatter ++ ['\n', '-', '-', '-', '\n'] ++ remainder)

/-- End the output with an empty line. -/
def ensureBlockSeparator (output : List Char) : List Char :=
  if ['\n', '\n'].isSuffixOf output then output
  else if ['\n'].isSuffixOf output then output ++ ['\n']
  else output ++ ['\n', '\n']

structure RenderState where
  output : List Char
  emittedBlock : Bool
  previousPosition : Option Nat

/-- The body of a block that has a region. -/
def renderBody (source : DocumentSource) (region : SourceRegion) (block : Block) :
    Option (List Char) :=
  if block.id ∈ source.dirty then some (serializeBlock block)
  else slice region.bodyStart region.bodyEnd source.original

def renderBlock (source : DocumentSource) (state : RenderState) (block : Block) :
    Option RenderState :=
  let separated := if state.emittedBlock || !state.output.isEmpty then
    ensureBlockSeparator state.output else state.output
  match source.regions.get? block.id with
  | some region => do
    let position := source.order.findIdx? (fun id => id = block.id)
    let follows := match state.previousPosition, position with
      | some previous, some current => previous + 1 = current
      | _, _ => false
    let front ← (if (!state.emittedBlock && position = some 0) || follows then
        (slice region.leadingStart region.leadingEnd source.original).map (state.output ++ ·)
      else some separated)
    let body ← source.renderBody region block
    some ⟨front ++ body, true, position⟩
  | none => some ⟨separated ++ serializeBlock block, true, none⟩

def renderWithFrontmatter (source : DocumentSource) (blocks : Sequence Block)
    (frontmatter : Option (List Char)) : Option (List Char) := do
  let preamble ← (match frontmatter with
    | none => takeBytes source.preambleEnd source.original
    | some frontmatter => source.renderReplacedFrontmatter frontmatter)
  let state ← blocks.iter.foldlM source.renderBlock ⟨preamble, false, none⟩
  if state.emittedBlock || !state.output.isEmpty then
    (dropBytes source.trailerStart source.original).map (state.output ++ ·)
  else some state.output

end DocumentSource

/-! ## Documents with their source -/

inductive EquivalenceMode where
  | exact | structural
  deriving DecidableEq, Repr

structure SerializeConfig where
  equivalence : EquivalenceMode
  preferRawSource : Bool
  deriving DecidableEq, Repr

structure SourcedDocument where
  document : Document
  source : Option DocumentSource

namespace SourcedDocument

/-- The document written anew. -/
def serializeAnew (d : Document) (equivalence : EquivalenceMode) : Option (List Char) := do
  let front ← (match d.frontmatter with
    | none => some []
    | some frontmatter => frontmatter.render.map (fun rendered =>
      ['-', '-', '-', '\n'] ++ rendered.toList ++ ['\n', '-', '-', '-', '\n', '\n']))
  let output := front ++ List.intercalate ['\n', '\n'] (d.blocks.iter.map serializeBlock)
  some (match equivalence with
    | .exact => output
    | .structural => normalizeStructural output)

def serializeWithConfig (d : SourcedDocument) (config : SerializeConfig) : Option (List Char) :=
  match config.equivalence, config.preferRawSource, d.source with
  | .exact, true, some source => do
    let replacement ← (match d.document.frontmatter with
      | none => some none
      | some frontmatter =>
        if frontmatter.isDirty then frontmatter.render.map (fun rendered => some rendered.toList)
        else some none)
    source.renderWithFrontmatter d.document.blocks replacement
  | equivalence, _, _ => serializeAnew d.document equivalence

def serialize (d : SourcedDocument) (mode : EquivalenceMode) : Option (List Char) :=
  d.serializeWithConfig ⟨mode, true⟩

/-- The kinds have one discriminant. -/
def sameVariant : BlockKind → BlockKind → Bool
  | .paragraph _, .paragraph _ | .heading _ _, .heading _ _ | .list _ _ _, .list _ _ _
  | .codeFence _ _ _, .codeFence _ _ _ | .blockQuote _, .blockQuote _
  | .rawBlock _, .rawBlock _ | .table _, .table _ => true
  | _, _ => false

/-- Take the source of a parsed document over, if its blocks are of the same kinds. -/
def adoptSourceFrom (d parsed : SourcedDocument) : SourcedDocument :=
  { d with source := parsed.source.bind (fun source =>
      let current := d.document.blocks.iter
      let parsedBlocks := parsed.document.blocks.iter
      if current.length ≠ parsedBlocks.length ||
          (current.zip parsedBlocks).any (fun p => !sameVariant p.1.kind p.2.kind) then none
      else source.adoptFor current) }

end SourcedDocument

/-! ## Parsing -/

/-- The frontmatter between two lines of dashes at the top, and the index of the first line
    behind it. -/
def frontmatterAt (lines : List (List Char)) : Option (Option Frontmatter × Nat) :=
  match lines with
  | [] => some (none, 0)
  | first :: rest =>
    if trim first = ['-', '-', '-'] then
      let fmLines := rest.takeWhile (fun line => trim line ≠ ['-', '-', '-'])
      if fmLines.length < rest.length then
        (Frontmatter.parse (String.ofList (joinLines fmLines))).map (fun frontmatter =>
          (some frontmatter, fmLines.length + 2))
      else some (none, 0)
    else some (none, 0)

/-- The bytes of a block's lines, without the end of the last one. -/
def byteSpan (sourceLines : List SourceLine) (startIndex : Nat) (parsed : Block × LineSpan) :
    Option (BlockId × Nat × Nat) := do
  let first ← sourceLines[startIndex + parsed.2.start]?
  let last ← sourceLines[startIndex + parsed.2.stop - 1]?
  some (parsed.1.id, first.start, last.contentEnd)

/-- `Parser::parse`. -/
def parseDocument [Segmentation] (text : List Char) : Option SourcedDocument := do
  let sourceLines := sourceLines text
  let lines := sourceLines.map SourceLine.text
  let (frontmatter, startIndex) ← frontmatterAt lines
  let body ← (if startIndex ≤ lines.length then some (lines.drop startIndex) else none)
  let (parsed, _) ← parseBlocksWithSpans (weight body + 1) body 0 1
  let byteSpans ← parsed.mapM (byteSpan sourceLines startIndex)
  let blocks := parsed.map Prod.fst
  let sequence := Sequence.fromOrdered (blocks.map (fun block => (block.elemId, block)))
  some ⟨⟨frontmatter, sequence⟩, some (DocumentSource.new text byteSpans blocks)⟩

end MdCrdt
