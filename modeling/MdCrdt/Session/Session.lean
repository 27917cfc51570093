import MdCrdt.Session.Wire
import MdCrdt.Sync.State

/- A collaborative session (`session/mod.rs`): document, operation log and peer clock.

  A local call checks its arguments against the document, builds one envelope,
  applies it and writes it to the log. `applyRemote` decodes and checks a whole
  message first and then integrates its operations one by one; an operation that
  names what its author had observed waits until the log has reached that frontier.

  Correspondence (Rust ↔ Lean):
    `&mut self` methods that leave the session as it was on an error
      ↔ functions into `Except SessionError (Session × _)`
    the last lines of every such method ↔ `commitSingleId`
    the `loop` of `drain_deferred` ↔ `drainDeferredLoop`
  Counters are natural numbers. The source saturates or overflows at the last 64-bit counter;
  `Session/Extents.lean` and `Session/Overflow.lean` say up to where the two agree.
  Methods that only call others (`insert_paragraph`, `insert_draft_in`,
  `insert_table_in`, `set_table_row_cells`, `set_table_metadata`) are in
  `Session/Calls.lean`. -/
namespace MdCrdt
open Lib Serde

inductive StructuredEditError where
  | depth (maxDepth : Nat)
  | items (maxItems : Nat)
  | bytes (maxBytes : Nat)
  | headingLevel
  | codeFence
  | codeFenceInfo
  | orderedListStart
  deriving DecidableEq, Repr

inductive SessionError where
  | codec (error : CodecError)
  | validation (error : ValidationError)
  | unknownWireVersion (version : Nat)
  | operationIdMismatch
  | peerMismatch
  | nonEmptyParagraphOnInsertBlock
  | missingAfterAnchor
  | missingDeleteTarget
  | nonEmptyTableOnInsertBlock
  | blockNotFound
  | notParagraph
  | notTable
  | tableRowNotFound
  | tableColumnNotFound
  | invalidTableShape
  | invalidTableCell
  | blocksNotAdjacent
  | invalidOffset
  | invalidHeadingLevel
  | invalidMove
  | moveCycle
  | structuredEdit (error : StructuredEditError)
  | notList
  | listItemNotFound
  | notCodeFence
  | notRawBlock
  | frontmatter (error : FrontmatterError)
  deriving Repr

def codecErr : CodecError → SessionError
  | .unknownVersion version => .unknownWireVersion version
  | e => .codec e

/-! ## Argument checks -/

def maxOrderedListStart : Nat := 999999999

def validateListStyle (style : ListStyle) : Except SessionError Unit :=
  if style.ordered && decide (maxOrderedListStart < style.start) then
    .error (.structuredEdit .orderedListStart)
  else .ok ()

/-- The length of the longest run of the marker at the start of a trimmed line. -/
def longestFence (marker : Char) (text : String) : Nat :=
  ((text.toList.splitOn '\n').map (fun line =>
    ((line.dropWhile isWhitespace).takeWhile (· = marker)).length)).foldl max 0

def validateCodeFence (style : CodeFenceStyle) (info : Option String) (text : String) :
    Except SessionError Unit :=
  if style.length < 3 || decide (style.length ≤ longestFence (fenceChar style.marker) text) then
    .error (.structuredEdit .codeFence)
  else if info.any (fun info => info.contains '\r' || info.contains '\n' ||
      (decide (style.marker = .backtick) && info.contains '\x60')) then
    .error (.structuredEdit .codeFenceInfo)
  else .ok ()

def validateTableCell (value : String) : Except SessionError Unit :=
  if value.toList.contains '\r' || value.toList.contains '\n' then .error .invalidTableCell
  else .ok ()

mutual

def validateBlockSkeleton : BlockKindSkeleton → Except SessionError Unit
  | .paragraph _ | .rawBlock _ | .table => .ok ()
  | .heading level _ => if 1 ≤ level ∧ level ≤ 6 then .ok () else .error .invalidHeadingLevel
  | .list style items => do
    validateListStyle style
    validateItemSkeletons items
  | .codeFence style info text => validateCodeFence style info text
  | .blockQuote children => validateChildSkeletons children

def validateChildSkeletons : List BlockSkeletonInsert → Except SessionError Unit
  | [] => .ok ()
  | ⟨_, _, _, ⟨_, kind⟩⟩ :: rest => do
    validateBlockSkeleton kind
    validateChildSkeletons rest

def validateItemSkeletons : List ListItemSkeleton → Except SessionError Unit
  | [] => .ok ()
  | ⟨_, _, _, _, _, _, children⟩ :: rest => do
    validateChildSkeletons children
    validateItemSkeletons rest

end

def envelopeObservedFrontier (envelope : Envelope) : Option StateVector :=
  match envelope.body with
  | .doc (.removeMark _ _ _ _ observed) | .doc (.setTableCell _ _ _ _ _ _ observed)
  | .doc (.setTableColumnAlignment _ _ _ _ _ observed)
  | .doc (.moveTableRow _ _ _ _ _ _ _ observed) | .doc (.moveTableColumn _ _ _ _ _ _ _ observed)
  | .doc (.moveListItem _ _ _ _ _ _ _ _ observed) | .doc (.setListStyle _ _ _ _ observed)
  | .doc (.setListItemTask _ _ _ observed) | .doc (.setCodeFence _ _ _ _ _ _ observed)
  | .doc (.convertTextBlock _ _ _ _ observed) | .doc (.replaceRawBlock _ _ _ _ observed) =>
    some observed
  | _ => none

/-! ## Sessions -/

variable [Segmentation] [Serde]

structure Session where
  peer : PeerId
  nextCounter : Nat
  document : Document
  sync : SyncState Payload
  unitMode : Bool
  pendingEnvelopes : SortedMap OpId Envelope

structure SessionApplyResult where
  applied : List OpId
  buffered : List OpId

abbrev Outcome := Except SessionError (Session × OpId)

namespace Session

def withMode (peer : PeerId) (unitMode : Bool) : Session :=
  ⟨peer, 1, .new, .new, unitMode, .empty⟩

def new (peer : PeerId) : Session := withMode peer true

def stateVector (s : Session) : StateVector := s.sync.stateVector

def peekNextId (s : Session) : OpId := ⟨s.nextCounter, s.peer⟩

def encodeChangesSince (s : Session) (since : StateVector) :
    Except RebaseRequired (ChangeMessage Payload) :=
  s.sync.encodeChangesSince since

/-- Encode, apply, log, advance the clock. -/
def commitSingleId (s : Session) (op : DocOp) (id : OpId) : Outcome :=
  match encode op.envelope with
  | .error e => .error (codecErr e)
  | .ok payload =>
    .ok ({ s with document := applyEnvelopeToDocument s.document op.envelope,
                  sync := s.sync.addLocalOp ⟨id, payload⟩,
                  nextCounter := id.counter + 1 }, id)

/-! ## Blocks -/

def insertBlockIn (s : Session) (parent after : Option OpId) (kind : BlockKind) : Outcome := do
  let some children := s.document.containerChildren parent | .error .missingAfterAnchor
  if after.any (fun a => (children.getElement a).isNone) then .error .missingAfterAnchor
  let blockElem : OpId := ⟨s.nextCounter, s.peer⟩
  let rightOrigin := s.document.computeChildRightOrigin parent after
  let some skeleton := blockKindToSkeleton s.unitMode kind | .error .nonEmptyTableOnInsertBlock
  validateBlockSkeleton skeleton
  if !kindPeersOk s.peer skeleton then .error .peerMismatch
  let op : DocOp := .insertBlock parent after blockElem rightOrigin
    ⟨blockIdFromOp blockElem, skeleton⟩
  if s.unitMode && !insertBlockParagraphIsEmpty op.envelope then
    .error .nonEmptyParagraphOnInsertBlock
  let (s', _) ← s.commitSingleId op (operationExtent op.envelope).1
  .ok (s', blockElem)

def deleteBlockIn (s : Session) (parent : Option OpId) (target : OpId) : Outcome := do
  let some block := (s.document.containerChildren parent).bind (fun children =>
    children.value? target) | .error .missingDeleteTarget
  s.commitSingleId (.deleteBlockById parent target block.id s.peekNextId) s.peekNextId

/-! ## Lists -/

def insertListItem (s : Session) (listId : BlockId) (after : Option OpId)
    (task : Option TaskState) : Outcome := do
  let some list := s.document.findBlockById listId | .error .blockNotFound
  let .list _ items _ := list.kind | .error .notList
  if after.any (fun anchor => (items.getElement anchor).isNone) then .error .missingAfterAnchor
  s.commitSingleId (.insertListItem list.elemId listId after s.peekNextId
    (items.computeRightOrigin after) task) s.peekNextId

def deleteListItem (s : Session) (itemId : BlockId) : Outcome := do
  let some (_, listElem, target) := s.document.listItemPlacement itemId | .error .listItemNotFound
  let some list := s.document.findBlock listElem | .error .notList
  s.commitSingleId (.deleteListItemById listElem list.id target itemId s.peekNextId) s.peekNextId

def moveListItem (s : Session) (itemId listId : BlockId) (after : Option OpId) : Outcome := do
  let some (_, fromListElem, target) := s.document.listItemPlacement itemId
    | .error .listItemNotFound
  let some destination := s.document.findBlockById listId | .error .blockNotFound
  let .list _ items _ := destination.kind | .error .notList
  if after.any (fun anchor => (items.getElement anchor).isNone) || decide (after = some target) then
    .error .invalidMove
  s.commitSingleId (.moveListItem fromListElem destination.elemId listId itemId target s.peekNextId
    after (items.computeRightOrigin after) s.stateVector) s.peekNextId

/-! ## Registers -/

def setListStyle (s : Session) (listId : BlockId) (style : ListStyle) : Outcome := do
  validateListStyle style
  let some block := s.document.findBlockById listId | .error .blockNotFound
  let .list _ _ _ := block.kind | .error .notList
  s.commitSingleId (.setListStyle block.elemId listId s.peekNextId style s.stateVector) s.peekNextId

def setListItemTask (s : Session) (itemId : BlockId) (task : Option TaskState) : Outcome := do
  let some _ := s.document.findListItemById itemId | .error .listItemNotFound
  s.commitSingleId (.setListItemTask itemId s.peekNextId task s.stateVector) s.peekNextId

def setCodeFence (s : Session) (blockId : BlockId) (style : CodeFenceStyle) (info : Option String)
    (text : String) : Outcome := do
  validateCodeFence style info text
  let some block := s.document.findBlockById blockId | .error .blockNotFound
  let .codeFence _ _ _ := block.kind | .error .notCodeFence
  s.commitSingleId (.setCodeFence block.elemId blockId s.peekNextId style info text s.stateVector)
    s.peekNextId

def convertTextBlock (s : Session) (blockId : BlockId) (kind : TextBlockKindWire) : Outcome := do
  let some block := s.document.findBlockById blockId | .error .blockNotFound
  if (blockTextSeq block.kind).isNone then .error .notParagraph
  match kind with
  | .heading level =>
    if ¬(1 ≤ level ∧ level ≤ 6) then .error .invalidHeadingLevel
  | .paragraph => pure ()
  s.commitSingleId (.convertTextBlock block.elemId blockId s.peekNextId kind s.stateVector)
    s.peekNextId

def replaceRawBlock (s : Session) (blockId : BlockId) (raw : String) : Outcome := do
  let some block := s.document.findBlockById blockId | .error .blockNotFound
  let .rawBlock _ := block.kind | .error .notRawBlock
  s.commitSingleId (.replaceRawBlock block.elemId blockId s.peekNextId raw s.stateVector)
    s.peekNextId

/-! ## Tables -/

/-- The block and the table under a block id. -/
def tableBlock (s : Session) (tableId : BlockId) : Except SessionError (Block × Table) := do
  let some block := s.document.findBlockById tableId | .error .blockNotFound
  let .table table := block.kind | .error .notTable
  .ok (block, table)

def insertTableColumn (s : Session) (tableId : BlockId) (after : Option OpId)
    (alignment : ColumnAlignment) (header : String) : Outcome := do
  validateTableCell header
  let (block, table) ← s.tableBlock tableId
  if after.any (fun id => (table.columns.getElement id).isNone) then .error .tableColumnNotFound
  s.commitSingleId (.insertTableColumn block.elemId tableId after s.peekNextId
    (table.columns.computeRightOrigin after) (alignmentToWire alignment) header) s.peekNextId

def insertTableRow (s : Session) (tableId : BlockId) (after : Option OpId)
    (cells : List String) : Outcome := do
  cells.forM validateTableCell
  let (block, table) ← s.tableBlock tableId
  if after.any (fun id => (table.rows.getElement id).isNone) then .error .tableRowNotFound
  let columnIds := table.columnsInOrder.map TableColumn.id
  if cells.length ≠ columnIds.length then .error .invalidTableShape
  s.commitSingleId (.insertTableRow block.elemId tableId after s.peekNextId
    (table.rows.computeRightOrigin after)
    ((columnIds.zip cells).map (fun cell => ⟨cell.1, cell.2⟩))) s.peekNextId

def setTableCell (s : Session) (tableId rowId columnId : BlockId) (value : String) : Outcome := do
  validateTableCell value
  let (block, table) ← s.tableBlock tableId
  if rowId ≠ table.headerRowId ∧ (table.rowById rowId).isNone then .error .tableRowNotFound
  if (table.columnById columnId).isNone then .error .tableColumnNotFound
  s.commitSingleId (.setTableCell block.elemId tableId rowId columnId s.peekNextId value
    s.stateVector) s.peekNextId

def deleteTableRow (s : Session) (tableId : BlockId) (target : OpId) : Outcome := do
  let (block, table) ← s.tableBlock tableId
  let some row := table.rows.value? target | .error .tableRowNotFound
  s.commitSingleId (.deleteTableRowById block.elemId tableId target row.id s.peekNextId)
    s.peekNextId

def setTableColumnAlignment (s : Session) (tableId columnId : BlockId)
    (alignment : ColumnAlignment) : Outcome := do
  let (block, table) ← s.tableBlock tableId
  if (table.columnById columnId).isNone then .error .tableColumnNotFound
  s.commitSingleId (.setTableColumnAlignment block.elemId tableId columnId s.peekNextId
    (alignmentToWire alignment) s.stateVector) s.peekNextId

def deleteTableColumn (s : Session) (tableId columnId : BlockId) : Outcome := do
  let (block, table) ← s.tableBlock tableId
  let some column := table.columnById columnId | .error .tableColumnNotFound
  s.commitSingleId (.deleteTableColumnById block.elemId tableId column.elemId columnId
    s.peekNextId) s.peekNextId

def moveTableColumn (s : Session) (tableId columnId : BlockId) (after : Option OpId) : Outcome := do
  let (block, table) ← s.tableBlock tableId
  let some column := table.columnById columnId | .error .tableColumnNotFound
  if decide (after = some column.elemId) ||
      after.any (fun anchor => (table.columns.getElement anchor).isNone) then .error .invalidMove
  s.commitSingleId (.moveTableColumn block.elemId tableId columnId column.elemId s.peekNextId after
    (table.columns.computeRightOrigin after) s.stateVector) s.peekNextId

def moveTableRow (s : Session) (tableId rowId : BlockId) (after : Option OpId) : Outcome := do
  let (block, table) ← s.tableBlock tableId
  let some row := table.rowById rowId | .error .tableRowNotFound
  if decide (after = some row.elemId) ||
      after.any (fun anchor => (table.rows.getElement anchor).isNone) then .error .invalidMove
  s.commitSingleId (.moveTableRow block.elemId tableId rowId row.elemId s.peekNextId after
    (table.rows.computeRightOrigin after) s.stateVector) s.peekNextId

/-! ## Text and marks -/

/-- The units of a paste: the first one at the given place, each other behind the one before. -/
def pasteUnits (peer : PeerId) (counter : Nat) (after rightOrigin : Option OpId) :
    List String → List TextUnitWire
  | [] => []
  | g :: rest => ⟨⟨counter, peer⟩, after, rightOrigin, g⟩ ::
      pasteUnits peer (counter + 1) (some ⟨counter, peer⟩) none rest

def insertText (s : Session) (blockId : BlockId) (graphemeOffset : Nat) (text : String) :
    Except SessionError (Session × Option OpId) :=
  if text.isEmpty then .ok (s, none) else do
  let some block := s.document.findBlockById blockId | .error .blockNotFound
  let some body := blockTextSeq block.kind | .error .notParagraph
  if body.lenVisible < graphemeOffset then .error .invalidOffset
  let after := afterForGraphemeOffset body graphemeOffset
  let units := pasteUnits s.peer s.nextCounter after (body.computeRightOrigin after)
    (Segmentation.graphemes text)
  if units.isEmpty then .ok (s, none) else
  let op : DocOp := .insertText block.elemId blockId units
  let (s', opId) ← s.commitSingleId op (operationExtent op.envelope).1
  .ok (s', some opId)

def deleteText (s : Session) (blockId : BlockId) (graphemeOffset graphemeCount : Nat) :
    Except SessionError (Session × Option OpId) :=
  if graphemeCount = 0 then .ok (s, none) else do
  let some block := s.document.findBlockById blockId | .error .blockNotFound
  let some body := blockTextSeq block.kind | .error .notParagraph
  let ids := paragraphVisibleIds body
  if ids.length < graphemeOffset + graphemeCount then .error .invalidOffset
  let (s', opId) ← s.commitSingleId (.deleteText block.elemId blockId s.peekNextId
    ((ids.drop graphemeOffset).take graphemeCount)) s.peekNextId
  .ok (s', some opId)

/-- Anchors of a non-empty range of visible units. -/
def graphemeRangeToAnchors (body : Sequence TextUnit) (start stop : Nat) :
    Option (Anchor × Anchor) :=
  let ids := paragraphVisibleIds body
  if stop ≤ start ∨ ids.length < stop then none
  else (ids[start]?).bind (fun first => (ids[stop - 1]?).map (fun last =>
    (⟨first, .before⟩, ⟨last, .after⟩)))

def setMark (s : Session) (blockId : BlockId) (start stop : Nat) (kind : MarkKind)
    (attrs : SortedMap String MarkValue) : Outcome := do
  let some block := s.document.findBlockById blockId | .error .blockNotFound
  let some (first, last) := (blockTextSeq block.kind).bind (fun body =>
    graphemeRangeToAnchors body start stop) | .error .invalidOffset
  s.commitSingleId (.setMark block.elemId blockId s.peekNextId kind first last attrs) s.peekNextId

def removeMark (s : Session) (blockId : BlockId) (intervalId : OpId) : Outcome := do
  let some block := s.document.findBlockById blockId | .error .blockNotFound
  let some _ := block.marks.interval intervalId | .error .invalidOffset
  s.commitSingleId (.removeMark block.elemId blockId intervalId s.peekNextId s.stateVector)
    s.peekNextId

def setFrontmatterField (s : Session) (key : String) (value : Option String) : Outcome := do
  match (s.document.frontmatter.getD Frontmatter.empty).set key value s.peekNextId with
  | .error e => .error (.frontmatter e)
  | .ok _ => s.commitSingleId (.setFrontmatterField s.peekNextId key value) s.peekNextId

def initializeFrontmatter (s : Session) (frontmatter : Frontmatter) :
    Except SessionError (Session × Option OpId) :=
  if s.document.frontmatter.isSome then .ok (s, none) else do
  let (s', id) ← s.commitSingleId (.initializeFrontmatter s.peekNextId frontmatter) s.peekNextId
  .ok (s', some id)

/-! ## Moving blocks -/

/-- Ids and elements of the blocks to move; they stand in one container and none holds the
    destination. -/
def moveTargets (d : Document) (toParent : Option OpId) (sourceParent : Option (Option OpId)) :
    List BlockId → Except SessionError (List (BlockId × OpId))
  | [] => .ok []
  | blockId :: rest => do
    let some block := d.findBlockById blockId | .error .blockNotFound
    let some parent := d.blockParent blockId | .error .invalidMove
    if sourceParent.any (fun source => source ≠ parent) then .error .invalidMove
    if toParent.any (fun candidate => d.blockContainsContainer blockId candidate) then
      .error .moveCycle
    let targets ← moveTargets d toParent (some parent) rest
    .ok ((block.id, block.elemId) :: targets)

/-- Placements one behind the other under consecutive ids, the first one at the given place. -/
def placements (peer : PeerId) (counter : Nat) (after rightOrigin : Option OpId) :
    List (BlockId × OpId) → List MovedBlockWire
  | [] => []
  | (blockId, target) :: rest =>
    ⟨blockId, target, ⟨counter, peer⟩, after, rightOrigin⟩ ::
      placements peer (counter + 1) (some ⟨counter, peer⟩) none rest

def moveBlockIds (s : Session) (blockIds : List BlockId) (toParent after : Option OpId) :
    Outcome := do
  if blockIds.isEmpty then .error .invalidMove
  let some destination := s.document.containerChildren toParent | .error .invalidMove
  if after.any (fun anchor => (destination.getElement anchor).isNone) then
    .error .missingAfterAnchor
  let targets ← moveTargets s.document toParent none blockIds
  if after.any (fun anchor => targets.any (fun t => t.2 = anchor)) then .error .invalidMove
  let moves := placements s.peer s.nextCounter after (destination.computeRightOrigin after) targets
  let id := ((moves.getLast?).map MovedBlockWire.id).getD s.peekNextId
  s.commitSingleId (.moveBlocks toParent id moves) id

def moveBlock (s : Session) (blockId : BlockId) (toParent after : Option OpId) : Outcome :=
  s.moveBlockIds [blockId] toParent after

/-- The heading at the head of the list and what belongs to its section. -/
def sectionIds (level : Nat) (blocks : List Block) : List BlockId :=
  (blocks.take 1 ++ (blocks.drop 1).takeWhile (fun block => match block.kind with
    | .heading next _ => !decide (next ≤ level)
    | _ => true)).map Block.id

def moveSection (s : Session) (headingId : BlockId) (after : Option OpId) : Outcome := do
  let blocks := s.document.blocks.iter.dropWhile (fun block => block.id ≠ headingId)
  let some heading := blocks.head? | .error .blockNotFound
  let .heading level _ := heading.kind | .error .invalidMove
  s.moveBlockIds (sectionIds level blocks) none after

/-- Insert an empty blockquote in front of the blocks and move them into it. The quote stays
    if the move is refused. -/
def wrapBlocks (s : Session) (blockIds : List BlockId) : Session × Except SessionError BlockId :=
  match blockIds.head? with
  | none => (s, .error .invalidMove)
  | some first => match s.document.blockParent first with
    | none => (s, .error .blockNotFound)
    | some parent => match s.document.containerChildren parent with
      | none => (s, .error .invalidMove)
      | some siblings =>
        let ordered := siblings.iter.map Block.id
        match ordered.findIdx? (fun id => id = first) with
        | none => (s, .error .blockNotFound)
        | some start =>
          if ordered.length < start + blockIds.length ∨
              (ordered.drop start).take blockIds.length ≠ blockIds ∨
              blockIds.any (fun id => s.document.blockParent id ≠ some parent) then
            (s, .error .invalidMove)
          else
            let after := if start = 0 then none
              else (ordered[start - 1]?).bind s.document.blockElemId
            match s.insertBlockIn parent after (.blockQuote .new) with
            | .error e => (s, .error e)
            | .ok (s', quoteElem) => match s'.moveBlockIds blockIds (some quoteElem) none with
              | .error e => (s', .error e)
              | .ok (s'', _) => (s'', .ok (blockIdFromOp quoteElem))

/-- Move the children of a blockquote in front of it and delete it. The children stay moved if
    the delete is refused. -/
def unwrapBlockquote (s : Session) (blockId : BlockId) : Session × Except SessionError OpId :=
  match s.document.findBlockById blockId with
  | none => (s, .error .blockNotFound)
  | some block => match block.kind with
    | .blockQuote children => match s.document.blockParent blockId with
      | none => (s, .error .invalidMove)
      | some parent => match s.document.containerChildren parent with
        | none => (s, .error .invalidMove)
        | some siblings => match siblings.iter.findIdx? (fun b => b.id = blockId) with
          | none => (s, .error .blockNotFound)
          | some index =>
            let after := if index = 0 then none
              else (siblings.iter[index - 1]?).map Block.elemId
            let childIds := children.iter.map Block.id
            let moved := if childIds.isEmpty then .ok (s, s.peekNextId)
              else s.moveBlockIds childIds parent after
            match moved with
            | .error e => (s, .error e)
            | .ok (s', _) => match s'.deleteBlockIn parent block.elemId with
              | .error e => (s', .error e)
              | .ok (s'', id) => (s'', .ok id)
    | _ => (s, .error .invalidMove)

/-! ## Splitting and merging text blocks -/

def textBlockKind : BlockKind → Option (Sequence TextUnit × TextBlockKindWire)
  | .paragraph text => some (text, .paragraph)
  | .heading level text => some (text, .heading level)
  | _ => none

/-- Visible units of a text body with their ids. -/
def visibleUnits (body : Sequence TextUnit) : List (OpId × String) :=
  body.elements.filterMap (fun e => e.value.map (fun unit => (e.id, unit.grapheme)))

def splitBlockIn (s : Session) (parent : Option OpId) (blockId : BlockId) (graphemeOffset : Nat) :
    Outcome := do
  let some children := s.document.containerChildren parent | .error .blockNotFound
  let some block := children.iter.find? (fun block => block.id = blockId) | .error .blockNotFound
  let some (body, kind) := textBlockKind block.kind | .error .notParagraph
  if body.lenVisible < graphemeOffset then .error .invalidOffset
  let units := ((visibleUnits body).drop graphemeOffset).map (fun u => ⟨u.1, u.1, u.2⟩)
  s.commitSingleId (.splitBlock parent block.elemId s.peekNextId (blockIdFromOp s.peekNextId)
    (s.document.computeChildRightOrigin parent (some block.elemId)) kind units) s.peekNextId

/-- Units to append: an id that the destination already holds is replaced by a fresh one. -/
def mergeUnits (peer : PeerId) (occupied : List OpId) (counter : Nat) :
    List (OpId × String) → List MovedTextUnitWire
  | [] => []
  | (sourceId, grapheme) :: rest =>
    if sourceId ∈ occupied then
      ⟨sourceId, ⟨counter, peer⟩, grapheme⟩ :: mergeUnits peer occupied (counter + 1) rest
    else ⟨sourceId, sourceId, grapheme⟩ :: mergeUnits peer occupied counter rest

def mergeBlocksIn (s : Session) (parent : Option OpId) (leftId rightId : BlockId) : Outcome := do
  let some children := s.document.containerChildren parent | .error .blockNotFound
  let visible := children.iter
  let some leftPos := visible.findIdx? (fun block => block.id = leftId) | .error .blockNotFound
  let some rightPos := visible.findIdx? (fun block => block.id = rightId) | .error .blockNotFound
  if rightPos ≠ leftPos + 1 then .error .blocksNotAdjacent
  let some left := visible[leftPos]? | .error .blockNotFound
  let some right := visible[rightPos]? | .error .blockNotFound
  let some leftBody := blockTextSeq left.kind | .error .notParagraph
  let some rightBody := blockTextSeq right.kind | .error .notParagraph
  let after := (paragraphVisibleIds leftBody).getLast?
  let units := mergeUnits s.peer leftBody.elementIds (s.nextCounter + 1) (visibleUnits rightBody)
  let op : DocOp := .mergeBlocks parent left.elemId right.elemId s.peekNextId after
    (leftBody.computeRightOrigin after) units
  s.commitSingleId op (operationExtent op.envelope).1

/-! ## Remote operations -/

/-- Every peer counter the envelope names has been reached. -/
def observedFrontierIsReady (s : Session) (envelope : Envelope) : Bool :=
  match envelopeObservedFrontier envelope with
  | none => true
  | some observed => observed.peers.entries.all (fun e => e.2 ≤ s.stateVector.seen e.1)

def applyOrDefer (s : Session) (id : OpId) (envelope : Envelope) (result : SessionApplyResult) :
    Session × SessionApplyResult :=
  if !s.observedFrontierIsReady envelope then
    ({ s with pendingEnvelopes := s.pendingEnvelopes.insert id envelope },
      if id ∈ result.buffered then result
      else { result with buffered := result.buffered ++ [id] })
  else
    ({ s with document := applyEnvelopeToDocument s.document envelope },
      ⟨if id ∈ result.applied then result.applied else result.applied ++ [id],
        result.buffered.filter (fun pending => pending ≠ id)⟩)

/-- Apply or defer operations that the log has promoted. -/
def applyPromoted (s : Session) (result : SessionApplyResult) :
    List (Operation Payload) → Session × Except SessionError SessionApplyResult
  | [] => (s, .ok result)
  | promoted :: rest =>
    match s.pendingEnvelopes.get? promoted.id with
    | some envelope =>
      let s := { s with pendingEnvelopes := s.pendingEnvelopes.erase promoted.id }
      let (s, result) := s.applyOrDefer promoted.id envelope result
      s.applyPromoted result rest
    | none => match decode promoted.payload with
      | .error e => (s, .error (codecErr e))
      | .ok envelope =>
        let (s, result) := s.applyOrDefer promoted.id envelope result
        s.applyPromoted result rest

def drainPromoted (s : Session) (result : SessionApplyResult) :
    Session × Except SessionError SessionApplyResult :=
  let (sync, promoted) := s.sync.promoteReadyPending
  { s with sync := sync }.applyPromoted result promoted

def readyDeferred (s : Session) : List OpId :=
  (s.pendingEnvelopes.entries.filter (fun e =>
    s.sync.contains e.1 && s.observedFrontierIsReady e.2)).map Prod.fst

def applyDeferred (s : Session) (result : SessionApplyResult) :
    List OpId → Session × SessionApplyResult
  | [] => (s, result)
  | id :: rest =>
    match s.pendingEnvelopes.get? id with
    | some envelope =>
      let s := { s with pendingEnvelopes := s.pendingEnvelopes.erase id }
      let (s, result) := s.applyOrDefer id envelope result
      s.applyDeferred result rest
    | none => s.applyDeferred result rest

/-- Passes over the deferred envelopes that have become ready; every pass takes them all off. -/
def drainDeferredLoop : Nat → Session → SessionApplyResult → Session × SessionApplyResult
  | 0, s, result => (s, result)
  | n + 1, s, result =>
    if s.readyDeferred.isEmpty then (s, result)
    else
      let (s', result') := s.applyDeferred result s.readyDeferred
      drainDeferredLoop n s' result'

def drainDeferred (s : Session) (result : SessionApplyResult) : Session × SessionApplyResult :=
  drainDeferredLoop (s.pendingEnvelopes.size + 1) s result

/-- Decode and check the operations that are new to the log, given how the extent of an
    operation is computed. -/
def prepareOpsBy (extent : Envelope → OpId × Nat) (unitMode : Bool) (sync : SyncState Payload) :
    List (Operation Payload) → Except SessionError (List (Operation Payload × Envelope))
  | [] => .ok []
  | op :: rest =>
    if sync.contains op.id then prepareOpsBy extent unitMode sync rest
    else if op.id.counter = 0 then
      .error (.validation (.malformedOperation op.id .zeroCounter))
    else match decode op.payload with
      | .error e => .error (codecErr e)
      | .ok env => do
        if env.version ≠ wireVersion then .error (.unknownWireVersion env.version)
        match env.body with
        | .doc (.insertBlock _ _ _ _ block) => validateBlockSkeleton block.kind
        | _ => pure ()
        if unitMode && !insertBlockParagraphIsEmpty env then
          .error .nonEmptyParagraphOnInsertBlock
        if op.id ≠ (extent env).1 then .error .operationIdMismatch
        if !peersConsistent op.id.peer env then .error .peerMismatch
        let prepared ← prepareOpsBy extent unitMode sync rest
        .ok ((op, env) :: prepared)

abbrev prepareOps (s : Session) :
    List (Operation Payload) → Except SessionError (List (Operation Payload × Envelope)) :=
  prepareOpsBy operationExtent s.unitMode s.sync

def integrateOps (s : Session) (result : SessionApplyResult) :
    List (Operation Payload × Envelope) → Session × Except SessionError SessionApplyResult
  | [] =>
    let (s, result) := s.drainDeferred result
    (s, .ok result)
  | (op, env) :: rest =>
    match s.sync.applyOne op (operationExtent env).2 with
    | (_, .alreadyPresent) => s.integrateOps result rest
    | (sync, .buffered) =>
      { s with sync := sync, pendingEnvelopes := s.pendingEnvelopes.insert op.id env }.integrateOps
        { result with buffered := result.buffered ++ [op.id] } rest
    | (sync, .applied) =>
      let (s, result) := { s with sync := sync }.applyOrDefer op.id env result
      match s.drainPromoted result with
      | (s, .error e) => (s, .error e)
      | (s, .ok result) =>
        let (s, result) := s.drainDeferred result
        s.integrateOps result rest

def applyRemote (s : Session) (message : ChangeMessage Payload) (limits : ValidationLimits) :
    Session × Except SessionError SessionApplyResult :=
  let deferredCount := (s.pendingEnvelopes.keys.filter (fun id => s.sync.contains id)).length
  match validateChanges Serde.length message limits (s.sync.pendingCount + deferredCount) with
  | .error e => (s, .error (.validation e))
  | .ok () => match s.prepareOps message.ops with
    | .error e => (s, .error e)
    | .ok prepared => s.integrateOps ⟨[], []⟩ prepared

end Session
end MdCrdt
