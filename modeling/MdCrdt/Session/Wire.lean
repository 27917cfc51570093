import MdCrdt.Codec.Nesting

/- What a session does with envelopes (`session/wire.rs`): the ids an operation
  covers, the checks on what it embeds, and its effect on a document.

  Correspondence (Rust ↔ Lean):
    `apply_envelope_to_document` ↔ `applyEnvelopeToDocument`, `applyDocOp`
    `operation_extent`, `max_counter_in_kind` ↔ `operationExtent`, `maxCounterInKind`
    `span_of_payload` ↔ `spanOfPayload`
    `check_peer_consistency`, `check_kind_peers` ↔ `peersConsistent`, `kindPeersOk`
    `block_kind_to_skeleton` ↔ `blockKindToSkeleton`
    `kind_from_skeleton` ↔ `kindFromSkeleton`
  A loop over the children or items of a skeleton is a function of its own. The source adds
  saturating; below the last 64-bit counter it is the same (`operationExtent64_eq`). -/
namespace MdCrdt
open Lib

/-! ## The ids an operation covers -/

section Extent
variable [Segmentation]

mutual

/-- The highest counter an expanded skeleton uses below `parent`. -/
def maxCounterInKind (parent : OpId) : BlockKindSkeleton → Nat
  | .paragraph text | .heading _ text => parent.counter + graphemeCount text
  | .blockQuote children => maxCounterInChildren parent.counter children
  | .list _ items => maxCounterInItems parent.counter items
  | .codeFence _ _ _ | .rawBlock _ | .table => parent.counter

def maxCounterInChildren (hi : Nat) : List BlockSkeletonInsert → Nat
  | [] => hi
  | ⟨_, id, _, ⟨_, kind⟩⟩ :: rest =>
    maxCounterInChildren (max (max hi id.counter) (maxCounterInKind id kind)) rest

def maxCounterInItems (hi : Nat) : List ListItemSkeleton → Nat
  | [] => hi
  | ⟨_, id, _, _, _, taskOp, children⟩ :: rest =>
    maxCounterInItems (maxCounterInChildren (max (max hi id.counter) taskOp.counter) children) rest

end

/-- The id of an operation; an insertion of text has only those of its units. -/
def DocOp.headId : DocOp → OpId
  | .insertText _ _ _ => ⟨0, 0⟩
  | .insertBlock _ _ id _ _ | .moveBlocks _ id _ | .splitBlock _ _ id _ _ _ _
  | .mergeBlocks _ _ _ id _ _ _ | .deleteBlock _ _ id | .deleteBlockById _ _ _ id
  | .deleteText _ _ id _ | .setMark _ _ id _ _ _ _ | .removeMark _ _ _ id _
  | .setFrontmatterField id _ _ | .initializeFrontmatter id _ | .insertTableRow _ _ _ id _ _
  | .insertTableColumn _ _ _ id _ _ _ | .setTableCell _ _ _ _ id _ _ | .deleteTableRow _ _ _ id
  | .deleteTableRowById _ _ _ _ id | .deleteTableColumnById _ _ _ _ id
  | .setTableColumnAlignment _ _ _ id _ _ | .moveTableRow _ _ _ _ id _ _ _
  | .moveTableColumn _ _ _ _ id _ _ _ | .insertListItem _ _ _ id _ _
  | .deleteListItemById _ _ _ _ id | .moveListItem _ _ _ _ _ id _ _ _ | .setListStyle _ _ id _ _
  | .setListItemTask _ id _ _ | .setCodeFence _ _ id _ _ _ _ | .convertTextBlock _ _ id _ _
  | .replaceRawBlock _ _ id _ _ => id

/-- The largest id an operation embeds and the number of counters up to it that it covers. -/
def operationExtent (envelope : Envelope) : OpId × Nat :=
  match envelope.body with
  | .doc (.insertBlock _ _ id _ block) =>
    let hi := maxCounterInKind id block.kind
    (⟨hi, id.peer⟩, hi - id.counter + 1)
  | .doc (.insertText _ _ units) => match units with
    | [] => (⟨0, 0⟩, 1)
    | first :: _ =>
      let hi := units.foldl (fun hi u => max hi u.id.counter) first.id.counter
      let lo := units.foldl (fun lo u => min lo u.id.counter) first.id.counter
      (⟨hi, first.id.peer⟩, hi - lo + 1)
  | .doc (.moveBlocks _ id blocks) =>
    let lo := ((blocks.map (fun block => block.id.counter)).min?).getD id.counter
    (id, id.counter - lo + 1)
  | .doc (.mergeBlocks _ _ _ id _ _ units) =>
    let hi := (units.filter (fun unit => unit.id ≠ unit.sourceId ∧ unit.id.peer = id.peer)).foldl
      (fun hi unit => max hi unit.id.counter) id.counter
    (⟨hi, id.peer⟩, hi - id.counter + 1)
  | .doc op => (op.headId, 1)

/-- The number of counters the operation in a payload covers. -/
def spanOfPayload [Serde] (payload : Serde.Payload) : Nat :=
  match decode payload with
  | .ok envelope => (operationExtent envelope).2
  | .error _ => 1

end Extent

/-! ## Checks on embedded ids -/

mutual

def kindPeersOk (peer : PeerId) : BlockKindSkeleton → Bool
  | .blockQuote children => childrenPeersOk peer children
  | .list _ items => itemsPeersOk peer items
  | .paragraph _ | .heading _ _ | .codeFence _ _ _ | .rawBlock _ | .table => true

def childrenPeersOk (peer : PeerId) : List BlockSkeletonInsert → Bool
  | [] => true
  | ⟨_, id, _, ⟨_, kind⟩⟩ :: rest =>
    decide (id.peer = peer) && kindPeersOk peer kind && childrenPeersOk peer rest

def itemsPeersOk (peer : PeerId) : List ListItemSkeleton → Bool
  | [] => true
  | ⟨_, id, _, _, _, taskOp, children⟩ :: rest =>
    decide (id.peer = peer) && decide (taskOp.peer = peer) && childrenPeersOk peer children &&
      itemsPeersOk peer rest

end

/-- Every id the operation allocates is of the given peer. -/
def peersConsistent (peer : PeerId) (envelope : Envelope) : Bool :=
  match envelope.body with
  | .doc (.insertBlock _ _ id _ block) => decide (id.peer = peer) && kindPeersOk peer block.kind
  | .doc (.insertText _ _ units) => units.all (fun u => u.id.peer = peer)
  | .doc (.moveBlocks _ id blocks) =>
    decide (id.peer = peer) && blocks.all (fun block => block.id.peer = peer)
  | .doc (.splitBlock _ _ _ _ _ _ _) => true
  | .doc (.mergeBlocks _ _ _ _ _ _ units) =>
    units.all (fun unit => decide (unit.id = unit.sourceId) || decide (unit.id.peer = peer))
  | .doc op => decide (op.headId.peer = peer)

/-! ## Skeletons -/

mutual

/-- The wire form of a block kind; none for a table that already holds rows or columns. -/
def blockKindToSkeleton (unitMode : Bool) : BlockKind → Option BlockKindSkeleton
  | .paragraph text => some (.paragraph (if unitMode then "" else paragraphVisibleString text))
  | .heading level text =>
    some (.heading level (if unitMode then "" else paragraphVisibleString text))
  | .list style items _ => (itemsToSkeleton unitMode items).map (.list style)
  | .codeFence style info text => some (.codeFence style info text)
  | .rawBlock raw => some (.rawBlock raw)
  | .blockQuote children => (childrenToSkeleton unitMode children).map .blockQuote
  | .table table =>
    if !table.rows.iter.isEmpty || !table.columns.iter.isEmpty then none else some .table

def childrenToSkeleton (unitMode : Bool) : Sequence Block → Option (List BlockSkeletonInsert)
  | ⟨elements, _, _, _⟩ => childElementsToSkeleton unitMode elements

def childElementsToSkeleton (unitMode : Bool) :
    List (Element Block) → Option (List BlockSkeletonInsert)
  | [] => some []
  | ⟨_, none, _, _⟩ :: rest => childElementsToSkeleton unitMode rest
  | ⟨id, some ⟨blockId, _, _, _, kind, _⟩, after, rightOrigin⟩ :: rest =>
    (blockKindToSkeleton unitMode kind).bind (fun kind =>
      (childElementsToSkeleton unitMode rest).map (fun rest =>
        ⟨after, id, rightOrigin, ⟨blockId, kind⟩⟩ :: rest))

def itemsToSkeleton (unitMode : Bool) : Sequence ListItem → Option (List ListItemSkeleton)
  | ⟨elements, _, _, _⟩ => itemElementsToSkeleton unitMode elements

def itemElementsToSkeleton (unitMode : Bool) :
    List (Element ListItem) → Option (List ListItemSkeleton)
  | [] => some []
  | ⟨_, none, _, _⟩ :: rest => itemElementsToSkeleton unitMode rest
  | ⟨id, some ⟨blockId, _, task, taskOp, _, _, children⟩, after, rightOrigin⟩ :: rest =>
    (childrenToSkeleton unitMode children).bind (fun children =>
      (itemElementsToSkeleton unitMode rest).map (fun rest =>
        ⟨after, id, rightOrigin, blockId, task, taskOp, children⟩ :: rest))

end

section Apply
variable [Segmentation]

mutual

def kindFromSkeleton (parentElem : OpId) : BlockKindSkeleton → BlockKind
  | .paragraph text => .paragraph (unitsFromStr text (parentElem.counter + 1) parentElem.peer)
  | .heading level text =>
    .heading level (unitsFromStr text (parentElem.counter + 1) parentElem.peer)
  | .list style items => .list style (itemsFromSkeleton items .new) []
  | .codeFence style info text => .codeFence style info text
  | .rawBlock raw => .rawBlock raw
  | .blockQuote children => .blockQuote (childrenFromSkeleton children .new)
  | .table => .table (Table.new (blockIdFromOp parentElem) parentElem parentElem)

def childrenFromSkeleton : List BlockSkeletonInsert → Sequence Block → Sequence Block
  | [], seq => seq
  | ⟨after, id, rightOrigin, ⟨blockId, kind⟩⟩ :: rest, seq =>
    childrenFromSkeleton rest (seq.apply (.insert after id
      ⟨blockId, id, id, .new, kindFromSkeleton id kind, .new⟩ rightOrigin))

def itemsFromSkeleton : List ListItemSkeleton → Sequence ListItem → Sequence ListItem
  | [], seq => seq
  | ⟨after, id, rightOrigin, blockId, task, taskOp, children⟩ :: rest, seq =>
    itemsFromSkeleton rest (seq.apply (.insert after id
      ⟨blockId, id, task, taskOp, .new, .new,
        childrenFromSkeleton children .new⟩ rightOrigin))

end

def blockFromSkeleton (skel : BlockSkeleton) (elemId : OpId) : Block :=
  ⟨skel.blockId, elemId, elemId, .new, kindFromSkeleton elemId skel.kind, .new⟩

/-! ## Effects -/

def alignmentToWire : ColumnAlignment → ColumnAlignmentWire
  | .left => .left
  | .center => .center
  | .right => .right

def alignmentFromWire : ColumnAlignmentWire → ColumnAlignment
  | .left => .left
  | .center => .center
  | .right => .right

/-- Where a block stands now, or where the author saw it. -/
def currentBlockElem (d : Document) (blockId : BlockId) (fallback : OpId) : OpId :=
  (d.blockElemId blockId).getD fallback

def TextUnitWire.insertOp (u : TextUnitWire) : SequenceOp TextUnit :=
  .insert u.after u.id ⟨u.grapheme⟩ u.rightOrigin

/-- Insert units one behind the other, the first one at the given place. -/
def chainOps (after rightOrigin : Option OpId) : List MovedTextUnitWire → List (SequenceOp TextUnit)
  | [] => []
  | unit :: rest =>
    .insert after unit.id ⟨unit.grapheme⟩ rightOrigin :: chainOps (some unit.id) none rest

def Block.modifyText (block : Block) (ops : List (SequenceOp TextUnit)) : Block :=
  { block with kind := block.kind.modifyText (fun body => body.applyAll ops) }

def Block.modifyTable (block : Block) (f : Table → Table) : Block :=
  match block.kind with
  | .table table => { block with kind := .table (f table) }
  | _ => block

def updateTable (d : Document) (tableElem : OpId) (tableId : BlockId) (f : Table → Table) :
    Document :=
  d.updateBlock (currentBlockElem d tableId tableElem) (fun block => block.modifyTable f)

def setFrontmatterField (d : Document) (key : String) (value : Option String) (opId : OpId) :
    Document :=
  let frontmatter := d.frontmatter.getD Frontmatter.empty
  { d with frontmatter := some (match frontmatter.set key value opId with
      | .ok frontmatter => frontmatter
      | .error _ => frontmatter) }

def applySplitBlock (d : Document) (parent : Option OpId) (target id : OpId) (newBlockId : BlockId)
    (rightOrigin : Option OpId) (kind : TextBlockKindWire) (units : List MovedTextUnitWire) :
    Document :=
  match d.withBlockMut target (fun block =>
      (block.modifyText (units.map (fun unit => .delete unit.sourceId id)), block.marks)) with
  | none => d
  | some (d', marks) =>
    let body := Sequence.fromOrdered (units.map (fun unit => (unit.id, ⟨unit.grapheme⟩)))
    let block : Block :=
      ⟨newBlockId, id, id, .new, Document.textKind kind body, marks⟩
    (d'.insertBlockAt parent (some target) id block rightOrigin).1

def applyMergeBlocks (d : Document) (parent : Option OpId) (left right id : OpId)
    (after rightOrigin : Option OpId) (units : List MovedTextUnitWire) : Document :=
  let rightMarks := (d.findBlock right).map Block.marks
  let d' := d.updateBlock left (fun block =>
    let block := block.modifyText (chainOps after rightOrigin units)
    { block with marks := rightMarks.elim block.marks block.marks.mergeFrom })
  (d'.deleteBlockAt parent right id).1

def applyDocOp (d : Document) : DocOp → Document
  | .insertBlock parent after id rightOrigin block =>
    (d.insertBlockAt parent after id (blockFromSkeleton block id) rightOrigin).1
  | .deleteBlock parent target id => (d.deleteBlockAt parent target id).1
  | .deleteBlockById parent target blockId id =>
    match d.findBlockById blockId with
    | some block => (d.deleteBlockAt ((d.blockParent blockId).getD none) block.elemId id).1
    | none => (d.deleteBlockAt parent target id).1
  | .insertText blockElem blockId units =>
    d.updateBlock (currentBlockElem d blockId blockElem) (fun block =>
      block.modifyText (units.map TextUnitWire.insertOp))
  | .deleteText blockElem blockId id targets =>
    d.updateBlock (currentBlockElem d blockId blockElem) (fun block =>
      block.modifyText (targets.map (fun target => .delete target id)))
  | .setMark blockElem blockId id kind start stop attrs =>
    d.updateBlock (currentBlockElem d blockId blockElem) (fun block =>
      { block with marks := block.marks.setMark id kind start stop attrs id })
  | .removeMark blockElem blockId intervalId id observed =>
    d.updateBlock (currentBlockElem d blockId blockElem) (fun block =>
      { block with marks := block.marks.removeMark intervalId observed id })
  | .setFrontmatterField id key value => setFrontmatterField d key value id
  | .initializeFrontmatter _ frontmatter =>
    if d.frontmatter.isNone then { d with frontmatter := some frontmatter } else d
  | .moveBlocks toParent id blocks => (d.moveBlocksAt toParent blocks id).1
  | .splitBlock parent target id newBlockId rightOrigin kind units =>
    applySplitBlock d parent target id newBlockId rightOrigin kind units
  | .mergeBlocks parent left right id after rightOrigin units =>
    applyMergeBlocks d parent left right id after rightOrigin units
  | .insertTableRow tableElem tableId after id rightOrigin cells =>
    updateTable d tableElem tableId (fun table => table.applyInsertRow after id rightOrigin
      (cells.map (fun cell => (cell.columnId, cell.value))))
  | .insertTableColumn tableElem tableId after id rightOrigin alignment header =>
    updateTable d tableElem tableId (fun table =>
      table.applyInsertColumn after id rightOrigin (alignmentFromWire alignment) header)
  | .setTableCell tableElem tableId rowId columnId id value observed =>
    updateTable d tableElem tableId (fun table =>
      table.setCellObserved rowId columnId value id observed)
  | .deleteTableRow tableElem tableId target id =>
    updateTable d tableElem tableId (fun table => table.removeRow target id)
  | .deleteTableRowById tableElem tableId target rowId id =>
    updateTable d tableElem tableId (fun table => table.removeRowById rowId target id)
  | .deleteTableColumnById tableElem tableId target columnId id =>
    updateTable d tableElem tableId (fun table => table.removeColumnById columnId target id)
  | .setTableColumnAlignment tableElem tableId columnId id alignment observed =>
    updateTable d tableElem tableId (fun table =>
      table.setColumnAlignmentObserved columnId (alignmentFromWire alignment) id observed)
  | .moveTableRow tableElem tableId rowId target id after rightOrigin observed =>
    updateTable d tableElem tableId (fun table =>
      (table.moveRow rowId target id after rightOrigin observed).1)
  | .moveTableColumn tableElem tableId columnId target id after rightOrigin observed =>
    updateTable d tableElem tableId (fun table =>
      (table.moveColumn columnId target id after rightOrigin observed).1)
  | .insertListItem listElem listId after id rightOrigin task =>
    (d.insertListItemAt (currentBlockElem d listId listElem) after id rightOrigin task).1
  | .deleteListItemById listElem _ target itemId id =>
    (d.deleteListItemAt listElem itemId target id).1
  | .moveListItem fromListElem toListElem listId itemId target id after rightOrigin observed =>
    (d.moveListItemAt ⟨fromListElem, currentBlockElem d listId toListElem, listId, itemId, target,
      id, after, rightOrigin, observed⟩).1
  | .setListStyle blockElem blockId id style observed =>
    (d.setListStyle (currentBlockElem d blockId blockElem) style id observed).1
  | .setListItemTask itemId id task observed => (d.setListItemTask itemId task id observed).1
  | .setCodeFence blockElem blockId id style info text observed =>
    (d.setCodeFence (currentBlockElem d blockId blockElem) style info text id observed).1
  | .convertTextBlock blockElem blockId id kind observed =>
    (d.convertTextBlock (currentBlockElem d blockId blockElem) kind id observed).1
  | .replaceRawBlock blockElem blockId id raw observed =>
    (d.replaceRawBlock (currentBlockElem d blockId blockElem) raw id observed).1

def applyEnvelopeToDocument (d : Document) (envelope : Envelope) : Document :=
  match envelope.body with
  | .doc op => applyDocOp d op

end Apply
end MdCrdt
