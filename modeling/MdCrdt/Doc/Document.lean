import MdCrdt.Doc.Block
import MdCrdt.Doc.Frontmatter

/- Documents and the operations on their block tree (`doc/mod.rs`).

  Lookups go through the block index, edits through `withBlockMut` (a block by
  element id) and `withContainerChildrenMut` (the children of a blockquote or list
  item). `moveBlocksAt` and `moveListItemAt` delete a placement and insert a clone
  under a new id; a losing move leaves a tombstone under its id.

  Correspondence (Rust ↔ Lean):
    the closures passed to `with_block_mut` ↔ the functions passed to `withBlockMut`,
      which return the changed block and the closure's result
    the preparation loop of `move_blocks_at` ↔ `prepareMoves`
  The source kept for exact serialisation is in `Doc/Source.lean`, what is marked dirty
  of it in `Session/SourceMarks.lean`. -/
namespace MdCrdt
open Lib

structure Document where
  frontmatter : Option Frontmatter
  blocks : Sequence Block

/-- One placement of a `MoveBlocks` operation. -/
structure MovedBlockWire where
  blockId : BlockId
  target : OpId
  id : OpId
  after : Option OpId
  rightOrigin : Option OpId
  deriving DecidableEq, Repr

inductive TextBlockKindWire where
  | paragraph
  | heading (level : Nat)
  deriving DecidableEq, Repr

namespace Document

def new : Document := ⟨none, .new⟩

/-! ## Lookups -/

def blockIndex (d : Document) : List (BlockPath × Block) := indexBlockSequence [] d.blocks

/-- The path of the first live block that stands under an element id. -/
def pathOfElem (d : Document) (elemId : OpId) : Option BlockPath :=
  (d.blockIndex.find? (fun entry => entry.1.elemId = elemId)).map Prod.fst

def pathOfBlock (d : Document) (blockId : BlockId) : Option BlockPath :=
  (d.blockIndex.find? (fun entry => entry.2.id = blockId)).map Prod.fst

def findBlock (d : Document) (elemId : OpId) : Option Block :=
  ((d.pathOfElem elemId).bind (blockAtPath d.blocks)).filter (fun block => block.elemId = elemId)

def findBlockById (d : Document) (blockId : BlockId) : Option Block :=
  ((d.pathOfBlock blockId).bind (blockAtPath d.blocks)).filter (fun block => block.id = blockId)

def blockElemId (d : Document) (blockId : BlockId) : Option OpId :=
  (d.findBlockById blockId).map Block.elemId

def findListItem (d : Document) (elemId : OpId) : Option ListItem :=
  (listItems d.blocks).find? (fun item => item.elemId = elemId)

def findListItemById (d : Document) (itemId : BlockId) : Option ListItem :=
  (listItems d.blocks).find? (fun item => item.id = itemId)

/-- The children of a container, of the document itself for `none`. -/
def containerChildren (d : Document) : Option OpId → Option (Sequence Block)
  | none => some d.blocks
  | some p => match (d.findBlock p).map Block.kind with
    | some (.blockQuote children) => some children
    | _ => (d.findListItem p).map ListItem.children

def computeChildRightOrigin (d : Document) (parent after : Option OpId) : Option OpId :=
  (d.containerChildren parent).bind (fun children => children.computeRightOrigin after)

/-- The container a block stands in, `none` for the document itself. -/
def blockParent (d : Document) (blockId : BlockId) : Option (Option OpId) :=
  (d.pathOfBlock blockId).map (fun path => path.containers.getLast?.map (fun container =>
    match container with
    | .blockQuote id => id
    | .listItem _ item => item))

/-- Element ids of a block and of the blocks and items inside it. -/
def elemIdsWithin (block : Block) : List OpId :=
  block.elemId :: (indexBlock [] block.elemId block).map (fun entry => entry.2.elemId) ++
    (listItemsBlock block).map ListItem.elemId

/-- Is the candidate the block itself or something inside it? -/
def blockContainsContainer (d : Document) (blockId : BlockId) (candidate : OpId) : Bool :=
  (d.findBlockById blockId).any (fun block => decide (candidate ∈ elemIdsWithin block))

/-- List, list element and placement of a list item: the first list that holds it directly. -/
def listItemPlacement (d : Document) (itemId : BlockId) : Option (BlockId × OpId × OpId) :=
  d.blockIndex.findSome? (fun entry => match entry.2.kind with
    | .list _ items _ =>
      (items.elements.find? (fun e => e.value.any (fun item => item.id = itemId))).map
        (fun e => (entry.2.id, entry.2.elemId, e.id))
    | _ => none)

def listContainingItem (d : Document) (itemId : BlockId) : Option (BlockId × OpId) :=
  (d.listItemPlacement itemId).map (fun p => (p.1, p.2.1))

/-! ## Edits -/

/-- Mutate the block under an element id, wherever it stands. -/
def withBlockMut {R : Type} (d : Document) (elemId : OpId) (f : Block → Block × R) :
    Option (Document × R) :=
  match d.findBlock elemId, d.pathOfElem elemId with
  | some block, some path =>
    some ({ d with blocks := modifyAtPath d.blocks path (fun block => (f block).1) }, (f block).2)
  | _, _ => none

/-- `withBlockMut` for a closure without a result; the document stays where nothing is found. -/
def updateBlock (d : Document) (elemId : OpId) (f : Block → Block) : Document :=
  ((d.withBlockMut elemId (fun block => (f block, ()))).map Prod.fst).getD d

/-- `withBlockMut` for a closure that answers yes or no; no where nothing is found. -/
def tryBlock (d : Document) (elemId : OpId) (f : Block → Option Block) : Document × Bool :=
  (d.withBlockMut elemId (fun block => ((f block).getD block, (f block).isSome))).getD (d, false)

/-- Change the children of the first container that answers to an element id. -/
def withContainerChildrenMut (d : Document) (containerElem : OpId)
    (f : Sequence Block → Sequence Block) : Option Document :=
  ((containers d.blocks).find? (fun c => c.1 = containerElem)).map (fun c =>
    { d with blocks := modifyChildrenAt f c.2 d.blocks })

/-- Apply an operation to the sequence of a container, or of the document. -/
def applyAt (d : Document) (parent : Option OpId) (op : SequenceOp Block) : Document × Bool :=
  match parent with
  | none => ({ d with blocks := d.blocks.apply op }, true)
  | some p => match d.withContainerChildrenMut p (fun children => children.apply op) with
    | some d' => (d', true)
    | none => (d, false)

def insertBlockAt (d : Document) (parent after : Option OpId) (id : OpId) (value : Block)
    (rightOrigin : Option OpId) : Document × Bool :=
  d.applyAt parent (.insert after id value rightOrigin)

def deleteBlockAt (d : Document) (parent : Option OpId) (target id : OpId) : Document × Bool :=
  d.applyAt parent (.delete target id)

/-! ## Registers -/

/-- A write to the kind-specific data of a block, if it wins and fits the kind. -/
def writeKind (d : Document) (blockElem id : OpId) (observed : StateVector)
    (f : BlockKind → Option BlockKind) : Document × Bool :=
  d.tryBlock blockElem (fun block =>
    if causalWriteWins block.kindOp block.kindObserved id observed then
      (f block.kind).map (fun kind =>
        { block with kind := kind, kindOp := id, kindObserved := observed })
    else none)

def setListStyle (d : Document) (blockElem : OpId) (style : ListStyle) (id : OpId)
    (observed : StateVector) : Document × Bool :=
  d.writeKind blockElem id observed (fun
    | .list _ items pendingMoves => some (.list style items pendingMoves)
    | _ => none)

def setCodeFence (d : Document) (blockElem : OpId) (style : CodeFenceStyle) (info : Option String)
    (text : String) (id : OpId) (observed : StateVector) : Document × Bool :=
  d.writeKind blockElem id observed (fun
    | .codeFence _ _ _ => some (.codeFence style info text)
    | _ => none)

def textKind (kind : TextBlockKindWire) (text : Sequence TextUnit) : BlockKind :=
  match kind with
  | .paragraph => .paragraph text
  | .heading level => .heading level text

def convertTextBlock (d : Document) (blockElem : OpId) (kind : TextBlockKindWire) (id : OpId)
    (observed : StateVector) : Document × Bool :=
  d.writeKind blockElem id observed (fun current =>
    (blockTextSeq current).map (textKind kind))

def replaceRawBlock (d : Document) (blockElem : OpId) (raw : String) (id : OpId)
    (observed : StateVector) : Document × Bool :=
  d.writeKind blockElem id observed (fun
    | .rawBlock _ => some (.rawBlock raw)
    | _ => none)

/-- Change the items of a list block. -/
def tryItems (d : Document) (listElem : OpId)
    (f : Sequence ListItem → Option (Sequence ListItem)) : Document × Bool :=
  d.tryBlock listElem (fun block => match block.kind with
    | .list style items pendingMoves =>
      (f items).map (fun items => { block with kind := .list style items pendingMoves })
    | _ => none)

def setListItemTask (d : Document) (itemId : BlockId) (task : Option TaskState) (id : OpId)
    (observed : StateVector) : Document × Bool :=
  match d.listItemPlacement itemId with
  | none => (d, false)
  | some (_, listElem, placement) =>
    d.tryItems listElem (fun items =>
      ((items.value? placement).filter (fun item => item.id = itemId)).bind (fun item =>
        if causalWriteWins item.taskOp item.taskObserved id observed then
          some (items.withValue placement (fun item =>
            { item with task := task, taskOp := id, taskObserved := observed }))
        else none))

/-! ## Moving blocks -/

/-- What a move of a block that is gone leaves behind. -/
def lostBlock (moved : MovedBlockWire) : Block :=
  ⟨moved.blockId, moved.id, moved.id, .new, .rawBlock "", .new⟩

/-- A clone of every moved block and the container it stands in (`none` for a block that is
    gone), and whether the move loses. No result where the whole move is refused. -/
def prepareMoves (d : Document) (toParent : Option OpId) :
    List MovedBlockWire → Option (List (Block × Option (Option OpId)) × Bool)
  | [] => some ([], false)
  | moved :: rest =>
    match d.findBlockById moved.blockId with
    | none => (d.prepareMoves toParent rest).map (fun r => ((lostBlock moved, none) :: r.1, true))
    | some block =>
      if toParent.any (fun parent => d.blockContainsContainer block.id parent) then none
      else match d.blockParent block.id with
        | none => none
        | some parent =>
          let loses := decide (blockIdFromOp block.elemId ≠ block.id) &&
            decide (moved.id ≤ block.elemId)
          (d.prepareMoves toParent rest).map (fun r =>
            ((block, some parent) :: r.1, loses || r.2))

/-- The clones are blocks of the document, or stand for blocks that it has lost. -/
theorem prepareMoves_eq_some {d : Document}
    (h : d.prepareMoves toParent moves = some (prepared, loses)) :
    List.Forall₂ (fun p m => p.1 = lostBlock m ∧ loses = true ∨
      d.findBlockById m.blockId = some p.1 ∧ p.2 = d.blockParent p.1.id) prepared moves := by
  induction moves generalizing prepared loses with
  | nil =>
    obtain ⟨rfl, -⟩ := Prod.mk.inj (Option.some.inj h); exact .nil
  | cons m moves ih =>
    rw [prepareMoves] at h
    split at h
    · obtain ⟨⟨ps, l⟩, hps, heq⟩ := Option.map_eq_some_iff.mp h
      obtain ⟨rfl, rfl⟩ := Prod.mk.inj heq
      exact .cons (.inl ⟨rfl, rfl⟩) ((ih hps).imp (fun _ _ => .imp_left (.imp_right fun _ => rfl)))
    · next b hb =>
      split at h
      · cases h
      · split at h
        · cases h
        · next hparent =>
          obtain ⟨⟨ps, l⟩, hps, heq⟩ := Option.map_eq_some_iff.mp h
          obtain ⟨rfl, rfl⟩ := Prod.mk.inj heq
          refine .cons (.inr ⟨hb, hparent.symm⟩) ((ih hps).imp (fun _ _ => .imp_left (.imp_right fun hl => ?_)))
          rw [hl, Bool.or_true]

def moveBlocksAt (d : Document) (toParent : Option OpId) (moves : List MovedBlockWire)
    (moveId : OpId) : Document × Bool :=
  if moves.isEmpty || (d.containerChildren toParent).isNone then (d, false)
  else match d.prepareMoves toParent moves with
    | none => (d, false)
    | some (prepared, true) =>
      ((prepared.zip moves).foldl (fun d p =>
        if (d.containerChildren toParent).any (fun children =>
            (children.getElement p.2.id).isSome) then d
        else
          let d := (d.insertBlockAt toParent p.2.after p.2.id { p.1.1 with elemId := p.2.id }
            p.2.rightOrigin).1
          (d.deleteBlockAt toParent p.2.id moveId).1) d, false)
    | some (prepared, false) =>
      let d := prepared.foldl (fun d p =>
        (d.deleteBlockAt (p.2.getD none) p.1.elemId moveId).1) d
      ((prepared.zip moves).foldl (fun d p =>
        (d.insertBlockAt toParent p.2.after p.2.id { p.1.1 with elemId := p.2.id }
          p.2.rightOrigin).1) d, true)

/-! ## List items -/

def deleteListItemAt (d : Document) (listElem : OpId) (itemId : BlockId) (target id : OpId) :
    Document × Bool :=
  let placement := ((d.listItemPlacement itemId).map Prod.snd).getD (listElem, target)
  d.tryItems placement.1 (fun items =>
    if (items.value? placement.2).any (fun item => item.id ≠ itemId) then none
    else some (items.apply (.delete placement.2 id)))

/-- The items of the list block under an element id. -/
def itemsAt (d : Document) (listElem : OpId) : Option (Sequence ListItem) :=
  match (d.findBlock listElem).map Block.kind with
  | some (.list _ items _) => some items
  | _ => none

/-- Insert an item and delete it again. -/
def buryItem (items : Sequence ListItem) (movement : PendingListItemMove) (item : ListItem) :
    Sequence ListItem :=
  (items.apply (.insert movement.after movement.id item movement.rightOrigin)).apply
    (.delete movement.id movement.id)

/-- The placeholder for a moved item that was deleted. -/
def lostItem (movement : PendingListItemMove) : ListItem :=
  ⟨movement.itemId, movement.id, none, movement.id, .new, movement.observed, .new⟩

/-- The place that the item comes from is a tombstone. -/
def targetDeleted (d : Document) (movement : PendingListItemMove) : Bool :=
  ((d.itemsAt movement.fromListElem).bind (fun items =>
    items.getElement movement.target)).any (fun e => e.value.isNone)

/-- A move whose item is not there: if its old place is a tombstone, a tombstone goes to the new
    one; else the move waits in the list it starts from. -/
def moveMissingItem (d : Document) (movement : PendingListItemMove) : Document × Bool :=
  if !d.targetDeleted movement then
    d.tryBlock movement.fromListElem (fun block => match block.kind with
      | .list style items pendingMoves =>
        let pendingMoves := if pendingMoves.any (fun pending => pending.id = movement.id)
          then pendingMoves else pendingMoves ++ [movement]
        some { block with kind := .list style items pendingMoves }
      | _ => none)
  else
    d.tryItems movement.toListElem (fun items => some (buryItem items movement (lostItem movement)))

/-- The place of the item. -/
def placeOf (d : Document) (movement : PendingListItemMove) : OpId :=
  ((d.listItemPlacement movement.itemId).map (fun p => p.2.2)).getD movement.target

def listOf (d : Document) (movement : PendingListItemMove) : OpId :=
  ((d.listContainingItem movement.itemId).map Prod.snd).getD movement.fromListElem

/-- The item has been moved already, and the move does not win. -/
def outdone (d : Document) (movement : PendingListItemMove) (item : ListItem) : Bool :=
  let current := d.placeOf movement
  let alreadyMoved := decide (blockIdFromOp current ≠ movement.itemId)
  alreadyMoved && !causalWriteWins current item.placementObserved movement.id movement.observed

/-- The list has no place under the id of the move. -/
def isAbsent (d : Document) (movement : PendingListItemMove) : Bool :=
  ((d.itemsAt movement.toListElem).bind (fun items => items.getElement movement.id)).isNone

/-- Take the item from its place. -/
def detachItem (d : Document) (movement : PendingListItemMove) : Document × Bool :=
  let current := d.placeOf movement
  d.tryItems (d.listOf movement) (fun items =>
    if (items.getElement current).isNone then none
    else some (items.apply (.delete current movement.id)))

def moveListItemAt (d : Document) (movement : PendingListItemMove) : Document × Bool :=
  match d.findListItemById movement.itemId with
  | none => d.moveMissingItem movement
  | some item =>
    if d.outdone movement item then
      if d.isAbsent movement then
        let tombstone := { item with placementObserved := movement.observed }
        ((d.tryItems movement.toListElem (fun items =>
          some (buryItem items movement tombstone))).1, false)
      else (d, false)
    else
      let (d', deleted) := d.detachItem movement
      if !deleted then (d', false)
      else
        let moved := { item with placementObserved := movement.observed }
        d'.tryItems movement.toListElem (fun items =>
          some (items.apply (.insert movement.after movement.id moved movement.rightOrigin)))

/-- The list block without the moves that wait for an item, and these moves. -/
def takePending (itemId : BlockId) (block : Block) : Block × List PendingListItemMove :=
  match block.kind with
  | .list style items pendingMoves =>
    ({ block with kind := .list style items (pendingMoves.filter (fun m => m.itemId ≠ itemId)) },
      pendingMoves.filter (fun m => m.itemId = itemId))
  | _ => (block, [])

/-- Retry the moves that wait for an item in the list that now holds it, oldest first. -/
def resolvePendingListItemMoves (d : Document) (itemId : BlockId) : Document :=
  match d.listContainingItem itemId with
  | none => d
  | some (_, listElem) =>
    match d.withBlockMut listElem (takePending itemId) with
    | none => d
    | some (d', matching) =>
      (matching.insertionSort (fun a b => a.id ≤ b.id)).foldl
        (fun d movement => (d.moveListItemAt movement).1) d'

def tryInsertItem (d : Document) (listElem : OpId) (after : Option OpId) (id : OpId)
    (rightOrigin : Option OpId) (task : Option TaskState) : Document × Bool :=
  let item : ListItem :=
    ⟨blockIdFromOp id, id, task, id, .new, .new, .new⟩
  d.tryItems listElem (fun items => some (items.apply (.insert after id item rightOrigin)))

def insertListItemAt (d : Document) (listElem : OpId) (after : Option OpId) (id : OpId)
    (rightOrigin : Option OpId) (task : Option TaskState) : Document × Bool :=
  match d.tryInsertItem listElem after id rightOrigin task with
  | (d', true) => (d'.resolvePendingListItemMoves (blockIdFromOp id), true)
  | (d', false) => (d', false)

end Document
end MdCrdt
