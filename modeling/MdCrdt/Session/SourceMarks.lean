import MdCrdt.Doc.Source
import MdCrdt.Session.Wire

/- What an operation marks in the source of a document (`doc/mod.rs`, `session/wire.rs`).

  `with_block_mut` marks the element it is asked for, once the block is found;
  `insert_block_at` and `delete_block_at` mark the container they are asked for, whether or
  not it is there. `marks` lists the elements that an operation marks on the way, in the
  document it is applied to; it follows `applyDocOp` branch by branch. `targets` lists the
  elements that an operation names and those it is led to by the ids it names; an operation
  marks nothing else (`marks_subset_targets`).

  The direct edits of a document look a top-level block up by its id, give it another text
  or other marks, and mark it by its block id.

  Correspondence (Rust ↔ Lean):
    `mark_source_elem_dirty` in `with_block_mut` ↔ `blockMarks`
    `mark_source_elem_dirty` in `insert_block_at`, `delete_block_at` ↔ `Option.toList` of the
      container
    `insert_text`, `raw_apply_op`, `set_mark`, `remove_mark` ↔ `DirectEdit`
    `Document` with its `source` after an edit ↔ `SourcedDocument.apply`
  Marking is idempotent, so an element that is marked several times in a row stands here
  once. -/
namespace MdCrdt
open Lib List

/-- The element id and the block id of the block that an operation edits in place. -/
def DocOp.editedBlock : DocOp → Option (OpId × BlockId)
  | .insertText elem id _ | .deleteText elem id _ _ | .setMark elem id _ _ _ _ _
  | .removeMark elem id _ _ _ | .insertTableRow elem id _ _ _ _
  | .insertTableColumn elem id _ _ _ _ _ | .setTableCell elem id _ _ _ _ _
  | .deleteTableRow elem id _ _ | .deleteTableRowById elem id _ _ _
  | .deleteTableColumnById elem id _ _ _ | .setTableColumnAlignment elem id _ _ _ _
  | .moveTableRow elem id _ _ _ _ _ _ | .moveTableColumn elem id _ _ _ _ _ _
  | .setListStyle elem id _ _ _ | .setCodeFence elem id _ _ _ _ _
  | .convertTextBlock elem id _ _ _ | .replaceRawBlock elem id _ _ _ => some (elem, id)
  | _ => none

namespace Document

def blockMarks (d : Document) (elemId : OpId) : List OpId :=
  if (d.findBlock elemId).isSome then [elemId] else []

def moveBlocksMarks (d : Document) (toParent : Option OpId) (moves : List MovedBlockWire) :
    List OpId :=
  if moves.isEmpty || (d.containerChildren toParent).isNone then []
  else match d.prepareMoves toParent moves with
    | none => []
    | some (_, true) =>
      -- the first placement that is not there yet is looked for in the document as it is
      if moves.all (fun moved => (d.containerChildren toParent).any (fun children =>
        (children.getElement moved.id).isSome)) then [] else toParent.toList
    | some (prepared, false) => prepared.filterMap (fun p => p.2.getD none) ++ toParent.toList

def moveMissingItemMarks (d : Document) (movement : PendingListItemMove) : List OpId :=
  if !d.targetDeleted movement then d.blockMarks movement.fromListElem
  else d.blockMarks movement.toListElem

def moveListItemMarks (d : Document) (movement : PendingListItemMove) : List OpId :=
  match d.findListItemById movement.itemId with
  | none => d.moveMissingItemMarks movement
  | some item =>
    if d.outdone movement item then
      if d.isAbsent movement then d.blockMarks movement.toListElem else []
    else d.blockMarks (d.listOf movement) ++ if (d.detachItem movement).2
      then (d.detachItem movement).1.blockMarks movement.toListElem else []

/-- The lists that the move of an item names, and the one that the item is found in. -/
def moveListItemTargets (d : Document) (movement : PendingListItemMove) : List OpId :=
  [movement.fromListElem, movement.toListElem] ++
    ((d.listContainingItem movement.itemId).map Prod.snd).toList

section
variable (each : Document → PendingListItemMove → List OpId)

/-- What `each` lists for moves one after the other. -/
def overMoves : Document → List PendingListItemMove → List OpId
  | _, [] => []
  | d, movement :: rest => each d movement ++ overMoves (d.moveListItemAt movement).1 rest

/-- The list that holds an item, and what `each` lists for the moves that wait for it there. -/
def overPending (d : Document) (itemId : BlockId) : List OpId :=
  match d.listContainingItem itemId with
  | none => []
  | some (_, listElem) =>
    match d.withBlockMut listElem (takePending itemId) with
    | none => []
    | some (d', matching) =>
      listElem :: overMoves each d' (matching.insertionSort (fun a b => a.id ≤ b.id))

end

def insertListItemMarks (d : Document) (listElem : OpId) (after : Option OpId) (id : OpId)
    (rightOrigin : Option OpId) (task : Option TaskState) : List OpId :=
  match d.tryInsertItem listElem after id rightOrigin task with
  | (d', true) => d.blockMarks listElem ++ overPending moveListItemMarks d' (blockIdFromOp id)
  | (_, false) => d.blockMarks listElem

def setListItemTaskMarks (d : Document) (itemId : BlockId) : List OpId :=
  match d.listItemPlacement itemId with
  | none => []
  | some (_, listElem, _) => d.blockMarks listElem

def deleteListItemMarks (d : Document) (listElem : OpId) (itemId : BlockId) : List OpId :=
  d.blockMarks (((d.listItemPlacement itemId).map (fun p => p.2.1)).getD listElem)

def splitBlockMarks (d : Document) (parent : Option OpId) (target : OpId) : List OpId :=
  if (d.findBlock target).isSome then target :: parent.toList else []

/-- The elements an operation marks. -/
def marks (d : Document) : DocOp → List OpId
  | .insertBlock parent _ _ _ _ => parent.toList
  | .deleteBlock parent _ _ => parent.toList
  | .deleteBlockById parent _ blockId _ =>
    match d.findBlockById blockId with
    | some _ => ((d.blockParent blockId).getD none).toList
    | none => parent.toList
  | .moveBlocks toParent _ blocks => d.moveBlocksMarks toParent blocks
  | .splitBlock parent target _ _ _ _ _ => d.splitBlockMarks parent target
  | .mergeBlocks parent left _ _ _ _ _ => d.blockMarks left ++ parent.toList
  | .insertListItem listElem listId after id rightOrigin task =>
    d.insertListItemMarks (currentBlockElem d listId listElem) after id rightOrigin task
  | .deleteListItemById listElem _ _ itemId _ => d.deleteListItemMarks listElem itemId
  | .moveListItem fromListElem toListElem listId itemId target id after rightOrigin observed =>
    d.moveListItemMarks ⟨fromListElem, currentBlockElem d listId toListElem, listId, itemId, target,
      id, after, rightOrigin, observed⟩
  | .setListItemTask itemId _ _ _ => d.setListItemTaskMarks itemId
  | op => op.editedBlock.elim [] (fun p => d.blockMarks (currentBlockElem d p.2 p.1))

/-- The containers that the blocks of a move stand in. -/
def parentsOf (d : Document) (moves : List MovedBlockWire) : List OpId :=
  moves.filterMap (fun moved => (d.findBlockById moved.blockId).bind (fun block =>
    (d.blockParent block.id).getD none))

/-- The elements an operation names, and those that the ids it names lead to. -/
def targets (d : Document) : DocOp → List OpId
  | .insertBlock parent _ _ _ _ | .deleteBlock parent _ _ => parent.toList
  | .deleteBlockById parent _ blockId _ =>
    parent.toList ++ ((d.blockParent blockId).getD none).toList
  | .moveBlocks toParent _ blocks =>
    toParent.toList ++ d.parentsOf blocks
  | .splitBlock parent target _ _ _ _ _ => target :: parent.toList
  | .mergeBlocks parent left _ _ _ _ _ => left :: parent.toList
  | .insertListItem listElem listId after id rightOrigin task =>
    let listElem := currentBlockElem d listId listElem
    listElem :: overPending moveListItemTargets
      (d.tryInsertItem listElem after id rightOrigin task).1 (blockIdFromOp id)
  | .deleteListItemById listElem _ _ itemId _ =>
    listElem :: ((d.listContainingItem itemId).map Prod.snd).toList
  | .moveListItem fromListElem toListElem listId itemId target id after rightOrigin observed =>
    d.moveListItemTargets ⟨fromListElem, currentBlockElem d listId toListElem, listId, itemId,
      target, id, after, rightOrigin, observed⟩
  | .setListItemTask itemId _ _ _ => ((d.listContainingItem itemId).map Prod.snd).toList
  | op => op.editedBlock.toList.map (fun p => currentBlockElem d p.2 p.1)

theorem mem_blockMarks {d : Document} {e x : OpId} (h : x ∈ d.blockMarks e) : x = e := by
  unfold blockMarks at h
  split at h
  · exact mem_singleton.mp h
  · cases h

theorem moveBlocksMarks_subset (d : Document) (toParent moves) :
    d.moveBlocksMarks toParent moves ⊆ toParent.toList ++ d.parentsOf moves := by
  intro x hx
  unfold moveBlocksMarks at hx
  split at hx
  · cases hx
  · split at hx
    · cases hx
    · split at hx
      · cases hx
      · exact mem_append_left _ hx
    · next prepared hp =>
      rcases mem_append.mp hx with hx | hx
      · obtain ⟨p, hmem, hparent⟩ := mem_filterMap.mp hx
        obtain ⟨hlen, hrel⟩ := forall₂_iff_get.mp (prepareMoves_eq_some hp)
        obtain ⟨i, rfl⟩ := mem_iff_get.mp hmem
        refine mem_append_right _ (mem_filterMap.mpr ⟨moves.get ⟨i, hlen ▸ i.2⟩, get_mem _ _, ?_⟩)
        obtain ⟨hb, hb'⟩ := (hrel i i.2 (hlen ▸ i.2)).resolve_left (fun h => by cases h.2)
        rw [hb, Option.bind_some, ← hb', hparent]
      · exact mem_append_left _ hx

theorem moveListItemMarks_subset (d m) : moveListItemMarks d m ⊆ moveListItemTargets d m := by
  intro x hx
  unfold moveListItemMarks moveMissingItemMarks at hx
  unfold moveListItemTargets
  cases hlist : d.listContainingItem m.itemId <;> grind [mem_blockMarks, listOf]

section
variable {each each' : Document → PendingListItemMove → List OpId}
  (h : ∀ d m, each d m ⊆ each' d m)
include h

theorem overMoves_subset (d) : overMoves each d moves ⊆ overMoves each' d moves := by
  induction moves generalizing d with
  | nil => exact Subset.refl _
  | cons m moves ih => exact append_subset.mpr ⟨fun x hx => mem_append_left _ (h d m hx), fun x hx => mem_append_right _ (ih _ hx)⟩

theorem overPending_subset (d itemId) : overPending each d itemId ⊆ overPending each' d itemId := by
  unfold overPending
  split
  · exact Subset.refl _
  · split
    · exact Subset.refl _
    · exact cons_subset_cons _ (overMoves_subset h _)

end

/-- An operation marks only what it targets. -/
theorem marks_subset_targets (d : Document) (op) : d.marks op ⊆ d.targets op := by
  intro x hx
  cases op with
  | insertBlock | deleteBlock => exact hx
  | setFrontmatterField | initializeFrontmatter => cases hx
  | moveBlocks => exact d.moveBlocksMarks_subset _ _ hx
  | moveListItem => exact moveListItemMarks_subset _ _ hx
  | insertListItem =>
    simp only [marks, insertListItemMarks] at hx
    split at hx
    · next hd =>
      rcases mem_append.mp hx with hx | hx
      · exact mem_cons.mpr (.inl (mem_blockMarks hx))
      · refine mem_cons_of_mem _ (overPending_subset moveListItemMarks_subset _ _ ?_)
        rw [hd]
        exact hx
    · exact mem_cons.mpr (.inl (mem_blockMarks hx))
  | deleteListItemById _ _ _ itemId =>
    rw [mem_blockMarks hx, targets, listContainingItem]
    cases d.listItemPlacement itemId <;> simp
  | deleteBlockById | splitBlock | mergeBlocks | setListItemTask =>
    simp only [marks, splitBlockMarks, setListItemTaskMarks] at hx
    simp only [targets, listContainingItem]
    grind [mem_blockMarks]
  | _ => exact mem_singleton.mpr (mem_blockMarks hx)

end Document

/-! ## Direct edits -/

/-- An edit of a top-level block by its id. The block is looked up in the index, or is the first
    with this id; it gets another text and other marks, unless the edit is refused. -/
structure DirectEdit where
  blockId : BlockId
  indexed : Bool
  update : Block → Option ((Sequence TextUnit → Sequence TextUnit) × MarkSet)

namespace DirectEdit

/-- The block that is found, with the element id it stands under. -/
def found (edit : DirectEdit) (d : Document) : Option (OpId × Block) :=
  (if edit.indexed then d.blockElemId edit.blockId
    else (d.blocks.iter.find? (fun b => b.id = edit.blockId)).map Block.elemId).bind
      (fun e => (d.blocks.value? e).map (fun b => (e, b)))

def run (edit : DirectEdit) (d : Document) : Option Document :=
  (edit.found d).bind (fun p => (edit.update p.2).map (fun new => { d with
    blocks := d.blocks.updateValue p.1
      { p.2 with kind := p.2.kind.modifyText new.1, marks := new.2 } }))

end DirectEdit

inductive SourceStep where
  | doc (op : DocOp)
  | direct (edit : DirectEdit)

namespace SourceStep
variable [Segmentation]

def run (d : Document) : SourceStep → Document
  | .doc op => applyDocOp d op
  | .direct edit => (edit.run d).getD d

/-- Mark what a step works on. -/
def mark (d : Document) (source : DocumentSource) : SourceStep → DocumentSource
  | .doc op => (d.marks op).foldl DocumentSource.markElemDirty source
  | .direct edit => if (edit.run d).isSome then source.markBlockDirty edit.blockId else source

end SourceStep

namespace SourcedDocument
variable [Segmentation]

def apply (d : SourcedDocument) (step : SourceStep) : SourcedDocument where
  document := step.run d.document
  source := d.source.map (fun source => step.mark d.document source)

def applyAll (d : SourcedDocument) (steps : List SourceStep) : SourcedDocument :=
  steps.foldl apply d

end SourcedDocument
end MdCrdt
