import MdCrdt.Core.Mark
import MdCrdt.Doc.Text

/- Tables (`doc/mod.rs`): two replicated sequences, of columns and of rows, and a map
  of cells addressed by logical row and column ids.

  A move re-inserts the row or column under the id of the move and leaves the old
  element as a tombstone; a move that loses, or meets a deleted row, still leaves
  a tombstone under its own id. A move that arrives before its row waits in
  `pendingRowMoves`.

  Correspondence (Rust ↔ Lean):
    the win test of `TableCell::set`, `causal_write_wins`,
      `set_column_alignment_observed` ↔ `causalWriteWins`
    the `InsertTableRow` arm of `apply_envelope_to_document` ↔ `Table.applyInsertRow`
    the `InsertTableColumn` arm ↔ `Table.applyInsertColumn`
    the `DeleteTableRowById`, `DeleteTableColumnById` arms ↔ `removeRowById`, `removeColumnById` -/
namespace MdCrdt
open Lib

/-- Does an incoming write replace the current one? It does if it saw the current write, or if
    neither saw the other and its id is not smaller. -/
def causalWriteWins (currentId : OpId) (currentObserved : StateVector) (incomingId : OpId)
    (incomingObserved : StateVector) : Bool :=
  decide (incomingObserved.covers currentId) ||
    (!decide (currentObserved.covers incomingId) && decide (currentId ≤ incomingId))

inductive ColumnAlignment where
  | left | center | right
  deriving DecidableEq, Repr

structure ColumnDef where
  alignment : ColumnAlignment
  deriving DecidableEq, Repr

structure TableColumn where
  id : BlockId
  elemId : OpId
  deleted : LwwRegister Bool
  alignment : LwwRegister ColumnAlignment
  alignmentObserved : StateVector
  placementObserved : StateVector
  deriving DecidableEq

structure TableRow where
  id : BlockId
  elemId : OpId
  deleted : LwwRegister Bool
  placementObserved : StateVector
  deriving DecidableEq

structure CellAddress where
  rowId : BlockId
  columnId : BlockId
  deriving Repr

namespace CellAddress

def key (a : CellAddress) : BlockId ×ₗ BlockId := toLex (a.rowId, a.columnId)

theorem key_injective : Function.Injective key
  | ⟨_, _⟩, ⟨_, _⟩, h => by simpa [key] using h

instance : LinearOrder CellAddress := LinearOrder.lift' key key_injective

end CellAddress

structure TableCell where
  value : String
  opId : OpId
  observed : StateVector
  deriving DecidableEq

def TableCell.set (cell : TableCell) (value : String) (opId : OpId) (observed : StateVector) :
    TableCell :=
  if causalWriteWins cell.opId cell.observed opId observed then ⟨value, opId, observed⟩ else cell

structure PendingTableMove where
  logicalId : BlockId
  target : OpId
  id : OpId
  after : Option OpId
  rightOrigin : Option OpId
  observed : StateVector
  deriving DecidableEq

structure PendingColumnAlignment where
  columnId : BlockId
  alignment : ColumnAlignment
  id : OpId
  observed : StateVector
  deriving DecidableEq

structure Table where
  id : BlockId
  elemId : OpId
  deleted : LwwRegister Bool
  columns : Sequence TableColumn
  rows : Sequence TableRow
  cells : SortedMap CellAddress TableCell
  pendingRowMoves : List PendingTableMove
  pendingColumnMoves : List PendingTableMove
  pendingColumnAlignments : List PendingColumnAlignment
  deriving DecidableEq

namespace Table

def new (id : BlockId) (elemId opId : OpId) : Table :=
  { id := id, elemId := elemId, deleted := ⟨false, opId⟩, columns := .new,
    rows := .new, cells := .empty, pendingRowMoves := [],
    pendingColumnMoves := [], pendingColumnAlignments := [] }

def headerRowId (t : Table) : BlockId := t.id

def setCellObserved (t : Table) (rowId columnId : BlockId) (value : String) (opId : OpId)
    (observed : StateVector) : Table :=
  let address : CellAddress := ⟨rowId, columnId⟩
  let cell := match t.cells.get? address with
    | some cell => cell.set value opId observed
    | none => ⟨value, opId, observed⟩
  { t with cells := t.cells.insert address cell }

def setCell (t : Table) (rowId columnId : BlockId) (value : String) (opId : OpId) : Table :=
  t.setCellObserved rowId columnId value opId .new

def columnsInOrder (t : Table) : List TableColumn := t.columns.iter

def columnById (t : Table) (columnId : BlockId) : Option TableColumn :=
  t.columns.iter.find? (fun column => column.id = columnId)

def rowsInOrder (t : Table) : List TableRow := t.rows.iter

def rowById (t : Table) (rowId : BlockId) : Option TableRow :=
  t.rows.iter.find? (fun row => row.id = rowId)

def rowIsLive (t : Table) (rowId : BlockId) : Bool :=
  decide (rowId = t.headerRowId) || (t.rowById rowId).isSome

def cellValue (t : Table) (rowId columnId : BlockId) : Option String :=
  if t.rowIsLive rowId && (t.columnById columnId).isSome then
    (t.cells.get? ⟨rowId, columnId⟩).map TableCell.value
  else none

def setColumnAlignmentObserved (t : Table) (columnId : BlockId) (alignment : ColumnAlignment)
    (opId : OpId) (observed : StateVector) : Table :=
  match t.columnById columnId with
  | none => { t with pendingColumnAlignments :=
      t.pendingColumnAlignments ++ [⟨columnId, alignment, opId, observed⟩] }
  | some column =>
    if causalWriteWins column.alignment.opId column.alignmentObserved opId observed then
      let updated := { column with alignment := ⟨alignment, opId⟩, alignmentObserved := observed }
      { t with columns := t.columns.updateValue column.elemId updated }
    else t

def removeRow (t : Table) (target opId : OpId) : Table :=
  let rows := match t.rows.value? target with
    | some row => t.rows.updateValue target { row with deleted := row.deleted.set true opId }
    | none => t.rows
  { t with rows := rows.delete target opId }

/-- Delete a row wherever it stands now. -/
def removeRowById (t : Table) (rowId : BlockId) (target opId : OpId) : Table :=
  t.removeRow (((t.rowById rowId).map TableRow.elemId).getD target) opId

def removeColumnById (t : Table) (columnId : BlockId) (target opId : OpId) : Table :=
  { t with columns :=
      t.columns.delete (((t.columnById columnId).map TableColumn.elemId).getD target) opId }

/-- A placement that has been moved before keeps its place against a move that did not see it
    and is older, or that it saw. -/
def moveLoses (logicalId : BlockId) (elemId : OpId) (placementObserved : StateVector) (id : OpId)
    (observed : StateVector) : Bool :=
  decide (blockIdFromOp elemId ≠ logicalId) && !decide (observed.covers elemId) &&
    (decide (placementObserved.covers id) || decide (id ≤ elemId))

def moveRow (t : Table) (rowId : BlockId) (target id : OpId) (after rightOrigin : Option OpId)
    (observed : StateVector) : Table × Bool :=
  match t.rowById rowId with
  | none =>
    if (t.rows.getElement target).isNone then
      ({ t with pendingRowMoves :=
          t.pendingRowMoves ++ [⟨rowId, target, id, after, rightOrigin, observed⟩] }, false)
    else if (t.rows.getElement id).isNone then
      let tombstone : TableRow := ⟨rowId, id, ⟨true, id⟩, observed⟩
      ({ t with rows := (t.rows.apply (.insert after id tombstone rightOrigin)).delete id id }, false)
    else (t, false)
  | some row =>
    if moveLoses row.id row.elemId row.placementObserved id observed then
      if (t.rows.getElement id).isNone then
        let lost := { row with elemId := id }
        ({ t with rows := (t.rows.apply (.insert after id lost rightOrigin)).delete id id }, false)
      else (t, false)
    else
      let moved := { row with elemId := id, placementObserved := observed }
      let rows := t.rows.delete row.elemId id
      ({ t with rows := rows.apply (.insert after id moved rightOrigin) }, true)

def moveColumn (t : Table) (columnId : BlockId) (target id : OpId) (after rightOrigin : Option OpId)
    (observed : StateVector) : Table × Bool :=
  match t.columnById columnId with
  | none =>
    if (t.columns.getElement target).isNone then
      ({ t with pendingColumnMoves :=
          t.pendingColumnMoves ++ [⟨columnId, target, id, after, rightOrigin, observed⟩] }, false)
    else if (t.columns.getElement id).isNone then
      let tombstone : TableColumn :=
        ⟨columnId, id, ⟨true, id⟩, ⟨.left, id⟩, .new, observed⟩
      ({ t with columns :=
          (t.columns.apply (.insert after id tombstone rightOrigin)).delete id id }, false)
    else (t, false)
  | some column =>
    if moveLoses column.id column.elemId column.placementObserved id observed then
      if (t.columns.getElement id).isNone then
        let lost := { column with elemId := id }
        ({ t with columns := (t.columns.apply (.insert after id lost rightOrigin)).delete id id },
          false)
      else (t, false)
    else
      let moved := { column with elemId := id, placementObserved := observed }
      let columns := t.columns.delete column.elemId id
      ({ t with columns := columns.apply (.insert after id moved rightOrigin) }, true)

/-- Retry the moves that wait for a row, oldest first. -/
def resolvePendingRowMoves (t : Table) (rowId : BlockId) : Table :=
  (t.pendingRowMoves.insertionSort (fun a b => a.id ≤ b.id)).foldl (fun t movement =>
    if movement.logicalId = rowId then
      (t.moveRow rowId movement.target movement.id movement.after movement.rightOrigin
        movement.observed).1
    else { t with pendingRowMoves := t.pendingRowMoves ++ [movement] })
    { t with pendingRowMoves := [] }

def resolvePendingColumnMoves (t : Table) (columnId : BlockId) : Table :=
  (t.pendingColumnMoves.insertionSort (fun a b => a.id ≤ b.id)).foldl (fun t movement =>
    if movement.logicalId = columnId then
      (t.moveColumn columnId movement.target movement.id movement.after movement.rightOrigin
        movement.observed).1
    else { t with pendingColumnMoves := t.pendingColumnMoves ++ [movement] })
    { t with pendingColumnMoves := [] }

def resolvePendingAlignments (t : Table) (columnId : BlockId) : Table :=
  (t.pendingColumnAlignments.insertionSort (fun a b => a.id ≤ b.id)).foldl (fun t alignment =>
    if alignment.columnId = columnId then
      t.setColumnAlignmentObserved columnId alignment.alignment alignment.id alignment.observed
    else { t with pendingColumnAlignments := t.pendingColumnAlignments ++ [alignment] })
    { t with pendingColumnAlignments := [] }

def resolvePendingColumnOps (t : Table) (columnId : BlockId) : Table :=
  (t.resolvePendingColumnMoves columnId).resolvePendingAlignments columnId

def applyInsertRow (t : Table) (after : Option OpId) (id : OpId) (rightOrigin : Option OpId)
    (cells : List (BlockId × String)) : Table :=
  let rowId := blockIdFromOp id
  let row : TableRow := ⟨rowId, id, ⟨false, id⟩, .new⟩
  let t := { t with rows := t.rows.apply (.insert after id row rightOrigin) }
  let t := cells.foldl (fun t cell => t.setCell rowId cell.1 cell.2 id) t
  t.resolvePendingRowMoves rowId

def applyInsertColumn (t : Table) (after : Option OpId) (id : OpId) (rightOrigin : Option OpId)
    (alignment : ColumnAlignment) (header : String) : Table :=
  let columnId := blockIdFromOp id
  let column : TableColumn :=
    ⟨columnId, id, ⟨false, id⟩, ⟨alignment, id⟩, .new, .new⟩
  let t := { t with columns := t.columns.apply (.insert after id column rightOrigin) }
  let t := t.setCell t.headerRowId columnId header id
  t.resolvePendingColumnOps columnId

/-- What waited is taken or put back, one by one. -/
theorem foldl_resolve {M : Type} {I : Table → Prop} {Q c : M → Prop} [DecidablePred c]
    {r : M → M → Prop} [DecidableRel r] {take put : Table → M → Table} {l : List M} (ht : I t)
    (hl : ∀ m ∈ l, Q m) (htake : ∀ t m, I t → Q m → c m → I (take t m))
    (hput : ∀ t m, I t → Q m → I (put t m)) :
    I ((l.insertionSort r).foldl (fun t m => if c m then take t m else put t m) t) := by
  refine List.foldlRecOn _ _ ht (fun t ht m hm => ?_)
  have hm := hl m ((List.perm_insertionSort _ _).mem_iff.mp hm)
  split
  · next hc => exact htake t m ht hm hc
  · exact hput t m ht hm

/-! ## What the edits of a table keep -/

/-- A property of tables that the small steps of moves and alignments keep. -/
structure Tablewise where
  table : Table → Prop
  /-- Moves and alignments that may be made. -/
  rowMove : PendingTableMove → Prop
  columnMove : PendingTableMove → Prop
  aligns : PendingColumnAlignment → Prop
  rowMoves {t} : table t → ∀ m ∈ t.pendingRowMoves, rowMove m
  columnMoves {t} : table t → ∀ m ∈ t.pendingColumnMoves, columnMove m
  alignments {t} : table t → ∀ a ∈ t.pendingColumnAlignments, aligns a
  waitRows {t l} : table t → (∀ m ∈ l, rowMove m) → table { t with pendingRowMoves := l }
  waitColumns {t l} : table t → (∀ m ∈ l, columnMove m) → table { t with pendingColumnMoves := l }
  waitAlignments {t l} : table t → (∀ a ∈ l, aligns a) →
    table { t with pendingColumnAlignments := l }
  loseRow {t m} {row : TableRow} : table t → rowMove m → row.id = m.logicalId → row.elemId = m.id →
    table { t with
      rows := (t.rows.apply (.insert m.after m.id row m.rightOrigin)).delete m.id m.id }
  takeRow {t m row} : table t → rowMove m → t.rowById m.logicalId = some row →
    table { t with rows := (t.rows.delete row.elemId m.id).apply (.insert m.after m.id
      { row with elemId := m.id, placementObserved := m.observed } m.rightOrigin) }
  loseColumn {t m} {column : TableColumn} : table t → columnMove m → column.id = m.logicalId →
    column.elemId = m.id → (column.alignment.opId = m.id ∨ ∃ c,
      t.columnById m.logicalId = some c ∧ column.alignment = c.alignment) →
    table { t with
      columns := (t.columns.apply (.insert m.after m.id column m.rightOrigin)).delete m.id m.id }
  takeColumn {t m column} : table t → columnMove m → t.columnById m.logicalId = some column →
    table { t with columns := (t.columns.delete column.elemId m.id).apply (.insert m.after m.id
      { column with elemId := m.id, placementObserved := m.observed } m.rightOrigin) }
  align {t a} : table t → aligns a →
    table (t.setColumnAlignmentObserved a.columnId a.alignment a.id a.observed)

namespace Tablewise
variable (X : Tablewise) {t : Table} {m : PendingTableMove} {after ro : Option OpId} {id : OpId}

section
variable (h : X.table t)
include h

theorem moveRow (hm : X.rowMove m) :
    X.table (t.moveRow m.logicalId m.target m.id m.after m.rightOrigin m.observed).1 := by
  unfold Table.moveRow
  split
  · split
    · exact X.waitRows h (forall_mem_push (X.rowMoves h) hm)
    · split
      · exact X.loseRow h hm rfl rfl
      · exact h
  · next row hrow =>
    split
    · split
      · exact X.loseRow h hm (by simpa using List.find?_some hrow) rfl
      · exact h
    · exact X.takeRow h hm hrow

theorem moveColumn (hm : X.columnMove m) :
    X.table (t.moveColumn m.logicalId m.target m.id m.after m.rightOrigin m.observed).1 := by
  unfold Table.moveColumn
  split
  · split
    · exact X.waitColumns h (forall_mem_push (X.columnMoves h) hm)
    · split
      · exact X.loseColumn h hm rfl rfl (.inl rfl)
      · exact h
  · next column hcol =>
    split
    · split
      · exact X.loseColumn h hm (by simpa using List.find?_some hcol) rfl (.inr ⟨_, hcol, rfl⟩)
      · exact h
    · exact X.takeColumn h hm hcol

theorem resolvePendingRowMoves (rowId) : X.table (t.resolvePendingRowMoves rowId) :=
  foldl_resolve (I := X.table) (X.waitRows h (by simp)) (X.rowMoves h)
    (fun _ _ ht hm hl => hl ▸ X.moveRow ht hm)
    (fun _ _ ht hm => X.waitRows ht (forall_mem_push (X.rowMoves ht) hm))

theorem resolvePendingColumnOps (columnId) : X.table (t.resolvePendingColumnOps columnId) := by
  have hmoves : X.table (t.resolvePendingColumnMoves columnId) :=
    foldl_resolve (I := X.table) (X.waitColumns h (by simp)) (X.columnMoves h)
      (fun _ _ ht hm hl => hl ▸ X.moveColumn ht hm)
      (fun _ _ ht hm => X.waitColumns ht (forall_mem_push (X.columnMoves ht) hm))
  exact foldl_resolve (I := X.table) (X.waitAlignments hmoves (by simp)) (X.alignments hmoves)
    (fun _ _ ht ha hl => hl ▸ X.align ht ha)
    (fun _ _ ht ha => X.waitAlignments ht (forall_mem_push (X.alignments ht) ha))

end

section
variable (hcell : ∀ t rowId columnId value, X.table t → X.table (t.setCell rowId columnId value id))
include hcell

theorem applyInsertRow {cells} (h : X.table { t with rows := t.rows.apply (.insert after id
      ⟨blockIdFromOp id, id, ⟨false, id⟩, .new⟩ ro) }) :
    X.table (t.applyInsertRow after id ro cells) :=
  X.resolvePendingRowMoves (List.foldlRecOn cells _ h (fun t ht _ _ => hcell t _ _ _ ht)) _

theorem applyInsertColumn (h : X.table { t with columns := t.columns.apply (.insert
      after id ⟨blockIdFromOp id, id, ⟨false, id⟩, ⟨alignment, id⟩, .new, .new⟩
      ro) }) :
    X.table (t.applyInsertColumn after id ro alignment header) :=
  X.resolvePendingColumnOps (hcell _ _ _ _ h) _

end
end Tablewise

end Table
end MdCrdt
