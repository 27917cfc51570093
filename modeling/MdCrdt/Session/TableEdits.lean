import MdCrdt.Doc.Placement
import MdCrdt.Session.Registers

/- Table edits made on one base without each other in view.

  What a list of such edits leads to is said field by field and without reference
  to their order: the layouts of rows and columns (`Layout.after`), and for every
  column alignment and every cell the register of the writes that reach it.
  `After` collects these equations; each edit keeps them (`After.step`), so they hold
  after every list (`After.run`). -/
namespace MdCrdt
open Lib List Option TableColumn Sequence Written PlaceOp
variable {rowId : BlockId} {columnId : BlockId}

/-- The table operations, without the address of the table. -/
inductive TableOp where
  | insertRow (after : Option OpId) (id : OpId) (rightOrigin : Option OpId)
      (cells : List (BlockId × String))
  | insertColumn (after : Option OpId) (id : OpId) (rightOrigin : Option OpId)
      (alignment : ColumnAlignmentWire) (header : String)
  | setCell (rowId columnId : BlockId) (id : OpId) (value : String) (observed : StateVector)
  | removeRow (target : OpId) (rowId : BlockId) (id : OpId)
  | removeColumn (target : OpId) (columnId : BlockId) (id : OpId)
  | setAlignment (columnId : BlockId) (id : OpId) (alignment : ColumnAlignmentWire)
      (observed : StateVector)
  | moveRow (rowId : BlockId) (target id : OpId) (after rightOrigin : Option OpId)
      (observed : StateVector)
  | moveColumn (columnId : BlockId) (target id : OpId) (after rightOrigin : Option OpId)
      (observed : StateVector)

open TableOp

namespace TableOp

def id : TableOp → OpId
  | insertRow _ id _ _ | insertColumn _ id _ _ _ | setCell _ _ id _ _ | removeRow _ _ id
  | removeColumn _ _ id | setAlignment _ id _ _ | moveRow _ _ id _ _ _ | moveColumn _ _ id _ _ _ =>
    id

/-- What the author had observed, for the operations that say so. -/
def observed : TableOp → Option StateVector
  | setCell _ _ _ _ observed | setAlignment _ _ _ observed | moveRow _ _ _ _ _ observed
  | moveColumn _ _ _ _ _ observed => some observed
  | insertRow _ _ _ _ | insertColumn _ _ _ _ _ | removeRow _ _ _ | removeColumn _ _ _ => none

def run (t : Table) (op : TableOp) : Table :=
  match op with
  | insertRow after id ro cells => t.applyInsertRow after id ro cells
  | insertColumn after id ro alignment header =>
    t.applyInsertColumn after id ro (alignmentFromWire alignment) header
  | setCell rowId columnId id value observed => t.setCellObserved rowId columnId value id observed
  | removeRow target rowId id => t.removeRowById rowId target id
  | removeColumn target columnId id => t.removeColumnById columnId target id
  | setAlignment columnId id alignment observed =>
    t.setColumnAlignmentObserved columnId (alignmentFromWire alignment) id observed
  | moveRow rowId target id after ro observed => (t.moveRow rowId target id after ro observed).1
  | moveColumn columnId target id after ro observed =>
    (t.moveColumn columnId target id after ro observed).1

/-- The edit of the rows. -/
def onRows : TableOp → Option PlaceOp
  | insertRow after id ro _ => some (.add id after ro)
  | removeRow _ rowId _ => some (.remove rowId)
  | moveRow rowId _ id after ro observed => some (.move rowId id after ro observed)
  | _ => none

/-- The edit of the columns. -/
def onColumns : TableOp → Option PlaceOp
  | insertColumn after id ro _ _ => some (.add id after ro)
  | removeColumn _ columnId _ => some (.remove columnId)
  | moveColumn columnId _ id after ro observed => some (.move columnId id after ro observed)
  | _ => none

/-- The write to the alignment of a column. -/
def alignmentWrite (columnId : BlockId) : TableOp → Option (Written ColumnAlignmentWire)
  | setAlignment column id alignment observed =>
    if column = columnId then some ⟨alignment, id, observed⟩ else none
  | insertColumn _ id _ alignment _ =>
    if blockIdFromOp id = columnId then some ⟨alignment, id, .new⟩ else none
  | _ => none

/-- The writes to a cell; `header` is the id of the header row. -/
def cellWrites (header : BlockId) (a : CellAddress) : TableOp → List (Written String)
  | setCell rowId columnId id value observed =>
    if a = ⟨rowId, columnId⟩ then [⟨value, id, observed⟩] else []
  | insertRow _ id _ cells =>
    cells.flatMap (fun cell =>
      if a = ⟨blockIdFromOp id, cell.1⟩ then [⟨cell.2, id, .new⟩] else [])
  | insertColumn _ id _ _ text =>
    if a = ⟨header, blockIdFromOp id⟩ then [⟨text, id, .new⟩] else []
  | _ => []

end TableOp

/-! ## The base -/

def TableRow.place (row : TableRow) : Place := ⟨row.id, row.elemId, row.placementObserved⟩

def TableColumn.place (column : TableColumn) : Place :=
  ⟨column.id, column.elemId, column.placementObserved⟩

/-- Every live value knows its element, and no two stand for one logical id. -/
structure Placed {T : Type} (place : T → Place) (s : Sequence T) : Prop where
  ordered : s.Ordered
  elem : ∀ e ∈ s.elements, ∀ v, e.value = some v → (place v).elemId = e.id
  unique : ∀ v ∈ s.iter, ∀ w ∈ s.iter, (place v).logicalId = (place w).logicalId → v = w

/-- The layout a sequence shows. -/
def Layout.of {T : Type} (place : T → Place) (s : Sequence T) : Layout where
  slots := s.elements.map (fun e =>
    ⟨e.id, e.after, e.rightOrigin, e.value.map (fun v => (place v).logicalId)⟩)
  holder l := (s.iter.find? (fun v => (place v).logicalId = l)).map place

section Base
variable {T : Type} {place : T → Place} {s : Sequence T}

theorem Layout.slots_of : (Layout.of place s).slots = s.elements.map (fun e =>
    ⟨e.id, e.after, e.rightOrigin, e.value.map (fun v => (place v).logicalId)⟩) := rfl

theorem Layout.slotIds_of : (Layout.of place s).slotIds = s.elementIds := by
  simp [Layout.slotIds, Layout.of, elementIds]

theorem Placed.holder (h : Placed place s) (hv : v ∈ s.iter) :
    (Layout.of place s).holder (place v).logicalId = some (place v) := by
  cases hf : s.iter.find? (fun w => (place w).logicalId = (place v).logicalId) with
  | none => simpa using find?_eq_none.mp hf v hv
  | some w =>
    have hw : (place w).logicalId = (place v).logicalId := by simpa using find?_some hf
    obtain rfl := h.unique w (mem_of_find?_eq_some hf) v hv hw
    simp [Layout.of, hf]

theorem Placed.shows (h : Placed place s) : Shows place s (Layout.of place s) := by
  refine ⟨h.ordered, Perm.of_eq ?_⟩
  rw [Layout.slots_of, List.map_map]
  refine map_congr_left (fun e he => ?_)
  cases hv : e.value with
  | none => simp [Element.map, Layout.render, hv]
  | some v =>
    have hhold := h.holder (mem_filterMap.mpr ⟨e, he, hv⟩)
    simp [Element.map, Layout.render, hv, hhold, filter_some, h.elem e he v hv]

theorem Placed.sound (h : Placed place s) : (Layout.of place s).Sound where
  nodup := by
    rw [Layout.slotIds_of]
    exact h.ordered.grounded.distinct
  held l p hp := by
    obtain ⟨v, hv, rfl⟩ := map_eq_some_iff.mp hp
    obtain ⟨e, he, hev⟩ := mem_filterMap.mp (mem_of_find?_eq_some hv)
    have hl : (place v).logicalId = l := by simpa using find?_some hv
    exact ⟨hl, _, mem_map_of_mem he, (h.elem e he v hev).symm, by simp [hev, hl]⟩

/-- The element of a value of the base stays known. -/
theorem Placed.known (h : Placed place s₀)
    (hs : Shows place s ((Layout.of place s₀).after ops)) (hv : v ∈ s₀.iter) :
    (place v).elemId ∈ s.elementIds := by
  obtain ⟨e, he, hev⟩ := mem_filterMap.mp hv
  rw [hs.mem_ids, h.elem e he v hev]
  apply Layout.mem_slotIds_after
  rw [Layout.slotIds_of]
  exact mem_map_of_mem he

theorem getElement_isNone_false (h : s.Indexed) {id} (hid : id ∈ s.elementIds) :
    (s.getElement id).isNone = false := by
  rwa [Bool.eq_false_iff, Ne, isNone_iff_eq_none, getElement_eq_none h, not_not]

end Base

namespace Table

/-- Rows and columns are placed. -/
structure WellFormed (t : Table) : Prop where
  rows : Placed TableRow.place t.rows
  columns : Placed place t.columns

/-- The table does not mention the id. -/
structure Fresh (t : Table) (id : OpId) : Prop where
  rows : t.rows.Unknown id
  columns : t.columns.Unknown id
  header : t.headerRowId ≠ blockIdFromOp id
  rowIds : ∀ row ∈ t.rows.iter, row.id ≠ blockIdFromOp id
  columnIds : ∀ column ∈ t.columns.iter, column.id ≠ blockIdFromOp id
  rowMoves : ∀ m ∈ t.pendingRowMoves, m.logicalId ≠ blockIdFromOp id
  columnMoves : ∀ m ∈ t.pendingColumnMoves, m.logicalId ≠ blockIdFromOp id
  alignments : ∀ a ∈ t.pendingColumnAlignments, a.columnId ≠ blockIdFromOp id

/-- Who wrote what a later write may replace. -/
def writers (t : Table) : List OpId :=
  t.rows.iter.map TableRow.elemId ++ t.columns.iter.map TableColumn.elemId ++
    t.columns.iter.map (fun column => column.alignment.opId) ++ t.cells.values.map TableCell.opId

end Table

/-- The checks a session makes before it creates the operation. -/
def TableOp.Fits (t : Table) : TableOp → Prop
  | insertRow after _ _ cells =>
    t.rows.Anchored after ∧ (cells.map Prod.fst).Nodup
  | insertColumn after _ _ _ _ => t.columns.Anchored after
  | setCell rowId columnId _ _ _ =>
    (rowId = t.headerRowId ∨ (t.rowById rowId).isSome) ∧ (t.columnById columnId).isSome
  | removeRow target rowId _ => ∃ row, t.rows.value? target = some row ∧ row.id = rowId
  | removeColumn target columnId _ => (t.columnById columnId).map elemId = some target
  | setAlignment columnId _ _ _ => (t.columnById columnId).isSome
  | moveRow rowId target _ after _ _ =>
    (t.rowById rowId).map TableRow.elemId = some target ∧ t.rows.Anchored after
  | moveColumn columnId target _ after _ _ =>
    (t.columnById columnId).map elemId = some target ∧ t.columns.Anchored after

/-- Operations made on the table, none with another in view. -/
structure Table.Concurrent (t : Table) (ops : List TableOp) : Prop where
  fits : ∀ op ∈ ops, op.Fits t
  fresh : ∀ op ∈ ops, t.Fresh op.id
  nodup : (ops.map TableOp.id).Nodup
  seen : ∀ op ∈ ops, ∀ obs, op.observed = some obs → ∀ w ∈ t.writers, obs.covers w
  apart : ∀ op ∈ ops, ∀ obs, op.observed = some obs → ∀ op' ∈ ops, ¬obs.covers op'.id

section Concurrent
variable {t₀ : Table} {ops ops' : List TableOp} {op : TableOp}

theorem Table.Concurrent.mono (h : t₀.Concurrent ops) (hs : ops' ⊆ ops)
    (hn : (ops'.map TableOp.id).Nodup) : t₀.Concurrent ops' where
  fits op hop := h.fits op (hs hop)
  fresh op hop := h.fresh op (hs hop)
  nodup := hn
  seen op hop := h.seen op (hs hop)
  apart op hop obs ho op' hop' := h.apart op (hs hop) obs ho op' (hs hop')

theorem Table.Concurrent.perm (h : t₀.Concurrent ops) (hp : ops.Perm ops') : t₀.Concurrent ops' :=
  h.mono hp.symm.subset ((hp.map _).nodup_iff.mp h.nodup)

section
variable (h : t₀.Concurrent (ops ++ [op]))
include h

theorem Table.Concurrent.fresh_last : t₀.Fresh op.id :=
  h.fresh op (mem_append_right _ mem_cons_self)

theorem Table.Concurrent.fits_last : op.Fits t₀ :=
  h.fits op (mem_append_right _ mem_cons_self)

theorem Table.Concurrent.init : t₀.Concurrent ops := by
  have hn := h.nodup
  rw [map_append] at hn; exact h.mono (subset_append_left _ _) hn.of_append_left

end

/-- An edit of a sequence of rows or columns fits the base. -/
def PlaceOp.Fits {T : Type} (place : T → Place) (s : Sequence T) : PlaceOp → Prop
  | add _ after _ => s.Anchored after
  | move l _ after _ _ => (∃ v ∈ s.iter, (place v).logicalId = l) ∧ s.Anchored after
  | remove l => ∃ v ∈ s.iter, (place v).logicalId = l

/-- `f` reads the edits of one of the two sequences off the operations. -/
structure Reads {T : Type} (place : T → Place) (s : Sequence T) (t : Table)
    (f : TableOp → Option PlaceOp) : Prop where
  slot_id : ∀ {op p x}, f op = some p → p.slot = some x → x.id = op.id
  observed : ∀ {op l id after ro obs}, f op = some (.move l id after ro obs) →
    op.observed = some obs
  fits : ∀ {op p}, op.Fits t → f op = some p → p.Fits place s
  unknown : ∀ {id}, t.Fresh id → s.Unknown id
  logical : ∀ {id}, t.Fresh id → ∀ v ∈ s.iter, (place v).logicalId ≠ blockIdFromOp id
  writers : ∀ v ∈ s.iter, (place v).elemId ∈ t.writers

section Reads
variable {T : Type} {place : T → Place} {s : Sequence T} {f : TableOp → Option PlaceOp}

/-- Ids of distinct operations give distinct slots, new to the base. -/
theorem Table.Concurrent.fresh_slots (h : t₀.Concurrent ops) (hr : Reads place s t₀ f)
    (hs : s.Ordered) : ((Layout.of place s).slotIds ++
      (((ops.filterMap f).filterMap slot).map Slot.id)).Nodup := by
  have hsub : (((ops.filterMap f).filterMap slot).map Slot.id).Sublist
      (ops.map TableOp.id) := by
    clear h
    induction ops with
    | nil => simp
    | cons op ops ih =>
      cases hf : f op with
      | none => simpa [hf] using ih.cons op.id
      | some p =>
        cases hx : p.slot with
        | none => simpa [hf, hx] using ih.cons op.id
        | some x => simpa [hf, hx, hr.slot_id hf hx] using ih.cons_cons op.id
  refine nodup_append.mpr ⟨?_, hsub.nodup h.nodup, ?_⟩
  · rw [Layout.slotIds_of]
    exact hs.grounded.distinct
  · rintro a ha c hc rfl
    rw [Layout.slotIds_of] at ha
    obtain ⟨op, hop, rfl⟩ := mem_map.mp (hsub.subset hc)
    exact (hr.unknown (h.fresh op hop)).notMem ha

theorem Table.Concurrent.layout (h : t₀.Concurrent ops) (hr : Reads place s t₀ f)
    (hp : Placed place s) : (Layout.of place s).Concurrent (ops.filterMap f) where
  fresh := h.fresh_slots hr hp.ordered
  anchored x hx a ha := by
    obtain ⟨p, hp, hslot⟩ := mem_filterMap.mp hx
    obtain ⟨op, hop, hf⟩ := mem_filterMap.mp hp
    have hfits := hr.fits (h.fits op hop) hf
    rw [Layout.slotIds_of]
    cases p with
    | add id after ro =>
      obtain rfl := some.inj hslot
      exact hfits a ha
    | move l id after ro obs =>
      obtain rfl := some.inj hslot
      exact hfits.2 a ha
    | remove l => cases hslot
  adds id after ro hm := by
    obtain ⟨op, hop, hf⟩ := mem_filterMap.mp hm
    have hid : id = op.id := hr.slot_id hf rfl
    have hnone : s.iter.find? (fun v => (place v).logicalId = blockIdFromOp id) = none := by
      rw [find?_eq_none]
      intro v hv
      simpa [hid] using hr.logical (h.fresh op hop) v hv
    simp only [Layout.of, hnone, map_none]
  removes l hm := by
    obtain ⟨op, hop, hf⟩ := mem_filterMap.mp hm
    obtain ⟨v, hv, rfl⟩ := hr.fits (h.fits op hop) hf
    rw [hp.holder hv]
    rfl
  moves l id after ro obs hm := by
    obtain ⟨op, hop, hf⟩ := mem_filterMap.mp hm
    obtain ⟨⟨v, hv, rfl⟩, -⟩ := hr.fits (h.fits op hop) hf
    have hid : id = op.id := hr.slot_id hf rfl
    refine ⟨fun he => hr.logical (h.fresh op hop) v hv (by rw [← hid, he]), _, hp.holder hv, ?_⟩
    exact .inr (h.seen op hop obs (hr.observed hf) _ (hr.writers v hv))
  apart l id after ro obs hm l' id' after' ro' obs' hm' := by
    obtain ⟨op, hop, hf⟩ := mem_filterMap.mp hm
    obtain ⟨op', hop', hf'⟩ := mem_filterMap.mp hm'
    have hid : id' = op'.id := hr.slot_id hf' rfl
    exact hid ▸ h.apart op hop obs (hr.observed hf) op' hop'

end Reads

theorem value?_mem_iter {T : Type} {s : Sequence T} (hs : s.Indexed) {id v}
    (h : s.value? id = some v) : v ∈ s.iter := by
  obtain ⟨e, he, hv⟩ := bind_eq_some_iff.mp h
  exact mem_filterMap.mpr ⟨e, ((getElement_eq_some hs).mp he).1, hv⟩

theorem rowById_spec {t : Table} {row : TableRow}
    (h : t.rowById rowId = some row) : row ∈ t.rows.iter ∧ row.id = rowId :=
  ⟨mem_of_find?_eq_some h, by simpa using find?_some h⟩

theorem columnById_spec {t : Table} {column : TableColumn}
    (h : t.columnById columnId = some column) : column ∈ t.columns.iter ∧ column.id = columnId :=
  ⟨mem_of_find?_eq_some h, by simpa using find?_some h⟩

theorem reads_rows (hw : t₀.WellFormed) : Reads TableRow.place t₀.rows t₀ onRows where
  slot_id {op p x} h hx := by
    cases op <;> simp only [onRows, some.injEq, reduceCtorEq] at h <;> subst h <;>
      simp only [slot, some.injEq, reduceCtorEq] at hx <;> subst hx <;> rfl
  observed {op l id after ro obs} h := by
    cases op <;> simp only [onRows, some.injEq, reduceCtorEq] at h
    cases h
    rfl
  fits {op p} hfit h := by
    cases op <;> simp only [onRows, some.injEq, reduceCtorEq] at h <;> subst h
    · exact hfit.1
    · obtain ⟨row, hrow, hid⟩ := hfit
      exact ⟨row, value?_mem_iter hw.rows.ordered.toIndexed hrow, hid⟩
    · obtain ⟨hrow, ha⟩ := hfit
      obtain ⟨row, hrow, -⟩ := map_eq_some_iff.mp hrow
      exact ⟨⟨row, rowById_spec hrow⟩, ha⟩
  unknown h := h.rows
  logical h := h.rowIds
  writers v hv := by simp [Table.writers, TableRow.place]; exact .inl ⟨v, hv, rfl⟩

theorem reads_columns (t) : Reads place t.columns t onColumns where
  slot_id {op p x} h hx := by
    cases op <;> simp only [onColumns, some.injEq, reduceCtorEq] at h <;>
      subst h <;> simp only [slot, some.injEq, reduceCtorEq] at hx <;> subst hx <;> rfl
  observed {op l id after ro obs} h := by
    cases op <;> simp only [onColumns, some.injEq, reduceCtorEq] at h
    cases h
    rfl
  fits {op p} hfit h := by
    cases op <;> simp only [onColumns, some.injEq, reduceCtorEq] at h <;> subst h
    · exact hfit
    · obtain ⟨column, hcol, -⟩ := map_eq_some_iff.mp hfit
      exact ⟨column, columnById_spec hcol⟩
    · obtain ⟨hcol, ha⟩ := hfit
      obtain ⟨column, hcol, -⟩ := map_eq_some_iff.mp hcol
      exact ⟨⟨column, columnById_spec hcol⟩, ha⟩
  unknown h := h.columns
  logical h := h.columnIds
  writers v hv := by simp [Table.writers, place]; exact .inr (.inl ⟨v, hv, rfl⟩)

end Concurrent

/-! ## Registers -/

/-- The second write was made with the first in view. -/
def Written.Saw {V : Type} (v w : Written V) : Prop := w.observed.covers v.id

instance {V : Type} : DecidableRel (Saw (V := V)) :=
  fun v w => inferInstanceAs (Decidable (w.observed.covers v.id))

theorem some_arbitrate {V : Type} (current) (w : Written V) :
    some (arbitrate current w) = settle Saw Written.id current w := by
  cases current with
  | none => rfl
  | some c =>
    have hiff : causalWriteWins c.id c.observed w.id w.observed = true ↔
        Replaces Saw Written.id c w := by
      simp [causalWriteWins, Replaces, Saw]
    simp only [arbitrate, settle, hiff]
    split <;> rfl

/-! ## After a list of edits -/

namespace Table
variable (t₀ : Table) (ops : List TableOp)

def rowsAfter : Layout := (Layout.of TableRow.place t₀.rows).after (ops.filterMap onRows)

def columnsAfter : Layout :=
  (Layout.of place t₀.columns).after (ops.filterMap onColumns)

def alignmentAfter (columnId : BlockId) : Option (Written ColumnAlignmentWire) :=
  settleAll Saw Written.id ((t₀.columnById columnId).map writtenAlignment)
    (ops.filterMap (alignmentWrite columnId))

def cellAfter (a : CellAddress) : Option (Written String) :=
  settleAll Saw Written.id ((t₀.cells.get? a).map TableCell.written)
    (ops.flatMap (cellWrites t₀.headerRowId a))

/-- The table `t` is what the edits make of `t₀`. -/
structure After (t : Table) : Prop where
  id : t.id = t₀.id
  rows : Shows TableRow.place t.rows (t₀.rowsAfter ops)
  columns : Shows place t.columns (t₀.columnsAfter ops)
  aligned : ∀ c ∈ t.columns.iter, some c.writtenAlignment = t₀.alignmentAfter ops c.id
  cells : ∀ a, (t.cells.get? a).map TableCell.written = t₀.cellAfter ops a
  rowBuffers : t.rows.SameBuffers t₀.rows
  columnBuffers : t.columns.SameBuffers t₀.columns
  rowMoves : t.pendingRowMoves.Perm t₀.pendingRowMoves
  columnMoves : t.pendingColumnMoves.Perm t₀.pendingColumnMoves
  alignments : ∀ p ∈ t.pendingColumnAlignments,
    p ∈ t₀.pendingColumnAlignments ∨ (t₀.columnById p.columnId).isSome

variable {t₀ ops} {op : TableOp} {t : Table}

theorem rowsAfter_none (h : op.onRows = none) : t₀.rowsAfter (ops ++ [op]) = t₀.rowsAfter ops := by
  simp [rowsAfter, filterMap_append, h]

theorem rowsAfter_some (h : op.onRows = some p) : t₀.rowsAfter (ops ++ [op]) =
    (Layout.of TableRow.place t₀.rows).after (ops.filterMap onRows ++ [p]) := by
  simp [rowsAfter, filterMap_append, h]

theorem columnsAfter_none (h : op.onColumns = none) :
    t₀.columnsAfter (ops ++ [op]) = t₀.columnsAfter ops := by
  simp [columnsAfter, filterMap_append, h]

theorem columnsAfter_some (h : op.onColumns = some p) : t₀.columnsAfter (ops ++ [op]) =
      (Layout.of place t₀.columns).after (ops.filterMap onColumns ++ [p]) := by
  simp [columnsAfter, filterMap_append, h]

theorem alignmentAfter_none (h : op.alignmentWrite c = none) :
    t₀.alignmentAfter (ops ++ [op]) c = t₀.alignmentAfter ops c := by
  simp [alignmentAfter, filterMap_append, h]

theorem alignmentAfter_some (h : op.alignmentWrite c = some w) : t₀.alignmentAfter (ops ++ [op]) c =
      settle Saw Written.id (t₀.alignmentAfter ops c) w := by
  simp [alignmentAfter, filterMap_append, h, settleAll]

theorem cellAfter_append (a) : t₀.cellAfter (ops ++ [op]) a =
    settleAll Saw Written.id (t₀.cellAfter ops a) (op.cellWrites t₀.headerRowId a) := by
  simp [cellAfter, settleAll]

theorem cellAfter_nil (h : op.cellWrites t₀.headerRowId a = []) :
    t₀.cellAfter (ops ++ [op]) a = t₀.cellAfter ops a := by
  rw [cellAfter_append, h]
  rfl

theorem After.start (hw : t₀.WellFormed) : t₀.After [] t₀ where
  id := rfl
  rows := by simpa [rowsAfter, Layout.after, settleAll] using hw.rows.shows
  columns := by simpa [columnsAfter, Layout.after, settleAll] using hw.columns.shows
  aligned c hc := by
    have hfind : t₀.columnById c.id = some c := by
      have := hw.columns.holder hc
      obtain ⟨v, hv, hplace⟩ := map_eq_some_iff.mp this
      have hv : t₀.columnById c.id = some v := hv
      have hvid : v.id = c.id := congrArg Place.logicalId hplace
      rw [hv, hw.columns.unique v (columnById_spec hv).1 c hc hvid]
    simp [alignmentAfter, settleAll, hfind]
  cells a := rfl
  rowBuffers := ⟨rfl, rfl⟩
  columnBuffers := ⟨rfl, rfl⟩
  rowMoves := List.Perm.refl _
  columnMoves := List.Perm.refl _
  alignments p hp := .inl hp

section Frame
variable (h : t₀.After ops t) (hcells : ∀ a, op.cellWrites t₀.headerRowId a = [])
include h hcells

/-- An edit of the columns, or of what they hold. -/
theorem After.withColumns {columns} (hrows : op.onRows = none)
    (hs : Shows place columns (t₀.columnsAfter (ops ++ [op]))) (hb : columns.SameBuffers t.columns)
    (ha : ∀ c ∈ columns.iter, some c.writtenAlignment = t₀.alignmentAfter (ops ++ [op]) c.id) :
    t₀.After (ops ++ [op]) { t with columns := columns } where
  __ := h
  rows := by rw [rowsAfter_none hrows]; exact h.rows
  columns := hs
  aligned := ha
  cells a := by rw [cellAfter_nil (hcells a)]; exact h.cells a
  columnBuffers := ⟨hb.1.trans h.columnBuffers.1, hb.2.trans h.columnBuffers.2⟩

/-- An edit of the rows. -/
theorem After.withRows {rows} (hcolumns : op.onColumns = none)
    (ha : ∀ c, op.alignmentWrite c = none)
    (hs : Shows TableRow.place rows (t₀.rowsAfter (ops ++ [op]))) (hb : rows.SameBuffers t.rows) :
    t₀.After (ops ++ [op]) { t with rows := rows } where
  __ := h
  rows := hs
  columns := by rw [columnsAfter_none hcolumns]; exact h.columns
  aligned c hc := by rw [alignmentAfter_none (ha _)]; exact h.aligned c hc
  cells a := by rw [cellAfter_nil (hcells a)]; exact h.cells a
  rowBuffers := ⟨hb.1.trans h.rowBuffers.1, hb.2.trans h.rowBuffers.2⟩

end Frame

/-! ### What each edit does to the fields -/

/-- A cell write, seen from any address. -/
theorem setCellObserved_cells (t : Table) (rowId columnId : BlockId) (value : String) (id : OpId)
    (observed a) :
    ((t.setCellObserved rowId columnId value id observed).cells.get? a).map TableCell.written =
      settleAll Saw Written.id ((t.cells.get? a).map TableCell.written)
        (if a = ⟨rowId, columnId⟩ then [⟨value, id, observed⟩] else []) := by
  by_cases ha : a = ⟨rowId, columnId⟩
  · subst ha
    rw [setCellObserved_spec, some_arbitrate, if_pos rfl]
    rfl
  · simp only [setCellObserved, SortedMap.get?_insert, if_neg ha]
    rfl

/-- The cells of a new row. -/
theorem foldl_setCell (rowId id) (cells : List (BlockId × String)) (t : Table) :
    ∃ m, cells.foldl (fun t cell => t.setCell rowId cell.1 cell.2 id) t = { t with cells := m } ∧
      ∀ a, (m.get? a).map TableCell.written =
        settleAll Saw Written.id ((t.cells.get? a).map TableCell.written)
          (cells.flatMap (fun cell =>
            if a = ⟨rowId, cell.1⟩ then [⟨cell.2, id, .new⟩] else [])) := by
  induction cells generalizing t with
  | nil => exact ⟨t.cells, rfl, fun a => rfl⟩
  | cons cell cells ih =>
    obtain ⟨m, hm, hcells⟩ := ih (t.setCell rowId cell.1 cell.2 id)
    refine ⟨m, hm, fun a => ?_⟩
    rw [hcells a, setCell, setCellObserved_cells, flatMap_cons, settleAll_append]

/-- A loop that puts every entry back. -/
theorem foldl_requeue {σ M : Type} {f} (p : List M → σ) {l}
    (h : ∀ acc, ∀ m ∈ l, f (p acc) m = p (acc ++ [m])) (acc) :
    l.foldl f (p acc) = p (acc ++ l) := by
  induction l generalizing acc with
  | nil => simp
  | cons m l ih =>
    rw [foldl_cons, h acc m (by simp), ih (fun acc m hm => h acc m (by simp [hm]))]
    simp

theorem resolvePendingRowMoves_of_fresh
    (h : ∀ m ∈ t.pendingRowMoves, m.logicalId ≠ rowId) : ∃ l, l.Perm t.pendingRowMoves ∧
      t.resolvePendingRowMoves rowId = { t with pendingRowMoves := l } := by
  refine ⟨_, perm_insertionSort (fun a b => a.id ≤ b.id) _, ?_⟩
  refine foldl_requeue (fun l => { t with pendingRowMoves := l }) (fun acc m hm => ?_) []
  exact if_neg (h m ((mem_insertionSort _).mp hm))

theorem resolvePendingColumnMoves_of_fresh
    (h : ∀ m ∈ t.pendingColumnMoves, m.logicalId ≠ columnId) : ∃ l, l.Perm t.pendingColumnMoves ∧
      t.resolvePendingColumnMoves columnId = { t with pendingColumnMoves := l } := by
  refine ⟨_, perm_insertionSort (fun a b => a.id ≤ b.id) _, ?_⟩
  refine foldl_requeue (fun l => { t with pendingColumnMoves := l }) (fun acc m hm => ?_) []
  exact if_neg (h m ((mem_insertionSort _).mp hm))

theorem resolvePendingAlignments_of_fresh
    (h : ∀ m ∈ t.pendingColumnAlignments, m.columnId ≠ columnId) :
    ∃ l, l.Perm t.pendingColumnAlignments ∧
      t.resolvePendingAlignments columnId = { t with pendingColumnAlignments := l } := by
  refine ⟨_, perm_insertionSort (fun a b => a.id ≤ b.id) _, ?_⟩
  refine foldl_requeue (fun l => { t with pendingColumnAlignments := l }) (fun acc m hm => ?_) []
  exact if_neg (h m ((mem_insertionSort _).mp hm))

/-! ### One edit more -/

section Step
variable (hw : t₀.WellFormed) (h : t₀.After ops t) (hc : t₀.Concurrent (ops ++ [op]))
include hw hc
variable {p : PlaceOp}

theorem rows_concurrent (hp : op.onRows = some p) :
    (Layout.of TableRow.place t₀.rows).Concurrent (ops.filterMap onRows ++ [p]) := by
  simpa [filterMap_append, hp] using hc.layout (reads_rows hw) hw.rows

theorem columns_concurrent (hp : op.onColumns = some p) : (Layout.of place t₀.columns).Concurrent
      (ops.filterMap onColumns ++ [p]) := by
  simpa [filterMap_append, hp] using hc.layout (reads_columns t₀) hw.columns

include h

theorem After.row_new (hp : op.onRows = some p) (hx : p.slot = some x) :
    t.rows.Unknown x.id ∧ t.rows.Anchored x.after :=
  h.rows.slot_new (rows_concurrent hw hc hp) hx h.rowBuffers
    ((reads_rows hw).slot_id hp hx ▸ hc.fresh_last.rows)

theorem After.column_new (hp : op.onColumns = some p) (hx : p.slot = some x) :
    t.columns.Unknown x.id ∧ t.columns.Anchored x.after :=
  h.columns.slot_new (columns_concurrent hw hc hp) hx h.columnBuffers
    ((reads_columns t₀).slot_id hp hx ▸ hc.fresh_last.columns)

end Step

section Steps
variable {after ro : Option OpId} {id : OpId}
variable {observed : StateVector} {target : OpId} {columnId : BlockId}

theorem After.setCell {value} (h : t₀.After ops t) :
    t₀.After (ops ++ [.setCell rowId columnId id value observed])
      (t.setCellObserved rowId columnId value id observed) where
  __ := h
  rows := by rw [rowsAfter_none rfl]; exact h.rows
  columns := by rw [columnsAfter_none rfl]; exact h.columns
  aligned c hc := by rw [alignmentAfter_none rfl]; exact h.aligned c hc
  cells a := by rw [setCellObserved_cells, h.cells a, cellAfter_append]; rfl

theorem After.insertRow {cells} (hw : t₀.WellFormed)
    (h : t₀.After ops t) (hc : t₀.Concurrent (ops ++ [.insertRow after id ro cells])) :
    t₀.After (ops ++ [.insertRow after id ro cells]) (t.applyInsertRow after id ro cells) := by
  let row : TableRow := ⟨blockIdFromOp id, id, ⟨false, id⟩, .new⟩
  obtain ⟨hnew, ha⟩ : t.rows.Unknown id ∧ t.rows.Anchored after := h.row_new hw hc rfl rfl
  have hfree : ∀ p ∈ t.pendingRowMoves, p.logicalId ≠ blockIdFromOp id :=
    fun p hp => hc.fresh_last.rowMoves p (h.rowMoves.mem_iff.mp hp)
  obtain ⟨m, hm, hcells⟩ := foldl_setCell (blockIdFromOp id) id cells
    { t with rows := t.rows.withElement ⟨id, some row, after, ro⟩ }
  obtain ⟨l, hl, hres⟩ := resolvePendingRowMoves_of_fresh
    (t := { t with rows := t.rows.withElement ⟨id, some row, after, ro⟩, cells := m }) hfree
  have heq : t.applyInsertRow after id ro cells =
      { t with rows := t.rows.withElement ⟨id, some row, after, ro⟩, cells := m,
               pendingRowMoves := l } := by
    simp only [applyInsertRow, apply_insert_unknown h.rows.ordered.toIndexed hnew ha]
    rw [hm, hres]
  rw [heq]
  exact {
    __ := h
    rows := by
      rw [rowsAfter_some rfl]
      exact h.rows.add (rows_concurrent hw hc rfl) rfl
    columns := by rw [columnsAfter_none rfl]; exact h.columns
    aligned := fun c hcol => by rw [alignmentAfter_none rfl]; exact h.aligned c hcol
    cells := fun a => by rw [hcells a, h.cells a, cellAfter_append]; rfl
    rowMoves := hl.trans h.rowMoves }

/-- A live column holds its logical id. -/
theorem After.holder_of_column (hw : t₀.WellFormed) (h : t₀.After ops t) (hc : t₀.Concurrent ops)
    (hcol : c ∈ t.columns.iter) : (t₀.columnsAfter ops).holder c.id = some c.place ∧
      ∃ e ∈ t.columns.elements, e.value = some c ∧ c.elemId = e.id := by
  obtain ⟨e, he, hv⟩ := mem_filterMap.mp hcol
  have hsound := (hc.layout (reads_columns t₀) hw.columns).sound hw.columns.sound
  obtain ⟨hhold, hid⟩ := h.columns.holder_of_value hsound he hv
  exact ⟨hhold, e, he, hv, hid⟩

/-- A column that no one has seen yet has no alignment. -/
theorem alignmentAfter_fresh (hf : t₀.Fresh id) (hfits : ∀ op ∈ ops, op.Fits t₀)
    (hids : ∀ op ∈ ops, op.id ≠ id) : t₀.alignmentAfter ops (blockIdFromOp id) = none := by
  have hbase : t₀.columnById (blockIdFromOp id) = none := by
    rw [columnById, find?_eq_none]
    intro c hcol
    simpa using hf.columnIds c hcol
  have hwrites : ops.filterMap (alignmentWrite (blockIdFromOp id)) = [] := by
    rw [filterMap_eq_nil_iff]
    intro op hop
    cases op with
    | setAlignment column i alignment observed =>
      have hcol : (t₀.columnById column).isSome := hfits _ hop
      have hne : column ≠ blockIdFromOp id := by
        rintro rfl
        simp [hbase] at hcol
      simp [alignmentWrite, hne]
    | insertColumn aft i r alignment header =>
      have hne : blockIdFromOp i ≠ blockIdFromOp id :=
        fun he => hids _ hop (blockIdFromOp_injective he)
      simp [alignmentWrite, hne]
    | _ => rfl
  simp [alignmentAfter, hbase, hwrites, settleAll]

section
variable (hw : t₀.WellFormed)
include hw

theorem After.insertColumn {alignment header} (h : t₀.After ops t)
    (hc : t₀.Concurrent (ops ++ [.insertColumn after id ro alignment header])) :
    t₀.After (ops ++ [.insertColumn after id ro alignment header])
      (t.applyInsertColumn after id ro (alignmentFromWire alignment) header) := by
  let column : TableColumn := ⟨blockIdFromOp id, id, ⟨false, id⟩, ⟨alignmentFromWire alignment, id⟩,
    .new, .new⟩
  have hf : t₀.Fresh id := hc.fresh_last
  obtain ⟨hnew, ha⟩ : t.columns.Unknown id ∧ t.columns.Anchored after := h.column_new hw hc rfl rfl
  let t₁ : Table := { t with columns := t.columns.withElement ⟨id, some column, after, ro⟩ }
  let t₂ : Table := t₁.setCell t₁.headerRowId (blockIdFromOp id) header id
  obtain ⟨l, hl, hmoves⟩ := resolvePendingColumnMoves_of_fresh (t := t₂)
    (fun p hp => hf.columnMoves p (h.columnMoves.mem_iff.mp hp))
  have hparked : ∀ p ∈ t.pendingColumnAlignments, p.columnId ≠ blockIdFromOp id := by
    intro p hp he
    rcases h.alignments p hp with hb | hb
    · exact hf.alignments p hb he
    · obtain ⟨c, hcol⟩ := isSome_iff_exists.mp hb
      exact hf.columnIds c (columnById_spec hcol).1 ((columnById_spec hcol).2.trans he)
  obtain ⟨q, hq, haligns⟩ := resolvePendingAlignments_of_fresh
    (t := { t₂ with pendingColumnMoves := l }) hparked
  have heq : t.applyInsertColumn after id ro (alignmentFromWire alignment) header =
      { t₂ with pendingColumnMoves := l, pendingColumnAlignments := q } := by
    have hseq := apply_insert_unknown h.columns.ordered.toIndexed hnew ha column ro
    simp only [applyInsertColumn, resolvePendingColumnOps]
    rw [hseq, ← haligns, ← hmoves]
  have hwire : alignmentToWire (alignmentFromWire alignment) = alignment := by
    cases alignment <;> rfl
  have hfreeCol : t₀.alignmentAfter ops (blockIdFromOp id) = none := by
    refine alignmentAfter_fresh hf hc.init.fits (fun op hop he => ?_)
    have := hc.nodup
    rw [map_append] at this
    exact (nodup_append.mp this).2.2 _ (mem_map_of_mem hop) id (by simp [TableOp.id]) he
  rw [heq]
  exact {
    __ := h
    rows := by rw [rowsAfter_none rfl]; exact h.rows
    columns := by
      rw [columnsAfter_some rfl]
      exact h.columns.add (columns_concurrent hw hc rfl) rfl
    aligned := fun c hcol => by
      have hcol : c ∈ (t.columns.withElement ⟨id, some column, after, ro⟩).iter := hcol
      rcases (mem_iter_withElement h.columns.ordered.toIndexed hnew.notMem ha).mp hcol with
        hold | hnew
      · have hne : blockIdFromOp id ≠ c.id := by
          intro he
          have hlay := columns_concurrent hw hc rfl
          have hhold := (h.holder_of_column hw hc.init hold).1
          rw [← he] at hhold
          exact absurd (hlay.holder_append_add.1.symm.trans hhold) (by simp)
        rw [alignmentAfter_none (by simp [alignmentWrite, hne])]
        exact h.aligned c hold
      · obtain rfl := some.inj hnew
        rw [alignmentAfter_some (w := ⟨alignment, id, .new⟩)
          (by simp [alignmentWrite, column]), hfreeCol]
        simp [writtenAlignment, settle, column, hwire]
    cells := fun a => by
      have hhead : t₁.headerRowId = t₀.headerRowId := h.id
      rw [cellAfter_append, ← h.cells a]
      refine (setCellObserved_cells t₁ _ (blockIdFromOp id) header id .new a).trans ?_
      rw [hhead]
      rfl
    columnMoves := hl.trans h.columnMoves
    alignments := fun p hp => h.alignments p (hq.mem_iff.mp hp) }

theorem After.row_holder (h : t₀.After ops t) (hc : t₀.Concurrent ops)
    (rowId) : (t.rowById rowId).map TableRow.place = (t₀.rowsAfter ops).holder rowId :=
  h.rows.find ((hc.layout (reads_rows hw) hw.rows).sound hw.rows.sound) rowId

theorem After.column_holder (h : t₀.After ops t) (hc : t₀.Concurrent ops) (columnId) :
    (t.columnById columnId).map place = (t₀.columnsAfter ops).holder columnId :=
  h.columns.find ((hc.layout (reads_columns t₀) hw.columns).sound hw.columns.sound) columnId

end

theorem getD_elemId {T : Type} {place} {found : Option T} {holder : Option Place}
    (h : found.map place = holder) (first) :
    (found.map (fun v => (place v).elemId)).getD first.elemId = (holder.getD first).elemId := by
  subst h
  cases found <;> rfl

section
variable (hw : t₀.WellFormed)
include hw

section
variable (h : t₀.After ops t)
include h

theorem After.removeRow (hc : t₀.Concurrent (ops ++ [.removeRow target rowId id])) :
    t₀.After (ops ++ [.removeRow target rowId id]) (t.removeRowById rowId target id) := by
  obtain ⟨row, hrow, hid⟩ := hc.fits_last
  obtain ⟨e, he, hv⟩ := bind_eq_some_iff.mp hrow
  obtain ⟨hmem, heid⟩ := (getElement_eq_some hw.rows.ordered.toIndexed).mp he
  have hfirst : (Layout.of TableRow.place t₀.rows).holder rowId = some row.place :=
    hid ▸ hw.rows.holder (mem_filterMap.mpr ⟨e, hmem, hv⟩)
  have htarget : target = row.elemId := by
    rw [← heid]
    exact (hw.rows.elem e hmem row hv).symm
  let place : OpId := ((t.rowById rowId).map TableRow.elemId).getD target
  have hplace : place = (((t₀.rowsAfter ops).holder rowId).getD row.place).elemId := by
    show ((t.rowById rowId).map TableRow.elemId).getD target = _
    rw [htarget]
    exact getD_elemId (h.row_holder hw hc.init rowId) row.place
  obtain ⟨hknown, hshows⟩ :=
    h.rows.remove hw.rows.sound (rows_concurrent hw hc rfl) hfirst hplace
  have heq : t.removeRowById rowId target id = { t with rows := t.rows.withTombstone place } := by
    rw [removeRowById, Table.removeRow]
    cases hval : t.rows.value? place with
    | some r =>
      simp only
      rw [updateValue_delete h.rows.ordered.toIndexed hknown]
    | none =>
      simp only
      rw [delete, apply_delete_known h.rows.ordered.toIndexed hknown]
  rw [heq]
  refine h.withRows (fun _ => rfl) rfl (fun _ => rfl) ?_ ⟨rfl, rfl⟩
  rw [rowsAfter_some rfl]
  exact hshows

theorem After.removeColumn (hc : t₀.Concurrent (ops ++ [.removeColumn target columnId id])) :
    t₀.After (ops ++ [.removeColumn target columnId id])
      (t.removeColumnById columnId target id) := by
  obtain ⟨column, hcol, htarget⟩ := map_eq_some_iff.mp hc.fits_last
  obtain ⟨hmem, hid⟩ := columnById_spec hcol
  have hfirst : (Layout.of place t₀.columns).holder columnId = some column.place :=
    hid ▸ hw.columns.holder hmem
  let place : OpId := ((t.columnById columnId).map TableColumn.elemId).getD target
  have hplace : place = (((t₀.columnsAfter ops).holder columnId).getD column.place).elemId := by
    show ((t.columnById columnId).map TableColumn.elemId).getD target = _
    rw [← htarget]
    exact getD_elemId (h.column_holder hw hc.init columnId) column.place
  obtain ⟨hknown, hshows⟩ :=
    h.columns.remove hw.columns.sound (columns_concurrent hw hc rfl) hfirst hplace
  have heq : t.removeColumnById columnId target id =
      { t with columns := t.columns.withTombstone place } := by
    rw [removeColumnById, delete,
      apply_delete_known h.columns.ordered.toIndexed hknown]
  rw [heq]
  refine h.withColumns (fun _ => rfl) rfl ?_ ⟨rfl, rfl⟩ (fun c hcol => ?_)
  · rw [columnsAfter_some rfl]
    exact hshows
  · rw [alignmentAfter_none rfl]
    exact h.aligned c (mem_iter_withTombstone hcol)

theorem After.setAlignment {alignment}
    (hc : t₀.Concurrent (ops ++ [.setAlignment columnId id alignment observed])) :
    t₀.After (ops ++ [.setAlignment columnId id alignment observed])
      (t.setColumnAlignmentObserved columnId (alignmentFromWire alignment) id observed) := by
  have hother : ∀ c : TableColumn, c.id ≠ columnId →
      t₀.alignmentAfter (ops ++ [.setAlignment columnId id alignment observed]) c.id =
        t₀.alignmentAfter ops c.id := by
    intro c hne
    exact alignmentAfter_none (by simp [alignmentWrite, hne.symm])
  have hself : t₀.alignmentAfter (ops ++ [.setAlignment columnId id alignment observed]) columnId =
      settle Saw Written.id (t₀.alignmentAfter ops columnId) ⟨alignment, id, observed⟩ :=
    alignmentAfter_some (by simp [alignmentWrite])
  cases hcol : t.columnById columnId with
  | none =>
    have heq : t.setColumnAlignmentObserved columnId (alignmentFromWire alignment) id observed =
        { t with pendingColumnAlignments := t.pendingColumnAlignments ++
          [⟨columnId, alignmentFromWire alignment, id, observed⟩] } := by
      simp only [setColumnAlignmentObserved, hcol]
    rw [heq]
    exact {
      __ := h
      rows := by rw [rowsAfter_none rfl]; exact h.rows
      columns := by rw [columnsAfter_none rfl]; exact h.columns
      aligned := fun c hc' => by
        rw [hother c (by simpa using find?_eq_none.mp hcol c hc')]
        exact h.aligned c hc'
      cells := fun a => by rw [cellAfter_nil rfl]; exact h.cells a
      alignments := forall_mem_push h.alignments (.inr hc.fits_last) }
  | some column =>
    obtain ⟨hmem, hid⟩ := columnById_spec hcol
    obtain ⟨hhold, e, he, hv, heid⟩ := h.holder_of_column hw hc.init hmem
    have hsound := (hc.init.layout (reads_columns t₀) hw.columns).sound hw.columns.sound
    -- a live column with the same id is the same column
    have hsame : ∀ c ∈ t.columns.iter, c.id = columnId → c = column :=
      fun c hc' hcid => h.columns.value_unique hsound hc' hmem (hcid.trans hid.symm)
    have hcur : t₀.alignmentAfter ops columnId = some column.writtenAlignment := by
      rw [← hid]
      exact (h.aligned column hmem).symm
    have hwire : alignmentToWire (alignmentFromWire alignment) = alignment := by
      cases alignment <;> rfl
    let updated : TableColumn :=
      { column with alignment := ⟨alignmentFromWire alignment, id⟩, alignmentObserved := observed }
    have hsettle : settle Saw Written.id (some column.writtenAlignment)
        ⟨alignment, id, observed⟩ =
          if causalWriteWins column.alignment.opId column.alignmentObserved id observed
          then some updated.writtenAlignment else some column.writtenAlignment := by
      rw [← some_arbitrate]
      simp only [arbitrate, writtenAlignment, updated, hwire]
      exact apply_ite some _ _ _
    have hsame' : t₀.columnsAfter (ops ++ [.setAlignment columnId id alignment observed]) =
        t₀.columnsAfter ops := columnsAfter_none rfl
    rw [hcur, hsettle] at hself
    by_cases hwin : causalWriteWins column.alignment.opId column.alignmentObserved id observed = true
    · have heq : t.setColumnAlignmentObserved columnId (alignmentFromWire alignment) id observed =
          { t with columns := t.columns.updateValue column.elemId updated } := by
        simp only [setColumnAlignmentObserved, hcol, hwin, if_true]
        rfl
      rw [heq]
      rw [if_pos hwin] at hself
      refine h.withColumns (fun _ => rfl) rfl (hsame' ▸ h.columns.update hsound he hv rfl) ?_
        (fun c hc' => ?_)
      · unfold updateValue
        cases t.columns.index.get? column.elemId <;> exact ⟨rfl, rfl⟩
      · rcases mem_iter_updateValue h.columns.ordered.toIndexed hc' with
          rfl | ⟨a, ha, hne, hav⟩
        · rw [show updated.id = columnId from hid, hself]
        · have hmem' : c ∈ t.columns.iter := mem_filterMap.mpr ⟨a, ha, hav⟩
          have hcid : c.id ≠ columnId := by
            intro hcid
            obtain rfl := hsame c hmem' hcid
            exact hne (h.columns.holder_of_value hsound ha hav).2.symm
          rw [hother c hcid]
          exact h.aligned c hmem'
    · have heq : t.setColumnAlignmentObserved columnId (alignmentFromWire alignment) id observed =
          { t with columns := t.columns } := by
        simp only [setColumnAlignmentObserved, hcol, hwin]
        rfl
      rw [heq]
      rw [if_neg hwin] at hself
      refine h.withColumns (fun _ => rfl) rfl (hsame' ▸ h.columns) ⟨rfl, rfl⟩ (fun c hc' => ?_)
      by_cases hcid : c.id = columnId
      · rw [hsame c hc' hcid, hid, hself]
      · rw [hother c hcid]
        exact h.aligned c hc'

theorem After.moveRow (hc : t₀.Concurrent (ops ++ [.moveRow rowId target id after ro observed])) :
    t₀.After (ops ++ [.moveRow rowId target id after ro observed])
      (t.moveRow rowId target id after ro observed).1 := by
  have hlay := rows_concurrent hw hc rfl
  have hi := h.rows.ordered.toIndexed
  obtain ⟨hnew, ha⟩ : t.rows.Unknown id ∧ t.rows.Anchored after := h.row_new hw hc rfl rfl
  have hholder := h.row_holder hw hc.init rowId
  have hid : (t.rows.getElement id).isNone = true :=
    isNone_iff_eq_none.mpr ((getElement_eq_none hi).mpr hnew.notMem)
  have htarget : (t.rows.getElement target).isNone = false := by
    obtain ⟨row, hrow, rfl⟩ := map_eq_some_iff.mp (And.left hc.fits_last)
    exact getElement_isNone_false hi (hw.rows.known h.rows (rowById_spec hrow).1)
  have hframe : ∀ rows, Shows TableRow.place rows ((Layout.of TableRow.place t₀.rows).after
        (ops.filterMap onRows ++ [.move rowId id after ro observed])) ∧
        rows.SameBuffers t.rows →
      t₀.After (ops ++ [.moveRow rowId target id after ro observed]) { t with rows := rows } := by
    intro rows hrows
    refine h.withRows (fun _ => rfl) rfl (fun _ => rfl) ?_ hrows.2
    rw [rowsAfter_some rfl]
    exact hrows.1
  cases hrow : t.rowById rowId with
  | none =>
    have hnone : (t₀.rowsAfter ops).holder rowId = none := by rw [← hholder, hrow]; rfl
    simp only [Table.moveRow, hrow, htarget, hid, if_true, Bool.false_eq_true, if_false]
    exact hframe _ (h.rows.move_loses hw.rows.sound hlay hnew ha
      (fun p hp => absurd (hnone.symm.trans hp) (by simp)) _)
  | some row =>
    have hsome : (t₀.rowsAfter ops).holder rowId = some row.place := by rw [← hholder, hrow]; rfl
    have hl : row.id = rowId := (rowById_spec hrow).2
    by_cases hlose : moveLoses row.id row.elemId row.placementObserved id observed = true
    · simp only [Table.moveRow, hrow, hlose, hid, if_true]
      refine hframe _ (h.rows.move_loses hw.rows.sound hlay hnew ha (fun p hp => ?_) _)
      obtain rfl := some.inj (hsome.symm.trans hp)
      exact hlose
    · simp only [Table.moveRow, hrow, hlose]
      exact hframe _ (h.rows.move_wins hw.rows.sound hlay hnew ha hsome hlose
        (by simp [TableRow.place, hl]))

theorem After.moveColumn
    (hc : t₀.Concurrent (ops ++ [.moveColumn columnId target id after ro observed])) :
    t₀.After (ops ++ [.moveColumn columnId target id after ro observed])
      (t.moveColumn columnId target id after ro observed).1 := by
  have hlay := columns_concurrent hw hc rfl
  have hi := h.columns.ordered.toIndexed
  obtain ⟨hnew, ha⟩ : t.columns.Unknown id ∧ t.columns.Anchored after := h.column_new hw hc rfl rfl
  have hholder := h.column_holder hw hc.init columnId
  have hid : (t.columns.getElement id).isNone = true :=
    isNone_iff_eq_none.mpr ((getElement_eq_none hi).mpr hnew.notMem)
  have htarget : (t.columns.getElement target).isNone = false := by
    obtain ⟨column, hcol, rfl⟩ := map_eq_some_iff.mp (And.left hc.fits_last)
    exact getElement_isNone_false hi (hw.columns.known h.columns (columnById_spec hcol).1)
  have hframe : ∀ columns, Shows place columns
        ((Layout.of place t₀.columns).after
          (ops.filterMap onColumns ++ [.move columnId id after ro observed])) ∧
        columns.SameBuffers t.columns →
      (∀ c ∈ columns.iter, ∃ c' ∈ t.columns.iter, c'.id = c.id ∧
        c'.writtenAlignment = c.writtenAlignment) →
      t₀.After (ops ++ [.moveColumn columnId target id after ro observed])
        { t with columns := columns } := by
    intro columns hcols hsub
    refine h.withColumns (fun _ => rfl) rfl ?_ hcols.2 (fun c hcol => ?_)
    · rw [columnsAfter_some rfl]
      exact hcols.1
    · obtain ⟨c', hc', hcid, hal⟩ := hsub c hcol
      rw [alignmentAfter_none rfl, ← hal, ← hcid]
      exact h.aligned c' hc'
  have hkeep : ∀ x c,
      c ∈ ((t.columns.apply (.insert after id x ro)).delete id id).iter →
      ∃ c' ∈ t.columns.iter, c'.id = c.id ∧ c'.writtenAlignment = c.writtenAlignment :=
    fun x c hmem => ⟨c, mem_iter_insert_delete hi hnew ha hmem, rfl, rfl⟩
  cases hcol : t.columnById columnId with
  | none =>
    have hnone : (t₀.columnsAfter ops).holder columnId = none := by rw [← hholder, hcol]; rfl
    simp only [Table.moveColumn, hcol, htarget, hid, if_true, Bool.false_eq_true, if_false]
    exact hframe _ (h.columns.move_loses hw.columns.sound hlay hnew ha
      (fun p hp => absurd (hnone.symm.trans hp) (by simp)) _) (hkeep _)
  | some column =>
    have hsome : (t₀.columnsAfter ops).holder columnId = some column.place := by
      rw [← hholder, hcol]; rfl
    obtain ⟨hmem, hl⟩ := columnById_spec hcol
    by_cases hlose : moveLoses column.id column.elemId column.placementObserved id observed = true
    · simp only [Table.moveColumn, hcol, hlose, hid, if_true]
      refine hframe _ (h.columns.move_loses hw.columns.sound hlay hnew ha (fun p hp => ?_) _)
        (hkeep _)
      obtain rfl := some.inj (hsome.symm.trans hp)
      exact hlose
    · simp only [Table.moveColumn, hcol, hlose]
      refine hframe _ (h.columns.move_wins hw.columns.sound hlay hnew ha hsome hlose
        (by simp [place, hl])) (fun c hc' => ?_)
      obtain ⟨-, e, he, -, heid⟩ := h.holder_of_column hw hc.init hmem
      have hknown : column.elemId ∈ t.columns.elementIds := heid ▸ mem_map_of_mem he
      rcases mem_iter_delete_insert hi hknown hnew ha hc' with hold | rfl
      · exact ⟨c, hold, rfl, rfl⟩
      · exact ⟨column, hmem, rfl, rfl⟩

/-- One edit. -/
theorem After.step (hc : t₀.Concurrent (ops ++ [op])) : t₀.After (ops ++ [op]) (op.run t) := by
  cases op with
  | insertRow => exact h.insertRow hw hc
  | insertColumn => exact h.insertColumn hw hc
  | setCell => exact h.setCell
  | removeRow => exact h.removeRow hw hc
  | removeColumn => exact h.removeColumn hw hc
  | setAlignment => exact h.setAlignment hw hc
  | moveRow => exact h.moveRow hw hc
  | moveColumn => exact h.moveColumn hw hc

end

/-- A list of edits. -/
theorem After.run (hc : t₀.Concurrent ops) : t₀.After ops (ops.foldl run t₀) := by
  induction ops using List.reverseRecOn with
  | nil => exact After.start hw
  | append_singleton ops op ih =>
    rw [foldl_append]
    exact (ih hc.init).step hw hc

end

end Steps

end Table
end MdCrdt
