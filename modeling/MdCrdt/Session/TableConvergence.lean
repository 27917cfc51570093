import MdCrdt.Session.TableEdits
import MdCrdt.Session.Creates

/- Concurrent table edits converge.

  The fields of `Table.After` do not depend on the order of the edits: the layouts by
  `Layout.Concurrent.after_perm`, the registers because either one edit alone writes
  them or none of their writers saw another (`Table.Concurrent.settle_perm`). -/
namespace MdCrdt
open Lib Option
open List hiding after
variable {tableId : BlockId}

namespace Table
variable {t₀ t t' : Table} {ops ops' : List TableOp} {op : TableOp} {a : CellAddress}

/-! ## Registers -/

theorem Concurrent.op_inj (h : t₀.Concurrent ops) (hop : op ∈ ops)
    (hop' : op' ∈ ops) (hid : op.id = op'.id) : op = op' :=
  inj_on_of_nodup_map h.nodup hop hop' hid

/-- A register that one operation has to itself, or whose writers did not see each other. -/
theorem Concurrent.settle_perm {V : Type} {f : TableOp → List (Written V)}
    {base} (h : t₀.Concurrent ops) (hp : ops.Perm ops')
    (hids : ∀ op ∈ ops, ∀ w ∈ f op, w.id = op.id) (hone : ∀ op ∈ ops, ∀ v ∈ f op, ∀ w ∈ f op, v = w)
    (hcase : (∃ op ∈ ops, ∀ op' ∈ ops, ∀ w ∈ f op', op' = op) ∨
      (∀ op ∈ ops, ∀ w ∈ f op, op.observed = some w.observed) ∧ ∀ b ∈ base, b.id ∈ t₀.writers) :
    settleAll Written.Saw Written.id base (ops.flatMap f) =
      settleAll Written.Saw Written.id base (ops'.flatMap f) := by
  have hwrites : (ops.flatMap f).Perm (ops'.flatMap f) := hp.flatMap_right f
  have hinj : ∀ v ∈ ops.flatMap f, ∀ w ∈ ops.flatMap f, v.id = w.id → v = w := by
    intro v hv w hw hvw
    obtain ⟨op, hop, hv⟩ := mem_flatMap.mp hv
    obtain ⟨op', hop', hw⟩ := mem_flatMap.mp hw
    have hid : op.id = op'.id := by rw [← hids op hop v hv, ← hids op' hop' w hw, hvw]
    obtain rfl := h.op_inj hop hop' hid
    exact hone op hop v hv w hw
  rcases hcase with ⟨op, hop, halone⟩ | ⟨hobs, hbase⟩
  · -- every write comes from that operation
    cases hl : ops.flatMap f with
    | nil =>
      rw [hl] at hwrites
      rw [hwrites.nil_eq]
    | cons w l =>
      have hall : ∀ v ∈ ops.flatMap f, v = w := by
        intro v hv
        have hw : w ∈ ops.flatMap f := hl ▸ mem_cons_self
        refine hinj v hv w hw ?_
        obtain ⟨o, ho, hv⟩ := mem_flatMap.mp hv
        obtain ⟨o', ho', hw⟩ := mem_flatMap.mp hw
        rw [hids o ho v hv, hids o' ho' w hw, halone o ho v hv, halone o' ho' w hw]
      rw [← hl]
      rw [eq_replicate_of_mem hall] at hwrites ⊢
      rw [perm_replicate.mp hwrites.symm]
  · refine settleAll_perm hwrites (fun v hv w hw hsaw => ?_) hinj (fun b hb w hw => ?_)
    · obtain ⟨op, hop, hv⟩ := mem_flatMap.mp hv
      obtain ⟨op', hop', hw⟩ := mem_flatMap.mp hw
      refine h.apart op' hop' _ (hobs op' hop' w hw) op hop ?_
      rw [← hids op hop v hv]
      exact hsaw
    · obtain ⟨op, hop, hw⟩ := mem_flatMap.mp hw
      exact h.seen op hop _ (hobs op hop w hw) _ (hbase b hb)

/-- Who writes the alignment of a column. -/
theorem alignmentWrite_cases
    (h : op.alignmentWrite c = some w) : op = .setAlignment c w.id w.value w.observed ∨
      ∃ aft ro header, op = .insertColumn aft w.id ro w.value header ∧ blockIdFromOp w.id = c := by
  cases op with
  | setAlignment column i alignment observed =>
    simp only [TableOp.alignmentWrite] at h
    split at h
    · next hc =>
      obtain rfl := some.inj h
      exact .inl (by rw [hc])
    · cases h
  | insertColumn aft i ro alignment header =>
    simp only [TableOp.alignmentWrite] at h
    split at h
    · next hc =>
      obtain rfl := some.inj h
      exact .inr ⟨aft, ro, header, rfl, hc⟩
    · cases h
  | _ => cases h

theorem Concurrent.alignmentAfter_perm (h : t₀.Concurrent ops) (hp : ops.Perm ops')
    (c) : t₀.alignmentAfter ops c = t₀.alignmentAfter ops' c := by
  simp only [alignmentAfter, filterMap_eq_flatMap_toList]
  refine h.settle_perm hp (fun op _ w hw => ?_) (fun op _ v hv w hw => ?_) ?_
  · rw [mem_toList] at hw
    rcases alignmentWrite_cases hw with rfl | ⟨aft, ro, header, rfl, -⟩ <;> rfl
  · rw [mem_toList] at hv hw
    exact some.inj (hv.symm.trans hw)
  by_cases hins : ∃ aft id ro al header, TableOp.insertColumn aft id ro al header ∈ ops ∧
      blockIdFromOp id = c
  · obtain ⟨aft, id, ro, al, header, hop, rfl⟩ := hins
    have hfresh : t₀.Fresh id := h.fresh _ hop
    refine .inl ⟨_, hop, fun op' hop' w hw => ?_⟩
    rw [mem_toList] at hw
    rcases alignmentWrite_cases hw with rfl | ⟨aft', ro', header', rfl, hc⟩
    · -- nobody could write to a column that is not there yet
      obtain ⟨col, hcol⟩ := isSome_iff_exists.mp (h.fits _ hop')
      exact absurd (columnById_spec hcol).2 (hfresh.columnIds col (columnById_spec hcol).1)
    · exact h.op_inj hop' hop (blockIdFromOp_injective hc)
  · refine .inr ⟨fun op hop w hw => ?_, fun b hb => ?_⟩
    · rw [mem_toList] at hw
      rcases alignmentWrite_cases hw with rfl | ⟨aft', ro', header', rfl, hc⟩
      · rfl
      · exact absurd ⟨aft', w.id, ro', w.value, header', hop, hc⟩ hins
    · obtain ⟨col, hcol, rfl⟩ := map_eq_some_iff.mp hb
      simp only [writers, TableColumn.writtenAlignment, mem_append, List.mem_map]
      exact .inl (.inr ⟨col, (columnById_spec hcol).1, rfl⟩)

/-- Who writes a cell. -/
theorem cellWrites_cases (h : w ∈ op.cellWrites header a) :
    op = .setCell a.rowId a.columnId w.id w.value w.observed ∨
      (w.observed = .new ∧ ((∃ aft ro cells, op = .insertRow aft w.id ro cells ∧
          blockIdFromOp w.id = a.rowId ∧ (a.columnId, w.value) ∈ cells) ∨
        ∃ aft ro al, op = .insertColumn aft w.id ro al w.value ∧
          a = ⟨header, blockIdFromOp w.id⟩)) := by
  cases op with
  | setCell rowId columnId i value observed =>
    simp only [TableOp.cellWrites] at h
    split at h
    · next ha =>
      obtain rfl := mem_singleton.mp h
      exact .inl (by rw [ha])
    · cases h
  | insertRow aft i ro cells =>
    obtain ⟨cell, hcell, hw⟩ := mem_flatMap.mp h
    split at hw
    · next ha =>
      obtain rfl := mem_singleton.mp hw
      exact .inr ⟨rfl, .inl ⟨aft, ro, cells, rfl, by rw [ha], by rw [ha]; exact hcell⟩⟩
    · cases hw
  | insertColumn aft i ro al text =>
    simp only [TableOp.cellWrites] at h
    split at h
    · next ha =>
      obtain rfl := mem_singleton.mp h
      exact .inr ⟨rfl, .inr ⟨aft, ro, al, rfl, ha⟩⟩
    · cases h
  | _ => cases h

/-- One operation writes one value to a cell. -/
theorem cellWrites_unique (hfits : op.Fits t₀) (hv : v ∈ op.cellWrites header a)
    (hw : w ∈ op.cellWrites header a) : v = w := by
  obtain ⟨value, id, observed⟩ := v
  obtain ⟨value', id', observed'⟩ := w
  rcases cellWrites_cases hv with rfl | ⟨ho, ⟨aft, ro, cells, rfl, -, hm⟩ | ⟨aft, ro, al, rfl, -⟩⟩ <;>
    rcases cellWrites_cases hw with h | ⟨ho', ⟨aft', ro', cells', h, -, hm'⟩ | ⟨aft', ro', al', h, -⟩⟩ <;>
    cases h
  · rfl
  · have hkey : value = value' :=
      congrArg Prod.snd (inj_on_of_nodup_map hfits.2 hm hm' rfl)
    simp only at ho ho'
    rw [hkey, ho, ho']
  · simp only at ho ho'
    rw [ho, ho']

/-- A cell of a row or column that is being inserted belongs to the insert. -/
theorem Concurrent.cell_alone (h : t₀.Concurrent ops) (hop : op ∈ ops) (hop' : op' ∈ ops)
    (hv : v ∈ op.cellWrites t₀.headerRowId a) (hw : w ∈ op'.cellWrites t₀.headerRowId a)
    (hins : ∀ r c i x o, op ≠ .setCell r c i x o) : op' = op := by
  have hfresh := h.fresh op hop
  rcases cellWrites_cases hv with rfl | ⟨-, ⟨aft, ro, cells, rfl, hrow, -⟩ | ⟨aft, ro, al, rfl, ha⟩⟩
  · exact absurd rfl (hins _ _ _ _ _)
  · -- the row is new, so it is neither the header nor a row of the base
    rcases cellWrites_cases hw with rfl | ⟨-, ⟨_, _, _, rfl, hrow', -⟩ | ⟨_, _, _, rfl, ha'⟩⟩
    · obtain ⟨hr | hr, -⟩ := h.fits _ hop'
      · exact absurd (hr.symm.trans hrow.symm) hfresh.header
      · obtain ⟨r, hr⟩ := isSome_iff_exists.mp hr
        exact absurd ((rowById_spec hr).2.trans hrow.symm) (hfresh.rowIds r (rowById_spec hr).1)
    · exact h.op_inj hop' hop (blockIdFromOp_injective (hrow'.trans hrow.symm))
    · rw [ha'] at hrow
      exact absurd hrow.symm hfresh.header
  · rcases cellWrites_cases hw with rfl | ⟨-, ⟨_, _, _, rfl, hrow', -⟩ | ⟨_, _, _, rfl, ha'⟩⟩
    · obtain ⟨-, hcol⟩ := h.fits _ hop'
      obtain ⟨c, hcol⟩ := isSome_iff_exists.mp hcol
      rw [ha] at hcol
      exact absurd (columnById_spec hcol).2 (hfresh.columnIds c (columnById_spec hcol).1)
    · rw [ha] at hrow'
      exact absurd hrow'.symm (h.fresh _ hop').header
    · rw [ha, CellAddress.mk.injEq] at ha'
      exact h.op_inj hop' hop (blockIdFromOp_injective ha'.2.symm)

theorem Concurrent.cellAfter_perm (h : t₀.Concurrent ops) (hp : ops.Perm ops') (a) :
    t₀.cellAfter ops a = t₀.cellAfter ops' a := by
  refine h.settle_perm hp (fun op _ w hw => ?_)
    (fun op hop v hv w hw => cellWrites_unique (h.fits op hop) hv hw) ?_
  · rcases cellWrites_cases hw with rfl | ⟨-, ⟨_, _, _, rfl, -⟩ | ⟨_, _, _, rfl, -⟩⟩ <;> rfl
  by_cases hins : ∃ op ∈ ops, (∃ v, v ∈ op.cellWrites t₀.headerRowId a) ∧
      ∀ r c i x o, op ≠ .setCell r c i x o
  · obtain ⟨op, hop, ⟨v, hv⟩, hne⟩ := hins
    exact .inl ⟨op, hop, fun op' hop' w hw => h.cell_alone hop hop' hv hw hne⟩
  · refine .inr ⟨fun op hop w hw => ?_, fun b hb => ?_⟩
    · rcases cellWrites_cases hw with rfl | ⟨-, ⟨_, _, _, rfl, -⟩ | ⟨_, _, _, rfl, -⟩⟩
      · rfl
      · exact absurd ⟨_, hop, ⟨w, hw⟩, by simp⟩ hins
      · exact absurd ⟨_, hop, ⟨w, hw⟩, by simp⟩ hins
    · obtain ⟨cell, hcell, rfl⟩ := map_eq_some_iff.mp hb
      simp only [writers, mem_append, List.mem_map]
      exact .inr ⟨cell, List.mem_map.mpr ⟨_, SortedMap.get?_mem hcell, rfl⟩, rfl⟩

/-! ## What a reader sees -/

/-- Columns with their alignments, rows and cells. -/
structure View where
  columns : List (BlockId × ColumnAlignment)
  rows : List BlockId
  cell : BlockId → BlockId → Option String

def view (t : Table) : View where
  columns := t.columnsInOrder.map (fun c => (c.id, c.alignment.value))
  rows := t.rowsInOrder.map TableRow.id
  cell := t.cellValue

theorem iter_faces {T : Type} (place : T → Place) (s : Sequence T) :
    s.iter.map place = (s.elements.map (Element.map place)).filterMap Element.value := by
  rw [Sequence.iter, map_filterMap, filterMap_map]
  rfl

/-- The view, read off the description of the table. -/
theorem After.view_columns (h : t₀.After ops t) : t.view.columns =
    (t.columns.iter.map TableColumn.place).map (fun p => (p.logicalId,
      ((t₀.alignmentAfter ops p.logicalId).map (fun w => alignmentFromWire w.value)).getD .left)) := by
  rw [List.map_map]
  refine map_congr_left (fun c hc => ?_)
  have hwire : alignmentFromWire (alignmentToWire c.alignment.value) = c.alignment.value := by
    cases c.alignment.value <;> rfl
  simp only [Function.comp_apply, TableColumn.place, ← h.aligned c hc, map_some,
    getD_some, TableColumn.writtenAlignment, hwire]

theorem After.view_cell (hw : t₀.WellFormed) (hc : t₀.Concurrent ops) (h : t₀.After ops t)
    (rowId columnId) : t.view.cell rowId columnId =
      if (decide (rowId = t₀.headerRowId) || ((t₀.rowsAfter ops).holder rowId).isSome) &&
          ((t₀.columnsAfter ops).holder columnId).isSome
      then (t₀.cellAfter ops ⟨rowId, columnId⟩).map Written.value else none := by
  have hhead : t.headerRowId = t₀.headerRowId := h.id
  rw [← h.row_holder hw hc rowId, ← h.column_holder hw hc columnId, ← h.cells, isSome_map,
    isSome_map, Option.map_map, ← hhead]
  rfl

theorem After.view_eq (hw : t₀.WellFormed) (hc : t₀.Concurrent ops) (hp : ops.Perm ops')
    (h : t₀.After ops t) (h' : t₀.After ops' t') : t.view = t'.view := by
  have hrows := (hc.layout (reads_rows hw) hw.rows).after_perm (hp.filterMap _)
  have hcols := (hc.layout (reads_columns t₀) hw.columns).after_perm (hp.filterMap _)
  have hrowFaces : t.rows.iter.map TableRow.place = t'.rows.iter.map TableRow.place := by
    rw [iter_faces, iter_faces, h.rows.faces_eq h'.rows hrows.1 hrows.2]
  have hcolFaces : t.columns.iter.map TableColumn.place = t'.columns.iter.map TableColumn.place := by
    rw [iter_faces, iter_faces, h.columns.faces_eq h'.columns hcols.1 hcols.2]
  have hcolumns : t.view.columns = t'.view.columns := by
    rw [h.view_columns, h'.view_columns, hcolFaces, funext (hc.alignmentAfter_perm hp)]
  have hrowIds : t.view.rows = t'.view.rows := by
    have := congrArg (List.map Place.logicalId) hrowFaces
    rwa [List.map_map, List.map_map] at this
  have hcell : t.view.cell = t'.view.cell := by
    funext rowId columnId
    rw [h.view_cell hw hc, h'.view_cell hw (hc.perm hp), hc.cellAfter_perm hp,
      show (t₀.rowsAfter ops).holder = (t₀.rowsAfter ops').holder from hrows.2,
      show (t₀.columnsAfter ops).holder = (t₀.columnsAfter ops').holder from hcols.2]
  calc t.view = ⟨t.view.columns, t.view.rows, t.view.cell⟩ := rfl
    _ = ⟨t'.view.columns, t'.view.rows, t'.view.cell⟩ := by rw [hcolumns, hrowIds, hcell]
    _ = t'.view := rfl

end Table

/-! ## Documents -/

/-- The table an operation edits, and the edit. -/
def DocOp.tableEdit : DocOp → Option (BlockId × TableOp)
  | .insertTableRow _ tableId after id ro cells =>
    some (tableId, .insertRow after id ro (cells.map (fun cell => (cell.columnId, cell.value))))
  | .insertTableColumn _ tableId after id ro alignment header =>
    some (tableId, .insertColumn after id ro alignment header)
  | .setTableCell _ tableId rowId columnId id value observed =>
    some (tableId, .setCell rowId columnId id value observed)
  | .deleteTableRowById _ tableId target rowId id => some (tableId, .removeRow target rowId id)
  | .deleteTableColumnById _ tableId target columnId id =>
    some (tableId, .removeColumn target columnId id)
  | .setTableColumnAlignment _ tableId columnId id alignment observed =>
    some (tableId, .setAlignment columnId id alignment observed)
  | .moveTableRow _ tableId rowId target id after ro observed =>
    some (tableId, .moveRow rowId target id after ro observed)
  | .moveTableColumn _ tableId columnId target id after ro observed =>
    some (tableId, .moveColumn columnId target id after ro observed)
  | _ => none

/-- The table under a block id, as a reader sees it. -/
def Document.tableView (d : Document) (tableId : BlockId) : Option Table.View :=
  ((d.findBlockById tableId).bind Block.table?).map Table.view

section Document
variable [Segmentation] {d : Document} {path : BlockPath} {b : Block} {t : Table}

theorem applyDocOp_tableEdit (h : op.tableEdit = some (tableId, edit)) :
    ∃ tableElem, applyDocOp d op = updateTable d tableElem tableId (fun t => edit.run t) := by
  cases op <;> cases h <;> exact ⟨_, rfl⟩

theorem applyDocOp_table_holds (h : d.Holds path b) (hk : b.kind = .table t)
    (he : op.tableEdit = some (b.id, edit)) :
    (applyDocOp d op).Holds path { b with kind := .table (edit.run t) } := by
  obtain ⟨tableElem, happ⟩ := applyDocOp_tableEdit (d := d) he
  rw [happ]
  exact updateTable_holds h hk tableElem _

/-- A list of edits of one table acts on that table alone. -/
theorem foldl_table_holds (h : d.Holds path b) (hk : b.kind = .table t)
    (hid : b.id = tableId) {ops : List DocOp} {edits : List TableOp}
    (he : ops.map DocOp.tableEdit = edits.map (fun edit => some (tableId, edit))) :
    ∃ b', (ops.foldl applyDocOp d).Holds path b' ∧ b'.id = tableId ∧
      b'.kind = .table (edits.foldl TableOp.run t) := by
  induction ops generalizing d b t edits with
  | nil =>
    obtain rfl : edits = [] := by simpa using he.symm
    exact ⟨b, h, hid, hk⟩
  | cons op ops ih =>
    cases edits with
    | nil => simp at he
    | cons edit edits =>
      obtain ⟨hop, hrest⟩ := List.cons.inj he
      exact ih (applyDocOp_table_holds h hk (hid ▸ hop)) rfl hid hrest

omit [Segmentation] in
theorem tableView_of_holds (h : d.Holds path b) (hk : b.kind = .table t) :
    d.tableView b.id = some t.view := by
  rw [Document.tableView, h.findBlockById]
  simp [Block.table?, hk]

end Document

/-! ## Edits of one table -/

section Created
variable [Segmentation] [Serde] {s : Session} {op : DocOp} {tableId : BlockId} {edit : TableOp}

omit [Segmentation] [Serde] in
theorem anchored_of_anchorIn {T : Type} {seq : Sequence T} (h : seq.Indexed)
    (ha : Session.AnchorIn seq after) : seq.Anchored after := by
  intro a haa
  obtain ⟨e, he⟩ := isSome_iff_exists.mp (ha a haa)
  exact Sequence.mem_elementIds.mpr ⟨e, (Sequence.getElement_eq_some h).mp he⟩

omit [Segmentation] [Serde] in
/-- The logical ids of placed values are distinct. -/
theorem Placed.nodup {T : Type} {place : T → Place} {seq} (h : Placed place seq) :
    (seq.iter.map (fun v => (place v).logicalId)).Nodup := by
  have hpair : seq.elements.Pairwise (fun a b => a.id ≠ b.id) :=
    pairwise_map.mp h.ordered.grounded.distinct
  rw [List.Nodup, pairwise_map, Sequence.iter, pairwise_filterMap]
  refine hpair.imp_of_mem (fun {a b} ha hb hne v hv w hw hl => hne ?_)
  have hvw := h.unique v (mem_filterMap.mpr ⟨a, ha, hv⟩) w (mem_filterMap.mpr ⟨b, hb, hw⟩) hl
  rw [← h.elem a ha v hv, ← h.elem b hb w hw, hvw]

omit [Segmentation] in
theorem created_tableEdit (hc : s.Creates op) (he : op.tableEdit = some (tableId, edit))
    {block table} (hb : s.document.findBlockById tableId = some block)
    (hk : block.kind = .table table) (hw : table.WellFormed) :
    edit.id = s.peekNextId ∧ (∀ obs, edit.observed = some obs → obs = s.stateVector) ∧
      edit.Fits table := by
  have hsame : ∀ {block' : Block} {table' : Table},
      s.document.findBlockById tableId = some block' → block'.kind = .table table' →
      table' = table := by
    intro block' table' hb' hk'
    obtain rfl := some.inj (hb.symm.trans hb')
    exact BlockKind.table.inj (hk'.symm.trans hk)
  have hri := hw.rows.ordered.toIndexed
  have hci := hw.columns.ordered.toIndexed
  cases hc with
  | insertTableColumn alignment header hb' hk' ha =>
    cases he
    obtain rfl := hsame hb' hk'
    exact ⟨rfl, by simp [TableOp.observed], anchored_of_anchorIn hci ha⟩
  | @insertTableRow _ _ cells _ table' hb' hk' ha hn =>
    cases he
    obtain rfl := hsame hb' hk'
    refine ⟨rfl, by simp [TableOp.observed], anchored_of_anchorIn hri ha, ?_⟩
    rw [List.map_map, List.map_map]
    have hkeys : ((table'.columnsInOrder.map TableColumn.id).zip cells).map Prod.fst =
        table'.columnsInOrder.map TableColumn.id := map_fst_zip (le_of_eq hn.symm)
    exact hkeys.symm ▸ hw.columns.nodup
  | setTableCell value hb' hk' hr hcol =>
    cases he
    obtain rfl := hsame hb' hk'
    exact ⟨rfl, by simp [TableOp.observed], hr, by rw [hcol]; rfl⟩
  | @deleteTableRow _ _ _ _ row hb' hk' hr =>
    cases he
    obtain rfl := hsame hb' hk'
    exact ⟨rfl, by simp [TableOp.observed], row, hr, rfl⟩
  | setTableColumnAlignment alignment hb' hk' hcol | deleteTableColumn hb' hk' hcol =>
    cases he
    obtain rfl := hsame hb' hk'
    exact ⟨rfl, by simp [TableOp.observed], by simp [TableOp.Fits, hcol]⟩
  | moveTableColumn hb' hk' hcol ha hne =>
    cases he
    obtain rfl := hsame hb' hk'
    exact ⟨rfl, by simp [TableOp.observed], by rw [hcol]; rfl, anchored_of_anchorIn hci ha⟩
  | moveTableRow hb' hk' hr ha hne =>
    cases he
    obtain rfl := hsame hb' hk'
    exact ⟨rfl, by simp [TableOp.observed], by rw [hr]; rfl, anchored_of_anchorIn hri ha⟩
  | _ => cases he

/-- Edits that sessions of different peers made of one table, all in the same state of it, and
    none with another in view. -/
structure MadeOn (t : Table) (tableId : BlockId) (edits : List (Session × DocOp)) : Prop where
  base : ∀ e ∈ edits, ∃ b, e.1.document.findBlockById tableId = some b ∧ b.kind = .table t
  created : ∀ e ∈ edits, e.1.Creates e.2
  ofTable : ∀ e ∈ edits, ∃ edit, e.2.tableEdit = some (tableId, edit)
  peers : (edits.map (fun e => e.1.peer)).Nodup
  unseen : ∀ e ∈ edits, ∀ e' ∈ edits, ¬e.1.stateVector.covers e'.1.peekNextId

/-- What the authors know of the table: their clocks are past every id it mentions, and their
    vectors cover everything they may overwrite. -/
structure Knows (t : Table) (s : Session) : Prop where
  fresh : t.Fresh s.peekNextId
  seen : ∀ w ∈ t.writers, s.stateVector.covers w

omit [Segmentation] in
/-- Such edits are concurrent. -/
theorem MadeOn.concurrent {t} (hw : t.WellFormed) {edits} (hm : MadeOn t tableId edits)
    (hknow : ∀ e ∈ edits, Knows t e.1) : ∃ tableOps, (edits.map Prod.snd).map DocOp.tableEdit =
        tableOps.map (fun edit => some (tableId, edit)) ∧ t.Concurrent tableOps := by
  let read : Session × DocOp → TableOp := fun e => (e.2.tableEdit.map Prod.snd).getD
    (.removeRow ⟨0, 0⟩ tableId ⟨0, 0⟩)
  have hread : ∀ e ∈ edits, e.2.tableEdit = some (tableId, read e) := by
    intro e he
    obtain ⟨edit, hedit⟩ := hm.ofTable e he
    simp [read, hedit]
  have hfacts : ∀ e ∈ edits, (read e).id = e.1.peekNextId ∧
      (∀ obs, (read e).observed = some obs → obs = e.1.stateVector) ∧ (read e).Fits t := by
    intro e he
    obtain ⟨b, hb, hk⟩ := hm.base e he
    exact created_tableEdit (hm.created e he) (hread e he) hb hk hw
  refine ⟨edits.map read, ?_, ?_⟩
  · rw [List.map_map, List.map_map]
    exact map_congr_left hread
  · refine ⟨?_, ?_, ?_, ?_, ?_⟩
    · intro op hop
      obtain ⟨e, he, rfl⟩ := mem_map.mp hop
      exact (hfacts e he).2.2
    · intro op hop
      obtain ⟨e, he, rfl⟩ := mem_map.mp hop
      rw [(hfacts e he).1]
      exact (hknow e he).fresh
    · -- different peers allocate different ids
      have hids : (edits.map read).map TableOp.id = edits.map (fun e => e.1.peekNextId) := by
        rw [List.map_map]
        exact map_congr_left (fun e he => (hfacts e he).1)
      rw [hids]
      refine Nodup.of_map OpId.peer ?_
      rw [List.map_map]
      exact hm.peers
    · intro op hop obs hobs w hw
      obtain ⟨e, he, rfl⟩ := mem_map.mp hop
      rw [(hfacts e he).2.1 obs hobs]
      exact (hknow e he).seen w hw
    · intro op hop obs hobs op' hop'
      obtain ⟨e, he, rfl⟩ := mem_map.mp hop
      obtain ⟨e', he', rfl⟩ := mem_map.mp hop'
      rw [(hfacts e he).2.1 obs hobs, (hfacts e' he').1]
      exact hm.unseen e he e' he'

/-- All orders of such edits give the same table. -/
theorem MadeOn.converges {d : Document} {b : Block} {t : Table}
    (h : d.Holds path b) (hk : b.kind = .table t) (hw : t.WellFormed)
    {edits : List (Session × DocOp)} (hm : MadeOn t b.id edits) (hknow : ∀ e ∈ edits, Knows t e.1) :
    ∃ view, ∀ order : List DocOp, order.Perm (edits.map Prod.snd) →
      (order.foldl applyDocOp d).tableView b.id = some view := by
  obtain ⟨tableOps, hops, hc⟩ := hm.concurrent hw hknow
  refine ⟨(tableOps.foldl TableOp.run t).view, fun order horder => ?_⟩
  -- the same reordering of the table edits
  obtain ⟨tableOrder, hread, hperm⟩ : ∃ tableOrder : List TableOp,
      order.map DocOp.tableEdit = tableOrder.map (fun edit => some (b.id, edit)) ∧
        tableOrder.Perm tableOps := by
    have hp := (horder.map DocOp.tableEdit).trans (Perm.of_eq hops)
    have hcomp := eq_map_comp_perm (fun edit : TableOp => some (b.id, edit))
    exact (congrFun (congrFun hcomp _) _).mpr hp
  obtain ⟨b', hh, hid, hkind⟩ := foldl_table_holds h hk rfl hread
  rw [← hid, tableView_of_holds hh hkind]
  exact congrArg some (Table.After.view_eq hw (hc.perm hperm.symm) hperm
    (Table.After.run hw (hc.perm hperm.symm)) (Table.After.run hw hc))

end Created
end MdCrdt
