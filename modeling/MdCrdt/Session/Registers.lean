import MdCrdt.Core.SequenceSteps
import MdCrdt.Doc.Outline
import MdCrdt.Lib.Arbitration
import MdCrdt.Session.Wire

/- Causal registers: table cells, column alignments, list styles, item tasks, code
  fences, text-block kinds and raw blocks.

  Each is written by an operation of its own and keeps the writer's id and what the
  writer had observed. All seven decide between two writes by `causalWriteWins`, so
  a delivery of writes is a fold of the abstract register (`Lib.settleAll`), and two
  orders agree on every choice of values exactly when one write saw or outranks all
  the others. -/
namespace MdCrdt
open Lib List Option Document Sequence Block TableColumn Element
variable {V : Type} {pm : List PendingListItemMove} {items : Sequence ListItem}
variable (value : OpId → V)

/-- What a register holds. -/
structure Written (V : Type) where
  value : V
  id : OpId
  observed : StateVector

/-- A write of a set: its id and what its author had observed. -/
structure Write where
  id : OpId
  observed : StateVector
  deriving DecidableEq

open Write

/-- `w` was made with `v` in view. -/
def Write.Saw (v w : Write) : Prop := w.observed.covers v.id

instance : DecidableRel Saw := fun v w => inferInstanceAs (Decidable (w.observed.covers v.id))

def Written.write {V : Type} (c : Written V) : Write := ⟨c.id, c.observed⟩

/-- The test of the source is the one of the abstract register. -/
theorem causalWriteWins_iff (current incoming) :
    causalWriteWins current.id current.observed incoming.id incoming.observed = true ↔
      Replaces Saw Write.id current incoming := by
  simp [causalWriteWins, Replaces, Saw]

/-- A write reaches a register that may still be empty. -/
def arbitrate {V : Type} (current : Option (Written V)) (w : Written V) : Written V :=
  match current with
  | none => w
  | some c => if causalWriteWins c.id c.observed w.id w.observed then w else c

/-! ## The seven registers -/

/-- A register, addressed as the operations that write it address it. -/
inductive Register where
  | tableCell (tableElem : OpId) (tableId rowId columnId : BlockId)
  | columnAlignment (tableElem : OpId) (tableId columnId : BlockId)
  | listStyle (blockElem : OpId) (blockId : BlockId)
  | listItemTask (itemId : BlockId)
  | codeFence (blockElem : OpId) (blockId : BlockId)
  | textBlockKind (blockElem : OpId) (blockId : BlockId)
  | rawBlock (blockElem : OpId) (blockId : BlockId)

open Register

namespace Register

def Value : Register → Type
  | tableCell _ _ _ _ => String
  | columnAlignment _ _ _ => ColumnAlignmentWire
  | listStyle _ _ => ListStyle
  | listItemTask _ => Option TaskState
  | codeFence _ _ => CodeFenceStyle × Option String × String
  | textBlockKind _ _ => TextBlockKindWire
  | rawBlock _ _ => String

/-- The operation that writes a value. -/
def writeOp (r : Register) (id : OpId) (observed : StateVector) (value : r.Value) : DocOp :=
  match r, value with
  | tableCell tableElem tableId rowId columnId, value =>
    .setTableCell tableElem tableId rowId columnId id value observed
  | columnAlignment tableElem tableId columnId, value =>
    .setTableColumnAlignment tableElem tableId columnId id value observed
  | listStyle blockElem blockId, value => .setListStyle blockElem blockId id value observed
  | listItemTask itemId, value => .setListItemTask itemId id value observed
  | codeFence blockElem blockId, value =>
    .setCodeFence blockElem blockId id value.1 value.2.1 value.2.2 observed
  | textBlockKind blockElem blockId, value => .convertTextBlock blockElem blockId id value observed
  | rawBlock blockElem blockId, value => .replaceRawBlock blockElem blockId id value observed

end Register

/-- The table inside a block. -/
def Block.table? (b : Block) : Option Table :=
  match b.kind with
  | .table t => some t
  | _ => none

def TableCell.written (cell : TableCell) : Written String := ⟨cell.value, cell.opId, cell.observed⟩

def TableColumn.writtenAlignment (column : TableColumn) : Written ColumnAlignmentWire :=
  ⟨alignmentToWire column.alignment.value, column.alignment.opId, column.alignmentObserved⟩

def ListItem.writtenTask (item : ListItem) : Written (Option TaskState) :=
  ⟨item.task, item.taskOp, item.taskObserved⟩

/-- The kind-specific data of a block, if a register of the given sort lives there. -/
def Block.written {V : Type} (b : Block) (read : BlockKind → Option V) : Option (Written V) :=
  (read b.kind).map (fun value => ⟨value, b.kindOp, b.kindObserved⟩)

def readListStyle : BlockKind → Option ListStyle
  | .list style _ _ => some style
  | _ => none

def readCodeFence : BlockKind → Option (CodeFenceStyle × Option String × String)
  | .codeFence style info text => some (style, info, text)
  | _ => none

def readTextKind : BlockKind → Option TextBlockKindWire
  | .paragraph _ => some .paragraph
  | .heading level _ => some (.heading level)
  | _ => none

def readRawBlock : BlockKind → Option String
  | .rawBlock raw => some raw
  | _ => none

/-- The item of a list block that stands at a place. -/
def Block.itemAt (b : Block) (place : OpId) : Option ListItem :=
  match b.kind with
  | .list _ items _ => items.value? place
  | _ => none

/-- What a register of a document holds. -/
def Register.stored (d : Document) : (r : Register) → Option (Written r.Value)
  | tableCell _ tableId rowId columnId =>
    ((d.findBlockById tableId).bind table?).bind (fun t =>
      (t.cells.get? ⟨rowId, columnId⟩).map TableCell.written)
  | columnAlignment _ tableId columnId =>
    ((d.findBlockById tableId).bind table?).bind (fun t =>
      (t.columnById columnId).map writtenAlignment)
  | listStyle _ blockId => (d.findBlockById blockId).bind (fun b => b.written readListStyle)
  | listItemTask itemId =>
    (d.listItemPlacement itemId).bind (fun p => (d.findBlock p.2.1).bind (fun b =>
      (b.itemAt p.2.2).map ListItem.writtenTask))
  | codeFence _ blockId => (d.findBlockById blockId).bind (fun b => b.written readCodeFence)
  | textBlockKind _ blockId => (d.findBlockById blockId).bind (fun b => b.written readTextKind)
  | rawBlock _ blockId => (d.findBlockById blockId).bind (fun b => b.written readRawBlock)

/-! ## Where a register lives -/

/-- The block stands at the path, and both of its ids lead there. -/
structure Document.Holds (d : Document) (path : BlockPath) (b : Block) : Prop where
  at_path : blockAtPath d.blocks path = some b
  by_id : d.pathOfBlock b.id = some path
  by_elem : d.pathOfElem b.elemId = some path

/-- Every live element holds a column that knows its place. -/
def Table.ColumnsPlaced (t : Table) : Prop :=
  t.columns.Indexed ∧ ∀ e ∈ t.columns.elements, ∀ c, e.value = some c → c.elemId = e.id

/-- The document has the register. -/
def Register.Hosted (d : Document) : Register → Prop
  | tableCell _ tableId _ _ => ∃ path b t, d.Holds path b ∧ b.id = tableId ∧ b.kind = .table t
  | columnAlignment _ tableId columnId => ∃ path b t, d.Holds path b ∧ b.id = tableId ∧
      b.kind = .table t ∧ t.ColumnsPlaced ∧ (t.columnById columnId).isSome
  | listStyle _ blockId => ∃ path b, d.Holds path b ∧ b.id = blockId ∧
      (readListStyle b.kind).isSome
  | listItemTask itemId => ∃ listId path b place item,
      d.listItemPlacement itemId = some (listId, b.elemId, place) ∧
      blockAtPath d.blocks path = some b ∧ d.pathOfElem b.elemId = some path ∧
      b.itemAt place = some item ∧ item.id = itemId
  | codeFence _ blockId => ∃ path b, d.Holds path b ∧ b.id = blockId ∧
      (readCodeFence b.kind).isSome
  | textBlockKind _ blockId => ∃ path b, d.Holds path b ∧ b.id = blockId ∧
      (readTextKind b.kind).isSome
  | rawBlock _ blockId => ∃ path b, d.Holds path b ∧ b.id = blockId ∧
      (readRawBlock b.kind).isSome

namespace Document
variable {d d' : Document} {path : BlockPath} {b b' : Block}

section
variable (h : d.Holds path b)
include h

theorem Holds.findBlockById : d.findBlockById b.id = some b :=
  findBlockById_eq_some.mpr ⟨rfl, path, h.by_id, h.at_path⟩

theorem Holds.findBlock : d.findBlock b.elemId = some b :=
  findBlock_eq_some.mpr ⟨rfl, path, h.by_elem, h.at_path⟩

theorem Holds.edited (he : Edited d d' path b b') (hid : b'.id = b.id)
    (helem : b'.elemId = b.elemId) : d'.Holds path b' where
  at_path := he.after
  by_id := by rw [he.pathOfBlock, hid, h.by_id]
  by_elem := by rw [he.pathOfElem, helem, h.by_elem]

theorem updateBlock_edited (hs : SameOutline b (f b)) :
    Edited d (d.updateBlock b.elemId f) path b (f b) := by
  have hu : d.updateBlock b.elemId f = { d with blocks := modifyAtPath d.blocks path f } := by
    rw [updateBlock, withBlockMut_eq h.findBlock h.by_elem]
    rfl
  rw [hu]
  exact edited_modifyAtPath h.at_path hs

end

end Document

/-- A kind with nothing inside that lookups enter. -/
def BlockKind.IsLeaf : BlockKind → Prop
  | .list _ _ _ | .blockQuote _ => False
  | _ => True

theorem sameOutline_leaf (hid : b'.id = b.id) (helem : b'.elemId = b.elemId)
    (hb : b.kind.IsLeaf) (hb' : b'.kind.IsLeaf) : SameOutline b b' := by
  have hempty : ∀ k, k.IsLeaf → ∀ cs i, indexKind cs i k = [] := by
    intro k hk cs i
    cases k with
    | list | blockQuote => exact hk.elim
    | _ => rw [indexKind]
  have hitems : ∀ b, b.kind.IsLeaf → directItems b = [] := by
    intro b hb
    unfold directItems
    cases hk : b.kind with
    | list | blockQuote => simp [BlockKind.IsLeaf, hk] at hb
    | _ => rfl
  refine ⟨hid, helem, by rw [hitems b hb, hitems b' hb'], fun cs i => ?_⟩
  simp only [outlineInside, indexBlock_eq, hempty _ hb, hempty _ hb']

theorem sameOutline_style (hid : b'.id = b.id) (helem : b'.elemId = b.elemId)
    (hb : b.kind = .list style items pm) (hb' : b'.kind = .list style' items pm') :
    SameOutline b b' := by
  refine ⟨hid, helem, by simp [directItems, hb, hb'], fun cs i => ?_⟩
  simp only [outlineInside, indexBlock_eq, hb, hb', indexKind_list]

/-! ## One write -/

section Steps
variable {d : Document} {path : BlockPath} {b : Block}

theorem tryBlock_holds (h : d.Holds path b) (hf : f b = some b') (hs : SameOutline b b') :
    (d.tryBlock b.elemId f).1.Holds path b' ∧ (d.tryBlock b.elemId f).2 = true := by
  obtain ⟨he, hok⟩ := tryBlock_some h.findBlock h.by_elem hf hs
  exact ⟨h.edited he hs.id hs.elemId, hok⟩

/-- The document has the register of a sort, and a write has arbitrated with what it held. -/
def Rewrites (read : BlockKind → Option V) (d d' : Document) (id : BlockId) (w : Written V) : Prop :=
  (∃ path b, d'.Holds path b ∧ b.id = id ∧ (read b.kind).isSome) ∧
    (d'.findBlockById id).bind (fun b => b.written read) =
      some (arbitrate ((d.findBlockById id).bind (fun b => b.written read)) w)

/-- A write to the kind-specific data of a block. -/
theorem writeKind_rewrites (read : BlockKind → Option V) (h : d.Holds path b)
    (f : BlockKind → Option BlockKind) {kind' current value}
    (hread : read b.kind = some current) (hf : f b.kind = some kind')
    (hread' : read kind' = some value)
    (hs : ∀ op obs, SameOutline b { b with kind := kind', kindOp := op, kindObserved := obs })
    (id observed) :
    Rewrites read d (d.writeKind b.elemId id observed f).1 b.id ⟨value, id, observed⟩ := by
  have hcur : b.written read = some ⟨current, b.kindOp, b.kindObserved⟩ := by
    rw [written, hread, map_some]
  rw [Rewrites, h.findBlockById, bind_some, hcur, writeKind]
  cases hw : causalWriteWins b.kindOp b.kindObserved id observed with
  | true =>
    obtain ⟨hh, _⟩ := tryBlock_holds h (f := fun block =>
      if causalWriteWins block.kindOp block.kindObserved id observed then
        (f block.kind).map (fun kind =>
          { block with kind := kind, kindOp := id, kindObserved := observed })
      else none) (by simp only [hw, if_true, hf, map_some]) (hs id observed)
    refine ⟨⟨path, _, hh, rfl, by rw [hread']; rfl⟩, ?_⟩
    have hfind := hh.findBlockById
    simp only at hfind
    simp [hfind, written, hread', arbitrate, hw]
  | false =>
    rw [tryBlock_none h.findBlock (by simp [hw])]
    refine ⟨⟨path, b, h, rfl, by rw [hread]; rfl⟩, ?_⟩
    simp [h.findBlockById, hcur, arbitrate, hw]

end Steps

/-! ## Columns -/

/-- Replacing the first value a search finds by another that it accepts. -/
theorem find?_updateAt {T : Type} {p id v v'} (hv' : p v' = true) :
    ∀ {l : List (Element T)}, Distinct l → (l.filterMap Element.value).find? p = some v →
      (∀ e ∈ l, e.value = some v → e.id = id) →
      ((updateAt id (fun e => { e with value := some v' }) l).filterMap
        Element.value).find? p = some v'
  | [], _, h, _ => by simp at h
  | e :: l, hd, h, hid => by
    obtain ⟨hfresh, hd'⟩ := nodup_cons.mp hd
    -- the value found further back keeps the id from standing here
    have hlater : (l.filterMap value).find? p = some v → e.id ≠ id := by
      intro hl he
      obtain ⟨a, ha, hav⟩ := mem_filterMap.mp (mem_of_find?_eq_some hl)
      exact hfresh (mem_map.mpr ⟨a, ha, (hid a (mem_cons_of_mem _ ha) hav).trans he.symm⟩)
    have hrec : (l.filterMap value).find? p = some v →
        ((updateAt id (fun e => { e with value := some v' }) l).filterMap
          value).find? p = some v' :=
      fun hl => find?_updateAt hv' hd' hl (fun a ha => hid a (mem_cons_of_mem _ ha))
    cases hval : e.value with
    | none =>
      have hl : (l.filterMap value).find? p = some v := by simpa [hval] using h
      simpa [updateAt, hlater hl, hval] using hrec hl
    | some w =>
      cases hw : p w with
      | true =>
        have hwv : w = v := by simpa [hval, hw] using h
        have he : e.id = id := hid e mem_cons_self (hval.trans (congrArg some hwv))
        simp [updateAt, he, hv']
      | false =>
        have hl : (l.filterMap value).find? p = some v := by simpa [hval, hw] using h
        simpa [updateAt, hlater hl, hval, hw] using hrec hl

section Columns
variable {t : Table} {columnId : BlockId} {column : TableColumn}

theorem columnById_update (hp : t.ColumnsPlaced) (hc : t.columnById columnId = some column)
    (hid : updated.id = column.id) :
    { t with columns := t.columns.updateValue column.elemId updated }.columnById columnId =
      some updated := by
  have hcol : column.id = columnId := by simpa using find?_some hc
  rw [Table.columnById, Sequence.iter, hp.1.updateValue_eq]
  apply find?_updateAt (by simp [hid, hcol]) hp.1.grounded.distinct hc
  intro e he hv
  exact (hp.2 e he column hv).symm

theorem columnsPlaced_update (hp : t.ColumnsPlaced) (helem : updated.elemId = column.elemId) :
    { t with columns := t.columns.updateValue column.elemId updated }.ColumnsPlaced := by
  rw [hp.1.updateValue_eq]
  refine ⟨hp.1.of_updateAt (keepsPlace_value (fun _ => some updated)) rfl rfl, fun e he c hec => ?_⟩
  obtain ⟨a, ha, rfl⟩ := mem_map.mp he
  by_cases h : a.id = column.elemId
  · simp only [h, if_true, some.injEq] at hec ⊢
    rw [← hec, helem]
  · simp only [h, if_false] at hec ⊢
    exact hp.2 a ha c hec

/-- A cell write, and what the cell holds then. -/
theorem setCellObserved_spec (t : Table) (rowId columnId value id observed) :
    ((t.setCellObserved rowId columnId value id observed).cells.get? ⟨rowId, columnId⟩).map
      TableCell.written = some (arbitrate ((t.cells.get? ⟨rowId, columnId⟩).map TableCell.written)
        ⟨value, id, observed⟩) := by
  simp only [Table.setCellObserved, SortedMap.get?_insert, if_true, map_some]
  cases t.cells.get? ⟨rowId, columnId⟩ with
  | none => rfl
  | some cell =>
    simp only [map_some, arbitrate, TableCell.set, TableCell.written]
    cases causalWriteWins cell.opId cell.observed id observed <;> rfl

/-- An alignment write, and what the column holds then. -/
theorem setColumnAlignmentObserved_spec (hp : t.ColumnsPlaced)
    (hc : t.columnById columnId = some column) (alignment id observed) :
    let t' := t.setColumnAlignmentObserved columnId (alignmentFromWire alignment) id observed
    t'.ColumnsPlaced ∧ (t'.columnById columnId).map writtenAlignment =
      some (arbitrate (some column.writtenAlignment) ⟨alignment, id, observed⟩) := by
  have hwire : alignmentToWire (alignmentFromWire alignment) = alignment := by
    cases alignment <;> rfl
  simp only [Table.setColumnAlignmentObserved, hc]
  cases hw : causalWriteWins column.alignment.opId column.alignmentObserved id observed with
  | true =>
    let updated : TableColumn :=
      { column with alignment := ⟨alignmentFromWire alignment, id⟩, alignmentObserved := observed }
    have hplaced : { t with columns := t.columns.updateValue column.elemId updated }.ColumnsPlaced :=
      columnsPlaced_update hp rfl
    refine ⟨hplaced, ?_⟩
    have hfound : { t with columns := t.columns.updateValue column.elemId updated }.columnById
        columnId = some updated := columnById_update hp hc rfl
    simp only [if_true]
    rw [hfound]
    simp [writtenAlignment, arbitrate, hw, hwire, updated]
  | false =>
    simp only [Bool.false_eq_true, if_false]
    exact ⟨hp, by simp [hc, writtenAlignment, arbitrate, hw]⟩

end Columns

/-! ## Each register arbitrates -/

section Write
variable {d : Document} {path : BlockPath} {b : Block}

theorem currentBlockElem_holds (h : d.Holds path b) (fallback) :
    currentBlockElem d b.id fallback = b.elemId := by
  rw [currentBlockElem, blockElemId, h.findBlockById]; rfl

theorem updateTable_holds (h : d.Holds path b) (hk : b.kind = .table t)
    (tableElem) (f : Table → Table) :
    (updateTable d tableElem b.id f).Holds path { b with kind := .table (f t) } := by
  have hf : b.modifyTable f = { b with kind := .table (f t) } := by
    unfold modifyTable
    rw [hk]
  have hs : SameOutline b (b.modifyTable f) := by
    rw [hf]
    exact sameOutline_leaf rfl rfl (by rw [hk]; trivial) trivial
  rw [updateTable, currentBlockElem_holds h, ← hf]
  exact h.edited (updateBlock_edited h hs) hs.id hs.elemId

variable {id : OpId} {observed : StateVector}

section
variable (h : d.Holds path b)
include h

/-- What is read of the table in a block. -/
theorem table_reads {W : Type} (hk : b.kind = .table t) (read : Table → Option W) :
    ((d.findBlockById b.id).bind table?).bind read = read t := by
  simp only [h.findBlockById, bind_some, table?, hk]

theorem listStyle_step (hr : (readListStyle b.kind).isSome) (style) :
    Rewrites readListStyle d (d.setListStyle b.elemId style id observed).1 b.id ⟨style, id, observed⟩ := by
  cases hk : b.kind with
  | list current items pm =>
    exact writeKind_rewrites readListStyle h (fun
      | .list _ items pendingMoves => some (.list style items pendingMoves)
      | _ => none) (by rw [hk]; rfl) (by rw [hk]) rfl
      (fun op obs => sameOutline_style rfl rfl hk rfl) id observed
  | _ =>
    simp [hk, readListStyle] at hr

theorem codeFence_step (hr : (readCodeFence b.kind).isSome) (style info text) :
    Rewrites readCodeFence d (d.setCodeFence b.elemId style info text id observed).1 b.id ⟨(style, info, text), id, observed⟩ := by
  cases hk : b.kind with
  | codeFence s i t =>
    exact writeKind_rewrites readCodeFence h (fun
      | .codeFence _ _ _ => some (.codeFence style info text)
      | _ => none) (by rw [hk]; rfl) (by rw [hk]) rfl
      (fun op obs => sameOutline_leaf rfl rfl (by rw [hk]; trivial) (by trivial)) id observed
  | _ => simp [hk, readCodeFence] at hr

theorem rawBlock_step (hr : (readRawBlock b.kind).isSome) (raw) :
    Rewrites readRawBlock d (d.replaceRawBlock b.elemId raw id observed).1 b.id ⟨raw, id, observed⟩ := by
  cases hk : b.kind with
  | rawBlock current =>
    exact writeKind_rewrites readRawBlock h (fun
      | .rawBlock _ => some (.rawBlock raw)
      | _ => none) (by rw [hk]; rfl) (by rw [hk]) rfl
      (fun op obs => sameOutline_leaf rfl rfl (by rw [hk]; trivial) (by trivial)) id observed
  | _ => simp [hk, readRawBlock] at hr

/-- The register of a text block is its kind; the text stays with the block. -/
theorem textBlockKind_step (hr : (readTextKind b.kind).isSome) (kind) :
    Rewrites readTextKind d (d.convertTextBlock b.elemId kind id observed).1 b.id ⟨kind, id, observed⟩ := by
  obtain ⟨current, hcur⟩ := isSome_iff_exists.mp hr
  obtain ⟨text, htext, hleaf⟩ : ∃ text, blockTextSeq b.kind = some text ∧ b.kind.IsLeaf := by
    cases hk : b.kind with
    | paragraph text | heading level text => exact ⟨text, rfl, trivial⟩
    | _ => simp [hk, readTextKind] at hr
  have hkind : readTextKind (textKind kind text) = some kind ∧
      (textKind kind text).IsLeaf := by
    cases kind <;> exact ⟨rfl, trivial⟩
  exact writeKind_rewrites readTextKind h
    (fun current => (blockTextSeq current).map (textKind kind)) hcur
    (by rw [htext]; rfl) hkind.1
    (fun op obs => sameOutline_leaf rfl rfl hleaf hkind.2) id observed

end

/-- An edit of the items of the list block that stands under an element id. -/
theorem tryItems_edited (hat : blockAtPath d.blocks path = some b)
    (hpath : d.pathOfElem b.elemId = some path) (hk : b.kind = .list style items pm)
    (hg : g items = some items') (hs : SameOutline b { b with kind := .list style items' pm }) :
    Edited d (d.tryItems b.elemId g).1 path b { b with kind := .list style items' pm } :=
  (tryBlock_some (findBlock_eq_some.mpr ⟨rfl, path, hpath, hat⟩) hpath
    (by simp only [hk, hg, map_some]) hs).1

theorem tryItems_none (hat : blockAtPath d.blocks path = some b)
    (hpath : d.pathOfElem b.elemId = some path) (hk : b.kind = .list style items pm)
    (hg : g items = none) : d.tryItems b.elemId g = (d, false) :=
  tryBlock_none (findBlock_eq_some.mpr ⟨rfl, path, hpath, hat⟩)
    (by simp only [hk, hg, map_none])

theorem stored_listItemTask (hplace : d.listItemPlacement itemId = some (listId, b.elemId, place))
    (hat : blockAtPath d.blocks path = some b) (hpath : d.pathOfElem b.elemId = some path)
    (hitem : b.itemAt place = some item) :
    (listItemTask itemId).stored d = some item.writtenTask := by
  simp [stored, hplace, findBlock_eq_some.mpr ⟨rfl, path, hpath, hat⟩, hitem]
  rfl

theorem listItemTask_step (h : (listItemTask itemId).Hosted d) (task) :
    let d' := (d.setListItemTask itemId task id observed).1
    (listItemTask itemId).Hosted d' ∧ (listItemTask itemId).stored d' =
      some (arbitrate ((listItemTask itemId).stored d) ⟨task, id, observed⟩) := by
  obtain ⟨listId, path, b, place, item, hplace, hat, hpath, hitem, hid⟩ := h
  have hcur := stored_listItemTask hplace hat hpath hitem
  rw [hcur]
  obtain ⟨style, items, pm, hk⟩ : ∃ style items pm, b.kind = .list style items pm := by
    cases hk : b.kind with
    | list style items pm => exact ⟨style, items, pm, rfl⟩
    | _ =>
      simp [itemAt, hk] at hitem
  have hval : items.value? place = some item := by simpa [itemAt, hk] using hitem
  have hfilter : (items.value? place).filter (fun item => item.id = itemId) = some item := by
    rw [hval]
    simp [hid]
  simp only [setListItemTask, hplace]
  cases hw : causalWriteWins item.taskOp item.taskObserved id observed with
  | false =>
    rw [tryItems_none hat hpath hk (by rw [hfilter]; simp [hw])]
    refine ⟨⟨listId, path, b, place, item, hplace, hat, hpath, hitem, hid⟩, hcur.trans ?_⟩
    simp [arbitrate, ListItem.writtenTask, hw]
    rfl
  | true =>
    let f : ListItem → ListItem :=
      fun item => { item with task := task, taskOp := id, taskObserved := observed }
    let b' : Block := { b with kind := .list style (items.withValue place f) pm }
    have hsame : SameOutline b b' := sameOutline_item hk hval rfl (fun _ => rfl)
    have he := tryItems_edited hat hpath hk (g := fun items =>
        ((items.value? place).filter (fun item => item.id = itemId)).bind (fun item =>
          if causalWriteWins item.taskOp item.taskObserved id observed then
            some (items.withValue place f) else none)) (by rw [hfilter]; simp [hw]) hsame
    have hitem' : b'.itemAt place = some (f item) := by
      simp [itemAt, b', value?_withValue_self, hval]
    have hplace' := (he.listItemPlacement itemId).trans hplace
    have hpath' := (he.pathOfElem b'.elemId).trans hpath
    refine ⟨⟨listId, path, b', place, f item, hplace', he.after, hpath', hitem', hid⟩,
      (stored_listItemTask (b := b') hplace' he.after hpath' hitem').trans ?_⟩
    simp [arbitrate, ListItem.writtenTask, hw, f]
    rfl

variable [Segmentation]

/-- One write to any register: it is still there, and it arbitrated. -/
theorem Register.write_step (r : Register) (h : r.Hosted d) (id observed)
    (value : r.Value) : r.Hosted (applyDocOp d (r.writeOp id observed value)) ∧
      r.stored (applyDocOp d (r.writeOp id observed value)) =
        some (arbitrate (r.stored d) ⟨value, id, observed⟩) := by
  cases r with
  | tableCell tableElem tableId rowId columnId =>
    obtain ⟨path, b, t, hh, rfl, hk⟩ := h
    have hh' := updateTable_holds hh hk tableElem
      (fun table => table.setCellObserved rowId columnId value id observed)
    refine ⟨⟨path, _, _, hh', rfl, rfl⟩, ?_⟩
    have hcur := table_reads hh hk (fun t =>
      (t.cells.get? ⟨rowId, columnId⟩).map TableCell.written)
    have hnew := setCellObserved_spec t rowId columnId value id observed
    rw [← hcur] at hnew
    exact (table_reads hh' rfl _).trans hnew
  | columnAlignment tableElem tableId columnId =>
    obtain ⟨path, b, t, hh, rfl, hk, hp, hc⟩ := h
    obtain ⟨column, hc⟩ := isSome_iff_exists.mp hc
    have hh' := updateTable_holds hh hk tableElem (fun table =>
      table.setColumnAlignmentObserved columnId (alignmentFromWire value) id observed)
    obtain ⟨hp', hnew⟩ := setColumnAlignmentObserved_spec hp hc value id observed
    have hsome := congrArg Option.isSome hnew
    rw [isSome_map] at hsome
    refine ⟨⟨path, _, _, hh', rfl, rfl, hp', hsome⟩, ?_⟩
    have hcur := table_reads hh hk (fun t =>
      (t.columnById columnId).map writtenAlignment)
    rw [hc, map_some] at hcur
    rw [← hcur] at hnew
    exact (table_reads hh' rfl _).trans hnew
  | listStyle blockElem blockId =>
    obtain ⟨path, b, hh, rfl, hr⟩ := h
    simp only [writeOp, applyDocOp, currentBlockElem_holds hh]
    exact listStyle_step hh hr value
  | listItemTask itemId => exact listItemTask_step h value
  | codeFence blockElem blockId =>
    obtain ⟨path, b, hh, rfl, hr⟩ := h
    simp only [writeOp, applyDocOp, currentBlockElem_holds hh]
    exact codeFence_step hh hr value.1 value.2.1 value.2.2
  | textBlockKind blockElem blockId =>
    obtain ⟨path, b, hh, rfl, hr⟩ := h
    simp only [writeOp, applyDocOp, currentBlockElem_holds hh]
    exact textBlockKind_step hh hr value
  | rawBlock blockElem blockId =>
    obtain ⟨path, b, hh, rfl, hr⟩ := h
    simp only [writeOp, applyDocOp, currentBlockElem_holds hh]
    exact rawBlock_step hh hr value

end Write

/-! ## Delivering a set of writes -/

/-- What a write puts into a register. -/
def Write.place {V : Type} (value : OpId → V) (w : Write) : Written V :=
  ⟨value w.id, w.id, w.observed⟩

theorem arbitrate_place (v w) : some (arbitrate (some (v.place value)) (w.place value)) =
      (settle Saw Write.id (some v) w).map (Write.place value) := by
  have hiff := causalWriteWins_iff v w
  by_cases h : Replaces Saw Write.id v w
  · rw [settle, if_pos h]
    exact congrArg some (if_pos (hiff.mpr h))
  · rw [settle, if_neg h]
    exact congrArg some (if_neg (fun hc => h (hiff.mp hc)))

/-- Arbitration over a list of writes is the abstract register. -/
theorem foldl_arbitrate (l) :
    ∀ v, l.foldl (fun cur w => some (arbitrate cur (w.place value))) (some (v.place value)) =
      (settleAll Saw Write.id (some v) l).map (Write.place value) := by
  induction l with
  | nil => exact fun _ => rfl
  | cons w l ih =>
    intro v
    rw [foldl_cons, arbitrate_place, settleAll, foldl_cons]
    simp only [settle]
    split
    · exact ih w
    · exact ih v

/-- Writes with unique ids whose vectors tell the truth: seeing is transitive, no write saw
    itself, and every author had the register in view. -/
structure Truthful (base : Option Write) (S : Finset Write) : Prop where
  ids : Set.InjOn Write.id (S : Set Write)
  strict : StrictOn Saw S
  base : ∀ b ∈ base, ∀ w ∈ S, b.Saw w

/-- An order of the writes in which each comes behind those it saw. -/
def Delivery (S : Finset Write) (l : List Write) : Prop :=
  Enumerates S l ∧ Respects Saw l

theorem foldl_arbitrate_base (ht : Truthful (current.map Written.write) S)
    (hl : Delivery S l) (hne : S.Nonempty) :
    l.foldl (fun cur w => some (arbitrate cur (w.place value))) current =
      (settleAll Saw Write.id (current.map Written.write) l).map (Write.place value) := by
  obtain ⟨u, hu⟩ := hne
  obtain ⟨v, l, rfl⟩ := exists_cons_of_ne_nil (ne_nil_of_mem ((hl.1.2 u).mpr hu))
  have hv : v ∈ S := (hl.1.2 v).mp mem_cons_self
  have hfirst : arbitrate current (v.place value) = v.place value := by
    cases current with
    | none => rfl
    | some c => exact if_pos ((causalWriteWins_iff c.write v).mpr (.inl (ht.base _ rfl v hv)))
  have hsettle : settle Saw Write.id (current.map Written.write) v = some v :=
    settle_of_replaces (fun c hc => .inl (ht.base c hc v hv))
  rw [foldl_cons, hfirst, foldl_arbitrate, settleAll, settleAll, foldl_cons, hsettle]

theorem Register.exists_values_ne (r : Register) : ∃ x y : r.Value, x ≠ y := by
  cases r with
  | tableCell | rawBlock => exact (⟨"", "a", by decide⟩ : ∃ x y : String, x ≠ y)
  | columnAlignment => exact (⟨.left, .right, by decide⟩ : ∃ x y : ColumnAlignmentWire, x ≠ y)
  | listStyle =>
    exact (⟨ListStyle.default, ⟨true, 1, .period, .dash, false⟩, by decide⟩ :
      ∃ x y : ListStyle, x ≠ y)
  | listItemTask => exact (⟨none, some .checked, by decide⟩ : ∃ x y : Option TaskState, x ≠ y)
  | codeFence =>
    exact (⟨(⟨.tilde, 3⟩, none, ""), (⟨.tilde, 3⟩, none, "a"), by decide⟩ :
      ∃ x y : CodeFenceStyle × Option String × String, x ≠ y)
  | textBlockKind => exact (⟨.paragraph, .heading 1, by decide⟩ : ∃ x y : TextBlockKindWire, x ≠ y)

section Deliver
variable [Segmentation]

/-- Apply the envelopes of a list of writes, each with the value it carries. -/
def Register.deliver (r : Register) (value : OpId → r.Value) (d : Document) (l : List Write) :
    Document :=
  l.foldl (fun d w =>
    applyEnvelopeToDocument d (r.writeOp w.id w.observed (value w.id)).envelope) d

theorem Register.stored_deliver (r : Register) (value : OpId → r.Value) (l) :
    ∀ d, r.Hosted d → r.stored (r.deliver value d l) =
      l.foldl (fun cur w => some (arbitrate cur (w.place value))) (r.stored d) := by
  induction l with
  | nil => exact fun _ _ => rfl
  | cons w l ih =>
    intro d hd
    obtain ⟨hd', hs⟩ := r.write_step hd w.id w.observed (value w.id)
    have hfirst : r.stored (applyDocOp d (r.writeOp w.id w.observed (value w.id))) =
        some (arbitrate (r.stored d) (w.place value)) := hs
    rw [foldl_cons, ← hfirst]
    exact ih _ hd'

/-- Whatever values the writes carry, all orders leave the same one exactly when some write saw
    or outranks every other. -/
theorem Register.orders_agree_iff (r : Register) {d : Document} (hd : r.Hosted d)
    (S : Finset Write) (ht : Truthful ((r.stored d).map Written.write) S) :
    (∀ (value : OpId → r.Value) (l₁ l₂ : List Write), Delivery S l₁ → Delivery S l₂ →
      (r.stored (r.deliver value d l₁)).map Written.value =
        (r.stored (r.deliver value d l₂)).map Written.value) ↔
    S = ∅ ∨ ∃ w ∈ S, Decides Saw Write.id S w := by
  have hfinal : ∀ (value : OpId → r.Value) l, Delivery S l → S.Nonempty →
      (r.stored (r.deliver value d l)).map Written.value =
        (settleAll Saw Write.id ((r.stored d).map Written.write) l).map
          (fun w => value w.id) := by
    intro value l hl hne
    rw [r.stored_deliver value l d hd, foldl_arbitrate_base value ht hl hne, Option.map_map]
    rfl
  constructor
  · intro h
    by_contra hcon
    rw [not_or] at hcon
    obtain ⟨l₁, l₂, w₁, w₂, hl₁, hl₂, hw₁, hw₂, hne, hf₁, hf₂⟩ :=
      exists_orders_differ ht.strict ht.ids ht.base (Finset.nonempty_of_ne_empty hcon.1) hcon.2
    obtain ⟨x, y, hxy⟩ := r.exists_values_ne
    have heq := h (fun id => if id = w₁.id then x else y) l₁ l₂ hl₁ hl₂
    rw [hfinal _ l₁ hl₁ ⟨_, hw₁⟩, hfinal _ l₂ hl₂ ⟨_, hw₁⟩, hf₁, hf₂] at heq
    have hid : w₂.id ≠ w₁.id := fun he => hne (ht.ids hw₁ hw₂ he.symm)
    simp only [map_some, if_true, if_neg hid, some.injEq] at heq
    exact hxy heq
  · rintro (rfl | ⟨w, hw, hdec⟩) value l₁ l₂ hl₁ hl₂
    · have hnil : ∀ l, Delivery ∅ l → l = [] := fun l hl =>
        eq_nil_iff_forall_not_mem.mpr (fun a ha => by simpa using (hl.1.2 a).mp ha)
      rw [hnil l₁ hl₁, hnil l₂ hl₂]
    · have hend : ∀ l, Delivery S l →
          settleAll Saw Write.id ((r.stored d).map Written.write) l = some w :=
        fun l hl => settleAll_of_decides hw hdec (fun b hb => ht.base b hb w hw) hl.1 hl.2
      rw [hfinal value l₁ hl₁ ⟨w, hw⟩, hfinal value l₂ hl₂ ⟨w, hw⟩, hend l₁ hl₁, hend l₂ hl₂]

end Deliver

/-! ## Three writes that end differently -/

section Cycle
attribute [local instance] charSegmentation

/-- A raw block, as one insert leaves it. -/
def rawDocument : Document :=
  applyDocOp .new (.insertBlock none none ⟨1, 1⟩ none ⟨⟨1, 1⟩, .rawBlock "old"⟩)

def rawRegister : Register := .rawBlock ⟨1, 1⟩ ⟨1, 1⟩

/-- A late counter of one peer, an early one of a peer that saw it, and one in between of a peer
    that saw neither. -/
def cycleWrites : List Write :=
  [⟨⟨5, 2⟩, StateVector.new.set 1 1⟩, ⟨⟨1, 3⟩, (StateVector.new.set 1 1).set 2 5⟩,
    ⟨⟨3, 4⟩, StateVector.new.set 1 1⟩]

theorem rawRegister_hosted : rawRegister.Hosted rawDocument :=
  ⟨⟨[], ⟨1, 1⟩⟩, ⟨⟨1, 1⟩, ⟨1, 1⟩, ⟨1, 1⟩, .new, .rawBlock "old", .new⟩,
    ⟨rfl, rfl, rfl⟩, rfl, rfl⟩

theorem cycleWrites_truthful :
    Truthful ((rawRegister.stored rawDocument).map Written.write) cycleWrites.toFinset where
  ids := by decide
  strict := ⟨by decide, by decide⟩
  base := by decide

/-- The same writes with the last two in the other order. -/
def cycleWrites' : List Write := cycleWrites.take 1 ++ (cycleWrites.drop 1).reverse

def rawValue (id : OpId) : String := if id.peer = 3 then "second" else "third"

theorem delivery_cycleWrites :
    Delivery cycleWrites.toFinset cycleWrites ∧ Delivery cycleWrites.toFinset cycleWrites' :=
  ⟨⟨⟨by decide, fun w => mem_toFinset.symm⟩, by unfold Respects; decide⟩,
    ⟨⟨by decide, fun w => by
      rw [List.mem_toFinset]
      simp [cycleWrites, cycleWrites', or_comm]⟩, by unfold Respects; decide⟩⟩

/-- Two orders that respect what the writes saw leave different values. -/
theorem rawRegister_orders_differ :
    Delivery cycleWrites.toFinset cycleWrites ∧ Delivery cycleWrites.toFinset cycleWrites' ∧
      (rawRegister.stored (rawRegister.deliver rawValue rawDocument cycleWrites)).map
        Written.value = some "third" ∧
      (rawRegister.stored (rawRegister.deliver rawValue rawDocument cycleWrites')).map
        Written.value = some "second" :=
  ⟨delivery_cycleWrites.1, delivery_cycleWrites.2, rfl, rfl⟩

/-- No write of the three decides, so some choice of values tells two orders apart. -/
theorem rawRegister_not_all_orders_agree :
    ¬∀ (value : OpId → rawRegister.Value) (l₁ l₂ : List Write),
      Delivery cycleWrites.toFinset l₁ → Delivery cycleWrites.toFinset l₂ →
      (rawRegister.stored (rawRegister.deliver value rawDocument l₁)).map Written.value =
        (rawRegister.stored (rawRegister.deliver value rawDocument l₂)).map Written.value := by
  rw [orders_agree_iff rawRegister rawRegister_hosted cycleWrites.toFinset
    cycleWrites_truthful]
  unfold Decides
  decide

end Cycle
end MdCrdt
