import MdCrdt.Session.Session

/- The operations a session creates.

  Every local call checks its arguments against the document and commits one
  operation. `Creates s op` lists, call by call, what those checks have established
  and what the operation looks like; `Commits s op s'` is the effect of a commit on
  the session. The inversion lemmas (`insertText_ok`, ...) say that a call that
  returns `ok` did exactly that, so that invariants need to be proved once per
  operation and not once per call. -/
namespace MdCrdt
open Lib Option Segmentation
variable [Segmentation] [Serde]

namespace Session
variable {blockId : BlockId} {after : Option OpId} {tableId : BlockId} {parent : Option OpId}
variable {r : Option OpId}

/-- The id an operation is logged under. -/
def opId (op : DocOp) : OpId := (operationExtent op.envelope).1

/-- The anchor of an insert is there. -/
def AnchorIn {T : Type} (items : Sequence T) (after : Option OpId) : Prop :=
  ∀ a, after = some a → (items.getElement a).isSome

/-- The commit of one operation. -/
def Commits (s : Session) (op : DocOp) (s' : Session) : Prop :=
  ∃ payload, encode op.envelope = .ok payload ∧
    s' = { s with document := applyDocOp s.document op,
                  sync := s.sync.addLocalOp ⟨opId op, payload⟩,
                  nextCounter := (opId op).counter + 1 }

/-- The operations a session may create in its present state. -/
inductive Creates (s : Session) : DocOp → Prop
  | insertBlock {parent after kind skeleton children} (hc : s.document.containerChildren parent = some children)
      (ha : AnchorIn children after) (hk : blockKindToSkeleton s.unitMode kind = some skeleton)
      (hv : validateBlockSkeleton skeleton = .ok ()) (hp : kindPeersOk s.peer skeleton = true)
      (hu : s.unitMode = true → kindIsEmpty skeleton = true) :
      Creates s (.insertBlock parent after s.peekNextId
        (s.document.computeChildRightOrigin parent after) ⟨blockIdFromOp s.peekNextId, skeleton⟩)
  | deleteBlock {parent target children block}
      (hc : s.document.containerChildren parent = some children)
      (hb : children.value? target = some block) :
      Creates s (.deleteBlockById parent target block.id s.peekNextId)
  | insertListItem {listId after} (task : Option TaskState)
      {list style items pm} (hl : s.document.findBlockById listId = some list)
      (hk : list.kind = .list style items pm) (ha : AnchorIn items after) :
      Creates s (.insertListItem list.elemId listId after s.peekNextId
        (items.computeRightOrigin after) task)
  | deleteListItem {itemId owner listElem target list}
      (hp : s.document.listItemPlacement itemId = some (owner, listElem, target))
      (hl : s.document.findBlock listElem = some list) :
      Creates s (.deleteListItemById listElem list.id target itemId s.peekNextId)
  | moveListItem {itemId listId owner after fromElem target dest style items pm}
      (hp : s.document.listItemPlacement itemId = some (owner, fromElem, target))
      (hd : s.document.findBlockById listId = some dest) (hk : dest.kind = .list style items pm)
      (ha : AnchorIn items after) (hne : after ≠ some target) :
      Creates s (.moveListItem fromElem dest.elemId listId itemId target s.peekNextId after
        (items.computeRightOrigin after) s.stateVector)
  | setListStyle {listId} (style : ListStyle) {block current items pm}
      (hb : s.document.findBlockById listId = some block)
      (hk : block.kind = .list current items pm) :
      Creates s (.setListStyle block.elemId listId s.peekNextId style s.stateVector)
  | setListItemTask {itemId} (task : Option TaskState) {item}
      (hi : s.document.findListItemById itemId = some item) :
      Creates s (.setListItemTask itemId s.peekNextId task s.stateVector)
  | setCodeFence {blockId : BlockId} (style : CodeFenceStyle) (info : Option String)
      (text : String) {block style' info' text'} (hb : s.document.findBlockById blockId = some block)
      (hk : block.kind = .codeFence style' info' text') :
      Creates s (.setCodeFence block.elemId blockId s.peekNextId style info text s.stateVector)
  | convertTextBlock {blockId : BlockId} (kind : TextBlockKindWire) {block body} (hb : s.document.findBlockById blockId = some block)
      (hk : blockTextSeq block.kind = some body) :
      Creates s (.convertTextBlock block.elemId blockId s.peekNextId kind s.stateVector)
  | replaceRawBlock {blockId : BlockId} (raw : String) {block raw'}
      (hb : s.document.findBlockById blockId = some block) (hk : block.kind = .rawBlock raw') :
      Creates s (.replaceRawBlock block.elemId blockId s.peekNextId raw s.stateVector)
  | insertTableColumn {tableId : BlockId} {after} (alignment : ColumnAlignment)
      (header : String) {block table}
      (hb : s.document.findBlockById tableId = some block) (hk : block.kind = .table table)
      (ha : AnchorIn table.columns after) :
      Creates s (.insertTableColumn block.elemId tableId after s.peekNextId
        (table.columns.computeRightOrigin after) (alignmentToWire alignment) header)
  | insertTableRow {tableId after cells block table} (hb : s.document.findBlockById tableId = some block)
      (hk : block.kind = .table table) (ha : AnchorIn table.rows after)
      (hn : cells.length = (table.columnsInOrder.map TableColumn.id).length) :
      Creates s (.insertTableRow block.elemId tableId after s.peekNextId
        (table.rows.computeRightOrigin after)
        (((table.columnsInOrder.map TableColumn.id).zip cells).map (fun c => ⟨c.1, c.2⟩)))
  | setTableCell {tableId rowId columnId} (value : String) {block table column} (hb : s.document.findBlockById tableId = some block)
      (hk : block.kind = .table table)
      (hr : rowId = table.headerRowId ∨ (table.rowById rowId).isSome)
      (hc : table.columnById columnId = some column) :
      Creates s (.setTableCell block.elemId tableId rowId columnId s.peekNextId value
        s.stateVector)
  | deleteTableRow {tableId target block table row} (hb : s.document.findBlockById tableId = some block)
      (hk : block.kind = .table table) (hr : table.rows.value? target = some row) :
      Creates s (.deleteTableRowById block.elemId tableId target row.id s.peekNextId)
  | setTableColumnAlignment {tableId columnId} (alignment : ColumnAlignment)
      {block table column}
      (hb : s.document.findBlockById tableId = some block) (hk : block.kind = .table table)
      (hc : table.columnById columnId = some column) :
      Creates s (.setTableColumnAlignment block.elemId tableId columnId s.peekNextId
        (alignmentToWire alignment) s.stateVector)
  | deleteTableColumn {tableId columnId block table column} (hb : s.document.findBlockById tableId = some block)
      (hk : block.kind = .table table) (hc : table.columnById columnId = some column) :
      Creates s (.deleteTableColumnById block.elemId tableId column.elemId columnId s.peekNextId)
  | moveTableColumn {tableId columnId after block table column} (hb : s.document.findBlockById tableId = some block)
      (hk : block.kind = .table table) (hc : table.columnById columnId = some column)
      (ha : AnchorIn table.columns after) (hne : after ≠ some column.elemId) :
      Creates s (.moveTableColumn block.elemId tableId columnId column.elemId s.peekNextId after
        (table.columns.computeRightOrigin after) s.stateVector)
  | moveTableRow {tableId rowId after block table row} (hb : s.document.findBlockById tableId = some block)
      (hk : block.kind = .table table) (hr : table.rowById rowId = some row)
      (ha : AnchorIn table.rows after) (hne : after ≠ some row.elemId) :
      Creates s (.moveTableRow block.elemId tableId rowId row.elemId s.peekNextId after
        (table.rows.computeRightOrigin after) s.stateVector)
  | insertText {blockId offset graphemes block body} (hb : s.document.findBlockById blockId = some block)
      (ht : blockTextSeq block.kind = some body) (ho : offset ≤ body.lenVisible)
      (hne : graphemes ≠ []) :
      Creates s (.insertText block.elemId blockId (pasteUnits s.peer s.nextCounter
        (afterForGraphemeOffset body offset)
        (body.computeRightOrigin (afterForGraphemeOffset body offset)) graphemes))
  | deleteText {blockId offset count block body}
      (hb : s.document.findBlockById blockId = some block)
      (ht : blockTextSeq block.kind = some body) :
      Creates s (.deleteText block.elemId blockId s.peekNextId
        (((paragraphVisibleIds body).drop offset).take count))
  | setMark {blockId : BlockId} (kind : MarkKind) (first last : Anchor)
      (attrs : SortedMap String MarkValue) {block}
      (hb : s.document.findBlockById blockId = some block) :
      Creates s (.setMark block.elemId blockId s.peekNextId kind first last attrs)
  | removeMark {blockId intervalId block interval}
      (hb : s.document.findBlockById blockId = some block)
      (hi : block.marks.interval intervalId = some interval) :
      Creates s (.removeMark block.elemId blockId intervalId s.peekNextId s.stateVector)
  | setFrontmatterField (key : String) (value : Option String) :
      Creates s (.setFrontmatterField s.peekNextId key value)
  | initializeFrontmatter (frontmatter : Frontmatter) :
      Creates s (.initializeFrontmatter s.peekNextId frontmatter)
  | moveBlocks {blockIds toParent after destination targets} (hne : blockIds ≠ [])
      (hd : s.document.containerChildren toParent = some destination)
      (ha : AnchorIn destination after)
      (ht : moveTargets s.document toParent none blockIds = .ok targets)
      (hat : ∀ a, after = some a → ∀ t ∈ targets, t.2 ≠ a) :
      Creates s (.moveBlocks toParent
        ⟨s.nextCounter + blockIds.length - 1, s.peer⟩
        (placements s.peer s.nextCounter after (destination.computeRightOrigin after) targets))
  | splitBlock {parent offset children block body kind}
      (hc : s.document.containerChildren parent = some children) (hb : block ∈ children.iter)
      (hk : textBlockKind block.kind = some (body, kind)) (ho : offset ≤ body.lenVisible) :
      Creates s (.splitBlock parent block.elemId s.peekNextId (blockIdFromOp s.peekNextId)
        (s.document.computeChildRightOrigin parent (some block.elemId)) kind
        (((visibleUnits body).drop offset).map (fun u => ⟨u.1, u.1, u.2⟩)))
  | mergeBlocks {parent children left right leftBody rightBody}
      (hc : s.document.containerChildren parent = some children)
      {before after} (hadj : children.iter = before ++ left :: right :: after)
      (hl : blockTextSeq left.kind = some leftBody)
      (hr : blockTextSeq right.kind = some rightBody) :
      Creates s (.mergeBlocks parent left.elemId right.elemId s.peekNextId
        (paragraphVisibleIds leftBody).getLast?
        (leftBody.computeRightOrigin (paragraphVisibleIds leftBody).getLast?)
        (mergeUnits s.peer leftBody.elementIds (s.nextCounter + 1) (visibleUnits rightBody)))

/-- The operation brings a new block along. -/
def insertsBlock : DocOp → Bool
  | .insertBlock _ _ _ _ _ => true
  | _ => false

/-- A session that made one local edit other than the insertion of a block. -/
def Edits (s s' : Session) : Prop :=
  ∃ op, s.Creates op ∧ s.Commits op s' ∧ insertsBlock op = false

/-! ## Calls that return -/

variable {s s' : Session} {i : OpId}

theorem commitSingleId_ok {op id} (hid : opId op = id)
    (h : s.commitSingleId op id = .ok (s', i)) : i = id ∧ s.Commits op s' := by
  unfold commitSingleId at h
  split at h
  · cases h
  · next payload hp =>
    obtain ⟨rfl, rfl⟩ := Prod.mk.inj (Except.ok.inj h)
    exact ⟨rfl, payload, hp, by rw [hid]; rfl⟩

section
omit [Segmentation] [Serde]

theorem bind_eq_ok {ε A B : Type} {x} {f : A → Except ε B} {b} :
    (x >>= f) = .ok b ↔ ∃ a, x = .ok a ∧ f a = .ok b := by
  cases x <;> simp [bind, Except.bind]

/-- A check of a call that returns did not fail. -/
theorem check_eq_ok {ε A B : Type} {c : Prop} [Decidable c] {e} {f : A → Except ε B}
    {x b} : (if c then .error e >>= f else x) = .ok b ↔ ¬c ∧ x = .ok b := by
  split <;> simp [*, bind, Except.bind]

theorem exists_of_not_isNone {A : Type} {o : Option A} (h : ¬o.isNone = true) :
    ∃ a, o = some a := by
  simpa [ne_none_iff_exists'] using h

theorem anchorIn_of_not_any {T : Type} {items : Sequence T}
    (h : ¬after.any (fun a => (items.getElement a).isNone) = true) : AnchorIn items after := by
  rintro a rfl
  rw [isSome_iff_ne_none]
  simpa using h

end

theorem edits_of_commit (hc : s.Creates op) {id} (hid : opId op = id)
    (h : s.commitSingleId op id = .ok (s', i)) (hb : insertsBlock op = false) :
    i = id ∧ s.Edits s' := by
  obtain ⟨hi, hcommit⟩ := commitSingleId_ok hid h
  exact ⟨hi, op, hc, hcommit, hb⟩

theorem insertBlockIn_ok {parent after kind} (h : s.insertBlockIn parent after kind = .ok (s', i)) :
    ∃ skeleton, blockKindToSkeleton s.unitMode kind = some skeleton ∧ i = s.peekNextId ∧
      s.Creates (.insertBlock parent after s.peekNextId
        (s.document.computeChildRightOrigin parent after) ⟨blockIdFromOp s.peekNextId, skeleton⟩) ∧
      s.Commits (.insertBlock parent after s.peekNextId
        (s.document.computeChildRightOrigin parent after)
        ⟨blockIdFromOp s.peekNextId, skeleton⟩) s' := by
  unfold insertBlockIn at h
  split at h
  · next children hc =>
    obtain ⟨ha, h⟩ := check_eq_ok.mp h
    split at h
    · next skeleton hk =>
      simp only [bind_eq_ok, check_eq_ok] at h
      obtain ⟨_, hv, hp, hu, _, hcommit, h⟩ := h
      obtain ⟨rfl, rfl⟩ := Prod.mk.inj (Except.ok.inj h)
      refine ⟨skeleton, hk, rfl, ?_, (commitSingleId_ok rfl hcommit).2⟩
      refine .insertBlock hc (anchorIn_of_not_any ha) hk hv (by simpa using hp) ?_
      intro hm
      simpa [hm, insertBlockParagraphIsEmpty, DocOp.envelope] using hu
    · cases h
  · cases h

theorem deleteBlockIn_ok (h : s.deleteBlockIn parent target = .ok (s', i)) :
    ∃ children block, s.document.containerChildren parent = some children ∧
      children.value? target = some block ∧ i = s.peekNextId ∧
      s.Creates (.deleteBlockById parent target block.id s.peekNextId) ∧
      s.Commits (.deleteBlockById parent target block.id s.peekNextId) s' := by
  simp only [deleteBlockIn] at h
  split at h
  · next block hb =>
    obtain ⟨children, hc, hv⟩ := bind_eq_some_iff.mp hb
    obtain ⟨hi, hcommit⟩ := commitSingleId_ok rfl h
    exact ⟨children, block, hc, hv, hi, .deleteBlock hc hv, hcommit⟩
  · cases h

/-! ### Lists -/

theorem insertListItem_ok {listId task}
    (h : s.insertListItem listId after task = .ok (s', i)) : i = s.peekNextId ∧ s.Edits s' := by
  unfold insertListItem at h
  split at h
  · next list hl =>
    split at h
    · next style items pm hk =>
      obtain ⟨ha, h⟩ := check_eq_ok.mp h
      exact edits_of_commit (.insertListItem task hl hk (anchorIn_of_not_any ha)) rfl h rfl
    · cases h
  · cases h

theorem deleteListItem_ok (h : s.deleteListItem itemId = .ok (s', i)) :
    i = s.peekNextId ∧ s.Edits s' := by
  simp only [deleteListItem] at h
  split at h
  · next owner listElem target hp =>
    split at h
    · next list hl => exact edits_of_commit (.deleteListItem hp hl) rfl h rfl
    · cases h
  · cases h

theorem moveListItem_ok {itemId listId} (h : s.moveListItem itemId listId after = .ok (s', i)) :
    ∃ owner fromElem target dest style items pm,
      s.document.listItemPlacement itemId = some (owner, fromElem, target) ∧
      s.document.findBlockById listId = some dest ∧ dest.kind = .list style items pm ∧
      i = s.peekNextId ∧
      s.Creates (.moveListItem fromElem dest.elemId listId itemId target s.peekNextId after
        (items.computeRightOrigin after) s.stateVector) ∧
      s.Commits (.moveListItem fromElem dest.elemId listId itemId target s.peekNextId after
        (items.computeRightOrigin after) s.stateVector) s' := by
  unfold moveListItem at h
  split at h
  · next owner fromElem target hp =>
    split at h
    · next dest hd =>
      split at h
      · next style items pm hk =>
        obtain ⟨ha, h⟩ := check_eq_ok.mp h
        simp only [Bool.or_eq_true, decide_eq_true_eq, not_or] at ha
        obtain ⟨hi, hcommit⟩ := commitSingleId_ok rfl h
        exact ⟨owner, fromElem, target, dest, style, items, pm, hp, hd, hk, hi,
          .moveListItem hp hd hk (anchorIn_of_not_any ha.1) ha.2, hcommit⟩
      · cases h
    · cases h
  · cases h

/-! ### Registers -/

theorem setListStyle_ok {listId style} (h : s.setListStyle listId style = .ok (s', i)) :
    ∃ block current items pm, s.document.findBlockById listId = some block ∧
      block.kind = .list current items pm ∧ i = s.peekNextId ∧
      s.Commits (.setListStyle block.elemId listId s.peekNextId style s.stateVector) s' := by
  obtain ⟨_, -, h⟩ := bind_eq_ok.mp h
  split at h
  · next block hb =>
    split at h
    · next current items pm hk =>
      obtain ⟨hi, hcommit⟩ := commitSingleId_ok rfl h
      exact ⟨block, current, items, pm, hb, hk, hi, hcommit⟩
    · cases h
  · cases h

theorem setListItemTask_ok (h : s.setListItemTask itemId task = .ok (s', i)) :
    ∃ item, s.document.findListItemById itemId = some item ∧ i = s.peekNextId ∧
      s.Commits (.setListItemTask itemId s.peekNextId task s.stateVector) s' := by
  simp only [setListItemTask] at h
  split at h
  · next item hitem =>
    obtain ⟨hi, hcommit⟩ := commitSingleId_ok rfl h
    exact ⟨item, hitem, hi, hcommit⟩
  · cases h

theorem setCodeFence_ok {style info text}
    (h : s.setCodeFence blockId style info text = .ok (s', i)) :
    ∃ block style' info' text', s.document.findBlockById blockId = some block ∧
      block.kind = .codeFence style' info' text' ∧ i = s.peekNextId ∧
      s.Commits (.setCodeFence block.elemId blockId s.peekNextId style info text s.stateVector)
        s' := by
  obtain ⟨_, -, h⟩ := bind_eq_ok.mp h
  split at h
  · next block hb =>
    split at h
    · next style' info' text' hk =>
      obtain ⟨hi, hcommit⟩ := commitSingleId_ok rfl h
      exact ⟨block, style', info', text', hb, hk, hi, hcommit⟩
    · cases h
  · cases h

theorem convertTextBlock_ok {kind} (h : s.convertTextBlock blockId kind = .ok (s', i)) :
    ∃ block body, s.document.findBlockById blockId = some block ∧
      blockTextSeq block.kind = some body ∧ i = s.peekNextId ∧
      s.Commits (.convertTextBlock block.elemId blockId s.peekNextId kind s.stateVector) s' := by
  unfold convertTextBlock at h
  split at h
  · next block hb =>
    obtain ⟨hbody, h⟩ := check_eq_ok.mp h
    obtain ⟨body, hbody⟩ := exists_of_not_isNone hbody
    have hcommit : s.commitSingleId
        (.convertTextBlock block.elemId blockId s.peekNextId kind s.stateVector)
        s.peekNextId = .ok (s', i) := by
      cases kind with
      | paragraph => exact h
      | heading level => exact (check_eq_ok.mp h).2
    obtain ⟨hi, hcommit⟩ := commitSingleId_ok rfl hcommit
    exact ⟨block, body, hb, hbody, hi, hcommit⟩
  · cases h

theorem replaceRawBlock_ok (h : s.replaceRawBlock blockId raw = .ok (s', i)) :
    ∃ block raw', s.document.findBlockById blockId = some block ∧
      block.kind = .rawBlock raw' ∧ i = s.peekNextId ∧
      s.Commits (.replaceRawBlock block.elemId blockId s.peekNextId raw s.stateVector) s' := by
  simp only [replaceRawBlock] at h
  split at h
  · next block hb =>
    split at h
    · next raw' hk =>
      obtain ⟨hi, hcommit⟩ := commitSingleId_ok rfl h
      exact ⟨block, raw', hb, hk, hi, hcommit⟩
    · cases h
  · cases h

/-! ### Tables -/

omit [Segmentation] in
theorem tableBlock_ok (h : s.tableBlock tableId = .ok v) :
    s.document.findBlockById tableId = some v.1 ∧ v.1.kind = .table v.2 := by
  simp only [tableBlock] at h
  split at h
  · next block hb =>
    split at h
    · next table hk =>
      obtain rfl := Except.ok.inj h
      exact ⟨hb, hk⟩
    · cases h
  · cases h

theorem insertTableColumn_ok {alignment header}
    (h : s.insertTableColumn tableId after alignment header = .ok (s', i)) :
    i = s.peekNextId ∧ s.Edits s' := by
  simp only [insertTableColumn, bind_eq_ok, check_eq_ok] at h
  obtain ⟨_, -, v, hv, ha, h⟩ := h
  obtain ⟨hb, hk⟩ := tableBlock_ok hv
  exact edits_of_commit (.insertTableColumn alignment header hb hk (anchorIn_of_not_any ha))
    rfl h rfl

theorem insertTableRow_ok {cells}
    (h : s.insertTableRow tableId after cells = .ok (s', i)) : i = s.peekNextId ∧ s.Edits s' := by
  simp only [insertTableRow, bind_eq_ok, check_eq_ok] at h
  obtain ⟨_, -, v, hv, ha, hn, h⟩ := h
  obtain ⟨hb, hk⟩ := tableBlock_ok hv
  exact edits_of_commit (.insertTableRow hb hk (anchorIn_of_not_any ha) (not_not.mp hn)) rfl h rfl

theorem setTableCell_ok {tableId rowId columnId value}
    (h : s.setTableCell tableId rowId columnId value = .ok (s', i)) :
    ∃ block table column, s.document.findBlockById tableId = some block ∧
      block.kind = .table table ∧ (rowId = table.headerRowId ∨ (table.rowById rowId).isSome) ∧
      table.columnById columnId = some column ∧ i = s.peekNextId ∧
      s.Commits (.setTableCell block.elemId tableId rowId columnId s.peekNextId value
        s.stateVector) s' := by
  simp only [setTableCell, bind_eq_ok, check_eq_ok] at h
  obtain ⟨_, -, v, hv, hr, hc, h⟩ := h
  obtain ⟨hb, hk⟩ := tableBlock_ok hv
  obtain ⟨column, hc⟩ := exists_of_not_isNone hc
  have hrow : rowId = v.2.headerRowId ∨ (v.2.rowById rowId).isSome := by
    rw [isSome_iff_ne_none]
    by_contra hcon
    exact hr ⟨fun he => hcon (.inl he), by simpa using fun hn => hcon (.inr hn)⟩
  obtain ⟨hi, hcommit⟩ := commitSingleId_ok rfl h
  exact ⟨v.1, v.2, column, hb, hk, hrow, hc, hi, hcommit⟩

theorem deleteTableRow_ok {target} (h : s.deleteTableRow tableId target = .ok (s', i)) :
    i = s.peekNextId ∧ s.Edits s' := by
  simp only [deleteTableRow, bind_eq_ok] at h
  obtain ⟨v, hv, h⟩ := h
  obtain ⟨hb, hk⟩ := tableBlock_ok hv
  split at h
  · next row hr => exact edits_of_commit (.deleteTableRow hb hk hr) rfl h rfl
  · cases h

theorem setTableColumnAlignment_ok {tableId columnId alignment}
    (h : s.setTableColumnAlignment tableId columnId alignment = .ok (s', i)) :
    ∃ block table column, s.document.findBlockById tableId = some block ∧
      block.kind = .table table ∧ table.columnById columnId = some column ∧ i = s.peekNextId ∧
      s.Commits (.setTableColumnAlignment block.elemId tableId columnId s.peekNextId
        (alignmentToWire alignment) s.stateVector) s' := by
  obtain ⟨v, hv, h⟩ := bind_eq_ok.mp h
  obtain ⟨hb, hk⟩ := tableBlock_ok hv
  obtain ⟨hc, h⟩ := check_eq_ok.mp h
  obtain ⟨column, hc⟩ := exists_of_not_isNone hc
  obtain ⟨hi, hcommit⟩ := commitSingleId_ok rfl h
  exact ⟨v.1, v.2, column, hb, hk, hc, hi, hcommit⟩

theorem deleteTableColumn_ok {tableId columnId}
    (h : s.deleteTableColumn tableId columnId = .ok (s', i)) : i = s.peekNextId ∧ s.Edits s' := by
  simp only [deleteTableColumn, bind_eq_ok] at h
  obtain ⟨v, hv, h⟩ := h
  obtain ⟨hb, hk⟩ := tableBlock_ok hv
  split at h
  · next column hc => exact edits_of_commit (.deleteTableColumn hb hk hc) rfl h rfl
  · cases h

theorem moveTableColumn_ok {tableId columnId}
    (h : s.moveTableColumn tableId columnId after = .ok (s', i)) :
    i = s.peekNextId ∧ s.Edits s' := by
  simp only [moveTableColumn, bind_eq_ok] at h
  obtain ⟨v, hv, h⟩ := h
  obtain ⟨hb, hk⟩ := tableBlock_ok hv
  split at h
  · next column hc =>
    obtain ⟨ha, h⟩ := check_eq_ok.mp h
    simp only [Bool.or_eq_true, decide_eq_true_eq, not_or] at ha
    exact edits_of_commit (.moveTableColumn hb hk hc (anchorIn_of_not_any ha.2) ha.1) rfl h rfl
  · cases h

theorem moveTableRow_ok {tableId rowId}
    (h : s.moveTableRow tableId rowId after = .ok (s', i)) : i = s.peekNextId ∧ s.Edits s' := by
  simp only [moveTableRow, bind_eq_ok] at h
  obtain ⟨v, hv, h⟩ := h
  obtain ⟨hb, hk⟩ := tableBlock_ok hv
  split at h
  · next row hr =>
    obtain ⟨ha, h⟩ := check_eq_ok.mp h
    simp only [Bool.or_eq_true, decide_eq_true_eq, not_or] at ha
    exact edits_of_commit (.moveTableRow hb hk hr (anchorIn_of_not_any ha.2) ha.1) rfl h rfl
  · cases h

/-! ### Text and marks -/

theorem insertText_ok {offset : Nat} {text} (h : s.insertText blockId offset text = .ok (s', r)) :
    (s' = s ∧ r = none ∧ (text.isEmpty = true ∨ graphemes text = [])) ∨
    (∃ i, r = some i) ∧ ∃ block body, s.document.findBlockById blockId = some block ∧
      blockTextSeq block.kind = some body ∧ offset ≤ body.lenVisible ∧ graphemes text ≠ [] ∧
      s.Commits (.insertText block.elemId blockId (pasteUnits s.peer s.nextCounter
        (afterForGraphemeOffset body offset)
        (body.computeRightOrigin (afterForGraphemeOffset body offset)) (graphemes text))) s' := by
  simp only [insertText] at h
  split at h
  · next hempty =>
    obtain ⟨rfl, rfl⟩ := Prod.mk.inj (Except.ok.inj h)
    exact .inl ⟨rfl, rfl, .inl hempty⟩
  · split at h
    · next block hb =>
      split at h
      · next body ht =>
        obtain ⟨ho, h⟩ := check_eq_ok.mp h
        have hunits : ∀ {a r : Option OpId}, pasteUnits s.peer s.nextCounter a r
            (graphemes text) = [] ↔ graphemes text = [] := by
          intro a r
          cases graphemes text <;> simp [pasteUnits]
        split at h
        · next hu =>
          obtain ⟨rfl, rfl⟩ := Prod.mk.inj (Except.ok.inj h)
          exact .inl ⟨rfl, rfl, .inr (hunits.mp (List.isEmpty_iff.mp hu))⟩
        · next hu =>
          obtain ⟨v, hcommit, h⟩ := bind_eq_ok.mp h
          obtain ⟨rfl, rfl⟩ := Prod.mk.inj (Except.ok.inj h)
          exact .inr ⟨⟨_, rfl⟩, block, body, hb, ht, not_lt.mp ho,
            fun he => hu (List.isEmpty_iff.mpr (hunits.mpr he)), (commitSingleId_ok rfl hcommit).2⟩
      · cases h
    · cases h

theorem deleteText_ok {offset count : Nat} (h : s.deleteText blockId offset count = .ok (s', r)) :
    (s' = s ∧ r = none) ∨ (∃ i, r = some i) ∧ s.Edits s' := by
  simp only [deleteText] at h
  split at h
  · obtain ⟨rfl, rfl⟩ := Prod.mk.inj (Except.ok.inj h)
    exact .inl ⟨rfl, rfl⟩
  · split at h
    · next block hb =>
      split at h
      · next body ht =>
        obtain ⟨v, hcommit, h⟩ := bind_eq_ok.mp (check_eq_ok.mp h).2
        obtain ⟨rfl, rfl⟩ := Prod.mk.inj (Except.ok.inj h)
        exact .inr ⟨⟨_, rfl⟩, (edits_of_commit (.deleteText hb ht) rfl hcommit rfl).2⟩
      · cases h
    · cases h

theorem setMark_ok {attrs : SortedMap String MarkValue}
    (h : s.setMark blockId start stop kind attrs = .ok (s', i)) :
    i = s.peekNextId ∧ s.Edits s' := by
  simp only [setMark] at h
  split at h
  · next block hb =>
    split at h
    · exact edits_of_commit (.setMark kind _ _ attrs hb) rfl h rfl
    · cases h
  · cases h

theorem removeMark_ok (h : s.removeMark blockId intervalId = .ok (s', i)) :
    i = s.peekNextId ∧ s.Edits s' := by
  simp only [removeMark] at h
  split at h
  · next block hb =>
    split at h
    · next interval hi => exact edits_of_commit (.removeMark hb hi) rfl h rfl
    · cases h
  · cases h

/-! ### Frontmatter -/

theorem setFrontmatterField_ok
    (h : s.setFrontmatterField key value = .ok (s', i)) : i = s.peekNextId ∧ s.Edits s' := by
  simp only [setFrontmatterField] at h
  split at h
  · cases h
  · exact edits_of_commit (.setFrontmatterField key value) rfl h rfl

theorem initializeFrontmatter_ok {frontmatter}
    (h : s.initializeFrontmatter frontmatter = .ok (s', r)) :
    (s' = s ∧ r = none) ∨ (∃ i, r = some i) ∧ s.Edits s' := by
  simp only [initializeFrontmatter] at h
  split at h
  · obtain ⟨rfl, rfl⟩ := Prod.mk.inj (Except.ok.inj h)
    exact .inl ⟨rfl, rfl⟩
  · obtain ⟨v, hcommit, h⟩ := bind_eq_ok.mp h
    obtain ⟨rfl, rfl⟩ := Prod.mk.inj (Except.ok.inj h)
    exact .inr ⟨⟨_, rfl⟩,
      (edits_of_commit (.initializeFrontmatter frontmatter) rfl hcommit rfl).2⟩

/-! ### Splitting and merging -/

theorem splitBlockIn_ok {offset : Nat} (h : s.splitBlockIn parent blockId offset = .ok (s', i)) :
    i = s.peekNextId ∧ s.Edits s' := by
  simp only [splitBlockIn] at h
  split at h
  · next children hc =>
    split at h
    · next block hb =>
      split at h
      · next body kind hk =>
        obtain ⟨ho, h⟩ := check_eq_ok.mp h
        exact edits_of_commit (.splitBlock hc (List.mem_of_find?_eq_some hb) hk (not_lt.mp ho))
          rfl h rfl
      · cases h
    · cases h
  · cases h

omit [Segmentation] [Serde] in
/-- Two neighbours of a list. -/
theorem eq_append_of_getElem? {A : Type} {l : List A} {n : Nat} {a b : A} (ha : l[n]? = some a)
    (hb : l[n + 1]? = some b) : ∃ before after, l = before ++ a :: b :: after := by
  obtain ⟨hn, rfl⟩ := List.getElem?_eq_some_iff.mp ha
  obtain ⟨hn', rfl⟩ := List.getElem?_eq_some_iff.mp hb
  refine ⟨l.take n, l.drop (n + 2), ?_⟩
  rw [← List.drop_eq_getElem_cons hn', ← List.drop_eq_getElem_cons hn, List.take_append_drop]

theorem mergeBlocksIn_ok {leftId rightId}
    (h : s.mergeBlocksIn parent leftId rightId = .ok (s', i)) : s.Edits s' := by
  simp only [mergeBlocksIn] at h
  split at h
  · next children hc =>
    split at h
    · next leftPos hleft =>
      split at h
      · next rightPos hright =>
        obtain ⟨hpos, h'⟩ := check_eq_ok.mp h
        split at h'
        · next left hl =>
          split at h'
          · next right hr =>
            split at h'
            · next leftBody hlb =>
              split at h'
              · next rightBody hrb =>
                obtain rfl := not_not.mp hpos
                obtain ⟨before, after, hadj⟩ := eq_append_of_getElem? hl hr
                exact (edits_of_commit (.mergeBlocks hc hadj hlb hrb) rfl h' rfl).2
              · cases h'
            · cases h'
          · cases h'
        · cases h'
      · cases h
    · cases h
  · cases h

end Session
end MdCrdt
