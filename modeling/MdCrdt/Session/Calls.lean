import MdCrdt.Lib.Mutation
import MdCrdt.Session.Numbering

/- The mutators of a session as one type (`session/mod.rs`, `BlockDraft` of `workspace.rs`).

  A call commits no operation, one, or several: the calls that build a draft, a
  table or a row commit one operation after the other and keep what they have
  committed if a later one is refused (`Mutation`). Whatever a call does, it leads
  from one state to the next by a chain of commits (`after_chain`).

  Correspondence (Rust ↔ Lean):
    a method that calls others with `?` ↔ a `Mutation` of the session
    the nested loops of `insert_validated_draft`
      ↔ `insertChildDrafts`, `insertItemDrafts`
    `visit` in `BlockDraft::validate` ↔ `BlockDraft.visit`
  `insert_block`, `delete_block`, `insert_paragraph`, `insert_table`, `split_block`
  and `merge_blocks` are the calls below with no parent. -/
namespace MdCrdt
open Lib List Option

/-! ## Drafts -/

structure StructuredEditLimits where
  maxDepth : Nat
  maxItems : Nat
  maxBytes : Nat
  deriving DecidableEq, Repr

def StructuredEditLimits.default : StructuredEditLimits := ⟨16, 10000, 4 * 1024 * 1024⟩

mutual

structure ListItemDraft where
  task : Option TaskState
  children : List BlockDraft

inductive BlockDraft where
  | paragraph (text : String)
  | heading (level : Nat) (text : String)
  | list (style : ListStyle) (items : List ListItemDraft)
  | codeFence (style : CodeFenceStyle) (info : Option String) (text : String)
  | blockQuote (children : List BlockDraft)
  | rawBlock (raw : String)

end

namespace BlockDraft

/-- Count one more item. -/
def countItem (limits : StructuredEditLimits) (items : Nat) : Except SessionError Nat :=
  if limits.maxItems < items + 1 then .error (.structuredEdit (.items limits.maxItems))
  else .ok (items + 1)

/-- Count the bytes of a block. -/
def countBytes (limits : StructuredEditLimits) (seen : Nat × Nat) (bytes : Nat) :
    Except SessionError (Nat × Nat) :=
  if limits.maxBytes < seen.2 + bytes then .error (.structuredEdit (.bytes limits.maxBytes))
  else .ok (seen.1, seen.2 + bytes)

/-- The checks a block begins with. -/
def enter (limits : StructuredEditLimits) (depth : Nat) (seen : Nat × Nat) :
    Except SessionError (Nat × Nat) := do
  if limits.maxDepth < depth then .error (.structuredEdit (.depth limits.maxDepth))
  let items ← countItem limits seen.1
  .ok (items, seen.2)

mutual

/-- Check a draft; items and bytes seen so far go through. -/
def visit (limits : StructuredEditLimits) (depth : Nat) (seen : Nat × Nat) :
    BlockDraft → Except SessionError (Nat × Nat)
  | .paragraph text | .rawBlock text => do
    let seen ← enter limits depth seen
    countBytes limits seen text.utf8ByteSize
  | .heading level text => do
    let seen ← enter limits depth seen
    if ¬(1 ≤ level ∧ level ≤ 6) then .error (.structuredEdit .headingLevel)
    countBytes limits seen text.utf8ByteSize
  | .codeFence style info text => do
    let seen ← enter limits depth seen
    validateCodeFence style info text
    countBytes limits seen (info.elim 0 String.utf8ByteSize + text.utf8ByteSize)
  | .blockQuote children => do
    let seen ← enter limits depth seen
    let seen ← visitChildren limits (depth + 1) seen children
    countBytes limits seen 0
  | .list style items => do
    let seen ← enter limits depth seen
    validateListStyle style
    let seen ← visitItems limits (depth + 1) seen items
    countBytes limits seen 0

def visitChildren (limits : StructuredEditLimits) (depth : Nat) (seen : Nat × Nat) :
    List BlockDraft → Except SessionError (Nat × Nat)
  | [] => .ok seen
  | child :: rest => do
    let seen ← visit limits depth seen child
    visitChildren limits depth seen rest

def visitItems (limits : StructuredEditLimits) (depth : Nat) (seen : Nat × Nat) :
    List ListItemDraft → Except SessionError (Nat × Nat)
  | [] => .ok seen
  | ⟨_, children⟩ :: rest => do
    let items ← countItem limits seen.1
    let seen ← visitChildren limits depth (items, seen.2) children
    visitItems limits depth seen rest

end

def validate (draft : BlockDraft) (limits : StructuredEditLimits) : Except SessionError Unit := do
  let _ ← draft.visit limits 1 (0, 0)
  .ok ()

end BlockDraft

/-! ## Calls made of other calls -/

namespace Session
variable [Segmentation] [Serde]

/-- A method of a session. -/
abbrev Method (A : Type) := Mutation Session SessionError A

open Mutation

def insertParagraphIn (parent after : Option OpId) (text : String) : Method OpId := do
  let blockElem ← attempt (fun s => s.insertBlockIn parent after (.paragraph (unitsFromStr "" 1 0)))
  if text.isEmpty then return blockElem
  let _ ← attempt (fun s => s.insertText (blockIdFromOp blockElem) 0 text)
  return blockElem

mutual

def insertValidatedDraft (parent after : Option OpId) : BlockDraft → Method OpId
  | .paragraph text => insertParagraphIn parent after text
  | .heading level text => do
    let elem ← attempt (fun s => s.insertBlockIn parent after (.heading level .new))
    if !text.isEmpty then
      let _ ← attempt (fun s => s.insertText (blockIdFromOp elem) 0 text)
    return elem
  | .list style items => do
    let listElem ← attempt (fun s => s.insertBlockIn parent after (.list style .new []))
    insertItemDrafts (blockIdFromOp listElem) none items
    return listElem
  | .codeFence style info text =>
    attempt (fun s => s.insertBlockIn parent after (.codeFence style info text))
  | .blockQuote children => do
    let quoteElem ← attempt (fun s => s.insertBlockIn parent after (.blockQuote .new))
    insertChildDrafts quoteElem none children
    return quoteElem
  | .rawBlock raw => attempt (fun s => s.insertBlockIn parent after (.rawBlock raw))

/-- The children of a container, one behind the other. -/
def insertChildDrafts (container : OpId) (after : Option OpId) : List BlockDraft → Method Unit
  | [] => pure ()
  | child :: rest => do
    let elem ← insertValidatedDraft (some container) after child
    insertChildDrafts container (some elem) rest

/-- The items of a list, one behind the other, each with its children. -/
def insertItemDrafts (listId : BlockId) (after : Option OpId) : List ListItemDraft → Method Unit
  | [] => pure ()
  | ⟨task, children⟩ :: rest => do
    let itemElem ← attempt (fun s => s.insertListItem listId after task)
    insertChildDrafts itemElem none children
    insertItemDrafts listId (some itemElem) rest

end

def insertDraftIn (parent after : Option OpId) (draft : BlockDraft) (limits : StructuredEditLimits) :
    Method OpId := do
  check (fun _ => draft.validate limits)
  insertValidatedDraft parent after draft

def insertListItemDraft (listId : BlockId) (after : Option OpId) (item : ListItemDraft)
    (limits : StructuredEditLimits) : Method OpId := do
  check (fun _ => (BlockDraft.list ListStyle.default [item]).validate limits)
  let itemElem ← attempt (fun s => s.insertListItem listId after item.task)
  insertChildDrafts itemElem none item.children
  return itemElem

def require (p : Prop) [Decidable p] (error : SessionError) : Except SessionError Unit :=
  if p then .ok () else .error error

def validateTableCells (values : List String) : Except SessionError Unit :=
  values.forM validateTableCell

def insertTableIn (parent after : Option OpId) (columns : List ColumnDef) (header : List String) :
    Method OpId := do
  check (fun _ => require (columns.length = header.length) .invalidTableShape)
  check (fun _ => validateTableCells header)
  let tableElem ← attempt (fun s => s.insertBlockIn parent after
    (.table (Table.new (blockIdFromOp s.peekNextId) s.peekNextId s.peekNextId)))
  let _ ← (columns.zip header).foldlM (fun afterColumn column => do
    let inserted ← attempt (fun s => s.insertTableColumn (blockIdFromOp tableElem) afterColumn
      column.1.alignment column.2)
    return some inserted) (none : Option OpId)
  return tableElem

/-- The id of the last operation a call has committed. -/
def lastId (last : Option OpId) : Method OpId :=
  match last with
  | some id => pure id
  | none => throw .invalidTableShape

def setTableRowCells (tableId : BlockId) (row : OpId) (cells : List String) : Method OpId := do
  check (fun _ => validateTableCells cells)
  let (rowId, columns) ← check (fun s => do
    let (_, table) ← s.tableBlock tableId
    let some row := table.rows.value? row | .error .tableRowNotFound
    .ok (row.id, table.columnsInOrder))
  check (fun _ => require (cells.length = columns.length) .invalidTableShape)
  let last ← (columns.zip cells).foldlM (fun _ cell => do
    let id ← attempt (fun s => s.setTableCell tableId rowId cell.1.id cell.2)
    return some id) (none : Option OpId)
  lastId last

/-- The alignment of a column that stays, if it differs. -/
def realignColumn (tableId : BlockId) (last : Option OpId) (column : TableColumn)
    (definition : ColumnDef) : Method (Option OpId) :=
  if column.alignment.value ≠ definition.alignment then do
    let id ← attempt (fun s => s.setTableColumnAlignment tableId column.id definition.alignment)
    return some id
  else return last

/-- The header of a column that stays, if it differs. -/
def renameColumn (tableId : BlockId) (last : Option OpId) (column : TableColumn) (value : String) :
    Method (Option OpId) := do
  let currentHeader ← check (fun s => .ok ((s.document.findBlockById tableId).bind (fun block =>
    match block.kind with
    | .table table => table.cellValue table.headerRowId column.id
    | _ => none)))
  if currentHeader ≠ some value then do
    let id ← attempt (fun s => s.setTableCell tableId tableId column.id value)
    return some id
  else return last

def setTableMetadata (tableId : BlockId) (columns : List ColumnDef) (header : List String) :
    Method OpId := do
  check (fun _ => require (columns.length = header.length) .invalidTableShape)
  check (fun _ => validateTableCells header)
  let existing ← check (fun s => do
    let (_, table) ← s.tableBlock tableId
    .ok table.columnsInOrder)
  let last ← ((existing.zip columns).zip header).foldlM (fun last column => do
    let last ← realignColumn tableId last column.1.1 column.1.2
    renameColumn tableId last column.1.1 column.2) none
  let last ← (existing.drop columns.length).foldlM (fun _ column => do
    let id ← attempt (fun s => s.deleteTableColumn tableId column.id)
    return some id) last
  let after := (existing[min columns.length existing.length - 1]?).map TableColumn.elemId
  let (_, last) ← ((columns.zip header).drop existing.length).foldlM (fun state column => do
    let id ← attempt (fun s => s.insertTableColumn tableId state.1 column.1.alignment column.2)
    return (some id, some id)) (after, last)
  lastId last

end Session

/-- A call of a mutator. -/
inductive Call where
  | setUnitMode (unitMode : Bool)
  | insertBlockIn (parent after : Option OpId) (kind : BlockKind)
  | deleteBlockIn (parent : Option OpId) (target : OpId)
  | insertParagraphIn (parent after : Option OpId) (text : String)
  | insertDraftIn (parent after : Option OpId) (draft : BlockDraft) (limits : StructuredEditLimits)
  | insertListItem (listId : BlockId) (after : Option OpId) (task : Option TaskState)
  | insertListItemDraft (listId : BlockId) (after : Option OpId) (item : ListItemDraft)
      (limits : StructuredEditLimits)
  | deleteListItem (itemId : BlockId)
  | moveListItem (itemId listId : BlockId) (after : Option OpId)
  | setListStyle (listId : BlockId) (style : ListStyle)
  | setListItemTask (itemId : BlockId) (task : Option TaskState)
  | setCodeFence (blockId : BlockId) (style : CodeFenceStyle) (info : Option String) (text : String)
  | convertTextBlock (blockId : BlockId) (kind : TextBlockKindWire)
  | replaceRawBlock (blockId : BlockId) (raw : String)
  | insertTableIn (parent after : Option OpId) (columns : List ColumnDef) (header : List String)
  | insertTableColumn (tableId : BlockId) (after : Option OpId) (alignment : ColumnAlignment)
      (header : String)
  | insertTableRow (tableId : BlockId) (after : Option OpId) (cells : List String)
  | setTableRowCells (tableId : BlockId) (row : OpId) (cells : List String)
  | setTableCell (tableId rowId columnId : BlockId) (value : String)
  | deleteTableRow (tableId : BlockId) (target : OpId)
  | setTableMetadata (tableId : BlockId) (columns : List ColumnDef) (header : List String)
  | setTableColumnAlignment (tableId columnId : BlockId) (alignment : ColumnAlignment)
  | deleteTableColumn (tableId columnId : BlockId)
  | moveTableColumn (tableId columnId : BlockId) (after : Option OpId)
  | moveTableRow (tableId rowId : BlockId) (after : Option OpId)
  | insertText (blockId : BlockId) (graphemeOffset : Nat) (text : String)
  | deleteText (blockId : BlockId) (graphemeOffset graphemeCount : Nat)
  | setMark (blockId : BlockId) (start stop : Nat) (kind : MarkKind)
      (attrs : SortedMap String MarkValue)
  | removeMark (blockId : BlockId) (intervalId : OpId)
  | setFrontmatterField (key : String) (value : Option String)
  | initializeFrontmatter (frontmatter : Frontmatter)
  | moveBlock (blockId : BlockId) (toParent after : Option OpId)
  | wrapBlocks (blockIds : List BlockId)
  | unwrapBlockquote (blockId : BlockId)
  | moveSection (headingId : BlockId) (after : Option OpId)
  | splitBlockIn (parent : Option OpId) (blockId : BlockId) (graphemeOffset : Nat)
  | mergeBlocksIn (parent : Option OpId) (leftId rightId : BlockId)

namespace Session
variable [Segmentation] [Serde] {kind : BlockKind}
variable (tableId : BlockId)
variable (last : Option OpId)

open Mutation

/-- Make a call; what the method returns is left out. -/
def method : Call → Method Unit
  | .setUnitMode unitMode => fun s => (.ok (), { s with unitMode := unitMode })
  | .insertBlockIn parent after kind => discard (attempt (fun s => s.insertBlockIn parent after kind))
  | .deleteBlockIn parent target => discard (attempt (fun s => s.deleteBlockIn parent target))
  | .insertParagraphIn parent after text => discard (insertParagraphIn parent after text)
  | .insertDraftIn parent after draft limits => discard (insertDraftIn parent after draft limits)
  | .insertListItem listId after task => discard (attempt (fun s => s.insertListItem listId after task))
  | .insertListItemDraft listId after item limits =>
    discard (insertListItemDraft listId after item limits)
  | .deleteListItem itemId => discard (attempt (fun s => s.deleteListItem itemId))
  | .moveListItem itemId listId after => discard (attempt (fun s => s.moveListItem itemId listId after))
  | .setListStyle listId style => discard (attempt (fun s => s.setListStyle listId style))
  | .setListItemTask itemId task => discard (attempt (fun s => s.setListItemTask itemId task))
  | .setCodeFence blockId style info text =>
    discard (attempt (fun s => s.setCodeFence blockId style info text))
  | .convertTextBlock blockId kind => discard (attempt (fun s => s.convertTextBlock blockId kind))
  | .replaceRawBlock blockId raw => discard (attempt (fun s => s.replaceRawBlock blockId raw))
  | .insertTableIn parent after columns header => discard (insertTableIn parent after columns header)
  | .insertTableColumn tableId after alignment header =>
    discard (attempt (fun s => s.insertTableColumn tableId after alignment header))
  | .insertTableRow tableId after cells =>
    discard (attempt (fun s => s.insertTableRow tableId after cells))
  | .setTableRowCells tableId row cells => discard (setTableRowCells tableId row cells)
  | .setTableCell tableId rowId columnId value =>
    discard (attempt (fun s => s.setTableCell tableId rowId columnId value))
  | .deleteTableRow tableId target => discard (attempt (fun s => s.deleteTableRow tableId target))
  | .setTableMetadata tableId columns header => discard (setTableMetadata tableId columns header)
  | .setTableColumnAlignment tableId columnId alignment =>
    discard (attempt (fun s => s.setTableColumnAlignment tableId columnId alignment))
  | .deleteTableColumn tableId columnId =>
    discard (attempt (fun s => s.deleteTableColumn tableId columnId))
  | .moveTableColumn tableId columnId after =>
    discard (attempt (fun s => s.moveTableColumn tableId columnId after))
  | .moveTableRow tableId rowId after =>
    discard (attempt (fun s => s.moveTableRow tableId rowId after))
  | .insertText blockId graphemeOffset text =>
    discard (attempt (fun s => s.insertText blockId graphemeOffset text))
  | .deleteText blockId graphemeOffset graphemeCount =>
    discard (attempt (fun s => s.deleteText blockId graphemeOffset graphemeCount))
  | .setMark blockId start stop kind attrs =>
    discard (attempt (fun s => s.setMark blockId start stop kind attrs))
  | .removeMark blockId intervalId => discard (attempt (fun s => s.removeMark blockId intervalId))
  | .setFrontmatterField key value => discard (attempt (fun s => s.setFrontmatterField key value))
  | .initializeFrontmatter frontmatter =>
    discard (attempt (fun s => s.initializeFrontmatter frontmatter))
  | .moveBlock blockId toParent after =>
    discard (attempt (fun s => s.moveBlock blockId toParent after))
  | .wrapBlocks blockIds => fun s => ((s.wrapBlocks blockIds).2.map (fun _ => ()), (s.wrapBlocks blockIds).1)
  | .unwrapBlockquote blockId => fun s =>
    ((s.unwrapBlockquote blockId).2.map (fun _ => ()), (s.unwrapBlockquote blockId).1)
  | .moveSection headingId after => discard (attempt (fun s => s.moveSection headingId after))
  | .splitBlockIn parent blockId graphemeOffset =>
    discard (attempt (fun s => s.splitBlockIn parent blockId graphemeOffset))
  | .mergeBlocksIn parent leftId rightId =>
    discard (attempt (fun s => s.mergeBlocksIn parent leftId rightId))

/-- The session after a call, whether it was refused or not. -/
def after (s : Session) (c : Call) : Session := (method c).exec s

/-- What a call answers. -/
def answer (s : Session) (c : Call) : Except SessionError Unit := (method c).result s

/-! ## Chains of commits -/

/-- Commits one after the other. -/
inductive Chain : Session → List DocOp → Session → Prop
  | nil {s} : Chain s [] s
  | cons {s s' t op ops} (hc : s.Creates op)
      (hs : s.Commits op s') (h : Chain s' ops t) : Chain s (op :: ops) t

theorem Chain.append (h : Chain s ops s') (h' : Chain s' ops' t) : Chain s (ops ++ ops') t := by
  induction h with
  | nil => exact h'
  | cons hc hs _ ih => exact .cons hc hs (ih h')

/-- Operations that satisfy `Q` lead from one session to the other. -/
def Makes (Q : DocOp → Prop) (s s' : Session) : Prop :=
  ∃ ops, s.Chain ops s' ∧ ∀ op ∈ ops, Q op

variable {Q : DocOp → Prop} {s s' : Session} {i : OpId}

instance : Std.Refl (Makes Q) := ⟨fun _ => ⟨[], .nil, by simp⟩⟩

instance : IsTrans Session (Makes Q) := ⟨by
  rintro s s' t ⟨ops, h, hq⟩ ⟨ops', h', hq'⟩
  exact ⟨ops ++ ops', h.append h', forall_mem_append.mpr ⟨hq, hq'⟩⟩⟩

theorem makes_of_commits (hc : s.Creates op) (hq : Q op) (hs : s.Commits op s') : Makes Q s s' :=
  ⟨[op], .cons hc hs .nil, by simpa using hq⟩

theorem makes_numbered (h : s.Edits s') : Makes DocOp.Numbered s s' := by
  obtain ⟨op, hc, hs, hb⟩ := h
  refine makes_of_commits hc ?_ hs
  cases op with
  | insertBlock => cases hb
  | _ => trivial

/-- A block without anything inside it. -/
def Bare : BlockKind → Prop
  | .list _ items _ => items.elements = []
  | .blockQuote children => children.elements = []
  | _ => True

omit [Segmentation] [Serde] in
theorem Bare.elements (hk : Bare kind) {unitMode skeleton}
    (h : blockKindToSkeleton unitMode kind = some skeleton) : kindElements skeleton = [] := by
  cases kind with
  | paragraph | heading | codeFence | rawBlock =>
    obtain rfl := some.inj h
    rfl
  | list style items pm =>
    obtain ⟨elements, _, _, _⟩ := items
    obtain rfl : elements = [] := hk
    obtain rfl := some.inj h
    rfl
  | blockQuote children =>
    obtain ⟨elements, _, _, _⟩ := children
    obtain rfl : elements = [] := hk
    obtain rfl := some.inj h
    rfl
  | table table =>
    rw [blockKindToSkeleton] at h
    split at h
    · cases h
    · obtain rfl := some.inj h
      rfl

theorem insertBlockIn_makes {parent anchor}
    (h : s.insertBlockIn parent anchor kind = .ok (s', i)) (hk : Bare kind) : Makes DocOp.Numbered s s' := by
  obtain ⟨skeleton, hs, -, hc, hcommit⟩ := insertBlockIn_ok h
  refine makes_of_commits hc ?_ hcommit
  simp [DocOp.Numbered, hk.elements hs]

theorem insertText_makes
    (h : s.insertText blockId offset text = .ok (s', r)) : Makes DocOp.Numbered s s' := by
  rcases insertText_ok h with ⟨rfl, -⟩ | ⟨-, block, body, hb, ht, ho, hne, hcommit⟩
  · exact Std.Refl.refl s'
  · exact makes_numbered ⟨_, .insertText hb ht ho hne, hcommit, rfl⟩

theorem moveBlockIds_ok {blockIds}
    (h : s.moveBlockIds blockIds toParent anchor = .ok (s', i)) : s.Edits s' := by
  simp only [moveBlockIds, bind, Except.bind] at h
  split at h
  · cases h
  · next hne =>
    split at h
    · next destination hd =>
      split at h
      · cases h
      · next ha =>
        split at h
        · cases h
        · next targets ht =>
          split at h
          · cases h
          · next hat =>
            have hne' : blockIds ≠ [] := by simpa using hne
            have hid : ((placements s.peer s.nextCounter anchor
                (destination.computeRightOrigin anchor) targets).getLast?.map
                MovedBlockWire.id).getD s.peekNextId =
                ⟨s.nextCounter + blockIds.length - 1, s.peer⟩ := by
              obtain ⟨n, hn⟩ := Nat.exists_eq_succ_of_ne_zero
                (fun h0 => hne' (length_eq_zero_iff.mp h0))
              rw [← getLast?_map, placements_ids, moveTargets_length ht, hn,
                range'_concat, map_append]
              simp
            rw [hid] at h
            refine (edits_of_commit (.moveBlocks hne' hd (anchorIn_of_not_any ha) ht ?_) rfl h rfl).2
            rintro a rfl t htm rfl
            simp only [any_some, List.any_eq_true, decide_eq_true_eq, not_exists, not_and] at hat
            exact hat t htm rfl
    · cases h

/-! ## Methods make chains -/

/-- The method commits numbered operations only. -/
abbrev Numbers {A : Type} (m : Method A) : Prop := Along (Makes DocOp.Numbered) m

theorem numbers_insertBlockIn (parent anchor) (hk : Bare kind) :
    Numbers (attempt (fun s => s.insertBlockIn parent anchor kind)) :=
  along_attempt (fun _ _ _ h => insertBlockIn_makes h hk)

theorem numbers_insertText (blockId offset text) :
    Numbers (attempt (fun s => s.insertText blockId offset text)) :=
  along_attempt (fun _ _ _ h => insertText_makes h)

theorem numbers_of_edits {A : Type} {f : Session → Except SessionError (Session × A)}
    (h : ∀ {s s' a}, f s = .ok (s', a) → s.Edits s') : Numbers (attempt f) :=
  along_attempt (fun _ _ _ hf => makes_numbered (h hf))

theorem numbers_call {A : Type} {f : Session → Except SessionError (Session × A)}
    (h : ∀ {s s' a}, f s = .ok (s', a) → s.Edits s') : Numbers (discard (attempt f)) :=
  along_discard (numbers_of_edits h)

theorem numbers_insertParagraphIn (parent anchor text) :
    Numbers (insertParagraphIn parent anchor text) := by
  refine along_bind (numbers_insertBlockIn _ _ trivial) (fun elem => ?_)
  split
  · exact along_pure _
  · exact along_bind (numbers_insertText _ _ _) (fun _ => along_pure _)

theorem numbers_insertListItem (listId anchor task) :
    Numbers (attempt (fun s => s.insertListItem listId anchor task)) :=
  numbers_of_edits (fun h => (insertListItem_ok h).2)

mutual

theorem numbers_insertValidatedDraft (parent anchor) : ∀ draft,
    Numbers (insertValidatedDraft parent anchor draft)
  | .paragraph text => by
    rw [insertValidatedDraft]
    exact numbers_insertParagraphIn _ _ _
  | .heading level text => by
    rw [insertValidatedDraft]
    refine along_bind (numbers_insertBlockIn _ _ trivial) (fun elem => ?_)
    split
    · exact along_bind (numbers_insertText _ _ _) (fun _ => along_pure _)
    · exact along_pure _
  | .list style items => by
    rw [insertValidatedDraft]
    exact along_bind (numbers_insertBlockIn _ _ rfl) (fun elem =>
      along_bind (numbers_insertItemDrafts _ _ items) (fun _ => along_pure _))
  | .codeFence style info text => by
    rw [insertValidatedDraft]
    exact numbers_insertBlockIn _ _ trivial
  | .blockQuote children => by
    rw [insertValidatedDraft]
    exact along_bind (numbers_insertBlockIn _ _ rfl) (fun elem =>
      along_bind (numbers_insertChildDrafts _ _ children) (fun _ => along_pure _))
  | .rawBlock raw => by
    rw [insertValidatedDraft]
    exact numbers_insertBlockIn _ _ trivial

theorem numbers_insertChildDrafts (container anchor) :
    ∀ children, Numbers (insertChildDrafts container anchor children)
  | [] => by rw [insertChildDrafts]; exact along_pure _
  | child :: rest => by
    rw [insertChildDrafts]
    exact along_bind (numbers_insertValidatedDraft _ _ child) (fun elem =>
      numbers_insertChildDrafts _ _ rest)

theorem numbers_insertItemDrafts (listId anchor) :
    ∀ items, Numbers (insertItemDrafts listId anchor items)
  | [] => by rw [insertItemDrafts]; exact along_pure _
  | ⟨task, children⟩ :: rest => by
    rw [insertItemDrafts]
    exact along_bind (numbers_insertListItem _ _ _) (fun elem =>
      along_bind (numbers_insertChildDrafts _ _ children) (fun _ =>
        numbers_insertItemDrafts _ _ rest))

end

theorem numbers_insertDraftIn (parent anchor draft limits) : Numbers
    (insertDraftIn parent anchor draft limits) :=
  along_bind (along_check _) (fun _ => numbers_insertValidatedDraft _ _ draft)

theorem numbers_insertListItemDraft (listId anchor item limits) : Numbers
    (insertListItemDraft listId anchor item limits) :=
  along_bind (along_check _) (fun _ => along_bind (numbers_insertListItem _ _ _) (fun _ =>
    along_bind (numbers_insertChildDrafts _ _ _) (fun _ => along_pure _)))

theorem numbers_insertTableColumn (anchor alignment) (header : String) :
    Numbers (attempt (fun s => s.insertTableColumn tableId anchor alignment header)) :=
  numbers_of_edits (fun h => (insertTableColumn_ok h).2)

theorem numbers_insertTableIn (parent anchor columns)
    (header : List String) : Numbers (insertTableIn parent anchor columns header) :=
  along_bind (along_check _) (fun _ => along_bind (along_check _) (fun _ =>
    along_bind (along_attempt (fun _ _ _ h => insertBlockIn_makes h trivial)) (fun _ =>
      along_bind (along_foldlM (fun _ _ =>
        along_bind (numbers_insertTableColumn _ _ _ _) (fun _ => along_pure _)) _ _)
        (fun _ => along_pure _))))

theorem numbers_lastId : Numbers (lastId last) := by
  cases last with
  | none => exact along_throw _
  | some id => exact along_pure _

theorem setTableCell_edits {tableId rowId columnId value}
    (h : s.setTableCell tableId rowId columnId value = .ok (s', i)) : s.Edits s' := by
  obtain ⟨block, table, column, hb, hk, hr, hc, -, hcommit⟩ := setTableCell_ok h
  exact ⟨_, .setTableCell value hb hk hr hc, hcommit, rfl⟩

theorem setTableColumnAlignment_edits {tableId columnId alignment}
    (h : s.setTableColumnAlignment tableId columnId alignment = .ok (s', i)) : s.Edits s' := by
  obtain ⟨block, table, column, hb, hk, hc, -, hcommit⟩ := setTableColumnAlignment_ok h
  exact ⟨_, .setTableColumnAlignment alignment hb hk hc, hcommit, rfl⟩

theorem numbers_setTableRowCells (row cells) : Numbers (setTableRowCells tableId row cells) :=
  along_bind (along_check _) (fun _ => along_bind (along_check _) (fun _ =>
    along_bind (along_check _) (fun _ => along_bind (along_foldlM (fun _ _ =>
      along_bind (numbers_of_edits setTableCell_edits) (fun _ => along_pure _)) _ _)
      numbers_lastId)))

theorem numbers_realignColumn (column definition) : Numbers
    (realignColumn tableId last column definition) := by
  unfold realignColumn
  split
  · exact along_bind (numbers_of_edits setTableColumnAlignment_edits)
      (fun _ => along_pure _)
  · exact along_pure _

theorem numbers_renameColumn (column value) : Numbers (renameColumn tableId last column value) := by
  refine along_bind (along_check _) (fun header => ?_)
  split
  · exact along_bind (numbers_of_edits setTableCell_edits) (fun _ => along_pure _)
  · exact along_pure _

theorem numbers_setTableMetadata (columns)
    (header : List String) : Numbers (setTableMetadata tableId columns header) :=
  along_bind (along_check _) (fun _ => along_bind (along_check _) (fun _ =>
    along_bind (along_check _) (fun _ =>
      along_bind (along_foldlM (fun _ _ => along_bind (numbers_realignColumn _ _ _ _)
        (fun _ => numbers_renameColumn _ _ _ _)) _ _) (fun _ =>
        along_bind (along_foldlM (fun _ _ => along_bind
          (numbers_of_edits (fun h => (deleteTableColumn_ok h).2)) (fun _ => along_pure _))
          _ _) (fun _ =>
          along_bind (along_foldlM (fun _ _ =>
            along_bind (numbers_insertTableColumn _ _ _ _) (fun _ => along_pure _)) _ _)
            (fun _ => numbers_lastId _))))))

/-! ## Calls that move blocks -/

theorem moveSection_edits (h : s.moveSection headingId anchor = .ok (s', i)) : s.Edits s' := by
  simp only [moveSection] at h
  split at h
  · split at h
    · exact moveBlockIds_ok h
    · cases h
  · cases h

theorem deleteBlockIn_edits (h : s.deleteBlockIn parent target = .ok (s', i)) : s.Edits s' := by
  obtain ⟨children, block, -, -, -, hc, hcommit⟩ := deleteBlockIn_ok h
  exact ⟨_, hc, hcommit, rfl⟩

theorem wrapBlocks_makes (s blockIds) : Makes DocOp.Numbered s (s.wrapBlocks blockIds).1 := by
  simp only [wrapBlocks]
  repeat' split
  all_goals try exact Std.Refl.refl s
  · next h _ _ _ => exact insertBlockIn_makes h rfl
  · next h _ _ _ h' =>
    exact IsTrans.trans _ _ _ (insertBlockIn_makes h rfl) (makes_numbered (moveBlockIds_ok h'))

theorem unwrapBlockquote_makes (s blockId) :
    Makes DocOp.Numbered s (s.unwrapBlockquote blockId).1 := by
  -- an empty quote moves nothing
  have hmoved : ∀ (ids : List BlockId) (parent anchor : Option OpId) {s' : Session} {i : OpId},
      (if ids.isEmpty then .ok (s, s.peekNextId) else s.moveBlockIds ids parent anchor) =
        .ok (s', i) → Makes DocOp.Numbered s s' := by
    intro ids parent anchor s' i h
    split at h
    · obtain ⟨rfl, rfl⟩ := Prod.mk.inj (Except.ok.inj h)
      exact Std.Refl.refl s
    · exact makes_numbered (moveBlockIds_ok h)
  simp only [unwrapBlockquote]
  repeat' first | exact Std.Refl.refl s | (split <;> try exact Std.Refl.refl s)
  · next h _ _ _ => exact hmoved _ _ _ h
  · next h _ _ _ h' =>
    exact IsTrans.trans _ _ _ (hmoved _ _ _ h) (makes_numbered (deleteBlockIn_edits h'))

/-! ## Calls -/

/-- A call that commits, and brings no block along that has something inside it. -/
def Plain : Call → Prop
  | .insertBlockIn _ _ kind => Bare kind
  | .setUnitMode _ => False
  | _ => True

theorem numbers_method (hc : Plain c) : Numbers (method c) := by
  cases c with
  | setUnitMode => exact hc.elim
  | insertBlockIn parent anchor kind =>
    exact along_discard (numbers_insertBlockIn _ _ hc)
  | deleteBlockIn => exact numbers_call deleteBlockIn_edits
  | insertParagraphIn => exact along_discard (numbers_insertParagraphIn _ _ _)
  | insertDraftIn => exact along_discard (numbers_insertDraftIn _ _ _ _)
  | insertListItem => exact along_discard (numbers_insertListItem _ _ _)
  | insertListItemDraft => exact along_discard (numbers_insertListItemDraft _ _ _ _)
  | deleteListItem => exact numbers_call (fun h => (deleteListItem_ok h).2)
  | moveListItem =>
    refine numbers_call (fun h => ?_)
    obtain ⟨_, _, _, _, _, _, _, _, _, _, _, hc, hcommit⟩ := moveListItem_ok h
    exact ⟨_, hc, hcommit, rfl⟩
  | setListStyle listId style =>
    refine numbers_call (fun h => ?_)
    obtain ⟨_, _, _, _, hb, hk, _, hcommit⟩ := setListStyle_ok h
    exact ⟨_, .setListStyle style hb hk, hcommit, rfl⟩
  | setListItemTask itemId task =>
    refine numbers_call (fun h => ?_)
    obtain ⟨_, hi, _, hcommit⟩ := setListItemTask_ok h
    exact ⟨_, .setListItemTask task hi, hcommit, rfl⟩
  | setCodeFence blockId style info text =>
    refine numbers_call (fun h => ?_)
    obtain ⟨_, _, _, _, hb, hk, _, hcommit⟩ := setCodeFence_ok h
    exact ⟨_, .setCodeFence style info text hb hk, hcommit, rfl⟩
  | convertTextBlock blockId kind =>
    refine numbers_call (fun h => ?_)
    obtain ⟨_, _, hb, hk, _, hcommit⟩ := convertTextBlock_ok h
    exact ⟨_, .convertTextBlock kind hb hk, hcommit, rfl⟩
  | replaceRawBlock blockId raw =>
    refine numbers_call (fun h => ?_)
    obtain ⟨_, _, hb, hk, _, hcommit⟩ := replaceRawBlock_ok h
    exact ⟨_, .replaceRawBlock raw hb hk, hcommit, rfl⟩
  | insertTableIn => exact along_discard (numbers_insertTableIn _ _ _ _)
  | insertTableColumn => exact along_discard (numbers_insertTableColumn _ _ _ _)
  | insertTableRow => exact numbers_call (fun h => (insertTableRow_ok h).2)
  | setTableRowCells => exact along_discard (numbers_setTableRowCells _ _ _)
  | setTableCell => exact numbers_call setTableCell_edits
  | deleteTableRow => exact numbers_call (fun h => (deleteTableRow_ok h).2)
  | setTableMetadata => exact along_discard (numbers_setTableMetadata _ _ _)
  | setTableColumnAlignment => exact numbers_call setTableColumnAlignment_edits
  | deleteTableColumn => exact numbers_call (fun h => (deleteTableColumn_ok h).2)
  | moveTableColumn => exact numbers_call (fun h => (moveTableColumn_ok h).2)
  | moveTableRow => exact numbers_call (fun h => (moveTableRow_ok h).2)
  | insertText => exact along_discard (numbers_insertText _ _ _)
  | deleteText =>
    refine along_discard (along_attempt (fun s s' _ h => ?_))
    rcases deleteText_ok h with ⟨rfl, -⟩ | ⟨-, h⟩
    · exact Std.Refl.refl s'
    · exact makes_numbered h
  | setMark => exact numbers_call (fun h => (setMark_ok h).2)
  | removeMark => exact numbers_call (fun h => (removeMark_ok h).2)
  | setFrontmatterField => exact numbers_call (fun h => (setFrontmatterField_ok h).2)
  | initializeFrontmatter =>
    refine along_discard (along_attempt (fun s s' _ h => ?_))
    rcases initializeFrontmatter_ok h with ⟨rfl, -⟩ | ⟨-, h⟩
    · exact Std.Refl.refl s'
    · exact makes_numbered h
  | moveBlock => exact numbers_call moveBlockIds_ok
  | wrapBlocks blockIds => exact fun s => wrapBlocks_makes s blockIds
  | unwrapBlockquote blockId => exact fun s => unwrapBlockquote_makes s blockId
  | moveSection => exact numbers_call moveSection_edits
  | splitBlockIn => exact numbers_call (fun h => (splitBlockIn_ok h).2)
  | mergeBlocksIn => exact numbers_call mergeBlocksIn_ok

/-- Calls one after the other, whether they were refused or not. -/
theorem makes_calls {cs : List Call} (hcs : ∀ c ∈ cs, Plain c) (s) :
    Makes DocOp.Numbered s (cs.foldl after s) := by
  induction cs generalizing s with
  | nil => exact Std.Refl.refl s
  | cons c cs ih =>
    obtain ⟨hc, hrest⟩ := forall_mem_cons.mp hcs
    exact IsTrans.trans _ _ _ (numbers_method hc s) (ih hrest (s.after c))

/-- Whatever a call does, it does by a chain of commits. -/
theorem after_chain (s : Session) (c) :
    (∃ ops, s.Chain ops (s.after c)) ∨ ∃ unitMode, c = .setUnitMode unitMode := by
  by_cases hc : Plain c
  · obtain ⟨ops, h, -⟩ := numbers_method hc s
    exact .inl ⟨ops, h⟩
  · cases c with
    | setUnitMode unitMode => exact .inr ⟨unitMode, rfl⟩
    | insertBlockIn parent anchor kind =>
      have h : Along (Makes (fun _ => True)) (method (.insertBlockIn parent anchor kind)) := by
        refine along_discard (along_attempt (fun s s' _ h => ?_))
        obtain ⟨skeleton, -, -, hc, hcommit⟩ := insertBlockIn_ok h
        exact makes_of_commits hc trivial hcommit
      obtain ⟨ops, h, -⟩ := h s
      exact .inl ⟨ops, h⟩
    | _ => exact (hc trivial).elim

end Session
end MdCrdt
