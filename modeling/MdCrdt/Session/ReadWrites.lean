import MdCrdt.Session.Writers

/- What a session shows of its own register writes.

  The calls that write a causal register commit one operation with the state vector
  of the session as its observed vector. In a run the state vector covers every
  writer in the document, so the write wins; what is left to ask is whether it
  reaches the place the document is read at. For a list item it need not: the item
  is looked up in one order (`find_list_item_by_id` walks items depth first), the
  write goes to the list that the block index names first (`list_item_placement`)
  and there through the element id of that list, which a moved clone of the list
  may share. -/
namespace MdCrdt
open Lib Session List Option Document Register

/-- A call that writes a causal register. -/
inductive RegisterWrite where
  | setTableCell (tableId rowId columnId : BlockId) (value : String)
  | setTableColumnAlignment (tableId columnId : BlockId) (alignment : ColumnAlignment)
  | setListStyle (listId : BlockId) (style : ListStyle)
  | setListItemTask (itemId : BlockId) (task : Option TaskState)
  | setCodeFence (blockId : BlockId) (style : CodeFenceStyle) (info : Option String) (text : String)
  | convertTextBlock (blockId : BlockId) (kind : TextBlockKindWire)
  | replaceRawBlock (blockId : BlockId) (raw : String)

namespace Document

/-- The place of the list item that `findListItemById` returns. -/
def itemPlace (d : Document) (itemId : BlockId) : Option ItemPlace :=
  ((indexListItems [] d.blocks).find? (fun e => e.2.id = itemId)).map Prod.fst

/-- The place that `setListItemTask` writes to. -/
def taskTarget (d : Document) (itemId : BlockId) : Option ItemPlace :=
  (d.listItemPlacement itemId).bind (fun p => (d.pathOfElem p.2.1).map (⟨·, p.2.2⟩))

end Document

namespace RegisterWrite

def run [Segmentation] [Serde] (s : Session) : RegisterWrite → Outcome
  | setTableCell tableId rowId columnId value => s.setTableCell tableId rowId columnId value
  | setTableColumnAlignment tableId columnId alignment =>
    s.setTableColumnAlignment tableId columnId alignment
  | setListStyle listId style => s.setListStyle listId style
  | setListItemTask itemId task => s.setListItemTask itemId task
  | setCodeFence blockId style info text => s.setCodeFence blockId style info text
  | convertTextBlock blockId kind => s.convertTextBlock blockId kind
  | replaceRawBlock blockId raw => s.replaceRawBlock blockId raw

/-- The document shows the value that the call writes, at the call's target. -/
def Shows (d : Document) : RegisterWrite → Prop
  | setTableCell tableId rowId columnId value =>
    ((d.findBlockById tableId).bind Block.table?).bind (fun t => t.cellValue rowId columnId) =
      some value
  | setTableColumnAlignment tableId columnId alignment =>
    (((d.findBlockById tableId).bind Block.table?).bind (fun t => t.columnById columnId)).map
      (fun c => c.alignment.value) = some alignment
  | setListStyle listId style =>
    (d.findBlockById listId).bind (fun b => readListStyle b.kind) = some style
  | setListItemTask itemId task => (d.findListItemById itemId).map ListItem.task = some task
  | setCodeFence blockId style info text =>
    (d.findBlockById blockId).bind (fun b => readCodeFence b.kind) = some (style, info, text)
  | convertTextBlock blockId kind =>
    (d.findBlockById blockId).bind (fun b => readTextKind b.kind) = some kind
  | replaceRawBlock blockId raw =>
    (d.findBlockById blockId).bind (fun b => readRawBlock b.kind) = some raw

/-- The write goes to the place the document is read at. -/
def Reaches (d : Document) : RegisterWrite → Prop
  | setListItemTask itemId _ => d.taskTarget itemId = d.itemPlace itemId
  | _ => True

end RegisterWrite

/-! ## Writes that have seen what they replace -/

theorem arbitrate_of_covers {V : Type} {current} {w : Written V}
    (h : ∀ c, current = some c → w.observed.covers c.id) : arbitrate current w = w := by
  cases current with
  | none => rfl
  | some c => exact if_pos (by simp [causalWriteWins, h c rfl])

/-- The rules of a session whose state vector covers every writer in its document. -/
structure Session.Attributed [Serde] (R : Rules) (s : Session) : Prop where
  blocks : R.Blocks s.document.blocks
  unique : ∀ x i j, R.owns x i → R.owns x j → i = j
  tables : ∀ t, R.table t → t.WrittenBy R.wrote
  covered : ∀ x, R.wrote x → s.stateVector.covers x

section
variable [Segmentation] [Serde]

theorem Run.attributed [LimitedSerde] (h : Run w created) (p) : ∃ R, (w p).Attributed R := by
  obtain ⟨applied, ht⟩ := h.sessions.2 p
  refine ⟨MdCrdt.writerRules applied, ht.writerRules h, ?_, fun _ ht => ht, fun x hx => ht.covers hx⟩
  rintro x i j ⟨a, ha, hi⟩ ⟨b, hb, hj⟩
  exact h.owner_unique (ht.mem_created a ha) (ht.mem_created b hb) hi hj

namespace Session.Attributed
variable {R : Rules} {s s' : Session} {i : OpId}

omit [Segmentation] in
theorem holds (h : s.Attributed R) {id b} (hb : s.document.findBlockById id = some b) :
    ∃ path, s.document.Holds path b ∧ b.id = id ∧ R.Stands b.elemId b := by
  obtain ⟨path, hh, hid⟩ := holds_of_findBlockById h.blocks h.unique hb
  exact ⟨path, hh, hid, (findBlockById_stands h.blocks hb).1⟩

end Session.Attributed

omit [Segmentation] [Serde] in
/-- A write to the kind-specific data of a block that has seen the last one. -/
theorem shown_of_written {V : Type} {read : BlockKind → Option V} {d d' : Document}
    {blockId} {b : Block} {value id} {observed : StateVector}
    (hb : d.findBlockById blockId = some b) (hcov : observed.covers b.kindOp)
    (hstep : (d'.findBlockById blockId).bind (fun b => b.written read) =
      some (arbitrate ((d.findBlockById blockId).bind (fun b => b.written read))
        ⟨value, id, observed⟩)) :
    (d'.findBlockById blockId).bind (fun b => read b.kind) = some value := by
  rw [arbitrate_of_covers (fun c hc => ?_)] at hstep
  · obtain ⟨b', hb', hw⟩ := bind_eq_some_iff.mp hstep
    obtain ⟨v, hv, hval⟩ := map_eq_some_iff.mp hw
    obtain rfl : v = value := congrArg Written.value hval
    rw [hb', bind_some, hv]
  · rw [hb, bind_some] at hc
    obtain ⟨v, -, rfl⟩ := map_eq_some_iff.mp hc
    exact hcov

namespace Session.Attributed
variable {R : Rules} {s s' : Session} {i : OpId} {blockId : BlockId}

section
variable (h : s.Attributed R)
include h

theorem setListStyle_shows (hok : s.setListStyle listId style = .ok (s', i)) :
    (RegisterWrite.setListStyle listId style).Shows s'.document := by
  obtain ⟨b, current, items, pm, hb, hk, -, payload, -, rfl⟩ := setListStyle_ok hok
  obtain ⟨path, hh, hid, hs⟩ := h.holds hb
  refine shown_of_written hb (h.covered _ hs.wrote)
    ((listStyle b.elemId listId).write_step ⟨path, b, hh, hid, ?_⟩ _ _ style).2
  rw [hk]
  rfl

theorem setCodeFence_shows (hok : s.setCodeFence blockId style info text = .ok (s', i)) :
    (RegisterWrite.setCodeFence blockId style info text).Shows s'.document := by
  obtain ⟨b, style', info', text', hb, hk, -, payload, -, rfl⟩ := setCodeFence_ok hok
  obtain ⟨path, hh, hid, hs⟩ := h.holds hb
  refine shown_of_written hb (h.covered _ hs.wrote)
    ((codeFence b.elemId blockId).write_step ⟨path, b, hh, hid, ?_⟩ _ _
      (style, info, text)).2
  rw [hk]
  rfl

theorem replaceRawBlock_shows (hok : s.replaceRawBlock blockId raw = .ok (s', i)) :
    (RegisterWrite.replaceRawBlock blockId raw).Shows s'.document := by
  obtain ⟨b, raw', hb, hk, -, payload, -, rfl⟩ := replaceRawBlock_ok hok
  obtain ⟨path, hh, hid, hs⟩ := h.holds hb
  refine shown_of_written hb (h.covered _ hs.wrote)
    ((rawBlock b.elemId blockId).write_step ⟨path, b, hh, hid, ?_⟩ _ _ raw).2
  rw [hk]
  rfl

theorem convertTextBlock_shows (hok : s.convertTextBlock blockId kind = .ok (s', i)) :
    (RegisterWrite.convertTextBlock blockId kind).Shows s'.document := by
  obtain ⟨b, body, hb, hbody, -, payload, -, rfl⟩ := convertTextBlock_ok hok
  obtain ⟨path, hh, hid, hs⟩ := h.holds hb
  refine shown_of_written hb (h.covered _ hs.wrote)
    ((Register.textBlockKind b.elemId blockId).write_step ⟨path, b, hh, hid, ?_⟩ _ _ kind).2
  cases hk : b.kind with
  | paragraph | heading => rfl
  | _ => simp [hk, blockTextSeq] at hbody

theorem setTableColumnAlignment_shows
    (hok : s.setTableColumnAlignment tableId columnId alignment = .ok (s', i)) :
    (RegisterWrite.setTableColumnAlignment tableId columnId alignment).Shows s'.document := by
  obtain ⟨b, t, column, hb, hk, hc, -, payload, -, rfl⟩ := setTableColumnAlignment_ok hok
  obtain ⟨path, hh, rfl, hs⟩ := h.holds hb
  have ht := h.tables t (hs.kind.tableOf hk)
  have hstep := ((columnAlignment b.elemId b.id columnId).write_step
    ⟨path, b, t, hh, rfl, hk, ht.placed, by rw [hc]; rfl⟩ s.peekNextId s.stateVector
    (alignmentToWire alignment)).2
  rw [arbitrate_of_covers (fun c hc' => ?_)] at hstep
  · obtain ⟨t', ht', hw⟩ := bind_eq_some_iff.mp hstep
    obtain ⟨c, hc', hval⟩ := map_eq_some_iff.mp hw
    have hwire : alignmentToWire c.alignment.value = alignmentToWire alignment :=
      congrArg Written.value hval
    have hinj : c.alignment.value = alignment := by
      cases hv : c.alignment.value <;> cases alignment <;> simp [hv, alignmentToWire] at hwire ⊢
    simp only [writeOp] at ht'
    simp only [RegisterWrite.Shows]
    rw [ht', bind_some, hc', map_some, hinj]
  · simp only [stored, hh.findBlockById, bind_some, Block.table?, hk, hc] at hc'
    obtain rfl := some.inj hc'
    exact h.covered _ (ht.column hc)

theorem setTableCell_shows (hok : s.setTableCell tableId rowId columnId value = .ok (s', i)) :
    (RegisterWrite.setTableCell tableId rowId columnId value).Shows s'.document := by
  obtain ⟨b, t, column, hb, hk, hrow, hc, -, payload, -, rfl⟩ := setTableCell_ok hok
  obtain ⟨path, hh, rfl, hs⟩ := h.holds hb
  have ht := h.tables t (hs.kind.tableOf hk)
  have hh' := updateTable_holds hh hk b.elemId (fun table =>
    table.setCellObserved rowId columnId value s.peekNextId s.stateVector)
  have hcell := setCellObserved_spec t rowId columnId value s.peekNextId s.stateVector
  rw [arbitrate_of_covers (fun c hc' => ?_)] at hcell
  · obtain ⟨cell, hget, hval⟩ := map_eq_some_iff.mp hcell
    have hlive : t.rowIsLive rowId = true := by
      rcases hrow with hrow | hrow <;> simp [Table.rowIsLive, hrow]
    have hfind := hh'.findBlockById
    simp only at hfind
    simp only [RegisterWrite.Shows, applyDocOp]
    rw [hfind, bind_some]
    simp only [Block.table?, bind_some, Table.cellValue]
    rw [hget, map_some, show cell.value = value from congrArg Written.value hval]
    refine if_pos ?_
    rw [Bool.and_eq_true]
    exact ⟨hlive, by rw [show (t.setCellObserved rowId columnId value s.peekNextId
      s.stateVector).columnById columnId = some column from hc]; rfl⟩
  · obtain ⟨cell, hget, rfl⟩ := map_eq_some_iff.mp hc'
    exact h.covered _ (ht.cells _ cell hget)

end

end Session.Attributed
end

/-! ## List items -/

namespace Document
variable {R : Rules} {d : Document} {itemId : BlockId} {task : Option TaskState} {id : OpId}
    {observed : StateVector}

/-- The entry of the index that a list item is read from. -/
theorem shownTask_eq (d : Document) (itemId) : (d.findListItemById itemId).map ListItem.task =
      ((taskIndex [] d.blocks).find? (fun e => e.2.1 = itemId)).map (fun e => e.2.2) := by
  rw [findListItemById, listItems_eq_index [], taskIndex, find?_map, find?_map,
    Option.map_map, Option.map_map]
  rfl

theorem itemPlace_eq (d : Document) (itemId) :
    d.itemPlace itemId = ((taskIndex [] d.blocks).find? (fun e => e.2.1 = itemId)).map Prod.fst := by
  rw [itemPlace, taskIndex, find?_map, Option.map_map]
  rfl

/-- A task write at one place of the index, seen at the item. -/
theorem shownTask_write {d' : Document}
    (hw : taskIndex [] d'.blocks = (taskIndex [] d.blocks).map (writeTask target task)) :
    (d'.findListItemById itemId).map ListItem.task =
      if d.itemPlace itemId = some target then some task
      else (d.findListItemById itemId).map ListItem.task := by
  have hid : (fun e : ItemPlace × BlockId × Option TaskState => decide (e.2.1 = itemId)) ∘
      writeTask target task = fun e => decide (e.2.1 = itemId) := by
    funext e
    simp only [Function.comp, writeTask]
    split <;> rfl
  rw [shownTask_eq, shownTask_eq, itemPlace_eq, hw, find?_map, hid, Option.map_map]
  cases (taskIndex [] d.blocks).find? (fun e => e.2.1 = itemId) with
  | none => simp
  | some e =>
    by_cases he : e.1 = target <;> simp [writeTask, he]

section
variable (h : R.Blocks d.blocks)
include h

/-- A task write that wins changes the entry at its target. -/
theorem setListItemTask_written {owner elem place path b style items pm item}
    (hp : d.listItemPlacement itemId = some (owner, elem, place))
    (hb : d.findBlock elem = some b) (hpath : d.pathOfElem elem = some path)
    (hk : b.kind = .list style items pm) (hv : items.value? place = some item)
    (hid : item.id = itemId)
    (hw : causalWriteWins item.taskOp item.taskObserved id observed = true) :
    taskIndex [] (d.setListItemTask itemId task id observed).1.blocks =
      (taskIndex [] d.blocks).map (writeTask ⟨path, place⟩ task) := by
  obtain ⟨helem, path', hpath', hat⟩ := findBlock_eq_some.mp hb
  obtain rfl : path' = path := some.inj (hpath'.symm.trans hpath)
  simp only [setListItemTask, hp, tryItems, tryBlock]
  rw [withBlockMut_eq hb hpath]
  obtain ⟨containers, e⟩ := path'
  refine Rules.taskIndex_write hk hv (g := fun item =>
    { item with task := task, taskOp := id, taskObserved := observed }) ⟨rfl, rfl, rfl⟩ ?_
    containers [] h hat
  simp [hk, hv, filter_some, hid, hw]

/-- A task write does nothing, or it changes the entry at its target. -/
theorem setListItemTask_index (itemId task id observed) :
    (d.setListItemTask itemId task id observed).1 = d ∨
      ∃ target, d.taskTarget itemId = some target ∧
        taskIndex [] (d.setListItemTask itemId task id observed).1.blocks =
          (taskIndex [] d.blocks).map (writeTask target task) := by
  cases hp : d.listItemPlacement itemId with
  | none => exact .inl (by simp only [setListItemTask, hp])
  | some p =>
    obtain ⟨owner, elem, place⟩ := p
    cases hb : d.findBlock elem with
    | none =>
      refine .inl ?_
      simp only [setListItemTask, hp, tryItems, tryBlock, withBlockMut_none hb, getD_none]
    | some b =>
      obtain ⟨-, path, hpath, -⟩ := findBlock_eq_some.mp hb
      -- a write that does not fit or does not win is refused
      have hrefused : ∀ f : Block → Option Block, f b = none → (d.tryBlock elem f).1 = d :=
        fun f hf => by rw [tryBlock_none hb hf]
      cases hk : b.kind with
      | list style items pm =>
        cases hv : items.value? place with
        | none =>
          refine .inl ?_
          simp only [setListItemTask, hp, tryItems]
          exact hrefused _ (by simp [hk, hv])
        | some item =>
          by_cases hwin : item.id = itemId ∧
              causalWriteWins item.taskOp item.taskObserved id observed = true
          · refine .inr ⟨⟨path, place⟩, by simp [taskTarget, hp, hpath], ?_⟩
            exact setListItemTask_written h hp hb hpath hk hv hwin.1 hwin.2
          · refine .inl ?_
            simp only [setListItemTask, hp, tryItems]
            refine hrefused _ ?_
            by_cases hid : item.id = itemId
            · simp [hk, hv, hid, show causalWriteWins item.taskOp item.taskObserved id observed =
                false by simpa [hid] using hwin]
            · simp [hk, hv, hid]
      | _ =>
        refine .inl ?_
        simp only [setListItemTask, hp, tryItems]
        exact hrefused _ (by simp [hk])

/-- A task write that has seen the last one and goes to the item. -/
theorem setListItemTask_reaches (hcov : ∀ x, R.wrote x → observed.covers x)
    (hr : d.taskTarget itemId = d.itemPlace itemId) {target}
    (ht : d.itemPlace itemId = some target) (task id) :
    taskIndex [] (d.setListItemTask itemId task id observed).1.blocks =
      (taskIndex [] d.blocks).map (writeTask target task) := by
  rw [ht] at hr
  obtain ⟨⟨owner, elem, place⟩, hp, hr⟩ := bind_eq_some_iff.mp hr
  obtain ⟨path, hpath, rfl⟩ := map_eq_some_iff.mp hr
  obtain ⟨⟨entryPlace, item⟩, hf, he⟩ := map_eq_some_iff.mp ht
  obtain rfl : entryPlace = ⟨path, place⟩ := he
  have hid : item.id = itemId := by simpa using find?_some hf
  -- the item stands at the target, so the list found by its element id holds it
  obtain ⟨rel, hrel, hat⟩ := h.items_at (mem_of_find?_eq_some hf)
  obtain rfl : path.containers = rel := by simpa using hrel
  obtain ⟨b, hb, hitem⟩ := bind_eq_some_iff.mp hat
  have hs := h.blockAtPath hb
  have helem : path.elemId = elem := by
    obtain ⟨entry, hfe, rfl⟩ := map_eq_some_iff.mp hpath
    simpa using find?_some hfe
  cases hk : b.kind with
  | list style items pm =>
    rw [hk] at hitem
    have hwrote := ((hs.kind.items hk).1.value? hitem).wrote
    have hfind : d.findBlock elem = some b :=
      findBlock_eq_some.mpr ⟨hs.elemId.trans helem, path, hpath, hb⟩
    exact setListItemTask_written h hp hfind hpath hk hitem hid
      (by simp [causalWriteWins, hcov _ hwrote])
  | _ => simp [hk] at hitem

end

end Document

section
variable [Segmentation] [Serde] {w : World} {created : List DocOp} {s' : Session} {i : OpId}

/-- A task write shows exactly if it goes to the item, or the item had the task before. -/
theorem Session.Attributed.setListItemTask_shows_iff {s : Session} (h : s.Attributed R)
    (hok : s.setListItemTask itemId task = .ok (s', i)) :
    (RegisterWrite.setListItemTask itemId task).Shows s'.document ↔
      (RegisterWrite.setListItemTask itemId task).Reaches s.document ∨
        (RegisterWrite.setListItemTask itemId task).Shows s.document := by
  obtain ⟨item, hitem, -, payload, -, rfl⟩ := setListItemTask_ok hok
  obtain ⟨target, ht⟩ : ∃ target, s.document.itemPlace itemId = some target := by
    rw [findListItemById, listItems_eq_index [], find?_map] at hitem
    obtain ⟨e, he, -⟩ := map_eq_some_iff.mp hitem
    exact ⟨e.1, by rw [itemPlace]; exact congrArg (Option.map Prod.fst) he⟩
  simp only [RegisterWrite.Shows, RegisterWrite.Reaches, applyDocOp]
  by_cases hr : s.document.taskTarget itemId = s.document.itemPlace itemId
  · have hw := setListItemTask_reaches h.blocks h.covered hr ht task s.peekNextId
    rw [shownTask_write hw, if_pos ht]
    simp [hr]
  · rcases setListItemTask_index h.blocks itemId task s.peekNextId s.stateVector with
      hsame | ⟨target', ht', hw⟩
    · rw [hsame]
      simp [hr]
    · have hne : s.document.itemPlace itemId ≠ some target' := fun he => hr (ht'.trans he.symm)
      rw [shownTask_write hw, if_neg hne]
      simp [hr]

/-- Read your writes: in every run, a register write that returns shows its value exactly if it
    goes to the place the document is read at, or the value stood there before. -/
theorem RegisterWrite.shows_iff [LimitedSerde] (h : Run w created) (p : PeerId)
    (call : RegisterWrite) (hok : call.run (w p) = .ok (s', i)) :
    call.Shows s'.document ↔ call.Reaches (w p).document ∨ call.Shows (w p).document := by
  obtain ⟨R, ha⟩ := h.attributed p
  cases call with
  | setTableCell tableId rowId columnId value =>
    exact iff_of_true (ha.setTableCell_shows hok) (.inl trivial)
  | setTableColumnAlignment tableId columnId alignment =>
    exact iff_of_true (ha.setTableColumnAlignment_shows hok) (.inl trivial)
  | setListStyle listId style => exact iff_of_true (ha.setListStyle_shows hok) (.inl trivial)
  | setListItemTask itemId task => exact ha.setListItemTask_shows_iff hok
  | setCodeFence blockId style info text =>
    exact iff_of_true (ha.setCodeFence_shows hok) (.inl trivial)
  | convertTextBlock blockId kind =>
    exact iff_of_true (ha.convertTextBlock_shows hok) (.inl trivial)
  | replaceRawBlock blockId raw =>
    exact iff_of_true (ha.replaceRawBlock_shows hok) (.inl trivial)

end

section
attribute [local instance] charSegmentation envelopeSerde

/-- Three lists, each in an item of the one before. The first item is moved, but keeps its old
    element id, so that the list in it can no longer be taken out: moving that list to the top
    copies it. The item of the third list is deleted in one copy and is still in the other. -/
def nestedListCalls : List Call :=
  [.insertBlockIn none none (.list .default .new []), .insertListItem ⟨1, 1⟩ none none,
   .insertBlockIn (some ⟨2, 1⟩) none (.list .default .new []),
   .insertListItem ⟨1, 3⟩ none none,
   .insertBlockIn (some ⟨4, 1⟩) none (.list .default .new []),
   .insertListItem ⟨1, 5⟩ none none, .moveListItem ⟨1, 2⟩ ⟨1, 1⟩ none, .moveBlock ⟨1, 3⟩ none none,
   .deleteListItem ⟨1, 6⟩]

theorem nestedListCalls_plain : ∀ c ∈ nestedListCalls, Plain c := by
  simp [nestedListCalls, Plain, Bare, Sequence.new]

/-- Checking the item that is left writes to the copy from which it was deleted. -/
theorem RegisterWrite.setListItemTask_not_shown : ∃ w created p s' i, Run w created ∧
      (RegisterWrite.setListItemTask ⟨1, 6⟩ (some .checked)).run (w p) = .ok (s', i) ∧
      ¬(RegisterWrite.setListItemTask ⟨1, 6⟩ (some .checked)).Shows s'.document := by
  obtain ⟨w, created, hrun, hw⟩ := Run.calls 1 nestedListCalls_plain
  have heval : ((nestedListCalls.foldl after (Session.new 1)).setListItemTask ⟨1, 6⟩
      (some .checked)).toOption.map
        (fun r => (r.1.document.findListItemById ⟨1, 6⟩).map ListItem.task) = some (some none) := by
    decide +kernel
  cases hok : (w 1).setListItemTask ⟨1, 6⟩ (some .checked) with
  | error e =>
    rw [← hw, hok] at heval
    cases heval
  | ok r =>
    refine ⟨w, created, 1, r.1, r.2, hrun, hok, ?_⟩
    rw [← hw, hok] at heval
    have hshown : (r.1.document.findListItemById ⟨1, 6⟩).map ListItem.task = some none :=
      some.inj heval
    simp only [RegisterWrite.Shows, hshown]
    decide

/-- A task write that goes where it should: the item of a fresh list. -/
theorem RegisterWrite.setListItemTask_shown : ∃ w created p s' i, Run w created ∧
      (RegisterWrite.setListItemTask ⟨1, 2⟩ (some .checked)).run (w p) = .ok (s', i) ∧
      (RegisterWrite.setListItemTask ⟨1, 2⟩ (some .checked)).Shows s'.document := by
  have := envelopeSerde_lawful
  obtain ⟨w, created, hrun, hw⟩ := Run.calls 1 (show ∀ c ∈ nestedListCalls.take 2, Plain c from
      fun c hc => nestedListCalls_plain c (mem_of_mem_take hc))
  have heval : (((nestedListCalls.take 2).foldl after (Session.new 1)).setListItemTask ⟨1, 2⟩
      (some .checked)).toOption.isSome = true := by decide +kernel
  have hreaches : ((nestedListCalls.take 2).foldl after (Session.new 1)).document.taskTarget ⟨1, 2⟩ =
      ((nestedListCalls.take 2).foldl after (Session.new 1)).document.itemPlace ⟨1, 2⟩ := by
    decide +kernel
  cases hok : (w 1).setListItemTask ⟨1, 2⟩ (some .checked) with
  | error e =>
    rw [← hw, hok] at heval
    cases heval
  | ok r =>
    rw [← hw] at hreaches
    exact ⟨w, created, 1, r.1, r.2, hrun, hok,
      (RegisterWrite.shows_iff hrun 1 (.setListItemTask ⟨1, 2⟩ (some .checked)) hok).mpr
        (.inl hreaches)⟩

end
end MdCrdt
