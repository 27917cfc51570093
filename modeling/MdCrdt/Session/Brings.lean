import MdCrdt.Doc.IdEdits
import MdCrdt.Session.Blockwise
import MdCrdt.Session.Integration

/- Where the ids that an operation brings in come from.

  `DocOp.brings` are the ids an operation can add to a document, `DocOp.addresses`
  those that must be there for it to have an effect. Nothing else is added
  (`applyDocOp_within`). -/
namespace MdCrdt
open Lib List Option Document DocOp
variable {P : OpId → Prop} {d : Document} {units : List MovedTextUnitWire}

/-! ## Text and tables -/

theorem BlockWithin.modifyText (h : BlockWithin P b)
    (hops : ∀ op ∈ ops, ∀ x ∈ op.ids (fun _ => []), P x) : BlockWithin P (b.modifyText ops) := by
  obtain ⟨id, elemId, kindOp, kindObserved, kind, marks⟩ := b
  refine h.withKind ?_
  have hk := h.kind
  cases kind with
  | paragraph text => exact (kindWithin_text rfl).mpr (((kindWithin_text rfl).mp hk).applyAll hops)
  | heading level text =>
    exact (kindWithin_text rfl).mpr (((kindWithin_text rfl).mp hk).applyAll hops)
  | _ => exact hk

theorem BlockWithin.modifyTable (h : BlockWithin P b)
    (hf : ∀ t, t.Within P → (f t).Within P) : BlockWithin P (b.modifyTable f) := by
  unfold Block.modifyTable
  cases hk : b.kind with
  | table t =>
    have ht := Table.within_iff.mpr (kindWithin_table.mp (hk ▸ h.kind))
    exact h.withKind (kindWithin_table.mpr (Table.within_iff.mp (hf t ht)))
  | _ => exact h

theorem Document.Within.updateTable (h : d.Within P) (tableElem tableId)
    (hf : ∀ t, t.Within P → (f t).Within P) : (updateTable d tableElem tableId f).Within P :=
  h.updateBlock (fun _ _ hb => hb.modifyTable hf)

theorem Document.Within.modifyText (h : d.Within P) (elem)
    (hops : ∀ op ∈ ops, ∀ x ∈ op.ids (fun _ => []), P x) :
    (d.updateBlock elem (fun block => block.modifyText ops)).Within P :=
  h.updateBlock (fun _ _ hb => hb.modifyText hops)

/-- Units chained behind one another bring in their own ids. -/
theorem ids_chainOps (h : ∀ u ∈ units, P u.id) (after rightOrigin) :
    ∀ op ∈ chainOps after rightOrigin units, ∀ x ∈ op.ids (fun _ => []), P x := by
  induction units generalizing after rightOrigin with
  | nil => simp [chainOps]
  | cons u units ih =>
    obtain ⟨hu, hunits⟩ := forall_mem_cons.mp h
    rw [chainOps, forall_mem_cons]
    exact ⟨by simpa [SequenceOp.ids] using hu, ih hunits _ _⟩

/-- The ids inside a document, block by block. -/
abbrev Document.Within.blockwise (P : OpId → Prop) : Blockwise where
  doc := Document.Within P
  block := fun _ => BlockWithin P
  placed := fun _ => BlockWithin P
  kind := KindWithin P
  items := Sequence.Within itemIds P
  item := fun id item => P id ∧ ItemWithin P item
  waits := fun m => P m.id
  writes := fun _ => True
  free := fun _ => True
  withBlockMut := fun {_ _ elem _ _ _} h _ hf hd => by
    obtain ⟨hd', b, hb, -, ha⟩ := h.withBlockMut (fun b hb => (hf elem b hb).1) hd
    exact ⟨hd', elem, b, hb, ha⟩
  insertBlockAt := fun _ _ h _ hb he => h.insertBlockAt _ (fun _ => ⟨he ▸ hb.elemId, hb⟩) _
  deleteBlockAt := fun _ _ h _ => h.deleteBlockAt _ _ _
  buryBlockAt := fun _ _ _ h _ hb he =>
    (h.insertBlockAt _ (fun _ => ⟨he ▸ hb.elemId, hb⟩) _).deleteBlockAt _ _ _
  kindOf := fun hb => hb.kind
  withKind := fun hb hk => hb.withKind hk
  written := fun _ hb _ => ⟨hb.elemId, hb.marks, hb.kind⟩
  list := kindWithin_list
  text := fun _ hb hk => textKind_within ((kindWithin_text hb).mp hk)
  codeFence := kindWithin_codeFence
  rawBlock := kindWithin_rawBlock
  insert := fun _ _ h hi => h.insertItem hi.1 hi.2
  delete := fun _ _ h => h.delete _ _
  task := fun place _ _ h _ => h.withItem place (fun _ hi => ⟨hi.elemId, hi.children⟩)
  lost := fun hm => ⟨hm, hm, Sequence.within_new⟩
  found := fun h hitem hm =>
    have hi := within_findListItem h hitem
    ⟨hm, hi.elemId, hi.children⟩

/-! ## Splitting and merging -/

theorem applySplitBlock_within (h : d.Within P) {parent ro target id newBlockId kind}
    (hop : (∀ a ∈ target :: parent.toList, a ∈ d.ids) → ∀ x ∈ id :: units.map MovedTextUnitWire.id, P x) :
    (applySplitBlock d parent target id newBlockId ro kind units).Within P := by
  unfold applySplitBlock
  split
  · exact h
  · next d' marks hd =>
    have hdel : ∀ {Q : OpId → Prop} (b : Block), BlockWithin Q b → BlockWithin Q
        (b.modifyText (units.map (fun unit => .delete unit.sourceId id))) :=
      fun b hb => hb.modifyText (by simp [SequenceOp.ids])
    obtain ⟨hd', b, hb, -, hmarks⟩ := h.withBlockMut (fun b hb => hdel b hb) hd
    refine hd'.insertBlockAt _ (fun hparent => ?_) _
    -- the source block and the container were there before
    have hself : d.Within (· ∈ d.ids) := within_iff.mpr (fun _ hx => hx)
    obtain ⟨hd'', b', hb', hfind, -⟩ := hself.withBlockMut (fun b hb => hdel b hb) hd
    have hall := hop (forall_mem_cons.mpr ⟨(within_findBlock hself hfind).2 ▸ hb'.elemId,
      fun p hp => within_iff.mp hd'' p (hparent p (mem_toList.mp hp))⟩)
    obtain ⟨hid, hunits⟩ := forall_mem_cons.mp hall
    refine ⟨hid, hid, hmarks ▸ hb.marks, textKind_within ?_⟩
    refine Sequence.within_fromOrdered (fun p hp => ?_)
    obtain ⟨u, hu, rfl⟩ := List.mem_map.mp hp
    exact ⟨hunits _ (mem_map_of_mem hu), by simp⟩

theorem applyMergeBlocks_within (h : d.Within P) {parent after ro left right id}
    (hop : left ∈ d.ids → ∀ x ∈ units.map MovedTextUnitWire.id, P x) :
    (applyMergeBlocks d parent left right id after ro units).Within P := by
  unfold applyMergeBlocks
  refine Within.deleteBlockAt (h.updateBlock (fun hfind b hb => ?_)) _ _ _
  obtain ⟨b', hb'⟩ := isSome_iff_exists.mp hfind
  have hself : d.Within (· ∈ d.ids) := within_iff.mpr (fun _ hx => hx)
  obtain ⟨hin, helem⟩ := within_findBlock hself hb'
  have hunits := forall_mem_map.mp (hop (helem ▸ hin.elemId))
  have hmod := hb.modifyText (ids_chainOps hunits after ro)
  refine ⟨hmod.elemId, ?_, hmod.kind⟩
  cases hr : d.findBlock right with
  | none => exact hmod.marks
  | some r => exact MarkSet.ids_mergeFrom _ _ hmod.marks (within_findBlock h hr).1.marks

variable [Segmentation]

/-! ## What an operation brings in -/

/-- The ids an operation can add to a document. -/
def DocOp.brings : DocOp → List OpId
  | .insertBlock _ _ id _ block => id :: blockIds (blockFromSkeleton block id)
  | .insertText _ _ units => units.map TextUnitWire.id
  | .moveBlocks _ _ blocks => blocks.map MovedBlockWire.id
  | .splitBlock _ _ id _ _ _ units => id :: units.map MovedTextUnitWire.id
  | .mergeBlocks _ _ _ _ _ _ units => units.map MovedTextUnitWire.id
  | .setMark _ _ id _ _ _ _ | .insertTableRow _ _ _ id _ _ | .insertTableColumn _ _ _ id _ _ _
  | .moveTableRow _ _ _ _ id _ _ _ | .moveTableColumn _ _ _ _ id _ _ _
  | .insertListItem _ _ _ id _ _ | .moveListItem _ _ _ _ _ id _ _ _ => [id]
  | .deleteBlock _ _ _ | .deleteBlockById _ _ _ _ | .deleteText _ _ _ _ | .removeMark _ _ _ _ _
  | .setFrontmatterField _ _ _ | .initializeFrontmatter _ _ | .setTableCell _ _ _ _ _ _ _
  | .deleteTableRow _ _ _ _ | .deleteTableRowById _ _ _ _ _ | .deleteTableColumnById _ _ _ _ _
  | .setTableColumnAlignment _ _ _ _ _ _ | .deleteListItemById _ _ _ _ _ | .setListStyle _ _ _ _ _
  | .setListItemTask _ _ _ _ | .setCodeFence _ _ _ _ _ _ _ | .convertTextBlock _ _ _ _ _
  | .replaceRawBlock _ _ _ _ _ => []

/-- Elements that must be in a document for a structural operation to have an effect there. -/
def DocOp.addresses : DocOp → List OpId
  | .insertBlock parent _ _ _ _ => parent.toList
  | .moveBlocks toParent _ _ => toParent.toList
  | .splitBlock parent target _ _ _ _ _ => target :: parent.toList
  | .mergeBlocks _ left _ _ _ _ _ => [left]
  | _ => []

/-- An operation adds no ids but those it brings, and those only where what it addresses is. -/
theorem applyDocOp_within (h : d.Within P)
    (hop : (∀ a ∈ op.addresses, a ∈ d.ids) → ∀ x ∈ op.brings, P x) : (applyDocOp d op).Within P := by
  let X := Within.blockwise P
  let T := Table.Within.tablewise P
  have he : ∀ l : List OpId, ∀ x ∈ l, X.free x := fun _ _ _ => trivial
  cases op with
  | insertBlock parent after id ro block =>
    refine h.insertBlockAt _ (fun hp => ?_) _
    have hall := hop (fun a ha => hp a (mem_toList.mp ha))
    obtain ⟨hid, hblock⟩ := forall_mem_cons.mp hall
    exact ⟨hid, blockWithin_iff.mpr hblock⟩
  | deleteBlock => exact h.deleteBlockAt _ _ _
  | deleteBlockById =>
    simp only [applyDocOp]
    split <;> exact h.deleteBlockAt _ _ _
  | insertText blockElem blockId units =>
    have hunits := forall_mem_map.mp (hop (by simp [addresses]))
    refine h.modifyText _ (forall_mem_map.mpr (fun u hu => ?_))
    simpa [TextUnitWire.insertOp, SequenceOp.ids] using hunits u hu
  | deleteText => exact h.modifyText _ (by simp [SequenceOp.ids])
  | setMark blockElem blockId id kind start stop attrs =>
    have hid := hop (by simp [addresses]) id mem_cons_self
    exact h.updateBlock (fun _ b hb => ⟨hb.elemId,
      MarkSet.ids_setMark b.marks kind start stop attrs id hb.marks hid, hb.kind⟩)
  | removeMark =>
    refine h.updateBlock (fun _ b hb => ⟨hb.elemId, ?_, hb.kind⟩)
    simpa only [MarkSet.ids_removeMark] using hb.marks
  | setFrontmatterField => exact h
  | initializeFrontmatter =>
    simp only [applyDocOp]
    split <;> exact h
  | moveBlocks toParent id blocks =>
    refine X.moveBlocksAt h (he _) (fun prepared loses hsome hp p hmem => ?_) _
    have hm : ∀ m ∈ blocks, P m.id := by
      refine forall_mem_map.mp (hop (fun a ha => ?_))
      obtain rfl := mem_toList.mp ha
      exact mem_of_containerChildren (within_iff.mpr (fun _ hx => hx)) hsome
    have hb := within_prepareMoves h hm hp p hmem
    have hclone : BlockWithin P { p.1.1 with elemId := p.2.id } :=
      ⟨hm p.2 (of_mem_zip hmem).2, hb.marks, hb.kind⟩
    cases loses <;> exact hclone
  | splitBlock => exact applySplitBlock_within h hop
  | mergeBlocks parent left right id after ro units =>
    exact applyMergeBlocks_within h (fun hl => hop (by simpa [addresses] using hl))
  | insertTableRow tableElem tableId after id ro cells =>
    have hid := hop (by simp [addresses]) id mem_cons_self
    exact h.updateTable _ _ (fun t ht => T.applyInsertRow (fun _ _ _ _ h => { h with })
      { ht with rows := Table.within_insert ht.rows hid _ _ })
  | insertTableColumn tableElem tableId after id ro alignment header =>
    have hid := hop (by simp [addresses]) id mem_cons_self
    exact h.updateTable _ _ (fun t ht => T.applyInsertColumn (fun _ _ _ _ h => { h with })
      ⟨Table.within_insert ht.columns hid _ _, ht.rows, ht.rowMoves, ht.columnMoves⟩)
  | setTableCell => exact h.updateTable _ _ (fun t ht => ht.setCellObserved _ _ _ _ _)
  | deleteTableRow | deleteTableRowById => exact h.updateTable _ _ (fun t ht => ht.removeRow _ _)
  | deleteTableColumnById => exact h.updateTable _ _ (fun t ht => ht.removeColumnById _ _ _)
  | setTableColumnAlignment =>
    exact h.updateTable _ _ (fun t ht => ht.setColumnAlignmentObserved _ _ _ _)
  | moveTableRow tableElem tableId rowId target id after ro observed =>
    have hid := hop (by simp [addresses]) id mem_cons_self
    exact h.updateTable _ _ (fun t ht => T.moveRow (m := ⟨_, _, _, _, _, _⟩) ht hid)
  | moveTableColumn tableElem tableId columnId target id after ro observed =>
    have hid := hop (by simp [addresses]) id mem_cons_self
    exact h.updateTable _ _ (fun t ht => T.moveColumn (m := ⟨_, _, _, _, _, _⟩) ht hid)
  | insertListItem listElem listId after id ro task =>
    have hid := hop (by simp [addresses]) id mem_cons_self
    exact X.insertListItemAt h (he _) ⟨hid, hid, Sequence.within_new⟩
  | deleteListItemById => exact X.deleteListItemAt h (he _) _ _
  | moveListItem fromListElem toListElem listId itemId target id after ro observed =>
    exact X.moveListItemAt h (he _) (hop (by simp [addresses]) id mem_cons_self)
  | setListStyle => exact X.setListStyle h (he _) _ trivial _
  | setListItemTask => exact X.setListItemTask h (he _) _ trivial _
  | setCodeFence => exact X.setCodeFence h (he _) _ _ _ trivial _
  | convertTextBlock => exact X.convertTextBlock h (he _) _ trivial _
  | replaceRawBlock => exact X.replaceRawBlock h (he _) _ trivial _

/-- The document operation of an envelope. -/
def Envelope.docOp (envelope : Envelope) : DocOp :=
  match envelope.body with
  | .doc op => op

/-- What is new after an operation has been brought by it, and what it addresses was there. -/
theorem mem_ids_apply {envelope x} (hx : x ∈ (applyEnvelopeToDocument d envelope).ids) : x ∈ d.ids ∨
      x ∈ envelope.docOp.brings ∧ ∀ a ∈ envelope.docOp.addresses, a ∈ d.ids := by
  obtain ⟨version, ⟨op⟩⟩ := envelope
  have h : d.Within (fun x => x ∈ d.ids ∨ x ∈ op.brings ∧ ∀ a ∈ op.addresses, a ∈ d.ids) :=
    within_iff.mpr (fun _ hx => .inl hx)
  exact within_iff.mp (applyDocOp_within h (fun ha x hx => .inr ⟨hx, ha⟩)) x hx

end MdCrdt
