import MdCrdt.Session.OwnIds
import MdCrdt.Session.Registers
import MdCrdt.Session.World

/- Who wrote what a document holds.

  Every register of a document names the operation that wrote it last, and every
  block the element id it stands under. In a run, both come from operations that
  have been applied: a writer is no newer than some applied operation of its peer
  (`Wrote`), so the state vector covers it, and an element id belongs to one block
  only (`Run.owner_unique`). -/
namespace MdCrdt
open Lib Session Option
open List hiding le_of_lt le_trans le_refl
variable {l : List DocOp} {x : OpId}

/-! ## Tables -/

/-- Writers and element ids in a table. -/
structure Table.WrittenBy (W : OpId → Prop) (t : Table) : Prop where
  columns : t.columns.Keeps (fun id c => c.elemId = id ∧ W c.alignment.opId)
  cells : ∀ a cell, t.cells.get? a = some cell → W cell.opId
  moves : ∀ m ∈ t.pendingColumnMoves, W m.id
  alignments : ∀ a ∈ t.pendingColumnAlignments, W a.id

namespace Table.WrittenBy
variable {W W' : OpId → Prop} {t : Table} {id : OpId}

theorem mono (h : t.WrittenBy W) (hw : ∀ x, W x → W' x) : t.WrittenBy W' where
  columns := h.columns.mono (fun _ _ hc => ⟨hc.1, hw _ hc.2⟩)
  cells a cell hc := hw _ (h.cells a cell hc)
  moves m hm := hw _ (h.moves m hm)
  alignments a ha := hw _ (h.alignments a ha)

theorem new (tableId elem op) : (Table.new tableId elem op).WrittenBy W where
  columns := Sequence.keeps_new
  cells := by simp [Table.new]
  moves := by simp [Table.new]
  alignments := by simp [Table.new]

section
variable (h : t.WrittenBy W)
include h

theorem placed : t.ColumnsPlaced :=
  ⟨h.columns.indexed, fun e he c hc => (h.columns.all.live e he c hc).1⟩

/-- A column that a search finds. -/
theorem column (hc : t.columnById columnId = some c) : W c.alignment.opId := by
  obtain ⟨e, he, hv⟩ := mem_filterMap.mp (mem_of_find?_eq_some hc)
  exact (h.columns.all.live e he c hv).2

theorem withColumns {columns}
    (hc : columns.Keeps (fun id c => c.elemId = id ∧ W c.alignment.opId)) :
    { t with columns := columns }.WrittenBy W :=
  ⟨hc, h.cells, h.moves, h.alignments⟩

theorem withRows (rows) : { t with rows := rows }.WrittenBy W :=
  { h with }

theorem setCellObserved (hid : W id) (rowId columnId value observed) :
    (t.setCellObserved rowId columnId value id observed).WrittenBy W := by
  refine { h with cells := fun a cell hc => ?_ }
  simp only [Table.setCellObserved, SortedMap.get?_insert] at hc
  split at hc
  · obtain rfl := some.inj hc
    split
    · next old hold =>
      unfold TableCell.set
      split
      · exact hid
      · exact h.cells _ _ hold
    · exact hid
  · exact h.cells a cell hc

theorem setColumnAlignmentObserved (hid : W id) (columnId alignment observed) :
    (t.setColumnAlignmentObserved columnId alignment id observed).WrittenBy W := by
  unfold Table.setColumnAlignmentObserved
  split
  · exact { h with alignments := forall_mem_push h.alignments hid }
  · next c hc =>
    split
    · exact h.withColumns (h.columns.updateValue ⟨rfl, hid⟩)
    · exact h

theorem removeRow (target op) : (t.removeRow target op).WrittenBy W :=
  h.withRows _

theorem removeColumnById (columnId target op) :
    (t.removeColumnById columnId target op).WrittenBy W :=
  h.withColumns (h.columns.apply trivial)

end

def tablewise (W : OpId → Prop) : Tablewise where
  table := WrittenBy W
  rowMove _ := True
  columnMove m := W m.id
  aligns a := W a.id
  rowMoves _ _ _ := trivial
  columnMoves h := h.moves
  alignments h := h.alignments
  waitRows h _ := { h with }
  waitColumns h hl := { h with moves := hl }
  waitAlignments h hl := { h with alignments := hl }
  loseRow h _ _ _ := h.withRows _
  takeRow h _ _ := h.withRows _
  loseColumn {t m column} h hm _ he ha := by
    have hins : (t.columns.apply (.insert m.after m.id column m.rightOrigin)).Keeps
        (fun id c => c.elemId = id ∧ W c.alignment.opId) := by
      refine h.columns.apply ⟨he, ?_⟩
      rcases ha with ha | ⟨c, hc, ha⟩
      · exact ha ▸ hm
      · exact ha ▸ h.column hc
    exact h.withColumns (hins.apply trivial)
  takeColumn {t m column} h hm hc := by
    have hdel : (t.columns.delete column.elemId m.id).Keeps
        (fun id c => c.elemId = id ∧ W c.alignment.opId) := h.columns.apply trivial
    have hw := h.column hc
    exact h.withColumns (hdel.apply ⟨rfl, hw⟩)
  align h ha := h.setColumnAlignmentObserved ha _ _ _

end Table.WrittenBy

/-! ## What operations bring in -/

/-- Elements under which an operation puts blocks and items, each with its logical id. -/
def DocOp.elements : DocOp → List (OpId × BlockId)
  | .insertBlock _ _ id _ block => (id, block.blockId) :: kindElements block.kind
  | .splitBlock _ _ id newBlockId _ _ _ => [(id, newBlockId)]
  | .moveBlocks _ _ blocks => blocks.map (fun m => (m.id, m.blockId))
  | _ => []

section
variable [Segmentation]

/-- The id is no newer than one of the operations, of the same peer. -/
def Wrote (l : List DocOp) (x : OpId) : Prop :=
  ∃ op ∈ l, x.peer = (opId op).peer ∧ x.counter ≤ (opId op).counter

theorem Wrote.mono (h : Wrote l x) (hl : ∀ op ∈ l, op ∈ l') : Wrote l' x := by
  obtain ⟨op, hop, hx⟩ := h
  exact ⟨op, hl op hop, hx⟩

theorem wrote_self (hop : op ∈ l) (hx : opId op = x) : Wrote l x :=
  ⟨op, hop, by rw [hx], by rw [hx]⟩

/-- Writers and elements of a document to which the operations of a list have been applied. -/
def writerRules (l : List DocOp) : Rules where
  owns x b := ∃ op ∈ l, (x, b) ∈ op.elements
  places _ _ := True
  wrote := Wrote l
  text _ := True
  table := Table.WrittenBy (Wrote l)

theorem writerRules_le (h : ∀ op ∈ l, op ∈ l') : (writerRules l).Le (writerRules l') where
  owns _ _ := fun ⟨op, hop, hx⟩ => ⟨op, h op hop, hx⟩
  places _ _ _ := trivial
  wrote _ hx := hx.mono h
  text _ _ := trivial
  table _ ht := ht.mono (fun _ hx => hx.mono h)

theorem admits_writerRules (hop : op ∈ l) :
    (writerRules l).Admits (opId op).peer (opId op).counter (· ∈ op.elements) where
  owns _ he := ⟨op, hop, he⟩
  places _ _ := trivial
  wrote _ hx := ⟨op, hop, hx⟩
  text _ _ _ _ := trivial
  table _ _ := Table.WrittenBy.new _ _ _

end

/-! ## Created operations -/

section
variable [Segmentation] [Serde] {s : Session} {op : DocOp}

theorem Session.Creates.fits (h : s.Creates op) :
    op.Fits (writerRules l) (writerRules (l ++ [op])) := by
  have hmem : op ∈ l ++ [op] := by simp
  have hle : ∀ x, Wrote l x → Wrote (l ++ [op]) x :=
    fun x hx => hx.mono (fun o ho => mem_append_left _ ho)
  let T := Table.WrittenBy.tablewise (Wrote (l ++ [op]))
  cases h with
  | @insertBlock parent after kind skeleton children hc ha hk hv hp hu =>
    refine ⟨⟨_, hmem, by simp [DocOp.elements]⟩, ⟨_, hmem, rfl, le_maxCounterInKind _ _⟩, ?_⟩
    exact (admits_writerRules hmem).kindFits (rfl : s.peekNextId.peer = _) _
      (fun e he => by simp [DocOp.elements, he]) hp (le_refl _)
  | @moveBlocks blockIds toParent after destination targets hne hd ha ht hat =>
    intro m hm
    obtain ⟨hpeer, -, hlt⟩ := mem_placements hm
    rw [moveTargets_length ht] at hlt
    refine ⟨⟨_, hmem, mem_map.mpr ⟨m, hm, rfl⟩⟩, _, hmem, hpeer, ?_⟩
    show m.id.counter ≤ s.nextCounter + blockIds.length - 1
    omega
  | splitBlock =>
    exact ⟨⟨_, hmem, by simp [DocOp.elements]⟩, wrote_self hmem rfl, trivial, fun _ _ => trivial⟩
  | insertText | deleteText | mergeBlocks => exact fun _ _ => trivial
  | insertTableRow =>
    exact fun t ht => T.applyInsertRow
      (fun _ _ _ _ h => h.setCellObserved (wrote_self hmem rfl) _ _ _ _) ((ht.mono hle).withRows _)
  | insertTableColumn =>
    exact fun t ht => T.applyInsertColumn
      (fun _ _ _ _ h => h.setCellObserved (wrote_self hmem rfl) _ _ _ _)
      ((ht.mono hle).withColumns ((ht.mono hle).columns.apply ⟨rfl, wrote_self hmem rfl⟩))
  | setTableCell => exact fun t ht => (ht.mono hle).setCellObserved (wrote_self hmem rfl) _ _ _ _
  | deleteTableRow => exact fun t ht => (ht.mono hle).removeRow _ _
  | deleteTableColumn => exact fun t ht => (ht.mono hle).removeColumnById _ _ _
  | setTableColumnAlignment =>
    exact fun t ht => (ht.mono hle).setColumnAlignmentObserved (wrote_self hmem rfl) _ _ _
  | moveTableRow => exact fun t ht => T.moveRow (m := ⟨_, _, _, _, _, _⟩) (ht.mono hle) trivial
  | moveTableColumn =>
    exact fun t ht => T.moveColumn (m := ⟨_, _, _, _, _, _⟩) (ht.mono hle) (wrote_self hmem rfl)
  | insertListItem | moveListItem => exact ⟨trivial, wrote_self hmem rfl⟩
  | setListStyle | setListItemTask | setCodeFence | convertTextBlock | replaceRawBlock =>
    exact wrote_self hmem rfl
  | _ => trivial

/-- Created operations, applied one after the other, leave every writer and every element
    accounted for. -/
theorem foldl_writerRules (h : ∀ op ∈ l, ∃ s : Session, s.Creates op) :
    (writerRules l).Blocks (l.foldl applyDocOp .new).blocks := by
  induction l using List.reverseRecOn with
  | nil => exact Rules.blocks_new
  | append_singleton l op ih =>
    obtain ⟨s, hc⟩ := h op (by simp)
    rw [foldl_append]
    exact applyDocOp_keeps (ih (fun o ho => h o (mem_append_left _ ho)))
      (writerRules_le (fun o ho => mem_append_left _ ho)) hc.fits

/-! ## One block for an element -/

/-- The elements of an operation lie in the counters that it covers. -/
theorem Session.Creates.elements_range (h : s.Creates op) (hn : op.Numbered)
    (he : e ∈ op.elements) : e.1.peer = (opId op).peer ∧ firstCounter op ≤ e.1.counter ∧
      e.1.counter ≤ (opId op).counter := by
  have hk := h.counters
  rw [hk.peer, hk.first]
  cases h with
  | @insertBlock parent after kind skeleton children hc ha hk hv hp hu =>
    rcases mem_cons.mp he with rfl | he
    · exact ⟨rfl, le_refl _, le_maxCounterInKind _ _⟩
    · obtain ⟨hpeer, hmax⟩ := mem_kindElements s.peekNextId he hp
      exact ⟨hpeer, le_of_lt (hn.1 e he).2, hmax⟩
  | @moveBlocks blockIds toParent after destination targets hne hd ha ht hat =>
    obtain ⟨m, hm, rfl⟩ := mem_map.mp he
    obtain ⟨hpeer, hlo, hhi⟩ := mem_placements hm
    rw [moveTargets_length ht] at hhi
    refine ⟨hpeer, hlo, ?_⟩
    show m.id.counter ≤ s.nextCounter + blockIds.length - 1
    omega
  | splitBlock =>
    obtain rfl := mem_singleton.mp he
    exact ⟨rfl, le_refl _, le_refl _⟩
  | _ => cases he

omit [Segmentation] in
/-- No two elements of an operation are the same with different logical ids. -/
theorem Session.Creates.elements_unique (h : s.Creates op) (hn : op.Numbered)
    (hb : (x, b) ∈ op.elements) (hb' : (x, b') ∈ op.elements) : b = b' := by
  cases h with
  | @insertBlock parent after kind skeleton children hc ha hk hv hp hu =>
    have hid : ∀ b, (x, b) ∈ (s.peekNextId, blockIdFromOp s.peekNextId) :: kindElements skeleton →
        b = blockIdFromOp x := by
      intro b hb
      rcases mem_cons.mp hb with heq | hb
      · obtain ⟨rfl, rfl⟩ := Prod.mk.inj heq
        rfl
      · exact (hn.1 _ hb).1
    rw [hid b hb, hid b' hb']
  | @moveBlocks blockIds toParent after destination targets hne hd ha ht hat =>
    obtain ⟨m, hm, heq⟩ := mem_map.mp hb
    obtain ⟨m', hm', heq'⟩ := mem_map.mp hb'
    obtain ⟨rfl, rfl⟩ := Prod.mk.inj heq
    obtain ⟨hid, rfl⟩ := Prod.mk.inj heq'
    have hnodup : ((placements s.peer s.nextCounter after (destination.computeRightOrigin after)
        targets).map MovedBlockWire.id).Nodup := by
      rw [placements_ids]
      refine List.Nodup.map ?_ nodup_range'
      intro a b hab
      exact (OpId.mk.inj hab).1
    rw [inj_on_of_nodup_map hnodup hm' hm hid]
  | splitBlock =>
    obtain ⟨-, rfl⟩ := Prod.mk.inj (mem_singleton.mp hb)
    obtain ⟨-, rfl⟩ := Prod.mk.inj (mem_singleton.mp hb')
    rfl
  | _ => cases hb

end

theorem pairwise_cases {A : Type} {r} {l : List A} (h : l.Pairwise r) {a b}
    (ha : a ∈ l) (hb : b ∈ l) : a = b ∨ r a b ∨ r b a := by
  by_cases hab : a = b
  · exact .inl hab
  · have hboth : l.Pairwise (fun x y => r x y ∨ r y x) := h.imp .inl
    have hsymm : Std.Symm (fun x y => r x y ∨ r y x) := ⟨fun _ _ => Or.symm⟩
    exact .inr (hboth.forall ha hb hab)

section
variable [Segmentation] [Serde] {w : World} {created : List DocOp}

/-- Two created operations of one peer do not share a counter. -/
theorem Run.Clocks.apart (hk : Run.Clocks w created) {a b} (ha : a ∈ created)
    (hb : b ∈ created) (hpeer : (opId a).peer = (opId b).peer) {x}
    (hxa : firstCounter a ≤ x ∧ x ≤ (opId a).counter)
    (hxb : firstCounter b ≤ x ∧ x ≤ (opId b).counter) : a = b := by
  rcases pairwise_cases hk.ordered ha hb with rfl | h | h
  · rfl
  · have := h hpeer
    omega
  · have := h hpeer.symm
    omega

/-- In a run an element id belongs to one block or item only. -/
theorem Run.owner_unique [LimitedSerde] (h : Run w created) (ha : a ∈ created)
    (hb : b ∈ created) (hi : (x, i) ∈ a.elements) (hj : (x, j) ∈ b.elements) : i = j := by
  obtain ⟨w₁, l₁, p₁, -, hc₁, hn₁, -⟩ := h.origin ha
  obtain ⟨w₂, l₂, p₂, -, hc₂, hn₂, -⟩ := h.origin hb
  obtain ⟨hpa, hra⟩ := hc₁.elements_range hn₁ hi
  obtain ⟨hpb, hrb⟩ := hc₂.elements_range hn₂ hj
  obtain rfl := h.sessions.1.apart ha hb (hpa.symm.trans hpb) hra hrb
  exact hc₁.elements_unique hn₁ hi hj

/-- Writers and elements of the document of a session. -/
theorem Session.Tracks.writerRules (h : Run w created)
    {s : Session} (ht : s.Tracks created todo applied) :
    (MdCrdt.writerRules applied).Blocks s.document.blocks := by
  rw [ht.document]
  refine foldl_writerRules (fun op hop => ?_)
  obtain ⟨w₀, -, p, -, hc, -⟩ := h.origin (ht.mem_created op hop)
  exact ⟨w₀ p, hc⟩

/-- The state vector of a session covers every writer in its document. -/
theorem Session.Tracks.covers {s : Session}
    (ht : s.Tracks created todo applied) (hx : Wrote applied x) : s.stateVector.covers x := by
  obtain ⟨op, hop, hpeer, hle⟩ := hx
  have hcov := ht.sync.covered _ (ht.logged op hop)
  unfold StateVector.covers at hcov ⊢
  rw [hpeer]
  exact le_trans hle hcov

end

/-! ## Blocks stand where their ids lead -/

theorem find?_eq_of_both {A : Type} {p q} {l : List A} {x y}
    (hx : l.find? p = some x) (hy : l.find? q = some y) (hqx : q x = true) (hpy : p y = true) :
    x = y := by
  induction l with
  | nil => cases hx
  | cons a l ih =>
    rw [find?_cons] at hx hy
    cases hpa : p a <;> cases hqa : q a <;> simp only [hpa, hqa] at hx hy
    · exact ih hx hy
    · obtain rfl := some.inj hy
      rw [hpa] at hpy
      cases hpy
    · obtain rfl := some.inj hx
      rw [hqa] at hqx
      cases hqx
    · exact (some.inj hx).symm.trans (some.inj hy)

/-- Where no element id belongs to two blocks, both ids of a block lead to it. -/
theorem Document.holds_of_findBlockById {R : Rules} {d : Document} (h : R.Blocks d.blocks)
    (hu : ∀ x i j, R.owns x i → R.owns x j → i = j) {id} {b : Block}
    (hb : d.findBlockById id = some b) : ∃ path, d.Holds path b ∧ b.id = id := by
  rw [findBlockById_eq_find? h] at hb
  obtain ⟨⟨path, b'⟩, hf, rfl⟩ := map_eq_some_iff.mp hb
  have hid : b'.id = id := by simpa using find?_some hf
  have hat := find?_entry_at h hf
  have hstands := h.blockAtPath hat
  -- the first entry under the element id is the first entry under the block id
  have hsome : (d.blockIndex.find? (fun entry => entry.1.elemId = b'.elemId)).isSome := by
    rw [find?_isSome]
    exact ⟨(path, b'), mem_of_find?_eq_some hf, by simp [hstands.elemId]⟩
  obtain ⟨⟨path', c⟩, hf'⟩ := isSome_iff_exists.mp hsome
  have helem : path'.elemId = b'.elemId := by simpa using find?_some hf'
  have hstands' := h.blockAtPath (find?_entry_at h hf')
  have hc : c.id = b'.id := hu path.elemId _ _ (by
    have := hstands'.owns
    rwa [helem, hstands.elemId] at this) hstands.owns
  obtain heq := find?_eq_of_both hf hf' (by simp [hstands.elemId]) (by simp [hc, hid])
  refine ⟨path, ⟨hat, ?_, ?_⟩, hid⟩
  · rw [pathOfBlock, hid, hf]
    rfl
  · rw [pathOfElem, hf', ← heq]
    rfl

end MdCrdt
