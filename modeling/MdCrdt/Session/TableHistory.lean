import MdCrdt.Core.Landing
import MdCrdt.Session.ReadWrites
import MdCrdt.Session.TableConvergence

/- The tables of a run.

  The rows of a table are described by the operations their sequence has seen
  (`LaidBy`): an element that nobody deleted is the only one of its logical id, and
  the insert that created the row has been seen. A move keeps this because it
  deletes the element it found live; a move that loses, or finds no live row,
  deletes its own element at once. So rows and columns are placed, however the
  operations arrive (`KnownTo.wellFormed`), and everything that a table mentions
  comes from an operation that has been created (`Run.tables`). -/
namespace MdCrdt
open Lib Session Option SortedMap
open List hiding lt_irrefl after

/-- The operation that created what a logical id names. -/
def BlockId.op (b : BlockId) : OpId := ⟨b.low, b.high⟩

theorem BlockId.op_blockIdFromOp (x) : (blockIdFromOp x).op = x := rfl

/-! ## Operations on rows or columns -/

/-- A delete of the element has been seen. -/
def Buried (D : SequenceOp Place → Prop) (i : OpId) : Prop := ∃ d, D (.delete i d)

/-- Operations on the rows, or on the columns, of a table: all ids are in `P`, new elements in
    `W`, and of the elements of one logical id all but one are deleted. -/
structure LaidBy (P W : OpId → Prop) (D : SequenceOp Place → Prop) : Prop where
  insert : ∀ a i v ro, D (.insert a i v ro) →
    (P i ∧ W i) ∧ (∀ x, a = some x → P x) ∧ P v.logicalId.op ∧ v.elemId = i
  delete : ∀ t d, D (.delete t d) → P t
  unique : ∀ a i v ro a' i' v' ro', D (.insert a i v ro) → D (.insert a' i' v' ro') →
    ¬Buried D i → ¬Buried D i' → v.logicalId = v'.logicalId → i = i'
  first : ∀ a i v ro, D (.insert a i v ro) → ¬Buried D i →
    ∃ a' v' ro', D (.insert a' v.logicalId.op v' ro') ∧ v'.logicalId = v.logicalId

namespace LaidBy
variable {P W P' W' : OpId → Prop} {D : SequenceOp Place → Prop}

theorem none : LaidBy P W (fun _ => False) :=
  ⟨fun _ _ _ _ h => h.elim, fun _ _ h => h.elim, fun _ _ _ _ _ _ _ _ h => h.elim,
    fun _ _ _ _ h => h.elim⟩

theorem mono (h : LaidBy P W D) (hP : ∀ x, P x → P' x) (hW : ∀ x, W x → W' x) : LaidBy P' W' D where
  insert a i v ro hi := by
    obtain ⟨⟨h1, h2⟩, h3, h4, h5⟩ := h.insert a i v ro hi
    exact ⟨⟨hP _ h1, hW _ h2⟩, fun x hx => hP x (h3 x hx), hP _ h4, h5⟩
  delete t d hd := hP _ (h.delete t d hd)
  __ := h

/-- One more delete. -/
theorem remove (h : LaidBy P W D) (ht : P t) (d) : LaidBy P W (fun o => o = .delete t d ∨ D o) := by
  have hold : ∀ {a i v ro}, (.insert a i v ro = (.delete t d : SequenceOp Place) ∨
      D (.insert a i v ro)) → D (.insert a i v ro) := fun hi => hi.resolve_left (by simp)
  have hb : ∀ {i}, ¬Buried (fun o => o = .delete t d ∨ D o) i → ¬Buried D i :=
    fun hn ⟨d', hd'⟩ => hn ⟨d', .inr hd'⟩
  refine ⟨fun a i v ro hi => h.insert a i v ro (hold hi), ?_, ?_, ?_⟩
  · rintro t' d' (heq | hd)
    · cases heq
      exact ht
    · exact h.delete t' d' hd
  · intro a i v ro a' i' v' ro' hi hi' hn hn'
    exact h.unique a i v ro a' i' v' ro' (hold hi) (hold hi') (hb hn) (hb hn')
  · intro a i v ro hi hn
    obtain ⟨a', v', ro', hf, hl⟩ := h.first a i v ro (hold hi) (hb hn)
    exact ⟨a', v', ro', .inr hf, hl⟩

section Insert
variable {a₀ ro₀ : Option OpId} {id : OpId} {v₀ : Place}

section
variable (h : LaidBy P W D)
include h

/-- One more element, if no undeleted one competes with it and its row has been created. -/
theorem insert_of (hid : P id ∧ W id) (ha : ∀ x, a₀ = some x → P x)
    (hl : P v₀.logicalId.op) (he : v₀.elemId = id)
    (halone : ¬Buried D id → ∀ a i v ro, D (.insert a i v ro) → ¬Buried D i →
      v.logicalId = v₀.logicalId → i = id)
    (hfirst : ¬Buried D id → ∃ a v ro, (.insert a v₀.logicalId.op v ro = SequenceOp.insert a₀ id
      v₀ ro₀ ∨ D (.insert a v₀.logicalId.op v ro)) ∧ v.logicalId = v₀.logicalId) :
    LaidBy P W (fun o => o = .insert a₀ id v₀ ro₀ ∨ D o) := by
  have hb : ∀ {i}, ¬Buried (fun o => o = .insert a₀ id v₀ ro₀ ∨ D o) i → ¬Buried D i :=
    fun hn ⟨d', hd'⟩ => hn ⟨d', .inr hd'⟩
  refine ⟨?_, ?_, ?_, ?_⟩
  · rintro a i v ro (heq | hi)
    · cases heq
      exact ⟨hid, ha, hl, he⟩
    · exact h.insert a i v ro hi
  · rintro t d (heq | hd)
    · cases heq
    · exact h.delete t d hd
  · rintro a i v ro a' i' v' ro' (heq | hi) (heq' | hi') hn hn' hlog
    · cases heq
      cases heq'
      rfl
    · cases heq
      exact (halone (hb hn) _ _ _ _ hi' (hb hn') hlog.symm).symm
    · cases heq'
      exact halone (hb hn') _ _ _ _ hi (hb hn) hlog
    · exact h.unique a i v ro a' i' v' ro' hi hi' (hb hn) (hb hn') hlog
  · rintro a i v ro (heq | hi) hn
    · cases heq
      exact hfirst (hb hn)
    · obtain ⟨a', v', ro', hf, hlog⟩ := h.first a i v ro hi (hb hn)
      exact ⟨a', v', ro', .inr hf, hlog⟩

/-- The insert that creates a row. -/
theorem add (hid : P id ∧ W id) (ha : ∀ x, a₀ = some x → P x)
    (hl : v₀.logicalId = blockIdFromOp id) (he : v₀.elemId = id) :
    LaidBy P W (fun o => o = .insert a₀ id v₀ ro₀ ∨ D o) := by
  have hop : v₀.logicalId.op = id := by rw [hl, BlockId.op_blockIdFromOp]
  refine h.insert_of hid ha (hop ▸ hid.1) he (fun hn a i v ro hi hni hlog => ?_)
    (fun _ => ⟨a₀, v₀, ro₀, .inl (by rw [hop]), rfl⟩)
  -- an undeleted element of the row means that the row was there
  obtain ⟨a', v', ro', hf, hl'⟩ := h.first a i v ro hi hni
  rw [hlog, hop] at hf
  exact h.unique _ _ _ _ _ _ _ _ hi hf hni hn hl'.symm

/-- A move takes the place of the undeleted element. -/
theorem move (hlive : D (.insert a e v ro)) (hn : ¬Buried D e)
    (hid : P id ∧ W id) (ha : ∀ x, a₀ = some x → P x) (hl : v₀.logicalId = v.logicalId)
    (he : v₀.elemId = id) (d) :
    LaidBy P W (fun o => o = .insert a₀ id v₀ ro₀ ∨ o = .delete e d ∨ D o) := by
  obtain ⟨⟨hPe, -⟩, -, hPl, -⟩ := h.insert a e v ro hlive
  have hold : ∀ {a i v ro}, (.insert a i v ro = (.delete e d : SequenceOp Place) ∨
      D (.insert a i v ro)) → D (.insert a i v ro) := fun hi => hi.resolve_left (by simp)
  refine (h.remove hPe d).insert_of hid ha (hl ▸ hPl) he (fun _ a' i' v' ro' hi hni hlog => ?_)
    (fun _ => ?_)
  · -- the only undeleted element of the row has just been deleted
    have heq := h.unique _ _ _ _ _ _ _ _ (hold hi) hlive (fun ⟨d', hd'⟩ => hni ⟨d', .inr hd'⟩) hn
      (hlog.trans hl)
    exact absurd ⟨d, .inl (by rw [heq])⟩ hni
  · obtain ⟨a', v', ro', hf, hl'⟩ := h.first a e v ro hlive hn
    exact ⟨a', v', ro', .inr (.inr (hl ▸ hf)), hl'.trans hl.symm⟩

/-- A move that does not take effect leaves a deleted element. -/
theorem lose (hid : P id ∧ W id) (ha : ∀ x, a₀ = some x → P x)
    (hl : P v₀.logicalId.op) (he : v₀.elemId = id) (d) :
    LaidBy P W (fun o => o = .delete id d ∨ o = .insert a₀ id v₀ ro₀ ∨ D o) := by
  -- with its element deleted, it competes with nothing
  have hburied : Buried (fun o => o = .delete id d ∨ D o) id := ⟨d, .inl rfl⟩
  have hinsert : LaidBy P W (fun o => o = .insert a₀ id v₀ ro₀ ∨ o = .delete id d ∨ D o) :=
    (h.remove hid.1 d).insert_of hid ha hl he (absurd hburied) (absurd hburied)
  simpa only [or_left_comm] using hinsert

end

end Insert
end LaidBy

/-! ## Sequences of rows or columns -/

/-- The operations that a sequence of rows or columns has seen are in order. -/
def Laid {T : Type} (place : T → Place) (P W : OpId → Prop) (s : Sequence T) : Prop :=
  ∃ D, (s.map place).Delivered D ∧ LaidBy P W D

namespace Sequence
variable {T U : Type} {g : T → U} {s : Sequence T}

theorem indexed_of_map (h : (s.map g).Indexed) : s.Indexed where
  grounded := by
    obtain ⟨ls, hp, hb⟩ := h.grounded
    exact ⟨ls, hp.trans (Perm.of_eq ((keepsPlace_map g).links s.elements)), hb⟩
  index := h.index.trans (rebuildIndex_map g s.elements)

theorem ordered_of_map (h : (s.map g).Ordered) : s.Ordered := by
  have hi := indexed_of_map h.toIndexed
  refine ⟨hi, eq_of_ids (hi.grounded.distinct.perm (orderElements_perm hi.grounded).symm)
    (orderElements_perm hi.grounded) ?_⟩
  have hids := congrArg (List.map Element.id) h.order
  rwa [elements_map, orderElements_map (keepsPlace_map g), (keepsPlace_map g).map_ids,
    (keepsPlace_map g).map_ids] at hids

/-- Replacing a value by one with the same image. -/
theorem map_updateValue (h : s.Indexed) {id e} (he : e ∈ s.elements)
    (hid : e.id = id) {v w} (hv : e.value = some v) (hg : g w = g v) :
    (s.updateValue id w).map g = s.map g := by
  rw [h.updateValue_eq]
  simp only [map, updateAt, List.map_map, Sequence.mk.injEq, and_true]
  refine map_congr_left (fun x hx => ?_)
  rw [Function.comp_apply]
  split
  · next hxid =>
    obtain rfl := h.grounded.distinct.eq_of_id hx he (hxid.trans hid.symm)
    simp [Element.map, hv, hg]
  · rfl

end Sequence

namespace Laid
variable {T : Type} {place : T → Place} {P W P' W' : OpId → Prop} {s : Sequence T}
variable {e : Element T}
  {after ro : Option OpId} {id d : OpId} {v w : T}

theorem new : Laid place P W (.new : Sequence T) :=
  ⟨_, Sequence.delivered_new, LaidBy.none⟩

theorem mono (h : Laid place P W s) (hP : ∀ x, P x → P' x) (hW : ∀ x, W x → W' x) :
    Laid place P' W' s := by
  obtain ⟨D, hD, hl⟩ := h
  exact ⟨D, hD, hl.mono hP hW⟩

theorem ordered (h : Laid place P W s) : s.Ordered := by
  obtain ⟨D, hD, -⟩ := h
  exact Sequence.ordered_of_map hD.ordered

/-- A live value comes from an insert whose element nobody deleted. -/
theorem source (hD : (s.map place).Delivered D) (he : e ∈ s.elements) (hv : e.value = some v) :
    D (.insert e.after e.id (place v) e.rightOrigin) ∧ ¬Buried D e.id := by
  have hmem : e.map place ∈ (s.map place).elements := mem_map_of_mem he
  have hval : (e.map place).value = some (place v) := by rw [Element.map, hv]; rfl
  obtain ⟨p, hp, heq⟩ := hD.source _ hmem
  obtain rfl := heq _ hval
  refine ⟨hp, fun hb => ?_⟩
  rw [(hD.value_none hmem).mpr hb] at hval
  cases hval

section
variable (h : Laid place P W s)
include h

theorem live (he : e ∈ s.elements) (hv : e.value = some v) :
    (P e.id ∧ W e.id) ∧ P (place v).logicalId.op ∧ (place v).elemId = e.id := by
  obtain ⟨D, hD, hl⟩ := h
  obtain ⟨hid, -, hlog, helem⟩ := hl.insert _ _ _ _ (source hD he hv).1
  exact ⟨hid, hlog, helem⟩

theorem knows : (s.map place).Knows P := by
  obtain ⟨D, hD, hl⟩ := h
  refine ⟨D, hD, fun op hop => ?_⟩
  cases op with
  | insert => exact ⟨(hl.insert _ _ _ _ hop).1.1, (hl.insert _ _ _ _ hop).2.1⟩
  | delete => exact hl.delete _ _ hop

theorem mem (hx : x ∈ s.elementIds) : P x := by
  obtain ⟨e, he, rfl⟩ := Sequence.mem_elementIds.mp hx
  exact (h.knows.mem (mem_map_of_mem he)).1

theorem placed : Placed place s where
  ordered := h.ordered
  elem e he v hv := (h.live he hv).2.2
  unique := by
    intro v hv w hw hlog
    obtain ⟨e, he, hev⟩ := mem_filterMap.mp hv
    obtain ⟨e', he', hew⟩ := mem_filterMap.mp hw
    have hord := h.ordered
    obtain ⟨D, hD, hl⟩ := h
    obtain ⟨hi, hn⟩ := source hD he hev
    obtain ⟨hi', hn'⟩ := source hD he' hew
    have hid := hl.unique _ _ _ _ _ _ _ _ hi hi' hn hn' hlog
    obtain rfl := hord.grounded.distinct.eq_of_id he he' hid
    exact some.inj (hev.symm.trans hew)

/-- An id outside `P` is new to the sequence. -/
theorem unknown (hid : ¬P id) : s.Unknown id := by
  obtain ⟨-, hi, hd⟩ := h.knows.unknown hid
  exact ⟨fun hm => hid (h.mem hm), by simpa [Sequence.map, get?_mapVal] using hi,
    by simpa [Sequence.map, get?_mapVal] using hd⟩

/-! ### Edits -/

theorem updateValue (he : e ∈ s.elements) (hid : e.id = id)
    (hv : e.value = some v) (hp : place w = place v) : Laid place P W (s.updateValue id w) := by
  have hi := h.ordered.toIndexed
  obtain ⟨D, hD, hl⟩ := h
  exact ⟨D, (Sequence.map_updateValue hi he hid hv hp).symm ▸ hD, hl⟩

theorem remove (ht : P t) (d) : Laid place P W (s.delete t d) := by
  obtain ⟨D, hD, hl⟩ := h
  have hD' := Sequence.apply_delivered hD (SequenceOp.map place (.delete t d))
  rw [Sequence.map_apply] at hD'
  exact ⟨_, hD', hl.remove ht d⟩

theorem add (hid : P id ∧ W id) (ha : ∀ x, after = some x → P x)
    (hl : (place v).logicalId = blockIdFromOp id) (he : (place v).elemId = id) :
    Laid place P W (s.apply (.insert after id v ro)) := by
  obtain ⟨D, hD, hlaid⟩ := h
  have hD' := Sequence.apply_delivered hD (SequenceOp.map place (.insert after id v ro))
  rw [Sequence.map_apply] at hD'
  exact ⟨_, hD', hlaid.add hid ha hl he⟩

theorem move (hmem : e ∈ s.elements) (hv : e.value = some v)
    (hid : P id ∧ W id) (ha : ∀ x, after = some x → P x)
    (hl : (place w).logicalId = (place v).logicalId) (he : (place w).elemId = id) :
    Laid place P W ((s.delete e.id d).apply (.insert after id w ro)) := by
  obtain ⟨D, hD, hlaid⟩ := h
  obtain ⟨hlive, hn⟩ := source hD hmem hv
  have hD' := Sequence.apply_delivered hD (SequenceOp.map place (.delete e.id d))
  have hD'' := Sequence.apply_delivered hD' (SequenceOp.map place (.insert after id w ro))
  rw [Sequence.map_apply, Sequence.map_apply] at hD''
  exact ⟨_, hD'', hlaid.move hlive hn hid ha hl he d⟩

theorem lose (hid : P id ∧ W id) (ha : ∀ x, after = some x → P x)
    (hl : P (place v).logicalId.op) (he : (place v).elemId = id) :
    Laid place P W ((s.apply (.insert after id v ro)).delete id d) := by
  obtain ⟨D, hD, hlaid⟩ := h
  have hD' := Sequence.apply_delivered hD (SequenceOp.map place (.insert after id v ro))
  have hD'' := Sequence.apply_delivered hD' (SequenceOp.map place (.delete id d))
  rw [Sequence.map_apply, Sequence.map_apply] at hD''
  exact ⟨_, hD'', hlaid.lose hid ha hl he d⟩

/-- A value that a search finds. -/
theorem found (hf : s.iter.find? p = some v) :
    ∃ e ∈ s.elements, e.value = some v ∧ (place v).elemId = e.id ∧ P (place v).logicalId.op ∧
      P (place v).elemId ∧ W (place v).elemId := by
  obtain ⟨e, he, hv⟩ := mem_filterMap.mp (mem_of_find?_eq_some hf)
  obtain ⟨⟨hP, hW⟩, hlog, helem⟩ := h.live he hv
  exact ⟨e, he, hv, helem, hlog, helem ▸ hP, helem ▸ hW⟩

end

end Laid
/-! ## Tables -/

/-- What a waiting move mentions. -/
structure PendingTableMove.Names (P W : OpId → Prop) (m : PendingTableMove) : Prop where
  logicalId : P m.logicalId.op
  target : P m.target
  id : P m.id ∧ W m.id
  after : ∀ x, m.after = some x → P x

/-- Everything a table mentions is in `P`, its elements and waiting moves are in `W`, and its rows
    and columns are in order. -/
structure Table.KnownTo (P W : OpId → Prop) (t : Table) : Prop where
  header : P t.headerRowId.op
  rows : Laid TableRow.place P W t.rows
  columns : Laid TableColumn.place P W t.columns
  rowMoves : ∀ m ∈ t.pendingRowMoves, m.Names P W
  columnMoves : ∀ m ∈ t.pendingColumnMoves, m.Names P W
  alignments : ∀ a ∈ t.pendingColumnAlignments, P a.columnId.op
  cells : t.cells.Sorted

namespace Table.KnownTo
variable {P W P' W' : OpId → Prop} {t : Table} {id : OpId} {target : OpId}

theorem mono (h : t.KnownTo P W) (hP : ∀ x, P x → P' x) (hW : ∀ x, W x → W' x) :
    t.KnownTo P' W' := by
  have hm : ∀ m : PendingTableMove, m.Names P W → m.Names P' W' := fun m hm =>
    ⟨hP _ hm.logicalId, hP _ hm.target, ⟨hP _ hm.id.1, hW _ hm.id.2⟩, fun x hx => hP x (hm.after x hx)⟩
  exact ⟨hP _ h.header, h.rows.mono hP hW, h.columns.mono hP hW, fun m hin => hm m (h.rowMoves m hin),
    fun m hin => hm m (h.columnMoves m hin), fun a ha => hP _ (h.alignments a ha), h.cells⟩

theorem new {elem} (he : P elem) (op) : (Table.new (blockIdFromOp elem) elem op).KnownTo P W where
  header := he
  rows := Laid.new
  columns := Laid.new
  rowMoves := by simp [Table.new]
  columnMoves := by simp [Table.new]
  alignments := by simp [Table.new]
  cells := sorted_empty

section
variable (h : t.KnownTo P W)
include h

theorem withRows {rows} (hr : Laid TableRow.place P W rows) : { t with rows := rows }.KnownTo P W :=
  { h with rows := hr }

theorem withColumns {columns}
    (hc : Laid TableColumn.place P W columns) : { t with columns := columns }.KnownTo P W :=
  { h with columns := hc }

theorem setCellObserved (rowId columnId value id observed) :
    (t.setCellObserved rowId columnId value id observed).KnownTo P W :=
  { h with cells := sorted_insert h.cells _ _ }

theorem setColumnAlignmentObserved (hc : P columnId.op) (alignment observed) :
    (t.setColumnAlignmentObserved columnId alignment id observed).KnownTo P W := by
  unfold Table.setColumnAlignmentObserved
  split
  · exact { h with alignments := forall_mem_push h.alignments hc }
  · next column hcol =>
    split
    · obtain ⟨e, he, hv, helem, -⟩ := h.columns.found hcol
      exact h.withColumns (h.columns.updateValue he helem.symm hv rfl)
    · exact h

theorem removeRow (ht : P target) (op) : (t.removeRow target op).KnownTo P W := by
  refine h.withRows (Laid.remove ?_ ht op)
  split
  · next row hrow =>
    obtain ⟨e, he, hv⟩ := bind_eq_some_iff.mp hrow
    obtain ⟨hmem, hid⟩ := (Sequence.getElement_eq_some h.rows.ordered.toIndexed).mp he
    exact h.rows.updateValue hmem hid hv rfl
  · exact h.rows

theorem removeRowById (ht : P target) (rowId op) :
    (t.removeRowById rowId target op).KnownTo P W := by
  refine h.removeRow ?_ op
  cases hrow : t.rowById rowId with
  | none => exact ht
  | some row =>
    obtain ⟨e, -, -, -, -, hP, -⟩ := h.rows.found hrow
    exact hP

theorem removeColumnById (ht : P target) (columnId op) :
    (t.removeColumnById columnId target op).KnownTo P W := by
  refine h.withColumns (h.columns.remove ?_ op)
  cases hcol : t.columnById columnId with
  | none => exact ht
  | some column =>
    obtain ⟨e, -, -, -, -, hP, -⟩ := h.columns.found hcol
    exact hP

theorem wellFormed : t.WellFormed := ⟨h.rows.placed, h.columns.placed⟩

/-- An id that is not in `P` is new to the table. -/
theorem fresh (hid : ¬P id) : t.Fresh id := by
  have hne : ∀ {b : BlockId}, P b.op → b ≠ blockIdFromOp id := by
    rintro b hb rfl
    exact hid hb
  refine ⟨h.rows.unknown hid, h.columns.unknown hid, hne h.header, ?_, ?_,
    fun m hm => hne (h.rowMoves m hm).logicalId, fun m hm => hne (h.columnMoves m hm).logicalId,
    fun a ha => hne (h.alignments a ha)⟩
  · intro row hrow
    obtain ⟨e, he, hv⟩ := mem_filterMap.mp hrow
    exact hne (h.rows.live he hv).2.1
  · intro column hcol
    obtain ⟨e, he, hv⟩ := mem_filterMap.mp hcol
    exact hne (h.columns.live he hv).2.1

/-- Whoever placed a row or a column, aligned a column or wrote a cell is known. -/
theorem writers (hw : t.WrittenBy W) : ∀ x ∈ t.writers, W x := by
  intro x hx
  simp only [Table.writers, mem_append, List.mem_map] at hx
  rcases hx with ((⟨row, hrow, rfl⟩ | ⟨column, hcol, rfl⟩) | ⟨column, hcol, rfl⟩) | ⟨cell, hcell, rfl⟩
  · obtain ⟨e, he, hv⟩ := mem_filterMap.mp hrow
    obtain ⟨⟨-, hW⟩, -, helem⟩ := h.rows.live he hv
    exact (show row.elemId = e.id from helem) ▸ hW
  · obtain ⟨e, he, hv⟩ := mem_filterMap.mp hcol
    obtain ⟨⟨-, hW⟩, -, helem⟩ := h.columns.live he hv
    exact (show column.elemId = e.id from helem) ▸ hW
  · obtain ⟨e, he, hv⟩ := mem_filterMap.mp hcol
    exact (hw.columns.all.live e he column hv).2
  · obtain ⟨p, hp, rfl⟩ := List.mem_map.mp hcell
    exact hw.cells _ _ (get?_of_mem h.cells hp)

end

def tablewise (P W : OpId → Prop) : Tablewise where
  table := KnownTo P W
  rowMove := PendingTableMove.Names P W
  columnMove := PendingTableMove.Names P W
  aligns a := P a.columnId.op
  rowMoves h := h.rowMoves
  columnMoves h := h.columnMoves
  alignments h := h.alignments
  waitRows h hl := { h with rowMoves := hl }
  waitColumns h hl := { h with columnMoves := hl }
  waitAlignments h hl := { h with alignments := hl }
  loseRow {t m row} h hm hl he := by
    have hlog : P row.id.op := hl ▸ hm.logicalId
    exact h.withRows (h.rows.lose hm.id hm.after hlog he)
  takeRow {t m row} h hm hrow := by
    obtain ⟨e, he, hv, helem, -⟩ := h.rows.found hrow
    rw [show row.elemId = e.id from helem]
    exact h.withRows (h.rows.move he hv hm.id hm.after rfl rfl)
  loseColumn {t m column} h hm hl he _ := by
    have hlog : P column.id.op := hl ▸ hm.logicalId
    exact h.withColumns (h.columns.lose hm.id hm.after hlog he)
  takeColumn {t m column} h hm hcol := by
    obtain ⟨e, he, hv, helem, -⟩ := h.columns.found hcol
    rw [show column.elemId = e.id from helem]
    exact h.withColumns (h.columns.move he hv hm.id hm.after rfl rfl)
  align h ha := h.setColumnAlignmentObserved ha _ _

end Table.KnownTo
/-! ## Documents -/

/-- Tables whose ids are in `P` and whose elements are in `W`; nothing is asked of the rest. -/
def tableRules (P W : OpId → Prop) : Rules where
  owns _ _ := True
  places _ _ := True
  wrote _ := True
  text _ := True
  table := Table.KnownTo P W

theorem tableRules_le (hP : ∀ x, P x → P' x) (hW : ∀ x, W x → W' x) :
    (tableRules P W).Le (tableRules P' W') :=
  ⟨fun _ _ h => h, fun _ _ h => h, fun _ h => h, fun _ h => h, fun _ ht => ht.mono hP hW⟩

section
variable [Segmentation] {P P' W : OpId → Prop}

/-- What an operation can bring into a table is in `P`. -/
def DocOp.Names (P : OpId → Prop) : DocOp → Prop
  | .insertBlock _ _ id _ block => ∃ peer hi, id.peer = peer ∧ kindPeersOk peer block.kind = true ∧
      maxCounterInKind id block.kind ≤ hi ∧ ∀ x, OwnUpTo peer hi x → P x
  | .insertTableRow _ _ after id _ _ | .insertTableColumn _ _ after id _ _ _ =>
    P id ∧ ∀ x, after = some x → P x
  | .deleteTableRow _ _ target _ | .deleteTableRowById _ _ target _ _
  | .deleteTableColumnById _ _ target _ _ => P target
  | .setTableColumnAlignment _ _ columnId _ _ _ => P columnId.op
  | .moveTableRow _ _ logicalId target id after _ _
  | .moveTableColumn _ _ logicalId target id after _ _ =>
    P logicalId.op ∧ P target ∧ P id ∧ ∀ x, after = some x → P x
  | _ => True

theorem DocOp.Names.mono {op : DocOp} (h : op.Names P) (hP : ∀ x, P x → P' x) : op.Names P' := by
  cases op with
  | insertBlock =>
    obtain ⟨peer, hi, h1, h2, h3, h4⟩ := h
    exact ⟨peer, hi, h1, h2, h3, fun x hx => hP x (h4 x hx)⟩
  | insertTableRow | insertTableColumn => exact ⟨hP _ h.1, fun x hx => hP x (h.2 x hx)⟩
  | deleteTableRow | deleteTableRowById | deleteTableColumnById | setTableColumnAlignment =>
    exact hP _ h
  | moveTableRow | moveTableColumn =>
    exact ⟨hP _ h.1, hP _ h.2.1, hP _ h.2.2.1, fun x hx => hP x (h.2.2.2 x hx)⟩
  | _ => trivial

variable [Serde] {s : Session} {op : DocOp}

/-- A session takes the ids for table operations from its document, or makes them. -/
theorem Session.Creates.names (hc : s.Creates op) (hdoc : (tableRules P W).Blocks s.document.blocks)
    (hown : ∀ x, OwnUpTo s.peer (opId op).counter x → P x) : op.Names P := by
  have htable : ∀ {tableId : BlockId} {block : Block} {table : Table},
      s.document.findBlockById tableId = some block → block.kind = .table table →
      table.KnownTo P W :=
    fun hb hk => (Document.findBlockById_stands hdoc hb).1.kind.tableOf hk
  cases hc with
  | insertBlock hc ha hk hv hp hu => exact ⟨s.peer, _, rfl, hp, le_rfl, hown⟩
  | insertTableColumn alignment header hb hk ha =>
    have ht := htable hb hk
    have hanch := anchored_of_anchorIn ht.columns.ordered.toIndexed ha
    exact ⟨hown _ ⟨rfl, le_rfl⟩, fun x hx => ht.columns.mem (hanch x hx)⟩
  | insertTableRow hb hk ha hn =>
    have ht := htable hb hk
    have hanch := anchored_of_anchorIn ht.rows.ordered.toIndexed ha
    exact ⟨hown _ ⟨rfl, le_rfl⟩, fun x hx => ht.rows.mem (hanch x hx)⟩
  | deleteTableRow hb hk hr =>
    have ht := htable hb hk
    obtain ⟨e, he, -⟩ := bind_eq_some_iff.mp hr
    exact ht.rows.mem (Sequence.mem_elementIds.mpr
      ⟨e, (Sequence.getElement_eq_some ht.rows.ordered.toIndexed).mp he⟩)
  | setTableColumnAlignment alignment hb hk hcol =>
    obtain ⟨e, -, -, -, hlog, -⟩ := (htable hb hk).columns.found hcol
    exact (columnById_spec hcol).2 ▸ hlog
  | deleteTableColumn hb hk hcol =>
    obtain ⟨e, -, -, -, -, hP, -⟩ := (htable hb hk).columns.found hcol
    exact hP
  | moveTableColumn hb hk hcol ha hne =>
    have ht := htable hb hk
    obtain ⟨e, -, -, -, hlog, hP, -⟩ := ht.columns.found hcol
    have hanch := anchored_of_anchorIn ht.columns.ordered.toIndexed ha
    exact ⟨(columnById_spec hcol).2 ▸ hlog, hP, hown _ ⟨rfl, le_rfl⟩,
      fun x hx => ht.columns.mem (hanch x hx)⟩
  | moveTableRow hb hk hr ha hne =>
    have ht := htable hb hk
    obtain ⟨e, -, -, -, hlog, hP, -⟩ := ht.rows.found hr
    have hanch := anchored_of_anchorIn ht.rows.ordered.toIndexed ha
    exact ⟨(rowById_spec hr).2 ▸ hlog, hP, hown _ ⟨rfl, le_rfl⟩,
      fun x hx => ht.rows.mem (hanch x hx)⟩
  | _ => trivial

/-- A created operation keeps the tables in order. -/
theorem Session.Creates.fits_tableRules (hc : s.Creates op) (hn : op.Names P) :
    op.Fits (tableRules P (Wrote l)) (tableRules P (Wrote (l ++ [op]))) := by
  have hmem : op ∈ l ++ [op] := by simp
  have hle : ∀ t : Table, t.KnownTo P (Wrote l) → t.KnownTo P (Wrote (l ++ [op])) := fun t ht =>
    ht.mono (fun _ hx => hx) (fun x hx => hx.mono (fun o ho => mem_append_left _ ho))
  let T := Table.KnownTo.tablewise P (Wrote (l ++ [op]))
  cases hc with
  | insertBlock =>
    obtain ⟨peer, hi, rfl, hp, hm, hown⟩ := hn
    refine ⟨trivial, trivial, Rules.Admits.kindFits ⟨fun _ _ => trivial, fun _ _ => trivial,
      fun _ _ => trivial, fun _ _ _ _ => trivial, fun elem he => ?_⟩ rfl _ (fun _ h => h) hp hm⟩
    exact Table.KnownTo.new (hown elem he) elem
  | insertTableRow =>
    exact fun t ht => T.applyInsertRow (fun _ _ _ _ h => h.setCellObserved _ _ _ _ _)
      ((hle t ht).withRows ((hle t ht).rows.add ⟨hn.1, wrote_self hmem rfl⟩ hn.2 rfl rfl))
  | insertTableColumn =>
    exact fun t ht => T.applyInsertColumn (fun _ _ _ _ h => h.setCellObserved _ _ _ _ _)
      ((hle t ht).withColumns ((hle t ht).columns.add ⟨hn.1, wrote_self hmem rfl⟩ hn.2 rfl rfl))
  | setTableCell => exact fun t ht => (hle t ht).setCellObserved _ _ _ _ _
  | deleteTableRow => exact fun t ht => (hle t ht).removeRowById hn _ _
  | deleteTableColumn => exact fun t ht => (hle t ht).removeColumnById hn _ _
  | setTableColumnAlignment => exact fun t ht => (hle t ht).setColumnAlignmentObserved hn _ _
  | @moveTableRow tableId rowId after block table row =>
    exact fun t ht => T.moveRow (m := ⟨rowId, row.elemId, s.peekNextId, after, _, _⟩) (hle t ht)
      ⟨hn.1, hn.2.1, ⟨hn.2.2.1, wrote_self hmem rfl⟩, hn.2.2.2⟩
  | @moveTableColumn tableId columnId after block table column =>
    exact fun t ht => T.moveColumn
      (m := ⟨columnId, column.elemId, s.peekNextId, after, _, _⟩) (hle t ht)
      ⟨hn.1, hn.2.1, ⟨hn.2.2.1, wrote_self hmem rfl⟩, hn.2.2.2⟩
  | insertText | deleteText | mergeBlocks => exact fun _ _ => trivial
  | splitBlock => exact ⟨trivial, trivial, trivial, fun _ _ => trivial⟩
  | moveBlocks => exact fun _ _ => ⟨trivial, trivial⟩
  | insertListItem | moveListItem => exact ⟨trivial, trivial⟩
  | _ => exact trivial

/-! ## Runs -/

theorem foldl_tableRules (h : ∀ op ∈ l, op.Names P ∧ ∃ s : Session, s.Creates op) :
    (tableRules P (Wrote l)).Blocks (l.foldl applyDocOp .new).blocks := by
  induction l using List.reverseRecOn with
  | nil => exact Rules.blocks_new
  | append_singleton l op ih =>
    obtain ⟨hn, s, hc⟩ := h op (by simp)
    rw [foldl_append]
    refine applyDocOp_keeps (ih (fun o ho => h o (mem_append_left _ ho)))
      (tableRules_le (fun _ hx => hx) (fun x hx => ?_)) (hc.fits_tableRules hn)
    exact hx.mono (fun o ho => mem_append_left _ ho)

namespace Run
variable [LimitedSerde] {w : World} {created : List DocOp}

omit [LimitedSerde] in
/-- The tables of a session, if its operations mention created ids only. -/
theorem tables_of (h : Run w created) (hn : ∀ op ∈ created, op.Names P)
    (ht : (w p).Tracks created todo applied) :
    (tableRules P (Wrote applied)).Blocks (w p).document.blocks := by
  rw [ht.document]
  refine foldl_tableRules (fun op hop => ⟨hn op (ht.mem_created op hop), ?_⟩)
  obtain ⟨w₀, -, q, -, hc, -⟩ := h.origin (ht.mem_created op hop)
  exact ⟨w₀ q, hc⟩

/-- In a run, table operations mention ids that have been created. -/
theorem names (h : Run w created) : ∀ op ∈ created, op.Names (Wrote created) := by
  induction h with
  | start => simp
  | @edit w created p op s' h hc hn hs ih =>
    have hmono : ∀ x, Wrote created x → Wrote (op :: created) x :=
      fun x hx => hx.mono (fun o ho => mem_cons_of_mem _ ho)
    intro o ho
    rcases mem_cons.mp ho with rfl | ho
    · obtain ⟨applied, ht⟩ := h.sessions.2 p
      have hdoc := (h.tables_of ih ht).mono (tableRules_le hmono (fun _ hx => hx))
      exact hc.names hdoc (fun x hx => ⟨o, mem_cons_self, hx.1.trans hc.counters.peer.symm, hx.2⟩)
    · exact (ih o ho).mono hmono
  | receive p message limits h hm ih => exact ih

/-- The next id of a session has not been created. -/
theorem not_wrote_peekNextId (h : Run w created) (p) : ¬Wrote created (w p).peekNextId := by
  rintro ⟨op, hop, hpeer, hle⟩
  have hlt := h.sessions.1.below op hop
  rw [← hpeer] at hlt
  rw [show (w p).peekNextId.peer = p from h.sessions.1.peer p] at hlt
  exact absurd (hle.trans_lt hlt) (lt_irrefl _)

end Run

/-- The session has come about in a run. -/
def Session.Reached (s : Session) : Prop := ∃ w created p, Run w created ∧ w p = s

/-- What a session knows about a table it holds. -/
theorem Session.Reached.table [LimitedSerde] (h : s.Reached)
    (hb : s.document.findBlockById tableId = some b) (hk : b.kind = .table t) :
    (∃ path, s.document.Holds path b) ∧ b.id = tableId ∧ t.WellFormed ∧ Knows t s := by
  obtain ⟨w, created, p, hrun, rfl⟩ := h
  obtain ⟨R, hat⟩ := hrun.attributed p
  obtain ⟨path, hh, hid, -⟩ := hat.holds hb
  obtain ⟨applied, ht⟩ := hrun.sessions.2 p
  have htable : t.KnownTo (Wrote created) (Wrote applied) :=
    (Document.findBlockById_stands (hrun.tables_of hrun.names ht) hb).1.kind.tableOf hk
  have hwritten : t.WrittenBy (Wrote applied) :=
    (Document.findBlockById_stands (ht.writerRules hrun) hb).1.kind.tableOf hk
  exact ⟨⟨path, hh⟩, hid, htable.wellFormed, htable.fresh (hrun.not_wrote_peekNextId p),
    fun x hx => ht.covers (htable.writers hwritten x hx)⟩

/-- In every run no two rows of a table have one id, and no two columns, whoever inserted and moved
    them. -/
theorem Session.Reached.table_ids_unique [LimitedSerde] (h : s.Reached) {tableId b t}
    (hb : s.document.findBlockById tableId = some b) (hk : b.kind = .table t) :
    (t.rows.iter.map TableRow.id).Nodup ∧ (t.columns.iter.map TableColumn.id).Nodup := by
  obtain ⟨-, -, hw, -⟩ := h.table hb hk
  exact ⟨hw.rows.nodup, hw.columns.nodup⟩

/-- In every run the two names of a block, its id and its element id, lead to the same block, and
    the session has seen the operation that last wrote it. -/
theorem Session.Reached.names_agree [LimitedSerde] (h : s.Reached) {id b}
    (hb : s.document.findBlockById id = some b) : b.id = id ∧
      s.document.findBlock b.elemId = some b ∧ s.stateVector.covers b.kindOp := by
  obtain ⟨w, created, p, hrun, rfl⟩ := h
  obtain ⟨R, hat⟩ := hrun.attributed p
  obtain ⟨path, hh, hid, hs⟩ := hat.holds hb
  exact ⟨hid, hh.findBlock, hat.covered _ hs.wrote⟩

/-- Concurrent table edits: sessions of different peers, each reached in some run, edit the same
    base table, and none has seen another's edit. In whatever order the edits are applied to a
    document with that table, the table reads the same. -/
theorem table_edits_converge [LimitedSerde] (h : s.Reached) {tableId : BlockId} {b : Block}
    {t : Table} (hb : s.document.findBlockById tableId = some b) (hk : b.kind = .table t)
    {edits : List (Session × DocOp)} (hreached : ∀ e ∈ edits, e.1.Reached)
    (hm : MadeOn t tableId edits) : ∃ view, ∀ order : List DocOp, order.Perm (edits.map Prod.snd) →
      (order.foldl applyDocOp s.document).tableView tableId = some view := by
  obtain ⟨⟨path, hh⟩, rfl, hw, -⟩ := h.table hb hk
  refine hm.converges hh hk hw (fun e he => ?_)
  obtain ⟨block, hblock, hkind⟩ := hm.base e he
  exact ((hreached e he).table hblock hkind).2.2.2

end
/-! ## Two edits of one table -/

section Examples
attribute [local instance] charSegmentation envelopeSerde

/-- A table with a column and two rows. -/
def gridCalls : List Call :=
  [.insertTableIn none none [⟨.left⟩] ["h"], .insertTableRow ⟨1, 1⟩ none ["a"],
   .insertTableRow ⟨1, 1⟩ (some ⟨3, 1⟩) ["b"]]

theorem gridCalls_plain : ∀ c ∈ gridCalls, Plain c := by
  simp [gridCalls, Plain]

/-- Peer 1 makes the table. -/
def gridAuthor : Session := gridCalls.foldl after (Session.new 1)

def gridMessage : ChangeMessage Envelope :=
  ⟨.new, (gridAuthor.sync.ops.entries.filter (fun e =>
    StateVector.new.seen e.1.peer < e.1.counter)).map (fun e => ⟨e.1, e.2⟩)⟩

/-- Peer 2 takes it in. -/
def gridReader : Session := ((Session.new 2).applyRemote gridMessage .default).1

theorem gridAuthor_reached : gridAuthor.Reached := by
  obtain ⟨w, created, hrun, hw⟩ := Run.calls 1 gridCalls_plain
  exact ⟨w, created, 1, hrun, hw⟩

theorem gridReader_reached : gridReader.Reached := by
  have := envelopeSerde_lawful
  obtain ⟨created, hrun⟩ := Run.local_edits 1 (makes_calls gridCalls_plain (Session.new 1))
  have hsent : gridAuthor.encodeChangesSince .new = .ok gridMessage := by
    rw [encodeChangesSince, SyncState.encodeChangesSince, if_neg (by decide +kernel)]
    rfl
  have hauthor : Function.update Session.new 1 gridAuthor 1 = gridAuthor :=
    Function.update_self ..
  have hsync := hrun.sync 2 1 ((congrArg (fun s : Session => s.encodeChangesSince
    .new) hauthor).trans hsent) .default
  exact ⟨_, _, 2, hsync, by rw [Function.update_self, Function.update_of_ne (by decide)]; rfl⟩

/-- Peer 1 moves the first row to the end. -/
def gridMove : DocOp :=
  .moveTableRow ⟨1, 1⟩ ⟨1, 1⟩ ⟨1, 3⟩ ⟨3, 1⟩ ⟨5, 1⟩ (some ⟨4, 1⟩) none gridAuthor.stateVector

/-- Peer 2 writes into its cell. -/
def gridCell : DocOp :=
  .setTableCell ⟨1, 1⟩ ⟨1, 1⟩ ⟨1, 3⟩ ⟨1, 2⟩ ⟨1, 2⟩ "c" gridReader.stateVector

/-- The table of a session. -/
def gridOf (s : Session) : Option Table := (s.document.findBlockById ⟨1, 1⟩).bind Block.table?

def grid : Table := (gridOf gridAuthor).get (by decide +kernel)

theorem gridOf_author : gridOf gridAuthor = some grid := (Option.some_get _).symm

theorem gridOf_reader : gridOf gridReader = some grid := by decide +kernel

/-- The block that holds it. -/
theorem block_of_gridOf (h : gridOf s = some t)
    (he : (s.document.findBlockById ⟨1, 1⟩).map Block.elemId = some ⟨1, 1⟩) :
    ∃ b, s.document.findBlockById ⟨1, 1⟩ = some b ∧ b.kind = .table t ∧ b.elemId = ⟨1, 1⟩ := by
  obtain ⟨b, hb, ht⟩ := bind_eq_some_iff.mp h
  refine ⟨b, hb, ?_, by simpa [hb] using he⟩
  simp only [Block.table?] at ht
  split at ht
  · next hk => exact some.inj ht ▸ hk
  · cases ht

theorem gridAuthor_block : ∃ b, gridAuthor.document.findBlockById ⟨1, 1⟩ = some b ∧
    b.kind = .table grid ∧ b.elemId = ⟨1, 1⟩ :=
  block_of_gridOf gridOf_author (by decide +kernel)

theorem gridReader_block : ∃ b, gridReader.document.findBlockById ⟨1, 1⟩ = some b ∧
    b.kind = .table grid ∧ b.elemId = ⟨1, 1⟩ :=
  block_of_gridOf gridOf_reader (by decide +kernel)

theorem gridMove_created : gridAuthor.Creates gridMove := by
  obtain ⟨b, hb, hk, he⟩ := gridAuthor_block
  have hrow : (grid.rowById ⟨1, 3⟩).map TableRow.elemId = some ⟨3, 1⟩ := by decide +kernel
  obtain ⟨row, hrow, helem⟩ := map_eq_some_iff.mp hrow
  have hanchor : AnchorIn grid.rows (some ⟨4, 1⟩) := by
    simp only [AnchorIn, some.injEq, forall_eq']
    decide +kernel
  have hright : grid.rows.computeRightOrigin (some ⟨4, 1⟩) = none := by decide +kernel
  have hid : gridAuthor.peekNextId = ⟨5, 1⟩ := by decide +kernel
  have h := Creates.moveTableRow hb hk hrow hanchor (by rw [helem]; decide)
  rwa [he, helem, hright, hid] at h

theorem gridCell_created : gridReader.Creates gridCell := by
  obtain ⟨b, hb, hk, he⟩ := gridReader_block
  have hcolumn : (grid.columnById ⟨1, 2⟩).isSome := by decide +kernel
  obtain ⟨column, hcolumn⟩ := isSome_iff_exists.mp hcolumn
  have hid : gridReader.peekNextId = ⟨1, 2⟩ := by decide +kernel
  have h := Creates.setTableCell "c" hb hk (.inr (by decide +kernel : (grid.rowById ⟨1, 3⟩).isSome))
    hcolumn
  rwa [he, hid] at h

/-- A moved row and a cell of it, by two peers, in both orders. -/
theorem grid_edits_converge : ∃ view,
    ([gridMove, gridCell].foldl applyDocOp gridAuthor.document).tableView ⟨1, 1⟩ = some view ∧
    ([gridCell, gridMove].foldl applyDocOp gridAuthor.document).tableView ⟨1, 1⟩ = some view := by
  have := envelopeSerde_lawful
  obtain ⟨b, hb, hk, -⟩ := gridAuthor_block
  obtain ⟨b', hb', hk', -⟩ := gridReader_block
  have hmade : MadeOn grid ⟨1, 1⟩ [(gridAuthor, gridMove), (gridReader, gridCell)] := by
    refine ⟨?_, ?_, ?_, by decide +kernel, ?_⟩ <;> simp only [forall_mem_cons]
    · exact ⟨⟨b, hb, hk⟩, ⟨b', hb', hk'⟩, by simp⟩
    · exact ⟨gridMove_created, gridCell_created, by simp⟩
    · exact ⟨⟨_, rfl⟩, ⟨_, rfl⟩, by simp⟩
    · exact ⟨⟨by decide +kernel, by decide +kernel, by simp⟩,
        ⟨by decide +kernel, by decide +kernel, by simp⟩, by simp⟩
  have hreached : ∀ e ∈ [(gridAuthor, gridMove), (gridReader, gridCell)], e.1.Reached := by
    simp only [forall_mem_cons]
    exact ⟨gridAuthor_reached, gridReader_reached, by simp⟩
  obtain ⟨view, hview⟩ := table_edits_converge gridAuthor_reached hb hk hreached hmade
  exact ⟨view, hview _ (.refl _), hview _ (.swap ..)⟩

/-- At the peer that has not made the table. -/
theorem grid_ids_unique : gridOf gridReader = some grid ∧ (grid.rows.iter.map TableRow.id).Nodup ∧
    (grid.columns.iter.map TableColumn.id).Nodup := by
  have := envelopeSerde_lawful
  obtain ⟨b, hb, hk, -⟩ := gridReader_block
  exact ⟨gridOf_reader, gridReader_reached.table_ids_unique hb hk⟩

theorem grid_names_agree : ∃ b, gridReader.document.findBlockById ⟨1, 1⟩ = some b ∧
    gridReader.document.findBlock b.elemId = some b := by
  have := envelopeSerde_lawful
  obtain ⟨b, hb, -, -⟩ := gridReader_block
  exact ⟨b, hb, (gridReader_reached.names_agree hb).2.1⟩

end Examples
end MdCrdt
