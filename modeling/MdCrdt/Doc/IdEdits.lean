import MdCrdt.Doc.Ids

/- What the edits of a document do to the ids inside it.

  Every edit keeps a property of ids that the document has and that what it is
  given has: clones of blocks and items, tombstones of lost moves and moves taken
  from a waiting list bring nothing in that was not inside or given. -/
namespace MdCrdt
open Lib List Option SortedMap
variable {P : OpId → Prop}

/-! ## Marks and tables -/

namespace MarkSet

theorem ids_setMark (m : MarkSet) (kind start stop)
    (attrs : SortedMap String MarkValue) (opId) (h : ∀ x ∈ m.ids, P x) (hid : P intervalId) :
    ∀ x ∈ (m.setMark intervalId kind start stop attrs opId).ids, P x := by
  have hentry : P ((m.intervals.get? intervalId).getD
      ⟨intervalId, kind, start, stop, .empty, opId⟩).id := by
    cases hg : m.intervals.get? intervalId with
    | none => exact hid
    | some e => exact h _ (mem_map_of_mem (mem_map_of_mem (get?_mem hg)))
  intro x hx
  obtain ⟨interval, hi, rfl⟩ := mem_map.mp hx
  obtain ⟨e, he, rfl⟩ := mem_map.mp hi
  rcases mem_insertList he with rfl | he
  · simp only
    split <;> exact hentry
  · exact h _ (mem_map_of_mem (mem_map_of_mem he))

theorem ids_removeMark (m : MarkSet) (intervalId observed opId) :
    (m.removeMark intervalId observed opId).ids = m.ids := by
  unfold removeMark
  split <;> rfl

theorem mem_mergeNewest {V : Type} {opId} {m other : SortedMap OpId V} {v}
    (h : v ∈ (mergeNewest opId m other).values) : v ∈ m.values ∨ v ∈ other.values := by
  have key : ∀ (l : List (OpId × V)) (acc : SortedMap OpId V),
      v ∈ (l.foldl (fun acc e => if (acc.get? e.1).any (fun existing => opId e.2 ≤ opId existing)
        then acc else acc.insert e.1 e.2) acc).values → v ∈ acc.values ∨ v ∈ l.map Prod.snd := by
    intro l
    induction l with
    | nil => exact fun _ h => .inl h
    | cons e l ih =>
      intro acc h
      rcases ih _ h with h | h
      · dsimp only at h
        split at h
        · exact .inl h
        · obtain ⟨x, hx, rfl⟩ := mem_map.mp h
          rcases mem_insertList hx with rfl | hx
          · exact .inr mem_cons_self
          · exact .inl (mem_map_of_mem hx)
      · exact .inr (mem_cons_of_mem _ h)
  exact key other.entries m h

theorem ids_mergeFrom (m other : MarkSet) (h : ∀ x ∈ m.ids, P x) (ho : ∀ x ∈ other.ids, P x) :
    ∀ x ∈ (m.mergeFrom other).ids, P x := by
  intro x hx
  obtain ⟨interval, hi, rfl⟩ := mem_map.mp hx
  rcases mem_mergeNewest hi with hi | hi
  · exact h _ (mem_map_of_mem hi)
  · exact ho _ (mem_map_of_mem hi)

end MarkSet

namespace Table
variable {id : OpId}

/-- Every id inside a table satisfies `P`. -/
structure Within (P : OpId → Prop) (t : Table) : Prop where
  columns : t.columns.Within (fun _ => []) P
  rows : t.rows.Within (fun _ => []) P
  rowMoves : ∀ m ∈ t.pendingRowMoves, P m.id
  columnMoves : ∀ m ∈ t.pendingColumnMoves, P m.id

theorem within_iff {t : Table} : t.Within P ↔ ∀ x ∈ t.ids, P x := by
  rw [Table.ids, forall_mem_append, forall_mem_append, List.forall_mem_map,
    forall_mem_append, ← Sequence.within_iff, ← Sequence.within_iff]
  exact ⟨fun h => ⟨⟨h.columns, h.rows⟩, h.rowMoves, h.columnMoves⟩,
    fun h => ⟨h.1.1, h.1.2, h.2.1, h.2.2⟩⟩

theorem within_new (id elemId opId) : (Table.new id elemId opId).Within P :=
  ⟨Sequence.within_new, Sequence.within_new, by simp [new], by simp [new]⟩

/-- An insert into a sequence of rows or columns. -/
theorem within_insert {T : Type} {s : Sequence T} (h : s.Within (fun _ => []) P)
    {after} (hid : P id) (v ro) : (s.apply (.insert after id v ro)).Within (fun _ => []) P :=
  h.apply (by simpa [SequenceOp.ids] using hid)

variable {t : Table}

section
variable (h : t.Within P)
variable (columnId : BlockId)
include h

theorem Within.setCellObserved (rowId columnId value opId observed) :
    (t.setCellObserved rowId columnId value opId observed).Within P :=
  { h with }

theorem Within.setColumnAlignmentObserved (alignment opId observed) :
    (t.setColumnAlignmentObserved columnId alignment opId observed).Within P := by
  unfold Table.setColumnAlignmentObserved
  split
  · exact { h with }
  · split
    · exact ⟨h.columns.updateValue _ (by simp), h.rows, h.rowMoves, h.columnMoves⟩
    · exact h

theorem Within.removeRow (target opId) : (t.removeRow target opId).Within P := by
  refine { h with rows := ?_ }
  simp only [Table.removeRow]
  split
  · exact (h.rows.updateValue _ (by simp)).delete _ _
  · exact h.rows.delete _ _

theorem Within.removeColumnById (target opId) :
    (t.removeColumnById columnId target opId).Within P :=
  ⟨h.columns.delete _ _, h.rows, h.rowMoves, h.columnMoves⟩

end

def Within.tablewise (P : OpId → Prop) : Tablewise where
  table := Within P
  rowMove m := P m.id
  columnMove m := P m.id
  aligns _ := True
  rowMoves h := h.rowMoves
  columnMoves h := h.columnMoves
  alignments _ _ _ := trivial
  waitRows h hl := { h with rowMoves := hl }
  waitColumns h hl := { h with columnMoves := hl }
  waitAlignments h _ := { h with }
  loseRow h hm _ _ := { h with rows := (within_insert h.rows hm _ _).delete _ _ }
  takeRow h hm _ := { h with rows := within_insert (h.rows.delete _ _) hm _ _ }
  loseColumn h hm _ _ _ :=
    ⟨(within_insert h.columns hm _ _).delete _ _, h.rows, h.rowMoves, h.columnMoves⟩
  takeColumn h hm _ :=
    ⟨within_insert (h.columns.delete _ _) hm _ _, h.rows, h.rowMoves, h.columnMoves⟩
  align h _ := h.setColumnAlignmentObserved _ _ _ _

end Table

/-! ## Blocks by element id -/

namespace Document
variable {d : Document}

section
variable (h : d.Within P)
include h

/-- An operation on the sequence of a container. The container is inside the document wherever
    the operation has an effect. -/
theorem Within.applyAt (hop : (∀ p, parent = some p → p ∈ d.ids) → ∀ x ∈ op.ids blockIds, P x) :
    (d.applyAt parent op).1.Within P := by
  cases parent with
  | none => exact Sequence.Within.apply h (hop (by simp))
  | some p =>
    simp only [Document.applyAt, withContainerChildrenMut]
    cases hc : (containers d.blocks).find? (fun c => c.1 = p) with
    | none => exact h
    | some c =>
      have hp : c.1 = p := by simpa using find?_some hc
      have hin : p ∈ d.ids := hp ▸ within_containers
        (within_iff.mpr (fun _ hx => hx)) (mem_of_find?_eq_some hc)
      refine within_modifyChildrenAt (fun s hs => hs.apply (hop ?_)) c.2 h
      rintro q ⟨⟩
      exact hin

theorem Within.insertBlockAt (after) {id b}
    (hb : (∀ p, parent = some p → p ∈ d.ids) → P id ∧ BlockWithin P b)
    (ro) : (d.insertBlockAt parent after id b ro).1.Within P :=
  h.applyAt (fun hp => forall_mem_cons.mpr ⟨(hb hp).1, blockWithin_iff.mp (hb hp).2⟩)

theorem Within.deleteBlockAt (parent target id) : (d.deleteBlockAt parent target id).1.Within P :=
  h.applyAt (fun _ => by simp [SequenceOp.ids])

theorem Within.withBlockMut {A : Type} {elem} {f : Block → Block × A}
    (hf : ∀ b, BlockWithin P b → BlockWithin P (f b).1) {d' a}
    (hd : d.withBlockMut elem f = some (d', a)) :
    d'.Within P ∧ ∃ b, BlockWithin P b ∧ d.findBlock elem = some b ∧ a = (f b).2 := by
  unfold Document.withBlockMut at hd
  split at hd
  · next b path hb hp =>
    obtain ⟨rfl, rfl⟩ := Prod.mk.inj (some.inj hd)
    refine ⟨?_, b, (within_findBlock h hb).1, hb, rfl⟩
    exact within_modifyChildrenAt (fun s hs => hs.withBlock _ hf) _ h
  · cases hd

theorem Within.updateBlock {elem} {f : Block → Block}
    (hf : (d.findBlock elem).isSome = true → ∀ b, BlockWithin P b → BlockWithin P (f b)) :
    (d.updateBlock elem f).Within P := by
  unfold Document.updateBlock
  cases hd : d.withBlockMut elem (fun block => (f block, ())) with
  | none => exact h
  | some r =>
    obtain ⟨d', a⟩ := r
    have hb : (d.findBlock elem).isSome = true := by
      unfold Document.withBlockMut at hd
      split at hd
      · next hfind _ => rw [hfind]; rfl
      · cases hd
    exact (h.withBlockMut (hf hb) hd).1

end

theorem textKind_within (h : body.Within (fun _ => []) P) : KindWithin P (textKind kind body) := by
  cases kind with
  | paragraph | heading level => exact (kindWithin_text rfl).mpr h

/-! ## Moving blocks -/

/-- The clones are inside the document, apart from the placeholders under the ids of moves. -/
theorem within_prepareMoves (h : d.Within P) (hm : ∀ m ∈ moves, P m.id)
    (hp : d.prepareMoves toParent moves = some (prepared, loses)) :
    ∀ p ∈ prepared.zip moves, BlockWithin P p.1.1 := by
  intro p hmem
  rcases (forall₂_iff_zip.mp (prepareMoves_eq_some hp)).2 hmem with ⟨heq, -⟩ | ⟨hb, -⟩
  · rw [heq]
    refine ⟨hm _ (of_mem_zip hmem).2, ?_, kindWithin_rawBlock⟩
    simp [lostBlock, MarkSet.ids, MarkSet.new, SortedMap.values, SortedMap.empty]
  · exact within_findBlockById h hb

end Document
end MdCrdt
