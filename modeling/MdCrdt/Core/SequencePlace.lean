import MdCrdt.Core.SequenceSteps

/- Operations that nothing waits for.

  An insert under a new id whose anchor is known, and a delete of a known element,
  leave both buffers alone; what they do is said here on the whole sequence, work
  queue included. -/
namespace MdCrdt
open Lib List

namespace Sequence
variable {T : Type} {s : Sequence T} {id : OpId} {after : Option OpId} {e : Element T}
variable {target : OpId} {v : T}

/-- Nothing waits for the id, and it is not there. -/
structure Unknown (s : Sequence T) (id : OpId) : Prop where
  notMem : id ∉ s.elementIds
  noInsert : s.pendingInserts.get? id = none
  noDelete : s.pendingDeletes.get? id = none

/-- The anchor is there. -/
def Anchored (s : Sequence T) (after : Option OpId) : Prop :=
  ∀ a, after = some a → a ∈ s.elementIds

/-- The same operations wait in both. -/
def SameBuffers (s s' : Sequence T) : Prop :=
  s.pendingInserts = s'.pendingInserts ∧ s.pendingDeletes = s'.pendingDeletes

/-- The sequence with one element more, in rebuilt order. -/
def withElement (s : Sequence T) (e : Element T) : Sequence T :=
  { s with elements := s.elements ++ [e] }.rebuildOrder

/-- The sequence with the element `target` turned into a tombstone. -/
def withTombstone (s : Sequence T) (target : OpId) : Sequence T :=
  { s with elements := updateAt target bury s.elements }

theorem processPending_of_quiet (hi : s.pendingInserts.get? id = none)
    (hd : s.pendingDeletes.get? id = none) : s.processPending id = s := by
  unfold processPending enqueuePending
  simp only [SortedMap.erase_of_get?_none hi, SortedMap.erase_of_get?_none hd, hi, hd,
    Option.getD_none, append_nil]
  cases drainLoad s [] <;> simp [drainQueue]

theorem apply_insert_unknown (h : s.Indexed) (hu : s.Unknown id) (ha : s.Anchored after)
    (value ro) : s.apply (.insert after id value ro) = s.withElement ⟨id, some value, after, ro⟩ := by
  have hin := (applyInsertInternal_fresh h hu.notMem ha value ro).2
  simp only [apply, applyNow, applyInsert, hin]
  exact processPending_of_quiet hu.noInsert hu.noDelete

theorem apply_delete_known (h : s.Indexed) (ht : target ∈ s.elementIds)
    (id) : s.apply (.delete target id) = s.withTombstone target := by
  simp only [apply, applyNow, applyDelete_known h ht]
  rfl

theorem ordered_withTombstone (h : s.Ordered) (target) : (s.withTombstone target).Ordered :=
  h.of_updateAt keepsPlace_bury rfl rfl

theorem ordered_withElement (h : s.Indexed) (hid : e.id ∉ s.elementIds) (ha : s.Anchored e.after) :
    (s.withElement e).Ordered :=
  ordered_rebuildOrder (h.grounded.append hid ha)

theorem withElement_perm (h : s.Indexed) (hid : e.id ∉ s.elementIds) (ha : s.Anchored e.after) :
    (s.withElement e).elements.Perm (s.elements ++ [e]) :=
  orderElements_perm (h.grounded.append hid ha)

@[simp] theorem elementIds_withTombstone (target) :
    (s.withTombstone target).elementIds = s.elementIds :=
  map_id_updateAt keepsPlace_bury s.elements

section
variable (h : s.Indexed)
include h

theorem mem_elementIds_withElement (hid : e.id ∉ s.elementIds) (ha : s.Anchored e.after) :
    x ∈ (s.withElement e).elementIds ↔ x ∈ s.elementIds ∨ x = e.id := by
  have hp : (s.withElement e).elementIds.Perm (s.elementIds ++ [e.id]) := by
    simpa [elementIds] using (withElement_perm h hid ha).map Element.id
  rw [hp.mem_iff]
  simp

/-- An element that is inserted and deleted at once leaves a tombstone, whatever its value. -/
theorem delete_withElement (hid : id ∉ s.elementIds) (ha : s.Anchored after) (value del) :
    (s.withElement ⟨id, some value, after, ro⟩).delete id del =
      s.withElement ⟨id, none, after, ro⟩ := by
  have hord := ordered_withElement (e := ⟨id, some value, after, ro⟩) h hid ha
  have hmem : id ∈ (s.withElement ⟨id, some value, after, ro⟩).elementIds :=
    (mem_elementIds_withElement (e := ⟨id, some value, after, ro⟩) h hid ha).mpr (.inr rfl)
  rw [delete, apply_delete_known hord.toIndexed hmem]
  have hels : updateAt id bury (orderElements (s.elements ++ [⟨id, some value, after, ro⟩])) =
      orderElements (s.elements ++ [⟨id, none, after, ro⟩]) := by
    unfold updateAt
    rw [← orderElements_map (keepsPlace_updateAt keepsPlace_bury), map_append]
    have hrest : s.elements.map (fun e => if e.id = id then bury e else e) = s.elements :=
      updateAt_of_notMem hid bury
    rw [hrest]
    simp [bury]
  have hidx : rebuildIndex (orderElements (s.elements ++ [⟨id, some value, after, ro⟩])) =
      rebuildIndex (orderElements (s.elements ++ [⟨id, none, after, ro⟩])) := by
    rw [← hels]
    exact (rebuildIndex_congr (map_id_updateAt keepsPlace_bury _)).symm
  simp only [withTombstone, withElement, rebuildOrder, hels, hidx]

theorem insert_delete_unknown (hu : s.Unknown id) (ha : s.Anchored after) (value ro del) :
    (s.apply (.insert after id value ro)).delete id del = s.withElement ⟨id, none, after, ro⟩ := by
  rw [apply_insert_unknown h hu ha, delete_withElement h hu.notMem ha]

/-- An element goes, and another comes. -/
theorem delete_insert_unknown (ht : target ∈ s.elementIds)
    (hu : s.Unknown id) (ha : s.Anchored after) (value ro del) :
    (s.delete target del).apply (.insert after id value ro) =
      (s.withTombstone target).withElement ⟨id, some value, after, ro⟩ := by
  have hi : (s.withTombstone target).Indexed := h.of_updateAt keepsPlace_bury rfl rfl
  have hu' : (s.withTombstone target).Unknown id :=
    ⟨by simpa using hu.notMem, hu.noInsert, hu.noDelete⟩
  rw [delete, apply_delete_known h ht, apply_insert_unknown hi hu' (fun a haa => by simpa using ha a haa)]

/-- A value that is replaced just before its element is deleted leaves no trace. -/
theorem updateValue_delete (ht : target ∈ s.elementIds) (v del) :
    (s.updateValue target v).delete target del = s.withTombstone target := by
  have hset := keepsPlace_value (fun _ : Option T => some v)
  have hupd := h.updateValue_eq target v
  have hi : (s.updateValue target v).Indexed := by
    rw [hupd]
    exact h.of_updateAt hset rfl rfl
  have ht' : target ∈ (s.updateValue target v).elementIds := by
    rw [hupd, elementIds, map_id_updateAt hset]
    exact ht
  rw [delete, apply_delete_known hi ht', hupd]
  simp only [withTombstone, updateAt, map_map, Sequence.mk.injEq, and_true]
  refine map_congr_left (fun e _ => ?_)
  by_cases he : e.id = target <;> simp [he, bury]

end

theorem mem_iter_withTombstone (hv : v ∈ (s.withTombstone target).iter) : v ∈ s.iter := by
  obtain ⟨e, he, hval⟩ := mem_filterMap.mp hv
  obtain ⟨a, ha, rfl⟩ := mem_map.mp he
  by_cases hid : a.id = target
  · simp [hid, bury] at hval
  · exact mem_filterMap.mpr ⟨a, ha, by simpa [hid] using hval⟩

section
variable (h : s.Indexed)
include h

theorem mem_iter_withElement (hid : e.id ∉ s.elementIds) (ha : s.Anchored e.after) : v ∈ (s.withElement e).iter ↔ v ∈ s.iter ∨ e.value = some v := by
  have hp := ((withElement_perm h hid ha).filterMap Element.value).mem_iff (a := v)
  rw [filterMap_append, mem_append] at hp
  rw [iter, hp]
  simp [iter]

theorem mem_iter_insert_delete (hu : s.Unknown id) (ha : s.Anchored after)
    (hv : v ∈ ((s.apply (.insert after id value ro)).delete id del).iter) : v ∈ s.iter := by
  rw [insert_delete_unknown h hu ha] at hv
  have := (mem_iter_withElement (e := ⟨id, none, after, ro⟩) h hu.notMem ha).mp hv
  simpa using this

theorem mem_iter_delete_insert (ht : target ∈ s.elementIds)
    (hu : s.Unknown id) (ha : s.Anchored after)
    (hv : v ∈ ((s.delete target del).apply (.insert after id value ro)).iter) :
    v ∈ s.iter ∨ v = value := by
  rw [delete_insert_unknown h ht hu ha] at hv
  have hi : (s.withTombstone target).Indexed := h.of_updateAt keepsPlace_bury rfl rfl
  rcases (mem_iter_withElement (e := ⟨id, some value, after, ro⟩) hi (by simpa using hu.notMem)
    (fun a haa => by simpa using ha a haa)).mp hv with hold | hnew
  · exact .inl (mem_iter_withTombstone hold)
  · exact .inr (Option.some.inj hnew).symm

theorem mem_iter_updateValue (hw : w ∈ (s.updateValue id v).iter) :
    w = v ∨ ∃ e ∈ s.elements, e.id ≠ id ∧ e.value = some w := by
  rw [h.updateValue_eq] at hw; obtain ⟨e, he, hval⟩ := mem_filterMap.mp hw
  obtain ⟨a, ha, rfl⟩ := mem_map.mp he
  by_cases hid : a.id = id
  · exact .inl (by simpa [hid, eq_comm] using hval)
  · exact .inr ⟨a, ha, hid, by simpa [hid] using hval⟩

end

end Sequence
end MdCrdt
