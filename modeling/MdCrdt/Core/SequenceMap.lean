import MdCrdt.Core.Convergence

/- Sequences do not look at their values.

  `Sequence.map g` changes every value by `g`, of elements and of the inserts that
  wait. Every operation commutes with it (`map_apply`), so what is known of the
  delivered operations of a sequence (`Delivered`) can be stated on the part of the
  values that edits in place leave alone. -/
namespace MdCrdt
open Lib List SortedMap

variable {T U : Type}

def Element.map (g : T → U) (e : Element T) : Element U :=
  ⟨e.id, e.value.map g, e.after, e.rightOrigin⟩

def SequenceOp.map (g : T → U) : SequenceOp T → SequenceOp U
  | .insert after id value ro => .insert after id (g value) ro
  | .delete target id => .delete target id

namespace Sequence

theorem keepsPlace_map (g : T → U) : KeepsPlace (Element.map g) :=
  ⟨fun _ => rfl, fun _ => rfl, fun _ => rfl⟩

def map (g : T → U) (s : Sequence T) : Sequence U where
  elements := s.elements.map (Element.map g)
  index := s.index
  pendingInserts := s.pendingInserts.mapVal (List.map (SequenceOp.map g))
  pendingDeletes := s.pendingDeletes.mapVal (List.map (SequenceOp.map g))

variable (g : T → U) (s : Sequence T)

@[simp] theorem elements_map : (s.map g).elements = s.elements.map (Element.map g) := rfl

@[simp] theorem index_map : (s.map g).index = s.index := rfl

theorem rebuildIndex_map (l) : rebuildIndex (l.map (Element.map g)) = rebuildIndex l :=
  rebuildIndex_congr ((keepsPlace_map g).map_ids l)

theorem map_rebuildOrder : s.rebuildOrder.map g = (s.map g).rebuildOrder := by
  simp only [rebuildOrder, map, orderElements_map (keepsPlace_map g), rebuildIndex_map]

theorem map_applyInsertInternal (after id value ro rebuild) : (s.map g).applyInsertInternal after id
    (g value) ro rebuild = ((s.applyInsertInternal after id value ro rebuild).1.map g,
        (s.applyInsertInternal after id value ro rebuild).2) := by
  have hindex : (s.map g).index = s.index := rfl
  unfold applyInsertInternal
  by_cases h1 : s.index.contains id = true
  · simp only [hindex, h1, if_true]
  · by_cases h2 : after.any (fun anchor => !s.index.contains anchor) = true
    · simp only [hindex, h1, h2, if_true, Bool.false_eq_true, if_false]
    · cases rebuild with
      | true =>
        simp only [hindex, h1, h2, if_true, Bool.false_eq_true, if_false, map_rebuildOrder]
        simp [map, Element.map]
      | false =>
        simp only [hindex, h1, h2, Bool.false_eq_true, if_false]
        simp [map, Element.map]

theorem map_modify (l : List (Element T)) (i) (h : ∀ e, (f e).map g = k (e.map g)) :
    (l.modify i f).map (Element.map g) = (l.map (Element.map g)).modify i k := by
  apply ext_getElem?
  intro j
  simp only [getElem?_map, getElem?_modify]
  cases l[j]? with
  | none => rfl
  | some e => by_cases hij : i = j <;> simp [hij, h]

theorem map_applyDelete (target) : (s.map g).applyDelete target =
    ((s.applyDelete target).1.map g, (s.applyDelete target).2) := by
  simp only [applyDelete, index_map]
  cases s.index.get? target with
  | none => rfl
  | some i =>
    simp only [map]
    rw [map_modify g s.elements i (k := fun e => { e with value := none }) (fun e => rfl)]

theorem map_pushPending (m : SortedMap OpId (List (SequenceOp T))) (key op) :
    (pushPending m key op).mapVal (List.map (SequenceOp.map g)) =
      pushPending (m.mapVal (List.map (SequenceOp.map g))) key (op.map g) := by
  simp only [pushPending, mapVal_insert, get?_mapVal]
  cases m.get? key <;> simp

theorem map_bufferInsert (after id value ro) :
    (s.map g).bufferInsert after id (g value) ro = (s.bufferInsert after id value ro).map g := by
  cases after with
  | none => rfl
  | some a => simp only [bufferInsert, map, map_pushPending]; rfl

theorem map_bufferDelete (target id) :
    (s.map g).bufferDelete target id = (s.bufferDelete target id).map g := by
  simp only [bufferDelete, map, map_pushPending]
  rfl

theorem map_enqueuePending (id queue) : (s.map g).enqueuePending id (queue.map (SequenceOp.map g)) =
      ((s.enqueuePending id queue).1.map g,
        (s.enqueuePending id queue).2.map (SequenceOp.map g)) := by
  simp only [enqueuePending, map, get?_mapVal, mapVal_erase]
  cases s.pendingInserts.get? id <;> cases s.pendingDeletes.get? id <;> simp

theorem pendingCount_map : (s.map g).pendingCount = s.pendingCount := by
  simp only [pendingCount, map, total_mapVal]
  congr 2 <;> funext l <;> simp

theorem map_drainStep (queue op) : (s.map g).drainStep (queue.map (SequenceOp.map g)) (op.map g) =
      ((s.drainStep queue op).1.map g, (s.drainStep queue op).2.1.map (SequenceOp.map g),
        (s.drainStep queue op).2.2) := by
  cases op with
  | insert after id value ro =>
    simp only [SequenceOp.map, drainStep, map_applyInsertInternal]
    cases hr : s.applyInsertInternal after id value ro false with
    | mk s' ok =>
      cases ok with
      | true => simp only [map_enqueuePending]
      | false => simp only [map_bufferInsert]
  | delete target id =>
    simp only [SequenceOp.map, drainStep, map_applyDelete]
    cases hr : s.applyDelete target with
    | mk s' ok =>
      cases ok with
      | true => rfl
      | false => simp only [map_bufferDelete]

theorem map_drainQueue (n queue inserted) :
    drainQueue n (s.map g) (queue.map (SequenceOp.map g)) inserted =
      ((drainQueue n s queue inserted).1.map g, (drainQueue n s queue inserted).2) := by
  induction n generalizing s queue inserted with
  | zero => rfl
  | succ n ih =>
    cases queue with
    | nil => rfl
    | cons op queue =>
      simp only [map_cons, drainQueue, map_drainStep]
      exact ih _ _ _

theorem map_processPending (id) : (s.map g).processPending id = (s.processPending id).map g := by
  have hq := map_enqueuePending g s id []
  have hload : drainLoad ((s.enqueuePending id []).1.map g)
      ((s.enqueuePending id []).2.map (SequenceOp.map g)) =
        drainLoad (s.enqueuePending id []).1 (s.enqueuePending id []).2 := by
    simp only [drainLoad, pendingCount_map, length_map]
  rw [map_nil] at hq
  simp only [processPending, hq, hload, map_drainQueue]
  split
  · rw [map_rebuildOrder]
  · rfl

theorem map_apply (op) : (s.map g).apply (op.map g) = (s.apply op).map g := by
  cases op with
  | insert after id value ro =>
    simp only [SequenceOp.map, apply, applyNow, applyInsert, map_applyInsertInternal]
    cases hr : s.applyInsertInternal after id value ro true with
    | mk s' ok =>
      cases ok with
      | true => simp only [map_processPending]
      | false => simp only [map_bufferInsert]
  | delete target id =>
    simp only [SequenceOp.map, apply, applyNow, map_applyDelete]
    cases hr : s.applyDelete target with
    | mk s' ok =>
      cases ok with
      | true => rfl
      | false => simp only [map_bufferDelete]

theorem map_applyAll (ops) :
    (s.map g).applyAll (ops.map (SequenceOp.map g)) = (s.applyAll ops).map g := by
  induction ops generalizing s with
  | nil => rfl
  | cons op ops ih =>
    simp only [applyAll, map_cons, foldl_cons, map_apply]
    exact ih _

end Sequence
end MdCrdt
