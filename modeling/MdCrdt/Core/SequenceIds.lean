import MdCrdt.Core.Convergence

/- The ids inside a sequence.

  An id is inside a sequence if an element stands under it, tombstones included, if
  an insert waits for its anchor under it, or if it is inside one of the values.
  Whatever the sequence looks like, an operation adds no ids but its own
  (`Within.apply`). A sequence that was built by operations keeps the id of every
  insert it was given, in an element or in a buffer (`Delivered.mem_ids`). -/
namespace MdCrdt
open Lib List Option SortedMap
variable {T : Type}

def Element.ids (within : T → List OpId) (e : Element T) : List OpId :=
  e.id :: (e.value.map within).getD []

def SequenceOp.ids (within : T → List OpId) : SequenceOp T → List OpId
  | .insert _ id value _ => id :: within value
  | .delete _ _ => []

namespace Sequence
variable {v : T} {id : OpId} {after : Option OpId} {ro : Option OpId} {op : SequenceOp T}
variable {e : Element T}

def ids (within : T → List OpId) (s : Sequence T) : List OpId :=
  s.elements.flatMap (Element.ids within) ++ s.pendingOps.flatMap (SequenceOp.ids within)

/-- Every id inside the sequence satisfies `P`. -/
structure Within (within : T → List OpId) (P : OpId → Prop) (s : Sequence T) : Prop where
  elements : ∀ e ∈ s.elements, ∀ x ∈ e.ids within, P x
  parked : ∀ op ∈ s.pendingOps, ∀ x ∈ op.ids within, P x

variable {within : T → List OpId} {P P' : OpId → Prop} {s : Sequence T}

theorem within_iff : s.Within within P ↔ ∀ x ∈ s.ids within, P x := by
  simp only [ids, mem_append, mem_flatMap]
  constructor
  · rintro h x (⟨e, he, hx⟩ | ⟨op, hop, hx⟩)
    · exact h.elements e he x hx
    · exact h.parked op hop x hx
  · intro h
    exact ⟨fun e he x hx => h x (.inl ⟨e, he, hx⟩), fun op hop x hx => h x (.inr ⟨op, hop, hx⟩)⟩

theorem within_new : (new : Sequence T).Within within P :=
  ⟨by simp [new], by simp [new, pendingOps, SortedMap.values, SortedMap.empty]⟩

theorem mem_pendingOps : op ∈ s.pendingOps ↔
    (∃ e ∈ s.pendingInserts.entries, op ∈ e.2) ∨ ∃ e ∈ s.pendingDeletes.entries, op ∈ e.2 := by
  simp only [pendingOps, SortedMap.values, flatten_append, mem_append, mem_flatten,
    List.mem_map, exists_exists_and_eq_and]

/-! ## One step adds nothing -/

/-- A live value and the id it stands under. -/
theorem Within.value (h : s.Within within P) (he : e ∈ s.elements)
    (hv : e.value = some v) : ∀ x ∈ within v, P x :=
  fun x hx => h.elements e he x (by simp [Element.ids, hv, hx])

theorem Within.value? (h : s.Within within P) (hv : s.value? id = some v) :
    ∀ x ∈ within v, P x := by
  obtain ⟨e, he, hev⟩ := bind_eq_some_iff.mp hv
  obtain ⟨i, -, hi⟩ := bind_eq_some_iff.mp he
  exact h.value (mem_of_getElem? hi) hev

theorem mem_orderElements_subset (he : e ∈ orderElements l) : e ∈ l := by
  obtain ⟨k, -, hk⟩ := mem_filterMap.mp he
  rcases mem_foldl_insert (get?_mem hk) with ⟨a, ha, heq⟩ | h
  · exact (Prod.mk.inj heq).2 ▸ ha
  · cases h

section
variable (h : s.Within within P)
include h

theorem Within.rebuildOrder : s.rebuildOrder.Within within P :=
  ⟨fun e he => h.elements e (mem_orderElements_subset he), h.parked⟩

/-- An edit of one element that brings nothing in. -/
theorem Within.modify (hf : ∀ e, (∀ x ∈ e.ids within, P x) → ∀ x ∈ (f e).ids within, P x) :
    Within within P { s with elements := s.elements.modify i f } := by
  refine ⟨fun e he => ?_, h.parked⟩
  obtain ⟨j, hj⟩ := mem_iff_getElem?.mp he
  rw [getElem?_modify] at hj
  cases hs : s.elements[j]? with
  | none => simp [hs] at hj
  | some a =>
    have ha := h.elements a (mem_of_getElem? hs)
    rw [hs] at hj
    obtain rfl := some.inj hj
    split
    · exact hf a ha
    · exact ha

theorem Within.withValue (id) (hf : ∀ v, (∀ x ∈ within v, P x) → ∀ x ∈ within (f v), P x) :
    (s.withValue id f).Within within P := by
  unfold Sequence.withValue
  split
  · refine h.modify (fun e he x hx => ?_)
    rcases mem_cons.mp hx with rfl | hx
    · exact he _ mem_cons_self
    · cases hv : e.value with
      | none => simp [hv] at hx
      | some v => exact hf v (fun y hy => he y (by simp [Element.ids, hv, hy])) x (by simpa [hv] using hx)
  · exact h

theorem Within.updateValue (id) (hv : ∀ x ∈ within v, P x) :
    (s.updateValue id v).Within within P := by
  unfold Sequence.updateValue
  split
  · refine h.modify (fun e he x hx => ?_)
    rcases mem_cons.mp hx with rfl | hx
    · exact he _ mem_cons_self
    · exact hv x (by simpa using hx)
  · exact h

theorem Within.applyDelete (target) : (s.applyDelete target).1.Within within P := by
  unfold Sequence.applyDelete
  split
  · exact h
  · refine h.modify (fun e he x hx => ?_)
    rcases mem_cons.mp hx with rfl | hx
    · exact he _ mem_cons_self
    · simp at hx

theorem Within.applyInsertInternal (hop : ∀ x ∈ (SequenceOp.insert after id v ro).ids within, P x) :
    (s.applyInsertInternal after id v ro rebuild).1.Within within P := by
  have hpush : ∀ index, Within within P
      { s with elements := s.elements ++ [⟨id, some v, after, ro⟩], index := index } := by
    exact fun index => ⟨forall_mem_push h.elements hop, h.parked⟩
  unfold Sequence.applyInsertInternal
  split
  · exact h
  · split
    · exact h
    · cases rebuild with
      | true => exact (hpush s.index).rebuildOrder
      | false => exact hpush _

end

theorem mem_pushPending {m : SortedMap OpId (List (SequenceOp T))}
    (h : ∃ e ∈ (pushPending m key op).entries, o ∈ e.2) : o = op ∨ ∃ e ∈ m.entries, o ∈ e.2 := by
  obtain ⟨e, he, ho⟩ := h
  rcases mem_insertList he with rfl | he
  · rcases mem_append.mp ho with ho | ho
    · cases hm : m.get? key with
      | none => simp [hm] at ho
      | some l => exact .inr ⟨_, get?_mem hm, by simpa [hm] using ho⟩
    · exact .inl (mem_singleton.mp ho)
  · exact .inr ⟨e, he, ho⟩

section
variable (h : s.Within within P)
include h

theorem Within.bufferInsert (hop : ∀ x ∈ (SequenceOp.insert after id v ro).ids within, P x) :
    (s.bufferInsert after id v ro).Within within P := by
  cases after with
  | none => exact h
  | some a =>
    refine ⟨h.elements, fun o ho => ?_⟩
    rcases mem_pendingOps.mp ho with ho | ho
    · rcases mem_pushPending ho with rfl | ho
      · exact hop
      · exact h.parked o (mem_pendingOps.mpr (.inl ho))
    · exact h.parked o (mem_pendingOps.mpr (.inr ho))

theorem Within.bufferDelete (target id) : (s.bufferDelete target id).Within within P := by
  refine ⟨h.elements, fun o ho => ?_⟩
  rcases mem_pendingOps.mp ho with ho | ho
  · exact h.parked o (mem_pendingOps.mpr (.inl ho))
  · rcases mem_pushPending ho with rfl | ho
    · simp [SequenceOp.ids]
    · exact h.parked o (mem_pendingOps.mpr (.inr ho))

theorem Within.enqueue (id) : (s.enqueuePending id []).1.Within within P ∧
      ∀ op ∈ (s.enqueuePending id []).2, ∀ x ∈ op.ids within, P x := by
  have hget : ∀ (m : SortedMap OpId (List (SequenceOp T))) (op : SequenceOp T),
      op ∈ (m.get? id).getD [] → ∃ e ∈ m.entries, op ∈ e.2 := by
    intro m op hop
    cases hm : m.get? id with
    | none => simp [hm] at hop
    | some l => exact ⟨_, get?_mem hm, by simpa [hm] using hop⟩
  have herase : ∀ (m : SortedMap OpId (List (SequenceOp T))) (op : SequenceOp T),
      (∃ e ∈ (m.erase id).entries, op ∈ e.2) → ∃ e ∈ m.entries, op ∈ e.2 := by
    intro m op hop
    obtain ⟨e, he, hop⟩ := hop
    exact ⟨e, (mem_filter.mp he).1, hop⟩
  refine ⟨⟨h.elements, fun op hop => ?_⟩, fun op hop => ?_⟩
  · exact h.parked op (mem_pendingOps.mpr ((mem_pendingOps.mp hop).imp (herase _ _) (herase _ _)))
  · simp only [enqueuePending, nil_append, mem_append] at hop
    exact h.parked op (mem_pendingOps.mpr (hop.imp (hget _ _) (hget _ _)))

end

theorem kept_within : Kept (fun op => ∀ x ∈ op.ids within, P x) (Within within P) where
  insert h hop := h.applyInsertInternal hop
  delete h := h.applyDelete _
  bufferInsert h hop := h.bufferInsert hop
  bufferDelete h := h.bufferDelete _ _
  enqueue _ h := h.enqueue _
  rebuild h := h.rebuildOrder

section
variable (h : s.Within within P)
include h

/-- Any operation on any sequence: nothing but the operation itself brings an id in. -/
theorem Within.apply (hop : ∀ x ∈ op.ids within, P x) :
    (s.apply op).Within within P := kept_within.apply h hop

theorem Within.applyAll
    (hops : ∀ op ∈ ops, ∀ x ∈ op.ids within, P x) : (s.applyAll ops).Within within P :=
  kept_within.applyAll h hops

theorem Within.delete (target id) : (s.delete target id).Within within P :=
  h.apply (by simp [SequenceOp.ids])

end

theorem within_fromOrdered
    (h : ∀ p ∈ items, P p.1 ∧ ∀ x ∈ within p.2, P x) : (fromOrdered items).Within within P := by
  refine ⟨fun e he x hx => ?_, by simp [fromOrdered, pendingOps, SortedMap.values, SortedMap.empty]⟩
  simp only [fromOrdered, List.mem_map] at he
  obtain ⟨p, hp, rfl⟩ := he
  obtain ⟨hid, hv⟩ := h p.1 (fst_mem_of_mem_zipIdx hp)
  rcases mem_cons.mp hx with rfl | hx
  · exact hid
  · exact hv x (by simpa using hx)

/-! ## What has been delivered stays -/

theorem mem_ids_of_element (he : e ∈ s.elements) (hx : x ∈ e.ids within) : x ∈ s.ids within :=
  mem_append_left _ (mem_flatMap.mpr ⟨e, he, hx⟩)

theorem mem_ids_of_parked (h : s.Parked (.insert after id v ro))
    (hx : x ∈ id :: within v) : x ∈ s.ids within := by
  obtain ⟨k, -, hop⟩ := h
  have hpending : SequenceOp.insert after id v ro ∈ s.pendingOps := by
    refine mem_pendingOps.mpr (.inl ?_)
    cases hm : s.pendingInserts.get? k with
    | none => simp [parkedInserts, hm] at hop
    | some l => exact ⟨_, get?_mem hm, by simpa [parkedInserts, hm] using hop⟩
  exact mem_append_right _ (mem_flatMap.mpr ⟨_, hpending, hx⟩)

/-- Every insert has left its id. -/
theorem Delivered.mem_ids (h : Delivered D s)
    (hop : D (.insert after id v ro)) : id ∈ s.ids within := by
  rcases h.covered _ hop with hset | hq | hpark
  · obtain ⟨e, he, rfl⟩ := mem_elementIds.mp hset
    exact mem_ids_of_element he mem_cons_self
  · cases hq
  · exact mem_ids_of_parked hpark mem_cons_self

/-- An insert under an id that has not been heard of brings all of its ids in. -/
theorem Delivered.mem_ids_insert (h : Delivered D s)
    (hins : ∀ a w r, ¬D (.insert a id w r)) (hdel : ∀ d, ¬D (.delete id d)) (after v ro)
    (hx : x ∈ id :: within v) : x ∈ (s.apply (.insert after id v ro)).ids within := by
  have h' := apply_delivered h (.insert after id v ro)
  rcases h'.covered _ (.inl rfl) with hset | hq | hpark
  · obtain ⟨e, he, rfl⟩ := mem_elementIds.mp hset
    -- the element holds the value of this insert: no other one has its id, and no delete
    have hv : e.value = some v := by
      obtain ⟨w, hw, hval⟩ := h'.source e he
      rcases hw with hw | hw
      · injection hw with _ _ hw _
        cases hev : e.value with
        | some u => rw [hval u hev, hw]
        | none =>
          obtain ⟨d, hd | hd⟩ := h'.tombstone e he hev
          · cases hd
          · exact absurd hd (hdel d)
      · exact absurd hw (hins _ _ _)
    exact mem_ids_of_element he (by simpa [Element.ids, hv] using hx)
  · cases hq
  · exact mem_ids_of_parked hpark hx

end Sequence
end MdCrdt
