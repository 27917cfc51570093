import MdCrdt.Core.SequencePlace

/- What holds of every value in a sequence.

  `All P s` asks `P` of every live value and of every value that waits to be
  inserted. Together with `Indexed` it goes through every operation of a sequence,
  whatever the order of delivery: nothing but the operation itself brings a new
  value in. -/
namespace MdCrdt
open Lib List Option SortedMap
variable {T : Type}

/-- The operation brings in nothing that violates `P`. -/
def SequenceOp.Ok (P : OpId → T → Prop) : SequenceOp T → Prop
  | .insert _ id v _ => P id v
  | .delete _ _ => True

namespace Sequence
variable {P Q : OpId → T → Prop} {s : Sequence T}
variable {id : OpId} {v : T} {after : Option OpId} {op : SequenceOp T}

/-- `P` holds of every live value and of all that waits. -/
structure All (P : OpId → T → Prop) (s : Sequence T) : Prop where
  live : ∀ e ∈ s.elements, ∀ v, e.value = some v → P e.id v
  parkedInserts : ∀ k ops, s.pendingInserts.get? k = some ops → ∀ op ∈ ops, op.Ok P
  parkedDeletes : ∀ k ops, s.pendingDeletes.get? k = some ops → ∀ op ∈ ops, op.Ok P

theorem all_new : All P (new : Sequence T) := ⟨by simp [new], by simp [new], by simp [new]⟩

theorem All.mono (h : All P s) (hpq : ∀ id v, P id v → Q id v) : All Q s where
  live e he v hv := hpq _ _ (h.live e he v hv)
  parkedInserts k ops hk op hop := by
    have := h.parkedInserts k ops hk op hop
    cases op with
    | insert a id v ro => exact hpq _ _ this
    | delete t d => trivial
  parkedDeletes k ops hk op hop := by
    have := h.parkedDeletes k ops hk op hop
    cases op with
    | insert a id v ro => exact hpq _ _ this
    | delete t d => trivial

theorem All.value? (hi : s.Indexed) (h : All P s) (hv : s.value? id = some v) : P id v := by
  obtain ⟨e, he, hev⟩ := bind_eq_some_iff.mp hv
  obtain ⟨hmem, rfl⟩ := (getElement_eq_some hi).mp he
  exact h.live e hmem v hev

/-! ## Edits in place -/

theorem indexed_withValue (h : s.Indexed) (id) (f : T → T) : (s.withValue id f).Indexed := by
  rw [h.withValue_eq]; exact h.of_updateAt (keepsPlace_value (·.map f)) rfl rfl

/-- Changing one value in place: the others are as they were. -/
theorem All.withValue (hi : s.Indexed) (h : All P s) (hpq : ∀ id v, P id v → Q id v)
    (hf : ∀ v, s.value? id = some v → P id v → Q id (f v)) : All Q (s.withValue id f) := by
  have hq := h.mono hpq; rw [hi.withValue_eq]
  refine ⟨fun e he v hv => ?_, hq.parkedInserts, hq.parkedDeletes⟩
  obtain ⟨a, ha, rfl⟩ := mem_map.mp he
  by_cases hid : a.id = id
  · simp only [hid, if_true] at hv ⊢
    obtain ⟨w, hw, rfl⟩ := map_eq_some_iff.mp hv
    refine hf w ?_ (hid ▸ h.live a ha w hw)
    rw [Sequence.value?, (getElement_eq_some hi).mpr ⟨ha, hid⟩]; exact hw
  · simp only [hid, if_false] at hv ⊢
    exact hq.live a ha v hv

theorem indexed_updateValue (h : s.Indexed) (id v) : (s.updateValue id v).Indexed := by
  rw [h.updateValue_eq]; exact h.of_updateAt (keepsPlace_value (fun _ => some v)) rfl rfl

theorem All.updateValue (hi : s.Indexed) (h : All P s) (hv : P id v) :
    All P (s.updateValue id v) := by
  rw [hi.updateValue_eq]
  refine ⟨fun e he w hw => ?_, h.parkedInserts, h.parkedDeletes⟩
  obtain ⟨a, ha, rfl⟩ := mem_map.mp he
  by_cases hid : a.id = id
  · simp only [hid, if_true, some.injEq] at hw ⊢
    rwa [← hw]
  · simp only [hid, if_false] at hw ⊢
    exact h.live a ha w hw

/-! ## Operations -/

/-- An indexed sequence all of whose values satisfy `P`. -/
structure Keeps (P : OpId → T → Prop) (s : Sequence T) : Prop where
  indexed : s.Indexed
  all : All P s

theorem keeps_new : Keeps P (new : Sequence T) := ⟨ordered_new.toIndexed, all_new⟩

theorem Keeps.rebuild (h : Keeps P s) : Keeps P s.rebuildOrder where
  indexed := (ordered_rebuildOrder h.indexed.grounded).toIndexed
  all := ⟨fun e he => h.all.live e ((mem_rebuildOrder h.indexed.grounded).mp he),
    h.all.parkedInserts, h.all.parkedDeletes⟩

theorem Keeps.push (h : Keeps P s) (hid : id ∉ s.elementIds)
    (ha : ∀ a, after = some a → a ∈ s.elementIds) (hv : P id v) (ro) :
    Keeps P { s with elements := s.elements ++ [⟨id, some v, after, ro⟩],
                     index := s.index.insert id s.elements.length } where
  indexed := h.indexed.push (e := ⟨id, some v, after, ro⟩) hid ha
  all := by
    refine ⟨forall_mem_push h.all.live ?_, h.all.parkedInserts, h.all.parkedDeletes⟩
    intro w hw; exact some.inj hw ▸ hv

theorem Keeps.tombstone (h : Keeps P s) (target) : Keeps P (s.withTombstone target) where
  indexed := h.indexed.of_updateAt keepsPlace_bury rfl rfl
  all := by
    refine ⟨fun e he w hw => ?_, h.all.parkedInserts, h.all.parkedDeletes⟩
    obtain ⟨a, ha, rfl⟩ := mem_map.mp he
    by_cases hid : a.id = target
    · simp [hid, bury] at hw
    · simp only [hid, if_false] at hw ⊢
      exact h.all.live a ha w hw

theorem ok_pushPending {m : SortedMap OpId (List (SequenceOp T))}
    (h : ∀ k ops, m.get? k = some ops → ∀ o ∈ ops, o.Ok P) (hop : op.Ok P) :
    ∀ k ops, (pushPending m key op).get? k = some ops → ∀ o ∈ ops, o.Ok P := by
  intro k ops hk o ho
  rw [pushPending, get?_insert] at hk
  split at hk
  · obtain rfl := some.inj hk
    rcases mem_append.mp ho with ho | ho
    · cases hm : m.get? key with
      | none => simp [hm] at ho
      | some l => exact h key l hm o (by simpa [hm] using ho)
    · exact mem_singleton.mp ho ▸ hop
  · exact h k ops hk o ho

theorem Keeps.bufferInsert (h : Keeps P s) (hv : P id v) :
    Keeps P (s.bufferInsert after id v ro) := by
  cases after with
  | none => exact h
  | some a =>
    exact ⟨⟨h.indexed.grounded, h.indexed.index⟩,
      ⟨h.all.live, ok_pushPending h.all.parkedInserts hv, h.all.parkedDeletes⟩⟩

theorem Keeps.bufferDelete (h : Keeps P s) (target id) : Keeps P (s.bufferDelete target id) :=
  ⟨⟨h.indexed.grounded, h.indexed.index⟩,
    ⟨h.all.live, h.all.parkedInserts, ok_pushPending h.all.parkedDeletes trivial⟩⟩

theorem Keeps.enqueue (h : Keeps P s) (id) :
    Keeps P (s.enqueuePending id []).1 ∧ ∀ op ∈ (s.enqueuePending id []).2, op.Ok P := by
  refine ⟨⟨⟨h.indexed.grounded, h.indexed.index⟩, ⟨h.all.live, ?_, ?_⟩⟩, ?_⟩
  · intro k ops hk
    exact h.all.parkedInserts k ops (get?_erase_eq_some.mp hk).2
  · intro k ops hk
    exact h.all.parkedDeletes k ops (get?_erase_eq_some.mp hk).2
  · intro op hop
    simp only [enqueuePending, nil_append, mem_append] at hop
    rcases hop with hop | hop
    · cases hm : s.pendingInserts.get? id with
      | none => simp [hm] at hop
      | some l => exact h.all.parkedInserts id l hm op (by simpa [hm] using hop)
    · cases hm : s.pendingDeletes.get? id with
      | none => simp [hm] at hop
      | some l => exact h.all.parkedDeletes id l hm op (by simpa [hm] using hop)

theorem kept_keeps : Kept (SequenceOp.Ok P) (Keeps P) where
  insert h hv := h.indexed.insert_keeps h (fun hid ha => h.push hid ha hv _) Keeps.rebuild
  delete h := h.indexed.delete_keeps h (h.tombstone _)
  bufferInsert h hv := h.bufferInsert hv
  bufferDelete h := h.bufferDelete _ _
  enqueue _ h := h.enqueue _
  rebuild h := h.rebuild

section
variable (h : Keeps P s)
include h

theorem Keeps.apply (hop : op.Ok P) : Keeps P (s.apply op) := kept_keeps.apply h hop

theorem Keeps.applyAll (hops : ∀ op ∈ ops, op.Ok P) :
    Keeps P (s.applyAll ops) := kept_keeps.applyAll h hops

theorem Keeps.withValue (hpq : ∀ id v, P id v → Q id v)
    (hf : ∀ v, s.value? id = some v → P id v → Q id (f v)) : Keeps Q (s.withValue id f) :=
  ⟨indexed_withValue h.indexed id f, h.all.withValue h.indexed hpq hf⟩

theorem Keeps.updateValue (hv : P id v) : Keeps P (s.updateValue id v) :=
  ⟨indexed_updateValue h.indexed id v, h.all.updateValue h.indexed hv⟩

theorem Keeps.mono (hpq : ∀ id v, P id v → Q id v) : Keeps Q s :=
  ⟨h.indexed, h.all.mono hpq⟩

end

/-! ## What a sequence carries -/

/-- The value is live under the id, or waits to be inserted under it. -/
def Carries (s : Sequence T) (id : OpId) (v : T) : Prop :=
  (∃ e ∈ s.elements, e.id = id ∧ e.value = some v) ∨
    ∃ k ops after ro, (s.pendingInserts.get? k = some ops ∨ s.pendingDeletes.get? k = some ops) ∧
      SequenceOp.insert after id v ro ∈ ops

theorem keeps_iff : Keeps P s ↔ s.Indexed ∧ ∀ id v, s.Carries id v → P id v := by
  constructor
  · rintro ⟨hi, hlive, hins, hdel⟩
    refine ⟨hi, ?_⟩
    rintro id v (⟨e, he, rfl, hv⟩ | ⟨k, ops, after, ro, hk | hk, hop⟩)
    · exact hlive e he v hv
    · exact hins k ops hk _ hop
    · exact hdel k ops hk _ hop
  · rintro ⟨hi, h⟩
    refine ⟨hi, fun e he v hv => h _ _ (.inl ⟨e, he, rfl, hv⟩), ?_, ?_⟩
    · intro k ops hk op hop
      cases op with
      | insert after id v ro => exact h _ _ (.inr ⟨k, ops, after, ro, .inl hk, hop⟩)
      | delete t d => trivial
    · intro k ops hk op hop
      cases op with
      | insert after id v ro => exact h _ _ (.inr ⟨k, ops, after, ro, .inr hk, hop⟩)
      | delete t d => trivial

end Sequence
end MdCrdt
