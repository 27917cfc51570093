import MdCrdt.Core.SequenceOrder

/- What each operation of a sequence does, stated on its element list.

  `Indexed` is what holds at every moment, inside the work-queue loop included:
  the anchors lead back to the start and the index holds the position of every
  element. Under it every lookup is a membership test, `applyDelete` and the
  in-place updates are `updateAt`, and an insert appends one element. -/
namespace MdCrdt
open Lib List Option SortedMap

namespace Sequence
variable {T : Type}
variable {id : OpId} {s : Sequence T} {l : List (Element T)} {f : Element T → Element T}
  {after : Option OpId}
variable {ro : Option OpId} {rebuild : Bool} {e : Element T} {target : OpId}

/-! ## The index -/

theorem rebuildIndex_append (l) (e : Element T) :
    rebuildIndex (l ++ [e]) = (rebuildIndex l).insert e.id l.length := by
  simp [rebuildIndex, zipIdx_append]

theorem rebuildIndex_congr {U : Type} {l' : List (Element U)}
    (h : l'.map Element.id = l.map Element.id) : rebuildIndex l' = rebuildIndex l := by
  induction l using List.reverseRecOn generalizing l' with
  | nil =>
    have : l' = [] := by simpa using h
    rw [this]
    rfl
  | append_singleton l e ih =>
    rcases eq_nil_or_concat' l' with rfl | ⟨l₀, e₀, rfl⟩
    · simp at h
    · simp only [map_append, map_cons, map_nil] at h
      obtain ⟨h1, h2⟩ := append_inj' h rfl
      have hid : e₀.id = e.id := by simpa using h2
      have hlen : l₀.length = l.length := by simpa using congrArg List.length h1
      rw [rebuildIndex_append, rebuildIndex_append, ih h1, hid, hlen]

theorem contains_rebuildIndex : (rebuildIndex l).contains id = true ↔ id ∈ l.map Element.id := by
  induction l using List.reverseRecOn with
  | nil => simp [rebuildIndex, SortedMap.contains]
  | append_singleton l e ih =>
    rw [rebuildIndex_append, SortedMap.contains, get?_insert]
    split
    · next h => simp [h]
    · next h =>
      rw [← SortedMap.contains, ih]
      simp [h]

theorem rebuildIndex_get? (h : Distinct l) (hi : (rebuildIndex l).get? id = some i) :
    ∃ e, l[i]? = some e ∧ e.id = id := by
  induction l using List.reverseRecOn with
  | nil => simp [rebuildIndex] at hi
  | append_singleton l e ih =>
    have hl : Distinct l := by
      rw [Distinct, map_append] at h
      exact h.of_append_left
    rw [rebuildIndex_append] at hi
    rcases get?_insert_eq_some.mp hi with ⟨rfl, rfl⟩ | ⟨-, hi⟩
    · exact ⟨e, by simp, rfl⟩
    · obtain ⟨e', he', hid'⟩ := ih hl hi
      refine ⟨e', ?_, hid'⟩
      rw [getElem?_append_left (List.getElem?_eq_some_iff.mp he').1]
      exact he'

/-! ## In-place updates -/

/-- Change the element `id`, wherever it stands. -/
def updateAt (id : OpId) (f : Element T → Element T) (l : List (Element T)) : List (Element T) :=
  l.map (fun e => if e.id = id then f e else e)

theorem modify_eq_updateAt (h : Distinct l) (hi : (rebuildIndex l).get? id = some i)
    (f : Element T → Element T) : l.modify i f = updateAt id f l := by
  obtain ⟨e, he, hid⟩ := rebuildIndex_get? h hi
  apply ext_getElem?
  intro j
  rw [getElem?_modify, updateAt, getElem?_map]
  cases hj : l[j]? with
  | none => rfl
  | some c =>
    simp only [map_some]
    by_cases hij : i = j
    · subst hij
      have hce : c = e := some.inj (hj.symm.trans he)
      simp [hce, hid]
    · -- another position holds another id
      have hne : c.id ≠ id := by
        intro hc
        apply hij
        have hdi : (l.map Element.id)[i]? = (l.map Element.id)[j]? := by simp [he, hj, hid, hc]
        exact (getElem?_inj (by simpa using (List.getElem?_eq_some_iff.mp he).1) h).mp hdi
      simp [hij, hne]

theorem updateAt_of_notMem (h : id ∉ l.map Element.id) (f : Element T → Element T) :
    updateAt id f l = l := by
  unfold updateAt
  conv_rhs => rw [← map_id l]
  apply map_congr_left
  intro e he
  have : e.id ≠ id := fun heq => h (heq ▸ mem_map_of_mem he)
  simp [this]

theorem keepsPlace_updateAt (hf : KeepsPlace f) :
    KeepsPlace (fun e => if e.id = id then f e else e) where
  id e := by split <;> simp [hf.id]
  after e := by split <;> simp [hf.after]
  rightOrigin e := by split <;> simp [hf.rightOrigin]

theorem map_id_updateAt (hf : KeepsPlace f) (l) :
    (updateAt id f l).map Element.id = l.map Element.id :=
  (keepsPlace_updateAt hf).map_ids l

/-- Turn an element into a tombstone. -/
def bury (e : Element T) : Element T := { e with value := none }

theorem keepsPlace_bury : KeepsPlace (bury (T := T)) := ⟨fun _ => rfl, fun _ => rfl, fun _ => rfl⟩

/-! ## Indexed sequences -/

/-- The anchors lead back to the start and the index is right. -/
structure Indexed (s : Sequence T) : Prop where
  grounded : Grounded s.elements
  index : s.index = rebuildIndex s.elements

/-- An indexed sequence in rebuilt order. -/
structure Ordered (s : Sequence T) : Prop extends Indexed s where
  order : orderElements s.elements = s.elements

theorem ordered_new : Ordered (new : Sequence T) := ⟨⟨grounded_nil, rfl⟩, rfl⟩

theorem Indexed.contains (h : s.Indexed) : s.index.contains id = true ↔ id ∈ s.elementIds := by
  rw [h.index]
  exact contains_rebuildIndex

theorem Indexed.of_updateAt {s s' : Sequence T} (h : s.Indexed) (hf : KeepsPlace f)
    (he : s'.elements = updateAt id f s.elements) (hi : s'.index = s.index) : s'.Indexed where
  grounded := by
    rw [he]
    refine h.grounded.of_perm_links (Perm.of_eq ?_)
    exact ((keepsPlace_updateAt hf).links s.elements).symm
  index := by rw [hi, he, h.index, rebuildIndex_congr (map_id_updateAt hf s.elements)]

theorem Ordered.of_updateAt {s s' : Sequence T} (h : s.Ordered) (hf : KeepsPlace f)
    (he : s'.elements = updateAt id f s.elements) (hi : s'.index = s.index) : s'.Ordered where
  toIndexed := h.toIndexed.of_updateAt hf he hi
  order := by rw [he, updateAt, orderElements_map (keepsPlace_updateAt hf), h.order]

/-- An update through the index, whatever it finds there. -/
theorem Indexed.modify_at (h : s.Indexed) (id) (f : Element T → Element T) :
    (match s.index.get? id with
      | some i => { s with elements := s.elements.modify i f }
      | none => s) = { s with elements := updateAt id f s.elements } := by
  cases hi : s.index.get? id with
  | some i =>
    rw [h.index] at hi
    simp only [modify_eq_updateAt h.grounded.distinct hi]
  | none =>
    have hno : id ∉ s.elementIds := by
      rw [← h.contains, SortedMap.contains, hi]
      simp
    simp only [updateAt_of_notMem hno]

theorem keepsPlace_value (f : Option T → Option T) :
    KeepsPlace (fun e : Element T => { e with value := f e.value }) :=
  ⟨fun _ => rfl, fun _ => rfl, fun _ => rfl⟩

theorem Indexed.updateValue_eq (h : s.Indexed) (id v) : s.updateValue id v =
    { s with elements := updateAt id (fun e => { e with value := some v }) s.elements } :=
  h.modify_at id _

theorem Indexed.withValue_eq (h : s.Indexed) (id f) : s.withValue id f =
    { s with elements := updateAt id (fun e => { e with value := e.value.map f }) s.elements } :=
  h.modify_at id _

/-- Appending an element and its position keeps the index right. -/
theorem Indexed.push (h : s.Indexed) (hid : e.id ∉ s.elementIds)
    (hafter : ∀ a, e.after = some a → a ∈ s.elementIds) :
    Indexed { s with elements := s.elements ++ [e],
                     index := s.index.insert e.id s.elements.length } where
  grounded := h.grounded.append hid hafter
  index := by rw [rebuildIndex_append, h.index]

theorem ordered_rebuildOrder (h : Grounded s.elements) : s.rebuildOrder.Ordered where
  grounded := h.perm (orderElements_perm h).symm
  index := rfl
  order := orderElements_orderElements h

theorem mem_rebuildOrder (h : Grounded s.elements) : e ∈ s.rebuildOrder.elements ↔ e ∈ s.elements :=
  (orderElements_perm h).mem_iff

theorem mem_elementIds : id ∈ s.elementIds ↔ ∃ e ∈ s.elements, e.id = id := List.mem_map

section
variable (h : s.Indexed)
include h

theorem getElement_eq_some : s.getElement id = some e ↔ e ∈ s.elements ∧ e.id = id := by
  have hd := h.grounded.distinct
  have hget : ∀ e', s.getElement id = some e' → e' ∈ s.elements ∧ e'.id = id := by
    intro e' he'
    obtain ⟨i, hi, hei⟩ := bind_eq_some_iff.mp he'
    rw [h.index] at hi
    obtain ⟨e'', he'', hid⟩ := rebuildIndex_get? hd hi
    obtain rfl := some.inj (hei.symm.trans he'')
    exact ⟨mem_of_getElem? hei, hid⟩
  refine ⟨hget e, fun ⟨he, hid⟩ => ?_⟩
  obtain ⟨i, hi⟩ := contains_iff_get?.mp (h.contains.mpr (mem_elementIds.mpr ⟨e, he, hid⟩))
  have hi' := hi
  rw [h.index] at hi'
  obtain ⟨e', he', hid'⟩ := rebuildIndex_get? hd hi'
  have : s.getElement id = some e' := by rw [getElement, hi]; exact he'
  rw [this, hd.eq_of_id (mem_of_getElem? he') he (hid'.trans hid.symm)]

theorem getElement_eq_none : s.getElement id = none ↔ id ∉ s.elementIds := by
  rw [mem_elementIds, eq_none_iff_forall_ne_some]
  exact ⟨fun hn ⟨e, he, hid⟩ => hn e ((getElement_eq_some h).mpr ⟨he, hid⟩),
    fun hn e he => hn ⟨e, (getElement_eq_some h).mp he⟩⟩

/-! ## The operations -/

theorem applyDelete_known (ht : target ∈ s.elementIds) :
    s.applyDelete target = ({ s with elements := updateAt target bury s.elements }, true) := by
  obtain ⟨i, hi⟩ := contains_iff_get?.mp (h.contains.mpr ht)
  have hi' := hi
  rw [h.index] at hi'
  simp only [applyDelete, hi]
  rw [show (fun e : Element T => { e with value := none }) = bury from rfl,
    modify_eq_updateAt h.grounded.distinct hi']

theorem applyDelete_unknown (ht : target ∉ s.elementIds) : s.applyDelete target = (s, false) := by
  have hi : s.index.get? target = none := by
    rw [← h.contains, SortedMap.contains] at ht
    simpa using ht
  simp only [applyDelete, hi]

theorem applyInsertInternal_known
    (hid : id ∈ s.elementIds) : s.applyInsertInternal after id value ro rebuild = (s, true) := by
  rw [applyInsertInternal, if_pos (h.contains.mpr hid)]

theorem anchor_missing_iff : after.any (fun anchor => !s.index.contains anchor) = true ↔
      ∃ a, after = some a ∧ a ∉ s.elementIds := by
  cases after with
  | none => simp
  | some a =>
    have : s.index.contains a = true ↔ a ∈ s.elementIds := h.contains
    cases hc : s.index.contains a <;> simp_all

theorem applyInsertInternal_blocked (hid : id ∉ s.elementIds) (ha : a ∉ s.elementIds) :
    s.applyInsertInternal (some a) id value ro rebuild = (s, false) := by
  rw [applyInsertInternal, if_neg (fun hc => hid (h.contains.mp hc)),
    if_pos ((anchor_missing_iff h).mpr ⟨a, rfl, ha⟩)]

theorem applyInsertInternal_fresh (hid : id ∉ s.elementIds)
    (ha : ∀ a, after = some a → a ∈ s.elementIds) (value ro) :
    s.applyInsertInternal after id value ro false =
        ({ s with elements := s.elements ++ [⟨id, some value, after, ro⟩],
                  index := s.index.insert id s.elements.length }, true) ∧
      s.applyInsertInternal after id value ro true =
        (rebuildOrder { s with elements := s.elements ++ [⟨id, some value, after, ro⟩] }, true) := by
  have hany : ¬after.any (fun anchor => !s.index.contains anchor) = true := by
    intro hc
    obtain ⟨a, rfl, hmiss⟩ := (anchor_missing_iff h).mp hc
    exact hmiss (ha a rfl)
  constructor <;>
    simp only [applyInsertInternal, if_neg (fun hc => hid (h.contains.mp hc)), if_neg hany] <;> rfl

omit h in
/-- An insert is known already, or its anchor is missing, or it can go in. -/
theorem insert_cases (s : Sequence T) (after id) : id ∈ s.elementIds ∨ id ∉ s.elementIds ∧
    ((∃ a, after = some a ∧ a ∉ s.elementIds) ∨ ∀ a, after = some a → a ∈ s.elementIds) := by
  refine (Classical.em _).imp_right (fun hid => ⟨hid, or_iff_not_imp_left.mpr (fun hno a ha => ?_)⟩)
  by_contra hmiss
  exact hno ⟨a, ha, hmiss⟩

/-- An insert keeps what one more element and a rebuilt order keep. -/
theorem Indexed.insert_keeps {I : Sequence T → Prop} (hs : I s)
    (hpush : id ∉ s.elementIds → (∀ a, after = some a → a ∈ s.elementIds) →
      I { s with elements := s.elements ++ [⟨id, some v, after, ro⟩],
                 index := s.index.insert id s.elements.length })
    (hrebuild : ∀ {s}, I s → I s.rebuildOrder) :
    I (s.applyInsertInternal after id v ro rebuild).1 := by
  rcases s.insert_cases after id with hid | ⟨hid, ⟨a, rfl, ha⟩ | ha⟩
  · rw [applyInsertInternal_known h hid]
    exact hs
  · rw [applyInsertInternal_blocked h hid ha]
    exact hs
  · obtain ⟨h1, h2⟩ := applyInsertInternal_fresh h hid ha v ro
    cases rebuild with
    | false =>
      rw [h1]
      exact hpush hid ha
    | true =>
      have hr := hrebuild (hpush hid ha)
      rw [h2]
      exact hr

theorem Indexed.delete_keeps {I : Sequence T → Prop} (hs : I s)
    (hb : I { s with elements := updateAt target bury s.elements }) :
    I (s.applyDelete target).1 := by
  by_cases ht : target ∈ s.elementIds
  · rw [applyDelete_known h ht]
    exact hb
  · rw [applyDelete_unknown h ht]
    exact hs

end

/-! ## What every operation keeps -/

/-- Each part of the work keeps `I`, for operations that satisfy `Q`. -/
structure Kept (Q : SequenceOp T → Prop) (I : Sequence T → Prop) : Prop where
  insert : ∀ {s after id v ro rebuild}, I s → Q (.insert after id v ro) →
    I (s.applyInsertInternal after id v ro rebuild).1
  delete : ∀ {s target}, I s → I (s.applyDelete target).1
  bufferInsert : ∀ {s after id v ro}, I s → Q (.insert after id v ro) →
    I (s.bufferInsert after id v ro)
  bufferDelete : ∀ {s target id}, I s → I (s.bufferDelete target id)
  enqueue : ∀ {s} id, I s → I (s.enqueuePending id []).1 ∧ ∀ op ∈ (s.enqueuePending id []).2, Q op
  rebuild : ∀ {s}, I s → I s.rebuildOrder

section Kept
variable {Q : SequenceOp T → Prop} {I : Sequence T → Prop} {op : SequenceOp T}
  {queue : List (SequenceOp T)}

section
variable (hI : Kept Q I)
include hI

/-- One turn of the loop. -/
theorem Kept.drainStep (h : I s) (hq : ∀ o ∈ queue, Q o) (hop : Q op) :
    I (s.drainStep queue op).1 ∧ ∀ o ∈ (s.drainStep queue op).2.1, Q o := by
  cases op with
  | insert after id v ro =>
    have hk : I (s.applyInsertInternal after id v ro false).1 := hI.insert h hop
    simp only [Sequence.drainStep]
    cases hr : s.applyInsertInternal after id v ro false with
    | mk s' ok =>
      rw [hr] at hk
      cases ok with
      | true =>
        obtain ⟨he, hops⟩ := hI.enqueue id hk
        refine ⟨he, fun o ho => ?_⟩
        simp only [enqueuePending, append_assoc, mem_append] at ho
        rcases ho with ho | ho
        · exact hq o ho
        · exact hops o (by simpa [enqueuePending] using ho)
      | false => exact ⟨hI.bufferInsert h hop, hq⟩
  | delete target id =>
    have hk : I (s.applyDelete target).1 := hI.delete h
    simp only [Sequence.drainStep]
    cases hr : s.applyDelete target with
    | mk s' ok =>
      rw [hr] at hk
      cases ok with
      | true => exact ⟨hk, hq⟩
      | false => exact ⟨hI.bufferDelete h, hq⟩

theorem Kept.drainQueue (n) (h : I s) (hq : ∀ o ∈ queue, Q o)
    (inserted) : I (Sequence.drainQueue n s queue inserted).1 := by
  induction n generalizing s queue inserted with
  | zero => exact h
  | succ n ih =>
    cases queue with
    | nil => exact h
    | cons op queue =>
      obtain ⟨hs, hq'⟩ := hI.drainStep h (fun o ho => hq o (mem_cons_of_mem _ ho))
        (hq op mem_cons_self)
      exact ih hs hq' _

theorem Kept.processPending (h : I s) (id) : I (s.processPending id) := by
  obtain ⟨hs, hq⟩ := hI.enqueue id h
  have hd := hI.drainQueue (drainLoad (s.enqueuePending id []).1 (s.enqueuePending id []).2) hs hq
    false
  simp only [Sequence.processPending]
  split
  · exact hI.rebuild hd
  · exact hd

/-- Any operation. -/
theorem Kept.apply (h : I s) (hop : Q op) : I (s.apply op) := by
  cases op with
  | insert after id v ro =>
    have hk : I (s.applyInsert after id v ro).1 := hI.insert h hop
    simp only [Sequence.apply, applyNow]
    cases hr : s.applyInsert after id v ro with
    | mk s' ok =>
      rw [hr] at hk
      cases ok with
      | true => exact hI.processPending hk id
      | false => exact hI.bufferInsert h hop
  | delete target id =>
    have hk : I (s.applyDelete target).1 := hI.delete h
    simp only [Sequence.apply, applyNow]
    cases hr : s.applyDelete target with
    | mk s' ok =>
      rw [hr] at hk
      cases ok with
      | true => exact hk
      | false => exact hI.bufferDelete h

theorem Kept.applyAll (h : I s) (hops : ∀ op ∈ ops, Q op) : I (s.applyAll ops) :=
  foldlRecOn ops Sequence.apply h (fun _ hs op hop => hI.apply hs (hops op hop))

end

end Kept

end Sequence
end MdCrdt
