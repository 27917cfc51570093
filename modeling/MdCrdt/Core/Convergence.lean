import Mathlib.Data.Finset.Insert
import Mathlib.Data.Fintype.Defs
import MdCrdt.Core.SequenceSteps

/- Strong convergence of the replicated sequence.

  `Tracks D s q` relates a sequence to the operations `D` delivered to it, with
  `q` still in the work queue: every element comes from a delivered insert, every
  tombstone from a delivered delete, and every delivered operation has taken
  effect, waits in a buffer or stands in the queue. One turn of the work queue
  keeps it (`drainStep_tracks`), so does the whole drain (`drainQueue_tracks`).

  With an empty queue and nothing waiting for a known id the elements are those
  whose chain of anchors was delivered, so they depend on `D` only
  (`Tracks.mem_of_mem`), and the order is the rebuilt one (`Tracks.elements_eq`). -/
namespace MdCrdt
open Lib List SortedMap
open Option hiding or_assoc

namespace Sequence
variable {T : Type} {m : SortedMap OpId (List (SequenceOp T))} {id : OpId}

/-! ## The buffers -/

/-- Inserts waiting for `k`. -/
def parkedInserts (s : Sequence T) (k : OpId) : List (SequenceOp T) :=
  (s.pendingInserts.get? k).getD []

/-- Deletes waiting for `k`. -/
def parkedDeletes (s : Sequence T) (k : OpId) : List (SequenceOp T) :=
  (s.pendingDeletes.get? k).getD []

/-- The operation waits in the buffer it belongs to. -/
def Parked (s : Sequence T) : SequenceOp T → Prop
  | .insert after id v ro => ∃ k, after = some k ∧ .insert after id v ro ∈ s.parkedInserts k
  | .delete target id => .delete target id ∈ s.parkedDeletes target

/-- The operation has taken effect. -/
def Settled (s : Sequence T) : SequenceOp T → Prop
  | .insert _ id _ _ => id ∈ s.elementIds
  | .delete target _ => ∃ e ∈ s.elements, e.id = target ∧ e.value = none

/-- Nothing waits for an element that is there. -/
def Quiet (s : Sequence T) : Prop :=
  ∀ k ∈ s.elementIds, s.parkedInserts k = [] ∧ s.parkedDeletes k = []

/-- Both buffers hold what `bufferInsert` and `bufferDelete` put there. -/
structure Buffered (s : Sequence T) : Prop where
  sortedInserts : s.pendingInserts.Sorted
  sortedDeletes : s.pendingDeletes.Sorted
  inserts : ∀ k, ∀ op ∈ s.parkedInserts k, ∃ id v ro, op = .insert (some k) id v ro
  deletes : ∀ k, ∀ op ∈ s.parkedDeletes k, ∃ id, op = .delete k id
  filledInserts : ∀ k, s.pendingInserts.get? k ≠ some []
  filledDeletes : ∀ k, s.pendingDeletes.get? k ≠ some []

theorem getD_pushPending (m : SortedMap OpId (List (SequenceOp T))) (key k op) :
    ((pushPending m key op).get? k).getD [] =
      if k = key then (m.get? k).getD [] ++ [op] else (m.get? k).getD [] := by
  rw [pushPending, get?_insert]
  split
  · next h => simp [h]
  · rfl

theorem mem_getD_pushPending :
    o ∈ ((pushPending m key op).get? k).getD [] ↔ o ∈ (m.get? k).getD [] ∨ k = key ∧ o = op := by
  rw [getD_pushPending]
  split
  · next hk => simp [hk]
  · next hk => simp [hk]

theorem pushPending_filled (h : ∀ k, m.get? k ≠ some []) (key op k) :
    (pushPending m key op).get? k ≠ some [] := by
  rw [pushPending, get?_insert]
  split
  · simp
  · exact h k

theorem erase_filled (h : ∀ k, m.get? k ≠ some []) (id k) : (m.erase id).get? k ≠ some [] := by
  rw [get?_erase]
  split
  · simp
  · exact h k

theorem total_pushPending (h : m.Sorted) (key op) :
    (pushPending m key op).total List.length = m.total List.length + 1 := by
  have := total_insert List.length h key ((m.get? key).getD [] ++ [op])
  cases hk : m.get? key with
  | none =>
    simp only [hk, map_none, getD_none, nil_append, length_singleton] at this
    simpa [pushPending, hk] using this
  | some l =>
    simp only [hk, map_some, getD_some, length_append, length_singleton] at this
    simp only [pushPending, hk, getD_some]
    omega

theorem getD_erase (m : SortedMap OpId (List (SequenceOp T))) (id k) :
    ((m.erase id).get? k).getD [] = if k = id then [] else (m.get? k).getD [] := by
  rw [get?_erase]
  split <;> rfl

theorem total_erase_length (h : m.Sorted) (id) :
    (m.erase id).total List.length + ((m.get? id).getD []).length = m.total List.length := by
  have := total_erase List.length h id
  cases hk : m.get? id <;> simpa [hk] using this

/-- Moving operations from the buffers to the queue keeps their number. -/
theorem count_enqueuePending {s : Sequence T} (h : s.Buffered) (id q) :
    (s.enqueuePending id q).1.pendingCount + (s.enqueuePending id q).2.length =
      s.pendingCount + q.length := by
  have h1 := total_erase_length h.sortedInserts id
  have h2 := total_erase_length h.sortedDeletes id
  simp only [enqueuePending, pendingCount, length_append]
  omega

section Buffers
variable {s : Sequence T}

/-- Only the buffers matter. -/
theorem Buffered.congr {s' : Sequence T} (h : s.Buffered)
    (hi : s'.pendingInserts = s.pendingInserts) (hd : s'.pendingDeletes = s.pendingDeletes) :
    s'.Buffered where
  sortedInserts := hi ▸ h.sortedInserts
  sortedDeletes := hd ▸ h.sortedDeletes
  inserts := by simpa only [parkedInserts, hi] using h.inserts
  deletes := by simpa only [parkedDeletes, hd] using h.deletes
  filledInserts := hi ▸ h.filledInserts
  filledDeletes := hd ▸ h.filledDeletes

theorem buffered_new : (new : Sequence T).Buffered :=
  ⟨sorted_empty, sorted_empty, by simp [parkedInserts, new],
    by simp [parkedDeletes, new], by simp [new], by simp [new]⟩

theorem parkedInserts_bufferInsert (a id v ro k) :
    (s.bufferInsert (some a) id v ro).parkedInserts k =
      if k = a then s.parkedInserts k ++ [.insert (some a) id v ro] else s.parkedInserts k :=
  getD_pushPending s.pendingInserts a k _

theorem parkedDeletes_bufferDelete (t d k) : (s.bufferDelete t d).parkedDeletes k =
      if k = t then s.parkedDeletes k ++ [.delete t d] else s.parkedDeletes k :=
  getD_pushPending s.pendingDeletes t k _

theorem Buffered.bufferInsert (h : s.Buffered) (a id v ro) :
    (s.bufferInsert (some a) id v ro).Buffered where
  sortedInserts := sorted_insert h.sortedInserts _ _
  __ := h
  inserts := by
    intro k op ho
    rcases mem_getD_pushPending.mp ho with ho | ⟨rfl, rfl⟩
    · exact h.inserts k op ho
    · exact ⟨id, v, ro, rfl⟩
  filledInserts := pushPending_filled h.filledInserts _ _

theorem Buffered.bufferDelete (h : s.Buffered) (t d) : (s.bufferDelete t d).Buffered where
  __ := h
  sortedDeletes := sorted_insert h.sortedDeletes _ _
  deletes := by
    intro k op ho
    rcases mem_getD_pushPending.mp ho with ho | ⟨rfl, rfl⟩
    · exact h.deletes k op ho
    · exact ⟨d, rfl⟩
  filledDeletes := pushPending_filled h.filledDeletes _ _

theorem parkedInserts_enqueuePending (q id k) :
    (s.enqueuePending id q).1.parkedInserts k = if k = id then [] else s.parkedInserts k :=
  getD_erase s.pendingInserts id k

theorem parkedDeletes_enqueuePending (q id k) :
    (s.enqueuePending id q).1.parkedDeletes k = if k = id then [] else s.parkedDeletes k :=
  getD_erase s.pendingDeletes id k

theorem Buffered.enqueue (h : s.Buffered) (id q) : (s.enqueuePending id q).1.Buffered where
  sortedInserts := sorted_erase h.sortedInserts id
  sortedDeletes := sorted_erase h.sortedDeletes id
  inserts := by
    intro k op ho
    rw [parkedInserts_enqueuePending] at ho
    split at ho
    · cases ho
    · exact h.inserts k op ho
  deletes := by
    intro k op ho
    rw [parkedDeletes_enqueuePending] at ho
    split at ho
    · cases ho
    · exact h.deletes k op ho
  filledInserts := erase_filled h.filledInserts id
  filledDeletes := erase_filled h.filledDeletes id

/-- Once the operations waiting for `id` are in the queue, `id` may be there. -/
theorem quiet_enqueuePending
    (h : ∀ k ∈ s.elementIds, k ≠ id → s.parkedInserts k = [] ∧ s.parkedDeletes k = []) :
    (s.enqueuePending id q).1.Quiet := by
  intro k hk
  rw [parkedInserts_enqueuePending, parkedDeletes_enqueuePending]
  split
  · exact ⟨rfl, rfl⟩
  · next hne => exact h k hk hne

end Buffers

/-! ## Tracking the delivered operations -/

/-- The sequence against the operations delivered to it, with `q` still in the queue. -/
structure Tracks (D : SequenceOp T → Prop) (s : Sequence T) (q : List (SequenceOp T)) : Prop
    extends Indexed s, Buffered s where
  source : ∀ e ∈ s.elements, ∃ v, D (.insert e.after e.id v e.rightOrigin) ∧
    ∀ w, e.value = some w → w = v
  tombstone : ∀ e ∈ s.elements, e.value = none → ∃ d, D (.delete e.id d)
  queued : ∀ op ∈ q, D op
  parked : ∀ op, s.Parked op → D op
  covered : ∀ op, D op → s.Settled op ∨ op ∈ q ∨ s.Parked op

section Steps
variable {D : SequenceOp T → Prop} {s : Sequence T} {q : List (SequenceOp T)} {op : SequenceOp T}
variable {ro : Option OpId} {k : OpId}

theorem tracks_new : Tracks (fun _ => False) (new : Sequence T) [] where
  __ := ordered_new
  toBuffered := buffered_new
  source := by simp [new]
  tombstone := by simp [new]
  queued := by simp
  parked := by
    intro op h
    cases op with
    | insert after id v ro => simp [Parked, parkedInserts, new] at h
    | delete t d => simp [Parked, parkedDeletes, new] at h
  covered := by simp

/-- A delivered operation starts in the queue. -/
theorem Tracks.deliver (h : Tracks D s []) (op) : Tracks (fun o => o = op ∨ D o) s [op] where
  __ := h
  source e he := by
    obtain ⟨v, hv, hw⟩ := h.source e he
    exact ⟨v, .inr hv, hw⟩
  tombstone e he hn := by
    obtain ⟨d, hd⟩ := h.tombstone e he hn
    exact ⟨d, .inr hd⟩
  queued o ho := .inl (mem_singleton.mp ho)
  parked o ho := .inr (h.parked o ho)
  covered o ho := by
    rcases ho with rfl | ho
    · exact .inr (.inl (mem_singleton.mpr rfl))
    · rcases h.covered o ho with hs | hq | hp
      · exact .inl hs
      · cases hq
      · exact .inr (.inr hp)

/-- Reordering the elements changes nothing. -/
theorem Tracks.rebuild (h : Tracks D s q) : Tracks D s.rebuildOrder q where
  toIndexed := (ordered_rebuildOrder h.grounded).toIndexed
  toBuffered := h.toBuffered.congr rfl rfl
  source e he := h.source e ((mem_rebuildOrder h.grounded).mp he)
  tombstone e he := h.tombstone e ((mem_rebuildOrder h.grounded).mp he)
  __ := h
  parked op ho := h.parked op (by cases op <;> exact ho)
  covered op ho := by
    refine (h.covered op ho).imp (fun hs => ?_) (fun hq => hq.imp id fun hp => ?_)
    · cases op with
      | insert after id v ro =>
        obtain ⟨e, he, hid⟩ := mem_elementIds.mp hs
        exact mem_elementIds.mpr ⟨e, (mem_rebuildOrder h.grounded).mpr he, hid⟩
      | delete t d =>
        obtain ⟨e, he, hid⟩ := hs
        exact ⟨e, (mem_rebuildOrder h.grounded).mpr he, hid⟩
    · cases op <;> exact hp

theorem quiet_rebuildOrder (h : s.Quiet) (hg : Grounded s.elements) : s.rebuildOrder.Quiet := by
  intro k hk
  obtain ⟨e, he, hid⟩ := mem_elementIds.mp hk
  exact h k (mem_elementIds.mpr ⟨e, (mem_rebuildOrder hg).mp he, hid⟩)

/-- The first operation of the queue is settled or parked, and what was so still is. -/
theorem Tracks.covered_rest {s' : Sequence T} (h : Tracks D s (op :: q))
    (hop : s'.Settled op ∨ s'.Parked op) (hs : ∀ o, s.Settled o → s'.Settled o)
    (hp : ∀ o, s.Parked o → s'.Parked o) (o) (ho : D o) : s'.Settled o ∨ o ∈ q ∨ s'.Parked o := by
  rcases h.covered o ho with hset | hq | hpark
  · exact .inl (hs o hset)
  · rcases mem_cons.mp hq with rfl | hq
    · exact hop.imp_right .inr
    · exact .inr (.inl hq)
  · exact .inr (.inr (hp o hpark))

/-- An insert of a known id is done. -/
theorem Tracks.skip {after v}
    (h : Tracks D s (.insert after id v ro :: q)) (hid : id ∈ s.elementIds) : Tracks D s q where
  __ := h
  queued op ho := h.queued op (mem_cons_of_mem _ ho)
  covered := h.covered_rest (.inl hid) (fun _ hs => hs) (fun _ hp => hp)

/-- An insert with a known anchor appends its element. -/
theorem Tracks.push {after v}
    (h : Tracks D s (.insert after id v ro :: q)) (hid : id ∉ s.elementIds)
    (hafter : ∀ a, after = some a → a ∈ s.elementIds) :
    Tracks D { s with elements := s.elements ++ [⟨id, some v, after, ro⟩],
                      index := s.index.insert id s.elements.length } q where
  toIndexed := h.toIndexed.push (e := ⟨id, some v, after, ro⟩) hid hafter
  toBuffered := h.toBuffered.congr rfl rfl
  source := by
    refine forall_mem_push h.source ⟨v, h.queued _ mem_cons_self, ?_⟩
    exact fun w hw => (some.inj hw).symm
  tombstone := forall_mem_push h.tombstone (fun hn => by cases hn)
  queued op ho := h.queued op (mem_cons_of_mem _ ho)
  parked op ho := h.parked op (by cases op <;> exact ho)
  covered := by
    refine h.covered_rest (.inl (mem_elementIds.mpr ⟨_, mem_append_right _ mem_cons_self, rfl⟩))
      (fun op hs => ?_) (fun op hp => by cases op <;> exact hp)
    cases op with
    | insert after' id' v' ro' =>
      obtain ⟨e, he, hid⟩ := mem_elementIds.mp hs
      exact mem_elementIds.mpr ⟨e, mem_append_left _ he, hid⟩
    | delete t d =>
      obtain ⟨e, he, hid⟩ := hs
      exact ⟨e, mem_append_left _ he, hid⟩

/-- A delete of a known target leaves a tombstone. -/
theorem Tracks.bury (h : Tracks D s (.delete t d :: q)) (ht : t ∈ s.elementIds) :
    Tracks D { s with elements := updateAt t bury s.elements } q where
  toIndexed := h.toIndexed.of_updateAt keepsPlace_bury rfl rfl
  toBuffered := h.toBuffered.congr rfl rfl
  source e he := by
    obtain ⟨e', he', rfl⟩ := mem_map.mp he
    obtain ⟨v, hv, hw⟩ := h.source e' he'
    split
    · exact ⟨v, hv, fun w hw => nomatch hw⟩
    · exact ⟨v, hv, hw⟩
  tombstone e he := by
    obtain ⟨e', he', rfl⟩ := mem_map.mp he
    split
    · next hid => exact fun _ => ⟨d, show D (.delete e'.id d) from hid ▸ h.queued _ mem_cons_self⟩
    · exact h.tombstone e' he'
  queued op ho := h.queued op (mem_cons_of_mem _ ho)
  parked op ho := h.parked op (by cases op <;> exact ho)
  covered := by
    refine h.covered_rest (.inl ?_) (fun op hs => ?_) (fun op hp => by cases op <;> exact hp)
    · obtain ⟨e, he, hid⟩ := mem_elementIds.mp ht
      exact ⟨_, mem_map.mpr ⟨e, he, rfl⟩, by simp [hid, Sequence.bury]⟩
    · cases op with
      | insert after' id' v' ro' =>
        show id' ∈ (updateAt t Sequence.bury s.elements).map Element.id
        rw [map_id_updateAt keepsPlace_bury]
        exact hs
      | delete t' d' =>
        obtain ⟨e, he, hid, hv⟩ := hs
        refine ⟨_, mem_map.mpr ⟨e, he, rfl⟩, ?_⟩
        split
        · exact ⟨hid, rfl⟩
        · exact ⟨hid, hv⟩

theorem parked_bufferInsert : (s.bufferInsert (some a) id v ro).Parked op ↔
    op = .insert (some a) id v ro ∨ s.Parked op := by
  cases op with
  | delete t d => exact (or_iff_right (by simp)).symm
  | insert after' id' v' ro' =>
    constructor
    · rintro ⟨k, rfl, ho⟩
      rcases mem_getD_pushPending.mp ho with ho | ⟨-, ho⟩
      · exact .inr ⟨k, rfl, ho⟩
      · exact .inl ho
    · rintro (ho | ⟨k, hk, ho⟩)
      · obtain ⟨rfl, -⟩ := SequenceOp.insert.inj ho
        exact ⟨a, rfl, mem_getD_pushPending.mpr (.inr ⟨rfl, ho⟩)⟩
      · exact ⟨k, hk, mem_getD_pushPending.mpr (.inl ho)⟩

theorem parked_bufferDelete : (s.bufferDelete t d).Parked op ↔ op = .delete t d ∨ s.Parked op := by
  cases op with
  | insert after' id' v' ro' => exact (or_iff_right (by simp)).symm
  | delete t' d' =>
    refine mem_getD_pushPending.trans (or_comm.trans (or_congr_left (and_iff_right_of_imp ?_)))
    exact fun ho => (SequenceOp.delete.inj ho).1

/-- An insert without its anchor goes to the buffer. -/
theorem Tracks.bufferInsert (h : Tracks D s (.insert (some a) id v ro :: q)) :
    Tracks D (s.bufferInsert (some a) id v ro) q where
  toIndexed := ⟨h.grounded, h.index⟩
  toBuffered := h.toBuffered.bufferInsert a id v ro
  __ := h
  queued op ho := h.queued op (mem_cons_of_mem _ ho)
  parked op ho := (parked_bufferInsert.mp ho).elim (· ▸ h.queued _ mem_cons_self) (h.parked op)
  covered := h.covered_rest (.inr (parked_bufferInsert.mpr (.inl rfl)))
    (fun op hs => by cases op <;> exact hs) (fun _ hp => parked_bufferInsert.mpr (.inr hp))

/-- A delete without its target goes to the buffer. -/
theorem Tracks.bufferDelete (h : Tracks D s (.delete t d :: q)) :
    Tracks D (s.bufferDelete t d) q where
  toIndexed := ⟨h.grounded, h.index⟩
  toBuffered := h.toBuffered.bufferDelete t d
  __ := h
  queued op ho := h.queued op (mem_cons_of_mem _ ho)
  parked op ho := (parked_bufferDelete.mp ho).elim (· ▸ h.queued _ mem_cons_self) (h.parked op)
  covered := h.covered_rest (.inr (parked_bufferDelete.mpr (.inl rfl)))
    (fun op hs => by cases op <;> exact hs) (fun _ hp => parked_bufferDelete.mpr (.inr hp))

theorem mem_enqueuePending :
    op ∈ (s.enqueuePending id q).2 ↔ op ∈ q ∨ op ∈ s.parkedInserts id ∨ op ∈ s.parkedDeletes id := by
  simp [enqueuePending, parkedInserts, parkedDeletes]

section
variable (h : s.Buffered)
include h

theorem Buffered.parked_of_insert (ho : op ∈ s.parkedInserts k) : s.Parked op := by
  obtain ⟨id, v, ro, rfl⟩ := h.inserts k op ho
  exact ⟨k, rfl, ho⟩

theorem Buffered.get?_insert_none (hk : s.parkedInserts k = []) :
    s.pendingInserts.get? k = none := by
  cases hg : s.pendingInserts.get? k with
  | none => rfl
  | some l =>
    rw [parkedInserts, hg] at hk
    obtain rfl : l = [] := hk
    exact absurd hg (h.filledInserts k)

theorem Buffered.get?_delete_none (hk : s.parkedDeletes k = []) :
    s.pendingDeletes.get? k = none := by
  cases hg : s.pendingDeletes.get? k with
  | none => rfl
  | some l =>
    rw [parkedDeletes, hg] at hk
    obtain rfl : l = [] := hk
    exact absurd hg (h.filledDeletes k)

theorem Buffered.parked_of_delete (ho : op ∈ s.parkedDeletes k) : s.Parked op := by
  obtain ⟨d, rfl⟩ := h.deletes k op ho
  exact ho

end

/-- What waits for an id moves to the queue. -/
theorem Tracks.enqueue (h : Tracks D s q) (id) :
    Tracks D (s.enqueuePending id q).1 (s.enqueuePending id q).2 where
  toIndexed := ⟨h.grounded, h.index⟩
  toBuffered := h.toBuffered.enqueue id q
  __ := h
  queued op ho := by
    rcases mem_enqueuePending.mp ho with ho | ho | ho
    · exact h.queued op ho
    · exact h.parked op (h.parked_of_insert ho)
    · exact h.parked op (h.parked_of_delete ho)
  parked op ho := by
    cases op with
    | insert after' id' v' ro' =>
      obtain ⟨k, hk, ho⟩ := ho
      rw [parkedInserts_enqueuePending] at ho
      split at ho
      · cases ho
      · exact h.parked _ ⟨k, hk, ho⟩
    | delete t d =>
      change _ ∈ (s.enqueuePending id q).1.parkedDeletes t at ho
      rw [parkedDeletes_enqueuePending] at ho
      split at ho
      · cases ho
      · exact h.parked (.delete t d) ho
  covered op ho := by
    rcases h.covered op ho with hs | hq | hp
    · left
      cases op <;> exact hs
    · exact .inr (.inl (mem_enqueuePending.mpr (.inl hq)))
    · right
      cases op with
      | insert after' id' v' ro' =>
        obtain ⟨k, hk, hp⟩ := hp
        by_cases hkid : k = id
        · exact .inl (mem_enqueuePending.mpr (.inr (.inl (hkid ▸ hp))))
        · exact .inr ⟨k, hk, by rw [parkedInserts_enqueuePending, if_neg hkid]; exact hp⟩
      | delete t d =>
        by_cases ht : t = id
        · exact .inl (mem_enqueuePending.mpr (.inr (.inr (ht ▸ hp))))
        · refine .inr ?_
          show _ ∈ (s.enqueuePending id q).1.parkedDeletes t
          rw [parkedDeletes_enqueuePending, if_neg ht]
          exact hp

/-! ## The work queue -/

theorem load_enqueue {s₀ : Sequence T} (h : s₀.Buffered) (hc : s₀.pendingCount = s.pendingCount)
    (op id) :
    drainLoad (s₀.enqueuePending id q).1 (s₀.enqueuePending id q).2 < drainLoad s (op :: q) := by
  have hcount := count_enqueuePending h id q
  rw [hc] at hcount
  simp only [drainLoad, length_cons, ← add_assoc, hcount]
  generalize s.pendingCount + q.length = n at *
  have hsq : (n + 1) * (n + 1) = n * n + n + n + 1 := by rw [Nat.add_mul, Nat.mul_add]; omega
  omega

theorem load_lt (hc : s'.pendingCount ≤ s.pendingCount + 1)
    (op) : drainLoad s' q < drainLoad s (op :: q) := by
  have hle : s'.pendingCount + q.length ≤ s.pendingCount + (op :: q).length := by
    rw [length_cons]
    omega
  have := Nat.mul_le_mul hle hle
  rw [drainLoad, drainLoad, length_cons] at *
  omega

/-- One turn: the invariants hold again, less is left to do, and if no insert went through the
    elements kept their order. -/
theorem drainStep_tracks (h : Tracks D s (op :: q)) (hq : s.Quiet) :
    Tracks D (s.drainStep q op).1 (s.drainStep q op).2.1 ∧ (s.drainStep q op).1.Quiet ∧
      drainLoad (s.drainStep q op).1 (s.drainStep q op).2.1 < drainLoad s (op :: q) ∧
      ((s.drainStep q op).2.2 = false → s.Ordered → (s.drainStep q op).1.Ordered) := by
  cases op with
  | insert after id v ro =>
    rcases s.insert_cases after id with hid | ⟨hid, ⟨a, rfl, ha⟩ | ha⟩
    · simp only [drainStep, applyInsertInternal_known h.toIndexed hid]
      exact ⟨(h.skip hid).enqueue id, quiet_enqueuePending (fun k hk _ => hq k hk),
        load_enqueue h.toBuffered rfl _ id, fun hf => by cases hf⟩
    · simp only [drainStep, applyInsertInternal_blocked h.toIndexed hid ha]
      refine ⟨h.bufferInsert, ?_, load_lt ?_ _, fun _ ho => ⟨⟨ho.grounded, ho.index⟩, ho.order⟩⟩
      · intro k hk
        have hne : k ≠ a := fun hka => ha (hka ▸ hk)
        rw [parkedInserts_bufferInsert, if_neg hne]
        exact hq k hk
      · have := total_pushPending h.sortedInserts a (.insert (some a) id v ro)
        simp only [pendingCount, Sequence.bufferInsert]
        omega
    · simp only [drainStep, (applyInsertInternal_fresh h.toIndexed hid ha _ _).1]
      refine ⟨(h.push hid ha).enqueue id, quiet_enqueuePending ?_,
        load_enqueue (h.push hid ha).toBuffered rfl _ id, fun hf => by cases hf⟩
      intro k hk hne
      have hk : k ∈ s.elementIds := by
        simpa [elementIds, hne] using hk
      exact hq k hk
  | delete t d =>
    by_cases ht : t ∈ s.elementIds
    · simp only [drainStep, applyDelete_known h.toIndexed ht]
      refine ⟨h.bury ht, ?_, load_lt (Nat.le_succ _) _,
        fun _ ho => ho.of_updateAt keepsPlace_bury rfl rfl⟩
      intro k hk
      have hk : k ∈ s.elementIds := by
        rwa [elementIds, map_id_updateAt keepsPlace_bury] at hk
      exact hq k hk
    · simp only [drainStep, applyDelete_unknown h.toIndexed ht]
      refine ⟨h.bufferDelete, ?_, load_lt ?_ _, fun _ ho => ⟨⟨ho.grounded, ho.index⟩, ho.order⟩⟩
      · intro k hk
        have hne : k ≠ t := fun hkt => ht (hkt ▸ hk)
        rw [parkedDeletes_bufferDelete, if_neg hne]
        exact hq k hk
      · have := total_pushPending h.sortedDeletes t (.delete t d)
        simp only [pendingCount, Sequence.bufferDelete]
        omega

end Steps

theorem drainQueue_flag (n : Nat) (s : Sequence T) (q : List (SequenceOp T)) :
    (drainQueue n s q true).2 = true := by
  induction n generalizing s q with
  | zero => rfl
  | succ n ih =>
    cases q with
    | nil => rfl
    | cons op q =>
      simp only [drainQueue]
      exact ih _ _

variable {D : SequenceOp T → Prop} {s : Sequence T}

/-- The whole loop empties the queue. -/
theorem drainQueue_tracks (n : Nat) (b : Bool) (h : Tracks D s q)
    (hq : s.Quiet) (hn : drainLoad s q ≤ n) :
    Tracks D (drainQueue n s q b).1 [] ∧ (drainQueue n s q b).1.Quiet ∧
      ((drainQueue n s q b).2 = false → s.Ordered → (drainQueue n s q b).1.Ordered) := by
  induction n generalizing s q b with
  | zero =>
    have hnil : q = [] := length_eq_zero_iff.mp (by rw [drainLoad] at hn; omega)
    subst hnil
    exact ⟨h, hq, fun _ ho => ho⟩
  | succ n ih =>
    cases q with
    | nil => exact ⟨h, hq, fun _ ho => ho⟩
    | cons op q =>
      obtain ⟨ht, hquiet, hload, hord⟩ := drainStep_tracks h hq
      obtain ⟨ht', hquiet', hord'⟩ := ih (b || (s.drainStep q op).2.2) ht hquiet (by omega)
      refine ⟨ht', hquiet', fun hf ho => hord' hf (hord ?_ ho)⟩
      -- an insert that went through leaves the flag set
      cases hflag : (s.drainStep q op).2.2 with
      | false => rfl
      | true =>
        simp only [drainQueue, hflag, Bool.or_true] at hf
        rw [drainQueue_flag] at hf
        cases hf

/-! ## One delivery -/

/-- What holds between deliveries. -/
structure Delivered (D : SequenceOp T → Prop) (s : Sequence T) : Prop extends Tracks D s [] where
  quiet : s.Quiet
  order : orderElements s.elements = s.elements

theorem delivered_new : Delivered (fun _ => False) (new : Sequence T) :=
  ⟨tracks_new, fun k hk => by simp [elementIds, new] at hk, rfl⟩

theorem Delivered.ordered (h : Delivered D s) : s.Ordered := ⟨h.toIndexed, h.order⟩

theorem processPending_delivered (h : Tracks D s []) (ho : s.Ordered)
    (hq : ∀ k ∈ s.elementIds, k ≠ id → s.parkedInserts k = [] ∧ s.parkedDeletes k = []) :
    Delivered D (s.processPending id) := by
  obtain ⟨ht, hquiet, hord⟩ :=
    drainQueue_tracks _ false (h.enqueue id) (quiet_enqueuePending hq) le_rfl
  simp only [processPending]
  split
  · exact ⟨ht.rebuild, quiet_rebuildOrder hquiet ht.grounded,
      (ordered_rebuildOrder ht.grounded).order⟩
  · next hflag =>
    exact ⟨ht, hquiet, (hord (by simpa using hflag) ⟨⟨ho.grounded, ho.index⟩, ho.order⟩).order⟩

/-- One delivery adds one operation to what the sequence has seen. -/
theorem apply_delivered (h : Delivered D s) (op) :
    Delivered (fun o => o = op ∨ D o) (s.apply op) := by
  have hd := h.toTracks.deliver op
  cases op with
  | insert after id v ro =>
    rcases s.insert_cases after id with hid | ⟨hid, ⟨a, rfl, ha⟩ | ha⟩
    · simp only [apply, applyNow, applyInsert, applyInsertInternal_known h.toIndexed hid]
      exact processPending_delivered (hd.skip hid) h.ordered (fun k hk _ => h.quiet k hk)
    · simp only [apply, applyNow, applyInsert, applyInsertInternal_blocked h.toIndexed hid ha]
      refine ⟨hd.bufferInsert, ?_, h.order⟩
      intro k hk
      have hne : k ≠ a := fun hka => ha (hka ▸ hk)
      rw [parkedInserts_bufferInsert, if_neg hne]
      exact h.quiet k hk
    · simp only [apply, applyNow, applyInsert, (applyInsertInternal_fresh h.toIndexed hid ha _ _).2]
      have hg := (hd.push hid ha).grounded
      refine processPending_delivered (hd.push hid ha).rebuild (ordered_rebuildOrder hg) ?_
      intro k hk hne
      obtain ⟨e, he, rfl⟩ := mem_elementIds.mp hk
      rcases mem_append.mp ((mem_rebuildOrder hg).mp he) with he | he
      · exact h.quiet e.id (mem_elementIds.mpr ⟨e, he, rfl⟩)
      · exact absurd (congrArg Element.id (mem_singleton.mp he)) hne
  | delete t d =>
    by_cases ht : t ∈ s.elementIds
    · simp only [apply, applyNow, applyDelete_known h.toIndexed ht]
      have hord : Ordered { s with elements := updateAt t bury s.elements } :=
        h.ordered.of_updateAt keepsPlace_bury rfl rfl
      refine ⟨hd.bury ht, ?_, hord.order⟩
      intro k hk
      have hk : k ∈ s.elementIds := by
        rwa [elementIds, map_id_updateAt keepsPlace_bury] at hk
      exact h.quiet k hk
    · simp only [apply, applyNow, applyDelete_unknown h.toIndexed ht]
      refine ⟨hd.bufferDelete, ?_, h.order⟩
      intro k hk
      have hne : k ≠ t := fun hkt => ht (hkt ▸ hk)
      rw [parkedDeletes_bufferDelete, if_neg hne]
      exact h.quiet k hk

theorem applyAll_delivered (h : Delivered D s) (ops) :
    Delivered (fun o => o ∈ ops ∨ D o) (s.applyAll ops) := by
  induction ops generalizing D s with
  | nil => simpa [applyAll] using h
  | cons op ops ih =>
    have hstep := ih (apply_delivered h op)
    rw [show (fun o => o ∈ ops ∨ o = op ∨ D o) = fun o => o ∈ op :: ops ∨ D o from
      funext fun o => propext (by simp [or_left_comm, or_assoc])] at hstep
    exact hstep

/-! ## The delivered operations determine the elements -/

/-- Two inserts of one id are the same insert. -/
def Agree : SequenceOp T → SequenceOp T → Prop
  | .insert a id v ro, .insert a' id' v' ro' => id = id' → a = a' ∧ v = v' ∧ ro = ro'
  | _, _ => True

instance [DecidableEq T] : DecidableRel (Agree (T := T))
  | .insert _ _ _ _, .insert _ _ _ _ => inferInstanceAs (Decidable (_ → _))
  | .insert _ _ _ _, .delete _ _ => isTrue trivial
  | .delete _ _, _ => isTrue trivial

def Consistent (D : SequenceOp T → Prop) : Prop := ∀ op, D op → ∀ op', D op' → Agree op op'

section Unique
variable {D : SequenceOp T → Prop} {s s' : Sequence T}

section
variable (h : Delivered D s)
include h

/-- An id with all its anchors delivered is there; more deliveries take nothing away. -/
theorem Delivered.ids_subset (h' : Delivered D' s')
    (hsub : ∀ op, D op → D' op) : ∀ id ∈ s.elementIds, id ∈ s'.elementIds := by
  obtain ⟨ls, hp, hb⟩ := h.grounded
  have hlinks : ∀ l ∈ ls, ∃ v ro, D' (.insert l.2 l.1 v ro) := by
    intro l hl
    obtain ⟨e, he, rfl⟩ := mem_map.mp (hp.mem_iff.mp hl)
    obtain ⟨v, hv, _⟩ := h.source e he
    exact ⟨v, _, hsub _ hv⟩
  -- along the order in which `s` was grown
  have hgrow : ∀ l ∈ ls, l.1 ∈ s'.elementIds := by
    clear hp
    induction hb with
    | nil => simp
    | @cons x p ls hb hx hpar ih =>
      have ih := ih (fun l hl => hlinks l (mem_cons_of_mem _ hl))
      intro l hl
      rcases mem_cons.mp hl with rfl | hl
      · obtain ⟨v, ro, hd⟩ := hlinks _ mem_cons_self
        rcases h'.covered _ hd with hs | hq | ⟨k, hk, hpk⟩
        · exact hs
        · cases hq
        · -- it cannot wait for an anchor that is there
          obtain ⟨l, hl, rfl⟩ := mem_map.mp (hpar k hk)
          rw [(h'.quiet _ (ih l hl)).1] at hpk
          cases hpk
      · exact ih l hl
  intro id hid
  rw [elementIds, ← map_fst_links, ← (hp.map _).mem_iff] at hid
  obtain ⟨l, hl, rfl⟩ := mem_map.mp hid
  exact hgrow l hl

theorem Delivered.value_none (he : e ∈ s.elements) : e.value = none ↔ ∃ d, D (.delete e.id d) := by
  refine ⟨h.tombstone e he, fun ⟨d, hd⟩ => ?_⟩
  rcases h.covered _ hd with ⟨e', he', hid, hn⟩ | hq | hp
  · rwa [h.grounded.distinct.eq_of_id he he' hid.symm]
  · cases hq
  · change _ ∈ s.parkedDeletes e.id at hp
    rw [(h.quiet _ (mem_elementIds.mpr ⟨e, he, rfl⟩)).2] at hp
    cases hp

theorem Delivered.mem_of_mem (h' : Delivered D s') (hc : Consistent D) (he : e ∈ s.elements) :
    e ∈ s'.elements := by
  obtain ⟨e', he', hid⟩ :=
    mem_elementIds.mp (h.ids_subset h' (fun _ ho => ho) e.id (mem_elementIds.mpr ⟨e, he, rfl⟩))
  obtain ⟨v, hd, hv⟩ := h.source e he
  obtain ⟨v', hd', hv'⟩ := h'.source e' he'
  rw [hid] at hd'
  obtain ⟨hafter, rfl, hro⟩ := hc _ hd _ hd' rfl
  have hval : e.value = e'.value := by
    have hiff : e.value = none ↔ e'.value = none := by
      rw [h.value_none he, h'.value_none he', hid]
    cases hev : e.value with
    | none => exact (hiff.mp hev).symm
    | some w =>
      cases hev' : e'.value with
      | none =>
        rw [hiff.mpr hev'] at hev
        cases hev
      | some w' => rw [hv w hev, hv' w' hev']
  have : e = e' := by
    cases e
    cases e'
    simp_all
  rw [this]
  exact he'

/-- Two sequences that saw the same operations hold the same elements in the same order. -/
theorem Delivered.elements_eq (h' : Delivered D s') (hc : Consistent D) :
    s.elements = s'.elements := by
  have hperm : s.elements.Perm s'.elements :=
    (perm_ext_iff_of_nodup (Nodup.of_map _ h.grounded.distinct)
      (Nodup.of_map _ h'.grounded.distinct)).mpr
      (fun e => ⟨h.mem_of_mem h' hc, h'.mem_of_mem h hc⟩)
  rw [← h.order, ← h'.order, orderElements_congr h.grounded.distinct hperm]

end

end Unique

/-- Strong convergence: replicas that apply every operation of a finite set, in any order and
    any number of times, hold the same elements in the same order. -/
theorem applyAll_converges (S : Finset (SequenceOp T)) (hc : Consistent (fun op => op ∈ S))
    (ops₁ ops₂ : List (SequenceOp T)) (h₁ : ∀ op, op ∈ ops₁ ↔ op ∈ S)
    (h₂ : ∀ op, op ∈ ops₂ ↔ op ∈ S) :
    (new.applyAll ops₁).elements = (new.applyAll ops₂).elements := by
  have delivered : ∀ ops : List (SequenceOp T), (∀ op, op ∈ ops ↔ op ∈ S) →
      Delivered (fun op => op ∈ S) (new.applyAll ops) := by
    intro ops hops
    have h := applyAll_delivered delivered_new ops
    rwa [show (fun op => op ∈ ops ∨ False) = fun op => op ∈ S from
      funext fun op => by rw [or_false, hops]] at h
  exact (delivered ops₁ h₁).elements_eq (delivered ops₂ h₂) hc

/-- A child and a delete that arrive before the elements they name, and a duplicate. -/
theorem applyAll_converges_late_anchor :
    (new.applyAll [.delete ⟨2, 1⟩ ⟨4, 1⟩, .insert (some ⟨1, 1⟩) ⟨2, 1⟩ 20 none,
        .insert (some ⟨9, 9⟩) ⟨3, 2⟩ 30 none, .insert none ⟨1, 1⟩ 10 none]).elements =
      (new.applyAll [.insert none ⟨1, 1⟩ 10 none, .insert (some ⟨1, 1⟩) ⟨2, 1⟩ 20 none,
        .insert (some ⟨9, 9⟩) ⟨3, 2⟩ 30 none, .insert none ⟨1, 1⟩ 10 none,
        .delete ⟨2, 1⟩ ⟨4, 1⟩]).elements := by
  refine applyAll_converges {.delete ⟨2, 1⟩ ⟨4, 1⟩, .insert (some ⟨1, 1⟩) ⟨2, 1⟩ 20 none,
    .insert (some ⟨9, 9⟩) ⟨3, 2⟩ 30 none, .insert none ⟨1, 1⟩ 10 none} ?_ _ _ (by simp) ?_
  · unfold Consistent
    decide
  · intro op
    simp only [mem_cons, not_mem_nil, Finset.mem_insert, Finset.mem_singleton]
    tauto

end Sequence
end MdCrdt
