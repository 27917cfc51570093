import MdCrdt.Sync.State

/- Promotion, one operation at a time.

  `promoteReadyPending` makes pass after pass over the buffer. Whatever the passes
  do is a sequence of single promotions (`Promotion`), each of an operation that
  was ready at its turn, so an invariant needs one lemma about recording a waiting
  operation; and when it returns, nothing in the buffer is ready (`settled`). -/
namespace MdCrdt
open Lib List SortedMap
namespace SyncState
variable {P : Type} {s t : SyncState P} {op : Operation P} {n : Nat}

/-- The counters below the range of the operation have been seen. -/
def Ready (s : SyncState P) (id : OpId) (span : Nat) : Prop :=
  spanStart id.counter span ≤ s.stateVector.seen id.peer + 1

/-- The operation under an id moves from the buffer to the log. -/
def promote (s : SyncState P) (id : OpId) (op : Operation P) : SyncState P :=
  { s with pending := s.pending.erase id }.record op

/-- A sequence of promotions, each of an operation that was ready at its turn. -/
inductive Promotion : SyncState P → List (Operation P) → SyncState P → Prop
  | nil {s : SyncState P} : Promotion s [] s
  | cons {s t id op n ops}
      (hw : s.pending.get? id = some (op, n)) (hr : s.Ready id n)
      (h : Promotion (s.promote id op) ops t) : Promotion s (op :: ops) t

theorem Promotion.append (h : Promotion s l s')
    (h' : Promotion s' l' t) : Promotion s (l ++ l') t := by
  induction h with
  | nil => exact h'
  | cons hw hr _ ih => exact .cons hw hr (ih h')

/-- Nothing in the buffer is ready. -/
def Settled (s : SyncState P) : Prop :=
  ∀ id o n, s.pending.get? id = some (o, n) → ¬s.Ready id n

/-! ## One pass -/

theorem promotion_pass (s : SyncState P) (ids) :
    Promotion s (s.promotePass ids).2 (s.promotePass ids).1 := by
  induction ids generalizing s with
  | nil => exact .nil
  | cons id rest ih =>
    rw [promotePass]
    split
    · next op n hw =>
      split
      · next hr => exact .cons hw hr (ih _)
      · exact ih s
    · exact ih s

theorem pending_record (s : SyncState P) (op) : (s.record op).pending = s.pending := by
  simp only [record, observe]
  split <;> rfl

theorem size_promote {id} (hw : s.pending.get? id = some (op, n)) :
    (s.promote id op).pending.size < s.pending.size := by
  rw [promote, pending_record]
  refine length_filter_lt_length_iff_exists.mpr ⟨(id, op, n), get?_mem hw, ?_⟩
  simp

theorem Promotion.size_add_length (h : Promotion s l t) :
    t.pending.size + l.length ≤ s.pending.size := by
  induction h with
  | nil => simp
  | cons hw _ _ ih =>
    have := size_promote hw
    rw [length_cons]
    omega

/-- A pass that promotes nothing has found nothing ready. -/
theorem promotePass_nil (h : (s.promotePass ids).2 = []) : (s.promotePass ids).1 = s ∧
      ∀ id ∈ ids, ∀ o n, s.pending.get? id = some (o, n) → ¬s.Ready id n := by
  induction ids with
  | nil => exact ⟨rfl, by simp⟩
  | cons id rest ih =>
    rw [promotePass] at h ⊢
    split at h
    · next op n hw =>
      split at h
      · cases h
      · next hr =>
        obtain ⟨heq, hrest⟩ := ih h
        rw [if_neg hr]
        refine ⟨heq, fun k hk o m hm => ?_⟩
        rcases mem_cons.mp hk with rfl | hk
        · obtain ⟨rfl, rfl⟩ := Prod.mk.inj (Option.some.inj (hw.symm.trans hm))
          exact hr
        · exact hrest k hk o m hm
    · next hw =>
      obtain ⟨heq, hrest⟩ := ih h
      refine ⟨heq, fun k hk o m hm => ?_⟩
      rcases mem_cons.mp hk with rfl | hk
      · rw [hw] at hm
        cases hm
      · exact hrest k hk o m hm

/-! ## The loop -/

theorem promotion_loop (k : Nat) (s : SyncState P) :
    Promotion s (promoteLoop k s).2 (promoteLoop k s).1 := by
  induction k generalizing s with
  | zero => exact .nil
  | succ k ih =>
    have hp := promotion_pass s s.pending.keys
    rw [promoteLoop]
    split
    · next s' heq =>
      rw [heq] at hp
      exact hp
    · next s' promoted _ heq =>
      rw [heq] at hp
      exact hp.append (ih s')

/-- Every pass but the last takes something off the buffer, so the buffer settles before the
    passes run out. -/
theorem settled_loop {s : SyncState P} (hk : s.pending.size < k) : (promoteLoop k s).1.Settled := by
  induction k generalizing s with
  | zero => exact absurd hk (Nat.not_lt_zero _)
  | succ k ih =>
    have hp := (promotion_pass s s.pending.keys).size_add_length
    rw [promoteLoop]
    split
    · next s' heq =>
      obtain ⟨hsame, hnone⟩ := promotePass_nil (by rw [heq] : (s.promotePass s.pending.keys).2 = [])
      rw [heq] at hsame
      obtain rfl : s' = s := hsame
      exact fun id o n hw => hnone id (contains_iff_mem_keys.mp
        (contains_iff_get?.mpr ⟨_, hw⟩)) o n hw
    · next s' promoted hne heq =>
      rw [heq] at hp
      have hlen : promoted.length ≠ 0 := fun h0 => hne (length_eq_zero_iff.mp h0)
      exact ih (by simp only at hp; omega)

theorem promotion_ready (s : SyncState P) :
    Promotion s s.promoteReadyPending.2 s.promoteReadyPending.1 :=
  promotion_loop _ s

theorem settled (s : SyncState P) : s.promoteReadyPending.1.Settled :=
  settled_loop (Nat.lt_succ_self _)

end SyncState
end MdCrdt
