import MdCrdt.Session.Wire

/- The ids an operation covers, with 64-bit counters (`session/wire.rs`).

  The source computes the largest id that an operation embeds, and the number of the
  counters it covers, with saturating additions. They agree with those on natural
  numbers as long as the id lies below the last counter (`operationExtent64_eq`).

  Correspondence (Rust ↔ Lean):
    `operation_extent`, `max_counter_in_kind` ↔ `operationExtent64`, `maxCounterInKind64` -/
namespace MdCrdt
open Lib

/-- Two counters that differ only where the second one is the last. -/
def Clamped (n m : Nat) : Prop := min n u64Max ≤ m ∧ m ≤ n

theorem Clamped.max (h : Clamped n m) (h' : Clamped n' m') : Clamped (max n n') (max m m') := by
  unfold Clamped at *
  omega

theorem Clamped.refl (n) : Clamped n n := ⟨min_le_left _ _, le_refl _⟩

theorem Clamped.eq (h : Clamped n m) (hc : c < u64Max) : c = m ↔ c = n := by
  unfold Clamped at h
  omega

section Segmentation
variable [Segmentation]

mutual

def maxCounterInKind64 (parent : OpId) : BlockKindSkeleton → Nat
  | .paragraph text | .heading _ text => saturatingAdd parent.counter (graphemeCount text)
  | .blockQuote children => maxCounterInChildren64 parent.counter children
  | .list _ items => maxCounterInItems64 parent.counter items
  | .codeFence _ _ _ | .rawBlock _ | .table => parent.counter

def maxCounterInChildren64 (hi : Nat) : List BlockSkeletonInsert → Nat
  | [] => hi
  | ⟨_, id, _, ⟨_, kind⟩⟩ :: rest =>
    maxCounterInChildren64 (max (max hi id.counter) (maxCounterInKind64 id kind)) rest

def maxCounterInItems64 (hi : Nat) : List ListItemSkeleton → Nat
  | [] => hi
  | ⟨_, id, _, _, _, taskOp, children⟩ :: rest =>
    maxCounterInItems64 (maxCounterInChildren64 (max (max hi id.counter) taskOp.counter) children)
      rest

end

/-- The extent, with saturating additions. -/
def operationExtent64 (envelope : Envelope) : OpId × Nat :=
  match envelope.body with
  | .doc (.insertBlock _ _ id _ block) =>
    let hi := maxCounterInKind64 id block.kind
    (⟨hi, id.peer⟩, saturatingAdd (hi - id.counter) 1)
  | _ => ((operationExtent envelope).1, min (operationExtent envelope).2 u64Max)

mutual

theorem clamped_kind (parent) :
    ∀ kind, Clamped (maxCounterInKind parent kind) (maxCounterInKind64 parent kind)
  | .paragraph text | .heading _ text => by
    rw [maxCounterInKind, maxCounterInKind64]
    exact ⟨le_refl _, min_le_left _ _⟩
  | .blockQuote children => by
    rw [maxCounterInKind, maxCounterInKind64]
    exact clamped_children (Clamped.refl _) children
  | .list _ items => by
    rw [maxCounterInKind, maxCounterInKind64]
    exact clamped_items (Clamped.refl _) items
  | .codeFence _ _ _ | .rawBlock _ | .table => by
    rw [maxCounterInKind, maxCounterInKind64]
    exact Clamped.refl _

theorem clamped_children (h : Clamped n m) :
    ∀ children, Clamped (maxCounterInChildren n children) (maxCounterInChildren64 m children)
  | [] => by
    rw [maxCounterInChildren, maxCounterInChildren64]
    exact h
  | ⟨_, id, _, ⟨_, kind⟩⟩ :: rest => by
    rw [maxCounterInChildren, maxCounterInChildren64]
    exact clamped_children ((h.max (Clamped.refl _)).max (clamped_kind id kind)) rest

theorem clamped_items (h : Clamped n m) :
    ∀ items, Clamped (maxCounterInItems n items) (maxCounterInItems64 m items)
  | [] => by
    rw [maxCounterInItems, maxCounterInItems64]
    exact h
  | ⟨_, id, _, _, _, taskOp, children⟩ :: rest => by
    rw [maxCounterInItems, maxCounterInItems64]
    exact clamped_items (clamped_children ((h.max (Clamped.refl _)).max (Clamped.refl _)) children)
      rest

end

/-- An operation covers no more counters than there are up to its id. -/
theorem span_le (envelope) :
    (operationExtent envelope).2 ≤ (operationExtent envelope).1.counter + 1 := by
  unfold operationExtent
  split
  · simp
  · split <;> simp
  · simp
  · simp
  all_goals simp

theorem isMax64_iff {id} (hid : id.counter < u64Max) (envelope) :
    id = (operationExtent64 envelope).1 ↔ id = (operationExtent envelope).1 := by
  unfold operationExtent64
  split
  · next parent after id' rightOrigin block heq =>
    have hextent : (operationExtent envelope).1 = ⟨maxCounterInKind id' block.kind, id'.peer⟩ := by
      rw [operationExtent, heq]
    rw [hextent, OpId.ext_iff', OpId.ext_iff', (clamped_kind id' block.kind).eq hid]
  · rfl

/-- Below the last counter, nothing saturates. -/
theorem span64_eq {id} (hid : id.counter < u64Max) (h : id = (operationExtent envelope).1) :
    (operationExtent64 envelope).2 = (operationExtent envelope).2 := by
  have hspan := span_le envelope
  rw [← h] at hspan
  have h64 := (isMax64_iff hid envelope).mpr h
  unfold operationExtent64 at h64 ⊢
  split
  · next parent after id' rightOrigin block heq =>
    have hextent : operationExtent envelope = (⟨maxCounterInKind id' block.kind, id'.peer⟩,
        maxCounterInKind id' block.kind - id'.counter + 1) := by rw [operationExtent, heq]
    rw [heq] at h64
    rw [hextent] at hspan h ⊢
    have hhi : maxCounterInKind64 id' block.kind = maxCounterInKind id' block.kind :=
      (congrArg OpId.counter h64).symm.trans (congrArg OpId.counter h)
    simp only [hhi, saturatingAdd] at hspan ⊢
    omega
  · simp only
    omega

/-- Nor does it for an operation whose id lies below the last counter. -/
theorem operationExtent64_eq (h : (operationExtent envelope).1.counter < u64Max) :
    operationExtent64 envelope = operationExtent envelope :=
  Prod.ext ((isMax64_iff h envelope).mpr rfl).symm (span64_eq h rfl)

end Segmentation
end MdCrdt
