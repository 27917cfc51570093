import Mathlib.Data.List.Nodup

/- A greedy choice of edges between two sides.

  The edges come from the best to the worst, and one is taken if both its ends are free.
  No end is taken twice (`nodup_takeEdges`), and an edge is left out only for one that
  shares an end with it and is at least as good (`exists_takeEdges`). -/
namespace MdCrdt.Lib
open List

structure Edge (A B : Type) where
  score : Nat
  old : A
  new : B

variable {A B : Type} [DecidableEq A] [DecidableEq B]

/-- Take the edges whose ends are both free. -/
def takeEdges (matchedOld : List A) (matchedNew : List B) : List (Edge A B) → List (Edge A B)
  | [] => []
  | e :: edges =>
    if e.old ∈ matchedOld ∨ e.new ∈ matchedNew then takeEdges matchedOld matchedNew edges
    else e :: takeEdges (e.old :: matchedOld) (e.new :: matchedNew) edges

variable {l : List (Edge A B)} {s : List A} {t : List B} {e : Edge A B}

theorem mem_of_takeEdges (h : e ∈ takeEdges s t l) : e ∈ l := by
  induction l generalizing s t with
  | nil => exact h
  | cons first l ih =>
    rw [takeEdges] at h
    split at h
    · exact mem_cons_of_mem _ (ih h)
    · exact (mem_cons.mp h).elim (fun he => he ▸ mem_cons_self) (fun h => mem_cons_of_mem _ (ih h))

/-- No end is taken twice. -/
theorem nodup_takeEdges (hs : s.Nodup) (ht : t.Nodup) :
    (s ++ (takeEdges s t l).map Edge.old).Nodup ∧
      (t ++ (takeEdges s t l).map Edge.new).Nodup := by
  induction l generalizing s t with
  | nil => simpa [takeEdges] using ⟨hs, ht⟩
  | cons e l ih =>
    rw [takeEdges]
    split
    · exact ih hs ht
    · next h =>
      obtain ⟨ho, hn⟩ := not_or.mp h
      obtain ⟨hold, hnew⟩ := ih (nodup_cons.mpr ⟨ho, hs⟩) (nodup_cons.mpr ⟨hn, ht⟩)
      exact ⟨perm_middle.nodup_iff.mpr hold, perm_middle.nodup_iff.mpr hnew⟩

/-- An edge whose ends were free is taken, or one that is at least as good has taken an end. -/
theorem exists_takeEdges (hp : l.Pairwise (fun a b => b.score ≤ a.score)) (he : e ∈ l)
    (ho : e.old ∉ s) (hn : e.new ∉ t) :
    ∃ m ∈ takeEdges s t l, (m.old = e.old ∨ m.new = e.new) ∧ e.score ≤ m.score := by
  induction l generalizing s t with
  | nil => cases he
  | cons first l ih =>
    obtain ⟨hfirst, hrest⟩ := pairwise_cons.mp hp
    rw [takeEdges]
    rcases mem_cons.mp he with rfl | he
    · rw [if_neg (not_or.mpr ⟨ho, hn⟩)]
      exact ⟨e, mem_cons_self, .inl rfl, Nat.le_refl _⟩
    · split
      · exact ih hrest he ho hn
      · by_cases hshare : first.old = e.old ∨ first.new = e.new
        · exact ⟨first, mem_cons_self, hshare, hfirst e he⟩
        · obtain ⟨hold, hnew⟩ := not_or.mp hshare
          obtain ⟨m, hm, hgood⟩ := ih (s := first.old :: s) (t := first.new :: t) hrest he
            (by simp [Ne.symm hold, ho]) (by simp [Ne.symm hnew, hn])
          exact ⟨m, mem_cons_of_mem _ hm, hgood⟩

end MdCrdt.Lib
