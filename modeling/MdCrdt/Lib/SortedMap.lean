import Mathlib.Algebra.GroupWithZero.Nat
import Mathlib.Order.Lattice
import Mathlib.Data.List.Pairwise

/- An ordered map as the list of its entries, ascending by key.

  The entries are a plain list, so that the map may stand inside a nested
  inductive type; `Sorted` is the invariant every operation keeps. Lookups
  behave as expected on any entries (`get?_insert`, `get?_erase`); sortedness is
  what makes two maps with the same lookups equal (`ext_get?`). -/
namespace MdCrdt.Lib
open Option Prod
open List hiding lt_trans not_lt lt_irrefl

theorem forall_mem_push {A : Type} {Q : A → Prop} {l a} (h : ∀ x ∈ l, Q x)
    (ha : Q a) : ∀ x ∈ l ++ [a], Q x :=
  forall_mem_append.mpr ⟨h, forall_mem_singleton.mpr ha⟩

theorem nodup_push {A : Type} {l : List A} {a} (h : l.Nodup) (ha : a ∉ l) : (l ++ [a]).Nodup := by
  refine nodup_append.mpr ⟨h, by simp, fun x hx y hy => ?_⟩
  rw [mem_singleton.mp hy]
  exact fun he => ha (he ▸ hx)

/-- An ordered map, as its entries. -/
structure SortedMap (K V : Type) where
  entries : List (K × V)
  deriving DecidableEq, Repr

namespace SortedMap
variable {K V : Type} {W : Type} {v : V}
variable (g : V → W)

def empty : SortedMap K V := ⟨[]⟩

instance : Inhabited (SortedMap K V) := ⟨empty⟩

def keys (m : SortedMap K V) : List K := m.entries.map fst

def values (m : SortedMap K V) : List V := m.entries.map snd

def size (m : SortedMap K V) : Nat := m.entries.length

/-- The first entry of a list under a key. -/
def lookupList [DecidableEq K] (k : K) : List (K × V) → Option V
  | [] => none
  | (k', v) :: rest => if k = k' then some v else lookupList k rest

def get? [DecidableEq K] (m : SortedMap K V) (k : K) : Option V := lookupList k m.entries

def contains [DecidableEq K] (m : SortedMap K V) (k : K) : Bool := (m.get? k).isSome

/-- Insert into a list of entries, in front of the first larger key. -/
def insertList [LinearOrder K] (k : K) (v : V) : List (K × V) → List (K × V)
  | [] => [(k, v)]
  | (k', v') :: rest =>
    if k < k' then (k, v) :: (k', v') :: rest
    else if k = k' then (k, v) :: rest
    else (k', v') :: insertList k v rest

def insert [LinearOrder K] (m : SortedMap K V) (k : K) (v : V) : SortedMap K V :=
  ⟨insertList k v m.entries⟩

def erase [DecidableEq K] (m : SortedMap K V) (k : K) : SortedMap K V :=
  ⟨m.entries.filter (fun e => e.1 ≠ k)⟩

/-- Keys strictly ascend. -/
def Sorted [LinearOrder K] (m : SortedMap K V) : Prop :=
  m.entries.Pairwise (fun a b => a.1 < b.1)

instance [LinearOrder K] (m : SortedMap K V) : Decidable m.Sorted :=
  inferInstanceAs (Decidable (m.entries.Pairwise _))

/-! ## Lookups -/

section Lookup
variable [DecidableEq K] {k : K} {m : SortedMap K V}

@[simp] theorem get?_empty (k) : (empty : SortedMap K V).get? k = none := rfl

theorem lookupList_isSome {l : List (K × V)} : (lookupList k l).isSome ↔ k ∈ l.map fst := by
  induction l with
  | nil => simp [lookupList]
  | cons e rest ih =>
    obtain ⟨k', v⟩ := e
    by_cases h : k = k'
    · simp [lookupList, h]
    · simp [lookupList, h, ih]

theorem lookupList_mem (h : lookupList k l = some v) : (k, v) ∈ l := by
  induction l with
  | nil => simp [lookupList] at h
  | cons e rest ih =>
    obtain ⟨k', v'⟩ := e
    by_cases hk : k = k'
    · simp only [lookupList, hk, if_true, some.injEq] at h
      subst hk; subst h; exact mem_cons_self
    · simp only [lookupList, hk, if_false] at h
      exact mem_cons_of_mem _ (ih h)

theorem contains_iff_mem_keys : m.contains k = true ↔ k ∈ m.keys :=
  lookupList_isSome

theorem contains_iff_get? : m.contains k = true ↔ ∃ v, m.get? k = some v := by
  unfold contains; exact isSome_iff_exists

theorem get?_mem (h : m.get? k = some v) : (k, v) ∈ m.entries := lookupList_mem h

theorem get?_eq_none : m.get? k = none ↔ k ∉ m.keys := by
  rw [← contains_iff_mem_keys, contains]; simp

theorem lookupList_filter (k k') (l : List (K × V)) :
    lookupList k' (l.filter (fun e => e.1 ≠ k)) = if k' = k then none else lookupList k' l := by
  induction l with
  | nil => simp [lookupList]
  | cons e rest ih =>
    obtain ⟨k'', v⟩ := e
    by_cases hk : k'' = k
    · rw [filter_cons_of_neg (by simp [hk]), ih]
      by_cases h : k' = k
      · simp [h]
      · simp [h, lookupList, hk]
    · rw [filter_cons_of_pos (by simp [hk])]
      by_cases h : k' = k
      · subst h
        simp only [lookupList, Ne.symm hk, if_false]
        rw [ih]
        simp
      · simp only [lookupList, h, if_false, ih]

@[simp] theorem get?_erase (m : SortedMap K V) (k k') :
    (m.erase k).get? k' = if k' = k then none else m.get? k' :=
  lookupList_filter k k' m.entries

theorem get?_erase_eq_some : (m.erase k).get? k' = some v ↔ k' ≠ k ∧ m.get? k' = some v := by
  rw [get?_erase]
  split
  · next h => simp [h]
  · next h => simp [h]

theorem erase_of_get?_none (h : m.get? k = none) : m.erase k = m := by
  have hk : k ∉ m.keys := get?_eq_none.mp h
  cases m with | mk l
  simp only [erase, keys, mk.injEq] at hk ⊢
  rw [filter_eq_self]
  intro e he
  have : e.1 ≠ k := fun hek => hk (hek ▸ mem_map_of_mem he)
  simpa using this

end Lookup

section Insert
variable [LinearOrder K] {m : SortedMap K V} {k : K} {l : List (K × V)}

theorem lookupList_insertList (k : K) (v : V) (k' l) :
    lookupList k' (insertList k v l) = if k' = k then some v else lookupList k' l := by
  induction l with
  | nil => simp [insertList, lookupList]
  | cons e rest ih =>
    obtain ⟨k'', v''⟩ := e
    simp only [insertList]
    split
    · simp only [lookupList]
    · split
      · next heq =>
        subst heq
        by_cases h : k' = k <;> simp [lookupList, h]
      · next hne =>
        by_cases h : k' = k''
        · subst h
          have : ¬ k' = k := fun hk => hne hk.symm
          simp [lookupList, this]
        · simp only [lookupList, h, if_false, ih]

@[simp] theorem get?_insert (m : SortedMap K V) (k : K) (v : V) (k' : K) :
    (m.insert k v).get? k' = if k' = k then some v else m.get? k' :=
  lookupList_insertList k v k' m.entries

theorem get?_insert_eq_some :
    (m.insert k v).get? k' = some w ↔ k' = k ∧ v = w ∨ k' ≠ k ∧ m.get? k' = some w := by
  rw [get?_insert]
  split
  · next h => simp [h]
  · next h => simp [h]

theorem mem_keys_insert : k' ∈ (m.insert k v).keys ↔ k' = k ∨ k' ∈ m.keys := by
  rw [← contains_iff_mem_keys, ← contains_iff_mem_keys, contains, contains, get?_insert]
  split
  · next h => simp [h]
  · next h => simp [h]

theorem mem_insertList (h : e ∈ insertList k v l) : e = (k, v) ∨ e ∈ l := by
  induction l with
  | nil => simpa [insertList] using h
  | cons x rest ih =>
    simp only [insertList] at h
    split at h
    · simpa using h
    · split at h
      · rcases mem_cons.mp h with h | h
        · exact .inl h
        · exact .inr (mem_cons_of_mem _ h)
      · rcases mem_cons.mp h with h | h
        · exact .inr (h ▸ mem_cons_self)
        · rcases ih h with h | h
          · exact .inl h
          · exact .inr (mem_cons_of_mem _ h)

/-- What a fold of inserts holds was inserted or had been there. -/
theorem mem_foldl_insert {A : Type} {f : A → K} {g : A → V} {l : List A}
    (h : e ∈ (l.foldl (fun m a => m.insert (f a) (g a)) m).entries) :
    (∃ a ∈ l, e = (f a, g a)) ∨ e ∈ m.entries := by
  induction l generalizing m with
  | nil => exact .inr h
  | cons a l ih =>
    rcases ih h with ⟨b, hb, he⟩ | h
    · exact .inl ⟨b, mem_cons_of_mem _ hb, he⟩
    · rcases mem_insertList h with he | h
      · exact .inl ⟨a, mem_cons_self, he⟩
      · exact .inr h

/-- A fold of inserts under other keys. -/
theorem get?_foldl_insert (h : k ∉ l.map fst) (m : SortedMap K V) :
    (l.foldl (fun m e => m.insert e.1 e.2) m).get? k = m.get? k := by
  induction l generalizing m with
  | nil => rfl
  | cons e l ih =>
    rw [map_cons, mem_cons, not_or] at h
    rw [foldl_cons, ih h.2, get?_insert, if_neg h.1]

/-- A fold of inserts under different keys holds them all. -/
theorem get?_foldl_insert_of_mem (hl : (l.map fst).Nodup) (he : e ∈ l)
    (m : SortedMap K V) : (l.foldl (fun m e => m.insert e.1 e.2) m).get? e.1 = some e.2 := by
  induction l generalizing m with
  | nil => cases he
  | cons e' l ih =>
    obtain ⟨hnot, hl⟩ := nodup_cons.mp hl
    rw [foldl_cons]
    rcases mem_cons.mp he with rfl | he
    · rw [get?_foldl_insert hnot, get?_insert, if_pos rfl]
    · exact ih hl he _

/-- A fold of inserts holds something under each of its keys. -/
theorem exists_get?_foldl_insert (h : k ∈ l.map fst) (m : SortedMap K V) :
    ∃ v, (k, v) ∈ l ∧ (l.foldl (fun m e => m.insert e.1 e.2) m).get? k = some v := by
  induction l generalizing m with
  | nil => cases h
  | cons e l ih =>
    rw [foldl_cons]
    by_cases hin : k ∈ l.map fst
    · obtain ⟨v, hv, hget⟩ := ih hin (m.insert e.1 e.2)
      exact ⟨v, mem_cons_of_mem e hv, hget⟩
    · obtain rfl : k = e.1 := (mem_cons.mp h).resolve_right hin
      refine ⟨e.2, mem_cons_self, ?_⟩
      rw [get?_foldl_insert hin, get?_insert, if_pos rfl]

/-- What a fold of inserts holds was put there, or was there before. -/
theorem mem_of_get?_foldl_insert (h : (l.foldl (fun m e => m.insert e.1 e.2) m).get? k = some v) :
    (k, v) ∈ l ∨ m.get? k = some v := by
  induction l generalizing m with
  | nil => exact .inr h
  | cons e l ih =>
    rcases ih h with hmem | hget
    · exact .inl (mem_cons_of_mem e hmem)
    · rcases get?_insert_eq_some.mp hget with ⟨rfl, rfl⟩ | ⟨-, hget⟩
      · exact .inl mem_cons_self
      · exact .inr hget

/-- A key above all others goes to the end. -/
theorem insertList_of_lt (v) (h : ∀ e ∈ l, e.1 < k) : insertList k v l = l ++ [(k, v)] := by
  induction l with
  | nil => rfl
  | cons e rest ih =>
    have he := h e mem_cons_self
    rw [insertList, if_neg (not_lt.mpr he.le), if_neg he.ne',
      ih (fun x hx => h x (mem_cons_of_mem e hx))]
    rfl

/-! ## Sortedness -/

theorem sorted_empty : (empty : SortedMap K V).Sorted := List.Pairwise.nil

theorem sorted_insert (h : m.Sorted) (k v) : (m.insert k v).Sorted := by
  cases m with | mk l
  simp only [Sorted, insert] at h ⊢
  induction l with
  | nil => simp [insertList]
  | cons e rest ih =>
    obtain ⟨k', v'⟩ := e
    obtain ⟨hhead, hrest⟩ := pairwise_cons.mp h
    simp only [insertList]
    split
    · next hlt =>
      refine pairwise_cons.mpr ⟨?_, h⟩
      intro x hx
      rcases mem_cons.mp hx with rfl | hx
      · exact hlt
      · exact lt_trans hlt (hhead x hx)
    · next hnlt =>
      split
      · next heq =>
        subst heq
        exact pairwise_cons.mpr ⟨fun x hx => hhead x hx, hrest⟩
      · next hne =>
        refine pairwise_cons.mpr ⟨?_, ih hrest⟩
        intro x hx
        rcases mem_insertList hx with rfl | hx
        · exact lt_of_le_of_ne (not_lt.mp hnlt) (Ne.symm hne)
        · exact hhead x hx

theorem sorted_erase (h : m.Sorted) (k) : (m.erase k).Sorted :=
  List.Pairwise.filter _ h

/-- Inserting ascending entries behind smaller ones writes them down. -/
theorem foldl_insert {acc l : List (K × V)} (hl : l.Pairwise (fun a b => a.1 < b.1))
    (hacc : ∀ a ∈ acc, ∀ b ∈ l, a.1 < b.1) :
    l.foldl (fun m e => m.insert e.1 e.2) (⟨acc⟩ : SortedMap K V) = ⟨acc ++ l⟩ := by
  induction l generalizing acc with
  | nil => simp
  | cons e l ih =>
    obtain ⟨hhead, hrest⟩ := pairwise_cons.mp hl
    have hone : (⟨acc⟩ : SortedMap K V).insert e.1 e.2 = ⟨acc ++ [e]⟩ :=
      congrArg SortedMap.mk (insertList_of_lt e.2 (fun a ha => hacc a ha e mem_cons_self))
    rw [foldl_cons, hone, ih hrest (fun a ha b hb => ?_), append_assoc]
    · rfl
    · rcases mem_append.mp ha with ha | ha
      · exact hacc a ha b (mem_cons_of_mem e hb)
      · exact mem_singleton.mp ha ▸ hhead b hb

theorem foldl_insert_entries (h : m.Sorted) :
    m.entries.foldl (fun m e => m.insert e.1 e.2) empty = m :=
  foldl_insert h (by simp)

theorem lookupList_none_of_lt (h : ∀ e ∈ l, k < e.1) : lookupList k l = none := by
  by_contra hne
  have : k ∈ l.map fst := lookupList_isSome.mp (isSome_iff_ne_none.mpr hne)
  obtain ⟨e, he, hek⟩ := mem_map.mp this
  exact absurd (h e he) (by rw [hek]; exact lt_irrefl k)

theorem le_of_lookup {k k' : K} {v v' : V} (hhead : ∀ e ∈ rest, k < e.1)
    (h : lookupList k' ((k', v') :: rest') = lookupList k' ((k, v) :: rest)) : k ≤ k' := by
  by_contra hlt
  have hlt := not_le.mp hlt
  have hn : lookupList k' ((k, v) :: rest) = none :=
    lookupList_none_of_lt (forall_mem_cons.mpr ⟨hlt, fun e he => lt_trans hlt (hhead e he)⟩)
  rw [hn] at h; simp [lookupList] at h

/-- A sorted entry list is determined by its lookups. -/
theorem ext_lookupList {l l' : List (K × V)} (h : l.Pairwise (fun a b => a.1 < b.1))
    (h' : l'.Pairwise (fun a b => a.1 < b.1)) (heq : ∀ k, lookupList k l = lookupList k l') :
    l = l' := by
  induction l generalizing l' with
  | nil =>
    cases l' with
    | nil => rfl
    | cons e rest =>
      have := heq e.1
      simp [lookupList] at this
  | cons e rest ih =>
    cases l' with
    | nil =>
      have := heq e.1
      simp [lookupList] at this
    | cons e' rest' =>
      obtain ⟨k, v⟩ := e
      obtain ⟨k', v'⟩ := e'
      obtain ⟨hhead, hrest⟩ := pairwise_cons.mp h
      obtain ⟨hhead', hrest'⟩ := pairwise_cons.mp h'
      -- The smallest key of either list is looked up in the other one.
      have hk : k = k' := le_antisymm (le_of_lookup hhead (heq k').symm) (le_of_lookup hhead' (heq k))
      subst hk
      have hv := heq k
      simp only [lookupList, if_true, some.injEq] at hv
      subst hv
      congr 1
      apply ih hrest hrest'
      intro k''
      by_cases hk'' : k'' = k
      · subst hk''
        rw [lookupList_none_of_lt hhead, lookupList_none_of_lt hhead']
      · simpa [lookupList, hk''] using heq k''

/-- A sorted map is determined by its lookups. -/
theorem ext_get? {m m' : SortedMap K V} (h : m.Sorted) (h' : m'.Sorted)
    (heq : ∀ k, m.get? k = m'.get? k) : m = m' := by
  cases m; cases m'
  exact congrArg SortedMap.mk (ext_lookupList h h' heq)

theorem nodup_keys (h : m.Sorted) : m.keys.Nodup := by
  rw [keys, List.Nodup, pairwise_map]
  exact h.imp (fun hlt => ne_of_lt hlt)

theorem get?_of_mem (h : m.Sorted) (hm : (k, v) ∈ m.entries) : m.get? k = some v := by
  cases m with | mk l
  simp only [Sorted, get?] at h hm ⊢
  induction l with
  | nil => simp at hm
  | cons e rest ih =>
    obtain ⟨hhead, hrest⟩ := pairwise_cons.mp h
    rcases mem_cons.mp hm with rfl | hm
    · simp [lookupList]
    · have hne : k ≠ e.1 := fun hk => lt_irrefl _ (hk ▸ hhead _ hm)
      simp only [lookupList, hne, if_false]
      exact ih hrest hm

/-! ## The entries as a multiset -/

theorem filter_key_of_lt (h : ∀ e ∈ l, k < e.1) : l.filter (fun e => e.1 ≠ k) = l := by
  rw [filter_eq_self]
  intro e he
  simpa using (ne_of_lt (h e he)).symm

theorem entries_perm_of_get? (h : m.Sorted) (hk : m.get? k = some v) :
    m.entries.Perm ((k, v) :: (m.erase k).entries) := by
  cases m with | mk l
  simp only [Sorted, erase, get?] at h hk ⊢
  induction l with
  | nil => simp [lookupList] at hk
  | cons e rest ih =>
    obtain ⟨hhead, hrest⟩ := pairwise_cons.mp h
    rw [lookupList] at hk
    split at hk
    · next he =>
      obtain rfl := some.inj hk
      subst he
      rw [filter_cons_of_neg (by simp), filter_key_of_lt hhead]
    · next he =>
      rw [filter_cons_of_pos (by simpa using fun h => he h.symm)]
      exact ((ih hrest hk).cons e).trans (List.Perm.swap _ _ _)

theorem insert_entries_perm (h : m.Sorted) (k v) :
    (m.insert k v).entries.Perm ((k, v) :: (m.erase k).entries) := by
  cases m with | mk l
  simp only [Sorted, erase, insert] at h ⊢
  induction l with
  | nil => exact List.Perm.refl _
  | cons e rest ih =>
    obtain ⟨hhead, hrest⟩ := pairwise_cons.mp h
    rcases lt_trichotomy k e.1 with hk | rfl | hk
    · rw [insertList, if_pos hk, filter_key_of_lt]
      intro e' he'
      rcases mem_cons.mp he' with rfl | he'
      · exact hk
      · exact lt_trans hk (hhead e' he')
    · rw [insertList, if_neg (lt_irrefl _), if_pos rfl, filter_cons_of_neg (by simp),
        filter_key_of_lt hhead]
    · rw [insertList, if_neg (not_lt_of_gt hk), if_neg (ne_of_lt hk).symm,
        filter_cons_of_pos (by simpa using ne_of_lt hk)]
      exact ((ih hrest).cons e).trans (List.Perm.swap _ _ _)

/-! ## Sums over the values -/

/-- The sum of `f` over the values. -/
def total (f : V → Nat) (m : SortedMap K V) : Nat := (m.values.map f).sum

theorem total_erase (f : V → Nat) (h : m.Sorted) (k) :
    total f (m.erase k) + ((m.get? k).map f).getD 0 = total f m := by
  cases hk : m.get? k with
  | none => simp [erase_of_get?_none hk]
  | some v =>
    have := (((entries_perm_of_get? h hk).map snd).map f).sum_nat
    simp only [map_cons, sum_cons] at this
    simp only [total, values, this, map_some, getD_some]
    omega

theorem total_insert (f : V → Nat) (h : m.Sorted) (k v) :
    total f (m.insert k v) + ((m.get? k).map f).getD 0 = total f m + f v := by
  have herase := total_erase f h k
  have := (((insert_entries_perm h k v).map snd).map f).sum_nat
  simp only [map_cons, sum_cons] at this
  simp only [total, values] at herase ⊢
  omega

/-! ## Mapping the values -/

def mapVal {W : Type} (g : V → W) (m : SortedMap K V) : SortedMap K W :=
  ⟨m.entries.map (fun e => (e.1, g e.2))⟩

theorem lookupList_mapVal (g : V → W) (k : K) (l) :
    lookupList k (l.map (fun e => (e.1, g e.2))) = (lookupList k l).map g := by
  induction l with
  | nil => rfl
  | cons e rest ih =>
    simp only [map_cons, lookupList]
    split
    · rfl
    · exact ih

@[simp] theorem get?_mapVal (g : V → W) (m : SortedMap K V) (k : K) :
    (m.mapVal g).get? k = (m.get? k).map g := lookupList_mapVal g k m.entries

theorem mapVal_insert (g : V → W) (m : SortedMap K V) (k v) :
    (m.insert k v).mapVal g = (m.mapVal g).insert k (g v) := by
  cases m with | mk l
  simp only [mapVal, insert, mk.injEq]
  induction l with
  | nil => rfl
  | cons e rest ih =>
    simp only [insertList, map_cons]
    split_ifs with h1 h2
    · rfl
    · rfl
    · simp only [map_cons, ih]

end Insert

theorem mapVal_erase [DecidableEq K] (m : SortedMap K V) (k) :
    (m.erase k).mapVal g = (m.mapVal g).erase k := by
  simp only [erase, mapVal, List.filter_map, Function.comp_def]

theorem total_mapVal (f : W → Nat) (m : SortedMap K V) :
    (m.mapVal g).total f = m.total (fun v => f (g v)) := by
  simp [total, mapVal, values, Function.comp_def]

theorem values_mapVal (m : SortedMap K V) : (m.mapVal g).values = m.values.map g := by
  simp [values, mapVal]

theorem size_mapVal (m : SortedMap K V) : (m.mapVal g).size = m.size := by
  simp [size, mapVal]

end SortedMap
end MdCrdt.Lib
