import Mathlib.Data.List.Perm.Basic
import Mathlib.Data.List.Induction
import Mathlib.Order.WithBot
import MdCrdt.Core.Sequence

/- What the rebuilt order of a sequence is.

  Siblings are compared by a key: the right origin first, `none` last, then the
  ids downwards (`siblingLe_iff`). The order depends on the set of elements only
  (`orderElements_congr`), keeps every element of a list whose anchors lead back
  to the start (`orderElements_perm`), and a new element goes in front of the
  first sibling with a larger key (`ids_orderElements_append`). -/
namespace MdCrdt
open Lib SortedMap
open List hiding le_iff_lt_or_eq le_antisymm le_trans le_total

variable {T : Type}

/-! ## Sibling order -/

/-- A missing right origin comes last. -/
def originKey : Option OpId → WithTop OpId
  | some r => (r : WithTop OpId)
  | none => ⊤

/-- What `compareSiblings` compares. -/
def siblingKey (e : Element T) : WithTop OpId ×ₗ OpIdᵒᵈ :=
  toLex (originKey e.rightOrigin, OrderDual.toDual e.id)

theorem siblingLe_iff {a b : Element T} : SiblingLe a b ↔ siblingKey a ≤ siblingKey b := by
  obtain ⟨ia, va, aa, ra⟩ := a
  obtain ⟨ib, vb, ab, rb⟩ := b
  simp only [SiblingLe, compareSiblings, siblingKey, Prod.Lex.toLex_le_toLex,
    OrderDual.toDual_le_toDual]
  cases ra with
  | none => cases rb <;> simp [originKey, compare_gt_iff_gt]
  | some ra =>
    cases rb with
    | none => simp [originKey]
    | some rb =>
      by_cases h : ra = rb
      · simp [originKey, h, compare_gt_iff_gt]
      · simp [originKey, h, compare_gt_iff_gt, le_iff_lt_or_eq]

theorem siblingLe_total (a b : Element T) : SiblingLe a b ∨ SiblingLe b a := by
  rw [siblingLe_iff, siblingLe_iff]
  exact le_total _ _

theorem siblingLe_trans {a b c : Element T} (h : SiblingLe a b) (h' : SiblingLe b c) :
    SiblingLe a c := by
  rw [siblingLe_iff] at *
  exact le_trans h h'

theorem siblingLe_antisymm {a b : Element T} (h : SiblingLe a b) (h' : SiblingLe b a) :
    a.id = b.id := by
  rw [siblingLe_iff] at *
  exact congrArg (fun k => OrderDual.ofDual (ofLex k).2) (le_antisymm h h')

instance : Std.Total (SiblingLe (T := T)) := ⟨siblingLe_total⟩
instance : IsTrans (Element T) SiblingLe := ⟨fun _ _ _ => siblingLe_trans⟩

/-! ## The element map -/

namespace Sequence
variable {l l' : List (Element T)} {e : Element T}

/-- No two elements share an id. -/
def Distinct (l : List (Element T)) : Prop := (l.map Element.id).Nodup

theorem Distinct.eq_of_id (h : Distinct l) (ha : a ∈ l) (hb : b ∈ l) (hid : a.id = b.id) : a = b :=
  inj_on_of_nodup_map h ha hb hid

theorem Distinct.perm (h : Distinct l) (hp : l.Perm l') : Distinct l' :=
  (hp.map _).nodup_iff.mp h

theorem elementMap_append (l) (e : Element T) :
    elementMap (l ++ [e]) = (elementMap l).insert e.id e := by
  simp [elementMap]

theorem elementMap_sorted (l : List (Element T)) : (elementMap l).Sorted := by
  induction l using List.reverseRecOn with
  | nil => exact sorted_empty
  | append_singleton l e ih =>
    rw [elementMap_append]
    exact sorted_insert ih _ _

theorem elementMap_get? (h : Distinct l) {id} :
    (elementMap l).get? id = some e ↔ e ∈ l ∧ e.id = id := by
  induction l using List.reverseRecOn with
  | nil => simp [elementMap]
  | append_singleton l x ih =>
    have hsplit : Distinct l ∧ x.id ∉ l.map Element.id := by
      rw [Distinct, map_append, nodup_append] at h
      exact ⟨h.1, fun hx => h.2.2 _ hx _ (by simp) rfl⟩
    rw [elementMap_append, get?_insert]
    by_cases hid : id = x.id
    · subst hid
      simp only [if_true, Option.some.injEq, mem_append, mem_singleton]
      constructor
      · rintro rfl
        exact ⟨.inr rfl, rfl⟩
      · rintro ⟨he | he, heq⟩
        · exact absurd (heq ▸ mem_map_of_mem he) hsplit.2
        · exact he.symm
    · rw [if_neg hid, ih hsplit.1]
      simp only [mem_append, mem_singleton]
      constructor
      · exact fun h => ⟨.inl h.1, h.2⟩
      · rintro ⟨he | rfl, heq⟩
        · exact ⟨he, heq⟩
        · exact absurd heq.symm hid

theorem elementMap_congr (h : Distinct l) (hp : l.Perm l') : elementMap l = elementMap l' := by
  apply ext_get? (elementMap_sorted l) (elementMap_sorted l')
  intro k
  apply Option.ext
  intro e
  rw [elementMap_get? h, elementMap_get? (h.perm hp), hp.mem_iff]

theorem elementMap_values (h : Distinct l) : (elementMap l).values.Perm l := by
  have hmem : ∀ k e, (k, e) ∈ (elementMap l).entries ↔ e ∈ l ∧ e.id = k := by
    intro k e
    rw [← elementMap_get? h]
    exact ⟨get?_of_mem (elementMap_sorted l), get?_mem⟩
  have hkeys : (elementMap l).values.map Element.id = (elementMap l).keys := by
    rw [SortedMap.values, SortedMap.keys, map_map]
    exact map_congr_left (fun p hp => ((hmem p.1 p.2).mp hp).2)
  have hnd : (elementMap l).values.Nodup :=
    Nodup.of_map Element.id (hkeys ▸ nodup_keys (elementMap_sorted l))
  apply (perm_ext_iff_of_nodup hnd (Nodup.of_map _ h)).mpr
  intro e
  rw [SortedMap.values, mem_map]
  constructor
  · rintro ⟨⟨k, e⟩, hp, rfl⟩
    exact ((hmem k e).mp hp).1
  · exact fun he => ⟨(e.id, e), (hmem _ _).mpr ⟨he, rfl⟩, rfl⟩

theorem elementMap_size (h : Distinct l) : (elementMap l).size = l.length := by
  rw [← (elementMap_values h).length_eq]
  simp [SortedMap.size, SortedMap.values]

/-! ## The rebuilt order -/

theorem mem_children : x ∈ children l p ↔ ∃ e ∈ l, e.after = p ∧ e.id = x := by
  simp [children, siblings, and_assoc]

theorem mem_siblings : e ∈ siblings l p ↔ e ∈ l ∧ e.after = p := by
  simp [siblings]

theorem siblings_congr (h : Distinct l) (hp : l.Perm l') (p) : siblings l p = siblings l' p := by
  have hperm := hp.filter (fun e => decide (e.after = p))
  apply Perm.eq_of_pairwise _ (pairwise_insertionSort _ _) (pairwise_insertionSort _ _)
    (((perm_insertionSort _ _).trans hperm).trans (perm_insertionSort _ _).symm)
  intro a b ha hb hab hba
  exact h.eq_of_id (mem_siblings.mp ha).1 (hp.mem_iff.mpr (mem_siblings.mp hb).1)
    (siblingLe_antisymm hab hba)

theorem children_congr (h : Distinct l) (hp : l.Perm l') (p) : children l p = children l' p :=
  congrArg _ (siblings_congr h hp p)

theorem orderElements_eq (l : List (Element T)) : orderElements l =
    (walk (children (elementMap l).values) (elementMap l).size none).filterMap
      (elementMap l).get? := rfl

theorem orderElements_congr (h : Distinct l) (hp : l.Perm l') :
    orderElements l = orderElements l' := by
  rw [orderElements_eq, orderElements_eq, elementMap_congr h hp]

/-- Every element with its anchor. -/
def links (l : List (Element T)) : List (OpId × Option OpId) := l.map (fun e => (e.id, e.after))

/-- The elements can be put in an order in which every anchor comes before the elements
    inserted after it. -/
def Grounded (l : List (Element T)) : Prop := ∃ ls, ls.Perm (links l) ∧ Built ls

theorem map_fst_links (l : List (Element T)) : (links l).map Prod.fst = l.map Element.id := by
  simp [links]

theorem grounded_nil : Grounded ([] : List (Element T)) := ⟨[], by simp [links], Built.nil⟩

theorem Grounded.distinct (h : Grounded l) : Distinct l := by
  obtain ⟨ls, hp, hb⟩ := h
  rw [Distinct, ← map_fst_links]
  exact (hp.map _).nodup_iff.mp hb.nodup

theorem Grounded.of_perm_links (h : Grounded l) (hp : (links l).Perm (links l')) : Grounded l' := by
  obtain ⟨ls, hl, hb⟩ := h
  exact ⟨ls, hl.trans hp, hb⟩

theorem Grounded.perm (h : Grounded l) (hp : l.Perm l') : Grounded l' :=
  h.of_perm_links (hp.map _)

/-- The anchor of an element is there. -/
theorem Grounded.anchor_mem (h : Grounded l) (he : e ∈ l) (ha : e.after = some a) :
    a ∈ l.map Element.id := by
  obtain ⟨ls, hp, hb⟩ := h
  have hlink : (e.id, some a) ∈ ls := hp.mem_iff.mpr (mem_map.mpr ⟨e, he, by rw [ha]⟩)
  have := hb.parent_mem hlink
  rwa [(hp.map _).mem_iff, map_fst_links] at this

theorem Grounded.append (h : Grounded l) (hid : e.id ∉ l.map Element.id)
    (hafter : ∀ a, e.after = some a → a ∈ l.map Element.id) : Grounded (l ++ [e]) := by
  obtain ⟨ls, hp, hb⟩ := h
  have hm : ∀ x, x ∈ ls.map Prod.fst ↔ x ∈ l.map Element.id := by
    intro x
    rw [(hp.map _).mem_iff, map_fst_links]
  refine ⟨(e.id, e.after) :: ls, ?_, hb.cons (fun h => hid ((hm _).mp h))
    (fun a ha => (hm a).mpr (hafter a ha))⟩
  rw [links, map_append]
  exact (hp.cons _).trans (perm_append_singleton _ _).symm

theorem kidsOf_children (hp : ls.Perm (links l)) : KidsOf ls (children l) := by
  intro p
  have h1 : (children l p).Perm ((l.filter (fun e => e.after = p)).map Element.id) :=
    (perm_insertionSort _ _).map _
  have h2 : ((links l).filter (fun e => e.2 = p)).map Prod.fst
      = (l.filter (fun e => e.after = p)).map Element.id := by
    rw [links, filter_map, map_map]
    rfl
  rw [← h2] at h1
  exact h1.trans ((hp.filter _).map _).symm

theorem length_of_links (hp : List.Perm ls (links l)) : ls.length = l.length := by
  rw [hp.length_eq, links, length_map]

theorem Grounded.depth (h : Grounded l) : ∃ dp : Option OpId → Nat,
    dp none = 0 ∧ Depth (children l) l.length dp := by
  obtain ⟨ls, hp, hb⟩ := h; exact length_of_links hp ▸ (kidsOf_children hp).depth hb

theorem Grounded.walk_perm (h : Grounded l) :
    (walk (children l) l.length none).Perm (l.map Element.id) := by
  obtain ⟨ls, hp, hb⟩ := h
  rw [← map_fst_links]
  exact (Lib.walk_perm hb (kidsOf_children hp) (length_of_links hp).le).trans (hp.map _)

/-- The ids of the rebuilt order are the walk of the anchor tree. -/
theorem ids_orderElements (h : Grounded l) :
    (orderElements l).map Element.id = walk (children l) l.length none := by
  have hd := h.distinct
  have hv := elementMap_values hd
  have hwalk : walk (children (elementMap l).values) (elementMap l).size none
      = walk (children l) l.length none := by
    rw [elementMap_size hd, funext (children_congr (hd.perm hv.symm) hv)]
  have hmem : ∀ x ∈ walk (children l) l.length none, ∃ e, (elementMap l).get? x = some e := by
    intro x hx
    obtain ⟨e, he, rfl⟩ := List.mem_map.mp (h.walk_perm.mem_iff.mp hx)
    exact ⟨e, (elementMap_get? hd).mpr ⟨he, rfl⟩⟩
  rw [orderElements_eq, hwalk, map_filterMap]
  nth_rewrite 2 [← filterMap_some (l := walk (children l) l.length none)]
  apply filterMap_congr
  intro x hx
  obtain ⟨e, he⟩ := hmem x hx
  rw [he, Option.map_some, ((elementMap_get? hd).mp he).2]

theorem mem_orderElements (h : Distinct l) (he : e ∈ orderElements l) : e ∈ l := by
  obtain ⟨x, _, hx⟩ := mem_filterMap.mp he
  exact ((elementMap_get? h).mp hx).1

/-- A grounded list of elements is only reordered. -/
theorem orderElements_perm (h : Grounded l) : (orderElements l).Perm l := by
  have hd := h.distinct
  have hids : ((orderElements l).map Element.id).Perm (l.map Element.id) := by
    rw [ids_orderElements h]; exact h.walk_perm
  have hnd : Distinct (orderElements l) := hids.nodup_iff.mpr hd
  apply (perm_ext_iff_of_nodup (Nodup.of_map _ hnd) (Nodup.of_map _ hd)).mpr
  intro e
  refine ⟨mem_orderElements hd, fun he => ?_⟩
  obtain ⟨e', he', hid⟩ := mem_map.mp (hids.mem_iff.mpr (mem_map_of_mem he))
  exact hd.eq_of_id (mem_orderElements hd he') he hid ▸ he'

theorem orderElements_orderElements (h : Grounded l) :
    orderElements (orderElements l) = orderElements l :=
  (orderElements_congr h.distinct (orderElements_perm h).symm).symm

/-! ## Adding one element -/

/-- Siblings that stay in front of a new sibling. -/
def elder (l : List (Element T)) (e : Element T) : List (Element T) :=
  (siblings l e.after).takeWhile (fun c => ¬SiblingLe e c)

def younger (l : List (Element T)) (e : Element T) : List (Element T) :=
  (siblings l e.after).dropWhile (fun c => ¬SiblingLe e c)

theorem elder_append_younger (l) (e : Element T) :
    elder l e ++ younger l e = siblings l e.after := takeWhile_append_dropWhile

theorem siblings_append (h : Distinct (l ++ [e])) :
    siblings (l ++ [e]) e.after = elder l e ++ e :: younger l e := by
  have hp : (l ++ [e]).Perm (e :: l) := perm_append_singleton e l
  rw [siblings_congr h hp, siblings, filter_cons_of_pos (by simp), insertionSort_cons,
    orderedInsert_eq_take_drop]
  rfl

/-- A new element whose anchor is known becomes a leaf of the anchor tree. -/
theorem addsLeaf_append (h : Grounded l) (hid : e.id ∉ l.map Element.id)
    (hafter : ∀ a, e.after = some a → a ∈ l.map Element.id) :
    AddsLeaf (children l) (children (l ++ [e])) e.after e.id
      ((elder l e).map Element.id) ((younger l e).map Element.id) where
  old := by rw [← map_append, elder_append_younger, children]
  new := by
    rw [children, siblings_append (h.append hid hafter).distinct, map_append, map_cons]
  other := by
    intro q hq
    have hf : (l ++ [e]).filter (fun c => c.after = q) = l.filter (fun c => c.after = q) := by
      rw [filter_append, filter_cons_of_neg (by simpa using fun h => hq h.symm)]
      simp
    rw [children, siblings, hf]
    rfl
  leaf := by
    -- nothing is anchored at an id that was not there
    have hnone : ∀ c ∈ l ++ [e], c.after ≠ some e.id := by
      intro c hc hce
      rcases mem_append.mp hc with hc | hc
      · exact hid (h.anchor_mem hc hce)
      · obtain rfl := mem_singleton.mp hc
        exact hid (hafter _ hce)
    have hf : (l ++ [e]).filter (fun c => c.after = some e.id) = [] := by
      rw [filter_eq_nil_iff]
      intro c hc
      simpa using hnone c hc
    rw [children, siblings, hf]
    rfl

/-- An element with everything that hangs below it in the anchor tree. -/
def below (l : List (Element T)) (c : OpId) : List OpId := block (children l) l.length c

/-- Where a new element goes: behind its anchor, its elder siblings and all that hangs below
    them; nothing else moves. -/
theorem ids_orderElements_append (h : Grounded l) (hid : e.id ∉ l.map Element.id)
    (hafter : ∀ a, e.after = some a → a ∈ l.map Element.id) :
    ∃ A B, (orderElements l).map Element.id =
        A ++ (((elder l e).map Element.id).flatMap (below l) ++
          ((younger l e).map Element.id).flatMap (below l)) ++ B ∧
      (orderElements (l ++ [e])).map Element.id =
        A ++ (((elder l e).map Element.id).flatMap (below l) ++
          e.id :: ((younger l e).map Element.id).flatMap (below l)) ++ B ∧
      ((e.after = none ∧ A = [] ∧ B = []) ∨ ∃ a A', e.after = some a ∧ A = A' ++ [a]) := by
  rw [ids_orderElements h, ids_orderElements (h.append hid hafter), length_append]
  have hleaf := addsLeaf_append h hid hafter
  obtain ⟨ls, hp, hb⟩ := h
  refine walk_add hb (kidsOf_children hp) hleaf (fun a ha => ?_) (length_of_links hp).le
  rw [(hp.map _).mem_iff, map_fst_links]
  exact hafter a ha

/-! ## The order does not look at values -/

/-- `g` changes values only. -/
structure KeepsPlace {U : Type} (g : Element T → Element U) : Prop where
  id : ∀ e, (g e).id = e.id
  after : ∀ e, (g e).after = e.after
  rightOrigin : ∀ e, (g e).rightOrigin = e.rightOrigin

section Map
variable {U : Type} {g : Element T → Element U}

section
variable (hg : KeepsPlace g)
include hg

theorem KeepsPlace.siblingLe (a b) : SiblingLe a b ↔ SiblingLe (g a) (g b) := by
  simp only [SiblingLe, compareSiblings, hg.id, hg.rightOrigin]

theorem KeepsPlace.map_ids (l : List (Element T)) :
    (l.map g).map Element.id = l.map Element.id := by
  rw [map_map]
  exact map_congr_left (fun e _ => hg.id e)

theorem KeepsPlace.links (l) : links (l.map g) = links l := by
  simp only [Sequence.links, map_map]
  exact map_congr_left (fun e _ => by simp [hg.id, hg.after])

theorem children_map (l p) : children (l.map g) p = children l p := by
  have hf : (l.map g).filter (fun e => e.after = p) = (l.filter (fun e => e.after = p)).map g := by
    rw [filter_map]
    exact congrArg _ (filter_congr (fun e _ => by simp [hg.after]))
  unfold children siblings
  rw [hf, ← map_insertionSort SiblingLe SiblingLe g _ (fun a _ b _ => hg.siblingLe a b), hg.map_ids]

theorem elementMap_map (l) : elementMap (l.map g) = (elementMap l).mapVal g := by
  induction l using List.reverseRecOn with
  | nil => rfl
  | append_singleton l e ih =>
    rw [map_append, map_singleton, elementMap_append, elementMap_append, ih, hg.id, mapVal_insert]

theorem orderElements_map (l : List (Element T)) :
    orderElements (l.map g) = (orderElements l).map g := by
  rw [orderElements_eq, orderElements_eq, elementMap_map hg, values_mapVal, size_mapVal,
    funext (children_map hg (elementMap l).values), map_filterMap]
  exact filterMap_congr (fun x _ => get?_mapVal g _ x)

end

end Map

end Sequence
end MdCrdt
