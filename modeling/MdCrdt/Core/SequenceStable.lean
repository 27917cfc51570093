import Mathlib.Data.List.Chain
import MdCrdt.Core.Landing

/- What every reachable sequence keeps.

  `Reached` are the sequences that operations lead to, in any order of delivery,
  from the empty sequence or from one written down in order.

  1. Nothing is lost: an operation has taken effect or waits for an element that
     is not there (`applyAll_new_keeps_all`).
  2. Nothing moves: a further operation keeps the order of the elements and every
     tombstone, and what hangs below an element by its anchors stands in one run
     right behind it, so runs that were typed one behind the other do not
     interleave (`apply_stable`). -/
namespace MdCrdt
open Lib List Relation

/-- What the operation has to find: an insert its anchor, a delete its target. -/
def SequenceOp.needs {T : Type} : SequenceOp T → Option OpId
  | .insert after _ _ _ => after
  | .delete target _ => some target

namespace Sequence
variable {T : Type} {s : Sequence T} {l A B : List (Element T)} {e : Element T}

/-- Operations lead to the sequence from the empty one, or from one written down in order. -/
inductive Reached : Sequence T → Prop
  | new : Reached new
  | fromOrdered {items : List (OpId × T)} :
      (items.map Prod.fst).Nodup → Reached (fromOrdered items)
  | apply {s : Sequence T} (op : SequenceOp T) : Reached s → Reached (s.apply op)

theorem Reached.delivered (h : Reached s) : ∃ D, s.Delivered D := by
  induction h with
  | new => exact ⟨_, delivered_new⟩
  | fromOrdered hnd =>
    obtain ⟨D, hD, -⟩ := knows_fromOrdered (P := fun _ => True) hnd (fun _ _ => trivial)
    exact ⟨D, hD⟩
  | apply op _ ih =>
    obtain ⟨D, hD⟩ := ih
    exact ⟨_, apply_delivered hD op⟩

theorem Reached.ordered (h : Reached s) : s.Ordered := by
  obtain ⟨D, hD⟩ := h.delivered
  exact hD.ordered

theorem Reached.applyAll (h : Reached s) (ops) : Reached (s.applyAll ops) :=
  foldlRecOn ops Sequence.apply h (fun _ hs op _ => hs.apply op)

/-! ## Nothing is lost -/

/-- The index is the inverse of the positions. -/
theorem Indexed.get?_index (h : s.Indexed) {id i} :
    s.index.get? id = some i ↔ s.elementIds[i]? = some id := by
  have hget : ∀ j, s.index.get? id = some j → s.elementIds[j]? = some id := by
    intro j hj
    obtain ⟨e, he, hid⟩ := rebuildIndex_get? h.grounded.distinct (h.index ▸ hj)
    simp [elementIds, he, hid]
  refine ⟨hget i, fun hi => ?_⟩
  obtain ⟨j, hj⟩ := SortedMap.contains_iff_get?.mp (h.contains.mpr (mem_of_getElem? hi))
  have hij := (hget j hj).trans hi.symm
  obtain ⟨hlt, -⟩ := List.getElem?_eq_some_iff.mp (hget j hj)
  rw [hj, (getElem?_inj hlt h.grounded.distinct).mp hij]

/-- An operation that waits, waits for an element that is not there. -/
theorem Quiet.missing (h : s.Quiet) (hop : s.Parked op) :
    ∃ k ∉ s.elementIds, op.needs = some k := by
  cases op with
  | insert after id v ro =>
    obtain ⟨k, rfl, hk⟩ := hop
    refine ⟨k, fun hmem => ?_, rfl⟩
    rw [(h k hmem).1] at hk
    cases hk
  | delete target id =>
    refine ⟨target, fun hmem => ?_, rfl⟩
    have hk : _ ∈ s.parkedDeletes target := hop
    rw [(h target hmem).2] at hk
    cases hk

/-- Whatever the operations and their order: the index is the inverse of the positions, no id
    occurs twice, nothing is stored under an id that is there, and every operation has taken
    effect or is still stored under the id it needs. -/
theorem applyAll_new_keeps_all (ops : List (SequenceOp T)) :
    (∀ id i, (new.applyAll ops).index.get? id = some i ↔
      (new.applyAll ops).elementIds[i]? = some id) ∧ (new.applyAll ops).elementIds.Nodup ∧
    (∀ k ∈ (new.applyAll ops).elementIds, (new.applyAll ops).pendingInserts.get? k = none ∧
      (new.applyAll ops).pendingDeletes.get? k = none) ∧ ∀ op ∈ ops, (new.applyAll ops).Settled op ∨
      (new.applyAll ops).Parked op ∧ ∃ k ∉ (new.applyAll ops).elementIds, op.needs = some k := by
  have h := applyAll_delivered delivered_new ops
  refine ⟨fun _ _ => h.toIndexed.get?_index, h.grounded.distinct, ?_, ?_⟩
  · intro k hk
    exact ⟨h.get?_insert_none (h.quiet k hk).1, h.get?_delete_none (h.quiet k hk).2⟩
  · intro op hop
    rcases h.covered op (.inl hop) with hs | hq | hp
    · exact .inl hs
    · cases hq
    · exact .inr ⟨hp, h.quiet.missing hp⟩

/-! ## Nothing moves -/

/-- The elements of `l` are still there, in their order; some may have been buried. -/
structure Extends (l : List (Element T)) (s : Sequence T) : Prop where
  indexed : s.Indexed
  order : (l.map Element.id).Sublist ((orderElements s.elements).map Element.id)
  kept : ∀ e ∈ l, e ∈ s.elements ∨ bury e ∈ s.elements

theorem Ordered.extends_self (h : s.Ordered) : Extends s.elements s where
  indexed := h.toIndexed
  order := by rw [h.order]
  kept := fun _ he => .inl he

theorem Extends.push (h : Extends l s) (hid : e.id ∉ s.elementIds)
    (ha : ∀ a, e.after = some a → a ∈ s.elementIds) :
    Extends l { s with elements := s.elements ++ [e],
                       index := s.index.insert e.id s.elements.length } where
  indexed := h.indexed.push hid ha
  order := by
    obtain ⟨P, Q, hold, hnew, -⟩ := ids_orderElements_append h.indexed.grounded hid ha
    refine h.order.trans ?_
    rw [hold, hnew]
    exact ((List.Sublist.refl P).append
      ((List.Sublist.refl _).append (sublist_cons_self _ _))).append (List.Sublist.refl Q)
  kept c hc := (h.kept c hc).imp (mem_append_left _) (mem_append_left _)

theorem Extends.tombstone (h : Extends l s) (target) :
    Extends l { s with elements := updateAt target bury s.elements } where
  indexed := h.indexed.of_updateAt keepsPlace_bury rfl rfl
  order := by
    rw [updateAt, orderElements_map (keepsPlace_updateAt keepsPlace_bury),
      (keepsPlace_updateAt keepsPlace_bury).map_ids]
    exact h.order
  kept c hc := by
    have himage : ∀ x ∈ s.elements, (if x.id = target then bury x else x) ∈
        updateAt target bury s.elements := fun x hx => mem_map_of_mem hx
    rcases h.kept c hc with hc | hc
    · have := himage c hc
      split at this
      · exact .inr this
      · exact .inl this
    · have := himage (bury c) hc
      exact .inr (by rwa [show bury (bury c) = bury c from rfl, ite_self] at this)

theorem Extends.rebuild (h : Extends l s) : Extends l s.rebuildOrder where
  indexed := (ordered_rebuildOrder h.indexed.grounded).toIndexed
  order := by
    rw [(ordered_rebuildOrder h.indexed.grounded).order]
    exact h.order
  kept c hc := (h.kept c hc).imp (mem_rebuildOrder h.indexed.grounded).mpr
    (mem_rebuildOrder h.indexed.grounded).mpr

theorem kept_extends : Kept (fun _ => True) (Extends l) where
  insert h _ := h.indexed.insert_keeps h (fun hid ha => h.push hid ha) Extends.rebuild
  delete h := h.indexed.delete_keeps h (h.tombstone _)
  bufferInsert := by
    intro s after _ _ _ h _
    cases after with
    | none => exact h
    | some a => exact ⟨⟨h.indexed.grounded, h.indexed.index⟩, h.order, h.kept⟩
  bufferDelete h := ⟨⟨h.indexed.grounded, h.indexed.index⟩, h.order, h.kept⟩
  enqueue _ h := ⟨⟨⟨h.indexed.grounded, h.indexed.index⟩, h.order, h.kept⟩, fun _ _ => trivial⟩
  rebuild h := h.rebuild

/-- Later operations neither move an element nor bring a buried one back. -/
theorem Reached.extends (h : Reached s) (ops) : Extends s.elements (s.applyAll ops) :=
  kept_extends.applyAll h.ordered.extends_self (fun _ _ => trivial)

theorem Reached.elementIds_sublist (h : Reached s) (ops) :
    s.elementIds.Sublist (s.applyAll ops).elementIds := by
  have hord := (h.extends ops).order
  rwa [(h.applyAll ops).ordered.order] at hord

theorem Reached.buried (h : Reached s) (ops)
    (he : e ∈ s.elements) (hv : e.value = none) (hc : c ∈ (s.applyAll ops).elements)
    (hid : c.id = e.id) : c.value = none := by
  have hb : bury e = e := by rw [bury, ← hv]
  have he' : e ∈ (s.applyAll ops).elements := by
    have hkept := (h.extends ops).kept e he
    rwa [hb, or_self] at hkept
  rwa [(h.applyAll ops).ordered.grounded.distinct.eq_of_id hc he' hid]

/-! ## Runs -/

/-- `x` was inserted after `a`, directly or through others. -/
def Descends (l : List (Element T)) : OpId → OpId → Prop :=
  TransGen (fun a x => ∃ e ∈ l, e.after = some a ∧ e.id = x)

theorem under_children : Under (children l) = Descends l := by
  unfold Under Descends
  simp only [mem_children]

/-- What descends from an element stands in one run right behind it. -/
theorem Ordered.run_behind (h : s.Ordered) (hs : s.elements = A ++ e :: B) :
    ∃ R C, B = R ++ C ∧ (∀ x ∈ R, Descends s.elements e.id x.id) ∧
      ∀ x ∈ A ++ e :: C, ¬Descends s.elements e.id x.id := by
  have hdist := h.grounded.distinct
  have hids : s.elements.map Element.id = walk (children s.elements) s.elements.length none := by
    rw [← ids_orderElements h.grounded, h.order]
  obtain ⟨dp, h0, hd⟩ := h.grounded.depth
  have hmem : e.id ∈ walk (children s.elements) s.elements.length none := by
    rw [← hids, hs]
    simp
  obtain ⟨m, P, Q, hm, hw⟩ := walk_after hd _ none (by omega) hmem
  have hdesc : ∀ x, x ∈ walk (children s.elements) m (some e.id) ↔
      Descends s.elements e.id x := fun x => by rw [mem_walk_iff hd hm, under_children]
  -- the walk splits the elements at the same place
  obtain ⟨A', l', hels, -, hl'⟩ := map_eq_append_iff.mp (hids.trans hw)
  obtain ⟨e', l'', rfl, hid, hl''⟩ := map_eq_cons_iff.mp hl'
  obtain ⟨R, C, rfl, hR, -⟩ := map_eq_append_iff.mp hl''
  obtain ⟨rfl, rfl⟩ := (hs ▸ hdist).split_unique (hs.symm.trans hels) hid.symm
  refine ⟨R, C, rfl, fun x hx => (hdesc _).mp (hR ▸ mem_map_of_mem hx), ?_⟩
  intro x hx hxe
  rw [← hdesc, ← hR] at hxe
  obtain ⟨y, hy, hyx⟩ := mem_map.mp hxe
  have hxy : y = x := hdist.eq_of_id (by simp [hs, hy]) (by simp [hs]; grind) hyx
  have hnd : (A ++ e :: (R ++ C)).Nodup := hs ▸ Nodup.of_map _ hdist
  grind

/-- The anchor of an element stands before it. -/
theorem Ordered.anchor_before (h : s.Ordered) (hs : s.elements = A ++ e :: B)
    (ha : e.after = some a) : a ∈ A.map Element.id := by
  have he : e ∈ s.elements := by simp [hs]
  obtain ⟨x, hx, rfl⟩ := mem_map.mp (h.grounded.anchor_mem he ha)
  have hdesc : Descends s.elements x.id e.id := TransGen.single ⟨e, he, ha, rfl⟩
  rw [hs] at hx
  rcases mem_append.mp hx with hx | hx
  · exact mem_map_of_mem hx
  exfalso
  rcases mem_cons.mp hx with rfl | hx
  · obtain ⟨R, C, -, -, hno⟩ := h.run_behind hs
    exact hno x (by simp) hdesc
  · obtain ⟨B₁, B₂, rfl⟩ := append_of_mem hx
    obtain ⟨R, C, -, -, hno⟩ := h.run_behind (A := A ++ e :: B₁) (by simpa using hs)
    exact hno e (by simp) hdesc

/-- A run: every element but the first was typed behind the one before. -/
def Typed (l run : List (Element T)) : Prop :=
  run ⊆ l ∧ run.IsChain (fun a b => b.after = some a.id)

section Typed
variable {run : List (Element T)} {x y : Element T}

/-- What links carry over is carried between any two elements of a run. -/
theorem Typed.pair (h : Typed l run) {Q : Element T → Element T → Prop}
    (htrans : ∀ a b c, Q a b → Q b c → Q a c)
    (hlink : ∀ a ∈ run, ∀ b ∈ l, b.after = some a.id → Q a b) (hx : x ∈ run) (hy : y ∈ run)
    (hne : x ≠ y) : Q x y ∨ Q y x := by
  have : Trans Q Q Q := ⟨fun hab hbc => htrans _ _ _ hab hbc⟩
  have : Std.Symm (fun a b => Q a b ∨ Q b a) := ⟨fun _ _ => Or.symm⟩
  have hchain : run.IsChain Q :=
    h.2.imp_of_mem_imp (fun a b ha hb hab => hlink a ha b (h.1 hb) hab)
  have hpair : run.Pairwise (fun a b => Q a b ∨ Q b a) :=
    (isChain_iff_pairwise.mp hchain).imp .inl
  exact hpair.forall hx hy hne

theorem Typed.descends (h : Typed l run) (hx : x ∈ run) (hy : y ∈ run) (hne : x ≠ y) :
    Descends l x.id y.id ∨ Descends l y.id x.id :=
  h.pair (Q := fun a b => Descends l a.id b.id) (fun _ _ _ hab hbc => hab.trans hbc)
    (fun _ _ b hb ha => TransGen.single ⟨b, hb, ha, rfl⟩) hx hy hne

/-- All of a run descends from an element outside it, or nothing does. -/
theorem Typed.all_or_none (hd : Distinct l) (h : Typed l run)
    (hz : ∀ c ∈ run, c.id ≠ z) (hx : x ∈ run) (hy : y ∈ run) (hdesc : Descends l z x.id) :
    Descends l z y.id := by
  by_cases hne : x = y
  · rwa [← hne]
  have hlink : ∀ a ∈ run, ∀ b ∈ l, b.after = some a.id →
      (Descends l z a.id ↔ Descends l z b.id) := by
    intro a ha b hb hab
    refine ⟨fun hza => hza.tail ⟨b, hb, hab, rfl⟩, fun hzb => ?_⟩
    -- the last step to `b` is the one from `a`
    obtain ⟨c, hzc, e, he, hec, hid⟩ := TransGen.tail'_iff.mp hzb
    rw [hd.eq_of_id he hb hid, hab] at hec
    obtain rfl := Option.some.inj hec
    rcases reflTransGen_iff_eq_or_transGen.mp hzc with heq | hzc
    · exact absurd heq (hz a ha)
    · exact hzc
  rcases h.pair (Q := fun a b => Descends l z a.id ↔ Descends l z b.id)
    (fun _ _ _ hab hbc => hab.trans hbc) hlink hx hy hne with hq | hq
  · exact hq.mp hdesc
  · exact hq.mpr hdesc

end Typed

/-- Two runs do not interleave: one that has been left for the other and entered again is the
    only one that follows. -/
theorem Ordered.no_interleaving (h : s.Ordered)
    (hrun : Typed s.elements run) (hrun' : Typed s.elements run') (hdis : List.Disjoint run run')
    (hs : s.elements = A ++ x :: (B ++ y :: (C ++ x' :: D))) (hx : x ∈ run) (hy : y ∈ run')
    (hx' : x' ∈ run) (hy' : y' ∈ D) : y' ∉ run' := by
  intro hmem
  have hd : Distinct s.elements := h.grounded.distinct
  have hnd : s.elements.Nodup := Nodup.of_map _ hd
  have hne : y ≠ y' := by
    rintro rfl
    rw [hs] at hnd
    grind
  have hatY : s.elements = (A ++ x :: B) ++ y :: (C ++ x' :: D) := by simpa using hs
  obtain ⟨R, E, hRE, hR, hno⟩ := h.run_behind hatY
  -- the second run goes on behind `x'`, so all between is below `y`
  have hyy' : Descends s.elements y.id y'.id := by
    rcases hrun'.descends hy hmem hne with hdesc | hdesc
    · exact hdesc
    · obtain ⟨D₁, D₂, rfl⟩ := append_of_mem hy'
      obtain ⟨R', E', -, -, hno'⟩ :=
        h.run_behind (A := A ++ x :: (B ++ y :: (C ++ x' :: D₁))) (by simpa using hs)
      exact absurd hdesc (hno' y (by simp))
  have hyx' : Descends s.elements y.id x'.id := by
    refine hR x' ?_
    rcases append_eq_append_iff.mp (show (C ++ [x']) ++ D = R ++ E by simpa using hRE) with
      ⟨t, rfl, -⟩ | ⟨t, -, rfl⟩
    · simp
    · exact absurd hyy' (hno y' (by simp [hy']))
  -- and so is all of the first run
  have hout : ∀ c ∈ run, c.id ≠ y.id := by
    intro c hc hid
    obtain rfl := hd.eq_of_id (hrun.1 hc) (hrun'.1 hy) hid
    exact hdis hc hy
  exact hno x (by simp) (hrun.all_or_none hd hout hx' hx hyx')

/-- A further operation keeps the elements in their order and the tombstones buried; anchors
    stand before their elements, what descends from an element stands in one run right behind
    it, and runs do not interleave. -/
theorem apply_stable (h : Reached s) (op : SequenceOp T) :
    s.elementIds.Sublist (s.apply op).elementIds ∧
    (∀ e ∈ s.elements, e.value = none → ∀ c ∈ (s.apply op).elements, c.id = e.id → c.value = none) ∧
    (∀ A e B a, s.elements = A ++ e :: B → e.after = some a → a ∈ A.map Element.id) ∧
    (∀ A e B, s.elements = A ++ e :: B → ∃ R C, B = R ++ C ∧
      (∀ x ∈ R, Descends s.elements e.id x.id) ∧
      ∀ x ∈ A ++ e :: C, ¬Descends s.elements e.id x.id) ∧
    ∀ run run', Typed s.elements run → Typed s.elements run' → List.Disjoint run run' →
      ∀ A x B y C x' D, s.elements = A ++ x :: (B ++ y :: (C ++ x' :: D)) →
        x ∈ run → y ∈ run' → x' ∈ run → ∀ y' ∈ D, y' ∉ run' :=
  ⟨h.elementIds_sublist [op], fun _ he hv _ hc hid => h.buried [op] he hv hc hid,
    fun _ _ _ _ hs ha => h.ordered.anchor_before hs ha, fun _ _ _ hs => h.ordered.run_behind hs,
    fun _ _ hrun hrun' hdis _ _ _ _ _ _ _ hs hx hy hx' _ hy' =>
      h.ordered.no_interleaving hrun hrun' hdis hs hx hy hx' hy'⟩

/-- Another peer types in between. -/
theorem apply_stable_typed_between : (fromOrdered [(⟨1, 1⟩, 'a'), (⟨2, 1⟩, 'b')]).elementIds.Sublist
      ((fromOrdered [(⟨1, 1⟩, 'a'), (⟨2, 1⟩, 'b')]).apply
        (.insert (some ⟨1, 1⟩) ⟨2, 2⟩ 'x' (some ⟨2, 1⟩))).elementIds :=
  (apply_stable (Reached.fromOrdered (by decide)) _).1

end Sequence
end MdCrdt
