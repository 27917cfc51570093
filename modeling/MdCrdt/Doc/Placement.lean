import MdCrdt.Core.SequenceMap
import MdCrdt.Core.SequencePlace
import MdCrdt.Lib.Arbitration
import MdCrdt.Doc.Table

/- Rows and columns under concurrent edits.

  A sequence of rows or columns is described by a `Layout`: the elements it has,
  each with the logical id it was made for, and for every logical id the placement
  that holds it now. An element is live if and only if it is the holder of its
  logical id. Edits made on one base without each other in view only add elements,
  end a logical id for good, or compete for it like writes to a register
  (`Lib.settleAll`), so the layout they lead to does not depend on their order. -/
namespace MdCrdt
open Lib Option Sequence Table
open List hiding le_of_lt not_le

/-- Where a logical row or column stands, and what the move that put it there had observed. -/
structure Place where
  logicalId : BlockId
  elemId : OpId
  observed : StateVector
  deriving DecidableEq

open Place

variable {p : Place} {id : OpId}

/-- The second placement was made with the first in view. The placement of the insert counts as
    seen by every move. -/
def Place.Saw (p q : Place) : Prop :=
  blockIdFromOp p.elemId = p.logicalId ∨ q.observed.covers p.elemId

instance : DecidableRel Saw :=
  fun p q => inferInstanceAs (Decidable (_ = _ ∨ q.observed.covers p.elemId))

/-- The test of `moveRow` and `moveColumn` against a placement under another id. -/
theorem moveLoses_iff (hne : p.elemId ≠ q.elemId) (hnew : blockIdFromOp q.elemId ≠ q.logicalId) :
    moveLoses p.logicalId p.elemId p.observed q.elemId q.observed = true ↔
      ¬Replaces Saw elemId p q := by
  have hle : q.elemId ≤ p.elemId ↔ ¬p.elemId ≤ q.elemId := by
    rw [not_le]
    exact ⟨fun h => lt_of_le_of_ne h (Ne.symm hne), le_of_lt⟩
  simp only [moveLoses, Replaces, Saw, Bool.and_eq_true, Bool.or_eq_true,
    Bool.not_eq_true', decide_eq_true_eq, decide_eq_false_iff_not, hnew, false_or, hle]
  tauto

/-- An element and the logical id it was made for; none for one whose value is forgotten. -/
structure Slot where
  id : OpId
  after : Option OpId
  rightOrigin : Option OpId
  logicalId : Option BlockId

/-- An edit of the rows or columns of a table. -/
inductive PlaceOp where
  | add (id : OpId) (after rightOrigin : Option OpId)
  | move (logicalId : BlockId) (id : OpId) (after rightOrigin : Option OpId)
      (observed : StateVector)
  | remove (logicalId : BlockId)

namespace PlaceOp

def slot : PlaceOp → Option Slot
  | add id after ro => some ⟨id, after, ro, some (blockIdFromOp id)⟩
  | move logicalId id after ro _ => some ⟨id, after, ro, some logicalId⟩
  | remove _ => none

/-- The placement the edit asks for, if it is about the logical id. -/
def placeOf (l : BlockId) : PlaceOp → Option Place
  | add id _ _ => if blockIdFromOp id = l then some ⟨l, id, .new⟩ else none
  | move logicalId id _ _ observed => if logicalId = l then some ⟨l, id, observed⟩ else none
  | remove _ => none

def removes (l : BlockId) : PlaceOp → Bool
  | remove logicalId => decide (logicalId = l)
  | _ => false

theorem slot_of_placeOf {op : PlaceOp} (h : op.placeOf l = some p) :
    ∃ x, op.slot = some x ∧ x.id = p.elemId ∧ x.logicalId = some l ∧ p.logicalId = l := by
  cases op with
  | add id after ro | move l' id after ro obs =>
    simp only [placeOf] at h
    split at h
    · next hl =>
      obtain rfl := some.inj h
      exact ⟨_, rfl, rfl, congrArg some hl, rfl⟩
    · cases h
  | remove l' => cases h

end PlaceOp

structure Layout where
  slots : List Slot
  holder : BlockId → Option Place

open Layout

namespace Layout
variable {l : BlockId}

def slotIds (L : Layout) : List OpId := L.slots.map Slot.id

theorem mem_slotIds {L : Layout} {x : Slot} (hx : x ∈ L.slots) : x.id ∈ L.slotIds :=
  mem_map_of_mem hx

/-- The element of a slot: live if it holds its logical id. -/
def render (L : Layout) (x : Slot) : Element Place :=
  ⟨x.id, x.logicalId.bind (fun l => (L.holder l).filter (fun p => p.elemId = x.id)), x.after,
    x.rightOrigin⟩

/-- The layout after a list of edits. -/
def after (b : Layout) (ops : List PlaceOp) : Layout where
  slots := b.slots ++ ops.filterMap PlaceOp.slot
  holder l := if ops.any (PlaceOp.removes l) then none
    else settleAll Saw elemId (b.holder l) (ops.filterMap (PlaceOp.placeOf l))

theorem mem_slotIds_after {b : Layout} (hx : x ∈ b.slotIds) : x ∈ (b.after ops).slotIds := by
  simp only [slotIds, after, map_append]
  exact mem_append_left _ hx

/-- Ids are distinct, and a holder stands in a slot of its logical id. -/
structure Sound (L : Layout) : Prop where
  nodup : L.slotIds.Nodup
  held : ∀ l p, L.holder l = some p → p.logicalId = l ∧
    ∃ x ∈ L.slots, x.id = p.elemId ∧ x.logicalId = some l

/-- Edits made on the base, none with another in view. -/
structure Concurrent (b : Layout) (ops : List PlaceOp) : Prop where
  fresh : (b.slotIds ++ (ops.filterMap PlaceOp.slot).map Slot.id).Nodup
  anchored : ∀ x ∈ ops.filterMap PlaceOp.slot, ∀ a, x.after = some a → a ∈ b.slotIds
  adds : ∀ id after ro, .add id after ro ∈ ops → b.holder (blockIdFromOp id) = none
  removes : ∀ l, .remove l ∈ ops → (b.holder l).isSome
  moves : ∀ l id after ro obs, .move l id after ro obs ∈ ops →
    blockIdFromOp id ≠ l ∧ ∃ p, b.holder l = some p ∧ p.Saw ⟨l, id, obs⟩
  apart : ∀ l id after ro obs, .move l id after ro obs ∈ ops →
    ∀ l' id' after' ro' obs', .move l' id' after' ro' obs' ∈ ops → ¬obs.covers id'

variable {b : Layout} {ops ops' : List PlaceOp} {op : PlaceOp}

theorem Concurrent.init (h : b.Concurrent (ops ++ [op])) : b.Concurrent ops where
  fresh := by
    have := h.fresh
    rw [filterMap_append, map_append, ← append_assoc] at this
    exact this.of_append_left
  anchored x hx := h.anchored x (by rw [filterMap_append]; exact mem_append_left _ hx)
  adds id after ro hm := h.adds id after ro (mem_append_left _ hm)
  removes l hm := h.removes l (mem_append_left _ hm)
  moves l id after ro obs hm := h.moves l id after ro obs (mem_append_left _ hm)
  apart l id after ro obs hm l' id' after' ro' obs' hm' :=
    h.apart l id after ro obs (mem_append_left _ hm) l' id' after' ro' obs' (mem_append_left _ hm')

/-! ## The layout does not depend on the order -/

open PlaceOp

/-- A placement that is asked for comes from an add or from a move. -/
theorem placeOf_cases (hp : p ∈ ops.filterMap (placeOf l)) :
    (∃ id after ro, .add id after ro ∈ ops ∧ blockIdFromOp id = l) ∨
      ∃ after ro, .move l p.elemId after ro p.observed ∈ ops ∧ p.logicalId = l := by
  obtain ⟨op, hop, hpl⟩ := mem_filterMap.mp hp
  cases op with
  | add id after ro =>
    simp only [placeOf] at hpl
    split at hpl
    · next hl => exact .inl ⟨id, after, ro, hop, hl⟩
    · cases hpl
  | move l' id after ro obs =>
    simp only [placeOf] at hpl
    split at hpl
    · next hl =>
      obtain rfl := some.inj hpl
      exact .inr ⟨after, ro, hl ▸ hop, rfl⟩
    · cases hpl
  | remove l' => cases hpl

section
variable (h : b.Concurrent ops)
include h

/-- Edits whose slots share an id are the same edit. -/
theorem Concurrent.slot_inj (hop : op ∈ ops)
    (hop' : op' ∈ ops) (hx : op.slot = some x) (hy : op'.slot = some y)
    (hid : x.id = y.id) : op = op' := by
  have hnd : ((ops.filterMap slot).map Slot.id).Nodup := h.fresh.of_append_right
  have hpair := pairwise_filterMap.mp (pairwise_map.mp hnd)
  have : Std.Symm (fun a c : PlaceOp => ∀ x, a.slot = some x → ∀ y, c.slot = some y → x.id ≠ y.id) :=
    ⟨fun a c hac x hx y hy hxy => hac y hy x hx hxy.symm⟩
  by_contra hne
  exact hpair.forall hop hop' hne x hx y hy hid

theorem Concurrent.place_inj {q : Place}
    (hp : p ∈ ops.filterMap (placeOf l)) (hq : q ∈ ops.filterMap (placeOf l))
    (he : p.elemId = q.elemId) : p = q := by
  obtain ⟨op, hop, hpl⟩ := mem_filterMap.mp hp
  obtain ⟨op', hop', hql⟩ := mem_filterMap.mp hq
  obtain ⟨x, hx, hxid, -⟩ := slot_of_placeOf hpl
  obtain ⟨y, hy, hyid, -⟩ := slot_of_placeOf hql
  obtain rfl := h.slot_inj hop hop' hx hy (by rw [hxid, hyid, he])
  exact some.inj (hpl.symm.trans hql)

/-- An add has its logical id to itself. -/
theorem Concurrent.add_alone {after ro}
    (hadd : .add id after ro ∈ ops) (hp : p ∈ ops.filterMap (placeOf (blockIdFromOp id))) :
    p = ⟨blockIdFromOp id, id, .new⟩ := by
  have hnone := h.adds id after ro hadd
  obtain ⟨op, hop, hpl⟩ := mem_filterMap.mp hp
  cases op with
  | add id' after' ro' =>
    simp only [placeOf] at hpl
    split at hpl
    · next hl =>
      obtain rfl := blockIdFromOp_injective hl
      exact (some.inj hpl).symm
    · cases hpl
  | move l' id' after' ro' obs =>
    simp only [placeOf] at hpl
    split at hpl
    · next hl =>
      obtain ⟨-, q, hq, -⟩ := h.moves l' id' after' ro' obs hop
      rw [hl, hnone] at hq
      cases hq
    · cases hpl
  | remove l' => cases hpl

/-- For one logical id, either there is only an add, or the edits did not see each other and
    all of them saw its holder. -/
theorem Concurrent.settles (l) : (∃ p, ∀ q ∈ ops.filterMap (placeOf l), q = p) ∨
      (∀ p ∈ ops.filterMap (placeOf l), ∀ q ∈ ops.filterMap (placeOf l), ¬p.Saw q) ∧
      ∀ c ∈ b.holder l, ∀ q ∈ ops.filterMap (placeOf l), c.Saw q := by
  by_cases hadd : ∃ id after ro, add id after ro ∈ ops ∧ blockIdFromOp id = l
  · obtain ⟨id, after, ro, hm, rfl⟩ := hadd
    exact .inl ⟨_, fun q hq => h.add_alone hm hq⟩
  · have hmove : ∀ p ∈ ops.filterMap (placeOf l),
        ∃ after ro, .move l p.elemId after ro p.observed ∈ ops ∧ p.logicalId = l :=
      fun p hp => (placeOf_cases hp).resolve_left hadd
    refine .inr ⟨fun p hp q hq hsaw => ?_, fun c hc q hq => ?_⟩
    · obtain ⟨after, ro, hm, hl⟩ := hmove p hp
      obtain ⟨after', ro', hm', -⟩ := hmove q hq
      rcases hsaw with horig | hcov
      · exact (h.moves l _ after ro _ hm).1 (horig.trans hl)
      · exact h.apart l _ after' ro' _ hm' l _ after ro _ hm hcov
    · obtain ⟨after, ro, hm, hl⟩ := hmove q hq
      obtain ⟨-, p, hp, hsaw⟩ := h.moves l _ after ro _ hm
      obtain rfl := some.inj (hc.symm.trans hp)
      exact hsaw

/-- The same edits in another order lead to the same layout. -/
theorem Concurrent.after_perm (hp : ops.Perm ops') : (b.after ops).slots.Perm (b.after ops').slots ∧
      (b.after ops).holder = (b.after ops').holder := by
  refine ⟨(hp.filterMap _).append_left _, funext fun l => ?_⟩
  have hany : ops.any (PlaceOp.removes l) = ops'.any (PlaceOp.removes l) := hp.any_eq
  have hplaces := hp.filterMap (PlaceOp.placeOf l)
  simp only [after, hany]
  split
  · rfl
  · rcases h.settles l with ⟨p, hall⟩ | ⟨hfree, hseen⟩
    · rw [eq_replicate_of_mem hall] at hplaces ⊢
      rw [perm_replicate.mp hplaces.symm]
    · exact settleAll_perm hplaces hfree (fun p hp q hq => h.place_inj hp hq) hseen

end

/-! ## One edit more -/

/-- The slot a holder stands in was made for its logical id. -/
theorem Sound.slot_of_holder {L : Layout} (h : L.Sound) (hp : L.holder l = some p)
    {y : Slot} (hy : y ∈ L.slots) (hid : y.id = p.elemId) : y.logicalId = some l := by
  obtain ⟨-, x, hx, hxid, hl⟩ := h.held l p hp
  rwa [inj_on_of_nodup_map h.nodup hy hx (hid.trans hxid.symm)]

theorem Sound.elemId_mem {L : Layout} (h : L.Sound) (hp : L.holder l = some p) :
    p.elemId ∈ L.slotIds := by
  obtain ⟨-, x, hx, hxid, -⟩ := h.held l p hp
  exact hxid ▸ mem_slotIds hx

theorem Concurrent.sound (h : b.Concurrent ops) (hb : b.Sound) : (b.after ops).Sound where
  nodup := by simpa [slotIds, after] using h.fresh
  held l p hp := by
    simp only [after] at hp
    split at hp
    · cases hp
    · rcases settleAll_mem hp with hbase | hm
      · obtain ⟨hl, x, hx, hid⟩ := hb.held l p hbase
        exact ⟨hl, x, mem_append_left _ hx, hid⟩
      · obtain ⟨op, hop, hpl⟩ := mem_filterMap.mp hm
        obtain ⟨x, hx, hid, hlog, hl⟩ := slot_of_placeOf hpl
        exact ⟨hl, x, mem_append_right _ (mem_filterMap.mpr ⟨op, hop, hx⟩), hid, hlog⟩

theorem slots_append (b : Layout) (ops) (op : PlaceOp) :
    (b.after (ops ++ [op])).slots = (b.after ops).slots ++ op.slot.toList := by
  simp only [after, filterMap_append, append_assoc, filterMap_cons, filterMap_nil]
  cases op.slot <;> rfl

/-- An edit about another logical id. -/
theorem holder_append_other (hp : op.placeOf l = none) (hr : op.removes l = false) :
    (b.after (ops ++ [op])).holder l = (b.after ops).holder l := by
  simp [after, filterMap_append, hp, hr]

theorem holder_append_remove (l) : (b.after (ops ++ [.remove l])).holder l = none := by
  simp [after, removes]

/-- A move competes with the holder, if there still is one. -/
theorem Concurrent.holder_append_move (h : b.Concurrent (ops ++ [.move l id aft ro obs])) :
    (b.after (ops ++ [.move l id aft ro obs])).holder l = ((b.after ops).holder l).map (fun p =>
      if Replaces Saw elemId p ⟨l, id, obs⟩ then ⟨l, id, obs⟩ else p) := by
  obtain ⟨-, c, hc, -⟩ := h.moves l id aft ro obs (by simp)
  simp only [after, any_append, filterMap_append, settleAll_append]
  by_cases hr : ops.any (PlaceOp.removes l) = true
  · simp [hr]
  · obtain ⟨w, hw⟩ : ∃ w, settleAll Saw elemId (some c)
        (ops.filterMap (PlaceOp.placeOf l)) = some w := settleAll_some c _
    have hplace : [PlaceOp.move l id aft ro obs].filterMap (PlaceOp.placeOf l) =
        [⟨l, id, obs⟩] := by simp [PlaceOp.placeOf]
    have hany : (ops.any (PlaceOp.removes l) ||
        [PlaceOp.move l id aft ro obs].any (PlaceOp.removes l)) = false := by
      simpa [PlaceOp.removes] using hr
    rw [hplace, hany, hc, hw, settleAll_singleton, settle]
    simp only [hr, Bool.false_eq_true, if_false, map_some]
    split <;> rfl

/-- An add finds its logical id free and takes it. -/
theorem Concurrent.holder_append_add
    (h : b.Concurrent (ops ++ [.add id aft ro])) : (b.after ops).holder (blockIdFromOp id) = none ∧
      (b.after (ops ++ [.add id aft ro])).holder (blockIdFromOp id) =
        some ⟨blockIdFromOp id, id, .new⟩ := by
  have hnone := h.adds id aft ro (by simp)
  have hnr : ops.any (PlaceOp.removes (blockIdFromOp id)) = false := by
    rw [List.any_eq_false]
    intro op hop hr
    cases op with
    | remove l =>
      obtain rfl := of_decide_eq_true hr
      have := h.init.removes _ hop
      rw [hnone] at this
      cases this
    | add _ _ _ => cases hr
    | move _ _ _ _ _ => cases hr
  have hempty : ops.filterMap (PlaceOp.placeOf (blockIdFromOp id)) = [] := by
    rw [filterMap_eq_nil_iff]
    intro op hop
    by_contra hne
    obtain ⟨p, hp⟩ := ne_none_iff_exists'.mp hne
    obtain ⟨x, hx, hid, -⟩ := PlaceOp.slot_of_placeOf hp
    have hmem : PlaceOp.add id aft ro ∈ ops ++ [PlaceOp.add id aft ro] := by simp
    have halone := h.add_alone hmem (mem_filterMap.mpr ⟨op, mem_append_left _ hop, hp⟩)
    -- a second edit under the same id
    have hfresh := h.fresh
    rw [filterMap_append, map_append] at hfresh
    have hdisj := (nodup_append.mp hfresh.of_append_right).2.2
    exact hdisj x.id (List.mem_map_of_mem (mem_filterMap.mpr ⟨op, hop, hx⟩)) id
      (by simp [PlaceOp.slot]) (by rw [hid, halone])
  constructor
  · simp only [after, hnr, hempty, hnone, settleAll, Bool.false_eq_true, if_false, foldl_nil]
  · have hany : [PlaceOp.add id aft ro].any (PlaceOp.removes (blockIdFromOp id)) = false := rfl
    have hplace : [PlaceOp.add id aft ro].filterMap (PlaceOp.placeOf (blockIdFromOp id)) =
        [⟨blockIdFromOp id, id, .new⟩] := by simp [PlaceOp.placeOf]
    simp only [after, any_append, filterMap_append, hnr, hany, hempty, hplace, hnone,
      Bool.or_false, Bool.false_eq_true, if_false, nil_append, settleAll_singleton, settle]

end Layout

/-! ## Sequences that show a layout -/

variable {T : Type}

/-- The sequence has the elements of the layout, and the right ones are live. -/
structure Shows (place : T → Place) (s : Sequence T) (L : Layout) : Prop where
  ordered : s.Ordered
  faces : (s.elements.map (Element.map place)).Perm (L.slots.map L.render)

namespace Shows
variable {place : T → Place} {s s' : Sequence T} {L L' : Layout} {e : Element T}

section
variable (h : Shows place s L)
include h

theorem ids_perm : s.elementIds.Perm L.slotIds := by
  have := h.faces.map Element.id
  rwa [List.map_map, List.map_map] at this

theorem mem_ids : x ∈ s.elementIds ↔ x ∈ L.slotIds :=
  h.ids_perm.mem_iff

/-- Two sequences that show the same layout look the same. -/
theorem faces_eq (h' : Shows place s' L') (hs : L.slots.Perm L'.slots) (hh : L.holder = L'.holder) :
    s.elements.map (Element.map place) = s'.elements.map (Element.map place) := by
  have hr : L.render = L'.render := by
    funext x
    rw [render, render, hh]
  have hfaces : (s.elements.map (Element.map place)).Perm (s'.elements.map (Element.map place)) :=
    h.faces.trans ((hs.map L.render).trans (hr ▸ h'.faces.symm))
  have hd : Distinct (s.elements.map (Element.map place)) := by
    rw [Distinct, (keepsPlace_map place).map_ids]
    exact h.ordered.grounded.distinct
  calc s.elements.map (Element.map place)
      = orderElements (s.elements.map (Element.map place)) := by
        rw [orderElements_map (keepsPlace_map place), h.ordered.order]
    _ = orderElements (s'.elements.map (Element.map place)) :=
        orderElements_congr hd hfaces
    _ = s'.elements.map (Element.map place) := by
        rw [orderElements_map (keepsPlace_map place), h'.ordered.order]

/-- A live value is the holder of its logical id. -/
theorem holder_of_value (hL : L.Sound) (he : e ∈ s.elements) (hv : e.value = some v) :
    L.holder (place v).logicalId = some (place v) ∧ (place v).elemId = e.id := by
  obtain ⟨x, hx, hxe⟩ := mem_map.mp (h.faces.mem_iff.mp (mem_map_of_mem he))
  have hid : x.id = e.id := congrArg Element.id hxe
  have hval : x.logicalId.bind (fun l => (L.holder l).filter (fun p => p.elemId = x.id)) =
      some (place v) := by
    have := congrArg Element.value hxe
    simpa [render, Element.map, hv] using this
  obtain ⟨l, hl, hp⟩ := bind_eq_some_iff.mp hval
  obtain ⟨hold, helem⟩ := filter_eq_some_iff.mp hp
  obtain ⟨hlog, -⟩ := hL.held l _ hold
  rw [hlog, ← hid]
  exact ⟨hold, by simpa using helem⟩

/-- At most one live value stands for a logical id. -/
theorem value_unique (hL : L.Sound) (hv : v ∈ s.iter)
    (hw : w ∈ s.iter) (hl : (place v).logicalId = (place w).logicalId) : v = w := by
  obtain ⟨e, he, hev⟩ := mem_filterMap.mp hv
  obtain ⟨f, hf, hfw⟩ := mem_filterMap.mp hw
  obtain ⟨hhold, hid⟩ := h.holder_of_value hL he hev
  obtain ⟨hhold', hid'⟩ := h.holder_of_value hL hf hfw
  rw [hl, hhold'] at hhold
  have hef : e = f := by
    refine h.ordered.grounded.distinct.eq_of_id he hf ?_
    rw [← hid, ← hid', some.inj hhold]
  exact some.inj (hev.symm.trans (hef ▸ hfw))

/-- The holder of a logical id is a live value. -/
theorem value_of_holder (hL : L.Sound) (hp : L.holder l = some p) :
    ∃ e ∈ s.elements, ∃ v, e.value = some v ∧ place v = p ∧ e.id = p.elemId := by
  obtain ⟨-, x, hx, hid, hl⟩ := hL.held l p hp
  obtain ⟨e, he, hxe⟩ := mem_map.mp (h.faces.mem_iff.mpr (mem_map_of_mem hx))
  have hval : e.value.map place = some p := by
    have := congrArg Element.value hxe
    simp only [render, Element.map, hl, hp, hid, bind_some] at this
    rw [this, filter_some]
    simp
  obtain ⟨v, hv, hvp⟩ := map_eq_some_iff.mp hval
  exact ⟨e, he, v, hv, hvp, (congrArg Element.id hxe).trans hid⟩

/-- The search for a logical id finds its holder. -/
theorem find (hL : L.Sound) (l) :
    (s.iter.find? (fun v => (place v).logicalId = l)).map place = L.holder l := by
  cases hf : s.iter.find? (fun v => (place v).logicalId = l) with
  | some v =>
    obtain ⟨e, he, hv⟩ := mem_filterMap.mp (mem_of_find?_eq_some hf)
    have hl : (place v).logicalId = l := by simpa using find?_some hf
    rw [map_some, ← (h.holder_of_value hL he hv).1, hl]
  | none =>
    cases hp : L.holder l with
    | none => rfl
    | some p =>
      obtain ⟨e, he, v, hv, hvp, -⟩ := h.value_of_holder hL hp
      have hmem : v ∈ s.iter := mem_filterMap.mpr ⟨e, he, hv⟩
      have := find?_eq_none.mp hf v hmem
      rw [hvp, (hL.held l p hp).1] at this
      simp at this

/-- A new element, the others as they were. -/
theorem extend (hid : x.id ∉ L.slotIds)
    (ha : ∀ a, x.after = some a → a ∈ L.slotIds) (hs : L'.slots = L.slots ++ [x])
    (hold : ∀ y ∈ L.slots, L'.render y = L.render y) (he : e.map place = L'.render x) :
    Shows place (s.withElement e) L' := by
  have hxe : e.id = x.id := congrArg Element.id he
  have haf : e.after = x.after := congrArg Element.after he
  have hid' : e.id ∉ s.elementIds := by rwa [h.mem_ids, hxe]
  have ha' : s.Anchored e.after := fun a hae => h.mem_ids.mpr (ha a (haf ▸ hae))
  refine ⟨ordered_withElement h.ordered.toIndexed hid' ha', ?_⟩
  refine ((withElement_perm h.ordered.toIndexed hid' ha').map _).trans ?_
  rw [map_append, map_singleton, he, hs, map_append, map_singleton, map_congr_left hold]
  exact h.faces.append_right _

/-- One element becomes a tombstone. -/
theorem kill (hs : L'.slots = L.slots) (hr : ∀ y ∈ L.slots, L'.render y =
      if y.id = t then bury (L.render y) else L.render y) : Shows place (s.withTombstone t) L' := by
  refine ⟨ordered_withTombstone h.ordered t, ?_⟩
  have hl : (s.withTombstone t).elements.map (Element.map place) =
      (s.elements.map (Element.map place)).map
        (fun e => if e.id = t then bury e else e) := by
    simp only [withTombstone, updateAt, List.map_map]
    refine map_congr_left (fun e _ => ?_)
    by_cases hid : e.id = t <;> simp [Element.map, bury, hid]
  have hr' : L.slots.map L'.render =
      (L.slots.map L.render).map (fun e => if e.id = t then bury e else e) := by
    rw [List.map_map]
    exact map_congr_left (fun y hy => hr y hy)
  rw [hl, hs, hr']
  exact h.faces.map _

end

/-! ### The edits -/

variable {b : Layout} {ops : List PlaceOp}

/-- A slot looks the same under holders that agree on its logical id as far as it is concerned. -/
theorem render_congr (h : ∀ l, y.logicalId = some l →
      (L'.holder l).filter (fun p => p.elemId = y.id) =
        (L.holder l).filter (fun p => p.elemId = y.id)) : L'.render y = L.render y := by
  unfold render
  cases hl : y.logicalId with
  | none => rfl
  | some l => simp only [bind_some, h l hl]

/-- A logical id ends: its holder is buried, and no other slot looks different. -/
theorem release (h : Shows place s L) (hs : L'.slots = L.slots) (hl : L'.holder l = none)
    (hrest : ∀ l', l' ≠ l → L'.holder l' = L.holder l')
    (ht : ∀ p, L.holder l = some p → p.elemId = t)
    (hslot : ∀ y ∈ L.slots, y.id = t → y.logicalId = some l) :
    Shows place (s.withTombstone t) L' := by
  refine h.kill hs (fun y hy => ?_)
  by_cases hy' : y.logicalId = some l
  · have hdead : L'.render y = bury (L.render y) := by simp [render, bury, hy', hl]
    rw [hdead]
    split
    · rfl
    · next hne =>
      -- not the holder, so dead before
      simp only [render, bury, hy', bind_some]
      cases hp : L.holder l with
      | none => rfl
      | some p =>
        have : p.elemId ≠ y.id := fun he => hne (he ▸ ht p hp)
        simp [filter_some, this]
  · rw [if_neg (fun he => hy' (hslot y hy he))]
    exact render_congr fun l' hl' => by rw [hrest l' (fun he => hy' (he ▸ hl'))]

/-- The slot of a new edit is new, and its anchor is there. -/
theorem slot_fresh (hc : b.Concurrent (ops ++ [op]))
    (hx : op.slot = some x) : x.id ∉ (b.after ops).slotIds ∧
      ∀ a, x.after = some a → a ∈ (b.after ops).slotIds := by
  have hids : (b.after ops).slotIds = b.slotIds ++ (ops.filterMap PlaceOp.slot).map Slot.id := by
    simp [Layout.slotIds, Layout.after]
  constructor
  · have hnd := hc.fresh
    rw [filterMap_append, map_append, ← append_assoc, ← hids] at hnd
    intro hm
    exact (nodup_append.mp hnd).2.2 _ hm _ (by simp [hx]) rfl
  · intro a ha
    rw [hids]
    exact mem_append_left _ (hc.anchored x (by simp [hx]) a ha)

/-- Nothing waits for a new slot, and its anchor is there. -/
theorem slot_new (h : Shows place s (b.after ops))
    (hc : b.Concurrent (ops ++ [op])) (hx : op.slot = some x)
    (hb : s.SameBuffers s') (hu : s'.Unknown x.id) : s.Unknown x.id ∧ s.Anchored x.after := by
  obtain ⟨hid, ha⟩ := slot_fresh hc hx
  exact ⟨⟨fun hm => hid (h.mem_ids.mp hm), hb.1 ▸ hu.noInsert, hb.2 ▸ hu.noDelete⟩,
    fun a haa => h.mem_ids.mpr (ha a haa)⟩

theorem add (h : Shows place s (b.after ops)) (hc : b.Concurrent (ops ++ [.add id aft ro]))
    (hv : place v = ⟨blockIdFromOp id, id, .new⟩) :
    Shows place (s.withElement ⟨id, some v, aft, ro⟩) (b.after (ops ++ [.add id aft ro])) := by
  obtain ⟨hid, ha⟩ := slot_fresh hc rfl
  obtain ⟨hfree, hholds⟩ := hc.holder_append_add
  refine h.extend hid ha (slots_append b ops _) (fun y hy => render_congr fun l _ => ?_) ?_
  · by_cases hl : blockIdFromOp id = l
    · subst hl
      have hne : id ≠ y.id := fun he => absurd (mem_slotIds hy) (he ▸ hid)
      rw [hholds, hfree]
      simp [filter_some, hne]
    · rw [holder_append_other (by simp [PlaceOp.placeOf, hl]) rfl]
  · simp only [Element.map, render, bind_some, hholds, map_some, hv,
      filter_some, decide_true, if_true]

/-- The element that is deleted is the holder of the logical id, or the one it had at first. -/
theorem remove (h : Shows place s (b.after ops)) (hb : b.Sound)
    (hc : b.Concurrent (ops ++ [.remove l])) (hfirst : b.holder l = some first)
    (ht : t = (((b.after ops).holder l).getD first).elemId) :
    t ∈ s.elementIds ∧ Shows place (s.withTombstone t) (b.after (ops ++ [.remove l])) := by
  have hsound := hc.init.sound hb
  obtain ⟨x, hx, hxid, hxl⟩ : ∃ x ∈ (b.after ops).slots, x.id = t ∧ x.logicalId = some l := by
    cases hp : (b.after ops).holder l with
    | some p =>
      rw [ht, hp, getD_some]
      exact (hsound.held l p hp).2
    | none =>
      obtain ⟨-, x, hx, hid⟩ := hb.held l first hfirst
      rw [ht, hp, getD_none]
      exact ⟨x, mem_append_left _ hx, hid⟩
  have hslot : ∀ y ∈ (b.after ops).slots, y.id = t → y.logicalId = some l := by
    intro y hy hid
    rwa [inj_on_of_nodup_map hsound.nodup hy hx (hid.trans hxid.symm)]
  refine ⟨h.mem_ids.mpr (hxid ▸ mem_slotIds hx), ?_⟩
  have ht : ∀ p, (b.after ops).holder l = some p → p.elemId = t := by
    intro p hp
    rw [ht, hp, getD_some]
  exact h.release (by rw [slots_append]; exact append_nil _) (holder_append_remove l)
    (fun l' hne => holder_append_other rfl (by simp [PlaceOp.removes, hne.symm])) ht hslot

section Move
variable {l : BlockId} {id : OpId} {aft ro : Option OpId} {obs : StateVector}

/-- The test of the source and the register agree on a holder. -/
theorem loses_iff (hb : b.Sound) (hc : b.Concurrent (ops ++ [.move l id aft ro obs]))
    (hp : (b.after ops).holder l = some p) :
    moveLoses p.logicalId p.elemId p.observed id obs = true ↔
      ¬Replaces Saw elemId p ⟨l, id, obs⟩ := by
  have hfresh : id ∉ (b.after ops).slotIds := (slot_fresh hc rfl).1
  have hne : p.elemId ≠ id := fun he => hfresh (he ▸ (hc.init.sound hb).elemId_mem hp)
  exact moveLoses_iff (q := ⟨l, id, obs⟩) hne (hc.moves l id aft ro obs (by simp)).1

section
variable (h : Shows place s (b.after ops)) (hb : b.Sound)
  (hc : b.Concurrent (ops ++ [.move l id aft ro obs]))
include h hb hc

/-- A move that does not win leaves a tombstone. -/
theorem move_keep
    (hk : ∀ p, (b.after ops).holder l = some p → ¬Replaces Saw elemId p ⟨l, id, obs⟩) :
    Shows place (s.withElement ⟨id, none, aft, ro⟩) (b.after (ops ++ [.move l id aft ro obs])) := by
  obtain ⟨hid, ha⟩ := slot_fresh hc rfl
  have hholder : (b.after (ops ++ [.move l id aft ro obs])).holder l = (b.after ops).holder l := by
    rw [hc.holder_append_move]
    cases hp : (b.after ops).holder l with
    | none => rfl
    | some p => rw [map_some, if_neg (hk p hp)]
  refine h.extend hid ha (slots_append b ops _) (fun y _ => render_congr fun l' _ => ?_) ?_
  · by_cases hl : l = l'
    · rw [← hl, hholder]
    · rw [holder_append_other (by simp [PlaceOp.placeOf, hl]) rfl]
  · simp only [Element.map, render, bind_some, hholder, map_none]
    cases hp : (b.after ops).holder l with
    | none => rfl
    | some p =>
      have hne : p.elemId ≠ id := fun he => hid (he ▸ (hc.init.sound hb).elemId_mem hp)
      simp [filter_some, hne]

/-- A move that wins takes the logical id over. -/
theorem move_win (hp : (b.after ops).holder l = some p)
    (hw : Replaces Saw elemId p ⟨l, id, obs⟩) (hv : place v = ⟨l, id, obs⟩) :
    Shows place ((s.withTombstone p.elemId).withElement ⟨id, some v, aft, ro⟩)
      (b.after (ops ++ [.move l id aft ro obs])) := by
  obtain ⟨hid, ha⟩ := slot_fresh hc rfl
  have hsound := hc.init.sound hb
  have hholder : (b.after (ops ++ [.move l id aft ro obs])).holder l = some ⟨l, id, obs⟩ := by
    rw [hc.holder_append_move, hp, map_some, if_pos hw]
  -- between the two steps nobody holds the logical id
  let mid : Layout := ⟨(b.after ops).slots, fun l' => if l' = l then none else (b.after ops).holder l'⟩
  have hmid : Shows place (s.withTombstone p.elemId) mid := by
    refine h.release rfl (if_pos rfl) (fun l' hne => if_neg hne) (fun q hq => ?_)
      (fun y => hsound.slot_of_holder hp)
    rw [some.inj (hq.symm.trans hp)]
  refine hmid.extend hid ha (slots_append b ops _) (fun y hy => render_congr fun l' _ => ?_) ?_
  · by_cases hl : l = l'
    · subst hl
      have hne : id ≠ y.id := fun he => absurd (mem_slotIds hy) (he ▸ hid)
      simp [mid, hholder, filter_some, hne]
    · have hl' : l' ≠ l := fun he => hl he.symm
      rw [holder_append_other (by simp [PlaceOp.placeOf, hl]) rfl]
      simp [mid, hl']
  · simp only [Element.map, render, bind_some, hholder, map_some, hv,
      filter_some, decide_true, if_true]

/-- What the source does for a move that is too late or loses. -/
theorem move_loses (hu : s.Unknown id) (ha : s.Anchored aft)
    (hk : ∀ p, (b.after ops).holder l = some p →
      moveLoses p.logicalId p.elemId p.observed id obs = true) (x) :
    Shows place ((s.apply (.insert aft id x ro)).delete id id)
        (b.after (ops ++ [.move l id aft ro obs])) ∧
      ((s.apply (.insert aft id x ro)).delete id id).SameBuffers s := by
  rw [insert_delete_unknown h.ordered.toIndexed hu ha]
  exact ⟨h.move_keep hb hc (fun p hp => (loses_iff hb hc hp).mp (hk p hp)), rfl, rfl⟩

/-- What the source does for a move that wins. -/
theorem move_wins (hu : s.Unknown id) (ha : s.Anchored aft) (hp : (b.after ops).holder l = some p)
    (hw : ¬moveLoses p.logicalId p.elemId p.observed id obs = true)
    (hv : place v = ⟨l, id, obs⟩) : Shows place ((s.delete p.elemId id).apply (.insert aft id v ro))
        (b.after (ops ++ [.move l id aft ro obs])) ∧
      ((s.delete p.elemId id).apply (.insert aft id v ro)).SameBuffers s := by
  have hmem : p.elemId ∈ s.elementIds := h.mem_ids.mpr ((hc.init.sound hb).elemId_mem hp)
  rw [delete_insert_unknown h.ordered.toIndexed hmem hu ha]
  refine ⟨h.move_win hb hc hp ?_ hv, rfl, rfl⟩
  rwa [loses_iff hb hc hp, not_not] at hw

end
end Move

/-- A value is replaced by one that stands in the same place. -/
theorem update (h : Shows place s L) (hL : L.Sound) (he : e ∈ s.elements) (hv : e.value = some v)
    (hw : place w = place v) :
    Shows place (s.updateValue (place v).elemId w) L := by
  have hid : (place v).elemId = e.id := (h.holder_of_value hL he hv).2
  rw [h.ordered.toIndexed.updateValue_eq]
  refine ⟨h.ordered.of_updateAt (keepsPlace_value (fun _ => some w)) rfl rfl, ?_⟩
  have hsame : (updateAt (place v).elemId (fun e => { e with value := some w }) s.elements).map
      (Element.map place) = s.elements.map (Element.map place) := by
    rw [updateAt, List.map_map]
    refine map_congr_left (fun a ha => ?_)
    by_cases haid : a.id = (place v).elemId
    · obtain rfl := h.ordered.grounded.distinct.eq_of_id ha he (haid.trans hid)
      simp [Element.map, haid, hv, hw]
    · simp [haid]
  simpa [hsame] using h.faces

end Shows
end MdCrdt
