import MdCrdt.Core.SequenceMap
import MdCrdt.Doc.Containers

/- What holds of every block that a document shows or may come to show.

  A sequence shows the values that are live, and may come to show those that wait, unless
  a delete has come for them (`Sequence.Shows`). `Intact G` asks `G` of all such blocks of
  a tree, at any depth. `G` may look at everything inside a block, so an edit deep in the
  tree has to answer for the blocks on the way (`pathBlocks`): an edit at a path keeps
  `Intact G` if `G` holds of them whatever becomes of their kind. -/
namespace MdCrdt
open Lib List Option Sequence
variable {id : OpId} {G' : Block → Prop}

/-! ## Sequences -/

namespace Sequence
variable {T : Type} {P Q : T → Prop} {s : Sequence T} {v : T}

/-- The places of a sequence, without the values. -/
def shape (s : Sequence T) : Sequence Unit := s.map (fun _ => ())

/-- `P` holds of every value that is live or waits and has not been deleted. -/
def Shows (P : T → Prop) (s : Sequence T) : Prop :=
  ∃ D : SequenceOp Unit → Prop, Delivered D s.shape ∧ s.Indexed ∧
    ∀ id v, s.Carries id v → (∀ d, ¬D (.delete id d)) → P v

theorem shows_new : Shows P (new : Sequence T) :=
  ⟨fun _ => False, delivered_new, ordered_new.toIndexed, fun id v h => by
    have hk : Keeps (fun _ _ => False) (new : Sequence T) := keeps_new
    exact ((keeps_iff.mp hk).2 id v h).elim⟩

section
variable (h : Shows P s)
include h

theorem Shows.indexed : s.Indexed := by
  obtain ⟨_, _, hi, _⟩ := h
  exact hi

theorem Shows.live (he : e ∈ s.elements) (hv : e.value = some v) : P v := by
  obtain ⟨D, hd, -, hp⟩ := h
  refine hp e.id v (.inl ⟨e, he, rfl, hv⟩) (fun d hdel => ?_)
  have hmem : e.map (fun _ => ()) ∈ s.shape.elements := mem_map_of_mem he
  have hnone := (hd.value_none hmem).mpr ⟨d, hdel⟩
  simp [Element.map, hv] at hnone

theorem Shows.value? (hv : s.value? id = some v) : P v := by
  obtain ⟨e, he, -, hev⟩ := mem_of_value? h.indexed hv
  exact h.live he hev

/-- Operations one after the other: what they insert satisfies `P`, or they delete it. -/
theorem Shows.applyAll (ops)
    (hops : ∀ after id v ro, .insert after id v ro ∈ ops → P v ∨ ∃ d, .delete id d ∈ ops) :
    Shows P (s.applyAll ops) := by
  obtain ⟨D, hd, hi, hp⟩ := h
  have hd' := applyAll_delivered hd (ops.map (SequenceOp.map (fun _ => ())))
  rw [shape, map_applyAll] at hd'
  refine ⟨_, hd', ?_⟩
  have hk : Keeps (fun id v => (∀ d, ¬(SequenceOp.delete id d ∈
      ops.map (SequenceOp.map (fun _ => ())) ∨ D (.delete id d))) → P v) s :=
    keeps_iff.mpr ⟨hi, fun id v hc hn => hp id v hc (fun d hdel => hn d (.inr hdel))⟩
  refine keeps_iff.mp (hk.applyAll (fun op hop => ?_))
  cases op with
  | delete t d => trivial
  | insert after id v ro =>
    intro hn
    rcases hops after id v ro hop with hv | ⟨d, hdel⟩
    · exact hv
    · exact (hn d (.inl (mem_map_of_mem hdel))).elim

theorem Shows.insert {after} (ro) (hv : P v) : Shows P (s.apply (.insert after id v ro)) := by
  refine h.applyAll [.insert after id v ro] (fun after' id' v' ro' hmem => .inl ?_)
  cases mem_singleton.mp hmem
  exact hv

theorem Shows.delete (target id) : Shows P (s.apply (.delete target id)) :=
  h.applyAll [.delete target id] (fun _ _ _ _ hmem => by cases mem_singleton.mp hmem)

/-- What is inserted and deleted at once is never shown. -/
theorem Shows.bury (after id v ro d) : Shows P
    ((s.apply (.insert after id v ro)).apply (.delete id d)) := by
  refine h.applyAll [.insert after id v ro, .delete id d]
    (fun after' id' v' ro' hmem => .inr ⟨d, ?_⟩)
  rcases mem_cons.mp hmem with heq | hmem
  · cases heq
    exact mem_cons_of_mem _ mem_cons_self
  · cases mem_singleton.mp hmem

end

theorem shape_withValue (h : s.Indexed) (id) (f : T → T) : (s.withValue id f).shape = s.shape := by
  have helements : (updateAt id (fun e => { e with value := e.value.map f }) s.elements).map
      (Element.map (fun _ => ())) = s.elements.map (Element.map (fun _ => ())) := by
    rw [updateAt, List.map_map]
    refine map_congr_left (fun e _ => ?_)
    simp only [Function.comp_apply]
    split
    · simp [Element.map, Function.comp_def]
    · rfl
  rw [h.withValue_eq]
  simp only [shape, map]
  rw [helements]

/-- Changing one value in place: what is carried is that value, or was carried. -/
theorem carries_withValue (h : s.Indexed) (hc : (s.withValue id f).Carries id' v) :
    s.Carries id' v ∨ id' = id ∧ ∃ w, s.value? id = some w ∧ v = f w := by
  rw [h.withValue_eq] at hc
  rcases hc with ⟨e, he, rfl, hv⟩ | hc
  · obtain ⟨a, ha, rfl⟩ := mem_map.mp he
    by_cases hid : a.id = id
    · simp only [hid, if_true] at hv ⊢
      obtain ⟨w, hw, rfl⟩ := map_eq_some_iff.mp hv
      exact .inr ⟨trivial, w, hid ▸ value?_of_mem h ha hw, rfl⟩
    · simp only [hid, if_false] at hv ⊢
      exact .inl (.inl ⟨a, ha, rfl, hv⟩)
  · exact .inl (.inr hc)

theorem updateValue_of_value? (hv : s.value? id = some v) (f : T → T) :
    s.updateValue id (f v) = s.withValue id f := by
  simp only [Sequence.value?, getElement, bind_eq_some_iff] at hv
  obtain ⟨e, ⟨i, hi, he⟩, hv⟩ := hv
  simp only [updateValue, withValue, hi, mk.injEq, and_true]
  refine ext_getElem? (fun j => ?_)
  rw [getElem?_modify, getElem?_modify]
  by_cases hj : i = j
  · subst hj
    simp [he, hv]
  · simp [hj]

theorem carries_of_value? (h : s.Indexed) (hv : s.value? id = some v) : s.Carries id v := by
  obtain ⟨e, he, hid, hev⟩ := mem_of_value? h hv
  exact .inl ⟨e, he, hid, hev⟩

theorem Shows.withValue (h : Shows P s)
    (hf : ∀ v, s.value? id = some v → P v → P (f v)) : Shows P (s.withValue id f) := by
  obtain ⟨D, hd, hi, hp⟩ := h
  refine ⟨D, by rwa [shape_withValue hi], indexed_withValue hi id f, fun id' v hc hn => ?_⟩
  rcases carries_withValue hi hc with hc | ⟨rfl, w, hw, rfl⟩
  · exact hp id' v hc hn
  · exact hf w hw (hp id' w (carries_of_value? hi hw) hn)

end Sequence

/-! ## Trees -/

mutual

/-- `G` holds of every block of the tree that is shown or may come to be shown. -/
inductive Intact (G : Block → Prop) : Sequence Block → Prop
  | mk {s} {D : SequenceOp Unit → Prop} (hd : Delivered D s.shape)
      (hi : s.Indexed) (hg : ∀ id b, s.Carries id b → (∀ d, ¬D (.delete id d)) → G b)
      (hk : ∀ id b, s.Carries id b → (∀ d, ¬D (.delete id d)) → IntactKind G b.kind) : Intact G s

inductive IntactKind (G : Block → Prop) : BlockKind → Prop
  | leaf {k} (hl : ∀ style items pm, k ≠ .list style items pm)
      (hq : ∀ c, k ≠ .blockQuote c) : IntactKind G k
  | list {style items pm}
      (h : IntactItems G items) : IntactKind G (.list style items pm)
  | blockQuote {children} (h : Intact G children) :
      IntactKind G (.blockQuote children)

inductive IntactItems (G : Block → Prop) : Sequence ListItem → Prop
  | mk {s : Sequence ListItem} (hi : s.Indexed)
      (hc : ∀ id item, s.Carries id item → Intact G item.children) : IntactItems G s

end

/-- A block that is intact with everything inside it. -/
structure IntactBlock (G : Block → Prop) (b : Block) : Prop where
  self : G b
  kind : IntactKind G b.kind

variable {G : Block → Prop}

theorem intact_iff : Intact G s ↔ s.Shows (IntactBlock G) := by
  constructor
  · rintro ⟨hd, hi, hg, hk⟩
    exact ⟨_, hd, hi, fun id b hc hn => ⟨hg id b hc hn, hk id b hc hn⟩⟩
  · rintro ⟨D, hd, hi, hp⟩
    exact ⟨hd, hi, fun id b hc hn => (hp id b hc hn).self, fun id b hc hn => (hp id b hc hn).kind⟩

theorem intactItems_iff : IntactItems G s ↔ s.Keeps (fun _ item => Intact G item.children) := by
  rw [keeps_iff]
  constructor
  · rintro ⟨hi, hc⟩
    exact ⟨hi, hc⟩
  · rintro ⟨hi, hc⟩
    exact ⟨hi, hc⟩

theorem intact_new : Intact G .new := intact_iff.mpr shows_new

theorem intactItems_new : IntactItems G .new := intactItems_iff.mpr keeps_new

mutual

theorem Intact.mono (hle : ∀ b, G b → G' b) : Intact G s → Intact G' s
  | .mk hd hi hg hk => .mk hd hi (fun id b hc hn => hle b (hg id b hc hn))
      (fun id b hc hn => IntactKind.mono hle (hk id b hc hn))

theorem IntactKind.mono (hle : ∀ b, G b → G' b) : IntactKind G k → IntactKind G' k
  | .leaf hl hq => .leaf hl hq
  | .list h => .list (IntactItems.mono hle h)
  | .blockQuote h => .blockQuote (Intact.mono hle h)

theorem IntactItems.mono (hle : ∀ b, G b → G' b) : IntactItems G s → IntactItems G' s
  | .mk hi hc => .mk hi (fun id item h => Intact.mono hle (hc id item h))

end

theorem IntactKind.children {children} (h : IntactKind G (.blockQuote children)) :
    Intact G children := by
  cases h with
  | leaf hl hq => exact (hq children rfl).elim
  | blockQuote h => exact h

theorem IntactKind.items {style items pm} (h : IntactKind G (.list style items pm)) :
    IntactItems G items := by
  cases h with
  | leaf hl hq => exact (hl style items pm rfl).elim
  | list h => exact h

variable {s : Sequence Block}

theorem Intact.value? (h : Intact G s) (hv : s.value? id = some b) :
    IntactBlock G b := (intact_iff.mp h).value? hv

theorem Intact.iter (h : Intact G s) (hb : b ∈ s.iter) : IntactBlock G b := by
  obtain ⟨e, he, hv⟩ := mem_filterMap.mp hb
  exact (intact_iff.mp h).live he hv

theorem IntactItems.value? {s} (h : IntactItems G s) (hv : s.value? id = some item) :
    Intact G item.children :=
  (intactItems_iff.mp h).all.value? (intactItems_iff.mp h).indexed hv

theorem IntactItems.apply {s} (h : IntactItems G s)
    (hop : op.Ok (fun _ item => Intact G item.children)) : IntactItems G (s.apply op) :=
  intactItems_iff.mpr ((intactItems_iff.mp h).apply hop)

theorem IntactItems.withValue {s} (h : IntactItems G s)
    (hf : ∀ item, s.value? id = some item → Intact G item.children →
      Intact G (f item).children) : IntactItems G (s.withValue id f) :=
  intactItems_iff.mpr ((intactItems_iff.mp h).withValue (fun _ _ h => h) hf)

/-! ## Edits at a path -/

/-- The blocks a path leads through. -/
def pathBlocks : List BlockContainerPath → Sequence Block → List Block
  | [], _ => []
  | .blockQuote id :: rest, s => match s.value? id with
    | none => []
    | some block => block :: match block.kind with
      | .blockQuote children => pathBlocks rest children
      | _ => []
  | .listItem list item :: rest, s => match s.value? list with
    | none => []
    | some block => block :: match block.kind with
      | .list _ items _ => match items.value? item with
        | some item => pathBlocks rest item.children
        | none => []
      | _ => []

/-- An edit of the children at a path: `G` holds of the blocks on the way, whatever becomes of
    their kind. -/
theorem Intact.modifyChildrenAt :
    ∀ (path : List BlockContainerPath) {s : Sequence Block}, Intact G s →
      (∀ b ∈ pathBlocks path s, ∀ kind, G { b with kind := kind }) →
      (∀ c, childrenAt path s = some c → Intact G c → Intact G (f c)) →
      Intact G (modifyChildrenAt f path s)
  | [], s, h, _, hf => hf s rfl h
  | .blockQuote id :: rest, s, h, hpath, hf => by
    rw [MdCrdt.modifyChildrenAt]
    refine intact_iff.mpr ((intact_iff.mp h).withValue (fun b hv hb => ?_))
    cases hk : b.kind with
    | blockQuote children =>
      refine ⟨hpath b (by simp [pathBlocks, hv]) _, .blockQuote ?_⟩
      have hchildren := hk ▸ hb.kind
      refine modifyChildrenAt rest hchildren.children (fun b' hb' => hpath b' ?_) (fun c hc => hf c ?_)
      · simp only [pathBlocks, hv, hk]
        exact mem_cons_of_mem _ hb'
      · simp only [childrenAt, hv, bind_some, hk]
        exact hc
    | _ =>
      exact hb
  | .listItem list place :: rest, s, h, hpath, hf => by
    rw [MdCrdt.modifyChildrenAt]
    refine intact_iff.mpr ((intact_iff.mp h).withValue (fun b hv hb => ?_))
    cases hk : b.kind with
    | list style items pm =>
      refine ⟨hpath b (by simp [pathBlocks, hv]) _, .list ?_⟩
      have hitems := (hk ▸ hb.kind : IntactKind G _).items
      refine hitems.withValue (fun item hi hchildren => ?_)
      refine modifyChildrenAt rest hchildren (fun b' hb' => hpath b' ?_) (fun c hc => hf c ?_)
      · simp only [pathBlocks, hv, hk, hi]
        exact mem_cons_of_mem _ hb'
      · simp only [childrenAt, hv, bind_some, hk, hi]
        exact hc
    | _ =>
      exact hb

end MdCrdt
