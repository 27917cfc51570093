import MdCrdt.Core.SequenceHolds
import MdCrdt.Doc.Outline

/- What holds everywhere in a block tree.

  `Rules` says what an element id, a writer, a text body and a table must satisfy;
  `Rules.Blocks` asks it of every block and list item of a tree, live or waiting to
  be inserted, at any depth. Edits at a path keep the rules if the edit itself
  does, and may pass to weaker rules on the way (`Rules.Le`). -/
namespace MdCrdt
open Lib Option Sequence

structure Rules where
  /-- The block that an element id stands for. -/
  owns : OpId → BlockId → Prop
  /-- The list item that an element id stands for. -/
  places : OpId → BlockId → Prop
  /-- Operations that may have written a register. -/
  wrote : OpId → Prop
  text : Sequence TextUnit → Prop
  table : Table → Prop

namespace Rules
variable {item : ListItem}

/-- A block under an element id, apart from what is inside it. -/
structure Head (R : Rules) (id : OpId) (b : Block) : Prop where
  elemId : b.elemId = id
  owns : R.owns id b.id
  wrote : R.wrote b.kindOp

/-- A list item under an element id, apart from what is inside it. A moved item keeps the
    element id it was inserted under, so nothing is said about that field. -/
structure Place (R : Rules) (id : OpId) (item : ListItem) : Prop where
  places : R.places id item.id
  wrote : R.wrote item.taskOp

/-- A move that waits for its item. -/
structure Waits (R : Rules) (m : PendingListItemMove) : Prop where
  places : R.places m.id m.itemId
  wrote : R.wrote m.id

mutual

/-- The rules hold of everything a sequence of blocks carries. -/
inductive Blocks (R : Rules) : Sequence Block → Prop
  | mk {s} (hi : s.Indexed) (hh : ∀ id b, s.Carries id b → R.Head id b)
      (hk : ∀ id b, s.Carries id b → Kind R b.kind) : Blocks R s

inductive Kind (R : Rules) : BlockKind → Prop
  | paragraph {text} (h : R.text text) : Kind R (.paragraph text)
  | heading {level text} (h : R.text text) : Kind R (.heading level text)
  | list {style items pm}
      (h : Items R items) (hw : ∀ m ∈ pm, R.Waits m) : Kind R (.list style items pm)
  | codeFence {style info text} :
      Kind R (.codeFence style info text)
  | blockQuote {children} (h : Blocks R children) : Kind R (.blockQuote children)
  | rawBlock {raw} : Kind R (.rawBlock raw)
  | table {t} (h : R.table t) : Kind R (.table t)

inductive Items (R : Rules) : Sequence ListItem → Prop
  | mk {s} (hi : s.Indexed) (hp : ∀ id item, s.Carries id item → R.Place id item)
      (hc : ∀ id item, s.Carries id item → Blocks R item.children) : Items R s

end

/-- A block under an element id. -/
structure Stands (R : Rules) (id : OpId) (b : Block) : Prop extends R.Head id b where
  kind : R.Kind b.kind

/-- A list item under an element id. -/
structure ItemStands (R : Rules) (id : OpId) (item : ListItem) : Prop extends R.Place id item where
  children : R.Blocks item.children

variable {R R' : Rules}

theorem blocks_iff : R.Blocks s ↔ s.Keeps R.Stands := by
  rw [keeps_iff]
  constructor
  · rintro ⟨hi, hh, hk⟩
    exact ⟨hi, fun id b hc => ⟨hh id b hc, hk id b hc⟩⟩
  · rintro ⟨hi, h⟩
    exact ⟨hi, fun id b hc => (h id b hc).toHead, fun id b hc => (h id b hc).kind⟩

theorem items_iff : R.Items s ↔ s.Keeps R.ItemStands := by
  rw [keeps_iff]
  constructor
  · rintro ⟨hi, hp, hc⟩
    exact ⟨hi, fun id item h => ⟨hp id item h, hc id item h⟩⟩
  · rintro ⟨hi, h⟩
    exact ⟨hi, fun id item hc => (h id item hc).toPlace, fun id item hc => (h id item hc).children⟩

theorem blocks_new : R.Blocks .new := blocks_iff.mpr keeps_new

theorem items_new : R.Items .new := items_iff.mpr keeps_new

/-! ## Weaker rules -/

structure Le (R R' : Rules) : Prop where
  owns : ∀ id b, R.owns id b → R'.owns id b
  places : ∀ id b, R.places id b → R'.places id b
  wrote : ∀ id, R.wrote id → R'.wrote id
  text : ∀ body, R.text body → R'.text body
  table : ∀ t, R.table t → R'.table t

theorem Le.refl (R : Rules) : R.Le R :=
  ⟨fun _ _ h => h, fun _ _ h => h, fun _ h => h, fun _ h => h, fun _ h => h⟩

theorem Head.mono {id b} (h : R.Head id b) (hle : R.Le R') : R'.Head id b :=
  ⟨h.elemId, hle.owns _ _ h.owns, hle.wrote _ h.wrote⟩

theorem Place.mono {id} (h : R.Place id item) (hle : R.Le R') : R'.Place id item :=
  ⟨hle.places _ _ h.places, hle.wrote _ h.wrote⟩

theorem Waits.mono (h : R.Waits m) (hle : R.Le R') : R'.Waits m :=
  ⟨hle.places _ _ h.places, hle.wrote _ h.wrote⟩

mutual

theorem Blocks.mono (hle : R.Le R') : R.Blocks s → R'.Blocks s
  | .mk hi hh hk =>
    .mk hi (fun id b hc => (hh id b hc).mono hle) (fun id b hc => Kind.mono hle (hk id b hc))

theorem Kind.mono (hle : R.Le R') : R.Kind k → R'.Kind k
  | .paragraph h => .paragraph (hle.text _ h)
  | .heading h => .heading (hle.text _ h)
  | .list h hw => .list (Items.mono hle h) (fun m hm => (hw m hm).mono hle)
  | .codeFence => .codeFence
  | .blockQuote h => .blockQuote (Blocks.mono hle h)
  | .rawBlock => .rawBlock
  | .table h => .table (hle.table _ h)

theorem Items.mono (hle : R.Le R') : R.Items s → R'.Items s
  | .mk hi hp hc =>
    .mk hi (fun id item h => (hp id item h).mono hle) (fun id item h => Blocks.mono hle (hc id item h))

end

variable {id : OpId} {s : Sequence Block} {b : Block} {k : BlockKind}

theorem Stands.mono (h : R.Stands id b) (hle : R.Le R') : R'.Stands id b :=
  ⟨h.toHead.mono hle, h.kind.mono hle⟩

theorem ItemStands.mono (h : R.ItemStands id item) (hle : R.Le R') : R'.ItemStands id item :=
  ⟨h.toPlace.mono hle, h.children.mono hle⟩

/-! ## Edits -/

theorem Blocks.apply (h : R.Blocks s) (hop : op.Ok R.Stands) : R.Blocks (s.apply op) :=
  blocks_iff.mpr ((blocks_iff.mp h).apply hop)

theorem Items.apply {s} (h : R.Items s) (hop : op.Ok R.ItemStands) : R.Items (s.apply op) :=
  items_iff.mpr ((items_iff.mp h).apply hop)

theorem Blocks.withValue (h : R.Blocks s) (hle : R.Le R') (hf : ∀ b, s.value? id = some b →
      R.Stands id b → R'.Stands id (f b)) : R'.Blocks (s.withValue id f) :=
  blocks_iff.mpr ((blocks_iff.mp h).withValue (fun _ _ hs => hs.mono hle) hf)

theorem Items.withValue {s} (h : R.Items s) (hle : R.Le R') (hf : ∀ item,
      s.value? id = some item → R.ItemStands id item → R'.ItemStands id (f item)) :
    R'.Items (s.withValue id f) :=
  items_iff.mpr ((items_iff.mp h).withValue (fun _ _ hs => hs.mono hle) hf)

theorem Blocks.indexed (h : R.Blocks s) : s.Indexed := (blocks_iff.mp h).indexed

theorem Items.indexed {s} (h : R.Items s) : s.Indexed :=
  (items_iff.mp h).indexed

theorem Blocks.value? (h : R.Blocks s) (hv : s.value? id = some b) : R.Stands id b :=
  (blocks_iff.mp h).all.value? h.indexed hv

theorem Items.value? {s} (h : R.Items s) (hv : s.value? id = some item) : R.ItemStands id item :=
  (items_iff.mp h).all.value? h.indexed hv

theorem Blocks.live (h : R.Blocks s) (he : e ∈ s.elements)
    (hv : e.value = some b) : R.Stands e.id b :=
  (blocks_iff.mp h).all.live e he b hv

theorem Items.live {s} (h : R.Items s)
    (he : e ∈ s.elements) (hv : e.value = some item) : R.ItemStands e.id item :=
  (items_iff.mp h).all.live e he item hv

theorem Kind.children (h : R.Kind k) {children} (hk : k = .blockQuote children) :
    R.Blocks children := by
  subst hk
  cases h with
  | blockQuote h => exact h

theorem Kind.items (h : R.Kind k) {style items pm} (hk : k = .list style items pm) :
    R.Items items ∧ ∀ m ∈ pm, R.Waits m := by
  subst hk
  cases h with
  | list h hw => exact ⟨h, hw⟩

theorem Kind.tableOf (h : R.Kind k) (hk : k = .table t) : R.table t := by
  subst hk
  cases h with
  | table h => exact h

theorem Kind.textOf (h : R.Kind k) (hk : blockTextSeq k = some body) : R.text body := by
  cases h with
  | paragraph h | heading h => exact some.inj hk ▸ h
  | _ => cases hk

/-- A new kind for a block. -/
theorem Stands.withKind (h : R.Stands id b) (hk : R.Kind k) : R.Stands id { b with kind := k } :=
  ⟨⟨h.elemId, h.owns, h.wrote⟩, hk⟩

/-- An edit of the children at a path. -/
theorem Blocks.modifyChildrenAt (hle : R.Le R') :
    ∀ (path : List BlockContainerPath) {s : Sequence Block}, R.Blocks s →
      (∀ c, childrenAt path s = some c → R.Blocks c → R'.Blocks (f c)) →
      R'.Blocks (modifyChildrenAt f path s)
  | [], s, h, hf => hf s rfl h
  | .blockQuote id :: rest, s, h, hf => by
    rw [MdCrdt.modifyChildrenAt]
    refine h.withValue hle (fun b hv hb => ?_)
    cases hk : b.kind with
    | blockQuote children =>
      refine (hb.mono hle).withKind (.blockQuote ?_)
      refine modifyChildrenAt hle rest (hb.kind.children hk) (fun c hc => hf c ?_)
      simp only [MdCrdt.childrenAt, hv, bind_some, hk]; exact hc
    | _ =>
      exact hb.mono hle
  | .listItem list place :: rest, s, h, hf => by
    rw [MdCrdt.modifyChildrenAt]
    refine h.withValue hle (fun b hv hb => ?_)
    cases hk : b.kind with
    | list style items pm =>
      obtain ⟨hitems, hw⟩ := hb.kind.items hk
      refine (hb.mono hle).withKind (.list (hitems.withValue hle ?_) (fun m hm => (hw m hm).mono hle))
      intro item hi hitem
      refine ⟨⟨hle.places _ _ hitem.places, hle.wrote _ hitem.wrote⟩, ?_⟩
      refine modifyChildrenAt hle rest hitem.children (fun c hc => hf c ?_)
      simp only [MdCrdt.childrenAt, hv, bind_some, hk, hi]; exact hc
    | _ =>
      exact hb.mono hle

theorem Blocks.modifyAtPath (hle : R.Le R') (h : R.Blocks s) (hf : ∀ b,
      blockAtPath s path = some b → R.Stands path.elemId b → R'.Stands path.elemId (f b)) :
    R'.Blocks (modifyAtPath s path f) :=
  Blocks.modifyChildrenAt hle _ h (fun c hc hs => hs.withValue hle (fun b hv =>
    hf b (bind_eq_some_iff.mpr ⟨c, hc, hv⟩)))

/-! ## Lookups -/

theorem Blocks.childrenAt (h : R.Blocks s) (hc : childrenAt path s = some c) : R.Blocks c := by
  replace hc := leads_of_childrenAt hc
  induction hc with
  | here => exact h
  | quote hb hk _ ih => exact ih ((h.value? hb).kind.children hk)
  | item hb hk hi _ ih => exact ih (((h.value? hb).kind.items hk).1.value? hi).children

theorem Blocks.blockAtPath (h : R.Blocks s) (hb : blockAtPath s path = some b) :
    R.Stands path.elemId b := by
  obtain ⟨c, hc, hv⟩ := bind_eq_some_iff.mp hb
  exact (h.childrenAt hc).value? hv

end Rules
end MdCrdt
