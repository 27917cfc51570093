import MdCrdt.Doc.Intact
import MdCrdt.Session.Effects

/- Edits of a document that is intact.

  An element id names a block if it labels the block or something inside it (`Names`); an
  edit that goes by an element id changes only blocks that it names. If `G` is given up for
  these (`Frees`), an operation keeps a document intact: it is enough that the elements it
  marks are freed and that the blocks it brings are intact (`applyDocOp_intact`). -/
namespace MdCrdt
open Lib List Option Document Rules
variable {x : BlockId × OpId} {s : Sequence Block} {b : Block} {item : ListItem}
variable {path : List BlockContainerPath} {id : OpId}

/-! ## Labels -/

/-- The element id labels the block or something inside it. -/
def Names (e : OpId) (b : Block) : Prop := ∃ id, (id, e) ∈ labels b

/-- The labels of one element. -/
def elementLabels (e : Element Block) : List (BlockId × OpId) :=
  match e.value with
  | none => []
  | some block => labels block

def itemLabels (e : Element ListItem) : List (BlockId × OpId) :=
  match e.value with
  | none => []
  | some item => labelsItem item

theorem labels_eq (b) : labels b = (b.id, b.elemId) :: labelsKind b.kind := by
  obtain ⟨_, _, _, _, _, _⟩ := b
  rw [labels]

theorem labelsItem_eq (item) :
    labelsItem item = (item.id, item.elemId) :: labelsSequence item.children := by
  obtain ⟨_, _, _, _, _, _, _⟩ := item
  rw [labelsItem]

theorem labelsSequence_eq (s) : labelsSequence s = s.elements.flatMap elementLabels := by
  obtain ⟨elements, _, _, _⟩ := s
  rw [labelsSequence]
  refine eq_flatMap (by rw [labelsElements]) (fun e l => ?_) elements
  obtain ⟨id, _ | block, after, ro⟩ := e <;> simp [labelsElements, elementLabels]

theorem labelsItems_eq (s) : labelsItems s = s.elements.flatMap itemLabels := by
  obtain ⟨elements, _, _, _⟩ := s
  rw [labelsItems]
  refine eq_flatMap (by rw [labelsItemElements]) (fun e l => ?_) elements
  obtain ⟨id, _ | item, after, ro⟩ := e <;> simp [labelsItemElements, itemLabels]

theorem mem_labelsSequence (hb : s.value? id = some b) (hx : x ∈ labels b) :
    x ∈ labelsSequence s := by
  obtain ⟨i, e, -, he, hv⟩ := Sequence.value?_eq_some hb
  rw [labelsSequence_eq]
  refine mem_flatMap.mpr ⟨e, mem_of_getElem? he, ?_⟩
  simp only [elementLabels, hv]
  exact hx

theorem mem_labelsItems {s}
    (hi : s.value? id = some item) (hx : x ∈ labelsItem item) : x ∈ labelsItems s := by
  obtain ⟨i, e, -, he, hv⟩ := Sequence.value?_eq_some hi
  rw [labelsItems_eq]
  refine mem_flatMap.mpr ⟨e, mem_of_getElem? he, ?_⟩
  simp only [itemLabels, hv]
  exact hx

theorem mem_labels_blockQuote
    (hk : b.kind = .blockQuote children) (hx : x ∈ labelsSequence children) : x ∈ labels b := by
  rw [labels_eq, hk, labelsKind]
  exact mem_cons_of_mem _ hx

theorem mem_labels_item (hk : b.kind = .list style items pm)
    (hi : items.value? place = some item) (hx : x ∈ labelsItem item) : x ∈ labels b := by
  rw [labels_eq, hk, labelsKind]
  exact mem_cons_of_mem _ (mem_labelsItems hi hx)

theorem mem_labelsItem_children (hx : x ∈ labelsSequence item.children) : x ∈ labelsItem item := by
  rw [labelsItem_eq]
  exact mem_cons_of_mem _ hx

/-- What labels something at the end of a path labels something in every block on it. -/
theorem labels_of_childrenAt (hc : childrenAt path s = some c) (hx : x ∈ labelsSequence c) :
    x ∈ labelsSequence s ∧ ∀ b ∈ pathBlocks path s, x ∈ labels b := by
  replace hc := leads_of_childrenAt hc
  induction hc with
  | here => exact ⟨hx, by simp [pathBlocks]⟩
  | quote hb hk _ ih =>
    obtain ⟨hin, hpath⟩ := ih hx
    have hself := mem_labels_blockQuote hk hin
    refine ⟨mem_labelsSequence hb hself, ?_⟩
    simp only [pathBlocks, hb, hk]
    exact forall_mem_cons.mpr ⟨hself, hpath⟩
  | item hb hk hi _ ih =>
    obtain ⟨hin, hpath⟩ := ih hx
    have hself := mem_labels_item hk hi (mem_labelsItem_children hin)
    refine ⟨mem_labelsSequence hb hself, ?_⟩
    simp only [pathBlocks, hb, hk, hi]
    exact forall_mem_cons.mpr ⟨hself, hpath⟩

/-- The id that a container answers to labels something in every block on the path to it. -/
theorem Container.names (h : Container p s path) :
    (∃ id, (id, p) ∈ labelsSequence s) ∧ ∀ b ∈ pathBlocks path s, Names p b := by
  induction h with
  | @quote s id b children hb hk hp =>
    have hself : (b.id, p) ∈ labels b := by
      rw [labels_eq, hp]
      exact mem_cons_self
    refine ⟨⟨b.id, mem_labelsSequence hb hself⟩, ?_⟩
    simp only [pathBlocks, hb, hk]
    exact forall_mem_cons.mpr ⟨⟨b.id, hself⟩, by simp⟩
  | @item s list place b style items pm item hb hk hi hp =>
    have hitem : (item.id, p) ∈ labelsItem item := by
      rw [labelsItem_eq, hp]
      exact mem_cons_self
    have hself := mem_labels_item hk hi hitem
    refine ⟨⟨item.id, mem_labelsSequence hb hself⟩, ?_⟩
    simp only [pathBlocks, hb, hk, hi]
    exact forall_mem_cons.mpr ⟨⟨item.id, hself⟩, by simp⟩
  | @inQuote s id b children rest hb hk _ ih =>
    obtain ⟨⟨x, hx⟩, hpath⟩ := ih
    have hself := mem_labels_blockQuote hk hx
    refine ⟨⟨x, mem_labelsSequence hb hself⟩, ?_⟩
    simp only [pathBlocks, hb, hk]
    exact forall_mem_cons.mpr ⟨⟨x, hself⟩, hpath⟩
  | @inItem s list place b style items pm item rest hb hk hi _ ih =>
    obtain ⟨⟨x, hx⟩, hpath⟩ := ih
    have hself := mem_labels_item hk hi (mem_labelsItem_children hx)
    refine ⟨⟨x, mem_labelsSequence hb hself⟩, ?_⟩
    simp only [pathBlocks, hb, hk, hi]
    exact forall_mem_cons.mpr ⟨⟨x, hself⟩, hpath⟩

/-! ## Edits by element id -/

/-- Rules that everything keeps. -/
def Rules.any : Rules :=
  ⟨fun _ _ => True, fun _ _ => True, fun _ => True, fun _ => True, fun _ => True⟩

variable {G : Block → Prop} {d : Document}

/-- A document whose sequences are in order and whose blocks are intact. -/
structure Whole (G : Block → Prop) (d : Document) : Prop where
  sane : any.Blocks d.blocks
  intact : Intact G d.blocks

/-- Nothing is asked any more of the blocks that the element id names. -/
def Frees (G : Block → Prop) (e : OpId) : Prop :=
  ∀ b, G b → Names e b → ∀ b' : Block, b'.id = b.id → G b'

theorem Intact.pathBlocks : ∀ (path : List BlockContainerPath) {s : Sequence Block}, Intact G s →
    ∀ b ∈ pathBlocks path s, G b
  | [], _, _, b, hb => by simp [MdCrdt.pathBlocks] at hb
  | .blockQuote id :: rest, s, h, b, hb => by
    cases hv : s.value? id with
    | none => simp [MdCrdt.pathBlocks, hv] at hb
    | some block =>
      have hblock := h.value? hv
      cases hk : block.kind with
      | blockQuote children =>
        simp only [MdCrdt.pathBlocks, hv, hk, mem_cons] at hb
        rcases hb with rfl | hb
        · exact hblock.self
        · exact Intact.pathBlocks rest (hk ▸ hblock.kind : IntactKind G _).children b hb
      | _ =>
        simp only [MdCrdt.pathBlocks, hv, hk, mem_singleton] at hb
        exact hb ▸ hblock.self
  | .listItem list place :: rest, s, h, b, hb => by
    cases hv : s.value? list with
    | none => simp [MdCrdt.pathBlocks, hv] at hb
    | some block =>
      have hblock := h.value? hv
      cases hk : block.kind with
      | list style items pm =>
        simp only [MdCrdt.pathBlocks, hv, hk, mem_cons] at hb
        rcases hb with rfl | hb
        · exact hblock.self
        · cases hi : items.value? place with
          | none => simp [hi] at hb
          | some item =>
            rw [hi] at hb
            exact Intact.pathBlocks rest ((hk ▸ hblock.kind : IntactKind G _).items.value? hi) b hb
      | _ =>
        simp only [MdCrdt.pathBlocks, hv, hk, mem_singleton] at hb
        exact hb ▸ hblock.self

theorem Intact.childrenAt (h : Intact G s) (hc : childrenAt path s = some c) : Intact G c := by
  replace hc := leads_of_childrenAt hc
  induction hc with
  | here => exact h
  | quote hb hk _ ih => exact ih (hk ▸ (h.value? hb).kind : IntactKind G _).children
  | item hb hk hi _ ih => exact ih ((hk ▸ (h.value? hb).kind : IntactKind G _).items.value? hi)

theorem Intact.blockAtPath (h : Intact G s) {path}
    (hb : blockAtPath s path = some b) : IntactBlock G b := by
  obtain ⟨c, hc, hv⟩ := bind_eq_some_iff.mp hb
  exact (h.childrenAt hc).value? hv

namespace Document
variable {e : OpId} {itemId : BlockId} {parent : Option OpId} {m : PendingListItemMove}
  {toParent : Option OpId} {moves : List MovedBlockWire}

theorem withContainerChildrenMut_intact (h : Whole G d) (hp : Frees G p)
    (hf : ∀ c, Intact G c → Intact G (f c))
    (hd : d.withContainerChildrenMut p f = some d') : Intact G d'.blocks := by
  rw [withContainerChildrenMut_eq] at hd
  obtain ⟨path, hpath, rfl⟩ := map_eq_some_iff.mp hd
  refine h.intact.modifyChildrenAt path (fun b hb kind => ?_) (fun c _ hc => hf c hc)
  exact hp b (h.intact.pathBlocks path b hb) ((h.sane.search_at hpath).names.2 b hb) _ rfl

theorem withBlockMut_intact {A : Type} (h : Whole G d) (he : (d.findBlock e).isSome → Frees G e)
    {f : Block → Block × A}
    (hf : ∀ b, d.findBlock e = some b → IntactKind G b.kind →
      (f b).1.id = b.id ∧ IntactKind G (f b).1.kind) {d' a}
    (hd : d.withBlockMut e f = some (d', a)) : Intact G d'.blocks := by
  unfold withBlockMut at hd
  split at hd
  · next b path hb hp =>
    obtain ⟨rfl, rfl⟩ := Prod.mk.inj (some.inj hd)
    have hfree := he (by rw [hb]; rfl)
    obtain ⟨helem, path', hp', hat⟩ := findBlock_eq_some.mp hb
    obtain rfl : path' = path := some.inj (hp'.symm.trans hp)
    obtain ⟨c, hc, hv⟩ := bind_eq_some_iff.mp hat
    have hlabel : (b.id, e) ∈ labels b := by
      rw [labels_eq, helem]
      exact mem_cons_self
    have hpath := (labels_of_childrenAt hc (mem_labelsSequence hv hlabel)).2
    refine h.intact.modifyChildrenAt path'.containers (fun b' hb' kind => ?_) (fun c' hc' hin => ?_)
    · exact hfree b' (h.intact.pathBlocks _ b' hb') ⟨b.id, hpath b' hb'⟩ _ rfl
    · obtain rfl : c = c' := some.inj (hc.symm.trans hc')
      refine intact_iff.mpr ((intact_iff.mp hin).withValue (fun v hv' hblock => ?_))
      obtain rfl : b = v := some.inj (hv.symm.trans hv')
      obtain ⟨hid, hk⟩ := hf b hb hblock.kind
      exact ⟨hfree b hblock.self ⟨b.id, hlabel⟩ _ hid, hk⟩
  · cases hd

section
variable (h : Whole G d)
include h

section
variable (hp : ∀ p ∈ parent.toList, Frees G p)
include hp

theorem applyAt_intact
    (hop : ∀ c, Intact G c → Intact G (c.apply op)) : Intact G (d.applyAt parent op).1.blocks := by
  cases parent with
  | none => exact hop _ h.intact
  | some p =>
    rw [applyAt]
    split
    · next d' hd => exact withContainerChildrenMut_intact h (hp p (by simp)) hop hd
    · exact h.intact

theorem insertBlockAt_intact (after id) (hb : IntactBlock G b) (ro) :
    Intact G (d.insertBlockAt parent after id b ro).1.blocks :=
  applyAt_intact h hp (fun _ hc => intact_iff.mpr ((intact_iff.mp hc).insert ro hb))

theorem deleteBlockAt_intact (target id) : Intact G (d.deleteBlockAt parent target id).1.blocks :=
  applyAt_intact h hp (fun _ hc => intact_iff.mpr ((intact_iff.mp hc).delete target id))

/-- A block that is inserted and deleted at once, whatever it is. -/
theorem buryBlockAt_intact (after id b ro moveId) :
    Intact G ((d.insertBlockAt parent after id b ro).1.deleteBlockAt parent id moveId).1.blocks := by
  have hbury : ∀ c, Intact G c → Intact G ((c.apply (.insert after id b ro)).apply
      (.delete id moveId)) :=
    fun c hc => intact_iff.mpr ((intact_iff.mp hc).bury after id b ro moveId)
  cases parent with
  | none => exact hbury _ h.intact
  | some p =>
    simp only [insertBlockAt, deleteBlockAt, applyAt]
    cases hins : d.withContainerChildrenMut p (fun c => c.apply (.insert after id b ro)) with
    | none =>
      have hdel : d.withContainerChildrenMut p (fun c => c.apply (.delete id moveId)) = none := by
        rw [withContainerChildrenMut_eq, map_eq_none_iff] at hins ⊢
        exact hins
      simp only [hdel]
      exact h.intact
    | some d' =>
      simp only [withContainerChildrenMut_comp h.sane hins]
      cases hboth : d.withContainerChildrenMut p ((fun c => c.apply (.delete id moveId)) ∘
          (fun c => c.apply (.insert after id b ro))) with
      | none =>
        rw [withContainerChildrenMut_eq, map_eq_none_iff] at hboth
        rw [withContainerChildrenMut_eq, hboth] at hins
        cases hins
      | some d'' => exact withContainerChildrenMut_intact h (hp p (by simp)) hbury hboth

end

section
variable (he : ∀ x ∈ d.blockMarks e, Frees G x)
include he

theorem updateBlock_intact {f : Block → Block} (hid : ∀ b, (f b).id = b.id)
    (hk : ∀ b, IntactKind G b.kind → IntactKind G (f b).kind) :
    Intact G (d.updateBlock e f).blocks := by
  unfold updateBlock
  cases hd : d.withBlockMut e (fun block => (f block, ())) with
  | none => exact h.intact
  | some r =>
    exact withBlockMut_intact h (free_of_blockMarks he) (fun b _ hb => ⟨hid b, hk b hb⟩) hd

end

/-! ## List items -/

theorem findListItemById_intact {id}
    (hi : d.findListItemById id = some item) : Intact G item.children := by
  have hmem : item ∈ listItems d.blocks := mem_of_find?_eq_some hi
  rw [listItems_eq_index []] at hmem
  obtain ⟨entry, he, rfl⟩ := mem_map.mp hmem
  obtain ⟨rel, -, hat⟩ := h.sane.items_at he
  obtain ⟨b, hb, hitem⟩ := bind_eq_some_iff.mp hat
  cases hk : b.kind with
  | list style items pm =>
    rw [hk] at hitem
    exact (hk ▸ (h.intact.blockAtPath hb).kind : IntactKind G _).items.value? hitem
  | _ => simp [hk] at hitem

theorem findBlock_intact (hb : d.findBlock e = some b) : IntactBlock G b := by
  obtain ⟨-, path, -, hat⟩ := findBlock_eq_some.mp hb; exact h.intact.blockAtPath hat

theorem findBlockById_intact {id}
    (hb : d.findBlockById id = some b) : IntactBlock G b ∧ b.id = id := by
  obtain ⟨hid, path, -, hat⟩ := findBlockById_eq_some.mp hb
  exact ⟨h.intact.blockAtPath hat, hid⟩

end

/-! ## Moving blocks -/

/-- A block keeps what is asked of it under the element id that a move gives it. -/
def MovesKeep (G : Block → Prop) (moves : List MovedBlockWire) : Prop :=
  ∀ m ∈ moves, ∀ b, G b → b.id = m.blockId → G { b with elemId := m.id }

theorem intactKind_textKind (kind text) : IntactKind G (textKind kind text) := by
  cases kind <;> exact .leaf (by simp [textKind]) (by simp [textKind])

/-- A document that is intact, block by block. -/
abbrev Whole.blockwise (G : Block → Prop) : Blockwise where
  doc := Whole G
  block := fun id b => any.Stands id b ∧ IntactKind G b.kind
  placed := fun id b => any.Stands id b ∧ IntactBlock G b
  kind := fun k => any.Kind k ∧ IntactKind G k
  items := fun s => any.Items s ∧ IntactItems G s
  item := fun id v => any.ItemStands id v ∧ Intact G v.children
  waits := any.Waits
  writes := any.wrote
  free := Frees G
  withBlockMut := fun {_ d elem _ _ _} h he hf hd => by
    have hkind : ∀ {b}, d.findBlock elem = some b → IntactKind G b.kind :=
      fun hb => (findBlock_intact h hb).kind
    obtain ⟨hsane, b, hb, hstands, ha⟩ := withBlockMut_keeps h.sane (.refl _)
      (fun id b hb hs => (hf id b ⟨hs, hkind hb⟩).1.1) hd
    refine ⟨⟨hsane, withBlockMut_intact h he (fun b' hb' hk => ?_) hd⟩, elem, b,
      ⟨hstands, hkind hb⟩, ha⟩
    obtain ⟨⟨-, hk'⟩, hid⟩ := hf _ b' ⟨findBlock_stands h.sane hb', hk⟩
    exact ⟨hid, hk'⟩
  insertBlockAt := fun _ _ h he hb _ =>
    ⟨insertBlockAt_keeps h.sane _ _ hb.1 _, insertBlockAt_intact h he _ _ hb.2 _⟩
  deleteBlockAt := fun _ _ h he => ⟨deleteBlockAt_keeps h.sane _ _ _, deleteBlockAt_intact h he _ _⟩
  buryBlockAt := fun _ _ _ h he hb _ =>
    ⟨deleteBlockAt_keeps (insertBlockAt_keeps h.sane _ _ hb.1 _) _ _ _,
      buryBlockAt_intact h he _ _ _ _ _⟩
  kindOf := fun hb => ⟨hb.1.kind, hb.2⟩
  withKind := fun hb hk => ⟨hb.1.withKind hk.1, hk.2⟩
  written := fun o hb hw => ⟨any.blockwise.written o hb.1 hw, hb.2⟩
  list := fun {_ _ _} => ⟨fun hk => ⟨⟨(hk.1.items rfl).1, hk.2.items⟩, (hk.1.items rfl).2⟩,
    fun h => ⟨.list h.1.1 h.2, .list h.1.2⟩⟩
  text := fun kind hb hk => ⟨any.blockwise.text kind hb hk.1, intactKind_textKind kind _⟩
  codeFence := ⟨.codeFence, .leaf (by simp) (by simp)⟩
  rawBlock := ⟨.rawBlock, .leaf (by simp) (by simp)⟩
  insert := fun _ _ h hi => ⟨h.1.apply hi.1, h.2.apply hi.2⟩
  delete := fun _ _ h => ⟨h.1.apply trivial, h.2.apply trivial⟩
  task := fun p t o h hid => ⟨any.blockwise.task p t o h.1 hid, h.2.withValue (fun _ _ hi => hi)⟩
  lost := fun hm => ⟨any.blockwise.lost hm, intact_new⟩
  found := fun {_ v _} h hitem hm => ⟨any.blockwise.found h.sane hitem hm,
    (findListItemById_intact h hitem : Intact G v.children)⟩

theorem movesFit_any (moves) : MovesFit any moves :=
  fun _ _ => ⟨trivial, trivial⟩

/-- The clones are intact. A move that wins finds all its blocks. -/
theorem clone_intact (h : Whole G d) (hm : MovesKeep G moves)
    (hp : d.prepareMoves toParent moves = some (prepared, loses)) (hmem : p ∈ prepared.zip moves) :
    if loses then (Whole.blockwise G).block p.2.id { p.1.1 with elemId := p.2.id }
    else (Whole.blockwise G).placed p.2.id { p.1.1 with elemId := p.2.id } := by
  have hstands := clone_stands h.sane (movesFit_any moves) hp hmem
  rcases (forall₂_iff_zip.mp (prepareMoves_eq_some hp)).2 hmem with ⟨heq, rfl⟩ | ⟨hb, -⟩
  · exact ⟨hstands, heq ▸ .leaf (by simp [lostBlock]) (by simp [lostBlock])⟩
  · obtain ⟨hblock, hid⟩ := findBlockById_intact h hb
    cases loses with
    | true => exact ⟨hstands, hblock.kind⟩
    | false => exact ⟨hstands, hm p.2 (of_mem_zip hmem).2 _ hblock.self hid, hblock.kind⟩

end Document

/-! ## Operations -/

theorem IntactKind.modifyText (h : IntactKind G k) (f) : IntactKind G (k.modifyText f) := by
  unfold BlockKind.modifyText
  split
  · exact .leaf (by simp) (by simp)
  · exact .leaf (by simp) (by simp)
  · exact h

theorem IntactKind.modifyTable (h : IntactKind G b.kind) (f : Table → Table) :
    IntactKind G (b.modifyTable f).kind := by
  unfold Block.modifyTable
  split
  · exact .leaf (by simp) (by simp)
  · exact h

theorem Block.modifyTable_id (b : Block) (f : Table → Table) : (b.modifyTable f).id = b.id := by
  unfold Block.modifyTable
  split <;> rfl

mutual

/-- The ids of the blocks inside a skeleton. -/
def skeletonIds : BlockKindSkeleton → List BlockId
  | .blockQuote children => childSkeletonIds children
  | .list _ items => itemSkeletonIds items
  | .paragraph _ | .heading _ _ | .codeFence _ _ _ | .rawBlock _ | .table => []

def childSkeletonIds : List BlockSkeletonInsert → List BlockId
  | [] => []
  | ⟨_, _, _, ⟨blockId, kind⟩⟩ :: rest => blockId :: skeletonIds kind ++ childSkeletonIds rest

def itemSkeletonIds : List ListItemSkeleton → List BlockId
  | [] => []
  | ⟨_, _, _, _, _, _, children⟩ :: rest => childSkeletonIds children ++ itemSkeletonIds rest

end

/-- The ids of the blocks that an operation creates. -/
def DocOp.createdIds : DocOp → List BlockId
  | .insertBlock _ _ _ _ block => block.blockId :: skeletonIds block.kind
  | .splitBlock _ _ _ newBlockId _ _ _ => [newBlockId]
  | _ => []

/-- The placements that an operation gives to blocks that are there. -/
def DocOp.placements : DocOp → List MovedBlockWire
  | .moveBlocks _ _ blocks => blocks
  | _ => []

/-- Nothing is asked of blocks under this id. -/
def Exempt (G : Block → Prop) (id : BlockId) : Prop := ∀ b : Block, b.id = id → G b

section
variable [Segmentation]

/-- Rules that ask for the ids of blocks only. -/
def idRules (p : BlockId → Prop) : Rules := { Rules.any with owns := fun _ => p }

omit [Segmentation] in
theorem expands_intact :
    (idRules (Exempt G)).Expands (IntactKind G) (Intact G) (IntactItems G) where
  text hk _ := .leaf (by rintro _ _ _ rfl; cases hk) (by rintro _ rfl; cases hk)
  table _ := .leaf (by simp) (by simp)
  codeFence := .leaf (by simp) (by simp)
  rawBlock := .leaf (by simp) (by simp)
  list := .list
  blockQuote := .blockQuote
  noBlocks := intact_new
  noItems := intactItems_new
  block hs hb _ hk := intact_iff.mpr ((intact_iff.mp hs).insert _ ⟨hb.owns _ rfl, hk⟩)
  item hs _ _ hc := hs.apply hc

variable {p : BlockId → Prop}

mutual

/-- Where only the ids of blocks matter, a skeleton fits by its ids. -/
theorem kindFits_ids {elem} : ∀ {k : BlockKindSkeleton}, (∀ id ∈ skeletonIds k, p id) →
    (idRules p).KindFits elem k
  | .paragraph _, _ | .heading _ _, _ | .table, _ | .codeFence _ _ _, _ | .rawBlock _, _ => by
    rw [KindFits]
    trivial
  | .list _ _, h => by
    rw [skeletonIds] at h; rw [KindFits]; exact itemsFit_ids h
  | .blockQuote _, h => by
    rw [skeletonIds] at h; rw [KindFits]; exact childrenFit_ids h

theorem childrenFit_ids : ∀ {l : List BlockSkeletonInsert}, (∀ id ∈ childSkeletonIds l, p id) →
    (idRules p).ChildrenFit l
  | [], _ => by
    rw [ChildrenFit]
    trivial
  | ⟨_, _, _, ⟨_, _⟩⟩ :: _, h => by
    rw [childSkeletonIds, forall_mem_append, forall_mem_cons] at h
    rw [ChildrenFit]; exact ⟨⟨h.1.1, trivial⟩, kindFits_ids h.1.2, childrenFit_ids h.2⟩

theorem itemsFit_ids : ∀ {l : List ListItemSkeleton}, (∀ id ∈ itemSkeletonIds l, p id) →
    (idRules p).ItemsFit l
  | [], _ => by
    rw [ItemsFit]
    trivial
  | ⟨_, _, _, _, _, _, _⟩ :: _, h => by
    rw [itemSkeletonIds, forall_mem_append] at h
    rw [ItemsFit]; exact ⟨⟨trivial, trivial⟩, childrenFit_ids h.1, itemsFit_ids h.2⟩

end

theorem fits_any (op : DocOp) : op.Fits any any := by
  cases op with
  | insertBlock =>
    exact ⟨trivial, trivial, kindFits_ids (p := fun _ => True) (fun _ _ => trivial)⟩
  | moveBlocks _ _ blocks => exact movesFit_any blocks
  | splitBlock => exact ⟨trivial, trivial, trivial, fun _ _ => trivial⟩
  | insertListItem | moveListItem => exact ⟨trivial, trivial⟩
  | setListStyle | setListItemTask | setCodeFence | convertTextBlock | replaceRawBlock
  | deleteBlock | deleteBlockById | setMark | removeMark | setFrontmatterField
  | initializeFrontmatter | deleteListItemById => trivial
  | _ => exact fun _ _ => trivial

omit [Segmentation] in
theorem applySplitBlock_intact (h : Whole G d) {parent ro target newBlockId kind units}
    (he : ∀ x ∈ d.splitBlockMarks parent target, Frees G x) (hnew : Exempt G newBlockId) :
    Intact G (applySplitBlock d parent target id newBlockId ro kind units).blocks := by
  unfold applySplitBlock
  split
  · exact h.intact
  · next d' marks hd =>
    cases hfound : d.findBlock target with
    | none =>
      rw [withBlockMut_none hfound] at hd
      cases hd
    | some b =>
      rw [splitBlockMarks, hfound, isSome_some, if_pos rfl] at he
      have hsane := (withBlockMut_keeps h.sane (.refl _)
        (fun _ _ _ hb => hb.modifyText (.refl _) (fun _ _ => trivial)) hd).1
      have hintact := withBlockMut_intact h (fun _ => he target mem_cons_self)
        (fun b _ hb => ⟨rfl, hb.modifyText _⟩) hd
      exact insertBlockAt_intact ⟨hsane, hintact⟩
        (fun x hx => he x (mem_cons_of_mem _ hx)) _ _
        ⟨hnew _ rfl, intactKind_textKind kind _⟩ _

omit [Segmentation] in
theorem applyMergeBlocks_intact (h : Whole G d) {parent after ro left right units}
    (he : ∀ x ∈ d.blockMarks left ++ parent.toList, Frees G x) :
    Intact G (applyMergeBlocks d parent left right id after ro units).blocks := by
  unfold applyMergeBlocks
  refine deleteBlockAt_intact ⟨?_, ?_⟩ (fun x hx => he x (mem_append_right _ hx)) _ _
  · refine updateBlock_keeps h.sane (.refl _) _ (fun e b hb => ?_)
    have hm : any.Stands e (b.modifyText (chainOps after ro units)) :=
      hb.modifyText (.refl _) (fun _ _ => trivial)
    exact ⟨⟨hm.elemId, hm.owns, hm.wrote⟩, hm.kind⟩
  · exact updateBlock_intact h (fun x hx => he x (mem_append_left _ hx))
      (fun b => rfl) (fun b hb => hb.modifyText _)

/-- An operation keeps a document intact if the elements it marks are freed, nothing is asked of
    the blocks it creates, and blocks keep what is asked of them under the ids it gives them. -/
theorem applyDocOp_intact (h : Whole G d) {op} (he : ∀ x ∈ d.marks op, Frees G x)
    (hcreated : ∀ id ∈ op.createdIds, Exempt G id)
    (hplaced : MovesKeep G op.placements) : Whole G (applyDocOp d op) := by
  let X := Whole.blockwise G
  refine ⟨applyDocOp_keeps h.sane (.refl _) (fits_any op), ?_⟩
  cases op with
  | insertBlock parent after id ro block =>
    exact insertBlockAt_intact h he _ _ ⟨hcreated _ mem_cons_self _ rfl,
        expands_intact.kind (kindFits_ids (fun x hx => hcreated x (mem_cons_of_mem _ hx)))⟩ _
  | deleteBlock => exact deleteBlockAt_intact h he _ _
  | deleteBlockById parent target blockId id =>
    simp only [marks] at he
    simp only [applyDocOp]
    split
    · next b hb =>
      rw [hb] at he
      exact deleteBlockAt_intact h he _ _
    · next hb =>
      rw [hb] at he
      exact deleteBlockAt_intact h he _ _
  | insertText | deleteText =>
    exact updateBlock_intact h he (fun _ => rfl) (fun b hb => hb.modifyText _)
  | setMark | removeMark =>
    exact updateBlock_intact h he (fun _ => rfl) (fun b hb => hb)
  | setFrontmatterField => exact h.intact
  | initializeFrontmatter =>
    simp only [applyDocOp]
    split <;> exact h.intact
  | moveBlocks toParent id blocks =>
    exact (X.moveBlocksAt h he (fun _ _ _ hp _ => clone_intact h hplaced hp) _).intact
  | splitBlock => exact applySplitBlock_intact h he (hcreated _ mem_cons_self)
  | mergeBlocks => exact applyMergeBlocks_intact h he
  | insertTableRow | insertTableColumn | setTableCell | deleteTableRow | deleteTableRowById
  | deleteTableColumnById | setTableColumnAlignment | moveTableRow | moveTableColumn =>
    exact updateBlock_intact h he (fun b => b.modifyTable_id _)
      (fun b hb => hb.modifyTable _)
  | insertListItem =>
    exact (X.insertListItemAt h he ⟨⟨⟨trivial, trivial⟩, blocks_new⟩, intact_new⟩).intact
  | deleteListItemById => exact (X.deleteListItemAt h he _ _).intact
  | moveListItem => exact (X.moveListItemAt h he ⟨trivial, trivial⟩).intact
  | setListItemTask => exact (X.setListItemTask h he _ trivial _).intact
  | setListStyle => exact (X.setListStyle h he _ trivial _).intact
  | setCodeFence => exact (X.setCodeFence h he _ _ _ trivial _).intact
  | convertTextBlock => exact (X.convertTextBlock h he _ trivial _).intact
  | replaceRawBlock => exact (X.replaceRawBlock h he _ trivial _).intact

end
end MdCrdt
