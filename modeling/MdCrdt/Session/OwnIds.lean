import MdCrdt.Core.SequenceMap
import MdCrdt.Session.Brings
import MdCrdt.Session.Effects
import MdCrdt.Session.Numbering
import MdCrdt.Session.Snapshot

/- The ids inside what a session makes itself.

  An operation that a session creates brings ids the document has already (the units
  that a split or a merge carries over) and ids of the session's own peer, none above
  the id the operation is logged under. A document that is rebuilt from a snapshot has
  no ids but those it had. -/
namespace MdCrdt
open Lib List Option SortedMap Bool Document Sequence

/-- The id is of the peer and does not lie above the counter. -/
def OwnUpTo (peer : PeerId) (hi : Nat) (x : OpId) : Prop := x.peer = peer ∧ x.counter ≤ hi

/-! ## Content of a new block -/

section Skeletons
variable [Segmentation] {peer : PeerId} {hi : Nat}

theorem within_unitsFromStr {elem : OpId} (hp : elem.peer = peer)
    (hm : elem.counter + graphemeCount text ≤ hi) :
    (unitsFromStr text (elem.counter + 1) elem.peer).Within (fun _ => []) (OwnUpTo peer hi) := by
  refine within_fromOrdered (fun p hin => ?_)
  obtain ⟨g, hg, rfl⟩ := mem_map.mp hin
  have hlt : g.2 < (Segmentation.graphemes text).length := by
    simpa using snd_lt_of_mem_zipIdx hg
  refine ⟨⟨hp, ?_⟩, by simp⟩
  unfold graphemeCount at hm
  show elem.counter + 1 + g.2 ≤ hi
  omega

/-- Rules that allow what a peer numbers up to a counter, under element ids of which `P` holds. -/
structure Rules.Admits (R : Rules) (peer : PeerId) (hi : Nat) (P : OpId × BlockId → Prop) : Prop where
  owns : ∀ e, P e → R.owns e.1 e.2
  places : ∀ e, P e → R.places e.1 e.2
  wrote : ∀ x, OwnUpTo peer hi x → R.wrote x
  text : ∀ (elem : OpId) (text : String), elem.peer = peer →
    elem.counter + graphemeCount text ≤ hi → R.text (unitsFromStr text (elem.counter + 1) elem.peer)
  table : ∀ elem, OwnUpTo peer hi elem → R.table (Table.new (blockIdFromOp elem) elem elem)

variable {R : Rules} {P : OpId × BlockId → Prop}

mutual

theorem Rules.Admits.kindFits (h : R.Admits peer hi P) {elem} (hp : elem.peer = peer) :
    ∀ k, (∀ e ∈ kindElements k, P e) → kindPeersOk peer k = true →
      maxCounterInKind elem k ≤ hi → R.KindFits elem k
  | .paragraph text, _, _, hm | .heading _ text, _, _, hm => by
    rw [maxCounterInKind] at hm
    rw [Rules.KindFits]
    exact h.text elem text hp hm
  | .codeFence _ _ _, _, _, _ | .rawBlock _, _, _, _ => by
    rw [Rules.KindFits]
    trivial
  | .table, _, _, hm => by
    rw [Rules.KindFits]
    exact h.table elem ⟨hp, (le_maxCounterInKind elem .table).trans hm⟩
  | .blockQuote children, he, hk, hm => by
    rw [kindElements] at he
    rw [kindPeersOk] at hk
    rw [maxCounterInKind] at hm
    rw [Rules.KindFits]
    exact h.childrenFit children he hk hm
  | .list _ items, he, hk, hm => by
    rw [kindElements] at he
    rw [kindPeersOk] at hk
    rw [maxCounterInKind] at hm
    rw [Rules.KindFits]
    exact h.itemsFit items he hk hm

theorem Rules.Admits.childrenFit (h : R.Admits peer hi P) :
    ∀ l, (∀ e ∈ childElements l, P e) → childrenPeersOk peer l = true →
      maxCounterInChildren m l ≤ hi → R.ChildrenFit l
  | [], _, _, _ => by
    rw [Rules.ChildrenFit]
    trivial
  | ⟨after, id, ro, ⟨blockId, kind⟩⟩ :: rest, he, hk, hm => by
    rw [childElements] at he
    rw [childrenPeersOk, and_eq_true, and_eq_true, decide_eq_true_eq] at hk
    rw [maxCounterInChildren] at hm
    have hmax := (le_maxCounterInChildren _ rest).trans hm
    have hid : id.counter ≤ hi := (le_max_right _ _).trans ((le_max_left _ _).trans hmax)
    rw [Rules.ChildrenFit]
    exact ⟨⟨h.owns (id, blockId) (he _ (by simp)), h.wrote id ⟨hk.1.1, hid⟩⟩,
      h.kindFits hk.1.1 kind (fun e hin => he e (by simp [hin])) hk.1.2
        ((le_max_right _ _).trans hmax),
      h.childrenFit rest (fun e hin => he e (by simp [hin])) hk.2 hm⟩

theorem Rules.Admits.itemsFit (h : R.Admits peer hi P) :
    ∀ l, (∀ e ∈ itemElements l, P e) → itemsPeersOk peer l = true →
      maxCounterInItems m l ≤ hi → R.ItemsFit l
  | [], _, _, _ => by
    rw [Rules.ItemsFit]
    trivial
  | ⟨after, id, ro, blockId, task, taskOp, children⟩ :: rest, he, hk, hm => by
    rw [itemElements] at he
    rw [itemsPeersOk, and_eq_true, and_eq_true, and_eq_true, decide_eq_true_eq,
      decide_eq_true_eq] at hk
    rw [maxCounterInItems] at hm
    have hmax := (le_maxCounterInItems _ rest).trans hm
    have htask : taskOp.counter ≤ hi :=
      (le_max_right _ _).trans ((le_maxCounterInChildren _ children).trans hmax)
    rw [Rules.ItemsFit]
    exact ⟨⟨h.places (id, blockId) (he _ (by simp)), h.wrote taskOp ⟨hk.1.1.2, htask⟩⟩,
      h.childrenFit children (fun e hin => he e (by simp [hin])) hk.1.2 hmax,
      h.itemsFit rest (fun e hin => he e (by simp [hin])) hk.2 hm⟩

end

/-- Rules that let no other ids in. -/
def withinRules (P : OpId → Prop) : Rules :=
  ⟨fun id _ => P id, fun id _ => P id, fun _ => True, Within (fun _ => []) P,
    fun t => ∀ x ∈ t.ids, P x⟩

omit [Segmentation] in
theorem expands_within {P : OpId → Prop} : (withinRules P).Expands (KindWithin P) (Within blockIds P)
    (Within itemIds P) where
  text hk := (kindWithin_text hk).mpr
  table := kindWithin_table.mpr
  codeFence := kindWithin_codeFence
  rawBlock := kindWithin_rawBlock
  list h := kindWithin_list.mpr ⟨h, by simp⟩
  blockQuote := kindWithin_blockQuote.mpr
  noBlocks := within_new
  noItems := within_new
  block hs hb hm hk := hs.insertBlock hb.owns
    ⟨hb.elemId ▸ hb.owns, by simp [hm, MarkSet.ids, MarkSet.new, values, empty], hk⟩
  item hs hv he hc := hs.insertItem hv.places ⟨he ▸ hv.places, hc⟩

theorem within_kindFromSkeleton {elem : OpId} (hp : elem.peer = peer) (k)
    (hk : kindPeersOk peer k = true) (hm : maxCounterInKind elem k ≤ hi) :
    KindWithin (OwnUpTo peer hi) (kindFromSkeleton elem k) := by
  have hadmits : (withinRules (OwnUpTo peer hi)).Admits peer hi (fun e => OwnUpTo peer hi e.1) :=
    ⟨fun _ h => h, fun _ h => h, fun _ _ => trivial, fun _ _ => within_unitsFromStr,
      fun _ _ => Table.within_iff.mp (Table.within_new _ _ _)⟩
  refine expands_within.kind (hadmits.kindFits hp k (fun e he => ?_) hk hm)
  obtain ⟨hpeer, hmax⟩ := mem_kindElements elem he hk
  exact ⟨hpeer, hmax.trans hm⟩

end Skeletons

/-! ## Units that are carried over -/

variable {P : OpId → Prop}

theorem within_visibleUnits (hb : BlockWithin P b)
    (hbody : blockTextSeq b.kind = some body) : ∀ u ∈ Session.visibleUnits body, P u.1 := by
  intro u hu
  obtain ⟨e, he, hv⟩ := mem_filterMap.mp hu
  obtain ⟨unit, -, rfl⟩ := map_eq_some_iff.mp hv
  exact ((kindWithin_text hbody).mp hb.kind).elements e he _ mem_cons_self

/-- A merged unit keeps its id, or gets one of the peer. -/
theorem mem_mergeUnits (hu : u ∈ Session.mergeUnits peer occupied c l) :
    (∃ v ∈ l, v.1 = u.sourceId) ∧ (u.id = u.sourceId ∨ u.id.peer = peer) := by
  induction l generalizing c with
  | nil => cases hu
  | cons v l ih =>
    obtain ⟨sourceId, grapheme⟩ := v
    have hrest : ∀ {c}, u ∈ Session.mergeUnits peer occupied c l →
        (∃ v ∈ (sourceId, grapheme) :: l, v.1 = u.sourceId) ∧
          (u.id = u.sourceId ∨ u.id.peer = peer) := by
      intro c hu
      obtain ⟨⟨v, hv, heq⟩, hid⟩ := ih hu
      exact ⟨⟨v, mem_cons_of_mem _ hv, heq⟩, hid⟩
    rw [Session.mergeUnits] at hu
    split at hu
    · rcases mem_cons.mp hu with rfl | hu
      · exact ⟨⟨_, mem_cons_self, rfl⟩, .inr rfl⟩
      · exact hrest hu
    · rcases mem_cons.mp hu with rfl | hu
      · exact ⟨⟨_, mem_cons_self, rfl⟩, .inl rfl⟩
      · exact hrest hu

theorem Document.within_containerChildren {d : Document} (h : d.Within P)
    {children : Sequence Block} (hc : d.containerChildren parent = some children) :
    children.Within blockIds P := by
  cases parent with
  | none => exact some.inj hc ▸ h
  | some p =>
    simp only [containerChildren] at hc
    split at hc
    · next c hk =>
      obtain rfl := some.inj hc
      obtain ⟨b, hb, hkind⟩ := map_eq_some_iff.mp hk
      exact kindWithin_blockQuote.mp (hkind ▸ (within_findBlock h hb).1.kind)
    · obtain ⟨item, hi, rfl⟩ := map_eq_some_iff.mp hc
      exact (within_findListItem h hi).children

theorem Sequence.Within.of_mem_iter {s : Sequence Block} (h : s.Within blockIds P)
    (hb : b ∈ s.iter) : BlockWithin P b := by
  obtain ⟨e, he, hv⟩ := mem_filterMap.mp hb
  exact blockWithin_iff.mpr (h.value he hv)

/-! ## Created operations -/

/-- What a created operation brings is in the document, or it is the session's own and lies in
    the counters up to the operation's. -/
theorem Session.Creates.brings [Segmentation] [Serde] {s : Session} {op : DocOp}
    (h : s.Creates op) : ∀ x ∈ op.brings,
      x ∈ s.document.ids ∨ OwnUpTo s.peer (Session.opId op).counter x := by
  have hself : s.document.Within (· ∈ s.document.ids) :=
    within_iff.mpr (fun _ hx => hx)
  cases h with
  | @insertBlock parent after kind skeleton children hc ha hk hv hp hu =>
    intro x hx
    refine .inr ?_
    have hid : OwnUpTo s.peer (maxCounterInKind s.peekNextId skeleton) s.peekNextId :=
      ⟨rfl, le_maxCounterInKind _ _⟩
    have hblock : BlockWithin (OwnUpTo s.peer (maxCounterInKind s.peekNextId skeleton))
        (blockFromSkeleton ⟨blockIdFromOp s.peekNextId, skeleton⟩ s.peekNextId) :=
      ⟨hid, by simp [blockFromSkeleton, MarkSet.ids, MarkSet.new, values,
        empty], within_kindFromSkeleton rfl skeleton hp le_rfl⟩
    rcases mem_cons.mp hx with rfl | hx
    · exact hid
    · exact blockWithin_iff.mp hblock x hx
  | @insertText blockId offset graphemes block body hb ht ho hne =>
    intro x hx
    obtain ⟨u, hu, rfl⟩ := mem_map.mp hx
    obtain ⟨g, gs, rfl⟩ := exists_cons_of_ne_nil hne
    exact .inr ⟨(mem_pasteUnits hu).1, le_foldl_max_of_mem (fun u => u.id.counter) hu _⟩
  | @moveBlocks blockIds toParent after destination targets hne hd ha ht hat =>
    intro x hx
    obtain ⟨m, hm, rfl⟩ := mem_map.mp hx
    obtain ⟨hp, -, hlt⟩ := mem_placements hm
    rw [moveTargets_length ht] at hlt
    refine .inr ⟨hp, ?_⟩
    show m.id.counter ≤ s.nextCounter + blockIds.length - 1
    omega
  | @splitBlock parent offset children block body kind hc hb hk ho =>
    intro x hx
    rcases mem_cons.mp hx with rfl | hx
    · exact .inr ⟨rfl, le_rfl⟩
    · obtain ⟨u, hu, rfl⟩ := mem_map.mp hx
      obtain ⟨v, hv, rfl⟩ := mem_map.mp hu
      have hbody : blockTextSeq block.kind = some body := by
        cases hkind : block.kind <;> rw [hkind] at hk <;> cases hk <;> rfl
      have hblock := (within_containerChildren hself hc).of_mem_iter hb
      exact .inl (within_visibleUnits hblock hbody v (mem_of_mem_drop hv))
  | @mergeBlocks parent children left right leftBody rightBody hc before after hadj hl hr =>
    intro x hx
    obtain ⟨u, hu, rfl⟩ := mem_map.mp hx
    obtain ⟨⟨v, hv, hsource⟩, hid⟩ := mem_mergeUnits hu
    have hblock := (within_containerChildren hself hc).of_mem_iter
      (b := right) (by simp [hadj])
    by_cases heq : u.id = u.sourceId
    · exact .inl (heq ▸ hsource ▸ within_visibleUnits hblock hr v hv)
    · have hpeer := hid.resolve_left heq
      refine .inr ⟨hpeer, le_foldl_max_of_mem (fun u => u.id.counter)
        (mem_filter.mpr ⟨hu, by simpa using ⟨heq, hpeer⟩⟩) _⟩
  | insertListItem | moveListItem | insertTableColumn | insertTableRow | moveTableColumn
  | moveTableRow | setMark =>
    intro x hx
    obtain rfl := mem_singleton.mp hx
    exact .inr ⟨rfl, le_rfl⟩
  | _ =>
    intro x hx
    cases hx

/-! ## Rebuilding -/

namespace Sequence
variable {T : Type} {within : T → List OpId} {P : OpId → Prop}

theorem within_fromElementsAndPending {elements ops}
    (he : ∀ x ∈ elements.flatMap (Element.ids within), P x)
    (ho : ∀ x ∈ ops.flatMap (SequenceOp.ids within), P x) :
    (fromElementsAndPending elements ops).Within within P := by
  have hbase : (fromElements elements).Within within P :=
    ⟨fun e hin x hx => he x (mem_flatMap.mpr ⟨e, hin, hx⟩),
      by simp [fromElements, pendingOps, values, empty]⟩
  exact hbase.applyAll (fun op hop x hx => ho x (mem_flatMap.mpr ⟨op, hop, hx⟩))

theorem Within.reload {s : Sequence T} (h : s.Within within P) : s.reload.Within within P :=
  within_fromElementsAndPending (fun x hx => within_iff.mp h x (mem_append_left _ hx))
    (fun x hx => within_iff.mp h x (mem_append_right _ hx))

/-- Rebuilding a sequence whose values are rebuilt as well. -/
def reloadMap (g : T → T) (s : Sequence T) : Sequence T :=
  fromElementsAndPending (s.elements.map (Element.map g)) (s.pendingOps.map (SequenceOp.map g))

theorem Within.reloadMap {s : Sequence T} (h : s.Within within P) {g}
    (hg : ∀ v, s.Has v → (∀ x ∈ within v, P x) → ∀ x ∈ within (g v), P x) :
    (s.reloadMap g).Within within P := by
  apply within_fromElementsAndPending
  · rw [flatMap_map]
    intro x hx
    obtain ⟨⟨id, value, after, ro⟩, he, hx⟩ := mem_flatMap.mp hx
    have hold := h.elements _ he
    cases value with
    | none => exact hold x hx
    | some v =>
      rcases mem_cons.mp hx with rfl | hx
      · exact hold _ mem_cons_self
      · exact hg v (.inl ⟨_, he, rfl⟩) (h.value he rfl) x hx
  · rw [flatMap_map]
    intro x hx
    obtain ⟨op, hop, hx⟩ := mem_flatMap.mp hx
    have hold := h.parked op hop
    cases op with
    | delete target id => cases hx
    | insert after id v ro =>
      rcases mem_cons.mp hx with rfl | hx
      · exact hold _ mem_cons_self
      · exact hg v (.inr ⟨after, id, ro, hop⟩) (fun y hy => hold y (mem_cons_of_mem _ hy)) x hx

end Sequence

/-! ## The walk as a rebuilding of sequences -/

theorem reloadBlockElements_eq (l) : reloadBlockElements l = l.map (Element.map reloadBlock) := by
  induction l with
  | nil => rw [reloadBlockElements]; rfl
  | cons e l ih => obtain ⟨id, _ | v, after, ro⟩ := e <;> rw [reloadBlockElements, ih] <;> rfl

theorem reloadBlockOps_eq (l) : reloadBlockOps l = l.map (SequenceOp.map reloadBlock) := by
  induction l with
  | nil => rw [reloadBlockOps]; rfl
  | cons op l ih => cases op <;> rw [reloadBlockOps, ih] <;> rfl

theorem reloadBlockBuffer_eq (l : List (OpId × List (SequenceOp Block))) :
    reloadBlockBuffer l = (l.map Prod.snd).flatten.map (SequenceOp.map reloadBlock) := by
  induction l with
  | nil => rw [reloadBlockBuffer]; rfl
  | cons e l ih => rw [reloadBlockBuffer, ih, reloadBlockOps_eq, map_cons, flatten_cons, map_append]

theorem reloadBlocks_eq (s) : reloadBlocks s = s.reloadMap reloadBlock := by
  obtain ⟨elements, index, ⟨inserts⟩, ⟨deletes⟩⟩ := s
  rw [reloadBlocks, reloadBlockElements_eq, reloadBlockBuffer_eq, reloadBlockBuffer_eq, ← map_append,
    ← flatten_append]
  rfl

theorem reloadItemElements_eq (l) : reloadItemElements l = l.map (Element.map reloadItem) := by
  induction l with
  | nil => rw [reloadItemElements]; rfl
  | cons e l ih => obtain ⟨id, _ | v, after, ro⟩ := e <;> rw [reloadItemElements, ih] <;> rfl

theorem reloadItemOps_eq (l) : reloadItemOps l = l.map (SequenceOp.map reloadItem) := by
  induction l with
  | nil => rw [reloadItemOps]; rfl
  | cons op l ih => cases op <;> rw [reloadItemOps, ih] <;> rfl

theorem reloadItemBuffer_eq (l : List (OpId × List (SequenceOp ListItem))) :
    reloadItemBuffer l = (l.map Prod.snd).flatten.map (SequenceOp.map reloadItem) := by
  induction l with
  | nil => rw [reloadItemBuffer]; rfl
  | cons e l ih => rw [reloadItemBuffer, ih, reloadItemOps_eq, map_cons, flatten_cons, map_append]

theorem reloadItems_eq (s) : reloadItems s = s.reloadMap reloadItem := by
  obtain ⟨elements, index, ⟨inserts⟩, ⟨deletes⟩⟩ := s
  rw [reloadItems, reloadItemElements_eq, reloadItemBuffer_eq, reloadItemBuffer_eq, ← map_append,
    ← flatten_append]
  rfl

section Reload
variable {P : OpId → Prop}

theorem blocks_reload {s : Sequence Block} (h : s.Within blockIds P) :
    (reloadBlocks s).Within blockIds P := by
  induction s using tree_induction with
  | step s ih =>
    rw [reloadBlocks_eq]
    refine h.reloadMap (fun b hb hin => ?_)
    have ih := ih b hb
    have hw := blockWithin_iff.mpr hin
    obtain ⟨id, elemId, kindOp, kindObserved, kind, marks⟩ := b
    rw [reloadBlock]
    refine blockWithin_iff.mp (hw.withKind (b := ⟨id, elemId, kindOp, kindObserved, kind, marks⟩) ?_)
    cases kind with
    | paragraph text | heading level text =>
      rw [reloadKind]
      exact (kindWithin_text rfl).mpr ((kindWithin_text rfl).mp hw.kind).reload
    | list style items pm =>
      obtain ⟨hitems, hpm⟩ := kindWithin_list.mp hw.kind
      rw [reloadKind, reloadItems_eq]
      refine kindWithin_list.mpr ⟨hitems.reloadMap (fun item hi hin => ?_), hpm⟩
      have hchildren := ih.2 style items pm rfl item hi (itemWithin_iff.mpr hin).children
      have helem := (itemWithin_iff.mpr hin).elemId
      obtain ⟨_, _, _, _, _, _, children⟩ := item
      rw [reloadItem]
      exact itemWithin_iff.mp ⟨helem, hchildren⟩
    | blockQuote children =>
      rw [reloadKind]
      exact kindWithin_blockQuote.mpr (ih.1 children rfl (kindWithin_blockQuote.mp hw.kind))
    | table table =>
      rw [reloadKind]
      have ht := Table.within_iff.mpr (kindWithin_table.mp hw.kind)
      exact kindWithin_table.mpr
        (Table.within_iff.mp { ht with columns := ht.columns.reload, rows := ht.rows.reload })
    | codeFence | rawBlock =>
      rw [reloadKind]
      exact hw.kind

/-- A document rebuilt from its snapshot has no new ids. -/
theorem Document.ids_reload {d : Document} (h : ∀ x ∈ d.ids, P x) : ∀ x ∈ d.reload.ids, P x :=
  within_iff.mp (blocks_reload (within_iff.mpr h))

end Reload
end MdCrdt
