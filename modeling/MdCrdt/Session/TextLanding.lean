import MdCrdt.Core.Landing
import MdCrdt.Core.LocalInsert
import MdCrdt.Session.ReadWrites

/- Where locally typed text lands.

  A session that only edits locally numbers everything in its document below its
  clock (`Homegrown`): text bodies are the result of operations that name nothing
  newer. The units of `insertText` are then new to the body. The first one is
  anchored at the unit in front of the offset, takes the id of its right neighbour as
  right origin, and is sorted among its siblings by the ids of the right origins; the
  others follow it. The text comes to stand as many units too far to the right as
  there are visible units that the first one passes (`typed_text_lands`). -/
namespace MdCrdt
open Lib List Option Sequence Document Segmentation Prod TextUnitWire
variable {text : String}

/-! ## Bodies below the clock -/

/-- Text bodies that name nothing from the counter on; nothing is asked of the rest. -/
def textRules (n : Nat) : Rules where
  owns _ _ := True
  places _ _ := True
  wrote _ := True
  text body := body.KnownBefore n
  table _ := True

theorem textRules_le (h : n ≤ m) : (textRules n).Le (textRules m) :=
  ⟨fun _ _ h => h, fun _ _ h => h, fun _ h => h, fun _ hb => hb.mono h, fun _ h => h⟩

theorem Document.containerChildren_keeps {R : Rules} {d : Document} (h : R.Blocks d.blocks)
    {parent children} (hc : d.containerChildren parent = some children) : R.Blocks children := by
  cases parent with
  | none => exact some.inj hc ▸ h
  | some p =>
    simp only [containerChildren] at hc
    split at hc
    · next c hk =>
      obtain rfl := some.inj hc
      obtain ⟨b, hb, hkind⟩ := map_eq_some_iff.mp hk
      exact (findBlock_stands h hb).kind.children hkind
    · obtain ⟨item, hi, rfl⟩ := map_eq_some_iff.mp hc
      obtain ⟨place, hitem⟩ := h.listItem (mem_of_find?_eq_some hi)
      exact hitem.children

section Skeletons
variable [Segmentation] {hi : Nat}

theorem knownBefore_unitsFromStr {elem : OpId} (hm : elem.counter + graphemeCount text ≤ hi) :
    (unitsFromStr text (elem.counter + 1) elem.peer).KnownBefore (hi + 1) := by
  refine knownBefore_fromOrdered ?_ (fun p hp => ?_)
  · rw [List.map_map]
    have hids : (fst ∘ fun g : String × Nat =>
        ((⟨elem.counter + 1 + g.2, elem.peer⟩ : OpId), (⟨g.1⟩ : TextUnit))) =
        (fun k => (⟨elem.counter + 1 + k, elem.peer⟩ : OpId)) ∘ snd := rfl
    rw [hids, ← List.map_map, zipIdx_map_snd]
    refine List.Nodup.map (fun a b hab => ?_) nodup_range'
    have := (OpId.mk.inj hab).1
    omega
  · obtain ⟨g, hg, rfl⟩ := mem_map.mp hp
    have hlt : g.2 < (graphemes text).length := snd_lt_of_mem_zipIdx hg
    unfold graphemeCount at hm
    show elem.counter + 1 + g.2 < hi + 1
    omega

theorem admits_textRules (peer) : (textRules (hi + 1)).Admits peer hi (fun _ => True) :=
  ⟨fun _ _ => trivial, fun _ _ => trivial, fun _ _ => trivial,
    fun _ _ _ hm => knownBefore_unitsFromStr hm, fun _ _ => trivial⟩

end Skeletons

/-! ## Operations on text -/

open Session

theorem visibleUnits_eq (body) : visibleUnits body =
    (liveUnits body.elements).map (fun u => (u.1, u.2.grapheme)) := by
  rw [visibleUnits, liveUnits, map_filterMap]
  refine filterMap_congr (fun e _ => ?_)
  rw [Option.map_map]
  rfl

theorem paragraphVisibleIds_eq (body) :
    paragraphVisibleIds body = (liveUnits body.elements).map fst :=
  (ids_liveUnits _).symm

theorem afterForGraphemeOffset_eq (body k) : afterForGraphemeOffset body k = body.anchorAt k := by
  rw [afterForGraphemeOffset, anchorAt, paragraphVisibleIds_eq]

/-- A pasted unit is anchored where the paste was, or at another unit of it. -/
theorem after_pasteUnits {peer gs c a r u} (hu : u ∈ pasteUnits peer c a r gs) {x}
    (hx : u.after = some x) : a = some x ∨ ∃ v ∈ pasteUnits peer c a r gs, v.id = x := by
  induction gs generalizing c a r with
  | nil => cases hu
  | cons g gs ih =>
    rcases mem_cons.mp hu with rfl | hu
    · exact .inl hx
    · right
      rcases ih hu with heq | ⟨v, hv, rfl⟩
      · exact ⟨_, mem_cons_self, some.inj heq⟩
      · exact ⟨v, mem_cons_of_mem _ hv, rfl⟩

theorem insertOps_pasteUnits (peer n a r g gs) : (pasteUnits peer n a r (g :: gs)).map insertOp =
      .insert a ⟨n, peer⟩ ⟨g⟩ r :: chainInserts peer (n + 1) ⟨n, peer⟩ (gs.map TextUnit.mk) := by
  have hrest : ∀ gs n x,
      (pasteUnits peer n (some x) none gs).map insertOp =
        chainInserts peer n x (gs.map TextUnit.mk) := by
    intro gs
    induction gs with
    | nil => exact fun _ _ => rfl
    | cons g gs ih => exact fun n x => congrArg (_ :: ·) (ih (n + 1) ⟨n, peer⟩)
  exact congrArg (_ :: ·) (hrest gs (n + 1) ⟨n, peer⟩)

theorem before_chainOps {n units} (h : ∀ u ∈ units, u.id.counter < n) {after}
    (ha : ∀ a, after = some a → a.counter < n) (ro) :
    ∀ op ∈ chainOps after ro units, op.Before n := by
  induction units generalizing after ro with
  | nil => simp [chainOps]
  | cons u units ih =>
    obtain ⟨hu, hunits⟩ := forall_mem_cons.mp h
    rw [chainOps, forall_mem_cons]
    exact ⟨⟨hu, ha⟩, ih hunits (fun a haa => some.inj haa ▸ hu) none⟩

/-! ## Sessions that only edit locally -/

section
variable [Segmentation] [Serde] {s s' : Session} {op : DocOp} {body : Sequence TextUnit}

namespace Session

/-- Everything in the document lies below the session's clock. -/
structure Homegrown (s : Session) : Prop where
  ids : ∀ x ∈ s.document.ids, x.counter < s.nextCounter
  text : (textRules s.nextCounter).Blocks s.document.blocks

omit [Segmentation] in
theorem Homegrown.visible (h : s.Homegrown) (hb : BlockWithin (· ∈ s.document.ids) b)
    (ht : blockTextSeq b.kind = some body) :
    ∀ x ∈ paragraphVisibleIds body, x.counter < s.nextCounter := by
  intro x hx
  rw [paragraphVisibleIds_eq] at hx
  obtain ⟨u, hu, rfl⟩ := mem_map.mp hx
  refine h.ids _ (within_visibleUnits hb ht (u.1, u.2.grapheme) ?_)
  rw [visibleUnits_eq]
  exact mem_map_of_mem hu

/-- What a session creates keeps the text bodies below its next counter. -/
theorem Creates.fits_textRules (hc : s.Creates op) (h : s.Homegrown) :
    op.Fits (textRules s.nextCounter) (textRules ((opId op).counter + 1)) := by
  have hself : s.document.Within (· ∈ s.document.ids) := within_iff.mpr (fun _ hx => hx)
  have hle : s.nextCounter ≤ (opId op).counter + 1 := hc.counters.le.trans (Nat.le_succ _)
  have hbrings : ∀ x ∈ op.brings, x.counter < (opId op).counter + 1 := by
    intro x hx
    rcases hc.brings x hx with hx | ⟨-, hx⟩
    · exact (h.ids x hx).trans_le hle
    · exact Nat.lt_succ_of_le hx
  cases hc with
  | insertBlock hc ha hk hv hp hu =>
    exact ⟨trivial, trivial, (admits_textRules s.peer).kindFits rfl _ (fun _ _ => trivial) hp le_rfl⟩
  | @insertText blockId offset graphemes block body hb ht ho hne =>
    intro target htarget
    refine (KnownBefore.mono htarget hle).applyAll (List.forall_mem_map.mpr fun u hu => ?_)
    refine ⟨hbrings _ (List.mem_map_of_mem hu), fun x hx => ?_⟩
    rcases after_pasteUnits hu hx with hx | ⟨v, hv, rfl⟩
    · refine (h.visible (within_findBlockById hself hb) ht x ?_).trans_le hle
      unfold afterForGraphemeOffset at hx
      split at hx
      · cases hx
      · exact mem_of_getElem? hx
    · exact hbrings _ (List.mem_map_of_mem hv)
  | @deleteText blockId offset count block body hb ht =>
    intro target htarget
    refine (KnownBefore.mono htarget hle).applyAll (List.forall_mem_map.mpr fun x hx => ?_)
    exact (h.visible (within_findBlockById hself hb) ht x
      (mem_of_mem_drop (mem_of_mem_take hx))).trans_le hle
  | @splitBlock parent offset children block body kind hc hb hk ho =>
    have ht : blockTextSeq block.kind = some body := by
      cases hkind : block.kind <;> rw [hkind] at hk <;> cases hk <;> rfl
    have hblock := (within_containerChildren hself hc).of_mem_iter hb
    obtain ⟨e, he, hv⟩ := mem_filterMap.mp hb
    have hbody : body.KnownBefore s.nextCounter :=
      (Rules.Blocks.live (containerChildren_keeps h.text hc) he hv).kind.textOf ht
    have hids : ((((visibleUnits body).drop offset).map (fun u =>
        (⟨u.1, u.1, u.2⟩ : MovedTextUnitWire))).map (fun unit =>
          (unit.id, (⟨unit.grapheme⟩ : TextUnit)))).map fst =
        ((visibleUnits body).map fst).drop offset := by
      simp only [List.map_map, map_drop]
      rfl
    refine ⟨trivial, trivial, knownBefore_fromOrdered ?_ (fun p hp => ?_), ?_⟩
    · rw [hids, visibleUnits_eq, List.map_map]
      exact (nodup_ids_liveUnits hbody.ordered.grounded.distinct).sublist
        (drop_sublist _ _)
    · obtain ⟨u, hu, rfl⟩ := List.mem_map.mp hp
      exact hbrings _ (mem_cons_of_mem _ (List.mem_map_of_mem hu))
    · intro target htarget
      refine (KnownBefore.mono htarget hle).applyAll
        (List.forall_mem_map.mpr fun u hu => ?_)
      obtain ⟨v, hv, rfl⟩ := List.mem_map.mp hu
      exact (h.ids _ (within_visibleUnits hblock ht v (mem_of_mem_drop hv))).trans_le hle
  | @mergeBlocks parent children left right leftBody rightBody hc before after hadj hl hr =>
    intro target htarget
    refine (KnownBefore.mono htarget hle).applyAll
      (before_chainOps (fun u hu => hbrings _ (List.mem_map_of_mem hu)) (fun a ha => ?_) _)
    have hblock := (within_containerChildren hself hc).of_mem_iter
      (b := left) (by simp [hadj])
    exact (h.visible hblock hl a (mem_of_getLast? ha)).trans_le hle
  | moveBlocks => exact fun _ _ => ⟨trivial, trivial⟩
  | insertListItem | moveListItem => exact ⟨trivial, trivial⟩
  | insertTableRow | insertTableColumn | moveTableRow | moveTableColumn | setTableCell
  | deleteTableRow | setTableColumnAlignment | deleteTableColumn => exact fun _ _ => trivial
  | _ => exact trivial

theorem Homegrown.commits (h : s.Homegrown) (hc : s.Creates op) (hs : s.Commits op s') :
    s'.Homegrown := by
  obtain ⟨payload, -, rfl⟩ := hs
  have hle : s.nextCounter ≤ (opId op).counter + 1 := hc.counters.le.trans (Nat.le_succ _)
  refine ⟨?_, applyDocOp_keeps h.text (textRules_le hle) (hc.fits_textRules h)⟩
  have hold : s.document.Within (fun x => x.counter < (opId op).counter + 1) :=
    within_iff.mpr (fun x hx => (h.ids x hx).trans_le hle)
  refine within_iff.mp (applyDocOp_within hold (fun _ x hx => ?_))
  rcases hc.brings x hx with hx | ⟨-, hx⟩
  · exact (h.ids x hx).trans_le hle
  · exact Nat.lt_succ_of_le hx

theorem Homegrown.chain (h : s.Homegrown) (hc : s.Chain ops s') : s'.Homegrown := by
  induction hc with
  | nil => exact h
  | cons hc hs _ ih => exact ih (h.commits hc hs)

omit [Segmentation] in
theorem homegrown_new (p) : (Session.new p).Homegrown :=
  ⟨Document.within_iff.mp within_new, Rules.blocks_new⟩

end Session
/-! ## Landing -/

/-- The body of the text block with the id. -/
def Document.textBody (d : Document) (blockId : BlockId) : Option (Sequence TextUnit) :=
  (d.findBlockById blockId).bind (fun b => blockTextSeq b.kind)

omit [Segmentation] [Serde] in
/-- An edit of the text leaves the block where it is. -/
theorem Document.Holds.textBody_modifyText {d : Document} {b : Block}
    (h : d.Holds path b) (ht : blockTextSeq b.kind = some body) (ops) :
    (d.updateBlock b.elemId (fun block => block.modifyText ops)).textBody b.id =
      some (body.applyAll ops) := by
  have htext : (b.modifyText ops).kind.IsLeaf ∧ b.kind.IsLeaf ∧
      blockTextSeq (b.modifyText ops).kind = some (body.applyAll ops) := by
    obtain ⟨id, elemId, kindOp, kindObserved, kind, marks⟩ := b
    cases kind with
    | paragraph t | heading _ t =>
      obtain rfl := some.inj ht
      exact ⟨trivial, trivial, rfl⟩
    | _ => cases ht
  obtain ⟨hleaf', hleaf, hbody⟩ := htext
  have hs : SameOutline b (b.modifyText ops) := sameOutline_leaf rfl rfl hleaf hleaf'
  have hedit := updateBlock_edited h (f := fun block => block.modifyText ops) hs
  have hfind := (h.edited hedit hs.id hs.elemId).findBlockById
  rw [hs.id] at hfind
  rw [textBody, hfind]
  exact hbody

namespace Session

/-- The units that a text typed now consists of. -/
def typedUnits (s : Session) (text : String) : List (OpId × String) :=
  (graphemes text).zipIdx.map (fun g => (⟨s.nextCounter + g.2, s.peer⟩, g.1))

/-- The visible units that the first unit of a text typed at the offset passes on its way from
    its anchor: those inserted after the same anchor that sort in front of it, and what hangs
    below them. -/
def overtaken (s : Session) (body : Sequence TextUnit) (offset : Nat) : List OpId :=
  body.overtaken ⟨s.peekNextId, none, afterForGraphemeOffset body offset,
    body.computeRightOrigin (afterForGraphemeOffset body offset)⟩

theorem map_chainUnits (s : Session) (text) :
    (chainUnits s.peer s.nextCounter ((graphemes text).map TextUnit.mk)).map
      (fun u => (u.1, u.2.grapheme)) = s.typedUnits text := by
  rw [chainUnits, typedUnits, zipIdx_map, List.map_map, List.map_map]
  rfl

/-- The text of a body after typing. -/
theorem visibleUnits_typed (h : body.KnownBefore s.nextCounter) (ho : offset ≤ body.lenVisible)
    (hne : graphemes text ≠ []) :
    let V := visibleUnits body
    let jump := s.overtaken body offset
    let V' := visibleUnits (body.applyAll ((pasteUnits s.peer s.nextCounter
      (afterForGraphemeOffset body offset)
      (body.computeRightOrigin (afterForGraphemeOffset body offset))
      (graphemes text)).map insertOp))
    V' = V.take (offset + jump.length) ++ s.typedUnits text ++ V.drop (offset + jump.length) ∧
      (V' = V.take offset ++ s.typedUnits text ++ V.drop offset ↔ jump = []) := by
  intro V jump V'
  have hk : offset ≤ (liveUnits body.elements).length := by
    have hlen := congrArg List.length (ids_liveUnits body.elements)
    rw [length_map, length_map] at hlen
    rw [hlen]
    exact ho
  have hinj : Function.Injective (List.map (fun u : OpId × TextUnit => (u.1, u.2.grapheme))) := by
    refine map_injective_iff.mpr ?_
    rintro ⟨a, ⟨g⟩⟩ ⟨b, ⟨g'⟩⟩ hab
    obtain ⟨rfl, rfl⟩ := Prod.mk.inj hab
    rfl
  have hnew := map_chainUnits s text
  obtain ⟨g, gs, hg⟩ := exists_cons_of_ne_nil hne
  obtain ⟨h1, h2⟩ := insert_chain_live s.peer h hk
    (body.computeRightOrigin (body.anchorAt offset)) (⟨g⟩ : TextUnit) (gs.map TextUnit.mk)
  rw [hg, map_cons] at hnew
  have hV : V = (liveUnits body.elements).map (fun u => (u.1, u.2.grapheme)) :=
    visibleUnits_eq body
  have hjump : jump = body.overtaken ⟨⟨s.nextCounter, s.peer⟩, none, body.anchorAt offset,
      body.computeRightOrigin (body.anchorAt offset)⟩ := by
    show s.overtaken body offset = _
    rw [overtaken, afterForGraphemeOffset_eq]
    rfl
  have hV' : V' = (liveUnits (body.applyAll (.insert (body.anchorAt offset)
      ⟨s.nextCounter, s.peer⟩ ⟨g⟩ (body.computeRightOrigin (body.anchorAt offset)) ::
        chainInserts s.peer (s.nextCounter + 1) ⟨s.nextCounter, s.peer⟩
          (gs.map TextUnit.mk))).elements).map (fun u => (u.1, u.2.grapheme)) := by
    show visibleUnits _ = _
    rw [visibleUnits_eq, hg, insertOps_pasteUnits, afterForGraphemeOffset_eq]
  rw [hV', hV, ← hnew, hjump]
  simp only [← map_take, ← map_drop, ← map_append]
  exact ⟨congrArg _ h1, hinj.eq_iff.trans h2⟩

/-- Local inserts. In a sequence that was edited by local calls with increasing ids an insert
    lands right behind its anchor exactly when the way is clear; in a session that only edits
    locally a typed text lands as many visible units behind its offset as its first unit
    passes. -/
theorem typed_text_lands [LimitedSerde] :
    (∀ {T : Type} (ops : List (LocalOp T)) (anchor : Option OpId) (value : T) (id : OpId),
      (ops.map LocalOp.id).Pairwise (· < ·) → (∀ op ∈ ops, op.id < id) →
      (∀ a, anchor = some a → a ∈ (Sequence.new.runLocal ops).elementIds) →
      (RightOf ((Sequence.new.runLocal ops).insert anchor value id).elementIds anchor id ↔
        (Sequence.new.runLocal ops).Clear anchor)) ∧
    (∀ (p : PeerId) (s : Session), Makes DocOp.Numbered (Session.new p) s →
      ∀ (blockId : BlockId) (offset : Nat) (text : String) (s' : Session) (r : Option OpId),
      s.insertText blockId offset text = .ok (s', r) →
      (s' = s ∧ r = none ∧ (text.isEmpty = true ∨ graphemes text = [])) ∨
      (∃ i, r = some i) ∧ ∃ body body', s.document.textBody blockId = some body ∧
        s'.document.textBody blockId = some body' ∧ visibleUnits body' =
          (visibleUnits body).take (offset + (s.overtaken body offset).length) ++
          s.typedUnits text ++
          (visibleUnits body).drop (offset + (s.overtaken body offset).length) ∧
        (visibleUnits body' = (visibleUnits body).take offset ++ s.typedUnits text ++
          (visibleUnits body).drop offset ↔ s.overtaken body offset = [])) := by
  constructor
  · intro T ops anchor value id hinc hlt ha
    obtain ⟨D, hD, hbelow⟩ := runLocal_history ops localHistory_new hinc
      (fun _ _ _ _ _ _ h => h.elim)
    exact insert_rightOf_iff hD (hbelow id (fun _ _ _ _ h => h.elim) hlt) ha
  · intro p s hmakes blockId offset text s' r hok
    obtain ⟨created, hrun⟩ := Run.local_edits p hmakes
    obtain ⟨R, hat⟩ := hrun.attributed p
    rw [Function.update_self] at hat
    obtain ⟨ops, hchain, -⟩ := hmakes
    have h := (homegrown_new p).chain hchain
    rcases insertText_ok hok with hnone | ⟨hsome, block, body, hb, ht, ho, hne, payload, -, rfl⟩
    · exact .inl hnone
    · refine .inr ⟨hsome, body, _, ?_, ?_, visibleUnits_typed ((findBlockById_stands
        h.text hb).1.kind.textOf ht) ho hne⟩
      · rw [textBody, hb]
        exact ht
      · obtain ⟨path, hh, rfl, -⟩ := hat.holds hb
        simp only [applyDocOp, currentBlockElem_holds hh]
        exact hh.textBody_modifyText ht _

end Session
end

section
attribute [local instance] charSegmentation envelopeSerde

/-- A paragraph with `a`, and `b` typed in front of it. -/
def typedTwice : List Call :=
  [.insertBlockIn none none (.paragraph .new), .insertText ⟨1, 1⟩ 0 "a",
   .insertText ⟨1, 1⟩ 0 "b"]

theorem typedTwice_plain : ∀ c ∈ typedTwice, Plain c := by
  simp [typedTwice, Plain, Bare]

/-- An insert behind an element without children, and `c` typed behind the whole text. -/
theorem typed_text_at_the_end :
    RightOf (((Sequence.new.runLocal [.insert none 'a' ⟨1, 1⟩]).insert (some ⟨1, 1⟩) 'b'
      ⟨2, 1⟩).elementIds) (some ⟨1, 1⟩) ⟨2, 1⟩ ∧
    ∃ s' body', (typedTwice.foldl after (Session.new 1)).insertText ⟨1, 1⟩ 2 "c" =
        .ok (s', some ⟨4, 1⟩) ∧ s'.document.textBody ⟨1, 1⟩ = some body' ∧
      (visibleUnits body').map snd = ["b", "a", "c"] := by
  have := envelopeSerde_lawful
  refine ⟨(typed_text_lands.1 [.insert none 'a' ⟨1, 1⟩] (some ⟨1, 1⟩) 'b' ⟨2, 1⟩ (by decide)
    (by decide) (by decide)).mpr (by decide), ?_⟩
  have heval : ((typedTwice.foldl after (Session.new 1)).insertText ⟨1, 1⟩ 2 "c").toOption.map
      snd = some (some ⟨4, 1⟩) := by decide +kernel
  have hbody : ∀ body ∈ (typedTwice.foldl after (Session.new 1)).document.textBody ⟨1, 1⟩,
      (typedTwice.foldl after (Session.new 1)).overtaken body 2 = [] ∧
        (visibleUnits body).map snd = ["b", "a"] := by decide +kernel
  have htyped : ((typedTwice.foldl after (Session.new 1)).typedUnits "c").map snd = ["c"] := by
    decide +kernel
  cases hok : (typedTwice.foldl after (Session.new 1)).insertText ⟨1, 1⟩ 2 "c" with
  | error e =>
    rw [hok] at heval
    cases heval
  | ok res =>
    obtain ⟨s', r⟩ := res
    rw [hok] at heval
    obtain rfl : r = some ⟨4, 1⟩ := some.inj heval
    rcases typed_text_lands.2 1 _ (makes_calls typedTwice_plain _) _ _ _ _ _ hok with
      ⟨-, hnone, -⟩ | ⟨-, body, body', hold, hnew, -, hiff⟩
    · cases hnone
    · obtain ⟨hjump, hunits⟩ := hbody body hold
      refine ⟨s', body', rfl, hnew, ?_⟩
      rw [hiff.mpr hjump, map_append, map_append, map_take, map_drop, hunits, htyped]
      rfl

/-- Three inserts at the start, one after the other: the third does not come first. `c` typed in
    front of `ba` lands behind the `b`. -/
theorem typed_in_front_lands_behind :
    ¬RightOf (((Sequence.new.runLocal [.insert none 'a' ⟨1, 1⟩, .insert none 'b' ⟨2, 1⟩]).insert
      none 'c' ⟨3, 1⟩).elementIds) none ⟨3, 1⟩ ∧
    ((typedTwice.foldl after (Session.new 1)).document.textBody ⟨1, 1⟩).map
      paragraphVisibleString = some "ba" ∧
    ((typedTwice.foldl after (Session.new 1)).insertText ⟨1, 1⟩ 0 "c").toOption.map (fun r =>
      (r.1.document.textBody ⟨1, 1⟩).map paragraphVisibleString) = some (some "bca") := by
  refine ⟨?_, by decide +kernel, by decide +kernel⟩
  rintro ⟨l, hl⟩
  have heval : ((Sequence.new.runLocal [.insert none 'a' ⟨1, 1⟩, .insert none 'b' ⟨2, 1⟩]).insert
      none 'c' ⟨3, 1⟩).elementIds = [⟨2, 1⟩, ⟨3, 1⟩, ⟨1, 1⟩] := by decide
  rw [heval] at hl
  cases hl

end
end MdCrdt
