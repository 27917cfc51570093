import MdCrdt.Session.MarkRanges
import MdCrdt.Session.TextLanding

/- Byte ranges of a text block.

  `byte_range_to_anchors` counts the graphemes of the visible string in front of an offset
  and takes their number as the index of a unit. A unit is a grapheme of the text it was
  typed with; the segmentation of the whole string may join it to its neighbours. So byte
  ranges lead to the units they consist of if and only if the graphemes of the visible
  string are the units of the block, with nothing but empty units behind them.

  Correspondence (Rust ↔ Lean):
    `is_grapheme_boundary`, `byte_range_to_anchors` ↔ `isGraphemeBoundary`,
      `Document.byteRangeToAnchors`
  A slice of a string that starts or ends inside a character panics: the result is `none`. -/
namespace MdCrdt
open Lib Lib.Utf8 List Option Segmentation Session

/-- The text that strings make up. -/
def joined (l : List String) : List Char := l.flatMap String.toList

/-- What `unicode_segmentation` promises: graphemes are not empty and make up the string, and the
    first graphemes of a string are those of the string they make up. -/
class LawfulSegmentation [Segmentation] : Prop where
  whole : ∀ s : String, joined (graphemes s) = s.toList
  nonempty : ∀ s : String, ∀ g ∈ graphemes s, g.toList ≠ []
  front : ∀ (s : String) (n : Nat),
    graphemes (String.ofList (joined ((graphemes s).take n))) = (graphemes s).take n

/-- The visible units from one anchor through another. -/
def unitsBetween (body : Sequence TextUnit) (first last : Anchor) : List String :=
  let ids := paragraphVisibleIds body
  ((body.iter.map TextUnit.grapheme).take (ids.idxOf last.elemId + 1)).drop
    (ids.idxOf first.elemId)

section
variable [Segmentation]

/-- How many bytes the first `n` graphemes take. -/
def graphemeIndex (text : String) (n : Nat) : Nat := size (joined ((graphemes text).take n))

def isGraphemeBoundary (text : String) (byteOffset : Nat) : Bool :=
  byteOffset == 0 || byteOffset == size text.toList ||
    (range (graphemeCount text)).any (fun n => graphemeIndex text n == byteOffset)

def Document.byteRangeToAnchors (d : Document) (blockId : BlockId) (start stop : Nat) :
    Option (Except EditError (Anchor × Anchor)) :=
  (d.findBlockById blockId).elim (some (.error .blockNotFound)) (fun block =>
    (blockTextSeq block.kind).elim (some (.error .invalidOffset)) (fun body =>
      let visible := paragraphVisibleString body
      if stop ≤ start ∨ size visible.toList < stop then some (.error .invalidOffset)
      else if !isGraphemeBoundary visible start || !isGraphemeBoundary visible stop then
        some (.error .invalidGraphemeBoundary)
      else (takeBytes start visible.toList).bind (fun front =>
        (takeBytes stop visible.toList).map (fun whole =>
          (graphemeRangeToAnchors body (graphemeCount (String.ofList front))
            (graphemeCount (String.ofList whole))).elim (.error .invalidOffset) .ok))))

end

/-! ## Units -/

theorem joined_split (l : List String) (n) : joined l = joined (l.take n) ++ joined (l.drop n) := by
  rw [joined, joined, joined, ← flatMap_append, take_append_drop]

theorem joined_one {l : List String} (hi : i < l.length) :
    joined ((l.take (i + 1)).drop i) = l[i].toList := by
  rw [drop_take, Nat.add_sub_cancel_left, drop_eq_getElem_cons hi, take_succ_cons, take_zero]
  exact flatMap_singleton _ _

theorem prefix_of_same (hne : ∀ g ∈ G, String.toList g ≠ []) (hjoin : joined G = joined U)
    (h : ∀ i (hi : i < G.length) (hi' : i < U.length), G[i] = U[i]) : G <+: U := by
  induction G generalizing U with
  | nil => exact nil_prefix
  | cons g G ih =>
    cases U with
    | nil => exact absurd (append_eq_nil_iff.mp hjoin).1 (hne g mem_cons_self)
    | cons u U =>
      obtain rfl : g = u := h 0 (by simp) (by simp)
      have hrest := ih (fun g' hg => hne g' (mem_cons_of_mem _ hg)) (append_cancel_left hjoin)
        (fun i hi hi' => h (i + 1) (by simpa using hi) (by simpa using hi'))
      exact cons_prefix_cons.mpr ⟨rfl, hrest⟩

variable {body : Sequence TextUnit} {first last : Anchor} {i j : Nat}

theorem toList_paragraphVisibleString (body) :
    (paragraphVisibleString body).toList = joined (body.iter.map TextUnit.grapheme) := by
  have hfold : ∀ (l : List TextUnit) (out : String), (l.foldl (fun out unit => out ++ unit.grapheme)
      out).toList = out.toList ++ joined (l.map TextUnit.grapheme) := by
    intro l
    induction l with
    | nil => simp [joined]
    | cons unit l ih =>
      intro out
      rw [foldl_cons, ih]
      simp [joined]
  exact hfold body.iter ""

theorem length_paragraphVisibleIds (body) :
    (paragraphVisibleIds body).length = body.iter.length := by
  rw [paragraphVisibleIds, length_map, Sequence.iter, length_filterMap_eq_countP,
    countP_eq_length_filter]

/-- The anchors of a range of units have these units between them. -/
theorem unitsBetween_of_range (hr : body.Reached) (hij : i < j)
    (h : graphemeRangeToAnchors body i j = some (first, last)) :
    unitsBetween body first last = ((body.iter.map TextUnit.grapheme).take j).drop i := by
  have hn := nodup_paragraphVisibleIds hr
  rw [graphemeRangeToAnchors] at h
  split at h
  · cases h
  · obtain ⟨f, hf, h⟩ := bind_eq_some_iff.mp h
    obtain ⟨l, hl, h⟩ := map_eq_some_iff.mp h
    obtain ⟨rfl, rfl⟩ := Prod.mk.inj h
    obtain ⟨hi, rfl⟩ := List.getElem?_eq_some_iff.mp hf
    obtain ⟨hj, rfl⟩ := List.getElem?_eq_some_iff.mp hl
    rw [unitsBetween, hn.idxOf_getElem, hn.idxOf_getElem, Nat.sub_add_cancel (by omega)]

theorem exists_range (hij : i < j) (hj : j ≤ body.iter.length) :
    ∃ first last, graphemeRangeToAnchors body i j = some (first, last) := by
  rw [← length_paragraphVisibleIds] at hj
  rw [graphemeRangeToAnchors, if_neg (by omega), getElem?_eq_getElem (by omega),
    getElem?_eq_getElem (by omega)]
  exact ⟨_, _, rfl⟩

/-! ## Offsets -/

section
variable [Segmentation] {text : String} {n : Nat}

theorem joined_take (hij : i ≤ j) : joined ((graphemes text).take j) =
    joined ((graphemes text).take i) ++ joined (((graphemes text).take j).drop i) := by
  have := joined_split ((graphemes text).take j) i
  rwa [take_take, min_eq_left hij] at this

variable [LawfulSegmentation]

theorem split_graphemes (text n) : text.toList =
    joined ((graphemes text).take n) ++ joined ((graphemes text).drop n) := by
  rw [← joined_split, LawfulSegmentation.whole]

theorem graphemeIndex_lt (hij : i < j) (hj : j ≤ graphemeCount text) :
    graphemeIndex text i < graphemeIndex text j := by
  have hi : i < (graphemes text).length := lt_of_lt_of_le hij hj
  have hpos : 0 < size (graphemes text)[i].toList := by
    refine pos_of_ne_zero (fun hzero => ?_)
    exact LawfulSegmentation.nonempty text _ (getElem_mem hi) (eq_nil_of_size_eq_zero hzero)
  have hone := @joined_take i (i + 1) _ text (Nat.le_succ i)
  rw [joined_one hi] at hone
  rw [graphemeIndex, graphemeIndex, joined_take hij, hone, size_append, size_append]
  omega

theorem isGraphemeBoundary_iff : isGraphemeBoundary text b = true ↔
    ∃ n ≤ graphemeCount text, b = graphemeIndex text n := by
  have hall : graphemeIndex text (graphemeCount text) = size text.toList := by
    rw [graphemeIndex, graphemeCount, take_length, LawfulSegmentation.whole]
  simp only [isGraphemeBoundary, Bool.or_eq_true, beq_iff_eq, List.any_eq_true, mem_range]
  constructor
  · rintro ((rfl | rfl) | ⟨n, hn, rfl⟩)
    · exact ⟨0, Nat.zero_le _, rfl⟩
    · exact ⟨_, Nat.le_refl _, hall.symm⟩
    · exact ⟨n, Nat.le_of_lt hn, rfl⟩
  · rintro ⟨n, hn, rfl⟩
    rcases Nat.lt_or_eq_of_le hn with hn | rfl
    · exact .inr ⟨n, hn, rfl⟩
    · exact .inl (.inr hall)

theorem takeBytes_graphemeIndex (text n) : takeBytes (graphemeIndex text n) text.toList =
    some (joined ((graphemes text).take n)) := by
  rw [split_graphemes text n]
  exact takeBytes_size_append _ _

theorem slice_graphemeIndex (hij : i ≤ j) :
    slice (graphemeIndex text i) (graphemeIndex text j) text.toList =
      some (joined (((graphemes text).take j).drop i)) := by
  rw [split_graphemes text j, graphemeIndex, graphemeIndex, joined_take hij, size_append]
  exact slice_append _ _ _

theorem graphemeCount_front (hn : n ≤ graphemeCount text) :
    graphemeCount (String.ofList (joined ((graphemes text).take n))) = n := by
  rw [graphemeCount, LawfulSegmentation.front, length_take]
  exact min_eq_left hn

variable {d : Document} {blockId : BlockId}

/-- What is accepted is a range of graphemes, taken as a range of units. -/
theorem byteRangeToAnchors_eq_ok (hbody : d.textBody blockId = some body)
    (htext : text = paragraphVisibleString body) :
    d.byteRangeToAnchors blockId start stop = some (.ok (first, last)) ↔
      ∃ i j, i < j ∧ j ≤ graphemeCount text ∧ start = graphemeIndex text i ∧
        stop = graphemeIndex text j ∧ graphemeRangeToAnchors body i j = some (first, last) := by
  obtain ⟨block, hblock, hbody⟩ := bind_eq_some_iff.mp hbody
  simp only [Document.byteRangeToAnchors, hblock, hbody, elim_some, ← htext]
  constructor
  · intro h
    split at h
    · cases h
    · next hrange =>
      split at h
      · cases h
      · next hcut =>
        simp only [Bool.or_eq_true, Bool.not_eq_true', not_or, Bool.not_eq_false] at hcut
        obtain ⟨i, hi, rfl⟩ := isGraphemeBoundary_iff.mp hcut.1
        obtain ⟨j, hj, rfl⟩ := isGraphemeBoundary_iff.mp hcut.2
        rw [takeBytes_graphemeIndex, takeBytes_graphemeIndex, bind_some, map_some,
          graphemeCount_front hi, graphemeCount_front hj] at h
        have hij : i < j := by
          by_contra hle
          rcases Nat.lt_or_eq_of_le (Nat.le_of_not_lt hle) with hlt | rfl
          · exact hrange (.inl (le_of_lt (graphemeIndex_lt hlt hi)))
          · exact hrange (.inl (le_refl _))
        refine ⟨i, j, hij, hj, rfl, rfl, ?_⟩
        cases ha : graphemeRangeToAnchors body i j with
        | none => rw [ha] at h; cases h
        | some anchors =>
          rw [ha] at h
          exact congrArg some (Except.ok.inj (some.inj h))
  · rintro ⟨i, j, hij, hj, rfl, rfl, h⟩
    have hi : i ≤ graphemeCount text := le_trans (le_of_lt hij) hj
    have hle : graphemeIndex text j ≤ size text.toList := by
      rw [split_graphemes text j, size_append]
      exact Nat.le_add_right _ _
    have hlt := graphemeIndex_lt hij hj
    have hcut := isGraphemeBoundary_iff.mpr ⟨i, hi, rfl⟩
    have hcut' := isGraphemeBoundary_iff.mpr ⟨j, hj, rfl⟩
    rw [if_neg (by omega), if_neg (by simp [hcut, hcut']), takeBytes_graphemeIndex,
      takeBytes_graphemeIndex, bind_some, map_some, graphemeCount_front hi, graphemeCount_front hj, h]
    rfl

/-- **Byte ranges.** They lead to the units they consist of, all of them, if and only if the
    graphemes of the visible string are the first units of the block. -/
theorem byte_ranges_exact_iff (hbody : d.textBody blockId = some body) (hr : body.Reached) :
    (∀ start stop first last, d.byteRangeToAnchors blockId start stop = some (.ok (first, last)) →
      slice start stop (paragraphVisibleString body).toList =
        some (joined (unitsBetween body first last))) ↔
    graphemes (paragraphVisibleString body) <+: body.iter.map TextUnit.grapheme := by
  constructor
  · intro h
    refine prefix_of_same (LawfulSegmentation.nonempty _)
      ((LawfulSegmentation.whole _).trans (toList_paragraphVisibleString body)) (fun i hi hi' => ?_)
    have hlt := Nat.lt_succ_self i
    obtain ⟨first, last, hrange⟩ := exists_range hlt (by rwa [length_map] at hi')
    have hcut := h _ _ first last
      ((byteRangeToAnchors_eq_ok hbody rfl).mpr ⟨i, i + 1, hlt, hi, rfl, rfl, hrange⟩)
    rw [slice_graphemeIndex (Nat.le_succ i), unitsBetween_of_range hr hlt hrange, joined_one hi,
      joined_one hi'] at hcut
    exact String.toList_inj.mp (some.inj hcut)
  · rintro ⟨rest, hrest⟩ start stop first last h
    obtain ⟨i, j, hij, hj, rfl, rfl, hrange⟩ := (byteRangeToAnchors_eq_ok hbody rfl).mp h
    rw [slice_graphemeIndex (le_of_lt hij), unitsBetween_of_range hr hij hrange, ← hrest,
      take_append_of_le_length hj]

end

section Examples
attribute [local instance] charSegmentation envelopeSerde

theorem charSegmentation_lawful : LawfulSegmentation where
  whole s := by
    show joined (s.toList.map (fun c => String.ofList [c])) = s.toList
    simp [joined, flatMap_map]
  nonempty s g hg := by
    obtain ⟨c, -, rfl⟩ := mem_map.mp hg
    simp
  front s n := by
    show (String.ofList (joined ((s.toList.map (fun c => String.ofList [c])).take n))).toList.map _ =
      (s.toList.map (fun c => String.ofList [c])).take n
    simp [joined, ← map_take, flatMap_map]

/-- A document with the paragraph `abc`. -/
def abcDocument : Document :=
  { Document.new with blocks := Sequence.fromOrdered [(⟨9, 1⟩, boldInitial)] }

theorem byte_ranges_exact_abc : ∃ body, abcDocument.textBody ⟨1, 9⟩ = some body ∧
    ∀ start stop first last,
      abcDocument.byteRangeToAnchors ⟨1, 9⟩ start stop = some (.ok (first, last)) →
      slice start stop (paragraphVisibleString body).toList =
        some (joined (unitsBetween body first last)) := by
  have := charSegmentation_lawful
  refine ⟨_, rfl, (byte_ranges_exact_iff rfl (.fromOrdered (by decide))).mpr ?_⟩
  decide +kernel

/-- A combining accent belongs to the grapheme in front of it. -/
@[reducible] def accentSegmentation : Segmentation where
  graphemes s := (s.toList.foldl (fun graphemes c => match graphemes with
    | g :: rest => if c = '\u0301' then (g ++ [c]) :: rest else [c] :: graphemes
    | [] => [[c]]) []).reverse.map String.ofList

/-- An `e`, and an accent typed behind it. -/
def typedAccent : List Call :=
  [.insertBlockIn none none (.paragraph .new), .insertText ⟨1, 1⟩ 0 "e",
    .insertText ⟨1, 1⟩ 1 "\u0301"]

/-- The accented letter is one grapheme of two units, and its range leads to the first one. -/
theorem accent_left_out :
    let d := (typedAccent.foldl (@after accentSegmentation _) (Session.new 1)).document
    @Document.byteRangeToAnchors accentSegmentation d ⟨1, 1⟩ 0 3 =
      some (.ok (⟨⟨2, 1⟩, .before⟩, ⟨⟨2, 1⟩, .after⟩)) ∧
    (d.textBody ⟨1, 1⟩).map (fun body => (slice 0 3 (paragraphVisibleString body).toList,
      unitsBetween body ⟨⟨2, 1⟩, .before⟩ ⟨⟨2, 1⟩, .after⟩)) =
        some (some ['e', '\u0301'], ["e"]) := by
  decide +kernel

end Examples
end MdCrdt
