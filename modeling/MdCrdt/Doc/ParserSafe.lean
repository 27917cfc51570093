import Mathlib.Algebra.Order.BigOperators.Group.List
import MdCrdt.Doc.InlineSafe
import MdCrdt.Doc.Parser

/- The block parser does not panic, and its blocks tile the lines.

  Slices are at the end of a run of one-byte characters, or in front of what was just
  trimmed off. The loops are over lines: each turn of a list takes a line, or hands on to
  a nested list that takes one (`ListsReturn`), and each turn of the block loop takes the
  lines of a block (`BlockSpan`). What comes out is a list of blocks whose lines follow
  one another and whose ids are taken from the counter one after the other (`Tiles`). -/
namespace MdCrdt
open Lib Lib.Utf8
open List hiding le_of_lt le_trans le_refl lt_irrefl
variable (trimmed : List Char)

/-! ## Lines -/

theorem takeWhileM_returns {A : Type} {p} (hp : ∀ a, Returns (fun _ => True) (p a)) (l : List A) :
    Returns (fun r => r.length ≤ l.length ∧ ∀ a rest, l = a :: rest → p a = some true → r ≠ [])
      (takeWhileM p l) := by
  induction l with
  | nil => exact returns_some ⟨le_refl _, by simp⟩
  | cons a l ih =>
    rw [takeWhileM]
    obtain ⟨b, hb, -⟩ := hp a
    refine returns_bind hb ?_
    cases b with
    | true =>
      refine ih.map (fun r hr => ⟨Nat.succ_le_succ hr.1, fun _ _ _ _ => cons_ne_nil _ _⟩)
    | false =>
      refine returns_some ⟨Nat.zero_le _, fun a' rest heq ht => ?_⟩
      obtain ⟨rfl, -⟩ := List.cons.inj heq
      rw [hb] at ht
      cases ht

theorem exists_append_trimEndMatches (c text) :
    ∃ suffix, text = trimEndMatches c text ++ suffix := by
  refine ⟨(text.reverse.takeWhile (fun d => d = c)).reverse, ?_⟩
  rw [trimEndMatches, ← reverse_append, takeWhile_append_dropWhile, reverse_reverse]

theorem parseTableCells_returns (line) : Returns (fun _ => True) (parseTableCells line) := by
  simp only [parseTableCells]
  split
  · exact returns_some trivial
  · obtain ⟨inner, hinner⟩ : ∃ inner, inner =
        (if (trim line).head? = some '|' then (trim line).tail else trim line) := ⟨_, rfl⟩
    rw [← hinner]
    have hcut : Returns (fun _ => True) (if inner.getLast? = some '|' &&
        (inner.reverse.tail.takeWhile (fun c => c = '\\')).length % 2 = 0 then
          takeBytes (size inner - 1) inner else some inner) := by
      split
      · next hlast =>
        simp only [Bool.and_eq_true, decide_eq_true_eq] at hlast
        obtain ⟨front, hfront⟩ := getLast?_eq_some_iff.mp hlast.1
        have hsize : size inner - 1 = size front := by
          rw [hfront, size_append]
          rfl
        rw [hsize, hfront, takeBytes_size_append]
        exact returns_some trivial
      · exact returns_some trivial
    exact hcut.bind (fun _ _ => returns_some trivial)

theorem parseTableDelimiter_returns (line) : Returns (fun _ => True) (parseTableDelimiter line) :=
  (parseTableCells_returns line).map (fun _ _ => trivial)

theorem stripAtxClosingSequence_returns (text) :
    Returns (fun _ => True) (stripAtxClosingSequence text) := by
  simp only [stripAtxClosingSequence]
  split
  · exact returns_some trivial
  · obtain ⟨suffix, hsuffix⟩ := exists_append_trimEndMatches '#' (trimEnd text)
    have htake : takeBytes (size (trimEndMatches '#' (trimEnd text))) (trimEnd text) =
        some (trimEndMatches '#' (trimEnd text)) :=
      takeBytes_eq_some.mpr ⟨suffix, hsuffix, rfl⟩
    exact returns_bind htake (returns_some trivial)

theorem parseAtxHeading_returns : Returns (fun _ => True) (parseAtxHeading trimmed) := by
  simp only [parseAtxHeading]
  split
  · exact returns_some trivial
  · split
    · exact returns_some trivial
    · refine returns_bind (dropBytes_run (utf8Size_of_eq (c := '#') rfl) (min_le_left _ _)) ?_
      split
      · exact returns_some trivial
      · exact (stripAtxClosingSequence_returns _).bind (fun _ _ => returns_some trivial)

theorem utf8Size_of_isDigit (c : Char) (h : c.isDigit = true) : c.utf8Size = 1 := by
  rw [Char.isDigit, Bool.and_eq_true, decide_eq_true_eq, decide_eq_true_eq] at h
  rw [Char.utf8Size, if_pos]
  exact UInt32.le_trans h.2 (by decide)

theorem orderedMarker_returns : Returns (fun _ => True) (orderedMarker trimmed) := by
  simp only [orderedMarker]
  split
  · exact returns_some trivial
  · refine returns_bind (takeBytes_run utf8Size_of_isDigit (le_refl _)) ?_
    exact returns_bind (dropBytes_run utf8Size_of_isDigit (le_refl _)) (returns_some trivial)

theorem isListStart_returns : Returns (fun _ => True) (isListStart trimmed) := by
  unfold isListStart
  split
  · exact returns_some trivial
  · exact (orderedMarker_returns trimmed).map (fun _ _ => trivial)

theorem utf8Size_fenceChar (marker) : (fenceChar marker).utf8Size = 1 := by
  cases marker <;> rfl

theorem parseFenceOpen_returns : Returns (fun _ => True) (parseFenceOpen trimmed) := by
  unfold parseFenceOpen
  split
  · exact returns_some trivial
  · next marker _ =>
    simp only
    split
    · exact returns_some trivial
    · refine returns_bind (dropBytes_run (utf8Size_of_eq (utf8Size_fenceChar marker)) (le_refl _)) ?_
      split
      · exact returns_some trivial
      · exact returns_some trivial

theorem isFenceClose_returns (style) : Returns (fun _ => True) (isFenceClose trimmed style) := by
  simp only [isFenceClose]
  split
  · exact returns_some trivial
  · rw [dropBytes_run (utf8Size_of_eq (utf8Size_fenceChar style.marker)) (le_refl _)]
    exact returns_some trivial

theorem interruptsParagraph_returns : Returns (fun _ => True) (interruptsParagraph trimmed) := by
  unfold interruptsParagraph
  split
  · exact returns_some trivial
  · refine (parseFenceOpen_returns trimmed).bind (fun fence _ => ?_)
    split
    · exact returns_some trivial
    · refine (parseAtxHeading_returns trimmed).bind (fun heading _ => ?_)
      split
      · exact returns_some trivial
      · exact isListStart_returns trimmed

theorem tableAt_returns (lines index line) :
    Returns (fun r => r.isSome → index + 1 < lines.length) (tableAt lines index line) := by
  unfold tableAt
  split
  · exact returns_some (by simp)
  · next next hnext =>
    have hlt : index + 1 < lines.length := (List.getElem?_eq_some_iff.mp hnext).1
    refine (parseTableDelimiter_returns next).bind (fun columns _ => ?_)
    cases columns with
    | none => exact returns_some (fun _ => hlt)
    | some columns =>
      refine (parseTableCells_returns line).bind (fun header _ => ?_)
      cases header with
      | none | some header => exact returns_some (fun _ => hlt)

/-! ## Lists -/

theorem itemBody_returns (style trimmed) : Returns (fun _ => True) (itemBody style trimmed) := by
  unfold itemBody
  split
  · exact (orderedMarker_returns trimmed).map (fun _ _ => trivial)
  · exact returns_some trivial

/-- The first line of a list opens an item of it. -/
theorem listStyleOf_returns (h : isListStart first = some true) :
    Returns (fun style => ∃ body, itemBody style first = some (some body)) (listStyleOf first) := by
  obtain ⟨marker, hmarker, -⟩ := orderedMarker_returns first
  refine returns_bind hmarker ?_
  cases marker with
  | some marker =>
    obtain ⟨start, delimiter, body⟩ := marker
    exact returns_some ⟨body, by simp [itemBody, hmarker]⟩
  | none =>
    have hbullet : (unorderedMarker first).isSome = true := by
      by_contra hnone
      rw [isListStart, if_neg hnone, hmarker] at h
      cases h
    obtain ⟨⟨bullet, body⟩, hb⟩ := Option.isSome_iff_exists.mp hbullet
    exact returns_some ⟨body, by simp [itemBody, hb, ListStyle.default]⟩

theorem not_isEmpty_of_isListStart {trimmed} (h : isListStart trimmed = some true) :
    trimmed.isEmpty = false := by
  cases trimmed with
  | nil => exact absurd h (by decide)
  | cons c rest => rfl

section
variable [Segmentation] {line : List Char} {index : Nat}

theorem pushListParagraph_returns (children lines counter) :
    Returns (fun r => counter ≤ r.2) (pushListParagraph children lines counter) := by
  unfold pushListParagraph
  split
  · exact returns_some (le_refl _)
  · refine (parseTextBlock_returns _ _ _ _).bind (fun r hr => returns_some ?_)
    exact le_trans (Nat.le_succ _) hr.1

/-- The lines a block takes and the id it gets: some lines from `index` on, and an id from the
    counter on. -/
structure BlockSpan (lines : List (List Char)) (index counter : Nat) (r : Block × Nat × Nat) :
    Prop where
  forward : index < r.2.1
  bound : r.2.1 ≤ lines.length
  fresh : ∃ k, counter ≤ k ∧ k < r.2.2 ∧ r.1.id = blockIdFromOp ⟨k, 0⟩

/-- A loop has gone on from line `i` and counter `c`. -/
structure Advanced (lines : List (List Char)) (i c i' c' : Nat) : Prop where
  line : i ≤ i'
  bound : i' ≤ lines.length
  counter : c ≤ c'

/-- The turns that are enough for a list, for its items and for the lines of an item: three for
    each line that is left, as a line may open a nested list and its first item. -/
structure ListsReturn (lines : List (List Char)) (turns : Nat) : Prop where
  list : ∀ (index counter : Nat) (line : List Char), lines[index]? = some line →
    isListStart (trim line) = some true → 3 * (lines.length - index) + 2 ≤ turns →
    Returns (BlockSpan lines index counter) (parseList turns lines index counter (indentOf line))
  items : ∀ (baseIndent : Nat) (style : ListStyle) (state : ListState), state.i ≤ lines.length →
    3 * (lines.length - state.i) + 1 ≤ turns →
    Returns (fun state' => Advanced lines state.i state.counter state'.i state'.counter)
      (itemsLoop turns lines baseIndent style state)
  firstItem : ∀ (style : ListStyle) (state : ListState) (line body : List Char),
    lines[state.i]? = some line → (trim line).isEmpty = false →
    itemBody style (trim line) = some (some body) →
    3 * (lines.length - state.i) + 1 ≤ turns →
    Returns (fun state' => Advanced lines (state.i + 1) state.counter state'.i state'.counter)
      (itemsLoop turns lines (indentOf line) style state)
  item : ∀ (baseIndent : Nat) (state : ItemState), state.i ≤ lines.length →
    3 * (lines.length - state.i) + 3 ≤ turns →
    Returns (fun state' => Advanced lines state.i state.counter state'.i state'.counter)
      (continuationLoop turns lines baseIndent state)

variable {lines : List (List Char)} {turns : Nat}

omit [Segmentation] in
theorem lt_length_of_getElem? (h : lines[i]? = some line) :
    i < lines.length := (List.getElem?_eq_some_iff.mp h).1

section
variable (ih : ListsReturn lines turns)
include ih

theorem parseList_returns (index counter line)
    (hline : lines[index]? = some line) (hstart : isListStart (trim line) = some true)
    (hturns : 3 * (lines.length - index) + 2 ≤ turns + 1) : Returns (BlockSpan lines index counter)
      (parseList (turns + 1) lines index counter (indentOf line)) := by
  rw [parseList]
  refine returns_bind hline ?_
  refine (listStyleOf_returns hstart).bind (fun style hstyle => ?_)
  obtain ⟨body, hbody⟩ := hstyle
  refine (ih.firstItem style ⟨false, [], index, counter⟩ line body hline
    (not_isEmpty_of_isListStart hstart) hbody (by simp only; omega)).bind (fun state hstate => ?_)
  exact returns_some ⟨hstate.line, hstate.bound, state.counter, hstate.counter,
    Nat.lt_succ_self _, rfl⟩

theorem itemsLoop_item_returns (style state line body) (hline : lines[state.i]? = some line)
    (hne : (trim line).isEmpty = false) (hbody : itemBody style (trim line) = some (some body))
    (hturns : 3 * (lines.length - state.i) + 1 ≤ turns + 1) :
    Returns (fun state' => Advanced lines (state.i + 1) state.counter state'.i state'.counter)
      (itemsLoop (turns + 1) lines (indentOf line) style state) := by
  have hlt := lt_length_of_getElem? hline
  rw [itemsLoop]
  simp only [hline, hne, Bool.false_eq_true, if_false, lt_irrefl]
  refine returns_bind hbody ?_
  refine (ih.item _ ⟨state.loose, [], _, state.i + 1, state.counter + 1⟩ hlt
    (by simp only; omega)).bind (fun item hitem => ?_)
  refine (pushListParagraph_returns _ _ _).bind (fun pushed hpushed => ?_)
  have hi : state.i + 1 ≤ item.i := hitem.line
  refine (ih.items _ style ⟨item.loose, _, item.i, pushed.2⟩ hitem.bound
    (by simp only; omega)).mono (fun state' h => ?_)
  exact ⟨le_trans hitem.line h.line, h.bound,
    le_trans (Nat.le_succ _) (le_trans hitem.counter (le_trans hpushed h.counter))⟩

theorem itemsLoop_returns (baseIndent style state) (hi : state.i ≤ lines.length)
    (hturns : 3 * (lines.length - state.i) + 1 ≤ turns + 1) :
    Returns (fun state' => Advanced lines state.i state.counter state'.i state'.counter)
      (itemsLoop (turns + 1) lines baseIndent style state) := by
  have hstay : Returns (fun state' : ListState =>
      Advanced lines state.i state.counter state'.i state'.counter) (some state) :=
    returns_some ⟨le_refl _, hi, le_refl _⟩
  cases hline : lines[state.i]? with
  | none =>
    rw [itemsLoop]
    simp only [hline]
    exact hstay
  | some line =>
    have hlt := lt_length_of_getElem? hline
    cases hne : (trim line).isEmpty with
    | true =>
      rw [itemsLoop]
      simp only [hline, hne, if_true]
      split
      · exact hstay
      · next next _ =>
        refine (itemBody_returns style (trim next)).bind (fun sameList _ => ?_)
        split
        · refine (ih.items baseIndent style { state with loose := true, i := state.i + 1 } hlt
            (by simp only; omega)).mono (fun state' h => ?_)
          exact ⟨le_trans (Nat.le_succ _) h.line, h.bound, h.counter⟩
        · exact hstay
    | false =>
      obtain ⟨body, hbody, -⟩ := itemBody_returns style (trim line)
      by_cases hindent : indentOf line = baseIndent
      · cases body with
        | none =>
          rw [itemsLoop]
          simp only [hline, hne, Bool.false_eq_true, if_false, hindent, lt_irrefl]
          exact returns_bind hbody hstay
        | some body =>
          rw [← hindent]
          refine (itemsLoop_item_returns ih style state line body hline hne hbody hturns).mono
            (fun state' h => ?_)
          exact ⟨le_trans (Nat.le_succ _) h.line, h.bound, h.counter⟩
      · rw [itemsLoop]
        simp only [hline, hne, Bool.false_eq_true, if_false]
        split
        · exact hstay
        · refine returns_bind hbody ?_
          cases body with
          | none => exact hstay
          | some body =>
            simp only
            rw [if_pos (by omega)]
            exact hstay

theorem continuationLoop_returns (baseIndent state) (hi : state.i ≤ lines.length)
    (hturns : 3 * (lines.length - state.i) + 3 ≤ turns + 1) :
    Returns (fun state' => Advanced lines state.i state.counter state'.i state'.counter)
      (continuationLoop (turns + 1) lines baseIndent state) := by
  have hstay : Returns (fun state' : ItemState =>
      Advanced lines state.i state.counter state'.i state'.counter) (some state) :=
    returns_some ⟨le_refl _, hi, le_refl _⟩
  -- going on from a later line
  have hnext : ∀ next, state.i < next.i → next.i ≤ lines.length →
      state.counter ≤ next.counter →
      Returns (fun state' : ItemState =>
        Advanced lines state.i state.counter state'.i state'.counter)
        (continuationLoop turns lines baseIndent next) := by
    intro next hlt hle hcounter
    refine (ih.item baseIndent next hle (by omega)).mono (fun state' h => ?_)
    exact ⟨le_trans (le_of_lt hlt) h.line, h.bound, le_trans hcounter h.counter⟩
  rw [continuationLoop]
  split
  · exact hstay
  · next line hline =>
    have hlt := lt_length_of_getElem? hline
    simp only
    split
    · split
      · exact hstay
      · next next _ =>
        split
        · refine (isListStart_returns (trim next)).bind (fun nested _ => ?_)
          have hpush : Returns (fun r => state.counter ≤ r.2)
              (if nested = true then some (state.children, state.counter)
                else pushListParagraph state.children state.paragraph state.counter) := by
            split
            · exact returns_some (le_refl _)
            · exact pushListParagraph_returns _ _ _
          exact hpush.bind (fun pushed hpushed => hnext _ (Nat.lt_succ_self _) hlt hpushed)
        · exact hstay
    · split
      · obtain ⟨nested, hnested, -⟩ := isListStart_returns (trim line)
        refine returns_bind hnested ?_
        cases nested with
        | true =>
          refine (pushListParagraph_returns _ _ _).bind (fun pushed hpushed => ?_)
          refine (ih.list state.i pushed.2 line hline hnested (by omega)).bind (fun r hr => ?_)
          obtain ⟨k, hk, hlt', -⟩ := hr.fresh
          exact hnext _ hr.forward hr.bound (le_trans hpushed (le_trans hk (le_of_lt hlt')))
        | false => exact hnext _ (Nat.lt_succ_self _) hlt (le_refl _)
      · exact hstay

end

theorem lists_return (lines turns) : ListsReturn lines turns := by
  induction turns with
  | zero =>
    refine ⟨?_, ?_, ?_, ?_⟩
    all_goals intros; omega
  | succ turns ih =>
    exact ⟨parseList_returns ih, itemsLoop_returns ih, itemsLoop_item_returns ih,
      continuationLoop_returns ih⟩

/-! ## Blocks -/

section
omit [Segmentation]

theorem le_tableColumns (columns table after counter) :
    counter ≤ (tableColumns columns table after counter).2 := by
  induction columns generalizing table after counter with
  | nil => exact le_refl _
  | cons column rest ih =>
    obtain ⟨column, header⟩ := column
    exact le_trans (Nat.le_succ _) (ih _ _ _)

theorem tableRows_returns (columnIds rows table after counter) : Returns
    (fun r => r.2.1 ≤ rows.length ∧ counter ≤ r.2.2)
      (tableRows columnIds rows table after counter) := by
  induction rows generalizing table after counter with
  | nil => exact returns_some ⟨le_refl _, le_refl _⟩
  | cons line rest ih =>
    rw [tableRows]
    refine (parseTableCells_returns line).bind (fun cells _ => ?_)
    cases cells with
    | none => exact returns_some ⟨Nat.zero_le _, le_refl _⟩
    | some cells =>
      refine (ih _ _ _).bind (fun r hr => returns_some ⟨Nat.succ_le_succ hr.1, ?_⟩)
      exact le_trans (Nat.le_succ _) hr.2

theorem parseTable_returns (index columns) (header : List (List Char))
    (counter) (hlt : index + 1 < lines.length) :
    Returns (BlockSpan lines index counter) (parseTable lines index columns header counter) := by
  unfold parseTable
  have hcolumns := le_tableColumns (columns.zip header)
    (Table.new (blockIdFromOp ⟨counter, 0⟩) ⟨counter, 0⟩ ⟨counter, 0⟩) none (counter + 1)
  refine (tableRows_returns _ _ _ _ _).bind (fun r hr => returns_some ?_)
  have hrows : r.2.1 ≤ lines.length - (index + 2) := by
    rw [← length_drop]
    exact hr.1
  refine ⟨?_, ?_, counter, le_refl _, le_trans hcolumns hr.2, rfl⟩
  · exact Nat.lt_of_lt_of_le (Nat.lt_add_of_pos_right (by decide)) (Nat.le_add_right _ _)
  · change index + 2 + r.2.1 ≤ lines.length
    omega

theorem parseFence_returns (index style codeInfo counter) (hlt : index < lines.length) :
    Returns (BlockSpan lines index counter) (parseFence lines index style codeInfo counter) := by
  unfold parseFence
  have hclose : ∀ line, Returns (fun _ => True) ((isFenceClose (trim line) style).map not) :=
    fun line => (isFenceClose_returns _ _).map (fun _ _ => trivial)
  refine (takeWhileM_returns hclose _).bind (fun contents _ => returns_some ?_)
  exact ⟨by simp only; omega, min_le_right _ _, counter, le_refl _, Nat.lt_succ_self _, rfl⟩

theorem getElem?_eq_head_drop (h : lines[index]? = some line) :
    lines.drop index = line :: lines.drop (index + 1) := by
  obtain ⟨hlt, heq⟩ := List.getElem?_eq_some_iff.mp h
  rw [drop_eq_getElem_cons hlt, heq]

/-- A blockquote takes its first line. -/
theorem quotedLines_length (hline : lines[index]? = some line)
    (hmark : ['>'].isPrefixOf (trim line) = true) : 0 < (quotedLines lines index).length ∧
      (quotedLines lines index).length ≤ lines.length - index := by
  constructor
  · have hfirst : quotedLines lines index = line :: quotedLines lines (index + 1) := by
      rw [quotedLines, getElem?_eq_head_drop hline, takeWhile_cons, if_pos hmark]
      rfl
    rw [hfirst]
    exact Nat.succ_pos _
  · rw [← length_drop]
    exact (takeWhile_sublist _).length_le

theorem parseQuote_returns (counter) (hline : lines[index]? = some line)
    (hmark : ['>'].isPrefixOf (trim line) = true)
    (hblocks : Returns (fun r => counter ≤ r.2) (parseBlocks ((quotedLines lines index).map unquote) counter)) :
    Returns (BlockSpan lines index counter) (parseQuote parseBlocks lines index counter) := by
  unfold parseQuote
  have hlt := lt_length_of_getElem? hline
  obtain ⟨hpos, hle⟩ := quotedLines_length hline hmark
  refine hblocks.bind (fun r hr => returns_some ?_)
  exact ⟨by simp only; omega, by simp only; omega, r.2, hr, Nat.lt_succ_self _, rfl⟩

theorem parseRaw_span (index line counter) (hlt : index < lines.length) :
    BlockSpan lines index counter (parseRaw lines index line counter) := by
  have hle : ((lines.drop (index + 1)).takeWhile (fun line => !isBlank line)).length ≤
      lines.length - (index + 1) := by
    rw [← length_drop]
    exact (takeWhile_sublist _).length_le
  refine ⟨?_, ?_, counter, le_refl _, Nat.lt_succ_self _, rfl⟩
  · simp only [parseRaw, length_cons]
    omega
  · simp only [parseRaw, length_cons]
    omega

end

theorem parseHeading_returns (level title) {next} (counter)
    (hlt : index < next) (hle : next ≤ lines.length) :
    Returns (BlockSpan lines index counter) (parseHeading level title next counter) := by
  unfold parseHeading
  refine (parseTextBlock_returns _ _ _ _).bind (fun r hr => returns_some ?_)
  exact ⟨hlt, hle, counter, le_refl _, hr.1, hr.2⟩

/-- A paragraph takes its first line, as none of the tests that end one holds there. -/
theorem parseParagraph_returns (counter) (hline : lines[index]? = some line)
    (hgoes : interruptsParagraph (trim line) = some false) :
    Returns (BlockSpan lines index counter) (parseParagraph lines index counter) := by
  unfold parseParagraph
  have hlt := lt_length_of_getElem? hline
  have hinterrupts : ∀ line, Returns (fun _ => True) ((interruptsParagraph (trim line)).map not) :=
    fun line => (interruptsParagraph_returns _).map (fun _ _ => trivial)
  refine (takeWhileM_returns hinterrupts _).bind (fun paragraph hparagraph => ?_)
  refine (parseTextBlock_returns _ _ _ _).bind (fun r hr => returns_some ?_)
  have hpos : 0 < paragraph.length :=
    length_pos_of_ne_nil (hparagraph.2 _ _ (getElem?_eq_head_drop hline) (by rw [hgoes]; rfl))
  have hle := hparagraph.1
  rw [length_drop] at hle
  exact ⟨by simp only; omega, by simp only; omega, counter, le_refl _, hr.1, hr.2⟩

omit [Segmentation] in
theorem setextLevel_lt (h : setextLevel lines index = some level) : index + 2 ≤ lines.length := by
  obtain ⟨next, hnext, -⟩ := Option.bind_eq_some_iff.mp h
  exact lt_length_of_getElem? hnext

theorem parseBlock_returns
    (counter) (hline : lines[index]? = some line) (hblank : isBlank line = false)
    (hblocks : ['>'].isPrefixOf (trim line) = true → Returns (fun r => counter ≤ r.2) (parseBlocks ((quotedLines lines index).map unquote) counter)) :
    Returns (BlockSpan lines index counter) (parseBlock parseBlocks lines index line counter) := by
  have hlt := lt_length_of_getElem? hline
  unfold parseBlock
  obtain ⟨fence, hfence, -⟩ := parseFenceOpen_returns (trim line)
  refine returns_bind hfence ?_
  cases fence with
  | some fence => exact parseFence_returns index fence.1 fence.2 counter hlt
  | none =>
    simp only
    split
    · next hmark => exact parseQuote_returns counter hline hmark (hblocks hmark)
    next hquote =>
    split
    · exact returns_some (parseRaw_span index line counter hlt)
    next hraw =>
    refine (tableAt_returns lines index line).bind (fun table htable => ?_)
    cases table with
    | some table => exact parseTable_returns index table.1 table.2 counter (htable rfl)
    | none =>
      obtain ⟨heading, hheading, -⟩ := parseAtxHeading_returns (trim line)
      refine returns_bind hheading ?_
      cases heading with
      | some heading => exact parseHeading_returns _ _ counter (Nat.lt_succ_self _) hlt
      | none =>
        obtain ⟨start, hstart, -⟩ := isListStart_returns (trim line)
        refine returns_bind hstart ?_
        cases start with
        | true => exact (lists_return lines _).list index counter line hline hstart (by omega)
        | false =>
          cases hsetext : setextLevel lines index with
          | some level =>
            exact parseHeading_returns _ _ counter (by omega) (setextLevel_lt hsetext)
          | none =>
            refine parseParagraph_returns counter hline ?_
            rw [isBlank] at hblank
            simp [interruptsParagraph, hblank, hfence, hquote, hraw, hheading, hstart]

/-! ## The lines a run takes -/

/-- Blocks whose lines follow one another from line `i` on, and whose ids follow one another from
    counter `c` on up to below the last counter. -/
inductive Tiles (length : Nat) : Nat → Nat → List (Block × LineSpan) → Nat → Prop
  | nil {i c c'} : c ≤ c' → Tiles length i c [] c'
  | cons {i c k next c' block span rest} :
      i ≤ span.start → span.start < span.stop → span.stop ≤ length → c ≤ k → k < next →
      block.id = blockIdFromOp ⟨k, 0⟩ → Tiles length span.stop next rest c' →
      Tiles length i c ((block, span) :: rest) c'

section
omit [Segmentation]

theorem Tiles.counter_le {length i c c' blocks} (h : Tiles length i c blocks c') : c ≤ c' := by
  induction h with
  | nil hle => exact hle
  | cons _ _ _ hk hlt _ _ ih => exact le_trans hk (le_trans (le_of_lt hlt) ih)

/-- Blocks from a later line on are blocks from an earlier one on. -/
theorem Tiles.of_le {length i i' c c' blocks}
    (h : Tiles length i' c blocks c') (hle : i ≤ i') : Tiles length i c blocks c' := by
  cases h with
  | nil hc => exact .nil hc
  | cons hi hspan hbound hk hlt hid hrest =>
    exact .cons (le_trans hle hi) hspan hbound hk hlt hid hrest

theorem weight_cons (line rest) : weight (line :: rest) = line.length + 1 + weight rest := by
  simp [weight]

theorem weight_le_of_sublist (h : l.Sublist l') : weight l ≤ weight l' :=
  Sublist.sum_le_sum (h.map _) (fun _ _ => Nat.zero_le _)

theorem weight_drop_lt {next} (hline : lines[index]? = some line) (hlt : index < next) :
    weight (lines.drop next) < weight (lines.drop index) := by
  have hle : weight (lines.drop next) ≤ weight (lines.drop (index + 1)) :=
    weight_le_of_sublist (drop_sublist_drop_left _ hlt)
  rw [getElem?_eq_head_drop hline, weight_cons]
  omega

theorem length_trim_le (text) : (trim text).length ≤ text.length := by
  have hstart : (trimStart text).length ≤ text.length := (dropWhile_sublist _).length_le
  have hend : (trim text).length ≤ (trimStart text).length := by
    rw [trim, trimEnd, length_reverse, ← @length_reverse _ (trimStart text)]
    exact (dropWhile_sublist _).length_le
  exact le_trans hend hstart

/-- A quoted line is shorter without its marks. -/
theorem length_unquote_lt (hmark : ['>'].isPrefixOf (trim line) = true) :
    (unquote line).length < line.length := by
  have hle := length_trim_le line
  obtain ⟨rest, hrest⟩ := isPrefixOf_iff_prefix.mp hmark
  have hdrop : (trimStartMatches '>' (trim line)).length ≤ rest.length := by
    rw [← hrest]
    exact (dropWhile_sublist (l := rest) _).length_le
  have hstart : (unquote line).length ≤ (trimStartMatches '>' (trim line)).length :=
    (dropWhile_sublist _).length_le
  rw [← hrest, length_append] at hle
  simp only [length_singleton] at hle
  omega

theorem weight_map_unquote (hmark : ∀ line ∈ quoted, ['>'].isPrefixOf (trim line) = true) :
    weight (quoted.map unquote) + quoted.length ≤ weight quoted := by
  induction quoted with
  | nil => exact le_refl _
  | cons line rest ih =>
    have hline := length_unquote_lt (hmark line (mem_cons_self ..))
    have hrest := ih (fun line hmem => hmark line (mem_cons_of_mem _ hmem))
    rw [map_cons, weight_cons, weight_cons, length_cons]
    omega

theorem weight_quoted_lt (hline : lines[index]? = some line)
    (hmark : ['>'].isPrefixOf (trim line) = true) :
    weight ((quotedLines lines index).map unquote) < weight (lines.drop index) := by
  have hunquoted : weight ((quotedLines lines index).map unquote) +
      (quotedLines lines index).length ≤ weight (quotedLines lines index) :=
    weight_map_unquote (fun line hmem => mem_takeWhile_imp
      (p := fun line => ['>'].isPrefixOf (trim line)) hmem)
  have hquoted : weight (quotedLines lines index) ≤ weight (lines.drop index) :=
    weight_le_of_sublist (takeWhile_sublist _)
  have hpos := (quotedLines_length hline hmark).1
  omega

end

/-- Turns above the weight of the lines are enough for the parser, and its blocks tile them. -/
theorem parseBlocksWithSpans_returns (turns lines index counter)
    (hturns : weight (lines.drop index) < turns) :
    Returns (fun r => Tiles lines.length index counter r.1 r.2)
      (parseBlocksWithSpans turns lines index counter) := by
  induction turns generalizing lines index counter with
  | zero => omega
  | succ turns ih =>
    rw [parseBlocksWithSpans]
    cases hline : lines[index]? with
    | none => exact returns_some (.nil (le_refl _))
    | some line =>
      simp only
      split
      · have hless := weight_drop_lt hline (Nat.lt_add_one index)
        exact (ih lines (index + 1) counter (by omega)).mono (fun r hr => hr.of_le (Nat.le_succ _))
      · next hblank =>
        have hquote : ['>'].isPrefixOf (trim line) = true → Returns (fun r => counter ≤ r.2)
            ((parseBlocksWithSpans turns ((quotedLines lines index).map unquote) 0 counter).map
              (fun r => (r.1.map Prod.fst, r.2))) := by
          intro hmark
          have hless := weight_quoted_lt hline hmark
          exact (ih _ 0 counter (by rw [drop_zero]; omega)).map (fun r hr => hr.counter_le)
        refine (parseBlock_returns counter hline (by simpa using hblank) hquote).bind
          (fun r hr => ?_)
        have hless := weight_drop_lt hline hr.forward
        refine (ih lines r.2.1 r.2.2 (by omega)).bind (fun rest hrest => returns_some ?_)
        obtain ⟨k, hk, hlt, hid⟩ := hr.fresh
        exact .cons (le_refl _) hr.forward hr.bound hk hlt hid hrest

end
end MdCrdt
