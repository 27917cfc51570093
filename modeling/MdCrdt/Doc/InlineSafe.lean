import MdCrdt.Doc.Inline
import MdCrdt.Lib.Returns

/- Reading inline Markdown does not panic.

  Every position the reader slices at is the end of a list of characters it has just
  found in the text: the text in front of a closing delimiter (`findUnescaped_returns`),
  a mark with both its delimiters (`Marked`), a link with its brackets (`Linked`). With
  that, each slice is one of the splits of `Lib.Utf8`, and what is left to read gets
  shorter with every turn, so that the turns are enough. -/
namespace MdCrdt
open Lib Lib.Utf8 Option
open List hiding le_trans le_refl
variable {needle : List Char}

/-! ## Closing delimiters -/

/-- `needle` stands in `input` at a position. -/
def StandsAt (needle input : List Char) (position : Nat) : Prop :=
  ∃ p q, input = p ++ needle ++ q ∧ size p = position

theorem isEscaped_returns (p q) : Returns (fun _ => True) (isEscaped (p ++ q) (size p)) := by
  rw [isEscaped, takeBytes_size_append]
  exact returns_some trivial

theorem findUnescapedLoop_returns (hn : needle ≠ []) : ∀ turns p q, size q < turns →
      Returns (fun r => ∀ position, r = some position →
        size p ≤ position ∧ StandsAt needle (p ++ q) position)
        (findUnescapedLoop (p ++ q) needle turns (size p)) := by
  intro turns
  induction turns with
  | zero => exact fun p q h => absurd h (Nat.not_lt_zero _)
  | succ turns ih =>
    intro p q hq
    rw [findUnescapedLoop]
    refine returns_bind (dropBytes_size_append p q) ?_
    split
    · exact returns_some (by simp)
    · next relative hfind =>
      obtain ⟨a, b, rfl, rfl⟩ := find_eq_some hfind
      have hsplit : p ++ (a ++ needle ++ b) = (p ++ a) ++ (needle ++ b) := by simp
      have hescaped : Returns (fun _ => True)
          (isEscaped (p ++ (a ++ needle ++ b)) (size p + size a)) := by
        rw [hsplit, ← size_append]
        exact isEscaped_returns _ _
      refine hescaped.bind (fun escaped _ => ?_)
      cases escaped with
      | true =>
        have hpos : 0 < size needle :=
          pos_of_ne_zero (fun h => hn (eq_nil_of_size_eq_zero h))
        have hlt : size b < turns := by
          simp only [size_append] at hq
          omega
        have hrest := ih (p ++ a ++ needle) b hlt
        have hinput : p ++ a ++ needle ++ b = p ++ (a ++ needle ++ b) := by simp
        rw [hinput, size_append, size_append] at hrest
        exact hrest.mono (fun r hr position h => ⟨le_trans (by omega) (hr position h).1,
          (hr position h).2⟩)
      | false =>
        refine returns_some (fun position h => ?_)
        obtain rfl := some.inj h
        exact ⟨Nat.le_add_right _ _, p ++ a, b, by simp, size_append p a⟩

theorem findUnescaped_returns (hn : needle ≠ []) (p q) :
    Returns (fun r => ∀ position, r = some position →
      size p ≤ position ∧ StandsAt needle (p ++ q) position)
      (findUnescaped (p ++ q) needle (size p)) :=
  findUnescapedLoop_returns hn _ p q (by rw [size_append]; omega)

theorem findUnescaped_returns_zero (hn : needle ≠ []) (input) :
    Returns (fun r => ∀ position, r = some position → StandsAt needle input position)
      (findUnescaped input needle 0) :=
  (findUnescaped_returns hn [] input).mono (fun _ hr position h => (hr position h).2)

theorem findBoldClose_returns (input) :
    Returns (fun r => ∀ position, r = some position → StandsAt ['*', '*'] input position)
      (findBoldClose input ['*', '*']) := by
  refine (findUnescaped_returns_zero (by simp) input).bind (fun r hr => ?_)
  cases r with
  | none => exact returns_some (by simp)
  | some position =>
    obtain ⟨p, q, rfl, rfl⟩ := hr position rfl
    have hdrop : dropBytes (size p) (p ++ ['*', '*'] ++ q) = some (['*', '*'] ++ q) := by
      rw [append_assoc, dropBytes_size_append]
    have htake : takeBytes (size p) (p ++ ['*', '*'] ++ q) = some p := by
      rw [append_assoc, takeBytes_size_append]
    refine returns_bind hdrop ?_
    split
    · next hthree =>
      -- a third star: the delimiter may start one star later
      refine returns_bind htake ?_
      obtain ⟨q', hq'⟩ := isPrefixOf_iff_prefix.mp hthree
      have hq : q = '*' :: q' := by simpa using hq'.symm
      refine returns_some (fun position h => ?_)
      obtain rfl := some.inj h
      split
      · refine ⟨p ++ ['*'], q', by rw [hq]; simp, ?_⟩
        rw [size_append]
        rfl
      · exact ⟨p, q, rfl, rfl⟩
    · refine returns_some (fun position h => ?_)
      obtain rfl := some.inj h
      exact ⟨p, q, rfl, rfl⟩

theorem findItalicClose_returns : ∀ turns p q, size q < turns →
    Returns (fun r => ∀ position, r = some position → StandsAt ['*'] (p ++ q) position)
      (findItalicClose (p ++ q) turns (size p)) := by
  intro turns
  induction turns with
  | zero => exact fun p q h => absurd h (Nat.not_lt_zero _)
  | succ turns ih =>
    intro p q hq
    rw [findItalicClose]
    refine (findUnescaped_returns (by simp) p q).bind (fun r hr => ?_)
    cases r with
    | none => exact returns_some (by simp)
    | some position =>
      obtain ⟨hle, a, b, hsplit, rfl⟩ := hr position rfl
      have hdrop : dropBytes (size a) (p ++ q) = some ('*' :: b) := by
        rw [hsplit, append_assoc, dropBytes_size_append]
        rfl
      have hhere : ∀ position, some (size a) = some position → StandsAt ['*'] (p ++ q) position := by
        intro position h
        obtain rfl := some.inj h
        exact ⟨a, b, hsplit, rfl⟩
      refine returns_bind hdrop ?_
      split
      · next htwo =>
        obtain ⟨c, hc⟩ := isPrefixOf_iff_prefix.mp htwo
        have hb : b = '*' :: c := by simpa using hc.symm
        have hnested : p ++ q = (a ++ ['*', '*']) ++ c := by
          rw [hsplit, hb]
          simp
        have hsize : size a + 2 = size (a ++ ['*', '*']) := by
          rw [size_append]
          rfl
        rw [hsize, hnested]
        refine returns_bind (dropBytes_size_append _ c) ?_
        refine (findBoldClose_returns c).bind (fun nestedEnd hend => ?_)
        cases nestedEnd with
        | none => exact returns_some (hnested ▸ hhere)
        | some nestedEnd =>
          obtain ⟨d, e, rfl, rfl⟩ := hend nestedEnd rfl
          have hinput : a ++ ['*', '*'] ++ (d ++ ['*', '*'] ++ e) =
              (a ++ ['*', '*'] ++ d ++ ['*', '*']) ++ e := by simp
          have hfrom : size (a ++ ['*', '*']) + size d + 2 =
              size (a ++ ['*', '*'] ++ d ++ ['*', '*']) := by
            rw [size_append (a ++ ['*', '*'] ++ d), size_append _ d]
            rfl
          have hlt : size e < turns := by
            have := congrArg size hsplit
            rw [hb] at this
            simp only [size_append, size_cons, size_nil] at this
            have := Char.utf8Size_pos '*'
            omega
          simp only
          rw [hinput, hfrom]
          exact ih _ e hlt
      · exact returns_some hhere

/-- The delimiters the reader knows, with a closing partner that is not empty. -/
theorem delimiterAt_cases (h : delimiterAt input = some (opening, closing, kind)) :
    opening.isPrefixOf input = true ∧ opening ≠ [] ∧ closing ≠ [] ∧
      ∀ inner, Returns (fun r => ∀ position, r = some position → StandsAt closing inner position)
        (findClosingDelimiter inner closing kind) := by
  unfold delimiterAt at h
  split at h
  · next hp =>
    obtain ⟨rfl, rfl, rfl⟩ := by simpa using h
    exact ⟨hp, by simp, by simp, findBoldClose_returns⟩
  · split at h
    · next hp =>
      obtain ⟨rfl, rfl, rfl⟩ := by simpa using h
      exact ⟨hp, by simp, by simp,
        fun inner => findItalicClose_returns _ [] inner (Nat.lt_succ_self _)⟩
    · split at h
      · next hp =>
        obtain ⟨rfl, rfl, rfl⟩ := by simpa using h
        exact ⟨hp, by simp, by simp, findUnescaped_returns_zero (by simp)⟩
      · cases h

/-! ## Marks and links -/

/-- A mark at the front of the text: an opening delimiter, the content, a closing delimiter. -/
structure Marked (rest opening closing content behind : List Char) : Prop where
  split : rest = opening ++ content ++ closing ++ behind
  opens : opening ≠ []
  closes : closing ≠ []

theorem markAt_returns (rest) : Returns (fun r => ∀ opening closing kind relativeEnd,
      r = some (opening, closing, kind, relativeEnd) →
        ∃ content behind, Marked rest opening closing content behind ∧
          size content = relativeEnd) (markAt rest) := by
  unfold markAt
  split
  · exact returns_some (by simp)
  · next opening closing kind hd =>
    obtain ⟨hdelim, hopen, hclose, hfind⟩ := delimiterAt_cases hd
    obtain ⟨inner, rfl⟩ := isPrefixOf_iff_prefix.mp hdelim
    refine returns_bind (dropBytes_size_append opening inner) ?_
    refine (hfind inner).bind (fun relativeEnd hend => returns_some ?_)
    intro opening' closing' kind' position h
    obtain ⟨relativeEnd, rfl, heq⟩ := map_eq_some_iff.mp h
    obtain ⟨rfl, rfl, -, rfl⟩ := by simpa using heq
    obtain ⟨content, behind, rfl, hsize⟩ := hend relativeEnd rfl
    exact ⟨content, behind, ⟨by simp, hopen, hclose⟩, hsize⟩

theorem linkTargetEnd_spec (h : linkTargetEnd index depth escaped input = some stop) :
    ∃ target behind, input = target ++ ')' :: behind ∧ stop = index + size target := by
  induction input generalizing index depth escaped with
  | nil => cases h
  | cons ch rest ih =>
    -- in every case but one the character belongs to the target
    have hstep : ∀ {depth escaped}, linkTargetEnd (index + ch.utf8Size) depth escaped rest = some stop →
        ∃ target behind, ch :: rest = target ++ ')' :: behind ∧ stop = index + size target := by
      intro depth escaped h
      obtain ⟨target, behind, rfl, rfl⟩ := ih h
      exact ⟨ch :: target, behind, rfl, by rw [size_cons]; omega⟩
    simp only [linkTargetEnd] at h
    split at h
    · exact hstep h
    · split at h
      · exact hstep h
      · split at h
        · exact hstep h
        · split at h
          · next hch =>
            split at h
            · exact ⟨[], rest, by rw [hch]; rfl, (some.inj h).symm⟩
            · exact hstep h
          · exact hstep h

/-- A link at the front of the text. -/
def Linked (rest label target behind : List Char) : Prop :=
  rest = '[' :: label ++ [']', '('] ++ target ++ ')' :: behind

theorem linkAt_returns (rest) :
    Returns (fun r => ∀ labelEnd targetEnd, r = some (labelEnd, targetEnd) →
      ∃ label target behind, Linked rest label target behind ∧
        labelEnd = size ('[' :: label) ∧ targetEnd = size target) (linkAt rest) := by
  unfold linkAt
  split
  · next hopen =>
    obtain ⟨inner, rfl⟩ := isPrefixOf_iff_prefix.mp hopen
    split
    · exact returns_some (by simp)
    · next labelEnd hfind =>
      obtain ⟨p, q, hsplit, rfl⟩ := find_eq_some hfind
      -- the text starts with a bracket that opens, so something stands in front of the one found
      obtain ⟨label, rfl⟩ : ∃ label, p = '[' :: label := by
        cases p with
        | nil => simp at hsplit
        | cons c label =>
          obtain ⟨rfl, -⟩ := by simpa using hsplit
          exact ⟨label, rfl⟩
      have hdrop : dropBytes (size ('[' :: label) + 2) (['['] ++ inner) = some q := by
        rw [hsplit, ← dropBytes_size_append ('[' :: label ++ [']', '(']) q, size_append]
        rfl
      refine returns_bind hdrop (returns_some ?_)
      intro labelEnd targetEnd h
      obtain ⟨stop, hstop, heq⟩ := map_eq_some_iff.mp h
      obtain ⟨rfl, rfl⟩ := Prod.mk.inj heq
      obtain ⟨target, behind, rfl, hend⟩ := linkTargetEnd_spec hstop
      exact ⟨label, target, behind, by rw [Linked, hsplit]; simp, rfl, by rw [hend, zero_add]⟩
  · exact returns_some (by simp)

/-! ## Fragments -/

section
variable [Segmentation]

/-- The turns that are enough: one more than the bytes that are left. -/
def FragmentsReturn (turns : Nat) : Prop :=
  (∀ markdown : List Char, size markdown + 1 < turns →
    Returns (fun _ => True) (parseFragment turns markdown)) ∧
  ∀ (p q visible : List Char) (marks : List ParsedMark), size q < turns →
    Returns (fun _ => True) (fragmentLoop turns (p ++ q) (size p) visible marks)

/-- What the loop does with what is left of the text, for as many turns as there are below. -/
theorem fragmentLoop_returns (ih : FragmentsReturn turns) (p q visible : List Char)
    (marks : List ParsedMark) (hq : size q < turns + 1) :
    Returns (fun _ => True) (fragmentLoop (turns + 1) (p ++ q) (size p) visible marks) := by
  -- going on behind a part that is not empty
  have hnext : ∀ a b visible marks, q = a ++ b → a ≠ [] →
      Returns (fun _ => True) (fragmentLoop turns (p ++ q) (size p + size a) visible marks) := by
    rintro a b visible marks rfl ha
    have hpos : 0 < size a := pos_of_ne_zero (fun h => ha (eq_nil_of_size_eq_zero h))
    rw [← append_assoc, ← size_append]
    refine ih.2 (p ++ a) b visible marks ?_
    rw [size_append] at hq
    omega
  -- reading a part that leaves something out
  have hinner : ∀ content, size content + 2 ≤ size q →
      Returns (fun _ => True) (parseFragment turns content) :=
    fun content h => ih.1 content (by omega)
  rw [fragmentLoop]
  split
  · exact returns_some trivial
  · next hcursor =>
    refine returns_bind (dropBytes_size_append p q) ?_
    split
    · next hcode =>
      obtain ⟨r, hr⟩ := isPrefixOf_iff_prefix.mp hcode
      have hrun := utf8Size_of_eq (c := '\x60') rfl
      have hsize := split_run (s := q) hrun (le_refl _)
      refine returns_bind (takeBytes_run hrun (le_refl _)) ?_
      conv in size p + _ => rw [← hsize]
      refine hnext _ _ _ _ (take_append_drop _ q).symm ?_
      rw [← hr]
      simp
    · refine (markAt_returns q).bind (fun r hr => ?_)
      cases r with
      | some mark =>
        obtain ⟨opening, closing, kind, relativeEnd⟩ := mark
        obtain ⟨content, behind, hmark, rfl⟩ := hr _ _ _ _ rfl
        have hslice : slice (size p + size opening) (size p + size opening + size content)
            (p ++ q) = some content := by
          have hpq : p ++ q = (p ++ opening) ++ content ++ (closing ++ behind) := by
            rw [hmark.split]
            simp
          rw [hpq, ← size_append p opening]
          exact slice_append _ _ _
        have hshort : size content + 2 ≤ size q := by
          have hopen := pos_of_ne_zero (fun h => hmark.opens (eq_nil_of_size_eq_zero h))
          have hclose := pos_of_ne_zero (fun h => hmark.closes (eq_nil_of_size_eq_zero h))
          rw [hmark.split]
          simp only [size_append]
          omega
        refine returns_bind hslice ?_
        have hread : Returns (fun _ => True)
            (if kind = .code then some (content, []) else parseFragment turns content) := by
          split
          · exact returns_some trivial
          · exact hinner content hshort
        refine hread.bind (fun read _ => ?_)
        have hcursor : size p + size opening + size content + size closing =
            size p + size (opening ++ content ++ closing) := by
          simp only [size_append]
          omega
        rw [hcursor]
        exact hnext _ behind _ _ hmark.split (by simp [hmark.opens])
      | none =>
        refine (linkAt_returns q).bind (fun r hr => ?_)
        cases r with
        | some link =>
          obtain ⟨labelEnd, targetEnd⟩ := link
          obtain ⟨label, target, behind, hlink, rfl, rfl⟩ := hr _ _ rfl
          have hlabel : slice 1 (size ('[' :: label)) q = some label := by
            have := slice_append ['['] label ([']', '('] ++ target ++ ')' :: behind)
            rw [← size_append, show size ['['] = 1 from rfl] at this
            rw [hlink]
            simpa using this
          have htarget : slice (size ('[' :: label) + 2) (size ('[' :: label) + 2 + size target) q =
              some target := by
            have := slice_append ('[' :: label ++ [']', '(']) target (')' :: behind)
            rw [size_append, show size [']', '('] = 2 from rfl] at this
            rw [hlink]
            exact this
          have hshort : size label + 2 ≤ size q := by
            rw [hlink]
            simp only [size_append, size_cons]
            have := Char.utf8Size_pos '['
            have := Char.utf8Size_pos ')'
            omega
          refine returns_bind hlabel (returns_bind htarget ?_)
          refine (hinner label hshort).bind (fun read _ => ?_)
          have hcursor : size p + (size ('[' :: label) + 2 + size target + 1) =
              size p + size ('[' :: label ++ [']', '('] ++ target ++ [')']) := by
            simp only [size_append]
            rfl
          rw [hcursor]
          exact hnext _ behind _ _ (by rw [hlink]; simp) (by simp)
        | none =>
          -- the cursor is in bounds, so there is a next character
          cases hq0 : q with
          | nil =>
            rw [hq0, size_append] at hcursor
            exact absurd (le_of_eq (by simp)) hcursor
          | cons ch rest =>
            refine returns_bind rfl ?_
            have := hnext [ch] rest (visible ++ [ch]) marks hq0 (by simp)
            rw [hq0] at this
            simpa [size_cons] using this

theorem fragments_return (turns : Nat) : FragmentsReturn turns := by
  induction turns with
  | zero => exact ⟨fun _ h => absurd h (Nat.not_lt_zero _), fun _ _ _ _ h => absurd h (Nat.not_lt_zero _)⟩
  | succ turns ih =>
    refine ⟨fun markdown h => ?_, fun p q visible marks hq => fragmentLoop_returns ih p q visible marks hq⟩
    rw [parseFragment]
    exact ih.2 [] markdown [] [] (by omega)

/-! ## Text blocks -/

omit [Segmentation] in
theorem setParsedMark_returns (ids acc parsed) :
    Returns (fun r => acc.2 ≤ r.2) (setParsedMark ids acc parsed) := by
  obtain ⟨marks, counter⟩ := acc
  simp only [setParsedMark]
  split
  · exact returns_some (le_refl _)
  · next hrange =>
    have hstart : parsed.start < ids.length := by omega
    have hstop : parsed.stop - 1 < ids.length := by omega
    refine returns_bind (getElem?_eq_getElem hstart) ?_
    refine returns_bind (getElem?_eq_getElem hstop) ?_
    exact returns_some (Nat.le_succ counter)

/-- A text block is read to the end; it stands under the id it was given, and the counter does
    not go back. -/
theorem parseTextBlock_returns (kind : Sequence TextUnit → BlockKind) (markdown elemId counter) :
    Returns (fun r => counter ≤ r.2 ∧ r.1.id = blockIdFromOp elemId)
      (parseTextBlock kind markdown elemId counter) := by
  unfold parseTextBlock
  refine ((fragments_return _).1 markdown (Nat.lt_succ_self _)).bind (fun read _ => ?_)
  obtain ⟨visible, parsedMarks⟩ := read
  have hmarks := returns_foldlM (I := fun acc => counter + countGraphemes visible ≤ acc.2)
    (f := setParsedMark (paragraphVisibleIds (unitsFromStr (String.ofList visible) counter 0)))
    (l := parsedMarks) (fun acc hacc parsed _ =>
      (setParsedMark_returns _ acc parsed).mono (fun _ hr => le_trans hacc hr))
    (b := ((Block.new (kind (unitsFromStr (String.ofList visible) counter 0)) elemId).marks,
      counter + countGraphemes visible)) (le_refl _)
  refine hmarks.bind (fun acc hacc => returns_some ⟨?_, rfl⟩)
  exact le_trans (Nat.le_add_right _ _) hacc

end
end MdCrdt
