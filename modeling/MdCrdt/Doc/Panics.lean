import MdCrdt.Doc.Layout

/- When parsing a document panics.

  Block and inline parsing never do (`parseDocument_layout`). The frontmatter parser cuts
  the comment off a value one byte in front of the `#`, where a whitespace character
  stands: if that character has more than one byte, the cut is inside it. The comment is
  looked for only in lines that declare a field, and only the first time the field is
  declared, so these are the lines that have to be safe (`SafeComments`). -/
namespace MdCrdt
open Lib Lib.Utf8 List Option SortedMap String Frontmatter

/-! ## Comments -/

/-- Whether a text is inside single and double quotes behind a character. -/
def quoteStep (quotes : Bool × Bool) (c : Char) : Bool × Bool :=
  if c = '\x27' && !quotes.2 then (!quotes.1, quotes.2)
  else if c = '\x22' && !quotes.1 then (quotes.1, !quotes.2)
  else quotes

/-- The whitespace in front of the first `#` that stands behind whitespace and outside quotes. -/
def commentBehind (quotes : Bool × Bool) : List Char → Option Char
  | [] => none
  | [_] => none
  | w :: c :: rest =>
    if c = '#' && isWhitespace w && !quotes.1 && !quotes.2 then some w
    else commentBehind (quoteStep quotes w) (c :: rest)

theorem quoteStep_of_isWhitespace (quotes) (h : isWhitespace w = true) :
    quoteStep quotes w = quotes := by
  have hsingle : w ≠ '\x27' := by
    rintro rfl
    exact absurd h (by decide)
  have hdouble : w ≠ '\x22' := by
    rintro rfl
    exact absurd h (by decide)
  simp [quoteStep, hsingle, hdouble]

/-- A character that opens no comment only changes the quotes. -/
theorem inlineCommentFrom_skip (before quotes c rest)
    (h : ¬(c = '#' ∧ before.any isWhitespace = true)) :
    inlineCommentFrom before quotes.1 quotes.2 (c :: rest) =
      inlineCommentFrom (some c) (quoteStep quotes c).1 (quoteStep quotes c).2 rest := by
  rw [inlineCommentFrom.eq_def, quoteStep]
  simp only
  split
  · rfl
  · split
    · rfl
    · cases before with
      | none => rfl
      | some w =>
        refine if_neg (fun hcomment => h ?_)
        simp only [Bool.and_eq_true, decide_eq_true_eq] at hcomment
        exact ⟨hcomment.1.1.1, hcomment.2⟩

/-- Looking for a comment behind `w`: it fails where the whitespace has several bytes. -/
theorem inlineCommentFrom_isSome (quotes w rest) :
    (inlineCommentFrom (some w) (quoteStep quotes w).1 (quoteStep quotes w).2 rest).isSome ↔
      ∀ c, commentBehind quotes (w :: rest) = some c → c.utf8Size = 1 := by
  induction rest generalizing quotes w with
  | nil => simp [inlineCommentFrom, commentBehind]
  | cons c rest ih =>
    have hnext := ih (quoteStep quotes w) c
    rw [commentBehind]
    by_cases hcomment : c = '#' ∧ isWhitespace w = true
    · obtain ⟨rfl, hw⟩ := hcomment
      have hhash : quoteStep quotes '#' = quotes := by simp [quoteStep]
      rw [quoteStep_of_isWhitespace quotes hw] at hnext ⊢
      rw [hhash] at hnext
      rw [inlineCommentFrom]
      obtain ⟨single, double⟩ := quotes
      cases single <;> cases double
      · by_cases hsize : w.utf8Size = 1 <;> simp [hw, hsize]
      all_goals simpa [hw] using hnext
    · have hgo : ¬(c = '#' && isWhitespace w && !quotes.1 && !quotes.2) = true := by
        simp only [Bool.and_eq_true, decide_eq_true_eq]
        exact fun h => hcomment h.1.1
      rw [if_neg hgo, ← hnext, inlineCommentFrom_skip (some w) _ c rest hcomment]

theorem inlineComment_isSome (value) : (inlineComment value).isSome ↔
      ∀ c, commentBehind (false, false) value = some c → c.utf8Size = 1 := by
  cases value with
  | nil => simp [inlineComment, inlineCommentFrom, commentBehind]
  | cons c rest =>
    rw [← inlineCommentFrom_isSome, inlineComment,
      inlineCommentFrom_skip none (false, false) c rest (by simp)]

/-! ## Frontmatter -/

namespace Frontmatter
variable {line : List Char}
variable (fm : Frontmatter)

/-- The key and the value of a line that declares a field. -/
def declaration (line : List Char) : Option (String × List Char) :=
  let trimmed := trim line
  if trimmed.isEmpty || trimmed.head? = some '#' || line.head?.any isWhitespace ||
    ['-', ' '].isPrefixOf trimmed then none
  else (splitOnce ':' line).bind (fun p =>
    if validKey (ofList (trim p.1)) then some (ofList (trim p.1), trim p.2) else none)

/-- In every line that declares a field for the first time, the comment stands behind whitespace
    of one byte. -/
def SafeComments (lines : List (List Char)) : Prop :=
  ∀ front line back key value, lines = front ++ line :: back →
    declaration line = some (key, value) →
    (∀ earlier ∈ front, (declaration earlier).map Prod.fst ≠ some key) →
    ∀ w, commentBehind (false, false) value = some w → w.utf8Size = 1

/-- A line that declares nothing leaves the fields as they are. -/
theorem parseLine_of_none (h : declaration line = none) :
    ∃ structured, parseLine fm line = some { fm with structured := structured } := by
  simp only [declaration] at h
  simp only [parseLine]
  split
  · exact ⟨fm.structured, rfl⟩
  next hblank =>
  split
  · exact ⟨false, rfl⟩
  next hindent =>
  cases hsplit : splitOnce ':' line with
  | none => exact ⟨false, rfl⟩
  | some p =>
    have hkey : validKey (ofList (trim p.1)) = false := by
      by_contra hvalid
      simp only [Bool.or_eq_true, not_or, decide_eq_true_eq] at hblank hindent
      simp [hblank, hindent, hsplit, hvalid] at h
    refine ⟨false, ?_⟩
    simp only [hkey, Bool.not_false, Bool.true_or, if_true]

/-- The frontmatter behind a line that declares a field for the first time. -/
def declare (fm : Frontmatter) (key : String) (value : List Char) : Frontmatter :=
  let fm := if value ∈ [['|'], ['>'], ['|', '-'], ['>', '-']] then { fm with structured := false }
    else fm
  fm.seed key (ofList value)

/-- A line that declares a field: only the first one is read. -/
theorem parseLine_of_some (h : declaration line = some (key, value)) :
    parseLine fm line = if fm.fields.contains key then some { fm with structured := false }
      else (valueWithoutComment value).map (fm.declare key) := by
  simp only [declaration] at h
  split at h
  · cases h
  next hplain =>
  obtain ⟨p, hsplit, hp⟩ := bind_eq_some_iff.mp h
  split at hp
  · next hvalid =>
    cases hp
    simp only [Bool.or_eq_true, not_or, decide_eq_true_eq] at hplain
    obtain ⟨⟨⟨hempty, hhash⟩, hindent⟩, hdash⟩ := hplain
    simp only [parseLine, hempty, hhash, hindent, hdash, hsplit, hvalid]
    by_cases hcontains : fm.fields.contains (ofList (trim p.1)) = true
    · simp [hcontains]
    · simp only [hcontains]
      rfl
  · cases hp

theorem contains_declare (key value k) :
    (fm.declare key value).fields.contains k = true ↔ fm.fields.contains k = true ∨ k = key := by
  rw [contains_iff_mem_keys, contains_iff_mem_keys]
  simp only [declare]
  split <;> exact mem_keys_insert.trans or_comm

theorem dirty_declare (key value) : (fm.declare key value).dirty = fm.dirty := by
  simp only [declare]
  split <;> rfl

/-- Reading a line, if its comment is safe: nothing becomes dirty, and the fields are those there
    were and the one that the line declares. -/
theorem parseLine_returns (line)
    (hsafe : ∀ key value, declaration line = some (key, value) → fm.fields.contains key = false →
      (inlineComment value).isSome) :
    Returns (fun fm' => fm'.dirty = fm.dirty ∧ ∀ k, fm'.fields.contains k = true ↔
      fm.fields.contains k = true ∨ (declaration line).map Prod.fst = some k)
      (parseLine fm line) := by
  cases hline : declaration line with
  | none =>
    obtain ⟨structured, heq⟩ := parseLine_of_none fm hline
    exact returns_of_eq heq ⟨rfl, fun k => by simp⟩
  | some p =>
    obtain ⟨key, value⟩ := p
    rw [parseLine_of_some fm hline]
    split
    · next hcontains =>
      refine returns_some ⟨rfl, fun k => ⟨.inl, ?_⟩⟩
      rintro (h | h)
      · exact h
      · cases h
        exact hcontains
    · next hcontains =>
      obtain ⟨comment, hcomment⟩ := isSome_iff_exists.mp
        (hsafe key value hline (by simpa using hcontains))
      simp only [valueWithoutComment, hcomment, map_some]
      refine returns_some ⟨dirty_declare _ _ _, fun k => ?_⟩
      rw [contains_declare, some_inj, eq_comm (a := k)]

/-- Where a line that declares a field for the first time is read, its comment is safe. -/
theorem isSome_of_parseLine {fm fm'} (h : parseLine fm line = some fm')
    (hline : declaration line = some (key, value)) (hcontains : fm.fields.contains key = false) :
    (inlineComment value).isSome := by
  rw [parseLine_of_some fm hline, hcontains] at h
  obtain ⟨stripped, hstripped, -⟩ := map_eq_some_iff.mp h
  obtain ⟨comment, hcomment, -⟩ := map_eq_some_iff.mp hstripped
  exact isSome_iff_exists.mpr ⟨comment, hcomment⟩

theorem read_of_parseLine {fm fm'} (h : parseLine fm line = some fm') :
    fm'.dirty = fm.dirty ∧ ∀ k, fm'.fields.contains k = true ↔
      fm.fields.contains k = true ∨ (declaration line).map Prod.fst = some k :=
  (parseLine_returns fm line (fun _ _ => isSome_of_parseLine h)).of_eq h

/-- The lines can be read, from fields on, if and only if the comments of the fields that are
    declared for the first time are safe. -/
theorem parseLines_isSome (ls) :
    (ls.foldlM parseLine fm).isSome ↔ ∀ front line back key value, ls = front ++ line :: back →
        declaration line = some (key, value) → fm.fields.contains key = false →
        (∀ earlier ∈ front, (declaration earlier).map Prod.fst ≠ some key) →
        (inlineComment value).isSome := by
  induction ls generalizing fm with
  | nil => simp
  | cons l ls ih =>
    rw [foldlM_cons]
    constructor
    · intro hsome front line back key value heq hline hcontains hfront
      obtain ⟨fm', hfm', hrest⟩ : ∃ fm', parseLine fm l = some fm' ∧
          (ls.foldlM parseLine fm').isSome := by
        obtain ⟨last, hlast⟩ := isSome_iff_exists.mp hsome
        obtain ⟨fm', hfm', hrest⟩ := bind_eq_some_iff.mp hlast
        exact ⟨fm', hfm', isSome_iff_exists.mpr ⟨last, hrest⟩⟩
      cases front with
      | nil =>
        obtain ⟨rfl, -⟩ := List.cons.inj heq
        exact isSome_of_parseLine hfm' hline hcontains
      | cons l' front =>
        obtain ⟨rfl, rfl⟩ := List.cons.inj heq
        have hl := hfront l mem_cons_self
        refine (ih fm').mp hrest front line back key value rfl hline ?_
          (fun earlier he => hfront earlier (mem_cons_of_mem _ he))
        have hkeys := (read_of_parseLine hfm').2 key
        rw [hcontains] at hkeys
        simpa [hl] using hkeys
    · intro hsafe
      have hl := parseLine_returns fm l (fun key value hline hcontains =>
        hsafe [] l ls key value rfl hline hcontains (by simp))
      obtain ⟨fm', hfm', -, hkeys⟩ := hl
      rw [hfm']
      refine (ih fm').mpr (fun front line back key value heq hline hcontains hfront => ?_)
      have hnot := (hkeys key).not.mp (by simpa using hcontains)
      rw [not_or] at hnot
      refine hsafe (l :: front) line back key value (by rw [heq]; rfl) hline
        (by simpa using hnot.1) (fun earlier he => ?_)
      rcases mem_cons.mp he with rfl | he
      · exact hnot.2
      · exact hfront earlier he

/-- The frontmatter can be read if and only if its comments are safe. -/
theorem parse_isSome (raw) : (parse raw).isSome ↔ SafeComments (lines raw.toList) := by
  rw [parse, parseLines_isSome]
  constructor
  · intro h front line back key value heq hline hfront
    exact (inlineComment_isSome value).mp (h front line back key value heq hline rfl hfront)
  · intro h front line back key value heq hline _ hfront
    exact (inlineComment_isSome value).mpr (h front line back key value heq hline hfront)

end Frontmatter

/-! ## Documents -/

/-- The text between the lines of dashes at the top of a document. -/
def frontmatterText (text : List Char) : Option (List Char) :=
  match (sourceLines text).map SourceLine.text with
  | [] => none
  | first :: rest =>
    let fmLines := rest.takeWhile (fun line => trim line ≠ ['-', '-', '-'])
    if trim first = ['-', '-', '-'] && fmLines.length < rest.length then some (joinLines fmLines)
    else none

theorem frontmatterAt_isSome (text) :
    (frontmatterAt ((sourceLines text).map SourceLine.text)).isSome ↔
      ∀ raw, frontmatterText text = some raw → (parse (ofList raw)).isSome := by
  rw [frontmatterText]
  cases (sourceLines text).map SourceLine.text with
  | nil => simp [frontmatterAt]
  | cons first rest =>
    simp only [frontmatterAt]
    by_cases hfirst : trim first = ['-', '-', '-']
    · by_cases hlt : (rest.takeWhile (fun line => trim line ≠ ['-', '-', '-'])).length < rest.length
      · simp only [hfirst, hlt, if_true, isSome_map, decide_true, Bool.and_self,
          some_inj, forall_eq']
      · simp only [hfirst, hlt, if_true, if_false, decide_true, decide_false, Bool.and_false,
          Bool.false_eq_true, reduceCtorEq, false_implies, implies_true, isSome_some]
    · simp [hfirst]

/-- Parsing a document panics exactly where a comment in its frontmatter stands behind whitespace
    of several bytes. -/
theorem parseDocument_returns_iff [Segmentation] (text : List Char) : (parseDocument text).isSome ↔
      ∀ raw, frontmatterText text = some raw → SafeComments (lines raw) := by
  have hfront : (parseDocument text).isSome ↔
      (frontmatterAt ((sourceLines text).map SourceLine.text)).isSome := by
    cases h : frontmatterAt ((sourceLines text).map SourceLine.text) with
    | none => simp [parseDocument, h]
    | some r =>
      obtain ⟨d, hd, -⟩ := parseDocument_layout h
      simp [hd]
  rw [hfront, frontmatterAt_isSome]
  simp only [parse_isSome, toList_ofList]

/-- A no-break space in front of the comment. -/
theorem parseDocument_noBreakSpace :
    @parseDocument charSegmentation "---\na: b\u00a0#c\n---".toList = none := by
  decide +kernel

end MdCrdt
