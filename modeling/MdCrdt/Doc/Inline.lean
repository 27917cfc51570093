import MdCrdt.Doc.Block
import MdCrdt.Doc.Frontmatter
import MdCrdt.Lib.Utf8

/- Inline Markdown (`doc/inline.rs`, the half that reads): text with marks.

  `parse_fragment` goes through the text with a byte cursor. At a delimiter whose
  closing partner is found it reads the text in between, by itself unless it is code,
  and adds a mark over the graphemes that came out of it; a link is read the same way.
  Every other character stands for itself.

  Correspondence (Rust ↔ Lean):
    `&s[i..]`, `&s[..i]`, `&s[i..j]`, `s.find` ↔ `dropBytes`, `takeBytes`, `slice`, `find`
    the loop of `find_unescaped` ↔ `findUnescapedLoop`
    the `Bold`, `Italic` arms of `find_closing_delimiter`
      ↔ `findBoldClose`, `findItalicClose`
    the loop of `has_unclosed_single_star` ↔ `oddRuns`
    the conditions on a delimiter and on a link ↔ `markAt`, `linkAt`
    the loop of `parse_fragment` ↔ `fragmentLoop`
  A slice out of bounds or inside a character panics: results are an `Option`, `none`
  for the panic. Loops and recursive calls are bounded by a number of turns, which is
  proved to be enough. Loops over bytes that look for an ASCII character are loops over
  characters: no byte of a longer character is one. -/
namespace MdCrdt
open Lib Lib.Utf8

structure ParsedMark where
  kind : MarkKind
  start : Nat
  stop : Nat
  attrs : SortedMap String MarkValue

/-- Opening and closing delimiter and the kind of mark they make. -/
def delimiterAt (input : List Char) : Option (List Char × List Char × MarkKind) :=
  if ['*', '*'].isPrefixOf input then some (['*', '*'], ['*', '*'], .bold)
  else if ['*'].isPrefixOf input then some (['*'], ['*'], .italic)
  else if ['\x60'].isPrefixOf input then some (['\x60'], ['\x60'], .code)
  else none

/-- Behind an odd number of backslashes. -/
def isEscaped (input : List Char) (position : Nat) : Option Bool :=
  (takeBytes position input).map (fun before =>
    (before.reverse.takeWhile (fun c => c = '\\')).length % 2 = 1)

def findUnescapedLoop (input needle : List Char) : Nat → Nat → Option (Option Nat)
  | 0, _ => none
  | turns + 1, searchFrom => do
    let tail ← dropBytes searchFrom input
    match find needle tail with
    | none => some none
    | some relative =>
      let position := searchFrom + relative
      let escaped ← isEscaped input position
      if escaped then findUnescapedLoop input needle turns (position + size needle)
      else some (some position)

def findUnescaped (input needle : List Char) (searchFrom : Nat) : Option (Option Nat) :=
  findUnescapedLoop input needle (size input + 1) searchFrom

/-- The runs of stars of odd length. An escaped star is in no run unless it follows a star;
    `run` is the length of the run that has been read so far. -/
def oddRuns (escaped : Bool) (run : Nat) : List Char → Nat
  | [] => run % 2
  | c :: rest =>
    if c = '*' && (decide (0 < run) || !escaped) then oddRuns false (run + 1) rest
    else run % 2 + oddRuns (decide (c = '\\') && !escaped) 0 rest

def hasUnclosedSingleStar (input : List Char) : Bool := oddRuns false 0 input % 2 = 1

def findBoldClose (input close : List Char) : Option (Option Nat) := do
  match ← findUnescaped input close 0 with
  | none => some none
  | some position =>
    let tail ← dropBytes position input
    if ['*', '*', '*'].isPrefixOf tail then
      let before ← takeBytes position input
      some (some (if hasUnclosedSingleStar before then position + 1 else position))
    else some (some position)

def findItalicClose (input : List Char) : Nat → Nat → Option (Option Nat)
  | 0, _ => none
  | turns + 1, searchFrom => do
    match ← findUnescaped input ['*'] searchFrom with
    | none => some none
    | some position =>
      let tail ← dropBytes position input
      if ['*', '*'].isPrefixOf tail then
        let nestedStart := position + 2
        let nested ← dropBytes nestedStart input
        match ← findBoldClose nested ['*', '*'] with
        | some nestedEnd => findItalicClose input turns (nestedStart + nestedEnd + 2)
        | none => some (some position)
      else some (some position)

def findClosingDelimiter (input close : List Char) : MarkKind → Option (Option Nat)
  | .code => findUnescaped input close 0
  | .bold => findBoldClose input close
  | .italic => findItalicClose input (size input + 1) 0
  | .link | .custom _ => some (find close input)

/-- The position of the parenthesis that closes the target of a link. -/
def linkTargetEnd (index depth : Nat) (escaped : Bool) : List Char → Option Nat
  | [] => none
  | ch :: rest =>
    let next := index + ch.utf8Size
    if escaped then linkTargetEnd next depth false rest
    else if ch = '\\' then linkTargetEnd next depth true rest
    else if ch = '(' then linkTargetEnd next (depth + 1) false rest
    else if ch = ')' then
      if depth = 0 then some index else linkTargetEnd next (depth - 1) false rest
    else linkTargetEnd next depth false rest

def findLinkTargetEnd (input : List Char) : Option Nat := linkTargetEnd 0 0 false input

/-- A delimiter at the front, and where its partner stands behind it. -/
def markAt (rest : List Char) : Option (Option (List Char × List Char × MarkKind × Nat)) :=
  match delimiterAt rest with
  | none => some none
  | some (opening, closing, kind) => do
    let inner ← dropBytes (size opening) rest
    let relativeEnd ← findClosingDelimiter inner closing kind
    some (relativeEnd.map (fun relativeEnd => (opening, closing, kind, relativeEnd)))

/-- A link at the front: where its label ends, and how long its target is. -/
def linkAt (rest : List Char) : Option (Option (Nat × Nat)) :=
  if ['['].isPrefixOf rest then
    match find [']', '('] rest with
    | none => some none
    | some labelEnd => do
      let target ← dropBytes (labelEnd + 2) rest
      some ((findLinkTargetEnd target).map (fun targetEnd => (labelEnd, targetEnd)))
  else some none

def ParsedMark.shift (mark : ParsedMark) (offset : Nat) : ParsedMark :=
  { mark with start := mark.start + offset, stop := mark.stop + offset }

section
variable [Segmentation]

def countGraphemes (visible : List Char) : Nat := graphemeCount (String.ofList visible)

mutual

def parseFragment : Nat → List Char → Option (List Char × List ParsedMark)
  | 0, _ => none
  | turns + 1, markdown => fragmentLoop turns markdown 0 [] []

def fragmentLoop : Nat → List Char → Nat → List Char → List ParsedMark →
    Option (List Char × List ParsedMark)
  | 0, _, _, _, _ => none
  | turns + 1, markdown, cursor, visible, marks =>
    if size markdown ≤ cursor then some (visible, marks) else do
    let rest ← dropBytes cursor markdown
    if ['\x60', '\x60'].isPrefixOf rest then
      let run := (rest.takeWhile (fun ch => ch = '\x60')).length
      let literal ← takeBytes run rest
      fragmentLoop turns markdown (cursor + run) (visible ++ literal) marks
    else match ← markAt rest with
    | some (opening, closing, kind, relativeEnd) =>
      let innerStart := cursor + size opening
      let innerEnd := innerStart + relativeEnd
      let start := countGraphemes visible
      let content ← slice innerStart innerEnd markdown
      let (inner, nested) ← (if kind = .code then some (content, [])
        else parseFragment turns content)
      let visible := visible ++ inner
      let mark : ParsedMark := ⟨kind, start, countGraphemes visible,
        SortedMap.empty.insert "delimiter" (.string (String.ofList opening))⟩
      fragmentLoop turns markdown (innerEnd + size closing) visible
        (marks ++ nested.map (fun mark => mark.shift start) ++ [mark])
    | none => match ← linkAt rest with
      | some (labelEnd, targetEnd) =>
        let label ← slice 1 labelEnd rest
        let target ← slice (labelEnd + 2) (labelEnd + 2 + targetEnd) rest
        let start := countGraphemes visible
        let (inner, nested) ← parseFragment turns label
        let visible := visible ++ inner
        let mark : ParsedMark := ⟨.link, start, countGraphemes visible,
          (SortedMap.empty.insert "href" (.string (String.ofList target))).insert "delimiter"
            (.string "[]()")⟩
        fragmentLoop turns markdown (cursor + (labelEnd + 2 + targetEnd + 1)) visible
          (marks ++ nested.map (fun mark => mark.shift start) ++ [mark])
      | none => do
        let ch ← rest.head?
        fragmentLoop turns markdown (cursor + ch.utf8Size) (visible ++ [ch]) marks

end

/-! ## Text blocks -/

/-- Set a mark that was read, unless it covers nothing. -/
def setParsedMark (ids : List OpId) (acc : MarkSet × Nat) (parsed : ParsedMark) :
    Option (MarkSet × Nat) :=
  let (marks, counter) := acc
  if parsed.stop ≤ parsed.start ∨ ids.length < parsed.stop then some (marks, counter) else do
  let markId : OpId := ⟨counter, 0⟩
  let first ← ids[parsed.start]?
  let last ← ids[parsed.stop - 1]?
  some (marks.setMark markId parsed.kind ⟨first, .before⟩ ⟨last, .after⟩ parsed.attrs markId,
    counter + 1)

/-- A paragraph or heading of the given Markdown, and the counter behind the ids it took. -/
def parseTextBlock (kind : Sequence TextUnit → BlockKind) (markdown : List Char) (elemId : OpId)
    (counter : Nat) : Option (Block × Nat) := do
  let (visible, parsedMarks) ← parseFragment (size markdown + 2) markdown
  let text := unitsFromStr (String.ofList visible) counter 0
  let ids := paragraphVisibleIds text
  let block := Block.new (kind text) elemId
  let (marks, counter) ← parsedMarks.foldlM (setParsedMark ids)
    (block.marks, counter + countGraphemes visible)
  some ({ block with marks := marks }, counter)

end
end MdCrdt
