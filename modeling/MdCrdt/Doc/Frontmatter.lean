import MdCrdt.Core.Mark
import MdCrdt.Doc.Text

/- Frontmatter (`doc/frontmatter.rs`).

  Top-level fields are last-writer-wins registers over the raw text they were read
  from. Text that is not a plain list of `key: value` lines is kept as it is, and
  its fields cannot be set. Rendering goes through the raw lines and replaces those
  of the fields that have been set; new fields follow in the order of their keys.

  Correspondence (Rust ↔ Lean):
    `str::lines`, `split_once`, `trim`, `trim_end`
      ↔ `lines`, `splitOnce`, `trim`, `trimEnd`
    the loop of `inline_comment` ↔ `inlineCommentFrom`
    the loop of `parse` ↔ `Frontmatter.parseLine`
    the first loop of `render` ↔ `Frontmatter.renderLine`
  `inline_comment` cuts one byte in front of the `#`: behind a whitespace character of
  more than one byte that is not a character boundary, and the call panics. Results
  that may panic are an `Option`, `none` for the panic. -/
namespace MdCrdt
open Lib SortedMap String

/-! ## Text -/

def isWhitespace (c : Char) : Bool :=
  c.toNat ∈ [0x20, 0x85, 0xA0, 0x1680, 0x2028, 0x2029, 0x202F, 0x205F, 0x3000] ||
    decide (0x9 ≤ c.toNat ∧ c.toNat ≤ 0xD) || decide (0x2000 ≤ c.toNat ∧ c.toNat ≤ 0x200A)

/-- Lines up to a line feed, and a carriage return in front of it; `line` is what has been read
    of the line, backwards. -/
def linesFrom (line : List Char) : List Char → List (List Char)
  | [] => if line.isEmpty then [] else [line.reverse]
  | c :: rest =>
    if c = '\n' then
      (if line.head? = some '\r' then line.tail else line).reverse :: linesFrom [] rest
    else linesFrom (c :: line) rest

def lines (text : List Char) : List (List Char) := linesFrom [] text

/-- The text in front of the first `c`, and the text behind it. -/
def splitOnce (c : Char) : List Char → Option (List Char × List Char)
  | [] => none
  | d :: rest =>
    if d = c then some ([], rest) else (splitOnce c rest).map (fun p => (d :: p.1, p.2))

def trimStart (text : List Char) : List Char := text.dropWhile isWhitespace

def trimEnd (text : List Char) : List Char := (text.reverse.dropWhile isWhitespace).reverse

def trim (text : List Char) : List Char := trimEnd (trimStart text)

/-- The comment at the end of a value, from the whitespace in front of it on, if there is one. -/
def inlineCommentFrom (before : Option Char) (single double : Bool) :
    List Char → Option (Option (List Char))
  | [] => some none
  | c :: rest =>
    if c = '\x27' && !double then inlineCommentFrom (some c) (!single) double rest
    else if c = '\x22' && !single then inlineCommentFrom (some c) single (!double) rest
    else match before with
      | some w =>
        if c = '#' && !single && !double && isWhitespace w then
          if w.utf8Size = 1 then some (some (w :: c :: rest)) else none
        else inlineCommentFrom (some c) single double rest
      | none => inlineCommentFrom (some c) single double rest

def inlineComment (value : List Char) : Option (Option (List Char)) :=
  inlineCommentFrom none false false value

def valueWithoutComment (value : List Char) : Option (List Char) :=
  (inlineComment value).map (fun comment => match comment with
    | some comment => trimEnd (value.take (value.length - comment.length))
    | none => trimEnd value)

/-! ## Frontmatter -/

@[ext] structure Frontmatter where
  raw : String
  fields : SortedMap String (LwwRegister (Option String))
  original : SortedMap String String
  dirty : SortedMap String Unit
  structured : Bool
  fields_sorted : fields.Sorted
  dirty_sorted : dirty.Sorted
  deriving DecidableEq

inductive FrontmatterError where
  | opaqueYaml | invalidKey
  deriving DecidableEq, Repr

namespace Frontmatter

def empty : Frontmatter :=
  ⟨"", .empty, .empty, .empty, true, sorted_empty, sorted_empty⟩

def validKey (key : String) : Bool :=
  !key.isEmpty && key.toList.all (fun ch => ch.isAlphanum || ch = '_' || ch = '-')

/-- Take a field over from the raw text. -/
def seed (fm : Frontmatter) (key value : String) : Frontmatter :=
  { fm with
    fields := fm.fields.insert key ⟨some value, ⟨0, 0⟩⟩
    original := fm.original.insert key value
    fields_sorted := sorted_insert fm.fields_sorted key _ }

instance : LawfulBEq (List Char) := inferInstance

def parseLine (fm : Frontmatter) (line : List Char) : Option Frontmatter :=
  let trimmed := trim line
  if trimmed.isEmpty || trimmed.head? = some '#' then some fm
  else if line.head?.any isWhitespace || ['-', ' '].isPrefixOf trimmed then
    some { fm with structured := false }
  else match splitOnce ':' line with
    | none => some { fm with structured := false }
    | some (keyPart, rest) =>
      let key := ofList (trim keyPart)
      if !validKey key || fm.fields.contains key then some { fm with structured := false }
      else (valueWithoutComment (trim rest)).map (fun value =>
        let fm := if value ∈ [['|'], ['>'], ['|', '-'], ['>', '-']] then
          { fm with structured := false } else fm
        fm.seed key (ofList value))

def parse (raw : String) : Option Frontmatter :=
  (lines raw.toList).foldlM parseLine { empty with raw := raw }

def isDirty (fm : Frontmatter) : Bool := !fm.dirty.entries.isEmpty

def get (fm : Frontmatter) (key : String) : Option String :=
  (fm.fields.get? key).bind LwwRegister.value

def entries (fm : Frontmatter) : List (String × Option String) :=
  fm.fields.entries.map (fun e => (e.1, e.2.value))

def set (fm : Frontmatter) (key : String) (value : Option String) (opId : OpId) :
    Except FrontmatterError Frontmatter :=
  if !fm.structured then .error .opaqueYaml
  else if !validKey key then .error .invalidKey
  else
    let register := match fm.fields.get? key with
      | some register => register.set value opId
      | none => ⟨value, opId⟩
    .ok { fm with
      fields := fm.fields.insert key register
      dirty := fm.dirty.insert key ()
      fields_sorted := sorted_insert fm.fields_sorted key _
      dirty_sorted := sorted_insert fm.dirty_sorted key _ }

/-- The key of a raw line, if the field has been set. -/
def dirtyKey (fm : Frontmatter) (line : List Char) : Option String :=
  (splitOnce ':' line).bind (fun p =>
    let key := ofList (trim p.1)
    if fm.dirty.contains key then some key else none)

/-- A raw line as it is rendered; the line of a field that was deleted is left out. -/
def renderLine (fm : Frontmatter) (line : List Char) : Option (List (List Char)) :=
  match splitOnce ':' line with
  | none => some [line]
  | some (keyPart, rest) =>
    let key := ofList (trim keyPart)
    if !fm.dirty.contains key then some [line]
    else match fm.get key with
      | none => some []
      | some value => (inlineComment rest).map (fun comment =>
        let spacing := if rest.head? = some ' ' then [' '] else []
        [keyPart ++ ':' :: spacing ++ value.toList ++ comment.getD []])

def render (fm : Frontmatter) : Option String :=
  if !fm.isDirty then some fm.raw
  else
    let rawLines := lines fm.raw.toList
    let emitted := rawLines.filterMap fm.dirtyKey
    let added := fm.dirty.keys.filterMap (fun key =>
      if key ∈ emitted || fm.original.contains key then none
      else (fm.get key).map (fun value => key.toList ++ ':' :: ' ' :: value.toList))
    (rawLines.mapM fm.renderLine).map (fun output =>
      ofList (List.intercalate ['\n'] (output.flatten ++ added)))

end Frontmatter
end MdCrdt
