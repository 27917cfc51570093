import MdCrdt.Doc.Inline

/- Block structure (`doc/parser.rs`): from lines to blocks.

  `parse_blocks_with_spans` looks at one line after the other. A line that is not blank
  opens a block; which one is decided by the first of its tests that holds, and the
  block takes the lines up to an index from which the loop goes on. A blockquote strips
  its lines and parses them anew, a list parses its items from the same lines.

  Correspondence (Rust ↔ Lean):
    the loop of `parse_table_cells` ↔ `splitCells`
    the row loop, the column loop of a table ↔ `tableRows`, `tableColumns`
    the tests that end a paragraph ↔ `interruptsParagraph`
    the branches of `parse_blocks_with_spans` ↔ `parseFence`, `parseQuote`, `parseRaw`,
      `parseTable`, `parseHeading`,
      `parseParagraph`
    the body of its loop ↔ `parseBlock`
    the outer and the inner loop of `parse_list` ↔ `itemsLoop`, `continuationLoop`
  Results are an `Option`, `none` for a panic, as in `Doc/Inline.lean`; a counter is passed
  along for the ids. -/
namespace MdCrdt
open Lib Lib.Utf8 String

/-! ## Text -/

def trimStartMatches (c : Char) (text : List Char) : List Char := text.dropWhile (fun d => d = c)

def trimEndMatches (c : Char) (text : List Char) : List Char :=
  (text.reverse.dropWhile (fun d => d = c)).reverse

def trimMatches (c : Char) (text : List Char) : List Char := trimEndMatches c (trimStartMatches c text)

def isBlank (line : List Char) : Bool := (trim line).isEmpty

def isSpaceOrTab (c : Char) : Bool := c = ' ' || c = '\t'

def joinLines (lines : List (List Char)) : List Char := List.intercalate ['\n'] lines

/-- The longest prefix of a list that passes a test that may panic. -/
def takeWhileM {A : Type} (p : A → Option Bool) : List A → Option (List A)
  | [] => some []
  | a :: rest => do
    let b ← p a
    if b then (takeWhileM p rest).map (a :: ·) else some []

/-- Columns up to the first character that is neither a space nor a tab. -/
def indentOf (line : List Char) : Nat :=
  (line.takeWhile isSpaceOrTab).foldl (fun column c =>
    if c = '\t' then column + (4 - column % 4) else column + 1) 0

/-! ## Tables -/

/-- Split at the bars that are not escaped; `cell` is what has been read of the cell, up to a
    backslash if the last character was one that is not escaped itself. -/
def splitCells (cell : List Char) (backslash : Bool) : List Char → List (List Char)
  | [] => [trim (if backslash then cell ++ ['\\'] else cell)]
  | c :: rest =>
    if backslash then
      splitCells (if c = '|' || c = '\\' then cell ++ [c] else cell ++ ['\\', c]) false rest
    else if c = '|' then trim cell :: splitCells [] false rest
    else if c = '\\' then splitCells cell true rest
    else splitCells (cell ++ [c]) false rest

def parseTableCells (line : List Char) : Option (Option (List (List Char))) :=
  let trimmed := trim line
  if !trimmed.contains '|' then some none else do
  let inner := if trimmed.head? = some '|' then trimmed.tail else trimmed
  let trailingBackslashes := (inner.reverse.tail.takeWhile (fun c => c = '\\')).length
  let inner ← (if inner.getLast? = some '|' && trailingBackslashes % 2 = 0 then
      takeBytes (size inner - 1) inner
    else some inner)
  some (some (splitCells [] false inner))

def columnOfMarker (cell : List Char) : Option ColumnDef :=
  let marker := trim cell
  let dashes := trimMatches ':' marker
  if size dashes < 3 || !dashes.all (fun c => c = '-') then none
  else some ⟨match decide (marker.head? = some ':'), decide (marker.getLast? = some ':') with
    | true, true => .center
    | _, true => .right
    | _, _ => .left⟩

def parseTableDelimiter (line : List Char) : Option (Option (List ColumnDef)) :=
  (parseTableCells line).map (fun cells => cells.bind (fun cells => cells.mapM columnOfMarker))

/-! ## Headings -/

def stripAtxClosingSequence (text : List Char) : Option (List Char) :=
  let trimmed := trimEnd text
  let closingStart := size (trimEndMatches '#' trimmed)
  if closingStart = size trimmed then some trimmed else do
  let before ← takeBytes closingStart trimmed
  some (if before.isEmpty || before.getLast?.any isSpaceOrTab then trimEnd before else trimmed)

/-- Level and title of a heading that starts with hashes. -/
def parseAtxHeading (trimmed : List Char) : Option (Option (Nat × List Char)) :=
  let level := min (trimmed.takeWhile (fun c => c = '#')).length 6
  if level = 0 then some none
  else if trimmed[level]? = some '#' then some none
  else do
    let suffix ← dropBytes level trimmed
    if suffix.head?.any (fun c => !isSpaceOrTab c) then some none
    else
      let title ← stripAtxClosingSequence (trimStart suffix)
      some (some (level, title))

def parseSetextUnderline (trimmed : List Char) : Option Nat :=
  if trimmed.isEmpty then none
  else if trimmed.all (fun c => c = '=') then some 1
  else if trimmed.all (fun c => c = '-') then some 2
  else none

/-! ## List markers -/

def bulletOf (c : Char) : Option BulletMarker :=
  if c = '-' then some .dash
  else if c = '*' then some .asterisk
  else if c = '+' then some .plus
  else none

def delimiterOf (c : Char) : Option ListDelimiter :=
  if c = '.' then some .period
  else if c = ')' then some .parenthesis
  else none

/-- What follows a marker: nothing, or a space or tab and the body. -/
def bodyBehindMarker : List Char → Option (List Char)
  | [] => some []
  | c :: rest => if isSpaceOrTab c then some (trimStart rest) else none

def unorderedMarker (trimmed : List Char) : Option (BulletMarker × List Char) := do
  let symbol ← trimmed.head?
  let marker ← bulletOf symbol
  let body ← bodyBehindMarker trimmed.tail
  some (marker, body)

def decimal (digits : List Char) : Nat :=
  digits.foldl (fun n c => n * 10 + (c.toNat - '0'.toNat)) 0

def orderedMarker (trimmed : List Char) : Option (Option (Nat × ListDelimiter × List Char)) :=
  let i := (trimmed.takeWhile Char.isDigit).length
  if i = 0 || decide (9 < i) then some none else do
  let digits ← takeBytes i trimmed
  let rest ← dropBytes i trimmed
  some (do
    let symbol ← rest.head?
    let delimiter ← delimiterOf symbol
    let body ← bodyBehindMarker rest.tail
    some (decimal digits, delimiter, body))

def isListStart (trimmed : List Char) : Option Bool :=
  if (unorderedMarker trimmed).isSome then some true
  else (orderedMarker trimmed).map Option.isSome

def parseTaskMarker (body : List Char) : Option TaskState × List Char :=
  let state := match body with
    | '[' :: c :: ']' :: _ =>
      if c = ' ' then some TaskState.unchecked
      else if c = 'x' || c = 'X' then some TaskState.checked
      else none
    | _ => none
  let rest := body.drop 3
  if state.isSome && rest.head?.all isSpaceOrTab then (state, trimStart rest) else (none, body)

/-! ## Fences -/

def fenceMarkerOf (c : Char) : Option FenceMarker :=
  if c = '\x60' then some .backtick else if c = '~' then some .tilde else none

def parseFenceOpen (trimmed : List Char) : Option (Option (CodeFenceStyle × List Char)) :=
  match trimmed.head?.bind fenceMarkerOf with
  | none => some none
  | some marker =>
    let length := (trimmed.takeWhile (fun c => c = fenceChar marker)).length
    if length < 3 || decide (255 < length) then some none else do
    let rest ← dropBytes length trimmed
    if marker = .backtick && rest.contains '\x60' then some none
    else some (some (⟨marker, length⟩, rest))

def isFenceClose (trimmed : List Char) (style : CodeFenceStyle) : Option Bool :=
  let length := (trimmed.takeWhile (fun c => c = fenceChar style.marker)).length
  if length < style.length then some false
  else (dropBytes length trimmed).map (fun rest => rest.all isWhitespace)

/-! ## Lists -/

section
variable [Segmentation]

/-- The lines of a paragraph of a list item, if there are any, become a block. -/
def pushListParagraph (children : List Block) (lines : List (List Char)) (counter : Nat) :
    Option (List Block × Nat) :=
  if lines.isEmpty then some (children, counter) else do
  let (block, counter) ← parseTextBlock .paragraph (joinLines lines) ⟨counter, 0⟩ (counter + 1)
  some (children ++ [block], counter)

def listStyleOf (first : List Char) : Option ListStyle := do
  match ← orderedMarker first with
  | some (start, delimiter, _) =>
    some { ListStyle.default with ordered := true, start := start, delimiter := delimiter }
  | none =>
    let bullet := ((unorderedMarker first).map Prod.fst).getD .dash
    some { ListStyle.default with bullet := bullet }

/-- The body of a line that opens an item of this list. -/
def itemBody (style : ListStyle) (trimmed : List Char) : Option (Option (List Char)) :=
  if style.ordered then
    (orderedMarker trimmed).map (fun marker => (marker.filter (fun m =>
      m.2.1 = style.delimiter)).map (fun m => m.2.2))
  else some (((unorderedMarker trimmed).filter (fun m => m.1 = style.bullet)).map Prod.snd)

/-- The first line behind `i` that is not blank. -/
def nextLine (lines : List (List Char)) (i : Nat) : Option (List Char) :=
  (lines.drop (i + 1)).find? (fun line => !isBlank line)

/-- What has been read of a list. -/
structure ListState where
  loose : Bool
  items : List ListItem
  i : Nat
  counter : Nat

/-- What has been read of a list item. -/
structure ItemState where
  loose : Bool
  children : List Block
  paragraph : List (List Char)
  i : Nat
  counter : Nat

mutual

/-- The list that starts at `index`: the block, the index behind it and the counter. -/
def parseList : Nat → List (List Char) → Nat → Nat → Nat → Option (Block × Nat × Nat)
  | 0, _, _, _, _ => none
  | turns + 1, lines, index, counter, baseIndent => do
    let first ← lines[index]?
    let style ← listStyleOf (trim first)
    let state ← itemsLoop turns lines baseIndent style ⟨false, [], index, counter⟩
    let items := Sequence.fromOrdered (state.items.map (fun item => (item.elemId, item)))
    some (Block.new (.list { style with loose := state.loose } items []) ⟨state.counter, 0⟩,
      state.i, state.counter + 1)

def itemsLoop : Nat → List (List Char) → Nat → ListStyle → ListState → Option ListState
  | 0, _, _, _, _ => none
  | turns + 1, lines, baseIndent, style, state =>
    match lines[state.i]? with
    | none => some state
    | some line =>
      let indent := indentOf line
      let trimmed := trim line
      if trimmed.isEmpty then
        match nextLine lines state.i with
        | none => some state
        | some following => do
          let sameList ← itemBody style (trim following)
          if baseIndent < indentOf following || (indentOf following = baseIndent && sameList.isSome) then
            itemsLoop turns lines baseIndent style { state with loose := true, i := state.i + 1 }
          else some state
      else if indent < baseIndent then some state
      else do
        match ← itemBody style trimmed with
        | none => some state
        | some body =>
          if baseIndent < indent then some state else
          let itemElem : OpId := ⟨state.counter, 0⟩
          let (task, body) := parseTaskMarker body
          let item ← continuationLoop turns lines baseIndent
            ⟨state.loose, [], if body.isEmpty then [] else [body], state.i + 1, state.counter + 1⟩
          let (children, counter) ← pushListParagraph item.children item.paragraph item.counter
          let children := Sequence.fromOrdered (children.map (fun b => (b.elemId, b)))
          itemsLoop turns lines baseIndent style
            ⟨item.loose, state.items ++ [⟨blockIdFromOp itemElem, itemElem, task, itemElem,
              .new, .new, children⟩], item.i, counter⟩

/-- The lines that continue an item, and the lists nested in it. -/
def continuationLoop : Nat → List (List Char) → Nat → ItemState → Option ItemState
  | 0, _, _, _ => none
  | turns + 1, lines, baseIndent, state =>
    match lines[state.i]? with
    | none => some state
    | some line =>
      let indent := indentOf line
      let trimmed := trim line
      if trimmed.isEmpty then
        match nextLine lines state.i with
        | none => some state
        | some following =>
          if baseIndent < indentOf following then do
            let nested ← isListStart (trim following)
            let (children, counter) ← (if nested then some (state.children, state.counter)
              else pushListParagraph state.children state.paragraph state.counter)
            continuationLoop turns lines baseIndent ⟨true, children,
              if nested then state.paragraph else [], state.i + 1, counter⟩
          else some state
      else if baseIndent < indent then do
        let nested ← isListStart trimmed
        if nested then
          let (children, counter) ← pushListParagraph state.children state.paragraph state.counter
          let (nested, stop, counter) ← parseList turns lines state.i counter indent
          continuationLoop turns lines baseIndent
            ⟨state.loose, children ++ [nested], [], stop, counter⟩
        else
          continuationLoop turns lines baseIndent
            { state with paragraph := state.paragraph ++ [trimmed], i := state.i + 1 }
      else some state

end

/-! ## Blocks -/

/-- Lines from `start` to below `stop`. -/
structure LineSpan where
  start : Nat
  stop : Nat
  deriving DecidableEq, Repr

/-- A line that ends a paragraph. -/
def interruptsParagraph (trimmed : List Char) : Option Bool :=
  if trimmed.isEmpty then some true else do
  let fence ← parseFenceOpen trimmed
  if fence.isSome || ['>'].isPrefixOf trimmed || [':', ':', ':'].isPrefixOf trimmed then some true
  else
    let heading ← parseAtxHeading trimmed
    if heading.isSome then some true else isListStart trimmed

/-- Columns one behind the other under fresh ids. -/
def tableColumns : List (ColumnDef × List Char) → Table → Option OpId → Nat → Table × Nat
  | [], table, _, counter => (table, counter)
  | (column, header) :: rest, table, after, counter =>
    let columnId : OpId := ⟨counter, 0⟩
    tableColumns rest (table.applyInsertColumn after columnId
      (table.columns.computeRightOrigin after) column.alignment (ofList header))
      (some columnId) (counter + 1)

/-- Rows from the lines that have cells; how many there were, and the counter. -/
def tableRows (columnIds : List BlockId) :
    List (List Char) → Table → Option OpId → Nat → Option (Table × Nat × Nat)
  | [], table, _, counter => some (table, 0, counter)
  | line :: rest, table, after, counter => do
    match ← parseTableCells line with
    | none => some (table, 0, counter)
    | some cells =>
      let rowId : OpId := ⟨counter, 0⟩
      let table := table.applyInsertRow after rowId (table.rows.computeRightOrigin after)
        (columnIds.zip (cells.map ofList))
      let (table, count, counter) ← tableRows columnIds rest table (some rowId) (counter + 1)
      some (table, count + 1, counter)

def parseTable (lines : List (List Char)) (index : Nat) (columns : List ColumnDef)
    (header : List (List Char)) (counter : Nat) : Option (Block × Nat × Nat) := do
  let elemId : OpId := ⟨counter, 0⟩
  let (table, counter) := tableColumns (columns.zip header)
    (Table.new (blockIdFromOp elemId) elemId elemId) none (counter + 1)
  let columnIds := table.columnsInOrder.map TableColumn.id
  let (table, count, counter) ← tableRows columnIds (lines.drop (index + 2)) table none counter
  some (Block.new (.table table) elemId, index + 2 + count, counter)

/-- The columns and the header of a table that starts at `index`. -/
def tableAt (lines : List (List Char)) (index : Nat) (line : List Char) :
    Option (Option (List ColumnDef × List (List Char))) :=
  match lines[index + 1]? with
  | none => some none
  | some nextLine => do
    match ← parseTableDelimiter nextLine with
    | none => some none
    | some columns =>
      match ← parseTableCells line with
      | none => some none
      | some header => some (if header.length = columns.length then some (columns, header) else none)

/-- A code fence, up to the line that closes it or to the end. -/
def parseFence (lines : List (List Char)) (index : Nat) (style : CodeFenceStyle)
    (codeInfo : List Char) (counter : Nat) : Option (Block × Nat × Nat) := do
  let contents ← takeWhileM (fun line => (isFenceClose (trim line) style).map not)
    (lines.drop (index + 1))
  let info := trim codeInfo
  some (Block.new (.codeFence style (if info.isEmpty then none else some (ofList info))
    (ofList (joinLines contents))) ⟨counter, 0⟩,
    min (index + 1 + contents.length + 1) lines.length, counter + 1)

/-- The lines of a blockquote that starts at `index`. -/
def quotedLines (lines : List (List Char)) (index : Nat) : List (List Char) :=
  (lines.drop index).takeWhile (fun line => ['>'].isPrefixOf (trim line))

/-- A quoted line without its marks. -/
def unquote (line : List Char) : List Char := trimStart (trimStartMatches '>' (trim line))

def parseQuote (parseBlocks : List (List Char) → Nat → Option (List Block × Nat))
    (lines : List (List Char)) (index counter : Nat) : Option (Block × Nat × Nat) := do
  let quoted := quotedLines lines index
  let (children, counter) ← parseBlocks (quoted.map unquote) counter
  let children := Sequence.fromOrdered (children.map (fun child => (child.elemId, child)))
  some (Block.new (.blockQuote children) ⟨counter, 0⟩, index + quoted.length, counter + 1)

/-- A raw block, up to the next blank line. -/
def parseRaw (lines : List (List Char)) (index : Nat) (line : List Char) (counter : Nat) :
    Block × Nat × Nat :=
  let raw := line :: (lines.drop (index + 1)).takeWhile (fun line => !isBlank line)
  (Block.new (.rawBlock (ofList (joinLines raw))) ⟨counter, 0⟩, index + raw.length,
    counter + 1)

def parseHeading (level : Nat) (title : List Char) (next counter : Nat) :
    Option (Block × Nat × Nat) := do
  let (block, counter) ← parseTextBlock (.heading level) title ⟨counter, 0⟩ (counter + 1)
  some (block, next, counter)

def parseParagraph (lines : List (List Char)) (index counter : Nat) :
    Option (Block × Nat × Nat) := do
  let paragraph ← takeWhileM (fun line => (interruptsParagraph (trim line)).map not)
    (lines.drop index)
  let (block, counter) ← parseTextBlock .paragraph (joinLines paragraph) ⟨counter, 0⟩ (counter + 1)
  some (block, index + paragraph.length, counter)

/-- The level of a heading that is underlined in the next line. -/
def setextLevel (lines : List (List Char)) (index : Nat) : Option Nat :=
  (lines[index + 1]?).bind (fun nextLine => parseSetextUnderline (trim nextLine))

/-- The block that a line which is not blank opens: the block, the index behind its lines and
    the counter. `parseBlocks` parses the lines of a blockquote. -/
def parseBlock (parseBlocks : List (List Char) → Nat → Option (List Block × Nat))
    (lines : List (List Char)) (index : Nat) (line : List Char) (counter : Nat) :
    Option (Block × Nat × Nat) := do
  let trimmed := trim line
  match ← parseFenceOpen trimmed with
  | some (style, codeInfo) => parseFence lines index style codeInfo counter
  | none =>
    if ['>'].isPrefixOf trimmed then parseQuote parseBlocks lines index counter
    else if [':', ':', ':'].isPrefixOf trimmed then some (parseRaw lines index line counter)
    else match ← tableAt lines index line with
    | some (columns, header) => parseTable lines index columns header counter
    | none => match ← parseAtxHeading trimmed with
      | some (level, title) => parseHeading level title (index + 1) counter
      | none => match ← isListStart trimmed with
        | true => parseList (3 * lines.length + 2) lines index counter (indentOf line)
        | false => match setextLevel lines index with
          | some level => parseHeading level trimmed (index + 2) counter
          | none => parseParagraph lines index counter

/-- The blocks of the lines from `index` on, with the lines each of them takes. -/
def parseBlocksWithSpans : Nat → List (List Char) → Nat → Nat →
    Option (List (Block × LineSpan) × Nat)
  | 0, _, _, _ => none
  | turns + 1, lines, index, counter =>
    match lines[index]? with
    | none => some ([], counter)
    | some line =>
      if isBlank line then parseBlocksWithSpans turns lines (index + 1) counter else do
      let parseBlocks := fun quoted counter =>
        (parseBlocksWithSpans turns quoted 0 counter).map (fun r => (r.1.map Prod.fst, r.2))
      let (block, stop, counter) ← parseBlock parseBlocks lines index line counter
      let (blocks, counter) ← parseBlocksWithSpans turns lines stop counter
      some ((block, ⟨index, stop⟩) :: blocks, counter)

/-- What bounds the turns of the parser: every turn takes a line, and every line of a blockquote
    loses a character. -/
def weight (lines : List (List Char)) : Nat := (lines.map (fun line => line.length + 1)).sum

end
end MdCrdt
