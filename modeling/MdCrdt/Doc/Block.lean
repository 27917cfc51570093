import MdCrdt.Doc.Table

/- Blocks, list items and the tree they form (`doc/mod.rs`).

  A document is a sequence of blocks; a blockquote holds a sequence of blocks, a
  list a sequence of items, each with a sequence of blocks. A path names a block
  by the containers on the way and the id of its element. Blocks are found
  through an index that lists every live block with its path in document order,
  the first of several with one id winning.

  Correspondence (Rust ↔ Lean):
    `index_block_sequence` ↔ `indexBlockSequence`
    the first loop of `with_container_children_mut`, the second loop
      ↔ `directContainers`, `containers`
    `block_at_path`, `block_at_path_mut` ↔ `blockAtPath`, `modifyAtPath`
    the walk of `find_list_item(_by_id)` ↔ `listItems`
  The index is cached in the source and rebuilt after every mutation; here it is
  computed when it is needed. -/
namespace MdCrdt
open Lib

inductive ListDelimiter where
  | period | parenthesis
  deriving DecidableEq, Repr

inductive BulletMarker where
  | dash | plus | asterisk
  deriving DecidableEq, Repr

inductive TaskState where
  | unchecked | checked
  deriving DecidableEq, Repr

structure ListStyle where
  ordered : Bool
  start : Nat
  delimiter : ListDelimiter
  bullet : BulletMarker
  loose : Bool
  deriving DecidableEq, Repr

def ListStyle.default : ListStyle := ⟨false, 1, .period, .dash, false⟩

inductive FenceMarker where
  | backtick | tilde
  deriving DecidableEq, Repr

def fenceChar : FenceMarker → Char
  | .backtick => '\x60'
  | .tilde => '~'

structure CodeFenceStyle where
  marker : FenceMarker
  length : Nat
  deriving DecidableEq, Repr

structure PendingListItemMove where
  fromListElem : OpId
  toListElem : OpId
  listId : BlockId
  itemId : BlockId
  target : OpId
  id : OpId
  after : Option OpId
  rightOrigin : Option OpId
  observed : StateVector
  deriving DecidableEq

mutual

structure Block where
  id : BlockId
  elemId : OpId
  /-- The operation that wrote the kind-specific data last. -/
  kindOp : OpId
  kindObserved : StateVector
  kind : BlockKind
  marks : MarkSet

inductive BlockKind where
  | paragraph (text : Sequence TextUnit)
  | heading (level : Nat) (text : Sequence TextUnit)
  | list (style : ListStyle) (items : Sequence ListItem) (pendingMoves : List PendingListItemMove)
  | codeFence (style : CodeFenceStyle) (info : Option String) (text : String)
  | blockQuote (children : Sequence Block)
  | rawBlock (raw : String)
  | table (table : Table)

structure ListItem where
  id : BlockId
  elemId : OpId
  task : Option TaskState
  taskOp : OpId
  taskObserved : StateVector
  placementObserved : StateVector
  children : Sequence Block

end

instance : Inhabited BlockKind := ⟨.rawBlock ""⟩

def Block.new (kind : BlockKind) (insertId : OpId) : Block :=
  ⟨blockIdFromOp insertId, insertId, insertId, .new, kind, .new⟩

def blockTextSeq : BlockKind → Option (Sequence TextUnit)
  | .paragraph text => some text
  | .heading _ text => some text
  | _ => none

/-- Change the text body, if there is one. -/
def BlockKind.modifyText (kind : BlockKind) (f : Sequence TextUnit → Sequence TextUnit) : BlockKind :=
  match kind with
  | .paragraph text => .paragraph (f text)
  | .heading level text => .heading level (f text)
  | kind => kind

inductive BlockContainerPath where
  | blockQuote (id : OpId)
  | listItem (list item : OpId)
  deriving DecidableEq, Repr

structure BlockPath where
  containers : List BlockContainerPath
  elemId : OpId
  deriving DecidableEq, Repr

/-! ## The index -/

mutual

/-- Every live block below a sequence with its path, in document order. -/
def indexBlockSequence (containers : List BlockContainerPath) :
    Sequence Block → List (BlockPath × Block)
  | ⟨elements, _, _, _⟩ => indexElements containers elements

def indexElements (containers : List BlockContainerPath) :
    List (Element Block) → List (BlockPath × Block)
  | [] => []
  | ⟨_, none, _, _⟩ :: rest => indexElements containers rest
  | ⟨id, some block, _, _⟩ :: rest =>
    (⟨containers, id⟩, block) :: indexBlock containers id block ++ indexElements containers rest

/-- Everything inside a block that stands under `id`. -/
def indexBlock (containers : List BlockContainerPath) (id : OpId) : Block → List (BlockPath × Block)
  | ⟨_, _, _, _, kind, _⟩ => indexKind containers id kind

def indexKind (containers : List BlockContainerPath) (id : OpId) :
    BlockKind → List (BlockPath × Block)
  | .blockQuote children => indexBlockSequence (containers ++ [.blockQuote id]) children
  | .list _ items _ => indexItemSequence containers id items
  | .paragraph _ | .heading _ _ | .codeFence _ _ _ | .rawBlock _ | .table _ => []

def indexItemSequence (containers : List BlockContainerPath) (id : OpId) :
    Sequence ListItem → List (BlockPath × Block)
  | ⟨elements, _, _, _⟩ => indexItems containers id elements

def indexItems (containers : List BlockContainerPath) (id : OpId) :
    List (Element ListItem) → List (BlockPath × Block)
  | [] => []
  | ⟨_, none, _, _⟩ :: rest => indexItems containers id rest
  | ⟨itemId, some item, _, _⟩ :: rest =>
    indexItem (containers ++ [.listItem id itemId]) item ++ indexItems containers id rest

def indexItem (containers : List BlockContainerPath) : ListItem → List (BlockPath × Block)
  | ⟨_, _, _, _, _, _, children⟩ => indexBlockSequence containers children

end

/-! ## List items -/

mutual

/-- Every live list item below a sequence, an item before those inside it. -/
def listItems : Sequence Block → List ListItem
  | ⟨elements, _, _, _⟩ => listItemsElements elements

def listItemsElements : List (Element Block) → List ListItem
  | [] => []
  | ⟨_, none, _, _⟩ :: rest => listItemsElements rest
  | ⟨_, some block, _, _⟩ :: rest => listItemsBlock block ++ listItemsElements rest

def listItemsBlock : Block → List ListItem
  | ⟨_, _, _, _, kind, _⟩ => listItemsKind kind

def listItemsKind : BlockKind → List ListItem
  | .blockQuote children => listItems children
  | .list _ items _ => listItemsItems items
  | .paragraph _ | .heading _ _ | .codeFence _ _ _ | .rawBlock _ | .table _ => []

def listItemsItems : Sequence ListItem → List ListItem
  | ⟨elements, _, _, _⟩ => listItemsItemElements elements

def listItemsItemElements : List (Element ListItem) → List ListItem
  | [] => []
  | ⟨_, none, _, _⟩ :: rest => listItemsItemElements rest
  | ⟨_, some item, _, _⟩ :: rest => item :: listItemsItem item ++ listItemsItemElements rest

def listItemsItem : ListItem → List ListItem
  | ⟨_, _, _, _, _, _, children⟩ => listItems children

end

/-! ## Containers -/

/-- What one element adds to the containers of its sequence. -/
def elementDirect (e : Element Block) : List (OpId × BlockContainerPath) :=
  match e.value with
  | none => []
  | some block => match block.kind with
    | .blockQuote _ => [(block.elemId, .blockQuote e.id)]
    | .list _ items _ => items.elements.filterMap (fun ie =>
        ie.value.map (fun item => (item.elemId, .listItem e.id ie.id)))
    | _ => []

/-- Containers that stand directly in a sequence: the id they answer to and the way in. -/
def directContainers (s : Sequence Block) : List (OpId × BlockContainerPath) :=
  s.elements.flatMap elementDirect

mutual

/-- Containers below a sequence in the order of the search: those of the sequence itself, then
    those inside each of its blocks. -/
def containers : Sequence Block → List (OpId × List BlockContainerPath)
  | ⟨elements, index, pendingInserts, pendingDeletes⟩ =>
    (directContainers ⟨elements, index, pendingInserts, pendingDeletes⟩).map
      (fun c => (c.1, [c.2])) ++ containersElements elements

def containersElements : List (Element Block) → List (OpId × List BlockContainerPath)
  | [] => []
  | ⟨_, none, _, _⟩ :: rest => containersElements rest
  | ⟨id, some block, _, _⟩ :: rest => containersBlock id block ++ containersElements rest

def containersBlock (id : OpId) : Block → List (OpId × List BlockContainerPath)
  | ⟨_, _, _, _, kind, _⟩ => containersKind id kind

def containersKind (id : OpId) : BlockKind → List (OpId × List BlockContainerPath)
  | .blockQuote children => (containers children).map (fun c => (c.1, .blockQuote id :: c.2))
  | .list _ items _ => containersItems id items
  | .paragraph _ | .heading _ _ | .codeFence _ _ _ | .rawBlock _ | .table _ => []

def containersItems (id : OpId) : Sequence ListItem → List (OpId × List BlockContainerPath)
  | ⟨elements, _, _, _⟩ => containersItemElements id elements

def containersItemElements (id : OpId) :
    List (Element ListItem) → List (OpId × List BlockContainerPath)
  | [] => []
  | ⟨_, none, _, _⟩ :: rest => containersItemElements id rest
  | ⟨itemId, some item, _, _⟩ :: rest =>
    (containersItem item).map (fun c => (c.1, .listItem id itemId :: c.2)) ++
      containersItemElements id rest

def containersItem : ListItem → List (OpId × List BlockContainerPath)
  | ⟨_, _, _, _, _, _, children⟩ => containers children

end

/-! ## Paths -/

/-- The children of the container a path leads to. -/
def childrenAt : List BlockContainerPath → Sequence Block → Option (Sequence Block)
  | [], s => some s
  | .blockQuote id :: rest, s =>
    (s.value? id).bind (fun block => match block.kind with
      | .blockQuote children => childrenAt rest children
      | _ => none)
  | .listItem list item :: rest, s =>
    (s.value? list).bind (fun block => match block.kind with
      | .list _ items _ => (items.value? item).bind (fun item => childrenAt rest item.children)
      | _ => none)

/-- Change the children of the container a path leads to; nothing happens where it leads
    nowhere. -/
def modifyChildrenAt (f : Sequence Block → Sequence Block) :
    List BlockContainerPath → Sequence Block → Sequence Block
  | [], s => f s
  | .blockQuote id :: rest, s =>
    s.withValue id (fun block => match block.kind with
      | .blockQuote children =>
        { block with kind := .blockQuote (modifyChildrenAt f rest children) }
      | _ => block)
  | .listItem list item :: rest, s =>
    s.withValue list (fun block => match block.kind with
      | .list style items pendingMoves =>
        { block with kind := .list style (items.withValue item (fun item =>
            { item with children := modifyChildrenAt f rest item.children })) pendingMoves }
      | _ => block)

def blockAtPath (s : Sequence Block) (path : BlockPath) : Option Block :=
  (childrenAt path.containers s).bind (fun children => children.value? path.elemId)

def modifyAtPath (s : Sequence Block) (path : BlockPath) (f : Block → Block) : Sequence Block :=
  modifyChildrenAt (fun children => children.withValue path.elemId f) path.containers s

end MdCrdt
