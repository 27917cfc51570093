import MdCrdt.Doc.Document

/- Wire envelopes and their codec (`codec/wire.rs`, `codec/mod.rs`).

  An envelope holds one document operation. A new block travels as a skeleton
  that names every element it will hold. JSON itself is a parameter (`Serde`):
  what is used of it is that reading back what was written gives the same
  envelope, and that a payload is never empty (`LimitedSerde`).

  Correspondence (Rust ↔ Lean):
    `JsonOpCodec::encode`, `decode` ↔ `encode`, `decode`
    `serde_json::to_vec`, `from_slice` ↔ `Serde.toVec`, `Serde.fromSlice`
    `kind_is_empty`, `check_kind_depth` ↔ `kindIsEmpty`, `kindDepthOk` -/
namespace MdCrdt
open Lib Except

def wireVersion : Nat := 4

def maxWireNestDepth : Nat := 16

structure TextUnitWire where
  id : OpId
  after : Option OpId
  rightOrigin : Option OpId
  grapheme : String
  deriving DecidableEq, Repr

/-- A text unit that changes blocks, under its old id where the destination allows it. -/
structure MovedTextUnitWire where
  sourceId : OpId
  id : OpId
  grapheme : String
  deriving DecidableEq, Repr

inductive ColumnAlignmentWire where
  | left | center | right
  deriving DecidableEq, Repr

structure TableCellWire where
  columnId : BlockId
  value : String
  deriving DecidableEq, Repr

mutual

structure BlockSkeleton where
  blockId : BlockId
  kind : BlockKindSkeleton

inductive BlockKindSkeleton where
  | paragraph (text : String)
  | heading (level : Nat) (text : String)
  | list (style : ListStyle) (items : List ListItemSkeleton)
  | codeFence (style : CodeFenceStyle) (info : Option String) (text : String)
  | blockQuote (children : List BlockSkeletonInsert)
  | rawBlock (raw : String)
  | table

structure ListItemSkeleton where
  after : Option OpId
  id : OpId
  rightOrigin : Option OpId
  blockId : BlockId
  task : Option TaskState
  taskOp : OpId
  children : List BlockSkeletonInsert

structure BlockSkeletonInsert where
  after : Option OpId
  id : OpId
  rightOrigin : Option OpId
  block : BlockSkeleton

end

inductive DocOp where
  | insertBlock (parent after : Option OpId) (id : OpId) (rightOrigin : Option OpId)
      (block : BlockSkeleton)
  | deleteBlock (parent : Option OpId) (target id : OpId)
  | deleteBlockById (parent : Option OpId) (target : OpId) (blockId : BlockId) (id : OpId)
  | insertText (blockElem : OpId) (blockId : BlockId) (units : List TextUnitWire)
  | deleteText (blockElem : OpId) (blockId : BlockId) (id : OpId) (targets : List OpId)
  | setMark (blockElem : OpId) (blockId : BlockId) (id : OpId) (kind : MarkKind)
      (start stop : Anchor) (attrs : SortedMap String MarkValue)
  | removeMark (blockElem : OpId) (blockId : BlockId) (intervalId id : OpId)
      (observed : StateVector)
  | setFrontmatterField (id : OpId) (key : String) (value : Option String)
  | initializeFrontmatter (id : OpId) (frontmatter : Frontmatter)
  | moveBlocks (toParent : Option OpId) (id : OpId) (blocks : List MovedBlockWire)
  | splitBlock (parent : Option OpId) (target id : OpId) (newBlockId : BlockId)
      (rightOrigin : Option OpId) (kind : TextBlockKindWire) (units : List MovedTextUnitWire)
  | mergeBlocks (parent : Option OpId) (left right id : OpId) (after rightOrigin : Option OpId)
      (units : List MovedTextUnitWire)
  | insertTableRow (tableElem : OpId) (tableId : BlockId) (after : Option OpId) (id : OpId)
      (rightOrigin : Option OpId) (cells : List TableCellWire)
  | insertTableColumn (tableElem : OpId) (tableId : BlockId) (after : Option OpId) (id : OpId)
      (rightOrigin : Option OpId) (alignment : ColumnAlignmentWire) (header : String)
  | setTableCell (tableElem : OpId) (tableId rowId columnId : BlockId) (id : OpId)
      (value : String) (observed : StateVector)
  | deleteTableRow (tableElem : OpId) (tableId : BlockId) (target id : OpId)
  | deleteTableRowById (tableElem : OpId) (tableId : BlockId) (target : OpId) (rowId : BlockId)
      (id : OpId)
  | deleteTableColumnById (tableElem : OpId) (tableId : BlockId) (target : OpId)
      (columnId : BlockId) (id : OpId)
  | setTableColumnAlignment (tableElem : OpId) (tableId columnId : BlockId) (id : OpId)
      (alignment : ColumnAlignmentWire) (observed : StateVector)
  | moveTableRow (tableElem : OpId) (tableId rowId : BlockId) (target id : OpId)
      (after rightOrigin : Option OpId) (observed : StateVector)
  | moveTableColumn (tableElem : OpId) (tableId columnId : BlockId) (target id : OpId)
      (after rightOrigin : Option OpId) (observed : StateVector)
  | insertListItem (listElem : OpId) (listId : BlockId) (after : Option OpId) (id : OpId)
      (rightOrigin : Option OpId) (task : Option TaskState)
  | deleteListItemById (listElem : OpId) (listId : BlockId) (target : OpId) (itemId : BlockId)
      (id : OpId)
  | moveListItem (fromListElem toListElem : OpId) (listId itemId : BlockId) (target id : OpId)
      (after rightOrigin : Option OpId) (observed : StateVector)
  | setListStyle (blockElem : OpId) (blockId : BlockId) (id : OpId) (style : ListStyle)
      (observed : StateVector)
  | setListItemTask (itemId : BlockId) (id : OpId) (task : Option TaskState)
      (observed : StateVector)
  | setCodeFence (blockElem : OpId) (blockId : BlockId) (id : OpId) (style : CodeFenceStyle)
      (info : Option String) (text : String) (observed : StateVector)
  | convertTextBlock (blockElem : OpId) (blockId : BlockId) (id : OpId) (kind : TextBlockKindWire)
      (observed : StateVector)
  | replaceRawBlock (blockElem : OpId) (blockId : BlockId) (id : OpId) (raw : String)
      (observed : StateVector)

inductive OpBody where
  | doc (op : DocOp)

structure Envelope where
  version : Nat
  body : OpBody

/-- The envelope a session writes. -/
def DocOp.envelope (op : DocOp) : Envelope := ⟨wireVersion, .doc op⟩

/-! ## Checks on skeletons -/

mutual

def kindIsEmpty : BlockKindSkeleton → Bool
  | .paragraph text | .heading _ text => text.isEmpty
  | .blockQuote children => childrenAreEmpty children
  | .list _ items => itemsAreEmpty items
  | .codeFence _ _ _ | .rawBlock _ | .table => true

def childrenAreEmpty : List BlockSkeletonInsert → Bool
  | [] => true
  | ⟨_, _, _, ⟨_, kind⟩⟩ :: rest => kindIsEmpty kind && childrenAreEmpty rest

def itemsAreEmpty : List ListItemSkeleton → Bool
  | [] => true
  | ⟨_, _, _, _, _, _, children⟩ :: rest => childrenAreEmpty children && itemsAreEmpty rest

end

/-- False only for a block insert that brings paragraph text along. -/
def insertBlockParagraphIsEmpty (envelope : Envelope) : Bool :=
  match envelope.body with
  | .doc (.insertBlock _ _ _ _ block) => kindIsEmpty block.kind
  | _ => true

mutual

def kindDepthOk (depth : Nat) : BlockKindSkeleton → Bool
  | .blockQuote children => decide (depth ≤ maxWireNestDepth) && childrenDepthOk depth children
  | .list _ items => decide (depth ≤ maxWireNestDepth) && itemsDepthOk depth items
  | .paragraph _ | .heading _ _ | .codeFence _ _ _ | .rawBlock _ | .table =>
    decide (depth ≤ maxWireNestDepth)

def childrenDepthOk (depth : Nat) : List BlockSkeletonInsert → Bool
  | [] => true
  | ⟨_, _, _, ⟨_, kind⟩⟩ :: rest => kindDepthOk (depth + 1) kind && childrenDepthOk depth rest

def itemsDepthOk (depth : Nat) : List ListItemSkeleton → Bool
  | [] => true
  | ⟨_, _, _, _, _, _, children⟩ :: rest => childrenDepthOk depth children && itemsDepthOk depth rest

end

/-! ## The codec -/

inductive CodecError where
  | serde (message : String)
  | unknownVersion (version : Nat)
  | nestDepthExceeded
  deriving DecidableEq, Repr

def validateEnvelopeStructure (envelope : Envelope) : Except CodecError Unit :=
  match envelope.body with
  | .doc (.insertBlock _ _ _ _ block) =>
    if kindDepthOk 0 block.kind then .ok () else .error .nestDepthExceeded
  | _ => .ok ()

/-- Reading and writing envelopes as bytes. -/
class Serde where
  Payload : Type
  toVec : Envelope → Except String Payload
  fromSlice : Payload → Except String Envelope
  length : Payload → Nat

open Serde

/-- Payloads that are the envelopes themselves. -/
@[reducible] def envelopeSerde : Serde := ⟨Envelope, .ok, .ok, fun _ => 1⟩

section Codec
variable [Serde] {p : Payload} {env : Envelope}

def encode (envelope : Envelope) : Except CodecError Payload :=
  match validateEnvelopeStructure envelope with
  | .error e => .error e
  | .ok () => (toVec envelope).mapError .serde

def decode (bytes : Payload) : Except CodecError Envelope :=
  match fromSlice bytes with
  | .error message =>
    .error (if (message.splitOn "recursion limit").length > 1 then .nestDepthExceeded
      else .serde message)
  | .ok envelope =>
    if envelope.version ≠ wireVersion then .error (.unknownVersion envelope.version)
    else match validateEnvelopeStructure envelope with
      | .error e => .error e
      | .ok () => .ok envelope

theorem decode_version (h : decode p = .ok env) : env.version = wireVersion := by
  unfold decode at h
  split at h
  · cases h
  · split at h
    · cases h
    · next hv =>
      split at h
      · cases h
      · rw [← ok.inj h]
        exact not_ne_iff.mp hv

theorem encode_ok (h : encode env = .ok p) :
    validateEnvelopeStructure env = .ok () ∧ toVec env = .ok p := by
  unfold encode at h
  split at h
  · cases h
  · next hv =>
    cases ht : toVec env with
    | error m =>
      rw [ht] at h
      cases h
    | ok q =>
      rw [ht] at h
      exact ⟨hv, congrArg ok (ok.inj h)⟩

end Codec
end MdCrdt
