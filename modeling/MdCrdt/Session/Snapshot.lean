import MdCrdt.Session.Session

/- Snapshots of a session (`session/snapshot.rs`, the second half of `session/mod.rs`).

  A snapshot holds the document, the log, what waits and what is deferred, and the
  clock. Restoring it builds every sequence anew: the elements as they stand, then
  the operations that waited for an anchor or a target, applied one by one
  (`reloadBlocks`). The clock must lie above the largest counter of the peer that
  the walk over the document and the log finds (`maxCounterForPeer`); joining under
  another peer id computes the clock from the same walk.

  Correspondence (Rust ↔ Lean):
    `from_elements_and_pending` ↔ `Sequence.fromElementsAndPending`
    `DocumentDto::from_document` followed by `into_document`
      ↔ `Document.reload`
    `walk_block_seq_max_peer`, `walk_kind_max_peer`, `walk_marks_max_peer`
      ↔ `walkBlocks`, `walkKind`, `walkMarks`
  The data transfer types repeat the document's own types, so a snapshot keeps the
  document itself and the conversion is made on restore. The bytes of a snapshot
  and its storage are not modelled. -/
namespace MdCrdt
open Lib SortedMap

/-! ## Rebuilding a document -/

namespace Sequence
variable {T : Type}

def fromElements (elements : List (Element T)) : Sequence T :=
  ⟨elements, rebuildIndex elements, empty, empty⟩

def fromElementsAndPending (elements : List (Element T)) (pending : List (SequenceOp T)) :
    Sequence T :=
  (fromElements elements).applyAll pending

/-- A sequence of values that have no sequences inside them. -/
def reload (s : Sequence T) : Sequence T := fromElementsAndPending s.elements s.pendingOps

end Sequence

def Table.reload (t : Table) : Table :=
  { t with columns := t.columns.reload, rows := t.rows.reload }

mutual

def reloadBlock : Block → Block
  | ⟨id, elemId, kindOp, kindObserved, kind, marks⟩ =>
    ⟨id, elemId, kindOp, kindObserved, reloadKind kind, marks⟩

def reloadKind : BlockKind → BlockKind
  | .paragraph text => .paragraph text.reload
  | .heading level text => .heading level text.reload
  | .list style items pendingMoves => .list style (reloadItems items) pendingMoves
  | .codeFence style info text => .codeFence style info text
  | .blockQuote children => .blockQuote (reloadBlocks children)
  | .rawBlock raw => .rawBlock raw
  | .table table => .table table.reload

def reloadBlocks : Sequence Block → Sequence Block
  | ⟨elements, _, ⟨inserts⟩, ⟨deletes⟩⟩ =>
    Sequence.fromElementsAndPending (reloadBlockElements elements)
      (reloadBlockBuffer inserts ++ reloadBlockBuffer deletes)

def reloadBlockElements : List (Element Block) → List (Element Block)
  | [] => []
  | ⟨id, none, after, rightOrigin⟩ :: rest =>
    ⟨id, none, after, rightOrigin⟩ :: reloadBlockElements rest
  | ⟨id, some block, after, rightOrigin⟩ :: rest =>
    ⟨id, some (reloadBlock block), after, rightOrigin⟩ :: reloadBlockElements rest

def reloadBlockBuffer : List (OpId × List (SequenceOp Block)) → List (SequenceOp Block)
  | [] => []
  | (_, ops) :: rest => reloadBlockOps ops ++ reloadBlockBuffer rest

def reloadBlockOps : List (SequenceOp Block) → List (SequenceOp Block)
  | [] => []
  | .insert after id block rightOrigin :: rest =>
    .insert after id (reloadBlock block) rightOrigin :: reloadBlockOps rest
  | .delete target id :: rest => .delete target id :: reloadBlockOps rest

def reloadItem : ListItem → ListItem
  | ⟨id, elemId, task, taskOp, taskObserved, placementObserved, children⟩ =>
    ⟨id, elemId, task, taskOp, taskObserved, placementObserved, reloadBlocks children⟩

def reloadItems : Sequence ListItem → Sequence ListItem
  | ⟨elements, _, ⟨inserts⟩, ⟨deletes⟩⟩ =>
    Sequence.fromElementsAndPending (reloadItemElements elements)
      (reloadItemBuffer inserts ++ reloadItemBuffer deletes)

def reloadItemElements : List (Element ListItem) → List (Element ListItem)
  | [] => []
  | ⟨id, none, after, rightOrigin⟩ :: rest =>
    ⟨id, none, after, rightOrigin⟩ :: reloadItemElements rest
  | ⟨id, some item, after, rightOrigin⟩ :: rest =>
    ⟨id, some (reloadItem item), after, rightOrigin⟩ :: reloadItemElements rest

def reloadItemBuffer : List (OpId × List (SequenceOp ListItem)) → List (SequenceOp ListItem)
  | [] => []
  | (_, ops) :: rest => reloadItemOps ops ++ reloadItemBuffer rest

def reloadItemOps : List (SequenceOp ListItem) → List (SequenceOp ListItem)
  | [] => []
  | .insert after id item rightOrigin :: rest =>
    .insert after id (reloadItem item) rightOrigin :: reloadItemOps rest
  | .delete target id :: rest => .delete target id :: reloadItemOps rest

end

def Document.reload (d : Document) : Document := ⟨d.frontmatter, reloadBlocks d.blocks⟩

/-! ## The largest counter of a peer -/

def walkMarks (marks : MarkSet) : List OpId :=
  marks.intervals.values.flatMap (fun interval =>
    interval.id :: interval.opId :: interval.attrs.values.map LwwRegister.opId) ++
  marks.removes.values.map RemoveMark.opId

def walkTable (table : Table) : List OpId :=
  table.elemId ::
  table.columns.elements.flatMap (fun elem => elem.id :: match elem.value with
    | some column => [column.deleted.opId, column.alignment.opId]
    | none => []) ++
  table.rows.elements.flatMap (fun elem => elem.id :: match elem.value with
    | some row => [row.deleted.opId]
    | none => []) ++
  table.cells.values.map TableCell.opId ++
  (table.pendingRowMoves ++ table.pendingColumnMoves).map PendingTableMove.id ++
  table.pendingColumnAlignments.map PendingColumnAlignment.id

mutual

/-- The ids that the walk over a block tree compares. Text units are not among them, nor is
    what waits inside a sequence. -/
def walkBlocks : Sequence Block → List OpId
  | ⟨elements, _, _, _⟩ => walkBlockElements elements

def walkBlockElements : List (Element Block) → List OpId
  | [] => []
  | ⟨id, none, _, _⟩ :: rest => id :: walkBlockElements rest
  | ⟨id, some ⟨_, _, kindOp, _, kind, marks⟩, _, _⟩ :: rest =>
    id :: kindOp :: walkMarks marks ++ walkKind kind ++ walkBlockElements rest

def walkKind : BlockKind → List OpId
  | .blockQuote children => walkBlocks children
  | .list _ ⟨elements, _, _, _⟩ pendingMoves =>
    walkItemElements elements ++ pendingMoves.map PendingListItemMove.id
  | .table table => walkTable table
  | .paragraph _ | .heading _ _ | .codeFence _ _ _ | .rawBlock _ => []

def walkItemElements : List (Element ListItem) → List OpId
  | [] => []
  | ⟨id, none, _, _⟩ :: rest => id :: walkItemElements rest
  | ⟨id, some ⟨_, _, _, taskOp, _, _, children⟩, _, _⟩ :: rest =>
    id :: taskOp :: walkBlocks children ++ walkItemElements rest

end

/-- The largest counter among the ids of a peer, 0 if there is none. -/
def maxCounter (peer : PeerId) (ids : List OpId) : Nat :=
  ids.foldl (fun m id => if id.peer = peer then max m id.counter else m) 0

def maxCounterForPeer {P : Type} (peer : PeerId) (ops : List (Operation P)) (doc : Document) : Nat :=
  maxCounter peer (ops.map Operation.id ++ walkBlocks doc.blocks)

/-! ## Snapshots -/

def snapshotFormatVersion : Nat := 6

inductive SnapshotError where
  | serde (error : CodecError)
  | reinitializeRequired (found expected : Nat)
  | clockBehind (peer : PeerId) (next max : Nat)

variable [Serde]

structure SessionSnapshot where
  formatVersion : Nat
  peer : PeerId
  nextCounter : Nat
  unitMode : Bool
  stateVector : StateVector
  checkpointEpoch : Nat
  deltaFloor : StateVector
  document : Document
  ops : List (Operation Serde.Payload)
  pending : List (Operation Serde.Payload)
  deferred : List (Operation Serde.Payload)

/-- Encode the envelopes that are kept, under their ids. -/
def encodeDeferred : List (OpId × Envelope) → Except SnapshotError (List (Operation Serde.Payload))
  | [] => .ok []
  | (id, envelope) :: rest => match encode envelope with
    | .error e => .error (.serde e)
    | .ok payload => (encodeDeferred rest).map (⟨id, payload⟩ :: ·)

def decodeDeferred (envelopes : SortedMap OpId Envelope) :
    List (Operation Serde.Payload) → Except SnapshotError (SortedMap OpId Envelope)
  | [] => .ok envelopes
  | op :: rest => match decode op.payload with
    | .error e => .error (.serde e)
    | .ok envelope => decodeDeferred (envelopes.insert op.id envelope) rest

namespace Session

def checkpointHistory (s : Session) (request : CheckpointRequest) :
    Session × Except CheckpointError CheckpointReport :=
  let (sync, result) := s.sync.checkpoint request
  ({ s with sync := sync }, result)

/-- The envelopes of operations in the log that wait for their observed vector. -/
def deferred (s : Session) : List (OpId × Envelope) :=
  s.pendingEnvelopes.entries.filter (fun e => s.sync.contains e.1)

def saveSnapshot (s : Session) : Except SnapshotError SessionSnapshot :=
  (encodeDeferred s.deferred).map (fun deferred =>
    ⟨snapshotFormatVersion, s.peer, s.nextCounter, s.unitMode, s.sync.stateVector,
      s.sync.checkpointEpoch, s.sync.deltaFloor, s.document, s.sync.appliedOps, s.sync.pendingOps,
      deferred⟩)

/-- The clock of a peer that continues from a state. -/
def rebindPeer (s : Session) (localPeer : PeerId) : Session :=
  let known := max (maxCounterForPeer localPeer s.sync.appliedOps s.document)
    (max (s.sync.stateVector.seen localPeer) (s.sync.deltaFloor.seen localPeer))
  { s with
    peer := localPeer
    nextCounter := saturatingAdd
      (max known (maxCounter localPeer (s.sync.pendingOps.map Operation.id))) 1 }

variable [Segmentation]

/-- A log with what is applied and what waits, the spans computed anew. -/
def restoreSync (ops pending : List (Operation Serde.Payload)) : SyncState Serde.Payload :=
  (SyncState.new.restoreApplied ops).restorePending
    (pending.map (fun op => (op, spanOfPayload op.payload)))

def restoreFromSnapshot (snap : SessionSnapshot) : Except SnapshotError Session :=
  if snap.formatVersion ≠ snapshotFormatVersion then
    .error (.reinitializeRequired snap.formatVersion snapshotFormatVersion)
  else
    let doc := snap.document.reload
    let known := max (maxCounterForPeer snap.peer snap.ops doc)
      (max (snap.stateVector.seen snap.peer) (snap.deltaFloor.seen snap.peer))
    let max := max known (maxCounter snap.peer (snap.pending.map Operation.id))
    if snap.nextCounter ≤ max then .error (.clockBehind snap.peer snap.nextCounter max)
    else
      (decodeDeferred empty snap.deferred).map (fun pendingEnvelopes =>
        ⟨snap.peer, snap.nextCounter, doc,
          (restoreSync snap.ops snap.pending).restoreHistory snap.stateVector snap.checkpointEpoch
            snap.deltaFloor,
          snap.unitMode, pendingEnvelopes⟩)

def rebaseFromSnapshot (snap : SessionSnapshot) (localPeer : PeerId) :
    Except SnapshotError Session :=
  (restoreFromSnapshot snap).map (fun s => s.rebindPeer localPeer)

/-- Join with the document and the operations of another session, without its state vector. -/
def importState (document : Document) (ops pending deferred : List (Operation Serde.Payload))
    (localPeer : PeerId) (unitMode : Bool) : Except SnapshotError Session :=
  let doc := document.reload
  let max := max (maxCounterForPeer localPeer ops doc)
    (maxCounter localPeer (pending.map Operation.id))
  (decodeDeferred empty deferred).map (fun pendingEnvelopes =>
    ⟨localPeer, saturatingAdd max 1, doc, restoreSync ops pending, unitMode, pendingEnvelopes⟩)

end Session
end MdCrdt
