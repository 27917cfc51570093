import Mathlib.Data.List.Sort
import MdCrdt.Lib.FaultyDisk
import MdCrdt.Lib.LittleEndian
import MdCrdt.Vault.Files

/- Snapshots and operation segments on disk (`storage/mod.rs`).

  A snapshot lives in one of two slots. A slot is a segment, which holds the payload,
  and a superblock, which holds a generation and the length and checksum of the segment.
  A write goes to the slot with the smaller generation, the segment first; a read takes
  the newest slot whose segment fits its superblock. Operation segments are files
  `op_0`, `op_1`, … of their own; compacting archives them and writes a snapshot.

  Correspondence (Rust ↔ Lean):
    `STORAGE_SLOTS`, `StorageSlot` ↔ `Slot`
    `decode_superblock`, the trailing checksum of `write_snapshot`
      ↔ `decodeSuperblock`, `encodeSuperblock`
    the first loop of `read_snapshot`, the second
      ↔ `readCandidates`, `readSegments`
    the `min_by_key` of `write_snapshot` ↔ `targetSlot`
    the loops of `compact`, what follows ↔ `archiveSegments`, `archiveAllOps`,
      `publishCompacted`
  A directory is an entry of its own with nothing in it; directories below `ops` and
  `archive` are not modelled. Index arithmetic wraps as in the release profile. The
  archive format and the checksum come from libraries (`Format`). -/
namespace MdCrdt.Storage
open Lib Prog
open Vault (Name Path)

abbrev Bytes := List UInt8

/-! ## What comes from libraries -/

structure SuperblockV2Body where
  version : Nat
  generation : Nat
  seqRefIndexFlag : Bool
  pendingOps : Bytes
  segmentChecksum : UInt32
  segmentLen : Nat
  deriving DecidableEq

/-- The checksum, and the archive format of superblocks and tombstones. -/
class Format where
  checksum : Bytes → UInt32
  toBytes : SuperblockV2Body → Option Bytes
  access : Bytes → Option SuperblockV2Body
  tombstonesToBytes : List Nat → Option Bytes
  accessTombstones : Bytes → Option (List Nat)

open Format

/-- What is used of the format: a superblock that was written is read back. Nothing is asked of
    the checksum. -/
class LawfulFormat [Format] : Prop where
  access_toBytes : ∀ body bytes, toBytes body = some bytes → access bytes = some body

/-! ## Names -/

def rootFile (name : String) : Path := ⟨[], name.toList⟩

inductive Slot where
  | a | b
  deriving DecidableEq, Repr

def Slot.superblock : Slot → Path
  | .a => rootFile "superblock_a"
  | .b => rootFile "superblock_b"

def Slot.segment : Slot → Path
  | .a => rootFile "segment_a"
  | .b => rootFile "segment_b"

def Slot.other : Slot → Slot
  | .a => .b
  | .b => .a

def storageSlots : List Slot := [.a, .b]

def legacySegmentFile : Path := rootFile "segment"

def opsDir : Path := rootFile "ops"

def archiveDir : Path := rootFile "archive"

def tombstonesFile : Path := rootFile "tombstones.bin"

/-- A file in a directory of the root. -/
def within (dir : Path) (name : Name) : Path := ⟨[dir.name], name⟩

/-- Does the path name a file in the directory? -/
def isIn (dir : Path) (p : Path) : Bool := decide (p.dir = [dir.name])

/-- `{name}.tmp`. -/
def tempPath (p : Path) : Path := ⟨p.dir, p.name ++ ".tmp".toList⟩

def v2Version : Nat := 2

/-- `str::parse::<usize>`. -/
def parseUsize (text : Name) : Option Nat :=
  let digits := match text with
    | '+' :: rest => rest
    | text => text
  if digits.isEmpty || !digits.all Char.isDigit then none
  else
    let value := digits.foldl (fun n c => 10 * n + (c.toNat - '0'.toNat)) 0
    if value < 2 ^ 64 then some value else none

/-- The number behind a prefix. -/
def indexAfter (prefixed name : Name) : Option Nat :=
  if prefixed <+: name then parseUsize (name.drop prefixed.length) else none

def opPrefix : Name := "op_".toList

def segmentPrefix : Name := "segment_".toList

/-! ## Errors -/

inductive StorageError where
  | io
  | corrupt (reason : String)
  | corruptOperationSegment (path : Path) (reason : String)
  | missing
  | reinitializeRequired (found : Option Nat) (expected : Nat)
  deriving DecidableEq

/-- A program on a storage directory. -/
abbrev StorageM (A : Type) := Fallible (Disk.Cmd Path Bytes) Disk.Answer StorageError A

/-- A storage directory. -/
abbrev Store := Disk Path Bytes

/-- `?` on an I/O result. -/
def orIo {A : Type} : Except Unit A → Except StorageError A
  | .ok a => .ok a
  | .error _ => .error .io

def pathExists (p : Path) : StorageM Bool := attempt (c := .exist p) (fun b => .ok b)

/-- `fs::read`, nothing for `NotFound`. -/
def readFile (p : Path) : StorageM (Option Bytes) := attempt (c := .read p) orIo

def createDirAll (p : Path) : StorageM Unit := attempt (c := .create p []) orIo

def overwrite (p : Path) (bytes : Bytes) : StorageM Unit := attempt (c := .overwrite p bytes) orIo

def copyFile (source destination : Path) : StorageM Unit :=
  attempt (c := .copy source destination) orIo

def renameFile (source destination : Path) : StorageM Unit :=
  attempt (c := .rename source destination) orIo

def readDir (dir : Path) : StorageM (List Path) := attempt (c := .list (isIn dir)) orIo

/-- `sync_all` on a file or a directory. -/
def sync : StorageM Unit := attempt (c := .other) orIo

def atomicWriteDurable (path : Path) (bytes : Bytes) : StorageM Unit := do
  overwrite (tempPath path) []
  overwrite (tempPath path) bytes
  sync
  renameFile (tempPath path) path
  sync

section Format
variable [Format]

/-! ## Superblocks -/

structure SuperblockMetadata where
  generation : Nat
  seqRefIndexFlag : Bool
  pendingOps : Bytes
  segmentChecksum : UInt32
  segmentLen : Nat
  deriving DecidableEq

def decodeSuperblock (bytes : Bytes) : Except StorageError SuperblockMetadata :=
  if bytes.length < 4 then .error (.corrupt "superblock checksum")
  else
    let body := bytes.take (bytes.length - 4)
    let trailer := bytes.drop (bytes.length - 4)
    if (checksum body).toNat ≠ fromLeBytes trailer then .error (.corrupt "superblock checksum")
    else match access body with
      | none => .error (.corrupt "decode")
      | some archived =>
        if archived.version ≠ v2Version then
          .error (.reinitializeRequired (some archived.version) v2Version)
        else .ok ⟨archived.generation, archived.seqRefIndexFlag, archived.pendingOps,
          archived.segmentChecksum, archived.segmentLen⟩

/-- The body of a superblock with its checksum. -/
def encodeSuperblock (body : Bytes) : Bytes := body ++ toLeBytes 4 (checksum body).toNat

/-- Does a segment fit the superblock? -/
def SuperblockMetadata.fits (metadata : SuperblockMetadata) (segment : Bytes) : Bool :=
  decide (segment.length = metadata.segmentLen) &&
    decide (checksum segment = metadata.segmentChecksum)

/-! ## Writing a snapshot -/

/-- The generation of a slot, nothing where it has no readable superblock. -/
def readSlotGeneration (slot : Slot) : StorageM (Option Nat) := do
  match ← readFile slot.superblock with
  | none => pure none
  | some bytes => match decodeSuperblock bytes with
    | .ok metadata => pure (some metadata.generation)
    | .error (.corrupt _) => pure none
    | .error error => throw error

/-- The slot with the smaller generation, the first of two equal ones. -/
def targetSlot (a b : Option Nat) : Slot := if a.getD 0 ≤ b.getD 0 then .a else .b

def maxGeneration (a b : Option Nat) : Nat := max (a.getD 0) (b.getD 0)

/-- The body of the superblock that a write publishes. -/
def superblockFor (payload pendingOps : Bytes) (seqRefIndexFlag : Bool) (generation : Nat) :
    SuperblockV2Body :=
  ⟨v2Version, generation, seqRefIndexFlag, pendingOps, checksum payload, payload.length⟩

def writeSnapshot (payload pendingOps : Bytes) (seqRefIndexFlag : Bool) : StorageM Unit := do
  if ← pathExists legacySegmentFile then throw (.reinitializeRequired none v2Version)
  let a ← readSlotGeneration .a
  let b ← readSlotGeneration .b
  let target := targetSlot a b
  atomicWriteDurable target.segment payload
  if 2 ^ 64 ≤ maxGeneration a b + 1 then throw (.corrupt "generation overflow")
  match toBytes (superblockFor payload pendingOps seqRefIndexFlag (maxGeneration a b + 1)) with
  | none => throw (.corrupt "encode")
  | some body => atomicWriteDurable target.superblock (encodeSuperblock body)

/-! ## Reading a snapshot -/

structure Candidates where
  candidates : List (Slot × SuperblockMetadata)
  sawSuperblock : Bool
  lastCorruption : String

def readCandidates : List Slot → Candidates → StorageM Candidates
  | [], c => pure c
  | slot :: rest, c => do
    match ← readFile slot.superblock with
    | none => readCandidates rest c
    | some bytes => match decodeSuperblock bytes with
      | .ok metadata =>
        readCandidates rest { c with candidates := c.candidates ++ [(slot, metadata)],
                                     sawSuperblock := true }
      | .error (.corrupt reason) =>
        readCandidates rest { c with sawSuperblock := true, lastCorruption := reason }
      | .error error => throw error

/-- The first candidate whose segment fits, or why the last one was passed over. -/
def readSegments : List (Slot × SuperblockMetadata) → String →
    StorageM ((Bytes × Bytes × Bool) ⊕ String)
  | [], lastCorruption => pure (.inr lastCorruption)
  | (slot, metadata) :: rest, _ => do
    match ← readFile slot.segment with
    | none => readSegments rest "missing segment"
    | some segment =>
      if segment.length ≠ metadata.segmentLen then readSegments rest "length mismatch"
      else if checksum segment ≠ metadata.segmentChecksum then
        readSegments rest "checksum mismatch"
      else pure (.inl (segment, metadata.pendingOps, metadata.seqRefIndexFlag))

def newestFirst (candidates : List (Slot × SuperblockMetadata)) : List (Slot × SuperblockMetadata) :=
  candidates.insertionSort (fun x y => y.2.generation ≤ x.2.generation)

def readSnapshot : StorageM (Bytes × Bytes × Bool) := do
  let c ← readCandidates storageSlots ⟨[], false, "decode"⟩
  match ← readSegments (newestFirst c.candidates) c.lastCorruption with
  | .inl found => pure found
  | .inr lastCorruption =>
    if ← pathExists legacySegmentFile then throw (.reinitializeRequired none v2Version)
    else if c.sawSuperblock then throw (.corrupt lastCorruption)
    else throw .missing

/-! ## Operation segments -/

def opSegmentMagic : Bytes := [77, 68, 67, 82, 68, 84, 79, 80]

def opSegmentVersion : Nat := 1

def opSegmentHeaderLen : Nat := 8 + 2 + 8 + 4

def encodeOpSegment (payload : Bytes) : Bytes :=
  opSegmentMagic ++ toLeBytes 2 opSegmentVersion ++ toLeBytes 8 payload.length ++
    toLeBytes 4 (checksum payload).toNat ++ payload

def decodeOpSegment (path : Path) (bytes : Bytes) : Except StorageError Bytes :=
  let corrupt := fun reason => Except.error (.corruptOperationSegment path reason)
  if bytes.length < opSegmentHeaderLen then corrupt "truncated header"
  else if bytes.take 8 ≠ opSegmentMagic then corrupt "magic"
  else if fromLeBytes ((bytes.drop 8).take 2) ≠ opSegmentVersion then corrupt "version"
  else
    let payloadLen := fromLeBytes ((bytes.drop 10).take 8)
    if 2 ^ 64 ≤ opSegmentHeaderLen + payloadLen then corrupt "length overflow"
    else if bytes.length ≠ opSegmentHeaderLen + payloadLen then corrupt "length mismatch"
    else
      let payload := bytes.drop opSegmentHeaderLen
      if (checksum payload).toNat ≠ fromLeBytes ((bytes.drop 18).take 4) then
        corrupt "checksum mismatch"
      else .ok payload

/-- One more than the largest index behind a prefix. -/
def indexBehind (prefixed : Name) (entries : List Path) : Nat :=
  match (entries.filterMap (fun p => indexAfter prefixed p.name)).max? with
  | none => 0
  | some value => (value + 1) % 2 ^ 64

def nextIndex (dir : Path) (prefixed : Name) : StorageM Nat := do
  if ← pathExists dir then
    let entries ← readDir dir
    pure (indexBehind prefixed entries)
  else pure 0

/-- A file of a directory named by a prefix and an index. -/
def indexed (dir : Path) (prefixed : Name) (index : Nat) : Path :=
  within dir (prefixed ++ (toString index).toList)

def appendOpSegment (payload : Bytes) : StorageM Path := do
  createDirAll opsDir
  let index ← nextIndex opsDir opPrefix
  atomicWriteDurable (indexed opsDir opPrefix index) (encodeOpSegment payload)
  pure (indexed opsDir opPrefix index)

/-- The files of operation segments, by index. -/
def opPaths (entries : List Path) : List (Nat × Path) :=
  (entries.filterMap (fun p => (indexAfter opPrefix p.name).map (fun index => (index, p)))).insertionSort
    (fun x y => x.1 ≤ y.1)

def readOps : List (Nat × Path) → StorageM (List Bytes)
  | [] => pure []
  | (_, path) :: rest => do
    match ← readFile path with
    | none => throw .io
    | some bytes => match decodeOpSegment path bytes with
      | .error error => throw error
      | .ok payload => do
        let payloads ← readOps rest
        pure (payload :: payloads)

/-- The first file whose index is not its position. -/
def misplaced (paths : List (Nat × Path)) : Option Path :=
  (paths.zipIdx.find? (fun p => p.2 ≠ p.1.1)).map (fun p => p.1.2)

def readInOrder (paths : List (Nat × Path)) : StorageM (List Bytes) :=
  match misplaced paths with
  | some path => throw (.corruptOperationSegment path "non-contiguous index")
  | none => readOps paths

def readOpSegments : StorageM (List Bytes) := do
  if ← pathExists opsDir then
    let entries ← readDir opsDir
    readInOrder (opPaths entries)
  else pure []

/-! ## Compaction -/

inductive TombstoneRetention where
  | keepAll
  | maxCount (max : Nat)
  deriving DecidableEq, Repr

structure CompactionReport where
  archivedSegments : Nat
  archivedOps : Nat
  prunedTombstones : Nat
  keptTombstones : Nat
  deriving DecidableEq, Repr

def pruneTombstones (values : List Nat) : TombstoneRetention → List Nat × Nat
  | .keepAll => (values, 0)
  | .maxCount max =>
    if max = 0 then ([], values.length)
    else if values.length ≤ max then (values, 0)
    else (values.drop (values.length - max), values.length - max)

def readTombstones : StorageM (List Nat) := do
  if ← pathExists tombstonesFile then
    match ← readFile tombstonesFile with
    | none => throw .io
    | some bytes => match accessTombstones bytes with
      | none => throw (.corrupt "decode")
      | some values => pure values
  else pure []

/-- Copy the segments that are there to the archive; how many. -/
def archiveSegments : List Slot → Nat → StorageM Nat
  | [], count => pure count
  | slot :: rest, count => do
    if ← pathExists slot.segment then
      let index ← nextIndex archiveDir segmentPrefix
      copyFile slot.segment (indexed archiveDir segmentPrefix index)
      archiveSegments rest (count + 1)
    else archiveSegments rest count

/-- Move files to the archive; how many. -/
def archiveOps : List Path → Nat → StorageM Nat
  | [], count => pure count
  | path :: rest, count => do
    if ← pathExists path then
      let index ← nextIndex archiveDir opPrefix
      renameFile path (indexed archiveDir opPrefix index)
      archiveOps rest (count + 1)
    else archiveOps rest count

def archiveAllOps : StorageM Nat := do
  if ← pathExists opsDir then
    let entries ← readDir opsDir
    archiveOps entries 0
  else pure 0

/-- The tombstones and the snapshot, behind the archive. -/
def publishCompacted (payload pendingOps : Bytes) (seqRefIndexFlag : Bool)
    (retention : TombstoneRetention) (tombstones : List Nat) (archivedSegments archivedOps : Nat) :
    StorageM CompactionReport := do
  let all ← readTombstones
  let pruned := pruneTombstones (all ++ tombstones) retention
  match tombstonesToBytes pruned.1 with
  | none => throw (.corrupt "encode")
  | some encoded => do
    overwrite tombstonesFile encoded
    writeSnapshot payload pendingOps seqRefIndexFlag
    pure ⟨archivedSegments, archivedOps, pruned.2, pruned.1.length⟩

def compact (payload pendingOps : Bytes) (seqRefIndexFlag : Bool) (retention : TombstoneRetention)
    (tombstones : List Nat) : StorageM CompactionReport := do
  createDirAll archiveDir
  let archivedSegments ← archiveSegments storageSlots 0
  let archivedOps ← archiveAllOps
  publishCompacted payload pendingOps seqRefIndexFlag retention tombstones archivedSegments archivedOps

end Format

/-! ## A format

The fields one after the other, to run the definitions with. -/

def plainToBytes (b : SuperblockV2Body) : Option Bytes :=
  if b.version < 256 ^ 4 ∧ b.generation < 256 ^ 8 ∧ b.segmentLen < 256 ^ 8 then
    some (toLeBytes 4 b.version ++ (toLeBytes 8 b.generation ++ (toLeBytes 1 b.seqRefIndexFlag.toNat ++
      (toLeBytes 4 b.segmentChecksum.toNat ++ (toLeBytes 8 b.segmentLen ++ b.pendingOps)))))
  else none

def plainAccess (bytes : Bytes) : SuperblockV2Body :=
  let afterVersion := bytes.drop 4
  let afterGeneration := afterVersion.drop 8
  let afterFlag := afterGeneration.drop 1
  let afterChecksum := afterFlag.drop 4
  ⟨fromLeBytes (bytes.take 4), fromLeBytes (afterVersion.take 8),
    decide (fromLeBytes (afterGeneration.take 1) = 1), afterChecksum.drop 8,
    UInt32.ofNat (fromLeBytes (afterFlag.take 4)), fromLeBytes (afterChecksum.take 8)⟩

theorem plainAccess_plainToBytes (h : plainToBytes b = some bytes) : plainAccess bytes = b := by
  unfold plainToBytes at h
  split at h
  · next hb =>
    obtain ⟨hv, hg, hl⟩ := hb
    have hf : b.seqRefIndexFlag.toNat < 256 ^ 1 := by cases b.seqRefIndexFlag <;> decide
    have hc : b.segmentChecksum.toNat < 256 ^ 4 := b.segmentChecksum.toNat_lt
    obtain rfl := Option.some.inj h
    simp only [plainAccess, List.take_left' (length_toLeBytes _ _),
      List.drop_left' (length_toLeBytes _ _), fromLeBytes_toLeBytes hv, fromLeBytes_toLeBytes hg,
      fromLeBytes_toLeBytes hf, fromLeBytes_toLeBytes hc, fromLeBytes_toLeBytes hl, UInt32.ofNat_toNat]
    cases b with
    | mk version generation flag pendingOps sum len => cases flag <;> rfl
  · cases h

@[reducible] def plainFormat : Format where
  checksum bytes := bytes.foldl (fun sum b => 31 * sum + b.toUInt32) 7
  toBytes := plainToBytes
  access bytes := some (plainAccess bytes)
  tombstonesToBytes values := some (values.flatMap (toLeBytes 8))
  accessTombstones bytes :=
    if bytes.length % 8 = 0 then
      some ((List.range (bytes.length / 8)).map (fun i => fromLeBytes ((bytes.drop (8 * i)).take 8)))
    else none

theorem plainFormat_lawful : @LawfulFormat plainFormat :=
  @LawfulFormat.mk plainFormat (fun _ _ h => congrArg some (plainAccess_plainToBytes h))

end MdCrdt.Storage
