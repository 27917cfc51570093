import MdCrdt.Storage.Writing

/- What interrupted writes leave to a reader.

  In a directory that only writes have made, the slot that is written to is never the
  one that is read (`Sound`), so a read gives the last snapshot whose superblock was
  published.

  A write looks at generations only. Where the slot of the larger generation is damaged,
  the good copy is in the slot that is written to, and an interrupted write loses it. -/
namespace MdCrdt.Storage
open Lib Prog Option Disk Format StopsAt List
open Vault (Path)

section Format
variable [Format] {order : List Path → List Path} {d d' : Store} {slot : Slot}

/-! ## Slots after a write -/

/-- The generation that slots are compared by. -/
def generation (d : Store) (slot : Slot) : Nat := (slotGeneration d slot).getD 0

theorem metadata_congr (h : d'.get? slot.superblock = d.get? slot.superblock) :
    metadata d' slot = metadata d slot := by
  rw [metadata, metadata, h]

theorem slotGeneration_congr (h : metadata d' slot = metadata d slot) :
    slotGeneration d' slot = slotGeneration d slot := by
  rw [slotGeneration, slotGeneration, h]

theorem generation_congr (h : metadata d' slot = metadata d slot) :
    generation d' slot = generation d slot := by
  rw [generation, generation, slotGeneration_congr h]

theorem firstSlot_congr (h : ∀ slot, metadata d' slot = metadata d slot) :
    firstSlot d' = firstSlot d := by
  rw [firstSlot, firstSlot, slotGeneration_congr (h .a), slotGeneration_congr (h .b)]

theorem served_congr (hm : metadata d' slot = metadata d slot)
    (hs : d'.get? slot.segment = d.get? slot.segment) : served d' slot = served d slot := by
  simp only [served, serve, hm, hs]

theorem Legible.congr (hd : Legible d) (h : ∀ slot, metadata d' slot = metadata d slot) : Legible d' :=
  fun slot => (h slot).symm ▸ hd slot

/-- The slots hold the same files. -/
def SameSlots (d d' : Store) : Prop :=
  ∀ slot : Slot, d'.get? slot.superblock = d.get? slot.superblock ∧
    d'.get? slot.segment = d.get? slot.segment

omit [Format] in
theorem sameSlots_of_agreeOff (h : AgreeOff p d d')
    (hp : ∀ slot : Slot, ¬p slot.superblock ∧ ¬p slot.segment) : SameSlots d d' :=
  fun slot => ⟨h _ (hp slot).1, h _ (hp slot).2⟩

omit [Format] in
theorem sameSlots_of_temp (h : AgreeOff isTemp d d') : SameSlots d d' :=
  sameSlots_of_agreeOff h (fun slot => ⟨not_isTemp_superblock slot, not_isTemp_segment slot⟩)

namespace SameSlots
variable (h : SameSlots d d')
include h

theorem metadata (slot) : metadata d' slot = Storage.metadata d slot := metadata_congr (h slot).1

theorem served (slot) : served d' slot = Storage.served d slot :=
  served_congr (h.metadata slot) (h slot).2

theorem firstSlot : firstSlot d' = Storage.firstSlot d := firstSlot_congr h.metadata

theorem writeSlot : writeSlot d' = Storage.writeSlot d := by
  rw [Storage.writeSlot, Storage.writeSlot, slotGeneration_congr (h.metadata .a),
    slotGeneration_congr (h.metadata .b)]

theorem readSlot : readSlot d' = Storage.readSlot d := by
  rw [Storage.readSlot, Storage.readSlot, h.firstSlot, h.served]

theorem legible (hd : Legible d) : Legible d' := hd.congr h.metadata

end SameSlots

/-- What is read is the same where the slots are. -/
theorem readBack_sameSlots (h : SameSlots d d') (found) :
    readBack order d' = some (.ok found) ↔ readBack order d = some (.ok found) := by
  rw [readBack_ok_iff, readBack_ok_iff, h.firstSlot, h.served, h.served]
  exact and_congr_left' ⟨fun hl => hl.congr (fun slot => (h.metadata slot).symm), h.legible⟩

theorem readBack_agreeOff (h : AgreeOff isTemp d d') (found) :
    readBack order d' = some (.ok found) ↔ readBack order d = some (.ok found) :=
  readBack_sameSlots (sameSlots_of_temp h) found

theorem metadata_withSegment (payload slot) :
    metadata (withSegment d payload) slot = metadata d slot := by
  refine metadata_congr ?_
  rw [withSegment, get?_put, if_neg (segment_ne_superblock _ _).symm]

/-- The slot that is not written to serves what it did. -/
theorem served_withSegment_of_ne (payload) (h : slot ≠ writeSlot d) :
    served (withSegment d payload) slot = served d slot := by
  refine served_congr (metadata_withSegment payload slot) ?_
  rw [withSegment, get?_put, if_neg (fun he => h (segment_inj.1 he))]

theorem decodeSuperblock_encodeSuperblock [LawfulFormat]
    (h : toBytes b = some body) (hv : b.version = v2Version) :
    decodeSuperblock (encodeSuperblock body) =
      .ok ⟨b.generation, b.seqRefIndexFlag, b.pendingOps, b.segmentChecksum, b.segmentLen⟩ := by
  have hlen : (encodeSuperblock body).length = body.length + 4 := by
    simp [encodeSuperblock, length_toLeBytes]
  have hsum : (checksum body).toNat < 256 ^ 4 := (checksum body).toNat_lt
  rw [decodeSuperblock, if_neg (by omega)]
  simp only [hlen, Nat.add_sub_cancel]
  simp only [encodeSuperblock, take_left', drop_left', fromLeBytes_toLeBytes hsum]
  simp [LawfulFormat.access_toBytes _ _ h, hv]

theorem metadata_withSuperblock_of_ne (payload body) (h : slot ≠ writeSlot d) :
    metadata (withSuperblock d payload body) slot = metadata d slot := by
  refine (metadata_congr ?_).trans (metadata_withSegment payload slot)
  rw [withSuperblock, get?_put, if_neg (fun he => h (superblock_inj.1 he))]

theorem generation_lt_nextGeneration (d slot) : generation d slot < nextGeneration d := by
  cases slot
  · exact Nat.lt_succ_of_le (Nat.le_max_left _ _)
  · exact Nat.lt_succ_of_le (Nat.le_max_right _ _)

section Lawful
variable [LawfulFormat] {payload pendingOps body : Bytes} {flag : Bool}
variable (h : toBytes (superblockFor payload pendingOps flag (nextGeneration d)) = some body)
include h

theorem metadata_withSuperblock : metadata (withSuperblock d payload body) (writeSlot d) =
    .ok (some ⟨nextGeneration d, flag, pendingOps, checksum payload, payload.length⟩) := by
  rw [metadata, withSuperblock, get?_put, if_pos rfl, superblockIn]
  simp only [decodeSuperblock_encodeSuperblock h rfl, superblockFor]

/-- The new snapshot is served. -/
theorem served_withSuperblock :
    served (withSuperblock d payload body) (writeSlot d) = some (payload, pendingOps, flag) := by
  refine served_eq_some.2 ⟨_, payload, metadata_withSuperblock h, ?_,
    by simp [SuperblockMetadata.fits], rfl⟩
  rw [withSuperblock, get?_put, if_neg (segment_ne_superblock _ _), withSegment, get?_put,
    if_pos rfl]

theorem Legible.withSuperblock (hd : Legible d) : Legible (withSuperblock d payload body) := by
  intro slot
  by_cases hs : slot = writeSlot d
  · exact ⟨_, hs ▸ metadata_withSuperblock h⟩
  · rw [metadata_withSuperblock_of_ne payload body hs]
    exact hd slot

/-- The new superblock is newer than the other one. -/
theorem generation_withSuperblock : generation (withSuperblock d payload body) (writeSlot d).other <
      generation (withSuperblock d payload body) (writeSlot d) := by
  have hnew : generation (withSuperblock d payload body) (writeSlot d) = nextGeneration d := by
    simp [generation, slotGeneration, metadata_withSuperblock h]
  rw [hnew, generation_congr (metadata_withSuperblock_of_ne payload body (Slot.other_ne _))]
  exact generation_lt_nextGeneration d _

end Lawful

/-- A slot of the larger generation is tried first, and it is not written to. -/
theorem firstSlot_of_lt (h : generation d slot.other < generation d slot) : firstSlot d = slot := by
  cases slot with
  | a => exact if_neg (Nat.not_lt_of_lt h)
  | b => exact if_pos h

theorem writeSlot_of_lt (h : generation d slot.other < generation d slot) :
    writeSlot d = slot.other := by
  cases slot with
  | a => exact if_neg (Nat.not_le_of_lt h)
  | b => exact if_pos (le_of_lt h)

/-! ## A run of writes -/

/-- A call of `writeSnapshot`, and what happens to its commands. -/
structure Write where
  payload : Bytes
  pendingOps : Bytes
  seqRefIndexFlag : Bool
  fates : List (Fate Bytes)

def Write.run (order : List Path → List Path) (w : Write) (d : Store) : Store × Log :=
  (Prog.run (logged (Disk.exec order)) .ok
    (writeSnapshot w.payload w.pendingOps w.seqRefIndexFlag).run w.fates (d, [])).2

/-- What the call is to store. -/
def Write.snapshot (w : Write) : Bytes × Bytes × Bool := (w.payload, w.pendingOps, w.seqRefIndexFlag)

/-- The directory after a write, and the last snapshot whose superblock was published. -/
def afterWrite (order : List Path → List Path) (s : Store × Option (Bytes × Bytes × Bool)) (w : Write) :
    Store × Option (Bytes × Bytes × Bool) :=
  ((w.run order s.1).1, if published (w.run order s.1).2 then some w.snapshot else s.2)

/-- Writes to an empty directory. -/
def afterWrites (order : List Path → List Path) (writes : List Write) :
    Store × Option (Bytes × Bytes × Bool) :=
  writes.foldl (afterWrite order) (empty, none)

theorem outcome_run (hd : Legible d) (w : Write) :
    Outcome d w.payload w.pendingOps w.seqRefIndexFlag (w.run order d) :=
  (holdsE_writeSnapshot hd w.payload w.pendingOps w.seqRefIndexFlag).ends .ok w.fates

/-- A directory that writes have made, with the last snapshot: the slot that serves it has the
    larger generation. -/
def Sound (d : Store) (last : Option (Bytes × Bytes × Bool)) : Prop :=
  d.get? legacySegmentFile = none ∧ match last with
    | none => ∀ slot : Slot, d.get? slot.superblock = none
    | some found => Legible d ∧ ∃ slot, served d slot = some found ∧
        generation d slot.other < generation d slot

variable {last : Option (Bytes × Bytes × Bool)}

section
variable (h : Sound d last)
include h

theorem Sound.legible : Legible d := by
  cases last with
  | none => exact fun slot => ⟨none, by rw [metadata, h.2 slot, superblockIn]⟩
  | some found => exact h.2.1

/-- Two directories with the same superblocks and the same segment that is read. -/
theorem Sound.congr (hleg : d'.get? legacySegmentFile = d.get? legacySegmentFile)
    (hsb : ∀ slot : Slot, d'.get? slot.superblock = d.get? slot.superblock)
    (hseg : ∀ slot : Slot, generation d slot.other < generation d slot →
      d'.get? slot.segment = d.get? slot.segment) : Sound d' last := by
  have hm : ∀ slot, metadata d' slot = metadata d slot := fun slot => metadata_congr (hsb slot)
  refine ⟨hleg.trans h.1, ?_⟩
  cases last with
  | none => exact fun slot => (hsb slot).trans (h.2 slot)
  | some found =>
    obtain ⟨hl, slot, hs, hgen⟩ := h.2
    refine ⟨hl.congr hm, slot, (served_congr (hm slot) (hseg slot hgen)).trans hs, ?_⟩
    rwa [generation_congr (hm slot), generation_congr (hm slot.other)]

theorem Sound.agreeOff (ha : AgreeOff isTemp d d') : Sound d' last :=
  h.congr (ha _ not_isTemp_legacy) (fun slot => ha _ (not_isTemp_superblock slot))
    (fun slot _ => ha _ (not_isTemp_segment slot))

theorem Sound.withSegment (payload) : Sound (withSegment d payload) last := by
  refine h.congr ?_ (fun slot => ?_) (fun slot hgen => ?_)
  · rw [Storage.withSegment, get?_put, if_neg (legacy_ne_segment _)]
  · rw [Storage.withSegment, get?_put, if_neg (segment_ne_superblock _ _).symm]
  · -- a slot of the larger generation is not the one that is written to
    rw [Storage.withSegment, get?_put, if_neg]
    rw [writeSlot_of_lt hgen, segment_inj]
    exact (Slot.other_ne slot).symm

theorem Sound.withSuperblock [LawfulFormat]
    (hbody : toBytes (superblockFor payload pendingOps flag (nextGeneration d)) = some body) :
    Sound (withSuperblock d payload body) (some (payload, pendingOps, flag)) := by
  refine ⟨?_, h.legible.withSuperblock hbody, writeSlot d, served_withSuperblock hbody,
    generation_withSuperblock hbody⟩
  rw [Storage.withSuperblock, get?_put, if_neg (legacy_ne_superblock _), Storage.withSegment,
    get?_put, if_neg (legacy_ne_segment _)]
  exact h.1

end

/-- One write, wherever it ends. -/
theorem Sound.afterWrite [LawfulFormat]
    (h : Sound s.1 s.2) (w) : Sound (afterWrite order s w).1 (afterWrite order s w).2 := by
  rcases @outcome_run _ order _ h.legible w with ho | ⟨_, ho | ⟨body, hbody, ho⟩⟩
  · rw [Storage.afterWrite, ho.2]
    exact h.agreeOff ho.1
  · rw [Storage.afterWrite, ho.2]
    exact (h.withSegment w.payload).agreeOff ho.1
  · rw [Storage.afterWrite, ho.2]
    exact (h.withSuperblock hbody).agreeOff ho.1

theorem sound_afterWrites [LawfulFormat] (writes) :
    Sound (afterWrites order writes).1 (afterWrites order writes).2 := by
  refine foldlRecOn (motive := fun s : Store × Option (Bytes × Bytes × Bool) => Sound s.1 s.2)
    writes _ ⟨rfl, fun _ => rfl⟩ ?_
  exact fun s hs w _ => hs.afterWrite w

/-- The answer of a read when nothing but the last snapshot is known. -/
def orMissing : Option (Bytes × Bytes × Bool) → Except StorageError (Bytes × Bytes × Bool)
  | some found => .ok found
  | none => .error .missing

theorem Sound.readBack (h : Sound d last) : readBack order d = some (orMissing last) := by
  cases last with
  | none =>
    have hm : ∀ slot, served d slot = none := fun slot => by
      rw [served, metadata, h.2 slot, superblockIn]
    have hread := @Legible.readBack _ order d h.legible
    rw [hm, hm] at hread
    obtain ⟨e, he, hmiss⟩ := hread
    rw [he, hmiss.2 ⟨h.1, h.2⟩]
    rfl
  | some found =>
    obtain ⟨hl, slot, hs, hgen⟩ := h.2
    refine readBack_ok_iff.2 ⟨hl, ?_⟩
    rw [firstSlot_of_lt hgen, hs, some_or]

/-- **Snapshots are crash-safe.** After any writes to an empty directory, each stopped anywhere or
    met with any I/O errors, a read gives the last snapshot whose superblock was published. -/
theorem readBack_afterWrites [LawfulFormat] (order : List Path → List Path) (writes : List Write) :
    readBack order (afterWrites order writes).1 = some (orMissing (afterWrites order writes).2) :=
  (sound_afterWrites writes).readBack

/-! ## A write after damage -/

/-- The directory that a write leaves. -/
def interrupted (order : List Path → List Path) (d : Store) (payload pendingOps : Bytes) (flag : Bool)
    (fates : List (Fate Bytes)) : Store :=
  (Prog.run (Disk.exec order) .ok (writeSnapshot payload pendingOps flag).run fates d).2

/-- Whatever happens to the write, a read gives the previous payload or the new one. -/
def KeepsACopy (order : List Path → List Path) (d : Store) (previous payload pendingOps : Bytes)
    (flag : Bool) : Prop :=
  ∀ fates, ∃ found, readBack order (interrupted order d payload pendingOps flag fates) = some (.ok found) ∧
    (found.1 = previous ∨ found.1 = payload)

/-- The new segment fits the superblock of the slot it is written to. -/
def FitsOld (d : Store) (payload : Bytes) : Prop :=
  ∃ m, metadata d (writeSlot d) = .ok (some m) ∧ m.fits payload

variable {payload pendingOps : Bytes} {flag : Bool}

/-- The last superblock is read back from the directory with the new segment. -/
theorem readBack_withSuperblock [LawfulFormat] (hd : Legible d)
    (h : toBytes (superblockFor payload pendingOps flag (nextGeneration d)) = some body) :
    readBack order (withSuperblock d payload body) = some (.ok (payload, pendingOps, flag)) := by
  refine readBack_ok_iff.2 ⟨hd.withSuperblock h, ?_⟩
  rw [firstSlot_of_lt (generation_withSuperblock h), served_withSuperblock h, some_or]

variable {found : Bytes × Bytes × Bool}

theorem readBack_withSegment (hd : Legible d) :
    readBack order (withSegment d payload) = some (.ok found) ↔
      (served (withSegment d payload) (firstSlot d)).or
        (served (withSegment d payload) (firstSlot d).other) = some found := by
  rw [readBack_ok_iff, firstSlot_congr (metadata_withSegment payload)]
  exact and_iff_right (hd.congr (metadata_withSegment payload))

/-- A slot that now serves the new segment is no loss. -/
theorem fits_of_served_withSegment (h : served (withSegment d payload) (writeSlot d) = some found) :
    FitsOld d payload ∧ found.1 = payload := by
  obtain ⟨m, segment, hm, hseg, hfits, rfl⟩ := served_eq_some.1 h
  rw [metadata_withSegment] at hm
  rw [withSegment, get?_put, if_pos rfl] at hseg
  obtain rfl := some.inj hseg; exact ⟨⟨m, hm, hfits⟩, rfl⟩

theorem exists_served_withSegment (h : FitsOld d payload) :
    ∃ found, served (withSegment d payload) (writeSlot d) = some found := by
  obtain ⟨m, hm, hfits⟩ := h
  refine ⟨_, served_eq_some.2 ⟨m, payload, ?_, ?_, hfits, rfl⟩⟩
  · rw [metadata_withSegment, hm]
  · rw [withSegment, get?_put, if_pos rfl]

theorem served_withSegment_eq_none (h : ¬FitsOld d payload) :
    served (withSegment d payload) (writeSlot d) = none := by
  cases hs : served (withSegment d payload) (writeSlot d) with
  | none => rfl
  | some found => exact absurd (fits_of_served_withSegment hs).1 h

/-- The slot that is not written to has a good snapshot. -/
def OtherServes (d : Store) (good : Bytes × Bytes × Bool → Prop) : Prop :=
  ∃ found, served d (writeSlot d).other = some found ∧ good found

/-- The directory with the new segment is good enough, for any notion of good by which the previous
    snapshot and every snapshot of the new payload are. -/
theorem exists_readBack_withSegment (h : readBack order d = some (.ok previous))
    (hprevious : good previous) (hnew : ∀ found, found.1 = payload → good found)
    (hc : writeSlot d ≠ readSlot d ∨ FitsOld d payload ∨ OtherServes d good) :
    ∃ found, readBack order (withSegment d payload) = some (.ok found) ∧ good found := by
  obtain ⟨hd, hs⟩ := readBack_ok_iff.1 h
  have hother := served_withSegment_of_ne payload (Slot.other_ne (writeSlot d))
  -- the slot that is written to is tried first or last
  rcases Slot.eq_or_eq_other (firstSlot d) (writeSlot d) with hf | hf
  · cases ht : served (withSegment d payload) (writeSlot d) with
    | some found =>
      refine ⟨found, (readBack_withSegment hd).2 ?_, hnew _ (fits_of_served_withSegment ht).2⟩
      rw [hf, ht, some_or]
    | none =>
      have hcopy : OtherServes d good := by
        rcases hc with hne | hfits | hcopy
        · refine ⟨previous, ?_, hprevious⟩
          rw [← served_readSlot, (Slot.eq_or_eq_other (readSlot d) _).resolve_left hne.symm] at hs
          exact hs
        · obtain ⟨found, hfound⟩ := exists_served_withSegment hfits
          rw [ht] at hfound
          cases hfound
        · exact hcopy
      obtain ⟨found, hfound, hgood⟩ := hcopy
      refine ⟨found, (readBack_withSegment hd).2 ?_, hgood⟩
      rw [hf, ht, none_or, hother, hfound]
  · cases ho : served d (writeSlot d).other with
    | some found =>
      rw [hf, ho, some_or] at hs
      refine ⟨found, (readBack_withSegment hd).2 ?_, by rwa [some.inj hs]⟩
      rw [hf, hother, ho, some_or]
    | none =>
      have hfits : FitsOld d payload := by
        rcases hc with hne | hfits | ⟨found, hfound, _⟩
        · refine absurd ?_ hne
          rw [readSlot, hf, ho, Slot.other_other]
          rfl
        · exact hfits
        · rw [ho] at hfound
          cases hfound
      obtain ⟨found, hfound⟩ := exists_served_withSegment hfits
      refine ⟨found, (readBack_withSegment hd).2 ?_, hnew _ (fits_of_served_withSegment hfound).2⟩
      rw [hf, hother, ho, none_or, Slot.other_other, hfound]

/-- Where the new segment does not fit, only the other slot can be read. -/
theorem served_of_readBack_withSegment (hd : Legible d) (hfits : ¬FitsOld d payload)
    (h : readBack order (withSegment d payload) = some (.ok found)) :
    served d (writeSlot d).other = some found := by
  have hnone := served_withSegment_eq_none hfits
  have hother := served_withSegment_of_ne payload (Slot.other_ne (writeSlot d))
  rw [readBack_withSegment hd] at h
  rcases Slot.eq_or_eq_other (firstSlot d) (writeSlot d) with hf | hf
  · rwa [hf, hnone, none_or, hother] at h
  · rwa [hf, Slot.other_other, hnone, or_none, hother] at h

theorem leaves_interrupted (hd : Legible d) (fates) :
    Leaves d payload pendingOps flag (interrupted order d payload pendingOps flag fates) :=
  (leaves_writeSnapshot hd payload pendingOps flag).ends .ok fates

omit [Format] in
theorem gives_renameTemp (path bytes) : Gives order (renameFile (tempPath path) path)
      ((d.put (tempPath path) []).put (tempPath path) bytes) (.ok ())
      ((((d.put (tempPath path) []).put (tempPath path) bytes).del (tempPath path)).put path bytes) := by
  have hget : ((d.put (tempPath path) []).put (tempPath path) bytes).get? (tempPath path) =
      some bytes := by rw [get?_put, if_pos rfl]
  simp [Gives, renameFile, attempt, Prog.run, Disk.exec, change, hget, orIo]

omit [Format] in
theorem gives_overwrite (path bytes) : Gives order (overwrite path bytes) d (.ok ()) (d.put path bytes) :=
  rfl

omit [Format] in
theorem gives_sync : Gives order sync d (.ok ()) d := rfl

omit [Format] in
/-- A durable write may be stopped right after it was published. -/
theorem stopsAt_atomicWriteDurable (path bytes) : StopsAt order (atomicWriteDurable path bytes) d
      ((((d.put (tempPath path) []).put (tempPath path) bytes).del (tempPath path)).put path bytes) := by
  exact after (gives_overwrite _ _) (after (gives_overwrite _ _) (after gives_sync
    (after (gives_renameTemp _ _) ⟨[.crash none], rfl⟩)))

theorem Legible.reads_readSlotGeneration (hd : Legible d) (slot) :
    Reads order (readSlotGeneration slot) d (.ok (slotGeneration d slot)) := by
  rw [readSlotGeneration_eq]
  refine (reads_readFile slot.superblock).bind ?_
  rw [hd.map_generation]
  exact reads_pure _

/-- A write may be stopped right after the segment was published. -/
theorem stopsAt_withSegment (hd : Legible d) (hleg : d.get? legacySegmentFile = none) :
    ∃ d', StopsAt order (writeSnapshot payload pendingOps flag) d d' ∧
      AgreeOff isTemp (withSegment d payload) d' := by
  refine ⟨(((d.put (tempPath (writeSlot d).segment) []).put (tempPath (writeSlot d).segment)
    payload).del (tempPath (writeSlot d).segment)).put (writeSlot d).segment payload, ?_, ?_⟩
  · refine after (reads_pathExists legacySegmentFile) ?_
    rw [hleg]
    exact after (hd.reads_readSlotGeneration .a) (after (hd.reads_readSlotGeneration .b)
      (stopsAt_atomicWriteDurable _ _).bind)
  · intro k hk
    have hne : k ≠ tempPath (writeSlot d).segment := fun h =>
      hk (h ▸ isTemp_tempPath (dir_segment _))
    simp only [withSegment, get?_put, get?_del, if_neg hne]

/-- **When a write after damage keeps a copy.** Where a read succeeds, it succeeds after a write
    that was stopped anywhere, with the previous payload or the new one, if and only if the write
    is refused (there is a file of the old format), goes to the slot that is not read, fits the
    superblock it is put under, or leaves such a copy in the other slot. -/
theorem keepsACopy_iff [LawfulFormat] (order : List Path → List Path) (d : Store)
    (previous : Bytes × Bytes × Bool) (payload pendingOps : Bytes) (flag : Bool)
    (h : readBack order d = some (.ok previous)) :
    KeepsACopy order d previous.1 payload pendingOps flag ↔
      (d.get? legacySegmentFile).isSome ∨ writeSlot d ≠ readSlot d ∨ FitsOld d payload ∨
        OtherServes d (fun found => found.1 = previous.1 ∨ found.1 = payload) := by
  have hd : Legible d := (readBack_ok_iff.1 h).1
  constructor
  · intro hkeep
    by_contra hnot
    rw [not_or, not_or, not_or] at hnot
    obtain ⟨hleg, -, hfits, hcopy⟩ := hnot
    have hleg' : d.get? legacySegmentFile = none := not_isSome_iff_eq_none.1 hleg
    obtain ⟨d', ⟨fates, hstop⟩, hd'⟩ :=
      @stopsAt_withSegment _ order d payload pendingOps flag hd hleg'
    obtain ⟨found, hread, hgood⟩ := hkeep fates
    rw [interrupted, hstop, readBack_agreeOff hd'] at hread
    exact hcopy ⟨found, served_of_readBack_withSegment hd hfits hread, hgood⟩
  · intro hc fates
    obtain ho | ⟨hleg, ho | ⟨body, hbody, ho⟩⟩ :=
      @leaves_interrupted _ order d payload pendingOps flag hd fates
    · exact ⟨previous, (readBack_agreeOff ho _).2 h, .inl rfl⟩
    · have hc' := hc.resolve_left (by simp [hleg])
      obtain ⟨found, hread, hgood⟩ := exists_readBack_withSegment h (.inl rfl)
        (fun _ => .inr) hc'
      exact ⟨found, (readBack_agreeOff ho _).2 hread, hgood⟩
    · exact ⟨_, (readBack_agreeOff ho _).2 (readBack_withSuperblock hd hbody), .inr rfl⟩

end Format

section Examples
attribute [local instance] plainFormat

/-- A second write that is stopped before its superblock is published. -/
theorem readBack_afterWrites_stopped :
    (afterWrites id [⟨[1], [], false, []⟩, ⟨[2], [], true, replicate 11 .ok ++ [.crash none]⟩]).2 =
        some ([1], [], false) ∧ readBack id (afterWrites id [⟨[1], [], false, []⟩,
        ⟨[2], [], true, replicate 11 .ok ++ [.crash none]⟩]).1 = some (.ok ([1], [], false)) := by
  have hlast : (afterWrites id [⟨[1], [], false, []⟩,
      ⟨[2], [], true, replicate 11 .ok ++ [.crash none]⟩]).2 = some ([1], [], false) := by
    decide +kernel
  refine ⟨hlast, ?_⟩
  rw [@readBack_afterWrites plainFormat plainFormat_lawful, hlast]
  rfl

/-- Two snapshots, and the segment of the second one is lost: the first one is read. -/
def damaged : Store :=
  (afterWrites id [⟨[1], [], false, []⟩, ⟨[2], [], false, []⟩]).1.put Slot.b.segment []

/-- The next write goes over the first one. Stopped in between, it leaves nothing to read. -/
theorem damaged_loses_copy : readBack id damaged = some (.ok ([1], [], false)) ∧
      readBack id (interrupted id damaged [3] [] false (replicate 7 .ok ++ [.crash none])) =
        some (.error (.corrupt "checksum mismatch")) := by
  decide +kernel

/-- Two snapshots, and the segment of the first one is lost. -/
def olderDamaged : Store :=
  (afterWrites id [⟨[1], [], false, []⟩, ⟨[2], [], false, []⟩]).1.put Slot.a.segment []

/-- The next write goes over the damaged slot, and the second snapshot stays. -/
theorem keepsACopy_olderDamaged : readBack id olderDamaged = some (.ok ([2], [], false)) ∧
    KeepsACopy id olderDamaged [2] [3] [] false := by
  have hread : readBack id olderDamaged = some (.ok ([2], [], false)) := by decide +kernel
  exact ⟨hread, (@keepsACopy_iff plainFormat plainFormat_lawful id _ ([2], [], false) [3] [] false
    hread).2 (.inr (.inl (by decide +kernel)))⟩

end Examples
end MdCrdt.Storage
