import MdCrdt.Storage.Slots

/- What is read from a storage directory when nothing goes wrong.

  `Reads` is a reading program on a directory, with its result; `readSnapshot` succeeds
  if every superblock is of this version and some slot serves, and it then gives what the
  slot of the larger generation serves, or else the other one (`readBack_ok_iff`). -/
namespace MdCrdt.Storage
open Lib Prog List Option SuperblockMetadata
open Vault (Path)

section Reads
variable {A B : Type} {order : List Path → List Path} {d : Store}
variable {p : StorageM A} {f : A → StorageM B}

/-- The program gives the result and leaves the second directory. -/
def Gives (order : List Path → List Path) (p : StorageM A) (d : Store) (r : Except StorageError A)
    (d' : Store) : Prop := Prog.run (Disk.exec order) .ok p.run [] d = (some r, d')

theorem Gives.bind (hp : Gives order p d (.ok a) d₁) (hf : Gives order (f a) d₁ r d₂) :
    Gives order (p >>= f) d r d₂ := by
  have h := run_bind (Disk.exec order) .ok p.run (ExceptT.bindCont f) d
  rw [hp] at h
  exact h.trans hf

/-- The program gives the result and leaves the directory as it is. -/
def Reads (order : List Path → List Path) (p : StorageM A) (d : Store) (r : Except StorageError A) :
    Prop := Gives order p d r d

theorem reads_pure (a : A) : Reads order (pure a) d (.ok a) := rfl

theorem reads_throw (e) : Reads order (throw e : StorageM A) d (.error e) := rfl

theorem Reads.bind (hp : Reads order p d (.ok a))
    (hf : Reads order (f a) d r) : Reads order (p >>= f) d r :=
  Gives.bind hp hf

theorem Reads.bind_error (hp : Reads order p d (.error e)) :
    Reads order (p >>= f) d (.error e) := by
  have h := run_bind (Disk.exec order) .ok p.run (ExceptT.bindCont f) d
  rw [show Prog.run (Disk.exec order) .ok p.run [] d = (some (.error e), d) from hp] at h
  exact h

theorem reads_readFile (p) : Reads order (readFile p) d (.ok (d.get? p)) := rfl

theorem reads_pathExists (p) : Reads order (pathExists p) d (.ok (d.get? p).isSome) := rfl

theorem reads_readDir (dir) :
    Reads order (readDir dir) d (.ok (order (d.keys.filter (isIn dir)))) := rfl

/-- The process may be stopped with the second directory left. -/
def StopsAt (order : List Path → List Path) (p : StorageM A) (d d' : Store) : Prop :=
  Stops (Disk.exec order) .ok p.run d d'

theorem StopsAt.bind (h : StopsAt order p d d') : StopsAt order (p >>= f) d d' :=
  @Stops.bind _ _ _ _ _ _ (Disk.exec order) .ok p.run (ExceptT.bindCont f) d d' h

theorem StopsAt.after (h : Gives order p d (.ok a) d₁)
    (hf : StopsAt order (f a) d₁ d') : StopsAt order (p >>= f) d d' :=
  @Stops.after _ _ _ _ _ _ (Disk.exec order) .ok p.run (ExceptT.bindCont f) d _ d₁ d' h hf

end Reads

/-! ## Slots -/

section Slots
variable [Format] {order : List Path → List Path} {d : Store}

/-- What a superblock file says, nothing where there is none or it is damaged. -/
def superblockIn (file : Option Bytes) : Except StorageError (Option SuperblockMetadata) :=
  match file with
  | none => .ok none
  | some bytes => match decodeSuperblock bytes with
    | .ok metadata => .ok (some metadata)
    | .error (.corrupt _) => .ok none
    | .error error => .error error

def metadata (d : Store) (slot : Slot) : Except StorageError (Option SuperblockMetadata) :=
  superblockIn (d.get? slot.superblock)

/-- No superblock of another version. -/
def Legible (d : Store) : Prop := ∀ slot, ∃ m, metadata d slot = .ok m

def slotGeneration (d : Store) (slot : Slot) : Option Nat :=
  match metadata d slot with
  | .ok m => m.map (·.generation)
  | .error _ => none

/-- What a superblock and a segment that fits it give. -/
def serve (d : Store) (slot : Slot) (m : SuperblockMetadata) : Option (Bytes × Bytes × Bool) :=
  match d.get? slot.segment with
  | none => none
  | some segment => if m.fits segment then some (segment, m.pendingOps, m.seqRefIndexFlag) else none

/-- What a slot gives. -/
def served (d : Store) (slot : Slot) : Option (Bytes × Bytes × Bool) :=
  match metadata d slot with
  | .ok (some m) => serve d slot m
  | _ => none

theorem served_eq_some : served d slot = some found ↔ ∃ m segment,
    metadata d slot = .ok (some m) ∧ d.get? slot.segment = some segment ∧ m.fits segment ∧
      (segment, m.pendingOps, m.seqRefIndexFlag) = found := by
  rw [served]
  cases metadata d slot with
  | error e => simp
  | ok m =>
    cases m with
    | none => simp
    | some m => cases hs : d.get? slot.segment <;> simp [serve, hs]

/-- The slot that is tried first. -/
def firstSlot (d : Store) : Slot :=
  if (slotGeneration d .a).getD 0 < (slotGeneration d .b).getD 0 then .b else .a

/-- The slot that is written to. -/
def writeSlot (d : Store) : Slot := targetSlot (slotGeneration d .a) (slotGeneration d .b)

/-- The slot whose snapshot is read. -/
def readSlot (d : Store) : Slot :=
  if (served d (firstSlot d)).isSome then firstSlot d else (firstSlot d).other

theorem readSlotGeneration_eq (slot) : readSlotGeneration slot = (do
      let file ← readFile slot.superblock
      ExceptT.mk (.ret ((superblockIn file).map (fun m => m.map (·.generation))))) := by
  unfold readSlotGeneration superblockIn
  congr 1
  funext file
  cases file with
  | none => rfl
  | some bytes =>
    dsimp only
    cases decodeSuperblock bytes with
    | ok m => rfl
    | error e => cases e <;> rfl

theorem Legible.map_generation (h : Legible d) (slot) :
    (superblockIn (d.get? slot.superblock)).map (fun m => m.map (·.generation)) =
      .ok (slotGeneration d slot) := by
  obtain ⟨m, hm⟩ := h slot
  rw [slotGeneration, hm]
  unfold metadata at hm
  rw [hm]
  rfl

/-! ## Reading a snapshot -/

/-- A slot that is considered. -/
def candidate (d : Store) (slot : Slot) : Option (Slot × SuperblockMetadata) :=
  match metadata d slot with
  | .ok m => m.map (fun m => (slot, m))
  | .error _ => none

/-- Reading the superblocks fails at one of another version, and collects the candidates
    otherwise. -/
def Collects (order : List Path → List Path) (d : Store) (slots : List Slot) (c : Candidates) : Prop :=
  (∃ slot ∈ slots, ∃ e, metadata d slot = .error e ∧
      Reads order (readCandidates slots c) d (.error e)) ∨
    (∀ slot ∈ slots, ∃ m, metadata d slot = .ok m) ∧
      ∃ c', Reads order (readCandidates slots c) d (.ok c') ∧
        c'.candidates = c.candidates ++ slots.filterMap (candidate d) ∧
        c'.sawSuperblock = (c.sawSuperblock || slots.any (fun s => (d.get? s.superblock).isSome))

/-- A slot with a superblock of this version, or with none that can be read. -/
theorem Collects.cons
    (h : Collects order d slots c₁) (hreads : ∀ r, Reads order (readCandidates slots c₁) d r →
      Reads order (readCandidates (slot :: slots) c) d r) (hm : ∃ m, metadata d slot = .ok m)
    (hcand : c₁.candidates = c.candidates ++ (candidate d slot).toList)
    (hsaw : c₁.sawSuperblock = (c.sawSuperblock || (d.get? slot.superblock).isSome)) :
    Collects order d (slot :: slots) c := by
  rcases h with ⟨s, hs, e, he, hr⟩ | ⟨hall, c', hr, hc', hs'⟩
  · exact .inl ⟨s, mem_cons_of_mem _ hs, e, he, hreads _ hr⟩
  · refine .inr ⟨fun s hs => ?_, c', hreads _ hr, ?_, ?_⟩
    · rcases mem_cons.1 hs with rfl | hs
      · exact hm
      · exact hall s hs
    · rw [hc', hcand, append_assoc, filterMap_cons]
      cases candidate d slot <;> rfl
    · rw [hs', hsaw, any_cons, Bool.or_assoc]

theorem collects (slots c) : Collects order d slots c := by
  induction slots generalizing c with
  | nil => exact .inr ⟨nofun, c, reads_pure c, by simp, by simp⟩
  | cons slot slots ih =>
    have hread := @reads_readFile order d slot.superblock
    cases hget : d.get? slot.superblock with
    | none =>
      rw [hget] at hread
      have hm : metadata d slot = .ok none := by rw [metadata, hget, superblockIn]
      exact (ih c).cons (fun r hr => hread.bind hr) ⟨_, hm⟩ (by simp [candidate, hm]) (by simp [hget])
    | some bytes =>
      rw [hget] at hread
      cases hdec : decodeSuperblock bytes with
      | ok m =>
        have hm : metadata d slot = .ok (some m) := by rw [metadata, hget, superblockIn]; simp [hdec]
        exact (ih { c with candidates := c.candidates ++ [(slot, m)], sawSuperblock := true }).cons
          (fun r hr => hread.bind (by simpa only [hdec] using hr)) ⟨_, hm⟩ (by simp [candidate, hm])
          (by simp [hget])
      | error e =>
        by_cases hcorrupt : ∃ reason, e = .corrupt reason
        · obtain ⟨reason, rfl⟩ := hcorrupt
          have hm : metadata d slot = .ok none := by rw [metadata, hget, superblockIn]; simp [hdec]
          exact (ih { c with sawSuperblock := true, lastCorruption := reason }).cons
            (fun r hr => hread.bind (by simpa only [hdec] using hr)) ⟨_, hm⟩ (by simp [candidate, hm])
            (by simp [hget])
        · refine .inl ⟨slot, mem_cons_self, e, ?_, hread.bind ?_⟩
          · rw [metadata, hget, superblockIn]
            cases e with
            | corrupt reason => exact absurd ⟨reason, rfl⟩ hcorrupt
            | _ => simp [hdec]
          · cases e with
            | corrupt reason => exact absurd ⟨reason, rfl⟩ hcorrupt
            | _ => simp only [hdec]; exact reads_throw _

/-- The first candidate that serves is taken. -/
def TakesFirst (order : List Path → List Path) (d : Store) (l : List (Slot × SuperblockMetadata))
    (last : String) : Prop :=
  ∃ r, Reads order (readSegments l last) d (.ok r) ∧
    match l.findSome? (fun c => serve d c.1 c.2) with
    | some found => r = .inl found
    | none => ∃ reason, r = .inr reason

/-- A candidate that does not serve is passed over. -/
theorem TakesFirst.cons (h : TakesFirst order d l reason)
    (hs : serve d c.1 c.2 = none) (hreads : ∀ r, Reads order (readSegments l reason) d r →
      Reads order (readSegments (c :: l) last) d r) : TakesFirst order d (c :: l) last := by
  obtain ⟨r, hr, hfound⟩ := h
  refine ⟨r, hreads _ hr, ?_⟩
  rw [findSome?_cons, hs]
  exact hfound

theorem takesFirst (l last) : TakesFirst order d l last := by
  induction l generalizing last with
  | nil => exact ⟨.inr last, reads_pure _, last, rfl⟩
  | cons c l ih =>
    obtain ⟨slot, m⟩ := c
    have hread := @reads_readFile order d slot.segment
    cases hget : d.get? slot.segment with
    | none =>
      rw [hget] at hread
      exact (ih "missing segment").cons (by rw [serve, hget]) (fun r hr => hread.bind hr)
    | some segment =>
      rw [hget] at hread
      by_cases hlen : segment.length = m.segmentLen
      · by_cases hsum : Format.checksum segment = m.segmentChecksum
        · refine ⟨.inl (segment, m.pendingOps, m.seqRefIndexFlag), hread.bind ?_, ?_⟩
          · simp only [ne_eq, hlen, hsum, not_true_eq_false, if_false]
            exact reads_pure _
          · simp [serve, hget, fits, hlen, hsum]
        · refine (ih "checksum mismatch").cons (by simp [serve, hget, fits, hsum])
            (fun r hr => hread.bind ?_)
          simpa only [ne_eq, hlen, hsum, not_true_eq_false, not_false_eq_true, if_true, if_false]
            using hr
      · refine (ih "length mismatch").cons (by simp [serve, hget, fits, hlen])
          (fun r hr => hread.bind ?_)
        simpa only [ne_eq, hlen, not_false_eq_true, if_true] using hr

section
attribute [local simp] storageSlots candidate newestFirst served firstSlot slotGeneration Slot.other

/-- The slots in the order of trying. -/
theorem findSome?_newestFirst (h : Legible d) :
    (newestFirst (storageSlots.filterMap (candidate d))).findSome? (fun c => serve d c.1 c.2) =
      (served d (firstSlot d)).or (served d (firstSlot d).other) := by
  obtain ⟨ma, ha⟩ := h .a
  obtain ⟨mb, hb⟩ := h .b
  cases ma with
  | none =>
    cases mb with
    | none => simp [ha, hb]
    | some mb =>
      by_cases hlt : 0 < mb.generation <;> simp [ha, hb, hlt]
  | some ma =>
    cases mb with
    | none => simp [ha, hb]
    | some mb =>
      by_cases hlt : ma.generation < mb.generation
      · simp [ha, hb, List.orderedInsert, hlt, Nat.not_le.2 hlt, findSome?_cons]
        cases serve d .b mb <;> cases serve d .a ma <;> rfl
      · simp [ha, hb, hlt, Nat.le_of_not_lt hlt, findSome?_cons]
        cases serve d .b mb <;> cases serve d .a ma <;> rfl

end

/-- What a fault-free read gives. -/
def readBack (order : List Path → List Path) (d : Store) :
    Option (Except StorageError (Bytes × Bytes × Bool)) :=
  (Prog.run (Disk.exec order) .ok readSnapshot.run [] d).1

theorem Reads.readBack
    (h : Reads order readSnapshot d r) : readBack order d = some r := congrArg Prod.fst h

theorem readBack_of_error (h : metadata d slot = .error e) :
    ∃ e, readBack order d = some (.error e) := by
  rcases @collects _ order d storageSlots ⟨[], false, "decode"⟩ with
    ⟨s, _, e, _, hr⟩ | ⟨hall, _⟩
  · exact ⟨e, hr.bind_error.readBack⟩
  · obtain ⟨m, hm⟩ := hall slot (by cases slot <;> decide)
    rw [h] at hm
    cases hm

/-- Reading in a legible directory. -/
theorem Legible.readBack (h : Legible d) :
    match (served d (firstSlot d)).or (served d (firstSlot d).other) with
    | some found => readBack order d = some (.ok found)
    | none => ∃ e, readBack order d = some (.error e) ∧
        (e = .missing ↔ d.get? legacySegmentFile = none ∧ ∀ slot : Slot, d.get? slot.superblock = none) := by
  rcases @collects _ order d storageSlots ⟨[], false, "decode"⟩ with
    ⟨s, _, e, he, _⟩ | ⟨_, c, hc, hcand, hsaw⟩
  · obtain ⟨m, hm⟩ := h s
    rw [he] at hm
    cases hm
  · obtain ⟨r, hr, hfound⟩ := @takesFirst _ order d (newestFirst c.candidates) c.lastCorruption
    rw [hcand, nil_append, findSome?_newestFirst h] at hfound
    cases hs : (served d (firstSlot d)).or (served d (firstSlot d).other) with
    | some found =>
      rw [hs] at hfound
      obtain rfl : r = .inl found := hfound
      exact Reads.readBack (hc.bind (hr.bind (reads_pure found)))
    | none =>
      rw [hs] at hfound
      obtain ⟨reason, rfl⟩ : ∃ reason, r = .inr reason := hfound
      have hsaw' : c.sawSuperblock = true ↔ ¬∀ slot : Slot, d.get? slot.superblock = none := by
        rw [hsaw]
        simp only [Bool.false_or, List.any_eq_true, storageSlots, isSome_iff_ne_none]
        constructor
        · rintro ⟨s, _, hs⟩ hall
          exact hs (hall s)
        · intro hall
          obtain ⟨s, hs⟩ := not_forall.1 hall
          exact ⟨s, by cases s <;> decide, hs⟩
      cases hleg : d.get? legacySegmentFile with
      | some bytes =>
        refine ⟨.reinitializeRequired none v2Version, ?_, by simp⟩
        refine Reads.readBack (hc.bind (hr.bind ((reads_pathExists legacySegmentFile).bind ?_)))
        rw [hleg]
        exact reads_throw _
      | none =>
        by_cases hsb : c.sawSuperblock = true
        · refine ⟨.corrupt reason, ?_, by simpa using fun h => hsaw'.1 hsb h⟩
          refine Reads.readBack (hc.bind (hr.bind ((reads_pathExists legacySegmentFile).bind ?_)))
          rw [hleg]
          simp only [isSome_none, Bool.false_eq_true, if_false, hsb, if_true]
          exact reads_throw _
        · refine ⟨.missing, ?_, by simpa using not_not.1 (mt hsaw'.2 hsb)⟩
          refine Reads.readBack (hc.bind (hr.bind ((reads_pathExists legacySegmentFile).bind ?_)))
          rw [hleg]
          simp only [isSome_none, Bool.false_eq_true, if_false, hsb]
          exact reads_throw _

/-- Reading succeeds if no superblock is foreign and a slot serves; it prefers the newer slot. -/
theorem readBack_ok_iff : readBack order d = some (.ok found) ↔
      Legible d ∧ (served d (firstSlot d)).or (served d (firstSlot d).other) = some found := by
  by_cases h : Legible d
  · have hread := @Legible.readBack _ order d h
    cases hs : (served d (firstSlot d)).or (served d (firstSlot d).other) with
    | some found' =>
      rw [hs] at hread
      rw [hread]
      simp [h]
    | none =>
      rw [hs] at hread
      obtain ⟨e, he, _⟩ := hread
      rw [he]
      simp
  · obtain ⟨slot, hslot⟩ := not_forall.1 h
    cases hm : metadata d slot with
    | ok m => exact absurd ⟨m, hm⟩ hslot
    | error e =>
      obtain ⟨e', he'⟩ := @readBack_of_error _ order d _ _ hm
      rw [he']
      simp [h]

/-- The slot that is read serves. -/
theorem served_readSlot (d) :
    served d (readSlot d) = (served d (firstSlot d)).or (served d (firstSlot d).other) := by
  unfold readSlot
  cases h : served d (firstSlot d) with
  | none => simp
  | some found => simp [h]

end Slots
end MdCrdt.Storage
