import MdCrdt.Storage.CrashSafe

/- Compaction that is stopped in between.

  `compact` moves the operation segments to the archive one by one, in the order of the
  directory, and only then publishes the snapshot that holds what they held. While it is
  at it, a reader sees fewer segments under the old snapshot (`Shrunk`); behind it, none
  (`Settled`). -/
namespace MdCrdt.Storage
open Lib Prog List Option Disk StopsAt
open Vault (Path)
variable {d₁ : Store} {entries : List Path} {l : List Path} {p : Path}

/-! ## Reading operation segments -/

section Ops
variable {order : List Path → List Path} {d d' : Store}

/-- The files of the operation directory. -/
def opEntries (d : Store) : List Path := d.keys.filter (isIn opsDir)

/-- The operation segments among files, with their indices. -/
def opFiles (entries : List Path) : List (Nat × Path) :=
  entries.filterMap (fun p => (indexAfter opPrefix p.name).map (fun index => (index, p)))

theorem mem_opEntries : p ∈ opEntries d ↔ (∃ b, d.get? p = some b) ∧ isIn opsDir p = true := by
  rw [opEntries, mem_filter, Disk.mem_keys]

theorem nodup_opEntries (d) : (opEntries d).Nodup := (nodup_keys d).filter _

theorem opPaths_perm (entries) : (opPaths entries).Perm (opFiles entries) :=
  perm_insertionSort _ _

theorem opFiles_perm (h : entries.Perm entries') :
    (opFiles entries).Perm (opFiles entries') := h.filterMap _

theorem mem_opFiles (h : x ∈ opFiles entries) : x.2 ∈ entries := by
  obtain ⟨p, hp, hx⟩ := mem_filterMap.1 h
  obtain ⟨index, _, rfl⟩ := map_eq_some_iff.1 hx
  exact hp

variable [Format]

/-- What a fault-free read of the operation segments gives. -/
def opsBack (order : List Path → List Path) (d : Store) : Option (Except StorageError (List Bytes)) :=
  (Prog.run (Disk.exec order) .ok readOpSegments.run [] d).1

/-- Reading a file that cannot be decoded. -/
theorem reads_readOps_error (index l) (hget : d.get? path = some bytes)
    (hdec : decodeOpSegment path bytes = .error e) :
    Reads order (readOps ((index, path) :: l)) d (.error e) := by
  rw [readOps]
  refine (reads_readFile path).bind ?_
  simp only [hget, hdec]
  exact reads_throw e

/-- Reading a file that can be decoded: the rest is read behind it. -/
theorem reads_readOps_ok {path bytes payload} (index) {l} (hget : d.get? path = some bytes)
    (hdec : decodeOpSegment path bytes = .ok payload) (hr : Reads order (readOps l) d r) :
    Reads order (readOps ((index, path) :: l)) d (r.map (payload :: ·)) := by
  rw [readOps]
  refine (reads_readFile path).bind ?_
  simp only [hget, hdec]
  cases r with
  | error e => exact hr.bind_error
  | ok payloads => exact hr.bind (reads_pure _)

/-- Reading segments gives one payload each, and depends on these files only. -/
theorem reads_readOps (l) :
    ∃ r, Reads order (readOps l) d r ∧ (∀ ops, r = .ok ops → ops.length = l.length) ∧
      ∀ d', (∀ x ∈ l, d'.get? x.2 = d.get? x.2) → Reads order (readOps l) d' r := by
  induction l with
  | nil => exact ⟨.ok [], reads_pure [], fun ops h => by cases h; rfl, fun _ _ => reads_pure []⟩
  | cons x l ih =>
    obtain ⟨index, path⟩ := x
    obtain ⟨r, hr, hlen, hcongr⟩ := ih
    cases hget : d.get? path with
    | none =>
      have hread : ∀ d', d'.get? path = none →
          Reads order (readOps ((index, path) :: l)) d' (.error .io) := by
        intro d' h
        rw [readOps]
        refine (reads_readFile path).bind ?_
        rw [h]
        exact reads_throw _
      refine ⟨.error .io, hread d hget, fun _ h => ?_,
        fun d' h => hread d' ((h _ mem_cons_self).trans hget)⟩
      cases h
    | some bytes =>
      cases hdec : decodeOpSegment path bytes with
      | error e =>
        refine ⟨.error e, reads_readOps_error index l hget hdec, fun _ h => ?_, fun d' h =>
          reads_readOps_error index l ((h _ mem_cons_self).trans hget) hdec⟩
        cases h
      | ok payload =>
        refine ⟨r.map (payload :: ·), reads_readOps_ok index hget hdec hr, fun ops h => ?_,
          fun d' h => reads_readOps_ok index ((h _ mem_cons_self).trans hget) hdec
            (hcongr d' (fun x hx => h x (mem_cons_of_mem _ hx)))⟩
        cases r with
        | error e => cases h
        | ok payloads =>
          cases h
          rw [length_cons, length_cons, hlen payloads rfl]

theorem opsBack_of_absent (h : d.get? opsDir = none) : opsBack order d = some (.ok []) := by
  have hread : Reads order readOpSegments d (.ok []) := by
    refine (reads_pathExists opsDir).bind ?_
    rw [h]
    exact reads_pure []
  exact congrArg Prod.fst hread

/-- Reading where there is a directory: the segments are found in any order. -/
theorem opsBack_of_present (h : (d.get? opsDir).isSome) :
    opsBack order d = (Prog.run (Disk.exec order) .ok
      (readInOrder (opPaths (order (opEntries d)))).run [] d).1 := by
  have hread : Prog.run (Disk.exec order) .ok readOpSegments.run [] d =
      Prog.run (Disk.exec order) .ok (if (d.get? opsDir).isSome then do
        let entries ← readDir opsDir
        readInOrder (opPaths entries)
      else pure [] : StorageM (List Bytes)).run [] d := rfl
  rw [opsBack, hread, if_pos h]
  rfl

section
variable (horder : ∀ l, (order l).Perm l)
include horder

omit [Format] in
theorem opPaths_order (d) : (opPaths (order (opEntries d))).Perm (opFiles (opEntries d)) :=
  (opPaths_perm _).trans (opFiles_perm (horder _))

omit [Format] in
/-- A file of the directory is listed. -/
theorem get?_of_not_listed (ho : isIn opsDir p = true) (hnot : p ∉ order (opEntries d)) :
    d.get? p = none := by
  by_contra hne
  obtain ⟨b, hb⟩ := ne_none_iff_exists'.1 hne
  exact hnot ((horder _).mem_iff.2 (mem_opEntries.2 ⟨⟨b, hb⟩, ho⟩))

/-- One payload for each segment. -/
theorem length_opsBack (hdir : (d.get? opsDir).isSome) (h : opsBack order d = some (.ok ops)) :
    ops.length = (opFiles (opEntries d)).length := by
  rw [opsBack_of_present hdir, readInOrder] at h
  cases hm : misplaced (opPaths (order (opEntries d))) with
  | some path =>
    rw [hm] at h
    cases h
  | none =>
    rw [hm] at h
    obtain ⟨r, hr, hlen, -⟩ := @reads_readOps order d _ (opPaths (order (opEntries d)))
    rw [show Prog.run (Disk.exec order) .ok (readOps (opPaths (order (opEntries d)))).run [] d = (some r, d)
      from hr] at h
    rw [hlen ops (some.inj h), (opPaths_order horder d).length_eq]

/-- Where no segment is left, none is read. -/
theorem opsBack_of_no_files (h : opFiles (opEntries d) = []) : opsBack order d = some (.ok []) := by
  cases hdir : (d.get? opsDir).isSome with
  | false => exact opsBack_of_absent (by simpa using hdir)
  | true =>
    have hperm := opPaths_order horder d
    rw [h, perm_nil] at hperm
    rw [opsBack_of_present hdir, hperm]
    rfl

/-- With a single segment, what is read depends on that file only. -/
theorem opsBack_congr_of_single
    (h : opFiles (opEntries d) = [x]) (h' : opFiles (opEntries d') = [x])
    (hdir : d'.get? opsDir = d.get? opsDir) (hx : d'.get? x.2 = d.get? x.2) :
    opsBack order d' = opsBack order d := by
  have hpaths : ∀ d, opFiles (opEntries d) = [x] → opPaths (order (opEntries d)) = [x] := by
    intro d h
    have hperm := opPaths_order horder d
    rwa [h, perm_singleton] at hperm
  cases hsome : (d.get? opsDir).isSome with
  | false =>
    have hnone : d.get? opsDir = none := by simpa using hsome
    rw [opsBack_of_absent hnone, opsBack_of_absent (hdir.trans hnone)]
  | true =>
    rw [opsBack_of_present hsome, opsBack_of_present (by rwa [hdir]), hpaths d h, hpaths d' h',
      readInOrder]
    cases misplaced [x] with
    | some path => rfl
    | none =>
      obtain ⟨r, hr, -, hcongr⟩ := @reads_readOps order d _ [x]
      have hr' := hcongr d' (fun y hy => by rw [mem_singleton.1 hy, hx])
      exact (congrArg Prod.fst hr').trans (congrArg Prod.fst hr).symm

end

end Ops

/-! ## The directory on the way -/

/-- The archive and what is in it. -/
def inArchive (p : Path) : Prop := p = archiveDir ∨ p.dir = [archiveDir.name]

theorem inArchive_indexed (prefixed index) :
    inArchive (indexed archiveDir prefixed index) := .inr rfl

instance : Decidable (inArchive p) := inferInstanceAs (Decidable (_ ∨ _))

theorem not_inArchive_of_isIn (h : isIn opsDir p = true) : ¬inArchive p := by
  have hdir : p.dir = [opsDir.name] := of_decide_eq_true h
  rintro (rfl | harchive)
  · exact absurd hdir (by decide)
  · rw [hdir] at harchive
    exact absurd harchive (by decide)

section Way
variable {d d' s : Store}

/-- Outside the archive, only operation files are gone. -/
structure Shrunk (d d' : Store) : Prop where
  same : ∀ p, ¬inArchive p → isIn opsDir p = false → d'.get? p = d.get? p
  ops : ∀ p, isIn opsDir p = true → d'.get? p = d.get? p ∨ d'.get? p = none

theorem Shrunk.refl (d) : Shrunk d d := ⟨fun _ _ _ => rfl, fun _ _ => .inl rfl⟩

/-- A change in the archive. -/
theorem Shrunk.agreeOff (h : Shrunk d d₁) (ha : AgreeOff inArchive d₁ d') : Shrunk d d' := by
  refine ⟨fun p hp ho => (ha p hp).trans (h.same p hp ho), fun p ho => ?_⟩
  rw [ha p (not_inArchive_of_isIn ho)]
  exact h.ops p ho

/-- An operation file is removed. -/
theorem Shrunk.del (h : Shrunk d d₁) (hp : isIn opsDir p = true) : Shrunk d (d₁.del p) := by
  refine ⟨fun k hk ho => ?_, fun k ho => ?_⟩
  · rw [get?_del, if_neg (fun he => by rw [he, hp] at ho; cases ho)]
    exact h.same k hk ho
  · rw [get?_del]
    split
    · exact .inr rfl
    · exact h.ops k ho

theorem Shrunk.sameSlots (h : Shrunk d d') : SameSlots d d' := by
  intro slot
  cases slot <;> exact ⟨h.same _ (by decide) (by decide), h.same _ (by decide) (by decide)⟩

/-- No new segments appear. -/
theorem Shrunk.opEntries_subset (h : Shrunk d d') : opEntries d' ⊆ opEntries d := by
  intro p hp
  rw [mem_opEntries] at hp ⊢
  obtain ⟨⟨b, hb⟩, ho⟩ := hp
  refine ⟨?_, ho⟩
  rcases h.ops p ho with he | he
  · exact ⟨b, he ▸ hb⟩
  · rw [he] at hb
    cases hb

theorem opFiles_subset (h : entries' ⊆ entries) : opFiles entries' ⊆ opFiles entries := by
  intro x hx
  obtain ⟨p, hp, hx⟩ := mem_filterMap.1 hx
  exact mem_filterMap.2 ⟨p, h hp, hx⟩

theorem nodup_opFiles (h : entries.Nodup) : (opFiles entries).Nodup := by
  refine h.filterMap (fun p q x hp hq => ?_)
  obtain ⟨_, _, rfl⟩ := map_eq_some_iff.1 hp
  obtain ⟨_, _, he⟩ := map_eq_some_iff.1 hq
  exact (congrArg Prod.snd he).symm

/-- No operation segments can be read. -/
def NoOps (d : Store) : Prop :=
  d.get? opsDir = none ∨ ∀ p, isIn opsDir p = true → d.get? p = none

theorem NoOps.congr (h : NoOps d) (hdir : d'.get? opsDir = d.get? opsDir)
    (hops : ∀ p, isIn opsDir p = true → d'.get? p = d.get? p) : NoOps d' := by
  rcases h with h | h
  · exact .inl (hdir.trans h)
  · exact .inr (fun p hp => (hops p hp).trans (h p hp))

/-- Behind the archive: the old snapshot and no segments. -/
structure Settled (d s : Store) : Prop where
  slots : SameSlots d s
  legacy : s.get? legacySegmentFile = d.get? legacySegmentFile
  noOps : NoOps s

theorem Shrunk.settled (h : Shrunk d s) (hno : NoOps s) : Settled d s :=
  ⟨h.sameSlots, h.same _ (by decide) (by decide), hno⟩

theorem Settled.put_tombstones (h : Settled d s) (bytes) :
    Settled d (s.put tombstonesFile bytes) := by
  refine ⟨fun slot => ?_, ?_, h.noOps.congr ?_ (fun p hp => ?_)⟩
  · rw [get?_put, get?_put, if_neg, if_neg]
    · exact h.slots slot
    all_goals cases slot <;> decide
  · rw [get?_put, if_neg (by decide), h.legacy]
  · rw [get?_put, if_neg (by decide)]
  · rw [get?_put, if_neg]
    rintro rfl
    exact absurd hp (by decide)

section Ops
variable [Format] {order : List Path → List Path} (horder : ∀ l, (order l).Perm l)
include horder

theorem NoOps.opsBack (h : NoOps d) : opsBack order d = some (.ok []) := by
  rcases h with h | h
  · exact opsBack_of_absent h
  · have hnil : opEntries d = [] := eq_nil_iff_forall_not_mem.2 (fun p hp => by
      obtain ⟨⟨b, hb⟩, ho⟩ := mem_opEntries.1 hp
      rw [h p ho] at hb
      cases hb)
    exact opsBack_of_no_files horder (by rw [hnil]; rfl)

theorem Shrunk.opsBack_nil (h : Shrunk d d') (hops : opsBack order d = some (.ok [])) :
    Storage.opsBack order d' = some (.ok []) := by
  have hdir : d'.get? opsDir = d.get? opsDir := h.same _ (by decide) (by decide)
  cases hsome : (d.get? opsDir).isSome with
  | false => exact opsBack_of_absent (hdir.trans (by simpa using hsome))
  | true =>
    have hlen := length_opsBack horder hsome hops
    refine opsBack_of_no_files horder (eq_nil_iff_forall_not_mem.2 (fun x hx => ?_))
    have hx' := opFiles_subset h.opEntries_subset hx
    rw [length_eq_zero_iff.1 hlen.symm] at hx'
    cases hx'

/-- A single segment is there or is not. -/
theorem Shrunk.opsBack_single (h : Shrunk d d') {ops}
    (hops : opsBack order d = some (.ok ops)) (hone : ops.length = 1) :
    Storage.opsBack order d' = some (.ok ops) ∨ Storage.opsBack order d' = some (.ok []) := by
  have hdir : d'.get? opsDir = d.get? opsDir := h.same _ (by decide) (by decide)
  cases hsome : (d.get? opsDir).isSome with
  | false => exact .inr (opsBack_of_absent (hdir.trans (by simpa using hsome)))
  | true =>
    have hlen := length_opsBack horder hsome hops
    obtain ⟨x, hx⟩ := length_eq_one_iff.1 (hlen.symm.trans hone)
    have hsub := opFiles_subset h.opEntries_subset
    rw [hx] at hsub
    by_cases hmem : x ∈ opFiles (opEntries d')
    · have hx' : opFiles (opEntries d') = [x] := perm_singleton.1
        ((perm_ext_iff_of_nodup (nodup_opFiles (nodup_opEntries d')) (nodup_singleton x)).2
          (fun y => ⟨fun hy => hsub hy, fun hy => mem_singleton.1 hy ▸ hmem⟩))
      obtain ⟨⟨b, hb⟩, ho⟩ := mem_opEntries.1 (mem_opFiles hmem)
      have hget : d'.get? x.2 = d.get? x.2 := (h.ops x.2 ho).resolve_right (by rw [hb]; nofun)
      exact .inl ((opsBack_congr_of_single horder hx hx' hdir hget).trans hops)
    · refine .inr (opsBack_of_no_files horder (eq_nil_iff_forall_not_mem.2 (fun y hy => ?_)))
      exact hmem (mem_singleton.1 (hsub hy) ▸ hy)

end Ops
end Way

/-! ## Every run -/

section Runs
variable {order : List Path → List Path} {d d' : Store} {I : Store → Prop} {s : Store}
  {allowed : Fate Bytes → Prop} {X : StorageError → Store → Prop}

/-- What exists, what is read and what is listed, where nothing is written. -/
theorem holdsE_exists (h : I s) (p) : HoldsE (Disk.exec order) allowed I (pathExists p)
      (fun r s' => s' = s ∧ r = (s.get? p).isSome) X s :=
  step_look h ⟨rfl, rfl⟩

section
variable (hX : ∀ fate s, allowed fate → fate ≠ .ok → I s → X .io s)
include hX

theorem holdsE_read (h : I s) (p) : HoldsE (Disk.exec order) allowed I (readFile p)
      (fun r s' => s' = s ∧ r = s.get? p) X s :=
  step_inspect h ⟨rfl, rfl⟩ (fun ⟨_, hf⟩ => hX _ s hf (by simp) h)

theorem holdsE_list (h : I s) (dir) : HoldsE (Disk.exec order) allowed I (readDir dir)
      (fun r s' => s' = s ∧ r = order (s.keys.filter (isIn dir))) X s :=
  step_inspect h ⟨rfl, rfl⟩ (fun ⟨_, hf⟩ => hX _ s hf (by simp) h)

theorem holdsE_nextIndex (h : I s) (dir prefixed) :
    HoldsE (Disk.exec order) allowed I (nextIndex dir prefixed) (fun _ s' => s' = s) X s := by
  refine (holdsE_exists h dir).bind (fun r s' hr => ?_)
  obtain ⟨rfl, rfl⟩ := hr
  exact holdsE_ite (fun _ => (holdsE_list hX h dir).bind (fun _ _ hq => holdsE_pure hq.1))
    (fun _ => holdsE_pure rfl)

section
variable (hI : ∀ s p b, inArchive p → I s → I (s.put p b))
include hI

theorem holdsE_createArchive (h : I s) :
    HoldsE (Disk.exec order) allowed I (createDirAll archiveDir) (fun _ s => I s) X s := by
  have hcreate : I (if (s.get? archiveDir).isSome then s else s.put archiveDir []) := by
    split
    · exact h
    · exact hI s _ _ (.inl rfl) h
  exact step_change h (fun s' hs' => some.inj hs' ▸ ⟨hcreate, hcreate⟩)
    (fun hf => (hf.resolve_left (by simp)).elim (fun _ hf => hX _ s hf (by simp) h))

theorem holdsE_copyFile (hthere : (s.get? source).isSome) (hdest : inArchive destination) (h : I s) :
    HoldsE (Disk.exec order) allowed I (copyFile source destination) (fun _ s => I s) X s := by
  obtain ⟨content, hcontent⟩ := isSome_iff_exists.1 hthere
  have hput : ∀ b, I (s.put destination b) := fun b => hI s _ b hdest h
  intro fate hf
  have hex : Disk.exec order (.copy source destination) fate s = refill fate s (s.put destination) content := by
    simp only [Disk.exec, hcontent]
    rfl
  rw [hex]
  refine step_refill h hput (hput content) (fun hmay => ?_) fate hf
  obtain ⟨_, hfail⟩ := hmay
  exact ⟨hX _ s hfail (by simp) h, fun b => hX _ _ hfail (by simp) (hput b)⟩

theorem holdsE_archiveSegments (slots count) (h : I s) :
    HoldsE (Disk.exec order) allowed I (archiveSegments slots count) (fun _ s => I s) X s := by
  induction slots generalizing count s with
  | nil => exact holdsE_pure h
  | cons slot slots ih =>
    refine (holdsE_exists h _).bind (fun r s' hr => ?_)
    obtain ⟨rfl, rfl⟩ := hr
    refine holdsE_ite (fun hthere => ?_) (fun _ => ih count h)
    refine (holdsE_nextIndex hX h _ _).bind (fun index s'' he => ?_)
    obtain rfl := he
    exact (holdsE_copyFile hX hI hthere (inArchive_indexed _ index) h).bind
      (fun _ _ h => ih (count + 1) h)

end
end

theorem Shrunk.put (s p b) (hp : inArchive p) (h : Shrunk d s) : Shrunk d (s.put p b) :=
  h.agreeOff (agreeOff_put hp b)

section
variable (hX : ∀ fate s, allowed fate → fate ≠ .ok → Shrunk d s → X .io s)
include hX

/-- Moving files to the archive: those that were not met yet may be there. -/
theorem holdsE_archiveOps (hl : ∀ p ∈ l, isIn opsDir p = true) (count)
    (h : Shrunk d s) (hmet : ∀ p, isIn opsDir p = true → p ∉ l → s.get? p = none) :
    HoldsE (Disk.exec order) allowed (Shrunk d) (archiveOps l count)
      (fun _ s => Shrunk d s ∧ ∀ p, isIn opsDir p = true → s.get? p = none) X s := by
  induction l generalizing count s with
  | nil => exact holdsE_pure ⟨h, fun p hp => hmet p hp not_mem_nil⟩
  | cons path l ih =>
    have hl' : ∀ p ∈ l, isIn opsDir p = true := fun p hp => hl p (mem_cons_of_mem _ hp)
    refine (holdsE_exists h path).bind (fun r s' hr => ?_)
    obtain ⟨rfl, rfl⟩ := hr
    refine holdsE_ite (fun hthere => ?_) (fun hgone => ?_)
    · -- the next index is looked up and the file renamed
      refine (holdsE_nextIndex hX h _ _).bind (fun index s'' he => ?_)
      obtain rfl := he
      obtain ⟨content, hcontent⟩ := isSome_iff_exists.1 hthere
      have hpath := hl path mem_cons_self
      have harchive := inArchive_indexed opPrefix index
      generalize indexed archiveDir opPrefix index = dest at harchive ⊢
      have hmoved : Shrunk d ((s''.del path).put dest content) :=
        Shrunk.put _ _ content harchive (h.del hpath)
      have hrename : HoldsE (Disk.exec order) allowed (Shrunk d) (renameFile path dest)
          (fun _ s => s = (s''.del path).put dest content) X s'' := by
        have hex : Disk.exec order (.rename path dest) .ok s'' =
            (some (.ok ()), (s''.del path).put dest content) := by
          simp only [Disk.exec, hcontent]
          rfl
        rintro (_ | torn | torn) hf
        · rw [hex]
          exact ⟨hmoved, fun r hr => some.inj hr ▸ rfl⟩
        · exact ⟨h, fun r hr => some.inj hr ▸ hX _ s'' hf (by simp) h⟩
        · exact ⟨h, fun _ hr => by cases hr⟩
      refine hrename.bind (fun _ s₃ hs => ?_)
      obtain rfl := hs
      refine ih hl' (count + 1) hmoved (fun p hp hmem => ?_)
      have hne : p ≠ dest := fun he => not_inArchive_of_isIn hp (he ▸ harchive)
      rw [get?_put, if_neg hne, get?_del]
      split
      · rfl
      · next hne => exact hmet p hp (fun hm => (mem_cons.1 hm).elim hne hmem)
    · refine ih hl' count h (fun p hp hmem => ?_)
      by_cases he : p = path
      · rw [he]
        exact not_isSome_iff_eq_none.1 hgone
      · exact hmet p hp (fun hm => (mem_cons.1 hm).elim he hmem)

theorem holdsE_archiveAllOps (horder : ∀ l, (order l).Perm l) (h : Shrunk d s) :
    HoldsE (Disk.exec order) allowed (Shrunk d) archiveAllOps
      (fun _ s => Shrunk d s ∧ NoOps s) X s := by
  refine (holdsE_exists h opsDir).bind (fun r s' hr => ?_)
  obtain ⟨rfl, rfl⟩ := hr
  refine holdsE_ite (fun _ => ?_) (fun hgone => ?_)
  · refine (holdsE_list hX h opsDir).bind (fun entries s'' hq => ?_)
    obtain ⟨rfl, rfl⟩ := hq
    refine (holdsE_archiveOps hX (fun p hp => ?_) 0 h (fun p hp hmem => ?_)).postOk
      (fun _ _ hq => ⟨hq.1, .inr hq.2⟩)
    · exact (mem_opEntries.1 ((horder _).mem_iff.1 hp)).2
    · exact get?_of_not_listed horder hp hmem
  · exact holdsE_pure ⟨h, .inl (not_isSome_iff_eq_none.1 hgone)⟩

end

variable [Format]

/-- The tombstones on disk, nothing where they cannot be read. -/
def tombstonesIn (d : Store) : Option (List Nat) :=
  match d.get? tombstonesFile with
  | none => some []
  | some bytes => Format.accessTombstones bytes

/-- The tombstones can be read, and the new ones encoded. -/
def TombstonesPass (d : Store) (retention : TombstoneRetention) (tombstones : List Nat) : Prop :=
  ∃ values encoded, tombstonesIn d = some values ∧
    Format.tombstonesToBytes (pruneTombstones (values ++ tombstones) retention).1 = some encoded

theorem Shrunk.tombstonesIn (h : Shrunk d d') : tombstonesIn d' = Storage.tombstonesIn d := by
  rw [Storage.tombstonesIn, Storage.tombstonesIn, h.same _ (by decide) (by decide)]

theorem reads_readTombstones (h : tombstonesIn d = some values) :
    Reads order readTombstones d (.ok values) := by
  refine (reads_pathExists tombstonesFile).bind ?_
  rw [tombstonesIn] at h
  cases hget : d.get? tombstonesFile with
  | none =>
    rw [hget] at h
    cases h
    exact reads_pure []
  | some bytes =>
    rw [hget] at h
    refine (reads_readFile tombstonesFile).bind ?_
    rw [hget]
    simp only at h
    simp only [h]
    exact reads_pure values

theorem holdsE_readTombstones (h : I s) : HoldsE (Disk.exec order) (fun _ => True) I readTombstones
      (fun values s' => s' = s ∧ tombstonesIn s = some values) (fun _ s => I s) s := by
  refine (holdsE_exists h tombstonesFile).bind (fun r s' hr => ?_)
  obtain ⟨rfl, rfl⟩ := hr
  refine holdsE_ite (fun hthere => ?_) (fun hgone => ?_)
  · obtain ⟨bytes, hbytes⟩ := isSome_iff_exists.1 hthere
    refine (holdsE_read (X := fun _ s => I s) (fun _ _ _ _ h => h) h tombstonesFile).bind (fun r s'' hq => ?_)
    obtain ⟨rfl, rfl⟩ := hq
    rw [hbytes]
    dsimp only
    cases hacc : Format.accessTombstones bytes with
    | none => exact holdsE_throw h
    | some values => exact holdsE_pure ⟨rfl, by rw [tombstonesIn, hbytes, ← hacc]⟩
  · refine holdsE_pure ⟨rfl, ?_⟩
    rw [tombstonesIn, not_isSome_iff_eq_none.1 hgone]

end Runs

/-! ## Where it may be stopped -/

section Stops
variable {order : List Path → List Path} {d d' : Store} {I : Store → Prop}

/-- The files of the list are gone, and outside the archive nothing else has changed. -/
def Moved (l : List Path) (d d' : Store) : Prop :=
  ∀ p, ¬inArchive p → d'.get? p = if p ∈ l then none else d.get? p

theorem Moved.trans (h : Moved l d d₁) (h' : Moved l' d₁ d') : Moved (l ++ l') d d' := by
  intro p hp
  rw [h' p hp, h p hp]
  by_cases hl : p ∈ l <;> by_cases hl' : p ∈ l' <;> simp [hl, hl']

theorem moved_nil_iff : Moved [] d d' ↔ AgreeOff inArchive d d' :=
  forall₂_congr (fun p _ => by simp)

theorem isSome_exec_ok (c) : (Disk.exec order c .ok d).1.isSome := by
  cases c with
  | copy a b | rename a b | remove a =>
    simp only [Disk.exec]
    cases d.get? a <;> rfl
  | _ => rfl

/-- Without faults, what holds of a computation is what it gives. -/
theorem exists_gives {p : StorageM A}
    (h : HoldsE (Disk.exec order) (· = .ok) I p Q (fun _ _ => False) d) :
    ∃ a d', Gives order p d (.ok a) d' ∧ Q a d' := by
  have hsome : (Prog.run (Disk.exec order) .ok p.run [] d).1.isSome := run_isSome Fate.ok
    (fun c s _ hf => hf.resolve_left not_mem_nil ▸ @isSome_exec_ok order s c)
  obtain ⟨r, hr⟩ := isSome_iff_exists.1 hsome
  have hq := (Holds.run .ok h rfl (fun _ (hm : _ ∈ []) => absurd hm not_mem_nil)).1 r hr
  cases r with
  | error e => exact hq.elim
  | ok a => exact ⟨a, _, Prod.ext hr rfl, hq⟩

/-- One file is moved if it is there. -/
theorem archiveOps_step (path count) : ∃ count₁ d₁, Moved [path] d d₁ ∧
      ∀ l d', StopsAt order (archiveOps l count₁) d₁ d' →
        StopsAt order (archiveOps (path :: l) count) d d' := by
  cases hget : d.get? path with
  | none =>
    refine ⟨count, d, fun p _ => ?_, fun l d' h => after (reads_pathExists path) ?_⟩
    · split
      · next hp => rw [mem_singleton.1 hp, hget]
      · rfl
    · rw [hget]
      exact h
  | some content =>
    obtain ⟨index, _, hindex, he⟩ := exists_gives (@holdsE_nextIndex order (fun _ => True) d _ _
      (fun _ _ hok hne _ => hne hok) trivial archiveDir opPrefix)
    rw [he] at hindex
    have hrename : Gives order (renameFile path (indexed archiveDir opPrefix index)) d (.ok ())
        ((d.del path).put (indexed archiveDir opPrefix index) content) := by
      simp [Gives, renameFile, attempt, Prog.run, Disk.exec, change, hget, orIo]
    refine ⟨count + 1, (d.del path).put (indexed archiveDir opPrefix index) content, fun p hp => ?_,
      fun l d' h => after (reads_pathExists path) ?_⟩
    · have hne : p ≠ indexed archiveDir opPrefix index := fun he => hp (he ▸ inArchive_indexed _ _)
      rw [get?_put, if_neg hne, get?_del]
      simp only [mem_singleton]
    · rw [hget]
      exact after hindex (after hrename h)

/-- It may be stopped in front of any file. -/
theorem stopsAt_archiveOps (l path l' count) :
    ∃ d', StopsAt order (archiveOps (l ++ path :: l') count) d d' ∧ Moved l d d' := by
  induction l generalizing count d with
  | nil => exact ⟨d, ⟨[.crash none], rfl⟩, moved_nil_iff.2 (AgreeOff.refl _ _)⟩
  | cons p l ih =>
    obtain ⟨count₁, d₁, hmoved, hstops⟩ := @archiveOps_step order d p count
    obtain ⟨d', hrest, hmoved'⟩ := @ih d₁ count₁
    exact ⟨d', hstops _ d' hrest, hmoved.trans hmoved'⟩

/-- The files that were not moved are still there. -/
theorem Moved.opEntries_perm (hl : (l ++ l').Perm (opEntries d)) (h : Moved l d d') :
    (opEntries d').Perm l' := by
  have hnodup : (l ++ l').Nodup := hl.nodup_iff.2 (nodup_opEntries d)
  refine (perm_ext_iff_of_nodup (nodup_opEntries d') (nodup_append.1 hnodup).2.1).2 (fun p => ?_)
  rw [mem_opEntries]
  constructor
  · rintro ⟨⟨b, hb⟩, ho⟩
    rw [h p (not_inArchive_of_isIn ho)] at hb
    split at hb
    · cases hb
    · next hnot =>
      have hmem : p ∈ l ++ l' := hl.mem_iff.2 (mem_opEntries.2 ⟨⟨b, hb⟩, ho⟩)
      exact (mem_append.1 hmem).resolve_left hnot
  · intro hp
    obtain ⟨hb, ho⟩ := mem_opEntries.1 (hl.mem_iff.1 (mem_append_right l hp))
    refine ⟨?_, ho⟩
    rw [h p (not_inArchive_of_isIn ho), if_neg (fun hm => ?_)]
    · exact hb
    · exact disjoint_of_nodup_append hnodup hm hp

/-- The first operation segment of a list. -/
theorem exists_first_op (h : opFiles l ≠ []) :
    ∃ l₁ q l₂, l = l₁ ++ q :: l₂ ∧ (opFiles l).length = (opFiles l₂).length + 1 := by
  induction l with
  | nil => exact absurd rfl h
  | cons p l ih =>
    cases hp : indexAfter opPrefix p.name with
    | some index => exact ⟨[], p, l, rfl, by simp [opFiles, hp]⟩
    | none =>
      have hcons : opFiles (p :: l) = opFiles l := by simp [opFiles, hp]
      obtain ⟨l₁, q, l₂, rfl, hlen⟩ := ih (by rwa [hcons] at h)
      exact ⟨p :: l₁, q, l₂, rfl, by rw [hcons, hlen]⟩

variable (horder : ∀ l, (order l).Perm l) {payload pendingOps : Bytes} {flag : Bool}
  {retention : TombstoneRetention} {tombstones : List Nat}

include horder in
theorem gives_archiveAllOps :
    ∃ n d', Gives order archiveAllOps d (.ok n) d' ∧ Shrunk d d' ∧ NoOps d' :=
  exists_gives (holdsE_archiveAllOps (fun _ _ hok hne _ => hne hok) horder (Shrunk.refl d))

theorem Moved.trans_shrunk (h : Moved [] d d₁) (h' : Shrunk d₁ d') : Shrunk d d' := by
  have ha := moved_nil_iff.1 h
  exact ⟨fun p hp ho => (h'.same p hp ho).trans (ha p hp),
    fun p ho => ha p (not_inArchive_of_isIn ho) ▸ h'.ops p ho⟩

variable [Format]

/-- It may be stopped wherever the archiving of operations and what follows may be, after changes
    in the archive only. -/
theorem stopsAt_compact : ∃ n d₁, Moved [] d d₁ ∧
      ∀ d', StopsAt order (archiveAllOps >>= publishCompacted payload pendingOps flag retention
          tombstones n) d₁ d' →
        StopsAt order (compact payload pendingOps flag retention tombstones) d d' := by
  have hput : ∀ s p b, inArchive p → AgreeOff inArchive d s → AgreeOff inArchive d (s.put p b) :=
    fun s p b hp h => h.trans (agreeOff_put hp b)
  obtain ⟨_, d₁, hcreate, hsame₁⟩ := exists_gives (@holdsE_createArchive order _ d _ _
    (fun _ _ hok hne _ => hne hok) hput (AgreeOff.refl _ d))
  obtain ⟨n, d₂, hsegments, hsame₂⟩ := exists_gives (@holdsE_archiveSegments order _ d₁ _ _
    (fun _ _ hok hne _ => hne hok) hput storageSlots 0 hsame₁)
  exact ⟨n, d₂, moved_nil_iff.2 hsame₂, fun d' h => after hcreate (after hsegments h)⟩

include horder in
/-- It may be stopped with all operations archived and the old snapshot in place. -/
theorem stopsAt_compact_noOps :
    ∃ d', StopsAt order (compact payload pendingOps flag retention tombstones) d d' ∧ Shrunk d d' ∧
      NoOps d' := by
  obtain ⟨n, d₁, hmoved, hstops⟩ :=
    @stopsAt_compact order d payload pendingOps flag retention tombstones _
  obtain ⟨k, d₂, hgives, hshrunk, hno⟩ := @gives_archiveAllOps order d₁ horder
  refine ⟨d₂, hstops d₂ (after hgives ?_), hmoved.trans_shrunk hshrunk, hno⟩
  exact StopsAt.bind (p := readTombstones) (StopsAt.bind (p := pathExists tombstonesFile)
    ⟨[.crash none], rfl⟩)

include horder in
/-- With two segments or more, it may be stopped when one of them is archived. -/
theorem stopsAt_compact_between (hdir : (d.get? opsDir).isSome)
    (htwo : 2 ≤ (opFiles (opEntries d)).length) :
    ∃ d', StopsAt order (compact payload pendingOps flag retention tombstones) d d' ∧
      (d'.get? opsDir).isSome ∧
      (opFiles (opEntries d)).length = (opFiles (opEntries d')).length + 1 := by
  obtain ⟨n, d₁, hmoved, hstops⟩ :=
    @stopsAt_compact order d payload pendingOps flag retention tombstones _
  have hdir₁ : d₁.get? opsDir = d.get? opsDir := moved_nil_iff.1 hmoved _ (by decide)
  have hperm : (opEntries d₁).Perm (opEntries d) :=
    Moved.opEntries_perm (l := []) (List.Perm.refl _) hmoved
  have hlen : (opFiles (order (opEntries d₁))).length = (opFiles (opEntries d)).length :=
    (opFiles_perm ((horder _).trans hperm)).length_eq
  obtain ⟨l₁, q, l₂, hl, hcount⟩ := @exists_first_op (order (opEntries d₁))
    (fun he => by rw [he] at hlen; simp only [length_nil] at hlen; omega)
  cases l₂ with
  | nil =>
    simp only [opFiles, filterMap_nil, length_nil] at hcount hlen htwo
    omega
  | cons path l₂ =>
    have hl' : order (opEntries d₁) = (l₁ ++ [q]) ++ path :: l₂ := by simp [hl]
    obtain ⟨d₂, hstop, hmoved₂⟩ := @stopsAt_archiveOps order d₁ (l₁ ++ [q]) path l₂ 0
    have hrest : (opEntries d₂).Perm (path :: l₂) :=
      hmoved₂.opEntries_perm (hl' ▸ horder (opEntries d₁))
    refine ⟨d₂, hstops d₂ (StopsAt.bind (after (reads_pathExists opsDir) ?_)), ?_, ?_⟩
    · rw [hdir₁, hdir]
      refine after (reads_readDir opsDir) ?_
      rw [show order (d₁.keys.filter (isIn opsDir)) = (l₁ ++ [q]) ++ path :: l₂ from hl']
      exact hstop
    · have hnot : opsDir ∉ l₁ ++ [q] := fun hm => by
        have hin := (mem_opEntries.1 ((horder _).mem_iff.1 (hl' ▸ mem_append_left _ hm))).2
        exact absurd hin (by decide)
      rw [hmoved₂ _ (by decide), if_neg hnot, hdir₁]; exact hdir
    · rw [← hlen, hcount, (opFiles_perm hrest).length_eq]

include horder in
/-- It may be stopped when the new segment is in place. -/
theorem stopsAt_compact_withSegment (hd : Legible d) (hleg : d.get? legacySegmentFile = none)
    (htomb : TombstonesPass d retention tombstones) :
    ∃ s d', StopsAt order (compact payload pendingOps flag retention tombstones) d d' ∧
      SameSlots d s ∧ AgreeOff isTemp (withSegment s payload) d' := by
  obtain ⟨n, d₁, hmoved, hstops⟩ :=
    @stopsAt_compact order d payload pendingOps flag retention tombstones _
  obtain ⟨k, d₂, hgives, hshrunk₂, hno⟩ := @gives_archiveAllOps order d₁ horder
  have hshrunk : Shrunk d d₂ := hmoved.trans_shrunk hshrunk₂
  obtain ⟨values, encoded, hvalues, hencoded⟩ := htomb
  have hvalues₂ : tombstonesIn d₂ = some values := by rw [hshrunk.tombstonesIn, hvalues]
  have hput := (hshrunk.settled hno).put_tombstones encoded
  obtain ⟨d₃, hstop, hagree⟩ :=
    @stopsAt_withSegment _ order _ payload pendingOps flag (hput.slots.legible hd)
      (hput.legacy.trans hleg)
  refine ⟨d₂.put tombstonesFile encoded, d₃, hstops d₃ (after hgives ?_), hput.slots, hagree⟩
  refine after (reads_readTombstones hvalues₂) ?_
  simp only [hencoded]
  exact after (gives_overwrite tombstonesFile encoded) hstop.bind

end Stops

/-! ## Atomicity -/

section Atomicity
variable {d d' s : Store}

/-- Temporary files and the files of slots are not operations. -/
theorem NoOps.agreeOff (h : NoOps s) (ha : AgreeOff isTemp s d') : NoOps d' := by
  refine h.congr (ha _ (by decide)) (fun p hp => ha p (fun ht => ?_))
  rw [isIn, ht.1] at hp
  exact absurd hp (by decide)

theorem NoOps.put_root (h : NoOps s) (hdir : p.dir = []) (hne : opsDir ≠ p) (bytes) :
    NoOps (s.put p bytes) := by
  refine h.congr ?_ (fun q hq => ?_)
  · rw [get?_put, if_neg hne]
  · rw [get?_put, if_neg]
    rintro rfl
    rw [isIn, hdir] at hq
    exact absurd hq (by decide)

theorem opsDir_ne_segment (slot : Slot) : opsDir ≠ slot.segment := by cases slot <;> decide

theorem opsDir_ne_superblock (slot : Slot) : opsDir ≠ slot.superblock := by cases slot <;> decide

variable [Format] {order : List Path → List Path}
  {previous : Bytes × Bytes × Bool} {segments : List Bytes} {payload pendingOps : Bytes} {flag : Bool}
  {retention : TombstoneRetention} {tombstones : List Nat}

/-- The directory that a compaction leaves. -/
def compacted (order : List Path → List Path) (d : Store) (payload pendingOps : Bytes) (flag : Bool)
    (retention : TombstoneRetention) (tombstones : List Nat) (fates : List (Fate Bytes)) : Store :=
  (Prog.run (Disk.exec order) .ok (compact payload pendingOps flag retention tombstones).run fates d).2

/-- A reader gets the old snapshot with its segments, or the new payload without any. -/
def Whole (order : List Path → List Path) (previous : Bytes × Bytes × Bool) (segments : List Bytes)
    (payload : Bytes) (d : Store) : Prop :=
  ∃ found ops, readBack order d = some (.ok found) ∧ opsBack order d = some (.ok ops) ∧
    (found = previous ∧ ops = segments ∨ found.1 = payload ∧ ops = [])

/-- There is nothing to archive, or a single segment and nothing new in the snapshot. -/
def Archivable (previous : Bytes × Bytes × Bool) (segments : List Bytes) (payload : Bytes) : Prop :=
  segments = [] ∨ segments.length = 1 ∧ previous.1 = payload

/-- The snapshot part alone is atomic: it is not reached, or the write keeps a copy. -/
def SnapshotSafe (d : Store) (previous : Bytes × Bytes × Bool) (payload : Bytes)
    (retention : TombstoneRetention) (tombstones : List Nat) : Prop :=
  ¬TombstonesPass d retention tombstones ∨ (d.get? legacySegmentFile).isSome ∨
    writeSlot d ≠ readSlot d ∨ FitsOld d payload ∨
      OtherServes d (fun found => found = previous ∨ found.1 = payload)

section Sufficient
variable (horder : ∀ l, (order l).Perm l) (hread : readBack order d = some (.ok previous))
  (hops : opsBack order d = some (.ok segments)) (harch : Archivable previous segments payload)
include horder hread hops harch

omit hops in
/-- Without segments in the directory, the old snapshot is whole and so is any of the payload. -/
theorem whole_of_noOps (hno : NoOps s)
    (hfound : readBack order s = some (.ok found)) (hgood : found = previous ∨ found.1 = payload) :
    Whole order previous segments payload s := by
  refine ⟨found, [], hfound, hno.opsBack horder, ?_⟩
  rcases hgood with rfl | hgood
  · rcases harch with rfl | ⟨-, hsame⟩
    · exact .inl ⟨rfl, rfl⟩
    · exact .inr ⟨hsame, rfl⟩
  · exact .inr ⟨hgood, rfl⟩

theorem whole_of_shrunk (h : Shrunk d s) : Whole order previous segments payload s := by
  have hfound := (@readBack_sameSlots _ order d s h.sameSlots previous).2 hread
  rcases harch with rfl | ⟨hone, hsame⟩
  · exact ⟨previous, [], hfound, h.opsBack_nil horder hops, .inl ⟨rfl, rfl⟩⟩
  · rcases h.opsBack_single horder hops hone with ho | ho
    · exact ⟨previous, segments, hfound, ho, .inl ⟨rfl, rfl⟩⟩
    · exact ⟨previous, [], hfound, ho, .inr ⟨hsame, rfl⟩⟩

omit hops in
theorem whole_of_settled (h : Settled d s) : Whole order previous segments payload s :=
  whole_of_noOps horder hread harch h.noOps ((readBack_sameSlots h.slots previous).2 hread) (.inl rfl)

omit hops in
/-- The snapshot is written where the segments are gone. -/
theorem whole_of_leaves [LawfulFormat] (h : Settled d s)
    (hsafe : d.get? legacySegmentFile = none → writeSlot d ≠ readSlot d ∨ FitsOld d payload ∨
      OtherServes d (fun found => found = previous ∨ found.1 = payload))
    (hl : Leaves s payload pendingOps flag d') : Whole order previous segments payload d' := by
  have hreadS : readBack order s = some (.ok previous) := (readBack_sameSlots h.slots previous).2 hread
  have hseg : NoOps (withSegment s payload) :=
    h.noOps.put_root (dir_segment _) (opsDir_ne_segment _) payload
  rcases hl with hl | ⟨hleg, hl | ⟨body, hbody, hl⟩⟩
  · exact whole_of_noOps horder hread harch (h.noOps.agreeOff hl)
      ((readBack_agreeOff hl previous).2 hreadS) (.inl rfl)
  · have hsafe' : writeSlot s ≠ readSlot s ∨ FitsOld s payload ∨
        OtherServes s (fun found => found = previous ∨ found.1 = payload) := by
      have hcond := hsafe (h.legacy.symm.trans hleg)
      rw [OtherServes, FitsOld, h.slots.writeSlot, h.slots.readSlot, h.slots.served, h.slots.metadata]
      exact hcond
    obtain ⟨found, hfound, hgood⟩ := exists_readBack_withSegment hreadS (.inl rfl)
      (fun _ => .inr) hsafe'
    exact whole_of_noOps horder hread harch (hseg.agreeOff hl) ((readBack_agreeOff hl found).2 hfound)
      hgood
  · have hno : NoOps (withSuperblock s payload body) :=
      hseg.put_root (dir_superblock _) (opsDir_ne_superblock _) _
    have hd : Legible s := (readBack_ok_iff.1 hreadS).1
    exact whole_of_noOps horder hread harch (hno.agreeOff hl)
      ((readBack_agreeOff hl _).2 (readBack_withSuperblock hd hbody)) (.inr rfl)

theorem whole_compacted [LawfulFormat]
    (hsafe : SnapshotSafe d previous payload retention tombstones) (fates) :
    Whole order previous segments payload
      (compacted order d payload pendingOps flag retention tombstones fates) := by
  let W := Whole order previous segments payload
  have whole : ∀ s, Shrunk d s → W s :=
    fun _ h => whole_of_shrunk horder hread hops harch h
  have settled : ∀ s, Settled d s → W s :=
    fun _ h => whole_of_settled horder hread harch h
  have hholds : HoldsE (Disk.exec order) (fun _ => True) (W)
      (compact payload pendingOps flag retention tombstones)
      (fun _ s => W s)
      (fun _ s => W s) d := by
    have hX : ∀ (fate : Fate Bytes) s, True → fate ≠ .ok → Shrunk d s → W s :=
      fun _ s _ _ => whole s
    refine ((holdsE_createArchive hX Shrunk.put (Shrunk.refl d)).mono whole (fun _ _ h => h)
      (fun _ _ h => h)).bind (fun _ s h => ?_)
    refine ((holdsE_archiveSegments hX Shrunk.put storageSlots 0 h).mono whole (fun _ _ h => h)
      (fun _ _ h => h)).bind (fun _ s h => ?_)
    refine ((holdsE_archiveAllOps hX horder h).mono whole (fun _ _ h => h)
      (fun _ _ h => h)).bind (fun _ s h => ?_)
    obtain ⟨hshrunk, hno⟩ := h
    refine (holdsE_readTombstones (whole s hshrunk)).bind (fun values s' hq => ?_)
    obtain ⟨rfl, hvalues⟩ := hq
    cases hencoded : Format.tombstonesToBytes (pruneTombstones (values ++ tombstones) retention).1 with
    | none =>
      simp only [hencoded]
      exact holdsE_throw (whole s' hshrunk)
    | some encoded =>
      have hpass : TombstonesPass d retention tombstones :=
        ⟨values, encoded, hshrunk.tombstonesIn ▸ hvalues, hencoded⟩
      have hs := hshrunk.settled hno
      have hput : HoldsE (Disk.exec order) (fun _ => True) (Settled d)
          (overwrite tombstonesFile encoded) (fun _ s => Settled d s) (fun _ s => Settled d s) s' := by
        refine keeps_attempt (fun s fate _ h => ?_) s' hs
        cases fate with
        | ok => exact h.put_tombstones encoded
        | fail torn | crash torn =>
          cases torn with
          | none => exact h
          | some b => exact h.put_tombstones b
      simp only [hencoded]
      refine (hput.mono settled (fun _ _ h => h) (fun _ => settled)).bind (fun _ s h => ?_)
      have hd : Legible s := h.slots.legible (readBack_ok_iff.1 hread).1
      have hleaves : ∀ d', Leaves s payload pendingOps flag d' → W d' :=
        fun _ => whole_of_leaves horder hread harch h (fun hleg =>
          (hsafe.resolve_left (not_not.2 hpass)).resolve_left (by simp [hleg]))
      exact ((leaves_writeSnapshot hd payload pendingOps flag).mono hleaves (fun _ => hleaves)
        (fun _ => hleaves)).bind (fun _ _ h => holdsE_pure h)
  exact hholds.ends .ok fates

end Sufficient

/-- A snapshot that stays the same fits the superblock it is under. -/
theorem fitsOld_of_same (hread : readBack order d = some (.ok previous)) (hslot : writeSlot d = readSlot d) :
    FitsOld d previous.1 := by
  have hs := (readBack_ok_iff.1 hread).2
  rw [← served_readSlot, ← hslot] at hs
  obtain ⟨m, segment, hm, -, hfits, rfl⟩ := served_eq_some.1 hs; exact ⟨m, hm, hfits⟩

/-- **When compaction is atomic.** Wherever a compaction is stopped, a reader gets the old snapshot
    with all its operation segments or the new payload with none, if and only if there are no
    operation segments and the snapshot part is safe by itself, or there is one segment and the
    payload is the old one. -/
theorem compact_atomic_iff [LawfulFormat] (order : List Path → List Path)
    (horder : ∀ l, (order l).Perm l) (d : Store) (previous : Bytes × Bytes × Bool)
    (segments : List Bytes) (payload pendingOps : Bytes) (flag : Bool)
    (retention : TombstoneRetention) (tombstones : List Nat)
    (hread : readBack order d = some (.ok previous))
    (hops : opsBack order d = some (.ok segments)) : (∀ fates, Whole order previous segments payload
        (compacted order d payload pendingOps flag retention tombstones fates)) ↔
      segments = [] ∧ SnapshotSafe d previous payload retention tombstones ∨
        segments.length = 1 ∧ previous.1 = payload := by
  have hd : Legible d := (readBack_ok_iff.1 hread).1
  constructor
  · intro hwhole
    have stop : ∀ d', StopsAt order (compact payload pendingOps flag retention tombstones) d d' →
        Whole order previous segments payload d' := by
      rintro d' ⟨fates, hstop⟩
      have h := hwhole fates
      rwa [compacted, hstop] at h
    by_cases hnil : segments = []
    · refine .inl ⟨hnil, ?_⟩
      by_contra hnot
      simp only [SnapshotSafe, not_or, not_not] at hnot
      obtain ⟨hpass, hleg, -, hfits, hcopy⟩ := hnot
      have hleg' : d.get? legacySegmentFile = none := not_isSome_iff_eq_none.1 hleg
      obtain ⟨s, d', hstop, hsame, hagree⟩ := @stopsAt_compact_withSegment order d horder payload
        pendingOps flag retention tombstones _ hd hleg' hpass
      obtain ⟨found, ops, hfound, -, hgood⟩ := stop d' hstop
      have hfits' : ¬FitsOld s payload := by
        rw [FitsOld, hsame.writeSlot, hsame.metadata]
        exact hfits
      have hserved := served_of_readBack_withSegment (hsame.legible hd) hfits'
        ((readBack_agreeOff hagree found).1 hfound)
      rw [hsame.served, hsame.writeSlot] at hserved
      exact hcopy ⟨found, hserved, hgood.imp And.left And.left⟩
    · -- the operations are archived while the old snapshot is in place
      obtain ⟨d', hstop, hshrunk, hno⟩ := @stopsAt_compact_noOps order d horder payload pendingOps
        flag retention tombstones _
      obtain ⟨found, ops, hfound, hfoundOps, hgood⟩ := stop d' hstop
      rw [readBack_sameSlots hshrunk.sameSlots, hread] at hfound
      rw [hno.opsBack horder] at hfoundOps
      cases hfound
      cases hfoundOps
      have hsame : previous.1 = payload := by
        rcases hgood with ⟨-, he⟩ | ⟨he, -⟩
        · exact absurd he.symm hnil
        · exact he
      refine .inr ⟨?_, hsame⟩
      by_contra hone
      have hdir : (d.get? opsDir).isSome := by
        by_contra habs
        rw [opsBack_of_absent (not_isSome_iff_eq_none.1 habs)] at hops
        exact hnil (Except.ok.inj (some.inj hops)).symm
      have hlen := length_opsBack horder hdir hops
      have hpos : segments.length ≠ 0 := fun h => hnil (length_eq_zero_iff.1 h)
      obtain ⟨d₂, hstop₂, hdir₂, hcount⟩ := @stopsAt_compact_between order d horder payload
        pendingOps flag retention tombstones _ hdir (by omega)
      obtain ⟨found, ops, -, hfoundOps, hgood⟩ := stop d₂ hstop₂
      have hlen₂ := length_opsBack horder hdir₂ hfoundOps
      rcases hgood with ⟨-, he⟩ | ⟨-, he⟩
      · rw [he] at hlen₂
        omega
      · rw [he, length_nil] at hlen₂
        omega
  · rintro (⟨hnil, hsafe⟩ | ⟨hone, hsame⟩) fates
    · exact whole_compacted horder hread hops (.inl hnil) hsafe fates
    · refine whole_compacted horder hread hops (.inr ⟨hone, hsame⟩) ?_ fates
      by_cases hslot : writeSlot d = readSlot d
      · exact .inr (.inr (.inr (.inl (hsame ▸ fitsOld_of_same hread hslot))))
      · exact .inr (.inr (.inl hslot))

end Atomicity

section Examples
attribute [local instance] plainFormat

/-- A snapshot and one operation segment. -/
def oneSegment : Store :=
  (Prog.run (Disk.exec id) .ok (appendOpSegment [7]).run []
    (afterWrites id [⟨[1], [], false, []⟩]).1).2

/-- Stopped behind the renaming, the old snapshot is left without its segment. -/
theorem compact_loses_segment : readBack id oneSegment = some (.ok ([1], [], false)) ∧
      opsBack id oneSegment = some (.ok [[7]]) ∧
      readBack id (compacted id oneSegment [1, 7] [] false .keepAll []
          (List.replicate 12 .ok ++ [.crash none])) = some (.ok ([1], [], false)) ∧
      opsBack id (compacted id oneSegment [1, 7] [] false .keepAll []
          (List.replicate 12 .ok ++ [.crash none])) = some (.ok []) := by
  decide +kernel

/-- Where the payload is the old one, the segment may go. -/
theorem compact_atomic_oneSegment : opsBack id oneSegment = some (.ok [[7]]) ∧
    ∀ fates, Whole id ([1], [], false) [[7]] [1]
      (compacted id oneSegment [1] [] false .keepAll [] fates) := by
  have hops : opsBack id oneSegment = some (.ok [[7]]) := by decide +kernel
  exact ⟨hops, (@compact_atomic_iff plainFormat plainFormat_lawful id (fun l => List.Perm.refl l) _
    ([1], [], false) [[7]] [1] [] false .keepAll [] (by decide +kernel) hops).2
      (.inr ⟨rfl, rfl⟩)⟩

end Examples
end MdCrdt.Storage
