import MdCrdt.Vault.Files

/- What a vault does to its Markdown files (`filesync/session.rs`).

  Every method is a program of single steps, in the order of the source, with what it
  does on an error. A transaction writes the new contents beside their targets, then
  its journal; from then on the new contents are put in place, by the call itself or
  by a later recovery, each old content kept under another name until all are.

  The checks of a method that look at its sessions and not at files (identities,
  revisions, fingerprints) come before its first change and are not modelled, nor is
  what it keeps in memory. -/
namespace MdCrdt.Vault
open Lib Prog Option Host

variable [Host] {b : Bytes}

inductive VaultError where
  | pathDoesNotExist (path : Path)
  | pathAlreadyExists (path : Path)
  | io
  | serialization
  | duplicateDocumentBatch (path : RelPath)
  | recoverableTransaction (journal : Path)

/-- A program on the files of a vault. -/
abbrev VaultM (A : Type) := Fallible Cmd Answer VaultError A

/-! ## Steps -/

/-- `?` on an I/O result. -/
def orIo {A : Type} : Except Unit A → Except VaultError A
  | .ok a => .ok a
  | .error _ => .error .io

def pathExists (p : Path) : VaultM Bool := attempt (c := .exist p) (fun b => .ok b)

def readFile (p : Path) : VaultM Bytes := attempt (c := .read p) orIo

/-- `fs::read(path).ok()`. -/
def readOk (p : Path) : VaultM (Option Bytes) :=
  attempt (c := .read p) (fun r => .ok r.toOption)

def createNew (p : Path) : VaultM Unit := attempt (c := .createNew p) orIo

def truncateFile (p : Path) : VaultM Unit := attempt (c := .truncate p) orIo

def writeAll (p : Path) (b : Bytes) : VaultM Unit := attempt (c := .write p b) orIo

def renameFile (a b : Path) : VaultM Unit := attempt (c := .rename a b) orIo

def removeFile (p : Path) : VaultM Unit := attempt (c := .remove p) orIo

def createRoot : VaultM Unit := attempt (c := .createRoot) orIo

def rootExists : VaultM Bool := attempt (c := .rootExists) (fun b => .ok b)

def listJournals : VaultM (List Path) := attempt (c := .journals) orIo

def listOrphans : VaultM (List Path) := attempt (c := .orphans) (fun l => .ok l)

/-- A step that touches none of the modelled files. -/
def elsewhere : VaultM Unit := attempt (c := .other) orIo

/-! ### Rules -/

section Rules
variable {allowed : Fate → Prop} {I : Files → Prop} {X : VaultError → Files → Prop} {fs : Files}
variable {p : Path} {Q : Unit → Files → Prop} {A : Type}

section
variable (hI : I fs)
include hI

theorem holds_pathExists {Q : Bool → Files → Prop} (hQ : Q (fs.get? p).isSome fs) :
    HoldsE exec allowed I (pathExists p) Q X fs :=
  step_look hI hQ

theorem holds_rootExists {Q : Bool → Files → Prop} (hQ : Q fs.root fs) :
    HoldsE exec allowed I rootExists Q X fs :=
  step_look hI hQ

theorem holds_listOrphans {Q : List Path → Files → Prop}
    (hQ : Q (fs.map.keys.filter (fun p => isOrphanTransactionTemp p.name)) fs) :
    HoldsE exec allowed I listOrphans Q X fs :=
  step_look hI hQ

theorem holds_listJournals {Q : List Path → Files → Prop}
    (hQ : Q (fs.map.keys.filter isJournal) fs) (hX : MayFail allowed → X .io fs) :
    HoldsE exec allowed I listJournals Q X fs :=
  step_inspect hI hQ hX

theorem holds_readFile {Q : Bytes → Files → Prop}
    (hQ : ∀ b, fs.get? p = some b → Q b fs) (hX : fs.get? p = none ∨ MayFail allowed → X .io fs) :
    HoldsE exec allowed I (readFile p) Q X fs := by
  refine step_inspect hI ?_ (fun hf => hX (.inr hf))
  cases hp : fs.get? p with
  | none => exact hX (.inl hp)
  | some b => exact hQ b hp

theorem holds_readOk {Q : Option Bytes → Files → Prop} (hQ : Q (fs.get? p) fs)
    (hX : MayFail allowed → Q none fs) : HoldsE exec allowed I (readOk p) Q X fs := by
  refine step_inspect hI ?_ hX
  cases hp : fs.get? p with
  | none | some b => rwa [hp] at hQ

theorem holds_renameFile {a b}
    (hQ : ∀ content, fs.get? a = some content → I ((fs.del a).put b content) ∧ Q () ((fs.del a).put b content))
    (hX : fs.get? a = none ∨ MayFail allowed → X .io fs) :
    HoldsE exec allowed I (renameFile a b) Q X fs := by
  refine step_change hI ?_ (fun h => hX (h.imp_left map_eq_none_iff.mp))
  intro fs' h
  obtain ⟨content, hcontent, rfl⟩ := map_eq_some_iff.mp h
  exact hQ content hcontent

theorem holds_removeFile (hQ : (fs.get? p).isSome → I (fs.del p) ∧ Q () (fs.del p))
    (hX : fs.get? p = none ∨ MayFail allowed → X .io fs) :
    HoldsE exec allowed I (removeFile p) Q X fs := by
  refine step_change hI ?_ (fun h => hX (h.imp_left map_eq_none_iff.mp))
  intro fs' h
  obtain ⟨content, hcontent, rfl⟩ := map_eq_some_iff.mp h
  exact hQ (isSome_of_eq_some hcontent)

theorem holds_createRoot (hroot : I fs.withRoot) (hQ : Q () fs.withRoot)
    (hX : MayFail allowed → X .io fs) : HoldsE exec allowed I createRoot Q X fs :=
  step_change hI (fun _ h => some.inj h ▸ ⟨hroot, hQ⟩) (fun h => hX (h.resolve_left nofun))

theorem holds_elsewhere (hQ : Q () fs) (hX : MayFail allowed → X .io fs) :
    HoldsE exec allowed I elsewhere Q X fs :=
  step_change hI (fun _ h => some.inj h ▸ ⟨hI, hQ⟩) (fun h => hX (h.resolve_left nofun))

section
variable (hput : ∀ b, I (fs.put p b))
include hput

theorem holds_writeAll
    (hQ : Q () (fs.put p b)) (hX : MayFail allowed → X .io fs ∧ ∀ b, X .io (fs.put p b)) :
    HoldsE exec allowed I (writeAll p b) Q X fs :=
  step_refill hI hput hQ hX

theorem holds_truncateFile
    (hQ : Q () (fs.put p empty)) (hX : MayFail allowed → X .io fs ∧ ∀ b, X .io (fs.put p b)) :
    HoldsE exec allowed I (truncateFile p) Q X fs :=
  step_refill hI hput hQ hX

theorem holds_createNew
    (hQ : fs.get? p = none → Q () (fs.put p empty)) (hold : (fs.get? p).isSome → X .io fs)
    (hX : MayFail allowed → X .io fs ∧ ∀ b, X .io (fs.put p b)) :
    HoldsE exec allowed I (createNew p) Q X fs := by
  intro fate hf
  by_cases hp : (fs.get? p).isSome
  · have he : exec (.createNew p) fate fs = change fate fs none := if_pos hp
    rw [he]
    exact step_change hI (fun _ h => by cases h) (fun _ => hold hp) fate hf
  · have he : exec (.createNew p) fate fs = refill fate fs (fs.put p) empty := if_neg hp
    rw [he]
    exact step_refill hI hput (hQ (not_isSome_iff_eq_none.mp hp)) hX fate hf

end

theorem holds_pathExists_bind {Q : A → Files → Prop} {k : Bool → VaultM A}
    (h : HoldsE exec allowed I (k (fs.get? p).isSome) Q X fs) :
    HoldsE exec allowed I (pathExists p >>= k) Q X fs :=
  (holds_pathExists (Q := fun b s => b = (fs.get? p).isSome ∧ s = fs) hI ⟨rfl, rfl⟩).bind
    (fun _ _ ⟨hb, hs⟩ => hb ▸ hs ▸ h)

theorem holds_elsewhere_bind {Q : A → Files → Prop} {k : Unit → VaultM A}
    (hX : MayFail allowed → X .io fs) (h : HoldsE exec allowed I (k ()) Q X fs) :
    HoldsE exec allowed I (elsewhere >>= k) Q X fs :=
  (holds_elsewhere (Q := fun _ s => s = fs) hI rfl hX).bind (fun _ _ hs => hs ▸ h)

end

/-- A loop of steps that touch none of the modelled files. -/
theorem holds_forM_still {l : List A} (hQ : Q () fs)
    (hf : ∀ a, HoldsE exec allowed I (f a) (fun _ s => s = fs) X fs) :
    HoldsE exec allowed I (l.forM f) Q X fs :=
  (holdsE_forM (J := fun _ s => s = fs) rfl (fun a _ _ hs => hs ▸ hf a)).postOk
    (fun _ _ hs => hs ▸ hQ)

end Rules

/-! ## Journals -/

def writeSyncedFile (p : Path) (b : Bytes) : VaultM Unit := do
  elsewhere
  createNew p
  writeAll p b
  elsewhere
  elsewhere

def writeJournal (id : Uuid) (journal : DurableJournal) : VaultM Path := do
  createRoot
  match toVec journal with
  | none => throw .serialization
  | some b => do
    writeSyncedFile (journalPending id) b
    renameFile (journalPending id) (journalPath id)
    elsewhere
    return journalPath id

section Rules
variable {allowed : Fate → Prop} {I : Files → Prop} {X : VaultError → Files → Prop} {fs : Files}

theorem holds_writeSyncedFile (hI : I fs)
    (hput : ∀ b, I (fs.put p b)) (hQ : fs.get? p = none → Q () (fs.put p b))
    (hold : (fs.get? p).isSome → X .io fs)
    (hX : MayFail allowed → X .io fs ∧ ∀ b, X .io (fs.put p b)) :
    HoldsE exec allowed I (writeSyncedFile p b) Q X fs := by
  refine (holds_elsewhere (Q := fun _ s => fs = s) hI rfl (fun hf => (hX hf).1)).bind ?_
  rintro _ _ rfl
  refine (holds_createNew (Q := fun _ s => s = fs.put p empty ∧ fs.get? p = none)
    hI hput (fun hp => ⟨rfl, hp⟩) hold hX).bind ?_
  rintro _ _ ⟨rfl, hp⟩
  refine (holds_writeAll (Q := fun _ s => s = fs.put p b) (hput _) (fun b => ?_) ?_ (fun hf => ?_)).bind ?_
  · rw [Files.put_put]
    exact hput b
  · exact Files.put_put _ _ _ _
  · refine ⟨(hX hf).2 _, fun b => ?_⟩
    rw [Files.put_put]
    exact (hX hf).2 b
  rintro _ _ rfl
  refine (holds_elsewhere (Q := fun _ s => s = fs.put p b) (hput b) rfl (fun hf => (hX hf).2 b)).bind ?_
  rintro _ _ rfl
  exact holds_elsewhere (hput b) (hQ hp) (fun hf => (hX hf).2 b)

/-- Writing a journal: first beside its place, then put there. -/
theorem holds_writeJournal {Q id journal}
    (hI : I fs) (hroot : I fs.withRoot) (hput : ∀ b, I (fs.withRoot.put (journalPending id) b))
    (hdone : ∀ b, toVec journal = some b → fs.get? (journalPending id) = none →
      I (fs.journalled id b) ∧ Q (journalPath id) (fs.journalled id b))
    (hser : toVec journal = none → X .serialization fs.withRoot)
    (hold : (fs.get? (journalPending id)).isSome → X .io fs.withRoot)
    (hX : MayFail allowed → X .io fs ∧ X .io fs.withRoot ∧
      (∀ b, X .io (fs.withRoot.put (journalPending id) b)) ∧ ∀ b, toVec journal = some b →
        X .io (fs.journalled id b)) :
    HoldsE exec allowed I (writeJournal id journal) Q X fs := by
  refine (holds_createRoot (Q := fun _ s => s = fs.withRoot) hI hroot rfl (fun hf => (hX hf).1)).bind ?_
  rintro _ _ rfl
  cases hb : toVec journal with
  | none => exact holdsE_throw (hser hb)
  | some b =>
    refine (holds_writeSyncedFile (Q := fun _ s => s = fs.withRoot.put (journalPending id) b ∧
      fs.get? (journalPending id) = none) hroot hput (fun hp => ⟨rfl, hp⟩) hold
      (fun hf => ⟨(hX hf).2.1, (hX hf).2.2.1⟩)).bind ?_
    rintro _ _ ⟨rfl, hp⟩
    refine (holds_renameFile (Q := fun _ s => s = fs.journalled id b) (hput b) ?_ ?_).bind ?_
    · intro content hcontent
      obtain rfl : b = content := by simpa using hcontent
      rw [Files.del_put]
      exact ⟨(hdone b hb hp).1, rfl⟩
    · rintro (hnone | hf)
      · simp at hnone
      · exact (hX hf).2.2.1 b
    rintro _ _ rfl
    refine (holds_elsewhere (Q := fun _ s => s = fs.journalled id b) (hdone b hb hp).1 rfl
      (fun hf => (hX hf).2.2.2 b hb)).bind ?_
    rintro _ _ rfl
    exact holdsE_pure (hdone b hb hp).2

end Rules

def removeJournal (path : Path) : VaultM Unit := do
  if ← pathExists path then
    removeFile path
    elsewhere

/-- Put the old content of a file out of the way of its new one. -/
def makeRoom (entry : ExportJournalEntry Path) : VaultM Unit := do
  if (← pathExists entry.target) && !(← pathExists entry.backup) then
    renameFile entry.target entry.backup
  else if ← pathExists entry.target then
    removeFile entry.target

def installExportEntry (entry : ExportJournalEntry Path) : VaultM Unit := do
  if ← pathExists entry.pending then
    makeRoom entry
    renameFile entry.pending entry.target
    elsewhere
  else if !(← pathExists entry.target) then
    throw (.pathDoesNotExist entry.target)

def installExportEntries (entries : List (ExportJournalEntry Path)) : VaultM Unit :=
  entries.forM installExportEntry

def removeBackup (entry : ExportJournalEntry Path) : VaultM Unit := do
  if ← pathExists entry.backup then
    removeFile entry.backup
    elsewhere

def cleanupExportEntries (entries : List (ExportJournalEntry Path)) (journal : Path) :
    VaultM Unit := do
  entries.forM removeBackup
  removeJournal journal

def cleanupPendingEntries (entries : List (ExportJournalEntry Path)) : VaultM Unit :=
  entries.forM (fun entry => tolerate (removeFile entry.pending))

/-- Remove a Markdown file, if it is there. -/
def removeMarkdown (p : Path) : VaultM Unit := do
  if ← pathExists p then removeFile p

/-- Give a Markdown file its new name, if it has not got it yet. -/
def moveMarkdown (source destination : Path) : VaultM Unit := do
  if ← pathExists source then
    elsewhere
    renameFile source destination
  else if !(← pathExists destination) then
    throw (.pathDoesNotExist source)

def completeRename (source destination : Path) : VaultM Unit := do
  if (← pathExists source) && (← pathExists destination) then
    throw (.pathAlreadyExists destination)
  else
    elsewhere
    elsewhere
    elsewhere
    moveMarkdown source destination
    elsewhere
    elsewhere
    elsewhere

def completeDelete (p : Path) : VaultM Unit := do
  removeMarkdown p
  elsewhere
  elsewhere
  elsewhere
  elsewhere

/-! ## Recovery -/

/-- Carry out what one journal says and remove it. -/
def recoverJournal (path : Path) : VaultM Unit := do
  let bytes ← readFile path
  match fromSlice bytes with
  | none => throw .serialization
  | some (.exports entries) => do
    installExportEntries entries
    entries.forM (fun _ => elsewhere)
    cleanupExportEntries entries path
  | some (.rename source destination) => do
    completeRename source destination
    removeJournal path
  | some (.delete p) => do
    completeDelete p
    removeJournal path

def sweepOrphans : VaultM Unit := do
  let orphans ← listOrphans
  orphans.forM (fun p => tolerate (removeFile p))

def recoverPendingTransactions : VaultM Unit := do
  if ← rootExists then
    let journals ← listJournals
    journals.forM recoverJournal
    sweepOrphans

/-! ## Calls -/

/-- One document of a transaction, with the view that is to be published. -/
structure ExportRequest where
  path : RelPath
  markdown : Bytes

/-- Does the file hold something else than what is to be published? -/
def isChanged (request : ExportRequest) : VaultM Bool := do
  let disk ← readOk request.path.file
  return decide (disk ≠ some request.markdown)

/-- The requests whose files are to change. -/
def prepareExports (seen : List RelPath) : List ExportRequest → VaultM (List ExportRequest)
  | [] => return []
  | request :: rest => do
    if request.path ∈ seen then throw (.duplicateDocumentBatch request.path)
    else
      elsewhere
      let changed ← isChanged request
      let others ← prepareExports (request.path :: seen) rest
      return if changed then request :: others else others

/-- Write the new contents beside their targets. -/
def writePendings (transactionId : Uuid) (done : List (ExportJournalEntry Path)) :
    List ExportRequest → VaultM (List (ExportJournalEntry Path))
  | [] => return done
  | request :: rest => do
    let entry := exportJournalEntry request.path.file transactionId
    onError (writeSyncedFile entry.pending request.markdown) (fun error => do
      tolerate (removeFile entry.pending)
      cleanupPendingEntries done
      return error)
    writePendings transactionId (done ++ [entry]) rest

/-- What is left to do once the journal is written. -/
def finishExports (entries : List (ExportJournalEntry Path)) (exports : Nat) (journal : Path) :
    VaultM Unit := do
  installExportEntries entries
  -- the fingerprint state, the session snapshot and the disk fingerprint of every document
  (List.range exports).forM (fun _ => do elsewhere; elsewhere; elsewhere)
  cleanupExportEntries entries journal

def exportMarkdownTransaction (requests : List ExportRequest) (transactionId journalId : Uuid) :
    VaultM Unit := do
  let changed ← prepareExports [] requests
  requests.forM (fun _ => elsewhere)
  createRoot
  let entries ← writePendings transactionId [] changed
  if entries.isEmpty then
    (List.range requests.length).forM (fun _ => do elsewhere; elsewhere; elsewhere)
  else
    let journal ← onError (writeJournal journalId (.exports entries)) (fun error => do
      cleanupPendingEntries entries
      return error)
    onError (finishExports entries requests.length journal)
      (fun _ => return .recoverableTransaction journal)

def atomicWriteMarkdown (p : Path) (b : Bytes) : VaultM Unit := do
  elsewhere
  truncateFile (markdownTemp p)
  writeAll (markdownTemp p) b
  elsewhere
  renameFile (markdownTemp p) p
  elsewhere

def publishMarkdown (request : ExportRequest) : VaultM Unit := do
  if ← isChanged request then atomicWriteMarkdown request.path.file request.markdown

def exportMarkdown (request : ExportRequest) : VaultM Unit := do
  publishMarkdown request
  elsewhere
  elsewhere
  elsewhere

def createMarkdown (request : ExportRequest) : VaultM Unit := do
  if ← pathExists request.path.file then throw (.pathAlreadyExists request.path.file)
  else
    atomicWriteMarkdown request.path.file request.markdown
    -- opening the document looks up its identity and its session and ingests the file
    elsewhere
    elsewhere

def deleteMarkdown (p : RelPath) (journalId : Uuid) : VaultM Unit := do
  elsewhere
  let journal ← writeJournal journalId (.delete p.file)
  onError (do
    completeDelete p.file
    removeJournal journal) (fun _ => return .recoverableTransaction journal)

end MdCrdt.Vault
