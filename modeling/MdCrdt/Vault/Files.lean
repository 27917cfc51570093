import Mathlib.Data.Char
import Mathlib.Data.List.Lex
import Mathlib.Data.String.Basic
import MdCrdt.Lib.FaultyDisk

/- The files of a vault and the steps on them (`filesync/session.rs`).

  A vault is a directory of Markdown files. What it keeps for itself lies under
  `.mdcrdt`; of that only the journals of `.mdcrdt/transactions` are modelled, the
  identities, session snapshots and fingerprints are not. A step that touches none of
  the modelled files (creating or syncing a directory, writing or removing something
  else under `.mdcrdt`) is the command `other`.

  A command meets a fate: it goes through, it fails with an I/O error, or the process
  stops. A rename and a remove are atomic. A write that fails or is stopped may leave
  anything in its file.

  Correspondence (Rust ↔ Lean):
    `Path::exists`, `fs::read`, `fs::rename`, `fs::remove_file` ↔ `exist`, `read`, `rename`, `remove`
    `OpenOptions::create_new`, `create` with `truncate` ↔ `createNew`, `truncate`
    `write_all` ↔ `write`
    `fs::read_dir` of the transaction root, by extension ↔ `journals`
    the `WalkDir` of the orphan sweep ↔ `orphans`
    `is_orphan_transaction_temp` ↔ `isOrphanTransactionTemp`
  UUIDs, and the bytes of a file with the journal they may hold, come from libraries
  (`Host`). -/
namespace MdCrdt.Vault
open Lib List Option SortedMap

/-! ## Names -/

abbrev Name := List Char

/-- `str::rsplit_once`. -/
def rsplitOnce (c : Char) : Name → Option (Name × Name)
  | [] => none
  | x :: rest => match rsplitOnce c rest with
    | some (front, back) => some (x :: front, back)
    | none => if x = c then some ([], rest) else none

/-- `str::strip_suffix`. -/
def stripSuffix (suffix name : Name) : Option Name :=
  if suffix <:+ name then some (name.take (name.length - suffix.length)) else none

/-- `Path::extension` of a file name. -/
def extension (name : Name) : Option Name :=
  match rsplitOnce '.' name with
  | some (front, back) => if front.isEmpty then none else some back
  | none => none

theorem rsplitOnce_of_notMem (h : c ∉ name) : rsplitOnce c name = none := by
  induction name with
  | nil => rfl
  | cons x rest ih =>
    rw [mem_cons, not_or] at h
    simp [rsplitOnce, ih h.2, Ne.symm h.1]

theorem rsplitOnce_append (front) (h : c ∉ back) :
    rsplitOnce c (front ++ c :: back) = some (front, back) := by
  induction front with
  | nil => simp [rsplitOnce, rsplitOnce_of_notMem h]
  | cons x front ih => simp [rsplitOnce, ih]

theorem extension_append {front ext} (hf : front ≠ []) (h : '.' ∉ ext) :
    extension (front ++ '.' :: ext) = some ext := by
  simp [extension, rsplitOnce_append front h, hf]

theorem stripSuffix_eq_some : stripSuffix suffix name = some front ↔ name = front ++ suffix := by
  constructor
  · intro h
    obtain ⟨hs, ht⟩ := ite_none_right_eq_some.mp h
    obtain ⟨other, rfl⟩ := hs
    simpa using ht
  · rintro rfl
    simp [stripSuffix]

/-! ## Paths -/

/-- A path that the components of its directory and its name make up. -/
structure Path where
  dir : List Name
  name : Name
  deriving Repr

namespace Path

def components (p : Path) : List Name := p.dir ++ [p.name]

theorem components_injective : Function.Injective components
  | ⟨d, n⟩, ⟨d', n'⟩, h => by
    obtain ⟨hd, hn⟩ := append_inj' h rfl
    simp only at hd hn
    rw [hd, singleton_inj.mp hn]

instance : LinearOrder Path := LinearOrder.lift' components components_injective

end Path

variable {p : Path}

/-! ## What comes from libraries -/

/-- One entry of an export journal: the file, its new content, its old content. -/
structure ExportJournalEntry (P : Type) where
  target : P
  pending : P
  backup : P
  deriving DecidableEq

inductive DurableJournal where
  | exports (entries : List (ExportJournalEntry Path))
  | rename (source destination : Path)
  | delete (path : Path)
  deriving DecidableEq

/-- UUIDs and their text, and the bytes of files. -/
class Host where
  Uuid : Type
  uuidText : Uuid → Name
  parsesUuid : Name → Bool
  Bytes : Type
  [decidableBytes : DecidableEq Bytes]
  empty : Bytes
  toVec : DurableJournal → Option Bytes
  fromSlice : Bytes → Option DurableJournal

open Host

/-- What is used of the libraries: the text of a UUID is its own, parses and has no dot, and a
    journal is written and read back. -/
class LawfulHost [Host] : Prop where
  parses_uuidText : ∀ u : Uuid, parsesUuid (uuidText u) = true
  dotless_uuidText : ∀ u : Uuid, '.' ∉ uuidText u
  uuidText_ne_nil : ∀ u : Uuid, uuidText u ≠ []
  uuidText_injective : Function.Injective (uuidText : Uuid → Name)
  fromSlice_toVec : ∀ j : DurableJournal, (toVec j).bind fromSlice = some j

open LawfulHost

theorem fromSlice_of_toVec [Host] [LawfulHost] {j b}
    (hb : toVec j = some b) : fromSlice b = some j := by
  have hlaw := fromSlice_toVec j
  rwa [hb] at hlaw

instance [Host] : DecidableEq Bytes := decidableBytes

/-- A vault-relative path as it was given: `./a` and `a` differ as paths and are one file. -/
structure RelPath where
  current : Bool
  file : Path
  deriving DecidableEq, Repr

def mdcrdtDir : Name := ".mdcrdt".toList

def transactionRoot : List Name := [mdcrdtDir, "transactions".toList]

def isJournal (p : Path) : Bool :=
  decide (p.dir = transactionRoot) && decide (extension p.name = some "json".toList)

section Host
variable [Host]

/-- `.<name>.<uuid>.pending`, `.<name>.<uuid>.backup`. -/
def tempName (name : Name) (id : Uuid) (suffix : Name) : Name :=
  '.' :: name ++ '.' :: uuidText id ++ suffix

def pendingSuffix : Name := '.' :: "pending".toList

def backupSuffix : Name := '.' :: "backup".toList

def exportJournalEntry (target : Path) (transactionId : Uuid) : ExportJournalEntry Path :=
  ⟨target, ⟨target.dir, tempName target.name transactionId pendingSuffix⟩,
    ⟨target.dir, tempName target.name transactionId backupSuffix⟩⟩

def journalPath (id : Uuid) : Path := ⟨transactionRoot, uuidText id ++ '.' :: "json".toList⟩

/-- `.<uuid>.pending` in the transaction root. -/
def journalPending (id : Uuid) : Path :=
  ⟨transactionRoot, '.' :: uuidText id ++ pendingSuffix⟩

/-- The file that a single export writes before it takes the place of the target. -/
def markdownTemp (p : Path) : Path := ⟨p.dir, '.' :: p.name ++ ".md-crdt.tmp".toList⟩

def isOrphanTransactionTemp (name : Name) : Bool :=
  decide (name.head? = some '.') &&
    match ((stripSuffix pendingSuffix name).or (stripSuffix backupSuffix name)).bind
      (rsplitOnce '.') with
    | some (_, candidate) => parsesUuid candidate
    | none => false

/-! ### Kinds of files

What a file is shows in the extension of its name, so that journals and the temporary
files of a transaction are never one another. -/

theorem extension_of_isOrphanTransactionTemp {name} (h : isOrphanTransactionTemp name = true) :
    extension name = some "pending".toList ∨ extension name = some "backup".toList := by
  have key : ∀ front ext, (rsplitOnce '.' front).isSome → '.' ∉ ext →
      extension (front ++ '.' :: ext) = some ext := by
    intro front ext hf hext
    refine extension_append ?_ hext
    rintro rfl
    simp [rsplitOnce] at hf
  simp only [isOrphanTransactionTemp, Bool.and_eq_true] at h
  cases hp : stripSuffix pendingSuffix name with
  | some front =>
    obtain rfl := stripSuffix_eq_some.mp hp
    refine .inl (key front _ ?_ (by decide))
    cases hr : rsplitOnce '.' front with
    | none => simp [hp, hr] at h
    | some _ => rfl
  | none =>
    cases hb : stripSuffix backupSuffix name with
    | none => simp [hp, hb] at h
    | some front =>
      obtain rfl := stripSuffix_eq_some.mp hb
      refine .inr (key front _ ?_ (by decide))
      cases hr : rsplitOnce '.' front with
      | none => simp [hp, hb, hr] at h
      | some _ => rfl

/-- A transaction temp: a pending or a backup file. -/
def IsTemp (p : Path) : Prop := isOrphanTransactionTemp p.name = true

instance (p : Path) : Decidable (IsTemp p) := inferInstanceAs (Decidable (_ = true))

theorem not_isTemp_of_isJournal (h : isJournal p = true) : ¬IsTemp p := by
  intro ht
  have hjson := of_decide_eq_true (Bool.and_eq_true_iff.mp h).2
  rcases extension_of_isOrphanTransactionTemp ht with he | he
  · rw [hjson] at he
    exact absurd he (by decide)
  · rw [hjson] at he
    exact absurd he (by decide)

omit [Host] in
theorem extension_markdownTemp (p) : extension (markdownTemp p).name = some "tmp".toList := by
  have h : (markdownTemp p).name = ('.' :: p.name ++ ".md-crdt".toList) ++ '.' :: "tmp".toList := by
    rw [append_assoc]
    rfl
  rw [h]
  exact extension_append (by simp) (by decide)

omit [Host] in
theorem not_isJournal_markdownTemp (p) : isJournal (markdownTemp p) = false := by
  simp [isJournal, extension_markdownTemp]

theorem not_isJournal_of_isTemp (h : IsTemp p) : isJournal p = false := by
  cases hp : isJournal p with
  | false => rfl
  | true => exact absurd h (not_isTemp_of_isJournal hp)

/-- A file that is neither a journal nor a temporary file of a transaction. -/
structure IsDocument (p : Path) : Prop where
  notTemp : ¬IsTemp p
  notJournal : isJournal p = false

instance (p : Path) : Decidable (IsDocument p) :=
  decidable_of_iff (¬IsTemp p ∧ isJournal p = false) ⟨fun h => ⟨h.1, h.2⟩, fun h => ⟨h.1, h.2⟩⟩

section Lawful
variable [LawfulHost] {id id' : Uuid}

theorem isJournal_journalPath (id) : isJournal (journalPath id) = true := by
  have he : extension (uuidText id ++ '.' :: "json".toList) = some "json".toList :=
    extension_append (uuidText_ne_nil id) (by decide)
  exact Bool.and_eq_true_iff.mpr ⟨decide_eq_true (Eq.refl transactionRoot), decide_eq_true he⟩

theorem IsDocument.ne_journalPath (h : IsDocument p) (id) : journalPath id ≠ p := by
  rintro rfl
  have hj := h.notJournal
  rw [isJournal_journalPath] at hj
  cases hj

theorem rsplitOnce_stem (front id) :
    rsplitOnce '.' (front ++ '.' :: uuidText id) = some (front, uuidText id) :=
  rsplitOnce_append front (dotless_uuidText id)

omit [Host] [LawfulHost] in
theorem append_pendingSuffix_ne (front front') :
    front ++ pendingSuffix ≠ front' ++ backupSuffix := by
  intro h
  have hlast := congrArg List.getLast? h
  simp [pendingSuffix, backupSuffix] at hlast

omit [Host] [LawfulHost] in
theorem stripSuffix_temp (front) (h : suffix = pendingSuffix ∨ suffix = backupSuffix) :
    (stripSuffix pendingSuffix (front ++ suffix)).or (stripSuffix backupSuffix (front ++ suffix)) =
      some front := by
  rcases h with rfl | rfl
  · rw [stripSuffix_eq_some.mpr rfl, some_or]
  · have hnone : stripSuffix pendingSuffix (front ++ backupSuffix) = none := by
      cases h : stripSuffix pendingSuffix (front ++ backupSuffix) with
      | none => rfl
      | some other => exact absurd (stripSuffix_eq_some.mp h).symm (append_pendingSuffix_ne _ _)
    rw [hnone, none_or, stripSuffix_eq_some.mpr rfl]

theorem isOrphanTransactionTemp_stem {front suffix} (id)
    (h : suffix = pendingSuffix ∨ suffix = backupSuffix) (hfront : front.head?.getD '.' = '.') :
    isOrphanTransactionTemp (front ++ '.' :: uuidText id ++ suffix) = true := by
  have hhead : (front ++ '.' :: uuidText id ++ suffix).head? = some '.' := by
    cases front with
    | nil => rfl
    | cons c front => exact congrArg some hfront
  simp only [isOrphanTransactionTemp, hhead, stripSuffix_temp _ h, bind_some, rsplitOnce_stem,
    parses_uuidText, decide_true, Bool.and_true]

theorem isTemp_pending (p id) : IsTemp (exportJournalEntry p id).pending :=
  @isOrphanTransactionTemp_stem _ _ ('.' :: p.name) _ id (.inl rfl) rfl

theorem isTemp_backup (p id) : IsTemp (exportJournalEntry p id).backup :=
  @isOrphanTransactionTemp_stem _ _ ('.' :: p.name) _ id (.inr rfl) rfl

theorem isTemp_journalPending (id) : IsTemp (journalPending id) :=
  @isOrphanTransactionTemp_stem _ _ [] _ id (.inl rfl) rfl

theorem tempName_inj
    (h : tempName name id suffix = tempName name' id' suffix) : name = name' ∧ id = id' := by
  have hstem := append_cancel_right h
  have hsplit := congrArg (rsplitOnce '.') hstem
  rw [rsplitOnce_stem, rsplitOnce_stem] at hsplit
  simp only [some.injEq, Prod.mk.injEq, List.cons.injEq, true_and] at hsplit
  exact ⟨hsplit.1, uuidText_injective hsplit.2⟩

theorem pending_inj (h : (exportJournalEntry p id).pending = (exportJournalEntry p' id').pending) :
    p = p' ∧ id = id' := by
  obtain ⟨hd, hn⟩ := Path.mk.inj h
  obtain ⟨hname, hid⟩ := tempName_inj hn
  cases p; cases p'
  exact ⟨congrArg₂ Path.mk hd hname, hid⟩

theorem pending_ne_journalPending (p id id') :
    (exportJournalEntry p id).pending ≠ journalPending id' := by
  intro h
  have hname : tempName p.name id pendingSuffix = '.' :: uuidText id' ++ pendingSuffix :=
    (Path.mk.inj h).2
  have hsplit := congrArg (rsplitOnce '.') (append_cancel_right hname)
  rw [rsplitOnce_stem, ← nil_append ('.' :: uuidText id'), rsplitOnce_stem] at hsplit
  simp at hsplit

omit [LawfulHost] in
theorem pending_ne_backup (p p' id id') :
    (exportJournalEntry p id).pending ≠ (exportJournalEntry p' id').backup := by
  intro h
  exact append_pendingSuffix_ne _ _ (Path.mk.inj h).2

end Lawful

/-! ## Files -/

/-- The files, by path, and whether the transaction root exists. -/
structure Files extends Disk Path Bytes where
  root : Bool

namespace Files
variable (fs : Files)

def get? (fs : Files) (p : Path) : Option Bytes := fs.toDisk.get? p

def put (fs : Files) (p : Path) (b : Bytes) : Files := { fs with toDisk := fs.toDisk.put p b }

def del (fs : Files) (p : Path) : Files := { fs with toDisk := fs.toDisk.del p }

def withRoot (fs : Files) : Files := { fs with root := true }

/-- The vault with a journal that has just been written. -/
abbrev journalled (fs : Files) (id : Uuid) (b : Bytes) : Files :=
  (fs.withRoot.del (journalPending id)).put (journalPath id) b

@[simp] theorem get?_put (p q b) :
    (fs.put p b).get? q = if q = p then some b else fs.get? q := Disk.get?_put _ _ _ _

@[simp] theorem get?_del (p q) :
    (fs.del p).get? q = if q = p then none else fs.get? q := Disk.get?_del _ _ _

@[simp] theorem root_put (p b) : (fs.put p b).root = fs.root := rfl

@[simp] theorem root_del (p) : (fs.del p).root = fs.root := rfl

theorem ext_get? {a b : Files} (hroot : a.root = b.root) (h : ∀ p, a.get? p = b.get? p) : a = b := by
  obtain ⟨⟨m, hm⟩, r⟩ := a
  obtain ⟨⟨m', hm'⟩, r'⟩ := b
  obtain rfl : m = m' := SortedMap.ext_get? hm hm' h
  obtain rfl : r = r' := hroot
  rfl

@[simp] theorem put_put (p a b) : (fs.put p a).put p b = fs.put p b := by
  refine ext_get? rfl (fun q => ?_)
  simp only [get?_put]
  split <;> rfl

@[simp] theorem del_put (p b) : (fs.put p b).del p = fs.del p := by
  refine ext_get? rfl (fun q => ?_)
  simp only [get?_put, get?_del]
  split <;> rfl

theorem mem_keys {fs : Files} : p ∈ fs.map.keys ↔ ∃ b, fs.get? p = some b := Disk.mem_keys

end Files

/-! ## Commands -/

inductive Cmd where
  | exist (p : Path)
  | read (p : Path)
  | createNew (p : Path)
  | truncate (p : Path)
  | write (p : Path) (b : Bytes)
  | rename (source destination : Path)
  | remove (p : Path)
  | rootExists
  | createRoot
  | journals
  | orphans
  | other

/-- The answer to a command; `Except Unit` for one that may fail. -/
def Answer : Cmd → Type
  | .exist _ | .rootExists => Bool
  | .read _ => Except Unit Bytes
  | .journals => Except Unit (List Path)
  | .orphans => List Path
  | .createNew _ | .truncate _ | .write _ _ | .rename _ _ | .remove _ | .createRoot | .other =>
    Except Unit Unit

/-- What happens to a command. A write that does not go through leaves `torn` in its file. -/
abbrev Fate := Lib.Fate Bytes

def exec (c : Cmd) (fate : Fate) (fs : Files) : Option (Answer c) × Files :=
  match c with
  | .exist p => look fate fs (fs.get? p).isSome
  | .rootExists => look fate fs fs.root
  | .orphans => look fate fs (fs.map.keys.filter (fun p => isOrphanTransactionTemp p.name))
  | .read p => inspect fate fs ((fs.get? p).elim (.error ()) .ok)
  | .journals => inspect fate fs (.ok (fs.map.keys.filter isJournal))
  | .createNew p =>
    if (fs.get? p).isSome then change fate fs none else refill fate fs (fs.put p) Host.empty
  | .truncate p => refill fate fs (fs.put p) Host.empty
  | .write p b => refill fate fs (fs.put p) b
  | .rename a b => change fate fs ((fs.get? a).map (fun content => (fs.del a).put b content))
  | .remove p => change fate fs ((fs.get? p).map (fun _ => fs.del p))
  | .createRoot => change fate fs (some fs.withRoot)
  | .other => change fate fs (some fs)

end Host

/-! ## A host -/

/-- Contents as values. -/
inductive Content where
  | text (s : Name)
  | journal (j : DurableJournal)
  deriving DecidableEq

/-- A number as strokes. -/
def strokes (n : Nat) : Name := List.replicate (n + 1) 'x'

/-- A host with numbers for UUIDs. -/
@[reducible] def strokeHost : Host where
  Uuid := Nat
  uuidText := strokes
  parsesUuid name := name.all (fun c => c == 'x')
  Bytes := Content
  empty := .text []
  toVec j := some (.journal j)
  fromSlice
    | .journal j => some j
    | .text _ => none

theorem strokes_ne (n) : strokes n ≠ [] := by simp [strokes]

theorem dotless_strokes (n) : '.' ∉ strokes n := by simp [strokes]

theorem strokes_all (n) : (strokes n).all (fun c => c == 'x') = true := by simp [strokes]

theorem strokes_injective : Function.Injective strokes := by
  intro n m h
  simpa [strokes] using congrArg List.length h

theorem strokeHost_lawful : @LawfulHost strokeHost :=
  @LawfulHost.mk strokeHost strokes_all dotless_strokes strokes_ne strokes_injective (fun _ => rfl)

end MdCrdt.Vault
