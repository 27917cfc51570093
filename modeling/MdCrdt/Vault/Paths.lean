import Mathlib.Data.List.Basic
import MdCrdt.Vault.Files

/- Paths of documents and of what is stored for them (`filesync/session.rs`, `filesync/mod.rs`).

  A document is named by a path relative to the vault. The path is the key of the open
  session; behind `.mdcrdt/sessions` and `.mdcrdt/state`, with another extension, it is
  the directory of the stored session and of the flushed state.

  Correspondence (Rust ↔ Lean):
    `Path::components`, by which paths are compared ↔ `components`
    `Path::join`, `Path::strip_prefix` ↔ `PathBuf.join`, `PathBuf.stripPrefix`
    `Path::file_stem`, `PathBuf::set_extension` ↔ `fileStem`, `PathBuf.setExtension`
    `normalize_rel` ↔ `normalizeRel`
    `sessions_root`, `session_storage_path` ↔ `sessionsRoot`, `sessionStoragePath`
    `state_root`, `state_path_for` ↔ `stateRoot`, `statePathFor`
  This is `std::path` on Unix; names that are not UTF-8 are not modelled, nor are symbolic
  links: a path names the file that its components lead to. -/
namespace MdCrdt.Vault
open List Option

/-! ## Components -/

inductive Component where
  | rootDir
  | curDir
  | parentDir
  | normal (name : Name)
  deriving DecidableEq, Repr

open Component

/-- What stands between two separators: nothing and `.` are skipped. -/
def innerComponent (segment : Name) : Option Component :=
  if segment = [] ∨ segment = ['.'] then none
  else if segment = ['.', '.'] then some .parentDir
  else some (.normal segment)

/-- `Path::components`. A `.` is kept at the front only. -/
def components (path : Name) : List Component :=
  match path with
  | '/' :: rest => .rootDir :: (rest.splitOn '/').filterMap innerComponent
  | path => match path.splitOn '/' with
    | ['.'] :: rest => .curDir :: rest.filterMap innerComponent
    | segments => segments.filterMap innerComponent

/-- A path as it is compared. -/
abbrev PathBuf := List Component

namespace PathBuf

/-- A relative path behind another one: a `.` is not at the front any more. -/
def join (base path : PathBuf) : PathBuf :=
  if path.head? = some .rootDir ∨ base = [] then path
  else base ++ path.filter (fun c => decide (c ≠ .curDir))

def stripPrefix (base path : PathBuf) : Option PathBuf :=
  if base <+: path then some (path.drop base.length) else none

end PathBuf

variable (base : PathBuf)

/-- `Path::file_stem` of a file name: a dot at its front is no separator. -/
def fileStem (name : Name) : Name :=
  match rsplitOnce '.' name with
  | some (front, _) => if front.isEmpty then name else front
  | none => name

/-- `PathBuf::set_extension`, which looks at the last component. -/
def PathBuf.setExtension (path : PathBuf) (ext : Name) : PathBuf :=
  match path.getLast? with
  | some (.normal name) => path.dropLast ++ [.normal (fileStem name ++ '.' :: ext)]
  | _ => path

/-! ## The paths of a document -/

/-- A vault: there is no directory at the empty path. -/
structure Root where
  path : PathBuf
  nonempty : path ≠ []

inductive PathError where
  | invalidRelativePath (path : Name)
  deriving DecidableEq

def normalizeRel (path : Name) : Except PathError Name :=
  if path.head? = some '/' then .error (.invalidRelativePath path)
  else if .parentDir ∈ components path then .error (.invalidRelativePath path)
  else if path.isEmpty then .error (.invalidRelativePath path)
  else .ok path

/-- The file of a document. -/
def Root.file (vault : Root) (rel : Name) : PathBuf := vault.path.join (components rel)

/-- What open sessions are kept under. -/
def sessionKey (rel : Name) : PathBuf := components rel

def Root.sessionsRoot (vault : Root) : PathBuf :=
  (vault.path.join [.normal mdcrdtDir]).join [.normal "sessions".toList]

def Root.sessionStoragePath (vault : Root) (rel : Name) : PathBuf :=
  (vault.sessionsRoot.join (components rel)).setExtension "mdcrdt".toList

def Root.stateRoot (vault : Root) : PathBuf :=
  (vault.path.join [.normal mdcrdtDir]).join [.normal "state".toList]

def Root.statePathFor (vault : Root) (file : PathBuf) : PathBuf :=
  (vault.stateRoot.join ((vault.path.stripPrefix file).getD file)).setExtension "mdcrdt".toList

/-! ## Accepted paths -/

/-- The names of a path. -/
def names (path : Name) : List Name :=
  (components path).filterMap (fun
    | .normal name => some name
    | _ => none)

/-- Does the path start with `.`? -/
def startsHere (path : Name) : Bool := decide ((components path).head? = some .curDir)

theorem innerComponent_cases {segment} (h : innerComponent segment = some c) :
    c = .parentDir ∨ ∃ name, c = .normal name := by
  unfold innerComponent at h
  split at h
  · cases h
  · split at h
    · exact .inl (some.inj h).symm
    · exact .inr ⟨_, (some.inj h).symm⟩

/-- Inner components are names where none is `..`. -/
theorem filterMap_innerComponent {segments : List Name}
    (h : .parentDir ∉ segments.filterMap innerComponent) :
    ∃ ns : List Name, segments.filterMap innerComponent = ns.map .normal := by
  induction segments with
  | nil => exact ⟨[], rfl⟩
  | cons segment segments ih =>
    rw [filterMap_cons] at h ⊢
    cases hc : innerComponent segment with
    | none =>
      rw [hc] at h
      exact ih h
    | some c =>
      rw [hc] at h
      obtain ⟨ns, hns⟩ := ih (fun hm => h (mem_cons_of_mem _ hm))
      rcases innerComponent_cases hc with rfl | ⟨name, rfl⟩
      · exact absurd mem_cons_self h
      · exact ⟨name :: ns, by simp [hns]⟩

/-- An accepted path is unchanged, and has names only behind a possible `.` at its front. -/
theorem normalizeRel_ok (h : normalizeRel path = .ok rel) : rel = path ∧ components path =
      (if startsHere path then [.curDir] else []) ++ (names path).map .normal := by
  unfold normalizeRel at h
  split at h
  · cases h
  · next habs =>
    split at h
    · cases h
    · next hparent =>
      split at h
      · cases h
      · refine ⟨(Except.ok.inj h).symm, ?_⟩
        obtain ⟨front, ns, hfront, hc⟩ : ∃ front : List Component, ∃ ns : List Name,
            (front = [] ∨ front = [.curDir]) ∧ components path = front ++ ns.map .normal := by
          unfold components at hparent ⊢
          split at hparent
          · exact absurd rfl habs
          · split at hparent
            · obtain ⟨ns, hns⟩ := filterMap_innerComponent (fun hm => hparent (mem_cons_of_mem _ hm))
              exact ⟨[.curDir], ns, .inr rfl, by simp_all⟩
            · obtain ⟨ns, hns⟩ := filterMap_innerComponent hparent
              exact ⟨[], ns, .inl rfl, by simp_all⟩
        have hnames : ∀ ns : List Name, (ns.map normal).filterMap (fun
            | .normal name => some name
            | _ => none) = ns := fun ns => by
          rw [filterMap_map]
          exact filterMap_some
        rcases hfront with rfl | rfl
        · have hstart : startsHere path = false := by
            rw [startsHere, hc]
            cases ns <;> simp
          rw [hstart, names, hc, nil_append, hnames]
          rfl
        · have hstart : startsHere path = true := by simp [startsHere, hc]
          rw [hstart, names, hc]
          simp only [singleton_append, filterMap_cons, hnames]
          rfl

/-! ## Where an accepted path leads -/

/-- Names behind a directory. -/
def PathBuf.behind (base : PathBuf) (ns : List Name) : PathBuf := base ++ ns.map normal

theorem behind_injective : Function.Injective base.behind := fun _ _ h =>
  map_injective_iff.2 (fun _ _ => normal.inj) (append_cancel_left h)

/-- Names are joined as they are. -/
theorem filter_names (ns : List Name) :
    (ns.map normal).filter (fun c => decide (c ≠ .curDir)) = ns.map .normal := by
  rw [filter_eq_self]
  intro c hc
  obtain ⟨name, _, rfl⟩ := mem_map.1 hc
  rfl

theorem join_components {base : PathBuf} (hbase : base ≠ [])
    (h : normalizeRel path = .ok rel) : base.join (components path) = base.behind (names path) := by
  have hhead : (components path).head? ≠ some .rootDir := by
    rw [(normalizeRel_ok h).2]
    cases startsHere path <;> cases names path <;> simp
  have hfilter : (components path).filter (fun c => decide (c ≠ .curDir)) =
      (names path).map .normal := by
    rw [(normalizeRel_ok h).2, filter_append, filter_names]
    cases startsHere path <;> rfl
  rw [PathBuf.join, if_neg (not_or.2 ⟨hhead, hbase⟩), hfilter, PathBuf.behind]

theorem setExtension_behind (dir name ext) : (base.behind (dir ++ [name])).setExtension ext =
      base.behind (dir ++ [fileStem name ++ '.' :: ext]) := by
  have happ : base.behind (dir ++ [name]) = base.behind dir ++ [.normal name] := by
    simp [PathBuf.behind]
  rw [PathBuf.setExtension, happ, getLast?_concat]
  simp [PathBuf.behind]

theorem length_setExtension (path : PathBuf) (ext) :
    (path.setExtension ext).length = path.length := by
  unfold PathBuf.setExtension
  split
  · next name h =>
    have hne : path ≠ [] := by
      rintro rfl
      cases h
    have hpos := length_pos_of_ne_nil hne
    rw [length_append, length_dropLast, length_singleton]
    omega
  · rfl

/-- The last names differ, by their extensions only. -/
def SameStem (ns ms : List Name) : Prop :=
  ∃ dir n m, ns = dir ++ [n] ∧ ms = dir ++ [m] ∧ fileStem n = fileStem m

/-- With the extension set, names behind a directory are confused if and only if they have the
    same stem. -/
theorem setExtension_eq_iff (ext) (hne : ns ≠ ms) :
    (base.behind ns).setExtension ext = (base.behind ms).setExtension ext ↔ SameStem ns ms := by
  constructor
  · intro h
    have hlen : ns.length = ms.length := by
      have hboth := congrArg List.length h
      simpa [length_setExtension, PathBuf.behind] using hboth
    rcases eq_nil_or_concat' ns with rfl | ⟨dir, n, rfl⟩
    · exact absurd (length_eq_zero_iff.1 hlen.symm).symm hne
    · rcases eq_nil_or_concat' ms with rfl | ⟨dir', m, rfl⟩
      · exact absurd (length_eq_zero_iff.1 hlen) hne
      · rw [setExtension_behind, setExtension_behind] at h
        obtain ⟨rfl, hlast⟩ := append_inj' (behind_injective base h) rfl
        exact ⟨dir, n, m, rfl, rfl, append_cancel_right (singleton_inj.1 hlast)⟩
  · rintro ⟨dir, n, m, rfl, rfl, hstem⟩
    rw [setExtension_behind, setExtension_behind, hstem]

section Root
variable (vault : Root) {path rel : Name} (h : normalizeRel path = .ok rel)

theorem sessionsRoot_ne_nil : vault.sessionsRoot ≠ [] := by
  simp [Root.sessionsRoot, PathBuf.join, vault.nonempty]

theorem stateRoot_ne_nil : vault.stateRoot ≠ [] := by
  simp [Root.stateRoot, PathBuf.join, vault.nonempty]

include h

theorem file_eq : vault.file path = vault.path.behind (names path) := join_components vault.nonempty h

theorem sessionStoragePath_eq : vault.sessionStoragePath path =
      (vault.sessionsRoot.behind (names path)).setExtension "mdcrdt".toList := by
  rw [Root.sessionStoragePath, join_components (sessionsRoot_ne_nil vault) h]

theorem statePathFor_eq : vault.statePathFor (vault.file path) =
      (vault.stateRoot.behind (names path)).setExtension "mdcrdt".toList := by
  have hstrip : vault.path.stripPrefix (vault.file path) = some ((names path).map .normal) := by
    rw [file_eq vault h, PathBuf.stripPrefix, PathBuf.behind, if_pos (prefix_append _ _), drop_left]
  have hhead : ((names path).map normal).head? ≠ some .rootDir := by
    cases names path <;> simp
  rw [Root.statePathFor, hstrip, getD_some, PathBuf.join,
    if_neg (not_or.2 ⟨hhead, stateRoot_ne_nil vault⟩), filter_names, PathBuf.behind]

end Root

/-! ## One document, one session -/

/-- The path consists of the root and names behind it. -/
def StaysUnder (root path : PathBuf) : Prop := ∃ ns, path = root.behind ns

/-- Both paths stay in the vault; paths of one file have one session, and paths of two files have
    two stored sessions and two flushed states. -/
structure OneSession (vault : Root) (p q : Name) : Prop where
  left_under : StaysUnder vault.path (vault.file p)
  right_under : StaysUnder vault.path (vault.file q)
  same_key : vault.file p = vault.file q → sessionKey p = sessionKey q
  storage_ne : vault.file p ≠ vault.file q → vault.sessionStoragePath p ≠ vault.sessionStoragePath q
  state_ne : vault.file p ≠ vault.file q →
    vault.statePathFor (vault.file p) ≠ vault.statePathFor (vault.file q)

theorem sessionKey_eq_iff (hp : normalizeRel p = .ok p')
    (hq : normalizeRel q = .ok q') (hnames : names p = names q) :
    sessionKey p = sessionKey q ↔ startsHere p = startsHere q := by
  constructor
  · intro h
    rw [startsHere, startsHere]
    exact congrArg (fun c : List Component => decide (c.head? = some .curDir)) h
  · intro h
    rw [sessionKey, sessionKey, (normalizeRel_ok hp).2, (normalizeRel_ok hq).2, h, hnames]

/-- **When two paths have a session each.** For accepted paths, all of this holds if and only if
    paths of one file both start with `.` or both do not, and paths of two files of one directory
    differ by more than their extensions. -/
theorem oneSession_iff (vault : Root) (p q p' q' : Name) (hp : normalizeRel p = .ok p')
    (hq : normalizeRel q = .ok q') : OneSession vault p' q' ↔
      (names p = names q → startsHere p = startsHere q) ∧
        (names p ≠ names q → ¬SameStem (names p) (names q)) := by
  obtain ⟨rfl, -⟩ := normalizeRel_ok hp
  obtain ⟨rfl, -⟩ := normalizeRel_ok hq
  have hfile : vault.file p' = vault.file q' ↔ names p' = names q' := by
    rw [file_eq vault hp, file_eq vault hq, (behind_injective vault.path).eq_iff]
  have hstorage : names p' ≠ names q' →
      (vault.sessionStoragePath p' = vault.sessionStoragePath q' ↔ SameStem (names p') (names q')) :=
    fun hne => by
      rw [sessionStoragePath_eq vault hp, sessionStoragePath_eq vault hq, setExtension_eq_iff _ _ hne]
  have hstate : names p' ≠ names q' →
      (vault.statePathFor (vault.file p') = vault.statePathFor (vault.file q') ↔
        SameStem (names p') (names q')) := fun hne => by
    rw [statePathFor_eq vault hp, statePathFor_eq vault hq, setExtension_eq_iff _ _ hne]
  constructor
  · intro h
    refine ⟨fun hnames => (sessionKey_eq_iff hp hq hnames).1 (h.same_key (hfile.2 hnames)),
      fun hne hstem => ?_⟩
    exact h.storage_ne (mt hfile.1 hne) ((hstorage hne).2 hstem)
  · rintro ⟨hkey, hstem⟩
    refine ⟨⟨_, file_eq vault hp⟩, ⟨_, file_eq vault hq⟩, fun h => ?_, fun h => ?_, fun h => ?_⟩
    · exact (sessionKey_eq_iff hp hq (hfile.1 h)).2 (hkey (hfile.1 h))
    · have hne := mt hfile.2 h
      exact mt (hstorage hne).1 (hstem hne)
    · have hne := mt hfile.2 h
      exact mt (hstate hne).1 (hstem hne)

section Examples

/-- A vault at `/v`. -/
def sampleRoot : Root := ⟨components "/v".toList, by decide⟩

/-- `./a.md` and `a.md` are one file and two sessions; `a.md` and `a.txt` are two files with one
    stored session and one flushed state. -/
theorem two_sessions_one_store :
    (normalizeRel "./a.md".toList).isOk ∧ (normalizeRel "a.md".toList).isOk ∧
      (normalizeRel "a.txt".toList).isOk ∧
      sampleRoot.file "./a.md".toList = sampleRoot.file "a.md".toList ∧
      sessionKey "./a.md".toList ≠ sessionKey "a.md".toList ∧
      sampleRoot.file "a.md".toList ≠ sampleRoot.file "a.txt".toList ∧
      sampleRoot.sessionStoragePath "a.md".toList = sampleRoot.sessionStoragePath "a.txt".toList ∧
      sampleRoot.statePathFor (sampleRoot.file "a.md".toList) =
        sampleRoot.statePathFor (sampleRoot.file "a.txt".toList) := by
  decide

/-- Two documents of different names. -/
theorem oneSession_two_documents : OneSession sampleRoot "d/a.md".toList "d/b.md".toList := by
  refine (oneSession_iff sampleRoot "d/a.md".toList "d/b.md".toList _ _ rfl rfl).2
    ⟨fun h => absurd h (by decide), fun _ => ?_⟩
  rintro ⟨dir, n, m, hn, hm, hstem⟩
  have hn' : names "d/a.md".toList = ["d".toList] ++ ["a.md".toList] := by decide
  have hm' : names "d/b.md".toList = ["d".toList] ++ ["b.md".toList] := by decide
  obtain ⟨-, hn⟩ := append_inj' (hn'.symm.trans hn) rfl
  obtain ⟨-, hm⟩ := append_inj' (hm'.symm.trans hm) rfl
  rw [← singleton_inj.1 hn, ← singleton_inj.1 hm] at hstem
  exact absurd hstem (by decide)

end Examples
end MdCrdt.Vault
