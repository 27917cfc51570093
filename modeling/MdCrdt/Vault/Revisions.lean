import Mathlib.Logic.Function.Basic
import MdCrdt.Vault.Paths

/- The revisions that an open vault remembers (`filesync/session.rs`).

  A `VaultSession` holds the open sessions and, for some of them, the token of their
  state. What a method does to these two maps is a list of steps, in the order of the
  source (`Method`). Between them it reads and writes the disk, compares tokens and
  fingerprints and edits copies of a session. All of this can fail, and then the steps
  before have been taken and no others: a call ends behind any of its steps.

  No token is stale, since a session is edited only while it has none, and takes its token
  along where it goes to another path (`Allowed`).

  Correspondence (Rust ↔ Lean):
    `docs` and `revision_cache` at a path ↔ `Slot`
    `ensure_session_open`, the rest of `revision` ↔ `opens`, `caches`
    `revision_cache.remove`, a change through `&mut` ↔ `drops`, `edits`
    `summarize_session_transition` and the insert of its revision ↔ `recaches`
    the inserts of a prepared batch ↔ `installs`
  Sessions are any values with a revision, and edits any functions. A path stands for its
  `sessionKey`. What storage holds for one that is not open comes with the call. Methods
  on `&self`, `document_id` and `recover_transactions` do not touch the maps. -/
namespace MdCrdt.Vault
open Function List Option
variable {D T : Type} (revisionFor : D → Option T)

/-- The session that is open at a path, and its cached revision. -/
structure Slot (D T : Type) where
  doc : Option D
  token : Option T

abbrev VaultSession (D T : Type) := PathBuf → Slot D T

inductive Step (D : Type) where
  | opens (rel : PathBuf) (doc : D)
  | caches (rel : PathBuf)
  | drops (rel : PathBuf)
  | edits (rel : PathBuf) (edit : D → D)
  | recaches (rel : PathBuf)
  | installs (rel : PathBuf) (doc : D)
  | closes (rel : PathBuf)
  | renames (src dst : PathBuf)

open Step

/-- The token of an open session goes to the cache, unless `revision_for` fails. -/
def Slot.remember (c : Slot D T) : Option (Slot D T) :=
  (c.doc.bind revisionFor).map (fun token => { c with token := some token })

def Step.run (s : VaultSession D T) : Step D → Option (VaultSession D T)
  | opens rel doc => some (update s rel ⟨(s rel).doc.or (some doc), (s rel).token⟩)
  | caches rel => if (s rel).token.isSome then some s
    else ((s rel).remember revisionFor).map (update s rel)
  | drops rel => some (update s rel ⟨(s rel).doc, none⟩)
  | edits rel edit => some (update s rel ⟨(s rel).doc.map edit, (s rel).token⟩)
  | recaches rel => ((s rel).remember revisionFor).map (update s rel)
  | installs rel doc => (Slot.remember revisionFor ⟨some doc, none⟩).map (update s rel)
  | closes rel => some (update s rel ⟨none, none⟩)
  | renames src dst => some (update (update s src ⟨none, none⟩) dst
      ⟨(s src).doc.or (s dst).doc, (s src).token.or (s dst).token⟩)

def runSteps (s : VaultSession D T) : List (Step D) → VaultSession D T
  | [] => s
  | step :: steps => match step.run revisionFor s with
    | none => s
    | some s' => runSteps s' steps

/-! ## Methods -/

section Methods
variable (load : PathBuf → D)

def revisionSteps (rel : PathBuf) : List (Step D) := [opens rel (load rel), caches rel]

def sessionMutSteps (rel : PathBuf) : List (Step D) := [opens rel (load rel), drops rel]

/-- An ingest finds the text of the last flush and a source, or no source, or another text. -/
inductive Ingest (D : Type) where
  | same
  | adopts (adopt : D → D)
  | changes (ingest adopt : D → D)

def ingestFileUnchecked (rel : PathBuf) (ingest : Ingest D) : List (Step D) :=
  sessionMutSteps load rel ++ (match ingest with
    | .same => sessionMutSteps load rel
    | .adopts adopt => sessionMutSteps load rel ++ sessionMutSteps load rel ++ [edits rel adopt]
    | .changes ingest adopt => [edits rel ingest, edits rel adopt]) ++ [recaches rel]

/-- The steps of the methods on `&mut self`. -/
inductive Method : List (Step D) → Prop
  /-- Also `text_point`, `text_range`, `resolve_text_point`, `resolve_text_range`,
      `preconditions_for_edit`, `state_vector`, `encode_changes_since` and `sync_since`. -/
  | session (rel) : Method [opens rel (load rel)]
  /-- Also `descriptor_page`, `project_blocks` and `preview_edit_batch`. -/
  | revision (rel) : Method (revisionSteps load rel)
  | sessionMut (rel edit) : Method (sessionMutSteps load rel ++ [edits rel edit])
  /-- Also `apply_remote`. -/
  | withLocalEdit (rel edit) : Method (sessionMutSteps load rel ++ [edits rel edit, recaches rel])
  /-- Also, with one document, `apply_edit_batch` and `apply_previewed_batch`. -/
  | applyEditBatches (prepared : List (PathBuf × D)) :
      Method (prepared.flatMap (fun p => revisionSteps load p.1) ++
        prepared.flatMap (fun p => [installs p.1 p.2]))
  /-- Also `create_markdown`. -/
  | openDocument (rel) (ingest : Option (Ingest D)) : Method (opens rel (load rel) ::
      ingest.toList.flatMap (ingestFileUnchecked load rel) ++ revisionSteps load rel)
  /-- Also `refresh_markdown`. -/
  | ingestMarkdown (rel) (expects : Bool) (ingest) : Method (opens rel (load rel) ::
      (if expects then [caches rel] else []) ++ ingestFileUnchecked load rel ingest)
  | ingestAll (files : List (PathBuf × Ingest D)) :
      Method (files.flatMap (fun file => ingestFileUnchecked load file.1 file.2))
  /-- Also, with one document, `export_markdown`. -/
  | exportMarkdownTransaction (exports : List (PathBuf × (D → D))) :
      Method (exports.flatMap (fun e => revisionSteps load e.1) ++
        exports.flatMap (fun e => [drops e.1, edits e.1 e.2] ++ revisionSteps load e.1))
  | renameMarkdown (src dst) :
      Method (revisionSteps load src ++ renames src dst :: revisionSteps load dst)
  | deleteMarkdown (rel) : Method (revisionSteps load rel ++ [closes rel])
  | close (rel) : Method [closes rel]

end Methods

/-- What an opened vault becomes by calls, each of which ends behind any of its steps. -/
inductive Reached : VaultSession D T → Prop
  | opened : Reached (fun _ => ⟨none, none⟩)
  | call (h : Reached s) (hm : Method load steps) (n : Nat) :
      Reached (runSteps revisionFor s (steps.take n))

/-! ## Fresh tokens -/

/-- What is known of the cache between two steps: whether a path has a token. -/
abbrev Known := Option (PathBuf × Bool)

def Known.Holds (k : Known) (s : VaultSession D T) : Prop :=
  ∀ rel b, k = some (rel, b) → (s rel).token.isSome = b

/-- A session is edited without a token, and goes to another path with its own. -/
def Allowed (k : Known) : Step D → Prop
  | edits rel _ => k = some (rel, false)
  | renames src _ => k = some (src, true)
  | _ => True

def Known.after (k : Known) : Step D → Known
  | opens _ _ | edits _ _ => k
  | caches rel | recaches rel => some (rel, true)
  | drops rel => some (rel, false)
  | installs _ _ | closes _ | renames _ _ => none

def Safe : Known → List (Step D) → Prop
  | _, [] => True
  | k, step :: steps => Allowed k step ∧ Safe (k.after step) steps

variable {revisionFor : D → Option T} {s s' : VaultSession D T} {k : Known}
  {steps steps' : List (Step D)}

theorem Safe.append (h : Safe k steps) (h' : ∀ k, Safe k steps') : Safe k (steps ++ steps') := by
  induction steps generalizing k with
  | nil => exact h' k
  | cons step steps ih => exact ⟨h.1, ih h.2⟩

theorem safe_flatMap {A : Type} {f : A → List (Step D)} (hf : ∀ a k, Safe k (f a))
    (l : List A) (k) : Safe k (l.flatMap f) := by
  induction l generalizing k with
  | nil => trivial
  | cons a l ih => exact (hf a k).append ih

theorem safe_ingestFileUnchecked (load rel) (ingest : Ingest D) (k) :
    Safe k (ingestFileUnchecked load rel ingest) := by
  cases ingest <;> simp [ingestFileUnchecked, sessionMutSteps, Safe, Allowed, Known.after]

theorem safe_revisionSteps (load : PathBuf → D) (rel) (k) : Safe k (revisionSteps load rel) := by
  simp [revisionSteps, Safe, Allowed]

theorem Method.safe {load : PathBuf → D} (h : Method load steps) (k) : Safe k steps := by
  have hrevision := safe_revisionSteps load
  have hingest := safe_ingestFileUnchecked load
  cases h with
  | applyEditBatches prepared =>
    exact (safe_flatMap (fun p => hrevision p.1) prepared k).append
      (safe_flatMap (f := fun p => [installs p.1 p.2]) (fun _ _ => ⟨trivial, trivial⟩) prepared)
  | openDocument rel ingest =>
    exact ⟨trivial, (safe_flatMap (hingest rel) _ _).append (hrevision rel)⟩
  | ingestMarkdown rel expects ingest =>
    refine ⟨trivial, Safe.append ?_ (hingest rel ingest)⟩
    cases expects <;> simp [Safe, Allowed]
  | ingestAll files => exact safe_flatMap (fun file => hingest file.1 file.2) files k
  | exportMarkdownTransaction exports =>
    refine (safe_flatMap (fun e => hrevision e.1) exports k).append (safe_flatMap ?_ exports)
    exact fun e _ => ⟨trivial, rfl, hrevision e.1 _⟩
  | _ => simp [revisionSteps, sessionMutSteps, Safe, Allowed, Known.after]

/-- The token of a session is the revision of its state. -/
def Slot.Fresh (revisionFor : D → Option T) (c : Slot D T) : Prop :=
  ∀ token, c.token = some token → ∃ doc, c.doc = some doc ∧ revisionFor doc = some token

theorem Slot.Fresh.remember {c c' : Slot D T} (h : c.remember revisionFor = some c') :
    c'.Fresh revisionFor ∧ c'.token.isSome := by
  obtain ⟨token, ht, rfl⟩ := map_eq_some_iff.mp h
  obtain ⟨doc, hdoc, ht⟩ := bind_eq_some_iff.mp ht
  exact ⟨fun t h => ⟨doc, hdoc, ht.trans h⟩, rfl⟩

theorem forall_update {P : Slot D T → Prop} (h : ∀ rel, P (s rel)) (rel) (hc : P c) :
    ∀ p, P (update s rel c p) :=
  (forall_update_iff s (fun _ => P)).mpr ⟨hc, fun p _ => h p⟩

theorem fresh_none (doc) : Slot.Fresh revisionFor ⟨doc, none⟩ := by
  simp [Slot.Fresh]

theorem holds_update (s : VaultSession D T) (rel) (c) :
    Known.Holds (some (rel, c.token.isSome)) (update s rel c) := by
  rintro _ _ ⟨⟩
  rw [update_self]

/-- The cache is as before where only a session changes. -/
theorem Known.Holds.update (hk : k.Holds s) (rel) (doc) :
    k.Holds (update s rel ⟨doc, (s rel).token⟩) := by
  intro p b hp
  rw [← hk p b hp]
  by_cases hp : p = rel
  · rw [hp, update_self]
  · rw [update_of_ne hp]

theorem fresh_step {step : Step D} (h : ∀ rel, (s rel).Fresh revisionFor) (hk : k.Holds s)
    (ha : Allowed k step) (hr : step.run revisionFor s = some s') :
    (∀ rel, (s' rel).Fresh revisionFor) ∧ (k.after step).Holds s' := by
  have hremember : ∀ {c : Slot D T} {rel}, (c.remember revisionFor).map (update s rel) = some s' →
      (∀ rel, (s' rel).Fresh revisionFor) ∧ Known.Holds (some (rel, true)) s' := by
    intro c rel hr
    obtain ⟨c', hc, rfl⟩ := map_eq_some_iff.mp hr
    obtain ⟨hfresh, hsome⟩ := Slot.Fresh.remember hc
    exact ⟨forall_update h rel hfresh, hsome ▸ holds_update s rel c'⟩
  cases step with
  | opens rel doc =>
    obtain rfl := some.inj hr
    refine ⟨forall_update h rel (fun t ht => ?_), hk.update rel _⟩
    obtain ⟨d, hd, ht⟩ := h rel t ht
    exact ⟨d, by rw [hd]; rfl, ht⟩
  | caches rel =>
    rw [Step.run] at hr
    split at hr
    · next hsome =>
      obtain rfl := some.inj hr
      exact ⟨h, by rintro _ _ ⟨⟩; exact hsome⟩
    · exact hremember hr
  | drops rel =>
    obtain rfl := some.inj hr
    exact ⟨forall_update h rel (fresh_none _), holds_update s rel ⟨_, none⟩⟩
  | edits rel edit =>
    obtain rfl := some.inj hr
    have hnone := isSome_eq_false_iff.mp (hk rel false ha)
    refine ⟨forall_update h rel ?_, hk.update rel _⟩
    rw [isNone_iff_eq_none.mp hnone]
    exact fresh_none _
  | recaches rel => exact hremember hr
  | installs rel doc => exact ⟨(hremember hr).1, by rintro _ _ ⟨⟩⟩
  | closes rel =>
    obtain rfl := some.inj hr
    exact ⟨forall_update h rel (fresh_none _), by rintro _ _ ⟨⟩⟩
  | renames src dst =>
    obtain rfl := some.inj hr
    obtain ⟨token, ht⟩ := isSome_iff_exists.mp (hk src true ha)
    obtain ⟨doc, hdoc, hrev⟩ := h src token ht
    refine ⟨forall_update (forall_update h src (fresh_none _)) dst (fun t h => ⟨doc, ?_, ?_⟩),
      by rintro _ _ ⟨⟩⟩
    · rw [hdoc]; rfl
    · rw [hrev, ← h, ht]; rfl

theorem fresh_runSteps (h : ∀ rel, (s rel).Fresh revisionFor) (hk : k.Holds s)
    (hs : Safe k steps) (n rel) :
    (runSteps revisionFor s (steps.take n) rel).Fresh revisionFor := by
  induction steps generalizing s k n with
  | nil => rw [take_nil]; exact h rel
  | cons step steps ih =>
    cases n with
    | zero => exact h rel
    | succ n =>
      rw [take_succ_cons, runSteps]
      cases hr : step.run revisionFor s with
      | none => exact h rel
      | some s' =>
        obtain ⟨h', hk'⟩ := fresh_step h hk hs.1 hr
        exact ih h' hk' hs.2 n

/-- **No cached revision is stale.** -/
theorem cached_revision_current (h : Reached revisionFor s) (rel : PathBuf) :
    (s rel).Fresh revisionFor := by
  induction h generalizing rel with
  | opened => exact fresh_none none
  | call _ hm n ih =>
    have hnone : ∀ {s : VaultSession D T}, Known.Holds none s := by rintro _ _ _ ⟨⟩
    exact fresh_runSteps ih hnone (hm.safe none) n rel

/-- `a.md`, and the name it is given. -/
def oldName : PathBuf := [.normal "a.md".toList]

def newName : PathBuf := [.normal "b.md".toList]

/-- A renamed document with the revision that was cached before. -/
theorem renamed_revision_current : ((runSteps some (fun _ => ⟨none, none⟩)
    (revisionSteps (fun _ => 7) oldName ++ [renames oldName newName]) : VaultSession Nat Nat)
      newName).Fresh some :=
  have h : Method (fun _ => 7) _ := .renameMarkdown oldName newName
  cached_revision_current (.call .opened h 3) newName

end MdCrdt.Vault
