import Mathlib.Data.List.Nodup
import MdCrdt.Vault.Transactions

/- The states of an export transaction (`filesync/session.rs`).

  Until its journal is in place a transaction has touched nothing but its pending
  files: the vault rests with its old contents. From then on every document of the
  batch either waits in its pending file or has its new content, whoever moves it. When
  the journal is gone the vault rests with the new contents. A process that stops
  leaves one of these states, and no step between them fails on its own. -/
namespace MdCrdt.Vault
open Lib Prog List Files Host

variable [Host] {p : Path}

/-- Steps go through or the process stops. -/
def NoFail : Fate → Prop
  | .ok | .crash _ => True
  | .fail _ => False

theorem not_mayFail_noFail : ¬MayFail NoFail := fun ⟨_, h⟩ => h

theorem noFail_elim {P : Prop} (h : MayFail NoFail) : P := absurd h not_mayFail_noFail

/-! ## Resting -/

/-- No transaction is under way: apart from temporary files the files are as `base` says. Without
    a transaction root there has been none since `old`. -/
structure Rests (old : Files) (base : Path → Option Bytes) (fs : Files) : Prop where
  files : ∀ p, ¬IsTemp p → fs.get? p = base p
  start : fs.root = false → old.root = false ∧ ∀ p, fs.get? p = old.get? p

namespace Rests
variable {old fs : Files} {base : Path → Option Bytes} {p : Path}

theorem refl (old) : Rests old old.get? old := ⟨fun _ _ => rfl, fun h => ⟨h, fun _ => rfl⟩⟩

section
variable (h : Rests old base fs)
include h

theorem withRoot : Rests old base fs.withRoot :=
  ⟨h.files, fun hroot => nomatch hroot⟩

theorem put (hroot : fs.root = true) (hp : IsTemp p) (b) : Rests old base (fs.put p b) := by
  refine ⟨fun q hq => ?_, fun hr => ?_⟩
  · rw [get?_put, if_neg (fun heq : q = p => hq (heq ▸ hp))]
    exact h.files q hq
  · rw [root_put, hroot] at hr
    cases hr

theorem del (hroot : fs.root = true) (hp : IsTemp p) : Rests old base (fs.del p) := by
  refine ⟨fun q hq => ?_, fun hr => ?_⟩
  · rw [get?_del, if_neg (fun heq : q = p => hq (heq ▸ hp))]
    exact h.files q hq
  · rw [root_del, hroot] at hr
    cases hr

end

end Rests

/-- Removing temporary files, with or without success, leaves a vault at rest. -/
theorem holds_tolerate_remove {allowed : Fate → Prop} {I : Files → Prop}
    {X : VaultError → Files → Prop} {P : Files → Prop} (hPI : ∀ s, P s → I s)
    (hP : P fs) (hdel : P (fs.del p)) :
    HoldsE exec allowed I (tolerate (removeFile p)) (fun _ s => P s) X fs :=
  (holds_removeFile (Q := fun _ s => P s) (X := fun _ s => P s) (hPI _ hP)
    (fun _ => ⟨hPI _ hdel, hdel⟩) (fun _ => hP)).tolerate

/-! ## The files of an entry -/

/-- The three files of an entry are different. -/
structure Apart (e : ExportJournalEntry Path) : Prop where
  pending : e.pending ≠ e.target
  backup : e.backup ≠ e.target
  both : e.pending ≠ e.backup

/-- A step that touches nothing but the three files of an entry. -/
structure Around (e : ExportJournalEntry Path) (fs s : Files) : Prop where
  root : s.root = fs.root
  others : ∀ p, p ≠ e.target → p ≠ e.pending → p ≠ e.backup → s.get? p = fs.get? p

/-- What installing an entry does. -/
structure Installs (e : ExportJournalEntry Path) (fs s : Files) : Prop where
  target : s.get? e.target = (fs.get? e.pending).or (fs.get? e.target)
  pending : s.get? e.pending = none
  others : ∀ p, p ≠ e.target → p ≠ e.pending → p ≠ e.backup → s.get? p = fs.get? p

section Effects
variable {allowed : Fate → Prop} {I : Files → Prop} {X : VaultError → Files → Prop} {fs s : Files}
  {e : ExportJournalEntry Path}

theorem Around.refl (e) (fs : Files) : Around e fs fs := ⟨rfl, fun _ _ _ _ => rfl⟩

theorem holds_makeRoom (he : Apart e) (hI : I fs)
    (hmid : ∀ s, Around e fs s → s.get? e.pending = fs.get? e.pending → I s)
    (hX : MayFail allowed → X .io fs) : HoldsE exec allowed I (makeRoom e)
      (fun _ s => Around e fs s ∧ s.get? e.pending = fs.get? e.pending) X fs := by
  have hdel : ∀ p, p ≠ e.target → (fs.del e.target).get? p = fs.get? p := fun p hp => by
    rw [get?_del, if_neg hp]
  refine holds_pathExists_bind hI (holds_pathExists_bind hI (holdsE_ite (fun hcond => ?_) (fun _ => ?_)))
  · refine holds_renameFile hI (fun content _ => ?_) (fun hx => hX (hx.resolve_left (fun hnone => ?_)))
    · have hput : ∀ p, p ≠ e.target → p ≠ e.backup →
          ((fs.del e.target).put e.backup content).get? p = fs.get? p := fun p ht hb => by
        rw [get?_put, if_neg hb, hdel p ht]
      have hs : Around e fs ((fs.del e.target).put e.backup content) :=
        ⟨rfl, fun p ht _ hb => hput p ht hb⟩
      have hp := hput _ he.pending he.both
      exact ⟨hmid _ hs hp, hs, hp⟩
    · simp [hnone] at hcond
  · refine holds_pathExists_bind hI (holdsE_ite (fun hsome => ?_) (fun _ => ?_))
    · have hs : Around e fs (fs.del e.target) := ⟨rfl, fun p ht _ _ => hdel p ht⟩
      have hp := hdel _ he.pending
      refine holds_removeFile hI (fun _ => ⟨hmid _ hs hp, hs, hp⟩)
        (fun hx => hX (hx.resolve_left (fun hnone => ?_)))
      simp [hnone] at hsome
    · exact holdsE_pure ⟨.refl e fs, rfl⟩

/-- Installing puts the pending content in place. Where there is none it changes nothing. -/
theorem holds_installExportEntry (he : Apart e) (hI : I fs)
    (hmid : (fs.get? e.pending).isSome → ∀ s, Around e fs s →
      s.get? e.pending = fs.get? e.pending ∨ Installs e fs s → I s)
    (hX : MayFail allowed → ∀ s, I s → X .io s)
    (hmissing : fs.get? e.pending = none → fs.get? e.target = none →
      X (.pathDoesNotExist e.target) fs) :
    HoldsE exec allowed I (installExportEntry e)
      (fun _ s => I s ∧ Around e fs s ∧ Installs e fs s) X fs := by
  refine holds_pathExists_bind hI (holdsE_ite (fun hsome => ?_) (fun hnone => ?_))
  · obtain ⟨content, hcontent⟩ := Option.isSome_iff_exists.mp hsome
    refine (holds_makeRoom he hI (fun s hs hp => hmid hsome s hs (.inl hp)) (fun hf => hX hf fs hI)).bind ?_
    rintro _ s ⟨hs, hp⟩
    have hIs := hmid hsome s hs (.inl hp)
    refine (holds_renameFile (Q := fun _ s => I s ∧ Around e fs s ∧ Installs e fs s) hIs ?_ ?_).bind ?_
    · intro content' hcontent'
      obtain rfl : content = content' :=
        Option.some.inj (hcontent.symm.trans (hp.symm.trans hcontent'))
      have hsame : ∀ p, p ≠ e.target → p ≠ e.pending → p ≠ e.backup →
          ((s.del e.pending).put e.target content).get? p = fs.get? p := fun p ht hp hb => by
        rw [get?_put, if_neg ht, get?_del, if_neg hp, hs.others p ht hp hb]
      have hinst : Installs e fs ((s.del e.pending).put e.target content) := by
        refine ⟨?_, ?_, hsame⟩
        · rw [get?_put, if_pos rfl, hcontent, Option.some_or]
        · rw [get?_put, if_neg he.pending, get?_del, if_pos rfl]
      have hs' : Around e fs ((s.del e.pending).put e.target content) := ⟨hs.root, hsame⟩
      have hdone := hmid hsome _ hs' (.inr hinst)
      exact ⟨hdone, hdone, hs', hinst⟩
    · rintro (hnone | hf)
      · rw [hp, hcontent] at hnone; cases hnone
      · exact hX hf s hIs
    · rintro _ s hs; exact holds_elsewhere hs.1 hs (fun hf => hX hf s hs.1)
  · have hnone : fs.get? e.pending = none := by simpa using hnone
    refine holds_pathExists_bind hI (holdsE_ite (fun h => holdsE_throw ?_) (fun _ => ?_))
    · exact hmissing hnone (by simpa using h)
    · exact holdsE_pure ⟨hI, .refl e fs, by rw [hnone, Option.none_or], hnone, fun _ _ _ _ => rfl⟩

/-- Removing a file that may be there. -/
theorem holds_removeJournal (hI : I fs)
    (hdel : (fs.get? p).isSome → I (fs.del p) ∧ Q () (fs.del p)) (hnone : fs.get? p = none → Q () fs)
    (hX : MayFail allowed → X .io fs ∧ X .io (fs.del p)) :
    HoldsE exec allowed I (removeJournal p) Q X fs := by
  refine holds_pathExists_bind hI (holdsE_ite (fun hsome => ?_) (fun h => holdsE_pure ?_))
  · refine (holds_removeFile (Q := fun _ s => s = fs.del p) hI (fun _ => ⟨(hdel hsome).1, rfl⟩)
      (fun hx => (hX (hx.resolve_left (fun h => ?_))).1)).bind ?_
    · simp [h] at hsome
    · rintro _ _ rfl; exact holds_elsewhere (hdel hsome).1 (hdel hsome).2 (fun hf => (hX hf).2)
  · exact hnone (by simpa using h)

end Effects

/-! ## The documents of a batch -/

/-- The entry that a request gets in the journal. -/
abbrev ExportRequest.entry (r : ExportRequest) (tid : Uuid) : ExportJournalEntry Path :=
  exportJournalEntry r.path.file tid

/-- Does the request ask for another content than the file has? -/
def ExportRequest.Changes (r : ExportRequest) (old : Files) : Prop :=
  old.get? r.path.file ≠ some r.markdown

instance (r : ExportRequest) (old : Files) : Decidable (r.Changes old) :=
  inferInstanceAs (Decidable (_ ≠ _))

/-- The files with the contents of a batch. -/
def published (old : Files) (changes : List ExportRequest) (p : Path) : Option Bytes :=
  match changes.find? (fun r => r.path.file = p) with
  | some r => some r.markdown
  | none => old.get? p

/-- A batch that may be carried out: documents, each once, in a vault without journals. -/
structure Batch (old : Files) (changes : List ExportRequest) : Prop where
  nodup : (changes.map (fun r => r.path.file)).Nodup
  documents : ∀ r ∈ changes, IsDocument r.path.file
  journals : ∀ p, isJournal p = true → old.get? p = none

namespace Batch
variable {old : Files} {changes : List ExportRequest} {r r' : ExportRequest}

theorem file_inj (h : Batch old changes) (hr : r ∈ changes) (hr' : r' ∈ changes)
    (heq : r.path.file = r'.path.file) : r = r' :=
  inj_on_of_nodup_map h.nodup hr hr' heq

theorem published_of_mem (h : Batch old changes) (hr : r ∈ changes) :
    published old changes r.path.file = some r.markdown := by
  unfold published
  cases hfind : changes.find? (fun r' => r'.path.file = r.path.file) with
  | none => exact absurd (find?_eq_none.mp hfind r hr) (by simp)
  | some r' =>
    have hfile : r'.path.file = r.path.file := by simpa using find?_some hfind
    rw [h.file_inj (mem_of_find?_eq_some hfind) hr hfile]

end Batch

theorem published_of_not
    (h : ∀ r ∈ changes, r.path.file ≠ p) : published old changes p = old.get? p := by
  unfold published
  rw [find?_eq_none.mpr (fun r hr => by simpa using h r hr)]

theorem Batch.published_journal
    (h : Batch old changes) (hp : isJournal p = true) : published old changes p = none := by
  rw [published_of_not, h.journals p hp]
  rintro r hr rfl
  rw [(h.documents r hr).notJournal] at hp
  cases hp

/-! ## Under way -/

/-- The journal of a batch is in place: every document waits in its pending file or has its new
    content. -/
structure Committed (old : Files) (changes : List ExportRequest) (tid jid : Uuid) (fs : Files) :
    Prop where
  root : fs.root = true
  journal : ∃ b, fs.get? (journalPath jid) = some b ∧
    fromSlice b = some (.exports (changes.map (fun r => r.entry tid)))
  others : ∀ p, ¬IsTemp p → p ≠ journalPath jid → (∀ r ∈ changes, r.path.file ≠ p) →
    fs.get? p = old.get? p
  entry : ∀ r ∈ changes, fs.get? (r.entry tid).pending = some r.markdown ∨
    fs.get? (r.entry tid).pending = none ∧ fs.get? r.path.file = some r.markdown

/-- The document of a request has its new content. -/
def Installed (r : ExportRequest) (tid : Uuid) (fs : Files) : Prop :=
  fs.get? (r.entry tid).pending = none ∧ fs.get? r.path.file = some r.markdown

/-- A step that touches nothing but the file and the pending file of one request and the old
    contents that are kept aside. -/
structure Within (r : ExportRequest) (tid : Uuid) (fs fs' : Files) : Prop where
  root : fs'.root = fs.root
  same : ∀ p, p ≠ r.path.file → p ≠ (r.entry tid).pending →
    (∀ q, p ≠ (exportJournalEntry q tid).backup) → fs'.get? p = fs.get? p

section Lawful
variable [LawfulHost] {old fs fs' fs'' : Files} {changes : List ExportRequest} {r r' : ExportRequest}
  {tid jid : Uuid}

section
variable (h : Within r tid fs fs')
include h

theorem Within.file (hp : ¬IsTemp p) (hne : p ≠ r.path.file) : fs'.get? p = fs.get? p :=
  h.same p hne (fun heq => hp (heq ▸ isTemp_pending _ _)) (fun _ heq => hp (heq ▸ isTemp_backup _ _))

theorem Within.pending (hr : ¬IsTemp r.path.file) (hne : p ≠ r.path.file) :
    fs'.get? (exportJournalEntry p tid).pending = fs.get? (exportJournalEntry p tid).pending :=
  h.same _ (fun heq => hr (heq ▸ isTemp_pending _ _)) (fun heq => hne (pending_inj heq).1)
    (fun _ => pending_ne_backup _ _ _ _)

end

theorem apart_exportJournalEntry (ht : IsDocument t) (tid) : Apart (exportJournalEntry t tid) :=
  ⟨fun heq : _ = t => ht.notTemp (heq ▸ isTemp_pending t tid),
    fun heq : _ = t => ht.notTemp (heq ▸ isTemp_backup t tid),
    pending_ne_backup _ _ _ _⟩

section
variable (h : Around (exportJournalEntry t tid) fs fs')
include h

theorem Around.file (hp : ¬IsTemp p) (hne : p ≠ t) : fs'.get? p = fs.get? p :=
  h.others p hne (fun heq => hp (heq ▸ isTemp_pending _ _)) (fun heq => hp (heq ▸ isTemp_backup _ _))

theorem Around.pending (ht : ¬IsTemp t)
    (hne : (exportJournalEntry t' tid').pending ≠ (exportJournalEntry t tid).pending) :
    fs'.get? (exportJournalEntry t' tid').pending = fs.get? (exportJournalEntry t' tid').pending :=
  h.others _ (fun heq : _ = t => ht (heq ▸ isTemp_pending _ _)) hne (pending_ne_backup _ _ _ _)

end

section
variable (h : Batch old changes)
include h

omit [LawfulHost] in
theorem Batch.not_isTemp (hr : r ∈ changes) : ¬IsTemp r.path.file :=
  (h.documents r hr).notTemp

theorem Batch.ne_journal (hr : r ∈ changes) : r.path.file ≠ journalPath jid := by
  intro heq
  have hj := (h.documents r hr).notJournal
  rw [heq, isJournal_journalPath] at hj
  cases hj

end

theorem not_isTemp_journalPath (jid) : ¬IsTemp (journalPath jid) :=
  not_isTemp_of_isJournal (isJournal_journalPath jid)

theorem Installed.within (h : Installed r' tid fs) (hbatch : Batch old changes) (hr : r ∈ changes)
    (hr' : r' ∈ changes) (hne : r' ≠ r) (hw : Within r tid fs fs') : Installed r' tid fs' := by
  have hfile : r'.path.file ≠ r.path.file := fun heq => hne (hbatch.file_inj hr' hr heq)
  exact ⟨(hw.pending (hbatch.not_isTemp hr) hfile).trans h.1,
    (hw.file (hbatch.not_isTemp hr') hfile).trans h.2⟩

/-- What a step within one request has to keep is that request's document. -/
theorem Committed.within (h : Committed old changes tid jid fs) (hbatch : Batch old changes)
    (hr : r ∈ changes) (hw : Within r tid fs fs')
    (hentry : fs'.get? (r.entry tid).pending = some r.markdown ∨ Installed r tid fs') :
    Committed old changes tid jid fs' := by
  have hjournal : fs'.get? (journalPath jid) = fs.get? (journalPath jid) :=
    hw.file (not_isTemp_journalPath jid) (Ne.symm (hbatch.ne_journal hr))
  refine ⟨hw.root.trans h.root, hjournal ▸ h.journal, fun p hp hj hne => ?_, fun r' hr' => ?_⟩
  · rw [hw.file hp (Ne.symm (hne r hr))]
    exact h.others p hp hj hne
  · by_cases heq : r' = r
    · rw [heq]
      exact hentry
    · have hfile : r'.path.file ≠ r.path.file := fun h => heq (hbatch.file_inj hr' hr h)
      unfold ExportRequest.entry
      rw [hw.pending (hbatch.not_isTemp hr) hfile, hw.file (hbatch.not_isTemp hr') hfile]
      exact h.entry r' hr'

/-- Once every document is in place the journal may go. -/
theorem Committed.finish (h : Committed old changes tid jid fs) (hbatch : Batch old changes)
    (hall : ∀ r ∈ changes, Installed r tid fs) :
    Rests old (published old changes) (fs.del (journalPath jid)) := by
  refine ⟨fun p hp => ?_, fun hroot => ?_⟩
  · rw [get?_del]
    split
    · next hj => rw [hj, hbatch.published_journal (isJournal_journalPath jid)]
    · next hj =>
      by_cases hmem : ∃ r ∈ changes, r.path.file = p
      · obtain ⟨r, hr, rfl⟩ := hmem
        rw [hbatch.published_of_mem hr]
        exact (hall r hr).2
      · have hne : ∀ r ∈ changes, r.path.file ≠ p := fun r hr heq => hmem ⟨r, hr, heq⟩
        rw [published_of_not hne]
        exact h.others p hp hj hne
  · rw [root_del, h.root] at hroot
    cases hroot

/-! ### Steps -/

omit [LawfulHost] in
theorem within_del_backup : Within r tid fs (fs.del (r.entry tid).backup) :=
  ⟨rfl, fun p _ _ h3 => by rw [get?_del, if_neg (h3 r.path.file)]⟩

section Steps
variable {I : Files → Prop} {X : VaultError → Files → Prop}

section
variable (hbatch : Batch old changes)
include hbatch

section
variable (hI : ∀ s, Committed old changes tid jid s → I s)
include hI

/-- Installing puts the document in place, whatever an earlier attempt left. -/
theorem holds_installExportEntry_committed (hr : r ∈ changes) (h : Committed old changes tid jid fs) :
    HoldsE exec NoFail I (installExportEntry (r.entry tid)) (fun _ s =>
      Committed old changes tid jid s ∧ Within r tid fs s ∧ Installed r tid s) X fs := by
  have hentry := h.entry r hr
  have hwithin : ∀ {s}, Around (r.entry tid) fs s → Within r tid fs s :=
    fun hs => ⟨hs.root, fun p h1 h2 h3 => hs.others p h1 h2 (h3 _)⟩
  have hinst : ∀ {s}, Installs (r.entry tid) fs s → Installed r tid s := by
    refine fun hs => ⟨hs.pending, hs.target.trans ?_⟩
    rcases hentry with hp | ⟨hp, ht⟩
    · rw [hp, Option.some_or]
    · rw [hp, Option.none_or]; exact ht
  refine (holds_installExportEntry (apart_exportJournalEntry (hbatch.documents r hr) tid) (hI fs h)
    (fun hsome s hs hp => ?_) noFail_elim (fun hp ht => ?_)).postOk ?_
  · refine hI s (h.within hbatch hr (hwithin hs) (hp.imp (fun hp => hp.trans ?_) hinst))
    rcases hentry with hp | ⟨hp, _⟩
    · exact hp
    · simp [hp] at hsome
  · rcases hentry with hsome | ⟨_, hsome⟩
    · rw [hp] at hsome; cases hsome
    · cases ht.symm.trans hsome
  · rintro _ s ⟨_, hs, hp⟩
    exact ⟨h.within hbatch hr (hwithin hs) (.inr (hinst hp)), hwithin hs, hinst hp⟩

theorem holds_installExportEntries (h : Committed old changes tid jid fs) :
    HoldsE exec NoFail I (installExportEntries (changes.map (fun r => r.entry tid)))
      (fun _ s => Committed old changes tid jid s ∧ ∀ r ∈ changes, Installed r tid s) X fs := by
  -- in front of the rest of the batch, what is not in the rest is in place
  refine (holdsE_forM_map (J := fun rest s => Committed old changes tid jid s ∧
    (∀ r ∈ rest, r ∈ changes) ∧ ∀ r ∈ changes, r ∉ rest → Installed r tid s)
    ⟨h, fun _ hr => hr, fun r hr hnot => absurd hr hnot⟩ ?_).postOk
    (fun _ s hs => ⟨hs.1, fun r hr => hs.2.2 r hr not_mem_nil⟩)
  rintro r rest s ⟨hc, hsub, hdone⟩
  have hr := hsub r mem_cons_self
  refine (holds_installExportEntry_committed hbatch hI hr hc).postOk ?_
  rintro _ s' ⟨hc', hw, hinst⟩
  refine ⟨hc', fun r' hr' => hsub r' (mem_cons_of_mem _ hr'), fun r' hr' hnot => ?_⟩
  by_cases heq : r' = r
  · exact heq ▸ hinst
  · exact (hdone r' hr' (by simp [heq, hnot])).within hbatch hr hr' heq hw

theorem holds_removeBackup (hr : r ∈ changes)
    (h : Committed old changes tid jid fs) (hall : ∀ r ∈ changes, Installed r tid fs) :
    HoldsE exec NoFail I (removeBackup (r.entry tid)) (fun _ s => Committed old changes tid jid s ∧
      ∀ r ∈ changes, Installed r tid s) X fs := by
  have hfile : r.path.file ≠ (r.entry tid).backup :=
    fun heq => hbatch.not_isTemp hr (heq ▸ isTemp_backup _ _)
  have hinst : Installed r tid (fs.del (r.entry tid).backup) := by
    refine ⟨?_, ?_⟩
    · rw [get?_del, if_neg (pending_ne_backup _ _ _ _)]
      exact (hall r hr).1
    · rw [get?_del, if_neg hfile]
      exact (hall r hr).2
  have hdel := h.within hbatch hr within_del_backup (.inr hinst)
  refine holds_removeJournal (hI fs h) (fun _ => ⟨hI _ hdel, hdel, fun r' hr' => ?_⟩)
    (fun _ => ⟨h, hall⟩) noFail_elim
  by_cases heq : r' = r
  · exact heq ▸ hinst
  · exact (hall r' hr').within hbatch hr hr' heq within_del_backup

/-- With every document in place, the old contents and the journal are removed. -/
theorem holds_cleanupExportEntries (hrest : ∀ s, Rests old (published old changes) s → I s)
    (h : Committed old changes tid jid fs) (hall : ∀ r ∈ changes, Installed r tid fs) :
    HoldsE exec NoFail I
      (cleanupExportEntries (changes.map (fun r => r.entry tid)) (journalPath jid))
      (fun _ s => Rests old (published old changes) s ∧ s.root = true) X fs := by
  refine (holdsE_forM_map (J := fun rest s => (∀ r ∈ rest, r ∈ changes) ∧
    Committed old changes tid jid s ∧ ∀ r ∈ changes, Installed r tid s)
    ⟨fun _ hr => hr, h, hall⟩ ?_).bind ?_
  · rintro r rest s ⟨hsub, hc, hinst⟩
    exact (holds_removeBackup hbatch hI (hsub r mem_cons_self) hc hinst).postOk
      (fun _ _ hs => ⟨fun r' hr' => hsub r' (mem_cons_of_mem _ hr'), hs⟩)
  · rintro _ s ⟨_, hc, hinst⟩
    have hdel := hc.finish hbatch hinst
    have hroot : (s.del (journalPath jid)).root = true := hc.root
    obtain ⟨b, hb, _⟩ := hc.journal
    refine holds_removeJournal (hI s hc) (fun _ => ⟨hrest _ hdel, hdel, hroot⟩) (fun hnone => ?_)
      noFail_elim
    rw [hb] at hnone; cases hnone

end

end

end Steps
end Lawful
end MdCrdt.Vault
