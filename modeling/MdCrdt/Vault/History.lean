import MdCrdt.Vault.Atomicity

/- Calls on a vault, one after the other (`filesync/session.rs`).

  Any step of a call may fail. What a call has not named it leaves alone, and the
  journals that failed calls leave behind stay readable and apart from each other: no
  two of them have a pending file in common. A call that succeeds has put the content in
  place that it was given. -/
namespace MdCrdt.Vault
open Lib Prog List Option Host Files

section Host
variable [Host]

inductive Call where
  | exportTransaction (requests : List ExportRequest) (tid jid : Uuid)
  | exportOne (request : ExportRequest)
  | create (request : ExportRequest)
  | delete (path : RelPath) (jid : Uuid)

namespace Call

def program : Call → VaultM Unit
  | exportTransaction requests tid jid => exportMarkdownTransaction requests tid jid
  | exportOne request => exportMarkdown request
  | create request => createMarkdown request
  | delete path jid => deleteMarkdown path jid

/-- The documents a call names. -/
def documents : Call → List Path
  | exportTransaction requests _ _ => requests.map (fun r => r.path.file)
  | exportOne request | create request => [request.path.file]
  | delete path _ => [path.file]

/-- The ids that pending files are named by. -/
def transactionIds : Call → List Uuid
  | exportTransaction _ tid _ => [tid]
  | exportOne _ | create _ | delete _ _ => []

/-- The call writes `content` into a document that holds something else. -/
def Writes (fs : Files) (p : Path) (content : Bytes) : Call → Prop
  | exportTransaction requests _ _ =>
    ∃ r ∈ requests, r.path.file = p ∧ r.markdown = content ∧ r.Changes fs
  | exportOne r => r.path.file = p ∧ r.markdown = content ∧ r.Changes fs
  | create r => r.path.file = p ∧ r.markdown = content
  | delete _ _ => False

end Call

/-- Perform calls one after the other, whatever comes of each. -/
def performAll (calls : List (Call × List Fate)) (fs : Files) : Files :=
  calls.foldl (fun fs call => (perform call.1.program call.2 fs).2) fs

/-! ## What a program does not touch -/

/-- `I` does not depend on the files of `P`. -/
def Stable (I : Files → Prop) (P : Path → Prop) : Prop :=
  ∀ fs fs' : Files, I fs → (fs.root = true → fs'.root = true) →
    (∀ p, ¬P p → fs'.get? p = fs.get? p) → I fs'

namespace Stable
variable {I : Files → Prop} {P : Path → Prop} {fs : Files} {p : Path}

theorem withRoot (h : Stable I P) (hI : I fs) : I fs.withRoot := h fs _ hI (fun _ => rfl) (fun _ _ => rfl)

theorem put (h : Stable I P) (hp : P p) (b) (hI : I fs) : I (fs.put p b) :=
  h fs _ hI (fun hr => hr) (fun q hq => by rw [get?_put, if_neg (fun heq : q = p => hq (heq ▸ hp))])

theorem del (h : Stable I P) (hp : P p) (hI : I fs) : I (fs.del p) :=
  h fs _ hI (fun hr => hr) (fun q hq => by rw [get?_del, if_neg (fun heq : q = p => hq (heq ▸ hp))])

end Stable

/-- Any step may go through, fail or be the last. -/
def AnyFate (_ : Fate) : Prop := True

section Keeps
variable {I : Files → Prop} {P : Path → Prop} {p : Path}

theorem keeps_pathExists (p) : Keeps exec AnyFate I (pathExists p) := fun _ h =>
  holds_pathExists h h

theorem keeps_elsewhere : Keeps exec AnyFate I elsewhere := fun _ h => holds_elsewhere h h (fun _ => h)

theorem keeps_readOk (p) : Keeps exec AnyFate I (readOk p) := fun _ h =>
  holds_readOk h h (fun _ => h)

theorem keeps_removeFile (hdel : ∀ fs, I fs → I (fs.del p)) : Keeps exec AnyFate I (removeFile p) :=
  fun fs h => holds_removeFile h (fun _ => ⟨hdel fs h, hdel fs h⟩) (fun _ => h)

theorem keeps_renameFile (hI : Stable I P) (ha : P a) (hb : P b) :
    Keeps exec AnyFate I (renameFile a b) := fun _ h =>
  holds_renameFile h (fun content _ => ⟨hI.put hb content (hI.del ha h), hI.put hb content (hI.del ha h)⟩)
    (fun _ => h)

theorem keeps_removeJournal (hdel : ∀ fs, I fs → I (fs.del p)) :
    Keeps exec AnyFate I (removeJournal p) :=
  (keeps_pathExists p).bind (fun _ => keeps_ite ((keeps_removeFile hdel).bind (fun _ => keeps_elsewhere))
    (keeps_pure ()))

section
variable (hI : Stable I P)
include hI

theorem keeps_installExportEntry (ht : P e.target)
    (hp : P e.pending) (hb : P e.backup) : Keeps exec AnyFate I (installExportEntry e) := by
  have hroom : Keeps exec AnyFate I (makeRoom e) :=
    (keeps_pathExists _).bind (fun _ => (keeps_pathExists _).bind (fun _ => keeps_ite
      (keeps_renameFile hI ht hb) ((keeps_pathExists _).bind (fun _ => keeps_ite
        (keeps_removeFile (fun _ h => hI.del ht h)) (keeps_pure ())))))
  exact (keeps_pathExists _).bind (fun _ => keeps_ite
    (hroom.bind (fun _ => (keeps_renameFile hI hp ht).bind (fun _ => keeps_elsewhere)))
    ((keeps_pathExists _).bind (fun _ => keeps_ite (keeps_throw _) (keeps_pure ()))))

theorem keeps_cleanupExportEntries (hb : ∀ e ∈ entries, P e.backup)
    (hdel : ∀ fs, I fs → I (fs.del journal)) :
    Keeps exec AnyFate I (cleanupExportEntries entries journal) := by
  refine Keeps.bind (keeps_forM (fun e he => ?_)) (fun _ => keeps_removeJournal hdel)
  exact (keeps_pathExists _).bind (fun _ => keeps_ite
    ((keeps_removeFile (fun _ h => hI.del (hb e he) h)).bind (fun _ => keeps_elsewhere)) (keeps_pure ()))

theorem keeps_finishExports (he : ∀ e ∈ entries, P e.target ∧ P e.pending ∧ P e.backup)
    (hdel : ∀ fs, I fs → I (fs.del journal)) :
    Keeps exec AnyFate I (finishExports entries n journal) := by
  refine (keeps_forM (fun e h => keeps_installExportEntry hI (he e h).1 (he e h).2.1 (he e h).2.2)).bind
    (fun _ => (keeps_forM (fun _ _ => ?_)).bind
      (fun _ => keeps_cleanupExportEntries hI (fun e h => (he e h).2.2) hdel))
  exact keeps_elsewhere.bind (fun _ => keeps_elsewhere.bind (fun _ => keeps_elsewhere))

theorem keeps_completeDelete (hp : P p) : Keeps exec AnyFate I (completeDelete p) := by
  have hremove : Keeps exec AnyFate I (removeMarkdown p) :=
    (keeps_pathExists p).bind (fun _ => keeps_ite (keeps_removeFile (fun _ h => hI.del hp h)) (keeps_pure ()))
  exact hremove.bind (fun _ => keeps_elsewhere.bind (fun _ => keeps_elsewhere.bind (fun _ =>
    keeps_elsewhere.bind (fun _ => keeps_elsewhere))))

theorem keeps_atomicWriteMarkdown (hp : P p) (htemp : P (markdownTemp p))
    (b) : Keeps exec AnyFate I (atomicWriteMarkdown p b) := by
  refine keeps_elsewhere.bind (fun _ => Keeps.bind (fun fs h => ?_) (fun _ => Keeps.bind (fun fs h => ?_)
    (fun _ => keeps_elsewhere.bind (fun _ => (keeps_renameFile hI htemp hp).bind (fun _ => keeps_elsewhere)))))
  · exact holds_truncateFile h (fun b => hI.put htemp b h) (hI.put htemp _ h)
      (fun _ => ⟨h, fun b => hI.put htemp b h⟩)
  · exact holds_writeAll h (fun b => hI.put htemp b h) (hI.put htemp _ h)
      (fun _ => ⟨h, fun b => hI.put htemp b h⟩)

end

theorem keeps_isChanged (r) : Keeps exec AnyFate I (isChanged r) :=
  (keeps_readOk _).bind (fun _ => keeps_pure _)

theorem keeps_exportMarkdown (hI : Stable I P) (hp : P r.path.file)
    (htemp : P (markdownTemp r.path.file)) : Keeps exec AnyFate I (exportMarkdown r) := by
  have hpublish : Keeps exec AnyFate I (publishMarkdown r) := (keeps_isChanged r).bind (fun _ =>
    keeps_ite (keeps_atomicWriteMarkdown hI hp htemp _) (keeps_pure ()))
  exact hpublish.bind (fun _ => keeps_elsewhere.bind (fun _ => keeps_elsewhere.bind (fun _ =>
    keeps_elsewhere)))

theorem keeps_createMarkdown (hI : Stable I P) (hp : P r.path.file)
    (htemp : P (markdownTemp r.path.file)) : Keeps exec AnyFate I (createMarkdown r) :=
  (keeps_pathExists _).bind (fun _ => keeps_ite (keeps_throw _)
    ((keeps_atomicWriteMarkdown hI hp htemp _).bind (fun _ => keeps_elsewhere.bind (fun _ =>
      keeps_elsewhere))))

section Lawful
variable [LawfulHost] {old : Files} {requests : List ExportRequest} {tid jid : Uuid}

omit [LawfulHost] in
theorem keeps_deleteMarkdown (hI : Stable I P) (hp : P path.file)
    (hpending : P (journalPending jid))
    (hjournal : ∀ fs b, I fs → fs.root = true → toVec (.delete path.file) = some b →
      I (fs.put (journalPath jid) b)) (hdel : ∀ fs, I fs → I (fs.del (journalPath jid))) :
    Keeps exec AnyFate I (deleteMarkdown path jid) := by
  refine keeps_elsewhere.bind (fun _ fs h => ?_)
  have hroot := hI.withRoot h
  have hput := fun b => hI.put hpending b hroot
  have hdone : ∀ b, toVec (.delete path.file) = some b →
      I (fs.journalled jid b) :=
    fun b hb => hjournal _ b (hI.del hpending hroot) rfl hb
  refine (holds_writeJournal (Q := fun journal s => journal = journalPath jid ∧ I s) h hroot hput
    (fun b hb _ => ⟨hdone b hb, rfl, hdone b hb⟩) (fun _ => hroot) (fun _ => hroot)
    (fun _ => ⟨h, hroot, hput, hdone⟩)).bind ?_
  rintro _ s ⟨rfl, hs⟩
  exact ((keeps_completeDelete hI hp).bind (fun _ => keeps_removeJournal hdel)).onError
    (fun _ => keeps_pure _) s hs

/-- What a transaction keeps that starts with the files `old`. -/
theorem holds_exportMarkdownTransaction_keeps (hI : Stable I P) (htemp : ∀ p, IsTemp p → P p)
    (hdocs : ∀ r ∈ requests, P r.path.file)
    (hjournal : ∀ l ⊆ requests, (l.map (fun r => r.path.file)).Nodup → ∀ (fs : Files) b,
      (∀ p, ¬IsTemp p → fs.get? p = old.get? p) → fs.root = true →
      toVec (.exports (l.map (fun r => r.entry tid))) = some b → I (fs.put (journalPath jid) b))
    (hdel : ∀ fs, I fs → I (fs.del (journalPath jid))) (h : I old) :
    HoldsE exec AnyFate I (exportMarkdownTransaction requests tid jid) (fun _ s => I s)
      (fun _ s => I s) old := by
  have hrests : ∀ s, Rests old old.get? s → I s := by
    intro s hs
    refine hI old s h (fun hr => ?_) (fun p hp => hs.files p (fun ht => hp (htemp p ht)))
    cases hroot : s.root with
    | true => rfl
    | false => rw [(hs.start hroot).1] at hr; cases hr
  have hentries : ∀ l ⊆ requests, ∀ e ∈ l.map (fun r => r.entry tid),
      P e.target ∧ P e.pending ∧ P e.backup := by
    intro l hl e he
    obtain ⟨r, hr, rfl⟩ := mem_map.mp he
    exact ⟨hdocs r (hl hr), htemp _ (isTemp_pending _ _), htemp _ (isTemp_backup _ _)⟩
  refine holds_exportMarkdownTransaction_of hrests (fun _ hs => hs) (fun s hs _ => hrests s hs)
    (fun s p _ hp hs => hI.del (htemp p hp) hs) ?_
  intro l s hl _ _ hw
  refine ⟨fun _ => hrests s hw.rests, fun b hb => ?_⟩
  have hdone : I (s.journalled jid b) := by
    refine hjournal l hl.1 hw.nodup _ b (fun p hp => ?_) rfl hb
    rw [get?_del, if_neg (fun heq : p = _ => hp (heq ▸ isTemp_journalPending jid))]
    exact hw.rests.files p hp
  exact ⟨fun _ => hdone, fun _ => ⟨hdone, keeps_finishExports hI (hentries l hl.1) hdel _ hdone⟩⟩

/-! ## Calls leave alone what they do not name -/

omit [LawfulHost] in
/-- What a program keeps from the files it starts with. -/
theorem perform_keeps {A : Type} {prog : VaultM A} {fs : Files}
    (h : HoldsE exec AnyFate I prog (fun _ s => I s) (fun _ s => I s) fs) (fates) :
    I (perform prog fates fs).2 := by
  obtain ⟨hok, herror, hstop⟩ := HoldsE.perform h trivial (fun fate (_ : fate ∈ fates) => trivial)
  cases hr : (perform prog fates fs).1 with
  | none => exact hstop hr
  | some r =>
    cases r with
    | ok a => exact hok a hr
    | error e => exact herror e hr

theorem get?_perform_of_not_mem {call : Call} {f : Path} (hf : IsDocument f)
    (hnot : ∀ p ∈ call.documents, f ≠ p ∧ f ≠ markdownTemp p) (fates fs) :
    (perform call.program fates fs).2.get? f = fs.get? f := by
  have hstable : Stable (fun s => s.get? f = fs.get? f) (fun p => p ≠ f) :=
    fun s s' hs _ hsame => (hsame f (fun h => h rfl)).trans hs
  have htemp : ∀ p, IsTemp p → p ≠ f := by
    rintro p hp rfl
    exact hf.notTemp hp
  have hjournal : ∀ jid, journalPath jid ≠ f := hf.ne_journalPath
  have hdel : ∀ (jid : Uuid) (s : Files), s.get? f = fs.get? f →
      (s.del (journalPath jid)).get? f = fs.get? f := fun jid s hs => hstable.del (hjournal jid) hs
  refine perform_keeps (I := fun s => s.get? f = fs.get? f) ?_ fates
  cases call with
  | exportTransaction requests tid jid =>
    have hdocs : ∀ r ∈ requests, r.path.file ≠ f :=
      fun r hr => (hnot _ (mem_map_of_mem hr)).1.symm
    refine holds_exportMarkdownTransaction_keeps hstable htemp hdocs ?_ (hdel jid) rfl
    intro l _ _ s b hs _ _
    exact hstable.put (hjournal jid) b (hs f hf.notTemp)
  | exportOne r =>
    obtain ⟨hne, htmp⟩ := hnot _ (mem_singleton_self _)
    exact keeps_exportMarkdown hstable hne.symm htmp.symm fs rfl
  | create r =>
    obtain ⟨hne, htmp⟩ := hnot _ (mem_singleton_self _)
    exact keeps_createMarkdown hstable hne.symm htmp.symm fs rfl
  | delete path jid =>
    obtain ⟨hne, -⟩ := hnot _ (mem_singleton_self _)
    exact keeps_deleteMarkdown hstable hne.symm (htemp _ (isTemp_journalPending jid))
      (fun s b hs _ _ => hstable.put (hjournal jid) b hs) (hdel jid) fs rfl

/-! ## Journals that are left behind -/

/-- A journal that a call of the history has written. -/
def Tidy (used : List Uuid) : DurableJournal → Prop
  | .exports entries => (entries.map ExportJournalEntry.pending).Nodup ∧
      ∀ e ∈ entries, ∃ t, ∃ tid ∈ used, IsDocument t ∧ e = exportJournalEntry t tid
  | .delete p => IsDocument p
  | .rename _ _ => False

/-- The journal that a file holds. -/
def journalAt (fs : Files) (p : Path) : Option DurableJournal := (fs.get? p).bind fromSlice

/-- Every journal can be read, and no two have a pending file in common. -/
structure Orderly (used : List Uuid) (fs : Files) : Prop where
  root : ∀ p, isJournal p = true → (fs.get? p).isSome → fs.root = true
  tidy : ∀ p, isJournal p = true → (fs.get? p).isSome → ∃ j, journalAt fs p = some j ∧ Tidy used j
  separate : ∀ p q es es', isJournal p = true → isJournal q = true → p ≠ q →
    journalAt fs p = some (.exports es) → journalAt fs q = some (.exports es') →
    ∀ e ∈ es, ∀ e' ∈ es', e.pending ≠ e'.pending

namespace Orderly
variable {used : List Uuid} {fs fs' : Files}

omit [LawfulHost] in
theorem mono (h : Orderly used fs) (tid) : Orderly (tid :: used) fs := by
  refine ⟨h.root, fun p hp hsome => ?_, h.separate⟩
  obtain ⟨j, hj, ht⟩ := h.tidy p hp hsome
  refine ⟨j, hj, ?_⟩
  cases j with
  | exports es =>
    refine ⟨ht.1, fun e he => ?_⟩
    obtain ⟨t, tid', hmem, hrest⟩ := ht.2 e he
    exact ⟨t, tid', mem_cons_of_mem _ hmem, hrest⟩
  | delete p => exact ht
  | rename a b => exact ht

omit [LawfulHost] in
theorem stable (used) : Stable (Orderly used) (fun p => isJournal p = false) := by
  intro fs fs' h hroot hsame
  have hget : ∀ p, isJournal p = true → fs'.get? p = fs.get? p :=
    fun p hp => hsame p (by simp [hp])
  have hat : ∀ p, isJournal p = true → journalAt fs' p = journalAt fs p :=
    fun p hp => by rw [journalAt, hget p hp, journalAt]
  refine ⟨fun p hp hsome => ?_, fun p hp hsome => ?_, fun p q es es' hp hq hne hes hes' => ?_⟩
  · rw [hget p hp] at hsome
    exact hroot (h.root p hp hsome)
  · rw [hget p hp] at hsome
    rw [hat p hp]
    exact h.tidy p hp hsome
  · rw [hat p hp] at hes
    rw [hat q hq] at hes'
    exact h.separate p q es es' hp hq hne hes hes'

omit [LawfulHost] in
theorem del (h : Orderly used fs) (p) : Orderly used (fs.del p) := by
  have hget : ∀ q, ((fs.del p).get? q).isSome → (fs.del p).get? q = fs.get? q := by
    intro q hsome
    rw [get?_del] at hsome ⊢
    split at hsome
    · cases hsome
    · next hne => rw [if_neg hne]
  have hat : ∀ q j, journalAt (fs.del p) q = some j → journalAt fs q = some j := by
    intro q j hj
    have hsome : ((fs.del p).get? q).isSome := by
      rw [journalAt] at hj
      cases hg : (fs.del p).get? q with
      | none => rw [hg] at hj; cases hj
      | some b => rfl
    rwa [journalAt, hget q hsome] at hj
  refine ⟨fun q hq hsome => ?_, fun q hq hsome => ?_, fun q q' es es' hq hq' hne hes hes' =>
    h.separate q q' es es' hq hq' hne (hat q _ hes) (hat q' _ hes')⟩
  · exact h.root q hq (hget q hsome ▸ hsome)
  · obtain ⟨j, hj, ht⟩ := h.tidy q hq (hget q hsome ▸ hsome)
    refine ⟨j, ?_, ht⟩
    rw [journalAt, hget q hsome]
    exact hj

omit [LawfulHost] in
/-- A journal is added that shares no pending file with the others. -/
theorem put (h : Orderly used fs) (hroot : fs.root = true) (hj : fromSlice b = some j)
    (ht : Tidy used j) (hsep : ∀ es, j = .exports es → ∀ q es', isJournal q = true →
      journalAt fs q = some (.exports es') → ∀ e ∈ es, ∀ e' ∈ es', e.pending ≠ e'.pending) :
    Orderly used (fs.put p b) := by
  have hat : journalAt (fs.put p b) p = some j := by
    rw [journalAt, get?_put, if_pos rfl]
    exact hj
  have hget : ∀ q, q ≠ p → (fs.put p b).get? q = fs.get? q := fun q hne => by
    rw [get?_put, if_neg hne]
  have hother : ∀ q, q ≠ p → journalAt (fs.put p b) q = journalAt fs q := fun q hne => by
    rw [journalAt, hget q hne, journalAt]
  refine ⟨fun _ _ _ => hroot, fun q hq hsome => ?_, fun q q' es es' hq hq' hne hes hes' => ?_⟩
  · by_cases hqp : q = p
    · exact ⟨j, hqp ▸ hat, ht⟩
    · rw [hget q hqp] at hsome
      rw [hother q hqp]
      exact h.tidy q hq hsome
  · by_cases hqp : q = p
    · rw [hqp, hat, some.injEq] at hes
      rw [hother q' (fun heq => hne (hqp.trans heq.symm))] at hes'
      exact hsep es hes q' es' hq' hes'
    · rw [hother q hqp] at hes
      by_cases hqp' : q' = p
      · rw [hqp', hat, some.injEq] at hes'
        exact fun e he e' he' heq => hsep es' hes' q es hq hes e' he' e he heq.symm
      · rw [hother q' hqp'] at hes'
        exact h.separate q q' es es' hq hq' hne hes hes'

theorem putExports (h : Orderly used fs) (hroot : fs.root = true) (htid : tid ∉ used)
    {l : List ExportRequest} (hnodup : (l.map (fun r => r.path.file)).Nodup)
    (hmd : ∀ r ∈ l, IsDocument r.path.file)
    (hb : toVec (.exports (l.map (fun r => r.entry tid))) = some b) :
    Orderly (tid :: used) (fs.put p b) := by
  refine (h.mono tid).put hroot (fromSlice_of_toVec hb) ⟨?_, fun e he => ?_⟩ ?_
  · rw [List.map_map]
    refine (pairwise_map.mp hnodup).map _ (fun r r' hne heq => hne (pending_inj heq).1)
  · obtain ⟨r, hr, rfl⟩ := mem_map.mp he
    exact ⟨r.path.file, tid, mem_cons_self, hmd r hr, rfl⟩
  · rintro es hes q es' hq hat e he e' he' heq
    obtain rfl := DurableJournal.exports.inj hes
    obtain ⟨r, hr, rfl⟩ := mem_map.mp he
    have hsome : (fs.get? q).isSome := by
      rw [journalAt] at hat
      cases hg : fs.get? q with
      | none => rw [hg] at hat; cases hat
      | some b => rfl
    obtain ⟨j, hj', ht⟩ := h.tidy q hq hsome
    obtain rfl := some.inj (hat.symm.trans hj')
    obtain ⟨t, tid', hmem, _, rfl⟩ := ht.2 e' he'
    exact htid ((pending_inj heq).2 ▸ hmem)

/-- The step of a history: a call leaves the journals in order. -/
theorem perform (h : Orderly used fs) {call : Call} (hids : ∀ tid ∈ call.transactionIds, tid ∉ used)
    (hmd : ∀ p ∈ call.documents, IsDocument p) (fates) :
    Orderly (call.transactionIds ++ used) (Vault.perform call.program fates fs).2 := by
  have hdoc : ∀ p, IsDocument p → isJournal p = false := fun p hp => hp.notJournal
  refine perform_keeps ?_ fates
  cases call with
  | exportTransaction requests tid jid =>
    have hmd' : ∀ r ∈ requests, IsDocument r.path.file :=
      fun r hr => hmd _ (mem_map_of_mem hr)
    refine holds_exportMarkdownTransaction_keeps (stable _) (fun p => not_isJournal_of_isTemp)
      (fun r hr => hdoc _ (hmd' r hr)) ?_ (fun s hs => hs.del _) (h.mono tid)
    intro l hl hnodup s b hs hroot hb
    have hs' : Orderly used s := stable used fs s h (fun _ => hroot) (fun p hp =>
      hs p (not_isTemp_of_isJournal (by simpa using hp)))
    exact hs'.putExports hroot (hids tid mem_cons_self) hnodup (fun r hr => hmd' r (hl hr)) hb
  | exportOne r =>
    exact keeps_exportMarkdown (stable _) (hdoc _ (hmd _ (mem_singleton_self _)))
      (not_isJournal_markdownTemp _) fs h
  | create r =>
    exact keeps_createMarkdown (stable _) (hdoc _ (hmd _ (mem_singleton_self _)))
      (not_isJournal_markdownTemp _) fs h
  | delete path jid =>
    have hpath := hmd _ (mem_singleton_self path.file)
    refine keeps_deleteMarkdown (stable _) (hdoc _ hpath)
      (not_isJournal_of_isTemp (isTemp_journalPending jid)) ?_ (fun s hs => hs.del _) fs h
    intro s b hs hroot hb
    exact hs.put hroot (fromSlice_of_toVec hb) hpath nofun

/-- The run of a history: from a vault without journals, they are in order after any calls. -/
theorem performAll (h : Orderly used fs) {calls : List (Call × List Fate)}
    (hids : (calls.flatMap (fun call => call.1.transactionIds)).Nodup)
    (hfresh : ∀ tid ∈ calls.flatMap (fun call => call.1.transactionIds), tid ∉ used)
    (hmd : ∀ call ∈ calls, ∀ p ∈ call.1.documents, IsDocument p) :
    ∃ used', Orderly used' (Vault.performAll calls fs) := by
  induction calls generalizing used fs with
  | nil => exact ⟨used, h⟩
  | cons call calls ih =>
    rw [flatMap_cons] at hids hfresh
    obtain ⟨_, hrest, hdisj⟩ := nodup_append.mp hids
    have hstep := h.perform (fun tid ht => hfresh tid (mem_append_left _ ht))
      (hmd call mem_cons_self) call.2
    refine ih hstep hrest (fun tid ht hmem => ?_) (fun c hc => hmd c (mem_cons_of_mem _ hc))
    rcases mem_append.mp hmem with hin | hin
    · exact hdisj tid hin tid ht rfl
    · exact hfresh tid (mem_append_right _ ht) hin

omit [LawfulHost] in
theorem of_none (h : ∀ p, isJournal p = true → fs.get? p = none) : Orderly [] fs := by
  refine ⟨fun p hp hsome => ?_, fun p hp hsome => ?_, fun p q es es' hp _ _ hes => ?_⟩
  · rw [h p hp] at hsome
    cases hsome
  · rw [h p hp] at hsome
    cases hsome
  · rw [journalAt, h p hp] at hes
    cases hes

end Orderly

end Lawful
end Keeps
end Host
end MdCrdt.Vault
