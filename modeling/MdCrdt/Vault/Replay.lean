import MdCrdt.Vault.History

/- What recovery makes of journals that failed calls have left behind (`filesync/session.rs`).

  Journals are carried out in the order of their file names, which are random, and they
  say nothing about when they were written. So a document that a later call has written
  is overwritten by the pending content of an earlier transaction that failed after its
  journal was in place, and is deleted by an earlier deletion. It keeps what the later
  call wrote exactly when nothing is left over for it, or the last that is puts that
  very content. -/
namespace MdCrdt.Vault
open Lib Prog List Option Host Files Content

section Host
variable [Host] {e : ExportJournalEntry Path}

/-! ## Effects -/

section Effects
variable {I : Files → Prop} {fs : Files}

theorem holds_completeDelete_effect (hI : I fs)
    (hmid : ∀ s, (∀ p, p ≠ d → s.get? p = fs.get? p) → I s) :
    HoldsE exec AnyFate I (completeDelete d) (fun _ s => I s ∧ s.get? d = none ∧
      ∀ p, p ≠ d → s.get? p = fs.get? p) (fun _ s => I s) fs := by
  have hdel : ∀ p, p ≠ d → (fs.del d).get? p = fs.get? p := fun p hp => by
    rw [get?_del, if_neg hp]
  refine HoldsE.bind (Q := fun _ s => I s ∧ s.get? d = none ∧ ∀ p, p ≠ d → s.get? p = fs.get? p) ?_ ?_
  · refine holds_pathExists_bind hI (holdsE_ite (fun _ => ?_) (fun hnone => ?_))
    · exact holds_removeFile hI (fun _ => ⟨hmid _ hdel, hmid _ hdel, by simp, hdel⟩) (fun _ => hI)
    · exact holdsE_pure ⟨hI, by simpa using hnone, fun _ _ => rfl⟩
  · rintro _ s hs
    refine holds_elsewhere_bind hs.1 (fun _ => hs.1) ?_
    refine holds_elsewhere_bind hs.1 (fun _ => hs.1) ?_
    refine holds_elsewhere_bind hs.1 (fun _ => hs.1) ?_
    exact holds_elsewhere hs.1 hs (fun _ => hs.1)

end Effects

/-! ## Calls that succeed -/

section Lawful
variable [LawfulHost] {fs : Files} {es : List (ExportJournalEntry Path)}

omit [LawfulHost] in
theorem holds_atomicWriteMarkdown_effect (p b) :
    HoldsE exec AnyFate (fun _ => True) (atomicWriteMarkdown p b) (fun _ s => s.get? p = some b)
      (fun _ _ => True) fs := by
  refine holds_elsewhere_bind trivial (fun _ => trivial) ?_
  refine (holds_truncateFile (Q := fun _ _ => True) trivial (fun _ => trivial) trivial
    (fun _ => ⟨trivial, fun _ => trivial⟩)).bind ?_
  rintro _ s -
  refine (holds_writeAll (Q := fun _ s => s.get? (markdownTemp p) = some b) trivial (fun _ => trivial)
    (by simp) (fun _ => ⟨trivial, fun _ => trivial⟩)).bind ?_
  rintro _ s hs
  refine holds_elsewhere_bind trivial (fun _ => trivial) ?_
  refine (holds_renameFile (Q := fun _ s => s.get? p = some b) trivial (fun content hc => ?_)
    (fun _ => trivial)).bind ?_
  · obtain rfl := some.inj (hs.symm.trans hc)
    exact ⟨trivial, by simp⟩
  · rintro _ s hs
    exact holds_elsewhere trivial hs (fun _ => trivial)

/-- Installing a batch puts the content of each of its requests in place. -/
theorem holds_installExportEntries_effect {l : List ExportRequest}
    (hnodup : (l.map (fun r => r.path.file)).Nodup) (hmd : ∀ r ∈ l, IsDocument r.path.file)
    (hpending : ∀ r ∈ l, fs.get? (r.entry tid).pending = some r.markdown) {r : ExportRequest}
    (hr : r ∈ l) :
    HoldsE exec AnyFate (fun _ => True) (installExportEntries (l.map (fun r => r.entry tid)))
      (fun _ s => s.get? r.path.file = some r.markdown) (fun _ _ => True) fs := by
  have hbatch := fun {a b : ExportRequest} (ha : a ∈ l) (hb : b ∈ l) =>
    inj_on_of_nodup_map hnodup ha hb
  -- the request is still to come or has its content
  refine (holdsE_forM_map (J := fun rest s => (rest ⊆ l ∧ rest.Nodup) ∧
    (∀ r' ∈ rest, s.get? (r'.entry tid).pending = some r'.markdown) ∧
    (r ∉ rest → s.get? r.path.file = some r.markdown))
    ⟨⟨List.Subset.refl l, hnodup.of_map _⟩, hpending, fun hnot => absurd hr hnot⟩ ?_).postOk
    (fun _ s hs => hs.2.2 not_mem_nil)
  rintro r₀ rest s ⟨⟨hsub, hnd⟩, hpend, hdone⟩
  have hr₀ := hsub mem_cons_self
  have ht₀ := (hmd r₀ hr₀).notTemp
  refine (holds_installExportEntry (apart_exportJournalEntry (hmd r₀ hr₀) tid) trivial
    (fun _ _ _ _ => trivial) (fun _ _ _ => trivial) (fun _ _ => trivial)).postOk ?_
  rintro _ s' ⟨_, haround, hinst⟩
  refine ⟨⟨fun r' hr' => hsub (mem_cons_of_mem _ hr'), (nodup_cons.mp hnd).2⟩,
    fun r' hr' => ?_, fun hnot => ?_⟩
  · have hne : r'.path.file ≠ r₀.path.file := fun heq =>
      (nodup_cons.mp hnd).1 (hbatch (hsub (mem_cons_of_mem _ hr')) hr₀ heq ▸ hr')
    rw [haround.pending ht₀ (fun heq => hne (pending_inj heq).1)]
    exact hpend r' (mem_cons_of_mem _ hr')
  · by_cases heq : r = r₀
    · have htarget : s'.get? r₀.path.file = (s.get? (r₀.entry tid).pending).or _ := hinst.target
      rw [heq, htarget, hpend r₀ mem_cons_self, some_or]
    · rw [haround.file (hmd r hr).notTemp (fun h => heq (hbatch hr hr₀ h))]
      exact hdone (by simp [heq, hnot])

theorem holds_exportMarkdownTransaction_effect
    (hmd : ∀ r ∈ requests, IsDocument r.path.file) {r : ExportRequest} (hr : r ∈ requests)
    (hc : r.Changes fs) :
    HoldsE exec AnyFate (fun _ => True) (exportMarkdownTransaction requests tid jid)
      (fun _ s => s.get? r.path.file = some r.markdown) (fun _ _ => True) fs := by
  refine holds_exportMarkdownTransaction_of (Y := fun _ => True) (fun _ _ => trivial)
    (fun _ _ => trivial) (fun _ _ _ => trivial) (fun _ _ _ _ _ => trivial) ?_
  intro l s hl _ _ hw
  have hrl : r ∈ l := hl.2 (mem_filter.mpr ⟨hr, decide_eq_true hc⟩)
  refine ⟨fun hnil => ?_, fun b _ => ⟨fun _ => trivial, fun _ => ⟨trivial, ?_⟩⟩⟩
  · rw [hnil] at hrl
    cases hrl
  have hpending := fun r (hr : r ∈ l) => hw.pending_journalled jid b hr
  have hmd' : ∀ r ∈ l, IsDocument r.path.file := fun r hr => hmd r (hl.1 hr)
  refine (holds_installExportEntries_effect hw.nodup hmd' hpending hrl).bind ?_
  rintro _ s hs
  -- nothing after this touches a document
  have hstable : Stable (fun s => s.get? r.path.file = some r.markdown) (fun p => p ≠ r.path.file) :=
    fun _ _ hs _ hsame => (hsame _ (fun h => h rfl)).trans hs
  have htemp := (hmd r hr).notTemp
  have hjournal : journalPath jid ≠ r.path.file := (hmd r hr).ne_journalPath jid
  refine HoldsE.mono (Keeps.bind (keeps_forM (fun _ _ => ?_)) (fun _ => keeps_cleanupExportEntries hstable
    (fun e he => ?_) (fun _ hs => hstable.del hjournal hs)) s hs) (fun _ _ => trivial) (fun _ _ hs => hs)
    (fun _ _ _ => trivial)
  · exact keeps_elsewhere.bind (fun _ => keeps_elsewhere.bind (fun _ => keeps_elsewhere))
  · obtain ⟨r', _, rfl⟩ := mem_map.mp he
    exact fun heq => htemp (heq ▸ isTemp_backup _ _)

omit [LawfulHost] in
theorem mem_documents_of_writes {call : Call}
    (h : call.Writes fs p content) : p ∈ call.documents := by
  cases call with
  | exportTransaction requests tid jid =>
    obtain ⟨r, hr, rfl, _⟩ := h
    exact mem_map_of_mem hr
  | exportOne r | create r => exact h.1 ▸ mem_singleton_self _
  | delete path jid => exact h.elim

/-- A call that returns without an error has written what it was given. -/
theorem get?_perform_of_writes {call : Call} (hmd : ∀ p ∈ call.documents, IsDocument p)
    (hok : (perform call.program fates fs).1 = some (.ok ())) (hw : call.Writes fs p content) :
    (perform call.program fates fs).2.get? p = some content := by
  suffices h : HoldsE exec AnyFate (fun _ => True) call.program (fun _ s => s.get? p = some content)
      (fun _ _ => True) fs from
    (HoldsE.perform h trivial (fun fate (_ : fate ∈ fates) => trivial)).1 () hok
  cases call with
  | exportTransaction requests tid jid =>
    obtain ⟨r, hr, rfl, rfl, hc⟩ := hw
    exact holds_exportMarkdownTransaction_effect (fun r hr => hmd _ (mem_map_of_mem hr)) hr hc
  | exportOne r =>
    obtain ⟨rfl, rfl, hc⟩ := hw
    refine HoldsE.bind (Q := fun _ s => s.get? r.path.file = some r.markdown) ?_ (fun _ s hs => ?_)
    · refine HoldsE.bind (Q := fun b _ => b = true) ?_ (fun b s hb => ?_)
      · refine (holds_readOk (Q := fun disk _ => disk ≠ some r.markdown) trivial hc
          (fun _ => nofun)).bind ?_
        intro disk s hdisk
        exact holdsE_pure (decide_eq_true hdisk)
      · rw [if_pos hb]
        exact holds_atomicWriteMarkdown_effect _ _
    · refine holds_elsewhere_bind trivial (fun _ => trivial) ?_
      refine holds_elsewhere_bind trivial (fun _ => trivial) ?_
      exact holds_elsewhere trivial hs (fun _ => trivial)
  | create r =>
    obtain ⟨rfl, rfl⟩ := hw
    refine holds_pathExists_bind trivial (holdsE_ite (fun _ => holdsE_throw trivial) (fun _ => ?_))
    refine (holds_atomicWriteMarkdown_effect _ _).bind ?_
    intro _ s hs
    refine holds_elsewhere_bind trivial (fun _ => trivial) ?_
    exact holds_elsewhere trivial hs (fun _ => trivial)
  | delete path jid => exact hw.elim

/-! ## Replay -/

/-- What an entry puts in the place of `f`: its pending content, if there is one. -/
def putOf (fs : Files) (f : Path) (e : ExportJournalEntry Path) : Option (Option Bytes) :=
  if e.target = f then (fs.get? e.pending).map some else none

omit [LawfulHost] in
theorem putOf_self (fs t tid) :
    putOf fs t (exportJournalEntry t tid) = (fs.get? (exportJournalEntry t tid).pending).map some :=
  if_pos rfl

/-- What a journal puts in the place of `f`; nothing, where it deletes the document. -/
def journalPuts (fs : Files) (f : Path) (p : Path) : List (Option Bytes) :=
  match journalAt fs p with
  | some (.exports entries) => entries.filterMap (putOf fs f)
  | some (.delete d) => if d = f then [none] else []
  | some (.rename _ _) | none => []

omit [LawfulHost] in
theorem journalPuts_exports
    (h : journalAt fs p = some (.exports es)) : journalPuts fs f p = es.filterMap (putOf fs f) := by
  rw [journalPuts, h]

omit [LawfulHost] in
theorem journalPuts_delete (h : journalAt fs p = some (.delete d)) :
    journalPuts fs f p = if d = f then [none] else [] := by
  rw [journalPuts, h]

/-- What the journals of a vault put in the place of `f`, in the order of recovery. -/
def leftover (fs : Files) (f : Path) : List (Option Bytes) :=
  (fs.map.keys.filter isJournal).flatMap (journalPuts fs f)

/-- In front of the rest of the journals: these and their pending files are as they were, and what
    they will make of `f` is settled. -/
structure Replaying (start : Files) (f : Path) (final : Option Bytes) (rest : List Path)
    (s : Files) : Prop where
  journals : ∀ p ∈ rest, s.get? p = start.get? p
  pendings : ∀ p ∈ rest, ∀ es, journalAt start p = some (.exports es) → ∀ e ∈ es,
    s.get? e.pending = start.get? e.pending
  value : ((rest.flatMap (journalPuts start f)).getLast?).getD (s.get? f) = final

section Replay
variable {start s : Files} {f p : Path} {final : Option Bytes} {rest : List Path}
  {used : List Uuid}

/-- As long as nothing is left over for `f` it stays as it is. -/
def Spared (start : Files) (f : Path) (s : Files) : Prop :=
  leftover start f = [] → s.get? f = start.get? f

omit [LawfulHost] in
theorem Spared.of_same (h : Spared start f s) (heq : s'.get? f = s.get? f) :
    Spared start f s' := fun hl => heq.trans (h hl)

omit [LawfulHost] in
theorem leftover_ne_nil (hp : p ∈ start.map.keys.filter isJournal) (h : journalPuts start f p ≠ []) :
    leftover start f ≠ [] :=
  fun hl => h (flatMap_eq_nil_iff.mp hl p hp)

/-- The path is no journal, no pending file and not `f`: recovery does not ask for it again. -/
theorem replaying_stable (hf : IsDocument f) (horder : Orderly used start)
    (hrest : ∀ q ∈ rest, isJournal q = true ∧ (start.get? q).isSome) (hp : p ∉ rest)
    (hj : isJournal p = true) : Stable (fun s => Replaying start f final rest s ∧ Spared start f s)
      (fun q => q = p ∨ ∃ t tid, q = (exportJournalEntry t tid).backup) := by
  rintro s s' ⟨h, hspared⟩ _ hsame
  have hfile : s'.get? f = s.get? f := by
    refine hsame f ?_
    rintro (rfl | ⟨t, tid, rfl⟩)
    · rw [hf.notJournal] at hj
      cases hj
    · exact hf.notTemp (isTemp_backup _ _)
  refine ⟨⟨fun q hq => ?_, fun q hq es hes e he => ?_, ?_⟩, hspared.of_same hfile⟩
  · rw [hsame q, h.journals q hq]
    rintro (rfl | ⟨t, tid, heq⟩)
    · exact hp hq
    · exact not_isTemp_of_isJournal (hrest q hq).1 (heq ▸ isTemp_backup _ _)
  · obtain ⟨j, hj', ht⟩ := horder.tidy q (hrest q hq).1 (hrest q hq).2
    obtain rfl := some.inj (hes.symm.trans hj')
    obtain ⟨t, tid, _, _, rfl⟩ := ht.2 e he
    rw [hsame, h.pendings q hq es hes _ he]
    rintro (rfl | ⟨t', tid', heq⟩)
    · exact not_isTemp_of_isJournal hj (isTemp_pending _ _)
    · exact pending_ne_backup _ _ _ _ heq
  · rw [hfile]
    exact h.value

omit [LawfulHost] in
theorem mem_journals (hq : q ∈ start.map.keys.filter isJournal) :
    isJournal q = true ∧ (start.get? q).isSome := by
  obtain ⟨hkey, hj⟩ := mem_filter.mp hq
  exact ⟨hj, isSome_iff_exists.mpr (mem_keys.mp hkey)⟩

omit [Host] [LawfulHost] in
theorem getLast?_cons_getD {A : Type} (a b) (l : List A) :
    (a :: l).getLast?.getD b = l.getLast?.getD a := by
  rw [getLast?_cons, getD_some]

/-- In front of the rest of the entries of a journal. -/
structure ReplayingEntries (start : Files) (f : Path) (final : Option Bytes) (rest : List Path)
    (entries : List (ExportJournalEntry Path)) (s : Files) : Prop where
  journals : ∀ p ∈ rest, s.get? p = start.get? p
  pendings : ∀ p ∈ rest, ∀ es, journalAt start p = some (.exports es) → ∀ e ∈ es,
    s.get? e.pending = start.get? e.pending
  own : ∀ e ∈ entries, s.get? e.pending = start.get? e.pending
  value : ((entries.filterMap (putOf start f) ++ rest.flatMap (journalPuts start f)).getLast?).getD
    (s.get? f) = final

/-- The entry is one that a transaction has for a document. -/
def Named (e : ExportJournalEntry Path) : Prop :=
  ∃ t tid, IsDocument t ∧ e = exportJournalEntry t tid

/-- One entry: what it puts is what it was to put. -/
theorem ReplayingEntries.next
    (h : ReplayingEntries start f final rest (e :: entries) s) (hf : IsDocument f)
    (ht : IsDocument t) (he : e = exportJournalEntry t tid)
    (haround : Around e s s') (hinst : Installs e s s') (hjournals : ∀ q ∈ rest, isJournal q = true)
    (hothers : ∀ q ∈ rest, ∀ es, journalAt start q = some (.exports es) → ∀ e' ∈ es,
      e.pending ≠ e'.pending ∧ Named e')
    (hown : ∀ e' ∈ entries, e.pending ≠ e'.pending ∧ Named e') :
    ReplayingEntries start f final rest entries s' := by
  subst he
  have htemp := ht.notTemp
  have hpending : ∀ e', (exportJournalEntry t tid).pending ≠ e'.pending →
      Named e' → s'.get? e'.pending = s.get? e'.pending := by
    rintro _ hne ⟨t', tid', _, rfl⟩; exact haround.pending htemp (Ne.symm hne)
  refine ⟨fun q hq => ?_, fun q hq es hes e' he' => ?_, fun e' he' => ?_, ?_⟩
  · have hj := hjournals q hq
    rw [haround.file (not_isTemp_of_isJournal hj), h.journals q hq]
    rintro rfl
    rw [ht.notJournal] at hj
    cases hj
  · rw [hpending e' (hothers q hq es hes e' he').1 (hothers q hq es hes e' he').2]
    exact h.pendings q hq es hes e' he'
  · rw [hpending e' (hown e' he').1 (hown e' he').2]
    exact h.own e' (mem_cons_of_mem _ he')
  · rw [← h.value]
    have hown := h.own _ mem_cons_self
    by_cases hft : t = f
    · subst hft
      have htarget : s'.get? t = (s.get? (exportJournalEntry t tid).pending).or (s.get? t) := hinst.target
      rw [htarget, hown]
      cases hp : start.get? (exportJournalEntry t tid).pending with
      | none =>
        have hput : putOf start t (exportJournalEntry t tid) = none := by rw [putOf_self, hp]; rfl
        rw [filterMap_cons_none hput, none_or]
      | some b =>
        have hput : putOf start t (exportJournalEntry t tid) = some (some b) := by rw [putOf_self, hp]; rfl
        rw [filterMap_cons_some hput, cons_append, getLast?_cons_getD, some_or]
    · have hput : putOf start f (exportJournalEntry t tid) = none := if_neg hft
      rw [filterMap_cons_none hput, haround.file hf.notTemp (Ne.symm hft)]

omit [LawfulHost] in
/-- Everything that a journal of the vault names is as its call has named it. -/
theorem Orderly.entry (horder : Orderly used start)
    (hq : q ∈ start.map.keys.filter isJournal) (hes : journalAt start q = some (.exports es)) :
    (es.map ExportJournalEntry.pending).Nodup ∧
      ∀ e ∈ es, Named e := by
  obtain ⟨j, hj, ht⟩ := horder.tidy q (mem_journals hq).1 (mem_journals hq).2
  obtain rfl := some.inj (hes.symm.trans hj)
  refine ⟨ht.1, fun e he => ?_⟩
  obtain ⟨t, tid, _, hmd, heq⟩ := ht.2 e he
  exact ⟨t, tid, hmd, heq⟩

section
variable (hf : IsDocument f)
include hf

section
variable (horder : Orderly used start)
include horder

/-- Installing the entries of a journal that is in order. -/
theorem holds_installExportEntries_replay
    (hmem : ∀ q ∈ p :: rest, q ∈ start.map.keys.filter isJournal) (hnodup : (p :: rest).Nodup) (hes : journalAt start p = some (.exports es))
    (h : Replaying start f final (p :: rest) s) (hspared : Spared start f s) :
    HoldsE exec AnyFate (Spared start f) (installExportEntries es)
      (fun _ s => Replaying start f final rest s ∧ Spared start f s) (fun _ s => Spared start f s) s := by
  have hp := hmem p mem_cons_self
  obtain ⟨hpend, hentry⟩ := horder.entry hp hes
  have hstart : ReplayingEntries start f final rest es s := by
    refine ⟨fun q hq => h.journals q (mem_cons_of_mem _ hq),
      fun q hq => h.pendings q (mem_cons_of_mem _ hq), h.pendings p mem_cons_self es hes, ?_⟩
    rw [← h.value, flatMap_cons, journalPuts_exports hes]
  refine (holdsE_forM (J := fun entries s => (entries ⊆ es ∧
    (entries.map ExportJournalEntry.pending).Nodup) ∧ ReplayingEntries start f final rest entries s ∧
    Spared start f s) ⟨⟨List.Subset.refl _, hpend⟩, hstart, hspared⟩ ?_).postOk ?_
  · rintro e entries s ⟨⟨hsub, hnd⟩, hr, hsp⟩
    have he := hsub mem_cons_self
    obtain ⟨t, tid, ht, rfl⟩ := hentry e he
    rw [map_cons, nodup_cons] at hnd
    refine (holds_installExportEntry (apart_exportJournalEntry ht tid) hsp ?_ (fun _ _ hs => hs)
      (fun _ _ => hsp)).postOk ?_
    · -- where there is something to install, it is not for `f` or something is left over for `f`
      intro hsome s' haround _
      by_cases hft : t = f
      · subst hft
        refine fun hl => absurd hl (leftover_ne_nil hp ?_)
        rw [hr.own _ mem_cons_self] at hsome
        obtain ⟨b, hb⟩ := isSome_iff_exists.mp hsome
        have hput : some b ∈ journalPuts start t p := by
          rw [journalPuts_exports hes]
          exact mem_filterMap.mpr ⟨_, he, by rw [putOf_self, hb]; rfl⟩
        exact ne_nil_of_mem hput
      · exact hsp.of_same (haround.file hf.notTemp (Ne.symm hft))
    · rintro _ s' ⟨hsp', haround, hinst⟩
      refine ⟨⟨fun e' he' => hsub (mem_cons_of_mem _ he'), hnd.2⟩, ?_, hsp'⟩
      refine hr.next hf ht rfl haround hinst (fun q hq => (mem_journals (hmem q (mem_cons_of_mem _ hq))).1)
        (fun q hq es' hes' e' he' => ⟨?_, ?_⟩) (fun e' he' => ⟨fun heq => ?_, ?_⟩)
      · exact horder.separate p q es es' (mem_journals hp).1
          (mem_journals (hmem q (mem_cons_of_mem _ hq))).1
          (fun heq => (nodup_cons.mp hnodup).1 (heq ▸ hq)) hes hes' _ he _ he'
      · exact (horder.entry (hmem q (mem_cons_of_mem _ hq)) hes').2 e' he'
      · exact hnd.1 (heq ▸ mem_map_of_mem he')
      · exact hentry e' (hsub (mem_cons_of_mem _ he'))
  · rintro _ s ⟨_, hr, hsp⟩
    exact ⟨⟨hr.journals, hr.pendings, hr.value⟩, hsp⟩

theorem holds_recoverJournal_replay
    (hmem : ∀ q ∈ p :: rest, q ∈ start.map.keys.filter isJournal) (hnodup : (p :: rest).Nodup)
    (h : Replaying start f final (p :: rest) s) (hspared : Spared start f s) :
    HoldsE exec AnyFate (Spared start f) (recoverJournal p)
      (fun _ s => Replaying start f final rest s ∧ Spared start f s) (fun _ s => Spared start f s) s := by
  have hp := hmem p mem_cons_self
  have hstable : Stable (fun s => Replaying start f final rest s ∧ Spared start f s)
      (fun q => q = p ∨ ∃ t tid, q = (exportJournalEntry t tid).backup) :=
    replaying_stable hf horder (fun q hq => mem_journals (hmem q (mem_cons_of_mem _ hq)))
      (nodup_cons.mp hnodup).1 (mem_journals hp).1
  obtain ⟨j, hj, ht⟩ := horder.tidy p (mem_journals hp).1 (mem_journals hp).2
  refine (holds_readFile (Q := fun b s' => s = s' ∧ fromSlice b = some j) hspared (fun b hb => ?_)
    (fun _ => hspared)).bind ?_
  · rw [h.journals p mem_cons_self] at hb
    rw [journalAt, hb] at hj
    exact ⟨rfl, hj⟩
  rintro b _ ⟨rfl, hb⟩
  simp only [hb]
  cases j with
  | exports es =>
    refine (holds_installExportEntries_replay hf horder hmem hnodup hj h hspared).bind ?_
    rintro _ s hs
    refine HoldsE.bind (Q := fun _ s' => s' = s) (holds_forM_still rfl (fun _ => holds_elsewhere hs.2 rfl
      (fun _ => hs.2))) ?_
    rintro _ _ rfl
    refine HoldsE.mono (keeps_cleanupExportEntries hstable (fun e he => ?_)
      (fun _ hs => hstable.del (.inl rfl) hs) _ hs) (fun _ hs => hs.2) (fun _ _ hs => hs)
      (fun _ _ hs => hs.2)
    obtain ⟨t, tid, _, rfl⟩ := (horder.entry hp hj).2 e he
    exact .inr ⟨t, tid, rfl⟩
  | delete d =>
    have hd : IsDocument d := ht
    refine (holds_completeDelete_effect hspared (fun s' hsame => ?_)).bind ?_
    · by_cases hdf : d = f
      · refine fun hl => absurd hl (leftover_ne_nil hp ?_)
        rw [journalPuts_delete hj, if_pos hdf]
        exact cons_ne_nil _ _
      · exact hspared.of_same (hsame f (Ne.symm hdf))
    · rintro _ s' ⟨hsp, hnone, hsame⟩
      refine HoldsE.mono (keeps_removeJournal
        (I := fun s => Replaying start f final rest s ∧ Spared start f s)
        (fun _ hs => hstable.del (.inl rfl) hs) s' ⟨?_, hsp⟩)
        (fun _ hs => hs.2) (fun _ _ hs => hs) (fun _ _ hs => hs.2)
      refine ⟨fun q hq => ?_, fun q hq es hes e he => ?_, ?_⟩
      · rw [hsame q, h.journals q (mem_cons_of_mem _ hq)]
        rintro rfl
        have hq' := (mem_journals (hmem q (mem_cons_of_mem _ hq))).1
        rw [hd.notJournal] at hq'
        cases hq'
      · rw [hsame, h.pendings q (mem_cons_of_mem _ hq) es hes e he]
        rintro rfl
        obtain ⟨t, tid, _, rfl⟩ := (horder.entry (hmem q (mem_cons_of_mem _ hq)) hes).2 e he
        exact hd.notTemp (isTemp_pending _ _)
      · rw [← h.value, flatMap_cons, journalPuts_delete hj]
        by_cases hdf : d = f
        · rw [if_pos hdf, singleton_append, getLast?_cons_getD, ← hdf, hnone]
        · rw [if_neg hdf, nil_append, hsame f (Ne.symm hdf)]
  | rename a b => exact ht.elim

/-- What recovery makes of a document: the last that is left over for it, if anything is. -/
theorem holds_recoverPendingTransactions_replay : HoldsE exec AnyFate (Spared start f) recoverPendingTransactions
      (fun _ s => s.get? f = (leftover start f).getLast?.getD (start.get? f))
      (fun _ s => Spared start f s) start := by
  have hspared : Spared start f start := fun _ => rfl
  refine (holds_rootExists (Q := fun b s => start = s ∧ b = start.root) hspared ⟨rfl, rfl⟩).bind ?_
  rintro _ _ ⟨rfl, rfl⟩
  refine holdsE_ite (fun _ => ?_) (fun hroot => holdsE_pure ?_)
  · refine (holds_listJournals (Q := fun l s => start = s ∧ l = start.map.keys.filter isJournal) hspared
      ⟨rfl, rfl⟩ (fun _ => hspared)).bind ?_
    rintro _ _ ⟨rfl, rfl⟩
    have hnodup : (start.map.keys.filter isJournal).Nodup := (SortedMap.nodup_keys start.sorted).filter _
    refine (holdsE_forM (J := fun rest s => (rest ⊆ start.map.keys.filter isJournal ∧ rest.Nodup) ∧
      Replaying start f ((leftover start f).getLast?.getD (start.get? f)) rest s ∧ Spared start f s)
      ⟨⟨List.Subset.refl _, hnodup⟩, ⟨fun _ _ => rfl, fun _ _ _ _ _ _ => rfl, rfl⟩, hspared⟩ ?_).bind ?_
    · rintro p rest s ⟨⟨hsub, hnd⟩, hr, hsp⟩
      refine (holds_recoverJournal_replay hf horder (fun q hq => hsub hq) hnd hr hsp).postOk ?_
      exact fun _ _ hs => ⟨⟨fun q hq => hsub (mem_cons_of_mem _ hq), (nodup_cons.mp hnd).2⟩, hs⟩
    · rintro _ s ⟨_, hr, hsp⟩
      have hvalue : s.get? f = (leftover start f).getLast?.getD (start.get? f) := hr.value
      have hstable : Stable (fun s' => s'.get? f = s.get? f) (fun p => p ≠ f) :=
        fun _ _ hs _ hsame => (hsame f (fun h => h rfl)).trans hs
      refine HoldsE.mono (I := fun s' => s'.get? f = s.get? f) (Q := fun _ s' => s'.get? f = s.get? f)
        (X := fun _ s' => s'.get? f = s.get? f) ?_ (fun _ hs => hsp.of_same hs) (fun _ _ hs => hs.trans hvalue) (fun _ _ hs => hsp.of_same hs)
      refine (holds_listOrphans (I := fun s' => s'.get? f = s.get? f)
        (Q := fun l s' => s = s' ∧ ∀ p ∈ l, IsTemp p) rfl
        ⟨rfl, fun p hp => (mem_filter.mp hp).2⟩).bind ?_
      rintro l _ ⟨rfl, htemp⟩
      refine keeps_forM (fun p hp => (keeps_removeFile (fun _ hs => hstable.del ?_ hs)).tolerate) s rfl
      rintro rfl
      exact hf.notTemp (htemp p hp)
  · have hnone : start.map.keys.filter isJournal = [] := by
      refine filter_eq_nil_iff.mpr (fun p hp hj => hroot ?_)
      exact horder.root p hj (isSome_iff_exists.mpr (mem_keys.mp hp))
    rw [leftover, hnone]
    rfl

end

end

end Replay

/-! ## Later work -/

theorem get?_performAll_of_not_mem (hf : IsDocument f)
    (hnot : ∀ call ∈ calls, ∀ p ∈ call.1.documents, f ≠ p ∧ f ≠ markdownTemp p) (fs) :
    (performAll calls fs).get? f = fs.get? f := by
  induction calls generalizing fs with
  | nil => rfl
  | cons call calls ih =>
    rw [performAll, foldl_cons, ← performAll, ih (fun c hc => hnot c (mem_cons_of_mem _ hc))]
    exact get?_perform_of_not_mem hf (hnot call mem_cons_self) call.2 fs

/-- A history of calls with any failures, in which a call succeeds and writes `content` into a
    document that no later call names: if the journals that are left have nothing for the document,
    it keeps that content however recovery ends; and a recovery that completes leaves it with that
    content if and only if nothing is left over for it or the last that is puts that content. -/
theorem recovery_and_later_work (start : Files) (before after : List (Call × List Fate)) (call : Call)
    (fates : List Fate) (f : Path) (content : Bytes)
    (hstart : ∀ p, isJournal p = true → start.get? p = none)
    (hids : ((before ++ (call, fates) :: after).flatMap (fun c => c.1.transactionIds)).Nodup)
    (hmd : ∀ c ∈ before ++ (call, fates) :: after, ∀ p ∈ c.1.documents, IsDocument p)
    (hok : (perform call.program fates (performAll before start)).1 = some (.ok ()))
    (hwrites : call.Writes (performAll before start) f content)
    (hafter : ∀ later ∈ after, ∀ p ∈ later.1.documents, f ≠ p ∧ f ≠ markdownTemp p) :
    let fs := performAll (before ++ (call, fates) :: after) start
    (leftover fs f = [] → ∀ fates',
      (perform recoverPendingTransactions fates' fs).2.get? f = some content) ∧
    ∀ fates', (perform recoverPendingTransactions fates' fs).1 = some (.ok ()) →
      ((perform recoverPendingTransactions fates' fs).2.get? f = some content ↔
        (leftover fs f).getLast?.getD (some content) = some content) := by
  intro fs
  have hcall : ∀ p ∈ call.documents, IsDocument p := hmd (call, fates) (by simp)
  have hf : IsDocument f := hcall f (mem_documents_of_writes hwrites)
  have hfs : fs.get? f = some content := by
    have hlast : fs = performAll after (perform call.program fates (performAll before start)).2 := by
      simp only [fs, performAll, foldl_append, foldl_cons]
    rw [hlast, get?_performAll_of_not_mem hf hafter]
    exact get?_perform_of_writes hcall hok hwrites
  obtain ⟨used, horder⟩ := (Orderly.of_none hstart).performAll hids (fun _ _ => not_mem_nil) hmd
  have h := holds_recoverPendingTransactions_replay hf horder
  refine ⟨fun hnone fates' => ?_, fun fates' hdone => ?_⟩
  · have hspared : HoldsE exec AnyFate (Spared fs f) recoverPendingTransactions
        (fun _ s => Spared fs f s) (fun _ s => Spared fs f s) fs :=
      h.post (fun _ s hs hl => by rw [hs, hl]; rfl) (fun _ _ hs => hs)
    rw [perform_keeps hspared fates' hnone, hfs]
  · have hvalue := (HoldsE.perform h trivial (fun fate (_ : fate ∈ fates') => trivial)).1 () hdone
    rw [hvalue, ← hfs]

end Lawful
end Host

/-! ## A note that is written again -/

attribute [local instance] strokeHost strokeHost_lawful

/-- An export transaction of `a.md` whose journal is in place when a step fails: the one that was to
    put the old content aside. -/
def failedExport : Call × List Fate :=
  (.exportTransaction [⟨⟨false, noteA⟩, text "first".toList⟩] (0 : Nat) (1 : Nat),
    List.replicate 20 .ok ++ [.fail none])

/-- A single export of `a.md` that goes through. -/
def laterExport : Call := .exportOne ⟨⟨false, noteA⟩, text "second".toList⟩

/-- Recovery puts the content of the transaction that failed over the later one. -/
theorem later_export_undone : let start := vaultOf [(noteA, .text "old".toList)]
    let fs := performAll [failedExport, (laterExport, [])] start
    (perform laterExport.program [] (performAll [failedExport] start)).1 = some (.ok ()) ∧
      fs.get? noteA = some (text "second".toList) ∧
      (perform recoverPendingTransactions [] fs).1 = some (.ok ()) ∧
      (perform recoverPendingTransactions [] fs).2.get? noteA = some (text "first".toList) :=
  ⟨rfl, by decide, rfl, by decide⟩

/-- A single export of `b.md`. -/
def otherExport : Call := .exportOne ⟨⟨false, noteB⟩, text "second".toList⟩

/-- The failed transaction has nothing for `b.md`, which keeps its content whatever becomes of the
    recovery. -/
theorem other_note_kept : let fs := performAll [failedExport, (otherExport, [])] twoNotes
    leftover fs noteB = [] ∧ ∀ fates,
      (perform recoverPendingTransactions fates fs).2.get? noteB = some (text "second".toList) := by
  have hnone : leftover (performAll [failedExport, (otherExport, [])] twoNotes) noteB = [] := by decide
  exact ⟨hnone, (recovery_and_later_work twoNotes [failedExport] [] otherExport [] noteB
    (text "second".toList) twoNotes_journals (nodup_singleton _) (by decide) rfl
    ⟨rfl, rfl, by decide⟩ nofun).1 hnone⟩

end MdCrdt.Vault
