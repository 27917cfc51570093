import MdCrdt.Vault.Commit

/- Export transactions are atomic across crashes (`filesync/session.rs`).

  A transaction may be stopped between any two steps, and so may every recovery after
  it. The first recovery that is not stopped finds the vault in one of the states of
  the transaction and completes it: all files have their old contents or all have the
  new ones, and nothing of the transaction is left.

  A batch that asks for one file under two paths (`a.md` and `./a.md`) passes the check
  for duplicates. If one of the requests has what is on disk and the other has not, only
  the other is carried out, and the first document does not have the content that was
  asked for. -/
namespace MdCrdt.Vault
open Lib Prog List Option Host Files ExportRequest Content

section Lawful
variable [Host] [LawfulHost] {old fs : Files} {requests changes done : List ExportRequest}
variable {base : Path → Option Bytes}
  {tid jid : Uuid} {allowed : Fate → Prop} {I : Files → Prop} {X : VaultError → Files → Prop}

/-! ## The transaction -/

/-- The requests of a batch that ask for a change. -/
def changesOf (old : Files) (requests : List ExportRequest) : List ExportRequest :=
  requests.filter (fun r => r.Changes old)

omit [LawfulHost] in
/-- Preparing looks at files only. Where a file cannot be read its document counts as changed. -/
theorem holds_prepareExports (hI : I old) (seen requests) :
    HoldsE exec allowed I (prepareExports seen requests)
      (fun l s => s = old ∧ (l ⊆ requests ∧ changesOf old requests ⊆ l) ∧
        (¬MayFail allowed → l = changesOf old requests) ∧
        (requests.map path).Nodup ∧ ∀ r ∈ requests, r.path ∉ seen)
      (fun _ s => s = old ∧ (¬MayFail allowed →
        ¬((requests.map path).Nodup ∧ ∀ r ∈ requests, r.path ∉ seen))) old := by
  induction requests generalizing seen with
  | nil => exact holdsE_pure ⟨rfl, ⟨List.Subset.refl _, List.Subset.refl _⟩, fun _ => rfl, nodup_nil, nofun⟩
  | cons r rest ih =>
    have hiff : ((r :: rest).map path).Nodup ∧ (∀ r' ∈ r :: rest, r'.path ∉ seen) ↔
        r.path ∉ seen ∧ (rest.map path).Nodup ∧ ∀ r' ∈ rest, r'.path ∉ r.path :: seen := by
      simp only [map_cons, nodup_cons, mem_cons, not_or, List.mem_map]
      grind
    refine holdsE_ite (fun hseen => ?_) (fun hseen => ?_)
    · exact holdsE_throw ⟨rfl, fun _ h => (hiff.mp h).1 hseen⟩
    refine holds_elsewhere_bind hI (fun hf => ⟨rfl, absurd hf⟩) ?_
    refine HoldsE.bind (Q := fun b s => s = old ∧ (r.Changes old → b = true) ∧
      (¬MayFail allowed → b = decide (r.Changes old))) ?_ ?_
    · refine (holds_readOk (Q := fun disk s => s = old ∧ (disk = old.get? r.path.file ∨
        disk = none ∧ MayFail allowed)) hI ⟨rfl, .inl rfl⟩ (fun hf => ⟨rfl, .inr ⟨rfl, hf⟩⟩)).bind ?_
      rintro _ _ ⟨rfl, rfl | ⟨rfl, hf⟩⟩
      · exact holdsE_pure ⟨rfl, fun hc => decide_eq_true hc, fun _ => rfl⟩
      · exact holdsE_pure ⟨rfl, fun _ => by simp, fun hnot => absurd hf hnot⟩
    rintro changed _ ⟨rfl, hchanged, hexact⟩
    refine ((ih (r.path :: seen)).post (fun _ _ h => h) ?_).bind ?_
    · rintro _ s ⟨rfl, hnot⟩
      exact ⟨rfl, fun hf h => hnot hf (hiff.mp h).2⟩
    · rintro l old ⟨rfl, ⟨hsub, hsup⟩, heq, hnodup⟩
      refine holdsE_pure ⟨rfl, ⟨?_, ?_⟩, fun hf => ?_, hiff.mpr ⟨hseen, hnodup⟩⟩
      · split
        · exact cons_subset_cons _ hsub
        · exact fun r' hr' => mem_cons_of_mem _ (hsub hr')
      · intro r' hr'
        obtain ⟨hm, hc⟩ := mem_filter.mp hr'
        rcases mem_cons.mp hm with rfl | hm
        · rw [if_pos (hchanged (of_decide_eq_true hc))]
          exact mem_cons_self
        · have hin : r' ∈ l := hsup (mem_filter.mpr ⟨hm, hc⟩)
          split
          · exact mem_cons_of_mem _ hin
          · exact hin
      · rw [hexact hf, heq hf]
        simp only [changesOf, filter_cons]

/-- The pending files of a part of the batch are written, and nothing else. -/
structure Written (old : Files) (done : List ExportRequest) (tid : Uuid) (fs : Files) : Prop where
  root : fs.root = true
  pending : ∀ r ∈ done, fs.get? (r.entry tid).pending = some r.markdown
  others : ∀ p, (∀ r ∈ done, p ≠ (r.entry tid).pending) → fs.get? p = old.get? p
  fresh : ∀ r ∈ done, old.get? (r.entry tid).pending = none
  nodup : (done.map (fun r => r.path.file)).Nodup

theorem Written.rests (h : Written old done tid fs) : Rests old old.get? fs := by
  refine ⟨fun p hp => h.others p (fun r _ heq => hp (heq ▸ isTemp_pending _ _)), fun hroot => ?_⟩
  rw [h.root] at hroot
  cases hroot

theorem Written.next (h : Written old done tid fs) (hnone : fs.get? (r.entry tid).pending = none) :
    Written old (done ++ [r]) tid (fs.put (r.entry tid).pending r.markdown) := by
  have hne : ∀ r' ∈ done, r'.path.file ≠ r.path.file := by
    intro r' hr' heq
    have hp := h.pending r' hr'
    simp only [entry, heq] at hp
    rw [hnone] at hp
    cases hp
  refine ⟨h.root, fun r' hr' => ?_, fun p hp => ?_, fun r' hr' => ?_, ?_⟩
  · rcases mem_append.mp hr' with hr' | hr'
    · rw [get?_put, if_neg (fun heq => hne r' hr' (pending_inj heq).1)]
      exact h.pending r' hr'
    · rw [mem_singleton.mp hr', get?_put, if_pos rfl]
  · rw [get?_put, if_neg (hp r (by simp))]
    exact h.others p (fun r' hr' => hp r' (mem_append_left _ hr'))
  · rcases mem_append.mp hr' with hr' | hr'
    · exact h.fresh r' hr'
    · rw [mem_singleton.mp hr', ← hnone]
      exact (h.others _ (fun r' hr' heq => hne r' hr' (pending_inj heq).1.symm)).symm
  · rw [map_append, map_singleton]
    refine nodup_append.mpr ⟨h.nodup, nodup_singleton _, fun a ha b hb heq => ?_⟩
    obtain ⟨r', hr', rfl⟩ := mem_map.mp ha
    exact hne r' hr' (heq.trans (mem_singleton.mp hb))

/-- Is the way free for a batch: no file twice, and no file in the place of its temporary ones? -/
structure Free (old : Files) (changes : List ExportRequest) (tid jid : Uuid) : Prop where
  nodup : (changes.map (fun r => r.path.file)).Nodup
  pending : ∀ r ∈ changes, old.get? (r.entry tid).pending = none
  journal : old.get? (journalPending jid) = none

omit [LawfulHost] in
/-- After an error the pending files are removed as far as that is possible. -/
theorem holds_cleanupPendingEntries {P : Files → Prop}
    (hPI : ∀ s, P s → I s) (hdel : ∀ e ∈ entries, ∀ s, P s → P (s.del e.pending)) (h : P fs) :
    HoldsE exec allowed I (cleanupPendingEntries entries) (fun _ s => P s) X fs := by
  refine (holdsE_forM (J := fun rest s => rest ⊆ entries ∧ P s) ⟨List.Subset.refl _, h⟩ ?_).postOk
    (fun _ _ hs => hs.2)
  rintro e rest s ⟨hrest, hs⟩
  exact (holds_tolerate_remove hPI hs (hdel e (hrest mem_cons_self) s hs)).postOk
    (fun _ _ hs => ⟨fun _ he => hrest (mem_cons_of_mem _ he), hs⟩)

theorem holds_writePendings (jid) (hI : ∀ s, Rests old old.get? s → I s) (done rest)
    (h : Written old done tid fs) :
    HoldsE exec allowed I (writePendings tid (done.map (fun r => r.entry tid)) rest)
      (fun entries s => entries = (done ++ rest).map (fun r => r.entry tid) ∧
        Written old (done ++ rest) tid s)
      (fun _ s => Rests old old.get? s ∧ (¬MayFail allowed → ¬Free old (done ++ rest) tid jid)) fs := by
  induction rest generalizing done fs with
  | nil =>
    rw [append_nil]
    exact holdsE_pure ⟨rfl, h⟩
  | cons r rest ih =>
    have hpend := isTemp_pending r.path.file tid
    refine HoldsE.bind (Q := fun _ s => Written old (done ++ [r]) tid s) (HoldsE.onError
      (Y := fun _ s => (Rests old old.get? s ∧ s.root = true) ∧
        (¬MayFail allowed → (fs.get? (r.entry tid).pending).isSome)) ?_ ?_) ?_
    · exact holds_writeSyncedFile (hI fs h.rests) (fun b => hI _ (h.rests.put h.root hpend b))
        (fun hnone => h.next hnone) (fun hsome => ⟨⟨h.rests, h.root⟩, fun _ => hsome⟩)
        (fun hf => ⟨⟨⟨h.rests, h.root⟩, absurd hf⟩,
          fun b => ⟨⟨h.rests.put h.root hpend b, h.root⟩, absurd hf⟩⟩)
    · rintro e s ⟨⟨hs, hroot⟩, hcause⟩
      have hnot : ¬MayFail allowed → ¬Free old (done ++ r :: rest) tid jid := by
        -- the pending file was there: of this batch or from before
        intro hf hfree
        have hsome := hcause hf
        by_cases hmem : ∃ r' ∈ done, (r.entry tid).pending = (r'.entry tid).pending
        · obtain ⟨r', hr', heq⟩ := hmem
          have hnodup := hfree.nodup
          rw [map_append, nodup_append] at hnodup
          exact hnodup.2.2 _ (mem_map_of_mem hr') _ (mem_map_of_mem mem_cons_self)
            (pending_inj heq).1.symm
        · rw [h.others _ (fun r' hr' heq => hmem ⟨r', hr', heq⟩), hfree.pending r (by simp)] at hsome
          cases hsome
      refine (holds_tolerate_remove (P := fun s => Rests old old.get? s ∧ s.root = true)
        (fun s hs => hI s hs.1) ⟨hs, hroot⟩ ⟨hs.del hroot hpend, hroot⟩).bind ?_
      rintro _ s hs
      refine (holds_cleanupPendingEntries (P := fun s => Rests old old.get? s ∧ s.root = true)
        (fun s hs => hI s hs.1) ?_ hs).bind ?_
      · intro e he s hs
        obtain ⟨r', _, rfl⟩ := mem_map.mp he
        exact ⟨hs.1.del hs.2 (isTemp_pending _ _), hs.2⟩
      · rintro _ s hs
        exact holdsE_pure ⟨hs.1, hnot⟩
    · rintro _ s hs
      have hnext := ih (done ++ [r]) hs
      rw [append_assoc, map_append] at hnext
      exact hnext

/-- The batch gets its journal. -/
structure Accepted (old : Files) (requests : List ExportRequest) (tid jid : Uuid) : Prop where
  paths : (requests.map path).Nodup
  free : Free old (changesOf old requests) tid jid

omit [LawfulHost] in
/-- The fingerprint state, the session snapshot and the disk fingerprint of every document. -/
theorem holds_record (hI : I fs) (hQ : Q () fs)
    (hX : MayFail allowed → X .io fs) : HoldsE exec allowed I
      ((List.range n).forM (fun _ => do elsewhere; elsewhere; elsewhere)) Q X fs := by
  refine holds_forM_still hQ (fun _ => ?_)
  refine holds_elsewhere_bind hI hX (holds_elsewhere_bind hI hX ?_)
  exact holds_elsewhere hI rfl hX

/-- The way of a transaction up to its journal. `Y` is what holds where a step has failed; what
    becomes of the batch is said by what the journal and the steps after it do. -/
theorem holds_exportMarkdownTransaction_of {Q Y : Files → Prop}
    (hI : ∀ s, Rests old old.get? s → I s) (hYI : ∀ s, Y s → I s)
    (hrest : ∀ s, Rests old old.get? s → (¬MayFail allowed → ¬Accepted old requests tid jid) → Y s)
    (hdel : ∀ s p, s.root = true → IsTemp p → Y s → Y (s.del p))
    (hbatch : ∀ l s, l ⊆ requests ∧ changesOf old requests ⊆ l →
      (¬MayFail allowed → l = changesOf old requests) → (requests.map path).Nodup →
      Written old l tid s → (l = [] → Q s) ∧
      ∀ b, toVec (.exports (l.map (fun r => r.entry tid))) = some b →
        (MayFail allowed → Y (s.journalled jid b)) ∧
        (s.get? (journalPending jid) = none → I (s.journalled jid b) ∧ HoldsE exec allowed I
          (finishExports (l.map (fun r => r.entry tid)) requests.length (journalPath jid))
          (fun _ => Q) (fun _ => Y) (s.journalled jid b))) :
    HoldsE exec allowed I (exportMarkdownTransaction requests tid jid) (fun _ => Q) (fun _ => Y)
      old := by
  refine ((holds_prepareExports (hI old (Rests.refl old)) [] requests).post (fun _ _ h => h) ?_).bind ?_
  · rintro _ _ ⟨rfl, hnot⟩
    exact hrest _ (Rests.refl _) (fun hf h => hnot hf ⟨h.paths, fun _ _ => not_mem_nil⟩)
  rintro l old ⟨rfl, hl, heq, hpaths, _⟩
  have hold := hI old (Rests.refl old)
  have hfail : ∀ s, Rests old old.get? s → MayFail allowed → Y s :=
    fun s hs hf => hrest s hs (absurd hf)
  refine HoldsE.bind (Q := fun _ s => old = s) (holds_forM_still rfl (fun _ =>
    holds_elsewhere hold rfl (hfail _ (Rests.refl old)))) ?_
  rintro _ _ rfl
  refine (holds_createRoot (Q := fun _ s => Written old [] tid s) hold
    (hI _ (Rests.refl old).withRoot) ⟨rfl, nofun, fun _ _ => rfl, nofun, nodup_nil⟩
    (hfail _ (Rests.refl old))).bind ?_
  rintro _ s hs
  refine ((holds_writePendings jid hI [] _ hs).post (fun _ _ h => h) (fun _ s h =>
    hrest s h.1 (fun hf hacc => h.2 hf (heq hf ▸ hacc.free)))).bind ?_
  rintro _ s ⟨rfl, hw⟩
  rw [nil_append] at hw
  obtain ⟨hnone, hjournal⟩ := hbatch l s hl heq hpaths hw
  have hs := hI s hw.rests
  refine holdsE_ite (fun hempty => ?_) (fun _ => ?_)
  · exact holds_record hs (hnone (by simpa using hempty)) (hfail s hw.rests)
  · rw [nil_append]
    have hroot := hw.rests.withRoot
    have hput := fun b => hroot.put rfl (isTemp_journalPending jid) b
    refine HoldsE.bind (Q := fun journal s => journal = journalPath jid ∧ HoldsE exec allowed I
      (finishExports (l.map (fun r => r.entry tid)) requests.length journal) (fun _ => Q)
      (fun _ => Y) s) (HoldsE.onError (Y := fun _ s => Y s ∧ s.root = true) ?_ ?_) ?_
    · refine holds_writeJournal hs (hI _ hroot) (fun b => hI _ (hput b)) (fun b hb hn => ?_)
        (fun hser => ?_) (fun hsome => ⟨hrest _ hroot (fun _ hacc => ?_), rfl⟩) (fun hf => ?_)
      · obtain ⟨hcommit, hfinish⟩ := (hjournal b hb).2 hn
        exact ⟨hcommit, rfl, hfinish⟩
      · have hlaw := LawfulHost.fromSlice_toVec (.exports (l.map (fun r => r.entry tid)))
        rw [hser] at hlaw
        cases hlaw
      · rw [hw.others _ (fun r _ => Ne.symm (pending_ne_journalPending _ _ _)),
          hacc.free.journal] at hsome
        cases hsome
      · exact ⟨⟨hfail _ hw.rests hf, hw.root⟩, ⟨hfail _ hroot hf, rfl⟩,
          fun b => ⟨hfail _ (hput b) hf, rfl⟩, fun b hb => ⟨(hjournal b hb).1 hf, rfl⟩⟩
    · rintro e s hs
      refine (holds_cleanupPendingEntries (P := fun s => Y s ∧ s.root = true)
        (fun s hs => hYI s hs.1) ?_ hs).bind (fun _ _ hs => holdsE_pure hs.1)
      intro e he s hs
      obtain ⟨r, _, rfl⟩ := mem_map.mp he
      exact ⟨hdel s _ hs.2 (isTemp_pending _ _) hs.1, hs.2⟩
    · rintro _ s ⟨rfl, hfinish⟩
      exact HoldsE.onError hfinish (fun _ _ hs => holdsE_pure hs)

theorem Written.pending_journalled (h : Written old changes tid fs) (jid b) (hr : r ∈ changes) :
    (fs.journalled jid b).get? (r.entry tid).pending = some r.markdown := by
  have hj : (r.entry tid).pending ≠ journalPath jid :=
    fun heq => not_isTemp_journalPath jid (heq ▸ isTemp_pending _ _)
  rw [get?_put, if_neg hj, get?_del, if_neg (pending_ne_journalPending _ _ _)]
  exact h.pending r hr

/-- The journal makes the pending files of a batch its new contents. -/
theorem Written.commit (h : Written old changes tid fs) (jid)
    (hb : toVec (.exports (changes.map (fun r => r.entry tid))) = some b) :
    Committed old changes tid jid (fs.journalled jid b) := by
  refine ⟨rfl, ⟨b, by simp, fromSlice_of_toVec hb⟩, fun p hp hj hne => ?_,
    fun r hr => .inl (h.pending_journalled jid b hr)⟩
  rw [get?_put, if_neg hj, get?_del,
    if_neg (fun heq : p = _ => hp (heq ▸ isTemp_journalPending jid))]
  exact h.others p (fun r _ heq => hp (heq ▸ isTemp_pending _ _))

theorem holds_finishExports (hbatch : Batch old changes)
    (hI : ∀ s, Committed old changes tid jid s → I s)
    (hrest : ∀ s, Rests old (published old changes) s → I s)
    (h : Committed old changes tid jid fs) :
    HoldsE exec NoFail I (finishExports (changes.map (fun r => r.entry tid)) n (journalPath jid))
      (fun _ s => Rests old (published old changes) s) X fs := by
  refine (holds_installExportEntries hbatch hI h).bind ?_
  rintro _ s ⟨hc, hinst⟩
  refine (holds_record (Q := fun _ s' => s' = s) (hI s hc) rfl noFail_elim).bind ?_
  rintro _ _ rfl
  exact (holds_cleanupExportEntries hbatch hI hrest hc hinst).postOk (fun _ _ hs => hs.1)

/-- What a transaction may leave behind: the old contents or, of a batch that was accepted, a
    journal with all it needs or the new contents. -/
def Recoverable (old : Files) (requests : List ExportRequest) (tid jid : Uuid) (fs : Files) :
    Prop :=
  Rests old old.get? fs ∨ (Accepted old requests tid jid ∧ Batch old (changesOf old requests)) ∧
      (Committed old (changesOf old requests) tid jid fs ∨
        Rests old (published old (changesOf old requests)) fs)

/-- A transaction that is not stopped publishes its batch, or fails before its journal is in
    place. -/
theorem holds_exportMarkdownTransaction (tid jid)
    (hjournals : ∀ p, isJournal p = true → old.get? p = none)
    (hdocuments : ∀ r ∈ requests, IsDocument r.path.file) :
    HoldsE exec NoFail (Recoverable old requests tid jid)
      (exportMarkdownTransaction requests tid jid)
      (fun _ s => Rests old (published old (changesOf old requests)) s ∧
        (Batch old (changesOf old requests)) ∧
        (changesOf old requests ≠ [] → Accepted old requests tid jid))
      (fun _ s => Rests old old.get? s ∧ ¬Accepted old requests tid jid) old := by
  refine holds_exportMarkdownTransaction_of
    (Y := fun s => Rests old old.get? s ∧ ¬Accepted old requests tid jid) (fun s hs => .inl hs)
    (fun s hs => .inl hs.1) (fun s hs hnot => ⟨hs, hnot not_mayFail_noFail⟩)
    (fun s p hr hp hs => ⟨hs.1.del hr hp, hs.2⟩) ?_
  rintro _ s _ heq hpaths hw
  obtain rfl := heq not_mayFail_noFail
  have hbatch : Batch old (changesOf old requests) :=
    ⟨hw.nodup, fun r hr => hdocuments r (mem_of_mem_filter hr), hjournals⟩
  refine ⟨fun hnone => ⟨?_, hbatch, fun h => absurd hnone h⟩, fun b hb => ⟨noFail_elim, fun hn => ?_⟩⟩
  · -- there is nothing to change: the old contents are the new ones
    rw [hnone]
    exact hw.rests
  · rw [hw.others _ (fun r _ => Ne.symm (pending_ne_journalPending _ _ _))] at hn
    have hacc : Accepted old requests tid jid := ⟨hpaths, hw.nodup, hw.fresh, hn⟩
    have hc := hw.commit jid hb
    refine ⟨.inr ⟨⟨hacc, hbatch⟩, .inl hc⟩, ?_⟩
    exact (holds_finishExports hbatch (fun s hs => .inr ⟨⟨hacc, hbatch⟩, .inl hs⟩)
      (fun s hs => .inr ⟨⟨hacc, hbatch⟩, .inr hs⟩) hc).postOk
      (fun _ _ hs => ⟨hs, hbatch, fun _ => hacc⟩)

/-! ## Recovery -/

omit [LawfulHost] in
theorem holds_sweepOrphans (hI : ∀ s, Rests old base s → I s) (h : Rests old base fs)
    (hroot : fs.root = true) : HoldsE exec NoFail I sweepOrphans
      (fun _ s => Rests old base s ∧ ∀ p, IsTemp p → s.get? p = none) X fs := by
  refine (holds_listOrphans (Q := fun l s => s = fs ∧
    l = fs.map.keys.filter (fun p => isOrphanTransactionTemp p.name)) (hI fs h) ⟨rfl, rfl⟩).bind ?_
  rintro _ fs ⟨rfl, rfl⟩
  -- what is left of the temporary files is in the rest of the list
  refine (holdsE_forM (J := fun rest s => (Rests old base s ∧ s.root = true) ∧
    (∀ p ∈ rest, IsTemp p) ∧ ∀ p, IsTemp p → (s.get? p).isSome → p ∈ rest)
    ⟨⟨h, hroot⟩, fun p hp => (mem_filter.mp hp).2, fun p hp hsome => ?_⟩ ?_).postOk ?_
  · exact mem_filter.mpr ⟨mem_keys.mpr (isSome_iff_exists.mp hsome), hp⟩
  · rintro p rest s ⟨⟨hs, hr⟩, htemp, hleft⟩
    have hrest : ∀ q, IsTemp q → q ≠ p → (s.get? q).isSome → q ∈ rest := fun q hq hne hsome =>
      (mem_cons.mp (hleft q hq hsome)).resolve_left hne
    have hnext : ∀ s', (Rests old base s' ∧ s'.root = true) ∧
        (s'.get? p = none ∧ ∀ q, q ≠ p → s'.get? q = s.get? q) →
        (Rests old base s' ∧ s'.root = true) ∧ (∀ p ∈ rest, IsTemp p) ∧
          ∀ p, IsTemp p → (s'.get? p).isSome → p ∈ rest := by
      rintro s' ⟨hs', hnone, hsame⟩
      refine ⟨hs', fun q hq => htemp q (mem_cons_of_mem _ hq), fun q hq hsome => ?_⟩
      have hne : q ≠ p := fun heq => by simp [heq, hnone] at hsome
      exact hrest q hq hne (hsame q hne ▸ hsome)
    refine HoldsE.tolerate (holds_removeFile (hI s hs) (fun _ => ?_) (fun hx => ?_))
    · have hdel := hs.del hr (htemp p mem_cons_self)
      refine ⟨hI _ hdel, hnext _ ⟨⟨hdel, hr⟩, by simp, fun q hne => ?_⟩⟩
      rw [get?_del, if_neg hne]
    · exact hnext _ ⟨⟨hs, hr⟩, hx.resolve_right not_mayFail_noFail, fun _ _ => rfl⟩
  · rintro _ s ⟨hs, _, hleft⟩
    refine ⟨hs.1, fun p hp => ?_⟩
    cases hg : s.get? p with
    | none => rfl
    | some b => exact absurd (hleft p hp (by simp [hg])) not_mem_nil

/-- The vault rests and has no temporary files, unless it has no transaction root either. -/
def Swept (old : Files) (base : Path → Option Bytes) (fs : Files) : Prop :=
  Rests old base fs ∧ (fs.root = true → ∀ p, IsTemp p → fs.get? p = none)

omit [LawfulHost] in
theorem holds_recover_rests (hI : ∀ s, Rests old base s → I s)
    (hbase : ∀ p, isJournal p = true → base p = none) (h : Rests old base fs) :
    HoldsE exec NoFail I recoverPendingTransactions (fun _ s => Swept old base s) X fs := by
  refine (holds_rootExists (Q := fun b s => fs = s ∧ b = fs.root) (hI fs h) ⟨rfl, rfl⟩).bind ?_
  rintro _ _ ⟨rfl, rfl⟩
  refine holdsE_ite (fun hroot => ?_) (fun hroot => holdsE_pure ⟨h, fun hr => absurd hr hroot⟩)
  have hnone : fs.map.keys.filter isJournal = [] := by
    refine filter_eq_nil_iff.mpr (fun p hp hj => ?_)
    obtain ⟨b, hb⟩ := mem_keys.mp hp
    rw [h.files p (not_isTemp_of_isJournal hj), hbase p hj] at hb
    cases hb
  refine (holds_listJournals (Q := fun l s => fs = s ∧ l = fs.map.keys.filter isJournal) (hI fs h)
    ⟨rfl, rfl⟩ noFail_elim).bind ?_
  rintro _ _ ⟨rfl, rfl⟩
  rw [hnone]
  exact (holds_sweepOrphans hI h hroot).postOk (fun _ _ hs => ⟨hs.1, fun _ => hs.2⟩)

omit [LawfulHost] in
theorem Committed.eq_journalPath (h : Committed old changes tid jid fs) (hbatch : Batch old changes)
    (hp : p ∈ fs.map.keys.filter isJournal) : p = journalPath jid := by
  obtain ⟨hkey, hj⟩ := mem_filter.mp hp
  obtain ⟨b, hb⟩ := mem_keys.mp hkey
  by_contra hne
  have hold := h.others p (not_isTemp_of_isJournal hj) hne (fun r hr heq => by
    rw [← heq, (hbatch.documents r hr).notJournal] at hj
    cases hj)
  rw [hbatch.journals p hj, hb] at hold
  cases hold

section
variable (hbatch : Batch old changes) (hI : ∀ s, Committed old changes tid jid s → I s)
  (hrest : ∀ s, Rests old (published old changes) s → I s) (h : Committed old changes tid jid fs)
include hbatch hI hrest h

/-- The one journal is carried out and removed. -/
theorem holds_recoverJournal : HoldsE exec NoFail I (recoverJournal (journalPath jid))
    (fun _ s => Rests old (published old changes) s ∧ s.root = true) X fs := by
  obtain ⟨b, hb, hjournal⟩ := h.journal
  refine (holds_readFile (Q := fun content s => fs = s ∧ content = b) (hI fs h)
    (fun content hc => ⟨rfl, some.inj (hc.symm.trans hb)⟩) ?_).bind ?_
  · rintro (hnone | hf)
    · rw [hb] at hnone
      cases hnone
    · exact noFail_elim hf
  rintro _ _ ⟨rfl, rfl⟩
  simp only [hjournal]
  refine (holds_installExportEntries hbatch hI h).bind ?_
  rintro _ s ⟨hc, hinst⟩
  refine HoldsE.bind (Q := fun _ s' => s' = s) (holds_forM_still rfl (fun _ => holds_elsewhere
    (hI s hc) rfl noFail_elim)) ?_
  rintro _ _ rfl
  exact holds_cleanupExportEntries hbatch hI hrest hc hinst

theorem holds_recover_committed : HoldsE exec NoFail I recoverPendingTransactions
    (fun _ s => Swept old (published old changes) s) X fs := by
  refine (holds_rootExists (Q := fun b s => fs = s ∧ b = fs.root) (hI fs h) ⟨rfl, rfl⟩).bind ?_
  rintro _ _ ⟨rfl, rfl⟩
  refine holdsE_ite (fun _ => ?_) (fun hroot => absurd h.root hroot)
  refine (holds_listJournals (Q := fun l s => fs = s ∧ l = fs.map.keys.filter isJournal) (hI fs h)
    ⟨rfl, rfl⟩ noFail_elim).bind ?_
  rintro _ _ ⟨rfl, rfl⟩
  obtain ⟨b, hb, _⟩ := h.journal
  have hmem : journalPath jid ∈ fs.map.keys.filter isJournal :=
    mem_filter.mpr ⟨mem_keys.mpr ⟨b, hb⟩, isJournal_journalPath jid⟩
  refine (holdsE_forM (J := fun rest s => rest.Nodup ∧ (∀ p ∈ rest, p = journalPath jid) ∧
    (journalPath jid ∈ rest → Committed old changes tid jid s) ∧
    (journalPath jid ∉ rest → Rests old (published old changes) s ∧ s.root = true))
    ⟨(SortedMap.nodup_keys fs.sorted).filter _, fun p hp => h.eq_journalPath hbatch hp, fun _ => h,
      fun hnot => absurd hmem hnot⟩ ?_).bind ?_
  · rintro p rest s ⟨hnodup, heq, hc, _⟩
    obtain rfl := heq p mem_cons_self
    refine (holds_recoverJournal hbatch hI hrest (hc mem_cons_self)).postOk (fun _ s' hs' => ?_)
    have hnot := (nodup_cons.mp hnodup).1
    exact ⟨(nodup_cons.mp hnodup).2, fun q hq => heq q (mem_cons_of_mem _ hq),
      fun hin => absurd hin hnot, fun _ => hs'⟩
  · rintro _ s ⟨_, _, _, hrests⟩
    obtain ⟨hs, hr⟩ := hrests not_mem_nil
    exact (holds_sweepOrphans hrest hs hr).postOk (fun _ _ hs => ⟨hs.1, fun _ => hs.2⟩)

end

/-- Recovery ends with the old contents or with the new ones, and keeps what it may be stopped
    with recoverable. -/
theorem holds_recoverPendingTransactions (hjournals : ∀ p, isJournal p = true → old.get? p = none)
    (h : Recoverable old requests tid jid fs) :
    HoldsE exec NoFail (Recoverable old requests tid jid) recoverPendingTransactions
      (fun _ s => Swept old old.get? s ∨
        (Accepted old requests tid jid ∧ Batch old (changesOf old requests)) ∧
          Swept old (published old (changesOf old requests)) s) (fun _ _ => False) fs := by
  rcases h with h | ⟨hbatch, h | h⟩
  · exact (holds_recover_rests (fun s hs => .inl hs) hjournals h).postOk (fun _ _ hs => .inl hs)
  · exact (holds_recover_committed hbatch.2 (fun s hs => .inr ⟨hbatch, .inl hs⟩)
      (fun s hs => .inr ⟨hbatch, .inr hs⟩) h).postOk (fun _ _ hs => .inr ⟨hbatch, hs⟩)
  · exact (holds_recover_rests (fun s hs => .inr ⟨hbatch, .inr hs⟩)
      (fun p hp => hbatch.2.published_journal hp) h).postOk (fun _ _ hs => .inr ⟨hbatch, hs⟩)

/-! ## Runs -/

/-- Perform a program; after the listed fates every step goes through. -/
def perform {A : Type} (p : VaultM A) (fates : List Fate) (fs : Files) :
    Option (Except VaultError A) × Files :=
  Prog.run exec .ok p.run fates fs

/-- Some recoveries, each of which was stopped. -/
inductive Interrupted : Files → Files → Prop
  | refl (fs : Files) : Interrupted fs fs
  | stop {fs fs' : Files} (fates : List Fate) (hfates : ∀ fate ∈ fates, NoFail fate)
      (hstop : (perform recoverPendingTransactions fates fs).1 = none)
      (hnext : Interrupted (perform recoverPendingTransactions fates fs).2 fs') : Interrupted fs fs'

section
omit [LawfulHost]

theorem change_ok_isSome (fs : Files) (result) : (change (.ok : Fate) fs result).1.isSome := by
  cases result <;> rfl

theorem exec_ok_isSome (c fs) : (exec c .ok fs).1.isSome := by
  cases c with
  | createNew p =>
    by_cases hp : (fs.get? p).isSome
    · have he : exec (.createNew p) .ok fs = change .ok fs none := if_pos hp
      rw [he]
      exact change_ok_isSome fs none
    · have he : exec (.createNew p) .ok fs = refill .ok fs (fs.put p) empty := if_neg hp
      rw [he]
      rfl
  | rename a b | remove p => exact change_ok_isSome _ _
  | _ => rfl

theorem perform_ok_isSome {A : Type} (p : VaultM A) (fs : Files) : (perform p [] fs).1.isSome :=
  run_isSome Fate.ok (fun c s _ hfate => hfate.resolve_left not_mem_nil ▸ exec_ok_isSome c s)

/-- What the program logic says about a program that is performed. -/
theorem HoldsE.perform {A : Type} {p} {Q : A → Files → Prop} {fates}
    (h : HoldsE exec allowed I p Q X fs) (hlast : allowed .ok)
    (hfates : ∀ fate ∈ fates, allowed fate) :
    (∀ a, (Vault.perform p fates fs).1 = some (.ok a) → Q a (Vault.perform p fates fs).2) ∧
    (∀ e, (Vault.perform p fates fs).1 = some (.error e) → X e (Vault.perform p fates fs).2) ∧
    ((Vault.perform p fates fs).1 = none → I (Vault.perform p fates fs).2) := by
  have hrun := Holds.run Fate.ok h hlast hfates
  exact ⟨fun a ha => hrun.1 _ ha, fun e he => hrun.1 _ he, hrun.2⟩

end

section
variable (hjournals : ∀ p, isJournal p = true → old.get? p = none)
include hjournals

/-- However often recovery is stopped, the vault stays recoverable. -/
theorem Interrupted.recoverable
    {fs'} (hi : Interrupted fs fs') (h : Recoverable old requests tid jid fs) :
    Recoverable old requests tid jid fs' := by
  induction hi with
  | refl fs => exact h
  | stop fates hfates hstop _ ih =>
    exact ih ((HoldsE.perform (holds_recoverPendingTransactions hjournals h) trivial hfates).2.2 hstop)

theorem recoverable_exportMarkdownTransaction
    (hdocuments : ∀ r ∈ requests, IsDocument r.path.file) {fates}
    (hfates : ∀ fate ∈ fates, NoFail fate) : Recoverable old requests tid jid
      (perform (exportMarkdownTransaction requests tid jid) fates old).2 := by
  have h := HoldsE.perform
    (holds_exportMarkdownTransaction tid jid hjournals hdocuments) trivial hfates
  cases hr : (perform (exportMarkdownTransaction requests tid jid) fates old).1 with
  | none => exact h.2.2 hr
  | some r =>
    cases r with
    | ok a =>
      obtain ⟨hs, hbatch, hacc⟩ := h.1 a hr
      by_cases hnone : changesOf old requests = []
      · rw [hnone] at hs
        exact .inl hs
      · exact .inr ⟨⟨hacc hnone, hbatch⟩, .inr hs⟩
    | error e => exact .inl (h.2.1 e hr).1

theorem published_of_accepted (hdocuments : ∀ r ∈ requests, IsDocument r.path.file)
    (haccepted : Accepted old requests tid jid) : Rests old (published old (changesOf old requests))
      (perform (exportMarkdownTransaction requests tid jid) [] old).2 ∧
    Batch old (changesOf old requests) := by
  have hok : ∀ fate ∈ ([] : List Fate), NoFail fate := nofun
  have h := HoldsE.perform (holds_exportMarkdownTransaction tid jid hjournals hdocuments) trivial hok
  obtain ⟨outcome, houtcome⟩ := isSome_iff_exists.mp
    (perform_ok_isSome (exportMarkdownTransaction requests tid jid) old)
  cases outcome with
  | ok a => exact ⟨(h.1 a houtcome).1, (h.1 a houtcome).2.1⟩
  | error e => exact absurd haccepted (h.2.1 e houtcome).2

end

/-! ## Atomicity -/

def AllOld (old : Files) (requests : List ExportRequest) (fs : Files) : Prop :=
  ∀ r ∈ requests, fs.get? r.path.file = old.get? r.path.file

def AllNew (requests : List ExportRequest) (fs : Files) : Prop :=
  ∀ r ∈ requests, fs.get? r.path.file = some r.markdown

/-- No journal is left and no pending or backup file, but what lay about in a vault that has no
    transaction root and that the transaction has not touched. -/
structure Clean (old fs : Files) : Prop where
  journals : ∀ p, isJournal p = true → fs.get? p = none
  temps : ∀ p, IsTemp p → fs.get? p = none ∨ old.root = false ∧ fs.get? p = old.get? p

/-- The batch is carried out, and asks for one file with a change and without. -/
def Divided (old : Files) (requests : List ExportRequest) (tid jid : Uuid) : Prop :=
  Accepted old requests tid jid ∧
    ∃ r ∈ requests, ∃ r' ∈ requests, r.path.file = r'.path.file ∧ r.Changes old ∧ ¬r'.Changes old

section
omit [LawfulHost]

theorem Swept.clean (h : Swept old base fs) (hbase : ∀ p, isJournal p = true → base p = none) :
    Clean old fs := by
  refine ⟨fun p hp => (h.1.files p (not_isTemp_of_isJournal hp)).trans (hbase p hp), fun p hp => ?_⟩
  cases hroot : fs.root with
  | false => exact .inr ⟨(h.1.start hroot).1, (h.1.start hroot).2 p⟩
  | true => exact .inl (h.2 hroot p hp)

theorem Swept.allOld (h : Swept old old.get? fs)
    (hdocuments : ∀ r ∈ requests, IsDocument r.path.file) : AllOld old requests fs :=
  fun r hr => h.1.files _ (hdocuments r hr).notTemp

theorem Swept.allNew (hbatch : Batch old (changesOf old requests))
    (h : Swept old (published old (changesOf old requests)) fs)
    (hdocuments : ∀ r ∈ requests, IsDocument r.path.file)
    (hagree : ∀ r ∈ requests, ∀ r' ∈ requests, r.path.file = r'.path.file → r.Changes old →
      r'.Changes old) : AllNew requests fs := by
  intro r hr
  rw [h.1.files _ (hdocuments r hr).notTemp]
  by_cases hc : r.Changes old
  · exact hbatch.published_of_mem (mem_filter.mpr ⟨hr, decide_eq_true hc⟩)
  · rw [published_of_not]
    · exact not_not.mp hc
    · intro r' hr' heq
      obtain ⟨hm, hc'⟩ := mem_filter.mp hr'
      exact hc (hagree r' hm r hr heq (of_decide_eq_true hc'))

end

/-- Whatever stops a transaction and the recoveries after it: the first recovery that is not stopped
    completes, with all files old or all new and nothing of the transaction left. -/
def CrashAtomic (old : Files) (requests : List ExportRequest) (tid jid : Uuid) : Prop :=
  ∀ fates : List Fate, (∀ fate ∈ fates, NoFail fate) → ∀ stopped : Files,
    Interrupted (perform (exportMarkdownTransaction requests tid jid) fates old).2 stopped →
    ∀ fates' : List Fate, (∀ fate ∈ fates', NoFail fate) → ∀ outcome fs,
    perform recoverPendingTransactions fates' stopped = (some outcome, fs) →
    outcome = .ok () ∧ (AllOld old requests fs ∨ AllNew requests fs) ∧ Clean old fs

/-- In a vault without journals an export transaction is atomic across crashes, unless its batch is
    divided. -/
theorem export_transaction_atomic (old : Files) (requests : List ExportRequest) (tid jid : Uuid)
    (hjournals : ∀ p, isJournal p = true → old.get? p = none)
    (hdocuments : ∀ r ∈ requests, IsDocument r.path.file) :
    CrashAtomic old requests tid jid ↔ ¬Divided old requests tid jid := by
  constructor
  · rintro h ⟨haccepted, r, hr, r', hr', heq, hc, hc'⟩
    -- nothing stops the transaction, nor the recovery after it
    have hok : ∀ fate ∈ ([] : List Fate), NoFail fate := nofun
    obtain ⟨hs, hbatch⟩ := published_of_accepted hjournals hdocuments haccepted
    have hrec := HoldsE.perform (holds_recover_rests (I := fun _ => True) (X := fun _ _ => False)
      (fun _ _ => trivial) (fun p hp => hbatch.published_journal hp) hs) trivial hok
    obtain ⟨outcome, houtcome⟩ := isSome_iff_exists.mp (perform_ok_isSome
      recoverPendingTransactions (perform (exportMarkdownTransaction requests tid jid) [] old).2)
    obtain ⟨rfl, hall, _⟩ := h [] hok _ (.refl _) [] hok outcome _ (Prod.ext houtcome rfl)
    have hfile := (hrec.1 () houtcome).1.files _ (hdocuments r hr).notTemp
    rw [hbatch.published_of_mem (mem_filter.mpr ⟨hr, decide_eq_true hc⟩)] at hfile
    rcases hall with hall | hall
    · exact hc ((hall r hr).symm.trans hfile)
    · rw [heq, hall r' hr'] at hfile
      exact hc (heq ▸ (not_not.mp hc').trans hfile)
  · intro hnot fates hfates stopped hi fates' hfates' outcome fs hrun
    have hrec := hi.recoverable hjournals (recoverable_exportMarkdownTransaction hjournals hdocuments hfates)
    have h := HoldsE.perform (holds_recoverPendingTransactions hjournals hrec) trivial hfates'
    rw [hrun] at h
    cases outcome with
    | error e => exact (h.2.1 e rfl).elim
    | ok a =>
      refine ⟨rfl, ?_⟩
      rcases h.1 a rfl with hs | ⟨⟨hacc, hbatch⟩, hs⟩
      · exact ⟨.inl (hs.allOld hdocuments), hs.clean hjournals⟩
      · refine ⟨.inr (hs.allNew hbatch hdocuments (fun r hr r' hr' heq hc => ?_)),
          hs.clean (fun p hp => hbatch.published_journal hp)⟩
        by_contra hc'
        exact hnot ⟨hacc, r, hr, r', hr', heq, hc, hc'⟩

end Lawful

/-! ## Notes -/

attribute [local instance] strokeHost strokeHost_lawful

/-- The file `a.md` of a vault. -/
def noteA : Path := ⟨[], "a.md".toList⟩

/-- The file `b.md` of a vault. -/
def noteB : Path := ⟨[], "b.md".toList⟩

/-- A vault with the given notes that has seen no transaction. -/
def vaultOf (notes : List (Path × Content)) : Files :=
  notes.foldl (fun fs note => fs.put note.1 note.2) ⟨Disk.empty, false⟩

/-- `a.md` as it is, and as `./a.md` with a new content. -/
def twiceA : List ExportRequest :=
  [⟨⟨false, noteA⟩, text "old".toList⟩, ⟨⟨true, noteA⟩, text "new".toList⟩]

/-- The transaction goes through, and the first of the two documents has neither stayed as all were
    nor what was asked for. -/
theorem one_file_twice : let old := vaultOf [(noteA, .text "old".toList)]
    let stopped := (perform (exportMarkdownTransaction twiceA (0 : Nat) (1 : Nat)) [] old).2
    let fs := (perform recoverPendingTransactions [] stopped).2
    (perform recoverPendingTransactions [] stopped).1 = some (.ok ()) ∧
      ¬(AllOld old twiceA fs ∨ AllNew twiceA fs) := by
  refine ⟨rfl, ?_⟩
  rintro (h | h)
  · exact absurd (h _ mem_cons_self) (by decide)
  · exact absurd (h _ mem_cons_self) (by decide)

/-- Two notes that exist. -/
def twoNotes : Files := vaultOf [(noteA, .text "old a".toList), (noteB, .text "old b".toList)]

/-- New contents for both. -/
def bothNew : List ExportRequest :=
  [⟨⟨false, noteA⟩, text "new a".toList⟩, ⟨⟨false, noteB⟩, text "new b".toList⟩]

theorem twoNotes_journals (p) (hp : isJournal p = true) : twoNotes.get? p = none := by
  have ha : p ≠ noteA := by
    rintro rfl
    exact absurd hp (by decide)
  have hb : p ≠ noteB := by
    rintro rfl
    exact absurd hp (by decide)
  simp only [twoNotes, vaultOf, foldl_cons, foldl_nil, get?_put, ha, hb, if_false]
  rfl

theorem both_notes_atomic : CrashAtomic twoNotes bothNew (0 : Nat) (1 : Nat) := by
  refine (export_transaction_atomic twoNotes bothNew (0 : Nat) (1 : Nat) twoNotes_journals
    (by decide)).mpr ?_
  rintro ⟨_, h⟩
  exact absurd h (by decide)

end MdCrdt.Vault
