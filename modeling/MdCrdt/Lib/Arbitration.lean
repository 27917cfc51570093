import Mathlib.Data.List.Perm.Basic
import Mathlib.Data.List.Sort
import Mathlib.Data.Finset.Card

/- Registers that arbitrate between writes.

  Writes carry a key from a linear order and may have seen other writes. A new
  write replaces the current one if it saw it, or if neither saw the other and its
  key is not smaller. Whether the last writer depends on the order of delivery is
  decided by one write: `Decides` says that it saw, or outranks, every other. -/
namespace MdCrdt.Lib
open Option
open List hiding le_trans not_le le_total
variable {W K : Type} [LinearOrder K]

/-- `saw a b`: the write `b` was made with `a` in view. -/
def Replaces (saw : W → W → Prop) (key : W → K) (current incoming : W) : Prop :=
  saw current incoming ∨ (¬saw incoming current ∧ key current ≤ key incoming)

/-- The order of delivery never puts a write in front of one it saw. -/
def Respects (saw : W → W → Prop) (l : List W) : Prop := l.Pairwise (fun a b => ¬saw b a)

/-- The write saw, or outranks, every other write of the set. -/
def Decides (saw : W → W → Prop) (key : W → K) (S : Finset W) (w : W) : Prop :=
  ∀ v ∈ S, v ≠ w → saw v w ∨ (¬saw w v ∧ key v < key w)

/-- On the writes of the set, seeing is a strict partial order. -/
structure StrictOn (saw : W → W → Prop) (S : Finset W) : Prop where
  irrefl : ∀ a ∈ S, ¬saw a a
  trans : ∀ a ∈ S, ∀ b ∈ S, ∀ c ∈ S, saw a b → saw b c → saw a c

/-- A list that holds every write of the set once. -/
def Enumerates (S : Finset W) (l : List W) : Prop := l.Nodup ∧ ∀ w, w ∈ l ↔ w ∈ S

/-- Steps that commute on the states an invariant allows may be taken in any order. -/
theorem foldl_perm_of_commute {σ α : Type} {f : σ → α → σ} {I : σ → Prop} {l l' : List α}
    (hp : l.Perm l') (hstep : ∀ s, I s → ∀ a ∈ l, I (f s a))
    (hcomm : ∀ s, I s → ∀ a ∈ l, ∀ b ∈ l, f (f s a) b = f (f s b) a) :
    ∀ s, I s → l.foldl f s = l'.foldl f s := by
  induction hp with
  | nil => exact fun _ _ => rfl
  | cons x _ ih =>
    intro s hs
    exact ih (fun s hs a ha => hstep s hs a (mem_cons_of_mem _ ha))
      (fun s hs a ha b hb => hcomm s hs a (mem_cons_of_mem _ ha) b (mem_cons_of_mem _ hb))
      (f s x) (hstep s hs x mem_cons_self)
  | swap x y l =>
    intro s hs
    rw [foldl_cons, foldl_cons, foldl_cons, foldl_cons, hcomm s hs y (by simp) x (by simp)]
  | trans h₁ _ ih₁ ih₂ =>
    intro s hs
    exact (ih₁ hstep hcomm s hs).trans (ih₂ (fun s hs a ha => hstep s hs a (h₁.mem_iff.mpr ha))
        (fun s hs a ha b hb => hcomm s hs a (h₁.mem_iff.mpr ha) b (h₁.mem_iff.mpr hb)) s hs)

section Final
variable (saw : W → W → Prop) (key : W → K) [DecidableRel saw] {w : W} {l : List W}

instance (current incoming : W) : Decidable (Replaces saw key current incoming) :=
  inferInstanceAs (Decidable (_ ∨ (¬_ ∧ _)))

/-- One delivery; the first write to an empty register always goes in. -/
def settle (current : Option W) (incoming : W) : Option W :=
  match current with
  | none => some incoming
  | some c => if Replaces saw key c incoming then some incoming else some c

/-- The write that stands after a list of deliveries. -/
def settleAll (current : Option W) (l : List W) : Option W := l.foldl (settle saw key) current

/-- Everything a write saw, then the write, then the rest. -/
def pastFirst [DecidableEq W] (w : W) (l : List W) : List W :=
  l.filter (fun v => saw v w) ++ w :: l.filter (fun v => ¬saw v w ∧ v ≠ w)

variable {saw key}

theorem settle_of_replaces (h : ∀ c ∈ current, Replaces saw key c w) :
    settle saw key current w = some w := by
  cases current with
  | none => rfl
  | some c => exact if_pos (h c rfl)

theorem settleAll_append (current l l') :
    settleAll saw key current (l ++ l') = settleAll saw key (settleAll saw key current l) l' :=
  foldl_append

theorem settleAll_singleton (current w) :
    settleAll saw key current [w] = settle saw key current w := rfl

/-- What stands was there before or was delivered. -/
theorem settleAll_mem (h : settleAll saw key current l = some w) : current = some w ∨ w ∈ l := by
  induction l generalizing current with
  | nil => exact .inl h
  | cons v l ih =>
    rcases ih (h : settleAll saw key (settle saw key current v) l = some w) with hw | hw
    · cases current with
      | none =>
        rw [settle, some.injEq] at hw
        exact .inr (hw ▸ mem_cons_self)
      | some c =>
        rw [settle] at hw
        split at hw
        · exact .inr (some.inj hw ▸ mem_cons_self)
        · exact .inl hw
    · exact .inr (mem_cons_of_mem _ hw)

/-- A register that holds a write never gets empty again. -/
theorem settleAll_some (v l) : ∃ w, settleAll saw key (some v) l = some w := by
  induction l generalizing v with
  | nil => exact ⟨v, rfl⟩
  | cons u l ih =>
    rw [settleAll, foldl_cons, settle]
    split
    · exact ih u
    · exact ih v

/-- A write that nothing behind it replaces stays. -/
theorem settleAll_stays (h : ∀ v ∈ l, ¬Replaces saw key w v) :
    settleAll saw key (some w) l = some w := by
  induction l with
  | nil => rfl
  | cons v l ih =>
    have hv : settle saw key (some w) v = some w := if_neg (h v mem_cons_self)
    rw [settleAll, foldl_cons, hv]
    exact ih (fun u hu => h u (mem_cons_of_mem _ hu))

/-- A write that stands at the end and is not delivered again was never replaced. -/
theorem not_replaces_of_settleAll (hw : w ∉ l) (h : settleAll saw key (some w) l = some w) :
    ∀ v ∈ l, ¬Replaces saw key w v := by
  induction l with
  | nil => simp
  | cons v l ih =>
    have hvw : v ≠ w := fun he => hw (he ▸ mem_cons_self)
    have hwl : w ∉ l := fun hm => hw (mem_cons_of_mem _ hm)
    have hv : ¬Replaces saw key w v := by
      intro hr
      have hstep : settleAll saw key (some v) l = some w := by
        rw [settleAll, foldl_cons, settle, if_pos hr] at h
        exact h
      rcases settleAll_mem hstep with heq | hm
      · exact hvw (some.inj heq)
      · exact hwl hm
    rw [settleAll, foldl_cons, settle, if_neg hv] at h
    intro u hu
    rcases mem_cons.mp hu with rfl | hu
    · exact hv
    · exact ih hwl h u hu

variable {S : Finset W} {base : Option W}

/-- A deciding write stands at the end of every order. -/
theorem settleAll_of_decides (hw : w ∈ S) (hd : Decides saw key S w) (hbase : ∀ b ∈ base, saw b w)
    (hl : Enumerates S l) (hr : Respects saw l) : settleAll saw key base l = some w := by
  obtain ⟨l₁, l₂, rfl⟩ := append_of_mem ((hl.2 w).mpr hw)
  have hnd := nodup_append.mp hl.1
  have hw₁ : w ∉ l₁ := fun hm => hnd.2.2 w hm w mem_cons_self rfl
  have hw₂ : w ∉ l₂ := (nodup_cons.mp hnd.2.1).1
  rw [settleAll_append, settleAll, foldl_cons]
  have hturn : settle saw key (settleAll saw key base l₁) w = some w := by
    apply settle_of_replaces
    intro c hc
    rcases settleAll_mem hc with hb | hm
    · exact .inl (hbase c hb)
    · have hcS : c ∈ S := (hl.2 c).mp (mem_append_left _ hm)
      rcases hd c hcS (fun he => hw₁ (he ▸ hm)) with hs | ⟨hs, hk⟩
      · exact .inl hs
      · exact .inr ⟨hs, hk.le⟩
  rw [hturn]
  apply settleAll_stays
  intro v hv hrep
  have hvS : v ∈ S := (hl.2 v).mp (mem_append_right _ (mem_cons_of_mem _ hv))
  -- `v` comes behind `w`, so `w` did not see it
  have hlate : ¬saw v w := (pairwise_cons.mp (pairwise_append.mp hr).2.1).1 v hv
  rcases hd v hvS (fun he => hw₂ (he ▸ hv)) with hs | ⟨hs, hk⟩
  · exact hlate hs
  · rcases hrep with hs' | ⟨_, hk'⟩
    · exact hs hs'
    · exact absurd hk' (not_le.mpr hk)

theorem enumerates_pastFirst [DecidableEq W] (hs : StrictOn saw S) (hw : w ∈ S)
    (hl : Enumerates S l) : Enumerates S (pastFirst saw w l) := by
  constructor
  · refine nodup_append.mpr ⟨hl.1.filter _, nodup_cons.mpr ⟨by simp, hl.1.filter _⟩, ?_⟩
    intro a ha b hb
    rcases mem_cons.mp hb with rfl | hb
    · rintro rfl
      exact hs.irrefl _ hw (by simpa using (mem_filter.mp ha).2)
    · rintro rfl
      have h1 := (mem_filter.mp ha).2
      have h2 := (mem_filter.mp hb).2
      simp only [decide_eq_true_eq] at h1 h2
      exact h2.1 h1
  · intro v
    rw [← hl.2 v, pastFirst, mem_append, mem_cons, mem_filter, mem_filter]
    simp only [decide_eq_true_eq]
    constructor
    · rintro (⟨hv, _⟩ | rfl | ⟨hv, _⟩)
      · exact hv
      · exact (hl.2 _).mpr hw
      · exact hv
    · intro hv
      by_cases hsaw : saw v w
      · exact .inl ⟨hv, hsaw⟩
      · by_cases he : v = w
        · exact .inr (.inl he)
        · exact .inr (.inr ⟨hv, hsaw, he⟩)

theorem respects_pastFirst [DecidableEq W] (hs : StrictOn saw S) (hw : w ∈ S) (hl : Enumerates S l)
    (hr : Respects saw l) : Respects saw (pastFirst saw w l) := by
  refine pairwise_append.mpr ⟨hr.filter _, pairwise_cons.mpr ⟨?_, hr.filter _⟩, ?_⟩
  · intro v hv
    have := (mem_filter.mp hv).2
    simp only [decide_eq_true_eq] at this
    exact this.1
  · intro u hu v hv hsaw
    have huS : u ∈ S := (hl.2 u).mp (mem_filter.mp hu).1
    have huw : saw u w := by simpa using (mem_filter.mp hu).2
    rcases mem_cons.mp hv with rfl | hv
    · exact hs.irrefl _ huS (hs.trans u huS _ hw u huS huw hsaw)
    · have := (mem_filter.mp hv).2
      simp only [decide_eq_true_eq] at this
      have hvS : v ∈ S := (hl.2 v).mp (mem_filter.mp hv).1
      exact this.1 (hs.trans v hvS u huS w hw hsaw huw)

/-- With its past delivered first, a write takes the register at its turn. -/
theorem settleAll_pastFirst_turn [DecidableEq W] (hbase : ∀ b ∈ base, saw b w) :
    settleAll saw key base (pastFirst saw w l) =
      settleAll saw key (some w) (l.filter (fun v => ¬saw v w ∧ v ≠ w)) := by
  rw [pastFirst, settleAll_append, settleAll, foldl_cons]
  have hturn : settle saw key (settleAll saw key base (l.filter (fun v => saw v w))) w = some w := by
    apply settle_of_replaces
    intro c hc
    rcases settleAll_mem hc with hb | hm
    · exact .inl (hbase c hb)
    · exact .inl (by simpa using (mem_filter.mp hm).2)
  rw [hturn]
  rfl

/-- A write that stands at the end whether or not it comes as early as it can decides. -/
theorem decides_of_settleAll [DecidableEq W] (hinj : Set.InjOn key (S : Set W)) (hw : w ∈ S)
    (hbase : ∀ b ∈ base, saw b w) (hl : Enumerates S l)
    (h : settleAll saw key base (pastFirst saw w l) = some w) : Decides saw key S w := by
  rw [settleAll_pastFirst_turn hbase] at h
  have hstay := not_replaces_of_settleAll (by simp) h
  intro v hv hne
  by_cases hs : saw v w
  · exact .inl hs
  · have hnot := hstay v (mem_filter.mpr ⟨(hl.2 v).mpr hv, by simp [hs, hne]⟩)
    have hsw : ¬saw w v := fun hsw => hnot (.inl hsw)
    refine .inr ⟨hsw, lt_of_le_of_ne ?_ (fun he => hne (hinj hv hw he))⟩
    exact le_of_not_ge (fun hk => hnot (.inr ⟨hs, hk⟩))

/-- If every write saw what stood at first, one of them stands at the end. -/
theorem settleAll_mem_of_seen (hbase : ∀ b ∈ base, ∀ w ∈ l, saw b w) (hl : l ≠ []) :
    ∃ w ∈ l, settleAll saw key base l = some w := by
  obtain ⟨v, l, rfl⟩ := exists_cons_of_ne_nil hl
  have hfirst : settle saw key base v = some v :=
    settle_of_replaces (fun c hc => .inl (hbase c hc v mem_cons_self))
  obtain ⟨w, hw⟩ : ∃ w, settleAll saw key (some v) l = some w := settleAll_some v l
  refine ⟨w, ?_, by rw [settleAll, foldl_cons, hfirst]; exact hw⟩
  rcases settleAll_mem hw with heq | hm
  · exact some.inj heq ▸ mem_cons_self
  · exact mem_cons_of_mem _ hm

/-- Any finite set of writes has an order that respects what they saw. -/
theorem exists_respects [DecidableEq W] (hs : StrictOn saw S) :
    ∃ l, Enumerates S l ∧ Respects saw l := by
  -- sort by the number of writes seen
  let past : W → Nat := fun w => (S.filter (fun v => saw v w)).card
  let l := S.toList.insertionSort (fun a b => past a ≤ past b)
  have hperm : l.Perm S.toList := perm_insertionSort _ _
  have hmem : ∀ w, w ∈ l ↔ w ∈ S := fun w => by rw [hperm.mem_iff, Finset.mem_toList]
  refine ⟨l, ⟨hperm.nodup_iff.mpr S.nodup_toList, hmem⟩, ?_⟩
  have hsorted : l.Pairwise (fun a b => past a ≤ past b) := by
    have : Std.Total (fun a b : W => past a ≤ past b) := ⟨fun a b => le_total _ _⟩
    have : IsTrans W (fun a b : W => past a ≤ past b) := ⟨fun a b c => le_trans⟩
    exact pairwise_insertionSort _ _
  refine Pairwise.imp_of_mem (fun {a b} ha hb hle hsaw => ?_) hsorted
  have haS := (hmem a).mp ha
  have hbS := (hmem b).mp hb
  have hlt : past b < past a := by
    apply Finset.card_lt_card
    refine Finset.ssubset_iff_of_subset ?_ |>.mpr ⟨b, ?_, ?_⟩
    · intro v hv
      rw [Finset.mem_filter] at hv ⊢
      exact ⟨hv.1, hs.trans v hv.1 b hbS a haS hv.2 hsaw⟩
    · exact Finset.mem_filter.mpr ⟨hbS, hsaw⟩
    · exact fun hm => hs.irrefl b hbS (Finset.mem_filter.mp hm).2
  omega

/-- Without a deciding write, two orders end in different writes. -/
theorem exists_orders_differ [DecidableEq W] (hs : StrictOn saw S)
    (hinj : Set.InjOn key (S : Set W)) (hbase : ∀ b ∈ base, ∀ w ∈ S, saw b w) (hne : S.Nonempty)
    (hd : ¬∃ w ∈ S, Decides saw key S w) :
    ∃ l l' w w', (Enumerates S l ∧ Respects saw l) ∧ (Enumerates S l' ∧ Respects saw l') ∧
      w ∈ S ∧ w' ∈ S ∧ w ≠ w' ∧ settleAll saw key base l = some w ∧
      settleAll saw key base l' = some w' := by
  have hends : ∀ l, Enumerates S l → ∃ w ∈ S, settleAll saw key base l = some w := by
    intro l hl
    obtain ⟨v, hv⟩ := hne
    have hseen : ∀ b ∈ base, ∀ w ∈ l, saw b w := fun b hb w hw => hbase b hb w ((hl.2 w).mp hw)
    have hne : l ≠ [] := ne_nil_of_mem ((hl.2 v).mpr hv)
    obtain ⟨w, hw, hfin⟩ : ∃ w ∈ l, settleAll saw key base l = some w :=
      settleAll_mem_of_seen hseen hne
    exact ⟨w, (hl.2 w).mp hw, hfin⟩
  obtain ⟨l, hl, hr⟩ := exists_respects hs
  obtain ⟨w, hw, hfin⟩ := hends l hl
  have hl' := enumerates_pastFirst hs hw hl
  obtain ⟨w', hw', hfin'⟩ := hends _ hl'
  refine ⟨l, _, w, w', ⟨hl, hr⟩, ⟨hl', respects_pastFirst hs hw hl hr⟩, hw, hw', ?_, hfin, hfin'⟩
  rintro rfl
  exact hd ⟨w, hw, decides_of_settleAll hinj hw (fun b hb => hbase b hb w hw) hl hfin'⟩

/-! ### Writes made without each other in view -/

/-- Two such writes may change places: from an empty register, behind a write both saw, or
    behind one that none of them saw. -/
theorem settle_right_comm (hab : ¬saw a b) (hba : ¬saw b a)
    (hinj : key a = key b → a = b) (hz : ∀ c ∈ z, (saw c a ∧ saw c b) ∨
      (¬saw c a ∧ ¬saw a c) ∧ (¬saw c b ∧ ¬saw b c) ∧ (key c = key a → c = a) ∧
        (key c = key b → c = b)) :
    settle saw key (settle saw key z a) b = settle saw key (settle saw key z b) a := by
  have hpair : settle saw key (some a) b = settle saw key (some b) a := by
    simp only [settle, Replaces, hab, hba, false_or, not_false_eq_true, true_and]
    rcases lt_trichotomy (key a) (key b) with h | h | h
    · rw [if_pos h.le, if_neg (not_le.mpr h)]
    · rw [hinj h]
    · rw [if_neg (not_le.mpr h), if_pos h.le]
  cases z with
  | none => exact hpair
  | some c =>
    rcases hz c rfl with ⟨hca, hcb⟩ | ⟨⟨hca, hac⟩, ⟨hcb, hbc⟩, hia, hib⟩
    · have ha : settle saw key (some c) a = some a := if_pos (.inl hca)
      have hb : settle saw key (some c) b = some b := if_pos (.inl hcb)
      rw [ha, hb]
      exact hpair
    · -- the largest of the three stands in the end
      have ha : settle saw key (some c) a = if key c ≤ key a then some a else some c := by
        simp [settle, Replaces, hca, hac]
      have hb : settle saw key (some c) b = if key c ≤ key b then some b else some c := by
        simp [settle, Replaces, hcb, hbc]
      have hab' : settle saw key (some a) b = if key a ≤ key b then some b else some a := by
        simp [settle, Replaces, hab, hba]
      rw [ha, hb]
      by_cases h1 : key c ≤ key a <;> by_cases h2 : key c ≤ key b
      · rw [if_pos h1, if_pos h2]
        exact hpair
      · have hlt : ¬key a ≤ key b := fun h => h2 (h1.trans h)
        rw [if_pos h1, if_neg h2, ha, if_pos h1, hab', if_neg hlt]
      · have hle : key a ≤ key b := (le_of_not_ge h1).trans h2
        rw [if_neg h1, if_pos h2, hb, if_pos h2, ← hpair, hab', if_pos hle]
      · rw [if_neg h1, if_neg h2, ha, hb, if_neg h1, if_neg h2]

/-- Writes none of which saw another settle the same in every order, from an empty register or
    one that all of them saw. -/
theorem settleAll_perm {l l' : List W} (hp : l.Perm l') (hfree : ∀ a ∈ l, ∀ b ∈ l, ¬saw a b)
    (hinj : ∀ a ∈ l, ∀ b ∈ l, key a = key b → a = b) (hbase : ∀ b ∈ base, ∀ w ∈ l, saw b w) :
    settleAll saw key base l = settleAll saw key base l' := by
  -- what stands is the first write or one of the list
  let I : Option W → Prop := fun z => ∀ c ∈ z, (∀ w ∈ l, saw c w) ∨ c ∈ l
  refine foldl_perm_of_commute (I := I) hp ?_ ?_ base (fun c hc => .inl (hbase c hc))
  · intro z hz a ha c hc
    rcases settleAll_mem (l := [a]) (show settleAll saw key z [a] = some c from hc) with h | h
    · exact hz c h
    · rw [mem_singleton.mp h]
      exact .inr ha
  · intro z hz a ha b hb
    refine settle_right_comm (hfree a ha b hb) (hfree b hb a ha) (hinj a ha b hb) ?_
    intro c hc
    rcases hz c hc with h | h
    · exact .inl ⟨h a ha, h b hb⟩
    · exact .inr ⟨⟨hfree c h a ha, hfree a ha c h⟩, ⟨hfree c h b hb, hfree b hb c h⟩,
        hinj c h a ha, hinj c h b hb⟩

end Final
end MdCrdt.Lib
