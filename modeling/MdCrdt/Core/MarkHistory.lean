import MdCrdt.Core.Mark
import MdCrdt.Lib.Newest

/- Mark sets as histories of calls (`core/mark.rs`).

  The kind and the anchors of an interval, each of its attributes and its remove are
  cells of their own, and each holds the newest call that wrote it (`Holds`). So a mark
  set depends only on which calls were made, in whatever order and however often. Two
  things are lost: of the removes of an interval only the newest is kept, so an older one
  that saw the interval is forgotten; and merging takes an interval from one side whole,
  with the attributes of that side alone.

  Correspondence (Rust ↔ Lean):
    a call of `set_mark`, `remove_mark` ↔ `MarkCall`, `MarkSet.call`
    the `or_insert_with` of `set_mark` ↔ `MarkInterval.bare`
    `merge_from` ↔ `MarkSet.mergeFrom`, `mergeNewest` -/
namespace MdCrdt
open Lib List Option SortedMap MarkInterval

/-- A call on a mark set; attributes come as a map, in order of their keys. -/
inductive MarkCall where
  | setMark (intervalId : OpId) (kind : MarkKind) (start stop : Anchor)
      (attrs : SortedMap String MarkValue) (sorted : attrs.Sorted) (opId : OpId)
  | removeMark (intervalId : OpId) (observed : StateVector) (opId : OpId)
  deriving DecidableEq

namespace MarkCall

def intervalId : MarkCall → OpId
  | setMark i _ _ _ _ _ _ => i
  | removeMark i _ _ => i

def opId : MarkCall → OpId
  | setMark _ _ _ _ _ _ o => o
  | removeMark _ _ o => o

/-- What the call writes to kind and anchors of an interval. -/
def sets (i : OpId) : MarkCall → Option MarkInterval
  | setMark j kind start stop _ _ o =>
    if j = i then some ⟨i, kind, start, stop, .empty, o⟩ else none
  | removeMark _ _ _ => none

/-- What it writes to one of the attributes. -/
def writes (i : OpId) (key : String) : MarkCall → Option (LwwRegister MarkValue)
  | setMark j _ _ _ attrs _ o => if j = i then (attrs.get? key).map (⟨·, o⟩) else none
  | removeMark _ _ _ => none

def removes (i : OpId) : MarkCall → Option RemoveMark
  | setMark _ _ _ _ _ _ _ => none
  | removeMark j observed o => if j = i then some ⟨observed, o⟩ else none

end MarkCall

/-- Calls on one interval under one id are the same call. -/
def Coherent (calls : List MarkCall) : Prop :=
  ∀ c ∈ calls, ∀ d ∈ calls, c.intervalId = d.intervalId → c.opId = d.opId → c = d

/-- The interval without its attributes. -/
def MarkInterval.bare (interval : MarkInterval) : MarkInterval :=
  { interval with attrs := .empty }

namespace MarkSet
variable {calls : List MarkCall} {c : MarkCall}

def call (m : MarkSet) : MarkCall → MarkSet
  | .setMark i kind start stop attrs _ o => m.setMark i kind start stop attrs o
  | .removeMark i observed o => m.removeMark i observed o

/-- The mark set that a list of calls builds. -/
def build (calls : List MarkCall) : MarkSet := calls.foldl call new

/-- Every cell of the mark set holds the newest call that wrote it. -/
structure Holds (calls : List MarkCall) (m : MarkSet) : Prop where
  intervalsSorted : m.intervals.Sorted
  removesSorted : m.removes.Sorted
  attrsSorted : ∀ i, ∀ interval ∈ m.intervals.get? i, interval.attrs.Sorted
  set : ∀ i, Newest MarkInterval.opId (calls.filterMap (MarkCall.sets i))
    ((m.intervals.get? i).map bare)
  attrs : ∀ i key, Newest LwwRegister.opId (calls.filterMap (MarkCall.writes i key))
    ((m.intervals.get? i).bind (·.attrs.get? key))
  removed : ∀ i, Newest RemoveMark.opId (calls.filterMap (MarkCall.removes i)) (m.removes.get? i)

/-! ## One call -/

theorem get?_setAttr (attrs : SortedMap String (LwwRegister MarkValue)) (key k value o) :
    (setAttr attrs key value o).get? k =
      if k = key then some (((attrs.get? key).map (·.set value o)).getD ⟨value, o⟩)
      else attrs.get? k := by
  unfold setAttr
  cases hk : attrs.get? key <;> simp

theorem sorted_setAttr {attrs : SortedMap String (LwwRegister MarkValue)} (h : attrs.Sorted)
    (key value o) : (setAttr attrs key value o).Sorted := by
  unfold setAttr
  cases attrs.get? key with
  | none | some reg => exact sorted_insert h _ _

/-- The loop over the attributes of a call. -/
def setAttrs (attrs : SortedMap String (LwwRegister MarkValue)) (l : List (String × MarkValue))
    (o : OpId) : SortedMap String (LwwRegister MarkValue) :=
  l.foldl (fun acc kv => setAttr acc kv.1 kv.2 o) attrs

theorem sorted_setAttrs (l o) : ∀ {attrs : SortedMap String (LwwRegister MarkValue)}, attrs.Sorted →
      (setAttrs attrs l o).Sorted :=
  fun h => foldlRecOn l _ h (fun _ hm kv _ => sorted_setAttr hm kv.1 kv.2 o)

theorem get?_setAttrs (hl : l.Pairwise (fun a b => a.1 < b.1))
    (o k) : ∀ (attrs : SortedMap String (LwwRegister MarkValue)),
      (setAttrs attrs l o).get? k = match SortedMap.lookupList k l with
        | none => attrs.get? k
        | some value => some (((attrs.get? k).map (·.set value o)).getD ⟨value, o⟩) := by
  induction l with
  | nil => exact fun _ => rfl
  | cons kv l ih =>
    intro attrs
    have htail := pairwise_cons.mp hl
    have hstep : setAttrs attrs (kv :: l) o = setAttrs (setAttr attrs kv.1 kv.2 o) l o := rfl
    rw [hstep, ih htail.2, get?_setAttr]
    by_cases hk : k = kv.1
    · -- the keys behind are larger, so the first entry is the only one under `k`
      subst hk
      simp [lookupList_none_of_lt htail.1, SortedMap.lookupList]
    · simp [SortedMap.lookupList, hk]

/-- An attribute after a call is the newest of what was there and what the call writes. -/
theorem newest_setAttrs {attrs : SortedMap String (LwwRegister MarkValue)}
    (h : Newest LwwRegister.opId l (attrs.get? key)) {written : SortedMap String MarkValue}
    (hw : written.Sorted) (o) :
    Newest LwwRegister.opId (l ++ ((written.get? key).map (LwwRegister.mk · o)).toList)
      ((setAttrs attrs written.entries o).get? key) := by
  rw [get?_setAttrs hw]
  have hget : SortedMap.lookupList key written.entries = written.get? key := rfl
  rw [hget]
  cases written.get? key with
  | none => simpa using h
  | some value =>
    cases hk : attrs.get? key with
    | none => exact (hk ▸ h).replace (by simp)
    | some reg =>
      rw [hk] at h
      show Newest _ _ (some (reg.set value o))
      unfold LwwRegister.set
      by_cases ho : reg.opId ≤ o
      · rw [if_pos ho]
        exact h.replace (by simpa using ho)
      · rw [if_neg ho]
        exact h.keep (le_of_not_ge ho)

theorem filterMap_snoc {A B : Type} (f : A → Option B) (l a) :
    (l ++ [a]).filterMap f = l.filterMap f ++ (f a).toList := by
  cases h : f a <;> simp [h]

namespace Holds
variable {calls calls' : List MarkCall} {m m' : MarkSet}

theorem id_eq (h : Holds calls m) {i interval}
    (hi : m.intervals.get? i = some interval) : interval.id = i := by
  have hset := h.set i
  rw [hi] at hset
  obtain ⟨c, _, hc⟩ := mem_filterMap.mp hset.1
  cases c with
  | removeMark => cases hc
  | setMark j kind start stop attrs sorted o =>
    simp only [MarkCall.sets] at hc
    split at hc
    · exact (congrArg MarkInterval.id (some.inj hc)).symm
    · cases hc

theorem new : Holds [] .new where
  intervalsSorted := sorted_empty
  removesSorted := sorted_empty
  attrsSorted _ _ h := by cases h
  set _ := rfl
  attrs _ _ := rfl
  removed _ := rfl

section
variable (h : Holds calls m)
include h

/-- Kind and anchors after a call: of the entry found, or made for the call, or of the call. -/
theorem set_newest (i kind start stop o) (he : entry = (m.intervals.get? i).getD
      ⟨i, kind, start, stop, .empty, o⟩) : Newest MarkInterval.opId
      (calls.filterMap (MarkCall.sets i) ++ [⟨i, kind, start, stop, .empty, o⟩])
      (some (if entry.opId ≤ o then ⟨entry.id, kind, start, stop, entry.attrs, o⟩
        else entry).bare) := by
  have hset := h.set i
  cases hk : m.intervals.get? i with
  | none =>
    rw [hk] at hset he
    subst he
    simpa [bare] using hset.replace (by simp)
  | some found =>
    have hfound : entry = found := by simpa [hk] using he
    subst hfound
    rw [hk] at hset
    by_cases ho : entry.opId ≤ o
    · rw [if_pos ho, h.id_eq hk]
      exact hset.replace (fun v hv => some.inj hv ▸ ho)
    · rw [if_neg ho]
      exact hset.keep (le_of_not_ge ho)

theorem setMark (j kind start stop)
    (attrs : SortedMap String MarkValue) (sorted : attrs.Sorted) (o) :
    Holds (calls ++ [.setMark j kind start stop attrs sorted o])
      (m.setMark j kind start stop attrs o) := by
  obtain ⟨entry, he⟩ : ∃ entry, entry = (m.intervals.get? j).getD
    ⟨j, kind, start, stop, .empty, o⟩ := ⟨_, rfl⟩
  -- the entry is updated and stored back, then its attributes are written
  have hget : ∀ i, (m.setMark j kind start stop attrs o).intervals.get? i =
      if i = j then some { (if entry.opId ≤ o then ⟨entry.id, kind, start, stop, entry.attrs, o⟩
          else entry : MarkInterval) with
        attrs := setAttrs entry.attrs attrs.entries o } else m.intervals.get? i := by
    intro i
    rw [MarkSet.setMark, get?_insert, ← he]
    split
    · split <;> rfl
    · rfl
  have hattrs : ∀ key, (m.intervals.get? j).bind (·.attrs.get? key) = entry.attrs.get? key := by
    intro key
    subst he
    cases m.intervals.get? j <;> rfl
  have hsorted : entry.attrs.Sorted := by
    subst he
    cases hk : m.intervals.get? j with
    | none => exact sorted_empty
    | some found => exact h.attrsSorted j found hk
  refine ⟨sorted_insert h.intervalsSorted _ _, h.removesSorted, ?_, ?_, ?_, ?_⟩
  · intro i interval hi
    rw [hget] at hi
    split at hi
    · rw [← some.inj hi]
      exact sorted_setAttrs _ _ hsorted
    · exact h.attrsSorted i interval hi
  · intro i
    rw [filterMap_snoc, hget]
    by_cases hi : i = j
    · subst hi
      simpa [MarkCall.sets, bare] using h.set_newest i kind start stop o he
    · simpa [MarkCall.sets, hi, Ne.symm hi] using h.set i
  · intro i key
    rw [filterMap_snoc, hget]
    by_cases hi : i = j
    · subst hi
      have hold := h.attrs i key
      rw [hattrs] at hold
      simpa [MarkCall.writes] using newest_setAttrs hold sorted o
    · simpa [MarkCall.writes, hi, Ne.symm hi] using h.attrs i key
  · intro i
    rw [filterMap_snoc]
    exact (append_nil _).symm ▸ h.removed i

theorem removeMark (j observed o) :
    Holds (calls ++ [.removeMark j observed o]) (m.removeMark j observed o) := by
  have hintervals : (m.removeMark j observed o).intervals = m.intervals := by
    unfold MarkSet.removeMark
    split <;> rfl
  refine ⟨hintervals ▸ h.intervalsSorted, ?_, hintervals ▸ h.attrsSorted, ?_, ?_, ?_⟩
  · unfold MarkSet.removeMark
    split
    · exact h.removesSorted
    · exact sorted_insert h.removesSorted _ _
  · intro i
    rw [filterMap_snoc, hintervals]
    exact (append_nil _).symm ▸ h.set i
  · intro i key
    rw [filterMap_snoc, hintervals]
    exact (append_nil _).symm ▸ h.attrs i key
  · intro i
    rw [filterMap_snoc]
    by_cases hi : i = j
    · subst hi
      have hold := h.removed i
      simp only [MarkCall.removes, if_true, toList_some, MarkSet.removeMark]
      cases hk : m.removes.get? i with
      | none => simpa [hk] using (hk ▸ hold).replace (by simp)
      | some existing =>
        rw [hk] at hold
        by_cases ho : o ≤ existing.opId
        · simpa [ho, hk] using hold.keep ho
        · simpa [ho] using hold.replace (by simpa using le_of_not_ge ho)
    · have hsame : (m.removeMark j observed o).removes.get? i = m.removes.get? i := by
        unfold MarkSet.removeMark
        split
        · rfl
        · simp [hi]
      rw [hsame]
      simpa [MarkCall.removes, Ne.symm hi] using h.removed i

theorem call (c) : Holds (calls ++ [c]) (m.call c) := by
  cases c with
  | setMark j kind start stop attrs sorted o => exact h.setMark j kind start stop attrs sorted o
  | removeMark j observed o => exact h.removeMark j observed o

theorem run (cs) : Holds (calls ++ cs) (cs.foldl MarkSet.call m) := by
  induction cs generalizing calls m with
  | nil => simpa using h
  | cons c cs ih => simpa using ih (h.call c)

end

theorem build (cs) : Holds cs (MarkSet.build cs) := new.run cs

end Holds

/-! ## The calls decide the mark set -/

variable {i : OpId} {V : Type}

theorem stamp_sets (h : c.sets i = some v) : c.intervalId = i ∧ c.opId = v.opId := by
  cases c with
  | removeMark => cases h
  | setMark =>
    simp only [MarkCall.sets, ite_none_right_eq_some] at h
    exact ⟨h.1, congrArg MarkInterval.opId (some.inj h.2)⟩

theorem stamp_writes (h : c.writes i key = some v) : c.intervalId = i ∧ c.opId = v.opId := by
  cases c with
  | removeMark => cases h
  | setMark =>
    simp only [MarkCall.writes, ite_none_right_eq_some] at h
    obtain ⟨value, _, rfl⟩ := map_eq_some_iff.mp h.2
    exact ⟨h.1, rfl⟩

theorem stamp_removes (h : c.removes i = some v) : c.intervalId = i ∧ c.opId = v.opId := by
  cases c with
  | setMark => cases h
  | removeMark =>
    simp only [MarkCall.removes, ite_none_right_eq_some] at h
    exact ⟨h.1, congrArg RemoveMark.opId (some.inj h.2)⟩

theorem stamped {stamp : V → OpId} {f : MarkCall → Option V}
    (hf : ∀ {c v}, f c = some v → c.intervalId = i ∧ c.opId = stamp v) (hc : Coherent calls) :
    ∀ v ∈ calls.filterMap f, ∀ w ∈ calls.filterMap f, stamp v = stamp w → v = w := by
  intro v hv w hw hvw
  obtain ⟨c, hcm, hcv⟩ := mem_filterMap.mp hv
  obtain ⟨d, hdm, hdw⟩ := mem_filterMap.mp hw
  have hsame : c = d := hc c hcm d hdm ((hf hcv).1.trans (hf hdw).1.symm)
    ((hf hcv).2.trans (hvw.trans (hf hdw).2.symm))
  exact some.inj (hcv.symm.trans (hsame ▸ hdw))

/-- One cell of one interval, after the same calls. -/
theorem cell_unique {stamp : V → OpId} {f : MarkCall → Option V}
    (hf : ∀ {c v}, f c = some v → c.intervalId = i ∧ c.opId = stamp v)
    {calls' : List MarkCall} (hc : Coherent calls) (hmem : ∀ c, c ∈ calls ↔ c ∈ calls')
    (hx : Newest stamp (calls.filterMap f) x)
    (hy : Newest stamp (calls'.filterMap f) y) : x = y := by
  refine hx.unique hy ?_ (stamped hf hc)
  intro w
  simp only [mem_filterMap, hmem]

theorem interval_ext {x y : Option MarkInterval} (hbare : x.map bare = y.map bare)
    (hx : ∀ interval ∈ x, interval.attrs.Sorted) (hy : ∀ interval ∈ y, interval.attrs.Sorted)
    (hattrs : ∀ key, x.bind (·.attrs.get? key) = y.bind (·.attrs.get? key)) : x = y := by
  cases x with
  | none => cases y with
    | none => rfl
    | some b => cases hbare
  | some a => cases y with
    | none => cases hbare
    | some b =>
      have hab : a.attrs = b.attrs := ext_get? (hx a rfl) (hy b rfl) hattrs
      have hrest := some.inj hbare
      cases a
      cases b
      simp_all [bare]

theorem Holds.unique {calls' m m'} (h : Holds calls m)
    (h' : Holds calls' m') (hc : Coherent calls) (hmem : ∀ c, c ∈ calls ↔ c ∈ calls') : m = m' := by
  have hintervals : m.intervals = m'.intervals := by
    apply ext_get? h.intervalsSorted h'.intervalsSorted
    intro i
    apply interval_ext _ (h.attrsSorted i) (h'.attrsSorted i)
    · exact fun key => cell_unique stamp_writes hc hmem (h.attrs i key) (h'.attrs i key)
    · exact cell_unique stamp_sets hc hmem (h.set i) (h'.set i)
  have hremoves : m.removes = m'.removes := by
    apply ext_get? h.removesSorted h'.removesSorted
    exact fun i => cell_unique stamp_removes hc hmem (h.removed i) (h'.removed i)
  cases m; cases m'
  simp_all

/-- Set the link `(1,1)` over unit `(1,2)`, with one attribute. -/
def linkCall (key value : String) (o : OpId) : MarkCall :=
  .setMark ⟨1, 1⟩ .link ⟨⟨1, 2⟩, .before⟩ ⟨⟨1, 2⟩, .after⟩ ⟨[(key, .string value)]⟩
    (pairwise_singleton _ _) o

instance (calls : List MarkCall) : Decidable (Coherent calls) :=
  inferInstanceAs (Decidable (∀ c ∈ calls, ∀ d ∈ calls, _ → _ → c = d))

/-- Calls may come in any order and any number of times. -/
theorem build_order_independent {calls calls' : List MarkCall} (hc : Coherent calls)
    (hmem : ∀ c, c ∈ calls ↔ c ∈ calls') :
    build calls = build calls' ∧ ∀ i, (build calls).isActive i = (build calls').isActive i := by
  have hbuild : build calls = build calls' :=
    (Holds.build calls).unique (Holds.build calls') hc hmem
  exact ⟨hbuild, fun i => by rw [hbuild]⟩

theorem build_order_independent_reversed :
    build [linkCall "href" "a" ⟨1, 1⟩, linkCall "href" "b" ⟨2, 2⟩] =
      build [linkCall "href" "b" ⟨2, 2⟩, linkCall "href" "a" ⟨1, 1⟩, linkCall "href" "b" ⟨2, 2⟩] :=
  (build_order_independent (by decide) (by intro c; simp; tauto)).1

/-! ## Removes -/

/-- If a remove of the interval saw it, so did the newest remove. -/
def NewestSaw (calls : List MarkCall) (i : OpId) : Prop :=
  ∀ r ∈ calls.filterMap (MarkCall.removes i), r.observed.covers i →
    ∀ last, Newest RemoveMark.opId (calls.filterMap (MarkCall.removes i)) (some last) →
      last.observed.covers i

theorem isActive_iff {m} (h : Holds calls m) (hset : calls.filterMap (MarkCall.sets i) ≠ []) :
    m.isActive i = true ↔ ∀ r ∈ m.removes.get? i, ¬r.observed.covers i := by
  unfold isActive
  cases hk : m.intervals.get? i with
  | none =>
    have hnone := h.set i
    rw [hk] at hnone
    exact absurd hnone hset
  | some interval =>
    have hid := h.id_eq hk
    cases m.removes.get? i <;> simp [StateVector.covers, hid]

/-- An interval is active as long as no remove saw it exactly where an older remove that
    saw it is not followed by a newer one that did not. -/
theorem active_iff_unseen_iff {calls : List MarkCall} (hc : Coherent calls) {i : OpId}
    (hset : calls.filterMap (MarkCall.sets i) ≠ []) : ((build calls).isActive i = true ↔
      ∀ r ∈ calls.filterMap (MarkCall.removes i), ¬r.observed.covers i) ↔ NewestSaw calls i := by
  have h := Holds.build calls
  rw [isActive_iff h hset]
  have hnewest := h.removed i
  constructor
  · intro hiff r hr hsaw last hlast
    have hstored : (build calls).removes.get? i = some last :=
      cell_unique stamp_removes hc (fun _ => Iff.rfl) hnewest hlast
    by_contra hunseen
    refine hiff.mp ?_ r hr hsaw
    intro v hv
    rw [hstored] at hv
    exact some.inj hv ▸ hunseen
  · intro hsaw
    cases hstored : (build calls).removes.get? i with
    | none =>
      rw [hstored] at hnewest
      have hnil : calls.filterMap (MarkCall.removes i) = [] := hnewest
      simp [hnil]
    | some last =>
      rw [hstored] at hnewest
      constructor
      · intro hunseen r hr hcov
        exact hunseen last rfl (hsaw r hr hcov last hnewest)
      · intro hunseen r hr
        exact some.inj hr ▸ hunseen last hnewest.1

/-- The older remove has not seen the link, the newer one has. -/
theorem active_iff_unseen_iff_removed :
    let calls := [linkCall "href" "a" ⟨1, 1⟩, .removeMark ⟨1, 1⟩ .new ⟨2, 2⟩,
      .removeMark ⟨1, 1⟩ (StateVector.new.set 1 1) ⟨3, 1⟩]
    (build calls).isActive ⟨1, 1⟩ = false ∧ (((build calls).isActive ⟨1, 1⟩ = true ↔
      ∀ r ∈ calls.filterMap (MarkCall.removes ⟨1, 1⟩), ¬r.observed.covers ⟨1, 1⟩) ↔
        NewestSaw calls ⟨1, 1⟩) :=
  ⟨by decide, active_iff_unseen_iff (by decide) (by decide)⟩

/-- The remove `(2,1)` saw the link, and the remove `(3,2)`, which did not, brings it back. -/
theorem removed_link_active : let calls := [linkCall "href" "a" ⟨1, 1⟩,
      .removeMark ⟨1, 1⟩ (StateVector.new.set 1 1) ⟨2, 1⟩, .removeMark ⟨1, 1⟩ .new ⟨3, 2⟩]
    (calls.map MarkCall.opId).Nodup ∧ (build calls).isActive ⟨1, 1⟩ = true ∧
      ∃ r ∈ calls.filterMap (MarkCall.removes ⟨1, 1⟩), r.observed.covers ⟨1, 1⟩ := by
  decide

/-! ## Merging -/

/-- Of two cells the one with the larger stamp, the first one if they have the same. -/
def newerCell {V : Type} (stamp : V → OpId) (x y : Option V) : Option V :=
  match y with
  | none => x
  | some b => if x.any (fun a => stamp b ≤ stamp a) then x else some b

theorem newest_newerCell {stamp : V → OpId} (hx : Newest stamp l x)
    (hy : Newest stamp l' y) : Newest stamp (l ++ l') (newerCell stamp x y) := by
  cases y with
  | none =>
    have hnil : l' = [] := hy
    simpa [newerCell, hnil] using hx
  | some b =>
    cases x with
    | none => exact (hy.append hx (by simp)).append_comm
    | some a =>
      by_cases hab : stamp b ≤ stamp a
      · simpa [newerCell, hab] using hx.append hy (by simpa using hab)
      · have hba : stamp a ≤ stamp b := le_of_not_ge hab
        simpa [newerCell, hab] using (hy.append hx (by simpa using hba)).append_comm

theorem get?_mergeNewest (opId : V → OpId) (m : SortedMap OpId V) {other : SortedMap OpId V}
    (ho : other.Sorted) (k) :
    (mergeNewest opId m other).get? k = newerCell opId (m.get? k) (other.get? k) := by
  obtain ⟨l⟩ := other
  show (l.foldl _ m).get? k = newerCell opId (m.get? k) (SortedMap.lookupList k l)
  induction l generalizing m with
  | nil => rfl
  | cons e l ih =>
    have htail := pairwise_cons.mp ho
    rw [foldl_cons, ih _ htail.2]
    by_cases hk : k = e.1
    · subst hk
      -- the keys behind are larger, so the rest of the loop does not come back to this one
      rw [lookupList_none_of_lt htail.1]
      simp only [SortedMap.lookupList, if_true, newerCell]
      split
      · rfl
      · simp
    · have hsame : (if (m.get? e.1).any (fun a => opId e.2 ≤ opId a) then m
          else m.insert e.1 e.2).get? k = m.get? k := by
        split
        · rfl
        · simp [hk]
      simp only [hsame, SortedMap.lookupList, hk, if_false]

theorem sorted_mergeNewest (opId : V → OpId) {m : SortedMap OpId V} (h : m.Sorted)
    (other : SortedMap OpId V) : (mergeNewest opId m other).Sorted := by
  refine foldlRecOn other.entries _ h (fun m hm e _ => ?_)
  split
  · exact hm
  · exact sorted_insert hm _ _

/-- Every write of an attribute on one side is followed by one on the other. -/
def Outwrites (i : OpId) (winner other : List MarkCall) : Prop :=
  ∀ key, ∀ w ∈ other.filterMap (MarkCall.writes i key),
    ∃ v ∈ winner.filterMap (MarkCall.writes i key), w.opId ≤ v.opId

/-- Of an interval set on both sides, the side with the newest call has the newest write of
    every attribute too. -/
def KeepsAt (calls others : List MarkCall) (i : OpId) : Prop :=
  ∀ s t, Newest MarkInterval.opId (calls.filterMap (MarkCall.sets i)) (some s) →
    Newest MarkInterval.opId (others.filterMap (MarkCall.sets i)) (some t) →
    if t.opId ≤ s.opId then Outwrites i calls others else Outwrites i others calls

def MergeKeeps (calls others : List MarkCall) : Prop := ∀ i, KeepsAt calls others i

/-- The attributes of one side are those of both. -/
theorem attrs_eq_iff {x z : Option MarkInterval}
    (hx : ∀ key, Newest LwwRegister.opId (calls.filterMap (MarkCall.writes i key)) (x.bind (·.attrs.get? key)))
    (hz : ∀ key, Newest LwwRegister.opId ((calls ++ others).filterMap (MarkCall.writes i key)) (z.bind (·.attrs.get? key)))
    (hcoh : Coherent (calls ++ others)) :
    (∀ key, x.bind (·.attrs.get? key) = z.bind (·.attrs.get? key)) ↔ Outwrites i calls others := by
  apply forall_congr'
  intro key
  have hboth := hz key
  rw [filterMap_append] at hboth
  refine (hx key).eq_append_iff hboth ?_
  rw [← filterMap_append]
  exact stamped stamp_writes hcoh

theorem newerCell_bare (x y) : (newerCell MarkInterval.opId x y).map bare =
      newerCell MarkInterval.opId (x.map bare) (y.map bare) := by
  cases y with
  | none => rfl
  | some b =>
    cases x with
    | none => rfl
    | some a => by_cases hab : b.opId ≤ a.opId <;> simp [newerCell, bare, hab]

/-- One interval of a merge against the history of both sides. -/
theorem merged_interval_iff {others : List MarkCall} {a b c : MarkSet} (ha : Holds calls a)
    (hb : Holds others b) (hc : Holds (calls ++ others) c) (hcoh : Coherent (calls ++ others)) (i) :
    newerCell MarkInterval.opId (a.intervals.get? i) (b.intervals.get? i) = c.intervals.get? i ↔
      KeepsAt calls others i := by
  have hswap : Coherent (others ++ calls) := by
    simpa only [Coherent, mem_append, or_comm] using hcoh
  have hboth : ∀ key, Newest LwwRegister.opId ((others ++ calls).filterMap (MarkCall.writes i key))
      ((c.intervals.get? i).bind (·.attrs.get? key)) := by
    intro key
    have hkey := hc.attrs i key
    rw [filterMap_append] at hkey ⊢
    exact hkey.append_comm
  -- kind and anchors agree in any case, so the attributes decide
  have hbare := newest_newerCell (ha.set i) (hb.set i)
  rw [← newerCell_bare, ← filterMap_append] at hbare
  have hset := cell_unique stamp_sets hcoh (fun _ => Iff.rfl) hbare (hc.set i)
  generalize hcell : newerCell MarkInterval.opId (a.intervals.get? i) (b.intervals.get? i) = cell
    at hset ⊢
  have hattrs : (∀ interval ∈ cell, interval.attrs.Sorted) → (cell = c.intervals.get? i ↔
      ∀ key, cell.bind (·.attrs.get? key) = (c.intervals.get? i).bind (·.attrs.get? key)) := by
    intro hsorted
    exact ⟨fun h key => by rw [h], interval_ext hset hsorted (hc.attrsSorted i)⟩
  have hleft : a.intervals.get? i = cell →
      (cell = c.intervals.get? i ↔ Outwrites i calls others) := by
    rintro rfl
    rw [hattrs (ha.attrsSorted i), attrs_eq_iff (ha.attrs i) (hc.attrs i) hcoh]
  have hright : b.intervals.get? i = cell →
      (cell = c.intervals.get? i ↔ Outwrites i others calls) := by
    rintro rfl
    rw [hattrs (hb.attrsSorted i), attrs_eq_iff (hb.attrs i) hboth hswap]
  have haa := ha.attrs i
  have hba := hb.attrs i
  have hsetA := ha.set i
  have hsetB := hb.set i
  cases hy : b.intervals.get? i with
  | none =>
    rw [hy] at hcell hba hsetB
    have hnil : others.filterMap (MarkCall.sets i) = [] := hsetB
    rw [hleft hcell]
    constructor
    · intro _ s t _ ht
      simp [hnil, Newest] at ht
    · intro _ key w hw
      have hnone : others.filterMap (MarkCall.writes i key) = [] := hba key
      simp [hnone] at hw
  | some y =>
    rw [hy] at hcell hsetB hright
    cases hx : a.intervals.get? i with
    | none =>
      rw [hx] at hcell haa hsetA
      have hnil : calls.filterMap (MarkCall.sets i) = [] := hsetA
      rw [hright hcell]
      constructor
      · intro _ s t hs
        simp [hnil, Newest] at hs
      · intro _ key w hw
        have hnone : calls.filterMap (MarkCall.writes i key) = [] := haa key
        simp [hnone] at hw
    | some x =>
      rw [hx] at hcell hsetA hleft
      have hif : KeepsAt calls others i ↔
          if y.opId ≤ x.opId then Outwrites i calls others else Outwrites i others calls := by
        constructor
        · exact fun h => h x.bare y.bare hsetA hsetB
        · intro h s t hs ht
          rwa [hs.stamp_eq hsetA, ht.stamp_eq hsetB]
      rw [hif]
      by_cases hyx : y.opId ≤ x.opId
      · rw [if_pos hyx, hleft (by simpa [newerCell, hyx] using hcell)]
      · rw [if_neg hyx, hright (by simpa [newerCell, hyx] using hcell)]

/-- Merging gives the history of both sides exactly where no attribute is lost. -/
theorem mergeFrom_build_iff {calls others : List MarkCall} (hcoh : Coherent (calls ++ others)) :
    (build calls).mergeFrom (build others) = build (calls ++ others) ↔ MergeKeeps calls others := by
  have ha := Holds.build calls
  have hb := Holds.build others
  have hc := Holds.build (calls ++ others)
  have hremoves : ((build calls).mergeFrom (build others)).removes =
      (build (calls ++ others)).removes := by
    apply ext_get? (sorted_mergeNewest _ ha.removesSorted _) hc.removesSorted
    intro i
    show (mergeNewest RemoveMark.opId _ _).get? i = _
    rw [get?_mergeNewest _ _ hb.removesSorted]
    refine cell_unique stamp_removes hcoh (fun _ => Iff.rfl) ?_ (hc.removed i)
    rw [filterMap_append]
    exact newest_newerCell (ha.removed i) (hb.removed i)
  have hintervals : (build calls).mergeFrom (build others) = build (calls ++ others) ↔
      ∀ i, ((build calls).mergeFrom (build others)).intervals.get? i =
        (build (calls ++ others)).intervals.get? i := by
    constructor
    · intro h i
      rw [h]
    · intro h
      have heq := ext_get? (sorted_mergeNewest _ ha.intervalsSorted _)
        hc.intervalsSorted h
      exact (MarkSet.mk.injEq ..).mpr ⟨heq, hremoves⟩
  rw [hintervals]
  apply forall_congr'
  intro i
  show (mergeNewest MarkInterval.opId _ _).get? i = _ ↔ _
  rw [get?_mergeNewest _ _ hb.intervalsSorted]
  exact merged_interval_iff ha hb hc hcoh i

theorem mergeFrom_build_iff_link :
    (build [linkCall "href" "a" ⟨1, 1⟩]).mergeFrom (build [linkCall "href" "b" ⟨2, 2⟩]) =
      build ([linkCall "href" "a" ⟨1, 1⟩] ++ [linkCall "href" "b" ⟨2, 2⟩]) ↔
    MergeKeeps [linkCall "href" "a" ⟨1, 1⟩] [linkCall "href" "b" ⟨2, 2⟩] :=
  mergeFrom_build_iff (by decide)

/-- The title that only the older side wrote is lost. -/
theorem merged_link_loses_title : let calls := [linkCall "title" "t" ⟨1, 1⟩]
    let others := [linkCall "href" "b" ⟨2, 2⟩]
    ((calls ++ others).map MarkCall.opId).Nodup ∧
      (build calls).mergeFrom (build others) ≠ build (calls ++ others) := by
  decide

end MarkSet
end MdCrdt
