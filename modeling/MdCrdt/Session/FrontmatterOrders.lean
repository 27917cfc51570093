import MdCrdt.Lib.Arbitration
import MdCrdt.Session.Wire

/- Frontmatter under different orders of delivery.

  Fields are last-writer-wins, so the order in which they are set does not matter.
  What matters is the base they are set on: the first operation to arrive decides it,
  an initialisation by the text it brings and a field by an empty one, and every
  later initialisation is ignored. So the orders agree if all operations that can come
  first start from the same base. -/
namespace MdCrdt
open Lib List Option SortedMap Frontmatter

/-- Of two writes under different ids the larger one stays, whichever comes first. -/
theorem LwwRegister.set_right_comm {T : Type} (r : LwwRegister T) (v w)
    (hij : i ≠ j) : (r.set v i).set w j = (r.set w j).set v i := by
  unfold LwwRegister.set
  grind

namespace Frontmatter
variable (fm : Frontmatter)
variable (key : String)

/-- The register of a field once it is written. -/
def written (fm : Frontmatter) (key : String) (value : Option String) (opId : OpId) :
    LwwRegister (Option String) :=
  match fm.fields.get? key with
  | some register => register.set value opId
  | none => ⟨value, opId⟩

theorem dirty_insert_sorted : (fm.dirty.insert key ()).Sorted :=
  sorted_insert fm.dirty_sorted key ()

/-- A write that is not refused. -/
def withField (fm : Frontmatter) (key : String) (value : Option String) (opId : OpId) :
    Frontmatter :=
  { fm with
    fields := fm.fields.insert key (fm.written key value opId)
    dirty := fm.dirty.insert key ()
    fields_sorted := sorted_insert fm.fields_sorted key _
    dirty_sorted := fm.dirty_insert_sorted key }

/-- Whether a write is refused depends on nothing a write changes. -/
theorem set_eq (value opId) :
    fm.set key value opId = if fm.structured = false then .error .opaqueYaml
      else if validKey key = false then .error .invalidKey
      else .ok (fm.withField key value opId) := by
  simp only [set, Bool.not_eq_true']
  rfl

theorem fields_withField (value opId k) : (fm.withField key value opId).fields.get? k =
      if k = key then some (fm.written key value opId) else fm.fields.get? k :=
  get?_insert _ _ _ _

theorem written_withField_of_ne (v w i j)
    (hkl : l ≠ k) : (fm.withField k v i).written l w j = fm.written l w j := by
  simp only [written, fields_withField, if_neg hkl]

theorem written_withField_self (k v w)
    (hij : i ≠ j) : (fm.withField k v i).written k w j = (fm.withField k w j).written k v i := by
  simp only [written, fields_withField, if_true]
  cases fm.fields.get? k with
  | none =>
    simp only [LwwRegister.set]
    grind
  | some register => exact register.set_right_comm v w hij

theorem withField_right_comm (k l v w) (hij : i ≠ j) :
    (fm.withField k v i).withField l w j = (fm.withField l w j).withField k v i := by
  have hfields : ((fm.withField k v i).withField l w j).fields =
      ((fm.withField l w j).withField k v i).fields := by
    refine ext_get? (fields_sorted _) (fields_sorted _) (fun x => ?_)
    rw [fields_withField, fields_withField, fields_withField, fields_withField]
    rcases eq_or_ne k l with rfl | hkl
    · rw [written_withField_self fm k v w hij]
      split <;> rfl
    · rw [written_withField_of_ne fm v w i j hkl.symm, written_withField_of_ne fm w v j i hkl]
      grind
  have hdirty : ((fm.withField k v i).withField l w j).dirty =
      ((fm.withField l w j).withField k v i).dirty := by
    refine ext_get? (dirty_sorted _) (dirty_sorted _) (fun x => ?_)
    simp only [withField, get?_insert]
    grind
  exact Frontmatter.ext rfl hfields rfl hdirty rfl

/-- What a reader sees of a frontmatter: its fields and its text. -/
def shown (fm : Frontmatter) : List (String × Option String) × Option String :=
  (fm.entries, fm.render)

end Frontmatter

/-- An operation on the frontmatter. -/
inductive FrontmatterWrite where
  | init (id : OpId) (frontmatter : Frontmatter)
  | setField (id : OpId) (key : String) (value : Option String)
  deriving DecidableEq

namespace FrontmatterWrite

def id : FrontmatterWrite → OpId
  | init id _ | setField id _ _ => id

def op : FrontmatterWrite → DocOp
  | init id frontmatter => .initializeFrontmatter id frontmatter
  | setField id key value => .setFrontmatterField id key value

/-- The frontmatter a document without one starts from when this is the first to arrive. -/
def base : FrontmatterWrite → Frontmatter
  | init _ frontmatter => frontmatter
  | setField _ _ _ => Frontmatter.empty

/-- What is left of a write once there is a frontmatter: a refused field changes nothing, and
    neither does an initialisation. -/
def writeInto (fm : Frontmatter) : FrontmatterWrite → Frontmatter
  | init _ _ => fm
  | setField id key value =>
    match fm.set key value id with
    | .ok fm' => fm'
    | .error _ => fm

theorem writeInto_setField (fm id key value) : writeInto fm (setField id key value) =
      if fm.structured = true ∧ validKey key = true then fm.withField key value id else fm := by
  simp only [writeInto, set_eq]
  cases fm.structured <;> cases validKey key <;> rfl

@[simp] theorem structured_writeInto (fm w) : (writeInto fm w).structured = fm.structured := by
  cases w with
  | init => rfl
  | setField id key value =>
    rw [writeInto_setField]
    split <;> rfl

theorem writeInto_right_comm (fm) (hab : a.id ≠ b.id) :
    writeInto (writeInto fm a) b = writeInto (writeInto fm b) a := by
  cases a with
  | init => rfl
  | setField i k v =>
    cases b with
    | init => rfl
    | setField j l w =>
      have hij : i ≠ j := hab
      have hcomm := fm.withField_right_comm k l v w hij
      rw [writeInto_setField (writeInto fm (setField i k v)),
        writeInto_setField (writeInto fm (setField j l w)), structured_writeInto,
        structured_writeInto, writeInto_setField fm, writeInto_setField fm]
      by_cases hk : fm.structured = true ∧ validKey k = true
      · by_cases hl : fm.structured = true ∧ validKey l = true
        · simp only [if_pos hk, if_pos hl, hcomm]
        · simp only [if_pos hk, if_neg hl]
      · by_cases hl : fm.structured = true ∧ validKey l = true
        · simp only [if_neg hk, if_pos hl]
        · simp only [if_neg hk, if_neg hl]

/-- Writes with different ids leave the same frontmatter in every order. -/
theorem foldl_writeInto_perm {l l' : List FrontmatterWrite} (hp : l.Perm l')
    (hid : (l.map FrontmatterWrite.id).Nodup) (fm) :
    l.foldl writeInto fm = l'.foldl writeInto fm := by
  refine foldl_perm_of_commute (I := fun _ => True) hp (fun _ _ _ _ => trivial) ?_ fm trivial
  intro fm' _ a ha b hb
  by_cases hab : a = b
  · rw [hab]
  · exact writeInto_right_comm fm' (fun h => hab (inj_on_of_nodup_map hid ha hb h))

/-- No other write of the list has to come before this one. -/
def CanBeFirst (before : FrontmatterWrite → FrontmatterWrite → Prop)
    (writes : List FrontmatterWrite) (w : FrontmatterWrite) : Prop :=
  w ∈ writes ∧ ∀ v ∈ writes, v ≠ w → ¬before v w

theorem canBeFirst_of_respects (h : Respects before (w :: l)) : CanBeFirst before (w :: l) w := by
  refine ⟨mem_cons_self, fun v hv hne => ?_⟩
  exact (pairwise_cons.mp h).1 v ((mem_cons.mp hv).resolve_left hne)

section Delivery
variable [Segmentation]

/-- The document after the writes have arrived in this order. -/
def deliver (d : Document) (l : List FrontmatterWrite) : Document :=
  l.foldl (fun d w => applyEnvelopeToDocument d w.op.envelope) d

/-- The frontmatter after one write, from any document. -/
theorem frontmatter_apply (d w) : (applyEnvelopeToDocument d w.op.envelope).frontmatter =
      some (writeInto (d.frontmatter.getD w.base) w) := by
  cases w with
  | init id frontmatter =>
    show (applyDocOp d (.initializeFrontmatter id frontmatter)).frontmatter = _
    simp only [applyDocOp, writeInto, base]
    cases h : d.frontmatter <;> simp [h]
  | setField => rfl

theorem frontmatter_deliver_of_some (h : d.frontmatter = some fm)
    (l) : (deliver d l).frontmatter = some (l.foldl writeInto fm) := by
  induction l generalizing d fm with
  | nil => exact h
  | cons w l ih =>
    refine ih ?_
    rw [frontmatter_apply, h]
    rfl

/-- The first write to arrive decides the base. -/
theorem frontmatter_deliver_of_none (h : d.frontmatter = none) (w l) :
    (deliver d (w :: l)).frontmatter = some ((w :: l).foldl writeInto w.base) := by
  refine frontmatter_deliver_of_some ?_ l
  rw [frontmatter_apply, h]
  rfl

/-- All orders that respect causality leave the same frontmatter, so the same fields and the same
    text, if the document has one already or all writes that can be the first to arrive start
    from the same base. -/
theorem orders_agree_of_base_eq (d : Document) (before : FrontmatterWrite → FrontmatterWrite → Prop)
    {writes : List FrontmatterWrite} (hid : (writes.map FrontmatterWrite.id).Nodup)
    (hbase : d.frontmatter.isSome = true ∨ ∀ v w, CanBeFirst before writes v →
      CanBeFirst before writes w → v.base = w.base) {l l' : List FrontmatterWrite}
    (hp : l.Perm writes) (hl : Respects before l) (hp' : l'.Perm writes)
    (hl' : Respects before l') :
    (deliver d l).frontmatter = (deliver d l').frontmatter ∧
      (deliver d l).frontmatter.map shown = (deliver d l').frontmatter.map shown := by
  refine (and_iff_left_of_imp (congrArg (Option.map shown))).mpr ?_
  have hperm := foldl_writeInto_perm (hp.trans hp'.symm) ((hp.map _).nodup_iff.mpr hid)
  cases hd : d.frontmatter with
  | some fm =>
    rw [frontmatter_deliver_of_some hd, frontmatter_deliver_of_some hd, hperm]
  | none =>
    -- the first write of an order decides the base
    have hfirst : ∀ {v l}, (v :: l).Perm writes → Respects before (v :: l) →
        CanBeFirst before writes v := by
      intro v l hp hl
      obtain ⟨hm, hb⟩ := canBeFirst_of_respects hl
      exact ⟨hp.mem_iff.mp hm, fun w hw => hb w (hp.mem_iff.mpr hw)⟩
    cases l with
    | nil => rw [(hp'.trans hp.symm).eq_nil]
    | cons v l =>
      cases l' with
      | nil => cases (hp.trans hp'.symm).eq_nil
      | cons w l' =>
        have hvw : v.base = w.base :=
          (hbase.resolve_left (by simp [hd])) v w (hfirst hp hl) (hfirst hp' hl')
        rw [frontmatter_deliver_of_none hd, frontmatter_deliver_of_none hd, hperm, hvw]

end Delivery

/-! ## Two initialisations -/

section Examples
attribute [local instance] charSegmentation

/-- A frontmatter read from one line of text. -/
def oneField (key value : String) : Frontmatter :=
  { Frontmatter.empty with raw := key ++ ": " ++ value }.seed key value

/-- Two initialisations that saw nothing of each other: each replica keeps the one it saw first. -/
theorem inits_differ : ∃ v w : FrontmatterWrite, v.id ≠ w.id ∧
    (deliver .new [v, w]).frontmatter.map shown ≠
      (deliver .new [w, v]).frontmatter.map shown :=
  ⟨init ⟨1, 1⟩ (oneField "a" "1"), init ⟨1, 2⟩ (oneField "a" "2"), by decide, by decide +kernel⟩

/-- A field and a second initialisation that are made in view of the first one. -/
def oneBase : List FrontmatterWrite :=
  [init ⟨1, 1⟩ (oneField "a" "1"), setField ⟨1, 2⟩ "a" (some "3"), init ⟨2, 2⟩ (oneField "b" "2")]

/-- Only the first initialisation can be the first to arrive. -/
theorem orders_agree_one_base : (oneBase.map FrontmatterWrite.id).Nodup ∧ ∀ l l',
    l.Perm oneBase → Respects (fun v _ => v.id = ⟨1, 1⟩) l → l'.Perm oneBase →
    Respects (fun v _ => v.id = ⟨1, 1⟩) l' → (deliver .new l).frontmatter.map shown =
      (deliver .new l').frontmatter.map shown := by
  refine ⟨by decide, ?_⟩
  have only : ∀ v, CanBeFirst (fun v _ => v.id = ⟨1, 1⟩) oneBase v →
      v = init ⟨1, 1⟩ (oneField "a" "1") := by
    rintro v ⟨-, hv⟩
    by_contra hne
    exact hv _ mem_cons_self (Ne.symm hne) rfl
  intro l l' hp hl hp' hl'
  refine (orders_agree_of_base_eq .new _ (by decide) (.inr ?_) hp hl hp' hl').2
  intro v w hv hw
  rw [only v hv, only w hw]

end Examples
end FrontmatterWrite
end MdCrdt
