import MdCrdt.Session.Exposure

/- Which operations keep to their own ids.

  An operation covers the counters of its peer from `op.id.counter - span + 1` up to
  `op.id.counter`. For most operations the checks of `applyRemote` are enough to
  confine what they bring in to that range. They are not for a block insert with
  nested ids below its own, for moves to ids above the operation's, and for the text
  units of splits and merges. -/
namespace MdCrdt
open Lib List

section Rule
variable [Segmentation] [Serde]

/-- The id is of the same peer and among the `span` counters up to the operation's own. -/
def InSpan (id : OpId) (span : Nat) (x : OpId) : Prop :=
  x.peer = id.peer ∧ id.counter + 1 ≤ x.counter + span ∧ x.counter ≤ id.counter

instance (id : OpId) (span : Nat) (x : OpId) : Decidable (InSpan id span x) :=
  inferInstanceAs (Decidable (_ ∧ _ ∧ _))

/-- Every id that the operation adds to a document holding the known ids is its own. -/
def Confined (known : List OpId) (op : Operation Serde.Payload) (env : Envelope) : Prop :=
  ∀ d : Document, (∀ k ∈ known, k ∈ d.ids) → ∀ x ∈ (applyEnvelopeToDocument d env).ids,
    x ∉ d.ids → InSpan op.id (operationExtent env).2 x

/-! ## What the checks establish -/

omit [Segmentation] [Serde] in
theorem inSpan_self (id) : InSpan id 1 id := ⟨rfl, le_rfl, le_rfl⟩

omit [Segmentation] [Serde] in
/-- The ids of inserted units lie between the smallest and the largest of them. -/
theorem counter_bounds {units : List TextUnitWire} {u : TextUnitWire} (hu : u ∈ units) (first) :
    units.foldl (fun lo u => min lo u.id.counter) first ≤ u.id.counter ∧
      u.id.counter ≤ units.foldl (fun hi u => max hi u.id.counter) first := by
  have hmin : ∀ (l : List TextUnitWire) (a : Nat),
      l.foldl (fun lo u => min lo u.id.counter) a ≤ a := by
    intro l
    induction l with
    | nil => exact fun _ => le_rfl
    | cons w l ih => exact fun a => (ih _).trans (min_le_left _ _)
  have hmax : ∀ (l : List TextUnitWire) (a : Nat),
      a ≤ l.foldl (fun hi u => max hi u.id.counter) a := by
    intro l
    induction l with
    | nil => exact fun _ => le_rfl
    | cons w l ih => exact fun a => (le_max_left _ _).trans (ih _)
  induction units generalizing first with
  | nil => cases hu
  | cons w units ih =>
    rw [foldl_cons, foldl_cons]
    rcases mem_cons.mp hu with rfl | hu
    · exact ⟨(hmin _ _).trans (min_le_right _ _), (le_max_right _ _).trans (hmax _ _)⟩
    · exact ⟨(ih hu _).1, (ih hu _).2⟩

/-- The four kinds of operation whose ids the checks do not confine. -/
def DocOp.Structural : DocOp → Prop
  | .insertBlock _ _ _ _ _ | .moveBlocks _ _ _ | .splitBlock _ _ _ _ _ _ _
  | .mergeBlocks _ _ _ _ _ _ _ => True
  | _ => False

/-- Of all other operations the checks confine what they bring. -/
theorem inSpan_of_checked {op : Operation Serde.Payload} {env : Envelope}
    (h : Session.Checked op env) (hs : ¬env.docOp.Structural) :
    ∀ x ∈ env.docOp.brings, InSpan op.id (operationExtent env).2 x := by
  obtain ⟨version, ⟨o⟩⟩ := env
  have hmax := h.isMax
  cases o with
  | insertBlock | moveBlocks | splitBlock | mergeBlocks => exact absurd trivial hs
  | insertText blockElem blockId units =>
    intro x hx
    obtain ⟨u, hu, rfl⟩ := mem_map.mp hx
    have hpeer : u.id.peer = op.id.peer := by
      have := all_eq_true.mp h.peers u hu
      simpa using this
    cases units with
    | nil => cases hu
    | cons first units =>
      obtain ⟨hlo, hhi⟩ := counter_bounds hu first.id.counter
      have hcounter : op.id.counter = (first :: units).foldl
          (fun hi u => max hi u.id.counter) first.id.counter := congrArg OpId.counter hmax
      refine ⟨hpeer, ?_, hcounter ▸ hhi⟩
      simp only [operationExtent]
      omega
  | setMark | insertTableRow | insertTableColumn | moveTableRow | moveTableColumn | insertListItem
  | moveListItem =>
    intro x hx
    obtain rfl := mem_singleton.mp hx
    simp only [operationExtent] at hmax
    simp only [operationExtent, hmax]
    exact inSpan_self _
  | _ =>
    intro x hx
    cases hx

omit [Serde] in
theorem exposes_structural (hs : o.Structural)
    (hx : x ∈ o.brings) (hk : x ∉ known) (ha : x ∉ o.addresses) : Exposes known o x := by
  cases o with
  | insertBlock => exact exposes_insertBlock hx hk ha
  | moveBlocks => exact exposes_moveBlocks hx hk ha
  | splitBlock => exact exposes_splitBlock hx hk ha
  | mergeBlocks => exact exposes_mergeBlocks hx hk ha
  | _ => cases hs

/-! ## Confinement -/

/-- An operation that passes the checks keeps to its own ids, on every document that holds the
    known ids, exactly when each id it brings is known, is an element it addresses, or is in its
    span. -/
theorem confined_iff {s : Session} {ops : List (Operation Serde.Payload)}
    {prepared : List (Operation Serde.Payload × Envelope)} (h : s.prepareOps ops = .ok prepared)
    {op : Operation Serde.Payload} {env : Envelope} (hm : (op, env) ∈ prepared)
    (known : List OpId) : Confined known op env ↔ ∀ x ∈ env.docOp.brings,
      x ∈ known ∨ x ∈ env.docOp.addresses ∨ InSpan op.id (operationExtent env).2 x := by
  have hc : Session.Checked op env := (Session.prepareOps_checked h _ hm).2
  constructor
  · intro hconf x hx
    by_contra hno
    obtain ⟨hk, hno⟩ := not_or.mp hno
    obtain ⟨ha, hspan⟩ := not_or.mp hno
    by_cases hs : env.docOp.Structural
    · obtain ⟨d, hknown, hnew, hin⟩ := exposes_structural hs hx hk ha
      exact hspan (hconf d hknown x hin hnew)
    · exact hspan (inSpan_of_checked hc hs x hx)
  · intro hall d hknown x hx hnew
    obtain ⟨hbrings, haddr⟩ := (mem_ids_apply hx).resolve_left hnew
    rcases hall x hbrings with hk | ha | hspan
    · exact absurd (hknown x hk) hnew
    · exact absurd (haddr x ha) hnew
    · exact hspan

end Rule

section Examples
attribute [local instance] charSegmentation envelopeSerde

/-- A text insert: three units of one peer, in the order of their counters. -/
def threeUnits : DocOp :=
  .insertText ⟨1, 1⟩ ⟨1, 1⟩ [⟨⟨2, 1⟩, none, none, "a"⟩, ⟨⟨3, 1⟩, some ⟨2, 1⟩, none, "b"⟩,
    ⟨⟨4, 1⟩, some ⟨3, 1⟩, none, "c"⟩]

theorem confined_three_units : Confined [] ⟨⟨4, 1⟩, threeUnits.envelope⟩ threeUnits.envelope := by
  have hprep : (Session.new 2).prepareOps [⟨⟨4, 1⟩, threeUnits.envelope⟩] =
      .ok [(⟨⟨4, 1⟩, threeUnits.envelope⟩, threeUnits.envelope)] := rfl
  exact (confined_iff hprep mem_cons_self []).mpr (by decide)

/-- An empty paragraph of peer 1. -/
def paragraphOp : DocOp := .insertBlock none none ⟨1, 1⟩ none ⟨⟨1, 1⟩, .paragraph ""⟩

/-- A split of it by peer 3 that names a unit of peer 1. -/
def foreignSplit : DocOp :=
  .splitBlock none ⟨1, 1⟩ ⟨1, 3⟩ ⟨3, 1⟩ none .paragraph [⟨⟨9, 1⟩, ⟨9, 1⟩, "a"⟩]

/-- Peer 2 takes both in, and the split gives its document a unit of peer 1 that peer 1 never
    made. -/
theorem split_brings_foreign_unit : ∃ s s' : Session,
    s = ((Session.new 2).applyRemote ⟨.new, [⟨⟨1, 1⟩, paragraphOp.envelope⟩]⟩ .default).1 ∧
    s' = (s.applyRemote ⟨.new, [⟨⟨1, 3⟩, foreignSplit.envelope⟩]⟩ .default).1 ∧
    s'.document = applyEnvelopeToDocument s.document foreignSplit.envelope ∧
    ⟨9, 1⟩ ∈ s'.document.ids ∧ ⟨9, 1⟩ ∉ s.document.ids ∧
    ¬InSpan ⟨1, 3⟩ (operationExtent foreignSplit.envelope).2 ⟨9, 1⟩ :=
  ⟨_, _, rfl, rfl, rfl, by decide +kernel, by decide +kernel, by decide⟩

end Examples
end MdCrdt
