import MdCrdt.Codec.Wire

/- Nesting in JSON (`codec/wire.rs`).

  `serde_json` refuses a text in which 128 objects and arrays are open at once, the codec
  refuses a skeleton with more than 16 blocks around a block. A block inside a list opens
  seven levels (the tag of the list and its fields, the items, the item, its children, the
  insert and the block), a block inside a quote five. Sixteen lists around a list come to
  122 levels, so whatever the codec has written it reads back. -/
namespace MdCrdt

/-- The level at which `serde_json` gives up. -/
def recursionLimit : Nat := 128

mutual

/-- The levels that a kind opens. A variant with fields is an object for its tag and one for its
    fields; styles open one more. -/
def kindLevels : BlockKindSkeleton → Nat
  | .paragraph _ | .heading _ _ | .rawBlock _ => 2
  | .codeFence _ _ _ => 3
  | .list _ items => 3 + itemsLevels items
  | .blockQuote children => 3 + childrenLevels children
  | .table => 0

/-- An insert is an object with ids, and with a block that holds a kind. -/
def childrenLevels : List BlockSkeletonInsert → Nat
  | [] => 0
  | ⟨_, _, _, ⟨_, kind⟩⟩ :: rest => max (2 + kindLevels kind) (childrenLevels rest)

/-- An item is an object with ids, and with an array of children. -/
def itemsLevels : List ListItemSkeleton → Nat
  | [] => 0
  | ⟨_, _, _, _, _, _, children⟩ :: rest => max (2 + childrenLevels children) (itemsLevels rest)

end

/-- The levels that an operation opens at most: its tag and its fields, and then one for ids and
    styles, two for state vectors, anchors, attributes, cells, text kinds and arrays of ids, three
    for arrays of units and moves, and four for the ids of the registers in a frontmatter. -/
def DocOp.levels : DocOp → Nat
  | .insertBlock _ _ _ _ block => 3 + kindLevels block.kind
  | .initializeFrontmatter _ _ => 6
  | .insertText _ _ _ | .moveBlocks _ _ _ | .splitBlock _ _ _ _ _ _ _
  | .mergeBlocks _ _ _ _ _ _ _ => 5
  | _ => 4

/-- The envelope and the tag of its body are two more. -/
def Envelope.levels (envelope : Envelope) : Nat :=
  match envelope.body with
  | .doc op => 2 + op.levels

/-- What is used of `serde_json`: it reads back what it has written below its limit. -/
class LimitedSerde [Serde] : Prop where
  fromSlice_toVec : ∀ (e : Envelope) (p : Serde.Payload), Serde.toVec e = .ok p →
    e.levels < recursionLimit → Serde.fromSlice p = .ok e

theorem envelopeSerde_lawful : @LimitedSerde envelopeSerde :=
  letI := envelopeSerde
  ⟨fun e p h _ => congrArg Except.ok (Except.ok.inj (h : Except.ok e = .ok p)).symm⟩

/-! ## Levels and blocks -/

mutual

/-- Every block around a kind takes seven levels of what the innermost one may open. -/
theorem kindLevels_le : ∀ {kind : BlockKindSkeleton}, kindDepthOk depth kind = true →
    kindLevels kind + 7 * depth ≤ 7 * maxWireNestDepth + 5
  | .blockQuote children, h => by
    simp only [kindDepthOk, Bool.and_eq_true, decide_eq_true_eq] at h
    have hchildren := childrenLevels_le h.1 h.2
    simp only [kindLevels]
    omega
  | .list _ items, h => by
    simp only [kindDepthOk, Bool.and_eq_true, decide_eq_true_eq] at h
    have hitems := itemsLevels_le h.1 h.2
    simp only [kindLevels]
    omega
  | .paragraph _, h | .heading _ _, h | .codeFence _ _ _, h | .rawBlock _, h | .table, h => by
    simp only [kindDepthOk, decide_eq_true_eq] at h
    simp only [kindLevels]
    omega

theorem childrenLevels_le (hd : depth ≤ maxWireNestDepth) :
    ∀ {children : List BlockSkeletonInsert}, childrenDepthOk depth children = true →
      childrenLevels children + 7 * depth ≤ 7 * maxWireNestDepth
  | [], _ => by
    simp only [childrenLevels]
    omega
  | ⟨_, _, _, ⟨_, kind⟩⟩ :: rest, h => by
    simp only [childrenDepthOk, Bool.and_eq_true] at h
    have hkind := kindLevels_le h.1
    have hrest := childrenLevels_le hd h.2
    simp only [childrenLevels]
    omega

theorem itemsLevels_le (hd : depth ≤ maxWireNestDepth) :
    ∀ {items : List ListItemSkeleton}, itemsDepthOk depth items = true →
      itemsLevels items + 7 * depth ≤ 7 * maxWireNestDepth + 2
  | [], _ => by
    simp only [itemsLevels]
    omega
  | ⟨_, _, _, _, _, _, children⟩ :: rest, h => by
    simp only [itemsDepthOk, Bool.and_eq_true] at h
    have hchildren := childrenLevels_le hd h.1
    have hrest := itemsLevels_le hd h.2
    simp only [itemsLevels]
    omega

end

/-- What passes the structural check stays below the limit. -/
theorem levels_lt_of_valid
    (h : validateEnvelopeStructure envelope = .ok ()) : envelope.levels < recursionLimit := by
  obtain ⟨version, ⟨op⟩⟩ := envelope
  show 2 + op.levels < 128
  cases op with
  | insertBlock parent after id rightOrigin block =>
    simp only [validateEnvelopeStructure] at h
    split at h
    · next hdepth =>
      have hkind := kindLevels_le hdepth
      simp only [maxWireNestDepth] at hkind
      simp only [DocOp.levels]
      omega
    · cases h
  | _ => simp [DocOp.levels]

section Codec
variable [Serde] [LimitedSerde] {p : Serde.Payload} {envelope : Envelope}

/-- What a session writes, every session reads back. -/
theorem decode_encode_of_version (hversion : envelope.version = wireVersion)
    (h : encode envelope = .ok p) : decode p = .ok envelope := by
  obtain ⟨hvalid, hvec⟩ := encode_ok h
  rw [decode, LimitedSerde.fromSlice_toVec _ _ hvec (levels_lt_of_valid hvalid)]
  simp only [hversion, ne_eq, not_true, if_false, hvalid]

theorem decode_encode {op : DocOp} (h : encode op.envelope = .ok p) : decode p = .ok op.envelope :=
  decode_encode_of_version rfl h

end Codec

/-- **What is encoded can be decoded.** An envelope of the current version that the codec accepts
    stays below the limit of `serde_json` and is read back as it was. -/
theorem encoded_envelope_decodes [Serde] [LimitedSerde] {envelope : Envelope} {p : Serde.Payload}
    (hversion : envelope.version = wireVersion) (h : encode envelope = .ok p) :
    envelope.levels < recursionLimit ∧ decode p = .ok envelope := by
  obtain ⟨hvalid, -⟩ := encode_ok h
  exact ⟨levels_lt_of_valid hvalid, decode_encode_of_version hversion h⟩

/-- A kind inside a list of one item. -/
def inList (kind : BlockKindSkeleton) : BlockKindSkeleton :=
  .list ListStyle.default
    [⟨none, ⟨1, 1⟩, none, ⟨1, 1⟩, none, ⟨1, 1⟩, [⟨none, ⟨1, 1⟩, none, ⟨⟨1, 1⟩, kind⟩⟩]⟩]

/-- Sixteen lists around a list with an item. -/
def nestedLists : Envelope :=
  (DocOp.insertBlock none none ⟨1, 1⟩ none ⟨⟨1, 1⟩, inList^[16] (.list ListStyle.default
    [⟨none, ⟨1, 1⟩, none, ⟨1, 1⟩, none, ⟨1, 1⟩, []⟩])⟩).envelope

theorem nestedLists_decodes : nestedLists.levels = 122 ∧
    @encode envelopeSerde nestedLists = .ok nestedLists ∧
    @decode envelopeSerde nestedLists = .ok nestedLists := by
  have hdepth : validateEnvelopeStructure nestedLists = .ok () := by decide +kernel
  have hencode : @encode envelopeSerde nestedLists = .ok nestedLists := by
    simp only [encode, hdepth]
    rfl
  exact ⟨by decide +kernel, hencode,
    (@encoded_envelope_decodes envelopeSerde envelopeSerde_lawful _ _ rfl hencode).2⟩

end MdCrdt
