import MdCrdt.Doc.ParserSafe
import MdCrdt.Doc.Source

/- Where the blocks of a parsed text stand in its bytes.

  Source lines begin and end where the text can be cut, and a line ends in front of the
  next one (`sourceLines_ordered`). The lines of the blocks follow one another
  (`Tiles`), so the bytes of the blocks do (`LaidOut`), and the ids of the blocks are
  different. `parseDocument_layout` puts this together: behind the frontmatter the
  parser always returns, and what it returns is laid out that way. -/
namespace MdCrdt
open Lib Lib.Utf8
open List hiding le_trans le_refl
variable {text : List Char} {ls : List SourceLine}

/-- The text can be cut at this position. -/
def Boundary (text : List Char) (n : Nat) : Prop := ∃ front, takeBytes n text = some front

theorem boundary_append (front back) : Boundary (front ++ back) (size front) :=
  ⟨front, takeBytes_size_append front back⟩

/-! ## Source lines -/

theorem flatten_splitInclusive (text) : (splitInclusive text).flatten = text := by
  induction text with
  | nil => rfl
  | cons c rest ih =>
    rw [splitInclusive]
    split
    · rw [flatten_cons, ih]
      rfl
    · cases hrest : splitInclusive rest with
      | nil | cons segment segments =>
        rw [hrest] at ih
        rw [← ih]
        rfl

theorem logicalLine_prefix (segment) : logicalLine segment <+: segment := by
  simp only [logicalLine]
  split
  · split
    · exact List.IsPrefix.trans ( dropLast_prefix _) ( dropLast_prefix _)
    · exact dropLast_prefix _
  · exact prefix_refl _

/-- What is known of source lines from a position on. -/
structure LinesFrom (text : List Char) (start : Nat) (ls : List SourceLine) : Prop where
  behind : ∀ l ∈ ls, start ≤ l.start
  forward : ∀ l ∈ ls, l.start ≤ l.contentEnd
  startBoundary : ∀ l ∈ ls, Boundary text l.start
  endBoundary : ∀ l ∈ ls, Boundary text l.contentEnd
  ordered : ls.Pairwise (fun l l' => l.contentEnd ≤ l'.start)

theorem sourceLinesFrom_ordered (front segments) :
    LinesFrom (front ++ segments.flatten) (size front) (sourceLinesFrom (size front) segments) := by
  induction segments generalizing front with
  | nil => exact ⟨by simp [sourceLinesFrom], by simp [sourceLinesFrom], by simp [sourceLinesFrom],
      by simp [sourceLinesFrom], List.Pairwise.nil⟩
  | cons segment segments ih =>
    obtain ⟨ending, hending⟩ := logicalLine_prefix segment
    have hrest := ih (front ++ segment)
    rw [size_append, append_assoc, ← flatten_cons] at hrest
    have hsize : size (logicalLine segment) ≤ size segment := by
      rw [← congrArg size hending, size_append]
      exact Nat.le_add_right _ _
    have hstart : Boundary (front ++ (segment :: segments).flatten) (size front) :=
      boundary_append _ _
    have hend : Boundary (front ++ (segment :: segments).flatten)
        (size front + size (logicalLine segment)) := by
      rw [← size_append, flatten_cons, ← append_assoc]
      nth_rewrite 1 [← hending]
      rw [← append_assoc, append_assoc]
      exact boundary_append _ _
    rw [sourceLinesFrom]
    refine ⟨forall_mem_cons.mpr ⟨le_refl _, fun l hl => ?_⟩,
      forall_mem_cons.mpr ⟨Nat.le_add_right _ _, hrest.forward⟩,
      forall_mem_cons.mpr ⟨hstart, hrest.startBoundary⟩,
      forall_mem_cons.mpr ⟨hend, hrest.endBoundary⟩,
      List.Pairwise.cons (fun l hl => ?_) hrest.ordered⟩
    · exact le_trans (Nat.le_add_right _ _) (hrest.behind l hl)
    · exact le_trans (Nat.add_le_add_left hsize _) (hrest.behind l hl)

theorem sourceLines_ordered (text) : LinesFrom text 0 (sourceLines text) := by
  have h := sourceLinesFrom_ordered [] (splitInclusive text)
  rwa [nil_append, flatten_splitInclusive, size_nil] at h

/-- Of two lines the earlier one ends in front of the later one. -/
theorem LinesFrom.contentEnd_le {start : Nat}
    (h : LinesFrom text start ls) {i j : Nat} (hl : ls[i]? = some l)
    (hl' : ls[j]? = some l') (hlt : i < j) : l.contentEnd ≤ l'.start := by
  obtain ⟨hi, rfl⟩ := List.getElem?_eq_some_iff.mp hl
  obtain ⟨hj, rfl⟩ := List.getElem?_eq_some_iff.mp hl'
  exact pairwise_iff_getElem.mp h.ordered i j hi hj hlt

theorem LinesFrom.start_le {start : Nat}
    (h : LinesFrom text start ls) {i j : Nat} (hl : ls[i]? = some l)
    (hl' : ls[j]? = some l') (hle : i ≤ j) : l.start ≤ l'.contentEnd := by
  have hforward := h.forward l (mem_of_getElem? hl)
  rcases eq_or_lt_of_le hle with rfl | hlt
  · rw [hl] at hl'
    exact Option.some.inj hl' ▸ hforward
  · have hbetween := h.contentEnd_le hl hl' hlt
    have hforward' := h.forward l' (mem_of_getElem? hl')
    exact le_trans hforward (le_trans hbetween hforward')

/-! ## Bytes of blocks -/

/-- Blocks whose bytes follow one another from a position on. -/
def LaidOut (text : List Char) : Nat → List (BlockId × Nat × Nat) → Prop
  | _, [] => True
  | position, (_, start, stop) :: rest =>
    position ≤ start ∧ start ≤ stop ∧ Boundary text start ∧ Boundary text stop ∧
      LaidOut text stop rest

theorem byteSpans_return (hlines : LinesFrom text 0 ls)
    {startIndex length : Nat} (hlength : startIndex + length = ls.length) {i c c' : Nat}
    {parsed} (h : Tiles length i c parsed c') {position : Nat}
    (hposition : ∀ j l, i ≤ j → ls[startIndex + j]? = some l → position ≤ l.start) :
    Returns (fun spans => LaidOut text position spans ∧
        spans.map Prod.fst = parsed.map (fun p => p.1.id))
      (parsed.mapM (byteSpan ls startIndex)) := by
  induction h generalizing position with
  | nil _ => exact returns_some ⟨trivial, rfl⟩
  | @cons i c k next c' block span rest hi hspan hbound _ _ _ _ ih =>
    obtain ⟨first, hfirst⟩ : ∃ first, ls[startIndex + span.start]? = some first :=
      ⟨_, getElem?_eq_getElem (by omega)⟩
    obtain ⟨last, hlast⟩ : ∃ last, ls[startIndex + span.stop - 1]? = some last :=
      ⟨_, getElem?_eq_getElem (by omega)⟩
    have hhead : byteSpan ls startIndex (block, span) =
        some (block.id, first.start, last.contentEnd) := by
      simp [byteSpan, hfirst, hlast]
    rw [mapM_cons]
    refine returns_bind hhead ?_
    have hrest := @ih last.contentEnd (fun j l hj hl => hlines.contentEnd_le hlast hl (by omega))
    refine hrest.bind (fun spans hspans => returns_some ⟨?_, ?_⟩)
    · exact ⟨hposition span.start first hi hfirst, hlines.start_le hfirst hlast (by omega),
        hlines.startBoundary _ (mem_of_getElem? hfirst),
        hlines.endBoundary _ (mem_of_getElem? hlast), hspans.1⟩
    · rw [map_cons, map_cons, hspans.2]

theorem Tiles.id_of_mem {length i c c' parsed} (h : Tiles length i c parsed c') (hp : p ∈ parsed) :
    ∃ k, c ≤ k ∧ p.1.id = blockIdFromOp ⟨k, 0⟩ := by
  induction h with
  | nil _ => cases hp
  | cons _ _ _ hk hlt hid _ ih =>
    rcases mem_cons.mp hp with rfl | hp
    · exact ⟨_, hk, hid⟩
    · obtain ⟨k, hle, hid⟩ := ih hp
      exact ⟨k, by omega, hid⟩

/-- Blocks that are parsed one behind the other have different ids. -/
theorem Tiles.nodup_ids {length i c c' parsed}
    (h : Tiles length i c parsed c') : (parsed.map (fun p => p.1.id)).Nodup := by
  induction h with
  | nil _ => exact nodup_nil
  | cons _ _ _ _ hlt hid hrest ih =>
    rw [map_cons, nodup_cons]
    refine ⟨fun hmem => ?_, ih⟩
    obtain ⟨p, hp, heq⟩ := mem_map.mp hmem
    obtain ⟨k, hk, hid'⟩ := hrest.id_of_mem hp
    rw [hid', hid] at heq
    have hcounter := congrArg OpId.counter (blockIdFromOp_injective heq)
    simp only at hcounter
    omega

/-! ## Parsed documents -/

/-- A document as it is read from a text: its source is the text, with the bytes of its blocks one
    behind the other. -/
structure ReadFrom (text : List Char) (frontmatter : Option Frontmatter) (d : SourcedDocument)
    (blocks : List Block) (spans : List (BlockId × Nat × Nat)) : Prop where
  eq : d = ⟨⟨frontmatter, Sequence.fromOrdered (blocks.map (fun block => (block.elemId, block)))⟩,
    some (DocumentSource.new text spans blocks)⟩
  laid : LaidOut text 0 spans
  ids : spans.map Prod.fst = blocks.map Block.id
  nodup : (blocks.map Block.id).Nodup

theorem frontmatterAt_le {lines frontmatter startIndex}
    (h : frontmatterAt lines = some (frontmatter, startIndex)) : startIndex ≤ lines.length := by
  unfold frontmatterAt at h
  split at h
  · cases h
    exact le_refl _
  · split at h
    · simp only at h
      split at h
      · next hlt =>
        obtain ⟨parsed, -, heq⟩ := Option.map_eq_some_iff.mp h
        cases heq
        rw [length_cons]
        omega
      · cases h
        exact Nat.zero_le _
    · cases h
      exact Nat.zero_le _

/-- Behind the frontmatter the parser returns, and the blocks tile the text. -/
theorem parseDocument_layout [Segmentation] {frontmatter startIndex}
    (h : frontmatterAt ((sourceLines text).map SourceLine.text) = some (frontmatter, startIndex)) :
    Returns (fun d => ∃ blocks spans, ReadFrom text frontmatter d blocks spans)
      (parseDocument text) := by
  have hle := frontmatterAt_le h
  unfold parseDocument
  refine returns_bind h ?_
  simp only [if_pos hle]
  refine returns_bind rfl ?_
  refine (parseBlocksWithSpans_returns _ _ 0 1 (by rw [drop_zero]; exact Nat.lt_succ_self _)).bind
    (fun r hr => ?_)
  rw [length_drop, length_map] at hr
  rw [length_map] at hle
  refine (@byteSpans_return _ _ (sourceLines_ordered text) startIndex _ (by omega) _ _ _ _ hr _
    (fun _ _ _ _ => Nat.zero_le _)).bind (fun spans hspans => returns_some ?_)
  refine ⟨r.1.map Prod.fst, spans, rfl, hspans.1, ?_, ?_⟩
  · rw [hspans.2, List.map_map]
    rfl
  · rw [List.map_map]
    exact hr.nodup_ids

end MdCrdt
