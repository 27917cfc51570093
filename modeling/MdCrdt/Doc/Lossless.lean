import MdCrdt.Doc.Panics

/- Exact export of an untouched document gives back the text.

  What is in front of the first block is the preamble; then each block is written with
  the bytes between the block before it and itself, and with its own bytes, so that the
  output is always the text up to the end of the block that was written last
  (`RenderedTo`); the trailer is what is left. -/
namespace MdCrdt
open Lib Lib.Utf8 Option Sequence Prod
open List hiding le_refl

theorem Sequence.iter_fromOrdered {T : Type} (items : List (OpId × T)) :
    (fromOrdered items).iter = items.map snd := by
  have hfst : items.map snd = (items.zipIdx.map fst).map snd := by
    rw [zipIdx_map_fst]
  rw [hfst, iter, fromOrdered, filterMap_map, List.map_map]
  exact congrFun filterMap_eq_map items.zipIdx

/-! ## One block -/

namespace DocumentSource
variable {source : DocumentSource} {text : List Char} {spans : List (BlockId × Nat × Nat)}

/-- The output is the text up to `position`, and block number `n` is the next one. -/
structure RenderedTo (text : List Char) (position n : Nat) (state : RenderState) : Prop where
  output : takeBytes position text = some state.output
  next : (state.emittedBlock = false ∧ n = 0) ∨
    state.emittedBlock = true ∧ ∃ m, state.previousPosition = some m ∧ m + 1 = n

theorem renderBlock_clean (htext : source.original = text) (hdirty : source.dirty = [])
    {state position n start stop} (hstate : RenderedTo text position n state)
    {block} (hregion : source.regions.get? block.id = some ⟨position, start, start, stop⟩)
    (hindex : source.order.findIdx? (fun id => id = block.id) = some n)
    (hle : position ≤ start) (hle' : start ≤ stop) (hstart : Boundary text start)
    (hstop : Boundary text stop) :
    Returns (RenderedTo text stop (n + 1)) (source.renderBlock state block) := by
  obtain ⟨front, hfront⟩ := hstart
  obtain ⟨all, hall⟩ := hstop
  obtain ⟨leading, hleading, rfl⟩ := slice_of_takeBytes hstate.output hfront hle
  obtain ⟨body, hbody, rfl⟩ := slice_of_takeBytes hfront hall hle'
  unfold renderBlock
  simp only [hregion, hindex, htext]
  refine returns_bind (a := state.output ++ leading) ?_ ?_
  · rw [if_pos, hleading]
    · rfl
    · rcases hstate.next with ⟨hfirst, rfl⟩ | ⟨-, m, hm, rfl⟩
      · simp [hfirst]
      · simp [hm]
  · refine returns_bind (a := body) ?_ (returns_some ⟨hall, .inr ⟨rfl, n, rfl, rfl⟩⟩)
    rw [renderBody, hdirty, if_neg (not_mem_nil), htext]
    exact hbody

/-! ## All blocks -/

/-- The end of the last of some blocks. -/
def lastEnd (position : Nat) : List (BlockId × Nat × Nat) → Nat
  | [] => position
  | (_, _, stop) :: rest => lastEnd stop rest

theorem findIdx?_append_of_nodup {done rest : List BlockId} {id} (h : (done ++ id :: rest).Nodup) :
    (done ++ id :: rest).findIdx? (fun x => x = id) = some done.length := by
  have hnone : done.findIdx? (fun x => x = id) = none := by
    rw [findIdx?_eq_none_iff]
    intro x hx
    exact decide_eq_false ((nodup_append.mp h).2.2 x hx id mem_cons_self)
  rw [findIdx?_append, hnone, findIdx?_cons]
  simp

theorem renderBlocks_clean (htext : source.original = text) (hdirty : source.dirty = [])
    {done : List BlockId} (horder : source.order = done ++ spans.map fst)
    (hnodup : source.order.Nodup) {position} (hlaid : LaidOut text position spans)
    (hregions : ∀ e ∈ regionsFrom position spans, source.regions.get? e.1 = some e.2)
    {blocks : List Block} (hids : spans.map fst = blocks.map Block.id) {state}
    (hstate : RenderedTo text position done.length state) :
    Returns (RenderedTo text (lastEnd position spans) source.order.length)
      (blocks.foldlM source.renderBlock state) := by
  induction spans generalizing done position blocks state with
  | nil =>
    obtain rfl := map_eq_nil_iff.mp hids.symm
    rw [horder, map_nil, append_nil]
    exact returns_some hstate
  | cons span spans ih =>
    obtain ⟨id, start, stop⟩ := span
    obtain ⟨block, blocks, rfl, hid, hrest⟩ := map_eq_cons_iff.mp hids.symm
    obtain ⟨hle, hle', hstart, hstop, hlaid⟩ := hlaid
    simp only at hid
    have hindex : source.order.findIdx? (fun id => id = block.id) = some done.length := by
      rw [horder, map_cons, ← hid] at hnodup
      rw [horder, map_cons, ← hid]
      exact findIdx?_append_of_nodup hnodup
    have hregion := hregions (id, ⟨position, start, start, stop⟩) mem_cons_self
    rw [foldlM_cons]
    rw [← hid] at hregion
    refine (renderBlock_clean htext hdirty hstate hregion hindex hle hle' hstart hstop).bind
      (fun state' hstate' => ?_)
    refine @ih (done ++ [id]) (by rw [horder]; simp) _ hlaid
      (fun e he => hregions e (mem_cons_of_mem _ he)) _ hrest.symm _ ?_
    rw [length_append]
    exact hstate'

theorem map_fst_regionsFrom (position spans) :
    (regionsFrom position spans).map fst = spans.map fst := by
  induction spans generalizing position with
  | nil => rfl
  | cons span spans ih =>
    obtain ⟨id, start, stop⟩ := span
    rw [regionsFrom, map_cons, map_cons, ih]

theorem lastEnd_eq (position spans) :
    lastEnd position spans = (spans.getLast?.map (fun span => span.2.2)).getD position := by
  induction spans generalizing position with
  | nil => rfl
  | cons span spans ih =>
    obtain ⟨id, start, stop⟩ := span
    rw [lastEnd, ih, getLast?_cons]
    cases spans.getLast? <;> rfl

/-- The preamble is in front of all blocks, and can be cut off. -/
theorem laid_preambleEnd (h : LaidOut text position spans) (blocks) :
    Boundary text (new text spans blocks).preambleEnd ∧
      LaidOut text (new text spans blocks).preambleEnd spans := by
  cases spans with
  | nil =>
    have hall := boundary_append text []
    rw [append_nil] at hall
    exact ⟨hall, trivial⟩
  | cons span spans =>
    obtain ⟨id, start, stop⟩ := span
    obtain ⟨-, hle, hstart, hstop, hrest⟩ := h
    exact ⟨hstart, le_refl _, hle, hstart, hstop, hrest⟩

/-- A source that nothing has touched gives back the text. -/
theorem render_new {blocks : List Block} (hlaid : LaidOut text 0 spans)
    (hids : spans.map fst = blocks.map Block.id) (hnodup : (blocks.map Block.id).Nodup) :
    (new text spans blocks).renderWithFrontmatter
      (fromOrdered (blocks.map (fun block => (block.elemId, block)))) none = some text := by
  obtain ⟨source, hsource⟩ : ∃ source, source = new text spans blocks := ⟨_, rfl⟩
  have horder : source.order = spans.map fst := by rw [hsource]; rfl
  obtain ⟨⟨preamble, hpreamble⟩, hlaid⟩ := laid_preambleEnd hlaid blocks
  rw [← hsource] at hpreamble hlaid ⊢
  have hregions : ∀ e ∈ regionsFrom source.preambleEnd spans,
      source.regions.get? e.1 = some e.2 := by
    intro e he
    rw [hsource] at he ⊢
    refine SortedMap.get?_foldl_insert_of_mem ?_ he _
    rw [map_fst_regionsFrom, hids]
    exact hnodup
  have hblocks : (fromOrdered (blocks.map (fun block => (block.elemId, block)))).iter =
      blocks := by
    rw [iter_fromOrdered, List.map_map]
    exact List.map_id blocks
  have hfirst : RenderedTo text source.preambleEnd ([] : List BlockId).length
      ⟨preamble, false, none⟩ := ⟨hpreamble, .inl ⟨rfl, rfl⟩⟩
  obtain ⟨state, hstate, hrendered⟩ := renderBlocks_clean (by rw [hsource]; rfl)
    (by rw [hsource]; rfl) horder (by rw [horder, hids]; exact hnodup) hlaid hregions hids hfirst
  have htrailer : lastEnd source.preambleEnd spans = source.trailerStart := by
    rw [lastEnd_eq, hsource]
    cases spans <;> rfl
  rw [htrailer] at hrendered
  obtain ⟨trailer, htext, hsize⟩ := takeBytes_eq_some.mp hrendered.output
  have hdrop : dropBytes source.trailerStart text = some trailer :=
    dropBytes_eq_some.mpr ⟨state.output, htext, hsize⟩
  have horiginal : source.original = text := by rw [hsource]; rfl
  simp only [renderWithFrontmatter, horiginal, hpreamble, hblocks, hstate, bind, Option.bind, hdrop,
    map_some, ← htext]
  split
  · rfl
  · next hnothing =>
    -- no block and no preamble: there was no text
    simp only [Bool.or_eq_true, not_or, Bool.not_eq_true, Bool.not_eq_false',
      List.isEmpty_iff] at hnothing
    have hlength : source.order.length = 0 := by
      rcases hrendered.next with ⟨-, hzero⟩ | ⟨hemitted, -⟩
      · exact hzero
      · rw [hnothing.1] at hemitted
        cases hemitted
    rw [horder, length_map, length_eq_zero_iff] at hlength
    have hend : source.trailerStart = size text := by rw [hsource, hlength]; rfl
    rw [hend, hnothing.2] at hsize
    rw [hnothing.2, eq_nil_of_size_eq_zero hsize.symm]

end DocumentSource

/-! ## Parsed documents -/

namespace Frontmatter

theorem parseLines_dirty {fm fm' : Frontmatter} {ls : List (List Char)}
    (h : ls.foldlM parseLine fm = some fm') : fm'.dirty = fm.dirty := by
  induction ls generalizing fm with
  | nil => rw [some.inj h]
  | cons l ls ih =>
    obtain ⟨next, hnext, hrest⟩ := bind_eq_some_iff.mp h
    exact (ih hrest).trans (read_of_parseLine hnext).1

/-- Frontmatter that has just been read is not dirty. -/
theorem isDirty_of_parse {raw} {fm : Frontmatter} (h : parse raw = some fm) :
    fm.isDirty = false := by
  rw [isDirty, parseLines_dirty h]
  rfl

end Frontmatter

theorem isDirty_of_frontmatterAt {lines fm startIndex}
    (h : frontmatterAt lines = some (some fm, startIndex)) : fm.isDirty = false := by
  unfold frontmatterAt at h
  split at h
  · cases h
  · split at h
    · simp only at h
      split at h
      · obtain ⟨parsed, hparsed, heq⟩ := map_eq_some_iff.mp h
        cases heq
        exact Frontmatter.isDirty_of_parse hparsed
      · cases h
    · cases h

/-- Exact export of a document that was just read gives back its text. -/
theorem serialize_parseDocument [Segmentation] {text : List Char} {d : SourcedDocument}
    (h : parseDocument text = some d) : d.serialize .exact = some text := by
  obtain ⟨r, hr, -⟩ := bind_eq_some_iff.mp h
  obtain ⟨frontmatter, startIndex⟩ := r
  obtain ⟨blocks, spans, hread⟩ := (parseDocument_layout hr).of_eq h
  have hrender := DocumentSource.render_new hread.laid hread.ids hread.nodup
  rw [hread.eq, SourcedDocument.serialize, SourcedDocument.serializeWithConfig]
  cases frontmatter with
  | none => exact hrender
  | some fm =>
    simp only [isDirty_of_frontmatterAt hr, Bool.false_eq_true, if_false]
    exact hrender

/-- Frontmatter, a heading that ends with a carriage return, and a nested list without a final line
    feed. -/
def sampleText : List Char := "---\na: b\n---\n\n# Title \r\n\n- one\n  - two".toList

theorem sampleText_serialized : ∃ d, @parseDocument charSegmentation sampleText = some d ∧
      d.serialize .exact = some sampleText := by
  have hfront : (frontmatterAt ((sourceLines sampleText).map SourceLine.text)).isSome := by
    decide +kernel
  obtain ⟨⟨frontmatter, startIndex⟩, hr⟩ := isSome_iff_exists.mp hfront
  obtain ⟨d, hd, -⟩ := @parseDocument_layout _ charSegmentation _ _ hr
  exact ⟨d, hd, @serialize_parseDocument charSegmentation _ _ hd⟩

end MdCrdt
