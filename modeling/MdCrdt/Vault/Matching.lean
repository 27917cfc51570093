import Mathlib.Data.List.FinRange
import Mathlib.Data.List.Sort
import MdCrdt.Doc.Text
import MdCrdt.Lib.Greedy

/- Which parsed block continues which block of the flushed state (`filesync/mod.rs`).

  Every compatible pair with a good score is an edge. The edges are taken from the best
  to the worst, and one is left out only if one of its blocks is taken already, so by an
  edge that is at least as good.

  Correspondence (Rust ↔ Lean):
    the entries of `edges`, the order of `sort_by` ↔ `edges`, `sortKey`
    the loop over the sorted edges, its two used sets ↔ `Lib.takeEdges`
  `compute_score` and `fingerprint_similarity_int` are parameters: nothing depends on
  what they return. -/
namespace MdCrdt
open List Lib

structure Fingerprint where
  tokens : List Nat
  len : Nat

structure ParsedBlock where
  fingerprint : Fingerprint
  containerPath : List Nat
  position : Nat

structure BlockFingerprint extends ParsedBlock where
  blockId : BlockId

structure MatchConfig where
  minMatchScore : Nat
  exactThreshold : Nat
  copyThreshold : Nat

inductive MatchType where
  | exactFingerprint
  | fuzzyContent

structure BlockMatch where
  oldId : BlockId
  newId : BlockId
  newIndex : Nat
  confidence : Nat
  matchType : MatchType

structure AddedBlock where
  id : BlockId
  newIndex : Nat
  probableCopyOf : Option BlockId

structure BlockMapping where
  matched : List BlockMatch
  removed : List BlockId
  added : List AddedBlock

def sharesPrefix (a b : List Nat) : Bool :=
  2 ≤ a.length && 2 ≤ b.length && a.dropLast == b.dropLast

def compatibleContainers (old new : List Nat) : Bool :=
  old == new || old.isEmpty || new.isEmpty || sharesPrefix old new

/-- A step of the hash, in `u128`. -/
def mix (h n : Nat) : Nat := (h * 0x9E3779B97F4A7C15 + n) % 2 ^ 128

def blockIdForUnmatchedParsed (block : ParsedBlock) (ordinal : Nat) : BlockId :=
  let seed := 0x6d64637264746164 * 2 ^ 64
  let content := mix (block.fingerprint.tokens.foldl mix seed) block.fingerprint.len
  let h := mix (block.containerPath.foldl mix (mix content block.position)) ordinal
  ⟨h / 2 ^ 64, h % 2 ^ 64⟩

/-- Better scores come first, then the earlier old block and the earlier new block. -/
def sortKey (e : Edge (Fin n) (Fin m)) : ℕᵒᵈ ×ₗ Fin n ×ₗ Fin m :=
  toLex (OrderDual.toDual e.score, toLex (e.old, e.new))

section Match
variable (similarity : Fingerprint → Fingerprint → Nat)
  (score : BlockFingerprint → ParsedBlock → Nat → Nat → Nat → Nat)
  (old : List BlockFingerprint) (new : List ParsedBlock) (config : MatchConfig)

def edgeAt (i : Fin old.length) (j : Fin new.length) :
    Option (Edge (Fin old.length) (Fin new.length)) :=
  let s := score old[i] new[j] i j old.length
  if compatibleContainers old[i].containerPath new[j].containerPath = true ∧
      config.minMatchScore ≤ s then some ⟨s, i, j⟩ else none

def edges : List (Edge (Fin old.length) (Fin new.length)) :=
  (finRange old.length).flatMap (fun i =>
    (finRange new.length).filterMap (edgeAt score old new config i))

/-- The edges that are taken. -/
def matchedEdges : List (Edge (Fin old.length) (Fin new.length)) :=
  takeEdges [] [] ((edges score old new config).insertionSort (sortKey · ≤ sortKey ·))

def blockMatch (e : Edge (Fin old.length) (Fin new.length)) : BlockMatch :=
  { oldId := old[e.old].blockId, newId := old[e.old].blockId, newIndex := e.new,
    confidence := e.score,
    matchType := if config.exactThreshold ≤ e.score then .exactFingerprint else .fuzzyContent }

/-- The first matched block that the new block looks like. -/
def copySource (matched : List BlockMatch) (block : ParsedBlock) : Option BlockId :=
  matched.findSome? (fun m => do
    let o ← old.find? (·.blockId = m.oldId)
    if config.copyThreshold < similarity o.fingerprint block.fingerprint then some m.oldId
    else none)

def matchBlocks : BlockMapping :=
  let taken := matchedEdges score old new config
  let matched := taken.map (blockMatch old new config)
  { matched
    removed := ((finRange old.length).filter (· ∉ taken.map Edge.old)).map (old.get · |>.blockId)
    added := ((finRange new.length).filter (· ∉ taken.map Edge.new)).map (fun j : Fin new.length =>
      ⟨blockIdForUnmatchedParsed new[j] j, j, copySource similarity old config matched new[j]⟩) }

variable {score old new config}

theorem mem_edges {e : Edge (Fin old.length) (Fin new.length)} : e ∈ edges score old new config ↔
      compatibleContainers old[e.old].containerPath new[e.new].containerPath = true ∧
        config.minMatchScore ≤ e.score ∧
        e.score = score old[e.old] new[e.new] e.old e.new old.length := by
  simp only [edges, edgeAt, mem_flatMap, mem_filterMap, mem_finRange, true_and,
    Option.ite_none_right_eq_some, Option.some_inj]
  constructor
  · rintro ⟨i, j, ⟨hc, hs⟩, rfl⟩
    exact ⟨hc, hs, rfl⟩
  · rintro ⟨hc, hs, he⟩
    exact ⟨e.old, e.new, ⟨hc, he ▸ hs⟩, by rw [← he]⟩

/-- The best edges come first. -/
theorem pairwise_sorted (es : List (Edge (Fin n) (Fin m))) :
    (es.insertionSort (sortKey · ≤ sortKey ·)).Pairwise (fun a b => b.score ≤ a.score) := by
  have : Std.Total (fun a b : Edge (Fin n) (Fin m) => sortKey a ≤ sortKey b) :=
    ⟨fun _ _ => le_total _ _⟩
  have : IsTrans (Edge (Fin n) (Fin m)) (sortKey · ≤ sortKey ·) := ⟨fun _ _ _ => le_trans⟩
  refine (pairwise_insertionSort _ es).imp (fun {a b} h => ?_)
  rcases Prod.Lex.toLex_le_toLex.mp h with h | ⟨h, -⟩
  · exact (OrderDual.toDual_lt_toDual.mp h).le
  · exact (OrderDual.toDual_inj.mp h).ge

/-- Indices without repetition and the indices left out are all the indices. -/
theorem perm_finRange {l : List (Fin n)} (h : l.Nodup) :
    (l ++ (finRange n).filter (· ∉ l)).Perm (finRange n) := by
  refine (perm_ext_iff_of_nodup (h.append ((nodup_finRange n).filter _) ?_)
    (nodup_finRange n)).mpr (fun i => by simp [em])
  intro i hi hf
  exact of_decide_eq_true (mem_filter.mp hf).2 hi

/-- Each old block is matched once or removed and each new block matched once or added. Only
compatible blocks with a good score are matched, and of any two such blocks one is matched at
least as well. -/
structure StableMatching (score : BlockFingerprint → ParsedBlock → Nat → Nat → Nat → Nat)
    (old : List BlockFingerprint) (new : List ParsedBlock) (config : MatchConfig)
    (mapping : BlockMapping) : Prop where
  old_once : (mapping.matched.map BlockMatch.oldId ++ mapping.removed).Perm
    (old.map BlockFingerprint.blockId)
  new_once : (mapping.matched.map BlockMatch.newIndex ++ mapping.added.map AddedBlock.newIndex).Perm
    (range new.length)
  fits : ∀ m ∈ mapping.matched, ∃ (i : Fin old.length) (j : Fin new.length),
    old[i].blockId = m.oldId ∧ j = m.newIndex ∧
      compatibleContainers old[i].containerPath new[j].containerPath = true ∧
      config.minMatchScore ≤ m.confidence ∧ m.confidence = score old[i] new[j] i j old.length
  stable : ∀ (i : Fin old.length) (j : Fin new.length),
    compatibleContainers old[i].containerPath new[j].containerPath = true →
    config.minMatchScore ≤ score old[i] new[j] i j old.length →
    ∃ m ∈ mapping.matched, (m.oldId = old[i].blockId ∨ m.newIndex = j) ∧
      score old[i] new[j] i j old.length ≤ m.confidence

theorem matchBlocks_stable :
    StableMatching score old new config (matchBlocks similarity score old new config) := by
  obtain ⟨hold, hnew⟩ := nodup_takeEdges (A := Fin old.length) (B := Fin new.length)
    (l := (edges score old new config).insertionSort (sortKey · ≤ sortKey ·))
    nodup_nil nodup_nil
  refine ⟨?_, ?_, ?_, fun i j hc hs => ?_⟩
  · have h := ((perm_finRange hold).map old.get).map BlockFingerprint.blockId
    rw [map_get_finRange] at h
    simpa [matchBlocks, matchedEdges, blockMatch, Function.comp_def] using h
  · have h := (perm_finRange hnew).map Fin.val
    simpa [matchBlocks, matchedEdges, blockMatch, Function.comp_def] using h
  · intro m hm
    obtain ⟨e, he, rfl⟩ := mem_map.mp hm
    exact ⟨e.old, e.new, rfl, rfl, mem_edges.mp ((mem_insertionSort _).mp (mem_of_takeEdges he))⟩
  · obtain ⟨e, he, hshare, hle⟩ := exists_takeEdges (s := []) (t := [])
      (pairwise_sorted (edges score old new config))
      ((mem_insertionSort _).mpr (mem_edges (e := ⟨_, i, j⟩).mpr ⟨hc, hs, rfl⟩))
      not_mem_nil not_mem_nil
    refine ⟨blockMatch old new config e, mem_map_of_mem he, hshare.imp ?_ ?_, hle⟩
    · exact fun h => congrArg (old.get · |>.blockId) h
    · exact congrArg Fin.val

end Match

end MdCrdt
