import MdCrdt.Storage.Compaction

/- Operation segments are an exact log.

  A segment is decoded to a payload exactly when it is the encoding of that payload, whatever
  the checksum is. Appending keeps the files `op_0`, `op_1`, … of the payloads so far and
  nothing else in the directory (`Logs`), so the index behind the largest one is free and the
  files sorted by index are the payloads in the order they came. -/
namespace MdCrdt.Storage
open Lib Prog List Option Disk
open Vault (Path Name)

/-! ## Names -/

theorem parseUsize_toString (h : n < 2 ^ 64) : parseUsize (toString n).toList = some n := by
  have hdigits : ∀ c ∈ Nat.toDigits 10 n, c.isDigit := fun c hc =>
    Nat.isDigit_of_mem_toDigits (by decide) (by decide) hc
  have hne : Nat.toDigits 10 n ≠ [] := Nat.toDigits_ne_nil
  have hvalue := @Nat.ofDigitChars_toDigits 10 n (by decide) (by decide)
  rw [Nat.toString_eq_repr, Nat.toList_repr]
  simp only [parseUsize]
  split
  · next rest hl =>
    exact absurd (hdigits '+' (hl ▸ mem_cons_self)) (by decide)
  · rw [if_neg (by simp [hne, List.all_eq_true.mpr hdigits]), ← Nat.ofDigitChars_eq_foldl, hvalue, if_pos h]

theorem indexAfter_indexed (h : n < 2 ^ 64) :
    indexAfter opPrefix (indexed opsDir opPrefix n).name = some n := by
  rw [indexAfter, indexed, within, if_pos (prefix_append _ _), drop_left, parseUsize_toString h]

theorem indexed_inj (h : indexed opsDir opPrefix m = indexed opsDir opPrefix n) : m = n := by
  have hname : opPrefix ++ (toString m).toList = opPrefix ++ (toString n).toList := congrArg Path.name h
  have hdigits : Nat.toDigits 10 m = Nat.toDigits 10 n := by
    simpa only [Nat.toString_eq_repr, Nat.toList_repr] using append_cancel_left hname
  have hvalue := congrArg (fun l => Nat.ofDigitChars 10 l 0) hdigits
  simpa using hvalue

/-- A temporary file is no segment. -/
theorem tempPath_ne_indexed (m n) :
    tempPath (indexed opsDir opPrefix m) ≠ indexed opsDir opPrefix n := by
  intro h
  have hname : (opPrefix ++ (toString m).toList) ++ ".tmp".toList = opPrefix ++ (toString n).toList :=
    congrArg Path.name h
  rw [append_assoc] at hname
  have hdot : '.' ∈ (toString n).toList := append_cancel_left hname ▸ mem_append_right _ (by decide)
  rw [Nat.toString_eq_repr, Nat.toList_repr] at hdot
  exact absurd (Nat.isDigit_of_mem_toDigits (by decide) (by decide) hdot) (by decide)

theorem getElem?_snoc {A : Type} {l : List A} {a b n} :
    (l ++ [a])[n]? = some b ↔ l[n]? = some b ∨ n = l.length ∧ a = b := by
  grind

/-! ## The format -/

/-- A field of the header, read and written back. -/
theorem field_eq {bytes : Bytes} (hlen : i + n ≤ bytes.length)
    (h : fromLeBytes ((bytes.drop i).take n) = v) : (bytes.drop i).take n = toLeBytes n v := by
  have hn : ((bytes.drop i).take n).length = n := by
    rw [length_take, length_drop]
    omega
  rw [← toLeBytes_fromLeBytes ((bytes.drop i).take n), hn, h]

variable [Format] {order : List Path → List Path} {d : Store} {payloads : List Bytes} {payload : Bytes}

theorem length_encodeOpSegment (payload) :
    (encodeOpSegment payload).length = opSegmentHeaderLen + payload.length := by
  simp [encodeOpSegment, opSegmentMagic, opSegmentHeaderLen]
  omega

theorem decodeOpSegment_eq_ok {bytes : Bytes} (hlen : bytes.length < 2 ^ 64) :
    decodeOpSegment path bytes = .ok payload ↔ bytes = encodeOpSegment payload := by
  constructor
  · intro h
    simp only [decodeOpSegment] at h
    split_ifs at h with hheader hmagic hversion hover hsize hsum
    have hpayload : bytes.drop opSegmentHeaderLen = payload := Except.ok.inj h
    have hl : payload.length = fromLeBytes ((bytes.drop 10).take 8) := by
      rw [← hpayload, length_drop, not_not.mp hsize, Nat.add_sub_cancel_left]
    rw [opSegmentHeaderLen] at hheader
    have hpart : ∀ i n, (bytes.drop i).take n ++ bytes.drop (i + n) = bytes.drop i := fun i n => by
      rw [← drop_drop, take_append_drop]
    calc bytes = bytes.take 8 ++ ((bytes.drop 8).take 2 ++ ((bytes.drop 10).take 8 ++
          ((bytes.drop 18).take 4 ++ bytes.drop 22))) := by
          rw [hpart 18 4, hpart 10 8, hpart 8 2, take_append_drop]
      _ = encodeOpSegment payload := by
          rw [not_not.mp hmagic, field_eq (by omega) (not_not.mp hversion), field_eq (by omega) hl.symm,
            field_eq (by omega) (not_not.mp hsum).symm,
            show bytes.drop 22 = payload from hpayload, encodeOpSegment, hpayload]
          simp only [append_assoc]
  · rintro rfl
    have hsize := length_encodeOpSegment payload
    have hmagic : (encodeOpSegment payload).take 8 = opSegmentMagic := rfl
    have hversion : ((encodeOpSegment payload).drop 8).take 2 = toLeBytes 2 opSegmentVersion := rfl
    have hl : ((encodeOpSegment payload).drop 10).take 8 = toLeBytes 8 payload.length := rfl
    have hsum : ((encodeOpSegment payload).drop 18).take 4 =
        toLeBytes 4 (Format.checksum payload).toNat := rfl
    have hpayload : (encodeOpSegment payload).drop opSegmentHeaderLen = payload := rfl
    rw [hsize, opSegmentHeaderLen] at hlen
    have hl' : payload.length < 256 ^ 8 := by omega
    have hsum' : (Format.checksum payload).toNat < 256 ^ 4 := UInt32.toNat_lt _
    simp only [decodeOpSegment, hsize, hmagic, hversion, hl, hsum, hpayload,
      fromLeBytes_toLeBytes hl', fromLeBytes_toLeBytes hsum']
    rw [if_neg (by omega), if_neg (by simp), if_neg (by decide), if_neg (by rw [opSegmentHeaderLen]; omega),
      if_neg (by simp), if_neg (by simp)]

/-! ## The files of a log -/

/-- The directory of operations holds the segments of these payloads and nothing else. -/
structure Logs (payloads : List Bytes) (d : Store) : Prop where
  dir : payloads ≠ [] → (d.get? opsDir).isSome
  files : ∀ p, isIn opsDir p = true → ∀ bytes, d.get? p = some bytes ↔
    ∃ n payload, payloads[n]? = some payload ∧ p = indexed opsDir opPrefix n ∧
      bytes = encodeOpSegment payload

omit [Format] in
theorem gives_atomicWriteDurable (path bytes) :
    Gives order (atomicWriteDurable path bytes) d (.ok ())
      ((((d.put (tempPath path) []).put (tempPath path) bytes).del (tempPath path)).put path bytes) := by
  exact (gives_overwrite _ _).bind ((gives_overwrite _ _).bind
    (gives_sync.bind ((gives_renameTemp _ _).bind gives_sync)))

/-- Files that can all be decoded are read one after the other. -/
theorem reads_readOps_of_files (hall : Forall₂ (fun x payload =>
      ∃ bytes, d.get? x.2 = some bytes ∧ decodeOpSegment x.2 bytes = .ok payload) l payloads) :
    Reads order (readOps l) d (.ok payloads) := by
  induction hall with
  | nil => exact reads_pure []
  | @cons x _ _ _ hx _ ih =>
    obtain ⟨bytes, hget, hdec⟩ := hx
    exact reads_readOps_ok x.1 hget hdec ih

/-- The segments by index. -/
def segments (n : Nat) : List (Nat × Path) := (range n).map (fun i => (i, indexed opsDir opPrefix i))

section
variable (h : Logs payloads d)
include h

theorem Logs.get? (hn : payloads[n]? = some payload) :
    d.get? (indexed opsDir opPrefix n) = some (encodeOpSegment payload) :=
  (h.files _ rfl _).mpr ⟨n, payload, hn, rfl, rfl⟩

theorem Logs.opEntries_perm :
    (opEntries d).Perm ((range payloads.length).map (indexed opsDir opPrefix)) := by
  refine (perm_ext_iff_of_nodup (nodup_opEntries d) (nodup_range.map (fun _ _ => indexed_inj))).mpr
    (fun p => ?_)
  rw [mem_opEntries, List.mem_map]
  constructor
  · rintro ⟨⟨bytes, hb⟩, hp⟩
    obtain ⟨n, payload, hn, rfl, -⟩ := (h.files p hp bytes).mp hb
    exact ⟨n, List.mem_range.mpr (List.getElem?_eq_some_iff.mp hn).1, rfl⟩
  · rintro ⟨n, hn, rfl⟩
    exact ⟨⟨_, h.get? (getElem?_eq_getElem (List.mem_range.mp hn))⟩, rfl⟩

variable (horder : ∀ l, (order l).Perm l) (hlen : payloads.length < 2 ^ 64)
include horder hlen

theorem Logs.opFiles_perm : (opFiles (order (opEntries d))).Perm (segments payloads.length) := by
  have hfiles : opFiles ((range payloads.length).map (indexed opsDir opPrefix)) =
      segments payloads.length := by
    rw [opFiles, filterMap_map, segments, ← filterMap_eq_map]
    refine filterMap_congr (fun n hn => ?_)
    rw [Function.comp_apply, indexAfter_indexed ((List.mem_range.mp hn).trans hlen)]
    rfl
  exact hfiles ▸ Storage.opFiles_perm ((horder _).trans h.opEntries_perm)

/-- The files sorted by index, in whatever order the directory is listed. -/
theorem Logs.opPaths_eq : opPaths (order (opEntries d)) = segments payloads.length := by
  have hperm := (opPaths_perm (order (opEntries d))).trans (h.opFiles_perm horder hlen)
  have hsorted : (segments payloads.length).Pairwise (fun x y => x.1 ≤ y.1) :=
    pairwise_map.mpr (pairwise_lt_range.imp le_of_lt)
  have hinsert : (opPaths (order (opEntries d))).Pairwise (fun x y => x.1 ≤ y.1) :=
    pairwise_insertionSort _ _
  refine hperm.eq_of_pairwise (fun x y hx hy hxy hyx => ?_) hinsert hsorted
  obtain ⟨m, -, rfl⟩ := mem_map.mp (hperm.subset hx)
  obtain ⟨n, -, rfl⟩ := mem_map.mp hy
  obtain rfl : m = n := le_antisymm hxy hyx
  rfl

/-- The next index is free. -/
theorem Logs.indexBehind_eq : indexBehind opPrefix (order (opEntries d)) = payloads.length := by
  have hperm : ((order (opEntries d)).filterMap (fun p => indexAfter opPrefix p.name)).Perm
      (range payloads.length) := by
    have hfst := (h.opFiles_perm horder hlen).map Prod.fst
    rw [opFiles, segments, map_filterMap, List.map_map] at hfst
    simpa only [Option.map_map, Function.comp_def, Option.map_id', List.map_id'] using hfst
  rw [indexBehind]
  cases hn : payloads.length with
  | zero =>
    rw [hn, range_zero, perm_nil] at hperm
    rw [hperm]
    rfl
  | succ n =>
    have hmax : ((order (opEntries d)).filterMap (fun p => indexAfter opPrefix p.name)).max? =
        some n := by
      rw [max?_eq_some_iff]
      refine ⟨hperm.mem_iff.mpr (by simp [hn]), fun m hm => ?_⟩
      have := mem_range.mp (hperm.mem_iff.mp hm)
      omega
    rw [hmax]
    exact Nat.mod_eq_of_lt (hn ▸ hlen)

/-- Reading gives the payloads. -/
theorem Logs.reads (hsize : ∀ p ∈ payloads, opSegmentHeaderLen + p.length < 2 ^ 64) :
    Reads order readOpSegments d (.ok payloads) := by
  refine (reads_pathExists opsDir).bind ?_
  cases hdir : (d.get? opsDir).isSome with
  | false =>
    obtain rfl : payloads = [] := by
      by_contra hne
      rw [h.dir hne] at hdir
      cases hdir
    exact reads_pure []
  | true =>
    have hplaced : misplaced (segments payloads.length) = none := by
      rw [misplaced, map_eq_none_iff, find?_eq_none]
      rintro ⟨x, i⟩ hx
      have hi := mem_zipIdx_iff_getElem?.mp hx
      simp only [segments, getElem?_map, map_eq_some_iff] at hi
      obtain ⟨n, hn, rfl⟩ := hi
      obtain ⟨_, rfl⟩ := List.getElem?_eq_some_iff.mp hn
      simp
    refine (reads_readDir opsDir).bind ?_
    rw [show order (d.keys.filter (isIn opsDir)) = order (opEntries d) from rfl,
      h.opPaths_eq horder hlen, readInOrder, hplaced]
    refine reads_readOps_of_files (forall₂_iff_get.mpr ⟨by simp [segments], fun i hi hp => ?_⟩)
    have hget : payloads[i]? = some payloads[i] := getElem?_eq_getElem hp
    simp only [segments, get_eq_getElem, getElem_map, getElem_range]
    refine ⟨_, h.get? hget, (decodeOpSegment_eq_ok ?_).mpr rfl⟩
    rw [length_encodeOpSegment]
    exact hsize _ (getElem_mem hp)

/-- One more segment. -/
theorem Logs.append (payload) :
    ∃ path d', Gives order (appendOpSegment payload) d (.ok path) d' ∧ Logs (payloads ++ [payload]) d' := by
  let path := indexed opsDir opPrefix payloads.length
  let d₁ := if (d.get? opsDir).isSome then d else d.put opsDir []
  have hd₁ : ∀ p, isIn opsDir p = true → d₁.get? p = d.get? p := by
    intro p hp
    show (if (d.get? opsDir).isSome then d else d.put opsDir []).get? p = d.get? p
    split
    · rfl
    · rw [get?_put, if_neg (fun hpo => by rw [hpo] at hp; cases hp)]
  have hdir : (d₁.get? opsDir).isSome := by
    show ((if (d.get? opsDir).isSome then d else d.put opsDir []).get? opsDir).isSome
    split
    · assumption
    · rw [get?_put, if_pos rfl]
      rfl
  have h₁ : Logs payloads d₁ := ⟨fun _ => hdir, fun p hp bytes => by rw [hd₁ p hp]; exact h.files p hp bytes⟩
  have hindex : Gives order (nextIndex opsDir opPrefix) d₁ (.ok payloads.length) d₁ := by
    refine Reads.bind (reads_pathExists opsDir) ?_
    rw [hdir, ← h₁.indexBehind_eq horder hlen]
    exact (reads_readDir opsDir).bind (reads_pure _)
  have hget : ∀ p, ((((d₁.put (tempPath path) []).put (tempPath path) (encodeOpSegment payload)).del
      (tempPath path)).put path (encodeOpSegment payload)).get? p = if p = path then
        some (encodeOpSegment payload) else if p = tempPath path then none else d₁.get? p := by
    intro p
    simp only [get?_put, get?_del]
    split_ifs <;> rfl
  refine ⟨path, _, Gives.bind (a := ()) (show Gives order (createDirAll opsDir) d (.ok ()) d₁ from rfl)
    (hindex.bind ((gives_atomicWriteDurable path (encodeOpSegment payload)).bind rfl)), fun _ => ?_,
    fun p hp bytes => ?_⟩
  · have hne : ∀ p, p.dir = [opsDir.name] → opsDir ≠ p := fun p hp he => by
      rw [← he] at hp
      cases hp
    rw [hget, if_neg (hne _ rfl), if_neg (hne _ rfl)]
    exact hdir
  · simp only [hget, getElem?_snoc]
    split_ifs with hpath htemp
    · constructor
      · intro hb
        exact ⟨_, payload, .inr ⟨rfl, rfl⟩, hpath, (some.inj hb).symm⟩
      · rintro ⟨n, q, hn | ⟨rfl, rfl⟩, hpn, rfl⟩
        · rw [← indexed_inj (hpath.symm.trans hpn), getElem?_eq_none le_rfl] at hn
          cases hn
        · rfl
    · refine ⟨fun hb => (by cases hb), ?_⟩
      rintro ⟨n, q, -, hpn, -⟩
      exact absurd (htemp.symm.trans hpn) (tempPath_ne_indexed _ _)
    · rw [h₁.files p hp]
      constructor
      · rintro ⟨n, q, hn, hq⟩
        exact ⟨n, q, .inl hn, hq⟩
      · rintro ⟨n, q, hn | ⟨rfl, -⟩, hpn, hq⟩
        · exact ⟨n, q, hn, hpn, hq⟩
        · exact absurd hpn hpath

end

/-- Append payloads one after the other. -/
def appendAll : List Bytes → StorageM Unit
  | [] => pure ()
  | payload :: rest => do
    let _ ← appendOpSegment payload
    appendAll rest

theorem Logs.appendAll (horder : ∀ l, (order l).Perm l) (h : Logs payloads d)
    (hlen : (payloads ++ rest).length < 2 ^ 64) :
    ∃ d', Gives order (appendAll rest) d (.ok ()) d' ∧ Logs (payloads ++ rest) d' := by
  induction rest generalizing payloads d with
  | nil => exact ⟨d, rfl, by rwa [append_nil]⟩
  | cons payload rest ih =>
    rw [length_append, length_cons] at hlen
    obtain ⟨path, d₁, hgives, h₁⟩ := h.append horder (by omega) payload
    obtain ⟨d', hrest, h'⟩ := ih h₁ (by simp; omega)
    exact ⟨d', hgives.bind hrest, by simpa using h'⟩

/-- **The log is exact.** What was appended where no operation was stored is read back, in order,
    and a segment is decoded to a payload exactly when it encodes that payload. Lengths and
    indices fit in 64 bits, as the source's types have it. -/
theorem op_segments_exact (horder : ∀ l, (order l).Perm l) :
    (∀ (d : Store) (payloads : List Bytes), opEntries d = [] → payloads.length < 2 ^ 64 →
      (∀ p ∈ payloads, opSegmentHeaderLen + p.length < 2 ^ 64) →
      ∃ d', Gives order (appendAll payloads) d (.ok ()) d' ∧
        Reads order readOpSegments d' (.ok payloads)) ∧
    ∀ (path : Path) (bytes payload : Bytes), bytes.length < 2 ^ 64 →
      (decodeOpSegment path bytes = .ok payload ↔ bytes = encodeOpSegment payload) := by
  refine ⟨fun d payloads hempty hlen hsize => ?_, fun path bytes payload => decodeOpSegment_eq_ok⟩
  have hlogs : Logs [] d := by
    refine ⟨fun hne => absurd rfl hne, fun p hp bytes => ⟨fun hb => ?_, fun hb => ?_⟩⟩
    · have hmem := mem_opEntries.mpr ⟨⟨bytes, hb⟩, hp⟩
      rw [hempty] at hmem
      cases hmem
    · obtain ⟨n, q, hn, -⟩ := hb
      simp at hn
  obtain ⟨d', hgives, h'⟩ := hlogs.appendAll horder hlen
  exact ⟨d', hgives, h'.reads horder hlen hsize⟩

omit [Format] in
theorem op_segments_exact_plain : ∃ d', @Gives Unit id (@appendAll plainFormat [[1, 2], []]) empty
    (.ok ()) d' ∧ Reads id (@readOpSegments plainFormat) d' (.ok [[1, 2], []]) :=
  (@op_segments_exact plainFormat id (fun l => Perm.refl l)).1 empty [[1, 2], []] rfl (by decide)
    (by decide)

end MdCrdt.Storage
