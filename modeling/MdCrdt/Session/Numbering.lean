import MdCrdt.Session.Creates

/- The counters an operation takes.

  An operation covers the counters from `firstCounter` to that of its id. A session
  numbers its operations without gaps: each one starts at the clock and the clock
  moves behind its id (`Creates.counters`). -/
namespace MdCrdt
open Lib Session
open List hiding le_trans le_refl
variable {peer : PeerId}

section
variable [Segmentation]

/-- The first counter an operation covers. -/
def firstCounter (op : DocOp) : Nat :=
  SyncState.spanStart (opId op).counter (operationExtent op.envelope).2

end

theorem spanStart_of_le (h : lo ≤ hi) : SyncState.spanStart hi (hi - lo + 1) = lo := by
  unfold SyncState.spanStart
  omega

theorem le_foldl_max {A : Type} (f : A → Nat) (l : List A) (m) :
    m ≤ l.foldl (fun hi a => max hi (f a)) m := by
  induction l generalizing m with
  | nil => exact le_refl m
  | cons a l ih => exact le_trans (le_max_left _ _) (ih _)

theorem le_foldl_max_of_mem {A : Type} (f : A → Nat) {l : List A} {a} (ha : a ∈ l) (m) :
    f a ≤ l.foldl (fun hi a => max hi (f a)) m := by
  induction l generalizing m with
  | nil => cases ha
  | cons b l ih =>
    rcases mem_cons.mp ha with rfl | ha
    · exact le_trans (le_max_right _ _) (le_foldl_max f l _)
    · exact ih ha _

theorem foldl_min_eq {A : Type} (f : A → Nat) {l : List A} (h : ∀ a ∈ l, m ≤ f a) :
    l.foldl (fun lo a => min lo (f a)) m = m := by
  induction l with
  | nil => rfl
  | cons a l ih =>
    rw [foldl_cons, min_eq_left (h a mem_cons_self)]
    exact ih (fun b hb => h b (mem_cons_of_mem _ hb))

/-! ## Consecutive ids -/

theorem mem_pasteUnits (hu : u ∈ pasteUnits peer c a r gs) :
    u.id.peer = peer ∧ c ≤ u.id.counter := by
  induction gs generalizing c a r with
  | nil => cases hu
  | cons g gs ih =>
    rcases mem_cons.mp hu with rfl | hu
    · exact ⟨rfl, le_refl _⟩
    · obtain ⟨hp, hc⟩ := ih hu
      exact ⟨hp, by omega⟩

theorem placements_ids (peer c a r targets) :
    (placements peer c a r targets).map MovedBlockWire.id =
      (List.range' c targets.length).map (fun k => ⟨k, peer⟩) := by
  induction targets generalizing c a r with
  | nil => rfl
  | cons t ts ih =>
    simp only [placements, map_cons, length_cons, range'_succ]
    rw [ih]

theorem mem_placements (hm : m ∈ placements peer c a r targets) :
    m.id.peer = peer ∧ c ≤ m.id.counter ∧ m.id.counter < c + targets.length := by
  have hin : m.id ∈ (placements peer c a r targets).map MovedBlockWire.id :=
    mem_map_of_mem hm
  rw [placements_ids] at hin
  obtain ⟨k, hk, hid⟩ := mem_map.mp hin
  rw [mem_range'_1] at hk
  rw [← hid]
  exact ⟨rfl, hk⟩

theorem moveTargets_length
    (h : moveTargets d toParent source ids = .ok targets) : targets.length = ids.length := by
  induction ids generalizing source targets with
  | nil =>
    obtain rfl := Except.ok.inj h
    rfl
  | cons id ids ih =>
    simp only [moveTargets, bind, Except.bind] at h
    split at h
    · split at h
      · split at h
        · cases h
        · split at h
          · cases h
          · split at h
            · cases h
            · next ts hts =>
              obtain rfl := Except.ok.inj h
              simp [ih hts]
      · cases h
    · cases h

theorem min?_range' (c n) : (List.range' c (n + 1)).min? = some c := by
  rw [min?_eq_some_iff]
  refine ⟨by simp [mem_range'_1], fun b hb => ?_⟩
  rw [mem_range'_1] at hb
  exact hb.1

/-! ## Nested content

A block may be inserted with blocks and items inside; the caller numbers them. -/

mutual

/-- Element and id of every block and item inside a skeleton. -/
def kindElements : BlockKindSkeleton → List (OpId × BlockId)
  | .blockQuote children => childElements children
  | .list _ items => itemElements items
  | .paragraph _ | .heading _ _ | .codeFence _ _ _ | .rawBlock _ | .table => []

def childElements : List BlockSkeletonInsert → List (OpId × BlockId)
  | [] => []
  | ⟨_, id, _, ⟨blockId, kind⟩⟩ :: rest => (id, blockId) :: kindElements kind ++ childElements rest

def itemElements : List ListItemSkeleton → List (OpId × BlockId)
  | [] => []
  | ⟨_, id, _, blockId, _, _, children⟩ :: rest =>
    (id, blockId) :: childElements children ++ itemElements rest

end

/-- What a caller of `insertBlockIn` promises of nested content: every block and item in it has
    an id of its own, above that of the block, and the logical id that goes with it. -/
def DocOp.Numbered : DocOp → Prop
  | .insertBlock _ _ id _ block =>
    (∀ e ∈ kindElements block.kind, e.2 = blockIdFromOp e.1 ∧ id.counter < e.1.counter) ∧
      ((kindElements block.kind).map Prod.fst).Nodup
  | _ => True

/-! ## Created operations -/

section Created
variable [Segmentation] {e : OpId × BlockId}

theorem le_maxCounterInChildren (hi : Nat) (l) : hi ≤ maxCounterInChildren hi l := by
  induction l generalizing hi with
  | nil => rw [maxCounterInChildren]
  | cons child rest ih =>
    obtain ⟨_, id, _, _, kind⟩ := child
    rw [maxCounterInChildren]
    exact le_trans (le_trans (le_max_left _ _) (le_max_left _ _)) (ih _)

theorem le_maxCounterInItems (hi : Nat) (l) : hi ≤ maxCounterInItems hi l := by
  induction l generalizing hi with
  | nil => rw [maxCounterInItems]
  | cons item rest ih =>
    obtain ⟨_, id, _, _, _, taskOp, children⟩ := item
    rw [maxCounterInItems]
    exact le_trans (le_trans (le_trans (le_max_left _ _) (le_max_left _ _))
      (le_maxCounterInChildren _ children)) (ih _)

theorem le_maxCounterInKind (id kind) : id.counter ≤ maxCounterInKind id kind := by
  cases kind with
  | paragraph | heading => rw [maxCounterInKind]; exact Nat.le_add_right _ _
  | blockQuote children => rw [maxCounterInKind]; exact le_maxCounterInChildren _ _
  | list style items => rw [maxCounterInKind]; exact le_maxCounterInItems _ _
  | codeFence | rawBlock | table => rw [maxCounterInKind]

mutual

/-- What is inside a skeleton is of the peer that was checked and below the counter computed. -/
theorem mem_kindElements (elem) :
    ∀ {k : BlockKindSkeleton}, e ∈ kindElements k → kindPeersOk peer k = true →
      e.1.peer = peer ∧ e.1.counter ≤ maxCounterInKind elem k
  | .paragraph _, he, _ | .heading _ _, he, _ => by simp [kindElements] at he
  | .codeFence _ _ _, he, _ | .rawBlock _, he, _ | .table, he, _ => by simp [kindElements] at he
  | .blockQuote children, he, hp => by
    rw [kindElements] at he
    rw [kindPeersOk] at hp
    rw [maxCounterInKind]
    exact mem_childElements he hp
  | .list _ items, he, hp => by
    rw [kindElements] at he
    rw [kindPeersOk] at hp
    rw [maxCounterInKind]
    exact mem_itemElements he hp

theorem mem_childElements :
    ∀ {c : List BlockSkeletonInsert}, e ∈ childElements c → childrenPeersOk peer c = true →
      e.1.peer = peer ∧ e.1.counter ≤ maxCounterInChildren hi c
  | [], he, _ => by simp [childElements] at he
  | ⟨_, id, _, ⟨blockId, kind⟩⟩ :: rest, he, hp => by
    rw [childElements, cons_append, mem_cons, mem_append] at he
    rw [childrenPeersOk, Bool.and_eq_true, Bool.and_eq_true, decide_eq_true_eq] at hp
    rw [maxCounterInChildren]
    have hmax := le_maxCounterInChildren (max (max hi id.counter) (maxCounterInKind id kind)) rest
    rcases he with rfl | he | he
    · exact ⟨hp.1.1, le_trans (le_trans (le_max_right _ _) (le_max_left _ _)) hmax⟩
    · obtain ⟨h1, h2⟩ := mem_kindElements id he hp.1.2
      exact ⟨h1, le_trans h2 (le_trans (le_max_right _ _) hmax)⟩
    · exact mem_childElements he hp.2

theorem mem_itemElements :
    ∀ {c : List ListItemSkeleton}, e ∈ itemElements c → itemsPeersOk peer c = true →
      e.1.peer = peer ∧ e.1.counter ≤ maxCounterInItems hi c
  | [], he, _ => by simp [itemElements] at he
  | ⟨_, id, _, blockId, _, taskOp, children⟩ :: rest, he, hp => by
    rw [itemElements, cons_append, mem_cons, mem_append] at he
    rw [itemsPeersOk, Bool.and_eq_true, Bool.and_eq_true, Bool.and_eq_true, decide_eq_true_eq,
      decide_eq_true_eq] at hp
    rw [maxCounterInItems]
    have hmax := le_maxCounterInItems
      (maxCounterInChildren (max (max hi id.counter) taskOp.counter) children) rest
    rcases he with rfl | he | he
    · exact ⟨hp.1.1.1, le_trans (le_trans (le_trans (le_max_right _ _) (le_max_left _ _))
        (le_maxCounterInChildren _ children)) hmax⟩
    · obtain ⟨h1, h2⟩ := mem_childElements he hp.1.2
      exact ⟨h1, le_trans h2 hmax⟩
    · exact mem_itemElements he hp.2

end

variable [Serde] {s : Session} {op : DocOp}

/-- A session numbers its operations without gaps, under its own peer id. -/
structure Counters (s : Session) (op : DocOp) : Prop where
  peer : (opId op).peer = s.peer
  first : firstCounter op = s.nextCounter
  le : s.nextCounter ≤ (opId op).counter

theorem counters_of_extent (lo) (h : operationExtent op.envelope = (⟨hi, s.peer⟩, hi - lo + 1))
    (hlo : lo = s.nextCounter) (hle : lo ≤ hi) : Counters s op := by
  refine ⟨by rw [opId, h], ?_, ?_⟩
  · rw [firstCounter, opId, h, ← hlo]
    exact spanStart_of_le hle
  · rw [opId, h, ← hlo]
    exact hle

/-- An operation that covers its id alone. -/
theorem counters_single (h : operationExtent op.envelope = (s.peekNextId, 1)) : Counters s op :=
  counters_of_extent s.nextCounter (by rw [h, Nat.sub_self]; rfl) rfl (le_refl _)

theorem Session.Creates.counters (h : s.Creates op) : Counters s op := by
  cases h with
  | insertBlock =>
    exact counters_of_extent s.peekNextId.counter rfl rfl (le_maxCounterInKind _ _)
  | @insertText blockId offset graphemes block body hb ht ho hne =>
    obtain ⟨g, gs, rfl⟩ := exists_cons_of_ne_nil hne
    have hmin : (pasteUnits s.peer s.nextCounter (afterForGraphemeOffset body offset)
        (body.computeRightOrigin (afterForGraphemeOffset body offset)) (g :: gs)).foldl
        (fun lo u => min lo u.id.counter) s.nextCounter = s.nextCounter :=
      foldl_min_eq _ (fun u hu => (mem_pasteUnits hu).2)
    refine counters_of_extent _ rfl hmin ?_
    rw [hmin]
    exact le_foldl_max _ _ _
  | @moveBlocks blockIds toParent after destination targets hne hd ha ht hat =>
    obtain ⟨b, bs, rfl⟩ := exists_cons_of_ne_nil hne
    have hids : (placements s.peer s.nextCounter after (destination.computeRightOrigin after)
        targets).map (fun block => block.id.counter) =
        List.range' s.nextCounter (bs.length + 1) := by
      have := congrArg (List.map OpId.counter) (placements_ids s.peer s.nextCounter after
        (destination.computeRightOrigin after) targets)
      rw [map_map, map_map, moveTargets_length ht] at this
      simpa [Function.comp_def] using this
    have hlo : (((placements s.peer s.nextCounter after (destination.computeRightOrigin after)
        targets).map (fun block => block.id.counter)).min?).getD
        (s.nextCounter + (b :: bs).length - 1) = s.nextCounter := by
      rw [hids, min?_range']
      rfl
    refine counters_of_extent _ rfl hlo ?_
    rw [hlo, length_cons]
    omega
  | mergeBlocks => exact counters_of_extent s.peekNextId.counter rfl rfl (le_foldl_max _ _ _)
  | _ => exact counters_single rfl

end Created
end MdCrdt
