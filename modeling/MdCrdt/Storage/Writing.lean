import MdCrdt.Storage.Reading

/- Writing a snapshot when anything may go wrong.

  Whatever happens to a write, it leaves one of three directories, but for temporary
  files: the one it found, that with the new segment in the slot it writes to, or that
  with the new superblock as well (`holdsE_writeSnapshot`). The machine keeps a record of
  its commands, so the outcome also says whether a superblock was published. -/
namespace MdCrdt.Storage
open Lib Prog Option Disk
open Vault (Path)
variable (slot : Slot)

/-! ## Temporary files -/

/-- A file of the root whose name ends in `.tmp`. -/
def isTemp (p : Path) : Prop := p.dir = [] ∧ ".tmp".toList <:+ p.name

instance : DecidablePred isTemp := fun p =>
  inferInstanceAs (Decidable (p.dir = [] ∧ ".tmp".toList <:+ p.name))

theorem isTemp_tempPath (hp : p.dir = []) : isTemp (tempPath p) :=
  ⟨hp, List.suffix_append _ _⟩

theorem dir_superblock : slot.superblock.dir = [] := by cases slot <;> rfl

theorem dir_segment : slot.segment.dir = [] := by cases slot <;> rfl

theorem not_isTemp_superblock : ¬isTemp slot.superblock := by cases slot <;> decide

theorem not_isTemp_segment : ¬isTemp slot.segment := by cases slot <;> decide

theorem not_isTemp_legacy : ¬isTemp legacySegmentFile := by decide

theorem segment_ne_superblock (slot' : Slot) : slot.segment ≠ slot'.superblock := by
  cases slot <;> cases slot' <;> decide

theorem segment_inj {slot slot' : Slot} : slot.segment = slot'.segment ↔ slot = slot' := by
  cases slot <;> cases slot' <;> decide

theorem superblock_inj {slot slot' : Slot} : slot.superblock = slot'.superblock ↔ slot = slot' := by
  cases slot <;> cases slot' <;> decide

theorem legacy_ne_segment : legacySegmentFile ≠ slot.segment := by cases slot <;> decide

theorem legacy_ne_superblock : legacySegmentFile ≠ slot.superblock := by
  cases slot <;> decide

@[simp] theorem Slot.other_other : slot.other.other = slot := by cases slot <;> rfl

@[simp] theorem Slot.other_ne : slot.other ≠ slot := by cases slot <;> decide

theorem Slot.eq_or_eq_other (slot') : slot = slot' ∨ slot = slot'.other := by
  cases slot <;> cases slot' <;> decide

/-! ## The machine -/

/-- Commands and their fates. -/
abbrev Log := List (Disk.Cmd Path Bytes × Fate Bytes)

def isSuperblock (p : Path) : Bool := storageSlots.any (fun slot => decide (p = slot.superblock))

theorem isSuperblock_segment : isSuperblock slot.segment = false := by
  cases slot <;> decide

theorem isSuperblock_superblock : isSuperblock slot.superblock = true := by
  cases slot <;> decide

/-- A superblock gets its name. -/
def publishes : Disk.Cmd Path Bytes × Fate Bytes → Bool
  | (.rename _ p, .ok) => isSuperblock p
  | _ => false

def published (log : Log) : Bool := log.any publishes

/-- The directory is `d` but for temporary files, and a superblock was published or not. -/
def At (d : Store) (pub : Bool) (s : Store × Log) : Prop :=
  AgreeOff isTemp d s.1 ∧ published s.2 = pub

section Rules
variable {order : List Path → List Path} {d : Store} {pub : Bool} {s : Store × Log} {p : Path}

theorem published_append (log e) : published (log ++ [e]) = (published log || publishes e) := by
  simp [published]

section
variable (h : At d pub s)
include h

theorem At.log (hd : AgreeOff isTemp d d') (he : publishes e = false) :
    At d pub (d', s.2 ++ [e]) := by
  refine ⟨hd, ?_⟩
  rw [published_append, h.2, he, Bool.or_false]

/-- The postconditions of a command that only looks. -/
theorem holdsE_readFile (hp : ¬isTemp p) :
    HoldsE (logged (Disk.exec order)) (fun _ => True) (At d pub) (readFile p)
      (fun r s => r = d.get? p ∧ At d pub s) (fun _ s => At d pub s) s := by
  have hs : ∀ fate, At d pub (s.1, s.2 ++ [(.read p, fate)]) := fun fate => h.log h.1 (by rfl)
  rintro (_ | torn | torn) -
  · exact ⟨hs _, fun r hr => some.inj hr ▸ ⟨h.1 p hp, hs _⟩⟩
  · exact ⟨hs _, fun r hr => some.inj hr ▸ hs _⟩
  · exact ⟨hs _, nofun⟩

theorem holdsE_pathExists (hp : ¬isTemp p) :
    HoldsE (logged (Disk.exec order)) (fun _ => True) (At d pub) (pathExists p)
      (fun r s => r = (d.get? p).isSome ∧ At d pub s) (fun _ s => At d pub s) s := by
  have hs : ∀ fate, At d pub (s.1, s.2 ++ [(.exist p, fate)]) := fun fate => h.log h.1 (by rfl)
  have hr : (s.1.get? p).isSome = (d.get? p).isSome := by rw [h.1 p hp]
  rintro (_ | torn | torn) -
  · exact ⟨hs _, fun r hr' => some.inj hr' ▸ ⟨hr, hs _⟩⟩
  · exact ⟨hs _, fun r hr' => some.inj hr' ▸ ⟨hr, hs _⟩⟩
  · exact ⟨hs _, nofun⟩

theorem holdsE_sync {P : Store → Prop} (hP : P s.1) :
    HoldsE (logged (Disk.exec order)) (fun _ => True) (At d pub) sync
      (fun _ s => P s.1 ∧ At d pub s) (fun _ s => At d pub s) s := by
  have hs : ∀ fate, At d pub (s.1, s.2 ++ [(.other, fate)]) := fun fate => h.log h.1 (by rfl)
  rintro (_ | torn | torn) -
  · exact ⟨hs _, fun r hr => some.inj hr ▸ ⟨hP, hs _⟩⟩
  · exact ⟨hs _, fun r hr => some.inj hr ▸ hs _⟩
  · exact ⟨hs _, nofun⟩

/-- Filling a temporary file. -/
theorem holdsE_overwrite (hp : isTemp p) (bytes) :
    HoldsE (logged (Disk.exec order)) (fun _ => True) (At d pub) (overwrite p bytes)
      (fun _ s => s.1.get? p = some bytes ∧ At d pub s) (fun _ s => At d pub s) s := by
  have hs : ∀ b fate, At d pub (s.1.put p b, s.2 ++ [(.overwrite p bytes, fate)]) :=
    fun b fate => h.log (h.1.trans (agreeOff_put hp b)) (by rfl)
  have hs' : ∀ fate, At d pub (s.1, s.2 ++ [(.overwrite p bytes, fate)]) :=
    fun fate => h.log h.1 (by rfl)
  rintro (_ | torn | torn) -
  · exact ⟨hs _ _, fun r hr => some.inj hr ▸ ⟨by simp [logged, Disk.exec, refill], hs _ _⟩⟩
  · cases torn with
    | none => exact ⟨hs' _, fun r hr => some.inj hr ▸ hs' _⟩
    | some b => exact ⟨hs _ _, fun r hr => some.inj hr ▸ hs _ _⟩
  · cases torn with
    | none => exact ⟨hs' _, fun _ hr => by cases hr⟩
    | some b => exact ⟨hs _ _, fun _ hr => by cases hr⟩

/-- Giving a temporary file its name. -/
theorem holdsE_renameFile (ht : isTemp temp)
    (hb : s.1.get? temp = some bytes) : HoldsE (logged (Disk.exec order)) (fun _ => True)
      (fun s => At d pub s ∨ At (d.put p bytes) (pub || isSuperblock p) s) (renameFile temp p)
      (fun _ s => At (d.put p bytes) (pub || isSuperblock p) s) (fun _ s => At d pub s) s := by
  have hs : ∀ fate, fate ≠ .ok → At d pub (s.1, s.2 ++ [(.rename temp p, fate)]) := fun fate hf =>
    h.log h.1 (by cases fate <;> first | exact absurd rfl hf | rfl)
  have hd : AgreeOff isTemp (d.put p bytes) ((s.1.del temp).put p bytes) := by
    intro k hk
    have hne : k ≠ temp := fun hkt => hk (hkt ▸ ht)
    rw [get?_put, get?_put, get?_del, if_neg hne, h.1 k hk]
  have hok : At (d.put p bytes) (pub || isSuperblock p)
      ((s.1.del temp).put p bytes, s.2 ++ [(.rename temp p, .ok)]) := by
    refine ⟨hd, ?_⟩
    rw [published_append, h.2]
    rfl
  have hex : logged (Disk.exec order) (.rename temp p) .ok s =
      (some (.ok ()), ((s.1.del temp).put p bytes, s.2 ++ [(.rename temp p, .ok)])) := by
    simp only [logged, Disk.exec, hb, map_some]
    rfl
  rintro (_ | torn | torn) -
  · rw [hex]
    exact ⟨.inr hok, fun r hr => some.inj hr ▸ hok⟩
  · have hfail := hs (.fail torn) (fun he => by cases he)
    exact ⟨.inl hfail, fun r hr => some.inj hr ▸ hfail⟩
  · exact ⟨.inl (hs (.crash torn) (fun he => by cases he)), fun _ hr => by cases hr⟩

/-- A durable write is made as a whole or not at all. -/
theorem holdsE_atomicWriteDurable (hpath : path.dir = [])
    (bytes) : HoldsE (logged (Disk.exec order)) (fun _ => True)
      (fun s => At d pub s ∨ At (d.put path bytes) (pub || isSuperblock path) s)
      (atomicWriteDurable path bytes)
      (fun _ s => At (d.put path bytes) (pub || isSuperblock path) s)
      (fun _ s => At d pub s ∨ At (d.put path bytes) (pub || isSuperblock path) s) s := by
  have htemp := isTemp_tempPath hpath
  refine ((holdsE_overwrite h htemp []).mono (fun _ => .inl) (fun _ _ hq => hq.2)
    (fun _ _ => .inl)).bind (fun _ s h => ?_)
  refine ((holdsE_overwrite h htemp bytes).mono (fun _ => .inl) (fun _ _ hq => hq)
    (fun _ _ => .inl)).bind (fun _ s hq => ?_)
  obtain ⟨hb, h⟩ := hq
  refine ((holdsE_sync (P := fun d => d.get? (tempPath path) = some bytes) h hb).mono
    (fun _ => .inl) (fun _ _ hq => hq) (fun _ _ => .inl)).bind (fun _ s hq => ?_)
  obtain ⟨hb, h⟩ := hq
  refine ((holdsE_renameFile h htemp hb).post (fun _ _ hq => hq) (fun _ _ => .inl)).bind
    (fun _ s h => ?_)
  exact (holdsE_sync (P := fun _ => True) h trivial).mono (fun _ => .inr) (fun _ _ hq => hq.2)
    (fun _ _ => .inr)

end

end Rules

/-! ## What a write leaves -/

section Write
variable [Format] {order : List Path → List Path} {d d' : Store}

/-- The generation of the next superblock. -/
def nextGeneration (d : Store) : Nat := maxGeneration (slotGeneration d .a) (slotGeneration d .b) + 1

/-- The directory with the new segment. -/
def withSegment (d : Store) (payload : Bytes) : Store := d.put (writeSlot d).segment payload

/-- The directory with the new superblock as well. -/
def withSuperblock (d : Store) (payload body : Bytes) : Store :=
  (withSegment d payload).put (writeSlot d).superblock (encodeSuperblock body)

/-- What a write may leave. -/
def Outcome (d : Store) (payload pendingOps : Bytes) (flag : Bool) (s : Store × Log) : Prop :=
  At d false s ∨ d.get? legacySegmentFile = none ∧ (At (withSegment d payload) false s ∨
        ∃ body, Format.toBytes (superblockFor payload pendingOps flag (nextGeneration d)) = some body ∧
          At (withSuperblock d payload body) true s)

theorem holdsE_readSlotGeneration (hd : Legible d) (h : At d pub s) (slot) :
    HoldsE (logged (Disk.exec order)) (fun _ => True) (At d pub) (readSlotGeneration slot)
      (fun r s => r = slotGeneration d slot ∧ At d pub s) (fun _ s => At d pub s) s := by
  rw [readSlotGeneration_eq]
  refine (holdsE_readFile h (not_isTemp_superblock slot)).bind (fun r s hq => ?_)
  obtain ⟨rfl, h⟩ := hq
  rw [hd.map_generation]
  exact holdsE_pure ⟨rfl, h⟩

/-- **The three outcomes of a write**, whatever happens to it. -/
theorem holdsE_writeSnapshot (hd : Legible d) (payload pendingOps flag) :
    HoldsE (logged (Disk.exec order)) (fun _ => True) (Outcome d payload pendingOps flag)
      (writeSnapshot payload pendingOps flag) (fun _ s => Outcome d payload pendingOps flag s)
      (fun _ s => Outcome d payload pendingOps flag s) (d, []) := by
  have h : At d false (d, []) := ⟨AgreeOff.refl _ _, rfl⟩
  have same : ∀ s, At d false s → Outcome d payload pendingOps flag s := fun _ => .inl
  refine ((holdsE_pathExists h not_isTemp_legacy).mono same (fun _ _ hq => hq)
    (fun _ => same)).bind (fun r s hq => ?_)
  obtain ⟨rfl, h⟩ := hq
  cases hleg : d.get? legacySegmentFile with
  | some bytes => exact holdsE_throw (same _ h)
  | none =>
    refine ((holdsE_readSlotGeneration hd h .a).mono same (fun _ _ hq => hq)
      (fun _ => same)).bind (fun r s hq => ?_)
    obtain ⟨rfl, h⟩ := hq
    refine ((holdsE_readSlotGeneration hd h .b).mono same (fun _ _ hq => hq)
      (fun _ => same)).bind (fun r s hq => ?_)
    obtain ⟨rfl, h⟩ := hq
    have half : ∀ s, At (withSegment d payload) false s → Outcome d payload pendingOps flag s :=
      fun _ hs => .inr ⟨hleg, .inl hs⟩
    have hseg := @holdsE_atomicWriteDurable order _ _ _ h _ (dir_segment (writeSlot d)) payload
    rw [isSuperblock_segment, Bool.or_false] at hseg
    refine (hseg.mono (fun _ hs => hs.elim (same _) (half _)) (fun _ _ hq => hq)
      (fun _ _ hs => hs.elim (same _) (half _))).bind (fun _ s h => ?_)
    refine holdsE_ite (fun _ => holdsE_throw (half _ h)) (fun _ => ?_)
    cases hbody : Format.toBytes (superblockFor payload pendingOps flag (nextGeneration d)) with
    | none =>
      unfold nextGeneration at hbody
      simp only [hbody]
      exact holdsE_throw (half _ h)
    | some body =>
      have done : ∀ s, At (withSuperblock d payload body) true s →
          Outcome d payload pendingOps flag s := fun _ hs => .inr ⟨hleg, .inr ⟨body, hbody, hs⟩⟩
      have hsb := @holdsE_atomicWriteDurable order _ _ _ h _ (dir_superblock (writeSlot d))
        (encodeSuperblock body)
      rw [isSuperblock_superblock, Bool.or_true] at hsb
      unfold nextGeneration at hbody
      simp only [hbody]
      exact hsb.mono (fun _ hs => hs.elim (half _) (done _)) (fun _ _ hq => done _ hq)
        (fun _ _ hs => hs.elim (half _) (done _))

/-- The outcomes, without the record. -/
def Leaves (d : Store) (payload pendingOps : Bytes) (flag : Bool) (d' : Store) : Prop :=
  AgreeOff isTemp d d' ∨ d.get? legacySegmentFile = none ∧
      (AgreeOff isTemp (withSegment d payload) d' ∨
        ∃ body, Format.toBytes (superblockFor payload pendingOps flag (nextGeneration d)) = some body ∧
          AgreeOff isTemp (withSuperblock d payload body) d')

theorem Outcome.leaves
    (h : Outcome d payload pendingOps flag s) : Leaves d payload pendingOps flag s.1 := by
  rcases h with h | ⟨hleg, h | ⟨body, hbody, h⟩⟩
  · exact .inl h.1
  · exact .inr ⟨hleg, .inl h.1⟩
  · exact .inr ⟨hleg, .inr ⟨body, hbody, h.1⟩⟩

theorem leaves_writeSnapshot (hd : Legible d) (payload pendingOps flag) :
    HoldsE (Disk.exec order) (fun _ => True) (Leaves d payload pendingOps flag)
      (writeSnapshot payload pendingOps flag) (fun _ s => Leaves d payload pendingOps flag s)
      (fun _ s => Leaves d payload pendingOps flag s) d :=
  HoldsE.of_logged ((holdsE_writeSnapshot hd payload pendingOps flag).mono
    (fun _ => Outcome.leaves) (fun _ _ => Outcome.leaves) (fun _ _ => Outcome.leaves))

end Write
end MdCrdt.Storage
