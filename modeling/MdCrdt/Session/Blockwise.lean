import MdCrdt.Session.SourceMarks

/- Edits that go through one block at a time.

  A property of documents made of properties of the blocks, their kinds and the items of
  lists (`Blockwise`) is kept by register writes, edits of list items and moves as soon as
  the small steps of these edits keep it, and the elements that they mark may be changed.
  The edits are taken apart here once for every such property. -/
namespace MdCrdt
open Lib List Option Document

structure Blockwise where
  doc : Document → Prop
  /-- A block under an element id, apart from what is asked of it as a whole. -/
  block : OpId → Block → Prop
  /-- A block that may be put under an element id. -/
  placed : OpId → Block → Prop
  kind : BlockKind → Prop
  items : Sequence ListItem → Prop
  /-- A list item under an element id. -/
  item : OpId → ListItem → Prop
  waits : PendingListItemMove → Prop
  /-- Operations that may write a register. -/
  writes : OpId → Prop
  /-- Elements that may be changed. -/
  free : OpId → Prop
  withBlockMut {A : Type} {d elem d' a} {f : Block → Block × A} : doc d →
    ((d.findBlock elem).isSome → free elem) →
    (∀ id b, block id b → block id (f b).1 ∧ (f b).1.id = b.id) →
    d.withBlockMut elem f = some (d', a) → doc d' ∧ ∃ id b, block id b ∧ a = (f b).2
  insertBlockAt {d parent id b} (after ro) : doc d → (∀ x ∈ parent.toList, free x) →
    placed id b → b.elemId = id → doc (d.insertBlockAt parent after id b ro).1
  deleteBlockAt {d parent} (target id) : doc d → (∀ x ∈ parent.toList, free x) →
    doc (d.deleteBlockAt parent target id).1
  buryBlockAt {d parent id b} (after ro moveId) : doc d → (∀ x ∈ parent.toList, free x) →
    block id b → b.elemId = id →
    doc ((d.insertBlockAt parent after id b ro).1.deleteBlockAt parent id moveId).1
  kindOf {id b} : block id b → kind b.kind
  withKind {id b k} : block id b → kind k → block id { b with kind := k }
  written {id b w} (observed) : block id b → writes w →
    block id { b with kindOp := w, kindObserved := observed }
  list {style s pm} : kind (.list style s pm) ↔ items s ∧ ∀ m ∈ pm, waits m
  text {k body} (kind') : blockTextSeq k = some body → kind k → kind (textKind kind' body)
  codeFence {style info text} : kind (.codeFence style info text)
  rawBlock {raw} : kind (.rawBlock raw)
  insert {s id v} (after ro) : items s → item id v → items (s.apply (.insert after id v ro))
  delete {s} (target id) : items s → items (s.apply (.delete target id))
  task {s w} (place task observed) : items s → writes w → items (s.withValue place (fun v =>
    { v with task := task, taskOp := w, taskObserved := observed }))
  lost {m} : waits m → item m.id (lostItem m)
  found {d v m} : doc d → d.findListItemById m.itemId = some v → waits m →
    item m.id { v with placementObserved := m.observed }

theorem free_of_blockMarks {free : OpId → Prop} {d : Document} {elem}
    (h : ∀ x ∈ d.blockMarks elem, free x) : (d.findBlock elem).isSome → free elem :=
  fun hfound => h elem (by rw [blockMarks, if_pos hfound]; exact mem_singleton_self elem)

/-- Nothing happens where all placements are there. -/
theorem foldl_skip {A : Type} {l : List A} {d : Document} {c : Document → A → Bool}
    {f : Document → A → Document} (h : ∀ a ∈ l, c d a = true) :
    l.foldl (fun d a => if c d a then d else f d a) d = d := by
  induction l with
  | nil => rfl
  | cons a l ih =>
    rw [foldl_cons, if_pos (h a mem_cons_self)]
    exact ih (fun b hb => h b (mem_cons_of_mem _ hb))

namespace Blockwise
variable (X : Blockwise) {d : Document} (h : X.doc d)
variable {m : PendingListItemMove} {id elem : OpId} {itemId : BlockId}
include h

section
variable (he : ∀ x ∈ d.blockMarks elem, X.free x)
include he

theorem tryBlock {f : Block → Option Block}
    (hf : ∀ id b b', X.block id b → f b = some b' → X.block id b' ∧ b'.id = b.id) :
    X.doc (d.tryBlock elem f).1 := by
  unfold Document.tryBlock
  cases hd : d.withBlockMut elem (fun block => ((f block).getD block, (f block).isSome)) with
  | none => exact h
  | some r =>
    refine (X.withBlockMut h (free_of_blockMarks he) (fun id b hb => ?_) hd).1
    cases hfb : f b with
    | none => exact ⟨hb, rfl⟩
    | some b' => exact hf id b b' hb hfb

/-! ## Registers -/

/-- A register write: the new writer and the new kind are in order. -/
theorem writeKind (hid : X.writes id) (observed)
    (hf : ∀ k k', X.kind k → f k = some k' → X.kind k') :
    X.doc (d.writeKind elem id observed f).1 := by
  refine X.tryBlock h he (fun e b b' hb hfb => ?_)
  split at hfb
  · obtain ⟨k, hk, rfl⟩ := map_eq_some_iff.mp hfb
    exact ⟨X.written observed (X.withKind hb (hf _ _ (X.kindOf hb) hk)) hid, rfl⟩
  · cases hfb

theorem setListStyle (style) (hid : X.writes id) (observed) :
    X.doc (d.setListStyle elem style id observed).1 := by
  refine X.writeKind h he hid observed (fun k k' hk hf => ?_)
  split at hf
  · obtain rfl := some.inj hf; exact X.list.mpr (X.list.mp hk)
  · cases hf

theorem setCodeFence (style info text) (hid : X.writes id) (observed) :
    X.doc (d.setCodeFence elem style info text id observed).1 := by
  refine X.writeKind h he hid observed (fun k k' hk hf => ?_)
  split at hf
  · obtain rfl := some.inj hf; exact X.codeFence
  · cases hf

theorem convertTextBlock (kind) (hid : X.writes id) (observed) :
    X.doc (d.convertTextBlock elem kind id observed).1 := by
  refine X.writeKind h he hid observed (fun k k' hk hf => ?_)
  obtain ⟨body, hb, rfl⟩ := map_eq_some_iff.mp hf; exact X.text kind hb hk

theorem replaceRawBlock (raw) (hid : X.writes id) (observed) :
    X.doc (d.replaceRawBlock elem raw id observed).1 := by
  refine X.writeKind h he hid observed (fun k k' hk hf => ?_)
  split at hf
  · obtain rfl := some.inj hf; exact X.rawBlock
  · cases hf

/-! ## Lists -/

theorem tryItems (hf : ∀ s s', X.items s → f s = some s' → X.items s') :
    X.doc (d.tryItems elem f).1 := by
  refine X.tryBlock h he (fun e b b' hb hfb => ?_)
  split at hfb
  · next style items pm hk =>
    obtain ⟨items', hi, rfl⟩ := map_eq_some_iff.mp hfb
    obtain ⟨hitems, hpm⟩ := X.list.mp (hk ▸ X.kindOf hb)
    exact ⟨X.withKind hb (X.list.mpr ⟨hf _ _ hitems hi, hpm⟩), rfl⟩
  · cases hfb

theorem tryDelete (c : Sequence ListItem → Bool) (target id) : X.doc (d.tryItems elem
    (fun items => if c items then none else some (items.apply (.delete target id)))).1 := by
  refine X.tryItems h he (fun items items' hitems hf => ?_)
  split at hf
  · cases hf
  · obtain rfl := some.inj hf; exact X.delete _ _ hitems

theorem tryInsert (after ro) (hi : X.item id v) :
    X.doc (d.tryItems elem (fun items => some (items.apply (.insert after id v ro)))).1 := by
  refine X.tryItems h he (fun items items' hitems hf => ?_)
  obtain rfl := some.inj hf; exact X.insert _ _ hitems hi

theorem tryBury (hi : X.item m.id v) :
    X.doc (d.tryItems elem (fun items => some (buryItem items m v))).1 := by
  refine X.tryItems h he (fun items items' hitems hf => ?_)
  obtain rfl := some.inj hf; exact X.delete _ _ (X.insert _ _ hitems hi)

end

theorem setListItemTask (he : ∀ x ∈ d.setListItemTaskMarks itemId, X.free x) (task)
    (hid : X.writes id) (observed) : X.doc (d.setListItemTask itemId task id observed).1 := by
  unfold Document.setListItemTask; unfold setListItemTaskMarks at he
  split
  · exact h
  · next listElem place hplace =>
    rw [hplace] at he
    refine X.tryItems h he (fun items items' hitems hf => ?_)
    obtain ⟨item, -, hf⟩ := bind_eq_some_iff.mp hf
    split at hf
    · obtain rfl := some.inj hf; exact X.task place task observed hitems hid
    · cases hf

theorem deleteListItemAt (he : ∀ x ∈ d.deleteListItemMarks listElem itemId, X.free x) (target id) :
    X.doc (d.deleteListItemAt listElem itemId target id).1 := by
  have hplace : (((d.listItemPlacement itemId).map Prod.snd).getD (listElem, target)).1 =
      ((d.listItemPlacement itemId).map (fun p => p.2.1)).getD listElem := by
    cases d.listItemPlacement itemId <;> rfl
  unfold Document.deleteListItemAt
  unfold deleteListItemMarks at he
  rw [← hplace] at he
  exact X.tryDelete h he _ _ _

theorem moveMissingItem (he : ∀ x ∈ d.moveMissingItemMarks m, X.free x) (hm : X.waits m) :
    X.doc (d.moveMissingItem m).1 := by
  unfold Document.moveMissingItem; unfold moveMissingItemMarks at he
  simp only at he ⊢
  split
  · next hlost =>
    rw [if_pos hlost] at he
    refine X.tryBlock h he (fun e b b' hb hfb => ?_)
    split at hfb
    · next style items pm hk =>
      obtain rfl := some.inj hfb
      obtain ⟨hitems, hpm⟩ := X.list.mp (hk ▸ X.kindOf hb)
      refine ⟨X.withKind hb (X.list.mpr ⟨hitems, ?_⟩), rfl⟩
      split
      · exact hpm
      · exact forall_mem_push hpm hm
    · cases hfb
  · next hlost =>
    rw [if_neg hlost] at he; exact X.tryBury h he (X.lost hm)

theorem moveListItemAt (he : ∀ x ∈ d.moveListItemMarks m, X.free x) (hm : X.waits m) :
    X.doc (d.moveListItemAt m).1 := by
  unfold Document.moveListItemAt; unfold moveListItemMarks at he
  split
  · next hitem =>
    rw [hitem] at he; exact X.moveMissingItem h he hm
  · next item hitem =>
    rw [hitem] at he
    -- the clone that goes to the new place
    have hclone := X.found h hitem hm
    simp only at he ⊢
    split
    · next hloses =>
      rw [if_pos hloses] at he
      split
      · next hnew =>
        rw [if_pos hnew] at he; exact X.tryBury h he hclone
      · exact h
    · next hloses =>
      rw [if_neg hloses] at he
      have hdel : X.doc (d.detachItem m).1 :=
        X.tryDelete h (fun x hx => he x (mem_append_left _ hx)) _ _ _
      split
      · exact hdel
      · next hdeleted =>
        simp only [Bool.not_eq_true', Bool.not_eq_false] at hdeleted
        refine X.tryInsert hdel (fun x hx => he x (mem_append_right _ ?_)) _ _ hclone
        rw [if_pos hdeleted]; exact hx

theorem moveListItems (he : ∀ x ∈ overMoves moveListItemMarks d moves, X.free x)
    (hm : ∀ m ∈ moves, X.waits m) :
    X.doc (moves.foldl (fun d m => (d.moveListItemAt m).1) d) := by
  induction moves generalizing d with
  | nil => exact h
  | cons m moves ih =>
    rw [overMoves] at he
    obtain ⟨hm, hms⟩ := forall_mem_cons.mp hm
    exact ih (X.moveListItemAt h (fun x hx => he x (mem_append_left _ hx)) hm)
      (fun x hx => he x (mem_append_right _ hx)) hms

omit h in
theorem takePending (hb : X.block id b) (itemId) : (X.block id (takePending itemId b).1 ∧
    (takePending itemId b).1.id = b.id) ∧ ∀ m ∈ (takePending itemId b).2, X.waits m := by
  unfold Document.takePending
  split
  · next style items pm hk =>
    obtain ⟨hitems, hpm⟩ := X.list.mp (hk ▸ X.kindOf hb)
    have hfilter := fun p m hm => hpm m (mem_of_mem_filter (p := p) hm)
    exact ⟨⟨X.withKind hb (X.list.mpr ⟨hitems, hfilter _⟩), rfl⟩, hfilter _⟩
  · exact ⟨⟨hb, rfl⟩, by simp⟩

theorem resolvePendingListItemMoves (he : ∀ x ∈ overPending moveListItemMarks d itemId, X.free x) :
    X.doc (d.resolvePendingListItemMoves itemId) := by
  unfold Document.resolvePendingListItemMoves; unfold overPending at he
  split
  · exact h
  · next listElem hlist =>
    simp only [hlist] at he
    split
    · exact h
    · next d' matching hd =>
      simp only [hd] at he
      obtain ⟨hd', e, b, hb, rfl⟩ := X.withBlockMut h (fun _ => he listElem mem_cons_self)
        (fun _ _ hb => (X.takePending hb itemId).1) hd
      refine X.moveListItems hd' (fun x hx => he x (mem_cons_of_mem _ hx)) (fun m hm => ?_)
      exact (X.takePending hb itemId).2 m ((perm_insertionSort _ _).mem_iff.mp hm)

theorem insertListItemAt {listElem after ro task}
    (he : ∀ x ∈ d.insertListItemMarks listElem after id ro task, X.free x) (hi : X.item id
      ⟨blockIdFromOp id, id, task, id, .new, .new, .new⟩) :
    X.doc (d.insertListItemAt listElem after id ro task).1 := by
  have hins : (∀ x ∈ d.blockMarks listElem, X.free x) →
      X.doc (d.tryInsertItem listElem after id ro task).1 := fun he => X.tryInsert h he after ro hi
  unfold Document.insertListItemAt; unfold insertListItemMarks at he
  split
  · next d' hd =>
    simp only [hd] at he hins
    exact X.resolvePendingListItemMoves (hins (fun x hx => he x (mem_append_left _ hx)))
      (fun x hx => he x (mem_append_right _ hx))
  · next d' hd =>
    simp only [hd] at he hins; exact hins he

/-! ## Moving blocks -/

/-- What is asked of the clones depends on whether they stay. -/
theorem moveBlocksAt (he : ∀ x ∈ d.moveBlocksMarks toParent moves, X.free x)
    (hc : ∀ prepared loses, (d.containerChildren toParent).isSome = true →
      d.prepareMoves toParent moves = some (prepared, loses) → ∀ p ∈ prepared.zip moves,
        if loses then X.block p.2.id { p.1.1 with elemId := p.2.id }
        else X.placed p.2.id { p.1.1 with elemId := p.2.id }) (moveId) :
    X.doc (d.moveBlocksAt toParent moves moveId).1 := by
  unfold Document.moveBlocksAt; unfold moveBlocksMarks at he
  split
  · exact h
  · next hgo =>
    rw [if_neg hgo] at he
    -- a move without its destination has been refused
    simp only [Bool.or_eq_true, not_or, Bool.not_eq_true, isNone_eq_false_iff] at hgo
    split
    · exact h
    · next prepared hp =>
      have hclone := hc prepared true hgo.2 hp
      simp only [hp] at he
      split at he
      · next hall =>
        have hskip := foldl_skip (d := d) (l := prepared.zip moves)
          (c := fun d p => (d.containerChildren toParent).any (fun children =>
            (children.getElement p.2.id).isSome))
          (f := fun d p => ((d.insertBlockAt toParent p.2.after p.2.id
            { p.1.1 with elemId := p.2.id } p.2.rightOrigin).1.deleteBlockAt toParent p.2.id
              moveId).1)
          (fun p hp => all_eq_true.mp hall p.2 (of_mem_zip hp).2)
        simp only
        rw [hskip]; exact h
      · refine foldlRecOn _ _ h (fun d' hd p hmem => ?_)
        split
        · exact hd
        · exact X.buryBlockAt _ _ _ hd he (hclone p hmem) rfl
    · next prepared hp =>
      have hclone := hc prepared false hgo.2 hp
      simp only [hp] at he
      have hdel := foldlRecOn prepared (fun d p =>
        (d.deleteBlockAt (p.2.getD none) p.1.elemId moveId).1) h (fun d' hd p hmem =>
          X.deleteBlockAt _ _ hd (fun x hx => he x (mem_append_left _
            (mem_filterMap.mpr ⟨p, hmem, mem_toList.mp hx⟩))))
      exact foldlRecOn _ _ hdel (fun d' hd p hmem => X.insertBlockAt _ _ hd
        (fun x hx => he x (mem_append_right _ hx)) (hclone p hmem) rfl)

end Blockwise
end MdCrdt
