/-
**The repairs of the interval trees.**

`rb_insert` and `rb_delete_fixup` find their way up by the parent pointers.  They do to a heap that
represents a tree what `RedBlack.insertFix` and `RedBlack.deleteFix` do to the tree, and leave no
parent pointer wrong.  A loop has as many rounds as there are nodes over the place, at most, and two
more.

Main results:

* `rbInsert_spec`: `rb_insert` is `RedBlack.insertFix`;
* `rbDeleteFixup_spec`: `rb_delete_fixup` is `RedBlack.deleteFix`.
-/

import MariaDb.SelArgTree
import MariaDb.TreeRepair

set_option autoImplicit false

namespace SelArg

open RedBlack RedBlack.Tree RedBlack.Repairable Option

variable {heap : UpHeap} {t u x : RedBlack.Tree ℕ} {fs : List (Frame ℕ)} {s : Side} {c : Color}
  {leaf : ℕ}

@[simp] theorem rotateTo_eq (s : Side) (heap : UpHeap) (leaf : ℕ) :
    rotateTo s heap leaf = heap.rotate s leaf := by
  cases s <;> rfl

theorem blacken_eq (heap : UpHeap) (x : Option ℕ) : blacken heap x = upLinked.blacken heap x := by
  cases x <;> rfl

/-! ### Insertion -/

theorem insertRotations_eq (heap : UpHeap) (parent1 parent2 : Link) (leaf par par2 : ℕ) (s : Side) :
    insertRotations heap leaf par par2 s =
      upLinked.insertRotations heap parent1 parent2 leaf par par2 s := by
  simp only [insertRotations, rotateTo_eq]
  rfl

theorem parent_place {f : Frame ℕ} (hr : RepresentsUp heap (zip t (f :: fs)))
    (hroot : t.root = some leaf) : heap.parent leaf = some f.elem := by
  rcases eq_nil_or_join .left t with rfl | ⟨b, hb⟩
  · simp [Tree.root] at hroot
  rw [hb] at hr hroot
  rw [root_join, Option.some.injEq] at hroot
  subst hroot
  exact hr.parent_eq

/-- A round of the loop of `rb_insert`. -/
theorem insertLoop : upLinked.InsertLoop fun fuel heap _ leaf => rbInsertLoop fuel heap leaf where
  top {heap t leaf} fuel hr hroot := by
    rw [rbInsertLoop, if_pos (hr.root.trans hroot)]
  black {heap t par fs leaf} fuel hr hroot hpar := by
    have hne : heap.link .root ≠ some leaf := hroot ▸ hr.toRepresents.root_ne
    have hr1 : RepresentsUp heap (zip (join par.side par.color t par.elem par.sibling) fs) := hr
    rw [rbInsertLoop, if_neg hne, parent_place hr hroot, bind_some,
      if_pos (hr1.toRepresents.join_eq.2.2.trans hpar)]
  red {heap t par par2 up leaf} fuel hr hroot hpar := by
    have hne : heap.link .root ≠ some leaf := hroot ▸ hr.toRepresents.root_ne
    have hr1 : RepresentsUp heap (zip (join par.side par.color t par.elem par.sibling)
      (par2 :: up)) := hr
    obtain ⟨hcolor, hside, hsibling, hy⟩ := grandparent_eq hr.toRepresents
    change sideOf heap (some par.elem) par2.elem = par2.side at hside
    rw [rbInsertLoop, if_neg hne, parent_place hr hroot, bind_some,
      if_neg (by rw [hcolor, hpar]; decide), parent_place hr1 (root_join _ _ _ _ _), bind_some]
    simp only [hside, hsibling, insertRotations_eq heap (linkOf (par2 :: up)) (linkOf up)]
    cases hcase : par2.sibling.root with
    | none => rfl
    | some y =>
      rw [hcase] at hy
      simp only [show heap.color y = par2.sibling.color from hy]
      rfl

/-- The tree under a node `this`, whatever the variable `root` and the parent of `this` are. -/
structure Rooted (heap : UpHeap) (this : ℕ) (t : RedBlack.Tree ℕ) : Prop where
  represents : Represents (heap.toHeap.write .root (some this)) t
  parents : ∃ p, Parents heap.parent t p

/-- `root= this; root->parent= 0`. -/
theorem Rooted.start {this : ℕ} (h : Rooted heap this t) :
    RepresentsUp ((heap.write .root (some this)).setParent (some this) none) t := by
  have hroot : t.root = some this := by
    rw [← h.represents.root, Heap.link_write, Function.update_self]
  obtain ⟨p, hp⟩ := h.parents
  refine ⟨by simpa using h.represents, hp.move h.represents.nodup (fun x hx => ?_) fun x _ hx => ?_⟩
  · rw [UpHeap.parent_setParent, if_pos (hroot.symm.trans hx)]
  · rw [UpHeap.parent_setParent, if_neg fun h => hx (hroot.trans h)]
    rfl

/-- The tree that a function leaves is that under its root. -/
theorem rooted_of_represents {root : ℕ} (hr : RepresentsUp heap t) (hroot : t.root = some root) :
    Rooted heap root t := by
  refine ⟨?_, none, hr.parents⟩
  have hsame : heap.toHeap.write .root (some root) = heap.toHeap := by
    unfold Heap.write
    rw [← hroot, ← hr.root, Function.update_eq_self]
  rw [hsame]
  exact hr.toRepresents

/-- **`rb_insert`** repairs the tree after a red leaf was put in. -/
theorem rbInsert_spec {n fuel this : ℕ} (hr : Rooted heap this (zip (join s c t leaf u) fs))
    (ht : Balanced (join s .red t leaf u) .red n) (hfs : Accepts .black n fs)
    (hfuel : fs.length < fuel) :
    ∃ heap', rbInsert fuel heap this leaf = some heap' ∧
      RepresentsUp heap' ((insertFix (join s .red t leaf u) fs).paint .black) := by
  obtain ⟨heap1, hloop, hr1⟩ :=
    insertLoop.spec (hr.start.paint .red) (root_join _ _ _ _ _) ht hfs hfuel
  refine ⟨_, ?_, upLinked.blacken_top hr1⟩
  rw [rbInsert, hloop, map_some, blacken_eq]
  rfl

/-! ### Deletion -/

theorem redNephew_eq (heap : UpHeap) (parent1 : Link) (par w : ℕ) (s : Side) :
    redNephew heap par w s = upLinked.redNephew heap parent1 par w s := by
  simp only [redNephew, rotateTo_eq, blacken_eq]
  rfl

theorem redSibling_eq (heap : UpHeap) (parent1 : Link) (par w : ℕ) (s : Side) :
    redSibling heap par w s = if heap.color w = .red then upLinked.turnSibling heap parent1 par w s
      else some (heap, w) := by
  simp only [redSibling, rotateTo_eq]
  rfl

/-- One round of the loop of `rb_delete_fixup`, at a black node under `p`. -/
theorem rbDeleteFixupLoop_step {fuel p w : ℕ} {up : List (Frame ℕ)} {sib : RedBlack.Tree ℕ}
    (hr : RepresentsUp heap (zip x (⟨s, c, p, sib⟩ :: up))) (hx : x.color = .black)
    (hw : sib.root = some w) :
    rbDeleteFixupLoop (fuel + 1) heap x.root (some p) =
      (redSibling heap p w s).bind fun (heap, w) =>
        if heap.colorOf (heap.link (.child s w)) = .black ∧
            heap.colorOf (heap.link (.child s.other w)) = .black then
          rbDeleteFixupLoop fuel (heap.setColor w .red) (some p) (heap.parent p)
        else (redNephew heap p w s).map fun heap => (heap, heap.link .root) := by
  have hne : sib ≠ .nil := by
    rintro rfl
    simp [Tree.root] at hw
  have hr1 : Represents heap.toHeap (zip (join s c x p sib) up) := hr.toRepresents
  have hside : sideOf heap x.root p = s := side_of_left hr.toRepresents (.inr hne)
  rw [rbDeleteFixupLoop, if_pos ⟨hr.toRepresents.root_ne, hr.toRepresents.colorOf.trans hx⟩]
  simp [hside, hr1.join_eq.2.1, hw]

/-- A round of the loop of `rb_delete_fixup`. -/
theorem deleteLoop : upLinked.DeleteLoop
    (fun fuel heap fs x => rbDeleteFixupLoop fuel heap x (above none fs)) fun _ => False where
  stop {heap x fs} fuel hr hstop := by
    refine if_neg fun h => ?_
    rcases hstop with rfl | hred
    · exact h.1 hr.root
    · rw [hr.toRepresents.colorOf, hred] at h
      exact absurd h.2 (by decide)
  black {heap x s c p u w v up} fuel hr hx := by
    have hr1 : RepresentsUp heap (zip (join s c x p (join s .black u w v)) up) := hr
    have hcw : heap.color w ≠ .red := by
      rw [color_sibling hr.toRepresents]
      decide
    rw [above, rbDeleteFixupLoop_step hr hx (root_join _ _ _ _ _), redSibling_eq heap (linkOf up),
      if_neg hcw, bind_some]
    simp only [hr1.parent_eq, redNephew_eq heap (linkOf up)]
    rfl
  red {heap x s p u w v up} fuel hr hx hu := by
    obtain ⟨heap', b, hturn, hb, hr'⟩ := upLinked.turnSibling_spec hr hu
    have hr1 : RepresentsUp heap' (zip (join s .red x p u) (⟨s, .black, w, v⟩ :: up)) := hr'
    refine .inr ⟨heap', b, hb, hr', ?_⟩
    rw [above, rbDeleteFixupLoop_step hr hx (root_join _ _ _ _ _), redSibling_eq heap (linkOf up),
      if_pos (color_sibling hr.toRepresents), hturn, bind_some]
    simp only [hr1.parent_eq, redNephew_eq heap' (linkOf (⟨s, .black, w, v⟩ :: up))]
    rfl
  mono _ h := h

/-- **`rb_delete_fixup`** repairs the tree under a place that lacks a black node. -/
theorem rbDeleteFixup_spec {n fuel : ℕ} (hr : RepresentsUp heap (zip x fs)) (hx : Balanced x c n)
    (hfs : Accepts .black (n + 1) fs) (hne : zip x fs ≠ .nil) (hfuel : fs.length + 2 ≤ fuel) :
    ∃ heap', rbDeleteFixup fuel heap x.root (above none fs) = some heap' ∧
      RepresentsUp heap' (deleteFix x fs) := by
  obtain ⟨root, hroot⟩ := exists_root hne
  have hlink : heap.link .root = some root := hr.root.trans hroot
  -- the root has no parent already
  have hparent : heap.setParent (some root) none = heap := by
    have hr' : RepresentsUp heap (zip (zip x fs) []) := hr
    have hnone : heap.parent root = none := by
      have hp := hr'.parents
      rcases eq_nil_or_join .left (zip x fs) with h | ⟨b, hb⟩
      · exact absurd h hne
      rw [zip, hb, parents_join] at hp
      rw [hb, root_join, Option.some.injEq] at hroot
      rw [← hroot]
      exact hp.1
    unfold UpHeap.setParent
    dsimp only
    rw [← hnone, Function.update_eq_self]
  obtain ⟨heap', x', hloop, hres⟩ := (deleteLoop.spec hr hx hfs hfuel).resolve_left fun h => h.2
  refine ⟨_, ?_, hres⟩
  rw [rbDeleteFixup, hlink, bind_some, hparent, hloop, map_some]
  exact congrArg some (blacken_eq _ _)

end SelArg
