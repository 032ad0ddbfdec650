/-
**The repairs of the trees of mysys.**

The links that `tree->parents` has on the way to a place are those of the nodes over it.  Along them
`rb_insert` and `rb_delete_fixup` do to the heap what `RedBlack.insertFix` and `RedBlack.deleteFix`
do to the tree in it.

Main definitions:

* `links`: the entries of `tree->parents` for a place.

Main results:

* `rbInsert_spec`: `rb_insert` is `RedBlack.insertFix`;
* `rbDeleteFixup_spec`: `rb_delete_fixup` is `RedBlack.deleteFix`.
-/

import MariaDb.MyTree
import MariaDb.TreeRepair

set_option autoImplicit false

namespace MyTree

open RedBlack RedBlack.Tree RedBlack.Repairable List Option

variable {heap : Heap} {t u x : RedBlack.Tree ℕ} {fs : List (Frame ℕ)} {s : Side} {c : Color}
  {leaf : ℕ}

/-- The entries of `tree->parents` for a place. -/
def links : List (Frame ℕ) → List Link
  | [] => [.root]
  | f :: fs => .child f.side f.elem :: links fs

/-- The entries below the one for a place. -/
def upLinks : List (Frame ℕ) → List Link
  | [] => []
  | _ :: fs => links fs

theorem links_eq (fs : List (Frame ℕ)) : links fs = linkOf fs :: upLinks fs := by
  cases fs <;> rfl

theorem length_links (fs : List (Frame ℕ)) : (links fs).length = fs.length + 1 := by
  induction fs with
  | nil => rfl
  | cons f fs ih => rw [links, length_cons, ih, length_cons]

@[simp] theorem rotateTo_eq (s : Side) (heap : Heap) (parent : Link) (leaf : ℕ) :
    rotateTo s heap parent leaf = heap.rotate s parent leaf := by
  cases s <;> rfl

theorem blacken_eq (heap : Heap) (x : Option ℕ) : blacken heap x = linked.blacken heap x := by
  cases x <;> rfl

/-! ### Insertion -/

theorem rotations_eq (heap : Heap) (parent1 parent2 : Link) (leaf par par2 : ℕ) (s : Side) :
    rbInsertLoop.rotations heap parent1 parent2 leaf par par2 s =
      linked.insertRotations heap parent1 parent2 leaf par par2 s := by
  simp only [rbInsertLoop.rotations, rotateTo_eq]
  rfl

/-- A round of the loop of `rb_insert`. -/
theorem insertLoop : linked.InsertLoop fun _ heap fs leaf => rbInsertLoop heap (links fs) leaf where
  top {heap t leaf} _ hr hroot := by
    rw [rbInsertLoop.eq_def, if_pos (hr.root.trans hroot)]
  black {heap t par fs leaf} _ hr hroot hpar := by
    have hne : heap.link .root ≠ some leaf := hroot ▸ hr.root_ne
    have hr1 : Represents heap (zip (join par.side par.color t par.elem par.sibling) fs) := hr
    have hlink : heap.link (linkOf fs) = some par.elem := by rw [hr1.link_eq, root_join]
    rw [rbInsertLoop.eq_def, if_neg hne]
    simp [links, links_eq fs, hlink, hr1.join_eq.2.2, hpar]
  red {heap t par par2 up leaf} _ hr hroot hpar := by
    have hne : heap.link .root ≠ some leaf := hroot ▸ hr.root_ne
    have hr1 : Represents heap (zip (par.plug t) (par2 :: up)) := hr
    have hr2 : Represents heap (zip (par2.plug (par.plug t)) up) := hr
    have hlink1 := hr1.link_eq.trans (root_join _ _ _ _ _)
    have hlink2 := hr2.link_eq.trans (root_join _ _ _ _ _)
    obtain ⟨hcolor, hside, hsibling, hy⟩ := grandparent_eq hr
    rw [hpar] at hcolor
    change sideOf heap (some par.elem) par2.elem = par2.side at hside
    rw [rbInsertLoop.eq_def, if_neg hne]
    rw [linkOf_cons] at hlink1
    simp only [links, links_eq up, hlink1, hcolor, hlink2, hside, hsibling, bind_some,
      reduceCtorEq, if_false, linkOf_cons, rotations_eq]
    cases hcase : par2.sibling.root with
    | none => rfl
    | some y =>
      rw [hcase] at hy
      simp only [show heap.color y = par2.sibling.color from hy]
      rfl

/-- **`rb_insert`** repairs the tree after a red leaf was put in. -/
theorem rbInsert_spec {n : ℕ} (hr : Represents heap (zip (join s c t leaf u) fs))
    (ht : Balanced (join s .red t leaf u) .red n) (hfs : Accepts .black n fs) :
    ∃ heap', rbInsert heap (links fs) leaf = some heap' ∧
      Represents heap' ((insertFix (join s .red t leaf u) fs).paint .black) := by
  obtain ⟨heap1, hloop, hr1⟩ :=
    insertLoop.spec (hr.paint .red) (root_join _ _ _ _ _) ht hfs (Nat.lt_succ_self _)
  refine ⟨_, ?_, linked.blacken_top hr1⟩
  rw [rbInsert, hloop, map_some, blacken_eq]
  rfl

/-! ### Deletion -/

theorem redNephew_eq (heap : Heap) (f : Frame ℕ) (up : List (Frame ℕ)) (par w : ℕ) (s : Side) :
    redNephew heap (links (f :: up)) par w s = linked.redNephew heap (linkOf up) par w s := by
  simp only [redNephew, links, links_eq up, rotateTo_eq, blacken_eq]
  rfl

/-- One round of the loop of `rb_delete_fixup`, at a black node under `p`. -/
theorem rbDeleteFixupLoop_step {fuel p w : ℕ} {up : List (Frame ℕ)} {sib : RedBlack.Tree ℕ}
    (hr : Represents heap (zip x (⟨s, c, p, sib⟩ :: up))) (hx : x.color = .black)
    (hw : sib.root = some w) :
    rbDeleteFixupLoop (fuel + 1) heap (links (⟨s, c, p, sib⟩ :: up)) x.root =
      (redSibling heap (links (⟨s, c, p, sib⟩ :: up)) p w s).bind fun (heap, parents, w) =>
        if heap.colorOf (heap.link (.child s w)) = .black ∧
            heap.colorOf (heap.link (.child s.other w)) = .black then
          rbDeleteFixupLoop fuel (heap.setColor w .red) parents.tail (some p)
        else (redNephew heap parents p w s).map fun heap => (heap, heap.link .root) := by
  have hne : sib ≠ .nil := by
    rintro rfl
    simp [Tree.root] at hw
  have hr1 : Represents heap (zip (join s c x p sib) up) := hr
  have hlink : heap.link (linkOf up) = some p := by rw [hr1.link_eq, root_join]
  have hside : sideOf heap x.root p = s := side_of_left hr (.inr hne)
  rw [rbDeleteFixupLoop.eq_def]
  dsimp only
  rw [if_pos ⟨hr.root_ne, hr.colorOf.trans hx⟩]
  simp [links, links_eq up, hlink, hside, hr1.join_eq.2.1, hw]

theorem redSibling_eq {p w : ℕ} (f : Frame ℕ) (up : List (Frame ℕ)) (hcolor : heap.color w = .red) :
    redSibling heap (links (f :: up)) p w s =
      (((heap.setColor w .black).setColor p .red).rotate s (linkOf up) p).bind fun heap =>
        (push (.child s p) (.child s w :: links up)).bind fun parents =>
          (heap.link (.child s.other p)).map fun w => (heap, parents, w) := by
  simp [redSibling, hcolor, links, links_eq up, rotateTo_eq]

/-- The entries of `tree->parents` may not suffice at this depth. -/
def NoRoom (depth : ℕ) : Prop := maxTreeHeight ≤ depth + 1

/-- A round of the loop of `rb_delete_fixup`. -/
theorem deleteLoop : linked.DeleteLoop
    (fun fuel heap fs x => rbDeleteFixupLoop fuel heap (links fs) x) NoRoom where
  stop {heap x fs} fuel hr hstop := by
    rw [rbDeleteFixupLoop.eq_def]
    refine if_neg fun h => ?_
    rcases hstop with rfl | hred
    · exact h.1 hr.root
    · rw [hr.colorOf, hred] at h
      exact absurd h.2 (by decide)
  black {heap x s c p u w v up} fuel hr hx := by
    have hsib : redSibling heap (links (⟨s, c, p, join s .black u w v⟩ :: up)) p w s =
        some (heap, links (⟨s, c, p, join s .black u w v⟩ :: up), w) := by
      rw [redSibling.eq_def, color_sibling hr]
      exact if_neg (by decide)
    rw [rbDeleteFixupLoop_step hr hx (root_join _ _ _ _ _), hsib, bind_some]
    simp only [redNephew_eq]
    rfl
  red {heap x s p u w v up} fuel hr hx hu := by
    rw [rbDeleteFixupLoop_step hr hx (root_join _ _ _ _ _), redSibling_eq _ _ (color_sibling hr)]
    by_cases hroom : maxTreeHeight ≤ up.length + 2
    · have hpush : push (.child s p) (.child s w :: links up) = none := by
        rw [push, if_neg]
        rw [length_cons, length_links]
        omega
      simp only [hpush, bind_none, bind_fun_none]
      exact .inl ⟨trivial, hroom⟩
    have hpush : push (.child s p) (.child s w :: links up) =
        some (.child s p :: .child s w :: links up) := by
      rw [push, if_pos]
      rw [length_cons, length_links]
      omega
    obtain ⟨heap', b, hturn, hb, hr'⟩ := linked.turnSibling_spec hr hu
    refine .inr ⟨heap', b, hb, hr', ?_⟩
    obtain ⟨heap1, hrot, hmap⟩ := bind_eq_some_iff.1 hturn
    obtain ⟨b', hlink, hpair⟩ := map_eq_some_iff.1 hmap
    cases hpair
    rw [show ((heap.setColor w .black).setColor p .red).rotate s (linkOf up) p = some heap' from hrot,
      bind_some, hpush, bind_some,
      show heap'.link (.child s.other p) = some b from hlink, map_some, bind_some]
    have hneph := redNephew_eq heap' ⟨s, .red, p, u⟩ (⟨s, .black, w, v⟩ :: up) p b s
    simp only [links] at hneph
    simp only [hneph]
    rfl
  mono h1 h2 := le_trans h2 (Nat.succ_le_succ h1)

/-- **`rb_delete_fixup`** repairs the tree under a place that lacks a black node, if the entries of
`tree->parents` suffice. -/
theorem rbDeleteFixup_spec {n : ℕ} (hr : Represents heap (zip x fs)) (hx : Balanced x c n)
    (hfs : Accepts .black (n + 1) fs) (hlen : fs.length ≤ maxTreeHeight) :
    (rbDeleteFixup heap (links fs) = none ∧ maxTreeHeight ≤ fs.length + 1) ∨
      ∃ heap', rbDeleteFixup heap (links fs) = some heap' ∧ Represents heap' (deleteFix x fs) := by
  have hloop := deleteLoop.spec hr hx hfs (Nat.add_le_add_right hlen 2)
  have hhead : (links fs).head? = some (linkOf fs) := by rw [links_eq, head?_cons]
  rw [rbDeleteFixup, hhead, bind_some, hr.link_eq]
  rcases hloop with ⟨hnone, hroom⟩ | ⟨heap', x', hsome, hres⟩
  · exact .inl ⟨by rw [hnone, map_none], hroom⟩
  · exact .inr ⟨_, by rw [hsome, map_some]; exact congrArg some (blacken_eq _ _), hres⟩

end MyTree
