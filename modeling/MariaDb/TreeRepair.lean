/-
**Repairs of linked trees.**

Programs that repair a red-black tree differ in the way in which they find the nodes over a place: by
a stack of links or by parent pointers.  What they do to the nodes is the same.  The steps of the
repairs are stated here for any heap whose nodes can be painted and rotated, and so are the two loops,
by what a round of them does.

Main definitions:

* `Repairable`: a kind of heap, with its operations and their laws;
* `Repairable.linked`, `Repairable.upLinked`: heaps without and with parent pointers;
* `Repairable.InsertLoop`, `Repairable.DeleteLoop`: what a round of a loop does.

Main results:

* `Repairable.InsertLoop.spec`: such a loop is `insertFix`;
* `Repairable.DeleteLoop.spec`: such a loop is `deleteFix`.
-/

import MariaDb.ParentTree

set_option autoImplicit false

namespace RedBlack

open RedBlack.Tree Option

/-- A kind of heap that can hold a tree.  A node is painted or rotated where it is in the tree; the
rotation may use the link to the node. -/
structure Repairable (H : Type) where
  toHeap : H → Heap
  setColor : H → ℕ → Color → H
  rotate : Side → H → Link → ℕ → Option H
  Holds : H → Tree ℕ → Prop
  represents : ∀ {h : H} {t : Tree ℕ}, Holds h t → Represents (toHeap h) t
  toHeap_setColor : ∀ (h : H) (a : ℕ) (c : Color), toHeap (setColor h a c) = (toHeap h).setColor a c
  paint : ∀ {h : H} {s : Side} {c : Color} {t u : Tree ℕ} {a : ℕ} {fs : List (Frame ℕ)},
    Holds h (zip (join s c t a u) fs) → ∀ d, Holds (setColor h a d) (zip (join s d t a u) fs)
  rotate_spec : ∀ {h : H} {s : Side} {c d : Color} {A B C : Tree ℕ} {a b : ℕ} {fs : List (Frame ℕ)},
    Holds h (zip (join s c A a (join s d B b C)) fs) → ∃ h', rotate s h (linkOf fs) a = some h' ∧
      Holds h' (zip (join s d (join s c A a B) b C) fs)

namespace Repairable

/-- Heaps without parent pointers. -/
def linked : Repairable Heap where
  toHeap h := h
  setColor := Heap.setColor
  rotate s h l a := h.rotate s l a
  Holds := Represents
  represents hr := hr
  toHeap_setColor _ _ _ := rfl
  paint hr d := hr.paint d
  rotate_spec hr := by
    obtain ⟨h', hrot, -, hr'⟩ := hr.rotate
    exact ⟨h', hrot, hr'⟩

/-- Heaps with parent pointers. -/
def upLinked : Repairable UpHeap where
  toHeap := UpHeap.toHeap
  setColor := UpHeap.setColor
  rotate s h _ a := h.rotate s a
  Holds := RepresentsUp
  represents hr := hr.toRepresents
  toHeap_setColor _ _ _ := rfl
  paint hr d := hr.paint d
  rotate_spec hr := hr.rotate

/-- The comparison with the left child tells the side. -/
theorem side_of_left {heap : Heap} {t : Tree ℕ} {f : Frame ℕ} {fs : List (Frame ℕ)}
    (hr : Represents heap (zip t (f :: fs))) (hne : t ≠ .nil ∨ f.sibling ≠ .nil) :
    (if heap.link (.child .left f.elem) = t.root then Side.left else .right) = f.side := by
  simp only [hr.side_iff hne]
  cases f.side <;> rfl

/-- What an insertion looks at above a node with a parent and a grandparent. -/
theorem grandparent_eq {heap : Heap} {t : Tree ℕ} {par par2 : Frame ℕ} {up : List (Frame ℕ)}
    (hr : Represents heap (zip t (par :: par2 :: up))) : heap.color par.elem = par.color ∧
      (if heap.link (.child .left par2.elem) = some par.elem then Side.left else .right) =
        par2.side ∧
      heap.link (.child par2.side.other par2.elem) = par2.sibling.root ∧
      heap.colorOf par2.sibling.root = par2.sibling.color := by
  have hpar : Represents heap (zip (join par.side par.color t par.elem par.sibling)
    (par2 :: up)) := hr
  have hpar2 : Represents heap (zip (join par2.side par2.color (par.plug t) par2.elem
    par2.sibling) up) := hr
  refine ⟨hpar.join_eq.2.2, ?_, hpar2.join_eq.2.1, ?_⟩
  · rw [← root_join par.side par.color t par.elem par.sibling]
    exact side_of_left hpar (.inl (join_ne_nil _ _ _ _ _))
  · rw [zip_other] at hpar2
    exact hpar2.colorOf

variable {H : Type} (R : Repairable H) {h : H} {t u v x : Tree ℕ} {fs up : List (Frame ℕ)} {s : Side}
  {c : Color} {leaf p w n : ℕ}

theorem color_sibling {heap : Heap} {d : Color}
    (hr : Represents heap (zip x (⟨s, c, p, join s d u w v⟩ :: up))) : heap.color w = d := by
  have hr1 : Represents heap (zip (join s c x p (join s d u w v)) up) := hr
  rw [zip_other] at hr1
  exact hr1.join_eq.2.2

/-- The node is painted black; nothing is done for the null node. -/
def blacken (h : H) : Option ℕ → H
  | none => h
  | some a => R.setColor h a .black

theorem blacken_place (hr : R.Holds h (zip t fs)) :
    R.Holds (R.blacken h t.root) (zip (t.paint .black) fs) := by
  rcases eq_nil_or_join .left t with rfl | ⟨b, hb⟩
  · exact hr
  · rw [hb] at hr ⊢
    exact R.paint hr .black

theorem blacken_top (hr : R.Holds h t) :
    R.Holds (R.blacken h ((R.toHeap h).link .root)) (t.paint .black) := by
  have hr' : R.Holds h (zip t []) := hr
  rw [(R.represents hr).root]
  exact R.blacken_place hr'

/-! ### Insertion -/

/-- The rotations at the end of the repair after an insertion; `par` is on the side `s` of `par2`. -/
def insertRotations (h : H) (parent1 parent2 : Link) (leaf par par2 : ℕ) (s : Side) : Option H :=
  (if (R.toHeap h).link (.child s.other par) = some leaf then
    (R.rotate s h parent1 par).map fun h => (h, leaf)
  else some (h, par)).bind fun (h, par) =>
    R.rotate s.other (R.setColor (R.setColor h par .black) par2 .red) parent2 par2

theorem insertRotations_spec {par par2 : Frame ℕ} (hr : R.Holds h (zip t (par :: par2 :: up)))
    (hroot : t.root = some leaf) (hred : t.color = .red) (hpar : par.color = .red) :
    ∃ h', R.insertRotations h (linkOf (par2 :: up)) (linkOf up) leaf par.elem par2.elem par2.side =
        some h' ∧ R.Holds h' (zip (insertRotate t par par2) up) := by
  obtain ⟨s, c, p, u⟩ := par
  obtain ⟨s', c', p', u'⟩ := par2
  obtain rfl : c = .red := hpar
  rw [insertRotations]
  have hside := (R.represents hr).side_iff (s := s'.other)
    (.inl fun h => by simp [h, Tree.root] at hroot)
  rw [hroot] at hside
  simp only [hside]
  have hr1 : R.Holds h (zip (join s .red t p u) (⟨s', c', p', u'⟩ :: up)) := hr
  by_cases hs : s = s'
  · -- the three nodes are in a line
    subst hs
    rw [if_neg s.other_ne, bind_some]
    have hr2 := R.paint hr1 .black
    have hr3 : R.Holds _ (zip (join s c' (join s .black t p u) p' u') up) := hr2
    have hr4 := R.paint hr3 .red
    rw [← join_other s .red, ← join_other s .black] at hr4
    obtain ⟨h', hrot, hr5⟩ := R.rotate_spec hr4
    refine ⟨h', hrot, ?_⟩
    rw [join_other, join_other] at hr5
    rwa [insertRotate_line]
  obtain rfl : s = s'.other := Side.eq_other_of_ne hs
  rw [if_pos rfl]
  obtain ⟨a, ha⟩ := (eq_nil_or_join s' t).resolve_left fun h => by simp [h, Tree.root] at hroot
  rw [ha, root_join, Option.some.injEq] at hroot
  subst hroot
  rw [hred] at ha
  rw [ha, join_other] at hr1
  obtain ⟨h1, hrot1, hr2⟩ := R.rotate_spec hr1
  rw [hrot1, map_some, bind_some]
  have hr3 := R.paint hr2 .black
  have hr4 : R.Holds _ (zip (join s' c' (join s' .black (join s' .red u p (t.child s')) a
    (t.child s'.other)) p' u') up) := hr3
  have hr5 := R.paint hr4 .red
  rw [← join_other s' .red _ p', ← join_other s' .black] at hr5
  obtain ⟨h', hrot, hr6⟩ := R.rotate_spec hr5
  refine ⟨h', hrot, ?_⟩
  rw [join_other, join_other] at hr6
  rwa [ha, insertRotate_bend]

/-- A loop that repairs the tree after a red node has been put at a place. -/
structure InsertLoop (loop : ℕ → H → List (Frame ℕ) → ℕ → Option H) : Prop where
  top : ∀ {h t leaf} fuel, R.Holds h t → t.root = some leaf → loop (fuel + 1) h [] leaf = some h
  black : ∀ {h t par fs leaf} fuel, R.Holds h (zip t (par :: fs)) → t.root = some leaf →
    par.color = .black → loop (fuel + 1) h (par :: fs) leaf = some h
  red : ∀ {h t par par2 up leaf} fuel, R.Holds h (zip t (par :: par2 :: up)) → t.root = some leaf →
    par.color = .red → loop (fuel + 1) h (par :: par2 :: up) leaf =
      match par2.sibling.root with
      | none => R.insertRotations h (linkOf (par2 :: up)) (linkOf up) leaf par.elem par2.elem par2.side
      | some y =>
        if par2.sibling.color = .red then
          loop fuel (R.setColor (R.setColor (R.setColor h par.elem .black) y .black) par2.elem .red)
            up par2.elem
        else R.insertRotations h (linkOf (par2 :: up)) (linkOf up) leaf par.elem par2.elem par2.side

theorem InsertLoop.spec {R : Repairable H} {loop : ℕ → H → List (Frame ℕ) → ℕ → Option H} {fuel : ℕ}
    (hloop : R.InsertLoop loop) (hr : R.Holds h (zip t fs)) (hroot : t.root = some leaf)
    (ht : Balanced t .red n) (hfs : Accepts .black n fs) (hfuel : fs.length < fuel) :
    ∃ h', loop fuel h fs leaf = some h' ∧ R.Holds h' (insertFix t fs) := by
  obtain _ | fuel := fuel
  · omega
  induction t, fs using insertFix.induct generalizing h leaf n fuel with
  | case1 t par par2 up hpar =>
    rw [insertFix, if_pos hpar]
    exact ⟨h, hloop.black fuel hr hroot hpar, hr⟩
  | case2 t par par2 up hpar hy ih =>
    simp only [List.length_cons] at hfuel
    obtain _ | fuel := fuel
    · omega
    obtain ⟨s, p, u, s', p', u', d, rfl, rfl, hu, hu', hup⟩ := hfs.of_red hpar
    obtain rfl : d = .red := by
      rw [← hu'.color_eq]
      exact hy
    obtain ⟨y, v1, v2, rfl, -, -⟩ := hu'.exists_join_red s'
    -- the three nodes are painted
    have hr1 : R.Holds h (zip (join s .red t p u)
      (⟨s', .black, p', join s' .red v1 y v2⟩ :: up)) := hr
    have hr2 : R.Holds _ (zip (join s' .black (join s .black t p u) p'
      (join s' .red v1 y v2)) up) := R.paint hr1 .black
    rw [zip_other] at hr2
    have hr3 := R.paint hr2 .black
    rw [← zip_other] at hr3
    have hr4 := R.paint hr3 .red
    rw [hloop.red _ hr hroot rfl, insertFix, if_neg hpar, if_pos hy]
    simp only [root_join, color_join, if_true, paint_join] at ih ⊢
    have hy' : Balanced (join s' .black v1 y v2) .black (n + 1) := by
      simpa only [paint_join] using Balanced.paint_black hu'
    exact ih hr4 rfl ((ht.join_black hu).join_red hy') hup fuel (by omega)
  | case3 t par par2 up hpar hy =>
    have hpar' : par.color = .red := by cases hc : par.color <;> simp_all
    rw [hloop.red _ hr hroot hpar', insertFix, if_neg hpar, if_neg hy]
    have hrot := R.insertRotations_spec hr hroot ht.color_eq hpar'
    cases hcase : par2.sibling.root with
    | none => exact hrot
    | some y =>
      simp only [if_neg hy]
      exact hrot
  | case4 t par =>
    obtain ⟨s, c, p, u⟩ := par
    cases c
    · exact absurd hfs.2.2 (by simp [Accepts])
    · exact ⟨h, hloop.black fuel hr hroot rfl, hr⟩
  | case5 t => exact ⟨h, hloop.top fuel hr hroot, hr⟩

/-! ### Deletion -/

/-- A red sibling `w` is turned up: returns the sibling after it. -/
def turnSibling (h : H) (parent1 : Link) (par w : ℕ) (s : Side) : Option (H × ℕ) :=
  (R.rotate s (R.setColor (R.setColor h w .black) par .red) parent1 par).bind fun h =>
    ((R.toHeap h).link (.child s.other par)).map fun w => (h, w)

theorem turnSibling_spec (hr : R.Holds h (zip x (⟨s, .black, p, join s .red u w v⟩ :: up)))
    (hu : u ≠ .nil) : ∃ h' b, R.turnSibling h (linkOf up) p w s = some (h', b) ∧ u.root = some b ∧
      R.Holds h' (zip x (⟨s, .red, p, u⟩ :: ⟨s, .black, w, v⟩ :: up)) := by
  have hr1 : R.Holds h (zip (join s .black x p (join s .red u w v)) up) := hr
  rw [zip_other] at hr1
  have hr2 := R.paint hr1 .black
  rw [← zip_other] at hr2
  obtain ⟨h', hrot, hr3⟩ := R.rotate_spec (R.paint hr2 .red)
  have hr4 : R.Holds h' (zip (join s .red x p u) (⟨s, .black, w, v⟩ :: up)) := hr3
  obtain ⟨b, hb⟩ := ne_none_iff_exists'.mp (mt root_eq_none.1 hu)
  refine ⟨h', b, ?_, hb, hr4⟩
  rw [turnSibling, hrot, bind_some, (R.represents hr4).join_eq.2.1, hb, map_some]

/-- What is done for a sibling with a red child. -/
def redNephew (h : H) (parent1 : Link) (par w : ℕ) (s : Side) : Option H :=
  (if (R.toHeap h).colorOf ((R.toHeap h).link (.child s.other w)) = .black then
    (R.rotate s.other (R.setColor (R.blacken h ((R.toHeap h).link (.child s w))) w .red)
      (.child s.other par) w).bind fun h =>
        ((R.toHeap h).link (.child s.other par)).map fun w => (h, w)
  else some (h, w)).bind fun (h, w) =>
    let h := R.setColor (R.setColor h w ((R.toHeap h).color par)) par .black
    R.rotate s (R.blacken h ((R.toHeap h).link (.child s.other w))) parent1 par

/-- The last rotation. -/
theorem redNephew_finish {d : Color} (hr : R.Holds h (zip (join s c x p (join s d u w v)) up)) :
    ∃ h', R.rotate s (R.blacken (R.setColor (R.setColor h w ((R.toHeap h).color p)) p .black)
        ((R.toHeap (R.setColor (R.setColor h w ((R.toHeap h).color p)) p .black)).link
          (.child s.other w))) (linkOf up) p = some h' ∧
      R.Holds h' (zip (join s c (join s .black x p u) w (v.paint .black)) up) := by
  have hcolor : (R.toHeap h).color p = c := (R.represents hr).join_eq.2.2
  rw [zip_other] at hr
  have hlink : (R.toHeap h).link (.child s.other w) = v.root := (R.represents hr).join_eq.2.1
  have hr1 := R.paint hr c
  rw [← zip_other] at hr1
  have hr2 := R.paint hr1 .black
  rw [zip_other, zip_other] at hr2
  have hr3 := R.blacken_place hr2
  rw [← zip_other, ← zip_other] at hr3
  obtain ⟨h', hrot, hr4⟩ := R.rotate_spec hr3
  refine ⟨h', ?_, hr4⟩
  simp only [hcolor, R.toHeap_setColor, Heap.link_setColor, hlink, hrot]

theorem redNephew_spec (hr : R.Holds h (zip x (⟨s, c, p, join s .black u w v⟩ :: up)))
    (hw : Balanced (join s .black u w v) .black (n + 1))
    (hred : ¬ blackChildren (join s .black u w v)) :
    ∃ h', R.redNephew h (linkOf up) p w s = some h' ∧
      R.Holds h' (zip (deleteRotate x ⟨s, c, p, join s .black u w v⟩) up) := by
  have hr1 : R.Holds h (zip (join s c x p (join s .black u w v)) up) := hr
  have hr2 := hr1
  rw [zip_other] at hr2
  obtain ⟨hu, hv, -⟩ := (R.represents hr2).join_eq
  have hr3 := hr2
  rw [zip_other] at hr3
  have hfar := (R.represents hr3).colorOf
  rw [blackChildren_join] at hred
  simp only [redNephew, hv, hu, hfar]
  by_cases hblack : v.color = .black
  · -- the red child is turned up first
    have hnear : u.color ≠ .black := fun h => hred ⟨h, hblack⟩
    obtain ⟨-, m, -, ⟨d, hub⟩, -⟩ := balanced_join_black.1 hw
    obtain ⟨b, u1, u2, rfl, -, -⟩ := (hub.of_color_red hnear).exists_join_red s
    have hr4 : R.Holds h (zip (join s .red u1 b u2)
      (⟨s, .black, w, v⟩ :: ⟨s.other, c, p, x⟩ :: up)) := hr2
    have hr5 : R.Holds _ (zip (join s .black (join s .black u1 b u2) w v)
      (⟨s.other, c, p, x⟩ :: up)) := R.paint hr4 .black
    have hr6 := R.paint hr5 .red
    rw [← join_other s .red, ← join_other s .black] at hr6
    obtain ⟨h1, hrot, hr7⟩ := R.rotate_spec hr6
    rw [join_other, join_other] at hr7
    have hlink : (R.toHeap h1).link (.child s.other p) = some b := by
      rw [show Link.child s.other p = linkOf (⟨s.other, c, p, x⟩ :: up) from rfl,
        (R.represents hr7).link_eq, root_join]
    rw [← zip_other] at hr7
    obtain ⟨h', hfinish, hr8⟩ := R.redNephew_finish hr7
    refine ⟨h', ?_, ?_⟩
    · rw [linkOf_cons] at hrot
      rw [if_pos hblack, root_join, blacken, hrot, bind_some, hlink, map_some]
      exact hfinish
    · rw [deleteRotate_near hblack]
      rwa [paint_join] at hr8
  · obtain ⟨h', hfinish, hr4⟩ := R.redNephew_finish hr1
    refine ⟨h', ?_, by rwa [deleteRotate_far hblack]⟩
    rw [if_neg hblack]
    exact hfinish

/-- The rest of a round of the repair, from where the sibling `w` of the place is black. -/
def fixupRound (loop : H → List (Frame ℕ) → Option ℕ → Option (H × Option ℕ)) (h : H)
    (up : List (Frame ℕ)) (par w : ℕ) (s : Side) : Option (H × Option ℕ) :=
  if (R.toHeap h).colorOf ((R.toHeap h).link (.child s w)) = .black ∧
      (R.toHeap h).colorOf ((R.toHeap h).link (.child s.other w)) = .black then
    loop (R.setColor h w .red) up (some par)
  else (R.redNephew h (linkOf up) par w s).map fun h => (h, (R.toHeap h).link .root)

/-- A loop that repairs the tree over a place that lacks a black node.  It may have no room for one
more node on the way to a place of some depths. -/
structure DeleteLoop (loop : ℕ → H → List (Frame ℕ) → Option ℕ → Option (H × Option ℕ))
    (short : ℕ → Prop) : Prop where
  stop : ∀ {h x fs} fuel, R.Holds h (zip x fs) → fs = [] ∨ x.color = .red →
    loop (fuel + 1) h fs x.root = some (h, x.root)
  black : ∀ {h x s c p u w v up} fuel, R.Holds h (zip x (⟨s, c, p, join s .black u w v⟩ :: up)) →
    x.color = .black → loop (fuel + 1) h (⟨s, c, p, join s .black u w v⟩ :: up) x.root =
      R.fixupRound (loop fuel) h up p w s
  red : ∀ {h x s p u w v up} fuel, R.Holds h (zip x (⟨s, .black, p, join s .red u w v⟩ :: up)) →
    x.color = .black → u ≠ .nil →
    (loop (fuel + 1) h (⟨s, .black, p, join s .red u w v⟩ :: up) x.root = none ∧
      short (up.length + 1)) ∨
    ∃ h' b, u.root = some b ∧ R.Holds h' (zip x (⟨s, .red, p, u⟩ :: ⟨s, .black, w, v⟩ :: up)) ∧
      loop (fuel + 1) h (⟨s, .black, p, join s .red u w v⟩ :: up) x.root =
        R.fixupRound (loop fuel) h' (⟨s, .black, w, v⟩ :: up) p b s
  mono : ∀ {m n}, m ≤ n → short m → short n

/-- The result of the repair, if there is room for it. -/
def Repaired (short : ℕ → Prop) (depth : ℕ) (res : Option (H × Option ℕ)) (t : Tree ℕ) : Prop :=
  (res = none ∧ short depth) ∨ ∃ h' x', res = some (h', x') ∧ R.Holds (R.blacken h' x') t

variable {R} {loop : ℕ → H → List (Frame ℕ) → Option ℕ → Option (H × Option ℕ)} {short : ℕ → Prop}

section

variable (hloop : R.DeleteLoop loop short)
include hloop

theorem DeleteLoop.of_red (fuel : ℕ) (hr : R.Holds h (zip x fs)) (hred : x.color = .red) :
    R.Repaired short fs.length (loop (fuel + 1) h fs x.root) (deleteFix x fs) := by
  refine .inr ⟨_, _, hloop.stop fuel hr (.inr hred), ?_⟩
  rw [deleteFix_of_red hred]
  exact R.blacken_place hr

/-- A round of the loop from where the sibling is black. -/
theorem DeleteLoop.round (fuel : ℕ) (hr : R.Holds h (zip x (⟨s, c, p, join s .black u w v⟩ :: up)))
    (hx : Balanced x .black n) (hw : Balanced (join s .black u w v) .black (n + 1))
    (ih : c = .black → ∀ {h x}, R.Holds h (zip x up) → Balanced x .black (n + 1) →
      R.Repaired short up.length (loop (fuel + 1) h up x.root) (deleteFix x up)) :
    R.Repaired short up.length (R.fixupRound (loop (fuel + 1)) h up p w s)
      (if blackChildren (join s .black u w v) then deleteFix (join s c x p (join s .red u w v)) up
      else (zip (deleteRotate x ⟨s, c, p, join s .black u w v⟩) up).paint .black) := by
  have hr1 : R.Holds h (zip (join s c x p (join s .black u w v)) up) := hr
  rw [zip_other] at hr1
  obtain ⟨hu, hv, -⟩ := (R.represents hr1).join_eq
  have hcu : (R.toHeap h).colorOf ((R.toHeap h).link (.child s w)) = u.color := by
    have hr2 : R.Holds h (zip u (⟨s, .black, w, v⟩ :: ⟨s.other, c, p, x⟩ :: up)) := hr1
    rw [hu, (R.represents hr2).colorOf]
  have hcv : (R.toHeap h).colorOf ((R.toHeap h).link (.child s.other w)) = v.color := by
    have hr2 := hr1
    rw [zip_other] at hr2
    rw [hv, (R.represents hr2).colorOf]
  rw [fixupRound, hcu, hcv]
  by_cases hblack : blackChildren (join s .black u w v)
  · have hr2 := R.paint hr1 .red
    rw [← zip_other] at hr2
    rw [if_pos hblack, if_pos (blackChildren_join.1 hblack)]
    cases c with
    | red =>
      have hres := hloop.of_red fuel hr2 (color_join _ _ _ _ _)
      rwa [root_join] at hres
    | black =>
      obtain ⟨hbal, -⟩ := plug_paint_spec ⟨s, .black, p, join s .black u w v⟩ hx hw hblack .black
      rw [paint_join] at hbal
      have hres := ih rfl hr2 hbal
      rwa [root_join] at hres
  · obtain ⟨h', hneph, hr2⟩ := R.redNephew_spec hr hw hblack
    rw [if_neg hblack, if_neg fun h => hblack (blackChildren_join.2 h), hneph, map_some]
    exact .inr ⟨_, _, rfl, R.blacken_top hr2⟩

theorem DeleteLoop.spec {fuel : ℕ} (hr : R.Holds h (zip x fs))
    (hx : Balanced x c n) (hfs : Accepts .black (n + 1) fs) (hfuel : fs.length + 2 ≤ fuel) :
    R.Repaired short fs.length (loop fuel h fs x.root) (deleteFix x fs) := by
  induction fs generalizing x c n h fuel with
  | nil =>
    obtain _ | fuel := fuel
    · omega
    exact .inr ⟨_, _, hloop.stop fuel hr (.inl rfl), R.blacken_place hr⟩
  | cons par up ih =>
    obtain ⟨fuel, rfl⟩ : ∃ k, fuel = k + 2 := ⟨fuel - 2, by omega⟩
    rw [List.length_cons] at hfuel ⊢
    by_cases hred : x.color = .red
    · exact hloop.of_red (fuel + 1) hr hred
    have hxb : x.color = .black := by cases hc : x.color <;> simp_all
    have hx := hx.of_color_black hxb
    obtain ⟨s, e, p, sib⟩ := par
    have hup := hfs.up
    obtain ⟨d, hw, hcolor⟩ := hfs.sibling
    rw [deleteFix, if_neg hred]
    cases d with
    | black =>
      obtain ⟨w, u, v, rfl, -, -⟩ := Balanced.exists_join s hw
      rw [hloop.black _ hr hxb, siblingUp_black (color_join _ _ _ _ _)]
      have hround := hloop.round fuel hr hx hw fun he h' x' hr' hx' => by
        subst he
        exact ih hr' hx' hup (by omega)
      simp only [Frame.plug, paint_join]
      exact hround.imp_left fun h => ⟨h.1, hloop.mono (Nat.le_succ _) h.2⟩
    | red =>
      obtain rfl : e = .black := by
        cases e
        · exact absurd (hcolor rfl) (by decide)
        · rfl
      obtain ⟨w, u, v, rfl, hu, hv⟩ := Balanced.exists_join_red s hw
      obtain ⟨b, u1, u2, rfl, -, -⟩ := hu.exists_join s
      rw [siblingUp_red]
      rcases hloop.red (fuel + 1) hr hxb (join_ne_nil _ _ _ _ _) with hnone | ⟨h', b', hb, hr', hloop'⟩
      · exact .inl hnone
      -- the sibling is a child of the former one now, under a red node
      obtain rfl : b = b' := by simpa using hb
      have hround := hloop.round fuel hr' hx hu (fun he => by cases he)
      rw [deleteFix_of_red (color_join _ _ _ _ _)] at hround
      rw [hloop']
      simp only [Frame.plug, paint_join] at hround ⊢
      exact hround

end

end Repairable

end RedBlack
