/-
**Red-black trees, repaired along a path.**

A place in a tree is a subtree together with the path to it: the list of the nodes above, each with
the side taken and the subtree on its other side.  Insertion and deletion change one place and then
repair the tree upwards.  The two sides of a tree are treated alike: `join s` builds a node whose
child on the side `s` is given first.

Main definitions:

* `Tree`, `Frame`, `zip`: trees, and trees with a path;
* `Balanced`: no two red nodes in a row, and the same number of black nodes on every way down;
* `Accepts`: the tree around a place is balanced if the subtree there is;
* `insertFix`, `deleteFix`: the repair after an insertion and a deletion.

Main results:

* `balanced_insertFix`, `toList_insertFix`, `deleteFix_spec`: **the repairs balance the tree**, and
  keep the order of its elements.
-/

import Mathlib.Data.List.Basic
import Mathlib.Data.Nat.Log
import Mathlib.Tactic.Linarith

set_option autoImplicit false

namespace RedBlack

inductive Color where
  | red
  | black
  deriving DecidableEq, Repr

inductive Side where
  | left
  | right
  deriving DecidableEq, Repr

def Side.other : Side → Side
  | left => right
  | right => left

@[simp] theorem Side.other_ne (s : Side) : s.other ≠ s := by cases s <;> decide

@[simp] theorem Side.ne_other (s : Side) : s ≠ s.other := s.other_ne.symm

theorem Side.eq_other_of_ne {s s' : Side} (h : s ≠ s') : s = s'.other := by
  cases s <;> cases s' <;> first | rfl | exact absurd rfl h

inductive Tree (α : Type*) where
  | nil
  | node (c : Color) (l : Tree α) (a : α) (r : Tree α)
  deriving DecidableEq

variable {α : Type*}

namespace Tree

/-- The colour of the root; the empty tree counts as black. -/
def color : Tree α → Color
  | nil => .black
  | node c _ _ _ => c

def root : Tree α → Option α
  | nil => none
  | node _ _ a _ => some a

/-- The elements, from left to right. -/
def toList : Tree α → List α
  | nil => []
  | node _ l a r => l.toList ++ a :: r.toList

variable (s : Side) (c : Color) (t : Tree α)

def child : Tree α → Tree α
  | nil => nil
  | node _ l _ r => match s with
      | .left => l
      | .right => r

/-- The tree with the root in another colour. -/
def paint : Tree α → Tree α
  | nil => nil
  | node _ l a r => node c l a r

variable (a : α) (u : Tree α)

/-- A node with the subtree `t` on the side `s` and `u` on the other one. -/
def join (c : Color) (t : Tree α) (a : α) (u : Tree α) : Tree α :=
  match s with
  | .left => node c t a u
  | .right => node c u a t

@[simp] theorem root_node (l : Tree α) (a : α) (r : Tree α) : (node c l a r).root = some a := rfl

@[simp] theorem color_join : (join s c t a u).color = c := by cases s <;> rfl

@[simp] theorem root_join : (join s c t a u).root = some a := by cases s <;> rfl

@[simp] theorem paint_join (c d : Color) (t : Tree α) (a : α) (u : Tree α) :
    (join s c t a u).paint d = join s d t a u := by cases s <;> rfl

theorem join_other : join s.other c u a t = join s c t a u := by cases s <;> rfl

theorem join_ne_nil : join s c t a u ≠ nil := by cases s <;> simp [join]

@[simp] theorem toList_paint : (t.paint c).toList = t.toList := by
  cases t <;> rfl

theorem eq_nil_or_join : t = nil ∨ ∃ a, t = join s t.color (t.child s) a (t.child s.other) := by
  cases t with
  | nil => exact .inl rfl
  | node c l a r => exact .inr ⟨a, by cases s <;> rfl⟩

theorem root_eq_none {t : Tree α} : t.root = none ↔ t = nil := by
  cases t <;> simp [root]

theorem exists_root {t : Tree α} (h : t ≠ nil) : ∃ a, t.root = some a :=
  Option.ne_none_iff_exists'.1 (mt root_eq_none.1 h)

theorem mem_of_root {t : Tree α} {a : α} (h : t.root = some a) : a ∈ t.toList := by
  cases t with
  | nil => simp [root] at h
  | node c l b r =>
    simp only [root, Option.some.injEq] at h
    simp [toList, h]

end Tree

open RedBlack.Tree

/-! ### Places in a tree -/

/-- A node on the path to a place: the side taken and the subtree on the other side. -/
structure Frame (α : Type*) where
  side : Side
  color : Color
  elem : α
  sibling : Tree α

/-- The node with the subtree `t` at the place. -/
def Frame.plug (f : Frame α) (t : Tree α) : Tree α := join f.side f.color t f.elem f.sibling

/-- The whole tree, with the subtree `t` at the end of a path; the path starts at the place. -/
def zip : Tree α → List (Frame α) → Tree α
  | t, [] => t
  | t, f :: fs => zip (f.plug t) fs

/-- The elements to the left of a place. -/
def before : List (Frame α) → List α
  | [] => []
  | f :: fs => before fs ++ match f.side with
      | .left => []
      | .right => f.sibling.toList ++ [f.elem]

/-- The elements to the right of a place. -/
def after : List (Frame α) → List α
  | [] => []
  | f :: fs => (match f.side with
      | .left => f.elem :: f.sibling.toList
      | .right => []) ++ after fs

theorem toList_zip (t : Tree α) (fs : List (Frame α)) :
    (zip t fs).toList = before fs ++ t.toList ++ after fs := by
  induction fs generalizing t with
  | nil => simp [zip, before, after]
  | cons f fs ih =>
    rw [zip, ih]
    cases hs : f.side <;> simp [Frame.plug, join, hs, before, after, toList]

variable {t u u' x v : Tree α} {f : Frame α} {fs : List (Frame α)} {c d : Color} {n m : ℕ}
  {s : Side} {a p p' w : α}

theorem toList_zip_congr {t' : Tree α} (h : t'.toList = t.toList) (fs : List (Frame α)) :
    (zip t' fs).toList = (zip t fs).toList := by
  rw [toList_zip, toList_zip, h]

/-- A path is not longer than the tree is large. -/
theorem length_le_toList_zip (t : Tree α) (fs : List (Frame α)) :
    t.toList.length + fs.length ≤ (zip t fs).toList.length := by
  induction fs generalizing t with
  | nil => exact le_rfl
  | cons f fs ih =>
    have hplug : t.toList.length + 1 ≤ (f.plug t).toList.length := by
      unfold Frame.plug
      cases f.side <;> simp only [join, toList, List.length_append, List.length_cons] <;> omega
    have := ih (f.plug t)
    rw [zip, List.length_cons]
    omega

theorem zip_append (t : Tree α) (gs fs : List (Frame α)) : zip t (gs ++ fs) = zip (zip t gs) fs := by
  induction gs generalizing t with
  | nil => rfl
  | cons g gs ih => exact ih (g.plug t)

theorem before_append (gs fs : List (Frame α)) : before (gs ++ fs) = before fs ++ before gs := by
  induction gs with
  | nil => simp [before]
  | cons g gs ih => rw [List.cons_append, before, ih, before, List.append_assoc]

/-- The root of a tree is the last node on a path. -/
theorem root_zip (t : Tree α) (fs : List (Frame α)) :
    (zip t fs).root = (fs.getLast?.map Frame.elem).or t.root := by
  induction fs generalizing t with
  | nil => rfl
  | cons f fs ih =>
    rw [zip, ih]
    cases fs with
    | nil => simp [Frame.plug]
    | cons g gs =>
      rw [List.getLast?_cons_cons]
      rfl

/-- The nodes on a path are not in the subtree at the place. -/
theorem mem_around (hf : f ∈ fs) : f.elem ∈ before fs ∨ f.elem ∈ after fs := by
  induction fs with
  | nil => simp at hf
  | cons g gs ih =>
    rcases List.mem_cons.1 hf with rfl | hf
    · cases hs : f.side
      · right
        simp [after, hs]
      · left
        simp [before, hs]
    · rcases ih hf with h | h
      · left
        simp [before, h]
      · right
        simp [after, h]

/-! ### Balance -/

/-- The tree has a root of the given colour, no red node with a red child, and the given number of
black nodes on every way down. -/
inductive Balanced : Tree α → Color → ℕ → Prop where
  | nil : Balanced nil .black 0
  | red {l r : Tree α} {a : α} {n : ℕ} :
      Balanced l .black n → Balanced r .black n → Balanced (node .red l a r) .red n
  | black {l r : Tree α} {a : α} {c d : Color} {n : ℕ} :
      Balanced l c n → Balanced r d n → Balanced (node .black l a r) .black (n + 1)

theorem Balanced.color_eq (h : Balanced t c n) : t.color = c := by
  cases h <;> rfl

theorem Balanced.join_red (ht : Balanced t .black n) (hu : Balanced u .black n) :
    Balanced (join s .red t a u) .red n := by
  cases s
  · exact .red ht hu
  · exact .red hu ht

theorem Balanced.join_black (ht : Balanced t c n) (hu : Balanced u d n) :
    Balanced (join s .black t a u) .black (n + 1) := by
  cases s
  · exact .black ht hu
  · exact .black hu ht

theorem balanced_join_red :
    Balanced (join s .red t a u) c n ↔ c = .red ∧ Balanced t .black n ∧ Balanced u .black n := by
  constructor
  · intro h
    cases s <;> cases h with
    | red hl hr => first | exact ⟨rfl, hl, hr⟩ | exact ⟨rfl, hr, hl⟩
  · rintro ⟨rfl, ht, hu⟩
    exact ht.join_red hu

theorem balanced_join_black :
    Balanced (join s .black t a u) c n ↔
      c = .black ∧ ∃ m, n = m + 1 ∧ (∃ d, Balanced t d m) ∧ ∃ d, Balanced u d m := by
  constructor
  · intro h
    cases s <;> cases h with
    | black hl hr =>
      first
      | exact ⟨rfl, _, rfl, ⟨_, hl⟩, _, hr⟩
      | exact ⟨rfl, _, rfl, ⟨_, hr⟩, _, hl⟩
  · rintro ⟨rfl, m, rfl, ⟨d, ht⟩, d', hu⟩
    exact ht.join_black hu

theorem Balanced.paint_black (h : Balanced t .red n) :
    Balanced (t.paint .black) .black (n + 1) := by
  cases h with
  | red hl hr => exact .black hl hr

theorem Balanced.exists_paint (h : Balanced t c n) : ∃ m, Balanced (t.paint .black) .black m := by
  cases h with
  | nil => exact ⟨0, .nil⟩
  | red hl hr | black hl hr => exact ⟨_, .black hl hr⟩

/-- The place at the end of a path takes a balanced subtree with a root of the given colour and the
given number of black nodes. -/
def Accepts : Color → ℕ → List (Frame α) → Prop
  | c, _, [] => c = .black
  | c, n, f :: fs => match f.color with
      | .red => c = .black ∧ Balanced f.sibling .black n ∧ Accepts .red n fs
      | .black => (∃ d, Balanced f.sibling d n) ∧ Accepts .black (n + 1) fs

/-- The elements on a path do not matter. -/
theorem Accepts.change {gs : List (Frame α)} (h : Accepts c n (gs ++ ⟨s, d, a, u⟩ :: fs)) (b : α) :
    Accepts c n (gs ++ ⟨s, d, b, u⟩ :: fs) := by
  induction gs generalizing c n with
  | nil => cases d <;> exact h
  | cons g gs ih =>
    obtain ⟨s', e, x, v⟩ := g
    cases e
    · exact ⟨h.1, h.2.1, ih h.2.2⟩
    · exact ⟨h.1, ih h.2⟩

theorem Accepts.weaken (h : Accepts c n fs) : Accepts .black n fs := by
  cases fs with
  | nil => rfl
  | cons f fs =>
    obtain ⟨s, d, a, u⟩ := f
    cases d
    · exact ⟨rfl, h.2⟩
    · exact h

/-- Above a place that takes a red root there is a black node. -/
theorem Accepts.above (h : Accepts .red n fs) : ∃ s a u gs, fs = ⟨s, .black, a, u⟩ :: gs := by
  cases fs with
  | nil => simp [Accepts] at h
  | cons f fs =>
    obtain ⟨s, d, a, u⟩ := f
    cases d
    · exact absurd h.1 (by decide)
    · exact ⟨s, a, u, fs, rfl⟩

/-- A red node of a path is below a black one. -/
theorem Accepts.of_red {g : Frame α} (h : Accepts c n (f :: g :: fs)) (hf : f.color ≠ .black) :
    ∃ s a u s' b u' d, f = ⟨s, .red, a, u⟩ ∧ g = ⟨s', .black, b, u'⟩ ∧ Balanced u .black n ∧
      Balanced u' d n ∧ Accepts .black (n + 1) fs := by
  obtain ⟨s, e, a, u⟩ := f
  cases e
  · obtain ⟨-, hu, hup⟩ := h
    obtain ⟨s', b, u', gs, hgs⟩ := hup.above
    obtain ⟨rfl, rfl⟩ := List.cons.inj hgs
    obtain ⟨⟨d, hu'⟩, hup⟩ := hup
    exact ⟨s, a, u, s', b, u', d, rfl, rfl, hu, hu', hup⟩
  · exact absurd rfl hf

/-- A balanced subtree at a place that takes it makes a balanced tree. -/
theorem Balanced.zip (ht : Balanced t c n) (hfs : Accepts c n fs) :
    ∃ m, Balanced (zip t fs) .black m := by
  induction fs generalizing t c n with
  | nil =>
    obtain rfl : c = .black := hfs
    exact ⟨n, ht⟩
  | cons f fs ih =>
    obtain ⟨s, d, a, u⟩ := f
    cases d
    · obtain ⟨rfl, hu, hup⟩ := hfs
      exact ih (ht.join_red hu) hup
    · obtain ⟨⟨d, hu⟩, hup⟩ := hfs
      exact ih (ht.join_black hu) hup

/-- Every place of a balanced tree has a balanced subtree, and takes it. -/
theorem Balanced.unzip (h : Balanced (RedBlack.zip t fs) .black m) :
    ∃ c n, Balanced t c n ∧ Accepts c n fs := by
  induction fs generalizing t with
  | nil => exact ⟨_, m, h, rfl⟩
  | cons f fs ih =>
    obtain ⟨s, d, a, u⟩ := f
    obtain ⟨c, n, ht, hup⟩ := ih h
    cases d
    · obtain ⟨rfl, ht, hu⟩ := balanced_join_red.1 ht
      exact ⟨_, n, ht, rfl, hu, hup⟩
    · obtain ⟨rfl, n, rfl, ⟨c, ht⟩, hu⟩ := balanced_join_black.1 ht
      exact ⟨c, n, ht, hu, hup⟩

/-! ### Insertion -/

/-- The last repair of an insertion: the red node `t` under the red node `par` under `par2` is
turned into a black node over two red ones. -/
def insertRotate (t : Tree α) (par par2 : Frame α) : Tree α :=
  let s := par2.side
  if par.side = s then
    join s .black t par.elem (join s .red par.sibling par2.elem par2.sibling)
  else
    match t with
    | .nil => .nil
    | .node _ l a r =>
      let t := Tree.node .red l a r
      join s .black (join s .red par.sibling par.elem (t.child s)) a
        (join s .red (t.child s.other) par2.elem par2.sibling)

/-- The repair after a red node was put at a place. -/
def insertFix : Tree α → List (Frame α) → Tree α
  | t, par :: par2 :: up =>
    if par.color = .black then zip t (par :: par2 :: up)
    else if par2.sibling.color = .red then
      insertFix (join par2.side .red (join par.side .black t par.elem par.sibling) par2.elem
        (par2.sibling.paint .black)) up
    else zip (insertRotate t par par2) up
  | t, [par] => zip t [par]
  | t, [] => t

theorem insertRotate_line {c' : Color} :
    insertRotate t ⟨s, c, p, u⟩ ⟨s, c', p', u'⟩ = join s .black t p (join s .red u p' u') := by
  simp [insertRotate]

theorem insertRotate_bend {c' : Color} {t1 t2 : Tree α} :
    insertRotate (join s d t1 a t2) ⟨s.other, c, p, u⟩ ⟨s, c', p', u'⟩ =
      join s .black (join s .red u p t1) a (join s .red t2 p' u') := by
  cases s <;> simp [insertRotate, join, child, Side.other]

theorem toList_insertRotate (ht : t ≠ nil) (par par2 : Frame α) :
    (insertRotate t par par2).toList = (par2.plug (par.plug t)).toList := by
  obtain ⟨s, c, p, u⟩ := par
  obtain ⟨s', c', p', u'⟩ := par2
  cases t with
  | nil => exact absurd rfl ht
  | node d l a r =>
    cases s <;> cases s' <;>
      simp [insertRotate, Frame.plug, join, toList, child, Side.other]

/-- **The repair after an insertion keeps the order.** -/
theorem toList_insertFix (ht : t ≠ nil) (fs : List (Frame α)) :
    (insertFix t fs).toList = (zip t fs).toList := by
  induction t, fs using insertFix.induct with
  | case1 t par par2 up hpar => rw [insertFix, if_pos hpar]
  | case2 t par par2 up hpar hy ih =>
    rw [insertFix, if_neg hpar, if_pos hy, ih (join_ne_nil _ _ _ _ _)]
    refine toList_zip_congr ?_ up
    cases hs : par.side <;> cases hs' : par2.side <;> simp [Frame.plug, join, toList, hs, hs']
  | case3 t par par2 up hpar hy =>
    rw [insertFix, if_neg hpar, if_neg hy]
    exact toList_zip_congr (toList_insertRotate ht par par2) up
  | case4 => rfl
  | case5 => rfl

theorem balanced_insertRotate {s' : Side} (ht : Balanced t .red n) (hu : Balanced u .black n)
    (hu' : Balanced u' .black n) :
    Balanced (insertRotate t ⟨s, .red, p, u⟩ ⟨s', .black, p', u'⟩) .black (n + 1) := by
  unfold insertRotate
  by_cases hs : s = s'
  · simp only [hs, if_true]
    exact ht.join_black (hu.join_red hu')
  simp only [if_neg hs]
  cases ht with
  | red hl hr =>
    cases s'
    · exact (hu.join_red hl).join_black (hr.join_red hu')
    · exact (hu.join_red hr).join_black (hl.join_red hu')

/-- **The repair after an insertion balances the tree.** -/
theorem balanced_insertFix (ht : Balanced t .red n) (hfs : Accepts .black n fs) :
    ∃ m, Balanced ((insertFix t fs).paint .black) .black m := by
  induction t, fs using insertFix.induct generalizing n with
  | case1 t par par2 up hpar =>
    obtain ⟨s, c, a, u⟩ := par
    obtain rfl : c = .black := hpar
    have hred : Accepts .red n (⟨s, .black, a, u⟩ :: par2 :: up) := hfs
    obtain ⟨m, hm⟩ := ht.zip hred
    exact hm.exists_paint
  | case2 t par par2 up hpar hy ih =>
    rw [insertFix, if_neg hpar, if_pos hy]
    obtain ⟨s, a, u, s', b, u', d, rfl, rfl, hu, hu', hup⟩ := hfs.of_red hpar
    obtain rfl : d = .red := by
      rw [← hu'.color_eq]
      exact hy
    exact ih ((ht.join_black hu).join_red hu'.paint_black) hup
  | case3 t par par2 up hpar hy =>
    rw [insertFix, if_neg hpar, if_neg hy]
    obtain ⟨s, a, u, s', b, u', d, rfl, rfl, hu, hu', hup⟩ := hfs.of_red hpar
    obtain rfl : d = .black := by
      have hy' : u'.color ≠ .red := hy
      rw [hu'.color_eq] at hy'
      cases d <;> simp_all
    have hrot : Balanced (insertRotate t ⟨s, .red, a, u⟩ ⟨s', .black, b, u'⟩) .black (n + 1) :=
      balanced_insertRotate ht hu hu'
    obtain ⟨m, hm⟩ := hrot.zip hup
    exact hm.exists_paint
  | case4 t par =>
    obtain ⟨s, c, a, u⟩ := par
    cases c
    · exact absurd hfs.2.2 (by simp [Accepts])
    · have hred : Accepts .red n [⟨s, .black, a, u⟩] := hfs
      obtain ⟨m, hm⟩ := ht.zip hred
      exact hm.exists_paint
  | case5 t => exact ht.exists_paint

/-! ### Deletion -/

/-- The last repair of a deletion: the sibling of `x` has a red child, and the node over `x` comes
down on its side as a black one. -/
def deleteRotate (x : Tree α) (par : Frame α) : Tree α :=
  let s := par.side
  match par.sibling with
  | .nil => .nil
  | .node _ l w r =>
    let near := (Tree.node .black l w r).child s
    let far := (Tree.node .black l w r).child s.other
    if far.color = .black then
      match near with
      | .nil => .nil
      | .node _ l' b r' =>
        let t := Tree.node .black l' b r'
        join s par.color (join s .black x par.elem (t.child s)) b
          (join s .black (t.child s.other) w far)
    else
      join s par.color (join s .black x par.elem near) w (far.paint .black)

/-- Both children of the root are black. -/
def blackChildren (t : Tree α) : Prop :=
  (t.child .left).color = .black ∧ (t.child .right).color = .black

instance (t : Tree α) : Decidable (blackChildren t) := by
  unfold blackChildren
  infer_instance

/-- The node over `x` and the one over that, after a red sibling was rotated up. -/
def siblingUp (par : Frame α) : Frame α × Option (Frame α) :=
  match par.sibling with
  | .node .red l w r =>
    let t := Tree.node .red l w r
    (⟨par.side, .red, par.elem, t.child par.side⟩,
      some ⟨par.side, .black, w, t.child par.side.other⟩)
  | _ => (par, none)

/-- The repair after a black node was taken away above `x`. -/
def deleteFix : Tree α → List (Frame α) → Tree α
  | x, [] => x.paint .black
  | x, par :: up =>
    if x.color = .red then zip (x.paint .black) (par :: up)
    else
      match siblingUp par with
      | (par', some w) =>
        if blackChildren par'.sibling then
          zip (({ par' with sibling := par'.sibling.paint .red } : Frame α).plug x
            |>.paint .black) (w :: up)
        else (zip (deleteRotate x par') (w :: up)).paint .black
      | (_, none) =>
        if blackChildren par.sibling then
          deleteFix (({ par with sibling := par.sibling.paint .red } : Frame α).plug x) up
        else (zip (deleteRotate x par) up).paint .black

/-- What a node of a colour adds to the number of black nodes on a way down. -/
def Color.weight : Color → ℕ
  | .red => 0
  | .black => 1

theorem Balanced.join_weight (ht : Balanced t .black n) (hu : Balanced u .black n) :
    Balanced (join s c t a u) c (n + c.weight) := by
  cases c
  · exact ht.join_red hu
  · exact ht.join_black hu

theorem Accepts.up (h : Accepts c n (f :: fs)) : Accepts f.color (n + f.color.weight) fs := by
  obtain ⟨s, d, a, u⟩ := f
  cases d
  · exact h.2.2
  · exact h.2

/-- What is left at a place if a node is replaced by one of its children. -/
theorem Accepts.take_away {e : Color} (hfs : Accepts e n fs) (h : Balanced (join s c t a u) e n) :
    ∃ d k, Balanced t d k ∧ Accepts .black (k + c.weight) fs ∧ (c = .red → d = .black) := by
  cases c
  · obtain ⟨rfl, ht, -⟩ := balanced_join_red.1 h
    exact ⟨_, _, ht, hfs.weaken, fun _ => rfl⟩
  · obtain ⟨rfl, m, rfl, ⟨d, ht⟩, -⟩ := balanced_join_black.1 h
    exact ⟨d, m, ht, hfs, fun h => by cases h⟩

/-- At a place that takes a black root the sibling is balanced, and black under a red node. -/
theorem Accepts.sibling (h : Accepts c n (f :: fs)) :
    ∃ d, Balanced f.sibling d n ∧ (f.color = .red → d = .black) := by
  obtain ⟨s, d, a, u⟩ := f
  cases d
  · exact ⟨_, h.2.1, fun _ => rfl⟩
  · obtain ⟨⟨d, hu⟩, -⟩ := h
    exact ⟨d, hu, fun hd => by cases hd⟩

theorem Balanced.of_color_black (h : Balanced t c n) (hc : t.color = .black) :
    Balanced t .black n := by
  rw [h.color_eq] at hc
  rwa [hc] at h

theorem Balanced.of_color_red (h : Balanced t c n) (hc : t.color ≠ .black) : Balanced t .red n := by
  rw [h.color_eq] at hc
  cases c
  · exact h
  · exact absurd rfl hc

/-- A black sibling with black nodes below is a node. -/
theorem Balanced.exists_join (s : Side) (h : Balanced t .black (n + 1)) :
    ∃ a u v, t = join s .black u a v ∧ (∃ d, Balanced u d n) ∧ ∃ d, Balanced v d n := by
  cases h with
  | @black l r a c d _ hl hr =>
    cases s
    · exact ⟨a, l, r, rfl, ⟨_, hl⟩, _, hr⟩
    · exact ⟨a, r, l, rfl, ⟨_, hr⟩, _, hl⟩

/-- A red tree is a node with black children. -/
theorem Balanced.exists_join_red (s : Side) (h : Balanced t .red n) :
    ∃ a u v, t = join s .red u a v ∧ Balanced u .black n ∧ Balanced v .black n := by
  cases h with
  | @red l r a _ hl hr =>
    cases s
    · exact ⟨a, l, r, rfl, hl, hr⟩
    · exact ⟨a, r, l, rfl, hr, hl⟩

theorem blackChildren_join :
    blackChildren (join s c t a u) ↔ t.color = .black ∧ u.color = .black := by
  cases s
  · exact Iff.rfl
  · exact and_comm

theorem deleteRotate_far (hv : v.color ≠ .black) :
    deleteRotate x ⟨s, c, p, join s .black u w v⟩ =
      join s c (join s .black x p u) w (v.paint .black) := by
  cases s <;> simp [deleteRotate, join, child, Side.other, hv]

theorem deleteRotate_near {u1 u2 : Tree α} {b : α} (hv : v.color = .black) :
    deleteRotate x ⟨s, c, p, join s .black (join s .red u1 b u2) w v⟩ =
      join s c (join s .black x p u1) b (join s .black u2 w v) := by
  cases s <;> simp [deleteRotate, join, child, Side.other, hv]

section

variable (par : Frame α) (hx : Balanced x .black n) (hw : Balanced par.sibling .black (n + 1))
include hx hw

/-- The rotation gives the place the black node it has lost. -/
theorem deleteRotate_spec (hred : ¬ blackChildren par.sibling) :
    Balanced (deleteRotate x par) par.color (n + 1 + par.color.weight) ∧
      (deleteRotate x par).toList = (par.plug x).toList := by
  obtain ⟨s, c, p, w⟩ := par
  obtain ⟨w, u, v, rfl, ⟨d, hu⟩, d', hv⟩ := hw.exists_join s
  rw [blackChildren_join] at hred
  by_cases hfar : v.color = .black
  · have hv := hv.of_color_black hfar
    have hnear : u.color ≠ .black := fun h => hred ⟨h, hfar⟩
    obtain ⟨b, u1, u2, rfl, hu1, hu2⟩ := (hu.of_color_red hnear).exists_join_red s
    rw [deleteRotate_near hfar]
    refine ⟨(hx.join_black hu1).join_weight (hu2.join_black hv), ?_⟩
    cases s <;> simp [Frame.plug, join, toList]
  · rw [deleteRotate_far hfar]
    have hv := (hv.of_color_red hfar).paint_black
    refine ⟨(hx.join_black hu).join_weight hv, ?_⟩
    cases s <;> simp [Frame.plug, join, toList]

/-- A sibling with black children gives up its blackness. -/
theorem plug_paint_spec (hblack : blackChildren par.sibling) (c : Color) :
    Balanced (join par.side .black x par.elem (par.sibling.paint .red)) .black (n + 1) ∧
      (join par.side c x par.elem (par.sibling.paint .red)).toList = (par.plug x).toList := by
  obtain ⟨s, d, p, w⟩ := par
  obtain ⟨w, u, v, rfl, ⟨_, hu⟩, _, hv⟩ := hw.exists_join s
  rw [blackChildren_join] at hblack
  have hu := hu.of_color_black hblack.1
  have hv := hv.of_color_black hblack.2
  refine ⟨?_, ?_⟩
  · rw [paint_join]
    exact hx.join_black (hu.join_red hv)
  · cases s <;> simp [Frame.plug, join, toList]

end

theorem siblingUp_red :
    siblingUp ⟨s, c, p, join s .red u w v⟩ = (⟨s, .red, p, u⟩, some ⟨s, .black, w, v⟩) := by
  cases s <;> rfl

theorem siblingUp_black {par : Frame α} (h : par.sibling.color = .black) :
    siblingUp par = (par, none) := by
  obtain ⟨s, c, p, w⟩ := par
  cases w with
  | nil => rfl
  | node d l a r =>
    obtain rfl : d = .black := h
    rfl

theorem deleteFix_of_red (hx : x.color = .red) (fs : List (Frame α)) :
    deleteFix x fs = zip (x.paint .black) fs := by
  cases fs with
  | nil => rfl
  | cons par up => rw [deleteFix, if_pos hx]

/-- **The repair after a deletion** balances the tree and keeps the order. -/
theorem deleteFix_spec (hx : Balanced x c n) (hfs : Accepts .black (n + 1) fs) :
    (∃ m, Balanced (deleteFix x fs) .black m) ∧ (deleteFix x fs).toList = (zip x fs).toList := by
  induction fs generalizing x c n with
  | nil => exact ⟨hx.exists_paint, toList_paint _ _⟩
  | cons par up ih =>
    rw [deleteFix]
    by_cases hred : x.color = .red
    · rw [if_pos hred]
      have hx := (hx.of_color_red (by rw [hred]; decide)).paint_black
      exact ⟨hx.zip hfs, toList_zip_congr (toList_paint _ _) _⟩
    rw [if_neg hred]
    have hx : Balanced x .black n := hx.of_color_black (by cases hc : x.color <;> simp_all)
    obtain ⟨d, hw, hcolor⟩ := hfs.sibling
    cases d with
    | black =>
      rw [siblingUp_black hw.color_eq]
      have hup := hfs.up
      obtain ⟨s, e, p, w⟩ := par
      by_cases hblack : blackChildren w
      · simp only [if_pos hblack]
        obtain ⟨hbal, hlist⟩ := plug_paint_spec ⟨s, e, p, w⟩ hx hw hblack e
        cases e with
        | red =>
          -- the red node over the place becomes black, which ends the repair
          have hfocus : ((⟨s, .red, p, w.paint .red⟩ : Frame α).plug x).color = .red :=
            color_join _ _ _ _ _
          rw [deleteFix_of_red hfocus]
          refine ⟨?_, toList_zip_congr ((toList_paint _ _).trans hlist) up⟩
          rw [Frame.plug, paint_join]
          exact hbal.zip hup.weaken
        | black =>
          -- the tree under that node lacks a black node now
          obtain ⟨hres, hlist'⟩ := ih hbal hup
          exact ⟨hres, hlist'.trans (toList_zip_congr hlist up)⟩
      · simp only [if_neg hblack]
        obtain ⟨hbal, hlist⟩ := deleteRotate_spec ⟨s, e, p, w⟩ hx hw hblack
        obtain ⟨m, hm⟩ := hbal.zip hup
        exact ⟨hm.exists_paint, (toList_paint _ _).trans (toList_zip_congr hlist _)⟩
    | red =>
      -- the sibling is rotated up, and the place has a black sibling under a red node
      obtain ⟨s, e, p, w⟩ := par
      obtain rfl : e = .black := by
        cases e
        · exact absurd (hcolor rfl) (by decide)
        · rfl
      obtain ⟨w, u, v, rfl, hu, hv⟩ := Balanced.exists_join_red s hw
      have hup : Accepts .red (n + 1) (⟨s, .black, w, v⟩ :: up) := ⟨⟨_, hv⟩, hfs.2⟩
      have hlist : ((⟨s, .black, w, v⟩ : Frame α).plug ((⟨s, .red, p, u⟩ : Frame α).plug x)).toList
          = ((⟨s, .black, p, join s .red u w v⟩ : Frame α).plug x).toList := by
        cases s <;> simp [Frame.plug, join, toList]
      rw [siblingUp_red]
      by_cases hblack : blackChildren u
      · simp only [if_pos hblack]
        obtain ⟨hbal, hlist'⟩ := plug_paint_spec ⟨s, .red, p, u⟩ hx hu hblack .red
        refine ⟨?_, ?_⟩
        · rw [Frame.plug, paint_join]
          exact hbal.zip hup.weaken
        · refine (toList_zip_congr ((toList_paint _ _).trans hlist') _).trans ?_
          exact toList_zip_congr hlist up
      · simp only [if_neg hblack]
        obtain ⟨hbal, hlist'⟩ := deleteRotate_spec ⟨s, .red, p, u⟩ hx hu hblack
        obtain ⟨m, hm⟩ := hbal.zip hup
        refine ⟨hm.exists_paint, (toList_paint _ _).trans ?_⟩
        exact (toList_zip_congr hlist' _).trans (toList_zip_congr hlist up)

/-! ### Height -/

/-- A balanced tree has many elements. -/
theorem two_pow_le (h : Balanced t c n) : 2 ^ n ≤ t.toList.length + 1 := by
  induction h with
  | nil => simp [toList]
  | red _ _ ihl ihr =>
    simp only [toList, List.length_append, List.length_cons]
    omega
  | black _ _ ihl ihr =>
    simp only [toList, List.length_append, List.length_cons, pow_succ]
    omega

theorem Balanced.unique (h : Balanced t c n) (h' : Balanced t d m) : n = m := by
  induction h generalizing d m with
  | nil =>
    cases h'
    rfl
  | red _ _ ihl _ =>
    cases h' with
    | red hl _ => exact ihl hl
  | black _ _ ihl _ =>
    cases h' with
    | black hl _ => rw [ihl hl]

/-- A path to a place that takes `n` black nodes, in a tree with `m` of them on every way. -/
theorem length_le_of_accepts (ht : Balanced t c n) (hfs : Accepts c n fs)
    (hm : Balanced (zip t fs) .black m) : fs.length + 2 * n + 1 ≤ 2 * m + c.weight := by
  induction fs generalizing t c n with
  | nil =>
    obtain rfl : c = .black := hfs
    obtain rfl := ht.unique hm
    simp [Color.weight]
  | cons f fs ih =>
    obtain ⟨s, d, a, u⟩ := f
    cases d
    · obtain ⟨rfl, hu, hup⟩ := hfs
      have := ih (ht.join_red hu) hup hm
      simp only [Color.weight, List.length_cons] at this ⊢
      omega
    · obtain ⟨⟨d, hu⟩, hup⟩ := hfs
      have := ih (ht.join_black hu) hup hm
      simp only [Color.weight, List.length_cons] at this ⊢
      omega

/-- **A path is short**: at most twice as long as the logarithm of the number of elements. -/
theorem length_le_of_balanced {k : ℕ} (h : Balanced (zip t fs) .black m)
    (hk : (zip t fs).toList.length + 1 < 2 ^ (k + 1)) : fs.length ≤ 2 * k := by
  obtain ⟨c, n, ht, hfs⟩ := Balanced.unzip h
  have hlen := length_le_of_accepts ht hfs h
  have hpow : 2 ^ m < 2 ^ (k + 1) := lt_of_le_of_lt (two_pow_le h) hk
  have hmk : m < k + 1 := (Nat.pow_lt_pow_iff_right (by decide)).1 hpow
  have hc : c.weight ≤ 1 := by cases c <;> decide
  omega

end RedBlack
