/-
**Finding a place in a search tree, and walking on from it.**

A comparison with what is looked for gives each element a sign.  If the signs grow from left to
right, as for a key in a tree that is ordered by the keys, the way down ends at an equal element or
at the one empty place where the signs change.  The next element after an empty place is the nearest
one on the way up where the way went to the other side; the place behind that element is reached by
going down again, always to the same side.

Main definitions:

* `Cut`: the signs of a comparison grow along a list;
* `locate`: the way down;
* `nearest`: the nearest node on the way up where the way went to a given side;
* `descend`: the way down on one side;
* `ahead`: the elements beyond a place, in the order in which a walk meets them.

Main results:

* `zip_locate`, `locate_found`, `locate_sides`: where the way down ends;
* `ahead_nearest`, `ahead_descend`: **the walk** meets the elements in order.
-/

import MariaDb.RedBlack

set_option autoImplicit false

namespace RedBlack

open RedBlack.Tree List

variable {α : Type*} {s : Side} {cmp : α → ℤ} {t u : Tree α} {fs : List (Frame α)} {a : α}

/-! ### The way down -/

/-- The signs of a comparison grow along a list. -/
def Cut (cmp : α → ℤ) (l : List α) : Prop :=
  l.Pairwise fun x y => (cmp y < 0 → cmp x < 0) ∧ (0 < cmp x → 0 < cmp y)

/-- The way down to an equal element, or to an empty place. -/
def locate (cmp : α → ℤ) : Tree α → List (Frame α) → Tree α × List (Frame α)
  | .nil, fs => (.nil, fs)
  | .node c l a r, fs =>
    if cmp a = 0 then (.node c l a r, fs)
    else if cmp a < 0 then locate cmp r (⟨.right, c, a, l⟩ :: fs)
    else locate cmp l (⟨.left, c, a, r⟩ :: fs)

theorem locate_step {c : Color} {l r : Tree α} {s : Side} (hne : cmp a ≠ 0)
    (hs : s = if cmp a < 0 then .right else .left) (fs : List (Frame α)) :
    locate cmp (node c l a r) fs = locate cmp ((node c l a r).child s)
      (⟨s, c, a, (node c l a r).child s.other⟩ :: fs) := by
  rw [locate, if_neg hne, hs]
  split <;> rfl

section

variable (cmp t fs)

theorem zip_locate : zip (locate cmp t fs).1 (locate cmp t fs).2 = zip t fs := by
  induction t generalizing fs with
  | nil => rfl
  | node c l a r ihl ihr =>
    rw [locate]
    split
    · rfl
    · split
      · exact ihr _
      · exact ihl _

theorem length_le_locate : fs.length ≤ (locate cmp t fs).2.length := by
  induction t generalizing fs with
  | nil => exact le_rfl
  | node c l a r ihl ihr =>
    rw [locate]
    split
    · exact le_rfl
    · split
      · exact (Nat.le_succ _).trans (ihr (⟨.right, c, a, l⟩ :: fs))
      · exact (Nat.le_succ _).trans (ihl (⟨.left, c, a, r⟩ :: fs))

/-- The way down ends at an empty place or at an equal element. -/
theorem locate_found :
    (locate cmp t fs).1 = .nil ∨ ∃ a, (locate cmp t fs).1.root = some a ∧ cmp a = 0 := by
  induction t generalizing fs with
  | nil => exact .inl rfl
  | node c l a r ihl ihr =>
    rw [locate]
    split
    · next h => exact .inr ⟨a, rfl, h⟩
    · split
      · exact ihr _
      · exact ihl _

end

/-- The elements to both sides of the place are those that are smaller and greater. -/
theorem locate_sides (hcut : Cut cmp (zip t fs).toList) (hbefore : ∀ x ∈ before fs, cmp x < 0)
    (hafter : ∀ x ∈ after fs, 0 < cmp x) :
    (∀ x ∈ before (locate cmp t fs).2, cmp x < 0) ∧ ∀ x ∈ after (locate cmp t fs).2, 0 < cmp x := by
  induction t generalizing fs with
  | nil => exact ⟨hbefore, hafter⟩
  | node c l a r ihl ihr =>
    have hlist := toList_zip (node c l a r) fs
    rw [locate]
    split
    · exact ⟨hbefore, hafter⟩
    next hne =>
      have hcut' := hcut
      rw [hlist, Cut, toList, pairwise_append, pairwise_append,
        pairwise_append, pairwise_cons] at hcut
      obtain ⟨⟨-, ⟨-, ⟨har, -⟩, hla⟩, -⟩, -⟩ := hcut
      split
      · next hlt =>
          refine ihr hcut' ?_ hafter
          intro x hx
          simp only [before, mem_append, mem_singleton] at hx
          rcases hx with hx | hx | rfl
          · exact hbefore x hx
          · exact (hla x hx a (by simp)).1 hlt
          · exact hlt
      · next hge =>
          refine ihl hcut' (by simpa [before] using hbefore) ?_
          intro x hx
          simp only [after, cons_append, mem_cons, mem_append] at hx
          rcases hx with rfl | hx | hx
          · omega
          · exact (har x hx).2 (by omega)
          · exact hafter x hx

/-! ### The walk -/

/-- The elements of a tree, from the given side. -/
def Tree.listFrom (s : Side) (t : Tree α) : List α :=
  match s with
  | .left => t.toList
  | .right => t.toList.reverse

/-- The path up to the nearest node where the way went to the side `s`. -/
def nearest (s : Side) : List (Frame α) → List (Frame α)
  | [] => []
  | f :: fs => if f.side = s then f :: fs else nearest s fs

/-- The way down to the empty place at the end of a tree on the side `s`. -/
def descend (s : Side) : Tree α → List (Frame α) → List (Frame α)
  | .nil, fs => fs
  | .node c l a r, fs => match s with
      | .left => descend s l (⟨.left, c, a, r⟩ :: fs)
      | .right => descend s r (⟨.right, c, a, l⟩ :: fs)

/-- The elements beyond a place, seen by a walk that starts on the side `s`. -/
def ahead (s : Side) : List (Frame α) → List α
  | [] => []
  | f :: fs => (if f.side = s then f.elem :: f.sibling.listFrom s else []) ++ ahead s fs

variable (s t fs)

theorem ahead_left : ahead .left fs = after fs := by
  induction fs with
  | nil => rfl
  | cons f fs ih =>
    rw [ahead, after, ih]
    cases f.side <;> rfl

theorem ahead_right : ahead .right fs = (before fs).reverse := by
  induction fs with
  | nil => rfl
  | cons f fs ih =>
    rw [ahead, before, ih, reverse_append]
    cases f.side <;> simp [Tree.listFrom]

theorem descend_join (c : Color) (a : α) (u : Tree α) :
    descend s (join s c t a u) fs = descend s t (⟨s, c, a, u⟩ :: fs) := by
  cases s <;> rfl

theorem zip_descend : zip .nil (descend s t fs) = zip t fs := by
  induction t generalizing fs with
  | nil => rfl
  | node c l a r ihl ihr =>
    cases s
    · exact ihl _
    · exact ihr _

theorem length_le_descend : fs.length ≤ (descend s t fs).length := by
  induction t generalizing fs with
  | nil => exact le_rfl
  | node c l a r ihl ihr =>
    cases s
    · exact (Nat.le_succ _).trans (ihl (⟨.left, c, a, r⟩ :: fs))
    · exact (Nat.le_succ _).trans (ihr (⟨.right, c, a, l⟩ :: fs))

/-- The last step of a way down on the side `s` goes to that side. -/
theorem nearest_descend {t : Tree α} (ht : t ≠ .nil) (fs : List (Frame α)) :
    nearest s (descend s t fs) = descend s t fs := by
  induction t generalizing fs with
  | nil => exact absurd rfl ht
  | node c l a r ihl ihr =>
    cases s
    · by_cases hl : l = .nil
      · rw [hl]
        simp [descend, nearest]
      · exact ihl hl _
    · by_cases hr : r = .nil
      · rw [hr]
        simp [descend, nearest]
      · exact ihr hr _

/-- Behind a subtree come its elements and then those beyond its place. -/
theorem ahead_descend : ahead s (descend s t fs) = t.listFrom s ++ ahead s fs := by
  induction t generalizing fs with
  | nil => cases s <;> rfl
  | node c l a r ihl ihr =>
    cases s
    · rw [descend, ihl]
      simp [ahead, Tree.listFrom, toList]
    · rw [descend, ihr]
      simp [ahead, Tree.listFrom, toList]

/-- The next element is the nearest one on the way up where the way went to the side `s`. -/
theorem ahead_nearest :
    (nearest s fs = [] ∧ ahead s fs = []) ∨
      ∃ f gs, nearest s fs = f :: gs ∧ f.side = s ∧
        ahead s fs = f.elem :: (f.sibling.listFrom s ++ ahead s gs) ∧
        ∀ t, ∃ u, zip t fs = zip u (f :: gs) := by
  induction fs with
  | nil => exact .inl ⟨rfl, rfl⟩
  | cons f fs ih =>
    by_cases hs : f.side = s
    · refine .inr ⟨f, fs, by rw [nearest, if_pos hs], hs, ?_, fun t => ⟨t, rfl⟩⟩
      rw [ahead, if_pos hs, cons_append]
    rw [nearest, if_neg hs, ahead, if_neg hs, nil_append]
    rcases ih with h | ⟨g, gs, h1, h2, h3, h4⟩
    · exact .inl h
    · exact .inr ⟨g, gs, h1, h2, h3, fun t => h4 (f.plug t)⟩

end RedBlack
