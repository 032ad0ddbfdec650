/-
**Searches in the trees of mysys.**

`tree_search_key` looks for a key in a tree, where a block of elements may count as equal to it, and
`tree_search_next` goes on from the element found, forwards or backwards.  The way down ends at the
empty place before or after the equal elements; the two elements around that place are the nearest
ones on the way where it went to the left and to the right, and the first (or last) equal element is
one of them.

Main definitions:

* `required`: the element that a flag asks for;
* `enumerate`: repeated calls of `tree_search_next`.

Main results:

* `treeSearchKey_spec`: **the search finds the element that the flag asks for**.
-/

import MariaDb.MyTreeFixup
import MariaDb.TreePlaces

set_option autoImplicit false

namespace MyTree

open RedBlack RedBlack.Tree
open List hiding zip after

variable {heap : Heap} {t u : RedBlack.Tree ℕ} {fs : List (Frame ℕ)}

/-! ### The walk and the test -/

variable {fuel a : ℕ} {c : Color} {l : List ℕ} {d : ℤ}

/-- `tree_walk` meets the elements in order. -/
theorem treeWalk_spec (ht : Shape heap t) (hfuel : t.toList.length ≤ fuel) :
    treeWalk heap fuel t.root = some t.toList := by
  have heq : ∀ x, treeWalk heap fuel x = heap.inorder fuel x := by
    clear hfuel
    induction fuel with
    | zero => rintro (_ | x) <;> rfl
    | succ fuel ih => rintro (_ | x) <;> simp only [treeWalk, Heap.inorder, ih]
  rw [heq, ht.inorder hfuel]

/-- `test_rb_tree` finds no error in a balanced tree. -/
theorem testRbTree_spec {n : ℕ} (ht : Shape heap t) (hbal : Balanced t c n)
    (hfuel : t.toList.length ≤ fuel) : testRbTree heap fuel t.root = some (n : ℤ) := by
  induction t generalizing fuel c n with
  | nil =>
    cases hbal
    cases fuel <;> rfl
  | node _ l a r ihl ihr =>
    obtain ⟨hll, hlr, hc, hsl, hsr⟩ := ht
    simp only [toList, length_append, length_cons] at hfuel
    obtain _ | fuel := fuel
    · omega
    have hlel : l.toList.length ≤ fuel := by omega
    have hler : r.toList.length ≤ fuel := by omega
    cases hbal with
    | red hl hr =>
      simp [testRbTree, hll, hlr, hc, hsl.colorOf, hsr.colorOf, hl.color_eq, hr.color_eq,
        ihl hsl hl hlel, ihr hsr hr hler]
    | black hl hr => simp [testRbTree, hll, hlr, hc, ihl hsl hl hlel, ihr hsr hr hler]

/-! ### Going on -/

/-- The position of a node in the array of a search: the elements on the way to it. -/
def position (fs : List (Frame ℕ)) : List ℕ := fs.map Frame.elem

/-- The way down on one side ends at the last element there. -/
theorem edgeLoop_spec (s : Side) (hr : Represents heap (zip t fs)) {room : ℕ}
    (hroom : (descend s t fs).length ≤ room + fs.length) :
    edgeLoop s heap room (position fs) t.root = some (position (descend s t fs)) := by
  induction room generalizing t fs with
  | zero =>
    rcases eq_nil_or_join s t with rfl | ⟨a, ha⟩
    · rfl
    rw [ha, descend_join] at hroom
    have := length_le_descend s (t.child s) (⟨s, t.color, a, t.child s.other⟩ :: fs)
    simp only [length_cons] at this
    omega
  | succ room ih =>
    rcases eq_nil_or_join s t with rfl | ⟨a, ha⟩
    · rfl
    rw [ha] at hr ⊢
    rw [ha, descend_join] at hroom
    rw [descend_join, root_join]
    have hr1 : Represents heap (zip (t.child s) (⟨s, t.color, a, t.child s.other⟩ :: fs)) := hr
    rw [edgeLoop, hr.join_eq.1]
    exact ih hr1 (by simp only [length_cons]; omega)

/-- The way up ends at the nearest node where the way down went to the other side. -/
theorem climb_spec (s : Side) (hr : Represents heap (zip t fs)) (ht : t.root = some a) :
    climb s.other heap a (position fs) = position (nearest s fs) := by
  induction fs generalizing t a with
  | nil => rfl
  | cons f fs ih =>
    have hne : t ≠ .nil := by
      rintro rfl
      simp [Tree.root] at ht
    have hside := hr.side_iff (s := s.other) (.inl hne)
    rw [ht] at hside
    have hpos : position (f :: fs) = f.elem :: position fs := rfl
    rw [hpos, climb, nearest]
    by_cases hs : f.side = s
    · rw [if_neg (by rw [hside, hs]; exact s.other_ne), if_pos hs]
      rfl
    · rw [if_pos (by rw [hside, Side.eq_other_of_ne hs]), if_neg hs]
      have hr1 : Represents heap (zip (f.plug t) fs) := hr
      exact ih hr1 (root_join _ _ _ _ _)

/-- **`tree_search_next`** goes from an element to the one nearest to the place behind it. -/
theorem treeSearchNext_spec (s : Side) (hr : Represents heap (zip (join s c t a u) fs))
    (hroom : (descend s u (⟨s.other, c, a, t⟩ :: fs)).length ≤ maxTreeHeight) :
    treeSearchNext s s.other heap (a :: position fs) =
      some (position (nearest s (descend s u (⟨s.other, c, a, t⟩ :: fs)))) := by
  have hlink : heap.link (.child s.other a) = u.root := hr.join_eq.2.1
  rw [treeSearchNext, hlink]
  have hr1 := hr
  rw [zip_other] at hr1
  rcases eq_nil_or_join s u with rfl | ⟨b, hb⟩
  · -- nothing on that side: up
    simp only [Tree.root, descend, nearest]
    rw [if_neg s.other_ne, climb_spec s hr (root_join _ _ _ _ _)]
  have hroom' : (descend s u (⟨s.other, c, a, t⟩ :: fs)).length ≤
      maxTreeHeight - (fs.length + 1) + (fs.length + 1) := by omega
  have hedge := edgeLoop_spec s hr1 hroom'
  have hroot : u.root = some b := by rw [hb, root_join]
  have hpos : position (⟨s.other, c, a, t⟩ :: fs) = a :: position fs := rfl
  rw [hroot, hpos] at hedge
  have hlength : (position fs).length = fs.length := length_map _
  simp only [hroot, hlength]
  rw [hedge, nearest_descend s (by rw [hb]; exact join_ne_nil _ _ _ _ _)]

/-- No way down in the tree is longer than the arrays for it. -/
def Low (t : RedBlack.Tree ℕ) : Prop := ∀ fs, zip .nil fs = t → fs.length ≤ maxTreeHeight

/-- Repeated calls of `tree_search_next` from a position, up to the last one, which returns `NULL`:
the elements found, with the one at the position first. -/
def enumerate (s : Side) (heap : Heap) : ℕ → List ℕ → Option (List ℕ)
  | 0, _ => none
  | _ + 1, [] => some []
  | fuel + 1, a :: pos =>
    (treeSearchNext s s.other heap (a :: pos)).bind fun next =>
      (enumerate s heap fuel next).map (a :: ·)

section

variable (s : Side) (hr : Represents heap t) (hlow : Low t)
include hr hlow

theorem next_place {l : RedBlack.Tree ℕ} (hwhole : zip (join s c l a u) fs = t) :
    ∃ gs, zip .nil gs = t ∧ ahead s gs = u.listFrom s ++ ahead s fs ∧
      treeSearchNext s s.other heap (a :: position fs) = some (position (nearest s gs)) := by
  have hdesc : zip .nil (descend s u (⟨s.other, c, a, l⟩ :: fs)) = t := by
    rw [zip_descend, ← zip_other, hwhole]
  refine ⟨_, hdesc, ?_, treeSearchNext_spec s (by rwa [hwhole]) (hlow _ hdesc)⟩
  rw [ahead_descend, ahead, if_neg s.other_ne, nil_append]

/-- From the element after an empty place all elements beyond the place are met. -/
theorem enumerate_place (hfs : zip .nil fs = t) (fuel : ℕ) (hfuel : (ahead s fs).length < fuel) :
    enumerate s heap fuel (position (nearest s fs)) = some (ahead s fs) := by
  induction fuel generalizing fs with
  | zero => omega
  | succ fuel ih =>
    rcases ahead_nearest s fs with ⟨hnear, hahead⟩ | ⟨f, gs, hnear, hside, hahead, hzip⟩
    · rw [hnear, hahead]
      rfl
    obtain ⟨s', c, a, u⟩ := f
    obtain rfl : s' = s := hside
    obtain ⟨l, hl⟩ := hzip .nil
    obtain ⟨hs, hplace, hbehind, hnext⟩ :=
      next_place s' hr hlow (show zip (join s' c l a u) gs = t from hl.symm.trans hfs)
    rw [hahead] at hfuel ⊢
    have hlen : (ahead s' hs).length < fuel := by
      rw [hbehind]
      exact Nat.lt_of_succ_lt_succ hfuel
    rw [hnear]
    show enumerate s' heap (fuel + 1) (a :: position gs) = _
    rw [enumerate, hnext, Option.bind_some, ih hplace hlen, hbehind, Option.map_some]

theorem enumerate_from {l : RedBlack.Tree ℕ} (hwhole : zip (join s c l a u) fs = t) (fuel : ℕ)
    (hfuel : (u.listFrom s ++ ahead s fs).length < fuel) :
    enumerate s heap (fuel + 1) (a :: position fs) = some (a :: (u.listFrom s ++ ahead s fs)) := by
  obtain ⟨gs, hplace, hbehind, hnext⟩ := next_place s hr hlow hwhole
  rw [← hbehind] at hfuel ⊢
  rw [enumerate, hnext, Option.bind_some, enumerate_place s hr hlow hplace fuel hfuel,
    Option.map_some]

/-- `tree_search_edge` returns the position from which all elements are met. -/
theorem treeSearchEdge_spec (hfuel : t.toList.length < fuel) :
    ∃ pos, treeSearchEdge s heap = some pos ∧ enumerate s heap fuel pos = some (t.listFrom s) := by
  have hfs : zip .nil (descend s t []) = t := zip_descend s t []
  have hr' : Represents heap (zip t []) := hr
  have hloop := edgeLoop_spec s hr' (show (descend s t []).length ≤ maxTreeHeight + 0 from hlow _ hfs)
  have hahead : ahead s (descend s t []) = t.listFrom s := by
    rw [ahead_descend]
    exact append_nil _
  have hlen : (t.listFrom s).length = t.toList.length := by cases s <;> simp [Tree.listFrom]
  refine ⟨position (nearest s (descend s t [])), ?_, ?_⟩
  · rw [treeSearchEdge, hr.root]
    by_cases ht : t = .nil
    · subst ht
      rfl
    · rw [nearest_descend s ht]
      exact hloop
  · rw [enumerate_place s hr hlow hfs fuel (by rw [hahead]; omega), hahead]

end

/-- 2, 5, 8 and 9, with 5 at the root. -/
def fourHeap : Heap where
  link
    | .root => some 5
    | .child .left 5 => some 2
    | .child .right 5 => some 8
    | .child .right 8 => some 9
    | _ => none
  color a := if a = 9 then .red else .black

theorem treeSearchEdge_spec_fourHeap :
    (∃ pos, treeSearchEdge .left fourHeap = some pos ∧
        enumerate .left fourHeap 5 pos = some [2, 5, 8, 9]) ∧
      ∃ pos, treeSearchEdge .right fourHeap = some pos ∧
        enumerate .right fourHeap 5 pos = some [9, 8, 5, 2] := by
  let t : RedBlack.Tree ℕ := .node .black (.node .black .nil 2 .nil) 5
    (.node .black .nil 8 (.node .red .nil 9 .nil))
  have hr : Represents fourHeap t := ⟨rfl, by simp [t, Shape, fourHeap, Tree.root], by decide⟩
  have hlow : Low t := fun fs h =>
    (Nat.le_of_add_left_le (h ▸ length_le_toList_zip .nil fs)).trans (by decide)
  exact ⟨treeSearchEdge_spec .left hr hlow (by decide), treeSearchEdge_spec .right hr hlow (by decide)⟩

/-- **Repeated calls of `tree_search_next`** meet the elements after the first one, in order, and
the other way round those before it. -/
theorem enumerate_spec {l r : RedBlack.Tree ℕ} (hr : Represents heap t) (hlow : Low t)
    (ht : zip (node c l a r) fs = t) (hfuel : t.toList.length < fuel) :
    ∃ l1 l2, t.toList = l1 ++ a :: l2 ∧
      enumerate .left heap fuel (a :: position fs) = some (a :: l2) ∧
      enumerate .right heap fuel (a :: position fs) = some (a :: l1.reverse) := by
  have hlist : t.toList = (before fs ++ l.toList) ++ a :: (r.toList ++ after fs) := by
    rw [← ht, toList_zip]
    simp [toList]
  rw [hlist] at hfuel
  obtain _ | fuel := fuel
  · omega
  have hleft := enumerate_from .left hr hlow ht fuel (by
    simp only [Tree.listFrom, ahead_left, length_append, length_cons] at hfuel ⊢
    omega)
  have hright := enumerate_from .right hr hlow ht fuel (by
    simp only [Tree.listFrom, ahead_right, length_append, length_cons, length_reverse] at hfuel ⊢
    omega)
  rw [Tree.listFrom, ahead_left] at hleft
  rw [Tree.listFrom, ahead_right, ← reverse_append] at hright
  exact ⟨_, _, hlist, hleft, hright⟩

/-! ### The search for a key -/

variable {cmp : ℕ → ℤ} {flag : RkeyFunction}

/-- The element that a flag asks for; the other flags are not supported. -/
def required (cmp : ℕ → ℤ) (l : List ℕ) : RkeyFunction → Option ℕ
  | .keyExact => l.find? fun a => cmp a = 0
  | .keyOrNext => l.find? fun a => 0 ≤ cmp a
  | .keyOrPrev => (l.find? fun a => cmp a = 0).or (l.reverse.find? fun a => cmp a < 0)
  | .afterKey => l.find? fun a => 0 < cmp a
  | .beforeKey => l.reverse.find? fun a => cmp a < 0
  | .prefixLast => l.reverse.find? fun a => cmp a = 0
  | .prefixLastOrPrev => l.reverse.find? fun a => cmp a ≤ 0
  | _ => none

/-- A path as a position, if it is not that of the root. -/
def position? (fs : List (Frame ℕ)) : Option (List ℕ) :=
  if fs.isEmpty then none else some (position fs)

/-- The nearest node where the way went to the side `s`, if it is equal. -/
def equalStep (cmp : ℕ → ℤ) (s : Side) (fs : List (Frame ℕ)) : Option (List ℕ) :=
  match nearest s fs with
  | [] => none
  | f :: gs => if cmp f.elem = 0 then some (position (f :: gs)) else none

/-- The comparison with the value that an equal element gets. -/
def turned (cmp : ℕ → ℤ) (d : ℤ) (a : ℕ) : ℤ := if cmp a = 0 then d else cmp a

/-- The side to which the way goes at an equal element. -/
def sideAt (d : ℤ) : Side := if d < 0 then .right else .left

/-- What the loop of `tree_search_key` has noted at a place. -/
def stepsAt (cmp : ℕ → ℤ) (noted : Bool) (d : ℤ) (fs : List (Frame ℕ)) : Steps where
  lastLeftStep := position? (nearest .left fs)
  lastRightStep := position? (nearest .right fs)
  lastEqual := if noted then equalStep cmp (sideAt d) fs else none

/-- On one side of an equal element there are no others but equal ones. -/
theorem equalStep_of_ne {s : Side} (hcut : Cut cmp (zip t fs).toList) (ha : a ∈ t.toList)
    (hs : match s with | .left => 0 < cmp a | .right => cmp a < 0) : equalStep cmp s fs = none := by
  unfold equalStep
  rcases ahead_nearest s fs with ⟨hnear, -⟩ | ⟨f, gs, hnear, hside, hahead, -⟩
  · rw [hnear]
  rw [hnear]
  dsimp only
  rw [if_neg]
  intro hzero
  have hmem : f.elem ∈ ahead s fs := by rw [hahead]; exact mem_cons_self
  rw [Cut, toList_zip, pairwise_append, pairwise_append] at hcut
  obtain ⟨⟨-, -, hbefore⟩, -, hafter⟩ := hcut
  cases s with
  | left =>
    rw [ahead_left] at hmem
    have := (hafter a (mem_append_right _ ha) _ hmem).2 hs
    omega
  | right =>
    rw [ahead_right, mem_reverse] at hmem
    have := (hbefore _ hmem a ha).1 hs
    omega

theorem nearest_same (s : Side) (c : Color) (a : ℕ) (u : RedBlack.Tree ℕ) (fs : List (Frame ℕ)) :
    nearest s (⟨s, c, a, u⟩ :: fs) = ⟨s, c, a, u⟩ :: fs := by rw [nearest, if_pos rfl]

theorem nearest_other {s s' : Side} (hs : s' ≠ s) (c : Color) (a : ℕ) (u : RedBlack.Tree ℕ)
    (fs : List (Frame ℕ)) : nearest s (⟨s', c, a, u⟩ :: fs) = nearest s fs := by
  rw [nearest, if_neg hs]

/-- What is noted of an equal element when the way goes on from `a`. -/
theorem equalStep_cons (hcut : Cut cmp (zip t fs).toList) (ha : a ∈ t.toList) (u : RedBlack.Tree ℕ) :
    equalStep cmp (sideAt d) (⟨sideAt (turned cmp d a), c, a, u⟩ :: fs) =
      if cmp a = 0 then some (a :: position fs) else equalStep cmp (sideAt d) fs := by
  by_cases hzero : cmp a = 0
  · have hturned : turned cmp d a = d := if_pos hzero
    rw [hturned, if_pos hzero, equalStep, nearest_same]
    exact if_pos hzero
  have hturned : turned cmp d a = cmp a := if_neg hzero
  rw [hturned, if_neg hzero]
  by_cases hs : sideAt (cmp a) = sideAt d
  · rw [hs, equalStep, nearest_same]
    dsimp only
    rw [if_neg hzero, equalStep_of_ne hcut ha]
    rw [← hs, sideAt]
    split <;> next h => split at h <;> first | omega | cases h
  · rw [equalStep, nearest_other hs, ← equalStep]

/-- What the loop notes at `a`, as one record. -/
theorem stepsAt_cons (noted : Bool) (hcut : Cut cmp (zip t fs).toList) (ha : a ∈ t.toList)
    (u : RedBlack.Tree ℕ) :
    stepsAt cmp noted d (⟨sideAt (turned cmp d a), c, a, u⟩ :: fs) =
      let st := if (decide (cmp a = 0) && noted) = true then
        { stepsAt cmp noted d fs with lastEqual := some (a :: position fs) }
        else stepsAt cmp noted d fs
      if turned cmp d a < 0 then { st with lastRightStep := some (a :: position fs) }
      else { st with lastLeftStep := some (a :: position fs) } := by
  have hequal := equalStep_cons (d := d) (c := c) hcut ha u
  unfold stepsAt
  rw [hequal]
  by_cases hlt : turned cmp d a < 0
  · have hs : sideAt (turned cmp d a) = .right := if_pos hlt
    simp only [if_pos hlt, hs, nearest_same, nearest_other (show Side.right ≠ .left by decide)]
    cases noted <;> by_cases hzero : cmp a = 0 <;> simp [hzero, position?, position]
  · have hs : sideAt (turned cmp d a) = .left := if_neg hlt
    simp only [if_neg hlt, hs, nearest_same, nearest_other (show Side.left ≠ .right by decide)]
    cases noted <;> by_cases hzero : cmp a = 0 <;> simp [hzero, position?, position]

/-- The loop of `tree_search_key`, for a flag that is supported. -/
theorem searchKeyLoop_spec {noted : Bool} (hflag : equalCase flag = some (noted, d)) (hd : d ≠ 0)
    (hr : Represents heap (zip t fs)) (hcut : Cut cmp (zip t fs).toList) {room : ℕ}
    (hroom : (locate (turned cmp d) t fs).2.length ≤ room + fs.length) :
    searchKeyLoop cmp flag heap room (position fs) (stepsAt cmp noted d fs) t.root =
      some (some (stepsAt cmp noted d (locate (turned cmp d) t fs).2)) := by
  induction t generalizing fs room with
  | nil => cases room <;> rfl
  | node c l a r ihl ihr =>
    have hne : turned cmp d a ≠ 0 := by
      unfold turned
      split
      · exact hd
      · assumption
    have ha : a ∈ (node c l a r).toList := by simp [toList]
    have hcase : (if cmp a = 0 then equalCase flag else some (false, cmp a)) =
        some (decide (cmp a = 0) && noted, turned cmp d a) := by
      rw [hflag, turned]
      split <;> simp_all
    obtain ⟨hll, hlr, -⟩ := hr.split.1
    rw [locate, if_neg hne] at hroom ⊢
    have hlenl := length_le_locate (turned cmp d) l (⟨.left, c, a, r⟩ :: fs)
    have hlenr := length_le_locate (turned cmp d) r (⟨.right, c, a, l⟩ :: fs)
    simp only [length_cons] at hlenl hlenr
    obtain _ | room := room
    · split at hroom <;> omega
    rw [root_node, searchKeyLoop]
    simp only [hcase]
    by_cases hlt : turned cmp d a < 0
    · have hsteps := stepsAt_cons noted (d := d) (c := c) hcut ha l
      have hr' : Represents heap (zip r (⟨.right, c, a, l⟩ :: fs)) := hr
      rw [show sideAt (turned cmp d a) = .right from if_pos hlt, if_pos hlt] at hsteps
      rw [if_pos hlt] at hroom
      rw [if_pos hlt, if_pos hlt, hlr]
      exact hsteps ▸ ihr hr' hcut (by simp only [length_cons]; omega)
    · have hsteps := stepsAt_cons noted (d := d) (c := c) hcut ha r
      have hr' : Represents heap (zip l (⟨.left, c, a, r⟩ :: fs)) := hr
      rw [show sideAt (turned cmp d a) = .left from if_neg hlt, if_neg hlt] at hsteps
      rw [if_neg hlt] at hroom
      rw [if_neg hlt, if_neg hlt, hll]
      exact hsteps ▸ ihl hr' hcut (by simp only [length_cons]; omega)

/-- A position of the array of a search in a tree, and the element there. -/
def Points (t : RedBlack.Tree ℕ) (pos : List ℕ) (a : ℕ) : Prop :=
  ∃ c l r fs, zip (node c l a r) fs = t ∧ pos = a :: position fs

/-- `NULL` for no element, or the position of the element. -/
def Finds (t : RedBlack.Tree ℕ) : Option (List ℕ) → Option ℕ → Prop
  | none, none => True
  | some pos, some a => Points t pos a
  | _, _ => False

theorem Finds.or {p q : Option (List ℕ)} {a b : Option ℕ} (hp : Finds t p a) (hq : Finds t q b) :
    Finds t (p.or q) (a.or b) := by
  cases p <;> cases a
  · exact hq
  · exact hp.elim
  · exact hp.elim
  · exact hp

/-- The nearest node on a side is the next element there. -/
theorem finds_nearest (cmp : ℕ → ℤ) (s : Side) (hfs : zip .nil fs = t) :
    Finds t (position? (nearest s fs)) (ahead s fs).head? ∧
      Finds t (equalStep cmp s fs) ((ahead s fs).head?.filter fun a => cmp a = 0) := by
  rcases ahead_nearest s fs with ⟨hnear, hahead⟩ | ⟨f, gs, hnear, -, hahead, hzip⟩
  · rw [equalStep, hnear, hahead]
    exact ⟨trivial, trivial⟩
  have hpoints : Points t (position (f :: gs)) f.elem := by
    obtain ⟨u, hu⟩ := hzip .nil
    have hjoin : zip (join f.side f.color u f.elem f.sibling) gs = t := by
      rw [← hfs, hu]
      rfl
    cases hs : f.side <;> rw [hs] at hjoin <;> exact ⟨_, _, _, gs, hjoin, rfl⟩
  rw [equalStep, hnear, hahead, head?_cons]
  refine ⟨hpoints, ?_⟩
  by_cases hzero : cmp f.elem = 0
  · simpa [hzero, Option.filter, Finds] using hpoints
  · simp [hzero, Option.filter, Finds]

/-- A comparison with the equal elements moved to one side. -/
theorem cut_turned (h : Cut cmp l) : Cut (turned cmp d) l := by
  refine List.Pairwise.imp ?_ h
  intro x y hxy
  unfold turned
  split <;> split <;> omega

theorem find_behind {p : ℕ → Prop} [DecidablePred p] (h : ∀ x ∈ l, ¬ p x) (r : List ℕ) :
    ((l ++ r).find? fun a => p a) = r.find? fun a => p a := by
  rw [find?_append, find?_eq_none.2 (by simpa using h), Option.none_or]

/-- If the elements with a property are the last ones, then the first of them is found. -/
theorem find_first {p : ℕ → Prop} [DecidablePred p] {r : List ℕ} (hl : ∀ x ∈ l, ¬ p x)
    (hr : ∀ x ∈ r, p x) : ((l ++ r).find? fun a => p a) = r.head? := by
  rw [find_behind hl]
  cases r with
  | nil => rfl
  | cons a r => rw [find?_cons_of_pos (by simpa using hr a mem_cons_self), head?_cons]

/-- Among elements whose comparisons move away from 0, the first one is equal or none is. -/
theorem find_zero (h : l.Pairwise fun x y => cmp x ≠ 0 → cmp y ≠ 0) :
    (l.find? fun a => cmp a = 0) = l.head?.filter fun a => cmp a = 0 := by
  cases l with
  | nil => rfl
  | cons a l =>
    by_cases ha : cmp a = 0
    · simp [Option.filter, ha]
    have hnone : (l.find? fun a => cmp a = 0) = none :=
      find?_eq_none.2 (by simpa using fun x hx => (pairwise_cons.1 h).1 x hx ha)
    rw [find?_cons_of_neg (by simpa using ha), hnone]
    simp [Option.filter, ha]

theorem Low.length_le (hlow : Low t) (hfs : zip u fs = t) : fs.length ≤ maxTreeHeight :=
  (length_le_descend .left u fs).trans (hlow _ ((zip_descend .left u fs).trans hfs))

/-- The search with a flag that is supported ends at the empty place between the elements that are
smaller and those that are greater. -/
theorem searchKey_place {noted : Bool} (hflag : equalCase flag = some (noted, d)) (hd : d ≠ 0)
    (hr : Represents heap t) (hcut : Cut cmp t.toList) (hlow : Low t) :
    ∃ fs, zip .nil fs = t ∧
      treeSearchKey cmp flag heap = some (lastPos (stepsAt cmp noted d fs) flag) ∧
      (∀ x ∈ ahead .right fs, turned cmp d x < 0) ∧ ∀ x ∈ ahead .left fs, 0 < turned cmp d x := by
  have hnil : (locate (turned cmp d) t []).1 = .nil := by
    rcases locate_found (turned cmp d) t [] with h | ⟨a, -, ha⟩
    · exact h
    unfold turned at ha
    split at ha
    · exact absurd ha hd
    · contradiction
  have hzip := zip_locate (turned cmp d) t []
  rw [hnil] at hzip
  have hcut' : Cut (turned cmp d) (zip t []).toList := cut_turned hcut
  obtain ⟨hbefore, hafter⟩ := locate_sides hcut' (by simp [before]) (by simp [after])
  have hr' : Represents heap (zip t []) := hr
  have hroom : (locate (turned cmp d) t []).2.length ≤ maxTreeHeight + 0 := hlow _ hzip
  have hloop := searchKeyLoop_spec hflag hd hr' hcut hroom
  refine ⟨_, hzip, ?_, ?_, ?_⟩
  · rw [treeSearchKey, hr.root]
    have hstart : stepsAt cmp noted d [] = ⟨none, none, none⟩ := by
      simp [stepsAt, nearest, position?, equalStep]
    rw [hstart, position, map_nil] at hloop
    rw [hloop]
    rfl
  · rw [ahead_right]
    simpa using hbefore
  · rw [ahead_left]
    exact hafter

/-- The search with a flag that is not supported returns `NULL`. -/
theorem searchKeyLoop_unsupported (cmp : ℕ → ℤ) (hflag : equalCase flag = none) (hlow : Low t)
    (hr : Represents heap (zip u fs)) (hu : zip u fs = t) (room : ℕ)
    (hroom : room + fs.length = maxTreeHeight) (steps : Steps) :
    ∃ found, searchKeyLoop cmp flag heap room (position fs) steps u.root = some found := by
  induction u generalizing fs room steps with
  | nil => exact ⟨some steps, by cases room <;> rfl⟩
  | node c l a r ihl ihr =>
    obtain ⟨hll, hlr, -⟩ := hr.split.1
    have hlen : fs.length + 1 ≤ maxTreeHeight :=
      hlow.length_le (show zip l (⟨.left, c, a, r⟩ :: fs) = t from hu)
    obtain _ | room := room
    · omega
    rw [root_node, searchKeyLoop]
    by_cases hzero : cmp a = 0
    · simp only [if_pos hzero, hflag]
      exact ⟨none, rfl⟩
    simp only [if_neg hzero, Bool.false_eq_true, if_false]
    split
    · rw [hlr]
      have hr' : Represents heap (zip r (⟨.right, c, a, l⟩ :: fs)) := hr
      exact ihr hr' hu _ (by simp only [length_cons]; omega) _
    · rw [hll]
      have hr' : Represents heap (zip l (⟨.left, c, a, r⟩ :: fs)) := hr
      exact ihl hr' hu _ (by simp only [length_cons]; omega) _

/-- What a flag asks for that leads to the place before the equal elements. -/
theorem required_before {r : List ℕ} (hcut : Cut cmp (r.reverse ++ l)) (hr : ∀ x ∈ r, cmp x < 0)
    (hl : ∀ x ∈ l, 0 ≤ cmp x) :
    (required cmp (r.reverse ++ l) .keyExact = l.head?.filter fun a => cmp a = 0) ∧
      required cmp (r.reverse ++ l) .keyOrNext = l.head? ∧
      required cmp (r.reverse ++ l) .beforeKey = r.head? ∧
      required cmp (r.reverse ++ l) .keyOrPrev = (l.head?.filter fun a => cmp a = 0).or r.head? := by
  rw [Cut, pairwise_append] at hcut
  have hr' : ∀ x ∈ r.reverse, cmp x < 0 := fun x hx => hr x (mem_reverse.1 hx)
  have hl' : ∀ x ∈ l.reverse, 0 ≤ cmp x := fun x hx => hl x (mem_reverse.1 hx)
  have hzero : (l.find? fun a => cmp a = 0) = l.head?.filter fun a => cmp a = 0 := by
    refine find_zero (Pairwise.imp_of_mem (fun {x y} hx _ hxy hne => ?_) hcut.2.1)
    have := hl x hx
    omega
  have hexact : ((r.reverse ++ l).find? fun a => cmp a = 0) = l.head?.filter fun a => cmp a = 0 := by
    rw [find_behind fun x hx => (hr' x hx).ne, hzero]
  have hprev : ((r.reverse ++ l).reverse.find? fun a => cmp a < 0) = r.head? := by
    rw [reverse_append, reverse_reverse, find_first (fun x hx => (hl' x hx).not_gt) hr]
  refine ⟨hexact, ?_, hprev, by rw [required, hexact, hprev]⟩
  rw [required, find_first (fun x hx => (hr' x hx).not_ge) hl]

/-- What a flag asks for that leads to the place behind the equal elements. -/
theorem required_behind {r : List ℕ} (hcut : Cut cmp (r.reverse ++ l)) (hr : ∀ x ∈ r, cmp x ≤ 0)
    (hl : ∀ x ∈ l, 0 < cmp x) :
    required cmp (r.reverse ++ l) .afterKey = l.head? ∧
      (required cmp (r.reverse ++ l) .prefixLast = r.head?.filter fun a => cmp a = 0) ∧
      required cmp (r.reverse ++ l) .prefixLastOrPrev = r.head? := by
  rw [Cut, pairwise_append, pairwise_reverse] at hcut
  have hr' : ∀ x ∈ r.reverse, cmp x ≤ 0 := fun x hx => hr x (mem_reverse.1 hx)
  have hl' : ∀ x ∈ l.reverse, 0 < cmp x := fun x hx => hl x (mem_reverse.1 hx)
  have hzero : (r.find? fun a => cmp a = 0) = r.head?.filter fun a => cmp a = 0 := by
    refine find_zero (Pairwise.imp_of_mem (fun {x y} hx _ hxy hne => ?_) hcut.1)
    have := hr x hx
    omega
  refine ⟨?_, ?_, ?_⟩
  · rw [required, find_first (fun x hx => (hr' x hx).not_gt) hl]
  · rw [required, reverse_append, reverse_reverse, find_behind fun x hx => (hl' x hx).ne', hzero]
  · rw [required, reverse_append, reverse_reverse, find_first (fun x hx => (hl' x hx).not_ge) hr]

theorem filter_or_self (p : ℕ → Bool) (o : Option ℕ) : (o.filter p).or o = o := by
  cases o with
  | none => rfl
  | some a => by_cases h : p a <;> simp [Option.filter, h]

/-- **`tree_search_key`** returns the position of the element that the flag asks for, or `NULL` if
there is none, also if a block of elements is equal to the key. -/
theorem treeSearchKey_spec (hr : Represents heap t) (hcut : Cut cmp t.toList) (hlow : Low t)
    (flag : RkeyFunction) :
    ∃ pos, treeSearchKey cmp flag heap = some pos ∧ Finds t pos (required cmp t.toList flag) := by
  cases hflag : equalCase flag with
  | none =>
    have hr' : Represents heap (zip t []) := hr
    obtain ⟨found, hfound⟩ := searchKeyLoop_unsupported cmp hflag hlow hr' rfl maxTreeHeight rfl
      ⟨none, none, none⟩
    refine ⟨none, ?_, ?_⟩
    · rw [treeSearchKey, hr.root]
      rw [position, map_nil] at hfound
      rw [hfound, Option.map_some]
      cases found with
      | none => rfl
      | some steps => cases flag <;> first | rfl | simp [equalCase] at hflag
    · cases flag <;> trivial
  | some res =>
    obtain ⟨noted, d⟩ := res
    have hd : d ≠ 0 := by
      cases flag <;> simp [equalCase] at hflag <;> omega
    obtain ⟨fs, hfs, hkey, hbefore, hafter⟩ := searchKey_place hflag hd hr hcut hlow
    have hlist : t.toList = (ahead .right fs).reverse ++ ahead .left fs := by
      rw [← hfs, toList_zip, ahead_right, ahead_left, reverse_reverse]
      simp [toList]
    rw [hlist] at hcut ⊢
    obtain ⟨hleft, heql⟩ := finds_nearest cmp .left hfs
    obtain ⟨hright, heqr⟩ := finds_nearest cmp .right hfs
    refine ⟨_, hkey, ?_⟩
    have hsign : ∀ x, (turned cmp d x < 0 ↔ cmp x < 0 ∨ cmp x = 0 ∧ d < 0) ∧
        (0 < turned cmp d x ↔ 0 < cmp x ∨ cmp x = 0 ∧ 0 < d) := by
      intro x
      unfold turned
      split <;> omega
    have hbehind : d = -1 → _ := fun hd => required_behind hcut
      (fun x hx => by have := (hsign x).1.1 (hbefore x hx); omega)
      (fun x hx => by have := (hsign x).2.1 (hafter x hx); omega)
    have hfront : d = 1 → _ := fun hd => required_before hcut
      (fun x hx => by have := (hsign x).1.1 (hbefore x hx); omega)
      (fun x hx => by have := (hsign x).2.1 (hafter x hx); omega)
    cases flag <;>
      obtain ⟨rfl, rfl⟩ := hflag
    case keyExact =>
      rw [(hfront rfl).1]
      exact heql
    case keyOrNext =>
      rw [(hfront rfl).2.1, ← filter_or_self (fun a => cmp a = 0) (ahead .left fs).head?]
      exact heql.or hleft
    case keyOrPrev =>
      rw [(hfront rfl).2.2.2]
      exact heql.or hright
    case afterKey =>
      rw [(hbehind rfl).1]
      exact hleft
    case beforeKey =>
      rw [(hfront rfl).2.2.1]
      exact hright
    case prefixLast =>
      rw [(hbehind rfl).2.1]
      exact heqr
    case prefixLastOrPrev =>
      rw [(hbehind rfl).2.2, ← filter_or_self (fun a => cmp a = 0) (ahead .right fs).head?]
      exact heqr.or hright

end MyTree
