/-
**Insertion and deletion in the trees of mysys.**

`tree_insert` puts a new element at the empty place to which the comparisons lead.  `tree_delete`
takes an element with two children out by putting the next bigger one, which has no left child, in
its place; the entries of `tree->parents` are then those of the place from which that one was taken.

Main definitions:

* `High`: some way down in the tree needs more entries than `tree->parents` has.

Main results:

* `findPlace_spec`: the way down;
* `insertElement_spec`: a new element is put in and the tree repaired;
* `unlinkElement_spec`, `deleteElement_spec`: an element is taken out.
-/

import MariaDb.MyTreeFixup
import MariaDb.TreeEdits
import MariaDb.TreePlaces

set_option autoImplicit false

namespace MyTree

open RedBlack RedBlack.Tree Function
open List hiding zip zip_append

variable {heap : Heap} {t u : RedBlack.Tree ℕ} {fs : List (Frame ℕ)} {cmp : ℕ → ℤ} {a : ℕ}

/-- Some way down in the tree needs all the entries of `tree->parents`. -/
def High (t : RedBlack.Tree ℕ) : Prop := ∃ u fs, zip u fs = t ∧ maxTreeHeight ≤ fs.length + 1

/-- A balanced tree that high has more than 2^31 elements. -/
theorem High.lt_length {n : ℕ} (hhigh : High t) (hbal : Balanced t .black n) :
    2 ^ 31 < t.toList.length := by
  obtain ⟨u, fs, hfs, hlen⟩ := hhigh
  by_contra hle
  rw [← hfs] at hbal hle
  have hshort := length_le_of_balanced (k := 31) hbal (by omega)
  unfold maxTreeHeight at hlen
  omega

/-! ### The way down -/

/-- The way down is that of `RedBlack.locate`, as long as the entries of `tree->parents` suffice. -/
theorem findPlace_spec (cmp : ℕ → ℤ) (hr : Represents heap (zip t fs)) (room : ℕ)
    (hroom : room + (fs.length + 1) = maxTreeHeight) :
    findPlace cmp heap room (links fs) t.root =
      if (locate cmp t fs).2.length < maxTreeHeight then
        some (links (locate cmp t fs).2, (locate cmp t fs).1.root)
      else none := by
  induction t generalizing fs room with
  | nil =>
    have hlt : fs.length < maxTreeHeight := by omega
    rw [locate, if_pos hlt]
    cases room <;> rfl
  | node c l a r ihl ihr =>
    by_cases hzero : cmp a = 0
    · have hlt : fs.length < maxTreeHeight := by omega
      rw [locate, if_pos hzero, if_pos hlt, root_node]
      cases room <;> simp [findPlace, hzero]
    -- the way goes on to one of the sides
    obtain ⟨s, hs⟩ : ∃ s, s = if cmp a < 0 then Side.right else .left := ⟨_, rfl⟩
    have hr' : Represents heap (zip ((node c l a r).child s)
        (⟨s, c, a, (node c l a r).child s.other⟩ :: fs)) := by
      cases s <;> exact hr
    have hlink : heap.link (.child s a) = ((node c l a r).child s).root := hr'.split.2.link
    rw [locate_step hzero hs, root_node, findPlace.eq_def]
    simp only [if_neg hzero, ← hs, hlink]
    cases room with
    | zero =>
      have hlen := length_le_locate cmp ((node c l a r).child s)
        (⟨s, c, a, (node c l a r).child s.other⟩ :: fs)
      simp only [length_cons] at hlen
      rw [if_neg (by omega)]
    | succ room =>
      have hroom' : room + (fs.length + 1 + 1) = maxTreeHeight := by omega
      cases s
      · exact ihl hr' _ hroom'
      · exact ihr hr' _ hroom'

/-! ### Insertion -/

/-- **A new element is put in and the tree repaired.** -/
theorem insertElement_spec {n : ℕ} (hr : Represents heap (zip .nil fs))
    (hbal : Balanced (zip .nil fs) .black n) (ha : a ∉ (zip .nil fs).toList) :
    ∃ heap' t', rbInsert (((heap.write (linkOf fs) (some a)).write (.child .left a) none).write
        (.child .right a) none) (links fs) a = some heap' ∧
      Represents heap' t' ∧ (∃ m, Balanced t' .black m) ∧
      t'.toList = before fs ++ a :: after fs := by
  obtain ⟨c, m, hnil, hfs⟩ := Balanced.unzip hbal
  cases hnil
  have hnode : Balanced (join .left .red .nil a .nil) .red 0 := .red .nil .nil
  have hr' : Represents _ (zip (join .left (heap.color a) .nil a .nil) fs) := represents_new hr ha
  obtain ⟨heap', hins, hres⟩ := rbInsert_spec hr' hnode hfs
  refine ⟨heap', _, hins, hres, balanced_insertFix hnode hfs, ?_⟩
  rw [toList_paint, toList_insertFix (join_ne_nil _ _ _ _ _), toList_zip]
  simp [join, toList]

/-! ### Deletion -/

/-- The way to the next bigger element, which has no left child. -/
theorem leftmost_spec (hr : Represents heap (zip t fs)) (ht : t.root = some a) (room : ℕ) :
    ∃ gs c b r, t = zip (node c .nil b r) gs ∧ before gs = [] ∧
      leftmost heap room (links fs) a =
        if gs.length ≤ room then some (links (gs ++ fs), b) else none := by
  induction t generalizing fs room a with
  | nil => simp [Tree.root] at ht
  | node c l b r ihl =>
    obtain rfl : b = a := by simpa using ht
    obtain ⟨hll, -⟩ := hr.split.1
    cases hl : l.root with
    | none =>
      have hnil := root_eq_none.1 hl
      subst hnil
      refine ⟨[], c, b, r, rfl, rfl, ?_⟩
      rw [length_nil, if_pos (Nat.zero_le _), leftmost.eq_def]
      simp only [hll]
      rfl
    | some x =>
      have hr' : Represents heap (zip l (⟨.left, c, b, r⟩ :: fs)) := hr
      obtain ⟨gs, d, y, v, hgs, hbefore, hres⟩ := ihl hr' hl (room - 1)
      refine ⟨gs ++ [⟨.left, c, b, r⟩], d, y, v, ?_, ?_, ?_⟩
      · rw [zip_append, ← hgs]
        rfl
      · rw [before_append, hbefore]
        rfl
      rw [leftmost.eq_def]
      simp only [hll, hl, length_append, length_singleton, append_assoc, singleton_append]
      cases room with
      | zero => rw [if_neg (by omega)]
      | succ room =>
        simp only [Nat.add_le_add_iff_right]
        exact hres

/-- `org_parent[1]= &nod->right` puts the new node into the path. -/
theorem links_patch {c : Color} {l : RedBlack.Tree ℕ} (gs : List (Frame ℕ)) (b : ℕ) :
    (links (gs ++ ⟨.right, c, a, l⟩ :: fs)).take
        ((gs ++ ⟨.right, c, a, l⟩ :: fs).length + 1 - (fs.length + 1) - 1) ++
      .child .right b :: links fs = links (gs ++ ⟨.right, c, b, l⟩ :: fs) := by
  have hsplit : ∀ f : Frame ℕ, links (gs ++ f :: fs) =
      gs.map (fun g => Link.child g.side g.elem) ++ .child f.side f.elem :: links fs := by
    intro f
    induction gs with
    | nil => rfl
    | cons g gs ih => rw [cons_append, links, ih, map_cons, cons_append]
  rw [hsplit, hsplit, take_left']
  simp only [length_append, length_cons, length_map]
  omega

/-- **The element is taken out of its tree**, if the entries of `tree->parents` suffice. -/
theorem unlinkElement_spec {c : Color} {l r : RedBlack.Tree ℕ} {n : ℕ}
    (hr : Represents heap (zip (node c l a r) fs))
    (hbal : Balanced (zip (node c l a r) fs) .black n) :
    (unlinkElement heap (links fs) a = none ∧ High (zip (node c l a r) fs)) ∨
      ∃ heap' x gs removed, unlinkElement heap (links fs) a = some (heap', links gs, removed) ∧
        Unlinked (zip (node c l a r) fs) (before fs ++ (l.toList ++ r.toList) ++ after fs) heap' x gs
          removed ∧ (fs.length < maxTreeHeight → gs.length < maxTreeHeight) := by
  obtain ⟨hl, hr', hcolor, hsl, hsr⟩ := hr.split.1
  have hhead : (links fs).head? = some (linkOf fs) := by rw [links_eq, head?_cons]
  cases hlroot : l.root with
  | none =>
    have hnil := root_eq_none.1 hlroot
    subst hnil
    have hunlinked := unlink_child (s := .right) (t := r) (u := .nil) hr hbal rfl
    refine .inr ⟨_, _, fs, c, ?_, hunlinked, id⟩
    simp [unlinkElement, hhead, hl, hlroot, hr', hcolor]
  | some x =>
    cases hrroot : r.root with
    | none =>
      have hnil := root_eq_none.1 hrroot
      subst hnil
      have hunlinked := unlink_child (s := .left) (t := l) (u := .nil) hr hbal rfl
      rw [← append_nil l.toList] at hunlinked
      refine .inr ⟨_, l, fs, c, ?_, hunlinked, id⟩
      simp only [unlinkElement, hhead, Option.bind_some, hl, hlroot, hr', hrroot, hcolor]
    | some y =>
      have hr₁ : Represents heap (zip r (⟨.right, c, a, l⟩ :: fs)) := hr
      by_cases hpush : fs.length + 1 < maxTreeHeight
      swap
      · refine .inl ⟨?_, r, ⟨.right, c, a, l⟩ :: fs, rfl, ?_⟩
        · have hnone : push (.child .right a) (links fs) = none := by
            rw [push, length_links, if_neg hpush]
          simp [unlinkElement, hhead, hl, hlroot, hr', hrroot, hnone]
        · simp only [length_cons]
          omega
      have hsome : push (.child .right a) (links fs) = some (links (⟨.right, c, a, l⟩ :: fs)) := by
        rw [push, length_links, if_pos hpush]
        rfl
      obtain ⟨gs, d, b, v, hgs, hbefore, hleft⟩ := leftmost_spec hr₁ hrroot
        (maxTreeHeight - (fs.length + 1 + 1))
      have hwhole : zip (node c l a r) fs = zip (node d .nil b v)
          (gs ++ ⟨.right, c, a, l⟩ :: fs) := by
        rw [zip_append, ← hgs]
        rfl
      by_cases hroom : gs.length ≤ maxTreeHeight - (fs.length + 1 + 1)
      swap
      · rw [if_neg hroom] at hleft
        refine .inl ⟨?_, _, _, hwhole.symm, ?_⟩
        · simp [unlinkElement, hhead, hl, hlroot, hr', hrroot, hsome, length_links, hleft]
        · simp only [length_append, length_cons]
          omega
      rw [if_pos hroom] at hleft
      refine .inr ⟨_, v, gs ++ ⟨.right, c, b, l⟩ :: fs, d, ?_, unlink_next hr hbal hgs hbefore,
        fun _ => by simp only [length_append, length_cons]; omega⟩
      have hhead' : (links (gs ++ ⟨.right, c, a, l⟩ :: fs)).head? =
          some (linkOf (gs ++ ⟨.right, c, a, l⟩ :: fs)) := by rw [links_eq, head?_cons]
      have hd : heap.color b = d := by
        rw [hwhole] at hr
        exact hr.split.1.2.2.1
      -- the links that are read of `a` are those after the first write
      obtain ⟨hab, haf, -, hla, hra⟩ := next_reads hr hgs
      obtain ⟨hv, -, -⟩ := next_out hr hgs
      have hla' : ((heap.write (linkOf (gs ++ ⟨.right, c, a, l⟩ :: fs)) v.root).write (linkOf fs)
          (some b)).link (.child .left a) = l.root := by
        rw [Heap.link_write, update_of_ne (haf _), hla]
      have hra' : (((heap.write (linkOf (gs ++ ⟨.right, c, a, l⟩ :: fs)) v.root).write (linkOf fs)
          (some b)).write (.child .left b) l.root).link (.child .right a) = (zip v gs).root := by
        rw [Heap.link_write, update_of_ne (by simp), Heap.link_write, update_of_ne (haf _), hra]
      simp only [unlinkElement, hhead, Option.bind_some, hl.trans hlroot, hr'.trans hrroot, hsome,
        length_links, length_cons, hleft, hhead', Option.map_some, hd, links_patch, hv, hla',
        hra', Heap.color_write, hcolor]

/-- **The element is taken out and the tree repaired**, if the entries of `tree->parents` suffice. -/
theorem deleteElement_spec {c : Color} {l r : RedBlack.Tree ℕ} {n : ℕ}
    (hr : Represents heap (zip (node c l a r) fs))
    (hbal : Balanced (zip (node c l a r) fs) .black n) (hlen : fs.length < maxTreeHeight) :
    let res := (unlinkElement heap (links fs) a).bind fun (heap, parents, removeColour) =>
      if removeColour = .black then rbDeleteFixup heap parents else some heap
    (res = none ∧ High (zip (node c l a r) fs)) ∨
      ∃ heap' t', res = some heap' ∧ Represents heap' t' ∧ (∃ m, Balanced t' .black m) ∧
        t'.toList = before fs ++ (l.toList ++ r.toList) ++ after fs := by
  intro res
  rcases unlinkElement_spec hr hbal with
    ⟨hnone, hhigh⟩ | ⟨heap', x, gs, removed, hsome, hunlinked, hgs⟩
  · exact .inl ⟨by simp [res, hnone], hhigh⟩
  obtain ⟨hr', hlist, ⟨d, k, hx, hacc, hred⟩, u, gs', hdepth, hsame⟩ := hunlinked
  have hres : res = if removed = .black then rbDeleteFixup heap' (links gs) else some heap' := by
    simp [res, hsome]
  rw [hres]
  cases removed with
  | red =>
    obtain rfl := hred rfl
    exact .inr ⟨heap', _, rfl, hr', hx.zip hacc, hlist⟩
  | black =>
    rcases rbDeleteFixup_spec hr' hx hacc (hgs hlen).le with ⟨hnone, hroom⟩ | ⟨heap'', hfix, hr''⟩
    · exact .inl ⟨hnone, u, gs', hdepth, by omega⟩
    · obtain ⟨hbal', hlist'⟩ := deleteFix_spec hx hacc
      exact .inr ⟨heap'', _, hfix, hr'', hbal', hlist'.trans hlist⟩

end MyTree
