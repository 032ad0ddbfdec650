/-
**Putting nodes into linked trees and taking them out.**

A new node is put at an empty place.  A node with at most one child is taken out by writing the link
to it; for a node with two children the next one of the order, which has no left child, is taken out
and put in its place.

Main definitions:

* `Unlinked`: a tree from which a node was taken, with the place that may lack a black node.

Main results:

* `represents_new`: a node is put in;
* `unlink_child`, `unlink_next`: a node is taken out.
-/

import MariaDb.LinkedTree

set_option autoImplicit false

namespace RedBlack

open RedBlack.Tree Function List Heap

variable {heap : Heap} {t u : Tree ℕ} {fs : List (Frame ℕ)} {a : ℕ}

/-- Every node of a tree has its place. -/
theorem exists_place (ha : a ∈ t.toList) : ∃ c l r fs, zip (node c l a r) fs = t := by
  suffices h : ∀ gs, ∃ c l r fs, zip (node c l a r) fs = zip t gs from h []
  induction t with
  | nil => simp [toList] at ha
  | node c l b r ihl ihr =>
    intro gs
    simp only [toList, mem_append, mem_cons] at ha
    rcases ha with ha | rfl | ha
    · exact ihl ha (⟨.left, c, b, r⟩ :: gs)
    · exact ⟨c, l, r, gs, rfl⟩
    · exact ihr ha (⟨.right, c, b, l⟩ :: gs)

/-- The first node of a tree has no left child. -/
theorem exists_first (ht : t ≠ .nil) : ∃ gs d b v, t = zip (node d .nil b v) gs ∧ before gs = [] := by
  induction t with
  | nil => exact absurd rfl ht
  | node c l a r ihl =>
    by_cases hl : l = .nil
    · subst hl
      exact ⟨[], c, a, r, rfl, rfl⟩
    obtain ⟨gs, d, b, v, hgs, hbefore⟩ := ihl hl
    refine ⟨gs ++ [⟨.left, c, a, r⟩], d, b, v, ?_, ?_⟩
    · rw [zip_append, ← hgs]
      rfl
    · rw [before_append, hbefore]
      rfl

/-- A new element without children at an empty place. -/
theorem represents_new (hr : Represents heap (zip .nil fs)) (ha : a ∉ (zip .nil fs).toList) :
    Represents (((heap.write (linkOf fs) (some a)).write (.child .left a) none).write
      (.child .right a) none) (zip (node (heap.color a) .nil a .nil) fs) := by
  have hfresh : a ∉ around fs := fun h => ha (mem_toList_zip.2 (.inr h))
  have hlink : ∀ s, Link.child s a ≠ linkOf fs := fun s => child_ne_linkOf hfresh
  refine hr.replace ?_ ⟨?_, ?_, rfl, trivial, trivial⟩ ⟨?_, fun _ _ => rfl⟩ (by simp [toList]) ?_
  · simp only [link_write, root_node]
    rw [update_of_ne (hlink _).symm, update_of_ne (hlink _).symm, update_self]
  · simp only [link_write]
    rw [update_of_ne (by simp), update_self]
    rfl
  · simp only [link_write]
    rw [update_self]
    rfl
  · intro l hl hmem
    have hne : ∀ s, l ≠ .child s a := by
      rintro s rfl
      rcases hmem with h | ⟨s', x, hx, heq⟩
      · cases h
      · cases heq
        exact hfresh hx
    simp only [link_write]
    rw [update_of_ne (hne _), update_of_ne (hne _), update_of_ne hl]
  · intro x hx
    simp only [toList, nil_append, mem_singleton] at hx
    rwa [hx]

/-- The subtree at a place is replaced by a part of it, and only the link at the place is written. -/
theorem represents_part (hr : Represents heap (zip t fs)) (hu : Shape heap u)
    (hsub : u.toList.Sublist t.toList) : Represents (heap.write (linkOf fs) u.root) (zip u fs) := by
  obtain ⟨hnodup, -, hdisj⟩ := hr.disjoint
  have hmem : ∀ x ∈ u.toList, x ∉ around fs := fun x hx => hdisj x (hsub.subset hx)
  refine hr.replace ?_ (hu.congr fun x hx => ⟨fun s => ?_, rfl⟩) ⟨?_, fun _ _ => rfl⟩
    (hnodup.sublist hsub) hmem
  · simp only [link_write]
    rw [update_self]
  · simp only [link_write]
    rw [update_of_ne (child_ne_linkOf (hmem x hx))]
  · intro l hl _
    simp only [link_write]
    rw [update_of_ne hl]

variable {c d : Color} {l r v : Tree ℕ} {b : ℕ} {gs : List (Frame ℕ)}

/-- A node takes the place of another one. -/
theorem represents_swap (hr : Represents heap (zip (node c l a r) fs))
    (hb : b ∉ (zip (node c l a r) fs).toList) :
    Represents (((heap.write (linkOf fs) (some b)).write (.child .left b) l.root |>.write
      (.child .right b) r.root).setColor b c) (zip (node c l b r) fs) := by
  obtain ⟨hnodup, -, hdisj⟩ := hr.disjoint
  obtain ⟨-, -, -, hsl, hsr⟩ := hr.split.1
  rw [mem_toList_zip, not_or] at hb
  obtain ⟨hbt, hbf⟩ := hb
  have hlink : ∀ {x} s, x ∉ around fs → Link.child s x ≠ linkOf fs := fun s hx => child_ne_linkOf hx
  have hat : ∀ x ∈ (node c l a r).toList, AgreeAt heap
      (((heap.write (linkOf fs) (some b)).write (.child .left b) l.root |>.write
        (.child .right b) r.root).setColor b c) x := by
    intro x hx
    have hxb : x ≠ b := ne_of_mem_of_not_mem hx hbt
    refine ⟨fun s => ?_, ?_⟩
    · simp only [link_setColor, link_write]
      rw [update_of_ne (by simp [hxb]), update_of_ne (by simp [hxb]),
        update_of_ne (hlink s (hdisj x hx))]
    · simp only [color_setColor, color_write]
      rw [update_of_ne hxb]
  refine hr.replace ?_ ⟨?_, ?_, ?_, ?_, ?_⟩ ⟨?_, ?_⟩ ?_ ?_
  · simp only [link_setColor, link_write, root_node]
    rw [update_of_ne (hlink _ hbf).symm, update_of_ne (hlink _ hbf).symm, update_self]
  · simp only [link_setColor, link_write]
    rw [update_of_ne (by simp), update_self]
  · simp only [link_setColor, link_write]
    rw [update_self]
  · simp only [color_setColor]
    rw [update_self]
  · exact hsl.congr fun x hx => hat x (by simp [toList, hx])
  · exact hsr.congr fun x hx => hat x (by simp [toList, hx])
  · intro k hk hmem
    have hne : ∀ s, k ≠ .child s b := by
      rintro s rfl
      rcases hmem with h | ⟨s', x, hx, heq⟩
      · cases h
      · cases heq
        exact hbf hx
    simp only [link_setColor, link_write]
    rw [update_of_ne (hne _), update_of_ne (hne _), update_of_ne hk]
  · intro x hx
    simp only [color_setColor, color_write]
    rw [update_of_ne (ne_of_mem_of_not_mem hx hbf)]
  · have h' : (join .left c l a r).toList.Nodup := hnodup
    obtain ⟨h1, h2, -, -, h5⟩ := nodup_join.1 h'
    simp only [toList, mem_append, mem_cons, not_or] at hbt
    have hres : (join .left c l b r).toList.Nodup := nodup_join.2 ⟨h1, h2, hbt.1, hbt.2.2, h5⟩
    exact hres
  · intro x hx
    simp only [toList, mem_append, mem_cons] at hx
    rcases hx with hx | rfl | hx
    · exact hdisj x (by simp [toList, hx])
    · exact hbf
    · exact hdisj x (by simp [toList, hx])

/-- A node is taken out: at the place `gs` is the subtree `x`, what is left of the subtree of the
node, or of the next bigger one, and it lacks a node of the colour `removed`. -/
structure Unlinked (t : Tree ℕ) (rest : List ℕ) (heap' : Heap) (x : Tree ℕ) (gs : List (Frame ℕ))
    (removed : Color) : Prop where
  represents : Represents heap' (zip x gs)
  list : (zip x gs).toList = rest
  balanced : ∃ d k, Balanced x d k ∧ Accepts .black (k + removed.weight) gs ∧
    (removed = .red → d = .black)
  depth : ∃ u gs', zip u gs' = t ∧ gs'.length = gs.length

/-- An element with at most one child. -/
theorem unlink_child {s : Side} {n : ℕ} (hr : Represents heap (zip (join s c t a u) fs))
    (hbal : Balanced (zip (join s c t a u) fs) .black n) (hu : u = .nil) :
    Unlinked (zip (join s c t a u) fs) (before fs ++ t.toList ++ after fs)
      (heap.write (linkOf fs) t.root) t fs c := by
  subst hu
  obtain ⟨-, -, -, hs, -⟩ := shape_join.1 hr.split.1
  obtain ⟨e, m, hjoin, hfs⟩ := Balanced.unzip hbal
  have hsub : t.toList.Sublist (join s c t a .nil).toList := by
    cases s <;> simp [join, toList]
  exact ⟨represents_part hr hs hsub, toList_zip _ _, hfs.take_away hjoin, _, fs, rfl, rfl⟩

section

variable (hr : Represents heap (zip (node c l a r) fs))
include hr

/-- A node `a` with two children, and the next one `b`, which has no left child: after `b` was taken
out, `a` is what it was, and `b` is not in the tree. -/
theorem next_out (hgs : r = zip (node d .nil b v) gs) : heap.link (.child .right b) = v.root ∧
      Represents (heap.write (linkOf (gs ++ ⟨.right, c, a, l⟩ :: fs)) v.root)
        (zip (node c l a (zip v gs)) fs) ∧
      b ∉ (zip (node c l a (zip v gs)) fs).toList := by
  have hwhole : zip (node c l a r) fs = zip (node d .nil b v) (gs ++ ⟨.right, c, a, l⟩ :: fs) := by
    rw [zip_append, ← hgs]
    rfl
  rw [hwhole] at hr
  have hpart := represents_part hr hr.split.1.2.2.2.2
    (show v.toList.Sublist (node d .nil b v).toList by simp [toList])
  rw [zip_append] at hpart
  refine ⟨hr.split.1.2.1, hpart, ?_⟩
  obtain ⟨hnodup, -, hdisj⟩ := hr.disjoint
  have hb := hdisj b (by simp [toList])
  have hbv : b ∉ v.toList := by
    simp only [toList, nil_append, nodup_cons] at hnodup
    exact hnodup.1
  have hrest : zip (node c l a (zip v gs)) fs = zip v (gs ++ ⟨.right, c, a, l⟩ :: fs) := by
    rw [zip_append]
    rfl
  rw [hrest, mem_toList_zip, not_or]
  exact ⟨hbv, hb⟩

/-- **A node with two children**: the next one takes its place. -/
theorem unlink_next {n : ℕ}
    (hbal : Balanced (zip (node c l a r) fs) .black n) (hgs : r = zip (node d .nil b v) gs)
    (hbefore : before gs = []) :
    Unlinked (zip (node c l a r) fs) (before fs ++ (l.toList ++ r.toList) ++ after fs)
      (((((heap.write (linkOf (gs ++ ⟨.right, c, a, l⟩ :: fs)) v.root).write (linkOf fs)
        (some b)).write (.child .left b) l.root).write (.child .right b) (zip v gs).root).setColor b c)
      v (gs ++ ⟨.right, c, b, l⟩ :: fs) d := by
  obtain ⟨-, hr2, hb⟩ := next_out hr hgs
  have hwhole : zip (node c l a r) fs = zip (node d .nil b v) (gs ++ ⟨.right, c, a, l⟩ :: fs) := by
    rw [zip_append, ← hgs]
    rfl
  have hlist : r.toList = b :: (zip v gs).toList := by
    rw [hgs, toList_zip, toList_zip, hbefore]
    simp [toList]
  have hplace : zip v (gs ++ ⟨.right, c, b, l⟩ :: fs) = zip (node c l b (zip v gs)) fs := by
    rw [zip_append]
    rfl
  obtain ⟨e, m, hnode, hfs⟩ := Balanced.unzip (hwhole ▸ hbal)
  have hjoin : Balanced (join .right d v b .nil) e m := hnode
  obtain ⟨d', k, hv', hacc, hred⟩ := hfs.take_away hjoin
  refine ⟨?_, ?_, ⟨d', k, hv', hacc.change b, hred⟩, _, _, hwhole.symm, by simp⟩
  · rw [hplace]
    exact represents_swap hr2 hb
  · rw [hplace, toList_zip, hlist]
    simp [toList]

/-- What is read of `a` after `b` was taken out, and written anywhere but at the links of `a`. -/
theorem next_reads (hgs : r = zip (node d .nil b v) gs) :
    a ≠ b ∧ (∀ s, Link.child s a ≠ linkOf fs) ∧ (∀ s, Link.child s b ≠ linkOf fs) ∧
      (heap.write (linkOf (gs ++ ⟨.right, c, a, l⟩ :: fs)) v.root).link (.child .left a) = l.root ∧
      (heap.write (linkOf (gs ++ ⟨.right, c, a, l⟩ :: fs)) v.root).link (.child .right a) =
        (zip v gs).root := by
  obtain ⟨-, hr2, hb⟩ := next_out hr hgs
  obtain ⟨hla, hra, -⟩ := hr2.split.1
  rw [mem_toList_zip, not_or] at hb
  refine ⟨?_, fun s => child_ne_linkOf (hr2.disjoint.2.2 a (by simp [toList])),
    fun s => child_ne_linkOf hb.2, hla, hra⟩
  rintro rfl
  exact hb.1 (by simp [toList])

end

end RedBlack
