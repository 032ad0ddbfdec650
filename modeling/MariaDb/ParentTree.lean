/-
**Linked trees with parent pointers.**

Each node has a pointer to its parent too, and the root has none.  A rotation finds the link that it
has to write by the parent of the node; in a heap that represents a tree this is the link at the end
of the path.

Main definitions:

* `Parents`, `ParentsAround`: the parent pointers are those of a tree;
* `UpHeap`, `RepresentsUp`: a heap with parent pointers;
* `UpHeap.parentPtr`, `UpHeap.rotate`: a rotation that finds its link.

Main results:

* `parents_zip`: the pointers at a place and around it.
-/

import MariaDb.TreeEdits

set_option autoImplicit false

namespace RedBlack

open RedBlack.Tree Function

variable {t u : Tree ℕ} {fs gs : List (Frame ℕ)} {s : Side} {c d : Color} {a b : ℕ}
  {parent parent' : ℕ → Option ℕ} {p q : Option ℕ}

/-! ### Parent pointers -/

/-- The parents of the nodes of a tree, with `p` over its root. -/
def Parents (parent : ℕ → Option ℕ) : Tree ℕ → Option ℕ → Prop
  | .nil, _ => True
  | .node _ l a r, p => parent a = p ∧ Parents parent l (some a) ∧ Parents parent r (some a)

theorem parents_join : Parents parent (join s c t a u) p ↔
    parent a = p ∧ Parents parent t (some a) ∧ Parents parent u (some a) := by
  cases s
  · exact Iff.rfl
  · exact and_congr_right fun _ => and_comm

theorem Parents.congr (ht : Parents parent t p) (hsame : ∀ x ∈ t.toList, parent' x = parent x) :
    Parents parent' t p := by
  induction t generalizing p with
  | nil => trivial
  | node c l a r ihl ihr =>
    obtain ⟨ha, hl, hr⟩ := ht
    exact ⟨(hsame a (by simp [toList])).trans ha, ihl hl fun x hx => hsame x (by simp [toList, hx]),
      ihr hr fun x hx => hsame x (by simp [toList, hx])⟩

/-- The tree gets another parent. -/
theorem Parents.move (ht : Parents parent t p) (hnodup : t.toList.Nodup)
    (hroot : ∀ x, t.root = some x → parent' x = q)
    (hsame : ∀ x ∈ t.toList, t.root ≠ some x → parent' x = parent x) : Parents parent' t q := by
  cases t with
  | nil => trivial
  | node c l a r =>
    obtain ⟨-, hl, hr⟩ := ht
    have hjoin : (join .left c l a r).toList.Nodup := hnodup
    obtain ⟨-, -, hal, har, -⟩ := nodup_join.1 hjoin
    refine ⟨hroot a rfl, hl.congr fun x hx => hsame x (by simp [toList, hx]) ?_,
      hr.congr fun x hx => hsame x (by simp [toList, hx]) ?_⟩
    · rw [root_node, ne_eq, Option.some.injEq]
      rintro rfl
      exact hal hx
    · rw [root_node, ne_eq, Option.some.injEq]
      rintro rfl
      exact har hx

/-- The node over a place, with `p` over the whole tree. -/
def above (p : Option ℕ) : List (Frame ℕ) → Option ℕ
  | [] => p
  | f :: _ => some f.elem

/-- The parents of the nodes around a place. -/
def ParentsAround (parent : ℕ → Option ℕ) (p : Option ℕ) : List (Frame ℕ) → Prop
  | [] => True
  | f :: fs => parent f.elem = above p fs ∧ Parents parent f.sibling (some f.elem) ∧
      ParentsAround parent p fs

theorem parents_zip : Parents parent (zip t fs) p ↔
    Parents parent t (above p fs) ∧ ParentsAround parent p fs := by
  induction fs generalizing t with
  | nil => simp [zip, above, ParentsAround]
  | cons f fs ih =>
    rw [zip, ih, Frame.plug, parents_join]
    simp only [above, ParentsAround]
    tauto

theorem ParentsAround.congr (hfs : ParentsAround parent p fs)
    (hsame : ∀ x ∈ around fs, parent' x = parent x) : ParentsAround parent' p fs := by
  induction fs with
  | nil => trivial
  | cons f fs ih =>
    obtain ⟨h1, h2, h3⟩ := hfs
    refine ⟨(hsame _ (mem_around_cons.2 (.inl rfl))).trans h1, h2.congr fun x hx => ?_,
      ih h3 fun x hx => ?_⟩
    · exact hsame x (mem_around_cons.2 (.inr (.inl hx)))
    · exact hsame x (mem_around_cons.2 (.inr (.inr hx)))

/-! ### Heaps -/

/-- The links and the colours of the nodes, and their parents. -/
structure UpHeap extends Heap where
  parent : ℕ → Option ℕ

namespace UpHeap

variable (h : UpHeap) (l : Link) (x p : Option ℕ)

def write (h : UpHeap) (l : Link) (p : Option ℕ) : UpHeap := { h with toHeap := h.toHeap.write l p }

def setColor (h : UpHeap) (a : ℕ) (c : Color) : UpHeap :=
  { h with toHeap := h.toHeap.setColor a c }

/-- A node gets a parent; nothing is done for the null node. -/
def setParent (x p : Option ℕ) : UpHeap :=
  match x with
  | none => h
  | some a => { h with parent := update h.parent a p }

/-- The link to a node: the root, or the one of its parent. -/
def parentPtr (a : ℕ) : Link :=
  match h.parent a with
  | none => .root
  | some p => .child (if h.link (.child .left p) = some a then .left else .right) p

/-- A rotation: the child `y` of `a` on the other side is turned up in its place, and the subtree
between them changes its parent. -/
def rotate (h : UpHeap) (s : Side) (a : ℕ) : Option UpHeap :=
  (h.link (.child s.other a)).bind fun y =>
    let h1 := h.setParent (h.link (.child s y)) (some a)
    let h2 := h1.setParent (some y) (h1.parent a)
    let h3 := h2.setParent (some a) (some y)
    (h.toHeap.rotate s (h.parentPtr a) a).map fun heap => { h3 with toHeap := heap }

@[simp] theorem toHeap_setColor (a : ℕ) (c : Color) :
    (h.setColor a c).toHeap = h.toHeap.setColor a c := rfl

@[simp] theorem parent_setColor (a : ℕ) (c : Color) : (h.setColor a c).parent = h.parent := rfl

@[simp] theorem toHeap_write (p : Option ℕ) : (h.write l p).toHeap = h.toHeap.write l p := rfl

@[simp] theorem parent_write (p : Option ℕ) : (h.write l p).parent = h.parent := rfl

@[simp] theorem toHeap_setParent : (h.setParent x p).toHeap = h.toHeap := by
  cases x <;> rfl

theorem parent_setParent (y : ℕ) :
    (h.setParent x p).parent y = if x = some y then p else h.parent y := by
  cases x with
  | none => rfl
  | some a =>
    by_cases hy : a = y
    · subst hy
      simp [setParent]
    · simp [setParent, hy, update_of_ne (Ne.symm hy)]

end UpHeap

variable {h : UpHeap}

/-- The heap holds the tree, with its parent pointers. -/
structure RepresentsUp (h : UpHeap) (t : Tree ℕ) : Prop extends Represents h.toHeap t where
  parents : Parents h.parent t none

namespace RepresentsUp

section

variable (hr : RepresentsUp h (zip (join s c t a u) fs))
include hr

/-- What the program finds as the link to a node. -/
theorem parentPtr_eq : h.parentPtr a = linkOf fs := by
  obtain ⟨hjoin, -⟩ := parents_zip.1 hr.parents
  have ha := (parents_join.1 hjoin).1
  unfold UpHeap.parentPtr
  cases fs with
  | nil => simp [ha, above, linkOf]
  | cons f fs =>
    simp only [ha, above, linkOf_cons]
    have hside := hr.toRepresents.side_iff (s := .left) (.inl (join_ne_nil _ _ _ _ _))
    rw [root_join] at hside
    simp only [hside]
    cases f.side <;> simp

theorem parent_eq : h.parent a = above none fs :=
  (parents_join.1 (parents_zip.1 hr.parents).1).1

/-- The node at a place is painted. -/
theorem paint (d : Color) : RepresentsUp (h.setColor a d) (zip (join s d t a u) fs) where
  toRepresents := hr.toRepresents.paint d
  parents := by
    have hp := hr.parents
    rw [parents_zip, parents_join] at hp ⊢
    exact hp

end

theorem rotate {A B C : Tree ℕ} (hr : RepresentsUp h (zip (join s c A a (join s d B b C)) fs)) :
    ∃ h', h.rotate s a = some h' ∧ RepresentsUp h' (zip (join s d (join s c A a B) b C) fs) := by
  obtain ⟨heap, hrot, -, hr'⟩ := hr.toRepresents.rotate
  have hptr := hr.parentPtr_eq
  obtain ⟨hnodup, -, hdisj⟩ := hr.toRepresents.disjoint
  obtain ⟨hA, hbc, haA, habc, hAbc⟩ := nodup_join.1 hnodup
  obtain ⟨hB, hC, hbB, hbC, hBC⟩ := nodup_join.1 hbc
  simp only [mem_toList_join, not_or] at habc hAbc hdisj
  have hp := hr.parents
  simp only [parents_zip, parents_join] at hp
  obtain ⟨⟨ha, hpA, hb, hpB, hpC⟩, haround⟩ := hp
  have hy : h.link (.child s.other a) = some b := by
    rw [hr.toRepresents.join_eq.2.1, root_join]
  have hz : h.link (.child s b) = B.root := by
    have hr1 := hr.toRepresents
    rw [zip_other] at hr1
    exact hr1.join_eq.1
  have hsome : h.rotate s a = some { ((h.setParent B.root (some a)).setParent (some b)
      ((h.setParent B.root (some a)).parent a)).setParent (some a) (some b) with
        toHeap := heap } := by
    simp [UpHeap.rotate, hy, hz, hptr, hrot]
  refine ⟨_, hsome, hr', ?_⟩
  have hBa : B.root ≠ some a := fun h => habc.1 (mem_of_root h)
  -- the parents after the three assignments
  set parent' := (((h.setParent B.root (some a)).setParent (some b)
    ((h.setParent B.root (some a)).parent a)).setParent (some a) (some b)).parent with hparent'
  have hval : ∀ x, parent' x = if a = x then some b else if b = x then above none fs
      else if B.root = some x then some a else h.parent x := by
    intro x
    simp [hparent', UpHeap.parent_setParent, if_neg hBa, ha]
  have hother : ∀ x, x ≠ a → x ≠ b → B.root ≠ some x → parent' x = h.parent x := by
    intro x hxa hxb hxB
    rw [hval, if_neg hxa.symm, if_neg hxb.symm, if_neg hxB]
  have hnotB : ∀ x, x ∉ B.toList → B.root ≠ some x := fun x hx h => hx (mem_of_root h)
  simp only [parents_zip, parents_join]
  refine ⟨⟨?_, ⟨?_, ?_, ?_⟩, ?_⟩, ?_⟩
  · rw [hval, if_neg habc.2.1, if_pos rfl]
  · rw [hval, if_pos rfl]
  · refine hpA.congr fun x hx => hother x (ne_of_mem_of_not_mem hx haA) ?_ (hnotB x (hAbc x hx).1)
    rintro rfl
    exact (hAbc x hx).2.1 rfl
  · refine hpB.move hB (fun x hx => ?_) fun x hx hne => hother x ?_ ?_ hne
    · have hxb : b ≠ x := by
        rintro rfl
        exact hbB (mem_of_root hx)
      have hxa : a ≠ x := by
        rintro rfl
        exact habc.1 (mem_of_root hx)
      rw [hval, if_neg hxa, if_neg hxb, if_pos hx]
    · rintro rfl
      exact habc.1 hx
    · exact ne_of_mem_of_not_mem hx hbB
  · refine hpC.congr fun x hx => hother x ?_ (ne_of_mem_of_not_mem hx hbC)
      (hnotB x fun hxB => hBC x hxB hx)
    rintro rfl
    exact habc.2.2 hx
  · refine haround.congr fun x hx => hother x ?_ ?_ (hnotB x fun hxB => ?_)
    · rintro rfl
      exact hdisj x (by tauto) hx
    · rintro rfl
      exact hdisj x (by tauto) hx
    · exact hdisj x (by tauto) hx

end RepresentsUp

end RedBlack
