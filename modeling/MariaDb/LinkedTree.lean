/-
**Trees of linked nodes.**

A heap has for each node the links to its two children and a colour, and a link to the root.  It
represents a tree if its links are those of the tree and no node is in the tree twice.  All that a
program does to a balanced tree is to write links and to paint nodes; `Represents.replace` says what
has to be checked when the subtree at one place is replaced by another one, and the rotation is the
instance of it that the repairs use.

Main definitions:

* `Heap`, `Link`: the memory and the places where a pointer to a node is;
* `Shape`, `Represents`: the heap holds a tree;
* `linkOf`: the link at the end of a path;
* `Heap.rotate`: a rotation.

Main results:

* `Represents.link_eq`, `Represents.side_iff`: what a program reads;
* `Represents.replace`: a subtree is replaced;
* `Represents.paint`, `Represents.rotate`: painting and rotating.
-/

import MariaDb.RedBlack
import Mathlib.Logic.Function.Basic

set_option autoImplicit false

namespace RedBlack

open RedBlack.Tree Function List

/-- A place where a pointer to a node is. -/
inductive Link where
  | root
  | child (s : Side) (a : ℕ)
  deriving DecidableEq

/-- The links and the colours of the nodes. -/
structure Heap where
  link : Link → Option ℕ
  color : ℕ → Color

namespace Heap

def write (h : Heap) (l : Link) (p : Option ℕ) : Heap := { h with link := update h.link l p }

def setColor (h : Heap) (a : ℕ) (c : Color) : Heap := { h with color := update h.color a c }

/-- The colour of the node that a pointer points to; the null node is black. -/
def colorOf (h : Heap) : Option ℕ → Color
  | none => .black
  | some a => h.color a

end Heap

variable {h h' : Heap} {t u t' : Tree ℕ} {fs : List (Frame ℕ)} {s : Side} {c d : Color} {a b : ℕ}

@[simp] theorem Heap.link_write (l : Link) (p : Option ℕ) :
    (h.write l p).link = update h.link l p := rfl

@[simp] theorem Heap.color_write (l : Link) (p : Option ℕ) : (h.write l p).color = h.color := rfl

@[simp] theorem Heap.link_setColor : (h.setColor a c).link = h.link := rfl

@[simp] theorem Heap.color_setColor : (h.setColor a c).color = update h.color a c := rfl

/-! ### Shapes -/

/-- The links and colours of the nodes of a tree are those of the heap. -/
def Shape (h : Heap) : Tree ℕ → Prop
  | .nil => True
  | .node c l a r => h.link (.child .left a) = l.root ∧ h.link (.child .right a) = r.root ∧
      h.color a = c ∧ Shape h l ∧ Shape h r

theorem shape_join : Shape h (join s c t a u) ↔
    h.link (.child s a) = t.root ∧ h.link (.child s.other a) = u.root ∧ h.color a = c ∧
      Shape h t ∧ Shape h u := by
  cases s
  · exact Iff.rfl
  · simp only [join, Shape, Side.other]
    tauto

/-- Two heaps have the same links and colours at a node. -/
def AgreeAt (h h' : Heap) (x : ℕ) : Prop :=
  (∀ s, h'.link (.child s x) = h.link (.child s x)) ∧ h'.color x = h.color x

theorem Shape.congr (ht : Shape h t) (hagree : ∀ x ∈ t.toList, AgreeAt h h' x) : Shape h' t := by
  induction t with
  | nil => trivial
  | node c l a r ihl ihr =>
    obtain ⟨hl, hr, hc, hsl, hsr⟩ := ht
    obtain ⟨hlink, hcolor⟩ := hagree a (by simp [toList])
    exact ⟨(hlink _).trans hl, (hlink _).trans hr, hcolor.trans hc,
      ihl hsl fun x hx => hagree x (by simp [toList, hx]),
      ihr hsr fun x hx => hagree x (by simp [toList, hx])⟩

theorem Shape.colorOf (ht : Shape h t) : h.colorOf t.root = t.color := by
  cases t with
  | nil => rfl
  | node c l a r => exact ht.2.2.1

/-- The nodes under a pointer from left to right.  The fuel bounds the depth. -/
def Heap.inorder (h : Heap) : ℕ → Option ℕ → Option (List ℕ)
  | _, none => some []
  | 0, some _ => none
  | fuel + 1, some a =>
    (h.inorder fuel (h.link (.child .left a))).bind fun l =>
      (h.inorder fuel (h.link (.child .right a))).map fun r => l ++ a :: r

theorem Shape.inorder (ht : Shape h t) {fuel : ℕ} (hfuel : t.toList.length ≤ fuel) :
    h.inorder fuel t.root = some t.toList := by
  induction t generalizing fuel with
  | nil => cases fuel <;> rfl
  | node c l a r ihl ihr =>
    obtain ⟨hl, hr, -, hsl, hsr⟩ := ht
    simp only [toList, length_append, length_cons] at hfuel
    obtain _ | fuel := fuel
    · omega
    have hwl := ihl hsl (show l.toList.length ≤ fuel by omega)
    have hwr := ihr hsr (show r.toList.length ≤ fuel by omega)
    simp [root_node, Heap.inorder, hl, hr, hwl, hwr, toList]

/-- The nodes on a path and beside it are those of the heap, with `p` at the place. -/
def ShapeAround (h : Heap) : List (Frame ℕ) → Option ℕ → Prop
  | [], p => h.link .root = p
  | f :: fs, p => h.link (.child f.side f.elem) = p ∧
      h.link (.child f.side.other f.elem) = f.sibling.root ∧ h.color f.elem = f.color ∧
      Shape h f.sibling ∧ ShapeAround h fs (some f.elem)

/-- The link at the end of a path. -/
def linkOf : List (Frame ℕ) → Link
  | [] => .root
  | f :: _ => .child f.side f.elem

@[simp] theorem linkOf_cons (f : Frame ℕ) (fs : List (Frame ℕ)) :
    linkOf (f :: fs) = .child f.side f.elem := rfl

theorem ShapeAround.link {p : Option ℕ} (hfs : ShapeAround h fs p) : h.link (linkOf fs) = p := by
  cases fs with
  | nil => exact hfs
  | cons f fs => exact hfs.1

/-- The nodes of a tree around a place. -/
def around (fs : List (Frame ℕ)) : List ℕ := before fs ++ after fs

theorem mem_around_cons {f : Frame ℕ} {x : ℕ} :
    x ∈ around (f :: fs) ↔ x = f.elem ∨ x ∈ f.sibling.toList ∨ x ∈ around fs := by
  cases hs : f.side
  all_goals
    simp only [around, before, after, hs, mem_append, mem_cons, not_mem_nil]
    tauto

theorem mem_toList_zip {x : ℕ} : x ∈ (zip t fs).toList ↔ x ∈ t.toList ∨ x ∈ around fs := by
  simp only [toList_zip, around, mem_append]
  tauto

/-- Two heaps have the same links, but for one, and the same colours around a place. -/
def AgreeAround (h h' : Heap) (fs : List (Frame ℕ)) : Prop :=
  (∀ l, l ≠ linkOf fs → (l = .root ∨ ∃ s x, x ∈ around fs ∧ l = .child s x) →
    h'.link l = h.link l) ∧ ∀ x ∈ around fs, h'.color x = h.color x

theorem ShapeAround.congr {p : Option ℕ} (hfs : ShapeAround h fs p)
    (hlink : h'.link .root = h.link .root) (hagree : ∀ x ∈ around fs, AgreeAt h h' x) :
    ShapeAround h' fs p := by
  induction fs generalizing p with
  | nil => exact hlink.trans hfs
  | cons f fs ih =>
    obtain ⟨h1, h2, h3, h4, h5⟩ := hfs
    obtain ⟨hl, hc⟩ := hagree f.elem (mem_around_cons.2 (.inl rfl))
    refine ⟨(hl _).trans h1, (hl _).trans h2, hc.trans h3, h4.congr fun x hx => ?_,
      ih h5 fun x hx => ?_⟩
    · exact hagree x (mem_around_cons.2 (.inr (.inl hx)))
    · exact hagree x (mem_around_cons.2 (.inr (.inr hx)))

theorem shape_zip : h.link .root = (zip t fs).root ∧ Shape h (zip t fs) ↔
    Shape h t ∧ ShapeAround h fs t.root := by
  induction fs generalizing t with
  | nil => exact and_comm
  | cons f fs ih =>
    rw [zip, ih, Frame.plug, shape_join, root_join]
    simp only [ShapeAround]
    tauto

theorem mem_toList_join {x : ℕ} :
    x ∈ (join s c t a u).toList ↔ x ∈ t.toList ∨ x = a ∨ x ∈ u.toList := by
  cases s
  · simp [join, toList, mem_append]
  · simp only [join, toList, mem_append, mem_cons]
    tauto

theorem nodup_join : (join s c t a u).toList.Nodup ↔
    t.toList.Nodup ∧ u.toList.Nodup ∧ a ∉ t.toList ∧ a ∉ u.toList ∧
      ∀ x ∈ t.toList, x ∉ u.toList := by
  cases s <;> simp only [join, toList, nodup_append, nodup_cons, mem_cons]
  all_goals grind

theorem nodup_zip : (zip t fs).toList.Nodup ↔
    t.toList.Nodup ∧ (around fs).Nodup ∧ ∀ x ∈ t.toList, x ∉ around fs := by
  have hperm : (before fs ++ t.toList ++ after fs).Perm (t.toList ++ around fs) := by
    rw [around, ← append_assoc]
    exact perm_append_comm.append_right _
  rw [toList_zip, hperm.nodup_iff, nodup_append]
  refine and_congr_right fun _ => and_congr_right fun _ => ?_
  exact ⟨fun h x hx hx' => h x hx x hx' rfl, fun h x hx y hy hxy => h x hx (hxy ▸ hy)⟩

/-- A node of a path is not elsewhere. -/
theorem nodup_around_cons {f : Frame ℕ} (h : (around (f :: fs)).Nodup) :
    f.elem ∉ f.sibling.toList ∧ f.elem ∉ around fs := by
  have hnodup : (zip .nil (f :: fs)).toList.Nodup :=
    nodup_zip.2 ⟨nodup_nil, h, by simp [toList]⟩
  rw [zip] at hnodup
  obtain ⟨hplug, -, hdisj⟩ := nodup_zip.1 hnodup
  refine ⟨fun hmem => ?_, hdisj _ (mem_of_root (root_join _ _ _ _ _))⟩
  rw [Frame.plug] at hplug
  cases hs : f.side
  · rw [hs] at hplug
    simp only [join, toList, nil_append, nodup_cons] at hplug
    exact hplug.1 hmem
  · rw [hs] at hplug
    simp only [join, toList, nodup_append] at hplug
    exact hplug.2.2 _ hmem f.elem (by simp) rfl

/-! ### Trees in a heap -/

/-- The heap holds the tree. -/
structure Represents (h : Heap) (t : Tree ℕ) : Prop where
  root : h.link .root = t.root
  shape : Shape h t
  nodup : t.toList.Nodup

theorem zip_other : zip (join s c t a u) fs = zip u (⟨s.other, c, a, t⟩ :: fs) := by
  rw [zip, Frame.plug, join_other]

namespace Represents

theorem split (hr : Represents h (zip t fs)) : Shape h t ∧ ShapeAround h fs t.root :=
  shape_zip.1 ⟨hr.root, hr.shape⟩

/-- What the link at a place points to. -/
theorem link_eq (hr : Represents h (zip t fs)) : h.link (linkOf fs) = t.root := hr.split.2.link

theorem join_eq (hr : Represents h (zip (join s c t a u) fs)) :
    h.link (.child s a) = t.root ∧ h.link (.child s.other a) = u.root ∧ h.color a = c := by
  obtain ⟨h1, h2, h3, -⟩ := shape_join.1 hr.split.1
  exact ⟨h1, h2, h3⟩

section

variable (hr : Represents h (zip t fs))
include hr

theorem colorOf : h.colorOf t.root = t.color :=
  hr.split.1.colorOf

theorem disjoint : t.toList.Nodup ∧ (around fs).Nodup ∧ ∀ x ∈ t.toList, x ∉ around fs :=
  nodup_zip.1 hr.nodup

/-- The subtree at a place is replaced: its own nodes have to be right, and everything around the
place has to be as it was but for the link at the place. -/
theorem replace (hlink : h'.link (linkOf fs) = t'.root)
    (hshape : Shape h' t') (hagree : AgreeAround h h' fs) (hnodup : t'.toList.Nodup)
    (hfresh : ∀ x ∈ t'.toList, x ∉ around fs) : Represents h' (zip t' fs) := by
  obtain ⟨-, haround⟩ := hr.split
  obtain ⟨hl, hc⟩ := hagree
  have hfs : ShapeAround h' fs t'.root := by
    cases fs with
    | nil => exact hlink
    | cons f fs =>
      obtain ⟨-, h2, h3, h4, h5⟩ := haround
      have hdisj := nodup_around_cons hr.disjoint.2.1
      have hat : ∀ x ∈ around (f :: fs), x ≠ f.elem → AgreeAt h h' x := by
        intro x hx hne
        refine ⟨fun s => hl _ ?_ (.inr ⟨s, x, hx, rfl⟩), hc x hx⟩
        intro heq
        simp only [linkOf, Link.child.injEq] at heq
        exact hne heq.2
      have hmem : f.elem ∈ around (f :: fs) := mem_around_cons.2 (.inl rfl)
      refine ⟨hlink, ?_, (hc _ hmem).trans h3, h4.congr fun x hx => ?_,
        h5.congr (hl _ (by simp [linkOf]) (.inl rfl)) fun x hx => ?_⟩
      · rw [hl _ (by simp [linkOf]) (.inr ⟨_, _, hmem, rfl⟩), h2]
      · refine hat x (mem_around_cons.2 (.inr (.inl hx))) ?_
        rintro rfl
        exact hdisj.1 hx
      · refine hat x (mem_around_cons.2 (.inr (.inr hx))) ?_
        rintro rfl
        exact hdisj.2 hx
  obtain ⟨hroot, hwhole⟩ := shape_zip.2 ⟨hshape, hfs⟩
  exact ⟨hroot, hwhole, nodup_zip.2 ⟨hnodup, hr.disjoint.2.1, hfresh⟩⟩

end

/-- The node at a place is painted. -/
theorem paint (hr : Represents h (zip (join s c t a u) fs)) (d : Color) :
    Represents (h.setColor a d) (zip (join s d t a u) fs) := by
  obtain ⟨hnodup, -, hdisj⟩ := hr.disjoint
  obtain ⟨-, -, hat, hau, -⟩ := nodup_join.1 hnodup
  obtain ⟨h1, h2, -, h4, h5⟩ := shape_join.1 hr.split.1
  have hcolor : ∀ x, x ≠ a → (h.setColor a d).color x = h.color x := fun x hx =>
    update_of_ne hx _ _
  refine hr.replace ?_ (shape_join.2 ⟨h1, h2, update_self _ _ _, ?_, ?_⟩) ⟨fun _ _ _ => rfl, ?_⟩ ?_ ?_
  · rw [root_join, ← root_join s c t a u]
    exact hr.link_eq
  · exact h4.congr fun x hx => ⟨fun _ => rfl, hcolor x (ne_of_mem_of_not_mem hx hat)⟩
  · exact h5.congr fun x hx => ⟨fun _ => rfl, hcolor x (ne_of_mem_of_not_mem hx hau)⟩
  · intro x hx
    refine hcolor x ?_
    rintro rfl
    exact hdisj x (mem_toList_join.2 (.inr (.inl rfl))) hx
  · exact nodup_join.2 (nodup_join.1 hnodup)
  · intro x hx
    exact hdisj x (mem_toList_join.2 (mem_toList_join.1 hx))

/-- The side on which a node has the subtree of a place. -/
theorem side_iff {f : Frame ℕ} (hr : Represents h (zip t (f :: fs)))
    (hne : t ≠ .nil ∨ f.sibling ≠ .nil) : h.link (.child s f.elem) = t.root ↔ s = f.side := by
  rw [zip, Frame.plug] at hr
  obtain ⟨hside, hother, -⟩ := hr.join_eq
  constructor
  · intro heq
    by_contra hs
    rw [Side.eq_other_of_ne hs, hother] at heq
    have hdisj := (nodup_join.1 hr.disjoint.1).2.2.2.2
    cases hroot : t.root with
    | none =>
      rw [hroot] at heq
      rw [root_eq_none] at hroot heq
      exact hne.elim (absurd hroot) (absurd heq)
    | some x => exact hdisj x (mem_of_root hroot) (mem_of_root (heq.trans hroot))
  · rintro rfl
    exact hside

theorem root_ne {f : Frame ℕ} (hr : Represents h (zip t (f :: fs))) : h.link .root ≠ t.root := by
  rw [hr.root, root_zip]
  intro heq
  obtain ⟨g, hg⟩ : ∃ g, (f :: fs).getLast? = some g :=
    ⟨_, getLast?_eq_some_getLast (cons_ne_nil f fs)⟩
  rw [hg, Option.map_some, Option.some_or] at heq
  have hmem := mem_around (mem_of_getLast? hg)
  exact hr.disjoint.2.2 _ (mem_of_root heq.symm) (mem_append.2 hmem)

end Represents

/-! ### Rotation -/

/-- The child of `a` on the other side is turned up in its place, and `a` becomes its child on the
side `s`. -/
def Heap.rotate (h : Heap) (s : Side) (l : Link) (a : ℕ) : Option Heap :=
  (h.link (.child s.other a)).map fun y =>
    ((h.write (.child s.other a) (h.link (.child s y))).write l (some y)).write (.child s y) (some a)

theorem child_ne_linkOf {x : ℕ} (hx : x ∉ around fs) : Link.child s x ≠ linkOf fs := by
  cases fs with
  | nil => simp [linkOf]
  | cons f fs =>
    simp only [linkOf, ne_eq, Link.child.injEq, not_and]
    rintro - rfl
    exact hx (mem_around_cons.2 (.inl rfl))

theorem Represents.rotate {A B C : Tree ℕ}
    (hr : Represents h (zip (join s c A a (join s d B b C)) fs)) :
    ∃ h', h.rotate s (linkOf fs) a = some h' ∧ h'.color = h.color ∧
      Represents h' (zip (join s d (join s c A a B) b C) fs) := by
  obtain ⟨hnodup, -, hdisj⟩ := hr.disjoint
  obtain ⟨hA, hbc, haA, habc, hAbc⟩ := nodup_join.1 hnodup
  obtain ⟨hB, hC, hbB, hbC, hBC⟩ := nodup_join.1 hbc
  obtain ⟨h1, h2, h3, hsA, hs⟩ := shape_join.1 hr.split.1
  obtain ⟨h4, h5, h6, hsB, hsC⟩ := shape_join.1 hs
  simp only [mem_toList_join, not_or] at habc hAbc hdisj
  have hab : a ≠ b := habc.2.1
  have hlink : ∀ {x} s', x ∈ A.toList ∨ x = a ∨ x ∈ B.toList ∨ x = b ∨ x ∈ C.toList →
      Link.child s' x ≠ linkOf fs := fun {x} s' hx => child_ne_linkOf (hdisj x (by tauto))
  have hrot : h.rotate s (linkOf fs) a = some (((h.write (.child s.other a) B.root).write (linkOf fs)
      (some b)).write (.child s b) (some a)) := by
    rw [Heap.rotate, h2, root_join, Option.map_some, h4]
  refine ⟨_, hrot, rfl, ?_⟩
  -- nothing is written but these three links
  have hother : ∀ {x} s', x ∈ A.toList ∨ x = a ∨ x ∈ B.toList ∨ x = b ∨ x ∈ C.toList →
      Link.child s' x ≠ .child s.other a → Link.child s' x ≠ .child s b →
      (((h.write (.child s.other a) B.root).write (linkOf fs) (some b)).write (.child s b)
        (some a)).link (.child s' x) = h.link (.child s' x) := by
    intro x s' hx ha hb
    simp only [Heap.link_write]
    rw [update_of_ne hb, update_of_ne (hlink s' hx), update_of_ne ha]
  have hat : ∀ {x}, x ∈ A.toList ∨ x ∈ B.toList ∨ x ∈ C.toList → x ≠ a → x ≠ b →
      AgreeAt h (((h.write (.child s.other a) B.root).write (linkOf fs) (some b)).write
        (.child s b) (some a)) x := by
    intro x hx hxa hxb
    refine ⟨fun s' => hother s' (by tauto) ?_ ?_, rfl⟩
    · simp [hxa]
    · simp [hxb]
  refine hr.replace ?_ (shape_join.2 ⟨?_, ?_, h6, shape_join.2 ⟨?_, ?_, h3, ?_, ?_⟩, ?_⟩) ⟨?_, ?_⟩
    ?_ ?_
  · simp only [Heap.link_write, root_join]
    rw [update_of_ne (hlink s (by tauto)).symm, update_self]
  · simp only [Heap.link_write, root_join]
    rw [update_self]
  · rw [hother _ (by tauto) (by simp [hab.symm]) (by simp), h5]
  · rw [hother _ (by tauto) (by simp) (by simp [hab]), h1]
  · simp only [Heap.link_write]
    rw [update_of_ne (by simp), update_of_ne (hlink _ (by tauto)), update_self]
  · refine hsA.congr fun x hx => hat (by tauto) (ne_of_mem_of_not_mem hx haA) ?_
    rintro rfl
    exact (hAbc x hx).2.1 rfl
  · refine hsB.congr fun x hx => hat (by tauto) ?_ (ne_of_mem_of_not_mem hx hbB)
    rintro rfl
    exact habc.1 hx
  · refine hsC.congr fun x hx => hat (by tauto) ?_ (ne_of_mem_of_not_mem hx hbC)
    rintro rfl
    exact habc.2.2 hx
  · rintro l hl hmem
    simp only [Heap.link_write]
    have hne : ∀ s' x, x = a ∨ x = b → l ≠ .child s' x := by
      rintro s' x hx rfl
      rcases hmem with hroot | ⟨s'', y, hy, heq⟩
      · cases hroot
      · cases heq
        exact hdisj x (by tauto) hy
    rw [update_of_ne (hne _ _ (.inr rfl)), update_of_ne hl, update_of_ne (hne _ _ (.inl rfl))]
  · exact fun x _ => rfl
  · refine nodup_join.2 ⟨nodup_join.2 ⟨hA, hB, haA, habc.1, fun x hx => (hAbc x hx).1⟩, hC, ?_, hbC,
      ?_⟩
    · simp only [mem_toList_join, not_or]
      exact ⟨fun hb => (hAbc b hb).2.1 rfl, hab.symm, hbB⟩
    simp only [mem_toList_join]
    rintro x (hx | rfl | hx)
    · exact (hAbc x hx).2.2
    · exact habc.2.2
    · exact hBC x hx
  · simp only [mem_toList_join]
    intro x hx
    exact hdisj x (by tauto)

end RedBlack
