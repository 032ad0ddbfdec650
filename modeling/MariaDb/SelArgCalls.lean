/-
**Inserting intervals and taking them out.**

`SEL_ARG::insert` puts a node at the empty place to which the comparisons of the minimum endpoints
lead, and beside its parent in the list.  `SEL_ARG::tree_delete` takes a node with two children out by
putting the next node of the list in its place, which is the first one of its right subtree.

Main definitions:

* `Holds`: a tree of intervals with its list, number and weight.

Main results:

* `insert_spec`: `SEL_ARG::insert`;
* `treeDelete_spec`: `SEL_ARG::tree_delete`.
-/

import MariaDb.SelArgFixup
import MariaDb.TreePlaces

set_option autoImplicit false

namespace SelArg

open RedBlack RedBlack.Tree ThreadedList Function UpHeap
open Option (bind_some map_some)
open List hiding zip after zip_append

variable {V : Type*} {field : Field V} {mem : Mem V} {heap : UpHeap} {t : RedBlack.Tree ℕ}
  {fs : List (Frame ℕ)} {this key : ℕ}

/-- The tree of intervals under `root`: balanced, ordered, in the same order as the list, and with
the right number and weight.  The later key parts are other trees. -/
structure Holds (field : Field V) (mem : Mem V) (root : ℕ) (t : RedBlack.Tree ℕ) : Prop where
  rooted : Rooted mem.heap root t
  balanced : ∃ m, Balanced t .black m
  threaded : Threaded mem.next mem.prev none none t.toList
  sorted : t.toList.Pairwise fun a b => (mem.arg a).cmpMinToMin field (mem.arg b) < 0
  elements : mem.elements root = UInt32.ofNat t.toList.length
  weight : mem.weight root = UInt32.ofNat
    (t.toList.length + (t.toList.map fun a => (mem.partWeight a).toNat).sum)
  later : ∀ a ∈ t.toList, ∀ b ∈ t.toList, mem.nextKeyPart a ≠ some b

theorem Rooted.root (h : Rooted heap this t) : t.root = some this := by
  rw [← h.represents.root, Heap.link_write, update_self]

theorem Rooted.shape (h : Rooted heap this t) : Shape heap.toHeap t :=
  h.represents.shape.congr fun _ _ => ⟨fun _ => by simp, rfl⟩

/-! ### Insertion -/

/-- The comparison that leads the way down. -/
def keyCmp (field : Field V) (mem : Mem V) (key element : ℕ) : ℤ :=
  -(mem.arg key).cmpMinToMin field (mem.arg element)

theorem insertPlace_spec (ht : Shape mem.heap.toHeap t) (hroot : t.root = some this)
    (hne : ∀ a ∈ t.toList, keyCmp field mem key a ≠ 0) (fs : List (Frame ℕ)) {fuel : ℕ}
    (hfuel : t.toList.length ≤ fuel) :
    ∃ s c last sib gs, insertPlace field mem key fuel this = some (last, s) ∧
      locate (keyCmp field mem key) t fs = (.nil, ⟨s, c, last, sib⟩ :: gs) := by
  induction t generalizing this fs fuel with
  | nil => simp [Tree.root] at hroot
  | node c l a r ihl ihr =>
    obtain rfl : a = this := by simpa using hroot
    obtain ⟨hl, hr, -, hsl, hsr⟩ := ht
    simp only [toList, length_append, length_cons] at hfuel
    obtain _ | fuel := fuel
    · omega
    obtain ⟨s, hs⟩ : ∃ s, s = if keyCmp field mem key a < 0 then Side.right else .left := ⟨_, rfl⟩
    have hside : (if 0 < (mem.arg key).cmpMinToMin field (mem.arg a) then Side.right else .left) =
        s := by
      rw [hs]
      unfold keyCmp
      exact if_congr (by omega) rfl rfl
    have hlink : mem.heap.link (.child s a) = ((node c l a r).child s).root := by
      cases s
      · exact hl
      · exact hr
    rw [locate_step (hne a (by simp [toList])) hs, insertPlace]
    simp only [hside, hlink]
    cases hchild : ((node c l a r).child s).root with
    | none =>
      have hnil := root_eq_none.1 hchild
      rw [hnil]
      exact ⟨s, c, a, _, fs, rfl, rfl⟩
    | some b =>
      cases s
      · exact ihl hsl hchild (fun x hx => hne x (by simp [toList, hx])) _ (by omega)
      · exact ihr hsr hchild (fun x hx => hne x (by simp [toList, hx])) _ (by omega)

theorem write_comm {h : Heap} {l l' : Link} (hne : l ≠ l') (p q : Option ℕ) :
    (h.write l p).write l' q = (h.write l' q).write l p := by
  unfold Heap.write
  simp only [update_comm hne]

/-- The new node at its place. -/
theorem rooted_new {s : Side} {c : Color} {last : ℕ} {sib : RedBlack.Tree ℕ}
    {gs : List (Frame ℕ)} (h : Rooted heap this (zip .nil (⟨s, c, last, sib⟩ :: gs)))
    (hkey : key ∉ (zip .nil (⟨s, c, last, sib⟩ :: gs)).toList) :
    Rooted ((((heap.write (.child s last) (some key)).setParent (some key) (some last)).write
      (.child .left key) none).write (.child .right key) none) this
      (zip (join .left (heap.color key) .nil key .nil) (⟨s, c, last, sib⟩ :: gs)) := by
  refine ⟨?_, ?_⟩
  · have hnew := represents_new h.represents hkey
    simp only [toHeap_write, toHeap_setParent]
    rw [write_comm (by simp), write_comm (l := .child .left key) (by simp),
      write_comm (l := .child s last) (by simp)]
    exact hnew
  obtain ⟨p, hp⟩ := h.parents
  obtain ⟨-, haround⟩ := parents_zip.1 hp
  have hfresh : key ∉ around (⟨s, c, last, sib⟩ :: gs) := fun hmem =>
    hkey (mem_toList_zip.2 (.inr hmem))
  refine ⟨p, parents_zip.2 ⟨⟨?_, trivial, trivial⟩, haround.congr fun x hx => ?_⟩⟩
  · simp [parent_setParent, above]
  · simp only [parent_write, parent_setParent, Option.some.injEq]
    rw [if_neg (ne_of_mem_of_not_mem hx hfresh).symm]

/-- The list after the node was put in. -/
theorem linkInList_spec {s : Side} {c : Color} {last : ℕ} {sib : RedBlack.Tree ℕ}
    {gs : List (Frame ℕ)}
    (ht : Threaded mem.next mem.prev none none (zip .nil (⟨s, c, last, sib⟩ :: gs)).toList)
    (hnodup : (zip .nil (⟨s, c, last, sib⟩ :: gs)).toList.Nodup)
    (hkey : key ∉ (zip .nil (⟨s, c, last, sib⟩ :: gs)).toList) :
    Threaded (linkInList mem last key s).next (linkInList mem last key s).prev none none
      (before (⟨s, c, last, sib⟩ :: gs) ++ key :: after (⟨s, c, last, sib⟩ :: gs)) := by
  have hlist : (zip .nil (⟨s, c, last, sib⟩ :: gs)).toList =
      before (⟨s, c, last, sib⟩ :: gs) ++ after (⟨s, c, last, sib⟩ :: gs) := by
    rw [toList_zip]
    simp [toList]
  rw [hlist] at ht hnodup hkey
  have hlast : last ∈ before (⟨s, c, last, sib⟩ :: gs) ++ after (⟨s, c, last, sib⟩ :: gs) :=
    mem_around_cons.2 (.inl rfl)
  have hne : last ≠ key := ne_of_mem_of_not_mem hlast hkey
  have hlinked := ht.link hnodup hkey
  cases s with
  | left =>
    have hafter : after (⟨.left, c, last, sib⟩ :: gs) = last :: (sib.toList ++ after gs) := rfl
    rw [hafter] at ht hlinked hkey ⊢
    have hprev := ht.at.1
    have hpk : mem.prev last ≠ some key := by
      rw [hprev]
      exact fun h => hkey (mem_append_left _ (mem_of_getLast? h))
    rw [← hprev] at hlinked
    refine hlinked.congr fun x _ => ⟨?_, ?_⟩
    · simp only [linkInList, update_self, set_apply, update_apply, head?_cons]
      by_cases hx : x = key
      · subst hx
        simp [hpk]
      · simp [hx]
    · simp only [linkInList, set_apply, update_apply, head?_cons, Option.some.injEq]
      by_cases hx : x = key
      · subst hx
        simp [hne.symm]
      · simp [hx, eq_comm]
  | right =>
    have hbefore : before (⟨.right, c, last, sib⟩ :: gs) = (before gs ++ sib.toList) ++ [last] := by
      simp [before]
    rw [hbefore] at ht hlinked hkey ⊢
    have hmid := ht
    rw [append_assoc, singleton_append] at hmid
    have hnext := hmid.at.2
    rw [← hnext, getLast?_concat] at hlinked
    refine hlinked.congr fun x _ => ⟨?_, ?_⟩
    · simp only [linkInList, set_apply, update_apply, Option.some.injEq]
      by_cases hx : x = key
      · subst hx
        simp [hne.symm]
      · simp [hx, eq_comm]
    · simp [linkInList, set_apply, update_apply]

theorem linkInList_eq (mem : Mem V) (last key : ℕ) (s : Side) : linkInList mem last key s =
    { mem with next := (linkInList mem last key s).next, prev := (linkInList mem last key s).prev } := by
  cases s <;> rfl

/-- The weights of the later key parts do not change with that of the root. -/
theorem partWeight_update {mem' : Mem V} {root a : ℕ} {w : UInt32}
    (hnkp : mem'.nextKeyPart = mem.nextKeyPart) (hw : mem'.weight = update mem.weight root w)
    (hne : mem.nextKeyPart a ≠ some root) : mem'.partWeight a = mem.partWeight a := by
  unfold Mem.partWeight
  rw [hnkp, hw]
  cases hcase : mem.nextKeyPart a with
  | none => rfl
  | some b =>
    rw [hcase, ne_eq, Option.some.injEq] at hne
    exact update_of_ne hne _ _

/-- The data at the root are written last. -/
theorem holds_finish {next prev : ℕ → Option ℕ} {root : ℕ} {e w : UInt32}
    (hr : RepresentsUp heap t) (hroot : t.root = some root) (hbal : ∃ m, Balanced t .black m)
    (hthread : Threaded next prev none none t.toList)
    (hsorted : t.toList.Pairwise fun a b => (mem.arg a).cmpMinToMin field (mem.arg b) < 0)
    (he : e = UInt32.ofNat t.toList.length)
    (hw : w = UInt32.ofNat (t.toList.length + (t.toList.map fun a => (mem.partWeight a).toNat).sum))
    (hlater : ∀ a ∈ t.toList, ∀ b ∈ t.toList, mem.nextKeyPart a ≠ some b) :
    Holds field { mem with
      heap, next, prev
      elements := update mem.elements root e
      weight := update mem.weight root w } root t := by
  refine ⟨rooted_of_represents hr hroot, hbal, hthread, hsorted, ?_, ?_, hlater⟩
  · simp [he]
  have hsame : ∀ a ∈ t.toList, Mem.partWeight { mem with
      heap, next, prev
      elements := update mem.elements root e
      weight := update mem.weight root w } a = mem.partWeight a := fun a ha =>
    partWeight_update rfl rfl (hlater a ha root (mem_of_root hroot))
  rw [map_congr_left fun a ha => congrArg UInt32.toNat (hsame a ha), ← hw]
  exact update_self _ _ _

theorem ofNat_add_toNat (n : ℕ) (w : UInt32) :
    UInt32.ofNat (n + 1 + w.toNat) = UInt32.ofNat n + 1 + w := by
  simp [UInt32.ofNat_add]

/-- The comparison with an interval cuts the tree. -/
theorem Holds.cut (h : Holds field mem this t) (hf : field.Proper) (key : ℕ) :
    Cut (keyCmp field mem key) t.toList := by
  have ho := selCmp_total hf
  refine List.Pairwise.imp ?_ h.sorted
  intro x y hxy
  have hlt : Endpoint.cmp field (mem.arg x).min (mem.arg y).min < 0 := hxy
  have hval : ∀ z, keyCmp field mem key z =
      -Endpoint.cmp field (mem.arg key).min (mem.arg z).min := fun z => rfl
  rw [hval, hval]
  refine ⟨fun hy => ?_, fun hx => ?_⟩
  · have hyk := ho.lt_swap.2 (by omega : 0 < Endpoint.cmp field (mem.arg key).min (mem.arg y).min)
    have := ho.lt_swap.1 (ho.lt_of_lt_of_le hlt hyk.le)
    omega
  · have := ho.lt_of_lt_of_le (by omega : Endpoint.cmp field (mem.arg key).min (mem.arg x).min < 0)
      hlt.le
    omega

theorem Holds.sorted_insert (h : Holds field mem this t) (hf : field.Proper) {l r : List ℕ}
    (ht : t.toList = l ++ r) (hl : ∀ x ∈ l, keyCmp field mem key x < 0)
    (hr : ∀ x ∈ r, 0 < keyCmp field mem key x) :
    (l ++ key :: r).Pairwise fun a b => (mem.arg a).cmpMinToMin field (mem.arg b) < 0 := by
  have ho := selCmp_total hf
  have hsorted := h.sorted
  rw [ht, pairwise_append] at hsorted
  obtain ⟨hsl, hsr, hlr⟩ := hsorted
  refine pairwise_append.2 ⟨hsl, pairwise_cons.2 ⟨fun y hy => ?_, hsr⟩, fun x hx y hy => ?_⟩
  · have := hr y hy
    unfold keyCmp at this
    omega
  rcases mem_cons.1 hy with rfl | hy
  · have hx := hl x hx
    unfold keyCmp at hx
    have hlt : 0 < Endpoint.cmp field (mem.arg y).min (mem.arg x).min :=
      show 0 < (mem.arg y).cmpMinToMin field (mem.arg x) by omega
    exact ho.lt_swap.2 hlt
  · exact hlr x hx y hy

/-- **`SEL_ARG::insert`** of an interval that starts elsewhere than those of the tree. -/
theorem insert_spec {fuel : ℕ} (h : Holds field mem this t) (hf : field.Proper)
    (hkey : key ∉ t.toList) (hne : ∀ a ∈ t.toList, (mem.arg key).cmpMinToMin field (mem.arg a) ≠ 0)
    (hlater : ∀ a ∈ key :: t.toList, ∀ b ∈ key :: t.toList, mem.nextKeyPart a ≠ some b)
    (hfuel : t.toList.length + 1 ≤ fuel) :
    ∃ mem' root' t', insert field fuel mem this key = some (mem', root') ∧
      Holds field mem' root' t' ∧ t'.toList.Perm (key :: t.toList) ∧ mem'.arg = mem.arg ∧
      mem'.nextKeyPart = mem.nextKeyPart ∧ mem'.part = mem.part := by
  have hcut : Cut (keyCmp field mem key) (zip t []).toList := h.cut hf key
  have hroot := h.rooted.root
  have hne' : ∀ a ∈ t.toList, keyCmp field mem key a ≠ 0 := fun a ha heq =>
    hne a ha (by unfold keyCmp at heq; omega)
  obtain ⟨s, c, last, sib, gs, hplace, hlocate⟩ := insertPlace_spec h.rooted.shape hroot hne' []
    (show t.toList.length ≤ fuel by omega)
  have hzip := zip_locate (keyCmp field mem key) t []
  have hsides := locate_sides hcut (by simp [before]) (by simp [after])
  rw [hlocate] at hzip hsides
  obtain ⟨hbefore, hafter⟩ := hsides
  have hzip' : zip .nil (⟨s, c, last, sib⟩ :: gs) = t := hzip
  set fs : List (Frame ℕ) := ⟨s, c, last, sib⟩ :: gs
  have hlist : t.toList = before fs ++ after fs := by
    rw [← hzip', toList_zip]
    simp [toList]
  have hlen := length_le_toList_zip .nil fs
  rw [hzip'] at hlen
  -- the tree
  obtain ⟨m, hbal⟩ := h.balanced
  have hrooted := h.rooted
  have hthread := h.threaded
  have hnodup := h.rooted.represents.nodup
  have hfresh := hkey
  rw [← hzip'] at hrooted hbal hfresh hthread hnodup
  obtain ⟨e, k, hnil, hfs⟩ := Balanced.unzip hbal
  cases hnil
  have hnode : Balanced (join .left .red .nil key .nil) .red 0 := .red .nil .nil
  obtain ⟨heap', hins, hres⟩ := rbInsert_spec (rooted_new hrooted hfresh) hnode hfs
    (show fs.length < fuel by omega)
  set t' := (insertFix (join .left .red .nil key .nil) fs).paint .black
  have hlist' : t'.toList = before fs ++ key :: after fs := by
    rw [toList_paint, toList_insertFix (join_ne_nil _ _ _ _ _), toList_zip]
    simp [join, toList]
  have hthreaded := linkInList_spec hthread hnodup hfresh
  obtain ⟨root', hroot'⟩ := exists_root fun hnil : t' = .nil => by
    simp [hnil, toList] at hlist'
  have hlink : heap'.link .root = some root' := hres.root.trans hroot'
  have hperm : t'.toList.Perm (key :: t.toList) := by
    rw [hlist', hlist]
    exact perm_middle
  have hsum : (t'.toList.map fun a => (mem.partWeight a).toNat).sum =
      (mem.partWeight key).toNat + (t.toList.map fun a => (mem.partWeight a).toNat).sum := by
    rw [(hperm.map _).sum_nat, map_cons, sum_cons]
  have hcall : insert field fuel mem this key = some ({ mem with
      heap := heap'
      next := (linkInList mem last key s).next
      prev := (linkInList mem last key s).prev
      elements := update mem.elements root' (mem.elements this + 1)
      weight := update mem.weight root' (mem.weight this + 1 + mem.partWeight key) }, root') := by
    rw [insert, hplace, bind_some]
    dsimp only
    rw [hins, bind_some, hlink, map_some, linkInList_eq]
    rfl
  refine ⟨_, root', t', hcall, holds_finish hres hroot' (balanced_insertFix hnode hfs) ?_ ?_ ?_ ?_ ?_,
    hperm, rfl, rfl, rfl⟩
  · rw [hlist']
    exact hthreaded
  · rw [hlist']
    exact h.sorted_insert hf hlist hbefore hafter
  · rw [h.elements, hperm.length_eq, length_cons, UInt32.ofNat_add]
    rfl
  · rw [h.weight, hperm.length_eq, hsum, length_cons, ← ofNat_add_toNat]
    congr 1
    omega
  · intro a ha b hb
    exact hlater a (hperm.mem_iff.1 ha) b (hperm.mem_iff.1 hb)

/-! ### Deletion -/

/-- A node with at most one child is taken out of the tree. -/
theorem representsUp_child {s : Side} {c : Color} {t u : RedBlack.Tree ℕ} {a : ℕ}
    (hr : RepresentsUp heap (zip (join s c t a u) fs))
    (hr' : Represents (heap.toHeap.write (linkOf fs) t.root) (zip t fs)) :
    RepresentsUp ((heap.write (heap.parentPtr a) t.root).setParent t.root (heap.parent a))
      (zip t fs) := by
  obtain ⟨hjoin, haround⟩ := parents_zip.1 hr.parents
  obtain ⟨ha, ht, -⟩ := parents_join.1 hjoin
  obtain ⟨hnodup, -, hdisj⟩ := hr'.disjoint
  refine ⟨?_, parents_zip.2 ⟨ht.move hnodup (fun x hx => ?_) fun x _ hx => ?_,
    haround.congr fun x hx => ?_⟩⟩
  · rw [toHeap_setParent, toHeap_write, hr.parentPtr_eq]
    exact hr'
  · rw [parent_setParent, if_pos hx, ha]
  · rw [parent_setParent, if_neg hx, parent_write]
  · rw [parent_setParent, if_neg, parent_write]
    exact fun hroot => hdisj x (mem_of_root hroot) hx

/-- The parent pointers after the next node `b` was put in the place of `a`. -/
theorem parents_next {c d : Color} {l v : RedBlack.Tree ℕ} {a b : ℕ} {gs : List (Frame ℕ)}
    {parent parent' : ℕ → Option ℕ}
    (hp : Parents parent (zip (node c l a (zip (node d .nil b v) gs)) fs) none)
    (hnodup : (zip (node c l a (zip (node d .nil b v) gs)) fs).toList.Nodup)
    (hval : ∀ x, parent' x = if (zip v gs).root = some x then some b else
      if l.root = some x then some b else if b = x then above none fs else
      if v.root = some x then above (some a) gs else parent x) :
    Parents parent' (zip v (gs ++ ⟨.right, c, b, l⟩ :: fs)) none := by
  have hplace : zip v (gs ++ ⟨.right, c, b, l⟩ :: fs) = zip (node c l b (zip v gs)) fs := by
    rw [zip_append]
    rfl
  obtain ⟨⟨ha, hpl, hpr⟩, haround⟩ := parents_zip.1 hp
  obtain ⟨⟨-, -, hpv⟩, hpgs⟩ := parents_zip.1 hpr
  -- all nodes are different
  obtain ⟨hnode, -, hdisj⟩ := nodup_zip.1 hnodup
  have hnode' : (join .left c l a (zip (node d .nil b v) gs)).toList.Nodup := hnode
  obtain ⟨hnl, hnr, -, har, hlr⟩ := nodup_join.1 hnode'
  obtain ⟨hnb, hngs, hbgs⟩ := nodup_zip.1 hnr
  simp only [toList, nil_append, nodup_cons, mem_cons] at hnb hbgs
  have hmemr : ∀ x, x ∈ (zip (node d .nil b v) gs).toList ↔ x = b ∨ x ∈ (zip v gs).toList := by
    intro x
    simp only [mem_toList_zip, toList, nil_append, mem_cons]
    tauto
  have hbv : b ∉ (zip v gs).toList := by
    rw [mem_toList_zip, not_or]
    exact ⟨hnb.1, hbgs b (.inl rfl)⟩
  simp only [toList, mem_append, mem_cons, hmemr] at hdisj hlr
  have hnv : (zip v gs).toList.Nodup := nodup_zip.2 ⟨hnb.2, hngs, fun x hx => hbgs x (.inr hx)⟩
  have hroot : ∀ {u : RedBlack.Tree ℕ} {x}, x ∉ u.toList → u.root ≠ some x := fun hx h =>
    hx (mem_of_root h)
  have hvsub : ∀ x ∈ v.toList, x ∈ (zip v gs).toList := fun x hx => mem_toList_zip.2 (.inl hx)
  rw [hplace, parents_zip]
  refine ⟨⟨?_, hpl.move hnl (fun x hx => ?_) fun x hx hne => ?_, ?_⟩, haround.congr fun x hx => ?_⟩
  · have hbl : b ∉ l.toList := fun h => hlr b h (.inl rfl)
    rw [hval, if_neg (hroot hbv), if_neg (hroot hbl), if_pos rfl]
  · rw [hval, if_pos hx, ite_self]
  · have hxr : x ∉ (zip v gs).toList := fun h => hlr x hx (.inr h)
    have hxb : b ≠ x := by
      rintro rfl
      exact hlr b hx (.inl rfl)
    rw [hval, if_neg (hroot hxr), if_neg hne, if_neg hxb, if_neg (hroot fun h => hxr (hvsub x h))]
  · -- the right subtree is first that of `a` without `b`
    have hfirst : Parents (fun x => if v.root = some x then above (some a) gs else parent x)
        (zip v gs) (some a) := by
      refine parents_zip.2 ⟨hpv.move hnb.2 (fun x hx => if_pos hx) fun x _ hx => if_neg hx,
        hpgs.congr fun x hx => if_neg (hroot fun h => hbgs x (.inr h) hx)⟩
    refine hfirst.move hnv (fun x hx => ?_) fun x hx hne => ?_
    · rw [hval, if_pos hx]
    · have hxl : x ∉ l.toList := fun h => hlr x h (.inr hx)
      rw [hval, if_neg hne, if_neg (hroot hxl), if_neg (ne_of_mem_of_not_mem hx hbv).symm]
  · have hx' : ¬(x ∈ l.toList ∨ x = a ∨ x = b ∨ x ∈ (zip v gs).toList) := fun h => hdisj x h hx
    simp only [not_or] at hx'
    obtain ⟨hxl, -, hxb, hxv⟩ := hx'
    rw [hval, if_neg (hroot hxv), if_neg (hroot hxl), if_neg (Ne.symm hxb),
      if_neg (hroot fun h => hxv (hvsub x h))]

theorem above_append (p : Option ℕ) (gs : List (Frame ℕ)) (f : Frame ℕ) :
    above p (gs ++ f :: fs) = above (some f.elem) gs := by
  cases gs <;> rfl

/-- **The node is taken out of the tree.** -/
theorem unlinkNode_spec {c : Color} {l r : RedBlack.Tree ℕ} {a n : ℕ} {next : ℕ → Option ℕ}
    (hr : RepresentsUp heap (zip (node c l a r) fs))
    (hbal : Balanced (zip (node c l a r) fs) .black n)
    (hnext : next a = (r.toList ++ after fs).head?) :
    ∃ heap' x gs removed, unlinkNode heap next a = some (heap', x.root, above none gs, removed) ∧
      RepresentsUp heap' (zip x gs) ∧
      (zip x gs).toList = before fs ++ (l.toList ++ r.toList) ++ after fs ∧
      ∃ d k, Balanced x d k ∧ Accepts .black (k + removed.weight) gs ∧
        (removed = .red → d = .black) := by
  obtain ⟨hl, hr', hcolor, -⟩ := hr.toRepresents.split.1
  have hjoin : RepresentsUp heap (zip (join .left c l a r) fs) := hr
  have hparent := hjoin.parent_eq
  cases hlroot : l.root with
  | none =>
    have hnil := root_eq_none.1 hlroot
    subst hnil
    have hjoin' : RepresentsUp heap (zip (join .right c r a .nil) fs) := hr
    have hunl := unlink_child hjoin'.toRepresents hbal rfl
    have hup := representsUp_child hjoin' hunl.represents
    refine ⟨_, r, fs, c, ?_, hup, hunl.list, hunl.balanced⟩
    rw [hlroot] at hl
    simp only [unlinkNode, hl, hr', hcolor, hparent]
  | some x =>
    cases hrroot : r.root with
    | none =>
      have hnil := root_eq_none.1 hrroot
      subst hnil
      have hunl := unlink_child hjoin.toRepresents hbal rfl
      have hup := representsUp_child hjoin hunl.represents
      refine ⟨_, l, fs, c, ?_, hup, ?_, hunl.balanced⟩
      · rw [hrroot] at hr'
        simp only [unlinkNode, hl, hr', hcolor, hparent, hlroot]
      · rw [hunl.list, toList.eq_1, append_nil]
    | some y =>
      have hne : r ≠ .nil := fun h0 => by simp [h0, Tree.root] at hrroot
      obtain ⟨gs, d, b, v, hgs, hbefore⟩ := exists_first hne
      have hunl := unlink_next hr.toRepresents hbal hgs hbefore
      obtain ⟨hab, haf, hbf, hla, hra⟩ := next_reads hr.toRepresents hgs
      obtain ⟨hv, -, hb⟩ := next_out hr.toRepresents hgs
      have hwhole : zip (node c l a r) fs =
          zip (join .left d .nil b v) (gs ++ ⟨.right, c, a, l⟩ :: fs) := by
        rw [zip_append]
        exact congrArg (fun r => zip (node c l a r) fs) hgs
      have hrb : RepresentsUp heap (zip (join .left d .nil b v) (gs ++ ⟨.right, c, a, l⟩ :: fs)) :=
        hwhole ▸ hr
      have hptr := hrb.parentPtr_eq
      have hptra := hjoin.parentPtr_eq
      have hparb := hrb.parent_eq
      rw [above_append] at hparb
      have hd : heap.color b = d := hrb.toRepresents.join_eq.2.2
      have hnext' : next a = some b := by
        rw [hnext, hgs, toList_zip, hbefore]
        rfl
      -- what the program reads on its way
      obtain ⟨hnode, -, -⟩ := hr.toRepresents.disjoint
      have har : a ∉ (zip (node d .nil b v) gs).toList := by
        have hnode' : (join .left c l a r).toList.Nodup := hnode
        rw [← hgs]
        exact (nodup_join.1 hnode').2.2.2.1
      have hfix : (if above (some a) gs = some a then some b else above (some a) gs) =
          above none (gs ++ ⟨.right, c, b, l⟩ :: fs) := by
        rw [above_append]
        cases gs with
        | nil => rw [above, if_pos rfl, above]
        | cons g gs =>
          rw [above, if_neg, above]
          rw [Option.some.injEq]
          rintro rfl
          exact har (mem_toList_zip.2 (.inr (mem_around_cons.2 (.inl rfl))))
      have hva : v.root ≠ some a := fun h =>
        har (mem_toList_zip.2 (.inl (by simp [toList, mem_of_root h])))
      set h1 := heap.write (linkOf (gs ++ ⟨.right, c, a, l⟩ :: fs)) v.root with hh1
      set h2 := h1.setParent v.root (above (some a) gs) with hh2
      set h3 := h2.setParent (some b) (above none fs) with hh3
      set h4 := (h3.write (.child .left b) l.root).setParent l.root (some b) with hh4
      set h5 := (h4.write (.child .right b) (zip v gs).root).setParent (zip v gs).root (some b)
        with hh5
      have hparent2 : h2.parent a = above none fs := by
        rw [hh2, parent_setParent, if_neg hva]
        exact hparent
      have hleft3 : h3.link (.child .left a) = l.root := by
        rw [hh3, toHeap_setParent, hh2, toHeap_setParent]
        exact hla
      have hright4 : h4.link (.child .right a) = (zip v gs).root := by
        rw [hh4, toHeap_setParent, toHeap_write, Heap.link_write,
          update_of_ne (by simp), hh3, toHeap_setParent, hh2, toHeap_setParent]
        exact hra
      have hcolor5 : h5.color a = c := by
        simp only [hh5, hh4, hh3, hh2, hh1, toHeap_setParent, toHeap_write, Heap.color_write]
        exact hcolor
      have hcolor2 : h2.color b = d := by
        rw [hh2, toHeap_setParent]
        exact hd
      have hcall : unlinkNode heap next a = some ((h5.setColor b c).write (linkOf fs) (some b),
          v.root, above none (gs ++ ⟨.right, c, b, l⟩ :: fs), d) := by
        simp only [unlinkNode, hl.trans hlroot, hr'.trans hrroot, hnext', map_some, hptr,
          hptra, hv, parent_write, hparb, ← hh1, ← hh2, hparent2, ← hh3, hleft3, ← hh4,
          hright4, ← hh5, hcolor5, hcolor2, hfix]
      refine ⟨_, v, _, d, hcall, ⟨?_, ?_⟩, hunl.list, hunl.balanced⟩
      · -- the link to the place is written last, not second
        have hheap : ((h5.setColor b c).write (linkOf fs) (some b)).toHeap =
            ((((heap.toHeap.write (linkOf (gs ++ ⟨.right, c, a, l⟩ :: fs)) v.root).write
              (.child .left b) l.root).write (.child .right b) (zip v gs).root).write (linkOf fs)
              (some b)).setColor b c := by
          simp only [toHeap_write, toHeap_setColor, hh5, hh4, hh3, hh2, hh1, toHeap_setParent]
          rfl
        rw [hheap, write_comm (hbf .right), write_comm (hbf .left)]
        exact hunl.represents
      · have hp := hr.parents
        have hnodup := hr.toRepresents.nodup
        rw [hgs] at hp hnodup
        refine parents_next hp hnodup fun x => ?_
        simp [parent_write, parent_setColor, hh5, hh4, hh3, hh2, hh1, parent_setParent]

/-- **`SEL_ARG::tree_delete`** of a node of the tree. -/
theorem treeDelete_spec {fuel : ℕ} (h : Holds field mem this t) (hkey : key ∈ t.toList)
    (hfuel : t.toList.length + 1 ≤ fuel) :
    ∃ mem' t', treeDelete fuel mem this key = some (mem', t'.root) ∧
      (∀ root', t'.root = some root' → Holds field mem' root' t') ∧
      t.toList.Perm (key :: t'.toList) ∧ mem'.arg = mem.arg ∧
      mem'.nextKeyPart = mem.nextKeyPart ∧ mem'.part = mem.part := by
  obtain ⟨c, l, r, fs, hplace⟩ := exists_place hkey
  have hlist : t.toList = (before fs ++ l.toList) ++ key :: (r.toList ++ after fs) := by
    rw [← hplace, toList_zip]
    simp [toList]
  have hnodup := h.rooted.represents.nodup
  rw [hlist] at hnodup
  have hthread := h.threaded
  rw [hlist] at hthread
  obtain ⟨hprev, hnext⟩ := hthread.at
  have hpk : mem.prev key ≠ some key := by
    rw [hprev]
    intro heq
    have hperm := perm_middle.nodup_iff.1 hnodup
    exact (nodup_cons.1 hperm).1 (mem_append_left _ (mem_of_getLast? heq))
  have hnext' : set mem.next (mem.prev key) (mem.next key) key = (r.toList ++ after fs).head? := by
    rw [set_apply, if_neg hpk, hnext]
  -- the tree
  obtain ⟨m, hbal⟩ := h.balanced
  have hr := h.rooted.start
  rw [← hplace] at hr hbal
  obtain ⟨heap', x, gs, removed, hunl, hr', hrest, d, k, hx, hacc, hred⟩ :=
    unlinkNode_spec hr hbal hnext'
  have hrest' : (zip x gs).toList = (before fs ++ l.toList) ++ (r.toList ++ after fs) := by
    rw [hrest]
    simp
  have hperm : t.toList.Perm (key :: (zip x gs).toList) := by
    rw [hlist, hrest']
    exact perm_middle
  have hlink : heap'.link .root = (zip x gs).root := hr'.root
  cases hroot : (zip x gs).root with
  | none =>
    have hnil := root_eq_none.1 hroot
    have hcall : treeDelete fuel mem this key = some ({ mem with
        heap := heap'
        next := set mem.next (mem.prev key) (mem.next key)
        prev := set mem.prev (r.toList ++ after fs).head? (mem.prev key) }, none) := by
      rw [treeDelete]
      rw [hunl, bind_some]
      dsimp only
      rw [hlink, hroot, hnext']
    exact ⟨_, .nil, hcall, by simp [Tree.root], by rwa [hnil] at hperm, rfl, rfl, rfl⟩
  | some root =>
    have hne : zip x gs ≠ .nil := fun h0 => by simp [h0, Tree.root] at hroot
    have hlen := length_le_toList_zip x gs
    have hlen' := hperm.length_eq
    rw [length_cons] at hlen'
    obtain ⟨heap'', t', hfix, hr'', hbal', hlist'⟩ : ∃ heap'' t',
        (if removed = .black then rbDeleteFixup fuel heap' x.root (above none gs)
          else some heap') = some heap'' ∧ RepresentsUp heap'' t' ∧
        (∃ m, Balanced t' .black m) ∧ t'.toList = (zip x gs).toList := by
      cases removed with
      | red =>
        obtain rfl := hred rfl
        exact ⟨heap', _, rfl, hr', hx.zip hacc, rfl⟩
      | black =>
        obtain ⟨heap'', hfix, hr''⟩ := rbDeleteFixup_spec hr' hx hacc hne
          (show gs.length + 2 ≤ fuel by omega)
        obtain ⟨hbal', hlist'⟩ := deleteFix_spec hx hacc
        exact ⟨heap'', _, by rw [if_pos rfl, hfix], hr'', hbal', hlist'⟩
    obtain ⟨root', hroot'⟩ := exists_root fun hnil : t' = .nil => by
      have := mem_of_root hroot
      rw [← hlist', hnil] at this
      simp [toList] at this
    rw [← hlist'] at hperm hlen'
    have hcall : treeDelete fuel mem this key = some ({ mem with
        heap := heap''
        next := set mem.next (mem.prev key) (mem.next key)
        prev := set mem.prev (r.toList ++ after fs).head? (mem.prev key)
        elements := update mem.elements root' (mem.elements this - 1)
        weight := update mem.weight root' (mem.weight this - (1 + mem.partWeight key)) },
          t'.root) := by
      rw [treeDelete]
      rw [hunl, bind_some]
      dsimp only
      rw [hlink, hroot]
      rw [hfix, bind_some, hr''.root, hroot', map_some, hnext']
    refine ⟨_, t', hcall, ?_, hperm, rfl, rfl, rfl⟩
    intro root'' hroot''
    cases hroot'.symm.trans hroot''
    have hsub : t'.toList.Sublist t.toList := by
      rw [hlist', hrest', hlist]
      exact (sublist_cons_self _ _).append_left _
    refine holds_finish hr'' hroot' hbal' ?_ (h.sorted.sublist hsub) ?_ ?_ fun a ha b hb =>
      h.later a (hsub.subset ha) b (hsub.subset hb)
    · have hunlinked := hthread.unlink hnodup
      rw [← hprev, ← hnext] at hunlinked
      rw [hlist', hrest', ← hnext]
      exact hunlinked
    · rw [h.elements, hlen', UInt32.ofNat_add]
      exact UInt32.add_sub_cancel _ _
    rw [h.weight, (hperm.map _).sum_nat, map_cons, sum_cons, hlen']
    have hsplit : ∀ n : ℕ, ∀ w : UInt32, UInt32.ofNat (n + 1 + w.toNat) - (1 + w) =
        UInt32.ofNat n := by
      intro n w
      rw [ofNat_add_toNat, UInt32.add_assoc]
      exact UInt32.add_sub_cancel _ _
    refine Eq.trans ?_ (hsplit _ (mem.partWeight key))
    refine congrArg (fun n => UInt32.ofNat n - (1 + mem.partWeight key)) ?_
    omega

end SelArg
