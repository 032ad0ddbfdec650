/-
**The trees of mysys are ordered maps.**

Runs of `tree_insert` and `tree_delete` on a tree that allows deletion and has no memory limit.  The
account of a run is the list of the calls that have to put an element in, or count it once more, or
take it out.  A new element comes from `my_malloc`, so it is not one of those in the tree.

The entries of `tree->parents` suffice for up to 2^31 elements; beyond that a call may need more of
them than there are, and then it has no result.

Main definitions:

* `times`: how often a key was inserted since it was last absent;
* `Op`, `State`, `step`, `run`: runs of calls.

Main results:

* `step_inv`, `run_inv`: the invariant over one call and over a run;
* `run_tree`: **the tree is an ordered map**, balanced, with right counts, and the searches find
  what they have to.
-/

import MariaDb.CompareOrder
import MariaDb.MyTreeCalls
import MariaDb.MyTreeSearch
import Mathlib.Data.List.Pairwise

set_option autoImplicit false

namespace MyTree

open RedBlack RedBlack.Tree Function CompareOrder
open List hiding zip after

variable {K : Type*} {compare : K → K → ℤ}

/-! ### The functions -/

/-- The tree of a `TREE`: balanced, ordered, and with the right number of elements. -/
structure Holds (compare : K → K → ℤ) (tree : Tree K) (t : RedBlack.Tree ℕ) : Prop where
  represents : Represents tree.heap t
  balanced : ∃ m, Balanced t .black m
  sorted : t.toList.Pairwise fun a b => compare (tree.key a) (tree.key b) < 0
  elements : tree.elementsInTree = UInt32.ofNat t.toList.length

variable {tree : Tree K} {t : RedBlack.Tree ℕ}

/-- The element of a list that is equal to a key. -/
def equalTo (compare : K → K → ℤ) (tree : Tree K) (key : K) (l : List ℕ) : Option ℕ :=
  l.find? fun a => compare (tree.key a) key = 0

theorem equalTo_eq_none {key : K} {l : List ℕ} :
    equalTo compare tree key l = none ↔ ∀ a ∈ l, compare (tree.key a) key ≠ 0 := by
  simp [equalTo]

theorem equalTo_some {key : K} {l : List ℕ} {a : ℕ} (h : equalTo compare tree key l = some a) :
    a ∈ l ∧ compare (tree.key a) key = 0 :=
  ⟨mem_of_find?_eq_some h, by simpa using find?_some h⟩

/-- What `tree_insert` returns, by the element that is equal to the key. -/
def insertResult (tree : Tree K) (memory : Option ℕ) : Option ℕ → Inserted
  | some a => if tree.noDups then .null else .element a
  | none =>
    if tree.onlyDups then .unique
    else
      match memory with
      | some a => .element a
      | none => .null

/-- What `tree_insert` does to the elements. -/
inductive InsertEffect (tree : Tree K) (l : List ℕ) (key : K) (tree' : Tree K) (l' : List ℕ) :
    Option ℕ → Inserted → Prop
  | nothing {found res} (hres : ∀ a, res ≠ .element a) (hl : l' = l) (hkey : tree'.key = tree.key)
      (hcount : tree'.count = tree.count) : InsertEffect tree l key tree' l' found res
  | counted {a} (hl : l' = l) (hkey : tree'.key = tree.key)
      (hcount : tree'.count = update tree.count a (incrementCount (tree.count a))) :
      InsertEffect tree l key tree' l' (some a) (.element a)
  | added {a} (hl : l'.Perm (a :: l)) (hkey : tree'.key = update tree.key a key)
      (hcount : tree'.count = update tree.count a 1) :
      InsertEffect tree l key tree' l' none (.element a)

theorem InsertEffect.unchanged {l l' : List ℕ} {key : K} {tree' : Tree K} {found : Option ℕ}
    {res : Inserted} (heffect : InsertEffect tree l key tree' l' found res)
    (hno : ∀ a, res ≠ .element a) :
    l' = l ∧ tree'.key = tree.key ∧ tree'.count = tree.count := by
  cases heffect with
  | nothing _ hl hkey hcount => exact ⟨hl, hkey, hcount⟩
  | counted | added => exact absurd rfl (hno _)

/-- The flags of a tree. -/
def Tree.flags (tree : Tree K) : Bool × Bool × Bool := (tree.withDelete, tree.noDups, tree.onlyDups)

section

variable (hh : Holds compare tree t) (ho : TotalOrder compare)
include hh ho

theorem Holds.cut (key : K) : Cut (fun a => compare (tree.key a) key) t.toList := by
  refine List.Pairwise.imp ?_ hh.sorted
  intro x y hxy
  refine ⟨fun hy => ho.lt_of_lt_of_le hxy hy.le, fun hx => ?_⟩
  have hkx := ho.lt_swap.2 hx
  exact ho.lt_swap.1 (ho.lt_of_lt_of_le hkx hxy.le)

theorem Holds.unique {a b : ℕ} {key : K}
    (ha : a ∈ t.toList) (hb : b ∈ t.toList) (hak : compare (tree.key a) key = 0)
    (hbk : compare (tree.key b) key = 0) : a = b := by
  by_contra hne
  have hab : compare (tree.key a) (tree.key b) = 0 := by
    rw [ho.eq_congr hak]
    exact ho.eq_swap.1 hbk
  have : Std.Symm fun a b => compare (tree.key a) (tree.key b) ≠ 0 :=
    ⟨fun _ _ h h' => h (ho.eq_swap.1 h')⟩
  have hsorted := hh.sorted.imp fun h => h.ne
  exact hsorted.forall ha hb hne hab

theorem Holds.equalTo_eq {a : ℕ} {key : K} (ha : a ∈ t.toList)
    (hak : compare (tree.key a) key = 0) : equalTo compare tree key t.toList = some a := by
  cases hfind : equalTo compare tree key t.toList with
  | none => exact absurd hak (equalTo_eq_none.1 hfind a ha)
  | some b =>
    obtain ⟨hb, hbk⟩ := equalTo_some hfind
    rw [hh.unique ho ha hb hak hbk]

/-- The way down ends at the element that is equal to the key, or at the place for a new one. -/
theorem Holds.place (key : K) :
    (findPlace (fun element => compare (tree.key element) key) tree.heap (maxTreeHeight - 1) [.root]
        (tree.heap.link .root) = none ∧ High t) ∨
      ∃ u fs, findPlace (fun element => compare (tree.key element) key) tree.heap
          (maxTreeHeight - 1) [.root] (tree.heap.link .root) =
            some (links fs, equalTo compare tree key t.toList) ∧
        u.root = equalTo compare tree key t.toList ∧
        zip u fs = t ∧ fs.length < maxTreeHeight ∧
        (∀ x ∈ before fs, compare (tree.key x) key < 0) ∧
        ∀ x ∈ after fs, 0 < compare (tree.key x) key := by
  set cmp : ℕ → ℤ := fun element => compare (tree.key element) key with hcmp
  have hr : Represents tree.heap (zip t []) := hh.represents
  have hspec := findPlace_spec cmp hr (maxTreeHeight - 1) rfl
  have hzip : zip (locate cmp t []).1 (locate cmp t []).2 = t := zip_locate cmp t []
  rw [show tree.heap.link .root = t.root from hh.represents.root]
  by_cases hlen : (locate cmp t []).2.length < maxTreeHeight
  · rw [if_pos hlen] at hspec
    have hcut : Cut cmp (zip t []).toList := hh.cut ho key
    obtain ⟨hbefore, hafter⟩ := locate_sides hcut (by simp [before]) (by simp [after])
    have hroot : (locate cmp t []).1.root = equalTo compare tree key t.toList := by
      rcases locate_found cmp t [] with hnil | ⟨a, ha, hak⟩
      · rw [hnil]
        symm
        refine equalTo_eq_none.2 fun x hx => ?_
        rw [← hzip, toList_zip, hnil] at hx
        simp only [toList, append_nil, mem_append] at hx
        rcases hx with hx | hx
        · exact (hbefore x hx).ne
        · exact (hafter x hx).ne'
      · rw [ha, hh.equalTo_eq ho _ hak]
        rw [← hzip]
        exact mem_toList_zip.2 (.inl (mem_of_root ha))
    exact .inr ⟨_, _, hroot ▸ hspec, hroot, hzip, hlen, hbefore, hafter⟩
  · rw [if_neg hlen] at hspec
    exact .inl ⟨hspec, _, _, hzip, by omega⟩

/-- A new element between those that are smaller and those that are greater. -/
theorem Holds.add {a : ℕ} {key : K} {l r : List ℕ} (ht : t.toList = l ++ r) (ha : a ∉ t.toList)
    (hl : ∀ x ∈ l, compare (tree.key x) key < 0) (hr : ∀ x ∈ r, 0 < compare (tree.key x) key)
    {t' : RedBlack.Tree ℕ} {tree' : Tree K} (hrep : Represents tree'.heap t')
    (hbal : ∃ m, Balanced t' .black m) (ht' : t'.toList = l ++ a :: r)
    (hkey : tree'.key = update tree.key a key)
    (helems : tree'.elementsInTree = tree.elementsInTree + 1) : Holds compare tree' t' := by
  have hsame : ∀ x ∈ t.toList, tree'.key x = tree.key x := fun x hx => by
    rw [hkey, update_of_ne (ne_of_mem_of_not_mem hx ha)]
  have hself : tree'.key a = key := by rw [hkey, update_self]
  refine ⟨hrep, hbal, ?_, ?_⟩
  · have hsorted : (l ++ r).Pairwise fun x y => compare (tree'.key x) (tree'.key y) < 0 := by
      rw [← ht]
      exact Pairwise.imp_of_mem (fun hx hy h => by rwa [hsame _ hx, hsame _ hy]) hh.sorted
    rw [ht', pairwise_append]
    rw [pairwise_append] at hsorted
    obtain ⟨hsl, hsr, hlr⟩ := hsorted
    refine ⟨hsl, pairwise_cons.2 ⟨fun y hy => ?_, hsr⟩, fun x hx y hy => ?_⟩
    · rw [hself, hsame y (by rw [ht]; exact mem_append_right _ hy)]
      exact ho.lt_swap.2 (hr y hy)
    rcases mem_cons.1 hy with rfl | hy
    · rw [hself, hsame x (by rw [ht]; exact mem_append_left _ hx)]
      exact hl x hx
    · exact hlr x hx y hy
  · rw [helems, hh.elements, ht, ht']
    simp [← Nat.add_assoc, UInt32.ofNat_add]

/-- **`tree_insert`** without a memory limit. -/
theorem treeInsert_spec (hlimit : tree.memoryLimit = 0) (key : K) (keySize : UInt64)
    {memory : Option ℕ} (hmemory : ∀ a, memory = some a → a ∉ t.toList) :
    (treeInsert compare tree key keySize memory = none ∧ High t) ∨
      ∃ tree' t', treeInsert compare tree key keySize memory =
          some (tree', insertResult tree memory (equalTo compare tree key t.toList)) ∧
        Holds compare tree' t' ∧
        tree'.memoryLimit = 0 ∧ tree'.flags = tree.flags ∧
        InsertEffect tree t.toList key tree' t'.toList (equalTo compare tree key t.toList)
          (insertResult tree memory (equalTo compare tree key t.toList)) := by
  rcases hh.place ho key with ⟨hnone, hhigh⟩ | ⟨u, fs, hfind, hroot, hzip, hlen, hbefore, hafter⟩
  · left
    rw [treeInsert, hnone]
    exact ⟨rfl, hhigh⟩
  right
  rw [treeInsert, hfind, Option.bind_some]
  cases hequal : equalTo compare tree key t.toList with
  | some a =>
    by_cases hdups : tree.noDups
    · simp only [hdups, if_true, insertResult]
      exact ⟨tree, t, rfl, hh, hlimit, rfl, .nothing (by simp) rfl rfl rfl⟩
    · simp only [hdups, insertResult]
      exact ⟨_, t, rfl, ⟨hh.represents, hh.balanced, hh.sorted, hh.elements⟩, hlimit,
        by simp [Tree.flags, hdups], .counted rfl rfl rfl⟩
  | none =>
    by_cases hdups : tree.onlyDups
    · simp only [hdups, if_true, insertResult]
      exact ⟨tree, t, rfl, hh, hlimit, rfl, .nothing (by simp) rfl rfl rfl⟩
    simp only [hdups, insertResult, hlimit, ne_eq, not_true, false_and, dite_false]
    cases memory with
    | none =>
      exact ⟨_, t, rfl, ⟨hh.represents, hh.balanced, hh.sorted, hh.elements⟩, rfl,
        by simp [Tree.flags, hdups], .nothing (by simp) rfl rfl rfl⟩
    | some a =>
      have hnil : u = .nil := root_eq_none.1 (by rw [hroot, hequal])
      subst hnil
      have ha := hmemory a rfl
      obtain ⟨m, hbal⟩ := hh.balanced
      have hrep := hh.represents
      rw [← hzip] at hrep hbal ha
      obtain ⟨heap', t', hins, hrep', hbal', hlist⟩ := insertElement_spec hrep hbal ha
      have ht : t.toList = before fs ++ after fs := by
        rw [← hzip, toList_zip]
        simp [toList]
      rw [links_eq] at hins ⊢
      simp only [hins, Option.map_some]
      rw [hzip] at ha
      refine ⟨_, t', rfl, hh.add ho ht ha hbefore hafter hrep' hbal' hlist rfl rfl, rfl,
        by simp [Tree.flags, hdups], .added ?_ rfl rfl⟩
      rw [hlist, ht]
      exact perm_middle

/-- **`tree_delete`** of a tree with deletion. -/
theorem treeDelete_spec (hdelete : tree.withDelete = true) (key : K) (keySize : UInt64) :
    (treeDelete compare tree key keySize = none ∧ High t) ∨
      ∃ tree' t', treeDelete compare tree key keySize =
          some (tree', equalTo compare tree key t.toList) ∧
        Holds compare tree' t' ∧
        tree'.memoryLimit = tree.memoryLimit ∧ tree'.flags = tree.flags ∧
        tree'.key = tree.key ∧ tree'.count = tree.count ∧
        match equalTo compare tree key t.toList with
        | none => t'.toList = t.toList
        | some a => t.toList.Perm (a :: t'.toList) := by
  rw [treeDelete]
  simp only [hdelete, Bool.not_true, Bool.false_eq_true, if_false]
  rcases hh.place ho key with ⟨hnone, hhigh⟩ | ⟨u, fs, hfind, hroot, hzip, hlen, hbefore, hafter⟩
  · left
    rw [hnone]
    exact ⟨rfl, hhigh⟩
  rw [hfind, Option.bind_some]
  cases hequal : equalTo compare tree key t.toList with
  | none =>
    exact .inr ⟨tree, t, rfl, hh, rfl, rfl, rfl, rfl, rfl⟩
  | some a =>
    obtain ⟨c, l, r, rfl⟩ : ∃ c l r, u = node c l a r := by
      cases u with
      | nil => simp [hequal, Tree.root] at hroot
      | node c l b r =>
        obtain rfl : b = a := by simpa [hequal] using hroot
        exact ⟨c, l, r, rfl⟩
    obtain ⟨m, hbal⟩ := hh.balanced
    have hrep := hh.represents
    rw [← hzip] at hrep hbal
    have hspec := deleteElement_spec hrep hbal hlen
    dsimp only at hspec ⊢
    rw [← Function.comp_def (Option.map _), ← Option.map_bind]
    rcases hspec with ⟨hnone, hhigh⟩ | ⟨heap', t', hsome, hrep', hbal', hlist⟩
    · left
      rw [hzip] at hhigh
      exact ⟨by rw [hnone]; rfl, hhigh⟩
    right
    rw [hsome]
    have ht : t.toList = before fs ++ l.toList ++ a :: (r.toList ++ after fs) := by
      rw [← hzip, toList_zip]
      simp [toList]
    have ht' : t'.toList = before fs ++ l.toList ++ (r.toList ++ after fs) := by
      rw [hlist]
      simp
    refine ⟨_, t', rfl, ⟨hrep', hbal', ?_, ?_⟩, rfl, by simp [Tree.flags, hdelete], rfl, rfl, ?_⟩
    · have hsub : t'.toList.Sublist t.toList := by
        rw [ht, ht']
        exact (sublist_cons_self _ _).append_left _
      exact hh.sorted.sublist hsub
    · rw [hh.elements, ht, ht']
      simp [← Nat.add_assoc, UInt32.ofNat_add]
    · rw [ht, ht']
      exact perm_middle

end

/-! ### Runs -/

/-- What has been done with a key. -/
inductive Event (K : Type*) where
  | inserted (key : K)
  | deleted (key : K)
  deriving DecidableEq

/-- How often a key was inserted since it was last absent, the last event first. -/
def times (compare : K → K → ℤ) (key : K) : List (Event K) → ℕ
  | [] => 0
  | .inserted k :: history =>
    if compare k key = 0 then times compare key history + 1 else times compare key history
  | .deleted k :: history => if compare k key = 0 then 0 else times compare key history

inductive Op (K : Type*) where
  /-- `tree_insert`; `memory` is what `my_malloc` returns if a new element is needed -/
  | insert (key : K) (keySize : UInt64) (memory : Option ℕ)
  /-- `tree_delete` -/
  | delete (key : K) (keySize : UInt64)
  /-- the caller sets `tree->flag` -/
  | setFlag (noDups onlyDups : Bool)

/-- A tree, with the elements that are allocated and the account of the calls. -/
structure State (K : Type*) where
  tree : Tree K
  allocated : List ℕ
  history : List (Event K)
  noDups : Bool
  onlyDups : Bool

/-- Whether an insert has to put a key in or to count it: one that is in the tree unless the caller
has set `TREE_NO_DUPS`, a new one unless it has set `TREE_ONLY_DUPS`, and if there is memory. -/
def State.takes (compare : K → K → ℤ) (s : State K) (key : K) (memory : Option ℕ) : Bool :=
  if times compare key s.history = 0 then !s.onlyDups && memory.isSome else !s.noDups

/-- One call. -/
def step (compare : K → K → ℤ) (s : State K) : Op K → Option (State K)
  | .insert key keySize memory =>
    (treeInsert compare s.tree key keySize memory).map fun (tree, _) =>
      if s.takes compare key memory then
        { s with
          tree
          allocated :=
            if times compare key s.history = 0 then memory.toList ++ s.allocated else s.allocated
          history := .inserted key :: s.history }
      else { s with tree }
  | .delete key keySize =>
    (treeDelete compare s.tree key keySize).map fun (tree, freed) =>
      { s with
        tree
        allocated := freed.elim s.allocated s.allocated.erase
        history := .deleted key :: s.history }
  | .setFlag noDups onlyDups =>
    some { s with tree := { s.tree with noDups, onlyDups }, noDups, onlyDups }

def run (compare : K → K → ℤ) (s : State K) : List (Op K) → Option (State K)
  | [] => some s
  | op :: ops => (step compare s op).bind fun s' => run compare s' ops

/-- `my_malloc` does not return an element that is allocated. -/
def Allowed (allocated : List ℕ) : Op K → Prop
  | .insert _ _ (some a) => a ∉ allocated
  | _ => True

instance (allocated : List ℕ) (op : Op K) : Decidable (Allowed allocated op) := by
  unfold Allowed
  split <;> infer_instance

/-- Every call of a run is allowed when it is made. -/
def AllowedRun (compare : K → K → ℤ) (s : State K) : List (Op K) → Prop
  | [] => True
  | op :: ops => Allowed s.allocated op ∧ ∀ s' ∈ step compare s op, AllowedRun compare s' ops

instance decidableAllowedRun (compare : K → K → ℤ) :
    (ops : List (Op K)) → (s : State K) → Decidable (AllowedRun compare s ops)
  | [], _ => isTrue trivial
  | op :: ops, s =>
    have (s' : State K) : Decidable (AllowedRun compare s' ops) :=
      decidableAllowedRun compare ops s'
    inferInstanceAs
      (Decidable (Allowed s.allocated op ∧ ∀ s' ∈ step compare s op, AllowedRun compare s' ops))

/-- A tree after `init_tree` with `MY_TREE_WITH_DELETE` and without a memory limit. -/
def start (heap : Heap) (key : ℕ → K) (count : ℕ → ℕ) (sizeOfElement : UInt64) : State K :=
  ⟨initTree heap key count sizeOfElement 0 true, [], [], false, false⟩

/-- The tree agrees with the account. -/
structure Inv (compare : K → K → ℤ) (s : State K) (t : RedBlack.Tree ℕ) : Prop extends
    Holds compare s.tree t where
  memoryLimit : s.tree.memoryLimit = 0
  flags : s.tree.flags = (true, s.noDups, s.onlyDups)
  allocated : s.allocated.Perm t.toList
  counts : ∀ a ∈ t.toList,
    s.tree.count a = min (times compare (s.tree.key a) s.history) (2 ^ 31 - 1)
  present : ∀ k, times compare k s.history ≠ 0 ↔ ∃ a ∈ t.toList, compare (s.tree.key a) k = 0

variable {s : State K}

theorem incrementCount_min (n : ℕ) :
    incrementCount (min n (2 ^ 31 - 1)) = min (n + 1) (2 ^ 31 - 1) := by
  unfold incrementCount
  rcases Nat.lt_or_ge n (2 ^ 31 - 1) with h | h
  · rw [min_eq_left h.le, min_eq_left (by omega)]
    rw [Nat.mod_eq_of_lt (by omega), if_neg (by omega)]
  · rw [min_eq_right h, min_eq_right (by omega)]
    rfl

section

variable (hs : Inv compare s t) (ho : TotalOrder compare)
include hs ho

omit ho in
theorem Inv.times_eq_zero (key : K) :
    times compare key s.history = 0 ↔ equalTo compare s.tree key t.toList = none := by
  rw [← not_iff_not, ← ne_eq, hs.present, equalTo_eq_none]
  simp

omit ho in
/-- `tree_insert` returns an element exactly if it has to take the key. -/
theorem Inv.takes_iff {key : K} {memory : Option ℕ} :
    s.takes compare key memory ↔
      ∃ a, insertResult s.tree memory (equalTo compare s.tree key t.toList) = .element a := by
  obtain ⟨-, hno, honly⟩ : _ ∧ s.tree.noDups = s.noDups ∧ s.tree.onlyDups = s.onlyDups := by
    simpa [Tree.flags] using hs.flags
  simp only [State.takes, hs.times_eq_zero]
  cases equalTo compare s.tree key t.toList with
  | some a => cases hdups : s.noDups <;> simp_all [insertResult]
  | none => cases hdups : s.onlyDups <;> cases memory <;> simp_all [insertResult]

/-- An insert into a tree that agrees with the account. -/
theorem Inv.insert {key : K} {tree' : Tree K} {memory : Option ℕ}
    {t' : RedBlack.Tree ℕ} {a : ℕ} (hh' : Holds compare tree' t') (hlimit : tree'.memoryLimit = 0)
    (hflags : tree'.flags = s.tree.flags)
    (hres : insertResult s.tree memory (equalTo compare s.tree key t.toList) = .element a)
    (heffect : InsertEffect s.tree t.toList key tree' t'.toList
      (equalTo compare s.tree key t.toList) (.element a)) :
    Inv compare { s with
        tree := tree'
        allocated :=
          if times compare key s.history = 0 then memory.toList ++ s.allocated else s.allocated
        history := .inserted key :: s.history } t' := by
  have hperm := hs.allocated
  have habsent := hs.times_eq_zero key
  generalize hequal : equalTo compare s.tree key t.toList = found at heffect habsent hres
  cases heffect with
  | nothing hres => exact absurd rfl (hres a)
  | counted hl hkey hcount =>
    obtain ⟨ha, hak⟩ := equalTo_some hequal
    refine ⟨hh', hlimit, hflags.trans hs.flags, ?_, fun b hb => ?_, fun k => ?_⟩
    · simpa [habsent, hl] using hperm
    · rw [hl] at hb
      simp only [hcount, hkey, times]
      by_cases hba : b = a
      · subst hba
        rw [update_self, if_pos (ho.eq_swap.1 hak), hs.counts b hb, incrementCount_min]
      · rw [update_of_ne hba, if_neg, hs.counts b hb]
        exact fun h => hba (hs.unique ho hb ha (ho.eq_swap.1 h) hak)
    · simp only [hkey, hl, times, ← hs.present k]
      split
      next hk =>
        simp only [ne_eq, Nat.add_eq_zero_iff, Nat.one_ne_zero, and_false, not_false_eq_true,
          true_iff]
        exact (hs.present k).2 ⟨a, ha, (ho.eq_congr hak k).2 hk⟩
      next => rfl
  | added hl hkey hcount =>
    have hnone := equalTo_eq_none.1 hequal
    have ha : a ∉ t.toList := by
      have hnodup := hl.nodup_iff.1 hh'.represents.nodup
      exact (nodup_cons.1 hnodup).1
    have hzero : times compare key s.history = 0 := habsent.2 rfl
    refine ⟨hh', hlimit, hflags.trans hs.flags, ?_, fun b hb => ?_, fun k => ?_⟩
    · have hnew : memory = some a := by
        cases hdups : s.tree.onlyDups <;> cases memory <;> simp_all [insertResult]
      simpa [hzero, hnew] using (hperm.cons a).trans hl.symm
    · simp only [hcount, hkey, times]
      rcases mem_cons.1 (hl.mem_iff.1 hb) with rfl | hb
      · rw [update_self, update_self, if_pos (ho.refl key), hzero]
        rfl
      · have hba : b ≠ a := ne_of_mem_of_not_mem hb ha
        rw [update_of_ne hba, update_of_ne hba, if_neg, hs.counts b hb]
        exact fun h => hnone b hb (ho.eq_swap.1 h)
    · have hold : (∃ b ∈ t.toList, compare (tree'.key b) k = 0) ↔
          ∃ b ∈ t.toList, compare (s.tree.key b) k = 0 := by
        refine exists_congr fun b => and_congr_right fun hb => ?_
        rw [hkey, update_of_ne (ne_of_mem_of_not_mem hb ha)]
      have hnew : (∃ b ∈ t'.toList, compare (tree'.key b) k = 0) ↔
          compare key k = 0 ∨ ∃ b ∈ t.toList, compare (tree'.key b) k = 0 := by
        simp only [hl.mem_iff, mem_cons, or_and_right, exists_or, exists_eq_left]
        rw [hkey, update_self]
      rw [hnew, hold, ← hs.present k, times]
      split <;> simp_all

/-- A delete from a tree that agrees with the account. -/
theorem Inv.delete {key : K} {tree' : Tree K}
    {t' : RedBlack.Tree ℕ} (hh' : Holds compare tree' t') (hlimit : tree'.memoryLimit = 0)
    (hflags : tree'.flags = s.tree.flags) (hkey : tree'.key = s.tree.key)
    (hcount : tree'.count = s.tree.count)
    (heffect : match equalTo compare s.tree key t.toList with
      | none => t'.toList = t.toList
      | some a => t.toList.Perm (a :: t'.toList)) :
    Inv compare { s with
        tree := tree'
        allocated := (equalTo compare s.tree key t.toList).elim s.allocated s.allocated.erase
        history := .deleted key :: s.history } t' := by
  have hperm := hs.allocated
  -- what is left is what is not equal to the key
  have hleft : ∀ b, b ∈ t'.toList ↔ b ∈ t.toList ∧ compare (s.tree.key b) key ≠ 0 := by
    intro b
    cases hequal : equalTo compare s.tree key t.toList with
    | none =>
      rw [hequal] at heffect
      rw [heffect]
      exact ⟨fun hb => ⟨hb, equalTo_eq_none.1 hequal b hb⟩, And.left⟩
    | some a =>
      rw [hequal] at heffect
      dsimp only at heffect
      obtain ⟨ha, hak⟩ := equalTo_some hequal
      have hnodup := heffect.nodup_iff.1 hs.represents.nodup
      rw [nodup_cons] at hnodup
      rw [heffect.mem_iff, mem_cons]
      refine ⟨fun hb => ⟨.inr hb, fun hbk => ?_⟩, ?_⟩
      · obtain rfl := hs.unique ho ha (heffect.mem_iff.2 (mem_cons_of_mem _ hb)) hak hbk
        exact hnodup.1 hb
      · rintro ⟨rfl | hb, hbk⟩
        · exact absurd hak hbk
        · exact hb
  refine ⟨hh', hlimit, hflags.trans hs.flags, ?_, fun b hb => ?_, fun k => ?_⟩
  · cases hequal : equalTo compare s.tree key t.toList with
    | none =>
      rw [hequal] at heffect
      rw [heffect]
      exact hperm
    | some a =>
      rw [hequal] at heffect
      have herase := (hperm.trans heffect).erase a
      rwa [erase_cons_head] at herase
  · obtain ⟨hb, hbk⟩ := (hleft b).1 hb
    simp only [hcount, hkey, times]
    rw [if_neg fun h => hbk (ho.eq_swap.1 h), hs.counts b hb]
  · simp only [hkey, times, hleft]
    split
    next hk =>
      refine ⟨fun h => absurd rfl h, ?_⟩
      rintro ⟨b, ⟨-, hbk⟩, hb⟩
      refine absurd ?_ hbk
      have hkb := (ho.eq_congr hk (s.tree.key b)).2 (ho.eq_swap.1 hb)
      exact ho.eq_swap.1 hkb
    next hk =>
      rw [hs.present k]
      refine exists_congr fun b => ⟨fun ⟨hb, h⟩ => ⟨⟨hb, fun hbk => ?_⟩, h⟩, fun ⟨hb, h⟩ => ⟨hb.1, h⟩⟩
      exact hk ((ho.eq_congr hbk k).1 h)

/-- Every call has a result, if the tree is not too high, and keeps the invariant. -/
theorem step_inv {op : Op K} (hop : Allowed s.allocated op) :
    (step compare s op = none ∧ High t) ∨
      ∃ s' t', step compare s op = some s' ∧ Inv compare s' t' := by
  cases op with
  | insert key keySize memory =>
    have hmemory : ∀ a, memory = some a → a ∉ t.toList := by
      rintro a rfl ha
      exact hop (hs.allocated.mem_iff.2 ha)
    rcases treeInsert_spec hs.toHolds ho hs.memoryLimit key keySize hmemory with
      ⟨hnone, hhigh⟩ | ⟨tree', t', hsome, hh', hlimit, hflags, heffect⟩
    · exact .inl ⟨by rw [step, hnone]; rfl, hhigh⟩
    right
    rw [step, hsome, Option.map_some]
    by_cases htakes : s.takes compare key memory
    · obtain ⟨a, hres⟩ := hs.takes_iff.1 htakes
      simp only [htakes, if_true]
      exact ⟨_, t', rfl, hs.insert ho hh' hlimit hflags hres (hres ▸ heffect)⟩
    · have hno := fun a hres => htakes (hs.takes_iff.2 ⟨a, hres⟩)
      obtain ⟨hl, hkey, hcount⟩ := heffect.unchanged hno
      refine ⟨{ s with tree := tree' }, t', by simp [htakes], hh', hlimit, hflags.trans hs.flags,
        ?_, ?_, ?_⟩
      · rw [hl]
        exact hs.allocated
      · simp only [hl, hkey, hcount]
        exact hs.counts
      · simp only [hl, hkey]
        exact hs.present
  | delete key keySize =>
    rcases treeDelete_spec hs.toHolds ho (congrArg Prod.fst hs.flags) key keySize with
      ⟨hnone, hhigh⟩ | ⟨tree', t', hsome, hh', hlimit, hflags, hkey, hcount, heffect⟩
    · exact .inl ⟨by rw [step, hnone]; rfl, hhigh⟩
    · rw [hs.memoryLimit] at hlimit
      exact .inr ⟨_, t', by rw [step, hsome, Option.map_some],
        hs.delete ho hh' hlimit hflags hkey hcount heffect⟩
  | setFlag noDups onlyDups =>
    exact .inr ⟨_, t, rfl, ⟨hs.represents, hs.balanced, hs.sorted, hs.elements⟩, hs.memoryLimit,
      congrArg (fun f => (f.1, noDups, onlyDups)) hs.flags, hs.allocated, hs.counts, hs.present⟩

theorem run_inv {ops : List (Op K)} (hops : AllowedRun compare s ops) {s' : State K}
    (hrun : run compare s ops = some s') : ∃ t', Inv compare s' t' := by
  induction ops generalizing s t with
  | nil =>
    obtain rfl : s = s' := by simpa [run] using hrun
    exact ⟨t, hs⟩
  | cons op ops ih =>
    obtain ⟨hop, hrest⟩ := hops
    rcases step_inv hs ho hop with ⟨hnone, -⟩ | ⟨s1, t1, hstep, hs1⟩
    · rw [run, hnone] at hrun
      cases hrun
    · rw [run, hstep, Option.bind_some] at hrun
      exact ih hs1 (hrest s1 hstep) hrun

end

theorem inv_start (heap : Heap) (key : ℕ → K) (count : ℕ → ℕ) (sizeOfElement : UInt64) :
    Inv compare (start heap key count sizeOfElement) .nil where
  represents := ⟨by simp [start, initTree, Heap.link_write, Tree.root], trivial, by simp [toList]⟩
  balanced := ⟨0, .nil⟩
  sorted := by simp [toList]
  elements := rfl
  memoryLimit := rfl
  flags := rfl
  allocated := List.Perm.refl _
  counts := by simp [toList]
  present := by simp [toList, times, start]

/-- A balanced tree of up to 2^31 elements is not too high for the searches. -/
theorem Holds.low (hh : Holds compare tree t) (hlen : t.toList.length ≤ 2 ^ 31) : Low t := by
  intro fs hfs
  obtain ⟨m, hbal⟩ := hh.balanced
  rw [← hfs] at hbal hlen
  have hshort := length_le_of_balanced (k := 31) hbal (by omega)
  unfold maxTreeHeight
  omega

/-- **The tree is an ordered map.**  In every state that a run of calls reaches, for every total
order: the elements from left to right are in increasing order; `test_rb_tree` finds no error;
`elements_in_tree` is their number; the counts are right, and there are elements for the keys that
were inserted and not deleted, and for no others.  With up to 2^31 elements every call that follows
finds its way in the `MAX_TREE_HEIGHT` entries of `parents`, and for every search, also one that
takes several elements for equal, `tree_search_key` returns the position that the flag asks for, or
`NULL` if there is none, and `tree_search_next` goes on from it through all elements in order, or in
the opposite order. -/
theorem run_tree (ho : TotalOrder compare) (heap : Heap) (key : ℕ → K) (count : ℕ → ℕ)
    (sizeOfElement : UInt64) (ops : List (Op K))
    (hops : AllowedRun compare (start heap key count sizeOfElement) ops) (s : State K)
    (hrun : run compare (start heap key count sizeOfElement) ops = some s) :
    ∃ l : List ℕ,
      treeWalk s.tree.heap l.length (s.tree.heap.link .root) = some l ∧
      (l.Pairwise fun a b => compare (s.tree.key a) (s.tree.key b) < 0) ∧
      (∃ n : ℕ, testRbTree s.tree.heap l.length (s.tree.heap.link .root) = some (n : ℤ)) ∧
      s.tree.elementsInTree.toNat = l.length % 2 ^ 32 ∧
      (∀ a ∈ l, s.tree.count a = min (times compare (s.tree.key a) s.history) (2 ^ 31 - 1)) ∧
      (∀ k, times compare k s.history ≠ 0 ↔ ∃ a ∈ l, compare (s.tree.key a) k = 0) ∧
      (l.length ≤ 2 ^ 31 →
        (∀ op, Allowed s.allocated op → ∃ s', step compare s op = some s') ∧
        ∀ cmp, Cut cmp l → ∀ flag,
          match required cmp l flag with
          | none => treeSearchKey cmp flag s.tree.heap = some none
          | some a => ∃ pos l1 l2, treeSearchKey cmp flag s.tree.heap = some (some pos) ∧
              l = l1 ++ a :: l2 ∧
              enumerate .left s.tree.heap (l.length + 1) pos = some (a :: l2) ∧
              enumerate .right s.tree.heap (l.length + 1) pos = some (a :: l1.reverse)) := by
  obtain ⟨t, hs⟩ := run_inv (inv_start heap key count sizeOfElement) ho hops hrun
  obtain ⟨m, hbal⟩ := hs.balanced
  refine ⟨t.toList, ?_, hs.sorted, ⟨m, ?_⟩, ?_, hs.counts, hs.present, fun hlen => ⟨?_, ?_⟩⟩
  · rw [hs.represents.root]
    exact treeWalk_spec hs.represents.shape le_rfl
  · rw [hs.represents.root]
    exact testRbTree_spec hs.represents.shape hbal le_rfl
  · rw [hs.elements, UInt32.toNat_ofNat']
  · intro op hop
    rcases step_inv hs ho hop with ⟨-, hhigh⟩ | ⟨s', -, hstep, -⟩
    · have := hhigh.lt_length hbal
      omega
    · exact ⟨s', hstep⟩
  intro cmp hcut flag
  have hlow := hs.low hlen
  obtain ⟨pos, hkey, hfinds⟩ := treeSearchKey_spec hs.represents hcut hlow flag
  cases hreq : required cmp t.toList flag with
  | none =>
    rw [hreq] at hfinds
    cases pos with
    | none => exact hkey
    | some pos => exact hfinds.elim
  | some a =>
    rw [hreq] at hfinds
    cases pos with
    | none => exact hfinds.elim
    | some pos =>
      obtain ⟨c, l, r, fs, hzip, rfl⟩ := hfinds
      obtain ⟨l1, l2, hsplit, hfwd, hback⟩ :=
        enumerate_spec hs.represents hlow hzip (Nat.lt_succ_self _)
      exact ⟨_, l1, l2, hkey, hsplit, hfwd, hback⟩

/-- Some calls: a key inserted twice, one deleted, one inserted anew at the same address. -/
def sampleOps : List (Op ℤ) :=
  [.insert 5 8 (some 0), .insert 3 8 (some 1), .insert 5 8 none, .delete 3 8,
    .insert 7 8 (some 1), .insert 6 8 (some 2)]

def sampleHeap : Heap := ⟨fun _ => none, fun _ => .black⟩

def compareInt (x y : ℤ) : ℤ := x - y

theorem compareInt_total : TotalOrder compareInt where
  swap x y := by unfold compareInt; omega
  trans x y z := by unfold compareInt; omega

def sampleStart : State ℤ := start sampleHeap (fun _ => 0) (fun _ => 0) 0

theorem sampleOps_allowed : AllowedRun compareInt sampleStart sampleOps := by decide +kernel

theorem sampleOps_history : (run compareInt sampleStart sampleOps).map State.history =
    some [.inserted 6, .inserted 7, .deleted 3, .inserted 5, .inserted 3, .inserted 5] := by
  decide +kernel

theorem run_tree_sampleOps :
    AllowedRun compareInt sampleStart sampleOps ∧
      ∃ s l, run compareInt sampleStart sampleOps = some s ∧
        treeWalk s.tree.heap l.length (s.tree.heap.link .root) = some l ∧
        (l.Pairwise fun a b => compareInt (s.tree.key a) (s.tree.key b) < 0) ∧
        ∃ a ∈ l, s.tree.key a = 5 ∧ s.tree.count a = 2 := by
  obtain ⟨s, hrun, hhistory⟩ := Option.map_eq_some_iff.1 sampleOps_history
  obtain ⟨l, hwalk, hsorted, -, -, hcount, hpresent, -⟩ := run_tree compareInt_total sampleHeap
    (fun _ => 0) (fun _ => 0) 0 sampleOps sampleOps_allowed s hrun
  rw [hhistory] at hcount hpresent
  obtain ⟨a, ha, hkey⟩ := (hpresent 5).1 (by decide)
  have ha5 : s.tree.key a = 5 := Int.sub_eq_zero.1 hkey
  exact ⟨sampleOps_allowed, s, l, hrun, hwalk, hsorted, a, ha, ha5, by rw [hcount a ha, ha5]; decide⟩

end MyTree
