/-
**Binary heaps with a hole.**

A binary heap is kept in the cells `1 … n` of an array, the parent of the cell `i` being `i / 2`.
The usual algorithms on it carry one element in hand: they open a hole, move the hole along a path
of the tree by copying a neighbour into it, and at last put the element into the hole.  While the
hole is open the order holds everywhere else, and across the hole from its parent to its children.

An order is an arbitrary relation `le`.  Orders are required from a cell on only, so that the
bottom-up construction of a heap is covered too.

Main definitions:

* `HeapFrom`, `Heap`: the order along the edges below a cell, and along all;
* `HeapExcept`: the order of a heap with a hole;
* `contents`: the elements of the heap as a multiset.

Main results:

* `HeapExcept.pull_child`, `HeapExcept.pull_parent`: **the hole moves**.
-/

import Mathlib.Data.Multiset.AddSub
import Mathlib.Order.Interval.Finset.Nat
import Mathlib.Tactic

set_option autoImplicit false

namespace BinaryHeap

open Function Finset

variable {α : Type*} {le : α → α → Prop} {a : ℕ → α} {k n h : ℕ} {e : α}

/-! ### The order -/

/-- Every edge whose upper end is at or after the cell `k` is in order. -/
def HeapFrom (le : α → α → Prop) (a : ℕ → α) (k n : ℕ) : Prop :=
  ∀ i, i ≤ n → k ≤ i / 2 → le (a (i / 2)) (a i)

/-- The cells `1 … n` are a heap. -/
def Heap (le : α → α → Prop) (a : ℕ → α) (n : ℕ) : Prop := HeapFrom le a 1 n

/-- The cells from `k` on are a heap but for the hole `h`, whatever is in it. -/
structure HeapExcept (le : α → α → Prop) (a : ℕ → α) (k n h : ℕ) : Prop where
  /-- The edges that do not touch the hole are in order. -/
  edge : ∀ i, i ≤ n → k ≤ i / 2 → i ≠ h → i / 2 ≠ h → le (a (i / 2)) (a i)
  /-- The parent of the hole is in order with the children of the hole. -/
  skip : ∀ i, i ≤ n → i / 2 = h → k ≤ h / 2 → le (a (h / 2)) (a i)

/-- Nothing is required past the last parent. -/
theorem heapFrom_half (le : α → α → Prop) (a : ℕ → α) (n : ℕ) : HeapFrom le a (n / 2 + 1) n := by
  intro i hi hk
  omega

theorem HeapFrom.mono {n' : ℕ} (hp : HeapFrom le a k n) (hn : n' ≤ n) : HeapFrom le a k n' :=
  fun i hi hk => hp i (hi.trans hn) hk

theorem HeapFrom.open [IsTrans α le] (hp : HeapFrom le a k n) (hh : 0 < h) :
    HeapExcept le a k n h where
  edge i hi hk _ _ := hp i hi hk
  skip i hi hih hk := by
    have hedge := hp i hi (by omega)
    rw [hih] at hedge
    exact IsTrans.trans _ _ _ (hp h (by omega) hk) hedge

theorem HeapFrom.open_pred (hp : HeapFrom le a (k + 1) n) (hk0 : 0 < k) :
    HeapExcept le a k n k where
  edge i hi hk _ hne := hp i hi (by omega)
  skip i _ hih hk := by omega

theorem HeapFrom.open_last (hp : HeapFrom le a k n) : HeapExcept le a k (n + 1) (n + 1) where
  edge i hi hk hne _ := hp i (by omega) hk
  skip i hi hih _ := by omega

namespace HeapExcept

variable (hp : HeapExcept le a k n h)
include hp

theorem update_hole (hh : 0 < h) (x : α) : HeapExcept le (update a h x) k n h where
  edge i hi hk hne hne' := by
    rw [update_of_ne hne', update_of_ne hne]
    exact hp.edge i hi hk hne hne'
  skip i hi hih hk := by
    rw [update_of_ne (by omega), update_of_ne (by omega)]
    exact hp.skip i hi hih hk

/-! ### Moving and filling the hole -/

/-- **The hole moves down:** a least child `c` of the hole is copied into it, and `c` becomes the
hole. -/
theorem pull_child {c : ℕ} (hh : 0 < h) (hc : c ≤ n)
    (hch : c / 2 = h) (hmin : ∀ i, i ≤ n → i / 2 = h → i ≠ c → le (a c) (a i)) :
    HeapExcept le (update a h (a c)) k n c where
  edge i hi hk hne hne' := by
    by_cases hih : i = h
    · subst hih
      rw [update_self, update_of_ne (by omega)]
      exact hp.skip c hc hch hk
    rw [update_of_ne hih]
    by_cases hpar : i / 2 = h
    · rw [hpar, update_self]
      exact hmin i hi hpar hne
    · rw [update_of_ne hpar]
      exact hp.edge i hi hk hih hpar
  skip i hi hic hk := by
    rw [hch, update_self, update_of_ne (by omega)]
    have hedge := hp.edge i hi (by omega) (by omega) (by omega)
    rwa [hic] at hedge

/-- An element before the parent of the hole is before the children of that parent. -/
theorem le_of_parent [IsTrans α le] (hk : k ≤ h / 2) (hpos : 0 < h / 2) (he : le e (a (h / 2))) :
    ∀ i, i ≤ n → i / 2 = h / 2 → le e (update a h (a (h / 2)) i) := by
  intro i hi hip
  by_cases hih : i = h
  · rw [hih, update_self]
    exact he
  rw [update_of_ne hih]
  have hdown := hp.edge i hi (by omega) hih (by omega)
  rw [hip] at hdown
  exact IsTrans.trans _ _ _ he hdown

/-- **The hole moves up:** its parent is copied into it, and becomes the hole. -/
theorem pull_parent [IsTrans α le] (hn : h ≤ n) (hk : k ≤ h / 2) (hpos : 0 < h / 2) :
    HeapExcept le (update a h (a (h / 2))) k n (h / 2) where
  edge i hi hki hne hne' := by
    have hih : i ≠ h := by
      rintro rfl
      exact hne' rfl
    rw [update_of_ne hih]
    by_cases hpar : i / 2 = h
    · rw [hpar, update_self]
      exact hp.skip i hi hpar hk
    · rw [update_of_ne hpar]
      exact hp.edge i hi hki hih hpar
  skip i hi hip hkp := by
    have hup : le (a (h / 2 / 2)) (a (h / 2)) :=
      hp.edge (h / 2) (by omega) hkp (by omega) (by omega)
    rw [update_of_ne (show h / 2 / 2 ≠ h by omega)]
    exact hp.le_of_parent hk hpos hup i hi hip

/-- **The hole is filled** with an element in order with its parent and its children. -/
theorem fill (hh : 0 < h) (habove : k ≤ h / 2 → le (a (h / 2)) e)
    (hbelow : ∀ i, i ≤ n → i / 2 = h → le e (a i)) : HeapFrom le (update a h e) k n := by
  intro i hi hk
  by_cases hih : i = h
  · subst hih
    rw [update_self, update_of_ne (by omega)]
    exact habove hk
  rw [update_of_ne hih]
  by_cases hpar : i / 2 = h
  · rw [hpar, update_self]
    exact hbelow i hi hpar
  · rw [update_of_ne hpar]
    exact hp.edge i hi hk hih hpar

end HeapExcept

/-- **The first cell has a least element.** -/
theorem Heap.le_of_top [Std.Refl le] [IsTrans α le] (hp : Heap le a n) :
    ∀ i, 1 ≤ i → i ≤ n → le (a 1) (a i) := by
  intro i
  induction i using Nat.strong_induction_on with
  | _ i ih =>
    intro h1 hi
    rcases Nat.eq_or_lt_of_le h1 with rfl | hlt
    · exact refl _
    · exact IsTrans.trans _ _ _ (ih (i / 2) (by omega) (by omega) (by omega)) (hp i hi (by omega))

/-! ### The elements -/

/-- The elements in the cells `1 … n`. -/
def contents (a : ℕ → α) (n : ℕ) : Multiset α := (Finset.Icc 1 n).val.map a

@[simp] theorem contents_zero (a : ℕ → α) : contents a 0 = 0 := by simp [contents]

theorem contents_succ (a : ℕ → α) (n : ℕ) : contents a (n + 1) = a (n + 1) ::ₘ contents a n := by
  have hIcc : Finset.Icc 1 (n + 1) = insert (n + 1) (Finset.Icc 1 n) := by
    ext i
    simp only [mem_Icc, mem_insert]
    omega
  rw [contents, hIcc, insert_val_of_notMem (by simp), Multiset.map_cons, contents]

theorem mem_contents {x : α} : x ∈ contents a n ↔ ∃ i, 1 ≤ i ∧ i ≤ n ∧ a i = x := by
  simp [contents, and_assoc]

/-- The elements that shortening the heap to `n'` cells cuts off. -/
theorem contents_split {n' : ℕ} (a : ℕ → α) (hn : n' ≤ n) :
    contents a n = contents a n' + (Finset.Ioc n' n).val.map a := by
  have hdisj : Disjoint (Finset.Icc 1 n') (Finset.Ioc n' n) := by
    rw [disjoint_left]
    intro i hi hi'
    simp only [mem_Icc, mem_Ioc] at hi hi'
    omega
  have hIcc : Finset.Icc 1 n = (Finset.Icc 1 n').disjUnion (Finset.Ioc n' n) hdisj := by
    ext i
    simp only [mem_Icc, mem_disjUnion, mem_Ioc]
    omega
  rw [contents, contents, hIcc, disjUnion_val, Multiset.map_add]

theorem contents_congr {b : ℕ → α} (hab : ∀ i, 1 ≤ i → i ≤ n → a i = b i) :
    contents a n = contents b n := by
  refine Multiset.map_congr rfl ?_
  intro i hi
  rw [mem_val, mem_Icc] at hi
  exact hab i hi.1 hi.2

/-- Overwriting a cell exchanges its element for the new one. -/
theorem contents_update (a : ℕ → α) (h1 : 1 ≤ h) (hn : h ≤ n) (x : α) :
    a h ::ₘ contents (update a h x) n = x ::ₘ contents a n := by
  have hIcc : (Finset.Icc 1 n).val = h ::ₘ ((Finset.Icc 1 n).erase h).val := by
    rw [← insert_val_of_notMem (by simp), insert_erase (by simp [h1, hn])]
  have hrest : ((Finset.Icc 1 n).erase h).val.map (update a h x)
      = ((Finset.Icc 1 n).erase h).val.map a := by
    refine Multiset.map_congr rfl ?_
    intro i hi
    rw [mem_val, mem_erase] at hi
    exact update_of_ne hi.1 _ _
  rw [contents, contents, hIcc, Multiset.map_cons, Multiset.map_cons, hrest, update_self,
    Multiset.cons_swap]

/-- **Moving the hole** from `h` to `c` keeps the elements, the one in hand included. -/
theorem contents_move {c : ℕ} (a : ℕ → α) (h1 : 1 ≤ h) (hn : h ≤ n) (c1 : 1 ≤ c) (cn : c ≤ n)
    (hne : c ≠ h) (e : α) :
    contents (update (update a h (a c)) c e) n = contents (update a h e) n := by
  have hc := contents_update (update a h (a c)) c1 cn e
  rw [update_of_ne hne] at hc
  have hh := contents_update a h1 hn (a c)
  have he := contents_update a h1 hn e
  have hsum : a h ::ₘ a c ::ₘ contents (update (update a h (a c)) c e) n
      = a h ::ₘ a c ::ₘ contents (update a h e) n := by
    rw [hc, Multiset.cons_swap, hh, Multiset.cons_swap (a h), he, Multiset.cons_swap]
  simpa using hsum

end BinaryHeap
