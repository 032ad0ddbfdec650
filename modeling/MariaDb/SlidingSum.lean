/-
**Aggregates over a window that slides along a list.**

An accumulator is fed the elements that enter a window and is told the elements that leave it.
`Removable` collects what such an accumulator has to satisfy so that it follows the window: it
counts the elements that matter, an element that leaves is the oldest one, and a removal from an
accumulator that counts nothing has no effect.  The window is a slice of the list between two
positions.

Main definitions:

* `slice`: the elements of a list from one position up to another;
* `clip`: a position brought into an interval;
* `Removable`: an accumulator with removal.

Main results:

* `Removable.add_slice`, `Removable.remove_heads`: feeding the elements that enter, and removing
  those that leave.
-/

import Mathlib.Data.List.Sort
import Mathlib.Algebra.Order.Group.Int
import Mathlib.Order.Lattice

set_option autoImplicit false

namespace SlidingSum

open List

/-! ### Slices -/

section Slice

variable {α : Type}

/-- The elements of the list at the positions `lo`, …, `hi - 1`. -/
def slice (l : List α) (lo hi : ℕ) : List α := (List.range' lo (hi - lo)).filterMap (l[·]?)

theorem slice_of_le {l : List α} {lo hi : ℕ} (h : hi ≤ lo) : slice l lo hi = [] := by
  simp [slice, Nat.sub_eq_zero_of_le h]

@[simp] theorem slice_self (l : List α) (lo : ℕ) : slice l lo lo = [] := slice_of_le le_rfl

theorem slice_append (l : List α) {lo mid hi : ℕ} (h1 : lo ≤ mid) (h2 : mid ≤ hi) :
    slice l lo mid ++ slice l mid hi = slice l lo hi := by
  have hlen : hi - lo = (mid - lo) + (hi - mid) := by omega
  have hmid : lo + 1 * (mid - lo) = mid := by omega
  rw [slice, slice, slice, hlen, ← range'_append, hmid, filterMap_append]

theorem slice_single {l : List α} {i : ℕ} {a : α} (h : l[i]? = some a) :
    slice l i (i + 1) = [a] := by
  simp [slice, h]

theorem slice_cons {l : List α} {lo hi : ℕ} {a : α} (h : l[lo]? = some a) (hlt : lo < hi) :
    slice l lo hi = a :: slice l (lo + 1) hi := by
  rw [← slice_append l (Nat.le_succ lo) hlt, slice_single h]
  rfl

/-- The positions below `n` that lie in an interval, in order. -/
theorem filter_range (n lo hi : ℕ) (hn : hi ≤ n) :
    (List.range n).filter (fun j => decide (lo ≤ j ∧ j < hi)) = List.range' lo (hi - lo) := by
  refine (pairwise_lt_range.filter _).eq_of_mem_iff pairwise_lt_range' fun j => ?_
  rw [mem_filter, mem_range, mem_range'_1, decide_eq_true_iff]
  omega

/-- The elements at the positions that a predicate selects, when these form an interval. -/
theorem filter_range_eq_slice {l : List α} {lo hi : ℕ} (hhi : hi ≤ l.length) {P : ℕ → Prop}
    [DecidablePred P] (hP : ∀ j, j < l.length → (P j ↔ lo ≤ j ∧ j < hi)) :
    ((List.range l.length).filter (fun j => decide (P j))).filterMap (l[·]?) = slice l lo hi := by
  have hfilter : (List.range l.length).filter (fun j => decide (P j)) =
      (List.range l.length).filter (fun j => decide (lo ≤ j ∧ j < hi)) := by
    refine filter_congr fun j hj => ?_
    simp only [hP j (mem_range.1 hj)]
  rw [hfilter, filter_range _ _ _ hhi, slice]

end Slice

/-! ### Positions brought into an interval -/

/-- The position `z` brought into the interval from `p` to `e`. -/
def clip (p e : ℕ) (z : ℤ) : ℕ := max p (min e z.toNat)

theorem le_clip (p e : ℕ) (z : ℤ) : p ≤ clip p e z := le_max_left _ _

theorem clip_le {p e : ℕ} (h : p ≤ e) (z : ℤ) : clip p e z ≤ e := by
  simp only [clip]
  omega

theorem clip_mono {p e : ℕ} {y z : ℤ} (h : y ≤ z) : clip p e y ≤ clip p e z := by
  simp only [clip]
  omega

theorem clip_le_iff {p e j : ℕ} (hj : p ≤ j) (hje : j < e) (z : ℤ) : clip p e z ≤ j ↔ z ≤ j := by
  simp only [clip]
  omega

theorem lt_clip_iff {p e j : ℕ} (hj : p ≤ j) (hje : j < e) (z : ℤ) :
    j < clip p e z ↔ (j : ℤ) < z := by
  simp only [clip]
  omega

/-! ### Accumulators with removal -/

section Removal

variable {α σ : Type}

/-- An accumulator that follows a window.  `counts` says which elements matter, `count` how many
of them the accumulator counts; `Holds s l` says that `s` is the state for the window `l`. -/
structure Removable (add remove : α → σ → σ) (counts : α → Bool) (count : σ → ℕ)
    (Holds : σ → List α → Prop) : Prop where
  add_holds : ∀ {s l} (a : α), Holds s l → Holds (add a s) (l ++ [a])
  remove_holds : ∀ {s a l}, Holds s (a :: l) → Holds (remove a s) l
  remove_zero : ∀ {s} (a : α), count s = 0 → remove a s = s
  count_holds : ∀ {s l}, Holds s l → count s = (l.filter counts).length
  count_add : ∀ (s a), count (add a s) = count s + (counts a).toNat
  count_remove : ∀ (s a), count (remove a s) = count s - (counts a).toNat

variable {add remove : α → σ → σ} {counts : α → Bool} {count : σ → ℕ} {Holds : σ → List α → Prop}

namespace Removable

variable (h : Removable add remove counts count Holds)
include h

theorem add_list (m : List α) :
    ∀ {s : σ} {l : List α}, Holds s l → Holds (m.foldl (fun s a => add a s) s) (l ++ m) := by
  induction m with
  | nil =>
    intro s l hs
    simpa using hs
  | cons a m ih =>
    intro s l hs
    have := ih (h.add_holds a hs)
    rwa [append_assoc] at this

theorem add_slice {l : List α}
    {lo mid hi : ℕ} {s : σ} (hs : Holds s (slice l lo mid)) (h1 : lo ≤ mid) (h2 : mid ≤ hi) :
    Holds ((slice l mid hi).foldl (fun s a => add a s) s) (slice l lo hi) := by
  rw [← slice_append l h1 h2]
  exact h.add_list _ hs

theorem remove_empty {s : σ} (hs : Holds s []) (a : α) : Holds (remove a s) [] := by
  rw [h.remove_zero a (by simpa using h.count_holds hs)]
  exact hs

/-- One removal at the position `q` of the window: the element there is the oldest one, or the
window is empty already and the removal has no effect. -/
theorem remove_step {l : List α} {q hi : ℕ} {s : σ} {a : α} (hs : Holds s (slice l (min q hi) hi))
    (ha : q < hi → l[q]? = some a) : Holds (remove a s) (slice l (min (q + 1) hi) hi) := by
  rcases Nat.lt_or_ge q hi with hlt | hge
  · rw [Nat.min_eq_left hlt.le, slice_cons (ha hlt) hlt] at hs
    rw [Nat.min_eq_left hlt]
    exact h.remove_holds hs
  · rw [Nat.min_eq_right hge, slice_self] at hs
    rw [Nat.min_eq_right (by omega), slice_self]
    exact h.remove_empty hs a

/-- A whole run of removals, at the positions from `q` on.  Past the last position `last` of the
list that the window may reach, its element is removed again and again: the window is empty by
then. -/
theorem remove_heads {l : List α}
    {hi last : ℕ} (hhi : hi ≤ last + 1) (hlast : last < l.length) (n : ℕ) :
    ∀ {q : ℕ} {s : σ}, Holds s (slice l (min q hi) hi) →
      Holds (((List.range' q n).filterMap (fun j => l[min j last]?)).foldl
        (fun s a => remove a s) s) (slice l (min (q + n) hi) hi) := by
  induction n with
  | zero =>
    intro q s hs
    simpa using hs
  | succ n ih =>
    intro q s hs
    have hq : min q last < l.length := by omega
    obtain ⟨a, ha⟩ : ∃ a, l[min q last]? = some a := ⟨_, getElem?_eq_getElem hq⟩
    have hstep : Holds (remove a s) (slice l (min (q + 1) hi) hi) := by
      refine h.remove_step hs fun hlt => ?_
      rwa [Nat.min_eq_left (by omega)] at ha
    have hrest := ih hstep
    rw [show q + 1 + n = q + (n + 1) by omega] at hrest
    rw [range'_succ, filterMap_cons_some (f := fun j => l[min j last]?) ha, foldl_cons]
    exact hrest

/-- One element in and one out, when nothing is counted before: the accumulator still counts
nothing exactly when the element that enters does not matter or the one that leaves does. -/
theorem idle_step {s : σ} {a b : α} (hs : count s = 0) :
    count (remove b (add a s)) = 0 ↔ (counts a = true → counts b = true) := by
  rw [h.count_remove, h.count_add, hs]
  cases counts a <;> cases counts b <;> decide

end Removable

end Removal

end SlidingSum
