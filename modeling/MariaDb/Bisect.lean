/-
**Searching a sorted sequence by halving.**

The standard library functions `std::lower_bound` and `std::binary_search` locate the point at
which a partitioned sequence changes from the elements below a bound to the others.  Both halve
the range that is left, so they only look at logarithmically many elements, and both are right
only when the sequence is partitioned.  This module gives the loop and proves that on a sorted
list it finds the partition point.

Main definitions:

* `partitionPoint`: the halving loop, on a predicate of positions;
* `lowerBound`, `binarySearch`: its two uses on a list.

Main results:

* `partitionPoint_eq`: the loop returns the partition point whenever there is one;
* `take_lowerBound`: on a sorted list the elements before the lower bound are exactly the ones below
  the bound;
* `binarySearch_iff`: on a sorted list the search decides membership.
-/

import Mathlib.Data.List.Basic
import Mathlib.Order.Basic
import Mathlib.Tactic

set_option autoImplicit false

namespace Bisect

open List

/-! ### The halving loop -/

/-- The loop of `std::lower_bound`: `first` is the start of the range that is left and `len` its
length.  The first argument is fuel; `len` of it is enough. -/
def partitionPoint (p : ℕ → Bool) : ℕ → ℕ → ℕ → ℕ
  | 0, first, _ => first
  | fuel + 1, first, len =>
    if len = 0 then first
    else
      let half := len / 2
      if p (first + half) then partitionPoint p fuel (first + half + 1) (len - half - 1)
      else partitionPoint p fuel first half

/-- **The loop finds the partition point**: if the positions of the range satisfying `p` are the
ones below `k`, the loop returns `k`. -/
theorem partitionPoint_eq {p : ℕ → Bool} {k : ℕ} :
    ∀ fuel first len, len ≤ fuel → first ≤ k → k ≤ first + len →
      (∀ i, first ≤ i → i < first + len → (p i = true ↔ i < k)) →
      partitionPoint p fuel first len = k := by
  intro fuel
  induction fuel with
  | zero =>
    intro first len hlen hk1 hk2 _
    simp only [partitionPoint]
    omega
  | succ fuel ih =>
    intro first len hlen hk1 hk2 hp
    simp only [partitionPoint]
    by_cases h0 : len = 0
    · rw [if_pos h0]; omega
    rw [if_neg h0]
    have hmid := hp (first + len / 2) (by omega) (by omega)
    by_cases hpm : p (first + len / 2) = true
    · -- the middle is below the partition point: continue to its right
      rw [if_pos hpm]
      have hlt := hmid.1 hpm
      refine ih _ _ (by omega) (by omega) (by omega) ?_
      intro i h1 h2
      exact hp i (by omega) (by omega)
    · rw [if_neg hpm]
      have hge : ¬ first + len / 2 < k := fun h => hpm (hmid.2 h)
      refine ih _ _ (by omega) hk1 (by omega) ?_
      intro i h1 h2
      exact hp i h1 (by omega)

/-! ### Sorted lists -/

variable {α : Type*} [LinearOrder α]

/-- `std::lower_bound` on a list: the position of the first element that is not below `v`, on a
list that is sorted. -/
def lowerBound (l : List α) (v : α) : ℕ :=
  partitionPoint (fun i => (l[i]?).any fun x => decide (x < v)) l.length 0 l.length

/-- `std::binary_search` on a list. -/
def binarySearch (l : List α) (v : α) : Bool :=
  (l[lowerBound l v]?).any fun x => !decide (v < x)

variable {l : List α} (hl : l.Pairwise (· ≤ ·))
include hl

/-- In a sorted list the elements below `v` come first. -/
theorem filter_append_filter (v : α) :
    (l.filter fun x => decide (x < v)) ++ l.filter (fun x => !decide (x < v)) = l := by
  refine (filter_append_perm _ l).eq_of_pairwise' (pairwise_append.2 ⟨hl.filter _, hl.filter _, ?_⟩)
    hl
  intro x hx y hy
  have hxv : x < v := by simpa using (mem_filter.1 hx).2
  have hyv : v ≤ y := by simpa using (mem_filter.1 hy).2
  exact hxv.le.trans hyv

theorem getElem_lt_iff (v : α) (i : ℕ) (h : i < l.length) :
    l[i] < v ↔ i < (l.filter fun x => decide (x < v)).length := by
  have hget := congrArg (·[i]?) (filter_append_filter hl v)
  rw [getElem?_eq_getElem h] at hget
  rcases lt_or_ge i (l.filter fun x => decide (x < v)).length with hi | hi
  · rw [getElem?_append_left hi] at hget
    exact iff_of_true (by simpa using (mem_filter.1 (mem_of_getElem? hget)).2) hi
  · rw [getElem?_append_right hi] at hget
    exact iff_of_false (by simpa using (mem_filter.1 (mem_of_getElem? hget)).2) hi.not_gt

/-- On a sorted list the lower bound is the number of elements below `v`. -/
theorem lowerBound_eq (v : α) : lowerBound l v = (l.filter fun x => decide (x < v)).length := by
  refine partitionPoint_eq _ _ _ le_rfl (Nat.zero_le _) ?_ ?_
  · rw [Nat.zero_add]; exact length_filter_le _ _
  intro i _ hi
  have hi' : i < l.length := by omega
  rw [getElem?_eq_getElem hi', ← getElem_lt_iff hl v i hi']
  simp

/-- **The elements before the lower bound** of a sorted list are the ones below `v`. -/
theorem take_lowerBound (v : α) : l.take (lowerBound l v) = l.filter fun x => decide (x < v) := by
  rw [lowerBound_eq hl]
  exact (congrArg (take _) (filter_append_filter hl v).symm).trans take_left

/-- **Binary search decides membership** in a sorted list. -/
theorem binarySearch_iff (v : α) : binarySearch l v = true ↔ v ∈ l := by
  have hlt := getElem_lt_iff hl v
  rw [← lowerBound_eq hl] at hlt
  constructor
  · intro h
    simp only [binarySearch, Option.any_eq_true] at h
    obtain ⟨x, hx, hvx⟩ := h
    obtain ⟨hi, rfl⟩ := List.getElem?_eq_some_iff.1 hx
    have hge : ¬ l[lowerBound l v] < v := fun hc => absurd ((hlt _ hi).1 hc) (lt_irrefl _)
    have heq : l[lowerBound l v] = v :=
      le_antisymm (not_lt.1 (by simpa using hvx)) (not_lt.1 hge)
    rw [← heq]
    exact getElem_mem _
  intro h
  obtain ⟨i, hi, rfl⟩ := getElem_of_mem h
  -- the lower bound is at or before `i`, and its element is not below the one at `i`
  have hle : lowerBound l l[i] ≤ i := by
    by_contra hc
    exact absurd ((hlt i hi).2 (by omega)) (lt_irrefl _)
  have hb : lowerBound l l[i] < l.length := by omega
  have hmono : l[lowerBound l l[i]] ≤ l[i] := by
    rcases Nat.lt_or_ge (lowerBound l l[i]) i with hlt' | hge
    · exact pairwise_iff_getElem.1 hl _ _ hb hi hlt'
    · have hidx : lowerBound l l[i] = i := by omega
      exact le_of_eq (by congr 1)
  simp only [binarySearch, Option.any_eq_true]
  exact ⟨_, getElem?_eq_getElem hb, by simpa using hmono⟩

end Bisect
