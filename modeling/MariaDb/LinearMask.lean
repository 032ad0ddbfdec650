/-
**The buckets of linear hashing.**

With `n` buckets, `2 ^ k ≤ n ≤ 2 ^ (k + 1)`, the bucket of a hash value is given by its lowest `k + 1`
bits, or by its lowest `k` bits if there is no such bucket yet.  One bucket more splits one of the
buckets, and moves nothing else.

Main definitions:

* `bucket`: the bucket of a hash value;
* `Fits`, `grow`, `shrink`: the length that goes with a number of buckets;
* `mask`: the bucket as a program computes it from the length.

Main results:

* `bucket_succ`: **one bucket more splits the bucket `n - 2 ^ k`**;
* `Fits.succ`, `Fits.pred`: the length with one bucket more or less;
* `mask_succ`, `mask_grow`: what one bucket more changes.
-/

import Mathlib.Data.Nat.Bitwise
import Mathlib.Tactic

set_option autoImplicit false

namespace LinearMask

open Nat

/-- The bucket of the hash value `x` among `n`, for the length `2 ^ (k + 1)`. -/
def bucket (x k n : ℕ) : ℕ :=
  if x % 2 ^ (k + 1) < n then x % 2 ^ (k + 1) else x % 2 ^ k

theorem half_pow (k : ℕ) : 2 ^ (k + 1) / 2 = 2 ^ k := by
  rw [pow_succ, Nat.mul_div_cancel _ (by norm_num)]

theorem mod_two_pow_succ (x k : ℕ) : x % 2 ^ (k + 1) = x % 2 ^ k + (x.testBit k).toNat * 2 ^ k := by
  rw [mod_pow_succ, testBit_eq_decide_div_mod_eq, mul_comm]
  rcases mod_two_eq_zero_or_one (x / 2 ^ k) with h | h <;> simp [h]

/-- The mask `2 ^ k - 1` in 64 bits, which covers all bits of a hash value if `2 ^ k` overflows. -/
theorem and_mask {x : ℕ} (hx : x < 2 ^ 64) (k : ℕ) :
    x &&& ((2 ^ k + (2 ^ 64 - 1)) % 2 ^ 64) = x % 2 ^ k := by
  rcases lt_or_ge k 64 with hk | hk
  · have hpow : 2 ^ k ≤ 2 ^ 63 := Nat.pow_le_pow_right (by norm_num) (by omega)
    have hpos : 0 < 2 ^ k := Nat.two_pow_pos k
    have hmask : (2 ^ k + (2 ^ 64 - 1)) % 2 ^ 64 = 2 ^ k - 1 := by omega
    rw [hmask, and_two_pow_sub_one_eq_mod]
  · have hpow : 2 ^ 64 ≤ 2 ^ k := Nat.pow_le_pow_right (by norm_num) hk
    have hmask : (2 ^ k + (2 ^ 64 - 1)) % 2 ^ 64 = 2 ^ 64 - 1 := by
      have hdvd : 2 ^ k % 2 ^ 64 = 0 := mod_eq_zero_of_dvd (pow_dvd_pow 2 hk)
      omega
    rw [hmask, and_two_pow_sub_one_eq_mod, mod_eq_of_lt (by omega), mod_eq_of_lt (by omega)]

theorem bucket_lt (x : ℕ) {k n : ℕ} (hn : 2 ^ k ≤ n) : bucket x k n < n := by
  rw [bucket]
  split
  case isTrue hlt => exact hlt
  case isFalse => exact (mod_lt _ (Nat.two_pow_pos k)).trans_le hn

/-- As many buckets as half of the length. -/
theorem bucket_half (x k : ℕ) : bucket x k (2 ^ k) = x % 2 ^ k := by
  rw [bucket]
  split
  case isTrue hlt =>
    rw [← mod_mod_of_dvd x (pow_dvd_pow 2 (le_succ k)), mod_eq_of_lt hlt]
  case isFalse => rfl

/-- **One bucket more splits the bucket `n - 2 ^ k`**: some of its values move to the new bucket
`n`, and all others stay where they are. -/
theorem bucket_succ (x : ℕ) {k n : ℕ} (hn : 2 ^ k ≤ n) :
    bucket x k n = if bucket x k (n + 1) = n then n - 2 ^ k else bucket x k (n + 1) := by
  have hmod := mod_two_pow_succ x k
  rw [bucket, bucket]
  cases hbit : x.testBit k <;>
    simp only [hbit, Bool.toNat_false, Bool.toNat_true, zero_mul, one_mul] at hmod <;>
    split_ifs <;> omega

/-- The values of the split bucket that move are those with the highest bit of the mask. -/
theorem and_half_eq_zero_iff (x : ℕ) {k n : ℕ} (hn : 2 ^ k ≤ n) (hlt : n < 2 ^ (k + 1))
    (hx : bucket x k n = n - 2 ^ k) : x &&& 2 ^ k = 0 ↔ bucket x k (n + 1) ≠ n := by
  have hmod := mod_two_pow_succ x k
  rw [and_two_pow]
  rw [bucket] at hx ⊢
  cases hbit : x.testBit k <;>
    simp only [hbit, Bool.toNat_false, Bool.toNat_true, zero_mul, one_mul] at hmod ⊢
  · rw [if_pos (by omega)]
    simp only [true_iff, ne_eq]
    omega
  have hge : ¬ x % 2 ^ (k + 1) < n := by
    intro hlt'
    rw [if_pos hlt'] at hx
    omega
  rw [if_neg hge] at hx
  rw [if_pos (by omega)]
  omega

/-- The length `b` goes with `n` buckets. -/
structure Fits (b n : ℕ) : Prop where
  pow : ∃ m, b = 2 ^ m
  half : b / 2 ≤ n
  lt : n < b

theorem Fits.zero : Fits 1 0 := ⟨⟨0, rfl⟩, le_rfl, one_pos⟩

/-- With some bucket the length is a power of two with a half. -/
theorem Fits.exists_pow {b n : ℕ} (h : Fits b n) (hn : n ≠ 0) :
    ∃ k, b = 2 ^ (k + 1) ∧ 2 ^ k ≤ n ∧ n < 2 ^ (k + 1) := by
  obtain ⟨m, rfl⟩ := h.pow
  have hhalf := h.half
  have hlt := h.lt
  cases m with
  | zero =>
    omega
  | succ k =>
    refine ⟨k, rfl, ?_, hlt⟩
    rwa [half_pow] at hhalf

theorem Fits.eq_one {b : ℕ} (h : Fits b 0) : b = 1 := by
  have h1 := h.half
  have h2 := h.lt
  omega

/-- The length for one bucket more. -/
def grow (b n : ℕ) : ℕ := if n + 1 = b then b + b else b

/-- The length for one bucket less, when `n` are left. -/
def shrink (b n : ℕ) : ℕ := if n < b / 2 then b / 2 else b

theorem Fits.succ {b n : ℕ} (h : Fits b n) : Fits (grow b n) (n + 1) := by
  have hlt := h.lt
  have hhalf := h.half
  obtain ⟨m, hm⟩ := h.pow
  rw [grow]
  split
  case isTrue heq => exact ⟨⟨m + 1, by rw [hm, pow_succ, mul_two]⟩, by omega, by omega⟩
  case isFalse hne => exact ⟨⟨m, hm⟩, by omega, by omega⟩

theorem Fits.pred {b n : ℕ} (h : Fits b (n + 1)) :
    Fits (shrink b n) n ∧ grow (shrink b n) n = b := by
  obtain ⟨k, rfl, hle, hlt⟩ := h.exists_pow (succ_ne_zero n)
  have hdouble : 2 ^ (k + 1) = 2 ^ k + 2 ^ k := by rw [pow_succ, mul_two]
  rw [shrink, half_pow]
  by_cases hn : n < 2 ^ k
  · have heq : n + 1 = 2 ^ k := by omega
    rw [if_pos hn, grow, if_pos heq]
    exact ⟨⟨⟨k, rfl⟩, by omega, hn⟩, hdouble.symm⟩
  · rw [if_neg hn, grow, if_neg (by omega)]
    exact ⟨⟨⟨k + 1, rfl⟩, by omega, by omega⟩, rfl⟩

/-! ### The mask -/

/-- The bucket of a hash value for a length and a number of buckets, with 64-bit masks. -/
def mask (x buffmax maxlength : ℕ) : ℕ :=
  if x &&& (buffmax - 1) < maxlength then x &&& (buffmax - 1)
  else x &&& ((buffmax / 2 + (2 ^ 64 - 1)) % 2 ^ 64)

section

variable {x : ℕ} (hx : x < 2 ^ 64)
include hx

theorem mask_eq (k n : ℕ) : mask x (2 ^ (k + 1)) n = bucket x k n := by
  rw [mask, half_pow, and_mask hx, and_two_pow_sub_one_eq_mod, bucket]

variable {b n : ℕ} (h : Fits b n)
include h

theorem mask_lt (hn : n ≠ 0) : mask x b n < n := by
  obtain ⟨k, rfl, hle, -⟩ := h.exists_pow hn
  rw [mask_eq hx]
  exact bucket_lt x hle

theorem mask_lt_succ : mask x b (n + 1) < n + 1 := by
  by_cases hn : n = 0
  · subst hn
    obtain rfl := h.eq_one
    simp [mask]
  · obtain ⟨k, rfl, hle, -⟩ := h.exists_pow hn
    rw [mask_eq hx]
    exact bucket_lt x (hle.trans (le_succ n))

/-- With one bucket more the length may double: this does not change the buckets. -/
theorem mask_grow : mask x (grow b n) (n + 1) = mask x b (n + 1) := by
  rw [grow]
  split
  case isFalse => rfl
  case isTrue heq =>
    obtain ⟨m, rfl⟩ := h.pow
    rw [heq, ← mul_two, ← pow_succ, mask_eq hx, bucket_half, mask, and_two_pow_sub_one_eq_mod,
      if_pos (mod_lt _ (Nat.two_pow_pos m))]

/-- **One bucket more splits a bucket.** -/
theorem mask_succ (hn : n ≠ 0) :
    mask x b n = if mask x b (n + 1) = n then n - b / 2 else mask x b (n + 1) := by
  obtain ⟨k, rfl, hle, -⟩ := h.exists_pow hn
  rw [mask_eq hx, mask_eq hx, half_pow]
  exact bucket_succ x hle

/-- The values that stay in the bucket. -/
theorem mask_stays (hn : n ≠ 0) (hmask : mask x b n = n - b / 2) :
    x &&& (b / 2) = 0 ↔ mask x b (n + 1) ≠ n := by
  obtain ⟨k, rfl, hle, hlt⟩ := h.exists_pow hn
  rw [mask_eq hx, half_pow] at *
  exact and_half_eq_zero_iff x hle hlt hmask

end

/-- The bucket that is split. -/
theorem Fits.first_lt {b n : ℕ} (h : Fits b n) (hn : n ≠ 0) : n - b / 2 < n := by
  obtain ⟨k, rfl, hle, -⟩ := h.exists_pow hn
  have hpos : 0 < 2 ^ k := Nat.two_pow_pos k
  omega

end LinearMask
