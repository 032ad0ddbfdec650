/-
**Digit strings, most significant digit first.**

A list of digits in some base denotes a number, its value.  For lists of equal length the
lexicographic order is the order of the values.  A number is stored in a fixed number of bytes, in
two's complement; the stored bytes compare like the numbers once the most significant bit is
inverted.

Main definitions:

* `val`: the value of a digit string;
* `memcmp`: lexicographic comparison;
* `store`, `readSigned`: numbers in a fixed number of bytes;
* `flipTop`: inversion of the most significant bit.

Main results:

* `memcmp_eq_sign`: **lexicographic comparison compares the values**;
* `readSigned_store`: numbers are read back.
-/

import Mathlib.Data.List.GetD
import Mathlib.Data.Nat.Digits.Defs
import Mathlib.Data.Int.Init
import Mathlib.Tactic

set_option autoImplicit false

namespace Radix

open List Int

/-! ### Values -/

/-- The value of a digit string in base `b`. -/
def val (b : ℕ) (ws : List ℕ) : ℕ := Nat.ofDigits b ws.reverse

variable {b : ℕ}

@[simp] theorem val_nil : val b [] = 0 := rfl

section

variable (w : ℕ) (n : ℕ) (ws : List ℕ)

@[simp] theorem val_singleton : val b [w] = w := Nat.ofDigits_singleton

theorem val_append (xs ys : List ℕ) : val b (xs ++ ys) = val b xs * b ^ ys.length + val b ys := by
  rw [val, reverse_append, Nat.ofDigits_append, length_reverse, val, val]
  ring

theorem val_cons : val b (w :: ws) = w * b ^ ws.length + val b ws := by
  rw [← singleton_append, val_append, val_singleton]

theorem val_concat (w : ℕ) : val b (ws ++ [w]) = val b ws * b + w := by
  rw [val_append, val_singleton, length_singleton, pow_one]

@[simp] theorem val_replicate_zero : val b (List.replicate n 0) = 0 := by
  rw [val, reverse_replicate, Nat.ofDigits_replicate_zero]

theorem val_zeros_append : val b (List.replicate n 0 ++ ws) = val b ws := by
  rw [val_append, val_replicate_zero, zero_mul, zero_add]

theorem val_append_zeros : val b (ws ++ List.replicate n 0) = val b ws * b ^ n := by
  rw [val_append, val_replicate_zero, add_zero, length_replicate]

end

/-- The value of a string of `n` digits is less than `b ^ n`. -/
theorem val_lt (hb : 1 < b) {ws : List ℕ} (hws : ∀ w ∈ ws, w < b) : val b ws < b ^ ws.length := by
  rw [val, ← length_reverse]
  exact Nat.ofDigits_lt_base_pow_length hb fun w hw => hws w (mem_reverse.mp hw)

variable {ws xs : List ℕ} {n : ℕ} {v : ℤ}

/-- The digits from the place `k` on are the rest modulo their weight. -/
theorem val_mod_pow (hb : 1 < b) (hws : ∀ w ∈ ws, w < b) (k : ℕ) :
    val b ws % b ^ (ws.length - k) = val b (ws.drop k) := by
  have hlt := val_lt hb fun w (hw : w ∈ ws.drop k) => hws w (mem_of_mem_drop hw)
  have hval := val_append (b := b) (ws.take k) (ws.drop k)
  rw [take_append_drop] at hval
  rw [hval, ← length_drop, Nat.mul_add_mod_self_right, Nat.mod_eq_of_lt hlt]

/-- The first `k` digits are the quotient by the weight of the other ones. -/
theorem val_div_pow (hb : 1 < b) (hws : ∀ w ∈ ws, w < b) (k : ℕ) :
    val b ws / b ^ (ws.length - k) = val b (ws.take k) := by
  have hlt := val_lt hb fun w (hw : w ∈ ws.drop k) => hws w (mem_of_mem_drop hw)
  have hval := val_append (b := b) (ws.take k) (ws.drop k)
  rw [take_append_drop] at hval
  rw [hval, ← length_drop, Nat.add_comm, Nat.add_mul_div_right _ _ (by positivity),
    Nat.div_eq_of_lt hlt, zero_add]

theorem val_eq_zero_iff (hb : 0 < b) : val b ws = 0 ↔ ∀ w ∈ ws, w = 0 := by
  induction ws with
  | nil => simp
  | cons w ws ih =>
    have hpow : b ^ ws.length ≠ 0 := by positivity
    rw [val_cons, Nat.add_eq_zero_iff, mul_eq_zero, or_iff_left hpow, ih, forall_mem_cons]

theorem le_val_cons {w : ℕ} (hw : w ≠ 0) (ws : List ℕ) : b ^ ws.length ≤ val b (w :: ws) := by
  rw [val_cons]
  have := Nat.le_mul_of_pos_left (b ^ ws.length) (Nat.pos_of_ne_zero hw)
  omega

theorem val_dropWhile_zero (ws : List ℕ) : val b (ws.dropWhile (· = 0)) = val b ws := by
  induction ws with
  | nil => rfl
  | cons w ws ih =>
    by_cases hw : w = 0
    · rw [dropWhile_cons_of_pos (by simp [hw]), ih, val_cons, hw, zero_mul, zero_add]
    · rw [dropWhile_cons_of_neg (by simp [hw])]

/-! ### Lexicographic comparison -/

/-- The comparison of two strings of equal length: -1, 0 or 1, by the first digit that differs. -/
def memcmp : List ℕ → List ℕ → ℤ
  | x :: xs, y :: ys => if x = y then memcmp xs ys else if x < y then -1 else 1
  | _, _ => 0

@[simp] theorem memcmp_nil (ys : List ℕ) : memcmp [] ys = 0 := rfl

theorem memcmp_cons (x y : ℕ) (xs ys : List ℕ) :
    memcmp (x :: xs) (y :: ys) = if x = y then memcmp xs ys else if x < y then -1 else 1 := rfl

/-- **Lexicographic comparison compares the values.** -/
theorem memcmp_eq_sign (hb : 1 < b) {ys : List ℕ} (hlen : xs.length = ys.length)
    (hxs : ∀ x ∈ xs, x < b) (hys : ∀ y ∈ ys, y < b) :
    memcmp xs ys = ((val b xs : ℤ) - val b ys).sign := by
  induction xs generalizing ys with
  | nil =>
    cases ys with
    | nil => simp
    | cons y ys => simp at hlen
  | cons x xs ih =>
    cases ys with
    | nil => simp at hlen
    | cons y ys =>
      rw [forall_mem_cons] at hxs hys
      have hlen' : xs.length = ys.length := by simpa using hlen
      have hx := val_lt hb hxs.2
      have hy := val_lt hb hys.2
      rw [hlen'] at hx
      rw [memcmp_cons, val_cons, val_cons, hlen']
      split
      next heq =>
        rw [ih hlen' hxs.2 hys.2, heq]
        congr 1
        omega
      next hne =>
        split
        next hlt =>
          -- the digits behind the first difference cannot make up for it
          have h := Nat.mul_le_mul_right (b ^ ys.length) hlt
          rw [Nat.succ_mul] at h
          exact (sign_eq_neg_one_of_neg (by omega)).symm
        next hge =>
          have h := Nat.mul_le_mul_right (b ^ ys.length) (Nat.lt_of_le_of_ne (Nat.not_lt.mp hge)
            (Ne.symm hne))
          rw [Nat.succ_mul] at h
          exact (sign_eq_one_of_pos (by omega)).symm

theorem memcmp_self (xs : List ℕ) : memcmp xs xs = 0 := by
  induction xs with
  | nil => rfl
  | cons x xs ih => rw [memcmp_cons, if_pos rfl, ih]

/-- Concatenations are compared by their first parts, and by their second parts if those agree. -/
theorem memcmp_append {ys : List ℕ} (hlen : xs.length = ys.length) (xs' ys' : List ℕ) :
    memcmp (xs ++ xs') (ys ++ ys') =
      if memcmp xs ys = 0 then memcmp xs' ys' else memcmp xs ys := by
  induction xs generalizing ys with
  | nil =>
    cases ys with
    | nil => simp
    | cons y ys => simp at hlen
  | cons x xs ih =>
    cases ys with
    | nil => simp at hlen
    | cons y ys =>
      have hlen' : xs.length = ys.length := by simpa using hlen
      rw [cons_append, cons_append, memcmp_cons, memcmp_cons]
      split
      next => exact ih hlen'
      next =>
        split
        next => rfl
        next => rfl

/-! ### Numbers in a fixed number of bytes -/

/-- The last `n` bytes of a number in two's complement. -/
def store : ℕ → ℤ → List ℕ
  | 0, _ => []
  | n + 1, v => store n (v / 256) ++ [(v % 256).toNat]

section

variable (n : ℕ) (v : ℤ)

@[simp] theorem length_store : (store n v).length = n := by
  induction n generalizing v with
  | zero => rfl
  | succ n ih => rw [store, length_append, ih, length_singleton]

theorem store_lt : ∀ x ∈ store n v, x < 256 := by
  induction n generalizing v with
  | zero => simp [store]
  | succ n ih =>
    intro x hx
    rw [store, mem_append, mem_singleton] at hx
    cases hx with
    | inl h => exact ih _ x h
    | inr h => omega

/-- The last byte and the bytes before it. -/
theorem emod_256_mul {m : ℤ} (hm : 0 < m) (v : ℤ) :
    v % (256 * m) = v / 256 % m * 256 + v % 256 := by
  have hlo := Int.emod_nonneg (v / 256) hm.ne'
  have hhi := Int.emod_lt_of_pos (v / 256) hm
  have hdiv := Int.mul_ediv_add_emod (v / 256) m
  refine ((Int.ediv_emod_unique (q := v / 256 / m) (by omega)).2 ⟨?_, by omega, by omega⟩).2
  rw [mul_assoc]
  omega

theorem val_store : (val 256 (store n v) : ℤ) = v % 256 ^ n := by
  induction n generalizing v with
  | zero => simp [store]
  | succ n ih =>
    have hmod : ((v % 256).toNat : ℤ) = v % 256 := toNat_of_nonneg (by omega)
    rw [store, val_concat]
    push_cast
    rw [ih, hmod, pow_succ', emod_256_mul (by positivity)]

theorem memcmp_store (u v : ℤ) :
    memcmp (store n u) (store n v) = (u % 256 ^ n - v % 256 ^ n).sign := by
  rw [memcmp_eq_sign (b := 256) (by norm_num) (by simp) (store_lt n u) (store_lt n v), val_store,
    val_store]

/-- The numbers 0 and -1. -/
theorem store_const {c : ℤ} (hc : c / 256 = c) : store n c = List.replicate n (c % 256).toNat := by
  induction n with
  | zero => rfl
  | succ n ih => rw [store, hc, ih, replicate_succ']

end

/-- Storing a number in `m` bytes more puts the bytes of 0 or of -1 in front, if it fits. -/
theorem store_extend (m : ℕ) {c : ℤ} (hc : c / 256 = c) (h : v / 256 ^ n = c) :
    store (m + n) v = List.replicate m (c % 256).toNat ++ store n v := by
  induction n generalizing v with
  | zero =>
    rw [pow_zero, Int.ediv_one] at h
    rw [h, Nat.add_zero, store_const _ hc, store, append_nil]
  | succ n ih =>
    rw [pow_succ', ← Int.ediv_ediv_of_nonneg (by norm_num)] at h
    rw [← Nat.add_assoc, store, store, ih h, append_assoc]

/-- The number in two's complement. -/
def readSigned (bs : List ℕ) : ℤ :=
  if 2 * val 256 bs < 256 ^ bs.length then val 256 bs else (val 256 bs : ℤ) - 256 ^ bs.length

theorem readSigned_store (hlo : -256 ^ n ≤ 2 * v) (hhi : 2 * v < 256 ^ n) :
    readSigned (store n v) = v := by
  have hval := val_store n v
  have hcast : ((256 ^ n : ℕ) : ℤ) = 256 ^ n := by push_cast; rfl
  rw [readSigned, length_store, hval]
  rcases lt_or_ge v 0 with hneg | hnn
  · have hmod : v % 256 ^ n = v + 256 ^ n := by
      rw [← add_emod_right, emod_eq_of_lt (by omega) (by omega)]
    omega
  · have hmod : v % 256 ^ n = v := emod_eq_of_lt hnn (by omega)
    rw [if_pos (by omega), hmod]

/-! ### The most significant bit -/

/-- Inversion of the most significant bit. -/
def flipTop : List ℕ → List ℕ
  | [] => []
  | x :: xs => (x ^^^ 0x80) :: xs

theorem length_flipTop (xs : List ℕ) : (flipTop xs).length = xs.length := by
  cases xs <;> rfl

theorem flipTop_flipTop (xs : List ℕ) : flipTop (flipTop xs) = xs := by
  cases xs with
  | nil => rfl
  | cons x xs => rw [flipTop, flipTop, Nat.xor_assoc, Nat.xor_self, Nat.xor_zero]

/-- In a byte, inverting the most significant bit adds 128 modulo 256. -/
theorem xor_0x80 {x : ℕ} (hx : x < 256) : x ^^^ 0x80 = (x + 128) % 256 := by
  have hall : ∀ y : Fin 256, y.val ^^^ 0x80 = (y.val + 128) % 256 := by decide +kernel
  exact hall ⟨x, hx⟩

theorem getD_store_zero (n : ℕ) (v : ℤ) :
    (store (n + 1) v).getD 0 0 = (v / 256 ^ n % 256).toNat := by
  induction n generalizing v with
  | zero => simp [store]
  | succ n ih =>
    have hlen := length_store (n + 1) (v / 256)
    rw [store, getD_append _ _ _ _ (by omega), ih, ediv_ediv_of_nonneg (by norm_num), pow_succ']

theorem and_0x80_eq_zero {x : ℕ} (hx : x < 256) : x &&& 0x80 = 0 ↔ x < 128 := by
  have hall : ∀ y : Fin 256, y.val &&& 0x80 = 0 ↔ y.val < 128 := by decide +kernel
  exact hall ⟨x, hx⟩

/-- After inversion, the most significant bit tells the numbers that are not negative. -/
theorem flipTop_store_bit (hlo : -(128 * 256 ^ n) ≤ v) (hhi : v < 128 * 256 ^ n) (ys : List ℕ) :
    (flipTop (store (n + 1) v ++ ys)).getD 0 0 &&& 0x80 = 0 ↔ v < 0 := by
  have hpos : (0 : ℤ) < 256 ^ n := by positivity
  have hq1 : -128 ≤ v / 256 ^ n := Int.le_ediv_of_mul_le hpos (by linarith)
  have hq2 : v / 256 ^ n < 128 := Int.ediv_lt_of_lt_mul hpos (by linarith)
  have hneg : v / 256 ^ n < 0 ↔ v < 0 := by
    rw [← not_le, ← not_le, ediv_nonneg_iff_of_pos hpos]
  have hhead := getD_store_zero n v
  cases hs : store (n + 1) v with
  | nil => exact absurd hs (ne_nil_of_length_pos (by rw [length_store]; omega))
  | cons x xs =>
    rw [hs, getD_cons_zero] at hhead
    rw [cons_append, flipTop, getD_cons_zero, xor_0x80 (by omega), and_0x80_eq_zero (by omega), ← hneg]
    omega

section

variable {ys : List ℕ} (hxs : ∀ x ∈ xs, x < 256) (hys : ∀ y ∈ ys, y < 256)
include hxs hys

/-- Where the inverted bits agree, the inversion does not change the comparison. -/
theorem memcmp_flipTop (h : (flipTop xs).getD 0 0 &&& 0x80 = 0 ↔
    (flipTop ys).getD 0 0 &&& 0x80 = 0) : memcmp (flipTop xs) (flipTop ys) = memcmp xs ys := by
  obtain _ | ⟨x, xs⟩ := xs
  · rfl
  obtain _ | ⟨y, ys⟩ := ys
  · rfl
  have hx := hxs x mem_cons_self
  have hy := hys y mem_cons_self
  simp only [flipTop, getD_cons_zero, xor_0x80 hx, xor_0x80 hy] at h ⊢
  rw [and_0x80_eq_zero (by omega), and_0x80_eq_zero (by omega)] at h
  simp only [memcmp_cons, show (x + 128) % 256 = (y + 128) % 256 ↔ x = y by omega,
    show (x + 128) % 256 < (y + 128) % 256 ↔ x < y by omega]

/-- Where they differ, they decide. -/
theorem memcmp_flipTop_of_bit (hlen : xs.length = ys.length)
    (hx0 : (flipTop xs).getD 0 0 &&& 0x80 = 0) (hy0 : ¬ (flipTop ys).getD 0 0 &&& 0x80 = 0) :
    memcmp (flipTop xs) (flipTop ys) = -1 ∧ memcmp (flipTop ys) (flipTop xs) = 1 := by
  obtain _ | ⟨y, ys⟩ := ys
  · exact absurd rfl hy0
  obtain _ | ⟨x, xs⟩ := xs
  · cases hlen
  have hx := hxs x mem_cons_self
  have hy := hys y mem_cons_self
  simp only [flipTop, getD_cons_zero, xor_0x80 hx, xor_0x80 hy] at hx0 hy0 ⊢
  rw [and_0x80_eq_zero (by omega)] at hx0 hy0
  rw [memcmp_cons, memcmp_cons, if_neg (by omega), if_pos (by omega), if_neg (by omega),
    if_neg (by omega)]
  exact ⟨rfl, rfl⟩

end

end Radix
