/-
**Numbers as text.**

`longlong10_to_str` (strings/longlong2str.c) and `int10_to_str` (strings/int2str.c) print a number in
decimal; `my_strtoll10` (strings/my_strtoll10.c) reads one, in up to three parts of 9, 9 and 2
digits, so that only the last part has to look for an overflow.  The printing functions are modelled
for the radix 10, for which the number is unsigned.

A text is a list of bytes.  A pointer into a text with the pointer `end` behind it is the list of the
bytes between the two.

Main definitions:

* `longlong10ToStr`, `int10ToStr`: the printing functions;
* `myStrtoll10`: the reading function;
* `splitSign`, `splitDigits`: the sign and the digits of a text.

Main results:

* `myStrtoll10_decimal`: **what was printed is read back**, for every number of 64 bits.
-/

import MariaDb.Radix

set_option autoImplicit false

namespace NumberText

open Radix List Nat

/-- The bytes from a pointer up to the end. -/
abbrev Text := List UInt8

/-! ### Digits -/

/-- `'0' + d` -/
def digitChar (d : ℕ) : UInt8 := 48 + UInt8.ofNat d

/-- `(c= (*s-'0')) > 9` in the type `uchar`: the digit, unless the byte is none. -/
def digit (c : UInt8) : Option ℕ := if 9 < c - 48 then none else some (c - 48).toNat

theorem digit_digitChar : ∀ d < 10, digit (digitChar d) = some d := by decide

theorem digitChar_of_digit {c : UInt8} {d : ℕ} (h : digit c = some d) : digitChar d = c ∧ d < 10 := by
  unfold digit at h
  split at h
  · simp at h
  case isFalse hc =>
    obtain rfl := Option.some.inj h
    refine ⟨?_, Nat.lt_succ_of_le (UInt8.le_iff_toNat_le.1 (UInt8.not_lt.1 hc))⟩
    rw [digitChar, UInt8.ofNat_toNat, UInt8.add_comm, UInt8.sub_add_cancel]

theorem digitChar_eq_zero : ∀ d < 10, digitChar d = 48 ↔ d = 0 := by decide

def text (ds : List ℕ) : Text := ds.map digitChar

@[simp] theorem text_nil : text [] = [] := rfl

@[simp] theorem text_cons (d : ℕ) (ds : List ℕ) : text (d :: ds) = digitChar d :: text ds := rfl

@[simp] theorem text_append (ds es : List ℕ) : text (ds ++ es) = text ds ++ text es :=
  map_append

@[simp] theorem length_text (ds : List ℕ) : (text ds).length = ds.length := length_map _

variable (n : ℕ) (p : Text) (nptr : Text)

/-- The decimal digits of a number, the highest first. -/
def decimal (n : ℕ) : List ℕ := if n = 0 then [0] else (digits 10 n).reverse

theorem decimal_lt {n d : ℕ} (hd : d ∈ decimal n) : d < 10 := by
  unfold decimal at hd
  split at hd
  case isTrue => simp at hd; omega
  case isFalse => exact digits_lt_base (by norm_num) (mem_reverse.1 hd)

theorem val_decimal : val 10 (decimal n) = n := by
  unfold decimal
  split
  case isTrue h => rw [h, val_singleton]
  case isFalse => rw [val, reverse_reverse, ofDigits_digits]

theorem decimal_ne_nil : decimal n ≠ [] := by
  unfold decimal
  split
  case isTrue => simp
  case isFalse h0 => exact reverse_ne_nil_iff.2 (digits_ne_nil_iff_ne_zero.2 h0)

theorem length_decimal_le {n k : ℕ} (hk : 0 < k) (hn : n < 10 ^ k) : (decimal n).length ≤ k := by
  unfold decimal
  split
  case isTrue => exact hk
  case isFalse h0 =>
    rw [length_reverse]
    exact (digits_length_le_iff (by norm_num) n).2 hn

/-! ### Printing -/

/-- The loop that divides signed numbers: the digits of `val` are put before `p`. -/
def signedLoop (val : ℕ) (p : Text) : Text :=
  if val = 0 then p else signedLoop (val / 10) (digitChar (val - val / 10 * 10) :: p)

/-- The loop of `longlong10_to_str` for numbers above `LONG_MAX`. -/
def unsignedLoop (uval : ℕ) (p : Text) : ℕ × Text :=
  if 2 ^ 63 - 1 < uval then unsignedLoop (uval / 10) (digitChar (uval - uval / 10 * 10) :: p)
  else (uval, p)

/-- `longlong10_to_str` with the radix 10 -/
def longlong10ToStr (val : UInt64) : Text :=
  if val.toNat = 0 then [digitChar 0]
  else
    let (longVal, p) := unsignedLoop val.toNat []
    signedLoop longVal p

/-- `int10_to_str` with the radix 10, of a number of the type `uint` -/
def int10ToStr (val : UInt32) : Text :=
  signedLoop (val.toNat / 10) [digitChar (val.toNat - val.toNat / 10 * 10)]

theorem signedLoop_eq : signedLoop n p = text (digits 10 n).reverse ++ p := by
  induction n using Nat.strong_induction_on generalizing p with
  | _ n ih =>
    rw [signedLoop]
    split
    case isTrue h0 => simp [h0]
    case isFalse h0 =>
      have hrem : n - n / 10 * 10 = n % 10 := by omega
      rw [ih (n / 10) (by omega), hrem,
        digits_def' (by norm_num : 1 < 10) (pos_of_ne_zero h0), reverse_cons,
        text_append, append_assoc]
      rfl

/-- It makes no difference which of the two loops takes a digit. -/
theorem signedLoop_unsignedLoop :
    signedLoop (unsignedLoop n p).1 (unsignedLoop n p).2 = signedLoop n p := by
  induction n using Nat.strong_induction_on generalizing p with
  | _ n ih =>
    rw [unsignedLoop]
    split
    case isTrue hbig =>
      rw [ih (n / 10) (by omega), signedLoop.eq_def n, if_neg (by omega)]
    case isFalse => rfl

/-- **`longlong10_to_str` prints the decimal digits.** -/
theorem longlong10ToStr_eq (val : UInt64) : longlong10ToStr val = text (decimal val.toNat) := by
  unfold longlong10ToStr decimal
  split
  case isTrue => rfl
  case isFalse =>
    show signedLoop (unsignedLoop val.toNat []).1 (unsignedLoop val.toNat []).2 = _
    rw [signedLoop_unsignedLoop, signedLoop_eq, append_nil]

/-- **`int10_to_str` prints the decimal digits.** -/
theorem int10ToStr_eq (val : UInt32) : int10ToStr val = text (decimal val.toNat) := by
  unfold int10ToStr decimal
  have hrem : val.toNat - val.toNat / 10 * 10 = val.toNat % 10 := by omega
  rw [signedLoop_eq, hrem]
  split
  case isTrue h0 => simp [h0]
  case isFalse h0 =>
    rw [digits_def' (by norm_num : 1 < 10) (pos_of_ne_zero h0), reverse_cons, text_append]
    rfl

/-! ### Reading -/

/-- What `my_strtoll10` stores in `error`. -/
inductive StrtollError where
  /-- 0 -/
  | ok
  /-- -1: a negative number -/
  | negative
  /-- `MY_ERRNO_ERANGE` -/
  | range
  /-- `MY_ERRNO_EDOM` -/
  | domain
  deriving DecidableEq, Repr

/-- What `my_strtoll10` returns: the bits of the number, the text behind it and the error. -/
structure Strtoll where
  value : UInt64
  endptr : Text
  error : StrtollError
  deriving DecidableEq, Repr

/-- `my_isspace` in latin1 -/
def isSpace (c : UInt8) : Bool := (9 ≤ c && c ≤ 13) || c == 32 || c == 160

/-- A loop that reads up to `n` digits into `v`.  Returns the number, the text that is left and how
many digits were missing. -/
def scan : ℕ → ℕ → Text → ℕ × Text × ℕ
  | 0, v, s => (v, s, 0)
  | n + 1, v, [] => (v, [], n + 1)
  | n + 1, v, c :: s =>
    match digit c with
    | none => (v, c :: s, n + 1)
    | some d => scan n (v * 10 + d) s

def noConv : Strtoll := ⟨0, nptr, .domain⟩

section

variable (negative : Bool)

def overflow (s : Text) : Strtoll :=
  ⟨if negative then UInt64.ofNat (2 ^ 63) else UInt64.ofNat (2 ^ 64 - 1), s, .range⟩

/-- The labels `end_i`, `end_i_and_j` and `end3`: a number that cannot overflow. -/
def ending (li : ℕ) (s : Text) : Strtoll :=
  if negative then ⟨0 - UInt64.ofNat li, s, .negative⟩ else ⟨UInt64.ofNat li, s, .ok⟩

def end4 (i j k : ℕ) (s : Text) : Strtoll :=
  let li := i * 10000000000 + j * 10 + k
  if negative && 2 ^ 63 < li then overflow negative s else ending negative li s

/-- `MAX_NEGATIVE_NUMBER` or `ULONGLONG_MAX` -/
def limit : ℕ := if negative then 2 ^ 63 else 2 ^ 64 - 1

/-- `i > cutoff || (i == cutoff && (j > cutoff2 || (j == cutoff2 && k > cutoff3)))` -/
def exceeds (i j k : ℕ) : Bool :=
  let cutoff := limit negative / 100000000000
  let cutoff2 := limit negative % 100000000000 / 100
  let cutoff3 := limit negative % 100
  decide (cutoff < i) || (i == cutoff &&
    (decide (cutoff2 < j) || (j == cutoff2 && decide (cutoff3 < k))))

/-- The last one or two digits, of which `k` is the first. -/
def lastDigits (i j k : ℕ) (s : Text) : Strtoll :=
  match s with
  | [] => end4 negative i j k []
  | c :: s' =>
    match digit c with
    | none => end4 negative i j k (c :: s')
    | some c =>
      let k := k * 10 + c
      -- the number should have ended here
      if (s'.head?.bind digit).isSome then overflow negative s'
      else if exceeds negative i j k then overflow negative s'
      else
        ⟨UInt64.ofNat (i * 100000000000 + j * 100 + k), s',
          if negative then .negative else .ok⟩

/-- What follows the loop that reads the second 9 digits. -/
def nextDigits (i : ℕ) : ℕ × Text × ℕ → Strtoll
  | (j, s, left) =>
    if left ≠ 0 then ending negative (i * 10 ^ (9 - left) + j) s
    else
      match s with
      | [] => ending negative (i * 1000000000 + j) []
      | c :: s' =>
        match digit c with
        | none => ending negative (i * 1000000000 + j) (c :: s')
        | some k => lastDigits negative i j k s'

/-- What follows the loop that reads the first 9 digits. -/
def firstDigits : ℕ × Text × ℕ → Strtoll
  | (i, s, left) =>
    if left ≠ 0 ∨ s = [] then ending negative i s
    else nextDigits negative i (scan 9 0 s)

end

def unsignedPart (negative : Bool) : Text → Strtoll
  | [] => noConv nptr
  | c :: s =>
    if c = 48 then
      match s.dropWhile (· = 48) with
      | [] => ending negative 0 []
      | c :: s => firstDigits negative (scan 9 0 (c :: s))
    else
      match digit c with
      | none => noConv nptr
      | some d => firstDigits negative (scan 8 d s)

/-- `my_strtoll10` with an end pointer -/
def myStrtoll10 : Strtoll :=
  match nptr.dropWhile isSpace with
  | [] => noConv nptr
  | c :: s =>
    if c = 45 then unsignedPart nptr true s
    else if c = 43 then unsignedPart nptr false s
    else unsignedPart nptr false (c :: s)

/-! ### What was printed is read back -/

/-- The text does not start with a digit. -/
def NoDigit (s : Text) : Prop := s.head?.bind digit = none

theorem noDigit_nil : NoDigit [] := rfl

theorem noDigit_cons {c : UInt8} (hc : digit c = none) (s : Text) : NoDigit (c :: s) := hc

theorem NoDigit.head {c : UInt8} {s : Text} (hs : NoDigit (c :: s)) : digit c = none := hs

/-- A loop reads all digits, or as many as it may. -/
theorem scan_text {ds : List ℕ} (hds : ∀ d ∈ ds, d < 10) (n v : ℕ) {rest : Text}
    (hrest : NoDigit rest) :
    scan n v (text ds ++ rest) = (v * 10 ^ (ds.take n).length + val 10 (ds.take n),
      text (ds.drop n) ++ rest, n - ds.length) := by
  induction ds generalizing n v with
  | nil =>
    cases n with
    | zero => simp [scan]
    | succ n =>
      cases rest with
      | nil => simp [scan]
      | cons c rest => simp [scan, hrest.head]
  | cons d ds ih =>
    obtain _ | n := n
    · simp [scan]
    have hd := digit_digitChar d (hds d (by simp))
    rw [text_cons, cons_append, scan, hd]
    show scan n (v * 10 + d) (text ds ++ rest) = _
    rw [ih (fun x hx => hds x (mem_cons_of_mem d hx)), take_succ_cons, drop_succ_cons, val_cons,
      length_cons, length_cons, Nat.add_sub_add_right, pow_succ]
    congr 1
    ring

/-- The check of the three parts compares the number with the limit. -/
theorem exceeds_iff (negative : Bool) (i : ℕ) {j k : ℕ} (hj : j < 10 ^ 9) (hk : k < 100) :
    exceeds negative i j k = true ↔ limit negative < i * 100000000000 + j * 100 + k := by
  cases negative <;> simp only [exceeds, limit, Bool.or_eq_true, Bool.and_eq_true, decide_eq_true_eq,
    beq_iff_eq, Bool.false_eq_true, ↓reduceIte] <;> omega

section Parts

variable {negative : Bool} {rest : Text} {i j : ℕ} {ds : List ℕ}

/-- What `my_strtoll10` returns for the number `n`, when `ds` are the digits behind the first 20. -/
def outcome (negative : Bool) (n : ℕ) (ds : List ℕ) (rest : Text) : Strtoll :=
  if n ≤ limit negative then ending negative n rest else overflow negative (text ds ++ rest)

theorem outcome_small {n : ℕ} (hn : n < 10 ^ 18) :
    outcome negative n ds rest = ending negative n rest :=
  if_pos (by cases negative <;> simp [limit] <;> omega)

variable (hrest : NoDigit rest) (hds : ∀ d ∈ ds, d < 10) (hi : 10 ^ 8 ≤ i) (hi9 : i < 10 ^ 9)

include hrest hds hi hi9

/-- The part of the number behind the first 18 digits. -/
theorem nextDigits_text (hj : j < 10 ^ 9) : nextDigits negative i (j, text ds ++ rest, 0) =
    outcome negative ((i * 10 ^ 9 + j) * 10 ^ ds.length + val 10 ds) (ds.drop 2) rest := by
  match ds with
  | [] =>
    rw [outcome_small (by simp; omega)]
    cases rest with
    | nil => simp [nextDigits]
    | cons c rest => simp [nextDigits, hrest.head]
  | [k] =>
    have hk := digit_digitChar k (hds k (by simp))
    have hklt : k < 10 := hds k (by simp)
    have hval : (i * 10 ^ 9 + j) * 10 ^ [k].length + val 10 [k] = i * 10000000000 + j * 10 + k := by
      rw [val_singleton, length_singleton]
      ring
    have hlast : lastDigits negative i j k rest = end4 negative i j k rest := by
      cases rest with
      | nil => rfl
      | cons c rest => simp [lastDigits, hrest.head]
    rw [hval]
    simp only [nextDigits, text_cons, cons_append, hk, text_nil, nil_append]
    rw [hlast]
    cases negative <;> simp [end4, outcome, limit] <;> grind
  | k :: l :: ds =>
    have hk := digit_digitChar k (hds k (by simp))
    have hl := digit_digitChar l (hds l (by simp))
    have hklt : k < 10 := hds k (by simp)
    have hllt : l < 10 := hds l (by simp)
    have hval : (i * 10 ^ 9 + j) * 10 ^ (k :: l :: ds).length + val 10 (k :: l :: ds)
        = (i * 100000000000 + j * 100 + (k * 10 + l)) * 10 ^ ds.length + val 10 ds := by
      simp only [val_cons, length_cons]
      ring
    have hrun : nextDigits negative i (j, text (k :: l :: ds) ++ rest, 0) =
        lastDigits negative i j k (digitChar l :: (text ds ++ rest)) := by
      simp [nextDigits, hk]
    rw [hval, hrun, lastDigits]
    simp only [hl]
    cases ds with
    | nil =>
      have hexc := exceeds_iff negative i hj (show k * 10 + l < 100 by omega)
      have hno : rest.head?.bind digit = none := hrest
      simp only [text_nil, nil_append, hno, Option.isSome_none, hexc, outcome, length_nil, pow_zero,
        mul_one, val_nil, add_zero, drop_nil, drop_succ_cons, Bool.false_eq_true, ↓reduceIte]
      by_cases hn : i * 100000000000 + j * 100 + (k * 10 + l) ≤ limit negative
      · rw [if_neg (by omega), if_pos hn]
        cases negative with
        | false => rfl
        | true => simp [limit] at hn; omega
      · rw [if_pos (by omega), if_neg hn]
    | cons m ds =>
      -- a number with more than 20 digits
      have hm := digit_digitChar m (hds m (by simp))
      have hlim : limit negative < 10 ^ 20 := by cases negative <;> simp [limit]
      have hbig : 10 ^ 19 * 10 ≤
          (i * 100000000000 + j * 100 + (k * 10 + l)) * 10 ^ (m :: ds).length :=
        Nat.mul_le_mul (by omega) (Nat.le_self_pow (by simp) 10)
      rw [if_pos (by simp [hm]), outcome, if_neg (by omega)]
      rfl

/-- The part of the number behind the first 9 digits. -/
theorem firstDigits_text : firstDigits negative (i, text ds ++ rest, 0) =
    outcome negative (i * 10 ^ ds.length + val 10 ds) (ds.drop 11) rest := by
  have hlt := val_lt (by norm_num) (fun d hd => hds d (mem_of_mem_take (i := 9) hd))
  have hnext (s : Text) : firstDigits negative (i, s, 0) = nextDigits negative i (scan 9 0 s) := by
    cases s <;> simp [firstDigits, nextDigits, scan]
  rw [hnext, scan_text hds 9 0 hrest, zero_mul, zero_add]
  rcases lt_or_ge ds.length 9 with hshort | hlong
  · -- the number ends within the second 9 digits
    have hpow := Nat.pow_le_pow_right (n := 10) (by norm_num) (Nat.le_of_lt_succ hshort)
    rw [take_of_length_le hshort.le] at hlt ⊢
    rw [drop_of_length_le hshort.le, nextDigits.eq_def, outcome_small (by nlinarith)]
    simp only
    rw [if_pos (by omega), show 9 - (9 - ds.length) = ds.length by omega, text_nil, nil_append]
  rw [length_take, min_eq_left hlong] at hlt
  have hval : i * 10 ^ ds.length + val 10 ds
      = (i * 10 ^ 9 + val 10 (ds.take 9)) * 10 ^ (ds.drop 9).length + val 10 (ds.drop 9) := by
    conv_lhs => rw [← take_append_drop 9 ds, val_append, length_append, pow_add, length_take,
      min_eq_left hlong]
    ring
  rw [hval, Nat.sub_eq_zero_of_le hlong, nextDigits_text hrest
    (fun d hd => hds d (mem_of_mem_drop hd)) hi hi9 hlt, drop_drop]

end Parts

/-- What is read after the zeros in front of a number. -/
theorem firstDigits_scan (negative : Bool) {rest : Text} {ds : List ℕ} (hrest : NoDigit rest)
    (hds : ∀ d ∈ ds, d < 10) (h0 : ds.head? ≠ some 0) :
    firstDigits negative (scan 9 0 (text ds ++ rest)) =
      outcome negative (val 10 ds) (ds.drop 20) rest := by
  have hlt := val_lt (by norm_num) (fun d hd => hds d (mem_of_mem_take (i := 9) hd))
  rw [scan_text hds 9 0 hrest, zero_mul, zero_add]
  rcases lt_or_ge ds.length 9 with hshort | hlong
  · have hpow := Nat.pow_lt_pow_right (a := 10) (by norm_num) (hshort.trans (by norm_num : 9 < 18))
    rw [take_of_length_le hshort.le] at hlt ⊢
    rw [drop_of_length_le hshort.le, firstDigits, if_pos (by omega), outcome_small (hlt.trans hpow),
      text_nil, nil_append]
  have hle : 10 ^ 8 ≤ val 10 (ds.take 9) := by
    obtain _ | ⟨d, ds⟩ := ds
    · simp at hlong
    have hle := le_val_cons (b := 10) (w := d) (by simpa using h0) (ds.take 8)
    rwa [length_take, min_eq_left (by simpa using hlong)] at hle
  have hval := val_append (b := 10) (ds.take 9) (ds.drop 9)
  rw [take_append_drop] at hval
  rw [length_take, min_eq_left hlong] at hlt
  rw [hval, Nat.sub_eq_zero_of_le hlong, firstDigits_text hrest
    (fun d hd => hds d (mem_of_mem_drop hd)) hle hlt, drop_drop]

theorem dropWhile_text {ds : List ℕ} {rest : Text} (hds : ∀ d ∈ ds, d < 10) (hrest : NoDigit rest) :
    (text ds ++ rest).dropWhile (· = 48) = text (ds.dropWhile (· = 0)) ++ rest := by
  induction ds with
  | nil =>
    cases rest with
    | nil => rfl
    | cons c rest =>
      refine dropWhile_cons_of_neg fun hc => ?_
      rw [decide_eq_true_eq] at hc
      exact absurd (hc ▸ hrest.head) (by decide)
  | cons d ds ih =>
    have hd := digitChar_eq_zero d (hds d (by simp))
    simp only [text_cons, cons_append, dropWhile_cons, decide_eq_true_eq, hd]
    split
    · exact ih fun x hx => hds x (mem_cons_of_mem d hx)
    · rfl

theorem unsignedPart_text {negative : Bool} {nptr rest : Text} {ds : List ℕ}
    (hds : ∀ d ∈ ds, d < 10) (hne : ds ≠ []) (hrest : NoDigit rest) :
    unsignedPart nptr negative (text ds ++ rest) =
      outcome negative (val 10 ds) ((ds.dropWhile (· = 0)).drop 20) rest := by
  obtain ⟨d, ds, rfl⟩ := exists_cons_of_ne_nil hne
  have hd : d < 10 := hds d (by simp)
  have hchar := digitChar_eq_zero d hd
  by_cases h0 : d = 0
  · subst h0
    have hds' : ∀ x ∈ ds, x < 10 := fun x hx => hds x (mem_cons_of_mem 0 hx)
    have hhead : (ds.dropWhile (· = 0)).head? ≠ some 0 := by
      intro h
      have hnot := head?_dropWhile_not (· = 0) ds
      simp [h] at hnot
    have hscan := firstDigits_scan negative hrest
      (fun x hx => hds' x ((dropWhile_sublist _).mem hx)) hhead
    rw [val_dropWhile_zero, ← dropWhile_text hds' hrest] at hscan
    have hval : val 10 (0 :: ds) = val 10 ds := by simp [val_cons]
    rw [text_cons, cons_append, unsignedPart, if_pos (hchar.2 rfl), hval,
      dropWhile_cons_of_pos (by simp), ← hscan]
    cases (text ds ++ rest).dropWhile (· = 48) <;> rfl
  · rw [text_cons, cons_append, unsignedPart, if_neg (mt hchar.1 h0), digit_digitChar d hd]
    have hscan : scan 8 d (text ds ++ rest) = scan 9 0 (text (d :: ds) ++ rest) := by
      simp [scan, digit_digitChar d hd]
    show firstDigits negative (scan 8 d (text ds ++ rest)) = _
    rw [hscan, firstDigits_scan negative hrest hds (by simpa using h0),
      dropWhile_cons_of_neg (by simpa using h0)]

/-- Whether a text starts with a minus sign, and the text behind one sign. -/
def splitSign : Text → Bool × Text
  | [] => (false, [])
  | c :: s => (c = 45, if c = 45 ∨ c = 43 then s else c :: s)

theorem myStrtoll10_eq : myStrtoll10 nptr = unsignedPart nptr
    (splitSign (nptr.dropWhile isSpace)).1 (splitSign (nptr.dropWhile isSpace)).2 := by
  unfold myStrtoll10
  cases nptr.dropWhile isSpace with
  | nil => rfl
  | cons c s => simp only [splitSign]; split_ifs <;> simp_all

/-- **`my_strtoll10` reads what was printed**, and stops behind it. -/
theorem myStrtoll10_decimal (v : UInt64) {rest : Text} (hrest : NoDigit rest) :
    myStrtoll10 (text (decimal v.toNat) ++ rest) = ⟨v, rest, .ok⟩ := by
  have hdigits : ∀ d ∈ decimal v.toNat, d < 10 := fun d hd => decimal_lt hd
  obtain ⟨d, ds, hcons⟩ := exists_cons_of_ne_nil (decimal_ne_nil v.toNat)
  have hfirst : ∀ x < 10, isSpace (digitChar x) = false ∧ digitChar x ≠ 45 ∧ digitChar x ≠ 43 := by
    decide
  obtain ⟨hspace, hminus, hplus⟩ := hfirst d (hdigits d (by simp [hcons]))
  have hsign : splitSign ((text (decimal v.toNat) ++ rest).dropWhile isSpace) =
      (false, text (decimal v.toNat) ++ rest) := by
    simp [hcons, hspace, splitSign, hminus, hplus]
  have hle : v.toNat ≤ limit false := Nat.le_sub_one_of_lt v.toNat_lt
  rw [myStrtoll10_eq, hsign, unsignedPart_text hdigits (decimal_ne_nil _) hrest, val_decimal]
  simp [outcome, hle, ending]

/-- **What was printed is read back**, and what follows it is left. -/
theorem myStrtoll10_longlong10ToStr (v : UInt64) {rest : Text} (hrest : NoDigit rest) :
    myStrtoll10 (longlong10ToStr v ++ rest) = ⟨v, rest, .ok⟩ := by
  rw [longlong10ToStr_eq, myStrtoll10_decimal v hrest]

/-- The largest number, with a comma behind it. -/
theorem myStrtoll10_longlong10ToStr_max :
    longlong10ToStr 18446744073709551615 = text [1,8,4,4,6,7,4,4,0,7,3,7,0,9,5,5,1,6,1,5] ∧
      myStrtoll10 (longlong10ToStr 18446744073709551615 ++ [44])
        = ⟨18446744073709551615, [44], .ok⟩ := by
  refine ⟨?_, myStrtoll10_longlong10ToStr 18446744073709551615 (noDigit_cons rfl [])⟩
  rw [longlong10ToStr_eq, show (18446744073709551615 : UInt64).toNat = 2 ^ 64 - 1 from rfl]
  norm_num [decimal]

/-! ### What is read from any text -/

/-- The digits a text starts with, and the text behind them. -/
def splitDigits : Text → List ℕ × Text
  | [] => ([], [])
  | c :: s =>
    match digit c with
    | none => ([], c :: s)
    | some d => (d :: (splitDigits s).1, (splitDigits s).2)

theorem splitDigits_spec (s : Text) : text (splitDigits s).1 ++ (splitDigits s).2 = s ∧
    (∀ d ∈ (splitDigits s).1, d < 10) ∧ NoDigit (splitDigits s).2 := by
  induction s with
  | nil => simp [splitDigits, noDigit_nil]
  | cons c s ih =>
    cases hc : digit c with
    | none => simp [splitDigits, hc, noDigit_cons]
    | some d =>
      obtain ⟨hchar, hlt⟩ := digitChar_of_digit hc
      simpa [splitDigits, hc, hchar, hlt, ih] using ih.2.1

theorem ofInt_natCast (n : ℕ) : UInt64.ofInt n = UInt64.ofNat n := by
  simp [UInt64.ofInt, ← UInt64.toNat_inj]
  omega

theorem outcome_endptr (negative : Bool) (n : ℕ) {ds ds' : List ℕ} (h : ds' <:+ ds) (rest : Text) :
    (outcome negative n ds' rest).endptr <:+ text ds ++ rest := by
  obtain ⟨es, rfl⟩ := h
  unfold outcome
  split
  · cases negative <;> exact suffix_append _ _
  · exact ⟨text es, by simp [overflow]⟩

theorem splitSign_suffix (s : Text) : (splitSign s).2 <:+ s := by
  cases s with
  | nil => exact suffix_rfl
  | cons c s =>
    simp only [splitSign]
    split
    · exact suffix_cons c s
    · exact suffix_rfl

theorem unsignedPart_noDigit {s : Text} (hs : NoDigit s) (negative : Bool) :
    unsignedPart nptr negative s = noConv nptr := by
  cases s with
  | nil => rfl
  | cons c s =>
    have hc : c ≠ 48 := by
      rintro rfl
      exact absurd hs.head (by decide)
    simp [unsignedPart, hc, hs.head]

/-- **What `my_strtoll10` reads from any text**: the digits behind the spaces and one sign, if there are
any; a number that is too large becomes the limit.  It never moves behind the end. -/
theorem myStrtoll10_spec (nptr : Text) :
    let negative := (splitSign (nptr.dropWhile isSpace)).1
    let ds := (splitDigits (splitSign (nptr.dropWhile isSpace)).2).1
    let rest := (splitDigits (splitSign (nptr.dropWhile isSpace)).2).2
    let r := myStrtoll10 nptr
    r.endptr <:+ nptr ∧
      if ds = [] then r.error = .domain ∧ r.value = 0
      else if val 10 ds ≤ limit negative then
        r.error = (if negative then .negative else .ok) ∧ r.endptr = rest ∧
          r.value = UInt64.ofInt (if negative then -val 10 ds else val 10 ds)
      else r.error = .range ∧ r.value = UInt64.ofInt (if negative then -2 ^ 63 else 2 ^ 64 - 1) := by
  intro negative ds rest r
  obtain ⟨htext, hds, hrest⟩ : text ds ++ rest = (splitSign (nptr.dropWhile isSpace)).2 ∧
    (∀ d ∈ ds, d < 10) ∧ NoDigit rest := splitDigits_spec _
  have hsuffix : text ds ++ rest <:+ nptr :=
    htext ▸ (splitSign_suffix _).trans (dropWhile_suffix _)
  have hr : r = unsignedPart nptr negative (text ds ++ rest) := htext ▸ myStrtoll10_eq nptr
  by_cases hnil : ds = []
  · rw [hnil, text_nil, nil_append, unsignedPart_noDigit nptr hrest] at hr
    simp [hr, hnil, noConv]
  rw [unsignedPart_text hds hnil hrest] at hr
  rw [if_neg hnil, hr]
  refine ⟨(outcome_endptr _ _ ((drop_suffix _ _).trans (dropWhile_suffix _)) _).trans hsuffix, ?_⟩
  unfold outcome
  split_ifs with hle hneg hneg
  · simp [ending, hneg, ofInt_natCast]
  · simp [ending, hneg, ofInt_natCast]
  · rw [overflow, if_pos hneg]
    exact ⟨rfl, rfl⟩
  · rw [overflow, if_neg hneg]
    exact ⟨rfl, rfl⟩

end NumberText
