/-
**The binary format of decimals.**

`decimal2bin` writes a decimal in groups of nine digits: the digits of the integer part that do not
fill a group come first and those of the fraction last, both in fewer bytes.  Its code has a case for
each way in which the groups of the decimal can lie in those of the format: leading zeros, a shorter
integer part, a fraction that ends in an earlier group, or in the last group with fewer digits.

This module proves that, for a decimal that fits, all of these cases write one canonical form:
the words of the integer part with leading zeros, and the words of the fraction with zeros behind,
cut into the groups of the format.

Main definitions:

* `Decimal.sigWords`: the words of the integer part without leading zeros;
* `Decimal.Fits`: the decimal fits a precision and a scale;
* `packInt`, `packFrac`: the two parts in the groups of the format.

Main results:

* `removeLeadingZeroes_spec`: what `remove_leading_zeroes` finds;
* `intPart_eq`, `fracPart_eq`: the two parts of `decimal2bin` write the canonical form;
* `decimal2bin_eq`: the result of `decimal2bin`.
-/

import MariaDb.Decimal

set_option autoImplicit false

namespace Dec

open Radix List Decimal

/-! ### Numbers of words and digits -/

theorem digBase_eq : digBase = 10 ^ 9 := rfl

theorem one_lt_digBase : 1 < digBase := by norm_num [digBase]

theorem roundUp_eq (x : ℕ) : roundUp x = (x + 8) / 9 := by
  unfold roundUp digPerDec1
  split <;> omega

variable {x intg n k frac fromFrac : ℕ} {ws fs : List ℕ}

theorem roundUp_pos (h : 0 < x) : 0 < roundUp x := by
  rw [roundUp_eq]
  omega

variable {d : Decimal} {p s : ℕ}

theorem Decimal.Sound.length_intWords (hd : d.Sound) : d.intWords.length = roundUp d.intg := by
  rw [intWords, length_take]
  have := hd.enough
  omega

theorem Decimal.Sound.length_fracWords (hd : d.Sound) : d.fracWords.length = roundUp d.frac := by
  rw [fracWords, length_take, length_drop]
  have := hd.enough
  omega

theorem Decimal.Sound.intWord_lt (hd : d.Sound) : ∀ w ∈ d.intWords, w < digBase :=
  fun w hw => hd.word_lt w (mem_append_left _ hw)

theorem Decimal.Sound.fracWord_lt (hd : d.Sound) : ∀ w ∈ d.fracWords, w < digBase :=
  fun w hw => hd.word_lt w (mem_append_right _ hw)

theorem Decimal.value_eq_zero_iff (d : Decimal) : d.value = 0 ↔ d.mag = 0 := by
  have hbase : (digBase : ℚ) ≠ 0 := by norm_num [digBase]
  have hsign : (if d.sign = true then -1 else 1 : ℚ) ≠ 0 := by split <;> norm_num
  rw [value, mul_eq_zero, or_iff_right hsign, div_eq_zero_iff,
    or_iff_left (pow_ne_zero _ hbase), Nat.cast_eq_zero]

theorem value_decimalMakeZero (len : ℕ) : (decimalMakeZero len).value = 0 := by
  simp [value_eq_zero_iff, mag, intWords, fracWords, decimalMakeZero, show roundUp 1 = 1 from rfl]

/-! ### Leading zeros -/

/-- The words of the integer part without leading zeros. -/
def Decimal.sigWords (d : Decimal) : List ℕ := d.intWords.dropWhile (· = 0)

/-- The first word of an integer part of `intg` digits has no more digits than are left to it. -/
def LeadOk (intg : ℕ) (ws : List ℕ) : Prop := 0 < intg → ws.getD 0 0 < 10 ^ ((intg - 1) % 9 + 1)

theorem Decimal.Sound.leadOk (hd : d.Sound) : LeadOk d.intg d.intWords := by
  intro hpos
  rw [intWords, getD_eq_getElem?_getD, getElem?_take_of_lt (roundUp_pos hpos),
    ← getD_eq_getElem?_getD]
  exact hd.first_lt hpos

theorem skipZeroWords_spec {intg i : ℕ} {ws rest : List ℕ} (hlen : ws.length = roundUp intg)
    (hi : 0 < intg → i = (intg - 1) % 9 + 1) (hws : ∀ w ∈ ws, w < digBase)
    (hlead : LeadOk intg ws) :
    ∃ intg', skipZeroWords intg i (ws ++ rest) = (intg', ws.dropWhile (· = 0) ++ rest) ∧
      (ws.dropWhile (· = 0)).length = roundUp intg' ∧ LeadOk intg' (ws.dropWhile (· = 0)) := by
  induction ws generalizing intg i with
  | nil =>
    have hzero : intg = 0 := by
      rw [length_nil, roundUp_eq] at hlen
      omega
    subst hzero
    refine ⟨0, ?_, hlen, hlead⟩
    cases rest with
    | nil => rfl
    | cons w rest => simp [skipZeroWords]
  | cons w ws ih =>
    rw [length_cons, roundUp_eq] at hlen
    have hpos : intg > 0 := by omega
    by_cases hw : w = 0
    · -- the digits that are left fill the other words
      have hleft : intg - i = 9 * ws.length := by
        omega
      rw [forall_mem_cons] at hws
      have hnext := @ih (9 * ws.length) digPerDec1 (by rw [roundUp_eq]; omega)
        (by unfold digPerDec1; omega) hws.2 ?_
      · rw [cons_append, skipZeroWords, if_pos ⟨hpos, hw⟩, hleft,
          dropWhile_cons_of_pos (by simp [hw])]
        exact hnext
      intro hlen'
      have hmod : (9 * ws.length - 1) % 9 + 1 = 9 := by omega
      rw [hmod]
      cases ws with
      | nil => exact Nat.pos_of_ne_zero (by norm_num)
      | cons w' ws => exact hws.2 w' (mem_cons_self)
    · have hdrop : (w :: ws).dropWhile (· = 0) = w :: ws :=
        dropWhile_cons_of_neg (by simp [hw])
      rw [hdrop]
      refine ⟨intg, ?_, ?_, hlead⟩
      · rw [cons_append, skipZeroWords, if_neg fun h => hw h.2]
      · rw [length_cons, roundUp_eq, hlen]

/-- The digits of a word that is not zero. -/
theorem skipZeroDigits_spec {w i intg : ℕ} (hw : w ≠ 0) (hlt : w < 10 ^ (i + 1)) :
    ∃ j ≤ i, skipZeroDigits w i intg = intg - j ∧ 10 ^ (i - j) ≤ w ∧ w < 10 ^ (i - j + 1) := by
  induction i generalizing intg with
  | zero => exact ⟨0, le_rfl, rfl, Nat.pos_of_ne_zero hw, hlt⟩
  | succ i ih =>
    rw [skipZeroDigits]
    split
    next h =>
      obtain ⟨j, hj, heq, hlo, hhi⟩ := @ih (intg - 1) h
      refine ⟨j + 1, by omega, by rw [heq]; omega, ?_, ?_⟩
      · rw [Nat.add_sub_add_right]
        exact hlo
      · rw [Nat.add_sub_add_right]
        exact hhi
    next h => exact ⟨0, Nat.zero_le _, rfl, Nat.not_lt.mp h, hlt⟩

theorem getD_dropWhile_ne_zero (h : ws.dropWhile (· = 0) ≠ []) :
    (ws.dropWhile (· = 0)).getD 0 0 ≠ 0 := by
  induction ws with
  | nil => exact absurd rfl h
  | cons w ws ih =>
    by_cases hw : w = 0
    · rw [dropWhile_cons_of_pos (by simp [hw])] at h ⊢
      exact ih h
    · rw [dropWhile_cons_of_neg (by simp [hw])]
      exact hw

/-- `remove_leading_zeroes` finds the first word of the integer part that is not zero, and the
number of its digits. -/
theorem removeLeadingZeroes_spec (hd : d.WF) :
    ∃ k, removeLeadingZeroes d = (k, d.sigWords ++ d.buf.drop (roundUp d.intg)) ∧
      d.sigWords.length = roundUp k ∧
      (0 < k → 10 ^ ((k - 1) % 9) ≤ d.sigWords.getD 0 0 ∧
        d.sigWords.getD 0 0 < 10 ^ ((k - 1) % 9 + 1)) := by
  obtain ⟨intg, hskip, hlen, hlead'⟩ := @skipZeroWords_spec d.intg ((d.intg - 1) % 9 + 1) d.intWords
    (d.buf.drop (roundUp d.intg)) hd.length_intWords (fun _ => rfl) hd.intWord_lt hd.leadOk
  have hbuf : d.intWords ++ d.buf.drop (roundUp d.intg) = d.buf := take_append_drop _ _
  rw [hbuf] at hskip
  unfold removeLeadingZeroes
  rw [show (d.intg - 1) % digPerDec1 + 1 = (d.intg - 1) % 9 + 1 from rfl, hskip]
  change d.sigWords.length = roundUp intg at hlen
  rw [show d.intWords.dropWhile (· = 0) = d.sigWords from rfl]
  by_cases hpos : 0 < intg
  · have hne : d.sigWords ≠ [] := by
      intro h
      rw [h] at hlen
      exact absurd hlen (roundUp_pos hpos).ne
    have hhead : (d.sigWords ++ d.buf.drop (roundUp d.intg)).getD 0 0 = d.sigWords.getD 0 0 := by
      cases hsig : d.sigWords with
      | nil => exact absurd hsig hne
      | cons w ws => rfl
    obtain ⟨j, hj, heq, hlo, hhi⟩ := @skipZeroDigits_spec _ _ intg (getD_dropWhile_ne_zero hne)
      (hlead' hpos)
    simp only [gt_iff_lt, hpos, if_true, hhead]
    refine ⟨intg - j, by rw [show digPerDec1 = 9 from rfl]; exact congrArg (·, _) heq, ?_, ?_⟩
    · rw [hlen, roundUp_eq, roundUp_eq]
      omega
    intro _
    have hmod : (intg - j - 1) % 9 = (intg - 1) % 9 - j := by omega
    rw [hmod]
    exact ⟨hlo, hhi⟩
  · have hzero : intg = 0 := by omega
    subst hzero
    exact ⟨0, rfl, hlen, fun h => absurd h (lt_irrefl 0)⟩

/-! ### Groups of digits in bytes -/

/-- The number of bytes of a group is enough for its digits and a sign. -/
theorem two_mul_pow_le (hpos : 0 < n) (hn : n ≤ 9) : 2 * 10 ^ n ≤ 256 ^ dig2bytes n := by
  interval_cases n <;> decide

theorem pow_le_dig2bytes (hn : n ≤ 9) : 10 ^ n ≤ 256 ^ dig2bytes n := by
  interval_cases n <;> decide

theorem dig2bytes_le_four : dig2bytes n ≤ 4 := by
  by_cases hn : n ≤ 9
  · interval_cases n <;> decide
  · rw [dig2bytes, getD_eq_default _ _ (by simp; omega)]
    omega

theorem dig2bytes_mono {m : ℕ} (h : m ≤ n) (hn : n ≤ 9) : dig2bytes m ≤ dig2bytes n := by
  interval_cases n <;> interval_cases m <;> decide

section

variable (mask : Bool)

theorem xorMask_zero (n : ℕ) : store n (xorMask mask 0) = replicate n (maskByte mask) := by
  cases mask with
  | false => exact store_const n rfl
  | true => exact store_const n rfl

/-- A word in more bytes than it needs. -/
theorem store_xorMask_extend (m : ℕ) (hx : x < 256 ^ n) : store (m + n) (xorMask mask x) =
      replicate m (maskByte mask) ++ store n (xorMask mask x) := by
  have hx' : (x : ℤ) < 256 ^ n := by exact_mod_cast hx
  cases mask with
  | false => exact store_extend m rfl (Int.ediv_eq_zero_of_lt (by simp) hx')
  | true =>
    apply store_extend m (c := -1) rfl
    apply Int.ediv_eq_neg_one_of_neg_of_le <;> simp only [xorMask, if_true] <;> omega

theorem storeWords_nil : storeWords mask [] = [] := rfl

theorem storeWords_cons (w : ℕ) (ws : List ℕ) :
    storeWords mask (w :: ws) = store 4 (xorMask mask w) ++ storeWords mask ws := rfl

theorem storeWords_append (xs ys : List ℕ) :
    storeWords mask (xs ++ ys) = storeWords mask xs ++ storeWords mask ys :=
  flatMap_append

theorem length_storeWords (ws : List ℕ) : (storeWords mask ws).length = 4 * ws.length := by
  induction ws with
  | nil => rfl
  | cons w ws ih =>
    rw [storeWords_cons, length_append, length_store, ih, length_cons]
    omega

theorem storeWords_zeros (n : ℕ) :
    storeWords mask (replicate n 0) = replicate (4 * n) (maskByte mask) := by
  induction n with
  | zero => rfl
  | succ n ih =>
    have hzero := xorMask_zero mask 4
    rw [replicate_succ, storeWords_cons, ih]
    push_cast
    rw [hzero, replicate_append_replicate]
    congr 1
    omega

theorem digitsSize_eq (n : ℕ) : digitsSize n = 4 * (n / 9) + dig2bytes (n % 9) := by
  have hmod : n - n / 9 * 9 = n % 9 := by omega
  unfold digitsSize digPerDec1
  rw [hmod]
  omega

/-! ### The integer part -/

/-- The integer part in the binary format, for `intg` digits. -/
def packInt (mask : Bool) (intg : ℕ) (ws : List ℕ) : List ℕ :=
  store (dig2bytes (intg % 9)) (xorMask mask (ws.getD 0 0)) ++ storeWords mask (ws.drop 1)

theorem packInt_zeros (intg m : ℕ) (ws : List ℕ) :
    packInt mask intg (replicate (m + 1) 0 ++ ws) =
      replicate (dig2bytes (intg % 9) + 4 * m) (maskByte mask) ++ storeWords mask ws := by
  have hzero := xorMask_zero mask (dig2bytes (intg % 9))
  rw [packInt, replicate_succ, cons_append, getD_cons_zero, drop_one,
    tail_cons, storeWords_append, storeWords_zeros, ← append_assoc]
  push_cast
  rw [hzero, replicate_append_replicate]

/-- The integer part that `decimal2bin` writes. -/
theorem intPart_eq (hk : k ≤ intg) (hlen : ws.length = roundUp k)
    (hlead : 0 < k → ws.getD 0 0 < 10 ^ ((k - 1) % 9 + 1)) :
    replicate (digitsSize intg - digitsSize k) (maskByte mask) ++
        leadPart mask (k % 9) (ws.getD 0 0) ++
        storeWords mask (if k % 9 ≠ 0 then ws.drop 1 else ws) =
      packInt mask intg (replicate (intg / 9 + 1 - ws.length) 0 ++ ws) := by
  rw [roundUp_eq] at hlen
  rw [digitsSize_eq, digitsSize_eq]
  by_cases hx : k % 9 = 0
  · -- only full words
    have hsplit : intg / 9 + 1 - ws.length = (intg / 9 - k / 9) + 1 := by omega
    have hcount : 4 * (intg / 9) + dig2bytes (intg % 9) - (4 * (k / 9) + dig2bytes (k % 9)) =
        dig2bytes (intg % 9) + 4 * (intg / 9 - k / 9) := by
      rw [hx, show dig2bytes 0 = 0 from rfl]
      omega
    rw [hsplit, packInt_zeros, hcount, leadPart, if_neg (not_not.mpr hx), if_neg (not_not.mpr hx),
      append_nil]
  have hlead' := hlead (by omega)
  have hmod : (k - 1) % 9 + 1 = k % 9 := by omega
  have hk9 : k % 9 ≤ 9 := by omega
  rw [hmod] at hlead'
  have hfit : ws.getD 0 0 < 256 ^ dig2bytes (k % 9) := hlead'.trans_le (pow_le_dig2bytes hk9)
  have hle4 : dig2bytes (k % 9) ≤ 4 := dig2bytes_le_four
  cases ws with
  | nil =>
    rw [length_nil] at hlen
    omega
  | cons w ws =>
    rw [getD_cons_zero] at hlead' hfit ⊢
    rw [length_cons] at hlen ⊢
    rw [leadPart, if_pos hx, if_pos hx, powers10, Nat.mod_eq_of_lt hlead', drop_one, tail_cons]
    by_cases hlt : k / 9 < intg / 9
    · -- the first group is written in part of a full word
      have hsplit : intg / 9 + 1 - (ws.length + 1) = (intg / 9 - k / 9 - 1) + 1 := by omega
      have hword := store_xorMask_extend mask (4 - dig2bytes (k % 9)) hfit
      rw [Nat.sub_add_cancel hle4] at hword
      have hcount : 4 * (intg / 9) + dig2bytes (intg % 9) -
          (4 * (k / 9) + dig2bytes (k % 9)) =
          dig2bytes (intg % 9) + 4 * (intg / 9 - k / 9 - 1) + (4 - dig2bytes (k % 9)) := by
        omega
      rw [hsplit, packInt_zeros, storeWords_cons, hword, hcount, ← replicate_append_replicate]
      simp only [append_assoc]
    · have hmono : dig2bytes (k % 9) ≤ dig2bytes (intg % 9) :=
        dig2bytes_mono (by omega) (by omega)
      have hword := store_xorMask_extend mask (dig2bytes (intg % 9) - dig2bytes (k % 9)) hfit
      rw [Nat.sub_add_cancel hmono] at hword
      have hsplit : intg / 9 + 1 - (ws.length + 1) = 0 := by omega
      have hcount : 4 * (intg / 9) + dig2bytes (intg % 9) -
          (4 * (k / 9) + dig2bytes (k % 9)) =
          dig2bytes (intg % 9) - dig2bytes (k % 9) := by
        omega
      rw [hsplit, hcount, packInt, replicate_zero, nil_append, getD_cons_zero,
        drop_one, tail_cons, hword]

/-! ### The fraction -/

/-- The first `n` words, with zeros behind the end. -/
def padTo (n : ℕ) (fs : List ℕ) : List ℕ := (fs ++ replicate n 0).take n

theorem length_padTo (n : ℕ) (fs : List ℕ) : (padTo n fs).length = n := by
  rw [padTo, length_take, length_append, length_replicate]
  omega

theorem padTo_of_le (h : fs.length ≤ n) : padTo n fs = fs ++ replicate (n - fs.length) 0 := by
  rw [padTo, take_append, take_of_length_le h, take_replicate, Nat.min_eq_left (by omega)]

theorem padTo_of_ge (h : n ≤ fs.length) : padTo n fs = fs.take n :=
  take_append_of_le_length h

theorem padTo_succ (n : ℕ) (fs : List ℕ) : padTo (n + 1) fs = padTo n fs ++ [fs.getD n 0] := by
  rcases Nat.lt_or_ge n fs.length with h | h
  · rw [padTo_of_ge h, padTo_of_ge h.le, getD_eq_getElem _ _ h, take_concat_get']
  · rw [padTo_of_le h, padTo_of_le (Nat.le_succ_of_le h), getD_eq_default _ _ h,
      Nat.succ_sub h, replicate_succ', append_assoc]

theorem padTo_lt {b : ℕ} (hb : 0 < b) (h : ∀ w ∈ fs, w < b) : ∀ w ∈ padTo n fs, w < b := by
  intro w hw
  cases mem_append.mp (mem_of_mem_take hw) with
  | inl hfs => exact h w hfs
  | inr hzero => rw [eq_of_mem_replicate hzero]; exact hb

/-- The fraction in the binary format, for `frac` digits. -/
def packFrac (mask : Bool) (frac : ℕ) (fs : List ℕ) : List ℕ :=
  storeWords mask (padTo (frac / 9) fs) ++
    store (dig2bytes (frac % 9)) (xorMask mask (fs.getD (frac / 9) 0 / powers10 (9 - frac % 9) : ℕ))

/-- A fraction that ends before the last group is followed by zeros. -/
theorem packFrac_of_le (h : fs.length ≤ frac / 9) : packFrac mask frac fs =
      storeWords mask fs ++ replicate (digitsSize frac - 4 * fs.length) (maskByte mask) := by
  have hlast : fs.getD (frac / 9) 0 = 0 := getD_eq_default _ _ h
  have hzero := xorMask_zero mask (dig2bytes (frac % 9))
  rw [packFrac, padTo_of_le h, hlast, Nat.zero_div, storeWords_append, storeWords_zeros, digitsSize_eq]
  push_cast
  rw [hzero, append_assoc, replicate_append_replicate]
  congr 2
  omega

theorem packFrac_of_lt (h : frac / 9 < fs.length) : packFrac mask frac fs =
      storeWords mask (fs.take (frac / 9)) ++ store (dig2bytes (frac % 9))
        (xorMask mask (fs.getD (frac / 9) 0 / powers10 (9 - frac % 9) : ℕ)) := by
  rw [packFrac, padTo_of_ge h.le]

/-- The last group is widened to the digits that take the same number of bytes. -/
theorem widen_eq {y : ℕ} (hx : x ≠ 0) (hxy : x ≤ y) (hy : y ≤ 9) (h : dig2bytes x = dig2bytes y) :
    widen y (dig2bytes x) digPerDec1 x = y := by
  interval_cases y <;> interval_cases x <;> first | rfl | exact absurd h (by decide)

theorem mod_eq_sub (n : ℕ) : n - n / digPerDec1 * digPerDec1 = n % 9 := by
  unfold digPerDec1
  omega

theorem digitsSize_mono {m : ℕ} (h : m ≤ n) : digitsSize m ≤ digitsSize n := by
  have hle4 : dig2bytes (m % 9) ≤ 4 := dig2bytes_le_four
  rw [digitsSize_eq, digitsSize_eq]
  by_cases hlt : m / 9 < n / 9
  · omega
  · have hmono : dig2bytes (m % 9) ≤ dig2bytes (n % 9) := dig2bytes_mono (by omega) (by omega)
    omega

theorem fracShape_eq (h : fromFrac ≤ frac) :
    fracShape fromFrac frac =
      if digitsSize frac > digitsSize fromFrac ∧ fromFrac % 9 ≠ 0 then
        if frac / 9 = fromFrac / 9 then (fromFrac / 9, frac % 9, digitsSize fromFrac)
        else (fromFrac / 9 + 1, 0, digitsSize frac)
      else (fromFrac / 9, fromFrac % 9, digitsSize frac) := by
  have hmono := digitsSize_mono h
  simp only [fracShape, mod_eq_sub]
  rw [if_neg (by omega)]
  rfl

/-- The fraction fits into `frac` digits, or its digits behind them take more bytes. -/
def FracOk (fromFrac frac : ℕ) : Prop :=
  fromFrac ≤ frac ∨ digitsSize frac < digitsSize fromFrac

theorem lt_of_digitsSize_lt (h : digitsSize frac < digitsSize fromFrac) : frac < fromFrac :=
  lt_of_not_ge fun hle => h.not_ge (digitsSize_mono hle)

theorem fracShape_cut (h : digitsSize frac < digitsSize fromFrac) :
    fracShape fromFrac frac = (frac / 9, frac % 9, digitsSize frac) := by
  simp only [fracShape, mod_eq_sub]
  rw [if_pos h]
  rfl

theorem lastPart_zero (frac0 frac0x frac1 w : ℕ) :
    lastPart mask frac0 frac0x frac1 0 w = [] := if_neg (not_not.mpr rfl)

theorem lastPart_eq {frac0 frac0x frac1 frac1x lim : ℕ} (w : ℕ)
    (hlim : lim = if frac1 < frac0 then 9 else frac0x) (hx : frac1x ≠ 0) (hle : frac1x ≤ lim)
    (hlim9 : lim ≤ 9) (h : dig2bytes frac1x = dig2bytes lim) :
    lastPart mask frac0 frac0x frac1 frac1x w =
      store (dig2bytes lim) (xorMask mask (w / powers10 (9 - lim) : ℕ)) := by
  have hlim' : (if frac1 < frac0 then digPerDec1 else frac0x) = lim := hlim.symm
  rw [lastPart, if_pos hx]
  simp only [hlim']
  rw [widen_eq hx hle hlim9 h, h]
  rfl

theorem store_take_concat (h : fs.length = n + 1) :
    storeWords mask (fs.take n) ++ store 4 (xorMask mask (fs.getD n 0)) = storeWords mask fs := by
  have hn : n < fs.length := by omega
  have hfs : fs = fs.take n ++ [fs.getD n 0] := by
    rw [getD_eq_getElem _ _ hn, take_concat_get' fs n hn, take_of_length_le h.le]
  conv_rhs => rw [hfs, storeWords_append, storeWords_cons, storeWords_nil, append_nil]

/-- The fraction that `decimal2bin` writes; `g` is what follows it in the buffer. -/
theorem fracPart_eq (g : List ℕ) (hok : FracOk fromFrac frac) (hlen : fs.length = roundUp fromFrac)
    {frac1 frac1x fsize0 : ℕ} (hshape : fracShape fromFrac frac = (frac1, frac1x, fsize0)) :
    let last := lastPart mask (frac / 9) (frac % 9) frac1 frac1x ((fs ++ g).getD frac1 0)
    storeWords mask ((fs ++ g).take frac1) ++ last ++
        replicate (min (fsize0 - digitsSize fromFrac)
          (digitsSize frac - (4 * frac1 + last.length))) (maskByte mask) =
      packFrac mask frac fs := by
  intro last
  rw [roundUp_eq] at hlen
  -- the fraction ends in a group of digits, in a full word followed by zeros, or in a full word
  suffices hends : (frac1 = frac / 9 ∧ frac / 9 < fs.length ∧ fsize0 ≤ digitsSize fromFrac ∧
        last = store (dig2bytes (frac % 9))
          (xorMask mask ((fs ++ g).getD frac1 0 / powers10 (9 - frac % 9) : ℕ))) ∨
      (fs.length ≤ frac / 9 ∧ digitsSize fromFrac ≤ 4 * fs.length ∧ fsize0 = digitsSize frac ∧
        ((frac1 = fs.length ∧ last = []) ∨ (frac1 + 1 = fs.length ∧
          digitsSize frac = 4 * fs.length ∧
          last = store 4 (xorMask mask ((fs ++ g).getD frac1 0))))) by
    rcases hends with ⟨rfl, hlt, hsize, hlast⟩ | ⟨hle, h4, rfl, ⟨rfl, hlast⟩ | ⟨h1, hsz, hlast⟩⟩
    · rw [packFrac_of_lt mask hlt, hlast, Nat.sub_eq_zero_of_le hsize, Nat.zero_min,
        replicate_zero, append_nil, take_append_of_le_length hlt.le, getD_append _ _ _ _ hlt]
    · rw [packFrac_of_le mask hle, hlast, append_nil, length_nil, take_left]
      congr 2
      omega
    · rw [packFrac_of_le mask hle, hlast, length_store, getD_append _ _ _ _ (by omega),
        take_append_of_le_length (by omega), store_take_concat mask (by omega)]
      congr 2
      omega
  have hsize0 := digitsSize_eq frac
  have hsize1 := digitsSize_eq fromFrac
  rcases hok with hle | hcut
  case inr =>
    -- the digits behind the last group are cut
    have hlt := lt_of_digitsSize_lt hcut
    rw [fracShape_cut hcut] at hshape
    cases hshape
    refine .inl ⟨rfl, by omega, hcut.le, ?_⟩
    by_cases hx : frac % 9 = 0
    · simp only [last, hx]
      rfl
    · exact lastPart_eq mask _ (if_neg (by omega)).symm hx le_rfl (by omega) rfl
  have hmono := digitsSize_mono hle
  have hle4 : dig2bytes (fromFrac % 9) ≤ 4 := dig2bytes_le_four
  rw [fracShape_eq hle] at hshape
  by_cases hx : fromFrac % 9 = 0
  · rw [if_neg fun h => h.2 hx, hx] at hshape
    cases hshape
    rw [hx, show dig2bytes 0 = 0 from rfl] at hsize1
    exact .inr ⟨by omega, by omega, rfl, .inl ⟨by omega, lastPart_zero _ _ _ _ _⟩⟩
  by_cases hsz : digitsSize frac > digitsSize fromFrac
  · rw [if_pos ⟨hsz, hx⟩] at hshape
    by_cases heq : frac / 9 = fromFrac / 9
    · rw [if_pos heq] at hshape
      cases hshape
      refine .inl ⟨heq.symm, by omega, le_rfl, ?_⟩
      exact lastPart_eq mask _ (if_neg (by omega)).symm (by omega) le_rfl (by omega) rfl
    · rw [if_neg heq] at hshape
      cases hshape
      exact .inr ⟨by omega, by omega, rfl, .inl ⟨by omega, lastPart_zero _ _ _ _ _⟩⟩
  rw [if_neg fun h => hsz h.1] at hshape
  cases hshape
  by_cases heq : frac / 9 = fromFrac / 9
  · refine .inl ⟨heq.symm, by omega, by omega, ?_⟩
    exact lastPart_eq mask _ (if_neg (by omega)).symm hx (by omega) (by omega) (by omega)
  -- the last word needs all of its bytes
  have hfour : dig2bytes (fromFrac % 9) = dig2bytes 9 := by
    rw [show dig2bytes 9 = 4 from rfl]
    omega
  have hlast := @lastPart_eq mask (frac / 9) (frac % 9) (fromFrac / 9) (fromFrac % 9) 9
    ((fs ++ g).getD (fromFrac / 9) 0) (if_pos (by omega)).symm hx (by omega) le_rfl hfour
  rw [show powers10 (9 - 9) = 1 from rfl, Nat.div_one] at hlast
  exact .inr ⟨by omega, by omega, rfl, .inr ⟨by omega, by omega, hlast⟩⟩

end

/-! ### The whole number -/

/-- A decimal that fits: its fraction has at most `s` digits, and its integer part has at most
`p - s` digits. -/
structure Decimal.Fits (d : Decimal) (p s : ℕ) : Prop where
  frac_le : d.frac ≤ s
  int_lt : val digBase d.intWords < 10 ^ (p - s)

/-- The mask of `decimal2bin`: zero without a fraction is written as positive. -/
def Decimal.mask (d : Decimal) : Bool := d.sign && ¬ (d.sigWords = [] ∧ d.frac = 0)

/-- The integer part in `n` words; there may be more if it does not fit. -/
def Decimal.intCanon (d : Decimal) (n : ℕ) : List ℕ :=
  replicate (n - d.sigWords.length) 0 ++ d.sigWords

/-- The number of digits that `remove_leading_zeroes` finds is at most `n` for a number below
`10 ^ n`. -/
theorem digits_le (hlen : ws.length = roundUp k) (hlead : 0 < k → 10 ^ ((k - 1) % 9) ≤ ws.getD 0 0)
    (h : val digBase ws < 10 ^ n) : k ≤ n := by
  by_cases hk : k = 0
  · omega
  rw [roundUp_eq] at hlen
  have hlead' := hlead (by omega)
  cases ws with
  | nil =>
    rw [length_nil] at hlen
    omega
  | cons w ws =>
    rw [length_cons] at hlen
    rw [val_cons, digBase_eq, ← pow_mul] at h
    have hexp : k - 1 = (k - 1) % 9 + 9 * ws.length := by omega
    have hlow : 10 ^ (k - 1) ≤ w * 10 ^ (9 * ws.length) := by
      rw [hexp, pow_add]
      exact Nat.mul_le_mul_right _ hlead'
    have hlt : k - 1 < n := (Nat.pow_lt_pow_iff_right (by norm_num)).mp
      (hlow.trans_lt (Nat.lt_of_le_of_lt (Nat.le_add_right _ _) h))
    omega

/-- A number of `k` digits, followed by `n` words. -/
theorem val_lt_pow (hlen : ws.length = roundUp k + n) (hws : ∀ w ∈ ws, w < digBase)
    (hlead : LeadOk k ws) : val digBase ws < 10 ^ (k + 9 * n) := by
  rw [roundUp_eq] at hlen
  by_cases hk : k = 0
  · have hlt := val_lt one_lt_digBase hws
    rwa [digBase_eq, ← pow_mul, show 9 * ws.length = k + 9 * n by omega] at hlt
  have hfirst := hlead (by omega)
  cases ws with
  | nil => rw [length_nil] at hlen; omega
  | cons w ws =>
    rw [length_cons] at hlen
    have hrest := val_lt one_lt_digBase fun x hx => hws x (mem_cons_of_mem _ hx)
    calc val digBase (w :: ws) < (w + 1) * digBase ^ ws.length := by
          rw [val_cons, add_mul, one_mul]
          exact Nat.add_lt_add_left hrest _
      _ ≤ 10 ^ ((k - 1) % 9 + 1) * digBase ^ ws.length := Nat.mul_le_mul_right _ hfirst
      _ = 10 ^ (k + 9 * n) := by
          rw [digBase_eq, ← pow_mul, ← pow_add]
          congr 1
          omega

theorem digitsSize_eq_zero : digitsSize n = 0 ↔ n = 0 := by
  constructor
  · intro h
    have hmono := dig2bytes_mono (m := 1) (n := n % 9)
    rw [digitsSize_eq] at h
    rw [show dig2bytes 1 = 1 from rfl] at hmono
    omega
  · intro h
    rw [h]
    rfl

theorem fracShape_le (hok : FracOk fromFrac frac) :
    (fracShape fromFrac frac).1 ≤ roundUp fromFrac := by
  rw [roundUp_eq]
  rcases hok with h | h
  · rw [fracShape_eq h]
    split_ifs <;> simp only <;> omega
  · have := lt_of_digitsSize_lt h
    rw [fracShape_cut h]
    omega

theorem length_packInt (mask : Bool) (h : ws.length = intg / 9 + 1) :
    (packInt mask intg ws).length = digitsSize intg := by
  rw [packInt, length_append, length_store, length_storeWords, length_drop, digitsSize_eq]
  omega

theorem leadPart_append (mask : Bool) (hlen : ws.length = roundUp k) (xs : List ℕ) :
    leadPart mask (k % 9) ((ws ++ xs).getD 0 0) = leadPart mask (k % 9) (ws.getD 0 0) := by
  by_cases hk : k % 9 = 0
  · rw [hk]
    rfl
  · rw [roundUp_eq] at hlen
    rw [getD_append _ _ _ _ (by omega)]

theorem drop_lead_append (hlen : ws.length = roundUp k) (xs : List ℕ) :
    (if k % 9 ≠ 0 then (ws ++ xs).drop 1 else ws ++ xs) =
      (if k % 9 ≠ 0 then ws.drop 1 else ws) ++ xs := by
  by_cases hk : k % 9 = 0
  · rw [if_neg (not_not.mpr hk), if_neg (not_not.mpr hk)]
  · rw [roundUp_eq] at hlen
    rw [if_pos hk, if_pos hk, drop_append_of_le_length (by omega)]

theorem length_drop_lead (hlen : ws.length = roundUp k) :
    (if k % 9 ≠ 0 then ws.drop 1 else ws).length = k / 9 := by
  rw [roundUp_eq] at hlen
  split
  next => rw [length_drop]; omega
  next => omega

/-- The error of `decimal2bin`, for an integer part of `k` digits. -/
theorem decimal2bin_error {buf : List ℕ} (hremove : removeLeadingZeroes d = (k, buf)) (p s : ℕ) :
    (decimal2bin d p s).1 = if digitsSize s < digitsSize d.frac then .truncated
      else if p - s < k then .overflow else .ok := by
  have hover : (if k + digitsSize d.frac = 0 then 1 else p - s) < k ↔ p - s < k := by
    split <;> omega
  simp only [decimal2bin, hremove, hover]

/-- The bytes of `decimal2bin` for an integer part that fits: the two parts in the groups of the
format, with the first bit inverted. -/
theorem decimal2bin_bytes (hd : d.WF) (hval : val digBase d.intWords < 10 ^ (p - s))
    (hok : FracOk d.frac s) :
    (decimal2bin d p s).2 = flipTop (packInt d.mask (p - s) (d.intCanon ((p - s) / 9 + 1)) ++
      packFrac d.mask s d.fracWords) := by
  obtain ⟨k, hremove, hlen, hlead⟩ := removeLeadingZeroes_spec hd
  rw [← val_dropWhile_zero] at hval
  have hk : k ≤ p - s := digits_le hlen (fun h => (hlead h).1) hval
  have hk0 : k = 0 ↔ d.sigWords = [] := by
    rw [← length_eq_zero_iff, hlen, roundUp_eq]
    omega
  have hzero : k + digitsSize d.frac = 0 ↔ d.sigWords = [] ∧ d.frac = 0 := by
    rw [Nat.add_eq_zero_iff, hk0, digitsSize_eq_zero]
  have hmask : (d.sign && decide (¬ (k + digitsSize d.frac = 0))) = d.mask := by
    simp only [hzero, mask]
  -- in both cases the buffer starts with the two parts
  obtain ⟨g, hbuf⟩ : ∃ g, (if k + digitsSize d.frac = 0 then [0]
      else d.sigWords ++ d.buf.drop (roundUp d.intg)) = d.sigWords ++ (d.fracWords ++ g) := by
    split
    next h =>
      obtain ⟨hsig, hfrac⟩ := hzero.mp h
      refine ⟨[0], ?_⟩
      rw [hsig, fracWords, hfrac]
      rfl
    next h =>
      refine ⟨d.buf.drop (roundUp d.intg + roundUp d.frac), ?_⟩
      rw [fracWords, ← drop_drop, take_append_drop]
  have hover : ¬ (if k + digitsSize d.frac = 0 then 1 else p - s) < k := by
    split <;> omega
  obtain ⟨frac1, frac1x, fsize0, hshape⟩ : ∃ a b c, fracShape d.frac s = (a, b, c) :=
    ⟨_, _, _, rfl⟩
  have hfrac1 := fracShape_le hok
  rw [hshape] at hfrac1
  have hint := intPart_eq d.mask hk hlen fun h => (hlead h).2
  have hfrac := fracPart_eq d.mask g hok hd.length_fracWords hshape
  unfold decimal2bin
  simp only [hremove, hmask, hbuf, hshape]
  simp only [hover, if_false, mod_eq_sub]
  simp only [show digPerDec1 = 9 from rfl]
  have hws := length_drop_lead hlen
  have hget : ((d.fracWords ++ g).drop frac1).getD 0 0 = (d.fracWords ++ g).getD frac1 0 := by
    rw [getD_eq_getElem?_getD, getD_eq_getElem?_getD, getElem?_drop, Nat.add_zero]
  have hfracLen : (storeWords d.mask ((d.fracWords ++ g).take frac1)).length = 4 * frac1 := by
    rw [length_storeWords, length_take, length_append, hd.length_fracWords]
    omega
  rw [leadPart_append d.mask hlen, drop_lead_append hlen, ← hws, take_length_add_append,
    drop_length_add_append, hget, storeWords_append, ← append_assoc, hint, intCanon, ← hfrac]
  have hcanon : (packInt d.mask (p - s)
      (replicate ((p - s) / 9 + 1 - d.sigWords.length) 0 ++ d.sigWords)).length =
      digitsSize (p - s) := by
    apply length_packInt
    rw [length_append, length_replicate, hlen, roundUp_eq]
    omega
  simp only [length_append, hfracLen, hcanon, append_assoc]
  rw [show ∀ a b c : ℕ, a + b - (b + c) = a - c from fun a b c => by omega]

/-- The result of `decimal2bin` on a decimal that fits. -/
theorem decimal2bin_eq (hd : d.WF) (hfit : d.Fits p s) :
    decimal2bin d p s = (.ok, flipTop (packInt d.mask (p - s) (d.intCanon ((p - s) / 9 + 1)) ++
      packFrac d.mask s d.fracWords)) := by
  obtain ⟨k, hremove, hlen, hlead⟩ := removeLeadingZeroes_spec hd
  have hk : k ≤ p - s := digits_le hlen (fun h => (hlead h).1)
    ((val_dropWhile_zero d.intWords).trans_lt hfit.int_lt)
  refine Prod.ext ?_ (decimal2bin_bytes hd hfit.int_lt (.inl hfit.frac_le))
  rw [decimal2bin_error hremove, if_neg (digitsSize_mono hfit.frac_le).not_gt, if_neg hk.not_gt]

end Dec
