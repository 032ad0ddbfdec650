/-
**The errors of the binary format of decimals.**

A decimal may have more digits than a precision and a scale leave to it.  `decimal2bin` then has to
report what is lost: integer digits as an overflow, and digits of the fraction as a truncation, where
the bytes still hold the number without these digits.  The function finds out about the fraction by
comparing numbers of bytes, and the second error replaces the first one.

Main definitions:

* `Decimal.cutAt`: a decimal without the digits behind a scale.

Main results:

* `decimal2bin_honest_iff`: **the reports are right** unless digits behind the scale share the last
  byte with digits that are kept, or both errors occur.
-/

import MariaDb.DecimalRead
import MariaDb.DecimalRoundValue

set_option autoImplicit false

namespace Dec

open Radix List Decimal

/-! ### A fraction that is cut -/

/-- The words of a fraction up to the one with the digit `s`, cut behind this digit. -/
def cutWords (s : ℕ) (fs : List ℕ) : List ℕ :=
  fs.take (s / 9) ++ [fs.getD (s / 9) 0 / 10 ^ (9 - s % 9) * 10 ^ (9 - s % 9)]

/-- The decimal without the digits behind the scale `s`. -/
def Decimal.cutAt (d : Decimal) (s : ℕ) : Decimal :=
  ⟨d.intg, s, d.len, d.sign, d.intWords ++ (cutWords s d.fracWords).take (roundUp s)⟩

variable {d : Decimal} {p s : ℕ}

section
variable {fs : List ℕ}

theorem length_cutWords (hlen : s / 9 < fs.length) : (cutWords s fs).length = s / 9 + 1 := by
  rw [cutWords, length_append, length_take, length_singleton, min_eq_left hlen.le]

variable (hfs : ∀ w ∈ fs, w < digBase)
include hfs

theorem cutWords_lt : ∀ w ∈ cutWords s fs, w < digBase := by
  have hlast : fs.getD (s / 9) 0 < digBase := getD_lt (by norm_num [digBase]) hfs _
  rw [cutWords, forall_mem_append, forall_mem_singleton]
  exact ⟨fun w hw => hfs w (mem_of_mem_take hw), (Nat.div_mul_le_self _ _).trans_lt hlast⟩

/-- The words that belong to digits, and zeros behind them. -/
theorem padTo_cutWords (hlen : s / 9 < fs.length) :
    padTo (s / 9 + 1) ((cutWords s fs).take (roundUp s)) = cutWords s fs := by
  have hcut := length_cutWords hlen
  rw [roundUp_eq]
  by_cases hs : s % 9 = 0
  · have hlast : fs.getD (s / 9) 0 / 10 ^ (9 - s % 9) = 0 := by
      rw [hs, Nat.div_eq_of_lt]
      exact getD_lt (by norm_num [digBase]) hfs _
    have htake : (fs.take (s / 9)).length = (s + 8) / 9 := by
      rw [length_take]
      omega
    rw [cutWords, hlast, Nat.zero_mul, ← htake, take_left, padTo_of_le (by omega),
      show s / 9 + 1 - (fs.take (s / 9)).length = 1 by omega]
    rfl
  · rw [take_of_length_le (by omega), padTo_of_ge hcut.ge, take_of_length_le hcut.le]

end

section
variable (hd : d.WF) (hlt : s < d.frac)
include hd hlt

theorem Decimal.WF.div_lt_length : s / 9 < d.fracWords.length := by
  rw [hd.length_fracWords, roundUp_eq]
  omega

theorem Decimal.WF.cutAt_wf : (d.cutAt s).WF ∧ (d.cutAt s).intWords = d.intWords ∧
    (d.cutAt s).fracWords = (cutWords s d.fracWords).take (roundUp s) := by
  have hlen := hd.div_lt_length hlt
  have hcut := length_cutWords hlen
  have hfw : ((cutWords s d.fracWords).take (roundUp s)).length = roundUp s := by
    rw [length_take, roundUp_eq]
    omega
  refine wf_of_words d.sign hd.intg_lt hd.length_intWords hfw ?_ ?_ hd.leadOk fun hs => ?_
  · have hfits := hd.fits
    rw [roundUp_eq d.frac] at hfits
    rw [hd.length_intWords, hfw, roundUp_eq s]
    omega
  · rw [forall_mem_append]
    exact ⟨hd.intWord_lt, fun w hw => cutWords_lt hd.fracWord_lt w (mem_of_mem_take hw)⟩
  · rw [take_of_length_le (by rw [roundUp_eq]; omega), cutWords, getD_append_right _ _ _ _
      (length_take_le _ _), length_take, min_eq_left hlen.le, Nat.sub_self, getD_cons_zero]
    exact dvd_mul_left _ _

/-- The groups of the format do not change. -/
theorem Decimal.WF.groups_cutAt (p : ℕ) : (d.cutAt s).groups p s = d.groups p s := by
  obtain ⟨-, hint, hfrac⟩ := hd.cutAt_wf hlt
  have hpad := padTo_cutWords hd.fracWord_lt (hd.div_lt_length hlt)
  rw [← hfrac, padTo_succ, cutWords] at hpad
  obtain ⟨hwords, hlast⟩ := append_inj hpad (by
    rw [length_padTo, length_take, min_eq_left (hd.div_lt_length hlt).le])
  rw [groups, groups, intCanon, intCanon, sigWords, hint,
    hwords, padTo_of_ge (hd.div_lt_length hlt).le, (cons.inj hlast).1, powers10,
    Nat.mul_div_cancel _ (by positivity)]
  rfl

/-- **The decimal that is left is the truncated number.** -/
theorem Decimal.WF.value_cutAt : (d.cutAt s).value = truncateAt s d.value := by
  obtain ⟨hwf, hint, hfrac⟩ := hd.cutAt_wf hlt
  have hlen := hd.div_lt_length hlt
  have hround : roundUp s ≤ s / 9 + 1 := by
    rw [roundUp_eq]
    omega
  -- the digits that are kept, as a number
  have hkept : d.kept s = val digBase (d.intWords ++ d.fracWords.take (s / 9)) * 10 ^ (s % 9) +
      d.fracWords.getD (s / 9) 0 / 10 ^ (9 - s % 9) := by
    have htake : d.words.take (roundUp d.intg + (s / 9 + 1)) =
        d.intWords ++ d.fracWords.take (s / 9) ++ [d.fracWords.getD (s / 9) 0] := by
      have hwords : d.words = d.intWords ++ d.fracWords := take_add
      rw [hwords, ← hd.length_intWords, take_length_add_append, append_assoc,
        getD_eq_getElem _ _ hlen, take_concat_get']
    rw [kept, hd.mag_div (k := roundUp d.intg + (s / 9 + 1)) (j := 9 - s % 9), htake,
      val_concat, concat_div_pow _ _ (by omega), show 9 - (9 - s % 9) = s % 9 by omega]
    rw [dropped, digPerDec1, roundUp_eq d.frac]
    omega
  have hval : val digBase (d.sigWords ++ cutWords s d.fracWords) = d.kept s * 10 ^ (9 - s % 9) := by
    have hbase : digBase = 10 ^ (s % 9) * 10 ^ (9 - s % 9) := by
      rw [← pow_add, Nat.add_sub_cancel' (by omega), digBase_eq]
    rw [cutWords, ← append_assoc, val_concat, hkept, add_mul, mul_assoc, ← hbase, val_append,
      val_append, sigWords, val_dropWhile_zero]
  have hpow : (digBase : ℚ) ^ (s / 9 + 1) = 10 ^ s * 10 ^ (9 - s % 9) := by
    rw [digBase_eq, Nat.cast_pow, ← pow_mul, ← pow_add]
    congr 1
    omega
  rw [hwf.value_eq hround, hfrac, padTo_cutWords hd.fracWord_lt hlen, sigWords, hint,
    ← sigWords, hval, Nat.cast_mul, hpow, Nat.cast_pow, Nat.cast_ofNat,
    mul_div_mul_right _ _ (by positivity), truncateAt, d.floor_eq_kept (by exact_mod_cast hlt),
    Int.cast_natCast, d.sign_mul fun h => by simp [kept, h], zpow_natCast, mul_div_assoc]
  rfl

end

/-! ### The errors -/

theorem decimalBinSize_self (n : ℕ) : decimalBinSize n n = digitsSize n := by
  rw [decimalBinSize_eq, Nat.sub_self, digitsSize_eq_zero.mpr rfl, Nat.zero_add]

/-- `decimal2bin` reports an integer part that does not fit as an overflow, and otherwise digits
behind the scale as a truncation, with the truncated number in the bytes, exactly if in the first
case the fraction takes no more bytes than the scale, and in the second case it does. -/
theorem decimal2bin_honest_iff (hd : d.WF) (hp : 0 < p) (hp16 : p < 2 ^ 16) (hs : s ≤ p) :
    (10 ^ (p - s) ≤ val digBase d.intWords → (decimal2bin d p s).1 = .overflow) ∧
      (val digBase d.intWords < 10 ^ (p - s) → (¬ ∃ n : ℤ, d.value * 10 ^ s = n) →
        (decimal2bin d p s).1 = .truncated ∧ ∀ len, decimalSize p s ≤ len →
          ∃ r, bin2decimal (decimal2bin d p s).2 len p s = (.ok, r) ∧
            r.value = truncateAt s d.value) ↔
    (10 ^ (p - s) ≤ val digBase d.intWords →
        decimalBinSize d.frac d.frac ≤ decimalBinSize s s) ∧
      (val digBase d.intWords < 10 ^ (p - s) → (¬ ∃ n : ℤ, d.value * 10 ^ s = n) →
        decimalBinSize s s < decimalBinSize d.frac d.frac) := by
  obtain ⟨k, hremove, hlen, hlead⟩ := removeLeadingZeroes_spec hd
  have hsig : val digBase d.sigWords = val digBase d.intWords := val_dropWhile_zero _
  have hover : p - s < k ↔ 10 ^ (p - s) ≤ val digBase d.intWords := by
    rw [← hsig]
    constructor
    · intro h
      by_contra hval
      exact h.not_ge (digits_le hlen (fun hk => (hlead hk).1) (not_le.mp hval))
    · intro h
      by_contra hk
      have hlt := val_lt_pow (n := 0) hlen hd.sigWord_lt fun hpos => (hlead hpos).2
      exact (h.trans_lt hlt).not_ge (Nat.pow_le_pow_right (by norm_num) (by omega))
  have herr := decimal2bin_error hremove p s
  rw [decimalBinSize_self, decimalBinSize_self]
  refine and_congr (imp_congr_right fun hbig => ?_)
    (imp_congr_right fun hsmall => imp_congr_right fun hbeyond => ?_)
  · rw [herr, if_pos (hover.mpr hbig)]
    split <;> simp_all
  rw [if_neg (mt hover.mp hsmall.not_ge)] at herr
  constructor
  · rintro ⟨htrunc, -⟩
    rw [herr] at htrunc
    by_contra hle
    rw [if_neg hle] at htrunc
    cases htrunc
  intro hcut
  have hlt := lt_of_digitsSize_lt hcut
  refine ⟨herr.trans (if_pos hcut), fun len hlen => ?_⟩
  obtain ⟨hwf, hint, -⟩ := hd.cutAt_wf hlt
  have hmask : d.mask = (d.cutAt s).sign := by
    have hfrac : d.frac ≠ 0 := by omega
    simp [mask, cutAt, hfrac]
  have hfit : (d.cutAt s).Fits p s := ⟨le_rfl, by rwa [hint]⟩
  obtain ⟨r, hr, -, -, hvalue⟩ :=
    bin2decimal_pack d.mask hwf hfit hp hp16 hs (.inl hmask) hlen
  rw [hd.groups_cutAt hlt] at hr
  rw [decimal2bin_bytes hd hsmall (.inr hcut), ← pack_groups]
  exact ⟨r, hr, hvalue.trans (hd.value_cutAt hlt)⟩

/-- The number -1234567890.1234 with two digits behind the point. -/
theorem decimal2bin_honest_sample : (decimal2bin sampleDecimal 12 2).1 = .truncated := by
  refine (((decimal2bin_honest_iff sampleDecimal_wf (by decide) (by decide) (by decide)).mpr
    ⟨fun h => absurd h (by decide), fun _ _ => by decide⟩).2 (by decide) ?_).1
  rintro ⟨n, hn⟩
  have hmag : sampleDecimal.mag = 1234567890123400000 := by decide
  have hfifty : (50 * n : ℚ) = -6172839450617 := by
    rw [← hn, Decimal.value, hmag]
    norm_num [sampleDecimal, digBase, roundUp, digPerDec1]
  norm_cast at hfifty
  omega

def fiveHundredths : Decimal := ⟨1, 2, 9, false, [0, 50000000]⟩

/-- One digit behind the point takes as many bytes as two: 0.05 is stored there as 0.5, without an
error. -/
theorem truncation_goes_unreported :
    fiveHundredths.WF ∧ val digBase fiveHundredths.intWords < 10 ^ (1 - 1) ∧
      (¬ ∃ n : ℤ, fiveHundredths.value * 10 ^ 1 = n) ∧
      decimal2bin fiveHundredths 1 1 = (.ok, [0x85]) ∧
      bin2decimal [0x85] 9 1 1 = (.ok, ⟨0, 1, 9, false, [500000000]⟩) := by
  refine ⟨⟨⟨by decide, by decide, by decide, by decide⟩, by decide, by decide⟩, by decide, ?_,
    by decide, by decide⟩
  rintro ⟨n, hn⟩
  have hmag : fiveHundredths.mag = 50000000 := by decide
  have hfrac : roundUp fiveHundredths.frac = 1 := by decide
  have hhalf : fiveHundredths.value * 10 ^ 1 = 1 / 2 := by
    rw [value, hmag, hfrac]
    norm_num [fiveHundredths, digBase]
  have htwo : (1 : ℚ) = 2 * n := by
    rw [← hn, hhalf]
    norm_num
  have : (1 : ℤ) = 2 * n := by exact_mod_cast htwo
  omega

end Dec
