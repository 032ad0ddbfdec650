/-
**Rounding of decimals: which digits are kept.**

The words of `MariaDb.DecimalRound` are read as one number here.  The cut of `decimal_round` splits its
digits, and the decision to round away from zero, which the function takes from a word, is a statement
about this number.

Main definitions:

* `Decimal.kept`, `Decimal.increments`: the digits up to the cut, and the decision;
* `Overrun`: the calls that leave the buffer.

Main results:

* `decimalRound_spec`: outside of `Overrun` the result is the number of the digits up to the cut,
  increased by one if the function decides so.
-/

import MariaDb.DecimalRound

set_option autoImplicit false

namespace Dec

open Radix List Decimal Nat

/-! ### The digits that are dropped -/

section

variable (d : Decimal) (mode : RoundMode) (sign : Bool)

/-- The number of digits behind the cut. -/
def Decimal.dropped (scale : ℤ) : ℕ := (digPerDec1 * roundUp d.frac - scale).toNat

/-- The number of the digits up to the cut. -/
def Decimal.kept (scale : ℤ) : ℕ := d.mag / 10 ^ d.dropped scale

/-- Whether `decimal_round` rounds away from zero.  It decides by the digit behind the cut, apart from
`CEILING` and `FLOOR` at a cut between two words. -/
def Decimal.increments (scale : ℤ) (mode : RoundMode) : Bool :=
  if roundDigit mode d.sign = 0 ∧ (digPerDec1 : ℤ) ∣ scale then d.mag % 10 ^ d.dropped scale ≠ 0
  else
    let x := d.mag / 10 ^ (d.dropped scale - 1)
    digitInc mode d.sign x (x % 10)

def Decimal.words : List ℕ := d.buf.take (roundUp d.intg + roundUp d.frac)

theorem roundDigit_cases :
    roundDigit mode sign = 0 ∨ roundDigit mode sign = 5 ∨ roundDigit mode sign = 10 := by
  cases mode <;> cases sign <;> decide

theorem digitInc_congr {x x' : ℕ} (hdigit : x % 10 = x' % 10) (hodd : x / 10 % 2 = x' / 10 % 2) :
    digitInc mode sign x (x % 10) = digitInc mode sign x' (x' % 10) := by
  rw [digitInc, digitInc, hdigit, hodd]

/-- The digits of a number with a last word, without the last `j` of them. -/
theorem concat_div_pow (A w : ℕ) {j : ℕ} (hj : j ≤ 9) :
    (A * digBase + w) / 10 ^ j = A * 10 ^ (9 - j) + w / 10 ^ j := by
  have hbase : A * digBase = A * 10 ^ (9 - j) * 10 ^ j := by
    rw [mul_assoc, ← pow_add, Nat.sub_add_cancel hj, digBase_eq]
  rw [hbase, add_comm, add_mul_div_right _ _ (by positivity), add_comm]

theorem roundWord_eq (pos w : ℕ) :
    roundWord mode sign pos w = 10 ^ (pos + 1) * (w / 10 ^ (pos + 1) +
      if digitInc mode sign (w / 10 ^ pos) (w / 10 ^ pos % 10) then 1 else 0) := by
  have hdiv : w / 10 ^ (pos + 1) = w / 10 ^ pos / 10 := by
    rw [pow_succ, Nat.div_div_eq_div_mul]
  rw [roundWord, hdiv, pow_succ, mul_assoc, powers10]
  congr 1
  split <;> omega

end

/-- The digits of the last word that are behind the cut. -/
def cutDigits (scale : ℤ) : ℕ := (9 * cutWord scale - scale).toNat

theorem cutWord_spec (scale : ℤ) : scale ≤ 9 * cutWord scale ∧ 9 * cutWord scale < scale + 9 ∧
    roundUp scale.toNat = (cutWord scale).toNat := by
  rw [cutWord, roundUp_eq]
  split
  · omega
  · obtain ⟨m, rfl⟩ : ∃ m : ℕ, scale = -m := ⟨scale.natAbs, by omega⟩
    rw [digPerDec1, Int.neg_tdiv, Int.tdiv_eq_ediv_of_nonneg (Int.natCast_nonneg m)]
    omega

section
variable {d : Decimal} {scale : ℤ} {k : ℕ} {buf : List ℕ}

theorem val_take_succ {ws : List ℕ} (hk : k < ws.length) :
    val digBase (ws.take (k + 1)) = val digBase (ws.take k) * digBase + ws[k] := by
  rw [take_add_one, getElem?_eq_getElem hk, Option.toList_some, val_concat]

theorem wordAt_eq (htake : buf.take d.words.length = d.words) {j : ℕ} (hj : j < d.words.length) :
    wordAt buf j = some d.words[j] := by
  rw [wordAt, if_pos (Int.natCast_nonneg j), Int.toNat_natCast, ← getElem?_eq_getElem hj]
  conv_rhs => rw [← htake]
  rw [getElem?_take_of_lt hj]

theorem roundWord_le (mode : RoundMode) (sign : Bool) {pos w : ℕ} (hpos : pos ≤ 8)
    (hw : w < digBase) : roundWord mode sign pos w ≤ digBase := by
  have hbase : digBase = 10 ^ (pos + 1) * 10 ^ (8 - pos) := by
    rw [← pow_add, digBase_eq]
    congr 1
    omega
  rw [hbase] at hw
  have hdiv := Nat.div_lt_of_lt_mul hw
  rw [roundWord_eq, hbase]
  refine Nat.mul_le_mul_left _ ?_
  split <;> omega

/-- The digits after the last one of the fraction are zero. -/
def Decimal.Trimmed (d : Decimal) : Prop :=
  d.frac % digPerDec1 ≠ 0 → 10 ^ (digPerDec1 - d.frac % digPerDec1) ∣
    d.buf.getD (roundUp d.intg + d.frac / digPerDec1) 0

section

variable (hd : d.Sound)
include hd

theorem Decimal.Sound.length_words : d.words.length = roundUp d.intg + roundUp d.frac := by
  rw [words, length_take, min_eq_left hd.enough]

theorem Decimal.Sound.words_lt : ∀ w ∈ d.words, w < digBase := by
  have hword := hd.word_lt
  rwa [intWords, fracWords, ← take_add] at hword

/-- The digits up to a place between two words, without the last `j` of them. -/
theorem Decimal.Sound.mag_div {j t : ℕ} (ht : t = 9 * (roundUp d.intg + roundUp d.frac - k) + j) :
    d.mag / 10 ^ t = val digBase (d.words.take k) / 10 ^ j := by
  rw [ht, pow_add, pow_mul, ← digBase_eq, ← Nat.div_div_eq_div_mul, ← hd.length_words, mag_eq_take,
    ← words, val_div_pow one_lt_digBase hd.words_lt]

/-- The decision at a cut between two words. -/
theorem roundInc_eq (mode : RoundMode) (htake : buf.take d.words.length = d.words)
    (hk : (roundUp d.intg : ℤ) + cutWord scale = k) (hlt : k < d.words.length)
    (hscale : scale = 9 * cutWord scale) :
    roundInc mode d.sign buf k (roundUp d.intg + roundUp d.frac) =
      some (d.increments scale mode) := by
  have hlen := hd.length_words
  have hbuf := (congrArg List.length htake).ge.trans (length_take_le' _ _)
  have hdrop : d.dropped scale = 9 * (roundUp d.intg + roundUp d.frac - k) := by
    rw [dropped, digPerDec1]
    omega
  have hdvd : (digPerDec1 : ℤ) ∣ scale := ⟨cutWord scale, hscale⟩
  rcases roundDigit_cases mode d.sign with h | h | h
  · -- any digit that is dropped
    have hmod : d.mag % 10 ^ d.dropped scale = val digBase (d.words.drop k) := by
      rw [hdrop, pow_mul, ← digBase_eq, ← hlen, mag_eq_take, ← words,
        val_mod_pow one_lt_digBase hd.words_lt]
    rw [increments, if_pos ⟨h, hdvd⟩, hmod, roundInc, h]
    simp only
    rw [if_pos (by omega), show ((roundUp d.intg : ℤ) + roundUp d.frac).toNat = d.words.length by
      omega, htake, Int.toNat_natCast]
    congr 1
    rw [Bool.eq_iff_iff, any_eq_true]
    simp [val_eq_zero_iff (show 0 < digBase by norm_num [digBase])]
  · -- the first digit of the next word
    have hword : d.words[k] / 100000000 < 10 := by
      have := hd.words_lt _ (getElem_mem hlt)
      rw [digBase] at this
      omega
    have hx : d.mag / 10 ^ (d.dropped scale - 1) =
        val digBase (d.words.take k) * 10 + d.words[k] / 100000000 := by
      rw [hd.mag_div (show _ = 9 * (_ - (k + 1)) + 8 by omega), val_take_succ hlt,
        concat_div_pow _ _ (by omega)]
      norm_num
    rw [increments, if_neg (by omega), hx, roundInc, h]
    simp only [wordAt_eq htake hlt, Option.bind_eq_bind, Option.bind_some]
    generalize d.words[k] / 100000000 = x at hword ⊢
    have hlast (P : ℕ) : (P * 10 + x) % 10 = x ∧ (P * 10 + x) / 10 = P := by omega
    rw [digitInc, h, (hlast _).1, (hlast _).2]
    cases k with
    | zero => simp
    | succ j =>
      -- the last digit of the word in front of the cut is the last one that is kept
      have hodd : val digBase (d.words.take (j + 1)) % 2 = d.words[j] % 2 := by
        rw [val_take_succ (by omega), digBase]
        omega
      rw [hodd, show ((j + 1 : ℕ) : ℤ) - 1 = j by omega, wordAt_eq htake (by omega)]
      by_cases hmode : mode = .halfUp <;> by_cases hx5 : x = 5 <;> simp [hmode, hx5]
  · -- no digit is greater than nine
    rw [increments, if_neg (by omega), digitInc, roundInc, h]
    simp
    omega

/-- The decision at a cut inside of a word. -/
theorem increments_word (mode : RoundMode) (hk : (roundUp d.intg : ℤ) + cutWord scale = (k + 1 : ℕ))
    (hlt : k < d.words.length) {pos : ℕ} (hpos : cutDigits scale = pos + 1) :
    d.increments scale mode =
      digitInc mode d.sign (d.words[k] / 10 ^ pos) (d.words[k] / 10 ^ pos % 10) := by
  obtain ⟨hcut1, hcut2, -⟩ := cutWord_spec scale
  have hlen := hd.length_words
  rw [cutDigits] at hpos
  have hdvd : ¬ (digPerDec1 : ℤ) ∣ scale := by
    rw [digPerDec1]
    omega
  have hx : d.mag / 10 ^ (d.dropped scale - 1) =
      val digBase (d.words.take k) * 10 ^ (9 - pos) + d.words[k] / 10 ^ pos := by
    rw [← concat_div_pow _ _ (by omega), ← val_take_succ hlt]
    refine hd.mag_div ?_
    rw [dropped, digPerDec1]
    omega
  -- the words in front of this one change neither the digit nor the parity of the one before it
  have hpow : 10 ^ (9 - pos) = 20 * (5 * 10 ^ (7 - pos)) := by
    rw [← mul_assoc, show 20 * 5 = 10 ^ 2 from rfl, ← pow_add]
    congr 1
    omega
  rw [increments, if_neg fun h => hdvd h.2]
  refine digitInc_congr mode d.sign ?_ ?_ <;>
    (rw [hx, hpow, mul_left_comm]; omega)

/-- A number with `intg` digits in front of the point. -/
theorem Decimal.Sound.mag_lt : d.mag < 10 ^ (d.intg + 9 * roundUp d.frac) := by
  rw [mag_eq_take, ← words]
  refine val_lt_pow hd.length_words hd.words_lt fun hpos => ?_
  have hround := roundUp_pos hpos
  rw [words, getD_eq_getElem?_getD, getElem?_take_of_lt (by omega), ← getD_eq_getElem?_getD]
  exact hd.first_lt hpos

theorem Decimal.Sound.dvd_mag (hlast : d.Trimmed) : 10 ^ (9 * roundUp d.frac - d.frac) ∣ d.mag := by
  have hfrac := roundUp_eq d.frac
  rcases Nat.eq_zero_or_pos (d.frac % 9) with h | h
  · rw [show 9 * roundUp d.frac - d.frac = 0 by omega, pow_zero]
    exact one_dvd _
  have hword := hlast (by rw [digPerDec1]; omega)
  have hlen := hd.length_words
  have hk : roundUp d.intg + d.frac / 9 < d.words.length := by omega
  have hget : d.buf.getD (roundUp d.intg + d.frac / 9) 0 =
      d.words[roundUp d.intg + d.frac / 9] := by
    have htake : d.words[roundUp d.intg + d.frac / 9]? = d.buf[roundUp d.intg + d.frac / 9]? :=
      getElem?_take_of_lt (by omega)
    rw [getD_eq_getElem?_getD, ← htake, getElem?_eq_getElem hk, Option.getD_some]
  rw [mag_eq_take, ← words, ← take_length (l := d.words),
    show d.words.length = roundUp d.intg + d.frac / 9 + 1 by omega, val_take_succ hk]
  refine dvd_add (Dvd.dvd.mul_left ?_ _) ?_
  · rw [digBase_eq]
    exact pow_dvd_pow _ (by omega)
  · rwa [← hget, show 9 * roundUp d.frac - d.frac = 9 - d.frac % 9 by omega]

theorem Decimal.Sound.kept_lt (hlt : scale < d.frac) (h0 : 0 ≤ scale + d.intg) :
    d.kept scale < 10 ^ (scale + d.intg).toNat := by
  have hroundUp := roundUp_eq d.frac
  have hmag := hd.mag_lt
  refine Nat.div_lt_of_lt_mul ?_
  rwa [← pow_add, show d.dropped scale + (scale + d.intg).toNat = d.intg + 9 * roundUp d.frac by
    rw [dropped, digPerDec1]; omega]

end

/-- The digits of the result, up to the cut. -/
def Decimal.rounded (d : Decimal) (scale : ℤ) (mode : RoundMode) : ℕ :=
  d.kept scale + if d.increments scale mode then 1 else 0

/-- A call that cannot write its result to the buffer: a zero with too many digits behind the point,
or a carry out of an integer part that fills the buffer. -/
def NoRoom (d : Decimal) (scale : ℤ) (mode : RoundMode) : Prop :=
  (d.rounded scale mode = 0 ∧ (d.len : ℤ) < cutWord scale + 1) ∨
    (d.rounded scale mode = 10 ^ (scale + 9 * roundUp d.intg).toNat ∧ roundUp d.intg = d.len)

/-- The calls either leave the buffer, or give the digits of the result. -/
def RoundOutcome (d : Decimal) (scale : ℤ) (mode : RoundMode) (res : Option (DecError × Decimal)) :
    Prop :=
  (NoRoom d scale mode ∧ res = none) ∨ (¬ NoRoom d scale mode ∧
    GoodResult d.roundCall (cutWord scale) (d.rounded scale mode * 10 ^ cutDigits scale) res)

section
variable {intg i w : ℕ} {mode : RoundMode} (hd : d.Sound) (hlt : scale < d.frac)
  (h0 : 0 ≤ scale + d.intg) (hbuf : buf.length = d.len)
  (htake : buf.take d.words.length = d.words) (hintg : intg = d.intg ∨ intg = 9 * roundUp d.intg)
  (hk : (roundUp d.intg : ℤ) + cutWord scale = k)

include hintg in
theorem roundUp_of_words : roundUp intg = roundUp d.intg := by
  rcases hintg with rfl | rfl
  · rfl
  · rw [roundUp_eq]
    omega

include hd hlt h0 hbuf htake hintg hk in
theorem roundSettle_words (error : DecError) (hi : i < d.len) (hle : i ≤ d.words.length)
    (hw : w ≤ digBase) (hik : i + 1 = k ∨ (k = 0 ∧ i = 0 ∧ w = digBase))
    (hV : val digBase (d.words.take i) * digBase + w =
      d.rounded scale mode * 10 ^ cutDigits scale * digBase ^ (i + 1 - k)) :
    RoundOutcome d scale mode
      (roundSettle d.roundCall error intg (cutWord scale) scale buf i w) := by
  obtain ⟨hcut1, hcut2, hcut3⟩ := cutWord_spec scale
  have hint := roundUp_eq d.intg
  have hfrac := roundUp_eq d.frac
  have hpre : buf.take i = d.words.take i := by
    rw [← htake, take_take, min_eq_left hle]
  -- a carry leaves the first word if all digits up to the cut are nines
  have hcarry : d.rounded scale mode * 10 ^ cutDigits scale = digBase ^ k ↔
      d.rounded scale mode = 10 ^ (scale + 9 * roundUp d.intg).toNat := by
    rw [digBase_eq, ← pow_mul, show 9 * k = (scale + 9 * roundUp d.intg).toNat + cutDigits scale by
      rw [cutDigits]; omega, pow_add]
    exact Nat.mul_left_inj (by positivity)
  have hgrow : d.rounded scale mode * 10 ^ cutDigits scale = digBase ^ k →
      roundUp (intg + 1) = roundUp d.intg + 1 := by
    intro h
    have hkept := hd.kept_lt hlt h0
    have hle : 10 ^ (scale + 9 * roundUp d.intg).toNat ≤ 10 ^ (scale + d.intg).toNat := by
      rw [← hcarry.mp h, rounded]
      split <;> omega
    have hexp := (Nat.pow_le_pow_iff_right (show 1 < 10 by omega)).mp hle
    rw [roundUp_eq (intg + 1)]
    omega
  have hroom : ((d.rounded scale mode * 10 ^ cutDigits scale = 0 ∧
      (d.roundCall.len : ℤ) < cutWord scale + 1) ∨
      (d.rounded scale mode * 10 ^ cutDigits scale = digBase ^ k ∧
        d.roundCall.intg0 = d.roundCall.len)) ↔ NoRoom d scale mode := by
    rw [hcarry, Nat.mul_eq_zero, or_iff_left (show ¬ 10 ^ cutDigits scale = 0 by positivity)]
    rfl
  have hspec := roundSettle_spec error (c := d.roundCall) hbuf hi
    (by rw [hpre]; exact fun x hx => hd.words_lt x (mem_of_mem_take hx)) hw hk hik
    (by rw [hpre]; exact hV) hcut3 (show cutWord scale ≤ roundUp d.frac by omega) hd.fits
    (roundUp_of_words hintg) hgrow
  by_cases h : NoRoom d scale mode
  · rw [if_pos (hroom.mpr h)] at hspec
    exact .inl ⟨h, hspec⟩
  · rw [if_neg (mt hroom.mp h)] at hspec
    exact .inr ⟨h, hspec⟩

include hd hlt h0 hbuf htake hintg in
/-- The part of the function that cuts digits off. -/
theorem roundWords_cut (error : DecError) :
    RoundOutcome d scale mode (roundWords d mode error intg (cutWord scale) scale buf) := by
  obtain ⟨hcut1, hcut2, -⟩ := cutWord_spec scale
  have hint := roundUp_eq d.intg
  have hfrac := roundUp_eq d.frac
  have hlen := hd.length_words
  have hfits := hd.fits
  obtain ⟨k, hk⟩ : ∃ k : ℕ, (roundUp d.intg : ℤ) + cutWord scale = k :=
    ⟨(roundUp d.intg + cutWord scale).toNat, by omega⟩
  have hkept : d.kept scale = val digBase (d.words.take k) / 10 ^ cutDigits scale :=
    hd.mag_div (by rw [dropped, cutDigits, digPerDec1]; omega)
  have hsettle (i w : ℕ) :=
    @roundSettle_words d scale k buf intg i w mode hd hlt h0 hbuf htake hintg hk error
  have hinc : d.rounded scale mode = d.kept scale + if d.increments scale mode then 1 else 0 := rfl
  rw [roundWords]
  simp only [show d.roundCall.intg0 = roundUp d.intg from rfl,
    show d.roundCall.frac1 = roundUp d.frac from rfl, hk]
  rw [if_neg (by omega), if_neg (by omega)]
  by_cases hscale : scale = cutWord scale * digPerDec1
  · -- a cut between two words
    rw [if_pos hscale]
    rw [digPerDec1] at hscale
    have hzero : cutDigits scale = 0 := by
      rw [cutDigits]
      omega
    rw [hzero, pow_zero, Nat.div_one] at hkept
    rw [roundInc_eq hd mode htake hk (by omega) (by omega), Option.bind_eq_bind, Option.bind_some]
    rw [hzero, pow_zero, hinc, hkept] at hsettle
    cases k with
    | zero =>
      cases hval : d.increments scale mode with
      | true =>
        rw [hval] at hsettle
        exact hsettle 0 digBase (by omega) (by omega) (le_refl _) (.inr ⟨rfl, rfl, rfl⟩) (by simp)
      | false =>
        rw [if_neg (by decide), if_pos Int.ofNat_zero]
        have hrounded : d.rounded scale mode = 0 := by simp [hinc, hkept, hval]
        refine .inr ⟨?_, .ok, decimalMakeZero d.len, if_pos (by omega), ?_, fun _ => ?_⟩
        · rw [NoRoom, hrounded]
          have : 0 < 10 ^ (scale + 9 * roundUp d.intg).toNat := by positivity
          omega
        · show roundUp 1 + roundUp 0 ≤ d.len
          rw [roundUp_eq, roundUp_eq]
          omega
        · rw [value_decimalMakeZero, hrounded, cutValue, zero_mul, cast_zero, zero_mul, mul_zero]
    | succ j =>
      have hj : j < d.words.length := by omega
      have hword : d.words[j] < digBase := hd.words_lt _ (getElem_mem hj)
      simp only [val_take_succ hj] at hsettle
      simp only [show ((j + 1 : ℕ) : ℤ) - 1 = j by omega, wordAt_eq htake hj]
      cases hval : d.increments scale mode with
      | true =>
        rw [if_pos rfl, if_pos (by omega)]
        rw [hval] at hsettle
        exact hsettle j _ (by omega) (by omega) hword (.inl rfl) (by simp; omega)
      | false =>
        rw [hval] at hsettle
        exact hsettle j _ (by omega) (by omega) hword.le (.inl rfl) (by simp)
  · rw [if_neg hscale]
    rw [digPerDec1] at hscale ⊢
    obtain _ | j := k
    · omega
    have hj : j < d.words.length := by omega
    obtain ⟨pos, hpos⟩ : ∃ pos, cutDigits scale = pos + 1 :=
      ⟨cutDigits scale - 1, by rw [cutDigits]; omega⟩
    have hpos' : (cutWord scale * (9 : ℕ) - scale - 1).toNat = pos := by
      rw [cutDigits] at hpos
      omega
    simp only [show ((j + 1 : ℕ) : ℤ) - 1 = j by omega, wordAt_eq htake hj]
    rw [hpos']
    have hword : d.words[j] < digBase := hd.words_lt _ (getElem_mem hj)
    have hpos8 : pos + 1 ≤ 9 := by
      omega
    refine hsettle j _ (by omega) (by omega) (roundWord_le _ _ (by omega) hword) (.inl rfl) ?_
    rw [roundWord_eq, ← increments_word hd mode hk hj hpos, hinc, hkept, hpos, val_take_succ hj,
      concat_div_pow _ _ hpos8, Nat.sub_self, pow_zero, mul_one, add_assoc, add_mul, mul_assoc,
      ← pow_add, Nat.sub_add_cancel hpos8, ← digBase_eq]
    ring

include hd hbuf htake hintg in
/-- The part of the function that has nothing to cut off. -/
theorem roundWords_keep (error : DecError) (hle : (d.frac : ℤ) ≤ scale) {frac0 : ℤ}
    (hcut : roundUp scale.toNat = frac0.toNat) (hfit : roundUp d.intg + frac0 ≤ d.len) :
    ∃ r, roundWords d mode error intg frac0 scale buf = some (error, r) ∧
      roundUp r.intg + roundUp r.frac ≤ d.len ∧ r.value = d.value := by
  have hlen := hd.length_words
  have hfits := hd.fits
  have hscale := roundUp_eq scale.toNat
  have hfrac := roundUp_eq d.frac
  have hroundUp := roundUp_of_words hintg
  -- the words of the result
  obtain ⟨buf', hres, hbuf'⟩ : ∃ buf', roundWords d mode error intg frac0 scale buf =
      some (error, ⟨intg, scale.toNat, d.len, d.sign, buf'⟩) ∧
      buf'.take (roundUp d.intg + frac0.toNat) =
        d.words ++ List.replicate (frac0.toNat - roundUp d.frac) 0 := by
    rw [roundWords]
    by_cases hgt : frac0 > roundUp d.frac
    · simp only [show d.roundCall.intg0 = roundUp d.intg from rfl,
        show d.roundCall.frac1 = roundUp d.frac from rfl, if_pos hgt, clearWords]
      rw [if_pos (by omega), if_pos (by omega)]
      refine ⟨_, rfl, ?_⟩
      rw [show ((roundUp d.intg : ℤ) + roundUp d.frac).toNat = d.words.length by omega, htake,
        show ((roundUp d.intg : ℤ) + frac0 - (roundUp d.intg + roundUp d.frac)).toNat =
          frac0.toNat - roundUp d.frac by omega,
        take_append_of_le_length (by simp only [length_append, length_replicate]; omega),
        take_of_length_le (by simp only [length_append, length_replicate]; omega)]
    · simp only [show d.roundCall.frac1 = roundUp d.frac from rfl, if_neg hgt, if_pos hle]
      refine ⟨buf, rfl, ?_⟩
      rw [show frac0.toNat - roundUp d.frac = 0 by omega, replicate_zero, append_nil, ← htake, hlen]
      congr 1
      omega
  refine ⟨_, hres, ?_, ?_⟩
  · simp only [hroundUp, hcut]
    omega
  have hmag : mag ⟨intg, scale.toNat, d.len, d.sign, buf'⟩ =
      d.mag * digBase ^ (frac0.toNat - roundUp d.frac) := by
    rw [mag_eq_take, mag_eq_take d]
    simp only [hroundUp, hcut]
    rw [hbuf', val_append_zeros]
    rfl
  have hpow : (digBase : ℚ) ^ frac0.toNat =
      digBase ^ (frac0.toNat - roundUp d.frac) * digBase ^ roundUp d.frac := by
    rw [← pow_add]
    congr 1
    omega
  have hne : (digBase : ℚ) ^ (frac0.toNat - roundUp d.frac) ≠ 0 := by
    simp [digBase]
  rw [value, value, hmag]
  simp only [hcut]
  rw [hpow, cast_mul, cast_pow, mul_comm (_ ^ (_ - _)), mul_div_mul_right _ _ hne]

end

/-- The calls that leave the buffer, or the range of an `int`.

A carry out of an integer part that fills the buffer shifts the last word over the end, and a zero
is built with a word for the integer part even if the digits behind the point fill the buffer. -/
def Overrun (d : Decimal) (scale : ℤ) (mode : RoundMode) : Prop :=
  scale + 8 > 2147483647 ∨ (d.len = 0 ∧ scale < 0) ∨
    (scale < 0 ∧ 0 ≤ scale + d.intg ∧ roundUp d.intg = d.len ∧ d.increments scale mode ∧
      d.kept scale + 1 = 10 ^ (scale + 9 * roundUp d.intg).toNat) ∨
    (0 ≤ scale ∧ scale < d.frac ∧ d.intg = 0 ∧ roundUp scale.toNat = d.len ∧
      ¬ d.increments scale mode ∧ d.kept scale = 0)

theorem overrun_iff_noRoom (hd : d.Sound) (mode : RoundMode) (hbig : scale + 8 ≤ 2147483647)
    (hlt : scale < d.frac) (h0 : 0 ≤ scale + d.intg) :
    Overrun d scale mode ↔ NoRoom d scale mode := by
  obtain ⟨hcut1, hcut2, hcut3⟩ := cutWord_spec scale
  have hint := roundUp_eq d.intg
  have hfrac := roundUp_eq d.frac
  have hfits := hd.fits
  have hkept := hd.kept_lt hlt h0
  have hpow : 10 ^ (scale + d.intg).toNat ≤ 10 ^ (scale + 9 * roundUp d.intg).toNat :=
    Nat.pow_le_pow_right (by omega) (by omega)
  rw [Overrun, NoRoom, rounded]
  cases d.increments scale mode with
  | true | false => simp; omega

/-! ### The whole function -/

theorem Decimal.Sound.take_bufferOf (hd : d.Sound) :
    (bufferOf d.len d.buf).take d.words.length = d.words := by
  rw [bufferOf, padTo, take_take, hd.length_words, min_eq_left hd.fits,
    take_append_of_le_length hd.enough, words]

/-- The function after the words have been copied, if they are. -/
theorem decimalRound_eq (hd : d.Sound) (dst : Option (List ℕ)) (mode : RoundMode)
    (hbig : scale + 8 ≤ 2147483647) {frac0 scale' : ℤ} {error : DecError}
    (hfrac0 : frac0 = if cutWord scale + roundUp d.intg > d.len then (d.len : ℤ) - roundUp d.intg
      else cutWord scale)
    (hscale' : scale' = if cutWord scale + roundUp d.intg > d.len then frac0 * digPerDec1 else scale)
    (herror : error = if cutWord scale + roundUp d.intg > d.len then .truncated else .ok)
    (h0 : 0 ≤ scale' + d.intg) :
    ∃ buf intg, buf.length = d.len ∧ buf.take d.words.length = d.words ∧
      (intg = d.intg ∨ intg = 9 * roundUp d.intg) ∧
      decimalRound d dst scale mode = roundWords d mode error intg frac0 scale' buf := by
  have hfits := hd.fits
  have hlen := hd.length_words
  have hsrc : (bufferOf d.len d.buf).length = d.len := length_padTo _ _
  unfold decimalRound
  simp only [← hfrac0, ← hscale', ← herror]
  rw [if_neg (by rw [digPerDec1]; omega), if_neg (by omega)]
  cases dst with
  | none => exact ⟨_, _, hsrc, hd.take_bufferOf, .inl rfl, rfl⟩
  | some ws =>
    have hdst : (bufferOf d.len ws).length = d.len := length_padTo _ _
    have hroom : (roundUp d.intg : ℤ) + max (roundUp d.frac : ℤ) frac0 ≤ d.len := by
      rw [hfrac0]
      split <;> omega
    simp only [copyWords, hsrc, hdst]
    rw [if_pos ⟨hroom, hroom⟩]
    refine ⟨_, _, ?_, ?_, .inr ?_, rfl⟩
    · rw [length_append, length_take, length_drop, hsrc, hdst]
      omega
    · rw [take_append_of_le_length (by rw [length_take]; omega), take_take,
        min_eq_left (by omega), hd.take_bufferOf]
    · rw [min_eq_left (by omega), digPerDec1, mul_comm]

/-- The number that `decimal_round` should give, by the digits. -/
def Decimal.roundedValue (d : Decimal) (scale : ℤ) (mode : RoundMode) : ℚ :=
  if scale + d.intg < 0 then 0
  else if d.frac ≤ scale then d.value
  else (if d.sign then -1 else 1) * (d.rounded scale mode * (10 : ℚ) ^ (-scale))

theorem cutValue_cutWord (sign : Bool) (n : ℕ) (scale : ℤ) :
    cutValue sign (n * 10 ^ cutDigits scale) (cutWord scale) =
      (if sign then -1 else 1) * (n * (10 : ℚ) ^ (-scale)) := by
  obtain ⟨hcut, -, -⟩ := cutWord_spec scale
  have hpow : (10 : ℚ) ^ cutDigits scale * (digBase : ℚ) ^ (-cutWord scale) = 10 ^ (-scale) := by
    rw [digBase_eq, cast_pow, ← zpow_natCast, ← zpow_natCast, ← zpow_mul, cast_ofNat,
      ← zpow_add₀ (by norm_num), cutDigits]
    congr 1
    omega
  rw [cutValue, cast_mul, cast_pow, cast_ofNat, mul_assoc (n : ℚ), hpow]

theorem decimalRound_spec (hd : d.Sound) (dst : Option (List ℕ)) (scale : ℤ) (mode : RoundMode) :
    (Overrun d scale mode ∧ decimalRound d dst scale mode = none) ∨
    (¬ Overrun d scale mode ∧ ∃ error r, decimalRound d dst scale mode = some (error, r) ∧
      roundUp r.intg + roundUp r.frac ≤ d.len ∧
      (error = .ok → r.value = d.roundedValue scale mode)) := by
  obtain ⟨hcut1, hcut2, hcut3⟩ := cutWord_spec scale
  have hfrac := roundUp_eq d.frac
  have hfits := hd.fits
  by_cases hbig : scale + 8 > 2147483647
  · refine .inl ⟨.inl hbig, ?_⟩
    exact if_pos (by rw [digPerDec1]; omega)
  by_cases hneg : scale + d.intg < 0
  · -- all digits are dropped
    have hres : decimalRound d dst scale mode = roundZero d.len := by
      unfold decimalRound
      simp only [if_neg (show ¬ cutWord scale + roundUp d.intg > d.len by omega), if_pos hneg]
      exact if_neg (by rw [digPerDec1]; omega)
    rw [hres, roundZero]
    by_cases hlen : d.len = 0
    · exact .inl ⟨.inr (.inl ⟨hlen, by omega⟩), if_neg (by omega)⟩
    refine .inr ⟨by rw [Overrun]; omega, .ok, _, if_pos (by omega), ?_, fun _ => ?_⟩
    · show roundUp 1 + roundUp 0 ≤ d.len
      rw [roundUp_eq, roundUp_eq]
      omega
    · rw [value_decimalMakeZero, roundedValue, if_pos hneg]
  by_cases hlt : scale < d.frac
  · have hroom : ¬ cutWord scale + roundUp d.intg > d.len := by omega
    obtain ⟨buf, intg, hbuf, htake, hintg, hres⟩ := decimalRound_eq hd dst mode (by omega)
      (if_neg hroom).symm (if_neg hroom).symm (if_neg hroom).symm (by omega)
    rw [hres, overrun_iff_noRoom hd mode (by omega) hlt (by omega)]
    rcases @roundWords_cut d scale buf intg mode hd hlt (by omega) hbuf htake hintg .ok with
      h | ⟨h, error, r, hr, hlen, hval⟩
    · exact .inl h
    refine .inr ⟨h, error, r, hr, hlen, fun hok => ?_⟩
    rw [hval hok, cutValue_cutWord, roundedValue, if_neg hneg,
      if_neg (show ¬ (d.frac : ℤ) ≤ scale by omega)]
    rfl
  have hno : ¬ Overrun d scale mode := by
    rw [Overrun]
    omega
  refine .inr ⟨hno, ?_⟩
  by_cases hroom : cutWord scale + roundUp d.intg > d.len
  · -- too many digits behind the point
    obtain ⟨buf, intg, hbuf, htake, hintg, hres⟩ := decimalRound_eq hd dst mode (by omega)
      (if_pos hroom).symm (if_pos hroom).symm (if_pos hroom).symm (by rw [digPerDec1]; omega)
    obtain ⟨r, hr, hlen, -⟩ := @roundWords_keep d _ buf intg mode hd hbuf htake hintg .truncated
      (show (d.frac : ℤ) ≤ ((d.len : ℤ) - roundUp d.intg) * digPerDec1 by rw [digPerDec1]; omega)
      (d.len - roundUp d.intg) (by rw [roundUp_eq, digPerDec1]; omega) (by omega)
    exact ⟨.truncated, r, hres.trans hr, hlen, fun h => absurd h (by decide)⟩
  · obtain ⟨buf, intg, hbuf, htake, hintg, hres⟩ := decimalRound_eq hd dst mode (by omega)
      (if_neg hroom).symm (if_neg hroom).symm (if_neg hroom).symm (by omega)
    obtain ⟨r, hr, hlen, hval⟩ := @roundWords_keep d _ buf intg mode hd hbuf htake hintg .ok
      (show (d.frac : ℤ) ≤ scale by omega) _ hcut3 (by omega)
    refine ⟨_, r, hres.trans hr, hlen, fun _ => ?_⟩
    rw [hval, roundedValue, if_neg hneg, if_pos (by omega)]

/-- `decimal_round` stays inside of the buffer, and the result fits into it, unless the call is one of
`Overrun`. -/
theorem decimalRound_fits_iff (hd : d.Sound) (dst : Option (List ℕ)) (scale : ℤ)
    (mode : RoundMode) :
    (∃ error r, decimalRound d dst scale mode = some (error, r) ∧
      roundUp r.intg + roundUp r.frac ≤ d.len) ↔ ¬ Overrun d scale mode := by
  rcases decimalRound_spec hd dst scale mode with ⟨h, hres⟩ | ⟨h, error, r, hres, hlen, -⟩
  · refine iff_of_false ?_ (not_not.mpr h)
    rintro ⟨error, r, hr, -⟩
    rw [hres] at hr
    cases hr
  · exact iff_of_true ⟨error, r, hres, hlen⟩ h

/-- An instance: -1.5, at one digit in front of the point. -/
theorem decimalRound_fits_iff_sample :
    (∃ error r, decimalRound ⟨1, 1, 9, true, [1, 500000000]⟩ (some []) (-1) .halfUp =
        some (error, r) ∧ roundUp r.intg + roundUp r.frac ≤ 9) ↔
      ¬ Overrun ⟨1, 1, 9, true, [1, 500000000]⟩ (-1) .halfUp :=
  decimalRound_fits_iff ⟨by decide, by decide, by decide, by decide⟩ _ _ _

/-- **Two calls that leave the buffer.**  The first one shifts eight words of nines and one more by a
word; the second one drops the only digit of a number without integer part and builds a zero with a
word for it, although 80 digits behind the point fill the buffer. -/
theorem round_leaves_buffer :
    (WF ⟨81, 0, 9, false, List.replicate 8 999999999 ++ [600000000]⟩ ∧
      decimalRound ⟨81, 0, 9, false, List.replicate 8 999999999 ++ [600000000]⟩ none (-9) .halfUp =
        none) ∧
    WF ⟨0, 81, 9, false, List.replicate 8 0 ++ [4]⟩ ∧
      decimalRound ⟨0, 81, 9, false, List.replicate 8 0 ++ [4]⟩ none 80 .halfUp = none := by
  refine ⟨⟨⟨⟨by decide, by decide, by decide, by decide⟩, by decide, by decide⟩, by decide +kernel⟩,
    ⟨⟨by decide, by decide, by decide, by decide⟩, by decide, by decide⟩, by decide +kernel⟩

end

end Dec
