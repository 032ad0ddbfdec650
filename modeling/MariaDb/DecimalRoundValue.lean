/-
**Rounding of decimals: the rounded number.**

The digits that `decimal_round` keeps, and its decision to round away from zero, give the number that
the mode of rounding stands for: half of a unit away from zero, towards zero, and at the scale 0 the
floor and the ceiling.

Main definitions:

* `RoundsTo`: what a mode of rounding makes of a number.

Main results:

* `decimalRound_rounds_iff`: the result is the rounded number, unless the function leaves the
  buffer.
-/

import MariaDb.DecimalRoundDigits

set_option autoImplicit false

namespace Dec

open Decimal Nat

/-! ### Rounding of numbers -/

/-- `x` rounded at a scale by its magnitude, half of a unit away from zero. -/
def roundHalfAway (scale : ℤ) (x : ℚ) : ℚ :=
  SignType.sign x * ⌊|x| * 10 ^ scale + 1 / 2⌋ / 10 ^ scale

/-- `x` without the digits behind a scale. -/
def truncateAt (scale : ℤ) (x : ℚ) : ℚ := SignType.sign x * ⌊|x| * 10 ^ scale⌋ / 10 ^ scale

/-- What a mode of rounding makes of `x`; there are no digits behind the scale. -/
def RoundsTo (mode : RoundMode) (scale : ℤ) (x y : ℚ) : Prop :=
  (∃ n : ℤ, y * 10 ^ scale = n) ∧
    match mode with
    | .halfUp => y = roundHalfAway scale x
    | .truncate => y = truncateAt scale x
    | .floor => scale = 0 → y = ⌊x⌋
    | .ceiling => scale = 0 → y = ⌈x⌉
    | .halfEven => True

section
variable {q r U : ℕ}

theorem natCast_div_eq (hU : 0 < U) : ((U * q + r : ℕ) : ℚ) / U = q + r / U := by
  push_cast
  field_simp

theorem floor_add_half (hr : r < U) :
    ⌊((U * q + r : ℕ) : ℚ) / U + 1 / 2⌋ = q + if U ≤ 2 * r then 1 else 0 := by
  have hUq : (0 : ℚ) < U := by exact_mod_cast r.zero_le.trans_lt hr
  have hr' : (r : ℚ) < U := by exact_mod_cast hr
  rw [natCast_div_eq (by omega), Int.floor_eq_iff]
  split
  · next h =>
      have h' : (U : ℚ) ≤ 2 * r := by exact_mod_cast h
      have hge : 1 / 2 ≤ (r : ℚ) / U := by
        rw [div_le_div_iff₀ (by norm_num) hUq]
        linarith
      have hlt : (r : ℚ) / U < 1 := (div_lt_one hUq).mpr hr'
      push_cast
      constructor <;> linarith
  · next h =>
      have h' : 2 * (r : ℚ) < U := by exact_mod_cast not_le.mp h
      have hlt : (r : ℚ) / U < 1 / 2 := by
        rw [div_lt_div_iff₀ hUq (by norm_num)]
        linarith
      have hge : 0 ≤ (r : ℚ) / U := by positivity
      push_cast
      constructor <;> linarith

theorem ceil_natCast_div (hr : r < U) :
    ⌈((U * q + r : ℕ) : ℚ) / U⌉ = q + if r ≠ 0 then 1 else 0 := by
  have hUq : (0 : ℚ) < U := by exact_mod_cast r.zero_le.trans_lt hr
  have hlt : (r : ℚ) / U < 1 := (div_lt_one hUq).mpr (by exact_mod_cast hr)
  rw [natCast_div_eq (by omega), Int.ceil_eq_iff]
  split
  · next h =>
      have hpos : 0 < (r : ℚ) / U := by positivity
      push_cast
      constructor <;> linarith
  · next h =>
      rw [not_not.mp h]
      simp

end

section
variable {d : Decimal} {scale : ℤ}

section

variable (d : Decimal)

theorem Decimal.abs_value : |d.value| = d.mag / (digBase : ℚ) ^ roundUp d.frac := by
  have hnonneg : 0 ≤ (d.mag : ℚ) / (digBase : ℚ) ^ roundUp d.frac := by positivity
  rw [value]
  split <;> simp [abs_of_nonneg hnonneg]

theorem Decimal.value_eq_abs : d.value = (if d.sign then -1 else 1) * |d.value| := by
  rw [d.abs_value, value]

/-- Digits with the sign of a number, if there are none for zero. -/
theorem Decimal.sign_mul {x : ℚ} (hx : d.mag = 0 → x = 0) :
    SignType.sign d.value * x = (if d.sign then -1 else 1) * x := by
  rcases Nat.eq_zero_or_pos d.mag with h | h
  · rw [hx h, mul_zero, mul_zero]
  have hpos : 0 < (d.mag : ℚ) / (digBase : ℚ) ^ roundUp d.frac := by
    have : (0 : ℚ) < digBase := by norm_num [digBase]
    positivity
  rw [value]
  split
  · rw [neg_one_mul, Left.sign_neg, sign_pos hpos]
    simp
  · rw [one_mul, sign_pos hpos]
    simp

theorem Decimal.abs_value_mul (hlt : scale < d.frac) :
    |d.value| * 10 ^ scale = d.mag / ((10 ^ d.dropped scale : ℕ) : ℚ) := by
  have hfrac := roundUp_eq d.frac
  have hpow : (10 : ℚ) ^ (9 * roundUp d.frac : ℕ) = 10 ^ d.dropped scale * 10 ^ scale := by
    rw [← zpow_natCast, ← zpow_natCast, ← zpow_add₀ (by norm_num), dropped, digPerDec1]
    congr 1
    omega
  rw [d.abs_value, digBase_eq, cast_pow, cast_pow, cast_ofNat, ← pow_mul, hpow,
    div_mul_eq_mul_div, mul_div_mul_right _ _ (by positivity)]

/-- Half of a unit is where the digit behind the cut is five. -/
theorem half_le_iff (N T : ℕ) (hT : 0 < T) : 10 * T ≤ 2 * (N % (10 * T)) ↔ 5 ≤ N / T % 10 := by
  have hmod : N % (10 * T) = N % T + T * (N / T % 10) := by rw [mul_comm 10, mod_mul]
  have hlt := mod_lt N hT
  constructor
  · intro h
    by_contra h'
    have : T * (N / T % 10) ≤ T * 4 := mul_le_mul_left _ (by omega)
    omega
  · intro h
    have : T * 5 ≤ T * (N / T % 10) := mul_le_mul_left _ h
    omega

theorem Decimal.mag_eq_kept (scale : ℤ) :
    d.mag = 10 ^ d.dropped scale * d.kept scale + d.mag % 10 ^ d.dropped scale :=
  (div_add_mod _ _).symm

theorem Decimal.rounded_halfUp (hlt : scale < d.frac) :
    ⌊|d.value| * 10 ^ scale + 1 / 2⌋ = d.rounded scale .halfUp := by
  have hfrac := roundUp_eq d.frac
  obtain ⟨t, ht⟩ : ∃ t, d.dropped scale = t + 1 :=
    ⟨d.dropped scale - 1, by rw [dropped, digPerDec1]; omega⟩
  have hinc : d.increments scale .halfUp = true ↔
      10 ^ d.dropped scale ≤ 2 * (d.mag % 10 ^ d.dropped scale) := by
    rw [increments, if_neg (by simp [roundDigit]), ht, Nat.add_sub_cancel, pow_succ,
      mul_comm, half_le_iff _ _ (by positivity)]
    simp only [digitInc, roundDigit]
    simp
    omega
  rw [d.abs_value_mul hlt, d.mag_eq_kept scale, floor_add_half (mod_lt _ (by positivity)), rounded]
  simp only [hinc]
  push_cast
  rfl

theorem Decimal.floor_eq_kept (hlt : scale < d.frac) : ⌊|d.value| * 10 ^ scale⌋ = d.kept scale := by
  rw [d.abs_value_mul hlt, Rat.floor_natCast_div_natCast]
  rfl

end

theorem Decimal.rounded_of_ten {mode : RoundMode} (hdigit : roundDigit mode d.sign = 10) :
    d.rounded scale mode = d.kept scale := by
  have hinc : d.increments scale mode = false := by
    rw [increments, if_neg (by omega)]
    simp only [digitInc, hdigit]
    simp
    omega
  rw [rounded, hinc]
  rfl

theorem Decimal.rounded_of_zero {mode : RoundMode} (hlt : scale < d.frac)
    (hdigit : roundDigit mode d.sign = 0) (hdvd : (digPerDec1 : ℤ) ∣ scale) :
    ⌈|d.value| * 10 ^ scale⌉ = d.rounded scale mode := by
  have hinc : d.increments scale mode = true ↔ d.mag % 10 ^ d.dropped scale ≠ 0 := by
    rw [increments, if_pos ⟨hdigit, hdvd⟩, decide_eq_true_iff]
  rw [d.abs_value_mul hlt, d.mag_eq_kept scale, ceil_natCast_div (mod_lt _ (by positivity)),
    rounded]
  simp only [hinc]
  push_cast
  rfl

/-- A number without digits behind the scale. -/
theorem Decimal.Sound.exact (hd : d.Sound) (hlast : d.Trimmed)
    (hle : (d.frac : ℤ) ≤ scale) : ∃ m : ℕ, |d.value| * 10 ^ scale = m := by
  have hfrac := roundUp_eq d.frac
  obtain ⟨m, hm⟩ := hd.dvd_mag hlast
  refine ⟨m * 10 ^ (scale.toNat - d.frac), ?_⟩
  have hscale : (10 : ℚ) ^ scale = 10 ^ d.frac * 10 ^ (scale.toNat - d.frac) := by
    rw [← pow_add, ← zpow_natCast]
    congr 1
    omega
  have hpow : (10 : ℚ) ^ (9 * roundUp d.frac) =
      10 ^ (9 * roundUp d.frac - d.frac) * 10 ^ d.frac := by
    rw [← pow_add]
    congr 1
    omega
  rw [d.abs_value, digBase_eq, cast_pow, cast_ofNat, ← pow_mul, hm, hpow, hscale]
  push_cast
  field_simp

/-- The digits of the result are those of the rounded number. -/
theorem Decimal.Sound.roundsTo (hd : d.Sound) (hlast : d.Trimmed) (scale : ℤ) (mode : RoundMode) :
    RoundsTo mode scale d.value (d.roundedValue scale mode) := by
  have hpos : (10 : ℚ) ^ scale ≠ 0 := by positivity
  rw [roundedValue]
  split
  · -- all digits are dropped
    next hneg =>
    have hsmall : |d.value| * 10 ^ scale < 1 / 2 := by
      have hmag : d.mag * 10 < 10 ^ d.dropped scale := by
        calc d.mag * 10 < 10 ^ (d.intg + 9 * roundUp d.frac) * 10 :=
              mul_lt_mul_of_pos_right hd.mag_lt (by omega)
          _ = 10 ^ (d.intg + 9 * roundUp d.frac + 1) := (pow_succ _ _).symm
          _ ≤ 10 ^ d.dropped scale :=
              Nat.pow_le_pow_right (by omega) (by rw [dropped, digPerDec1]; omega)
      have hmag' : (d.mag : ℚ) * 10 < ((10 ^ d.dropped scale : ℕ) : ℚ) := by exact_mod_cast hmag
      rw [d.abs_value_mul (by omega), div_lt_iff₀ (by positivity)]
      linarith
    have hnonneg : 0 ≤ |d.value| * 10 ^ scale := by positivity
    have hfloor : ⌊|d.value| * 10 ^ scale⌋ = 0 := Int.floor_eq_zero_iff.mpr ⟨hnonneg, by linarith⟩
    have hhalf : ⌊|d.value| * 10 ^ scale + 1 / 2⌋ = 0 :=
      Int.floor_eq_zero_iff.mpr ⟨by linarith, by linarith⟩
    refine ⟨⟨0, by simp⟩, ?_⟩
    cases mode with
    | truncate => simp [truncateAt, hfloor]
    | halfUp => simp only [roundHalfAway, hhalf]; simp
    | halfEven => trivial
    | floor | ceiling => exact fun h0 => absurd hneg (by omega)
  split
  · -- no digit is dropped
    next hneg hle =>
    obtain ⟨m, hm⟩ := hd.exact hlast hle
    have hvalue : d.value = SignType.sign d.value * (m : ℤ) / 10 ^ scale := by
      rw [Int.cast_natCast, ← hm, ← mul_assoc, sign_mul_abs, mul_div_cancel_right₀ _ hpos]
    have hhalf : ⌊(m : ℚ) + 1 / 2⌋ = m := by
      norm_num
    have hn : ∃ n : ℤ, d.value * 10 ^ scale = n := by
      have hsign : d.value * 10 ^ scale = SignType.sign d.value * (|d.value| * 10 ^ scale) := by
        rw [← mul_assoc, sign_mul_abs]
      exact ⟨SignType.sign d.value * m, by rw [hsign, hm]; simp⟩
    refine ⟨hn, ?_⟩
    cases mode with
    | truncate => rwa [truncateAt, hm, Int.floor_natCast]
    | halfUp => rwa [roundHalfAway, hm, hhalf]
    | halfEven => trivial
    | floor =>
      rintro rfl
      obtain ⟨n, hn⟩ := hn
      rw [zpow_zero, mul_one] at hn
      rw [hn, Int.floor_intCast]
    | ceiling =>
      rintro rfl
      obtain ⟨n, hn⟩ := hn
      rw [zpow_zero, mul_one] at hn
      rw [hn, Int.ceil_intCast]
  next hneg hle =>
  have hlt : scale < d.frac := by omega
  have hscale (x : ℚ) : x / 10 ^ scale = x * 10 ^ (-scale) := by rw [zpow_neg, div_eq_mul_inv]
  refine ⟨⟨(if d.sign then -1 else 1) * d.rounded scale mode, ?_⟩, ?_⟩
  · rw [mul_assoc, mul_assoc, ← zpow_add₀ (by norm_num), neg_add_cancel, zpow_zero, mul_one]
    push_cast
    rfl
  cases mode with
  | truncate =>
    rw [truncateAt, d.floor_eq_kept hlt, rounded_of_ten rfl, Int.cast_natCast,
      d.sign_mul fun h => by simp [kept, h], hscale, mul_assoc]
  | halfUp =>
    rw [roundHalfAway, d.rounded_halfUp hlt, Int.cast_natCast, d.sign_mul, hscale, mul_assoc]
    intro h
    simp [rounded, kept, increments, digitInc, roundDigit, h]
  | halfEven => trivial
  | floor =>
    rintro rfl
    have hdown := d.floor_eq_kept hlt
    have hup := @rounded_of_zero d 0 .floor hlt
    have hten := @rounded_of_ten d 0 .floor
    rw [zpow_zero, mul_one] at hdown hup
    rw [d.value_eq_abs]
    cases hsign : d.sign with
    | false => simp [hten (by rw [hsign]; rfl), hdown]
    | true => simp [hup (by rw [hsign]; rfl) (dvd_zero _), Int.floor_neg]
  | ceiling =>
    rintro rfl
    have hdown := d.floor_eq_kept hlt
    have hup := @rounded_of_zero d 0 .ceiling hlt
    have hten := @rounded_of_ten d 0 .ceiling
    rw [zpow_zero, mul_one] at hdown hup
    rw [d.value_eq_abs]
    cases hsign : d.sign with
    | false => simp [hup (by rw [hsign]; rfl) (dvd_zero _)]
    | true => simp [hten (by rw [hsign]; rfl), hdown, Int.ceil_neg]

/-- `decimal_round` gives the rounded number, unless the call is one of `Overrun` or reports an
error. -/
theorem decimalRound_rounds_iff (hd : d.Sound) (hlast : d.Trimmed) (dst : Option (List ℕ))
    (scale : ℤ) (mode : RoundMode) :
    (∃ error r, decimalRound d dst scale mode = some (error, r) ∧
      (error = .ok → RoundsTo mode scale d.value r.value)) ↔ ¬ Overrun d scale mode := by
  rcases decimalRound_spec hd dst scale mode with ⟨h, hres⟩ | ⟨h, error, r, hres, -, hval⟩
  · refine iff_of_false ?_ (not_not.mpr h)
    rintro ⟨error, r, hr, -⟩
    rw [hres] at hr
    cases hr
  · refine iff_of_true ⟨error, r, hres, fun hok => ?_⟩ h
    rw [hval hok]
    exact hd.roundsTo hlast scale mode

/-- An instance: -1.5 at the scale 0. -/
theorem decimalRound_rounds_iff_sample :
    (∃ error r, decimalRound ⟨1, 1, 9, true, [1, 500000000]⟩ none 0 .halfUp = some (error, r) ∧
      (error = .ok → RoundsTo .halfUp 0 (value ⟨1, 1, 9, true, [1, 500000000]⟩) r.value)) ↔
      ¬ Overrun ⟨1, 1, 9, true, [1, 500000000]⟩ 0 .halfUp :=
  decimalRound_rounds_iff ⟨by decide, by decide, by decide, by decide⟩ (fun _ => by decide) _ _ _

/-- Eight words of nines, and one more. -/
def nines : Decimal := ⟨81, 0, 9, false, List.replicate 8 999999999 ++ [500000000]⟩

/-- Rounding `nines` at a word writes behind the buffer, so that it is not rounded there. -/
theorem round_nines_overruns :
    WF nines ∧ ¬ ∃ error r, decimalRound nines none (-9) .halfUp = some (error, r) ∧
      (error = .ok → RoundsTo .halfUp (-9) nines.value r.value) := by
  have hnone : decimalRound nines none (-9) .halfUp = none := by decide +kernel
  refine ⟨⟨⟨by decide, by decide, by decide, by decide⟩, by decide, by decide⟩, ?_⟩
  rintro ⟨error, r, hr, -⟩
  rw [hnone] at hr
  cases hr

end

end Dec
