/-
**Rounding of decimals.**

`decimal_round` cuts a decimal at a number of digits behind the point, or in front of it if the number
is negative.  It works on the words of the buffer: a cut between two words looks at the words that are
dropped, and a cut inside of a word at the digit behind it.  A carry that leaves the first word shifts
all words by one, and a result of zero is built anew.

Every access to a buffer is checked here against its length, and a call that leaves the buffer, or the
range of an `int`, gives nothing.  The loops that write zeros or move words are given by the range that
they write.  The result is written to another buffer of the same length or, without one, in place.

Main definitions:

* `decimalRound`: the function;
* `GoodResult`: a call that stays inside of the buffer and gives the number that it should.

Main results:

* `roundCarry_spec`: the loop that hands a carry on;
* `roundSettle_spec`: what the last part makes of the words that are kept.
-/

import MariaDb.DecimalBin

set_option autoImplicit false

namespace Dec

open Radix List Option Nat

/-! ### Buffers -/

/-- A buffer of `len` words; words that are not given are 0. -/
def bufferOf (len : ℕ) (ws : List ℕ) : List ℕ := padTo len ws

def wordAt (buf : List ℕ) (i : ℤ) : Option ℕ := if 0 ≤ i then buf[i.toNat]? else none

def setWord (buf : List ℕ) (i : ℤ) (w : ℕ) : Option (List ℕ) :=
  if 0 ≤ i ∧ i < buf.length then some (buf.set i.toNat w) else none

/-- Writing zeros from the word `i` to the word before `j`. -/
def clearWords (buf : List ℕ) (i j : ℤ) : Option (List ℕ) :=
  if i < j then
    if 0 ≤ i ∧ j ≤ buf.length then
      some (buf.take i.toNat ++ List.replicate (j - i).toNat 0 ++ buf.drop j.toNat)
    else none
  else some buf

/-- Copying the first `n` words of a buffer to another one. -/
def copyWords (src dst : List ℕ) (n : ℤ) : Option (List ℕ) :=
  if n ≤ src.length ∧ n ≤ dst.length then some (src.take n.toNat ++ dst.drop n.toNat) else none

/-! ### The function -/

/-- `decimal_round_mode` -/
inductive RoundMode
  | truncate
  | halfEven
  | halfUp
  | ceiling
  | floor
  deriving DecidableEq, Repr

variable (d : Decimal) (mode : RoundMode)

def roundDigit (sign : Bool) : ℕ :=
  match mode with
  | .halfUp => 5
  | .halfEven => 5
  | .ceiling => if sign then 10 else 0
  | .floor => if sign then 0 else 10
  | .truncate => 10

/-- `do_inc`, for a cut in front of the word `k`; the words from `k` to the one before `stop` are
dropped. -/
def roundInc (sign : Bool) (buf : List ℕ) (k stop : ℤ) : Option Bool :=
  match roundDigit mode sign with
  | 0 => if stop ≤ buf.length then
        some (((buf.take stop.toNat).drop k.toNat).any fun w => w ≠ 0)
      else none
  | 5 => do
      let w ← wordAt buf k
      let x := w / 100000000
      if x = 5 ∧ mode ≠ .halfUp ∧ 0 < k then
        let prev ← wordAt buf (k - 1)
        some (prev % 2 = 1)
      else some (x > 5 ∨ (x = 5 ∧ mode = .halfUp))
  | _ => some false

/-- Whether the digit `y` behind the cut makes the number `x` of the digits up to it round up. -/
def digitInc (sign : Bool) (x y : ℕ) : Bool :=
  y > roundDigit mode sign ∨ (roundDigit mode sign = 5 ∧ y = 5 ∧ (mode = .halfUp ∨ x / 10 % 2 = 1))

/-- Rounding inside of a word, where `pos` digits follow the one behind the cut. -/
def roundWord (sign : Bool) (pos w : ℕ) : ℕ :=
  let x := w / powers10 pos
  let y := x % 10
  let x := if digitInc mode sign x y then x + 10 else x
  powers10 pos * (x - y)

/-- The loop that hands a carry on, over the words in front of the cut from the last one on: the carry
that is left, the words, and the word at which the loop stopped. -/
def roundCarry : List ℕ → ℕ × List ℕ × ℕ
  | [] => (1, [], 0)
  | w :: ws =>
    if w + 1 ≥ digBase then
      let (carry, ws, last) := roundCarry ws
      (carry, (w + 1 - digBase) :: ws, last)
    else (0, (w + 1) :: ws, w + 1)

/-- What stays the same in the last part of `decimal_round`. -/
structure RoundCall where
  len : ℕ
  intg0 : ℕ
  frac1 : ℕ
  sign : Bool

def Decimal.roundCall : RoundCall :=
  ⟨d.len, roundUp d.intg, roundUp d.frac, d.sign⟩

/-- The end of `decimal_round`: the words that were dropped are cleared, and `intg` is increased if
the word `last` has more digits than the first word should. -/
def roundFinish (c : RoundCall) (error : DecError) (intg intg0 : ℕ) (frac0 scale : ℤ) (last : ℕ)
    (buf : List ℕ) : Option (DecError × Decimal) := do
  let buf ← if frac0 < c.frac1 then
      clearWords buf (if scale = 0 ∧ intg0 = 0 then 1 else intg0 + frac0) c.len
    else some buf
  let firstDig := intg % digPerDec1
  let intg := if firstDig ≠ 0 ∧ last ≥ powers10 firstDig then intg + 1 else intg
  some (error, ⟨intg, scale.toNat, c.len, c.sign, buf⟩)

/-- The part of `decimal_round` after the word `i` has got the value `w`. -/
def roundSettle (c : RoundCall) (error : DecError) (intg : ℕ) (frac0 scale : ℤ) (buf : List ℕ)
    (i : ℤ) (w : ℕ) : Option (DecError × Decimal) :=
  if w ≥ digBase then do
    let buf ← setWord buf i (w - digBase)
    let (carry, ws, last) := roundCarry (buf.take i.toNat).reverse
    let buf := ws.reverse ++ buf.drop i.toNat
    if carry ≠ 0 then
      -- shifting the number to create space for new digit
      let full := frac0 + c.intg0 ≥ c.len
      let frac0 := if full then frac0 - 1 else frac0
      let scale := if full then frac0 * digPerDec1 else scale
      let error := if full then .truncated else error
      let n := c.intg0 + frac0.toNat
      if n < c.len then
        roundFinish c error (intg + 1) (c.intg0 + 1) frac0 scale 1
          (1 :: buf.take n ++ buf.drop (n + 1))
      else none
    else roundFinish c error intg c.intg0 frac0 scale last buf
  else do
    let buf ← setWord buf i w
    match (buf.take (i.toNat + 1)).reverse.find? (· ≠ 0) with
    | some last => roundFinish c error intg c.intg0 frac0 scale last buf
    | none =>
      -- making 'zero' with the proper scale
      let buf ← clearWords buf 0 (frac0 + 1)
      some (.ok, ⟨1, scale.toNat, c.len, false, buf⟩)

/-- `decimal_make_zero(to)` at the end of `decimal_round`. -/
def roundZero (len : ℕ) : Option (DecError × Decimal) :=
  if 0 < len then some (.ok, decimalMakeZero len) else none

/-- The part of `decimal_round` after the words have been copied. -/
def roundWords (mode : RoundMode) (error : DecError) (intg : ℕ) (frac0 scale : ℤ)
    (buf : List ℕ) : Option (DecError × Decimal) :=
  let c := d.roundCall
  if frac0 > c.frac1 then do
    let buf ← clearWords buf (c.intg0 + c.frac1) (c.intg0 + frac0)
    some (error, ⟨intg, scale.toNat, d.len, d.sign, buf⟩)
  else if scale ≥ d.frac then some (error, ⟨intg, scale.toNat, d.len, d.sign, buf⟩)
  else
    let k := c.intg0 + frac0
    if scale = frac0 * digPerDec1 then do
      let inc ← roundInc mode d.sign buf k (c.intg0 + c.frac1)
      if inc then
        if k > 0 then
          let w ← wordAt buf (k - 1)
          roundSettle c error intg frac0 scale buf (k - 1) (w + 1)
        else roundSettle c error intg frac0 scale buf 0 digBase
      else if k = 0 then roundZero d.len
      else
        let w ← wordAt buf (k - 1)
        roundSettle c error intg frac0 scale buf (k - 1) w
    else do
      let w ← wordAt buf (k - 1)
      roundSettle c error intg frac0 scale buf (k - 1)
        (roundWord mode d.sign (frac0 * digPerDec1 - scale - 1).toNat w)

/-- `frac0` at the start of `decimal_round` -/
def cutWord (scale : ℤ) : ℤ := if scale > 0 then roundUp scale.toNat else scale.tdiv digPerDec1

/-- `decimal_round`, to a buffer of the same length or in place.  For a scale next to the largest
`int`, `ROUND_UP` overflows. -/
def decimalRound (dst : Option (List ℕ)) (scale : ℤ) (mode : RoundMode) :
    Option (DecError × Decimal) :=
  let frac1 := roundUp d.frac
  let intg0 := roundUp d.intg
  let overflows := scale + (digPerDec1 - 1) > 2147483647
  let frac0 := cutWord scale
  let exceeds := frac0 + intg0 > d.len
  let frac0 := if exceeds then (d.len : ℤ) - intg0 else frac0
  let scale := if exceeds then frac0 * digPerDec1 else scale
  let error := if exceeds then DecError.truncated else .ok
  if overflows then none
  else if scale + d.intg < 0 then roundZero d.len
  else
    match dst with
    | none => roundWords d mode error d.intg frac0 scale (bufferOf d.len d.buf)
    | some dst => do
        let buf ← copyWords (bufferOf d.len d.buf) (bufferOf d.len dst) (intg0 + max (frac1 : ℤ) frac0)
        roundWords d mode error (min intg0 d.len * digPerDec1) frac0 scale buf

/-! ### The parts of the function -/

theorem roundCarry_spec {ws : List ℕ} (hws : ∀ w ∈ ws, w < digBase) :
    (roundCarry ws).1 ≤ 1 ∧ (roundCarry ws).2.1.length = ws.length ∧
      (∀ w ∈ (roundCarry ws).2.1, w < digBase) ∧
      val digBase (roundCarry ws).2.1.reverse + (roundCarry ws).1 * digBase ^ ws.length =
        val digBase ws.reverse + 1 := by
  induction ws with
  | nil => simp [roundCarry]
  | cons w ws ih =>
    rw [forall_mem_cons] at hws
    obtain ⟨h1, h2, h3, h4⟩ := ih hws.2
    rw [roundCarry]
    split
    · have hw : w + 1 = digBase := by have := hws.1; omega
      simp only [hw, Nat.sub_self, length_cons, forall_mem_cons, reverse_cons, val_concat]
      refine ⟨h1, by rw [h2], ⟨by norm_num [digBase], h3⟩, ?_⟩
      linear_combination digBase * h4 + hw.symm
    · simp only [length_cons, forall_mem_cons, reverse_cons, val_concat]
      exact ⟨by omega, trivial, ⟨by omega, hws.2⟩, by ring⟩

theorem setWord_of_lt {buf : List ℕ} {i : ℕ} (h : i < buf.length) (w : ℕ) :
    setWord buf i w = some (buf.set i w) := by
  rw [setWord, if_pos ⟨Int.natCast_nonneg i, Int.ofNat_lt.mpr h⟩, Int.toNat_natCast]

theorem mag_eq_take : d.mag = val digBase (d.buf.take (roundUp d.intg + roundUp d.frac)) := by
  rw [Decimal.mag, Decimal.intWords, Decimal.fracWords, ← take_add]

/-- The number with the words `V` up to a cut behind `frac0` words of the fraction. -/
def cutValue (sign : Bool) (V : ℕ) (frac0 : ℤ) : ℚ :=
  (if sign then -1 else 1) * (V * (digBase : ℚ) ^ (-frac0))

/-- The call stays inside of the buffer, the result fits into it, and unless there is an error it
stands for the words `V` up to the cut. -/
def GoodResult (c : RoundCall) (frac0 : ℤ) (V : ℕ) (res : Option (DecError × Decimal)) : Prop :=
  ∃ error r, res = some (error, r) ∧ roundUp r.intg + roundUp r.frac ≤ c.len ∧
    (error = .ok → r.value = cutValue c.sign V frac0)

theorem pow_toNat_div (f : ℤ) :
    (digBase : ℚ) ^ (-f).toNat / digBase ^ f.toNat = (digBase : ℚ) ^ (-f) := by
  have hne : (digBase : ℚ) ≠ 0 := by norm_num [digBase]
  rw [← zpow_natCast, ← zpow_natCast, ← zpow_sub₀ hne]
  congr 1
  omega

section
variable {c : RoundCall} {error : DecError} {intg intg0 : ℕ} {frac0 scale : ℤ} {buf : List ℕ}

/-- A result whose words up to the cut are given, with zeros behind them. -/
theorem value_of_take {frac len : ℕ} {sign : Bool} {ws : List ℕ} (hintg : roundUp intg = intg0)
    (hfrac : roundUp frac = frac0.toNat)
    (htake : buf.take (intg0 + frac0.toNat) = ws ++ List.replicate (-frac0).toNat 0) :
    (⟨intg, frac, len, sign, buf⟩ : Decimal).value = cutValue sign (val digBase ws) frac0 := by
  rw [Decimal.value, mag_eq_take]
  simp only [hintg, hfrac, htake, val_append_zeros, cutValue]
  rw [← pow_toNat_div]
  push_cast
  ring

theorem roundFinish_spec (error : DecError) (hbuf : buf.length = c.len) {s : ℕ}
    (hs : (intg0 : ℤ) + frac0 = s) (hne : ¬ (scale = 0 ∧ intg0 = 0)) (hintg : roundUp intg = intg0)
    (hcut : roundUp scale.toNat = frac0.toNat) (hlen : intg0 + frac0.toNat ≤ c.len)
    (hle : frac0 ≤ c.frac1) (last : ℕ) :
    ∃ r, roundFinish c error intg intg0 frac0 scale last buf = some (error, r) ∧
      roundUp r.intg + roundUp r.frac ≤ c.len ∧
      r.value = cutValue c.sign (val digBase (buf.take s)) frac0 := by
  -- one more digit does not change the number of words
  have hgrow : roundUp (if intg % digPerDec1 ≠ 0 ∧ last ≥ powers10 (intg % digPerDec1) then intg + 1
      else intg) = intg0 := by
    rw [← hintg, roundUp_eq, roundUp_eq, digPerDec1]
    split <;> omega
  by_cases hlt : frac0 < c.frac1
  · have hclear : clearWords buf (intg0 + frac0) c.len =
        some (buf.take s ++ List.replicate (c.len - s) 0) := by
      rw [hs, clearWords]
      by_cases hsl : s < c.len
      · rw [if_pos (by omega), if_pos (by omega), drop_of_length_le (by simp [hbuf])]
        simp only [Int.toNat_natCast, append_nil]
        congr 3
        omega
      · rw [if_neg (by omega), take_of_length_le (by omega), Nat.sub_eq_zero_of_le (by omega)]
        simp
    simp only [roundFinish, if_pos hlt, if_neg hne, hclear]
    refine ⟨_, rfl, ?_, value_of_take hgrow hcut ?_⟩
    · simp only [hgrow, hcut]
      exact hlen
    · rw [take_append, take_take, take_replicate, length_take]
      congr 2 <;> omega
  · simp only [roundFinish, if_neg hlt]
    refine ⟨_, rfl, ?_, value_of_take hgrow hcut ?_⟩
    · simp only [hgrow, hcut]
      exact hlen
    have hzero : (-frac0).toNat = 0 := by omega
    rw [hzero, replicate_zero, append_nil]
    congr 1
    omega

/-- Words that are all zero before the cut are replaced by a zero with the digits behind the point. -/
theorem zeroResult_spec (hbuf : buf.length = c.len) {k : ℕ} (hpos : 0 < k) (hlen : k ≤ c.len)
    (hcut : roundUp scale.toNat = frac0.toNat)
    (hzero : val digBase (buf.take k) = 0) (hroom : frac0 + 1 ≤ c.len) :
    GoodResult c frac0 0 (do
      let buf ← clearWords buf 0 (frac0 + 1)
      some (.ok, ⟨1, scale.toNat, c.len, false, buf⟩)) := by
  have hone : roundUp 1 = 1 := rfl
  have hword : ∀ w ∈ buf.take 1, w = 0 := fun w hw =>
    (val_eq_zero_iff (by norm_num [digBase])).mp hzero w
      ((take_prefix_take_left (by omega)).subset hw)
  obtain ⟨buf', hclear, hbuf'⟩ : ∃ buf', clearWords buf 0 (frac0 + 1) = some buf' ∧
      ∀ w ∈ buf'.take (1 + frac0.toNat), w = 0 := by
    by_cases hneg : frac0 + 1 ≤ 0
    · refine ⟨buf, if_neg (by omega), ?_⟩
      rwa [show 1 + frac0.toNat = 1 by omega]
    refine ⟨_, by rw [clearWords, if_pos (by omega), if_pos (by omega)], ?_⟩
    intro w hw
    rw [Int.toNat_zero, take_zero, nil_append,
      take_append_of_le_length (by rw [length_replicate]; omega)] at hw
    exact eq_of_mem_replicate (mem_of_mem_take hw)
  refine ⟨.ok, _, by rw [hclear]; rfl, ?_, fun _ => ?_⟩
  · simp only [hone, hcut]
    omega
  · rw [cutValue, cast_zero, zero_mul, mul_zero, Decimal.value_eq_zero_iff, mag_eq_take]
    simp only [hone, hcut]
    exact (val_eq_zero_iff (by norm_num [digBase])).mpr hbuf'

/-- The carry leaves the first word: all words are shifted by one, unless the integer part fills the
buffer. -/
theorem shift_spec (hbuf : buf.length = c.len) {k : ℕ} (hk : (c.intg0 : ℤ) + frac0 = k)
    (hzero : ∀ w ∈ buf.take k, w = 0) (hcut : roundUp scale.toNat = frac0.toNat)
    (hle : frac0 ≤ c.frac1) (hfit : c.intg0 + c.frac1 ≤ c.len)
    (hgrow : roundUp (intg + 1) = c.intg0 + 1) (hroom : c.intg0 < c.len) {frac0' scale' : ℤ}
    {error' : DecError} (hfrac' : frac0' = if frac0 + c.intg0 ≥ c.len then frac0 - 1 else frac0)
    (hscale' : scale' = if frac0 + c.intg0 ≥ c.len then frac0' * digPerDec1 else scale)
    (herror' : error' = if frac0 + c.intg0 ≥ c.len then .truncated else error) :
    GoodResult c frac0 (digBase ^ k)
      (if c.intg0 + frac0'.toNat < c.len then
        roundFinish c error' (intg + 1) (c.intg0 + 1) frac0' scale' 1
          (1 :: buf.take (c.intg0 + frac0'.toNat) ++ buf.drop (c.intg0 + frac0'.toNat + 1))
      else none) := by
  have hn : c.intg0 + frac0'.toNat < c.len := by
    rw [hfrac']
    split <;> omega
  have hnew : (1 :: buf.take (c.intg0 + frac0'.toNat) ++
      buf.drop (c.intg0 + frac0'.toNat + 1)).length = c.len := by
    simp only [length_append, length_cons, length_take, length_drop, hbuf]
    omega
  have hcut' : roundUp scale'.toNat = frac0'.toNat := by
    rw [hscale']
    split
    · rw [roundUp_eq, digPerDec1]
      omega
    · rw [hcut, hfrac', if_neg ‹_›]
  have hs : ((c.intg0 + 1 : ℕ) : ℤ) + frac0' = (c.intg0 + 1 + frac0').toNat := by
    rw [hfrac']
    split <;> omega
  obtain ⟨r, hr, hlen, hval⟩ := roundFinish_spec error' hnew hs (by omega) hgrow hcut'
    (by omega) (by rw [hfrac']; split <;> omega) 1
  rw [if_pos hn]
  refine ⟨error', r, hr, hlen, fun hok => ?_⟩
  -- without an error the cut is where it was
  have hfull : ¬ frac0 + c.intg0 ≥ c.len := by
    intro h
    rw [herror', if_pos h] at hok
    exact absurd hok (by decide)
  rw [if_neg hfull] at hfrac'
  have hword : val digBase (buf.take k) = 0 :=
    (val_eq_zero_iff (by norm_num [digBase])).mpr hzero
  rw [hval, hfrac']
  congr 1
  rw [show ((c.intg0 : ℤ) + 1 + frac0).toNat = k + 1 by omega, cons_append,
    take_succ_cons, take_append_of_le_length (by rw [length_take]; omega),
    take_take, min_eq_left (by omega), val_cons, hword, length_take]
  simp only [one_mul, add_zero]
  congr 1
  omega

variable (error) {i k w V : ℕ} (hbuf : buf.length = c.len) (hi : i < c.len)
  (hws : ∀ w ∈ buf.take i, w < digBase) (hk : (c.intg0 : ℤ) + frac0 = k)
  (hV : val digBase (buf.take i) * digBase + w = V * digBase ^ (i + 1 - k))
  (hcut : roundUp scale.toNat = frac0.toNat) (hle : frac0 ≤ c.frac1)
  (hfit : c.intg0 + c.frac1 ≤ c.len) (hintg : roundUp intg = c.intg0)

include hk hcut hle hfit hintg in
/-- The end of the function after a step that leaves the words `V` up to the cut. -/
theorem roundFinish_good (hbuf : buf.length = c.len) (hpos : 0 < k)
    (hval : val digBase (buf.take k) = V) (last : ℕ) :
    GoodResult c frac0 V (roundFinish c error intg c.intg0 frac0 scale last buf) := by
  have hne : ¬ (scale = 0 ∧ c.intg0 = 0) := by
    rintro ⟨rfl, h⟩
    rw [Int.toNat_zero, show roundUp 0 = 0 from rfl] at hcut
    omega
  obtain ⟨r, hr, hrlen, hrval⟩ :=
    roundFinish_spec error hbuf hk hne hintg hcut (by omega) hle last
  exact ⟨error, r, hr, hrlen, fun _ => by rw [hrval, hval]⟩

include hbuf hi hws hk hV hcut hle hfit hintg in
theorem roundSettle_carry (hw : w = digBase) (hik : i + 1 = k ∨ (k = 0 ∧ i = 0))
    (hgrow : V = digBase ^ k → roundUp (intg + 1) = c.intg0 + 1) :
    0 < V ∧ if V = digBase ^ k ∧ c.intg0 = c.len then
      roundSettle c error intg frac0 scale buf i w = none
    else GoodResult c frac0 V (roundSettle c error intg frac0 scale buf i w) := by
  subst hw
  have hpos : 0 < digBase := by norm_num [digBase]
  have htake : (buf.take i).length = i := by rw [length_take]; omega
  have hlt : val digBase (buf.take i) < digBase ^ i := by
    have := val_lt one_lt_digBase hws
    rwa [htake] at this
  have hpre : (buf.set i 0).take i = buf.take i := take_set_of_le (le_refl i)
  obtain ⟨h1, h2, h3, h4⟩ := @roundCarry_spec (buf.take i).reverse
    (fun w hw => hws w (mem_reverse.mp hw))
  rw [length_reverse, htake] at h2
  rw [length_reverse, htake, reverse_reverse] at h4
  rw [roundSettle, if_pos (le_refl digBase), setWord_of_lt (by omega), Nat.sub_self,
    bind_eq_bind, bind_some, Int.toNat_natCast, hpre]
  generalize roundCarry (buf.take i).reverse = res at h1 h2 h3 h4 ⊢
  obtain ⟨carry, ws, last⟩ := res
  simp only at h1 h2 h3 h4 ⊢
  -- the words after the carry has been handed on
  have hdrop : (buf.set i 0).drop i = 0 :: (buf.set i 0).drop (i + 1) := by
    rw [drop_eq_getElem_cons (by rw [length_set]; omega), getElem_set_self]
  have hlen' : (ws.reverse ++ (buf.set i 0).drop i).length = c.len := by
    rw [length_append, length_reverse, h2, length_drop, length_set, hbuf]
    omega
  have htop : (ws.reverse ++ (buf.set i 0).drop i).take (i + 1) = ws.reverse ++ [0] := by
    rw [hdrop, take_append, take_of_length_le (by rw [length_reverse]; omega),
      length_reverse, h2, Nat.add_sub_cancel_left, take_succ_cons, take_zero]
  have hVpos : 0 < V := by
    rcases Nat.eq_zero_or_pos V with h | h
    · rw [h, zero_mul] at hV
      omega
    · exact h
  refine ⟨hVpos, ?_⟩
  by_cases hcarry : carry = 0
  · -- the carry ends inside of the number
    subst hcarry
    rw [zero_mul, add_zero] at h4
    have hwslt : val digBase ws.reverse < digBase ^ i := by
      have := @Radix.val_lt digBase one_lt_digBase ws.reverse (fun w hw => h3 w (mem_reverse.mp hw))
      rwa [length_reverse, h2] at this
    have hki : i + 1 = k := by
      rcases hik with h | ⟨-, rfl⟩
      · exact h
      · rw [pow_zero] at hwslt
        omega
    rw [hki, Nat.sub_self, pow_zero, mul_one, ← Nat.succ_mul] at hV
    have hVlt : V < digBase ^ k := by
      rw [← hV, ← hki, pow_succ, succ_eq_add_one, ← h4]
      exact mul_lt_mul_of_pos_right hwslt hpos
    rw [if_neg (by omega), if_neg (not_not.mpr rfl)]
    refine roundFinish_good error hk hcut hle hfit hintg hlen' (by omega) ?_ last
    rw [← hki, htop, val_concat, h4, ← hV, add_zero]
  · -- all words in front of the cut are 999999999
    obtain rfl : carry = 1 := by omega
    have hzero : val digBase ws.reverse = 0 := by omega
    have hVk : V = digBase ^ k := by
      have hmul : V * digBase ^ (i + 1 - k) = digBase ^ k * digBase ^ (i + 1 - k) := by
        rw [← hV, ← succ_mul, show (val digBase (buf.take i)).succ = digBase ^ i by omega,
          ← pow_succ, ← pow_add]
        congr 1
        omega
      exact eq_of_mul_eq_mul_right (by positivity) hmul
    rw [if_pos (show 1 ≠ 0 by decide)]
    by_cases hroom : c.intg0 = c.len
    · rw [if_pos ⟨hVk, hroom⟩]
      refine if_neg ?_
      split <;> omega
    rw [if_neg fun h : V = digBase ^ k ∧ c.intg0 = c.len => hroom h.2, hVk]
    refine shift_spec hlen' hk (fun w hw => ?_) hcut hle hfit (hgrow hVk) (by omega) rfl rfl rfl
    have hmem : w ∈ ws.reverse ++ [0] := by
      rw [← htop]
      exact (take_prefix_take_left (by omega)).subset hw
    rcases mem_append.mp hmem with h | h
    · exact (val_eq_zero_iff hpos).mp hzero w h
    · exact mem_singleton.mp h

include hbuf hi hws hk hV hcut hle hfit hintg in
theorem roundSettle_plain (hw : w < digBase) (hik : i + 1 = k) :
    V < digBase ^ k ∧ if V = 0 ∧ (c.len : ℤ) < frac0 + 1 then
      roundSettle c error intg frac0 scale buf i w = none
    else GoodResult c frac0 V (roundSettle c error intg frac0 scale buf i w) := by
  subst hik
  rw [Nat.sub_self, pow_zero, mul_one] at hV
  have htop : (buf.set i w).take (i + 1) = buf.take i ++ [w] := by
    rw [take_add_one, take_set_of_le (le_refl i), getElem?_set_self (by omega)]
    rfl
  have hval : val digBase ((buf.set i w).take (i + 1)) = V := by
    rw [htop, val_concat, hV]
  have hlen' : (buf.set i w).length = c.len := by rw [length_set, hbuf]
  have hVlt : V < digBase ^ (i + 1) := by
    have hmem : ∀ x ∈ buf.take i ++ [w], x < digBase := by
      simpa [or_imp, forall_and] using ⟨hws, hw⟩
    have := val_lt one_lt_digBase hmem
    rwa [← htop, hval, length_take, hlen', min_eq_left hi] at this
  refine ⟨hVlt, ?_⟩
  rw [roundSettle, if_neg (show ¬ w ≥ digBase by omega), setWord_of_lt (by omega),
    bind_eq_bind, bind_some, Int.toNat_natCast]
  cases hfind : ((buf.set i w).take (i + 1)).reverse.find? (· ≠ 0) with
  | some last =>
    have hne : V ≠ 0 := by
      intro h0
      rw [h0, val_eq_zero_iff (by norm_num [digBase])] at hval
      have := find?_some hfind
      have := hval last (mem_reverse.mp (mem_of_find?_eq_some hfind))
      simp_all
    rw [if_neg (fun h => hne h.1)]
    exact roundFinish_good error hk hcut hle hfit hintg hlen' (succ_pos i) hval last
  | none =>
    have h0 : V = 0 := by
      rw [← hval, val_eq_zero_iff (by norm_num [digBase])]
      intro x hx
      simpa using find?_eq_none.mp hfind x (mem_reverse.mpr hx)
    subst h0
    by_cases hroom : (c.len : ℤ) < frac0 + 1
    · rw [if_pos ⟨rfl, hroom⟩]
      simp only [clearWords, if_pos (show (0 : ℤ) < frac0 + 1 by omega), hlen']
      rw [if_neg (by omega)]
      rfl
    · rw [if_neg (fun h => hroom h.2)]
      exact zeroResult_spec hlen' (succ_pos i) hi hcut hval (by omega)

/-- What the last part of `decimal_round` makes of the words `V` up to the cut.  There are two ways
out of the buffer: a zero with too many digits behind the point, and a carry out of an integer part
that fills the buffer. -/
theorem roundSettle_spec (hbuf : buf.length = c.len) (hi : i < c.len)
    (hws : ∀ w ∈ buf.take i, w < digBase) (hw : w ≤ digBase) (hk : (c.intg0 : ℤ) + frac0 = k)
    (hik : i + 1 = k ∨ (k = 0 ∧ i = 0 ∧ w = digBase))
    (hV : val digBase (buf.take i) * digBase + w = V * digBase ^ (i + 1 - k))
    (hcut : roundUp scale.toNat = frac0.toNat) (hle : frac0 ≤ c.frac1)
    (hfit : c.intg0 + c.frac1 ≤ c.len) (hintg : roundUp intg = c.intg0)
    (hgrow : V = digBase ^ k → roundUp (intg + 1) = c.intg0 + 1) :
    if (V = 0 ∧ (c.len : ℤ) < frac0 + 1) ∨ (V = digBase ^ k ∧ c.intg0 = c.len) then
      roundSettle c error intg frac0 scale buf i w = none
    else GoodResult c frac0 V (roundSettle c error intg frac0 scale buf i w) := by
  rcases hw.lt_or_eq with hlt | heq
  · obtain ⟨hVlt, h⟩ := roundSettle_plain error hbuf hi hws hk hV hcut hle hfit hintg hlt
      (hik.resolve_right fun h => hlt.ne h.2.2)
    simpa only [or_iff_left fun h : V = digBase ^ k ∧ c.intg0 = c.len => hVlt.ne h.1] using h
  · obtain ⟨hVpos, h⟩ := roundSettle_carry error hbuf hi hws hk hV hcut hle hfit hintg heq
      (hik.imp_right fun h => ⟨h.1, h.2.1⟩) hgrow
    simpa only [or_iff_right fun h : V = 0 ∧ (c.len : ℤ) < frac0 + 1 => hVpos.ne' h.1] using h

end

end Dec
