/-
**Multiplication of decimals.**

`decimal_mul` multiplies the words of two decimals, from the last ones on, and adds the products to
the words of the result.  The carry of a round may be as large as a word; after the last word of the
second factor it is added to the words in front.  The result has room for the integer part of the
product, which may take one word less than those of the factors together, and then zero words are
removed at both of its ends.

Main definitions:

* `decimalMul`: the function, with its exits inside of the loops.

Main results:

* `decimalMul_exact`: **the result is the product**, and there is no exit inside of the loops if the
  buffer is large enough.
-/

import MariaDb.DecimalRoundDigits

set_option autoImplicit false

namespace Dec

open Radix List Nat

/-! ### The function -/

/-- `ADD`: the sum of two words and a carry, as a carry and a word. -/
def add (x y carry : ℕ) : ℕ × ℕ :=
  let a := x + y + carry
  if a ≥ digBase then (1, a - digBase) else (0, a)

def add2 (x y carry : ℕ) : ℕ × ℕ :=
  let a := x + y + carry
  let carry := if a ≥ digBase then 1 else 0
  let a := if a ≥ digBase then a - digBase else a
  if a ≥ digBase then (carry + 1, a - digBase) else (carry, a)

/-- The ways out of the loops: `E_DEC_OVERFLOW`, and an access in front of the buffer. -/
inductive MulExit
  | overflow
  | outside
  deriving DecidableEq

/-- The loop that hands a carry on, over the words of the result to the front. -/
def mulCarry : ℕ → List ℕ → Except MulExit (List ℕ)
  | 0, ws => .ok ws
  | _ + 1, [] => .error .overflow
  | carry + 1, w :: ws => (mulCarry (add w 0 (carry + 1)).1 ws).map ((add w 0 (carry + 1)).2 :: ·)

/-- What follows the inner loop. -/
def mulCarryOut : ℕ → List ℕ → Except MulExit (List ℕ)
  | 0, ws => .ok ws
  | _ + 1, [] => .error .overflow
  | carry + 1, w :: ws => (mulCarry (add2 w 0 (carry + 1)).1 ws).map ((add2 w 0 (carry + 1)).2 :: ·)

/-- A round of the outer loop: the inner loop for the word `x` of the first factor, over the words of
the second factor and of the result, from the last ones on. -/
def mulRow (x : ℕ) : List ℕ → ℕ → List ℕ → Except MulExit (List ℕ)
  | [], carry, ws => mulCarryOut carry ws
  | _ :: _, _, [] => .error .outside
  | y :: ys, carry, w :: ws =>
    let p := x * y
    let hi := p / digBase
    let lo := p - hi * digBase
    let sum := add2 w lo carry
    (mulRow x ys (sum.1 + hi) ws).map (sum.2 :: ·)

def mulRows (ys : List ℕ) : List ℕ → List ℕ → Except MulExit (List ℕ)
  | [], ws => .ok ws
  | x :: xs, ws =>
    (mulRow x ys 0 ws).bind fun
      | [] => mulRows ys xs []
      | w :: ws => (mulRows ys xs ws).map (w :: ·)

/-- The loop that removes heading zero words, as long as `intg` is more than one word. -/
def headingZeros : ℕ → List ℕ → ℕ
  | intg + 2, 0 :: ws => headingZeros (intg + 1) ws + 1
  | _, _ => 0

/-- The end of `decimal_mul`: zero words are removed at the end of the fraction and in front. -/
def mulFinish (intg0 frac len : ℕ) (sign : Bool) (buf : List ℕ) : Decimal :=
  let kept := ((buf.drop intg0).take (roundUp frac)).rdropWhile (· = 0)
  let frac := if kept.length < roundUp frac then digPerDec1 * kept.length else frac
  let lead := headingZeros intg0 (buf.take intg0)
  let words := (buf.take intg0 ++ kept).drop lead
  -- the -0.000 case
  if sign ∧ frac = 0 ∧ words.getD 0 0 = 0 then decimalMakeZero len
  else ⟨(intg0 - lead) * digPerDec1, frac, len, sign, words⟩

/-- The words of the integer part and of the fraction of the result, and whether they had to be
bounded. -/
def mulSize (from1 from2 : Decimal) (len : ℕ) : ℕ × ℕ × DecError :=
  fixIntgFracError len (roundUp (from1.intg + from2.intg)) (roundUp from1.frac + roundUp from2.frac)

/-- The words of a factor from `intg` words in front of the point on to `frac` words behind it, from
the last one on. -/
def factorWords (d : Decimal) (intg frac : ℤ) : List ℕ :=
  ((d.buf.drop (roundUp d.intg - intg).toNat).take (intg + frac).toNat).reverse

/-- `decimal_mul`, to a buffer of `len` words -/
def decimalMul (from1 from2 : Decimal) (len : ℕ) : Except MulExit (DecError × Decimal) :=
  let intg1 : ℤ := roundUp from1.intg
  let intg2 : ℤ := roundUp from2.intg
  let frac1 : ℤ := roundUp from1.frac
  let frac2 : ℤ := roundUp from2.frac
  let (intg0, frac0, error) := mulSize from1 from2 len
  let frac := from1.frac + from2.frac
  let frac := if error = .ok then frac else min frac (frac0 * digPerDec1)
  -- what the result has no room for
  let i : ℤ := roundUp (from1.intg + from2.intg) - intg0
  let j : ℤ := frac1 + frac2 - frac0
  let (words1, words2) :=
    if error = .ok then (factorWords from1 intg1 frac1, factorWords from2 intg2 frac2)
    else if i > 0 then (factorWords from1 (intg1 - i / 2) 0, factorWords from2 (intg2 - (i - i / 2)) 0)
    else if frac1 ≤ frac2 then
      (factorWords from1 intg1 (frac1 - j / 2), factorWords from2 intg2 (frac2 - (j - j / 2)))
    else (factorWords from1 intg1 (frac1 - (j - j / 2)), factorWords from2 intg2 (frac2 - j / 2))
  (mulRows words2 words1 (List.replicate (intg0 + frac0) 0)).map fun ws =>
    (error, mulFinish intg0 frac len (from1.sign != from2.sign) ws.reverse)

/-! ### The loops -/

/-- The words `ws`, from the last one on, are `n` words of nine digits with the value `V`. -/
def RowIs (n V : ℕ) (res : Except MulExit (List ℕ)) : Prop :=
  ∃ ws, res = .ok ws ∧ ws.length = n ∧ (∀ w ∈ ws, w < digBase) ∧ ofDigits digBase ws = V

section
variable {w x carry n V V' : ℕ} {ws xs ys : List ℕ} {res : Except MulExit (List ℕ)}

theorem RowIs.push (hw : w < digBase) (h : V < digBase ^ n → RowIs n V res)
    (hV : V' = w + digBase * V) (hlt : V' < digBase ^ (n + 1)) :
    RowIs (n + 1) V' (res.map (w :: ·)) := by
  have hroom : V < digBase ^ n := by
    rw [hV, pow_succ'] at hlt
    exact Nat.lt_of_mul_lt_mul_left ((Nat.le_add_left _ w).trans_lt hlt)
  obtain ⟨ws, rfl, hlen, hws, hval⟩ := h hroom
  refine ⟨w :: ws, rfl, by rw [length_cons, hlen], forall_mem_cons.mpr ⟨hw, hws⟩, ?_⟩
  rw [ofDigits_cons, hval, hV]

theorem add_spec (hw : w < digBase) (hcarry : carry ≤ 1) : (add w 0 carry).1 ≤ 1 ∧
    (add w 0 carry).2 < digBase ∧ (add w 0 carry).1 * digBase + (add w 0 carry).2 = w + carry := by
  rw [add]
  split <;> simp only <;> omega

theorem add2_spec {y : ℕ} (hw : w < digBase) (hy : y < digBase) (hcarry : carry < digBase) :
    (add2 w y carry).2 < digBase ∧
      (add2 w y carry).1 * digBase + (add2 w y carry).2 = w + y + carry := by
  simp only [add2]
  split_ifs <;> simp only <;> omega

theorem mulCarry_spec (hws : ∀ w ∈ ws, w < digBase) (hcarry : carry ≤ 1)
    (hlt : ofDigits digBase ws + carry < digBase ^ ws.length) :
    RowIs ws.length (ofDigits digBase ws + carry) (mulCarry carry ws) := by
  induction ws generalizing carry with
  | nil =>
    obtain rfl : carry = 0 := by simpa using hlt
    exact ⟨[], rfl, rfl, hws, rfl⟩
  | cons w ws ih =>
    cases carry with
    | zero => exact ⟨w :: ws, rfl, rfl, hws, rfl⟩
    | succ carry =>
      rw [forall_mem_cons] at hws
      obtain ⟨hc, hw', hsum⟩ := add_spec hws.1 hcarry
      refine RowIs.push hw' (ih hws.2 hc) ?_ hlt
      rw [ofDigits_cons]
      linear_combination hsum.symm

theorem mulCarryOut_spec (hws : ∀ w ∈ ws, w < digBase) (hcarry : carry < digBase)
    (hlt : ofDigits digBase ws + carry < digBase ^ ws.length) :
    RowIs ws.length (ofDigits digBase ws + carry) (mulCarryOut carry ws) := by
  cases carry with
  | zero => exact ⟨ws, rfl, rfl, hws, rfl⟩
  | succ carry =>
    cases ws with
    | nil => simp at hlt
    | cons w ws =>
      rw [forall_mem_cons] at hws
      obtain ⟨hw', hsum⟩ := add2_spec hws.1 (show 0 < digBase by decide) hcarry
      have hc : (add2 w 0 (carry + 1)).1 ≤ 1 := by
        by_contra h
        have := mul_le_mul_right digBase (show 2 ≤ (add2 w 0 (carry + 1)).1 by omega)
        omega
      refine RowIs.push hw' (mulCarry_spec hws.2 hc) ?_ hlt
      rw [ofDigits_cons]
      linear_combination hsum.symm

/-- A product of two words with a word and a carry added fits into two words. -/
theorem mulStep_carry {y c w' : ℕ} (hw : w < digBase) (hx : x < digBase) (hy : y < digBase)
    (hcarry : carry < digBase) (h : c * digBase + w' = w + x * y + carry) : c < digBase := by
  have hprod : x * y ≤ (digBase - 1) * (digBase - 1) := Nat.mul_le_mul (by omega) (by omega)
  rw [digBase] at *
  omega

theorem mulRow_spec (hx : x < digBase) (hys : ∀ y ∈ ys, y < digBase) (hws : ∀ w ∈ ws, w < digBase)
    (hcarry : carry < digBase) (hlen : ys.length ≤ ws.length)
    (hlt : ofDigits digBase ws + x * ofDigits digBase ys + carry < digBase ^ ws.length) :
    RowIs ws.length (ofDigits digBase ws + x * ofDigits digBase ys + carry)
      (mulRow x ys carry ws) := by
  induction ys generalizing carry ws with
  | nil => simpa [mulRow] using mulCarryOut_spec hws hcarry (by simpa using hlt)
  | cons y ys ih =>
    cases ws with
    | nil => simp at hlen
    | cons w ws =>
      rw [forall_mem_cons] at hys hws
      have hlo : x * y - x * y / digBase * digBase < digBase := by
        have := mod_lt (x * y) (show digBase > 0 by decide)
        rwa [mod_eq_sub_div_mul] at this
      obtain ⟨hw', hsum⟩ := add2_spec hws.1 hlo hcarry
      have hstep : ((add2 w (x * y - x * y / digBase * digBase) carry).1 + x * y / digBase) * digBase +
          (add2 w (x * y - x * y / digBase * digBase) carry).2 = w + x * y + carry := by
        have := div_mul_le_self (x * y) digBase
        rw [add_mul]
        omega
      refine RowIs.push hw' (ih hys.2 hws.2 (mulStep_carry hws.1 hx hys.1 hcarry hstep)
        (by simpa using hlen)) ?_ hlt
      rw [ofDigits_cons, ofDigits_cons]
      linear_combination hstep.symm

/-- **The loops compute the product.** -/
theorem mulRows_spec (hxs : ∀ x ∈ xs, x < digBase) (hys : ∀ y ∈ ys, y < digBase)
    (hws : ∀ w ∈ ws, w < digBase) (hlen : xs.length + ys.length ≤ ws.length + 1)
    (hlt : ofDigits digBase ws + ofDigits digBase xs * ofDigits digBase ys < digBase ^ ws.length) :
    RowIs ws.length (ofDigits digBase ws + ofDigits digBase xs * ofDigits digBase ys)
      (mulRows ys xs ws) := by
  induction xs generalizing ws with
  | nil => exact ⟨ws, rfl, rfl, hws, by simp⟩
  | cons x xs ih =>
    rw [forall_mem_cons] at hxs
    rw [length_cons] at hlen
    rw [ofDigits_cons, add_mul, ← add_assoc] at hlt ⊢
    obtain ⟨ws', hres, hlen', hws', hval⟩ := mulRow_spec hxs.1 hys hws (show 0 < digBase by decide)
      (by omega) ((le_add_right _ _).trans_lt hlt)
    rw [mulRows, hres]
    cases ws' with
    | nil =>
      obtain rfl : ws = [] := length_eq_zero_iff.mp hlen'.symm
      obtain rfl : xs = [] := length_eq_zero_iff.mp (by rw [length_nil] at hlen; omega)
      exact ⟨[], rfl, rfl, hws, by simpa using hval⟩
    | cons w ws' =>
      rw [forall_mem_cons] at hws'
      rw [length_cons] at hlen'
      rw [ofDigits_cons, add_zero] at hval
      rw [← hlen'] at hlt ⊢
      refine RowIs.push hws'.1 (ih hxs.2 hws'.2 (by omega)) ?_ hlt
      rw [← hval]
      ring

end

/-! ### The end -/

theorem rdropWhile_append_zeros (l : List ℕ) :
    ∃ n, l = l.rdropWhile (· = 0) ++ List.replicate n 0 := by
  have hzeros : ∀ w ∈ l.rtakeWhile (· = 0), w = 0 := fun w hw => by
    simpa using mem_rtakeWhile_imp hw
  refine ⟨(l.rtakeWhile (· = 0)).length, ?_⟩
  rw [← eq_replicate_iff.mpr ⟨rfl, hzeros⟩, rdropWhile_append_rtakeWhile]

/-- What is left starts with a word that is not zero, or is one word. -/
theorem headingZeros_spec {intg : ℕ} {ws : List ℕ} (hlen : ws.length = intg) :
    ∃ rest, ws = List.replicate (headingZeros intg ws) 0 ++ rest ∧
      (rest.getD 0 0 = 0 → ∀ w ∈ rest, w = 0) := by
  fun_induction headingZeros intg ws with
  | case1 intg ws ih =>
    obtain ⟨rest, hws, hrest⟩ := ih (by simpa using hlen)
    exact ⟨rest, by rw [replicate_succ, cons_append, ← hws], hrest⟩
  | case2 intg ws hnot =>
    refine ⟨ws, rfl, fun hzero => ?_⟩
    rcases ws with _ | ⟨w, _ | ⟨w', ws⟩⟩
    · simp
    · simpa using hzero
    · obtain rfl : w = 0 := by simpa using hzero
      exact absurd rfl (hnot ws.length (w' :: ws) hlen.symm)

/-- The result has the value of the buffer, and all of its words are words of it. -/
theorem mulFinish_spec (len : ℕ) (sign : Bool) {intg0 frac0 frac : ℕ} {buf : List ℕ}
    (hbuf : ∀ w ∈ buf, w < digBase) (hlen : buf.length = intg0 + frac0)
    (hdvd : digBase ^ (frac0 - roundUp frac) ∣ val digBase buf) :
    (mulFinish intg0 frac len sign buf).value =
        (if sign then -1 else 1) * (val digBase buf / digBase ^ frac0) ∧
      ∀ w ∈ (mulFinish intg0 frac len sign buf).buf, w < digBase := by
  -- the words behind the digits of the fraction are zero
  have htail : ∀ w ∈ (buf.drop intg0).drop (roundUp frac), w = 0 := by
    rw [drop_drop, ← val_eq_zero_iff (show 0 < digBase by decide),
      ← val_mod_pow one_lt_digBase hbuf, hlen, Nat.add_sub_add_left]
    exact mod_eq_zero_of_dvd hdvd
  obtain ⟨n, hmid⟩ := rdropWhile_append_zeros ((buf.drop intg0).take (roundUp frac))
  have hintg : (buf.take intg0).length = intg0 := by rw [length_take, hlen]; omega
  obtain ⟨rest, hint, hrest⟩ := headingZeros_spec hintg
  have hall : buf = buf.take intg0 ++ ((buf.drop intg0).take (roundUp frac) ++
      (buf.drop intg0).drop (roundUp frac)) := by
    rw [take_append_drop, take_append_drop]
  rw [eq_replicate_iff.mpr ⟨rfl, htail⟩] at hall
  rw [mulFinish]
  generalize ((buf.drop intg0).take (roundUp frac)).rdropWhile (· = 0) = kept at hmid ⊢
  generalize headingZeros intg0 (buf.take intg0) = lead at hint ⊢
  have hwords : (buf.take intg0 ++ kept).drop lead = rest ++ kept := by
    rw [hint, append_assoc, drop_left' (length_replicate ..)]
  have hmidlen := congrArg List.length hmid
  rw [hint] at hintg
  simp only [length_append, length_replicate, length_take, length_drop, hlen] at hmidlen hintg
  rw [hmid, hint] at hall
  have hval : (val digBase buf : ℚ) / digBase ^ frac0 =
      val digBase (rest ++ kept) / digBase ^ kept.length := by
    have hbuf' : val digBase buf = val digBase (rest ++ kept) * digBase ^ (frac0 - kept.length) := by
      rw [hall, append_assoc, val_zeros_append, append_assoc,
        replicate_append_replicate, ← append_assoc, val_append_zeros]
      congr 2
      rw [length_drop, length_drop, hlen]
      omega
    have hpow : (digBase : ℚ) ^ frac0 = digBase ^ kept.length * digBase ^ (frac0 - kept.length) := by
      rw [← pow_add]
      congr 1
      omega
    rw [hbuf', hpow, cast_mul, cast_pow, mul_div_mul_right]
    norm_num [digBase]
  have hfracs : roundUp (if kept.length < roundUp frac then digPerDec1 * kept.length else frac) =
      kept.length := by
    split
    · rw [roundUp_eq, digPerDec1]
      omega
    · omega
  simp only [hwords]
  generalize (if kept.length < roundUp frac then digPerDec1 * kept.length else frac) = frac' at *
  rw [hval]
  split
  case isTrue h =>
    -- a negative zero
    obtain ⟨-, rfl, hzero⟩ := h
    obtain rfl : kept = [] := length_eq_zero_iff.mp hfracs.symm
    rw [append_nil] at hzero ⊢
    refine ⟨?_, by simp [decimalMakeZero, digBase]⟩
    rw [value_decimalMakeZero, (val_eq_zero_iff (by decide)).mpr (hrest hzero), cast_zero,
      zero_div, mul_zero]
  case isFalse =>
    refine ⟨?_, fun w hw => hbuf w ?_⟩
    · have hint : roundUp ((intg0 - lead) * digPerDec1) = intg0 - lead := by
        rw [roundUp_eq, digPerDec1]
        omega
      rw [Decimal.value, mag_eq_take]
      simp only [hint, hfracs]
      rw [take_of_length_le (by rw [length_append]; omega)]
    · rw [hall]
      simp only [mem_append] at hw ⊢
      tauto

/-! ### The product -/

section
variable {a b : Decimal} (ha : a.Sound) (hb : b.Sound)

theorem factorWords_eq (d : Decimal) :
    factorWords d (roundUp d.intg) (roundUp d.frac) = d.words.reverse := by
  rw [factorWords, sub_self, Int.toNat_zero, drop_zero, ← cast_add, Int.toNat_natCast,
    Decimal.words]

include ha hb in
theorem mag_mul_lt : a.mag * b.mag <
    digBase ^ (roundUp (a.intg + b.intg) + (roundUp a.frac + roundUp b.frac)) := by
  have hintg := roundUp_eq (a.intg + b.intg)
  calc a.mag * b.mag < 10 ^ (a.intg + 9 * roundUp a.frac) * 10 ^ (b.intg + 9 * roundUp b.frac) :=
        mul_lt_mul'' ha.mag_lt hb.mag_lt
    _ = 10 ^ (a.intg + 9 * roundUp a.frac + (b.intg + 9 * roundUp b.frac)) := (pow_add _ _ _).symm
    _ ≤ 10 ^ (9 * (roundUp (a.intg + b.intg) + (roundUp a.frac + roundUp b.frac))) :=
        Nat.pow_le_pow_right (by omega) (by omega)
    _ = digBase ^ (roundUp (a.intg + b.intg) + (roundUp a.frac + roundUp b.frac)) := by
        rw [digBase_eq, pow_mul]

include ha hb in
/-- The digits behind those of the fractions are zero in the product. -/
theorem dvd_mag_mul (hla : a.Trimmed) (hlb : b.Trimmed) :
    digBase ^ (roundUp a.frac + roundUp b.frac - roundUp (a.frac + b.frac)) ∣ a.mag * b.mag := by
  have hdvd := mul_dvd_mul (ha.dvd_mag hla) (hb.dvd_mag hlb)
  rw [← pow_add] at hdvd
  have h₃ := roundUp_eq (a.frac + b.frac)
  rw [digBase_eq, ← pow_mul]
  exact (pow_dvd_pow 10 (by omega)).trans hdvd

include ha hb in
/-- The loops on all words of the factors. -/
theorem mulRows_words {n : ℕ}
    (hn : n = roundUp (a.intg + b.intg) + (roundUp a.frac + roundUp b.frac)) :
    RowIs n (a.mag * b.mag) (mulRows b.words.reverse a.words.reverse (List.replicate n 0)) := by
  have hrev (d : Decimal) : ofDigits digBase d.words.reverse = d.mag := (mag_eq_take d).symm
  have hroom : a.words.length + b.words.length ≤ n + 1 := by
    rw [hn, ha.length_words, hb.length_words, roundUp_eq a.intg, roundUp_eq b.intg, roundUp_eq (_ + _)]
    omega
  have hspec := @mulRows_spec (List.replicate n 0) a.words.reverse b.words.reverse
    (fun x hx => ha.words_lt x (mem_reverse.mp hx))
    (fun x hx => hb.words_lt x (mem_reverse.mp hx))
    (fun x hx => (eq_of_mem_replicate hx).trans_lt (by decide)) (by simpa using hroom)
  simp only [ofDigits_replicate_zero, zero_add, hrev, length_replicate] at hspec
  exact hspec (hn ▸ mag_mul_lt ha hb)

theorem decimalMul_error {len : ℕ} {error : DecError} {r : Decimal}
    (h : decimalMul a b len = .ok (error, r)) : error = (mulSize a b len).2.2 := by
  rw [decimalMul] at h
  simp only at h
  generalize mulRows _ _ _ = res at h
  cases res with
  | error e => cases h
  | ok ws => exact (Prod.mk.inj (Except.ok.inj h)).1.symm

include ha hb in
/-- **The result of `decimal_mul` is the product**, if there is no error; and if the size of the
result does not have to be bounded, there is none. -/
theorem decimalMul_exact (hla : a.Trimmed) (hlb : b.Trimmed) (len : ℕ) :
    (∀ r, decimalMul a b len = .ok (.ok, r) →
      r.value = a.value * b.value ∧ ∀ w ∈ r.buf, w < digBase) ∧
    ((mulSize a b len).2.2 = .ok → ∃ r, decimalMul a b len = .ok (.ok, r)) := by
  have hmain : (mulSize a b len).2.2 = .ok → ∃ r, decimalMul a b len = .ok (.ok, r) ∧
      r.value = a.value * b.value ∧ ∀ w ∈ r.buf, w < digBase := by
    intro hok
    have hsize : mulSize a b len =
        (roundUp (a.intg + b.intg), roundUp a.frac + roundUp b.frac, .ok) := by
      rw [mulSize, fixIntgFracError] at hok ⊢
      split_ifs at hok ⊢
      rfl
    obtain ⟨ws, hws, hlen, hlt, hval⟩ := mulRows_words ha hb rfl
    have hprod : val digBase ws.reverse = a.mag * b.mag := by rw [val, reverse_reverse, hval]
    obtain ⟨hvalue, hwords⟩ := @mulFinish_spec len (a.sign != b.sign) _ _ (a.frac + b.frac) ws.reverse
      (fun w hw => hlt w (mem_reverse.mp hw)) (by rw [length_reverse, hlen])
      (hprod ▸ dvd_mag_mul ha hb hla hlb)
    refine ⟨_, ?_, ?_, hwords⟩
    · simp only [decimalMul, hsize, if_true, factorWords_eq, hws]
      rfl
    · rw [hvalue, hprod, Decimal.value, Decimal.value, cast_mul, pow_add]
      cases a.sign <;> cases b.sign <;> simp <;> ring
  refine ⟨fun r hr => ?_, fun h => (hmain h).imp fun r hr => hr.1⟩
  obtain ⟨r', hr', h⟩ := hmain (decimalMul_error hr).symm
  rw [hr] at hr'
  cases hr'
  exact h

end

/-- An instance: 1.5 times -0.2, in two words. -/
theorem decimalMul_exact_sample :
    (∀ r, decimalMul ⟨1, 1, 2, false, [1, 500000000]⟩ ⟨0, 1, 1, true, [200000000]⟩ 3 = .ok (.ok, r) →
      r.value = Decimal.value ⟨1, 1, 2, false, [1, 500000000]⟩ *
        Decimal.value ⟨0, 1, 1, true, [200000000]⟩ ∧ ∀ w ∈ r.buf, w < digBase) ∧
    ((mulSize ⟨1, 1, 2, false, [1, 500000000]⟩ ⟨0, 1, 1, true, [200000000]⟩ 3).2.2 = .ok →
      ∃ r, decimalMul ⟨1, 1, 2, false, [1, 500000000]⟩ ⟨0, 1, 1, true, [200000000]⟩ 3 = .ok (.ok, r)) :=
  decimalMul_exact ⟨by decide, by decide, by decide, by decide⟩
    ⟨by decide, by decide, by decide, by decide⟩ (fun _ => by decide) (fun _ => by decide) 3

end Dec
