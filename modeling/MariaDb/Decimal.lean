/-
**Fixed-point decimal numbers.**

A `decimal_t` holds a decimal number in words of nine digits each, most significant word first: the
words of the integer part, aligned to the decimal point, and then the words of the fraction, which
start at the decimal point.  The numbers of digits before and after the point are kept with it.

This module models the data type, its conversion to the fixed-length binary format of the storage
engines and back, and the comparison.  In the binary format, a group of digits that does not fill a
word takes fewer bytes, the bytes of a negative number are inverted, and so is the first bit.

Words are natural numbers, and the words of a buffer that are read past the end of the list are 0;
no function relies on their values.  Numbers of digits are natural numbers below `2 ^ 16`, the range
of `decimal_digits_t`.

Main definitions:

* `Decimal`, `Decimal.Sound`, `Decimal.WF`, `Decimal.value`: decimals and the numbers they denote;
* `decimal2bin`, `bin2decimal`, `decimalBinSize`: the binary format;
* `decimalCmp`: comparison.
-/

import Mathlib.Algebra.Order.Field.Rat
import Mathlib.Data.List.DropRight
import Mathlib.Data.List.GetD
import MariaDb.Radix

set_option autoImplicit false

namespace Dec

/-! ### Decimals -/

def digPerDec1 : ℕ := 9

def digBase : ℕ := 1000000000

def digMax : ℕ := digBase - 1

def powers10 (n : ℕ) : ℕ := 10 ^ n

def dig2bytes (n : ℕ) : ℕ := [0, 1, 1, 2, 2, 3, 3, 4, 4, 4].getD n 0

/-- `ROUND_UP`: the number of words for `x` digits. -/
def roundUp (x : ℕ) : ℕ := (x + if x > 0 then digPerDec1 - 1 else 0) / digPerDec1

/-- The results of the functions on decimals. -/
inductive DecError
  | ok
  | truncated
  | overflow
  | badNum
  deriving DecidableEq, Repr

/-- `decimal_t`: the digits before and after the point, the length of the buffer, the sign (`true`
for a negative number), and the words of the buffer. -/
structure Decimal where
  intg : ℕ
  frac : ℕ
  len : ℕ
  sign : Bool
  buf : List ℕ
  deriving DecidableEq, Repr

variable (d : Decimal)

def Decimal.intWords : List ℕ := d.buf.take (roundUp d.intg)

def Decimal.fracWords : List ℕ :=
  (d.buf.drop (roundUp d.intg)).take (roundUp d.frac)

/-- The magnitude, in units of the last word. -/
def Decimal.mag : ℕ := Radix.val digBase (d.intWords ++ d.fracWords)

/-- The number that a decimal denotes. -/
def Decimal.value : ℚ :=
  (if d.sign then -1 else 1) * (d.mag / digBase ^ roundUp d.frac)

/-- A decimal that the functions can work with: the words are there and hold nine digits each, and
the first word of the integer part has no more digits than `intg` leaves to it. -/
structure Decimal.Sound (d : Decimal) : Prop where
  enough : roundUp d.intg + roundUp d.frac ≤ d.buf.length
  fits : roundUp d.intg + roundUp d.frac ≤ d.len
  word_lt : ∀ w ∈ d.intWords ++ d.fracWords, w < digBase
  first_lt : 0 < d.intg → d.buf.getD 0 0 < 10 ^ ((d.intg - 1) % digPerDec1 + 1)

/-- A well-formed decimal: in addition, the digits after the last one of the fraction are zero. -/
structure Decimal.WF (d : Decimal) : Prop extends Decimal.Sound d where
  intg_lt : d.intg < 2 ^ 16
  last_dvd : d.frac % digPerDec1 ≠ 0 →
    10 ^ (digPerDec1 - d.frac % digPerDec1) ∣ d.buf.getD (roundUp d.intg + d.frac / digPerDec1) 0

/-- A zero is not negative. -/
def Decimal.NoNegZero : Prop := d.value = 0 → d.sign = false

def decimalMakeZero (len : ℕ) : Decimal := ⟨1, 0, len, false, [0]⟩

/-! ### The binary format -/

/-- The loop of `remove_leading_zeroes` over the words: the digits that are left, and the buffer
from the first word that is not zero. -/
def skipZeroWords : ℕ → ℕ → List ℕ → ℕ × List ℕ
  | intg, i, w :: ws =>
    if intg > 0 ∧ w = 0 then skipZeroWords (intg - i) digPerDec1 ws else (intg, w :: ws)
  | intg, _, [] => (intg, [])

/-- The loop of `remove_leading_zeroes` over the digits of the first word. -/
def skipZeroDigits (w : ℕ) : ℕ → ℕ → ℕ
  | 0, intg => intg
  | i + 1, intg => if w < powers10 (i + 1) then skipZeroDigits w i (intg - 1) else intg

/-- `remove_leading_zeroes`: the number of digits of the integer part, and the buffer from its first
word on. -/
def removeLeadingZeroes : ℕ × List ℕ :=
  let (intg, buf0) := skipZeroWords d.intg ((d.intg - 1) % digPerDec1 + 1) d.buf
  if intg > 0 then (skipZeroDigits (buf0.getD 0 0) ((intg - 1) % digPerDec1) intg, buf0)
  else (0, buf0)

section

variable (mask : Bool)

/-- `x ^ mask`, where the mask is -1 for a negative number and 0 otherwise. -/
def xorMask (x : ℤ) : ℤ := if mask then -x - 1 else x

def maskByte : ℕ := if mask then 255 else 0

/-- The words of a buffer, four bytes each. -/
def storeWords (ws : List ℕ) : List ℕ :=
  ws.flatMap fun w : ℕ => Radix.store 4 (xorMask mask w)

/-- The loop `while (frac1x < lim && dig2bytes[frac1x] == i) frac1x++`. -/
def widen (lim i : ℕ) : ℕ → ℕ → ℕ
  | 0, frac1x => frac1x
  | fuel + 1, frac1x =>
    if frac1x < lim ∧ dig2bytes frac1x = i then widen lim i fuel (frac1x + 1) else frac1x

def decimalBinSize (precision scale : ℕ) : ℕ :=
  let intg := precision - scale
  let intg0 := intg / digPerDec1
  let frac0 := scale / digPerDec1
  let intg0x := intg - intg0 * digPerDec1
  let frac0x := scale - frac0 * digPerDec1
  intg0 * 4 + dig2bytes intg0x + frac0 * 4 + dig2bytes frac0x

def decimalSize (precision scale : ℕ) : ℕ := roundUp (precision - scale) + roundUp scale

/-- The number of bytes for `intg` or `frac` digits, in groups from the decimal point. -/
def digitsSize (n : ℕ) : ℕ := n / digPerDec1 * 4 + dig2bytes (n - n / digPerDec1 * digPerDec1)

/-- The part of `decimal2bin` that says how a fraction of `from` digits is written in the space for
`frac` digits: the number of full words, the digits of the last group, and the number of bytes to
which the fraction is filled up. -/
def fracShape (fromFrac frac : ℕ) : ℕ × ℕ × ℕ :=
  let frac0 := frac / digPerDec1
  let frac0x := frac - frac0 * digPerDec1
  let frac1 := fromFrac / digPerDec1
  let frac1x := fromFrac - frac1 * digPerDec1
  let fsize0 := digitsSize frac
  let fsize1 := digitsSize fromFrac
  if fsize0 < fsize1 then (frac0, frac0x, fsize0)
  else if fsize0 > fsize1 ∧ frac1x ≠ 0 then
    if frac0 = frac1 then (frac1, frac0x, fsize1) else (frac1 + 1, 0, fsize0)
  else (frac1, frac1x, fsize0)

/-- The intg1x part of `decimal2bin`: the first group of the integer part, in the word `w`. -/
def leadPart (intg1x w : ℕ) : List ℕ :=
  if intg1x ≠ 0 then Radix.store (dig2bytes intg1x) (xorMask mask (w % powers10 intg1x : ℕ)) else []

/-- The frac1x part of `decimal2bin`: the last group of the fraction, in the word `w`. -/
def lastPart (frac0 frac0x frac1 frac1x w : ℕ) : List ℕ :=
  if frac1x ≠ 0 then
    let i := dig2bytes frac1x
    let lim := if frac1 < frac0 then digPerDec1 else frac0x
    let frac1x := widen lim i digPerDec1 frac1x
    Radix.store i (xorMask mask (w / powers10 (digPerDec1 - frac1x) : ℕ))
  else []

def decimal2bin (d : Decimal) (precision frac : ℕ) : DecError × List ℕ :=
  let intg := precision - frac
  let intg0 := intg / digPerDec1
  let frac0 := frac / digPerDec1
  let intg0x := intg - intg0 * digPerDec1
  let frac0x := frac - frac0 * digPerDec1
  let isize0 := digitsSize intg
  let fsize0 := digitsSize frac
  let fsize1 := digitsSize d.frac
  let (fromIntg, buf1) := removeLeadingZeroes d
  -- zero without a fraction is not negative
  let isZero := fromIntg + fsize1 = 0
  let mask := d.sign && ¬ isZero
  let intg := if isZero then 1 else intg
  let buf1 := if isZero then [0] else buf1
  let intg1 := fromIntg / digPerDec1
  let intg1x := fromIntg - intg1 * digPerDec1
  let isize1 := digitsSize fromIntg
  let overflow := intg < fromIntg
  let error := if overflow then DecError.overflow else .ok
  let buf1 := if overflow then
      buf1.drop (intg1 + (if intg1x > 0 then 1 else 0) - intg0 - (if intg0x > 0 then 1 else 0))
    else buf1
  let pad := if overflow then [] else List.replicate (isize0 - isize1) (maskByte mask)
  let intg1 := if overflow then intg0 else intg1
  let intg1x := if overflow then intg0x else intg1x
  let error := if fsize0 < fsize1 then DecError.truncated else error
  let (frac1, frac1x, fsize0') := fracShape d.frac frac
  let lead := leadPart mask intg1x (buf1.getD 0 0)
  let buf1 := if intg1x ≠ 0 then buf1.drop 1 else buf1
  -- intg1+frac1 part
  let words := storeWords mask (buf1.take (intg1 + frac1))
  let buf1 := buf1.drop (intg1 + frac1)
  let last := lastPart mask frac0 frac0x frac1 frac1x (buf1.getD 0 0)
  let bytes := pad ++ lead ++ words ++ last
  let tail := List.replicate (min (fsize0' - fsize1) (fsize0 + isize0 - bytes.length))
    (maskByte mask)
  (error, Radix.flipTop (bytes ++ tail))

def fixIntgFracError (len intg1 frac1 : ℕ) : ℕ × ℕ × DecError :=
  if intg1 + frac1 > len then
    if intg1 > len then (len, 0, .overflow) else (intg1, len - intg1, .truncated)
  else (intg1, frac1, .ok)

/-- One word of the binary format, from its `i` bytes. -/
def readWord (i : ℕ) (bytes : List ℕ) : ℤ :=
  xorMask mask (Radix.readSigned (bytes.take i))

/-- The words of the integer part, to be put after those in `buf`.  Zero words in front are not
kept. -/
def readIntWords : ℕ → List ℕ → ℕ → List ℕ → Option (ℕ × List ℕ × List ℕ)
  | 0, bytes, intg, buf => some (intg, buf, bytes)
  | n + 1, bytes, intg, buf =>
    let x := readWord mask 4 bytes
    if x % 2 ^ 32 > digMax then none
    else if buf ≠ [] ∨ x ≠ 0 then readIntWords n (bytes.drop 4) intg (buf ++ [x.toNat])
    else readIntWords n (bytes.drop 4) (intg - digPerDec1) buf

def readFracWords : ℕ → List ℕ → List ℕ → Option (List ℕ × List ℕ)
  | 0, bytes, buf => some (buf, bytes)
  | n + 1, bytes, buf =>
    let x := readWord mask 4 bytes
    if x % 2 ^ 32 > digMax then none
    else readFracWords n (bytes.drop 4) (buf ++ [x.toNat])

/-- The first group of the integer part: the digits of the integer part, its first word if that is
not zero, and the rest of the bytes. -/
def readLead (intg intg0x : ℕ) (bytes : List ℕ) : Option (ℕ × List ℕ × List ℕ) :=
  if intg0x ≠ 0 then
    let x := readWord mask (dig2bytes intg0x) bytes
    let rest := bytes.drop (dig2bytes intg0x)
    if x < 0 ∨ x ≥ powers10 (intg0x + 1) then none
    else if x ≠ 0 then some (intg, [x.toNat], rest)
    else some (intg - intg0x, [], rest)
  else some (intg, [], bytes)

/-- The last group of the fraction, to be put after the words in `buf`. -/
def readLast (frac0x : ℕ) (bytes buf : List ℕ) : Option (List ℕ) :=
  if frac0x ≠ 0 then
    let x := readWord mask (dig2bytes frac0x) bytes * powers10 (digPerDec1 - frac0x)
    -- the product is a word of 32 bits
    if x % 2 ^ 32 > digMax then none else some (buf ++ [(x % 2 ^ 32).toNat])
  else some buf

/-- The reading part of `bin2decimal`: the digits of the integer part, and the words. -/
def readBin (intg0 intg0x frac0 frac0x : ℕ) (bytes : List ℕ) : Option (ℕ × List ℕ) := do
  let (intg, buf, bytes) ← readLead mask (intg0 * digPerDec1 + intg0x) intg0x bytes
  let (intg, buf, bytes) ← readIntWords mask intg0 bytes intg buf
  let (buf, bytes) ← readFracWords mask frac0 bytes buf
  let buf ← readLast mask frac0x bytes buf
  some (intg, buf)

end

/-- `bin2decimal`, into a decimal with a buffer of `len` words -/
def bin2decimal (bytes : List ℕ) (len precision scale : ℕ) : DecError × Decimal :=
  let intg := precision - scale
  let intg0 := intg / digPerDec1
  let frac0 := scale / digPerDec1
  let intg0x := intg - intg0 * digPerDec1
  let frac0x := scale - frac0 * digPerDec1
  let mask : Bool := bytes.getD 0 0 &&& 0x80 = 0
  let bytes := Radix.flipTop (bytes.take (decimalBinSize precision scale))
  let words := intg0 + if intg0x > 0 then 1 else 0
  let (intg1, frac1, error) :=
    fixIntgFracError len words (frac0 + if frac0x > 0 then 1 else 0)
  let (bytes, intg0, intg0x, frac0, frac0x) :=
    if error = .ok then (bytes, intg0, intg0x, frac0, frac0x)
    else if intg1 < words then
      (bytes.drop (dig2bytes intg0x + 4 * (intg0 - intg1)), intg1, 0, 0, 0)
    else (bytes, intg0, intg0x, frac1, 0)
  match readBin mask intg0 intg0x frac0 frac0x bytes with
  | none => (.badNum, decimalMakeZero len)
  | some (intg, buf) =>
    let frac := frac0 * digPerDec1 + frac0x
    if intg = 0 ∧ frac = 0 then (error, decimalMakeZero len)
    else (error, ⟨intg, frac, len, mask, buf⟩)

/-! ### Comparison -/

/-- The comparison of two strings of words, of which a proper beginning of another is the smaller
one: `none` if they are equal, and else whether the second one is larger. -/
def carryLoop : List ℕ → List ℕ → Option Bool
  | x :: xs, y :: ys => if x = y then carryLoop xs ys else some (y > x)
  | _ :: _, [] => some false
  | [], _ :: _ => some true
  | [], [] => none

/-- The first part of `do_sub`: `none` if the magnitudes are equal, and else whether the second one
is larger. -/
def doSubCarry (from1 from2 : Decimal) : Option Bool :=
  let int1 := from1.intWords.dropWhile (· = 0)
  let int2 := from2.intWords.dropWhile (· = 0)
  if int2.length > int1.length then some true
  else if int2.length = int1.length then
    -- trailing zeros are removed past the decimal point
    carryLoop ((int1 ++ from1.fracWords).rdropWhile (· = 0))
      ((int2 ++ from2.fracWords).rdropWhile (· = 0))
  else some false

def decimalCmp (from1 from2 : Decimal) : ℤ :=
  if from1.sign = from2.sign then
    match doSubCarry from1 from2 with
    | none => 0
    | some carry => if carry = from1.sign then 1 else -1
  else if from1.sign then -1 else 1

end Dec
