/-
**Sequences: `NEXT VALUE`, `SETVAL` and restarts.**

A sequence keeps the next value, the value up to which it has reserved values in its table, and the
number of times that it has started again.  Values are given out from memory as long as they are
reserved; otherwise a new range is reserved by a write to the table, which may fail.  All values are
64-bit integers, and the code relies on its tests to keep its sums inside of that range.

Main definitions:

* `Calc`: a computation on 64-bit integers, with a note whether a sum has overflowed;
* `incrementValue`, `adjustValues`: the helpers of the source;
* `checkAndAdjust`: which definitions are accepted;
* `nextValue`, `setValue`, `readStoredValues`: the calls;
* `Op`, `step`, `run`: runs of calls, with the values that were returned.
-/

import Mathlib.Data.Int.Basic
import Mathlib.Tactic

set_option autoImplicit false

namespace Sequence

/-! ### 64-bit arithmetic -/

/-- `LONGLONG_MIN` -/
def llMin : ℤ := -2 ^ 63

/-- `LONGLONG_MAX` -/
def llMax : ℤ := 2 ^ 63 - 1

def Fits (x : ℤ) : Prop := llMin ≤ x ∧ x ≤ llMax

instance (x : ℤ) : Decidable (Fits x) := inferInstanceAs (Decidable (_ ∧ _))

/-- The result of an operation on 64-bit integers. -/
def wrap64 (x : ℤ) : ℤ := (x + 2 ^ 63) % 2 ^ 64 - 2 ^ 63

/-- A value, and whether every sum on the way to it was a 64-bit integer. -/
structure Calc (α : Type) where
  val : α
  exact : Bool
deriving DecidableEq

instance : Monad Calc where
  pure a := ⟨a, true⟩
  bind x f := ⟨(f x.val).val, x.exact && (f x.val).exact⟩

/-- The result of an operation, noted. -/
def Calc.op (x : ℤ) : Calc ℤ := ⟨wrap64 x, decide (Fits x)⟩

/-! ### The state -/

/-- The fields of a sequence that do not change. -/
structure Definition where
  minValue : ℤ
  maxValue : ℤ
  start : ℤ
  increment : ℤ
  cache : ℤ
  cycle : Bool
deriving DecidableEq

/-- The fields of the row of the sequence table that do change. -/
structure Row where
  reservedUntil : ℤ
  round : ℕ
deriving DecidableEq

/-- `SEQUENCE`, and the row that was written last. -/
structure Seq where
  d : Definition
  reservedUntil : ℤ
  round : ℕ
  realIncrement : ℤ
  nextFreeValue : ℤ
  allValuesUsed : Bool
  stored : Row
deriving DecidableEq

/-- `auto_increment_increment` and `auto_increment_offset`, as they are when a call reads them. -/
structure Vars where
  increment : ℤ
  offset : ℤ
  increment_pos : 1 ≤ increment
  increment_le : increment ≤ 65535
  offset_pos : 1 ≤ offset
  offset_le : offset ≤ 65535

def incrementValue (d : Definition) (realIncrement value : ℤ) : Calc ℤ :=
  if 0 < realIncrement then do
    let limit ← Calc.op (d.maxValue - realIncrement)
    if limit < value then Calc.op (d.maxValue + 1)
    else do
      let next ← Calc.op (value + realIncrement)
      if d.maxValue < next then Calc.op (d.maxValue + 1) else pure next
  else do
    let next ← Calc.op (value + realIncrement)
    if next < d.minValue then Calc.op (d.minValue - 1)
    else do
      let limit ← Calc.op (d.minValue - realIncrement)
      if value < limit then Calc.op (d.minValue - 1) else pure next

variable (vars : Vars) (q : Seq)

/-- The remainder of `next_free_value`, which is not negative. -/
def offOf (nextValue : ℤ) : Calc ℤ :=
  let off := nextValue.tmod vars.increment
  if off < 0 then Calc.op (off + vars.increment) else pure off

/-- What is added to `next_free_value` so that it has the right offset. -/
def toAdd (nextValue : ℤ) : Calc ℤ := do
  let offset := if vars.increment ≠ 1 then vars.offset % vars.increment else 0
  let off ← offOf vars nextValue
  let sum ← Calc.op (vars.increment + offset)
  let sum ← Calc.op (sum - off)
  pure (sum.tmod vars.increment)

/-- The next free value for a sequence with the increment 0. -/
def alignValue (d : Definition) (nextValue : ℤ) : Calc ℤ := do
  let add ← toAdd vars nextValue
  let limit ← Calc.op (d.maxValue - add)
  if limit < nextValue then Calc.op (d.maxValue + 1)
  else do
    let next ← Calc.op (nextValue + add)
    if d.maxValue < next then Calc.op (d.maxValue + 1) else pure next

def adjustValues (nextValue : ℤ) (q : Seq) : Calc Seq :=
  if q.d.increment ≠ 0 then
    pure { q with realIncrement := q.d.increment, nextFreeValue := nextValue }
  else do
    let next ← alignValue vars q.d nextValue
    pure { q with realIncrement := vars.increment, nextFreeValue := next }

/-- What `CREATE SEQUENCE` or `ALTER SEQUENCE` asks for; missing values are not in
`used_fields`. -/
structure Request where
  minValue : Option Int64
  maxValue : Option Int64
  start : Option Int64
  increment : Int64
  cache : Int64
  cycle : Bool

/-- `sequence_definition::check_and_adjust`; `reservedUntil` is missing if the argument of the source
is set, and then the sequence begins with `start`. -/
def checkAndAdjust (r : Request) (reservedUntil : Option Int64) : Option (Calc Seq) :=
  let increment := r.increment.toInt
  let realIncrement := if increment = 0 then vars.increment else increment
  let minValue := (r.minValue.map Int64.toInt).getD (if realIncrement < 0 then llMin + 1 else 1)
  let maxValue := (r.maxValue.map Int64.toInt).getD (if realIncrement < 0 then -1 else llMax - 1)
  let start := (r.start.map Int64.toInt).getD (if realIncrement < 0 then maxValue else minValue)
  let reservedUntil := (reservedUntil.map Int64.toInt).getD start
  let maxIncrement := wrap64 |realIncrement|
  let cache := r.cache.toInt
  if start ≤ maxValue ∧ minValue < maxValue ∧ minValue ≤ start ∧ maxValue ≠ llMax ∧
      minValue ≠ llMin ∧ 0 ≤ cache ∧
      cache < (wrap64 (llMax - maxIncrement)).tdiv maxIncrement ∧
      ((0 < realIncrement ∧ minValue ≤ reservedUntil) ∨
        (realIncrement < 0 ∧ reservedUntil ≤ maxValue)) then
    some (adjustValues vars reservedUntil
      { d := ⟨minValue, maxValue, start, increment, cache, r.cycle⟩
        reservedUntil := reservedUntil
        round := 0
        realIncrement := realIncrement
        nextFreeValue := reservedUntil
        allValuesUsed := false
        stored := ⟨reservedUntil, 0⟩ })
  else none

/-! ### The calls -/

/-- The round as it is stored: the column of the table is signed. -/
def storedRound (round : ℕ) : ℕ := if round < 2 ^ 63 then round else 2 ^ 63 - 1

def Seq.write : Seq :=
  { q with stored := ⟨q.reservedUntil, storedRound q.round⟩ }

/-- How a call of `next_value` ends: with a value, with an error of the write, without values, or it
has to begin again in the next round. -/
inductive Next
  | value (v : ℤ)
  | writeError
  | runOut
  | again
deriving DecidableEq

/-- `reserved_until` one past the limits, and `out_of_values`. -/
def reserveLast (resValue : ℤ) : Calc (ℤ × Bool) :=
  if 0 < q.realIncrement then do
    let last ← Calc.op (q.d.maxValue + 1)
    pure (last, decide (last ≤ resValue))
  else do
    let last ← Calc.op (q.d.minValue - 1)
    pure (last, decide (resValue ≤ last))

/-- How much is reserved. -/
def addToOf : Calc ℤ :=
  if q.d.cache ≠ 0 then Calc.op (q.realIncrement * q.d.cache) else pure q.realIncrement

/-- The new `reserved_until`, and `out_of_values`. -/
def reserve (resValue : ℤ) : Calc (ℤ × Bool) := do
  let addTo ← addToOf q
  if 0 < q.realIncrement then do
    let limit ← Calc.op (q.d.maxValue - addTo)
    if limit < q.reservedUntil then reserveLast q resValue
    else do
      let next ← Calc.op (q.reservedUntil + addTo)
      if q.d.maxValue < next then reserveLast q resValue else pure (next, false)
  else do
    let next ← Calc.op (q.reservedUntil + addTo)
    if next < q.d.minValue then reserveLast q resValue
    else do
      let limit ← Calc.op (q.d.minValue - addTo)
      if q.reservedUntil < limit then reserveLast q resValue else pure (next, false)

/-- The value is reserved already. -/
def Seq.reserved : Bool :=
  (0 < q.realIncrement ∧ q.nextFreeValue < q.reservedUntil) ∨
    (q.realIncrement < 0 ∧ q.reservedUntil < q.nextFreeValue)

/-- A call of `SEQUENCE::next_value`, up to the recursive call. -/
def nextValueFrom (writeOk secondRound : Bool) (q : Seq) : Calc (Seq × Next) := do
  let nextFree ← incrementValue q.d q.realIncrement q.nextFreeValue
  if q.reserved then pure ({ q with nextFreeValue := nextFree }, .value q.nextFreeValue)
  else if q.allValuesUsed then pure ({ q with nextFreeValue := nextFree }, .runOut)
  else do
    let r ← reserve q q.nextFreeValue
    if r.2 then
      if !q.d.cycle || secondRound then
        pure ({ q with nextFreeValue := nextFree, reservedUntil := r.1, allValuesUsed := true },
          .runOut)
      else do
        let first := if 0 < q.realIncrement then q.d.minValue else q.d.maxValue
        let q ← adjustValues vars first
          { q with round := (q.round + 1) % 2 ^ 64, reservedUntil := first }
        pure (q, .again)
    else if writeOk then
      pure (({ q with nextFreeValue := nextFree, reservedUntil := r.1 } : Seq).write,
        .value q.nextFreeValue)
    else pure (q, .writeError)

def nextValue (writeOk : Bool) (q : Seq) : Calc (Seq × Next) := do
  let r ← nextValueFrom vars writeOk false q
  if r.2 = .again then nextValueFrom vars writeOk true r.1 else pure r

/-- A value is before another one, in the direction of the increment. -/
def Seq.before (a b : ℤ) : Bool := if 0 < q.realIncrement then a < b else b < a

/-- The part of `SEQUENCE::set_value` that changes the sequence. -/
def setTo (writeOk needsToBeStored : Bool) (nextVal : ℤ) (nextRound : ℕ) (q : Seq) :
    Calc (Seq × ℤ) := do
  let q' ← adjustValues vars nextVal { q with round := nextRound }
  if q'.before q'.reservedUntil q'.nextFreeValue || needsToBeStored then
    if writeOk then pure (({ q' with reservedUntil := q'.nextFreeValue } : Seq).write, 0)
    else pure ({ q with realIncrement := q'.realIncrement }, 1)
  else pure (q', 0)

/-- The value after the one that is used already. -/
def freeValue (nextVal : ℤ) (isUsed : Bool) : Calc ℤ :=
  if isUsed then incrementValue q.d q.realIncrement nextVal else pure nextVal

def setValue (writeOk : Bool) (nextVal : ℤ) (nextRound : ℕ) (isUsed : Bool) (q : Seq) :
    Calc (Seq × ℤ) := do
  let nextVal ← freeValue q nextVal isUsed
  if nextRound < q.round then pure (q, -1)
  else if q.round = nextRound then
    if q.before nextVal q.nextFreeValue then pure (q, -1)
    else if nextVal = q.nextFreeValue then pure (q, 0)
    else setTo vars writeOk false nextVal nextRound q
  else if q.d.cycle = false then pure (q, 1)
  else setTo vars writeOk true nextVal nextRound q

def readStoredValues (q : Seq) : Calc Seq :=
  adjustValues vars q.stored.reservedUntil
    { q with
      reservedUntil := q.stored.reservedUntil
      round := q.stored.round
      allValuesUsed := false }

/-! ### Runs -/

/-- A call, with the variables that it reads and whether its write succeeds. -/
inductive Op
  | next (vars : Vars) (writeOk : Bool)
  | set (vars : Vars) (writeOk : Bool) (nextVal : Int64) (nextRound : UInt64) (isUsed : Bool)
  | restart (vars : Vars)

/-- A call; a value that is returned without error is given with its round. -/
def step : Op → Calc (Seq × Option (ℕ × ℤ))
  | .next vars writeOk => do
      let r ← nextValue vars writeOk q
      match r.2 with
      | .value v => pure (r.1, some (r.1.round, v))
      | _ => pure (r.1, none)
  | .set vars writeOk nextVal nextRound isUsed => do
      let r ← setValue vars writeOk nextVal.toInt nextRound.toNat isUsed q
      pure (r.1, none)
  | .restart vars => do
      let q ← readStoredValues vars q
      pure (q, none)

/-- A run of calls, with the values that were returned, in their order. -/
def run : List Op → Seq → Calc (Seq × List (ℕ × ℤ))
  | [], q => pure (q, [])
  | op :: ops, q => do
      let r ← step q op
      let r' ← run ops r.1
      pure (r'.1, r.2.toList ++ r'.2)

end Sequence
