/-
**The packed formats of temporal values.**

A `MYSQL_TIME` holds the fields of a date, a time or both.  The server compares such values through
a number in a mixed radix, `pack_time`.  A negative time is a negative number.

Main definitions:

* `MysqlTime`, `MysqlTime.InRange`: temporal values;
* `MysqlTime.Before`: the chronological order of values of one type;
* `packTime`, `unpackTime`, `myTimeCompare`: the packed number.

Main results:

* `myTimeCompare_iff`: **the comparison is chronological** unless the signs differ.
-/

import MariaDb.Radix

set_option autoImplicit false

namespace Temporal

open Radix List

/-! ### Temporal values -/

/-- `enum_mysql_timestamp_type` -/
inductive TimestampType
  | none
  | error
  | date
  | datetime
  | time
  deriving DecidableEq, Repr

/-- `MYSQL_TIME` -/
@[ext]
structure MysqlTime where
  year : ℕ
  month : ℕ
  day : ℕ
  hour : ℕ
  minute : ℕ
  second : ℕ
  secondPart : ℕ
  neg : Bool
  timeType : TimestampType
  deriving DecidableEq, Repr

/-- The fields of a value are in their ranges.  Only times are negative, and their hours and days
count up to 838 hours. -/
structure MysqlTime.InRange (t : MysqlTime) : Prop where
  minute : t.minute ≤ 59
  second : t.second ≤ 59
  secondPart : t.secondPart ≤ 999999
  kind : (t.timeType = .time ∧ t.year = 0 ∧ t.month = 0 ∧ t.day * 24 + t.hour ≤ 838) ∨
    (t.timeType = .datetime ∨ t.timeType = .date ∧ t.hour = 0 ∧ t.minute = 0 ∧ t.second = 0 ∧
      t.secondPart = 0) ∧ t.year ≤ 9999 ∧ t.month ≤ 12 ∧ t.day ≤ 31 ∧ t.hour ≤ 23 ∧ t.neg = false

section

variable (t : MysqlTime) (a b : MysqlTime)

/-- A time in microseconds, with its sign. -/
def MysqlTime.clock : ℤ :=
  (if t.neg then -1 else 1) *
    ((((t.day * 24 + t.hour) * 60 + t.minute) * 60 + t.second) * 1000000 + t.secondPart : ℕ)

/-- The fields of a date and time, the largest first. -/
def MysqlTime.fields : List ℕ :=
  [t.year, t.month, t.day, t.hour, t.minute, t.second, t.secondPart]

/-- The chronological order of two values of the type of the first one. -/
def MysqlTime.Before : Prop :=
  match a.timeType with
  | .time => a.clock < b.clock
  | _ => a.fields < b.fields

/-- A comparison has the sign of the chronological order. -/
def Ordered (c : ℤ) (a b : MysqlTime) : Prop := (c < 0 ↔ a.Before b) ∧ (0 < c ↔ b.Before a)

/-- The value with the days of a time in its hours. -/
def MysqlTime.combined : MysqlTime :=
  match t.timeType with
  | .time => { t with day := 0, hour := t.day * 24 + t.hour }
  | _ => t

/-! ### The packed number -/

/-- The fields in the mixed radix of `pack_time`. -/
def MysqlTime.number : ℕ :=
  (((((t.year * 13 + t.month) * 32 + t.day) * 24 + t.hour) * 60 + t.minute) * 60 + t.second) *
    1000000 + t.secondPart

/-- `pack_time`; the product is one of 64 bits. -/
def packTime : ℤ :=
  Int.bmod (t.number * if t.neg then -1 else 1) (2 ^ 64)

def unpackTime (packed : ℤ) (tsType : TimestampType) : MysqlTime :=
  let n := packed.natAbs
  let t : MysqlTime :=
    { secondPart := n % 1000000
      second := n / 1000000 % 60
      minute := n / 1000000 / 60 % 60
      hour := n / 1000000 / 60 / 60 % 24
      day := n / 1000000 / 60 / 60 / 24 % 32
      month := n / 1000000 / 60 / 60 / 24 / 32 % 13
      year := n / 1000000 / 60 / 60 / 24 / 32 / 13 % 2 ^ 32
      neg := packed < 0
      timeType := tsType }
  match tsType with
  | .time => { t with hour := t.hour + (t.month * 32 + t.day) * 24, month := 0, day := 0 }
  | .date => { t with hour := 0, minute := 0, second := 0, secondPart := 0 }
  | _ => t

/-- `my_time_compare` compares the packed numbers as unsigned ones. -/
def myTimeCompare : ℤ :=
  let at' := packTime a % 2 ^ 64
  let bt := packTime b % 2 ^ 64
  if at' < bt then -1 else if at' > bt then 1 else 0

end

variable {a b t : MysqlTime}

section

variable (ht : t.InRange)
include ht

theorem MysqlTime.InRange.of_time (htype : t.timeType = .time) :
    t.year = 0 ∧ t.month = 0 ∧ t.day * 24 + t.hour ≤ 838 := by
  simpa [htype] using ht.kind

theorem MysqlTime.InRange.of_ne_time (htype : t.timeType ≠ .time) :
    t.year ≤ 9999 ∧ t.month ≤ 12 ∧ t.day ≤ 31 ∧ t.hour ≤ 23 ∧ t.neg = false :=
  (ht.kind.resolve_left fun h => htype h.1).2

/-- The numbers of values in range fit into 63 bits. -/
theorem MysqlTime.InRange.number_lt : t.number < 2 ^ 63 := by
  obtain ⟨hminute, hsecond, hpart, hkind⟩ := ht
  rw [MysqlTime.number]
  omega

theorem MysqlTime.InRange.packTime_eq :
    packTime t = if t.neg then -(t.number : ℤ) else t.number := by
  have hlt := ht.number_lt
  rw [packTime, Int.bmod]
  split <;> omega

theorem MysqlTime.InRange.packTime_range : -2 ^ 63 < packTime t ∧ packTime t < 2 ^ 63 := by
  have hlt := ht.number_lt
  rw [ht.packTime_eq]
  split <;> omega

/-- The packed number of a time is the time in microseconds. -/
theorem MysqlTime.InRange.packTime_time (htype : t.timeType = .time) : packTime t = t.clock := by
  obtain ⟨hyear, hmonth, -⟩ := ht.of_time htype
  rw [ht.packTime_eq, MysqlTime.clock, MysqlTime.number, hyear, hmonth]
  split <;> push_cast <;> ring

end

/-- The order of the fields, spelled out. -/
theorem MysqlTime.fields_lt_iff : a.fields < b.fields ↔
    a.year < b.year ∨ a.year = b.year ∧ (a.month < b.month ∨ a.month = b.month ∧
      (a.day < b.day ∨ a.day = b.day ∧ (a.hour < b.hour ∨ a.hour = b.hour ∧
        (a.minute < b.minute ∨ a.minute = b.minute ∧ (a.second < b.second ∨
          a.second = b.second ∧ a.secondPart < b.secondPart))))) := by
  simp [MysqlTime.fields, List.cons_lt_cons_iff]

/-- Dates are not negative, and their packed numbers are in the order of the fields. -/
theorem MysqlTime.InRange.packTime_lt (ha : a.InRange) (hb : b.InRange)
    (hne : a.timeType ≠ .time) (hab : a.timeType = b.timeType) :
    packTime a = a.number ∧ (a.number < b.number ↔ a.fields < b.fields) := by
  have hka := ha.of_ne_time hne
  have hkb := hb.of_ne_time (hab ▸ hne)
  refine ⟨by rw [ha.packTime_eq, hka.2.2.2.2]; rfl, ?_⟩
  have := ha.minute
  have := hb.minute
  have := ha.second
  have := hb.second
  have := ha.secondPart
  have := hb.secondPart
  rw [MysqlTime.fields_lt_iff, MysqlTime.number, MysqlTime.number]
  omega

theorem MysqlTime.InRange.before_iff (ha : a.InRange) (hb : b.InRange)
    (hab : a.timeType = b.timeType) : a.Before b ↔ packTime a < packTime b := by
  unfold MysqlTime.Before
  split
  next htype => rw [ha.packTime_time htype, hb.packTime_time (hab ▸ htype)]
  next htype =>
    obtain ⟨hpa, hlt⟩ := ha.packTime_lt hb htype hab
    rw [hpa, (hb.packTime_lt ha (hab ▸ htype) hab.symm).1, ← hlt, Nat.cast_lt]

theorem MysqlTime.InRange.clock_neg_iff (ht : t.InRange) : t.clock < 0 ↔ packTime t < 0 := by
  by_cases htype : t.timeType = .time
  · rw [ht.packTime_time htype]
  have hneg := (ht.of_ne_time htype).2.2.2.2
  rw [ht.packTime_eq, MysqlTime.clock, hneg]
  simp only [Bool.false_eq_true, if_false]
  omega

/-- The comparison is right if the signs are the same. -/
theorem myTimeCompare_ordered_iff (ha : a.InRange) (hb : b.InRange)
    (hab : a.timeType = b.timeType) :
    Ordered (myTimeCompare a b) a b ↔ (a.clock < 0 ↔ b.clock < 0) := by
  have hpa := ha.packTime_range
  have hpb := hb.packTime_range
  rw [Ordered, ha.before_iff hb hab, hb.before_iff ha hab.symm, ha.clock_neg_iff, hb.clock_neg_iff]
  simp only [myTimeCompare]
  split_ifs <;> omega

/-- Unpacking gives the value back, but for the sign of a zero. -/
theorem unpackTime_packTime_iff (ha : a.InRange) :
    unpackTime (packTime a) a.timeType = a.combined ↔ (a.neg = true → a.clock ≠ 0) := by
  have hpack := ha.packTime_eq
  have habs : (packTime a).natAbs = a.number := by
    rw [hpack]
    split <;> omega
  have hsign : decide (packTime a < 0) = a.neg ↔ (a.neg = true → a.clock ≠ 0) := by
    cases hneg : a.neg with
    | false => simp [hpack, hneg]
    | true =>
      have htype : a.timeType = .time := by
        by_contra h
        simp [(ha.of_ne_time h).2.2.2.2] at hneg
      rw [← ha.packTime_time htype, hpack, hneg]
      simp
      omega
  have hminute := ha.minute
  have hsecond := ha.second
  have hpart := ha.secondPart
  rw [← hsign]
  simp only [unpackTime, habs, MysqlTime.combined]
  obtain ⟨htype, hyear, hmonth, hhour⟩ | ⟨htype | ⟨htype, hdate⟩, hkind⟩ := ha.kind
  · simp only [htype, MysqlTime.mk.injEq, MysqlTime.number, hyear, hmonth, and_true, true_and]
    refine ⟨fun h => h.2.2.2.2.2, fun h => ⟨?_, ?_, ?_, ?_, ?_, h⟩⟩ <;> omega
  · simp only [htype, MysqlTime.ext_iff, MysqlTime.number, and_true]
    refine ⟨fun h => h.2.2.2.2.2.2.2, fun h => ⟨?_, ?_, ?_, ?_, ?_, ?_, ?_, h⟩⟩ <;> omega
  · simp only [htype, MysqlTime.ext_iff, MysqlTime.number, hdate, and_true, true_and]
    refine ⟨fun h => h.2.2.2, fun h => ⟨?_, ?_, ?_, h⟩⟩ <;> omega

/-- **The comparison of temporal values is chronological** and packing loses nothing, if the signs
of the two values are the same and the packed one is no negative zero. -/
theorem myTimeCompare_iff (ha : a.InRange) (hb : b.InRange) (hab : a.timeType = b.timeType) :
    (Ordered (myTimeCompare a b) a b ∧ unpackTime (packTime a) a.timeType = a.combined) ↔
      (a.clock < 0 ↔ b.clock < 0) ∧ (a.neg = true → a.clock ≠ 0) := by
  rw [myTimeCompare_ordered_iff ha hb hab, unpackTime_packTime_iff ha]

/-- The time of so many hours and seconds. -/
def timeOf (neg : Bool) (hour second : ℕ) : MysqlTime :=
  ⟨0, 0, 0, hour, 0, second, 0, neg, .time⟩

theorem timeOf_inRange {neg : Bool} {hour second : ℕ} (hh : hour ≤ 838) (hs : second ≤ 59) :
    (timeOf neg hour second).InRange :=
  ⟨Nat.zero_le _, hs, Nat.zero_le _, .inl ⟨rfl, rfl, rfl, by simpa [timeOf] using hh⟩⟩

/-- Two negative times. -/
theorem myTimeCompare_negative_times :
    (timeOf true 2 0).InRange ∧ (timeOf true 1 5).InRange ∧
      Ordered (myTimeCompare (timeOf true 2 0) (timeOf true 1 5)) (timeOf true 2 0)
        (timeOf true 1 5) :=
  have ha := timeOf_inRange (by decide) (by decide)
  have hb := timeOf_inRange (by decide) (by decide)
  ⟨ha, hb, ((myTimeCompare_iff ha hb rfl).2 (by simp [MysqlTime.clock, timeOf])).1⟩

/-- A negative time is compared as a large one: `-00:00:01` is not before `00:00:01`. -/
theorem negative_time_compares_greater :
    (timeOf true 0 1).InRange ∧ (timeOf false 0 1).InRange ∧
      (timeOf true 0 1).Before (timeOf false 0 1) ∧
      myTimeCompare (timeOf true 0 1) (timeOf false 0 1) = 1 :=
  ⟨timeOf_inRange (by decide) (by decide), timeOf_inRange (by decide) (by decide),
    by simp [MysqlTime.Before, MysqlTime.clock, timeOf], by decide⟩

end Temporal
