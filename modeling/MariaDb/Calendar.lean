/-
**Seconds and calendar.**

Time zones turn a number of seconds since 1970 into a date with a time of day by `sec_to_TIME`
(sql/tztime.cc), for an offset from UTC, and `sec_since_epoch` goes the way back.  The first
function carries the offset into the days by two loops, finds the year by a search that starts from
1970 as if every year had 365 days, and then walks through the months.  The search is given as many
rounds as its argument says, and the months end with the table.

Main definitions:

* `secToTime`, `secSinceEpoch`: the two functions;
* `MysqlTime.Gregorian`, `LocalYear`: dates of the calendar, and their seconds;
* `startOf`, `Finds`: the days before a year, and the search for a year.

Main results:

* `secToTime_calendar`: **seconds to calendar and back**.
-/

import MariaDb.TimePacked

set_option autoImplicit false

namespace Temporal

open List

/-! ### The code -/

def isLeap (y : ℤ) : Bool := y % 4 = 0 ∧ (y % 100 ≠ 0 ∨ y % 400 = 0)

/-- `LEAPS_THRU_END_OF`; the quotients are rounded towards zero. -/
def leapsThruEndOf (y : ℤ) : ℤ := y.tdiv 4 - y.tdiv 100 + y.tdiv 400

def monLengths : Bool → List ℤ
  | false => [31, 28, 31, 30, 31, 30, 31, 31, 30, 31, 30, 31]
  | true => [31, 29, 31, 30, 31, 30, 31, 31, 30, 31, 30, 31]

def monStarts : Bool → List ℤ
  | false => [0, 31, 59, 90, 120, 151, 181, 212, 243, 273, 304, 334]
  | true => [0, 31, 60, 91, 121, 152, 182, 213, 244, 274, 305, 335]

/-- `year_lengths` -/
def yearLength (y : ℤ) : ℤ := if isLeap y then 366 else 365

/-- The loop that carries a negative rest. -/
def borrowDays (rem days : ℤ) : ℤ × ℤ :=
  if rem < 0 then borrowDays (rem + 86400) (days - 1) else (rem, days)
termination_by (-rem).toNat
decreasing_by omega

/-- The loop that carries a rest of a day or more. -/
def carryDays (rem days : ℤ) : ℤ × ℤ :=
  if 86400 ≤ rem then carryDays (rem - 86400) (days + 1) else (rem, days)
termination_by rem.toNat
decreasing_by omega

/-- The next guess of the search for the year: as if every year had 365 days. -/
def newYear (y days : ℤ) : ℤ := y + days.tdiv 365 - if days < 0 then 1 else 0

def yearLoop : ℕ → ℤ → ℤ → Option (ℤ × ℤ)
  | 0, _, _ => none
  | fuel + 1, y, days =>
    if days < 0 ∨ yearLength y ≤ days then
      let newy := newYear y days
      yearLoop fuel newy
        (days - ((newy - y) * 365 + leapsThruEndOf (newy - 1) - leapsThruEndOf (y - 1)))
    else some (y, days)

/-- The loop over the months; `none` if it leaves the table. -/
def monthLoop : List ℤ → ℕ → ℤ → Option (ℕ × ℤ)
  | [], _, _ => none
  | len :: ip, month, days =>
    if len ≤ days then monthLoop ip (month + 1) (days - len) else some (month, days)

def secToTime (fuel : ℕ) (t offset : ℤ) : Option MysqlTime :=
  let (rem, days) := borrowDays (t.tmod 86400 + offset) (t.tdiv 86400)
  let (rem, days) := carryDays rem days
  (yearLoop fuel 1970 days).bind fun (y, days) =>
    (monthLoop (monLengths (isLeap y)) 0 days).map fun (month, days) =>
      { year := y.toNat, month := month + 1, day := (days + 1).toNat
        hour := (rem / 3600).toNat, minute := (rem % 3600 / 60).toNat
        second := (rem % 3600 % 60).toNat
        secondPart := 0, neg := false, timeType := .datetime }

def secSinceEpoch (year mon mday hour min sec : ℕ) : ℤ :=
  let days := year * 365 - 1970 * 365 + leapsThruEndOf (year - 1) - leapsThruEndOf 1969 +
    (monStarts (isLeap year)).getD (mon - 1) 0 + (mday - 1)
  ((days * 24 + hour) * 60 + min) * 60 + sec

/-- A date of the Gregorian calendar with a time of day. -/
structure MysqlTime.Gregorian (d : MysqlTime) : Prop where
  year : 1 ≤ d.year ∧ d.year ≤ 9999
  month : 1 ≤ d.month ∧ d.month ≤ 12
  day : 1 ≤ d.day ∧ (d.day : ℤ) ≤ (monLengths (isLeap d.year)).getD (d.month - 1) 0
  hour : d.hour ≤ 23
  minute : d.minute ≤ 59
  second : d.second ≤ 59
  rest : d.secondPart = 0 ∧ d.neg = false ∧ d.timeType = .datetime

/-- `sec_since_epoch` of the fields of a value. -/
def MysqlTime.seconds (d : MysqlTime) : ℤ :=
  secSinceEpoch d.year d.month d.day d.hour d.minute d.second

/-- The seconds of the years 1 to 9999. -/
def LocalYear (sec : ℤ) : Prop :=
  secSinceEpoch 1 1 1 0 0 0 ≤ sec ∧ sec < secSinceEpoch 10000 1 1 0 0 0

/-! ### The loops over days and months -/

theorem borrowDays_spec (rem days : ℤ) :
    0 ≤ (borrowDays rem days).1 ∧
      (borrowDays rem days).2 * 86400 + (borrowDays rem days).1 = days * 86400 + rem := by
  fun_induction borrowDays rem days with
  | case1 rem days _ ih => omega
  | case2 rem days _ => omega

theorem carryDays_spec {rem : ℤ} (days : ℤ) (hrem : 0 ≤ rem) :
    0 ≤ (carryDays rem days).1 ∧ (carryDays rem days).1 < 86400 ∧
      (carryDays rem days).2 * 86400 + (carryDays rem days).1 = days * 86400 + rem := by
  fun_induction carryDays rem days with
  | case1 rem days _ ih =>
    omega
  | case2 rem days _ => omega

/-- The loop over the months finds the one in which the day is. -/
theorem monthLoop_spec {ip : List ℤ} {days : ℤ} (month : ℕ) (h0 : 0 ≤ days)
    (hsum : days < ip.sum) :
    ∃ i r, monthLoop ip month days = some (month + i, r) ∧ i < ip.length ∧ 0 ≤ r ∧
      r < ip.getD i 0 ∧ (ip.take i).sum + r = days := by
  induction ip generalizing month days with
  | nil => simp at hsum; omega
  | cons len ip ih =>
    rw [monthLoop]
    split
    next hle =>
      rw [sum_cons] at hsum
      obtain ⟨i, r, hloop, hi, hr, hlt, hdays⟩ := ih (month + 1) (show 0 ≤ days - len by omega)
        (by omega)
      refine ⟨i + 1, r, by rw [hloop, Nat.add_right_comm, Nat.add_assoc], ?_, hr, ?_, ?_⟩
      · simpa using hi
      · simpa using hlt
      · rw [take_succ_cons, sum_cons]
        omega
    next hlt => exact ⟨0, days, rfl, by simp, h0, by simpa using hlt, by simp⟩

/-- The starts of the months are the sums of their lengths. -/
theorem monStarts_eq (leap : Bool) : ∀ i < 12,
    (monStarts leap).getD i 0 = ((monLengths leap).take i).sum := by
  cases leap <;> decide

theorem monStarts_le (leap : Bool) : ∀ j < 12, ∀ i < j,
    (monStarts leap).getD i 0 + (monLengths leap).getD i 0 ≤ (monStarts leap).getD j 0 := by
  cases leap <;> decide

theorem monStarts_bounds (leap : Bool) : ∀ i < 12, 0 ≤ (monStarts leap).getD i 0 ∧
    (monStarts leap).getD i 0 + (monLengths leap).getD i 0 ≤ (monLengths leap).sum := by
  cases leap <;> decide

theorem sum_monLengths (y : ℤ) : (monLengths (isLeap y)).sum = yearLength y := by
  rw [yearLength]
  cases isLeap y <;> rfl

/-! ### The search for the year -/

/-- The days before a year. -/
def startOf (y : ℤ) : ℤ := 365 * y + leapsThruEndOf (y - 1)

theorem leapsThruEndOf_eq {y : ℤ} (hy : -3 ≤ y) :
    leapsThruEndOf y = max y 0 / 4 - max y 0 / 100 + max y 0 / 400 := by
  rcases le_total 0 y with h | h
  · rw [max_eq_left h, leapsThruEndOf, Int.tdiv_eq_ediv_of_nonneg h,
      Int.tdiv_eq_ediv_of_nonneg h, Int.tdiv_eq_ediv_of_nonneg h]
  · interval_cases y <;> rfl

/-- At most every fourth year is a leap year. -/
theorem leapsThruEndOf_sub {y z : ℤ} (hy : -3 ≤ y) (hyz : y ≤ z) :
    leapsThruEndOf y ≤ leapsThruEndOf z ∧
      4 * (leapsThruEndOf z - leapsThruEndOf y) ≤ z - y + 3 := by
  rw [leapsThruEndOf_eq hy, leapsThruEndOf_eq (hy.trans hyz)]
  omega

theorem yearLength_bounds (y : ℤ) : 365 ≤ yearLength y ∧ yearLength y ≤ 366 := by
  rw [yearLength]
  split <;> omega

theorem startOf_succ {y : ℤ} (hy : 1 ≤ y) : startOf (y + 1) = startOf y + yearLength y := by
  simp only [startOf, yearLength, isLeap, add_sub_cancel_right, decide_eq_true_eq]
  rw [leapsThruEndOf_eq (by omega), leapsThruEndOf_eq (by omega)]
  split <;> omega

variable {y days : ℤ} {n : ℕ}

/-- The search from a year finds the year of a day, in `n` rounds at most. -/
def Finds (n : ℕ) (y days : ℤ) : Prop :=
  ∃ y' days', (∀ fuel, n ≤ fuel → yearLoop (fuel + 1) y days = some (y', days')) ∧
    -1 ≤ y' ∧ 0 ≤ days' ∧ days' < yearLength y' ∧ startOf y' + days' = startOf y + days

theorem finds_of_lt (hy : -1 ≤ y) (h0 : 0 ≤ days) (hlt : days < yearLength y) : Finds n y days :=
  ⟨y, days, fun fuel _ => by rw [yearLoop, if_neg (by omega)], hy, h0, hlt, rfl⟩

theorem Finds.round (hy : -1 ≤ y)
    (h : Finds n (newYear y days) (startOf y + days - startOf (newYear y days))) :
    Finds (n + 1) y days := by
  by_cases hin : 0 ≤ days ∧ days < yearLength y
  · exact finds_of_lt hy hin.1 hin.2
  obtain ⟨y', days', hloop, hy', h0, hlt, hsum⟩ := h
  refine ⟨y', days', fun fuel hfuel => ?_, hy', h0, hlt, by omega⟩
  obtain ⟨fuel, rfl⟩ := Nat.exists_eq_add_of_le' (show 1 ≤ fuel by omega)
  rw [yearLoop, if_pos (by omega), ← hloop fuel (by omega)]
  simp only [startOf]
  congr 1
  ring

/-- A round forward leaves less than a year, or goes too far by the leap days. -/
theorem finds_forward (hy : -1 ≤ y) (h0 : 0 ≤ days)
    (hnext : ∀ y' days', y' = y + days / 365 → startOf y' + days' = startOf y + days →
      days' ≤ 364 → -(days / 365 + 3) ≤ 4 * days' → Finds n y' days') : Finds (n + 1) y days := by
  have hnew : newYear y days = y + days / 365 := by
    rw [newYear, Int.tdiv_eq_ediv_of_nonneg h0, if_neg (by omega), sub_zero]
  have hleaps := leapsThruEndOf_sub (y := y - 1) (z := y + days / 365 - 1) (by omega) (by omega)
  have hy' : startOf (y + days / 365) = _ := startOf.eq_1 _
  refine .round (by omega) (hnew ▸ hnext _ _ rfl (by omega) ?_ ?_) <;> rw [startOf.eq_1 y] <;> omega

/-- A round back leaves a year and the leap days at most. -/
theorem finds_back (hneg : days < 0) (hy : -1 ≤ y - -days / 365 - 1)
    (hnext : ∀ y' days', y' = y - -days / 365 - 1 → startOf y' + days' = startOf y + days →
      1 ≤ days' → 4 * days' ≤ 1464 + -days / 365 → Finds n y' days') : Finds (n + 1) y days := by
  have hnew : newYear y days = y - -days / 365 - 1 := by
    rw [newYear, ← Int.neg_neg days, Int.neg_tdiv, Int.tdiv_eq_ediv_of_nonneg (by omega), neg_neg,
      if_pos hneg]
    rfl
  have hleaps := leapsThruEndOf_sub (y := y - -days / 365 - 1 - 1) (z := y - 1) (by omega)
    (by omega)
  have hy' : startOf (y - -days / 365 - 1) = _ := startOf.eq_1 _
  refine .round (by omega) (hnew ▸ hnext _ _ rfl (by omega) ?_ ?_) <;> rw [startOf.eq_1 y] <;> omega

/-- **The search for the year** ends after four rounds at most: each way it goes too far only by
the leap days of the years between. -/
theorem finds_epoch (hlo : 366 ≤ startOf 1970 + days) (hhi : startOf 1970 + days < startOf 10000) :
    Finds 4 1970 days := by
  have hepoch : startOf 1970 = 719527 := rfl
  have hend : startOf 10000 = 3652424 := rfl
  rcases Int.lt_or_le days 0 with hneg | hpos
  · refine finds_back hneg (by omega) fun y1 d1 hy1 hs1 h1 h1' => ?_
    refine finds_forward (by omega) (by omega) fun y2 d2 hy2 hs2 h2 h2' => ?_
    rcases Int.lt_or_le d2 0 with hneg2 | hpos2
    · -- the last day of a year was missed
      refine finds_back hneg2 (by omega) fun y3 d3 hy3 hs3 h3 h3' => ?_
      have hpos : 1 ≤ y3 := by
        by_contra hle
        have hleaps := leapsThruEndOf_sub (y := y2 - 1) (z := 0) (by omega) (by omega)
        have hzero : leapsThruEndOf 0 = 0 := rfl
        rw [startOf.eq_1 y2] at hs2
        omega
      have hnext := startOf_succ hpos
      obtain rfl : y2 = y3 + 1 := by omega
      exact finds_of_lt (by omega) (by omega) (by omega)
    · exact finds_of_lt (by omega) hpos2 (by have := yearLength_bounds y2; omega)
  · refine finds_forward (by omega) (by omega) fun y1 d1 hy1 hs1 h1 h1' => ?_
    rcases Int.lt_or_le d1 0 with hneg1 | hpos1
    · refine finds_back hneg1 (by omega) fun y2 d2 hy2 hs2 h2 h2' => ?_
      have hlen := yearLength_bounds y2
      by_cases hlast : d2 < yearLength y2
      · exact finds_of_lt (by omega) (by omega) hlast
      refine finds_forward (by omega) (by omega) fun y3 d3 hy3 hs3 h3 h3' => ?_
      have hnext := startOf_succ (y := y2) (by omega)
      obtain rfl : y3 = y2 + 1 := by omega
      have hlen' := yearLength_bounds (y2 + 1)
      exact finds_of_lt (by omega) (by omega) (by omega)
    · exact finds_of_lt (by omega) hpos1 (by have := yearLength_bounds y1; omega)

theorem yearLoop_spec (hlo : 365 ≤ startOf 1970 + days) (hhi : startOf 1970 + days < startOf 10000)
    {fuel : ℕ} (hfuel : 5 ≤ fuel) :
    ∃ y days', yearLoop fuel 1970 days = some (y, days') ∧ 1 ≤ y ∧ y ≤ 9999 ∧ 0 ≤ days' ∧
      days' < yearLength y ∧ startOf y + days' = startOf 1970 + days := by
  obtain ⟨fuel, rfl⟩ := Nat.exists_eq_add_of_le' hfuel
  by_cases hfirst : startOf 1970 + days = 365
  · -- the search from 1970 passes the year 0, which counts as a leap year, but does not stop there
    have hdays : days = -719162 := by
      have hepoch : startOf 1970 = 719527 := rfl
      omega
    exact ⟨1, 0, by subst hdays; rfl, by omega, by omega, by omega, by decide, hfirst.symm⟩
  obtain ⟨y, days', hloop, hy, h0, hlt, hsum⟩ := finds_epoch (by omega) hhi
  refine ⟨y, days', hloop _ (by omega), ?_, ?_, h0, hlt, hsum⟩
  · by_contra hle
    have hstart : startOf y + yearLength y ≤ 366 := by
      obtain rfl | rfl : y = -1 ∨ y = 0 := by omega
      all_goals decide
    omega
  · by_contra hge
    have := leapsThruEndOf_sub (y := 9999) (z := y - 1) (by omega) (by omega)
    have hend : startOf 10000 = 3650000 + leapsThruEndOf 9999 := rfl
    rw [startOf.eq_1 y] at hsum
    omega

/-! ### The way back -/

theorem secToTime_spec {t offset : ℤ} (h : LocalYear (t + offset)) {fuel : ℕ} (hfuel : 5 ≤ fuel) :
    ∃ d, secToTime fuel t offset = some d ∧ d.Gregorian ∧ d.seconds = t + offset := by
  obtain ⟨hlo, hhi⟩ := h
  rw [show secSinceEpoch 1 1 1 0 0 0 = -62135596800 from rfl] at hlo
  rw [show secSinceEpoch 10000 1 1 0 0 0 = 253402300800 from rfl] at hhi
  have hepoch : startOf 1970 = 719050 + leapsThruEndOf 1969 := rfl
  have hepoch' : startOf 1970 = 719527 := rfl
  have hend : startOf 10000 = 3652424 := rfl
  obtain ⟨hborrow, hsum⟩ := borrowDays_spec (t.tmod 86400 + offset) (t.tdiv 86400)
  obtain ⟨hrem, hrem', hsum'⟩ := carryDays_spec
    (borrowDays (t.tmod 86400 + offset) (t.tdiv 86400)).2 hborrow
  have ht := Int.tmod_add_mul_tdiv t 86400
  simp only [secToTime]
  generalize carryDays _ _ = r at hrem hrem' hsum' ⊢
  obtain ⟨rem, days⟩ := r
  obtain ⟨y, days', hyear, hy, hy', h0, hlt, hdays⟩ := yearLoop_spec
    (show 365 ≤ startOf 1970 + days by omega) (by omega) hfuel
  rw [← sum_monLengths] at hlt
  obtain ⟨i, r, hmonth, hi, hr, hr', hsplit⟩ := monthLoop_spec 0 h0 hlt
  have hi' : i < 12 := by
    rwa [show (monLengths (isLeap y)).length = 12 by cases isLeap y <;> rfl] at hi
  rw [hyear, Option.bind_some, hmonth, Option.map_some]
  have hyear' : ((y.toNat : ℕ) : ℤ) = y := Int.toNat_of_nonneg (by omega)
  rw [startOf.eq_1 y] at hdays
  refine ⟨_, rfl, ⟨?_, ?_, ?_, ?_, ?_, ?_, rfl, rfl, rfl⟩, ?_⟩
  all_goals
    simp only [MysqlTime.seconds, secSinceEpoch, hyear', Nat.zero_add, Nat.add_sub_cancel,
      monStarts_eq _ i hi']
    omega

/-- The seconds of dates are in the order of the dates. -/
theorem MysqlTime.Gregorian.seconds_lt {a b : MysqlTime} (ha : a.Gregorian) (hb : b.Gregorian)
    (hlt : a.fields < b.fields) : a.seconds < b.seconds := by
  have hbound := monStarts_bounds (isLeap b.year) (b.month - 1) (by have := hb.month; omega)
  obtain ⟨hyear, hmonth, hday, hhour, hminute, hsecond, hrest⟩ := ha
  obtain ⟨hyear', hmonth', hday', hhour', hminute', hsecond', hrest'⟩ := hb
  simp only [MysqlTime.seconds, secSinceEpoch]
  rcases MysqlTime.fields_lt_iff.1 hlt with hy | ⟨hy, hm | ⟨hm, htime⟩⟩
  · have hleaps := leapsThruEndOf_sub (y := a.year) (z := b.year - 1) (by omega) (by omega)
    have hend := monStarts_bounds (isLeap a.year) (a.month - 1) (by omega)
    have hnext := startOf_succ (y := a.year) (by omega)
    rw [sum_monLengths] at hend
    simp only [startOf, add_sub_cancel_right] at hnext
    omega
  · have hmon := monStarts_le (isLeap b.year) (b.month - 1) (by omega) (a.month - 1) (by omega)
    rw [hy] at hday ⊢
    omega
  · rw [hy, hm]
    omega

/-- **Seconds to calendar and back.**  For every time of the local years 1 to 9999 `sec_to_TIME`
ends, with four rounds of the search for the year at most, and gives a date of the Gregorian
calendar that `sec_since_epoch` takes back to the local seconds; later times give later dates. -/
theorem secToTime_calendar {t t' offset : ℤ} {fuel : ℕ} (ht : LocalYear (t + offset))
    (ht' : LocalYear (t' + offset)) (hfuel : 5 ≤ fuel) :
    ∃ d d', secToTime fuel t offset = some d ∧ secToTime fuel t' offset = some d' ∧
      d.Gregorian ∧ d.seconds = t + offset ∧ (t < t' → d.fields < d'.fields) := by
  obtain ⟨d, hd, hvalid, hsec⟩ := secToTime_spec ht hfuel
  obtain ⟨d', hd', hvalid', hsec'⟩ := secToTime_spec ht' hfuel
  refine ⟨d, d', hd, hd', hvalid, hsec, fun hlt => ?_⟩
  rcases lt_trichotomy d.fields d'.fields with h | h | h
  · exact h
  · simp only [MysqlTime.fields, cons.injEq] at h
    simp only [MysqlTime.seconds, h] at hsec hsec'
    omega
  · have := hvalid'.seconds_lt hvalid h
    omega

/-- The last second of 1999 and a time on the leap day of 2000, in a zone one hour ahead. -/
theorem secToTime_new_year :
    LocalYear (946681199 + 3600) ∧ LocalYear (951782399 + 3600) ∧
      ∃ d d', secToTime 5 946681199 3600 = some d ∧ secToTime 5 951782399 3600 = some d' ∧
        d.Gregorian ∧ d.seconds = 946684799 ∧ d.fields < d'.fields := by
  have ht : LocalYear (946681199 + 3600) := by constructor <;> decide
  have ht' : LocalYear (951782399 + 3600) := by constructor <;> decide
  obtain ⟨d, d', hd, hd', hvalid, hsec, hlt⟩ := secToTime_calendar ht ht' le_rfl
  exact ⟨ht, ht', d, d', hd, hd', hvalid, hsec, hlt (by decide)⟩

end Temporal
