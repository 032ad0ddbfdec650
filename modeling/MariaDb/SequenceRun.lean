/-
**Sequences: what a run of calls returns.**

Ascending and descending sequences are treated alike: `Definition.key` turns the values of a
descending sequence around.  The invariant says that the values that were returned lie before the
next value, in memory and in the row that was written last, so that a restart does not go back.

Main definitions:

* `Definition.key`, `Definition.lo`, `Definition.hi`: one direction;
* `StepOk`: the call does not take one of the ways that go wrong;
* `Inv`: the invariant.

Main results:

* `run_returns`: **in a run whose calls all meet the condition the values are in range, follow each
  other in every round and do not repeat, and no sum overflows**.
-/

import MariaDb.Sequence

set_option autoImplicit false

namespace Sequence

open Definition Calc

/-! ### Computations without overflow -/

theorem Calc.ext {α : Type} {x y : Calc α} (hval : x.val = y.val) (hexact : x.exact = y.exact) :
    x = y := by
  cases x
  cases y
  simp_all

instance : LawfulMonad Calc := LawfulMonad.mk' Calc
  (fun x => ext rfl (Bool.and_true _))
  (fun _ _ => ext rfl (Bool.true_and _))
  (fun _ _ _ => ext rfl (Bool.and_assoc _ _ _))

theorem fits_toInt (x : Int64) : Fits x.toInt := by
  have h1 := x.le_toInt
  have h2 := x.toInt_lt
  unfold Fits llMin llMax
  omega

variable {x real v w : ℤ} {d : Definition} {q : Seq} {vars : Vars} {r : ℕ}

theorem wrap64_of_fits (h : Fits x) : wrap64 x = x := by
  unfold Fits llMin llMax at h
  unfold wrap64
  omega

theorem Calc.op_of_fits (h : Fits x) : op x = pure x := by
  refine ext (wrap64_of_fits h) ?_
  exact decide_eq_true h

/-! ### One direction -/

/-- The limits of an accepted definition. -/
structure Definition.Valid (d : Definition) : Prop where
  min_gt : llMin < d.minValue
  min_lt_max : d.minValue < d.maxValue
  max_lt : d.maxValue < llMax
  cache : 0 ≤ d.cache

/-- The place of a value in the direction of the increment. -/
def Definition.key (d : Definition) (v : ℤ) : ℤ := if 0 ≤ d.increment then v else -v

/-- The place of the first value. -/
def Definition.lo (d : Definition) : ℤ := if 0 ≤ d.increment then d.minValue else -d.maxValue

/-- The place of the last value. -/
def Definition.hi (d : Definition) : ℤ := if 0 ≤ d.increment then d.maxValue else -d.minValue

/-- The increment that is used has the direction of the definition. -/
structure Real (d : Definition) (real : ℤ) : Prop where
  dir : (0 ≤ d.increment ∧ 0 < real) ∨ (d.increment < 0 ∧ real < 0)
  fits : Fits real
  eq : d.increment ≠ 0 → real = d.increment

section Helpers

variable {d : Definition} {real v : ℤ}

theorem Definition.Valid.lo_lt_hi (hd : d.Valid) : d.lo < d.hi := by
  have := hd.min_lt_max
  unfold lo hi
  split <;> omega

theorem Definition.mem_range_iff :
    (d.lo ≤ d.key v ∧ d.key v ≤ d.hi) ↔ (d.minValue ≤ v ∧ v ≤ d.maxValue) := by
  unfold lo hi key
  split <;> omega

theorem Real.key_pos (hr : Real d real) : 0 < d.key real := by
  have hdir := hr.dir
  unfold key
  split <;> omega

/-- The next value is one increment later, or one past the last value. -/
def Steps (d : Definition) (real v w : ℤ) : Prop :=
  Fits w ∧ (d.hi < d.key v + d.key real → d.key w = d.hi + 1) ∧
    (d.key v + d.key real ≤ d.hi → d.key w = d.key v + d.key real)

/-- The sums of `increment_value` are 64-bit integers. -/
def IncrementRoom (d : Definition) (real v : ℤ) : Prop :=
  (0 < real → llMin ≤ d.maxValue - real) ∧ (real < 0 → llMin ≤ v + real)

instance : Decidable (IncrementRoom d real v) := inferInstanceAs (Decidable (_ ∧ _))

/-- A sum up to `max`, as the source tests it, does not overflow. -/
theorem addUp_eq {α : Type} {max add : ℤ} (hmax : max < llMax) (hlow : llMin ≤ max - add)
    (hadd : 0 ≤ add) (hv : Fits v) (last : Calc α) (f : ℤ → Calc α) :
    (do
      let limit ← op (max - add)
      if limit < v then last
      else do
        let next ← op (v + add)
        if max < next then last else f next) = if max < v + add then last else f (v + add) := by
  unfold Fits at hv
  rw [op_of_fits ⟨hlow, by omega⟩, pure_bind]
  by_cases hgt : max - add < v
  · rw [if_pos hgt, if_pos (by omega)]
  · rw [if_neg hgt, op_of_fits ⟨by omega, by omega⟩, pure_bind]

/-- A sum down to `min`; the second test cannot overflow once the first one has failed. -/
theorem addDown_eq {α : Type} {min add : ℤ} (hmin : llMin < min) (hlow : llMin ≤ v + add)
    (hadd : add ≤ 0) (hv : Fits v) (last : Calc α) (f : ℤ → Calc α) :
    (do
      let next ← op (v + add)
      if next < min then last
      else do
        let limit ← op (min - add)
        if v < limit then last else f next) = if v + add < min then last else f (v + add) := by
  unfold Fits at hv
  rw [op_of_fits ⟨hlow, by omega⟩, pure_bind]
  by_cases hgt : v + add < min
  · rw [if_pos hgt, if_pos hgt]
  · rw [if_neg hgt, if_neg hgt, op_of_fits ⟨by omega, by omega⟩, pure_bind, if_neg (by omega)]

/-- **`increment_value` goes to the next value, or one past the last one.** -/
theorem incrementValue_spec (hd : d.Valid) (hr : Real d real) (hv : Fits v)
    (hroom : IncrementRoom d real v) :
    ∃ w, incrementValue d real v = pure w ∧ Steps d real v w := by
  obtain ⟨hmin, hlt, hmax, -⟩ := hd
  unfold Steps key hi incrementValue
  rcases hr.dir with ⟨hinc, hpos⟩ | ⟨hinc, hneg⟩
  · have hlast : Fits (d.maxValue + 1) := ⟨by omega, by omega⟩
    simp only [if_pos hpos, if_pos hinc, addUp_eq hmax (hroom.1 hpos) hpos.le hv, op_of_fits hlast]
    unfold Fits at hv
    split
    · exact ⟨_, rfl, hlast, fun _ => rfl, fun h => by omega⟩
    · exact ⟨_, rfl, ⟨by omega, by omega⟩, fun h => by omega, fun _ => rfl⟩
  have hlow := hroom.2 hneg
  have hlast : Fits (d.minValue - 1) := ⟨by omega, by omega⟩
  simp only [if_neg (show ¬ 0 < real by omega), if_neg (show ¬ 0 ≤ d.increment by omega),
    addDown_eq hmin hlow hneg.le hv, op_of_fits hlast]
  unfold Fits at hv
  split
  · exact ⟨_, rfl, hlast, fun _ => by omega, fun h => by omega⟩
  · exact ⟨_, rfl, ⟨hlow, by omega⟩, fun h => by omega, fun _ => by omega⟩

end Helpers

/-! ### Reserving values -/

/-- How many values are reserved at once. -/
def Definition.count (d : Definition) : ℤ := if d.cache ≠ 0 then d.cache else 1

theorem Definition.Valid.count_pos (hd : d.Valid) : 1 ≤ d.count := by
  have := hd.cache
  unfold count
  split <;> omega

/-- The product and the sums of a new reservation are 64-bit integers. -/
def ReserveRoom (d : Definition) (real reserved : ℤ) : Prop :=
  Fits (real * d.count) ∧ (0 < real → llMin ≤ d.maxValue - real * d.count) ∧
    (real < 0 → llMin ≤ reserved + real * d.count)

instance (d : Definition) (real reserved : ℤ) : Decidable (ReserveRoom d real reserved) :=
  inferInstanceAs (Decidable (_ ∧ _))

theorem addToOf_spec (hfits : Fits (q.realIncrement * q.d.count)) :
    addToOf q = pure (q.realIncrement * q.d.count) := by
  unfold addToOf
  unfold count at *
  by_cases hcache : q.d.cache ≠ 0
  · simp only [if_pos hcache] at hfits ⊢
    exact op_of_fits hfits
  · simp [if_neg hcache]

/-- The reservation is at least one increment long. -/
theorem Real.key_le_key_add (hd : d.Valid) (hr : Real d real) :
    d.key real ≤ d.key (real * d.count) := by
  have hcount := hd.count_pos
  unfold key
  rcases hr.dir with ⟨h, hreal⟩ | ⟨h, hreal⟩ <;> split <;> nlinarith

theorem reserveLast_spec (hd : q.d.Valid) (hr : Real q.d q.realIncrement) :
    ∃ r out, reserveLast q v = pure (r, out) ∧ Fits r ∧ q.d.key r = q.d.hi + 1 ∧
      (out = true ↔ q.d.hi < q.d.key v) := by
  obtain ⟨hmin, hlt, hmax, -⟩ := hd
  unfold reserveLast key hi
  rcases hr.dir with ⟨hinc, hpos⟩ | ⟨hinc, hneg⟩
  · have hlast : Fits (q.d.maxValue + 1) := ⟨by omega, by omega⟩
    simp only [if_pos hpos, if_pos hinc, op_of_fits hlast, pure_bind]
    exact ⟨_, _, rfl, hlast, rfl, decide_eq_true_iff.trans Int.add_one_le_iff⟩
  · have hlast : Fits (q.d.minValue - 1) := ⟨by omega, by omega⟩
    simp only [if_neg (show ¬ 0 < q.realIncrement by omega),
      if_neg (show ¬ 0 ≤ q.d.increment by omega), op_of_fits hlast, pure_bind]
    exact ⟨_, _, rfl, hlast, by omega, decide_eq_true_iff.trans (by omega)⟩

/-- **A new reservation ends at most one past the last value.**  There are no values left if the next
one lies beyond it. -/
theorem reserve_spec (hd : q.d.Valid) (hr : Real q.d q.realIncrement) (hrs : Fits q.reservedUntil)
    (hroom : ReserveRoom q.d q.realIncrement q.reservedUntil) :
    ∃ r out, reserve q v = pure (r, out) ∧
      Steps q.d (q.realIncrement * q.d.count) q.reservedUntil r ∧
      (out = true ↔ q.d.hi < q.d.key r ∧ q.d.hi < q.d.key v) := by
  obtain ⟨r, out, hlast, hfitsr, hkeyr, hout⟩ := reserveLast_spec (v := v) hd hr
  have hkey := Real.key_le_key_add hd hr
  obtain ⟨hmin, hlt, hmax, -⟩ := hd
  obtain ⟨hfits, hasc, hdesc⟩ := hroom
  unfold reserve Steps
  rw [addToOf_spec hfits, hlast, pure_bind]
  rcases hr.dir with ⟨hinc, hreal⟩ | ⟨hinc, hreal⟩
  · simp only [key, hi, if_pos hinc] at *
    rw [if_pos hreal, addUp_eq hmax (hasc hreal) (by omega) hrs]
    unfold Fits at hrs
    split
    · exact ⟨r, out, rfl, ⟨hfitsr, fun _ => hkeyr, fun h => by omega⟩, by rw [hout]; omega⟩
    · exact ⟨_, _, rfl, ⟨⟨by omega, by omega⟩, fun h => by omega, fun _ => rfl⟩, by simp; omega⟩
  · have hlow := hdesc hreal
    simp only [key, hi, if_neg (show ¬ 0 ≤ q.d.increment by omega)] at *
    rw [if_neg (by omega), addDown_eq hmin hlow (by omega) hrs]
    unfold Fits at hrs
    split
    · exact ⟨r, out, rfl, ⟨hfitsr, fun _ => hkeyr, fun h => by omega⟩, by rw [hout]; omega⟩
    · exact ⟨_, _, rfl, ⟨⟨hlow, by omega⟩, fun h => by omega, fun _ => by omega⟩, by simp; omega⟩

/-! ### Aligning values -/

/-- The sums of `adjust_values` are 64-bit integers. -/
def AdjustRoom (d : Definition) (vars : Vars) : Prop :=
  d.increment = 0 → llMin ≤ d.maxValue - vars.increment

instance (d : Definition) (vars : Vars) : Decidable (AdjustRoom d vars) :=
  inferInstanceAs (Decidable (_ → _))

theorem toAdd_spec (vars : Vars) (v : ℤ) :
    ∃ add, toAdd vars v = pure add ∧ 0 ≤ add ∧ add < vars.increment := by
  have hpos := vars.increment_pos
  have hle := vars.increment_le
  have hoffset : 0 ≤ (if vars.increment ≠ 1 then vars.offset % vars.increment else 0) ∧
      (if vars.increment ≠ 1 then vars.offset % vars.increment else 0) < vars.increment := by
    have h1 := Int.emod_nonneg vars.offset (show vars.increment ≠ 0 by omega)
    have h2 := Int.emod_lt_of_pos vars.offset (show 0 < vars.increment by omega)
    split <;> omega
  have hoff : ∃ off, offOf vars v = pure off ∧ 0 ≤ off ∧ off < vars.increment := by
    have h1 := Int.tmod_lt_of_pos v (show 0 < vars.increment by omega)
    have h2 := Int.lt_tmod_of_pos v (show 0 < vars.increment by omega)
    unfold offOf
    by_cases hneg : v.tmod vars.increment < 0
    · have hfits : Fits (v.tmod vars.increment + vars.increment) := by
        unfold Fits llMin llMax
        omega
      simp only [if_pos hneg]
      exact ⟨_, op_of_fits hfits, by omega, by omega⟩
    · simp only [if_neg hneg]
      exact ⟨_, rfl, by omega, by omega⟩
  obtain ⟨off, hoff, hoff0, hoff1⟩ := hoff
  unfold toAdd
  generalize (if vars.increment ≠ 1 then vars.offset % vars.increment else 0) = offset at *
  have hsum : Fits (vars.increment + offset) := by
    unfold Fits llMin llMax
    omega
  have hdiff : Fits (vars.increment + offset - off) := by
    unfold Fits llMin llMax
    omega
  rw [hoff, pure_bind, op_of_fits hsum, pure_bind, op_of_fits hdiff, pure_bind]
  exact ⟨_, rfl, Int.tmod_nonneg _ (by omega), Int.tmod_lt_of_pos _ (by omega)⟩

/-- **The aligned value** is less than one increment away, or one past the last value. -/
theorem alignValue_spec (hd : d.Valid) (hv : Fits v) (hroom : llMin ≤ d.maxValue - vars.increment) :
    ∃ w, alignValue vars d v = pure w ∧ w ≤ d.maxValue + 1 ∧ (v ≤ w ∨ w = d.maxValue + 1) ∧
      Fits w ∧ (w < v + vars.increment ∨ d.maxValue < v + vars.increment) := by
  obtain ⟨add, hadd, hadd0, hadd1⟩ := toAdd_spec vars v
  obtain ⟨hmin, hlt, hmax, -⟩ := hd
  have hlast : Fits (d.maxValue + 1) := ⟨by omega, by omega⟩
  unfold alignValue
  rw [hadd, pure_bind, addUp_eq hmax (by omega) hadd0 hv, op_of_fits hlast]
  unfold Fits at hv
  split
  · exact ⟨_, rfl, le_rfl, .inr rfl, hlast, by omega⟩
  · exact ⟨_, rfl, by omega, .inl (by omega), ⟨by omega, by omega⟩, by omega⟩

/-- What `adjust_values` makes of a value: it is not before it, unless it is one past the last value,
and less than one increment behind it. -/
structure Adjusted (d : Definition) (v w real : ℤ) : Prop where
  isReal : Real d real
  fits : Fits w
  same : d.increment ≠ 0 → w = v
  le_last : d.increment = 0 → d.key w ≤ d.hi + 1
  ge : d.key v ≤ d.key w ∨ d.key w = d.hi + 1
  near : d.key w < d.key v + d.key real ∨ d.hi < d.key v + d.key real

/-- **`adjust_values` changes the next value and the increment.** -/
theorem adjustValues_spec (vars : Vars) (hd : q.d.Valid) (hv : Fits v) (hinc : Fits q.d.increment)
    (hroom : AdjustRoom q.d vars) :
    ∃ w real, adjustValues vars v q = pure { q with realIncrement := real, nextFreeValue := w } ∧
      Adjusted q.d v w real ∧ (q.d.increment = 0 → real = vars.increment) := by
  unfold adjustValues
  by_cases hzero : q.d.increment = 0
  · have hpos := vars.increment_pos
    have hle := vars.increment_le
    obtain ⟨w, hw, hlast, hge, hfits, hnear⟩ := alignValue_spec hd hv (hroom hzero)
    rw [if_neg (by simpa using hzero), hw, pure_bind]
    have hreal : Real q.d vars.increment :=
      ⟨.inl ⟨by omega, by omega⟩, by unfold Fits llMin llMax; omega, fun h => absurd hzero h⟩
    refine ⟨w, vars.increment, rfl, ⟨hreal, hfits, fun h => absurd hzero h, ?_, ?_, ?_⟩, fun _ => rfl⟩
    all_goals simp only [key, hi, hzero, le_refl, if_true]
    · exact fun _ => hlast
    · exact hge
    · exact hnear
  · rw [if_pos hzero]
    have hreal : Real q.d q.d.increment := ⟨by omega, hinc, fun _ => rfl⟩
    have hpos := hreal.key_pos
    exact ⟨v, q.d.increment, rfl, ⟨hreal, hv, fun _ => rfl, fun h => absurd h hzero, .inl le_rfl,
      .inl (by omega)⟩, fun h => absurd h hzero⟩

/-! ### The ways that go wrong -/

/-- The first value of a round. -/
def Definition.first (d : Definition) : ℤ := if 0 ≤ d.increment then d.minValue else d.maxValue

/-- The increment that `adjust_values` sets. -/
def Definition.realFor (d : Definition) (vars : Vars) : ℤ :=
  if d.increment = 0 then vars.increment else d.increment

/-- A call of `next_value` does not go wrong: its sums are 64-bit integers, also those of the new
round if it begins one; the round can be stored; and `reserved_until` does not lie beyond the limits
when all values are used. -/
structure NextOk (vars : Vars) (q : Seq) : Prop where
  increment : IncrementRoom q.d q.realIncrement q.nextFreeValue
  reserve : q.reserved = false → q.allValuesUsed = false →
    ReserveRoom q.d q.realIncrement q.reservedUntil
  used : q.allValuesUsed = true → q.d.key q.reservedUntil ≤ q.d.hi + 1
  cycle : q.d.cycle = true → q.d.hi < q.d.key q.nextFreeValue → q.round + 1 < 2 ^ 63 ∧
    AdjustRoom q.d vars ∧ IncrementRoom q.d (q.d.realFor vars) q.d.first ∧
    ReserveRoom q.d (q.d.realFor vars) q.d.first

/-- A call of `set_value` does not go wrong: its sums are 64-bit integers; a value for a later round
is not before the first value, and the round can be stored; and if the write fails, the increment
has not become smaller. -/
structure SetOk (vars : Vars) (writeOk : Bool) (nextVal : ℤ) (nextRound : ℕ) (isUsed : Bool)
    (q : Seq) : Prop where
  increment : isUsed = true → IncrementRoom q.d q.realIncrement nextVal
  adjust : AdjustRoom q.d vars
  later : q.d.cycle = true → q.round < nextRound → nextRound < 2 ^ 63 ∧
    q.d.lo ≤ q.d.key nextVal + if isUsed then q.d.key q.realIncrement else 0
  failed : writeOk = false → q.d.increment = 0 → q.realIncrement ≤ vars.increment

/-- A call does not go wrong. -/
def StepOk (q : Seq) : Op → Prop
  | .next vars _ => NextOk vars q
  | .set vars writeOk nextVal nextRound isUsed =>
    SetOk vars writeOk nextVal.toInt nextRound.toNat isUsed q
  | .restart vars => AdjustRoom q.d vars

/-- No call of a run goes wrong. -/
def RunOk : List Op → Seq → Prop
  | [], _ => True
  | op :: ops, q => StepOk q op ∧ RunOk ops (step q op).val.1

/-! ### The invariant -/

/-- The invariant of a sequence; `last` is what was returned last, with its round. -/
structure Inv (q : Seq) (last : Option (ℕ × ℤ)) : Prop where
  valid : q.d.Valid
  inc : Fits q.d.increment
  isReal : Real q.d q.realIncrement
  fits_next : Fits q.nextFreeValue
  fits_reserved : Fits q.reservedUntil
  fits_stored : Fits q.stored.reservedUntil
  lo_next : q.d.lo ≤ q.d.key q.nextFreeValue
  lo_reserved : q.d.lo ≤ q.d.key q.reservedUntil
  lo_stored : q.d.lo ≤ q.d.key q.stored.reservedUntil
  limit : q.d.key q.reservedUntil ≤ q.d.hi + 1 ∨ q.d.key q.reservedUntil ≤ q.d.key q.nextFreeValue
  zero : q.d.increment = 0 → q.d.key q.reservedUntil ≤ q.d.hi + 1 ∧
    q.d.key q.stored.reservedUntil ≤ q.d.hi + 1
  covered : q.d.key q.reservedUntil ≤ q.d.key q.nextFreeValue ∨
    (q.stored.round = q.round ∧ q.d.key q.reservedUntil ≤ q.d.key q.stored.reservedUntil)
  round_le : q.stored.round ≤ q.round
  round_lt : q.round < 2 ^ 63
  near : q.allValuesUsed = true ∨
    q.d.key q.nextFreeValue < q.d.key q.reservedUntil + q.d.key q.realIncrement ∨
    q.d.hi < q.d.key q.reservedUntil + q.d.key q.realIncrement
  returned : ∀ r v, last = some (r, v) → q.d.key v ≤ q.d.hi ∧
    (r < q.round ∨ r = q.round ∧ q.d.key v < q.d.key q.nextFreeValue) ∧
    (r < q.stored.round ∨ r = q.stored.round ∧ q.d.key v < q.d.key q.stored.reservedUntil)

/-- A value follows the one that was returned last. -/
def Follows (d : Definition) (last : Option (ℕ × ℤ)) (r : ℕ) (v : ℤ) : Prop :=
  ∀ r' v', last = some (r', v') → r' < r ∨ r' = r ∧ d.key v' < d.key v

section Calls

variable {q : Seq} {last : Option (ℕ × ℤ)} {vars : Vars}

/-- The value is reserved exactly if it is before `reserved_until`. -/
theorem reserved_iff (hr : Real q.d q.realIncrement) :
    q.reserved = true ↔ q.d.key q.nextFreeValue < q.d.key q.reservedUntil := by
  have hdir := hr.dir
  unfold Seq.reserved key
  rw [decide_eq_true_iff]
  split <;> omega

theorem key_first (d : Definition) : d.key d.first = d.lo := by
  unfold key first lo
  split <;> simp_all

theorem fits_first (hd : q.d.Valid) : Fits q.d.first := by
  obtain ⟨hmin, hlt, hmax, -⟩ := hd
  unfold first
  split
  case isTrue => exact ⟨by omega, by omega⟩
  case isFalse => exact ⟨by omega, by omega⟩

theorem before_iff (hr : Real q.d q.realIncrement) (a b : ℤ) :
    q.before a b = true ↔ q.d.key a < q.d.key b := by
  have hdir := hr.dir
  unfold Seq.before key
  split <;> split <;> rw [decide_eq_true_iff] <;> omega

/-- How a call of `next_value` may end. -/
def NextEnds (q : Seq) (last : Option (ℕ × ℤ)) (secondRound : Bool) (q' : Seq) : Next → Prop
  | .value v => q.d.lo ≤ q.d.key v ∧ q.d.key v ≤ q.d.hi ∧ Follows q.d last q'.round v ∧
      Inv q' (some (q'.round, v))
  | .again => secondRound = false ∧ Inv q' last ∧ q'.allValuesUsed = false ∧
      IncrementRoom q'.d q'.realIncrement q'.nextFreeValue ∧
      ReserveRoom q'.d q'.realIncrement q'.reservedUntil
  | _ => Inv q' last

/-- What a call returns, if it returns a value without error. -/
def Returned (q : Seq) (last : Option (ℕ × ℤ)) (q' : Seq) : Option (ℕ × ℤ) → Prop
  | none => Inv q' last
  | some (r, v) => q.d.lo ≤ q.d.key v ∧ q.d.key v ≤ q.d.hi ∧ Follows q.d last r v ∧
      Inv q' (some (r, v))

/-- What comes after a value that follows the last one follows the last one as well. -/
theorem Follows.trans {r' : ℕ} {v' : ℤ} (h : Follows d last r v)
    (h' : Follows d (some (r, v)) r' v') : Follows d last r' v' := by
  intro r0 v0 hlast
  have h1 := h r0 v0 hlast
  have h2 := h' r v rfl
  omega

variable (h : Inv q last)
include h

section

variable (hw : Steps q.d q.realIncrement q.nextFreeValue w)
include hw

/-- A value that is reserved is returned. -/
theorem Inv.take (hlt : q.d.key q.nextFreeValue < q.d.key q.reservedUntil) :
    q.d.key q.nextFreeValue ≤ q.d.hi ∧ Follows q.d last q.round q.nextFreeValue ∧
      Inv { q with nextFreeValue := w } (some (q.round, q.nextFreeValue)) := by
  obtain ⟨hfits, hstep⟩ := hw
  have hpos := h.isReal.key_pos
  have hlimit := h.limit.resolve_right (by omega)
  have hcovered := h.covered.resolve_left (by omega)
  have hlo := h.lo_next
  refine ⟨by omega, fun r v hlast => (h.returned r v hlast).2.1, ?_⟩
  refine { h with fits_next := hfits, lo_next := ?_, limit := .inl hlimit, covered := .inr hcovered,
                  near := ?_, returned := ?_ }
  all_goals dsimp only
  · omega
  · omega
  · rintro r v hrv
    obtain ⟨rfl, rfl⟩ := Prod.mk.inj (Option.some.inj hrv)
    omega

/-- All values are used: only the next value changes. -/
theorem Inv.skip
    (hge : q.d.key q.reservedUntil ≤ q.d.key q.nextFreeValue) (hused : q.allValuesUsed = true)
    (hlast : q.d.key q.reservedUntil ≤ q.d.hi + 1) : Inv { q with nextFreeValue := w } last := by
  obtain ⟨hfits, hstep⟩ := hw
  have hpos := h.isReal.key_pos
  have hlo := h.lo_next
  have hrange := h.valid.lo_lt_hi
  refine { h with fits_next := hfits, lo_next := ?_, limit := .inl hlast, covered := .inl ?_,
                  near := .inl hused, returned := ?_ }
  all_goals dsimp only
  · omega
  · omega
  · intro r v hrv
    have := h.returned r v hrv
    omega

/-- The sequence has run out of values. -/
theorem Inv.runOut {r : ℤ}
    (hr : Fits r) (hlast : q.d.key r = q.d.hi + 1) (hend : q.d.hi < q.d.key q.nextFreeValue) :
    Inv { q with nextFreeValue := w, reservedUntil := r, allValuesUsed := true } last := by
  obtain ⟨hfits, hstep⟩ := hw
  have hpos := h.isReal.key_pos
  have hrange := h.valid.lo_lt_hi
  refine { h with fits_next := hfits, fits_reserved := hr, lo_next := ?_, lo_reserved := ?_,
                  limit := .inl hlast.le, zero := ?_, covered := .inl ?_, near := .inl rfl,
                  returned := ?_ }
  all_goals dsimp only
  · omega
  · omega
  · exact fun hzero => ⟨hlast.le, (h.zero hzero).2⟩
  · omega
  · intro r v hrv
    have := h.returned r v hrv
    omega

/-- A new range is reserved, and its first value is returned. -/
theorem Inv.reserveTake {r : ℤ} (hr : Fits r) (hle : q.d.key q.nextFreeValue ≤ q.d.hi)
    (hlt : q.d.key q.nextFreeValue < q.d.key r) (hlast : q.d.key r ≤ q.d.hi + 1) :
    Follows q.d last q.round q.nextFreeValue ∧
      Inv ({ q with nextFreeValue := w, reservedUntil := r } : Seq).write
        (some (q.round, q.nextFreeValue)) := by
  obtain ⟨hfits, hstep⟩ := hw
  have hpos := h.isReal.key_pos
  have hlo := h.lo_next
  refine ⟨fun r v hrv => (h.returned r v hrv).2.1, ?_⟩
  dsimp only [Seq.write, storedRound]
  rw [if_pos h.round_lt]
  refine { h with fits_next := hfits, fits_reserved := hr, fits_stored := hr, lo_next := ?_,
                  lo_reserved := ?_, lo_stored := ?_, limit := .inl hlast,
                  zero := fun _ => ⟨hlast, hlast⟩, covered := .inr ⟨rfl, le_rfl⟩, round_le := le_rfl,
                  near := .inr ?_, returned := ?_ }
  all_goals dsimp only
  · omega
  · omega
  · omega
  · omega
  · rintro r v hrv
    obtain ⟨rfl, rfl⟩ := Prod.mk.inj (Option.some.inj hrv)
    omega

end

/-- A new round begins. -/
theorem Inv.newRound (hw : Adjusted q.d q.d.first w real) (hfirst : Fits q.d.first)
    (hround : q.round + 1 < 2 ^ 63) :
    Inv { q with
      round := q.round + 1
      reservedUntil := q.d.first
      realIncrement := real
      nextFreeValue := w } last := by
  have hlo := key_first q.d
  have hrange := h.valid.lo_lt_hi
  have hge := hw.ge
  have hle := h.round_le
  refine { h with isReal := hw.isReal, fits_next := hw.fits, fits_reserved := hfirst,
                  lo_next := ?_, lo_reserved := hlo.ge, limit := .inl ?_, zero := ?_,
                  covered := .inl ?_, round_le := ?_, round_lt := hround, near := .inr hw.near,
                  returned := ?_ }
  all_goals dsimp only
  · omega
  · omega
  · exact fun hzero => ⟨by omega, (h.zero hzero).2⟩
  · omega
  · omega
  · intro r v hrv
    have := h.returned r v hrv
    omega

/-- The call that begins a new round. -/
theorem newRound_spec (hused : q.allValuesUsed = false) (hround : q.round + 1 < 2 ^ 63)
    (hadjust : AdjustRoom q.d vars) (hinc : IncrementRoom q.d (q.d.realFor vars) q.d.first)
    (hres : ReserveRoom q.d (q.d.realFor vars) q.d.first) :
    ∃ q', adjustValues vars q.d.first
        { q with round := (q.round + 1) % 2 ^ 64, reservedUntil := q.d.first } = pure q' ∧
      q'.d = q.d ∧ NextEnds q last false q' .again := by
  have hmod : (q.round + 1) % 2 ^ 64 = q.round + 1 := Nat.mod_eq_of_lt (by omega)
  rw [hmod]
  obtain ⟨w, real, hq', hw, hzero⟩ := adjustValues_spec vars
    (q := { q with round := q.round + 1, reservedUntil := q.d.first }) h.valid (fits_first h.valid)
    h.inc hadjust
  have hw : Adjusted q.d q.d.first w real := hw
  have hreal : real = q.d.realFor vars := by
    unfold realFor
    split
    case isTrue h0 => exact hzero h0
    case isFalse h0 => exact hw.isReal.eq h0
  refine ⟨_, hq', rfl, rfl, h.newRound hw (fits_first h.valid) hround, hused, ?_, ?_⟩
  · subst hreal
    refine ⟨hinc.1, fun hneg => ?_⟩
    -- a descending sequence is not aligned
    have hne : q.d.increment ≠ 0 := by
      have hneg' : q.d.realFor vars < 0 := hneg
      rcases hw.isReal.dir with hdir | hdir <;> omega
    rw [hw.same hne]
    exact hinc.2 hneg
  · subst hreal
    exact hres

/-- **A call of `next_value`, up to the recursive call.** -/
theorem nextValueFrom_spec (vars : Vars) (writeOk secondRound : Bool)
    (hinc : IncrementRoom q.d q.realIncrement q.nextFreeValue)
    (hres : q.reserved = false → q.allValuesUsed = false →
      ReserveRoom q.d q.realIncrement q.reservedUntil)
    (hused : q.allValuesUsed = true → q.d.key q.reservedUntil ≤ q.d.hi + 1)
    (hcycle : secondRound = false → q.d.cycle = true → q.d.hi < q.d.key q.nextFreeValue →
      q.round + 1 < 2 ^ 63 ∧ AdjustRoom q.d vars ∧
      IncrementRoom q.d (q.d.realFor vars) q.d.first ∧
      ReserveRoom q.d (q.d.realFor vars) q.d.first) :
    ∃ q' n, nextValueFrom vars writeOk secondRound q = pure (q', n) ∧ q'.d = q.d ∧
      NextEnds q last secondRound q' n := by
  obtain ⟨w, hincrement, hw⟩ := incrementValue_spec h.valid h.isReal h.fits_next hinc
  have hadd := Real.key_le_key_add h.valid h.isReal
  have hreserved := reserved_iff h.isReal
  unfold nextValueFrom
  rw [hincrement, pure_bind]
  by_cases hin : q.reserved = true
  · obtain ⟨hle, hfollows, hinv⟩ := h.take hw (hreserved.1 hin)
    rw [if_pos hin]
    exact ⟨_, _, rfl, rfl, h.lo_next, hle, hfollows, hinv⟩
  have hge := Int.not_lt.1 (hreserved.not.1 hin)
  rw [if_neg hin]
  by_cases hall : q.allValuesUsed = true
  · rw [if_pos hall]
    exact ⟨_, _, rfl, rfl, h.skip hw hge hall (hused hall)⟩
  have hall' : q.allValuesUsed = false := by simpa using hall
  obtain ⟨r, out, hreserve, ⟨hr, hstep⟩, hout⟩ := reserve_spec (v := q.nextFreeValue) h.valid
    h.isReal h.fits_reserved (hres (by simpa using hin) hall')
  rw [if_neg hall, hreserve, pure_bind]
  have hnear := h.near.resolve_left hall
  cases out with
  | true =>
    obtain ⟨hlast, hend⟩ := hout.1 rfl
    rw [if_pos rfl]
    by_cases hstop : (!q.d.cycle || secondRound) = true
    · rw [if_pos hstop]
      exact ⟨_, _, rfl, rfl, h.runOut hw hr (by dsimp only; omega) hend⟩
    simp only [Bool.or_eq_true, Bool.not_eq_true', not_or, Bool.not_eq_false,
      Bool.not_eq_true] at hstop
    obtain ⟨hround, hadjust, hinc', hres'⟩ := hcycle hstop.2 hstop.1 hend
    obtain ⟨q', hq', hd', hends⟩ := newRound_spec h hall' hround hadjust hinc' hres'
    have hdir := h.isReal.dir
    have hfirst : (if 0 < q.realIncrement then q.d.minValue else q.d.maxValue) = q.d.first := by
      exact if_congr (by omega) rfl rfl
    rw [if_neg (by simp [hstop]), hfirst]
    dsimp only
    rw [hq', pure_bind, hstop.2]
    exact ⟨q', .again, rfl, hd', hends⟩
  | false =>
    cases writeOk with
    | false =>
      exact ⟨_, _, rfl, rfl, h⟩
    | true =>
      have hend := hout.not.1 Bool.false_ne_true
      have hle : q.d.key q.nextFreeValue ≤ q.d.hi := by omega
      obtain ⟨hfollows, hinv⟩ := h.reserveTake hw hr hle (by omega) (by omega)
      exact ⟨_, _, rfl, rfl, h.lo_next, hle, hfollows, hinv⟩

/-- **`next_value` keeps the invariant.** -/
theorem nextValue_inv (writeOk : Bool) (hok : NextOk vars q) :
    ∃ q' n, nextValue vars writeOk q = pure (q', n) ∧ q'.d = q.d ∧ n ≠ .again ∧
      Returned q last q' (match n with | .value v => some (q'.round, v) | _ => none) := by
  obtain ⟨q', n, hcall, hd', hends⟩ := nextValueFrom_spec h vars writeOk
    false hok.increment hok.reserve hok.used fun _ => hok.cycle
  unfold nextValue
  rw [hcall, pure_bind]
  cases n with
  | value v | writeError | runOut =>
    exact ⟨q', _, rfl, hd', by simp, hends⟩
  | again =>
    obtain ⟨-, hinv, hall, hinc, hres⟩ := hends
    obtain ⟨q'', n, hcall', hd'', hends'⟩ := nextValueFrom_spec hinv vars writeOk
      true hinc (fun _ _ => hres) (by simp [hall]) (by simp)
    rw [if_pos rfl, hcall']
    rw [hd'] at hd''
    cases n with
    | value v =>
      refine ⟨q'', _, rfl, hd'', by simp, ?_⟩
      unfold NextEnds at hends'
      rw [hd'] at hends'
      exact hends'
    | writeError | runOut => exact ⟨q'', _, rfl, hd'', by simp, hends'⟩
    | again => exact absurd hends'.1 (by simp)

/-! ### `set_value` and restarts -/

theorem freeValue_spec {isUsed : Bool} (hv : Fits v)
    (hinc : isUsed = true → IncrementRoom q.d q.realIncrement v) :
    ∃ w, freeValue q v isUsed = pure w ∧ Fits w ∧
      (q.d.lo ≤ q.d.key v + (if isUsed then q.d.key q.realIncrement else 0) →
        q.d.lo ≤ q.d.key w) := by
  unfold freeValue
  cases isUsed with
  | false => exact ⟨v, rfl, hv, by simp⟩
  | true =>
    obtain ⟨w, hw, hfits, hstep⟩ := incrementValue_spec h.valid h.isReal hv (hinc rfl)
    have hrange := h.valid.lo_lt_hi
    rw [if_pos rfl, if_pos rfl]
    exact ⟨w, hw, hfits, fun hle => by omega⟩

/-- The value is set, and the write succeeds. -/
theorem Inv.setStored (hw : Adjusted q.d v w real) (hlo : q.d.lo ≤ q.d.key v)
    (hround : r < 2 ^ 63) (hafter : q.round < r ∨ q.round = r ∧ q.d.key q.nextFreeValue < q.d.key v) :
    Inv ({ q with
      round := r
      realIncrement := real
      nextFreeValue := w
      reservedUntil := w } : Seq).write last := by
  have hrange := h.valid.lo_lt_hi
  have hpos := hw.isReal.key_pos
  have hge := hw.ge
  have hlow : q.d.lo ≤ q.d.key w := by omega
  dsimp only [Seq.write, storedRound]
  rw [if_pos hround]
  refine { h with isReal := hw.isReal, fits_next := hw.fits, fits_reserved := hw.fits,
                  fits_stored := hw.fits, lo_next := hlow, lo_reserved := hlow, lo_stored := hlow,
                  limit := .inr le_rfl, zero := ?_, covered := .inl le_rfl, round_le := le_rfl,
                  round_lt := hround, near := .inr (.inl ?_), returned := ?_ }
  · exact fun hzero => ⟨hw.le_last hzero, hw.le_last hzero⟩
  · dsimp only
    omega
  · intro r' v' hrv
    have := h.returned r' v' hrv
    dsimp only
    omega

/-- The value is set inside of what is reserved. -/
theorem Inv.setReserved (hw : Adjusted q.d v w real)
    (hafter : q.d.key q.nextFreeValue < q.d.key v) (hle : q.d.key w ≤ q.d.key q.reservedUntil) :
    Inv { q with realIncrement := real, nextFreeValue := w } last := by
  have hrange := h.valid.lo_lt_hi
  have hpos := hw.isReal.key_pos
  have hge := hw.ge
  have hlo := h.lo_next
  have hsame := hw.same
  have hlimit := h.limit
  have hcovered := h.covered
  have hzero := h.zero
  have heq : q.d.increment ≠ 0 → q.d.key w = q.d.key v := fun hne => by rw [hsame hne]
  refine { h with isReal := hw.isReal, fits_next := hw.fits, lo_next := ?_, limit := ?_,
                  covered := ?_, near := .inr (.inl ?_), returned := ?_ }
  all_goals dsimp only
  · omega
  · by_cases h0 : q.d.increment = 0
    · exact .inl (hzero h0).1
    · omega
  · by_cases h0 : q.d.increment = 0
    · omega
    · omega
  · omega
  · intro r v hrv
    have := h.returned r v hrv
    omega

/-- The write fails: only the increment has changed. -/
theorem Inv.setFailed (hr : Real q.d real) (hle : q.d.increment = 0 → q.realIncrement ≤ real) :
    Inv { q with realIncrement := real } last := by
  have hkey : q.d.key q.realIncrement ≤ q.d.key real := by
    by_cases h0 : q.d.increment = 0
    · have := hle h0
      simpa [key, h0] using this
    · rw [hr.eq h0, h.isReal.eq h0]
  refine { h with isReal := hr, near := ?_ }
  rcases h.near with hused | hnear
  · exact .inl hused
  · exact .inr (by dsimp only; omega)

/-- **Setting a value keeps the invariant.** -/
theorem setTo_spec {writeOk needsToBeStored : Bool} (hv : Fits v)
    (hadjust : AdjustRoom q.d vars) (hlo : q.d.lo ≤ q.d.key v) (hround : r < 2 ^ 63)
    (hafter : (q.round < r ∧ needsToBeStored = true) ∨ q.round = r ∧ q.d.key q.nextFreeValue < q.d.key v)
    (hfailed : writeOk = false → q.d.increment = 0 → q.realIncrement ≤ vars.increment) :
    ∃ q' n, setTo vars writeOk needsToBeStored v r q = pure (q', n) ∧ q'.d = q.d ∧ Inv q' last := by
  obtain ⟨w, real, hq', hw, hzero⟩ := adjustValues_spec vars (q := { q with round := r })
    h.valid hv h.inc hadjust
  have hw : Adjusted q.d v w real := hw
  have hbefore := before_iff (q := { q with round := r, realIncrement := real, nextFreeValue := w })
    hw.isReal q.reservedUntil w
  unfold setTo
  rw [hq', pure_bind]
  by_cases hstore : (({ q with round := r, realIncrement := real, nextFreeValue := w } : Seq).before
      q.reservedUntil w || needsToBeStored) = true
  · rw [if_pos hstore]
    cases writeOk with
    | true =>
      refine ⟨_, _, rfl, rfl, h.setStored hw hlo hround ?_⟩
      rcases hafter with ⟨hlt, -⟩ | hafter
      · exact .inl hlt
      · exact .inr hafter
    | false =>
      exact ⟨_, _, rfl, rfl, h.setFailed hw.isReal fun h0 => hzero h0 ▸ hfailed rfl h0⟩
  · rw [if_neg hstore]
    simp only [Bool.or_eq_true, not_or, Bool.not_eq_true] at hstore
    rcases hafter with ⟨-, hneeds⟩ | ⟨rfl, hlt⟩
    · exact absurd hneeds (by simp [hstore.2])
    · have hle := Int.not_lt.1 (hbefore.not.1 (by simp [hstore.1]))
      exact ⟨_, _, rfl, rfl, h.setReserved hw hlt hle⟩

/-- **`set_value` keeps the invariant.** -/
theorem setValue_inv {writeOk isUsed : Bool} (hv : Fits v) (hok : SetOk vars writeOk v r isUsed q) :
    ∃ q' n, setValue vars writeOk v r isUsed q = pure (q', n) ∧ q'.d = q.d ∧ Inv q' last := by
  obtain ⟨w, hfree, hw, hlo⟩ := freeValue_spec h hv hok.increment
  have hbefore := before_iff h.isReal w q.nextFreeValue
  have hnext := h.lo_next
  unfold setValue
  rw [hfree, pure_bind]
  by_cases hearlier : r < q.round
  · rw [if_pos hearlier]
    exact ⟨_, _, rfl, rfl, h⟩
  rw [if_neg hearlier]
  by_cases hsame : q.round = r
  · rw [if_pos hsame]
    by_cases hb : q.before w q.nextFreeValue = true
    · rw [if_pos hb]
      exact ⟨_, _, rfl, rfl, h⟩
    rw [if_neg hb]
    by_cases heq : w = q.nextFreeValue
    · rw [if_pos heq]
      exact ⟨_, _, rfl, rfl, h⟩
    have hne : q.d.key w ≠ q.d.key q.nextFreeValue := by
      unfold key
      split <;> omega
    have hge := Int.not_lt.1 (hbefore.not.1 hb)
    rw [if_neg heq]
    exact setTo_spec h hw hok.adjust (by omega) (hsame ▸ h.round_lt) (.inr ⟨hsame, by omega⟩)
      hok.failed
  · rw [if_neg hsame]
    by_cases hcycle : q.d.cycle = false
    · rw [if_pos hcycle]
      exact ⟨_, _, rfl, rfl, h⟩
    · obtain ⟨hround, hlow⟩ := hok.later (by simpa using hcycle) (by omega)
      rw [if_neg hcycle]
      exact setTo_spec h hw hok.adjust (hlo hlow) hround (.inl ⟨by omega, rfl⟩) hok.failed

/-- **A restart keeps the invariant.** -/
theorem readStoredValues_inv (hok : AdjustRoom q.d vars) :
    ∃ q', readStoredValues vars q = pure q' ∧ q'.d = q.d ∧ Inv q' last := by
  obtain ⟨w, real, hq', hw, -⟩ := adjustValues_spec vars (q := { q with
    reservedUntil := q.stored.reservedUntil
    round := q.stored.round
    allValuesUsed := false }) h.valid h.fits_stored h.inc hok
  have hw : Adjusted q.d q.stored.reservedUntil w real := hw
  have hge := hw.ge
  have hlo := h.lo_stored
  have hrange := h.valid.lo_lt_hi
  have hle := h.round_le
  have hlt := h.round_lt
  have hsame : q.d.increment ≠ 0 → q.d.key w = q.d.key q.stored.reservedUntil :=
    fun hne => by rw [hw.same hne]
  refine ⟨_, hq', rfl, { h with
    isReal := hw.isReal, fits_next := hw.fits, fits_reserved := h.fits_stored, lo_next := ?_,
    lo_reserved := hlo, limit := ?_, zero := ?_, covered := .inr ⟨rfl, le_rfl⟩, round_le := le_rfl,
    round_lt := ?_, near := .inr hw.near, returned := ?_ }⟩
  all_goals dsimp only
  · omega
  · by_cases h0 : q.d.increment = 0
    · exact .inl (h.zero h0).2
    · exact .inr (hsame h0).ge
  · exact fun h0 => ⟨(h.zero h0).2, (h.zero h0).2⟩
  · omega
  · intro r v hrv
    have := h.returned r v hrv
    omega

/-- **Every call keeps the invariant.** -/
theorem step_inv (op : Op) (hok : StepOk q op) :
    ∃ q' o, step q op = pure (q', o) ∧ q'.d = q.d ∧ Returned q last q' o := by
  cases op with
  | next vars writeOk =>
    obtain ⟨q', n, hcall, hd, hagain, hret⟩ := nextValue_inv h writeOk hok
    unfold step
    simp only [hcall, pure_bind]
    cases n with
    | value v | writeError | runOut => exact ⟨q', _, rfl, hd, hret⟩
    | again => exact absurd rfl hagain
  | set vars writeOk nextVal nextRound isUsed =>
    obtain ⟨q', n, hcall, hd, hinv⟩ := setValue_inv h (fits_toInt nextVal) hok
    unfold step
    simp only [hcall, pure_bind]
    exact ⟨q', none, rfl, hd, hinv⟩
  | restart vars =>
    obtain ⟨q', hcall, hd, hinv⟩ := readStoredValues_inv h hok
    unfold step
    simp only [hcall, pure_bind]
    exact ⟨q', none, rfl, hd, hinv⟩

/-- **The values of a run** are in range, and each one follows those before it. -/
theorem run_spec (ops : List Op) (hok : RunOk ops q) :
    ∃ q' l, run ops q = pure (q', l) ∧
      (∀ x ∈ l, q.d.lo ≤ q.d.key x.2 ∧ q.d.key x.2 ≤ q.d.hi ∧ Follows q.d last x.1 x.2) ∧
      l.Pairwise fun x y => Follows q.d (some x) y.1 y.2 := by
  induction ops generalizing q last with
  | nil => exact ⟨q, [], rfl, by simp, .nil⟩
  | cons op ops ih =>
    obtain ⟨hstep, hrest⟩ := hok
    obtain ⟨q1, o, hcall, hd, hret⟩ := step_inv h op hstep
    rw [hcall] at hrest
    unfold run
    rw [hcall, pure_bind]
    cases o with
    | none =>
      obtain ⟨q', l, hrun, hl, hpair⟩ := ih hret hrest
      rw [hd] at hl hpair
      simp only [hrun, pure_bind]
      exact ⟨q', l, rfl, hl, hpair⟩
    | some x =>
      obtain ⟨hlo, hhi, hfollows, hinv⟩ := hret
      obtain ⟨q', l, hrun, hl, hpair⟩ := ih hinv hrest
      rw [hd] at hl hpair
      simp only [hrun, pure_bind]
      refine ⟨q', x :: l, rfl, ?_, .cons (fun y hy => (hl y hy).2.2) hpair⟩
      intro y hy
      rcases List.mem_cons.1 hy with rfl | hy
      · exact ⟨hlo, hhi, hfollows⟩
      · exact ⟨(hl y hy).1, (hl y hy).2.1, hfollows.trans (hl y hy).2.2⟩

end Calls

/-! ### From the definition on -/

/-- A definition does not go wrong: the sums of `adjust_values` are 64-bit integers, and a sequence
with the increment 0 does not begin beyond its limits. -/
def InitOk (vars : Vars) (q : Seq) : Prop :=
  AdjustRoom q.d vars ∧ (q.d.increment = 0 → q.reservedUntil ≤ q.d.maxValue + 1)

theorem fits_getD {o : Option Int64} (hx : Fits x) : Fits ((o.map Int64.toInt).getD x) := by
  cases o with
  | none => exact hx
  | some y => exact fits_toInt y

/-- `adjust_values` keeps the definition and `reserved_until`. -/
theorem adjustValues_frame (vars : Vars) (v : ℤ) (q : Seq) :
    (adjustValues vars v q).val.d = q.d ∧
      (adjustValues vars v q).val.reservedUntil = q.reservedUntil := by
  unfold adjustValues
  split
  case isTrue => exact ⟨rfl, rfl⟩
  case isFalse => exact ⟨rfl, rfl⟩

/-- A sequence at its beginning has the invariant. -/
theorem Inv.start (hd : d.Valid) (hinc : Fits d.increment) (hv : Fits v) (hlo : d.lo ≤ d.key v)
    (hzero : d.increment = 0 → d.key v ≤ d.hi + 1) (hw : Adjusted d v w real) :
    Inv ⟨d, v, 0, real, w, false, ⟨v, 0⟩⟩ none := by
  have hge := hw.ge
  have hrange := hd.lo_lt_hi
  refine { valid := hd, inc := hinc, isReal := hw.isReal, fits_next := hw.fits, fits_reserved := hv,
           fits_stored := hv, lo_next := ?_, lo_reserved := hlo, lo_stored := hlo, limit := ?_,
           zero := fun h0 => ⟨hzero h0, hzero h0⟩, covered := .inr ⟨rfl, le_rfl⟩,
           round_le := le_rfl, round_lt := by simp, near := .inr hw.near, returned := ?_ }
  · dsimp only
    omega
  · by_cases h0 : d.increment = 0
    · exact .inl (hzero h0)
    · exact .inr (by rw [hw.same h0])
  · rintro r v ⟨⟩

/-- **An accepted definition** gives a sequence with the invariant. -/
theorem checkAndAdjust_inv {r : Request} {reservedUntil : Option Int64} {c : Calc Seq}
    (hc : checkAndAdjust vars r reservedUntil = some c) (hok : InitOk vars c.val) :
    c.exact = true ∧ Inv c.val none := by
  have hpos := vars.increment_pos
  unfold checkAndAdjust at hc
  dsimp only at hc
  generalize hinc : r.increment.toInt = increment at hc
  generalize hreal : (if increment = 0 then vars.increment else increment) = realIncrement at hc
  have hfitsMin := fits_getD (o := r.minValue) (x := if realIncrement < 0 then llMin + 1 else 1)
    (by unfold Fits llMin llMax; split <;> omega)
  have hfitsMax := fits_getD (o := r.maxValue) (x := if realIncrement < 0 then -1 else llMax - 1)
    (by unfold Fits llMin llMax; split <;> omega)
  generalize (r.minValue.map Int64.toInt).getD (if realIncrement < 0 then llMin + 1 else 1)
    = minValue at hc hfitsMin
  generalize (r.maxValue.map Int64.toInt).getD (if realIncrement < 0 then -1 else llMax - 1)
    = maxValue at hc hfitsMax
  have hfitsStart := fits_getD (o := r.start) (x := if realIncrement < 0 then maxValue else minValue)
    (by split <;> assumption)
  generalize (r.start.map Int64.toInt).getD (if realIncrement < 0 then maxValue else minValue)
    = start at hc hfitsStart
  have hfits := fits_getD (o := reservedUntil) hfitsStart
  generalize (reservedUntil.map Int64.toInt).getD start = reserved at hc hfits
  split at hc
  case isFalse => cases hc
  case isTrue hif =>
  obtain ⟨hstart, hlt, hmin, hmax', hmin', hcache, -, hdir⟩ := hif
  obtain rfl := Option.some.inj hc
  obtain ⟨hroom, hbegin⟩ := hok
  simp only [adjustValues_frame] at hroom hbegin
  unfold Fits at hfitsMin hfitsMax
  have hvalid : Valid ⟨minValue, maxValue, start, increment, r.cache.toInt, r.cycle⟩ :=
    ⟨by dsimp only; omega, hlt, by dsimp only; omega, hcache⟩
  have hfitsInc : Fits increment := hinc ▸ fits_toInt r.increment
  obtain ⟨w, real, hq', hw, -⟩ := adjustValues_spec vars (v := reserved)
    (q := ⟨⟨minValue, maxValue, start, increment, r.cache.toInt, r.cycle⟩, reserved, 0, realIncrement,
      reserved, false, ⟨reserved, 0⟩⟩) hvalid hfits hfitsInc hroom
  rw [hq']
  refine ⟨rfl, Inv.start hvalid hfitsInc hfits ?_ ?_ hw⟩
  · unfold lo key
    dsimp only
    split at hreal <;> split <;> omega
  · intro h0
    have := hbegin h0
    have h0 : increment = 0 := h0
    simpa [key, hi, h0] using this

/-- **What a run of calls returns.**  For every definition that is accepted and every run in which
neither the definition nor a call goes wrong, the values that are returned without error are in
range, follow each other in the direction of the increment in every round, do not repeat with the
same round, and no sum overflows. -/
theorem run_returns {vars : Vars} {r : Request} {reservedUntil : Option Int64} {c : Calc Seq}
    (hc : checkAndAdjust vars r reservedUntil = some c) (hinit : InitOk vars c.val) (ops : List Op)
    (hok : RunOk ops c.val) :
    c.exact = true ∧ (run ops c.val).exact = true ∧
      (∀ x ∈ (run ops c.val).val.2, c.val.d.minValue ≤ x.2 ∧ x.2 ≤ c.val.d.maxValue) ∧
      (run ops c.val).val.2.Pairwise (fun x y => x.1 = y.1 →
        if 0 ≤ c.val.d.increment then x.2 < y.2 else y.2 < x.2) ∧
      (run ops c.val).val.2.Nodup := by
  obtain ⟨hexact, hinv⟩ := checkAndAdjust_inv hc hinit
  obtain ⟨q', l, hrun, hl, hpair⟩ := run_spec hinv ops hok
  rw [hrun]
  refine ⟨hexact, rfl, ?_, ?_, ?_⟩
  · intro x hx
    exact mem_range_iff.1 ⟨(hl x hx).1, (hl x hx).2.1⟩
  · refine hpair.imp fun {x y} hxy heq => ?_
    have := hxy x.1 x.2 rfl
    have hlt : c.val.d.key x.2 < c.val.d.key y.2 := by omega
    unfold key at hlt
    split <;> simp_all
  · refine hpair.imp fun {x y} hxy heq => ?_
    have := hxy x.1 x.2 rfl
    rw [heq] at this
    omega

/-! ### Sequences on fixed inputs -/

/-- `auto_increment_increment = 1`, `auto_increment_offset = 1`. -/
def plainVars : Vars := ⟨1, 1, by decide, by decide, by decide, by decide⟩

/-- `MINVALUE 1 MAXVALUE 3 INCREMENT 1`, without a cache. -/
def threeValues : Request := ⟨some 1, some 3, none, 1, 0, false⟩

/-- The same with `CYCLE`, at its beginning. -/
def cycleSeq : Seq := ⟨⟨1, 3, 1, 1, 0, true⟩, 1, 0, 1, 1, false, ⟨1, 0⟩⟩

theorem checkAndAdjust_cycle :
    checkAndAdjust plainVars { threeValues with cycle := true } none = some (pure cycleSeq) := by
  decide +kernel

/-- The second `NEXT VALUE` cannot be written, 2 is set as a used value, and before the last
`NEXT VALUE` the server starts again. -/
def sampleOps : List Op :=
  [.next plainVars true, .next plainVars false, .set plainVars true 2 0 true, .next plainVars true,
    .next plainVars true, .restart plainVars, .next plainVars true]

theorem sampleOps_ok : RunOk sampleOps (pure cycleSeq : Calc Seq).val := by
  refine ⟨⟨?_, ?_, ?_, ?_⟩, ⟨?_, ?_, ?_, ?_⟩, ⟨?_, ?_, ?_, ?_⟩, ⟨?_, ?_, ?_, ?_⟩, ⟨?_, ?_, ?_, ?_⟩,
    show AdjustRoom _ _ from ?_, ⟨?_, ?_, ?_, ?_⟩, trivial⟩
  all_goals decide +kernel

/-- The values are 1, 3, and in the next round 1 and 2. -/
theorem run_returns_sampleOps :
    (run sampleOps cycleSeq).val.2 = [(0, 1), (0, 3), (1, 1), (1, 2)] ∧
      (∀ x ∈ (run sampleOps cycleSeq).val.2,
        cycleSeq.d.minValue ≤ x.2 ∧ x.2 ≤ cycleSeq.d.maxValue) ∧
      (run sampleOps cycleSeq).val.2.Nodup := by
  have hinit : InitOk plainVars (pure cycleSeq : Calc Seq).val :=
    ⟨fun h => absurd h (by decide), fun h => absurd h (by decide)⟩
  obtain ⟨-, -, hrange, -, hnodup⟩ := run_returns checkAndAdjust_cycle hinit sampleOps sampleOps_ok
  exact ⟨by decide +kernel, hrange, hnodup⟩

/-- **Three runs that go wrong.**  All values of `threeValues` are used, the next value is set to 20:
after one more error the value 4 is returned, again and again.  A sequence from 1 to 100 that may
begin again returns -10 after `SETVAL(-10)` for the next round.  A sequence with the increment -10
computes a sum below `LONGLONG_MIN` when it comes to its end. -/
theorem sequence_goes_wrong :
    ((checkAndAdjust plainVars threeValues none).map fun c =>
      (run (List.replicate 4 (.next plainVars true) ++ [.set plainVars true 20 0 false] ++
        List.replicate 3 (.next plainVars true)) c.val).val.2)
      = some [(0, 1), (0, 2), (0, 3), (0, 4), (0, 4)] ∧
    ((checkAndAdjust plainVars ⟨some 1, some 100, none, 1, 0, true⟩ none).map fun c =>
      (run [.set plainVars true (-10) 1 false, .next plainVars true] c.val).val.2)
      = some [(1, -10)] ∧
    ((checkAndAdjust plainVars ⟨none, none, none, -10, 1000, false⟩ none).map fun c =>
      (run [.set plainVars true (-9223372036854775803) 0 false, .next plainVars true] c.val).exact)
      = some false := by
  decide +kernel

end Sequence
