/-
**The intervals of the range optimizer.**

A `SEL_ARG` of the type `KEY_RANGE` is an interval of the values of a key part.  An endpoint is a
value with a flag: it is closed, open (`NEAR_MIN`, `NEAR_MAX`) or not there (`NO_MIN_RANGE`,
`NO_MAX_RANGE`).  `sel_cmp` compares endpoints of both kinds; its sign is that of the order of the
places on the line where the endpoints are, right before a value, at it, or right behind it.

A value is the image of a field in a key: a marker for `NULL`, if the field may be `NULL`, and what
`Field::key_cmp` compares.  Flags are the bits that ranges of non-spatial keys use.

Main definitions:

* `Value`, `Field`, `Flag`, `Interval`: the data of an interval;
* `selCmp`: `SEL_ARG::sel_cmp`.

Main results:

* `selCmp_nonpos`: the order of the endpoints;
* `selCmp_total`: it is a total order.
-/

import MariaDb.CompareOrder

set_option autoImplicit false

namespace SelArg

open CompareOrder

variable {V : Type*}

/-! ### Values -/

/-- The image of a field in a key. -/
structure Value (V : Type*) where
  /-- the marker for `NULL` -/
  null : Bool
  key : V
  deriving DecidableEq

/-- What `sel_cmp` asks of a field. -/
structure Field (V : Type*) where
  /-- `real_maybe_null()` -/
  maybeNull : Bool
  /-- `key_cmp()` -/
  keyCmp : V → V → ℤ

/-- The order of the values of a field: `NULL` is before everything else. -/
def Field.valueCmp (field : Field V) (a b : Value V) : ℤ :=
  if field.maybeNull && (a.null || b.null) then
    if a.null && b.null then 0 else if a.null then -1 else 1
  else field.keyCmp a.key b.key

/-- A field whose `key_cmp` is a total order. -/
def Field.Proper (field : Field V) : Prop := TotalOrder field.keyCmp

theorem Field.Proper.valueCmp {field : Field V} (hf : field.Proper) : TotalOrder field.valueCmp where
  swap x y := by
    have := hf.swap x.key y.key
    unfold Field.valueCmp
    cases field.maybeNull <;> cases x.null <;> cases y.null <;> simp <;> exact this
  trans x y z := by
    have := hf.trans x.key y.key z.key
    unfold Field.valueCmp
    cases field.maybeNull <;> cases x.null <;> cases y.null <;> cases z.null <;> simp <;> exact this

/-! ### Endpoints -/

/-- The bits of a flag that say what an endpoint is. -/
structure Flag where
  /-- `NO_MIN_RANGE` -/
  noMin : Bool
  /-- `NO_MAX_RANGE` -/
  noMax : Bool
  /-- `NEAR_MIN` -/
  nearMin : Bool
  /-- `NEAR_MAX` -/
  nearMax : Bool
  deriving DecidableEq

def Flag.zero : Flag := ⟨false, false, false, false⟩

/-- The part of `sel_cmp` behind the label `end`, for equal values. -/
def nearCmp (aFlag bFlag : Flag) : ℤ :=
  if aFlag.nearMin || aFlag.nearMax then
    if aFlag.nearMin = bFlag.nearMin ∧ aFlag.nearMax = bFlag.nearMax then 0
    else if !(bFlag.nearMin || bFlag.nearMax) then if aFlag.nearMin then 2 else -2
    else if aFlag.nearMin then 1 else -1
  else if bFlag.nearMin || bFlag.nearMax then if bFlag.nearMin then -2 else 2
  else 0

def selCmp (field : Field V) (a b : Value V) (aFlag bFlag : Flag) : ℤ :=
  if aFlag.noMin || aFlag.noMax then
    if aFlag.noMin = bFlag.noMin ∧ aFlag.noMax = bFlag.noMax then 0
    else if aFlag.noMin then -1 else 1
  else if bFlag.noMin || bFlag.noMax then
    if bFlag.noMin then 1 else -1
  else if field.maybeNull && (a.null != b.null) then
    if a.null then -1 else 1
  else if field.maybeNull && a.null then nearCmp aFlag bFlag
  else
    let cmp := field.keyCmp a.key b.key
    if cmp ≠ 0 then if cmp < 0 then -1 else 1
    else nearCmp aFlag bFlag

/-- The flag of an endpoint does not say two things at once. -/
def Flag.Sane (flag : Flag) : Prop :=
  (flag.noMin && flag.noMax) = false ∧ (flag.nearMin && flag.nearMax) = false

/-- Before, among or behind the values. -/
def Flag.level (flag : Flag) : ℤ := if flag.noMin then -1 else if flag.noMax then 1 else 0

/-- Right before a value, at it, or right behind it. -/
def Flag.near (flag : Flag) : ℤ := if flag.nearMin then 1 else if flag.nearMax then -1 else 0

variable {field : Field V} {a b : Value V} {aFlag bFlag : Flag}

theorem nearCmp_nonpos (ha : aFlag.Sane) (hb : bFlag.Sane) :
    (nearCmp aFlag bFlag ≤ 0 ↔ aFlag.near ≤ bFlag.near) ∧
      (0 ≤ nearCmp aFlag bFlag ↔ bFlag.near ≤ aFlag.near) := by
  obtain ⟨-, ha⟩ := ha
  obtain ⟨-, hb⟩ := hb
  unfold nearCmp Flag.near
  cases h1 : aFlag.nearMin <;> cases h2 : aFlag.nearMax <;> cases h3 : bFlag.nearMin <;>
    cases h4 : bFlag.nearMax <;> simp_all

/-- The sign of `sel_cmp` for two endpoints among the values. -/
theorem selCmp_of_level (ha : aFlag.level = 0) (hb : bFlag.level = 0) :
    selCmp field a b aFlag bFlag =
      if field.valueCmp a b = 0 then nearCmp aFlag bFlag
      else if field.valueCmp a b < 0 then -1 else 1 := by
  have hna : aFlag.noMin = false ∧ aFlag.noMax = false := by
    unfold Flag.level at ha
    cases h1 : aFlag.noMin <;> cases h2 : aFlag.noMax <;> simp_all
  have hnb : bFlag.noMin = false ∧ bFlag.noMax = false := by
    unfold Flag.level at hb
    cases h1 : bFlag.noMin <;> cases h2 : bFlag.noMax <;> simp_all
  unfold selCmp Field.valueCmp
  simp only [hna, hnb, Bool.or_self, Bool.false_eq_true, if_false]
  by_cases hzero : field.keyCmp a.key b.key = 0 <;>
    cases field.maybeNull <;> cases a.null <;> cases b.null <;> simp [hzero]

/-- **The order of the endpoints** in the two directions. -/
theorem selCmp_nonpos (ha : aFlag.Sane) (hb : bFlag.Sane) :
    (selCmp field a b aFlag bFlag ≤ 0 ↔ aFlag.level < bFlag.level ∨ aFlag.level = bFlag.level ∧
      (aFlag.level ≠ 0 ∨ field.valueCmp a b < 0 ∨
        field.valueCmp a b = 0 ∧ aFlag.near ≤ bFlag.near)) ∧
    (0 ≤ selCmp field a b aFlag bFlag ↔ bFlag.level < aFlag.level ∨ aFlag.level = bFlag.level ∧
      (aFlag.level ≠ 0 ∨ 0 < field.valueCmp a b ∨
        field.valueCmp a b = 0 ∧ bFlag.near ≤ aFlag.near)) := by
  by_cases hlevel : aFlag.level = 0 ∧ bFlag.level = 0
  · obtain ⟨hla, hlb⟩ := hlevel
    obtain ⟨hle, hge⟩ := nearCmp_nonpos ha hb
    rw [selCmp_of_level hla hlb, hla, hlb]
    by_cases hzero : field.valueCmp a b = 0
    · rw [if_pos hzero, hle, hge]
      simp [hzero]
    · split <;> constructor <;> omega
  · obtain ⟨ha, -⟩ := ha
    obtain ⟨hb, -⟩ := hb
    unfold selCmp
    unfold Flag.level at hlevel ⊢
    cases h1 : aFlag.noMin <;> cases h2 : aFlag.noMax <;> cases h3 : bFlag.noMin <;>
      cases h4 : bFlag.noMax <;> simp_all

structure Endpoint (V : Type*) where
  value : Value V
  flag : Flag
  sane : flag.Sane

def Endpoint.cmp (field : Field V) (p q : Endpoint V) : ℤ :=
  selCmp field p.value q.value p.flag q.flag

/-- **`sel_cmp` is a total order** of the endpoints. -/
theorem selCmp_total (hf : field.Proper) : TotalOrder (Endpoint.cmp field) where
  swap p q := by
    unfold Endpoint.cmp
    rw [(selCmp_nonpos p.sane q.sane).1, (selCmp_nonpos q.sane p.sane).2]
    have h1 := hf.valueCmp.lt_swap (x := p.value) (y := q.value)
    have h2 := hf.valueCmp.eq_swap (x := p.value) (y := q.value)
    constructor <;> rintro (h | ⟨h, h' | h' | h'⟩) <;> omega
  trans p q r := by
    unfold Endpoint.cmp
    rw [(selCmp_nonpos p.sane q.sane).1, (selCmp_nonpos q.sane r.sane).1,
      (selCmp_nonpos p.sane r.sane).1]
    have h1 := hf.valueCmp.lt_of_lt_of_le (x := p.value) (y := q.value) (z := r.value)
    have h2 := hf.valueCmp.lt_of_le_of_lt (x := p.value) (y := q.value) (z := r.value)
    have h3 := hf.valueCmp.trans p.value q.value r.value
    intro hpq hqr
    omega

/-! ### Intervals -/

structure Interval (V : Type*) where
  minValue : Value V
  maxValue : Value V
  minFlag : Flag
  maxFlag : Flag
  min_flag : minFlag.noMax = false ∧ minFlag.nearMax = false
  max_flag : maxFlag.noMin = false ∧ maxFlag.nearMin = false

namespace Interval

def min (arg : Interval V) : Endpoint V :=
  ⟨arg.minValue, arg.minFlag, by simp [Flag.Sane, arg.min_flag]⟩

def max (arg : Interval V) : Endpoint V :=
  ⟨arg.maxValue, arg.maxFlag, by simp [Flag.Sane, arg.max_flag]⟩

section

variable (field) (arg arg' : Interval V)

def cmpMinToMin : ℤ :=
  selCmp field arg.minValue arg'.minValue arg.minFlag arg'.minFlag

def cmpMinToMax : ℤ :=
  selCmp field arg.minValue arg'.maxValue arg.minFlag arg'.maxFlag

def cmpMaxToMin : ℤ :=
  selCmp field arg.maxValue arg'.minValue arg.maxFlag arg'.minFlag

/-- The minimum is not behind the maximum. -/
def Proper (arg : Interval V) : Prop := cmpMinToMax field arg arg ≤ 0

/-- One of the intervals ends before the other one starts. -/
def Disjoint : Prop :=
  cmpMaxToMin field arg arg' < 0 ∨ cmpMaxToMin field arg' arg < 0

end

instance (field : Field V) (arg : Interval V) : Decidable (Proper field arg) := by
  unfold Proper
  infer_instance

instance (field : Field V) (arg arg' : Interval V) : Decidable (Disjoint field arg arg') := by
  unfold Disjoint
  infer_instance

theorem Disjoint.cmpMinToMin_ne {arg arg' : Interval V} (h : Disjoint field arg arg')
    (hf : field.Proper) (hp : arg.Proper field) (hp' : arg'.Proper field) :
    cmpMinToMin field arg arg' ≠ 0 := by
  have ho := selCmp_total hf
  rcases h with h | h
  · exact (ho.lt_of_le_of_lt (x := arg.min) (y := arg.max) (z := arg'.min) hp h).ne
  · have hlt := ho.lt_of_le_of_lt (x := arg'.min) (y := arg'.max) (z := arg.min) hp' h
    exact fun heq => hlt.ne (ho.eq_swap.1 heq)

end Interval

end SelArg
