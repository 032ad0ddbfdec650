/-
**Compare functions.**

A compare function returns a number whose sign tells which of two keys comes first.  It is proper if
the sign is that of a total order; different keys may be equal for it.

Main definitions:

* `TotalOrder`: a proper compare function.

Main results:

* `TotalOrder.eq_congr`: keys that are equal for the order compare alike.
-/

import Mathlib.Order.Basic
import Mathlib.Algebra.Order.Ring.Int

set_option autoImplicit false

namespace CompareOrder

variable {K : Type*} {compare : K → K → ℤ}

/-- The sign of `compare` says which of two keys comes first. -/
structure TotalOrder (compare : K → K → ℤ) : Prop where
  swap : ∀ x y, compare x y ≤ 0 ↔ 0 ≤ compare y x
  trans : ∀ x y z, compare x y ≤ 0 → compare y z ≤ 0 → compare x z ≤ 0

namespace TotalOrder

variable (ho : TotalOrder compare)
include ho

theorem lt_swap {x y : K} : compare x y < 0 ↔ 0 < compare y x := by
  have := ho.swap y x
  omega

theorem refl (x : K) : compare x x = 0 := by
  have := ho.swap x x
  omega

theorem eq_swap {x y : K} : compare x y = 0 ↔ compare y x = 0 := by
  have := ho.swap x y
  have := ho.swap y x
  omega

theorem lt_of_lt_of_le {x y z : K} (hxy : compare x y < 0)
    (hyz : compare y z ≤ 0) : compare x z < 0 := by
  by_contra hxz
  have hzx : compare z x ≤ 0 := (ho.swap z x).2 (by omega)
  have hyx := ho.trans y z x hyz hzx
  have := (ho.swap y x).1 hyx
  omega

theorem lt_of_le_of_lt {x y z : K} (hxy : compare x y ≤ 0)
    (hyz : compare y z < 0) : compare x z < 0 := by
  by_contra hxz
  have hzx : compare z x ≤ 0 := (ho.swap z x).2 (by omega)
  have hzy := ho.trans z x y hzx hxy
  have := (ho.swap z y).1 hzy
  omega

/-- Keys that are equal for the order compare alike. -/
theorem eq_congr {x y : K} (hxy : compare x y = 0) (z : K) : compare x z = 0 ↔ compare y z = 0 := by
  have h1 := ho.trans x y z (by omega)
  have h2 := ho.trans y x z (ho.eq_swap.1 hxy).le
  have h3 := ho.trans z x y
  have h4 := ho.trans z y x
  have h5 := ho.swap z x
  have h6 := ho.swap z y
  have h9 := ho.eq_swap.1 hxy
  omega

end TotalOrder

end CompareOrder
