/-
**JSON paths: comparison of a pattern with the path of a value.**

`json_path_compare` tells whether a path such as `$.a**[last].*` selects the value at a path such as
`$.a[2].b`.  A step of a pattern is a key or an index, which may be a wildcard or a range of
indexes, and which has `**` before it or not.  An index below zero counts from the end of the array:
the sizes of the arrays on the way to the value are an argument, which may be missing.

Main definitions:

* `PathStep`, `Step`: the steps of a pattern, and of the path of a value;
* `jsonPathPartsCompare`, `jsonPathCompare`: the comparison of the source;
* `Selects`: what a pattern should select.
-/

import MariaDb.JsonDoc

set_option autoImplicit false

namespace JsonPath

open JsonLib

/-! ### Paths -/

/-- A step of a pattern.  `type` is given by its bits: `JSON_PATH_ARRAY` (or else `JSON_PATH_KEY`),
`JSON_PATH_WILD`, `JSON_PATH_DOUBLE_WILD` and `JSON_PATH_ARRAY_RANGE`. -/
structure PathStep where
  array : Bool
  wild : Bool
  doubleWild : Bool
  range : Bool
  key : Str
  nItem : ℤ
  nItemEnd : ℤ
deriving DecidableEq

/-- A step of the path of a value. -/
inductive Step
  | key (key : Str)
  | item (nItem : ℕ)
deriving DecidableEq

/-- The step of a path for a step down in the document. -/
def stepOf : Hop → Step
  | .member _ key => .key key
  | .item n => .item n

/-- What the comparison of two steps leads to: the labels in `json_path_parts_compare`. -/
inductive Fit
  | stepFits
  | stepFitsAutowrap
  | stepFailed
deriving DecidableEq

/-- An index of the pattern, corrected with the size of the array. -/
def correctedItem (size : Option ℤ) (nItem : ℤ) : ℤ :=
  match size with
  | none => 0
  | some size => if nItem < 0 then size + nItem else nItem

/-- The comparison of two steps; `size` is the number of items of the array of the second one.  Keys
are compared by their bytes, as they are written. -/
def stepCompare (s : PathStep) (x : Step) (size : Option ℤ) : Fit :=
  if s.array then
    match x with
    | .item n =>
      let res :=
        if s.range then
          correctedItem size s.nItem ≤ n ∧ n ≤ correctedItem size s.nItemEnd
        else correctedItem size s.nItem = n
      if s.wild ∨ res then .stepFits else .stepFailed
    | .key _ => if !s.wild ∧ s.nItem = 0 then .stepFitsAutowrap else .stepFailed
  else
    match x with
    | .item _ => .stepFailed
    | .key key => if !s.wild ∧ Str.text s.key ≠ Str.text key then .stepFailed else .stepFits

/-- The loop when the path of the value has ended: steps with the index 0 select what is not an
array. -/
def wrapRest (vt : ValueType) : List PathStep → ℤ
  | [] => 0
  | s :: a =>
    if vt ≠ .array ∧ (s.array ∧ !s.wild) ∧ s.nItem = 0 then wrapRest vt a else -2

/-- `array_sizes + n` -/
def shift (sizes : Option (ℕ → ℤ)) (n : ℕ) : Option (ℕ → ℤ) := sizes.map fun f i => f (i + n)

/-- `json_path_parts_compare`; `k` is `b - temp_b`. -/
def jsonPathPartsCompare (vt : ValueType) (sizes : Option (ℕ → ℤ)) (k : ℕ) :
    List PathStep → List Step → ℤ
  | [], b => if b = [] then 0 else 1
  | s :: a, [] => wrapRest vt (s :: a)
  | s :: a, x :: b =>
    match stepCompare s x (sizes.map fun f => f k) with
    | .stepFailed =>
      if !s.doubleWild then -1 else jsonPathPartsCompare vt sizes (k + 1) (s :: a) b
    | .stepFits =>
      if !s.doubleWild then jsonPathPartsCompare vt sizes (k + 1) a b
      else
        let res := jsonPathPartsCompare vt (shift sizes (k + 1)) 0 a b
        if res = 0 then 0
        else
          let res2 := jsonPathPartsCompare vt (shift sizes (k + 1)) 0 (s :: a) b
          if 0 ≤ res2 then res2 else res
    | .stepFitsAutowrap =>
      if !s.doubleWild then jsonPathPartsCompare vt sizes k a (x :: b)
      else
        let res := jsonPathPartsCompare vt (shift sizes k) 0 a b
        if res = 0 then 0
        else
          let res2 := jsonPathPartsCompare vt (shift sizes k) 0 (s :: a) b
          if 0 ≤ res2 then res2 else res
termination_by a b => a.length + b.length

/-- `json_path_compare`.  The first step of both paths, `$`, is left out. -/
def jsonPathCompare (a : List PathStep) (b : List Step) (vt : ValueType)
    (sizes : Option (ℕ → ℤ)) : ℤ :=
  jsonPathPartsCompare vt sizes 0 a b

/-! ### What a pattern selects -/

/-- An index of the pattern for an array of some size. -/
def itemOf (size : ℕ) (nItem : ℤ) : ℤ := if nItem < 0 then size + nItem else nItem

/-- A step of the pattern, without `**`, leads down in a value.  A key names a member whatever escapes
it is written with, as for `json_key_matches`. -/
def PathStep.Leads (s : PathStep) (v : Json) : Hop → Prop
  | .member _ key => s.array = false ∧ (s.wild = true ∨ Str.name s.key = Str.name key)
  | .item n =>
    s.array = true ∧ (s.wild = true ∨
      if s.range then itemOf v.size s.nItem ≤ n ∧ (n : ℤ) ≤ itemOf v.size s.nItemEnd
      else itemOf v.size s.nItem = n)

def PathStep.IsZero (s : PathStep) : Prop := s.array = true ∧ s.wild = false ∧ s.nItem = 0

/-- **The pattern selects the value at the place `p`.**  A step leads down, or, if it has the index
0 and the value is not an array, it selects the value itself.  A step with `**` does so at the value
or anywhere below it. -/
inductive Selects : List PathStep → Json → List Hop → Prop
  | nil (v : Json) : Selects [] v []
  | child {s : PathStep} {a : List PathStep} {v u : Json} {h : Hop} {p : List Hop}
      (hs : s.doubleWild = false) (hu : v.child h = some u) (hl : s.Leads v h)
      (hr : Selects a u p) : Selects (s :: a) v (h :: p)
  | self {s : PathStep} {a : List PathStep} {v : Json} {p : List Hop}
      (hs : s.doubleWild = false) (hz : s.IsZero) (hv : v.type ≠ .array)
      (hr : Selects a v p) : Selects (s :: a) v p
  | here {s : PathStep} {a : List PathStep} {v : Json} {p : List Hop}
      (hs : s.doubleWild = true) (hr : Selects ({ s with doubleWild := false } :: a) v p) :
      Selects (s :: a) v p
  | down {s : PathStep} {a : List PathStep} {v u : Json} {h : Hop} {p : List Hop}
      (hs : s.doubleWild = true) (hu : v.child h = some u) (hr : Selects (s :: a) u p) :
      Selects (s :: a) v (h :: p)

/-- `array_sizes` has the sizes of the arrays on the way to a place. -/
def SizesFor (sizes : ℕ → ℤ) : Json → List Hop → Prop
  | _, [] => True
  | v, h :: p =>
    (v.type = .array → sizes 0 = v.size) ∧
      ∀ u, v.child h = some u → SizesFor (fun i => sizes (i + 1)) u p

/-- No index of the pattern is below zero. -/
def NoNegative (a : List PathStep) : Prop :=
  ∀ s ∈ a, s.array = true → 0 ≤ s.nItem ∧ (s.range = true → 0 ≤ s.nItemEnd)

end JsonPath
