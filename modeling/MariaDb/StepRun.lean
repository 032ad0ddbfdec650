/-
**Runs of a step that may fail.**

A step function gives a new state and tells whether it failed.  `StepRun.Run f r l r'` says that the
steps from the result `r` come to the result `r'`, where `l` are the states on the way.  A loop that
calls the step until it fails, or until it has found what it looks for, is then described by one run.

Main definitions:

* `Run`: steps one after another.

Main results:

* `Run.append`: runs compose.
-/

import Mathlib.Data.List.Basic

set_option autoImplicit false

namespace StepRun

variable {σ : Type} {f : σ → Bool × σ} {r r' r'' : Bool × σ} {x : σ} {l l' : List σ}

/-- Steps from a result to another one, with the states on the way. -/
inductive Run {σ : Type} (f : σ → Bool × σ) : Bool × σ → List σ → Bool × σ → Prop
  | nil (r : Bool × σ) : Run f r [] r
  | cons {x : σ} {l : List σ} {r : Bool × σ} (h : Run f (f x) l r) : Run f (false, x) (x :: l) r

theorem Run.of_eq (h : r = r') : Run f r [] r' :=
  h ▸ .nil r

theorem Run.step (h : r = (false, x)) (hr : Run f (f x) l r') : Run f r (x :: l) r' :=
  h ▸ .cons hr

theorem Run.append (h : Run f r l r') (h' : Run f r' l' r'') : Run f r (l ++ l') r'' := by
  induction h with
  | nil r => exact h'
  | cons _ ih => exact .cons (ih h')

end StepRun
