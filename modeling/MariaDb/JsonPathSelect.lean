/-
**JSON paths: when the comparison selects the right values.**

The comparison follows the pattern and the path of the value step by step.  A step with `**` makes
it look at the rest of the path with and without that step.  Three branches of the source go wrong.
A step `**[0]` that meets the member of an object passes over the member, where it should select the
object itself.  A key is compared as it is written, so it does not lead to the same key with other
escapes.  Without the sizes of the arrays every index counts as 0.

Main definitions:

* `Visits`: the pairs of steps that the comparison looks at;
* `MembersOk`, `ZeroOk`: the branches do no harm.

Main results:

* `partsCompare_eq_zero_iff`: **the comparison with sizes is right without the first two**;
* `partsCompare_none`: **without sizes it gives the same, but for the third one**.
-/

import MariaDb.JsonPath

set_option autoImplicit false

namespace JsonPath

open JsonLib List

/-- The comparison of a pattern with the path of a place looks at the step `t` of the pattern when
it is at the value `w` and goes on to `g`. -/
inductive Visits : List PathStep → Json → List Hop → PathStep → Json → Hop → Prop
  | here {s : PathStep} {a : List PathStep} {v : Json} {h : Hop} {p : List Hop} :
      Visits (s :: a) v (h :: p) s v h
  | fits {s t : PathStep} {a : List PathStep} {v u w : Json} {h g : Hop} {p : List Hop}
      (hs : s.doubleWild = false) (hu : v.child h = some u) (hl : s.Leads v h)
      (hr : Visits a u p t w g) : Visits (s :: a) v (h :: p) t w g
  | wraps {s t : PathStep} {a : List PathStep} {v w : Json} {h g : Hop} {p : List Hop}
      (hs : s.doubleWild = false) (hz : s.IsZero) (hv : v.type ≠ .array)
      (hr : Visits a v (h :: p) t w g) : Visits (s :: a) v (h :: p) t w g
  | first {s t : PathStep} {a : List PathStep} {v u w : Json} {h g : Hop} {p : List Hop}
      (hs : s.doubleWild = true) (hu : v.child h = some u) (hl : s.Leads v h)
      (hr : Visits a u p t w g) : Visits (s :: a) v (h :: p) t w g
  | second {s t : PathStep} {a : List PathStep} {v u w : Json} {h g : Hop} {p : List Hop}
      (hs : s.doubleWild = true) (hu : v.child h = some u)
      (hnot : ¬ (s.Leads v h ∧ Selects a u p)) (hr : Visits (s :: a) u p t w g) :
      Visits (s :: a) v (h :: p) t w g

variable {s t : PathStep} {a : List PathStep} {v u w : Json} {h g : Hop} {p : List Hop}

/-! ### Steps -/

theorem type_of_child_item {n : ℕ} (hu : v.child (.item n) = some u) : v.type = .array := by
  cases v with
  | scalar s => cases hu
  | node object parts =>
    cases object with
    | false => rfl
    | true => cases hu

theorem type_of_child_member {m : ℕ} {key : Str} (hu : v.child (.member m key) = some u) :
    v.type ≠ .array := by
  cases v with
  | scalar s => cases hu
  | node object parts =>
    cases object with
    | false => cases hu
    | true => simp [Json.type]

theorem correctedItem_some {size : ℤ} {n : ℕ} (h : size = n) (nItem : ℤ) :
    correctedItem (some size) nItem = itemOf n nItem := by
  rw [correctedItem, itemOf, h]

theorem PathStep.IsZero.not_leads (hz : s.IsZero) {m : ℕ} {key : Str} :
    ¬ s.Leads v (.member m key) := by
  rintro ⟨harray, -⟩
  rw [hz.1] at harray
  cases harray

/-- The step of the pattern is written as the key, if it is the same. -/
def PathStep.SameText (s : PathStep) (key : Str) : Prop :=
  s.array = false → Str.name s.key = Str.name key → Str.text s.key = Str.text key

/-- The comparison of two steps: the step of the pattern leads down, or it selects the object
itself, or neither. -/
theorem stepCompare_cases (hu : v.child h = some u) {size : ℤ}
    (hsize : v.type = .array → size = v.size) (hkey : ∀ m key, h = .member m key → s.SameText key) :
    (stepCompare s (stepOf h) (some size) = .stepFits ∧ s.Leads v h) ∨
    (stepCompare s (stepOf h) (some size) = .stepFitsAutowrap ∧ s.IsZero ∧ v.type ≠ .array ∧
      ∃ m key, h = .member m key) ∨
    (stepCompare s (stepOf h) (some size) = .stepFailed ∧ ¬ s.Leads v h ∧
      ¬ (s.IsZero ∧ v.type ≠ .array)) := by
  cases h with
  | item n =>
    have harray := type_of_child_item hu
    have hsz := hsize harray
    by_cases hl : s.Leads v (.item n)
    · refine .inl ⟨?_, hl⟩
      obtain ⟨h1, h2⟩ := hl
      simp only [stepCompare, stepOf, h1, if_true, correctedItem_some hsz]
      rw [if_pos]
      cases hr : s.range <;> simp only [hr, if_true, Bool.false_eq_true, if_false] at h2 ⊢ <;>
        exact h2
    refine .inr (.inr ⟨?_, hl, fun hz => hz.2 harray⟩)
    cases h1 : s.array with
    | false => simp [stepCompare, stepOf, h1]
    | true =>
      simp only [PathStep.Leads, h1, true_and] at hl
      simp only [stepCompare, stepOf, h1, if_true, correctedItem_some hsz]
      rw [if_neg]
      cases hr : s.range <;> simp only [hr, if_true, Bool.false_eq_true, if_false] at hl ⊢ <;>
        exact hl
  | member m key =>
    have hobject := type_of_child_member hu
    cases h1 : s.array with
    | true =>
      have hl : ¬ s.Leads v (.member m key) := fun hl => by
        rw [hl.1] at h1
        cases h1
      by_cases hz : s.IsZero
      · refine .inr (.inl ⟨?_, hz, hobject, m, key, rfl⟩)
        simp [stepCompare, stepOf, h1, hz.2.1, hz.2.2]
      refine .inr (.inr ⟨?_, hl, fun h => hz h.1⟩)
      simp only [stepCompare, stepOf, h1, if_true]
      rw [if_neg]
      rintro ⟨h2, h3⟩
      exact hz ⟨h1, by simpa using h2, h3⟩
    | false =>
      have hz : ¬ s.IsZero := fun hz => by
        rw [hz.1] at h1
        cases h1
      by_cases hl : s.Leads v (.member m key)
      · refine .inl ⟨?_, hl⟩
        simp only [stepCompare, stepOf, h1, Bool.false_eq_true, if_false]
        rw [if_neg]
        rintro ⟨h2, h3⟩
        rcases hl.2 with h4 | h4
        · simp [h4] at h2
        · exact h3 (hkey m key rfl h1 h4)
      · refine .inr (.inr ⟨?_, hl, fun h => hz h.1⟩)
        simp only [stepCompare, stepOf, h1, Bool.false_eq_true, if_false]
        rw [if_pos]
        constructor
        · cases hw : s.wild with
          | false => rfl
          | true => exact absurd ⟨h1, .inl hw⟩ hl
        · exact fun hk => hl ⟨h1, .inr (Str.name_eq_of_text_eq hk)⟩

/-! ### What is selected, step by step -/

theorem selects_nil_iff : Selects [] v p ↔ p = [] := by
  constructor
  · intro h
    cases h
    rfl
  · rintro rfl
    exact .nil v

theorem selects_single_iff (hs : s.doubleWild = false) :
    Selects (s :: a) v p ↔
      (∃ h q u, p = h :: q ∧ v.child h = some u ∧ s.Leads v h ∧ Selects a u q) ∨
      (s.IsZero ∧ v.type ≠ .array ∧ Selects a v p) := by
  constructor
  · intro hsel
    cases hsel with
    | child _ hu hl hr => exact .inl ⟨_, _, _, rfl, hu, hl, hr⟩
    | self _ hz hv hr => exact .inr ⟨hz, hv, hr⟩
    | here hs' | down hs' => rw [hs] at hs'; cases hs'
  · rintro (⟨h, q, u, rfl, hu, hl, hr⟩ | ⟨hz, hv, hr⟩)
    · exact .child hs hu hl hr
    · exact .self hs hz hv hr

theorem selects_double_iff (hs : s.doubleWild = true) :
    Selects (s :: a) v p ↔ Selects ({ s with doubleWild := false } :: a) v p ∨
      ∃ h q u, p = h :: q ∧ v.child h = some u ∧ Selects (s :: a) u q := by
  constructor
  · intro hsel
    cases hsel with
    | child hs' | self hs' => rw [hs] at hs'; cases hs'
    | here _ hr => exact .inl hr
    | down _ hu hr => exact .inr ⟨_, _, _, rfl, hu, hr⟩
  · rintro (hr | ⟨h, q, u, rfl, hu, hr⟩)
    · exact .here hs hr
    · exact .down hs hu hr

/-- The rest of the pattern, when the path has ended. -/
theorem wrapRest_eq_zero_iff : wrapRest v.type a = 0 ↔ Selects a v [] := by
  induction a with
  | nil => exact ⟨fun _ => .nil v, fun _ => rfl⟩
  | cons s a ih =>
    have hzero : (s.IsZero ∧ v.type ≠ .array ∧ Selects a v []) ↔ wrapRest v.type (s :: a) = 0 := by
      rw [wrapRest]
      by_cases hcond : v.type ≠ .array ∧ (s.array ∧ !s.wild) ∧ s.nItem = 0
      · rw [if_pos hcond, ih]
        obtain ⟨h1, ⟨h2, h3⟩, h4⟩ := hcond
        exact ⟨fun h => h.2.2, fun h => ⟨⟨h2, by simpa using h3, h4⟩, h1, h⟩⟩
      · rw [if_neg hcond]
        refine iff_of_false ?_ (by decide)
        rintro ⟨⟨h1, h2, h3⟩, h4, -⟩
        exact hcond ⟨h4, ⟨h1, by simp [h2]⟩, h3⟩
    rw [← hzero]
    cases hs : s.doubleWild with
    | false =>
      rw [selects_single_iff hs]
      constructor
      · exact .inr
      · rintro (⟨h, q, u, hp, -⟩ | h)
        · cases hp
        · exact h
    | true =>
      rw [selects_double_iff hs, selects_single_iff rfl]
      constructor
      · exact fun h => .inl (.inr h)
      rintro ((⟨h, q, u, hp, -⟩ | h) | ⟨h, q, u, hp, -⟩)
      · cases hp
      · exact h
      · cases hp

/-- A step without `**`, on the way down. -/
theorem selects_single_cons (hs : s.doubleWild = false) (hu : v.child h = some u) :
    Selects (s :: a) v (h :: p) ↔ (s.Leads v h ∧ Selects a u p) ∨
      (s.IsZero ∧ v.type ≠ .array ∧ Selects a v (h :: p)) := by
  rw [selects_single_iff hs]
  refine or_congr_left ⟨?_, fun hr => ⟨h, p, u, rfl, hu, hr⟩⟩
  rintro ⟨h', q, u', hp, hu', hr⟩
  cases hp
  obtain rfl : u = u' := Option.some.inj (hu.symm.trans hu')
  exact hr

/-- A step with `**`, on the way down. -/
theorem selects_double_cons (hs : s.doubleWild = true) (hu : v.child h = some u) :
    Selects (s :: a) v (h :: p) ↔ ((s.Leads v h ∧ Selects a u p) ∨
      (s.IsZero ∧ v.type ≠ .array ∧ Selects a v (h :: p))) ∨ Selects (s :: a) u p := by
  rw [selects_double_iff hs, selects_single_cons rfl hu]
  have hl : PathStep.Leads { s with doubleWild := false } v h ↔ s.Leads v h := by
    cases h <;> exact Iff.rfl
  refine or_congr (or_congr (and_congr_left' hl) Iff.rfl) ⟨?_, fun hr => ⟨h, p, u, rfl, hu, hr⟩⟩
  rintro ⟨h', q, u', hp, hu', hr⟩
  cases hp
  obtain rfl : u = u' := Option.some.inj (hu.symm.trans hu')
  exact hr

/-- A step that leads down does not select the value itself. -/
theorem PathStep.Leads.not_zero (hl : s.Leads v h) (hu : v.child h = some u) :
    ¬ (s.IsZero ∧ v.type ≠ .array) := by
  rintro ⟨hz, hv⟩
  cases h with
  | member m key => exact hz.not_leads hl
  | item n => exact hv (type_of_child_item hu)

/-- The way of the comparison when both calls for `**` are made: the second result counts unless it
is an error. -/
theorem res_eq_zero_iff {res res2 : ℤ} (hres : res ≠ 0) :
    (if 0 ≤ res2 then res2 else res) = 0 ↔ res2 = 0 := by
  split
  case isTrue => exact Iff.rfl
  case isFalse hneg => exact iff_of_false hres fun h => hneg h.ge

/-! ### The way of the comparison -/

/-- A step that meets the member of an object is no `**[0]`, and no key that is the same but written
in another way. -/
def MembersOk (a : List PathStep) (v : Json) (p : List Hop) : Prop :=
  ∀ t w m key, Visits a v p t w (.member m key) →
    ¬ (t.doubleWild = true ∧ t.IsZero) ∧ t.SameText key

/-- Every index or range that meets an item of an array leads to the item 0, and to no other
one. -/
def ZeroOk (a : List PathStep) (v : Json) (p : List Hop) : Prop :=
  ∀ t w n, Visits a v p t w (.item n) → t.array = true → t.wild = false →
    (t.Leads w (.item n) ↔ n = 0)

theorem shift_some (sizes : ℕ → ℤ) (k : ℕ) : shift (some sizes) k = some fun i => sizes (i + k) :=
  rfl

theorem shift_none (k : ℕ) : shift none k = none :=
  rfl

/-- Without the size of the array every index is 0. -/
theorem stepCompare_none (hu : v.child h = some u) {size : ℤ}
    (hsize : v.type = .array → size = v.size) (hkey : ∀ m key, h = .member m key → s.SameText key)
    (hzero : ∀ n, h = .item n → s.array = true → s.wild = false → (s.Leads v h ↔ n = 0)) :
    stepCompare s (stepOf h) none = stepCompare s (stepOf h) (some size) := by
  cases h with
  | member m key => rfl
  | item n =>
    cases harray : s.array with
    | false => simp [stepCompare, stepOf, harray]
    | true =>
      cases hwild : s.wild with
      | true => simp [stepCompare, stepOf, harray, hwild]
      | false =>
        have hn := hzero n rfl harray hwild
        have hzero' : stepCompare s (stepOf (.item n)) none = .stepFits ↔ n = 0 := by
          simp only [stepCompare, stepOf, harray, hwild, if_true, correctedItem]
          cases s.range with
          | false =>
            simp
            omega
          | true => simp
        rcases stepCompare_cases (s := s) hu hsize hkey with
          ⟨hcmp, hl⟩ | ⟨-, -, -, m, key, hh⟩ | ⟨hcmp, hl, -⟩
        · rw [hcmp]
          exact hzero'.2 (hn.1 hl)
        · cases hh
        have htwo : stepCompare s (stepOf (.item n)) none = .stepFits ∨
            stepCompare s (stepOf (.item n)) none = .stepFailed := by
          simp only [stepCompare, stepOf, harray, if_true]
          exact ite_eq_or_eq _ _ _
        rw [hcmp]
        exact htwo.resolve_left (hzero'.not.2 (hn.not.1 hl))

/-- The comparison with the sizes of the arrays and the one without them. -/
theorem partsCompare_spec {sizes : ℕ → ℤ} {k : ℕ} (k' : ℕ) (hw : v.at p = some w)
    (hsizes : SizesFor (fun i => sizes (i + k)) v p) (hok : MembersOk a v p) :
    (jsonPathPartsCompare w.type (some sizes) k a (p.map stepOf) = 0 ↔ Selects a v p) ∧
      (ZeroOk a v p → jsonPathPartsCompare w.type none k' a (p.map stepOf)
        = jsonPathPartsCompare w.type (some sizes) k a (p.map stepOf)) := by
  -- every call has a shorter pattern or a shorter path
  induction hn : a.length + p.length using Nat.strong_induction_on
    generalizing a v p sizes k k' with
  | _ n ih =>
  cases a with
  | nil =>
    rw [jsonPathPartsCompare, jsonPathPartsCompare, selects_nil_iff]
    exact ⟨by cases p <;> simp, fun _ => rfl⟩
  | cons s a =>
  cases p with
  | nil =>
    obtain rfl : v = w := by simpa [Json.at] using hw
    rw [map_nil, jsonPathPartsCompare, jsonPathPartsCompare]
    exact ⟨wrapRest_eq_zero_iff, fun _ => rfl⟩
  | cons h p =>
  simp only [length_cons] at hn
  have hat := hw
  obtain ⟨u, hu, hw'⟩ := Option.bind_eq_some_iff.1 hw
  have hsize : v.type = .array → sizes k = v.size := fun hv => by simpa using hsizes.1 hv
  have hsizes' : SizesFor (fun i => sizes (i + (k + 1))) u p := by
    have := hsizes.2 u hu
    simpa only [Nat.add_assoc, Nat.add_comm 1 k] using this
  have hkey : ∀ m key, h = .member m key → s.SameText key := by
    rintro m key rfl
    exact (hok s v m key .here).2
  have hnone (hzero : ZeroOk (s :: a) v (h :: p)) :=
    stepCompare_none (s := s) hu hsize hkey fun n hh => by
      subst hh
      exact hzero s v n .here
  -- the call with the same pattern, one step further
  have hsecond (hs : s.doubleWild = true) (hnot : ¬ (s.Leads v h ∧ Selects a u p)) {f : ℕ → ℤ}
      {k : ℕ} (k' : ℕ) (hf : SizesFor (fun i => f (i + k)) u p) :=
    ih ((s :: a).length + p.length) (by simp only [length_cons]; omega) k' hw' hf
      (fun t w m key hvis => hok t w m key (.second hs hu hnot hvis)) rfl
  rw [map_cons, jsonPathPartsCompare, jsonPathPartsCompare, Option.map_some, Option.map_none]
  rcases stepCompare_cases (s := s) hu hsize hkey with
    ⟨hcmp, hl⟩ | ⟨hcmp, hz, hv, m, key, rfl⟩ | ⟨hcmp, hl, hz⟩
  · -- the step leads down
    have hnot : ¬ (s.IsZero ∧ v.type ≠ .array ∧ Selects a v (h :: p)) := fun hz =>
      hl.not_zero hu ⟨hz.1, hz.2.1⟩
    rw [hcmp]
    cases hs : s.doubleWild with
    | false =>
      obtain ⟨hrec, hrec'⟩ := ih (a.length + p.length) (by omega) (k' + 1) hw' hsizes'
        (fun t w m key hvis => hok t w m key (.fits hs hu hl hvis)) rfl
      rw [selects_single_cons hs hu, and_iff_right hl, or_iff_left hnot]
      refine ⟨hrec, fun hzero => ?_⟩
      rw [hnone hzero, hcmp]
      exact hrec' fun t w n hvis => hzero t w n (.fits hs hu hl hvis)
    | true =>
      obtain ⟨hfirst, hfirst'⟩ := @ih (a.length + p.length) (by omega) a u p
        (fun i => sizes (i + (k + 1))) 0 0 hw' hsizes'
        (fun t w m key hvis => hok t w m key (.first hs hu hl hvis)) rfl
      rw [selects_double_cons hs hu, and_iff_right hl, or_iff_left hnot, shift_some]
      simp only [Bool.not_true, Bool.false_eq_true, if_false]
      by_cases hres : Selects a u p
      · refine ⟨iff_of_true (if_pos (hfirst.2 hres)) (.inl hres), fun hzero => ?_⟩
        rw [hnone hzero, hcmp, shift_none]
        rw [hfirst' fun t w n hvis => hzero t w n (.first hs hu hl hvis), if_pos (hfirst.2 hres),
          if_pos (hfirst.2 hres)]
      obtain ⟨hrec, hrec'⟩ :=
        @hsecond hs (fun h => hres h.2) (fun i => sizes (i + (k + 1))) 0 0 hsizes'
      have hne := hfirst.not.2 hres
      rw [if_neg hne, res_eq_zero_iff hne, or_iff_right hres]
      refine ⟨hrec, fun hzero => ?_⟩
      rw [hnone hzero, hcmp, shift_none]
      rw [hfirst' fun t w n hvis => hzero t w n (.first hs hu hl hvis), if_neg hne,
        hrec' fun t w n hvis => hzero t w n (.second hs hu (fun h => hres h.2) hvis)]
  · -- the step selects the object itself
    have hs : s.doubleWild = false := by
      cases hs : s.doubleWild with
      | false => rfl
      | true => exact absurd ⟨hs, hz⟩ (hok s v m key .here).1
    obtain ⟨hrec, hrec'⟩ := ih (a.length + (Hop.member m key :: p).length)
      (by simp only [length_cons]; omega) k' hat hsizes
      (fun t w m key hvis => hok t w m key (.wraps hs hz hv hvis)) rfl
    rw [hcmp, selects_single_cons hs hu, or_iff_right fun h => hz.not_leads h.1, and_iff_right hz,
      and_iff_right hv]
    simp only [hs, Bool.not_false, if_true]
    refine ⟨hrec, fun hzero => ?_⟩
    rw [hnone hzero, hcmp]
    exact hrec' fun t w n hvis => hzero t w n (.wraps hs hz hv hvis)
  · -- the step fails here
    have hnot : ¬ ((s.Leads v h ∧ Selects a u p) ∨
        (s.IsZero ∧ v.type ≠ .array ∧ Selects a v (h :: p))) :=
      not_or.2 ⟨fun h => hl h.1, fun h => hz ⟨h.1, h.2.1⟩⟩
    rw [hcmp]
    simp only []
    cases hs : s.doubleWild with
    | false =>
      rw [selects_single_cons hs hu]
      simp only [Bool.not_false, if_true]
      refine ⟨iff_of_false (by decide) hnot, fun hzero => ?_⟩
      rw [hnone hzero, hcmp]
    | true =>
      obtain ⟨hrec, hrec'⟩ := hsecond hs (fun h => hl h.1) (k' + 1) hsizes'
      rw [selects_double_cons hs hu, or_iff_right hnot]
      refine ⟨hrec, fun hzero => ?_⟩
      rw [hnone hzero, hcmp]
      exact hrec' fun t w n hvis => hzero t w n (.second hs hu (fun h => hl h.1) hvis)

variable {sizes : ℕ → ℤ} {k : ℕ} (hw : v.at p = some w)
  (hsizes : SizesFor (fun i => sizes (i + k)) v p) (hok : MembersOk a v p)
include hw hsizes hok

/-- **With the sizes of the arrays the comparison selects the right values**, if the steps that meet
members of objects do. -/
theorem partsCompare_eq_zero_iff :
    jsonPathPartsCompare w.type (some sizes) k a (p.map stepOf) = 0 ↔ Selects a v p :=
  (partsCompare_spec 0 hw hsizes hok).1

/-- **Without the sizes of the arrays the comparison gives the same result**, if also the indexes and
ranges that meet an item of an array lead to the item 0 alone. -/
theorem partsCompare_none {k' : ℕ} (hzero : ZeroOk a v p) :
    jsonPathPartsCompare w.type none k' a (p.map stepOf)
      = jsonPathPartsCompare w.type (some sizes) k a (p.map stepOf) :=
  (partsCompare_spec k' hw hsizes hok).2 hzero

end JsonPath
