/-
**The set of page numbers `range_set`.**

InnoDB keeps the freed pages of a tablespace as a set of disjoint ranges, ordered by the first
page of each range.  The ordering only looks at `first`, so finding the range of a page means
looking at the range before the one that `lower_bound` returns, and every change has cases for the
first, the last and the middle of a range and for ranges that become adjacent.

An iterator of the set is the element it points to, `none` being `end()`: the elements have
distinct keys, and erasing one element leaves the iterators to the others valid.

Main definitions:

* `Range`, `emplace`, `erase`, `lowerBound`, `prev` — the elements and the operations of `std::set`
  that are used;
* `find`, `addValue`, `removeValue`, `removeIfExists`, `contains`: the member functions;
* `Wf`, `Mem`: the ranges are ordered, disjoint and not adjacent, and the values they hold;
* `Hidden`: a value behind the first one of a range that is not the last range.

Main results:

* `find_spec`: **`find()` misses the hidden values**: it looks at the range before the lower bound
  only when there is no range after it.
-/

import Mathlib.Data.Finset.Basic
import Mathlib.Data.List.Basic
import Mathlib.Tactic

set_option autoImplicit false

namespace RangeSet

open List

/-! ### Ranges and the ordered set that holds them -/

/-- `range_t`: the first and the last value of a range. -/
structure Range where
  first : ℕ
  last : ℕ
  deriving DecidableEq, Repr

def succ32 (n : ℕ) : ℕ := (n + 1) % 2 ^ 32

def pred32 (n : ℕ) : ℕ := (n + (2 ^ 32 - 1)) % 2 ^ 32

theorem succ32_eq {n : ℕ} (h : n < 2 ^ 32 - 1) : succ32 n = n + 1 := by
  unfold succ32; omega

theorem pred32_eq {n : ℕ} (h0 : 0 < n) (h : n < 2 ^ 32) : pred32 n = n - 1 := by
  unfold pred32; omega

theorem pred32_zero : pred32 0 = 2 ^ 32 - 1 := rfl

section

variable (s : List Range)

/-- `lower_bound()`: the first range that does not start below `value`. -/
def lowerBound (value : ℕ) : Option Range :=
  s.find? fun r => !decide (r.first < value)

def prev : Option Range → Option Range
  | none => s.getLast?
  | some r => (s.filter fun x => decide (x.first < r.first)).getLast?

/-- `erase()` of the element with the key of `r`. -/
def erase (r : Range) : List Range :=
  s.filter fun x => decide (x.first ≠ r.first)

/-- `emplace()`: nothing is inserted when the key is there already. -/
def emplace : List Range → Range → List Range
  | [], r => [r]
  | x :: s, r =>
    if x.first < r.first then x :: emplace s r
    else if r.first < x.first then r :: x :: s
    else x :: s

/-! ### The member functions -/

def find (value : ℕ) : Option Range :=
  let rOffset := match lowerBound s value with
    | some r => some r
    | none => if s.isEmpty then none else prev s none
  match rOffset with
  | some r => if r.first ≤ value ∧ value ≤ r.last then some r else none
  | none => none

def mergeRange (range prevRange : Range) : List Range :=
  if range.first ≠ succ32 prevRange.last then s
  else emplace (erase (erase s prevRange) range) ⟨prevRange.first, range.last⟩

def splitRange (range : Range) (value : ℕ) : List Range :=
  emplace (emplace (erase s range) ⟨range.first, pred32 value⟩) ⟨succ32 value, range.last⟩

def removeWithinRange (range : Range) (value : ℕ) : List Range :=
  if value = range.first then
    if range.first = range.last then erase s range
    else emplace (erase s range) ⟨succ32 range.first, range.last⟩
  else if value = range.last then emplace (erase s range) ⟨range.first, pred32 range.last⟩
  else if range.first < value ∧ value < range.last then splitRange s range value
  else emplace (erase s range) range

def removeValue (value : ℕ) : List Range :=
  if s.isEmpty then s
  else
    let range := match lowerBound s value with
      | none => prev s none
      | some r => if value < r.first ∧ s.head? ≠ some r then prev s (some r) else some r
    match range with
    | some r => removeWithinRange s r value
    | none => s

/-- `range_set::add_within_range()`: the set and the returned iterator. -/
def addWithinRange (range : Range) (value : ℕ) : List Range × Option Range :=
  if range.first ≤ value ∧ value ≤ range.last then (s, some range)
  else if succ32 range.last = value then
    let t := emplace (erase s range) ⟨range.first, succ32 range.last⟩
    (t, t.find? fun x => decide (x.first = range.first))
  else if pred32 range.first = value then
    let t := emplace (erase s range) ⟨pred32 range.first, range.last⟩
    (t, t.find? fun x => decide (x.first = pred32 range.first))
  else (s, none)

/-- The two places of `add_range()` that extend one range or fall through to `new_range`. -/
def addWithinOrNew (range : Option Range) (newRange : Range) : List Range :=
  match range with
  | none => s
  | some r =>
    let p := addWithinRange s r newRange.first
    if p.2 = none then emplace p.1 newRange else p.1

/-- The branch of `add_range()` that changes the start of an existing range. -/
def extendStart (range : Range) (newRange : Range) : List Range :=
  let p := addWithinRange s range newRange.first
  if p.2 = p.1.head? then p.1
  else
    match p.2, prev p.1 p.2 with
    | some range, some prevRange => mergeRange p.1 range prevRange
    | _, _ => p.1

def addRange (newRange : Range) : List Range :=
  if s.isEmpty then emplace s newRange
  else
    match lowerBound s newRange.first with
    | none => addWithinOrNew s (prev s none) newRange
    | some r =>
      if s.head? = some r then addWithinOrNew s (some r) newRange
      else if pred32 r.first = newRange.first then extendStart s r newRange
      else addWithinOrNew s (prev s (some r)) newRange

def addValue (value : ℕ) : List Range := addRange s ⟨value, value⟩

def removeIfExists (value : ℕ) : List Range × Bool :=
  match find s value with
  | some r => (removeWithinRange s r value, true)
  | none => (s, false)

def contains (value : ℕ) : Bool := (find s value).isSome

end

/-! ### Well-formed sets of ranges -/

/-- The ranges are in order, disjoint and not adjacent, and they hold values below `2 ^ 32 - 1`. -/
@[mk_iff] structure Wf (s : List Range) : Prop where
  ordered : s.Pairwise fun a b => a.last + 1 < b.first
  valid : ∀ r ∈ s, r.first ≤ r.last ∧ r.last < 2 ^ 32 - 1

/-- The values that the ranges hold. -/
def Mem (s : List Range) (v : ℕ) : Prop := ∃ r ∈ s, r.first ≤ v ∧ v ≤ r.last

/-- A value that is not the first one of its range, when another range follows. -/
def Hidden (s : List Range) (v : ℕ) : Prop :=
  (∃ r ∈ s, r.first < v ∧ v ≤ r.last) ∧ ∃ r ∈ s, v < r.first

theorem wf_nil : Wf [] := ⟨Pairwise.nil, by simp⟩

variable {a b s : List Range} {r y z : Range} {v : ℕ} {vals : Finset ℕ}

theorem wf_append : Wf (a ++ b) ↔ Wf a ∧ Wf b ∧ ∀ x ∈ a, ∀ y ∈ b, x.last + 1 < y.first := by
  simp only [wf_iff, pairwise_append, forall_mem_append]
  tauto

theorem wf_cons :
    Wf (r :: s) ↔ (r.first ≤ r.last ∧ r.last < 2 ^ 32 - 1) ∧ Wf s ∧
      ∀ y ∈ s, r.last + 1 < y.first := by
  simp only [wf_iff, pairwise_cons, forall_mem_cons]
  tauto

theorem mem_nil (v : ℕ) : Mem [] v ↔ False := by simp [Mem]

theorem mem_append (v : ℕ) : Mem (a ++ b) v ↔ Mem a v ∨ Mem b v := by
  simp [Mem, or_and_right, exists_or]

theorem mem_cons (v : ℕ) : Mem (r :: s) v ↔ (r.first ≤ v ∧ v ≤ r.last) ∨ Mem s v := by
  simp [Mem]

/-- A set of ranges, seen from one of them. -/
theorem wf_mid :
    Wf (a ++ r :: b) ↔ Wf a ∧ Wf b ∧ (r.first ≤ r.last ∧ r.last < 2 ^ 32 - 1) ∧
      (∀ x ∈ a, x.last + 1 < r.first) ∧ (∀ y ∈ b, r.last + 1 < y.first) ∧
      ∀ x ∈ a, ∀ y ∈ b, x.last + 1 < y.first := by
  simp only [wf_append, wf_cons, forall_mem_cons, imp_and, forall_and]
  tauto

theorem wf_single : Wf [r] ↔ r.first ≤ r.last ∧ r.last < 2 ^ 32 - 1 := by
  simp [wf_cons, wf_nil]

theorem mem_mid (v : ℕ) : Mem (a ++ r :: b) v ↔ (r.first ≤ v ∧ v ≤ r.last) ∨ Mem a v ∨ Mem b v := by
  rw [mem_append, mem_cons]
  tauto

/-- At most one range holds a value. -/
theorem Wf.unique (hs : Wf s) (hy : y ∈ s) (hz : z ∈ s) (hyv : y.first ≤ v ∧ v ≤ y.last)
    (hzv : z.first ≤ v ∧ v ≤ z.last) : z = y := by
  obtain ⟨a, b, rfl⟩ := append_of_mem hy
  obtain ⟨-, -, -, hay, hyb, -⟩ := wf_mid.1 hs
  rcases List.mem_append.1 hz with hz | hz
  · have := hay z hz
    omega
  rcases List.mem_cons.1 hz with rfl | hz
  · rfl
  · have := hyb z hz
    omega

/-! ### Lookups -/

/-- The key of `r` is between those of the ranges `a` and those of the ranges `b`. -/
def Between (a : List Range) (r : Range) (b : List Range) : Prop :=
  (∀ x ∈ a, x.first < r.first) ∧ ∀ y ∈ b, r.first < y.first

/-- A range that starts within one of the ranges or right before it has a key that fits in its
place. -/
theorem Wf.between_within {r' : Range} (hs : Wf (a ++ r :: b)) (hf : r.first ≤ r'.first + 1)
    (hl : r'.first ≤ r.last) : Between a r' b := by
  obtain ⟨ha, -, -, har, hrb, -⟩ := wf_mid.1 hs
  refine ⟨fun x hx => ?_, fun y hy => ?_⟩
  · have h1 := har x hx
    have h2 := ha.valid x hx
    omega
  · have := hrb y hy
    omega

theorem Wf.between (hs : Wf (a ++ r :: b)) : Between a r b :=
  hs.between_within (Nat.le_succ _) (wf_mid.1 hs).2.2.1.1

/-- Every value cuts a set of ranges in two: the ranges that start below it, and the others. -/
theorem exists_split (hs : Wf s) (v : ℕ) :
    ∃ a b, s = a ++ b ∧ (∀ x ∈ a, x.first < v) ∧ ∀ y ∈ b, v ≤ y.first := by
  induction s with
  | nil => exact ⟨[], [], rfl, by simp, by simp⟩
  | cons r s ih =>
    rw [wf_cons] at hs
    by_cases hr : r.first < v
    · obtain ⟨a, b, rfl, ha, hb⟩ := ih hs.2.1
      exact ⟨r :: a, b, rfl, by simpa [hr] using ha, hb⟩
    -- the later ranges start even later
    refine ⟨[], r :: s, rfl, by simp, fun y hy => ?_⟩
    rcases List.mem_cons.1 hy with rfl | hy
    · omega
    · have := hs.2.2 y hy
      omega

theorem lowerBound_append (ha : ∀ x ∈ a, x.first < v) (hb : ∀ y ∈ b, v ≤ y.first) :
    lowerBound (a ++ b) v = b.head? := by
  unfold lowerBound
  rw [find?_append, find?_eq_none.2 (by simpa using ha), Option.none_or]
  cases b with
  | nil => rfl
  | cons y b =>
    have hy := hb y mem_cons_self
    rw [find?_cons_of_pos (by simpa using hy)]
    rfl

/-- The range before a given one is the last of the ranges that precede it. -/
theorem prev_mid (h : Between a r b) : prev (a ++ r :: b) (some r) = a.getLast? := by
  have hkeep : a.filter (fun x => decide (x.first < r.first)) = a :=
    filter_eq_self.2 (by simpa using h.1)
  have hdrop : b.filter (fun x => decide (x.first < r.first)) = [] := by
    rw [filter_eq_nil_iff]
    intro y hy
    have := h.2 y hy
    simp only [decide_eq_true_eq]
    omega
  simp only [prev, filter_append, filter_cons, lt_irrefl, decide_false, hkeep, hdrop]
  simp

theorem erase_mid (h : Between a r b) : erase (a ++ r :: b) r = a ++ b := by
  have hkeep : ∀ x ∈ a ++ b, decide (x.first ≠ r.first) = true := by
    intro x hx
    rw [decide_eq_true_eq]
    exact (List.mem_append.1 hx).elim (fun hx => (h.1 x hx).ne) fun hx => (h.2 x hx).ne'
  rw [erase, filter_append, filter_cons_of_neg (by simp), ← filter_append, filter_eq_self.2 hkeep]

theorem emplace_append (ha : ∀ x ∈ a, x.first < r.first) : emplace (a ++ b) r = a ++ emplace b r := by
  induction a with
  | nil => rfl
  | cons x a ih =>
    simp only [cons_append, emplace]
    rw [if_pos (ha x mem_cons_self), ih fun z hz => ha z (mem_cons_of_mem _ hz)]

theorem emplace_mid (h : Between a r b) : emplace (a ++ b) r = a ++ r :: b := by
  rw [emplace_append h.1]
  cases b with
  | nil => rfl
  | cons y b =>
    have hy := h.2 y mem_cons_self
    rw [emplace, if_neg (by omega), if_pos hy]

theorem emplace_same_key (ha : ∀ x ∈ a, x.first < r.first)
    (hy : y.first = r.first) : emplace (a ++ y :: b) r = a ++ y :: b := by
  rw [emplace_append ha, emplace, if_neg (by omega), if_neg (by omega)]

theorem emplace_erase_mid {r' : Range} (h : Between a r b) (h' : Between a r' b) :
    emplace (erase (a ++ r :: b) r) r' = a ++ r' :: b := by
  rw [erase_mid h, emplace_mid h']

/-- **What `find()` finds**: a range that holds the value, unless the value is hidden. -/
theorem find_spec (hs : Wf s) (v : ℕ) :
    (∀ r, find s v = some r → r ∈ s ∧ r.first ≤ v ∧ v ≤ r.last) ∧
      ((find s v).isSome = true ↔ Mem s v ∧ ¬ Hidden s v) := by
  rcases eq_or_ne s [] with rfl | hne
  · simp [find, lowerBound, mem_nil]
  suffices h : ∃ r ∈ s, find s v = (if r.first ≤ v ∧ v ≤ r.last then some r else none) ∧
      (Mem s v ∧ ¬ Hidden s v ↔ r.first ≤ v ∧ v ≤ r.last) by
    obtain ⟨r, hr, hfind, hiff⟩ := h
    rw [hfind, hiff]
    split_ifs with hin
    · refine ⟨fun r' hr' => ?_, by simp [hin]⟩
      obtain rfl := Option.some.inj hr'
      exact ⟨hr, hin⟩
    · simp [hin]
  obtain ⟨a, b, rfl, ha, hb⟩ := exists_split hs v
  have hlb := lowerBound_append ha hb
  cases b with
  | cons y b =>
    -- there is a range that starts at or after `v`: only this one is looked at
    have hy := hb y mem_cons_self
    refine ⟨y, by simp, by simp [find, hlb], ?_, fun hin => ?_⟩
    · rintro ⟨⟨r, hr, hr1, hr2⟩, hvis⟩
      by_contra hin
      have hry := (hs.valid y (by simp)).1
      refine hvis ⟨⟨r, hr, ?_, hr2⟩, y, by simp, by omega⟩
      rcases List.mem_append.1 hr with hr | hr
      · exact ha r hr
      rcases List.mem_cons.1 hr with rfl | hr
      · exact absurd ⟨hr1, hr2⟩ hin
      · have := hs.between.2 r hr
        omega
    · refine ⟨⟨y, by simp, hin⟩, ?_⟩
      rintro ⟨⟨r, hr, hr1, hr2⟩, -⟩
      obtain rfl := hs.unique (by simp) hr hin ⟨hr1.le, hr2⟩
      omega
  | nil =>
    -- every range starts below `v`: the last one is looked at
    rw [append_nil] at hs hne hlb ⊢
    obtain ⟨a, z, rfl⟩ := (eq_nil_or_concat' a).resolve_left hne
    refine ⟨z, by simp, by simp [find, hlb, prev], ?_, fun hin => ⟨⟨z, by simp, hin⟩, ?_⟩⟩
    · rintro ⟨⟨r, hr, hr1, hr2⟩, -⟩
      have hz := ha z (by simp)
      rcases List.mem_append.1 hr with hr | hr
      · have := (wf_mid.1 hs).2.2.2.1 r hr
        omega
      · obtain rfl := mem_singleton.1 hr
        exact ⟨hr1, hr2⟩
    · rintro ⟨-, r, hr, hlt⟩
      have := ha r hr
      omega

/-! ### Removing a value -/

/-- Replacing a range by ranges within it keeps the set well formed. -/
theorem wf_replace {c : List Range} (hs : Wf (a ++ r :: b)) (hc : Wf c)
    (hin : ∀ w, Mem c w → r.first ≤ w ∧ w ≤ r.last) : Wf (a ++ (c ++ b)) := by
  obtain ⟨ha, hb, -, har, hrb, hab⟩ := wf_mid.1 hs
  have hcr : ∀ x ∈ c, r.first ≤ x.first ∧ x.last ≤ r.last := by
    intro x hx
    have hle := (hc.valid x hx).1
    exact ⟨(hin _ ⟨x, hx, le_rfl, hle⟩).1, (hin _ ⟨x, hx, hle, le_rfl⟩).2⟩
  rw [wf_append, wf_append]
  refine ⟨ha, ⟨hc, hb, fun x hx y hy => ?_⟩, fun x hx y hy => ?_⟩
  · have h1 := hrb y hy
    have h2 := hcr x hx
    omega
  rcases List.mem_append.1 hy with hy | hy
  · have h1 := har x hx
    have h2 := hcr y hy
    omega
  · exact hab x hx y hy

/-- `remove_within_range()` replaces the range by at most two ranges, which hold its other
values. -/
theorem removeWithinRange_eq (hs : Wf (a ++ r :: b)) (v : ℕ) :
    ∃ c, removeWithinRange (a ++ r :: b) r v = a ++ (c ++ b) ∧ Wf c ∧
      ∀ w, Mem c w ↔ w ≠ v ∧ r.first ≤ w ∧ w ≤ r.last := by
  have hr := hs.valid r (by simp)
  have hbt := hs.between
  unfold removeWithinRange
  split_ifs with h1 h2 h3 h4
  · -- the range consists of the value
    refine ⟨[], erase_mid hbt, wf_nil, fun w => ?_⟩
    rw [mem_nil, false_iff]
    omega
  · -- the first value of the range
    rw [succ32_eq (by omega)]
    refine ⟨[⟨r.first + 1, r.last⟩], emplace_erase_mid hbt (hs.between_within ?_ ?_),
      wf_single.2 ⟨?_, hr.2⟩, fun w => ?_⟩
    all_goals simp only [mem_cons, mem_nil, or_false]; omega
  · -- the last value of the range
    rw [pred32_eq (by omega) (by omega)]
    refine ⟨[⟨r.first, r.last - 1⟩], emplace_erase_mid hbt hbt, wf_single.2 ?_, fun w => ?_⟩
    all_goals simp only [mem_cons, mem_nil, or_false]; omega
  · -- a value inside: the range is split
    have hlow : emplace (erase (a ++ r :: b) r) ⟨r.first, v - 1⟩ = a ++ ⟨r.first, v - 1⟩ :: b :=
      emplace_erase_mid hbt hbt
    have hhigh : Between (a ++ [⟨r.first, v - 1⟩]) ⟨v + 1, r.last⟩ b := by
      have hin : Between a ⟨v + 1, r.last⟩ b := hs.between_within (by simp only; omega) h4.2
      refine ⟨forall_mem_append.2 ⟨hin.1, ?_⟩, hin.2⟩
      simp only [mem_singleton, forall_eq]
      omega
    refine ⟨[⟨r.first, v - 1⟩, ⟨v + 1, r.last⟩], ?_, ?_, fun w => ?_⟩
    · rw [splitRange, pred32_eq (by omega) (by omega), succ32_eq (by omega), hlow,
        append_cons, emplace_mid hhigh]
      simp
    · simp only [wf_cons, wf_nil, mem_singleton, forall_eq]
      exact ⟨by omega, ⟨by omega, trivial, by simp⟩, by omega⟩
    · simp only [mem_cons, mem_nil, or_false]
      omega
  · -- the value is not in the range: the range is put back
    refine ⟨[r], emplace_erase_mid hbt hbt, wf_single.2 hr, fun w => ?_⟩
    simp only [mem_cons, mem_nil, or_false]
    omega

/-- **Removing a value within a range**, when no other range holds it: the ranges stay well formed
and the value is gone. -/
theorem removeWithinRange_spec (hs : Wf s) (hr : r ∈ s)
    (hv : ∀ x ∈ s, x.first ≤ v → v ≤ x.last → x = r) :
    Wf (removeWithinRange s r v) ∧ ∀ w, Mem (removeWithinRange s r v) w ↔ w ≠ v ∧ Mem s w := by
  obtain ⟨a, b, rfl⟩ := append_of_mem hr
  obtain ⟨c, heq, hc, hmem⟩ := removeWithinRange_eq hs v
  have hnot : ∀ w, Mem a w ∨ Mem b w → w ≠ v := by
    rintro w (⟨x, hx, h1, h2⟩ | ⟨x, hx, h1, h2⟩) rfl
    · obtain rfl := hv x (by simp [hx]) h1 h2
      exact lt_irrefl _ (hs.between.1 x hx)
    · obtain rfl := hv x (by simp [hx]) h1 h2
      exact lt_irrefl _ (hs.between.2 x hx)
  rw [heq]
  refine ⟨wf_replace hs hc fun w hw => ((hmem w).1 hw).2, fun w => ?_⟩
  have := hnot w
  rw [mem_append, mem_append, hmem, mem_mid]
  tauto

/-- Ranges that start below a bound do not contain a range that starts at or after it. -/
theorem head?_ne {a b : List Range} {v : ℕ} {y : Range} (ha : ∀ x ∈ a, x.first < v) (hne : a ≠ [])
    (hy : v ≤ y.first) : (a ++ b).head? ≠ some y := by
  cases a with
  | nil => exact absurd rfl hne
  | cons x a =>
    have hx := ha x mem_cons_self
    simp only [cons_append, head?_cons, ne_eq, Option.some.injEq]
    rintro rfl
    omega

/-- `remove_value()` looks at one range, the only one that may hold the value. -/
theorem removeValue_eq (hs : Wf s) (hne : s ≠ []) (v : ℕ) :
    ∃ r ∈ s, removeValue s v = removeWithinRange s r v ∧
      ∀ x ∈ s, x.first ≤ v → v ≤ x.last → x = r := by
  obtain ⟨a, b, rfl, ha, hb⟩ := exists_split hs v
  have hlb := lowerBound_append ha hb
  -- when no range starts at `v`, this is the last range that starts below it
  have hlast : ∀ a' z, a = a' ++ [z] → (∀ y ∈ b, v < y.first) →
      ∀ x ∈ a ++ b, x.first ≤ v → v ≤ x.last → x = z := by
    rintro a' z rfl hlt x hx h1 h2
    rcases List.mem_append.1 hx with hx | hx
    · rcases List.mem_append.1 hx with hx | hx
      · have h3 := (wf_append.1 (wf_append.1 hs).1).2.2 x hx z (by simp)
        have h4 := ha z (by simp)
        omega
      · exact mem_singleton.1 hx
    · have := hlt x hx
      omega
  cases b with
  | nil =>
    rw [append_nil] at hne hlb
    obtain ⟨a, z, rfl⟩ := (eq_nil_or_concat' a).resolve_left hne
    exact ⟨z, by simp, by simp [removeValue, hlb, prev], hlast a z rfl (by simp)⟩
  | cons y b =>
    rw [head?_cons] at hlb
    have hlater : v < y.first → ∀ x ∈ y :: b, v < x.first := by
      intro hlt x hx
      rcases List.mem_cons.1 hx with rfl | hx
      · exact hlt
      · exact hlt.trans (hs.between.2 x hx)
    by_cases h : v < y.first ∧ (a ++ y :: b).head? ≠ some y
    · -- the range before the lower bound
      have hane : a ≠ [] := by
        rintro rfl
        simp at h
      obtain ⟨a, z, rfl⟩ := (eq_nil_or_concat' a).resolve_left hane
      have hprev := prev_mid hs.between
      refine ⟨z, by simp, ?_, hlast a z rfl (hlater h.1)⟩
      simp only [removeValue, hlb, if_pos h, hprev]
      simp
    -- the lower bound itself
    refine ⟨y, by simp, ?_, fun x hx h1 h2 => ?_⟩
    · simp only [removeValue, hlb, if_neg h]
      simp
    have hy := hb y mem_cons_self
    rcases hy.eq_or_lt with rfl | hlt
    · exact hs.unique (by simp) hx ⟨le_rfl, (hs.valid y (by simp)).1⟩ ⟨h1, h2⟩
    have hnil : a = [] := by
      by_contra hane
      exact h ⟨hlt, head?_ne ha hane hy⟩
    subst hnil
    have := hlater hlt x hx
    omega

/-- **`remove_value()`** removes the value and nothing else. -/
theorem removeValue_spec (hs : Wf s) (v : ℕ) :
    Wf (removeValue s v) ∧ ∀ w, Mem (removeValue s v) w ↔ w ≠ v ∧ Mem s w := by
  rcases eq_or_ne s [] with rfl | hne
  · exact ⟨wf_nil, fun w => by simp [removeValue, mem_nil]⟩
  · obtain ⟨r, hr, heq, honly⟩ := removeValue_eq hs hne v
    rw [heq]
    exact removeWithinRange_spec hs hr honly

/-! ### Adding a value -/

/-- What it means to add a value to a set of ranges. -/
def Adds (s t : List Range) (v : ℕ) : Prop := Wf t ∧ ∀ w, Mem t w ↔ w = v ∨ Mem s w

theorem adds_of_mem (hs : Wf s) (hv : Mem s v) : Adds s s v := by
  refine ⟨hs, fun w => ⟨.inr, ?_⟩⟩
  rintro (rfl | hw)
  · exact hv
  · exact hw

/-- A range that is replaced by one with the value as well. -/
theorem adds_extend {r' : Range} (hs : Wf (a ++ r :: b)) (hlt : r'.last < 2 ^ 32 - 1)
    (ha : ∀ x ∈ a, x.last + 1 < r'.first) (hb : ∀ y ∈ b, r'.last + 1 < y.first)
    (h : ∀ w, r'.first ≤ w ∧ w ≤ r'.last ↔ w = v ∨ (r.first ≤ w ∧ w ≤ r.last)) :
    Adds (a ++ r :: b) (a ++ r' :: b) v := by
  obtain ⟨hwa, hwb, -, -, -, hab⟩ := wf_mid.1 hs
  have hv := (h v).2 (.inl rfl)
  refine ⟨wf_mid.2 ⟨hwa, hwb, ⟨hv.1.trans hv.2, hlt⟩, ha, hb, hab⟩, fun w => ?_⟩
  rw [mem_mid, mem_mid, h, or_assoc]

theorem addWithinRange_inside (h : r.first ≤ v ∧ v ≤ r.last) :
    addWithinRange s r v = (s, some r) := by
  rw [addWithinRange, if_pos h]

/-- A range that is extended: the new set, and the element that `emplace().first` points to. -/
theorem emplace_erase_find {r' : Range} (h : Between a r b) (h' : Between a r' b) :
    (emplace (erase (a ++ r :: b) r) r',
      (emplace (erase (a ++ r :: b) r) r').find? fun x => decide (x.first = r'.first)) =
      (a ++ r' :: b, some r') := by
  rw [emplace_erase_mid h h', find?_append, find?_eq_none.2, Option.none_or,
    find?_cons_of_pos (by simp)]
  intro x hx
  rw [decide_eq_true_eq]
  exact (h'.1 x hx).ne

/-- `add_within_range()` extends a range that ends right before the value. -/
theorem addWithinRange_above (hs : Wf (a ++ r :: b)) (h : r.last + 1 = v) :
    addWithinRange (a ++ r :: b) r v = (a ++ ⟨r.first, v⟩ :: b, some ⟨r.first, v⟩) := by
  have hsucc : succ32 r.last = v := by rw [succ32_eq (hs.valid r (by simp)).2, h]
  rw [addWithinRange, if_neg (by omega), if_pos hsucc]
  simp only [hsucc]
  exact emplace_erase_find hs.between hs.between

/-- `add_within_range()` extends a range that starts right after the value. -/
theorem addWithinRange_below (hs : Wf (a ++ r :: b)) (h : r.first = v + 1) :
    addWithinRange (a ++ r :: b) r v = (a ++ ⟨v, r.last⟩ :: b, some ⟨v, r.last⟩) := by
  have hr := hs.valid r (by simp)
  have hsucc := succ32_eq hr.2
  have hpred : pred32 r.first = v := by
    rw [pred32_eq (by omega) (by omega)]
    omega
  rw [addWithinRange, if_neg (by omega), if_neg (by omega), if_pos hpred]
  simp only [hpred]
  exact emplace_erase_find hs.between (hs.between_within h.le (by dsimp only; omega))

theorem addWithinRange_apart (hr : r.first ≤ r.last ∧ r.last < 2 ^ 32 - 1) (hv : v < 2 ^ 32 - 1)
    (h : v + 1 < r.first ∨ r.last + 1 < v) : addWithinRange s r v = (s, none) := by
  have hsucc := succ32_eq hr.2
  have hpred : pred32 r.first ≠ v := by
    rcases Nat.eq_zero_or_pos r.first with h0 | h0
    · rw [h0, pred32_zero]
      omega
    · rw [pred32_eq h0 (by omega)]
      omega
  rw [addWithinRange, if_neg (by omega), if_neg (by omega), if_neg hpred]

theorem addWithinOrNew_inside (hs : Wf s) (hr : r ∈ s) (hin : r.first ≤ v ∧ v ≤ r.last) :
    Adds s (addWithinOrNew s (some r) ⟨v, v⟩) v := by
  simp only [addWithinOrNew, addWithinRange_inside hin]
  exact adds_of_mem hs ⟨r, hr, hin⟩

/-- A value that is adjacent to no range becomes a range of its own. -/
theorem addWithinOrNew_apart (hs : Wf (a ++ b)) (hr : r ∈ a ++ b) (hv : v < 2 ^ 32 - 1)
    (ha : ∀ x ∈ a, x.last + 1 < v) (hb : ∀ y ∈ b, v + 1 < y.first) :
    Adds (a ++ b) (addWithinOrNew (a ++ b) (some r) ⟨v, v⟩) v := by
  have hapart : v + 1 < r.first ∨ r.last + 1 < v :=
    (List.mem_append.1 hr).elim (fun h => .inr (ha r h)) fun h => .inl (hb r h)
  obtain ⟨hwa, hwb, hab⟩ := wf_append.1 hs
  have hwf : Wf (a ++ ⟨v, v⟩ :: b) := wf_mid.2 ⟨hwa, hwb, ⟨le_rfl, hv⟩, ha, hb, hab⟩
  simp only [addWithinOrNew, addWithinRange_apart (hs.valid r hr) hv hapart, if_true,
    emplace_mid hwf.between]
  refine ⟨hwf, fun w => ?_⟩
  have hone : v ≤ w ∧ w ≤ v ↔ w = v := by omega
  rw [mem_mid, mem_append, hone]

/-- Adding the value next to the ranges `a`, when the next range is not adjacent to it: the last
range before the value is extended, or a range of its own is inserted. -/
theorem addWithinOrNew_above (hs : Wf (a ++ z :: b)) (hv : v < 2 ^ 32 - 1) (hz : z.first < v)
    (hb : ∀ y ∈ b, v + 1 < y.first) :
    Adds (a ++ z :: b) (addWithinOrNew (a ++ z :: b) (some z) ⟨v, v⟩) v := by
  have haz := (wf_mid.1 hs).2.2.2.1
  rcases Nat.lt_trichotomy v (z.last + 1) with hlt | heq | hgt
  · exact addWithinOrNew_inside hs (by simp) (by omega)
  · simp only [addWithinOrNew, addWithinRange_above hs heq.symm, reduceCtorEq, if_false]
    refine adds_extend hs hv haz hb fun w => ?_
    simp only
    omega
  · rw [append_cons] at hs ⊢
    refine addWithinOrNew_apart hs (by simp) hv (forall_mem_append.2 ⟨fun x hx => ?_, ?_⟩) hb
    · have := haz x hx
      omega
    · simpa using hgt

/-- Adding a value below the first range: the range is extended, or a new one is inserted. -/
theorem addWithinOrNew_first (hs : Wf (y :: b)) (hv : v < 2 ^ 32 - 1) (hy : v ≤ y.first) :
    Adds (y :: b) (addWithinOrNew (y :: b) (some y) ⟨v, v⟩) v := by
  have hs' : Wf ([] ++ y :: b) := hs
  obtain ⟨hr, -, hyb⟩ := wf_cons.1 hs
  rcases Nat.lt_trichotomy (v + 1) y.first with hlt | heq | hgt
  · refine addWithinOrNew_apart (a := []) hs (by simp) hv (by simp)
      (forall_mem_cons.2 ⟨hlt, fun x hx => ?_⟩)
    have := hyb x hx
    omega
  · have hext := addWithinRange_below hs' heq.symm
    simp only [nil_append] at hext
    simp only [addWithinOrNew, hext, reduceCtorEq, if_false]
    refine adds_extend hs' hr.2 (by simp) hyb fun w => ?_
    simp only
    omega
  · exact addWithinOrNew_inside hs (by simp) (by omega)

section

variable (hs : Wf (a ++ z :: y :: b)) (hz : z.first < v) (hy : y.first = v + 1)
include hs hz hy

/-- `add_range()` when the value is right before a range that is not the first one: the range is
extended and, if the range before it ends right before the value, the two are merged. -/
theorem extendStart_eq : extendStart (a ++ z :: y :: b) y ⟨v, v⟩ =
      if z.last + 1 = v then a ++ ⟨z.first, y.last⟩ :: b else a ++ z :: ⟨v, y.last⟩ :: b := by
  have hsucc := succ32_eq (hs.valid z (by simp)).2
  have hbt := hs.between
  rw [append_cons] at hs ⊢
  -- the two ranges may be adjacent now; only the keys matter
  have hry := hs.valid y (by simp)
  have hext : Between (a ++ [z]) ⟨v, y.last⟩ b := hs.between_within hy.le (by dsimp only; omega)
  have hprev := prev_mid hext
  rw [getLast?_concat] at hprev
  have hhead : (a ++ [z] ++ ⟨v, y.last⟩ :: b).head? ≠ some ⟨v, y.last⟩ :=
    head?_ne hext.1 (by simp) le_rfl
  simp only [extendStart, addWithinRange_below hs hy, if_neg hhead.symm, hprev, mergeRange]
  simp only [hsucc, ← append_cons]
  by_cases hadj : z.last + 1 = v
  · have hzb : Between a ⟨z.first, y.last⟩ b := ⟨hbt.1, fun x hx => hbt.2 x (by simp [hx])⟩
    rw [if_pos hadj, if_neg (by simp [hadj]), erase_mid ⟨hbt.1, forall_mem_cons.2 ⟨hz, hzb.2⟩⟩]
    exact emplace_erase_mid ⟨fun x hx => hext.1 x (by simp [hx]), hext.2⟩ hzb
  · rw [if_neg hadj, if_pos (Ne.symm hadj)]

theorem extendStart_spec : Adds (a ++ z :: y :: b) (extendStart (a ++ z :: y :: b) y ⟨v, v⟩) v := by
  obtain ⟨hwa, hwy, hrz, haz, hzy, hay⟩ := wf_mid.1 hs
  obtain ⟨hry, hwb, hyb⟩ := wf_cons.1 hwy
  have hzv := hzy y mem_cons_self
  rw [extendStart_eq hs hz hy]
  split_ifs with hadj
  · -- the gap between the two ranges was the value alone
    constructor
    · refine wf_mid.2 ⟨hwa, hwb, ⟨?_, hry.2⟩, haz, hyb, fun x hx w hw => ?_⟩
      · simp only
        omega
      · exact hay x hx w (mem_cons_of_mem _ hw)
    · intro w
      have hsplit : z.first ≤ w ∧ w ≤ y.last ↔
          w = v ∨ (z.first ≤ w ∧ w ≤ z.last) ∨ (y.first ≤ w ∧ w ≤ y.last) := by omega
      rw [mem_mid, mem_mid, mem_cons]
      simp only [hsplit, or_assoc, or_left_comm]
  · rw [append_cons] at hs
    rw [append_cons a z (y :: b), append_cons a z (⟨v, y.last⟩ :: b)]
    refine adds_extend hs hry.2 (forall_mem_append.2 ⟨fun x hx => ?_, ?_⟩) hyb fun w => ?_
    · have := haz x hx
      simp only
      omega
    · simp only [mem_singleton, forall_eq]
      omega
    · simp only
      omega

end

/-- **`add_value()`** adds the value and nothing else. -/
theorem addValue_spec (hs : Wf s) (hv : v < 2 ^ 32 - 1) :
    Wf (addValue s v) ∧ ∀ w, Mem (addValue s v) w ↔ w = v ∨ Mem s w := by
  obtain ⟨a, b, rfl, ha, hb⟩ := exists_split hs v
  have hlb := lowerBound_append ha hb
  rcases eq_nil_or_concat' a with rfl | ⟨a, z, rfl⟩
  · cases b with
    | nil =>
      refine ⟨⟨pairwise_singleton _ _, by simpa [addValue, addRange, emplace] using hv⟩, ?_⟩
      intro w
      have hone : v ≤ w ∧ w ≤ v ↔ w = v := by omega
      simp [addValue, addRange, emplace, mem_cons, mem_nil, hone]
    | cons y b =>
      have heq : addValue (y :: b) v = addWithinOrNew (y :: b) (some y) ⟨v, v⟩ := by
        simp only [nil_append, head?_cons] at hlb
        simp [addValue, addRange, hlb]
      rw [nil_append] at hs ⊢
      rw [heq]
      exact addWithinOrNew_first hs hv (hb y mem_cons_self)
  have hz := ha z (by simp)
  cases b with
  | nil =>
    have hassoc : a ++ [z] ++ [] = a ++ z :: [] := by simp
    have heq : addValue (a ++ [z]) v = addWithinOrNew (a ++ [z]) (some z) ⟨v, v⟩ := by
      simp only [append_nil, head?_nil] at hlb
      simp [addValue, addRange, hlb, prev]
    rw [hassoc] at hs ⊢
    rw [heq]
    exact addWithinOrNew_above hs hv hz (by simp)
  | cons y b =>
    have hy := hb y mem_cons_self
    have hhead := @head?_ne (a ++ [z]) (y :: b) v y ha (by simp) hy
    have hprev : prev (a ++ [z] ++ y :: b) (some y) = some z := by
      rw [prev_mid hs.between]
      simp
    have hassoc : a ++ [z] ++ y :: b = a ++ z :: y :: b := by simp
    rw [hassoc] at hs hlb hhead hprev ⊢
    rw [head?_cons] at hlb
    have hyb := (wf_cons.1 (wf_mid.1 hs).2.1).2.2
    have hry := (wf_cons.1 (wf_mid.1 hs).2.1).1
    have hzy := (wf_mid.1 hs).2.2.2.2.1 y mem_cons_self
    have hpred := pred32_eq (n := y.first) (by omega) (by omega)
    by_cases hadj : y.first = v + 1
    · -- the value is right before the next range
      have heq : addValue (a ++ z :: y :: b) v = extendStart (a ++ z :: y :: b) y ⟨v, v⟩ := by
        simp only [addValue, addRange, hlb, if_neg hhead, if_pos (show pred32 y.first = v by omega)]
        simp
      rw [heq]
      exact extendStart_spec hs hz hadj
    have heq : addValue (a ++ z :: y :: b) v =
        addWithinOrNew (a ++ z :: y :: b) (some z) ⟨v, v⟩ := by
      simp only [addValue, addRange, hlb, if_neg hhead, if_neg (show pred32 y.first ≠ v by omega), hprev]
      simp
    rw [heq]
    by_cases hsame : y.first = v
    · -- the value starts the next range: the set refuses a second range with its key
      have hnone := @addWithinRange_apart (a ++ z :: y :: b) z v (hs.valid z (by simp)) hv
        (.inr (by omega))
      have hemp : emplace (a ++ z :: y :: b) ⟨v, v⟩ = a ++ z :: y :: b := by
        have := @emplace_same_key (a ++ [z]) b ⟨v, v⟩ y ha hsame
        simpa using this
      simp only [addWithinOrNew, hnone, if_true, hemp]
      exact adds_of_mem hs ⟨y, by simp, by omega, by omega⟩
    · refine addWithinOrNew_above hs hv hz fun x hx => ?_
      rcases List.mem_cons.1 hx with rfl | hx
      · omega
      · have := hyb x hx
        omega

/-! ### Sequences of calls -/

inductive Op where
  | addValue (v : ℕ)
  | removeValue (v : ℕ)
  | removeIfExists (v : ℕ)
  | contains (v : ℕ)
  deriving DecidableEq, Repr

def Op.value : Op → ℕ
  | .addValue v => v
  | .removeValue v => v
  | .removeIfExists v => v
  | .contains v => v

/-- One call: the new set of ranges and what is returned, if anything. -/
def step (s : List Range) : Op → List Range × Option Bool
  | .addValue v => (addValue s v, none)
  | .removeValue v => (removeValue s v, none)
  | .removeIfExists v => ((removeIfExists s v).1, some (removeIfExists s v).2)
  | .contains v => (s, some (contains s v))

/-- The same call on a set of values: the values that were added and not removed since. -/
def specStep (vals : Finset ℕ) : Op → Finset ℕ × Option Bool
  | .addValue v => (insert v vals, none)
  | .removeValue v => (vals.erase v, none)
  | .removeIfExists v => (vals.erase v, some (decide (v ∈ vals)))
  | .contains v => (vals, some (decide (v ∈ vals)))

/-- The ranges are well formed and hold exactly the given values. -/
structure Represents (s : List Range) (vals : Finset ℕ) : Prop where
  wf : Wf s
  mem : ∀ v, Mem s v ↔ v ∈ vals

/-- A sequence of calls behaves as on a set of values: before every call and at the end the ranges
represent the values, and every call returns what it would return on the values. -/
def Meets : List Range → Finset ℕ → List Op → Prop
  | s, vals, [] => Represents s vals
  | s, vals, op :: ops =>
    Represents s vals ∧ (step s op).2 = (specStep vals op).2 ∧
      Meets (step s op).1 (specStep vals op).1 ops

/-- A call that does not look up a hidden value. -/
def Op.Visible (s : List Range) : Op → Prop
  | .removeIfExists v => ¬ Hidden s v
  | .contains v => ¬ Hidden s v
  | _ => True

/-- No call of a sequence looks up a value that is hidden at that moment. -/
def Visible : List Range → List Op → Prop
  | _, [] => True
  | s, op :: ops => op.Visible s ∧ Visible (step s op).1 ops

instance (s : List Range) (v : ℕ) : Decidable (Hidden s v) :=
  inferInstanceAs (Decidable (_ ∧ _))

instance (s : List Range) : (op : Op) → Decidable (op.Visible s)
  | .addValue _ => isTrue trivial
  | .removeValue _ => isTrue trivial
  | .removeIfExists v => inferInstanceAs (Decidable (¬ Hidden s v))
  | .contains v => inferInstanceAs (Decidable (¬ Hidden s v))

theorem represents_nil : Represents [] ∅ := ⟨wf_nil, fun v => by simp [mem_nil]⟩

/-- `contains()` answers correctly exactly for the values that are not hidden. -/
theorem contains_eq_iff (h : Represents s vals) (v : ℕ) :
    contains s v = decide (v ∈ vals) ↔ ¬ Hidden s v := by
  have hfind := (find_spec h.wf v).2
  have hhid : Hidden s v → Mem s v := by
    rintro ⟨⟨r, hr, h1, h2⟩, -⟩
    exact ⟨r, hr, by omega, h2⟩
  rw [Bool.eq_iff_iff, decide_eq_true_eq, contains, hfind, ← h.mem v]
  tauto

/-- **One call keeps the representation** when it does not look up a hidden value, and it returns
what the set of values says. -/
theorem step_represents (h : Represents s vals) {op : Op} (hop : op.value < 2 ^ 32 - 1)
    (hvis : op.Visible s) :
    Represents (step s op).1 (specStep vals op).1 ∧ (step s op).2 = (specStep vals op).2 := by
  cases op with
  | addValue v =>
    obtain ⟨hwf, hmem⟩ := addValue_spec h.wf hop
    refine ⟨⟨hwf, fun w => ?_⟩, rfl⟩
    rw [specStep, Finset.mem_insert, ← h.mem w]
    exact hmem w
  | removeValue v =>
    obtain ⟨hwf, hmem⟩ := removeValue_spec h.wf v
    refine ⟨⟨hwf, fun w => ?_⟩, rfl⟩
    rw [specStep, Finset.mem_erase, ← h.mem w]
    exact hmem w
  | contains v =>
    exact ⟨h, congrArg some ((contains_eq_iff h v).2 hvis)⟩
  | removeIfExists v =>
    have hcont := (contains_eq_iff h v).2 hvis
    obtain ⟨hin, hsome⟩ := find_spec h.wf v
    cases hf : find s v with
    | none =>
      have hv : v ∉ vals := by
        rw [contains, hf] at hcont
        simpa using hcont.symm
      have hstep : removeIfExists s v = (s, false) := by rw [removeIfExists, hf]
      refine ⟨⟨by rw [step, hstep]; exact h.wf, fun w => ?_⟩, ?_⟩
      · simp only [step, hstep, specStep, Finset.mem_erase, h.mem w]
        exact ⟨fun hw => ⟨fun he => hv (he ▸ hw), hw⟩, And.right⟩
      · simp [step, hstep, specStep, hv]
    | some r =>
      obtain ⟨hr, hr1, hr2⟩ := hin r hf
      -- the range found is the only one that holds the value
      obtain ⟨hwf, hmem⟩ := removeWithinRange_spec h.wf hr fun x hx h1 h2 =>
        h.wf.unique hr hx ⟨hr1, hr2⟩ ⟨h1, h2⟩
      have hv : v ∈ vals := (h.mem v).1 ⟨r, hr, hr1, hr2⟩
      have hstep : removeIfExists s v = (removeWithinRange s r v, true) := by
        rw [removeIfExists, hf]
      refine ⟨⟨by rw [step, hstep]; exact hwf, fun w => ?_⟩, ?_⟩
      · simp only [step, hstep, specStep, Finset.mem_erase, ← h.mem w]
        exact hmem w
      · simp [step, hstep, specStep, hv]

/-- A lookup of a hidden value returns the wrong answer. -/
theorem step_hidden (h : Represents s vals) {op : Op} (hvis : ¬ op.Visible s) :
    (step s op).2 ≠ (specStep vals op).2 := by
  cases op with
  | addValue v | removeValue v => exact absurd trivial hvis
  | contains v =>
    intro heq
    exact hvis ((contains_eq_iff h v).1 (Option.some.inj heq))
  | removeIfExists v =>
    intro heq
    refine hvis ((contains_eq_iff h v).1 ?_)
    have hret : (removeIfExists s v).2 = contains s v := by
      unfold removeIfExists contains
      cases find s v <;> rfl
    rw [← hret]
    exact Option.some.inj heq

/-- **The run**: from a represented state a sequence of calls behaves as on a set of values exactly
when it never looks up a hidden value. -/
theorem meets_iff_visible_of_represents (ops : List Op) :
    ∀ {s : List Range} {vals : Finset ℕ}, Represents s vals →
      (∀ op ∈ ops, op.value < 2 ^ 32 - 1) → (Meets s vals ops ↔ Visible s ops) := by
  induction ops with
  | nil => intro s vals h _; exact ⟨fun _ => trivial, fun _ => h⟩
  | cons op ops ih =>
    intro s vals h hops
    have hop := hops op mem_cons_self
    have hrest : ∀ o ∈ ops, o.value < 2 ^ 32 - 1 := fun o ho => hops o (mem_cons_of_mem _ ho)
    constructor
    · rintro ⟨-, hret, hmeets⟩
      have hvis : op.Visible s := by
        by_contra hn
        exact step_hidden h hn hret
      exact ⟨hvis, (ih (step_represents h hop hvis).1 hrest).1 hmeets⟩
    · rintro ⟨hvis, hvisrest⟩
      obtain ⟨hrep, hret⟩ := step_represents h hop hvis
      exact ⟨h, hret, (ih hrep hrest).2 hvisrest⟩

/-- **`range_set` is a set of page numbers, except for hidden values**: a sequence of calls, started
from the empty set, keeps the ranges ordered, disjoint and not adjacent, changes the membership of
the value of each call only and answers every lookup correctly, if and only if no lookup is for a
value that lies behind the first one of a range that another range follows. -/
theorem meets_iff_visible (ops : List Op) (h32 : ∀ op ∈ ops, op.value < 2 ^ 32 - 1) :
    Meets [] ∅ ops ↔ Visible [] ops :=
  meets_iff_visible_of_represents ops represents_nil h32

/-- A sequence with two ranges that only looks up the first values and the last range. -/
theorem meets_two_ranges :
    Meets [] ∅ [.addValue 3, .addValue 4, .addValue 10, .addValue 11, .contains 3,
      .removeIfExists 11, .removeValue 4] :=
  (meets_iff_visible _ (by decide)).2
    ⟨trivial, trivial, trivial, trivial, by decide, by decide, trivial, trivial⟩

/-- **A page is missed**: after 3, 4 and 10 have been added, 4 is not found. -/
theorem contains_misses_added_page :
    ¬ Meets [] ∅ [.addValue 3, .addValue 4, .addValue 10, .contains 4] := by
  rintro ⟨-, -, -, -, -, -, -, hret, -⟩
  exact absurd hret (by decide)

end RangeSet
