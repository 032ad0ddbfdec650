/-
**The intersection of index scans.**

`QUICK_ROR_INTERSECT_SELECT` of `opt_range.cc` reads the rows that satisfy conditions on several
indexes.  Every scan returns its row ids in ascending order.  The row id of one scan is the
candidate, and the other scans catch up with it in turn: each confirms it, or has passed it and sets
a new candidate.  A candidate is in the ranges of the clustered primary key (`cpk_quick`).

A scan is the list of the row ids that it has still to return; `handler::cmp_ref` is their order.
The iterator goes around the list of the scans: the model keeps those that it comes to next, and
those that have confirmed the candidate.  Errors of the handler, locks and the columns of the rows
are left out.

Main definitions: `Select.getNext`, `Select.allRows`.

Main result: `allRows_spec`: **the calls return the rows that are in all scans**.
-/

import Mathlib.Data.List.TakeWhile
import Mathlib.Tactic

set_option autoImplicit false

namespace RorIntersect

open List Function

/-! ### The rows of a scan -/

section

variable {R : Type*} {p : R → Bool} {l l' : List R} {x y : R}

theorem of_dropWhile (h : l.dropWhile p = x :: l') : p x = false ∧ x :: l' <:+ l := by
  have hnot := head?_dropWhile_not p l
  rw [h] at hnot
  exact ⟨by simpa using hnot, h ▸ dropWhile_suffix p⟩

theorem mem_dropWhile (hy : y ∈ l) (hskip : p y = false) : y ∈ l.dropWhile p := by
  rw [← takeWhile_append_dropWhile (p := p) (l := l), mem_append] at hy
  exact hy.resolve_left fun h => by simp [mem_takeWhile_imp h] at hskip

theorem sum_update_lt {rest : ℕ → List R} {i : ℕ} (scans : List ℕ) (hi : i ∈ scans)
    (h : l.length < (rest i).length) :
    (scans.map fun j => (update rest i l j).length).sum <
      (scans.map fun j => (rest j).length).sum := by
  refine List.sum_lt_sum _ _ (fun j _ => ?_) ⟨i, hi, by rwa [update_self]⟩
  rw [update_apply]
  split <;> grind

/-- The rows behind a row of an ascending scan. -/
theorem mem_behind [LinearOrder R] (hl : l.Pairwise (· < ·)) (h : x :: l' <:+ l) :
    y ∈ l' ↔ y ∈ l ∧ x < y := by
  obtain ⟨l1, rfl⟩ := h
  simp only [pairwise_append, pairwise_cons, forall_mem_cons] at hl
  grind

end

/-! ### The code -/

/-- `QUICK_ROR_INTERSECT_SELECT`: the scans `0 … lastScan`, and the ranges of `cpk_quick`. -/
structure Select (R : Type*) where
  lastScan : ℕ
  rowInRanges : R → Bool

variable {R : Type*} [LinearOrder R]

namespace Select

variable (s : Select R)

/-- The loop of `get_next`: `last_rowid` and what is left of the scans, or `none` at the end of one.
`last_rowid_count` is the number of the scans in `confirmed`. -/
def confirmLoop (ahead confirmed : List ℕ) (lastRowid : R) (rest : ℕ → List R) :
    Option (R × (ℕ → List R)) :=
  match ahead with
  | [] => some (lastRowid, rest)
  | quick :: ahead =>
    match _hrow : (rest quick).dropWhile (· < lastRowid) with
    | [] => none
    | ref :: rows =>
      if lastRowid < ref then
        match _hrange : (ref :: rows).dropWhile (!s.rowInRanges ·) with
        | [] => none
        | ref :: rows => confirmLoop (ahead ++ confirmed) [quick] ref (update rest quick rows)
      else confirmLoop ahead (confirmed ++ [quick]) lastRowid (update rest quick rows)
termination_by ((ahead ++ confirmed).map fun i => (rest i).length).sum
decreasing_by
  · have hlt := (of_dropWhile _hrange).2.length_le.trans (of_dropWhile _hrow).2.length_le
    have := sum_update_lt (quick :: ahead ++ confirmed) (by simp) hlt
    grind
  · have hlt := (of_dropWhile _hrow).2.length_le
    have := sum_update_lt (quick :: ahead ++ confirmed) (by simp) hlt
    grind

/-- `get_next`: the first scan sets the candidate. -/
def getNext (rest : ℕ → List R) : Option (R × (ℕ → List R)) :=
  match (rest 0).dropWhile (!s.rowInRanges ·) with
  | [] => none
  | ref :: rows => s.confirmLoop (range' 1 s.lastScan) [0] ref (update rest 0 rows)

/-- The rows of so many calls, up to `HA_ERR_END_OF_FILE`. -/
def allRows : ℕ → (ℕ → List R) → List R
  | 0, _ => []
  | calls + 1, rest =>
    match s.getNext rest with
    | none => []
    | some (ref, rest) => ref :: allRows calls rest

/-! ### What it returns -/

/-- A row of all scans. -/
def Common (rows : ℕ → List R) (x : R) : Prop :=
  s.rowInRanges x = true ∧ ∀ i ≤ s.lastScan, x ∈ rows i

/-- A call returns the first common row, and leaves the rows behind it. -/
def Returns (rows : ℕ → List R) : Option (R × (ℕ → List R)) → Prop
  | none => ∀ y, ¬ s.Common rows y
  | some (x, rest) => s.Common rows x ∧ (∀ y, s.Common rows y → x ≤ y) ∧
      ∀ i ≤ s.lastScan, x :: rest i <:+ rows i

/-- The candidate is in the scans that have confirmed it, and no common row is before it. -/
structure Candidate (rows : ℕ → List R) (ahead confirmed : List ℕ) (last : R)
    (rest : ℕ → List R) : Prop where
  scans : (ahead ++ confirmed).Perm (range (s.lastScan + 1))
  inRange : s.rowInRanges last = true
  least : ∀ y, s.Common rows y → last ≤ y
  ahead : ∀ i ∈ ahead, rest i <:+ rows i ∧ ∀ y ∈ rows i, last ≤ y → y ∈ rest i
  confirmed : ∀ i ∈ confirmed, last :: rest i <:+ rows i

end Select

open Select

variable {s : Select R} {rows rest : ℕ → List R} {ahead confirmed : List ℕ} {last y : R}

theorem Select.Candidate.le (h : s.Candidate rows ahead confirmed last rest) {i : ℕ}
    (hi : i ∈ ahead ++ confirmed) : i ≤ s.lastScan :=
  Nat.lt_succ_iff.1 (by simpa using h.scans.subset hi)

/-- A common row is among those of the next scan from the candidate on. -/
theorem Select.Candidate.mem_next {quick : ℕ}
    (h : s.Candidate rows (quick :: ahead) confirmed last rest) (hy : s.Common rows y) :
    y ∈ (rest quick).dropWhile (· < last) := by
  have hle := h.least y hy
  refine mem_dropWhile ((h.ahead quick mem_cons_self).2 y ?_ hle) (by simpa using hle)
  exact hy.2 quick (h.le (by simp))

/-- A scan sets the candidate: the first row in the ranges of those where all common rows are. -/
theorem candidate_set {quick : ℕ} {ref : R} {l l' : List R}
    (hrows : ∀ i ≤ s.lastScan, (rows i).Pairwise (· < ·))
    (hscans : (quick :: ahead).Perm (range (s.lastScan + 1))) (hl : l <:+ rows quick)
    (hcommon : ∀ y, s.Common rows y → y ∈ l) (hrow : l.dropWhile (!s.rowInRanges ·) = ref :: l')
    (hahead : ∀ i ∈ ahead, rest i <:+ rows i ∧ ∀ y ∈ rows i, ref ≤ y → y ∈ rest i) :
    s.Candidate rows ahead [quick] ref (update rest quick l') := by
  obtain ⟨hin, hsuffix⟩ := of_dropWhile hrow
  have hquick : quick ≤ s.lastScan := by simpa using hscans.subset mem_cons_self
  have hnodup := nodup_cons.1 (hscans.nodup_iff.2 nodup_range)
  refine ⟨(perm_append_singleton _ _).trans hscans, by simpa using hin, fun y hy => ?_,
    fun i hi => ?_, by simpa using hsuffix.trans hl⟩
  · have hmem := mem_dropWhile (p := (!s.rowInRanges ·)) (hcommon y hy) (by simp [hy.1])
    rw [hrow] at hmem
    exact (mem_cons.1 hmem).elim ge_of_eq fun hmem =>
      ((mem_behind (hrows quick hquick) (hsuffix.trans hl)).1 hmem).2.le
  · rw [update_of_ne (by rintro rfl; exact hnodup.1 hi)]
    exact hahead i hi

theorem confirmLoop_spec (hrows : ∀ i ≤ s.lastScan, (rows i).Pairwise (· < ·))
    (h : s.Candidate rows ahead confirmed last rest) :
    s.Returns rows (s.confirmLoop ahead confirmed last rest) := by
  fun_induction confirmLoop s ahead confirmed last rest with
  | case1 confirmed last rest =>
    have hlast : ∀ i ≤ s.lastScan, last :: rest i <:+ rows i := fun i hi =>
      h.confirmed i (h.scans.mem_iff.2 (by simp; omega))
    exact ⟨⟨h.inRange, fun i hi => (hlast i hi).subset mem_cons_self⟩, h.least, hlast⟩
  | case2 confirmed last rest quick ahead hrow =>
    intro y hy
    simpa [hrow] using h.mem_next hy
  | case3 confirmed last rest quick ahead ref rows' hrow hpos hrange =>
    intro y hy
    have hmem := mem_dropWhile (p := (!s.rowInRanges ·)) (hrow ▸ h.mem_next hy) (by simp [hy.1])
    simp [hrange] at hmem
  | case4 confirmed last rest quick ahead ref rows' hrow hpos ref' rows'' hrange ih =>
    -- the scan sets a new candidate, and all other scans are ahead again
    have hquick := (of_dropWhile hrow).2.trans (h.ahead quick mem_cons_self).1
    have hlt : last < ref' := by
      rcases mem_cons.1 ((of_dropWhile hrange).2.subset mem_cons_self) with rfl | hmem
      · exact hpos
      · exact hpos.trans ((mem_behind (hrows quick (h.le (by simp))) hquick).1 hmem).2
    refine ih (candidate_set hrows h.scans hquick (fun y hy => hrow ▸ h.mem_next hy) hrange
      fun i hi => ?_)
    rcases mem_append.1 hi with hi' | hi'
    · have := h.ahead i (mem_cons_of_mem _ hi')
      grind
    · have hold := h.confirmed i hi'
      refine ⟨(suffix_cons _ _).trans hold, fun y hy hle => ?_⟩
      exact (mem_behind (hrows i (h.le (by simp [hi']))) hold).2 ⟨hy, hlt.trans_le hle⟩
  | case5 confirmed last rest quick ahead ref rows' hrow hpos ih =>
    -- the scan confirms the candidate
    have hnodup : (quick :: (ahead ++ confirmed)).Nodup := h.scans.nodup_iff.2 nodup_range
    obtain ⟨hge, hsuffix⟩ := of_dropWhile hrow
    obtain rfl : ref = last := le_antisymm (not_lt.1 hpos) (by simpa using hge)
    have hquick := hsuffix.trans (h.ahead quick mem_cons_self).1
    have hahead := h.ahead
    have hconfirmed := h.confirmed
    refine ih ⟨?_, h.inRange, h.least, fun i hi => ?_, fun i hi => ?_⟩
    · rw [← append_assoc]
      exact (perm_append_singleton _ _).trans h.scans
    · grind [update_apply]
    · grind [update_apply]

/-- **One call.** -/
theorem getNext_spec (hrows : ∀ i ≤ s.lastScan, (rows i).Pairwise (· < ·)) :
    s.Returns rows (s.getNext rows) := by
  unfold getNext
  split
  case h_1 hrow =>
    intro y hy
    simpa [hrow] using mem_dropWhile (p := (!s.rowInRanges ·)) (hy.2 0 (Nat.zero_le _))
      (by simp [hy.1])
  case h_2 ref rows' hrow =>
    refine confirmLoop_spec hrows (candidate_set hrows ?_ suffix_rfl
      (fun y hy => hy.2 0 (Nat.zero_le _)) hrow fun i _ => ⟨suffix_rfl, fun y hy _ => hy⟩)
    rw [range_eq_range', range'_succ]

/-- **The calls return the rows that are in all scans**, each once and in ascending order. -/
theorem allRows_spec (s : Select R) {rows : ℕ → List R}
    (hrows : ∀ i ≤ s.lastScan, (rows i).Pairwise (· < ·)) {calls : ℕ}
    (hcalls : (rows 0).length ≤ calls) : (s.allRows calls rows).Pairwise (· < ·) ∧
      ∀ y, y ∈ s.allRows calls rows ↔ s.rowInRanges y = true ∧ ∀ i ≤ s.lastScan, y ∈ rows i := by
  induction calls generalizing rows with
  | zero =>
    have hnil : rows 0 = [] := length_eq_zero_iff.1 (Nat.le_zero.1 hcalls)
    refine ⟨.nil, fun y => iff_of_false not_mem_nil fun hy => ?_⟩
    simpa [hnil] using hy.2 0 (Nat.zero_le _)
  | succ calls ih =>
    have hcall := getNext_spec hrows
    rw [allRows]
    cases hnext : s.getNext rows with
    | none =>
      rw [hnext] at hcall
      exact ⟨.nil, fun y => iff_of_false not_mem_nil (hcall y)⟩
    | some r =>
      obtain ⟨x, rest⟩ := r
      rw [hnext] at hcall
      obtain ⟨hx, hleast, hrest⟩ := hcall
      have hmem {y : R} : ∀ i ≤ s.lastScan, y ∈ rest i ↔ y ∈ rows i ∧ x < y := fun i hi =>
        mem_behind (hrows i hi) (hrest i hi)
      have hsort : ∀ i ≤ s.lastScan, (rest i).Pairwise (· < ·) := fun i hi =>
        (hrows i hi).sublist ((suffix_cons _ _).trans (hrest i hi)).sublist
      obtain ⟨hsorted, hall⟩ := ih hsort
        (Nat.le_of_lt_succ ((hrest 0 (Nat.zero_le _)).length_le.trans hcalls))
      refine ⟨pairwise_cons.2 ⟨fun y hy => ?_, hsorted⟩, fun y => ?_⟩
      · exact ((hmem 0 (Nat.zero_le _)).1 (((hall y).1 hy).2 0 (Nat.zero_le _))).2
      rw [mem_cons, hall]
      constructor
      · rintro (rfl | hy)
        · exact hx
        · exact ⟨hy.1, fun i hi => ((hmem i hi).1 (hy.2 i hi)).1⟩
      · intro hy
        refine or_iff_not_imp_left.2 fun hne => ⟨hy.1, fun i hi => ?_⟩
        exact (hmem i hi).2 ⟨hy.2 i hi, (hleast y hy).lt_of_ne' hne⟩

/-- Three scans of which the second one is shorter. -/
theorem allRows_spec_three : 3 ∈ (⟨2, fun _ => true⟩ : Select ℕ).allRows 3
    fun i => if i = 1 then [2, 3] else [1, 3, 5] :=
  ((allRows_spec _ (by decide) (by decide)).2 3).2 ⟨rfl, by decide⟩

end RorIntersect
