/-
**OPTIMIZE of a full-text word: which documents are skipped.**

The position in the list of deleted doc ids moves forward past the ids below the document that is
read.  A document is skipped if its id is at the position then, so a deleted id is missed when the
position has passed it, or when no position was found for the word.  This module says which
documents of a sequence are kept, and when these are the ones that are not deleted.

Main definitions:

* `below`: how many ids of the list are below a doc id;
* `deletes`, `kept`: what becomes of one document, and of a sequence.

Main results:

* `kept_perm_iff`: **the documents that are kept are those not deleted** exactly if a position is
  found and no deleted document comes behind a document with a larger id.
-/

import MariaDb.Bisect
import MariaDb.FtsOptimize
import Mathlib.Data.List.GetD

set_option autoImplicit false

namespace Fts

open List

/-! ### The place of a doc id in the list -/

/-- The number of doc ids of the list below `docId`. -/
def below (delVec : List ℕ) (docId : ℕ) : ℕ := (delVec.filter fun x => decide (x < docId)).length

variable {delVec : List ℕ} {docId : ℕ}

theorem below_le_length (delVec : List ℕ) (docId : ℕ) : below delVec docId ≤ delVec.length :=
  length_filter_le _ _

theorem below_mono (delVec : List ℕ) {a b : ℕ} (h : a ≤ b) : below delVec a ≤ below delVec b := by
  refine (monotone_filter_right delVec fun x hx => ?_).length_le
  simp only [decide_eq_true_eq] at hx ⊢
  omega

theorem getD_mem {i : ℕ} (hi : i < delVec.length) : delVec.getD i 0 ∈ delVec := by
  rw [getD_eq_getElem _ _ hi]
  exact getElem_mem hi

section Sorted

variable (hsorted : delVec.Pairwise (· ≤ ·))

include hsorted

theorem getD_lt_iff (docId : ℕ) {i : ℕ} (hi : i < delVec.length) :
    delVec.getD i 0 < docId ↔ i < below delVec docId := by
  rw [getD_eq_getElem _ _ hi]
  exact Bisect.getElem_lt_iff hsorted docId i hi

theorem getD_eq_iff {i : ℕ} (hi : i < delVec.length) :
    delVec.getD i 0 = docId ↔ below delVec docId ≤ i ∧ i < below delVec (docId + 1) := by
  rw [← getD_lt_iff hsorted _ hi, ← not_lt, ← getD_lt_iff hsorted _ hi]
  omega

theorem mem_iff_below (docId : ℕ) : docId ∈ delVec ↔ below delVec docId < below delVec (docId + 1) := by
  constructor
  · intro hmem
    obtain ⟨i, hi, heq⟩ := getElem_of_mem hmem
    rw [← getD_eq_getElem _ 0 hi, getD_eq_iff hsorted hi] at heq
    omega
  intro hlt
  have hi := hlt.trans_le (below_le_length delVec (docId + 1))
  exact (getD_eq_iff hsorted hi).2 ⟨le_rfl, hlt⟩ ▸ getD_mem hi

/-! ### The search -/

/-- The loop keeps the place of the doc id between its bounds. -/
theorem bsearchLoop_spec (docId : ℕ) : ∀ (fuel : ℕ) (lower upper : ℤ), 0 ≤ lower → upper ≤ delVec.length →
    lower ≤ below delVec docId → below delVec (docId + 1) ≤ upper + 1 → upper - lower < fuel →
    (∃ i : ℕ, bsearchLoop delVec docId fuel lower upper = .inl i ∧ i < delVec.length ∧
      delVec.getD i 0 = docId) ∨
    ∃ l u, bsearchLoop delVec docId fuel lower upper = .inr (l, u) ∧ 0 ≤ l ∧ u ≤ l ∧
      l ≤ below delVec docId ∧ below delVec (docId + 1) ≤ u + 1 := by
  intro fuel
  induction fuel with
  | zero =>
    intro lower upper h0 hn hl hu hfuel
    exact .inr ⟨lower, upper, rfl, h0, by omega, hl, hu⟩
  | succ fuel ih =>
    intro lower upper h0 hn hl hu hfuel
    rw [bsearchLoop]
    by_cases hlt : lower < upper
    · obtain ⟨i, hi⟩ : ∃ i : ℕ, (lower + upper) / 2 = i :=
        ⟨((lower + upper) / 2).toNat, by omega⟩
      have hin : i < delVec.length := by omega
      have hless := getD_lt_iff hsorted docId hin
      have hmore := getD_lt_iff hsorted (docId + 1) hin
      simp only [if_pos hlt, hi, Int.toNat_natCast]
      by_cases hx : delVec.getD i 0 < docId
      · rw [if_pos hx]
        exact ih _ _ (by omega) hn (by omega) hu (by omega)
      rw [if_neg hx]
      by_cases hx' : docId < delVec.getD i 0
      · rw [if_pos hx']
        exact ih _ _ h0 (by omega) hl (by omega) (by omega)
      · rw [if_neg hx']
        exact .inl ⟨i, rfl, hin, by omega⟩
    · rw [if_neg hlt]
      exact .inr ⟨lower, upper, rfl, h0, by omega, hl, hu⟩

/-- **`fts_bsearch`** finds the doc id, or an index next to its place. -/
theorem ftsBsearch_spec (hne : delVec ≠ []) (docId : ℕ) :
    (∃ i : ℕ, ftsBsearch delVec 0 delVec.length docId = i ∧ i < delVec.length ∧
      delVec.getD i 0 = docId) ∨
    docId ∉ delVec ∧ ∃ i : ℕ, ftsBsearch delVec 0 delVec.length docId = -i ∧ 1 ≤ i ∧
      below delVec docId ≤ i + 1 ∧ (i ≤ below delVec docId ∨ i = 1) := by
  have hlen : 0 < delVec.length := length_pos_of_ne_nil hne
  have hle := below_le_length delVec (docId + 1)
  have hmono := below_mono delVec (Nat.le_add_right docId 1)
  have hmem := mem_iff_below hsorted docId
  simp only [ftsBsearch]
  rw [if_neg (by omega)]
  rcases bsearchLoop_spec hsorted docId (delVec.length + 1) 0 delVec.length le_rfl
    le_rfl (by omega) (by omega) (by omega) with ⟨i, hloop, hi, heq⟩ | ⟨l, u, hloop, h0, hul, hl, hu⟩
  · rw [hloop]
    exact .inl ⟨i, rfl, hi, heq⟩
  rw [hloop]
  obtain ⟨i, rfl⟩ : ∃ i : ℕ, l = i := ⟨l.toNat, by omega⟩
  by_cases hfound : (i : ℤ) = u ∧ (i : ℤ) < delVec.length ∧ docId = delVec.getD (i : ℤ).toNat 0
  · simp only
    rw [if_pos hfound]
    exact .inl ⟨i, rfl, by omega, by simpa using hfound.2.2.symm⟩
  simp only
  rw [if_neg hfound]
  have hnot : docId ∉ delVec := by
    intro h
    -- the only place that is left is that of the bound
    have hlt := hmem.1 h
    have hi : i < delVec.length := by omega
    refine hfound ⟨by omega, by omega, ?_⟩
    exact ((getD_eq_iff hsorted hi).2 ⟨by omega, by omega⟩).symm
  refine .inr ⟨hnot, ?_⟩
  by_cases hi : (i : ℤ) = 0
  · rw [if_pos hi]
    exact ⟨1, rfl, le_rfl, by omega, .inr rfl⟩
  · rw [if_neg hi]
    exact ⟨i, rfl, by omega, by omega, .inl (by omega)⟩

/-- The position for a word is not behind a deleted id that is at least the first one of the
word. -/
theorem ftsOptimizeLookup_passed {first last : ℕ} (hne : delVec ≠ [])
    (hpos : 0 ≤ ftsOptimizeLookup delVec first last) (hmem : docId ∈ delVec)
    (hfirst : first ≤ docId) : ftsOptimizeLookup delVec first last < below delVec (docId + 1) := by
  have hlt := (mem_iff_below hsorted _).1 hmem
  have hmono := below_mono delVec hfirst
  simp only [ftsOptimizeLookup] at hpos ⊢
  rcases ftsBsearch_spec hsorted hne first with ⟨i, hres, hi, heq⟩ | ⟨hnot, i, hres, h1, -, hi⟩
  · have := ((getD_eq_iff hsorted hi).1 heq).2
    have := below_mono delVec (Nat.add_le_add_right hfirst 1)
    omega
  rw [hres, if_pos (by omega)] at hpos ⊢
  have habs : (-(i : ℤ)).natAbs = i := by omega
  rw [habs] at hpos ⊢
  have h0 : 0 < delVec.length := length_pos_of_ne_nil hne
  split_ifs at hpos ⊢ with hcase hcase'
  · omega
  · rcases hi with hi | rfl
    · omega
    -- the first id is at most the second one, and not above the first doc id of the word
    have hle : delVec.getD 0 0 ≤ delVec.getD 1 0 := by
      rw [getD_eq_getElem _ _ h0, getD_eq_getElem _ _ (by omega)]
      exact pairwise_iff_getElem.1 hsorted 0 1 _ _ (by norm_num)
    have hne' : delVec.getD 0 0 ≠ first := fun heq => hnot (heq ▸ getD_mem h0)
    have := (getD_lt_iff hsorted first h0).1 (by omega)
    omega
  · omega

/-- **A position is found** if a deleted id is in the range of the word. -/
theorem ftsOptimizeLookup_nonneg {first last : ℕ} (hmem : docId ∈ delVec) (hfirst : first ≤ docId)
    (hlast : docId ≤ last) : 0 ≤ ftsOptimizeLookup delVec first last := by
  have hne : delVec ≠ [] := ne_nil_of_mem hmem
  have hlt := (mem_iff_below hsorted _).1 hmem
  have hle := below_le_length delVec (docId + 1)
  have hmono := below_mono delVec hfirst
  -- the ids up to the place of the doc id are in the range or below it
  have hrange : ∀ i, i ≤ below delVec docId → delVec.getD i 0 ≤ last := by
    intro i hi
    have := (getD_lt_iff hsorted (docId + 1) (i := i) (by omega)).2 (by omega)
    omega
  simp only [ftsOptimizeLookup]
  rcases ftsBsearch_spec hsorted hne first with ⟨i, hres, hi, heq⟩ | ⟨hnot, i, hres, h1, -, hi⟩
  · omega
  have habs : (-(i : ℤ)).natAbs = i := by omega
  rw [hres, if_pos (by omega), habs]
  split_ifs with hcase hcase'
  · exact le_rfl
  · omega
  rcases hi with hi | rfl
  · exact absurd ⟨by omega, hrange i (by omega)⟩ hcase'
  rcases Nat.eq_zero_or_pos (below delVec first) with h0 | h0
  · -- the first id of the list is in the range
    have hge := mt (getD_lt_iff hsorted first (i := 0) (by omega)).1 (by omega)
    have hne' : delVec.getD 0 0 ≠ first := fun heq => hnot (heq ▸ getD_mem (by omega))
    exact absurd ⟨rfl, hrange 0 (Nat.zero_le _), by omega⟩ hcase
  · exact absurd ⟨by omega, hrange 1 (by omega)⟩ hcase'

end Sorted

/-! ### One document -/

/-- Whether a document is skipped, and the new position. -/
def deletes (delVec : List ℕ) (pos : ℤ) (docId : ℕ) : Bool × ℤ :=
  if pos < 0 then (false, pos)
  else if max pos (below delVec docId) < below delVec (docId + 1) then
    (true, max pos (below delVec docId) + 1)
  else (false, max pos (below delVec docId))

theorem deletes_skip {pos : ℤ} (hpos : 0 ≤ pos)
    (h : max pos (below delVec docId) < below delVec (docId + 1)) :
    deletes delVec pos docId = (true, max pos (below delVec docId) + 1) := by
  rw [deletes, if_neg (by omega), if_pos h]

theorem deletes_keep {pos : ℤ} (hpos : 0 ≤ pos)
    (h : below delVec (docId + 1) ≤ max pos (below delVec docId)) :
    deletes delVec pos docId = (false, max pos (below delVec docId)) := by
  rw [deletes, if_neg (by omega), if_neg (by omega)]

section Skipping

variable (hsorted : delVec.Pairwise (· ≤ ·)) (hposv : ∀ x ∈ delVec, 0 < x)

include hsorted hposv

/-- One test is enough when no id below the document is left. -/
theorem testAgain_here (fuel : ℕ) {p : ℕ} (hp : below delVec docId ≤ p) :
    testAgain delVec docId (fuel + 1) p = some (deletes delVec p docId) := by
  have hle := below_le_length delVec (docId + 1)
  rw [deletes, if_neg (by omega), max_eq_left (by omega), testAgain]
  by_cases hin : p < delVec.length
  · have hx := hposv _ (getD_mem hin)
    have hless := getD_lt_iff hsorted docId hin
    have hmore := getD_lt_iff hsorted (docId + 1) hin
    simp only [Int.toNat_natCast]
    rw [if_pos (show (0 : ℤ) ≤ p ∧ (p : ℤ) < delVec.length by omega)]
    by_cases heq : docId = delVec.getD p 0
    · rw [if_pos ⟨hx, heq⟩, if_pos (by omega)]
    · rw [if_neg fun h => heq h.2, if_neg (by omega), if_neg (by omega)]
  · rw [if_neg (show ¬((0 : ℤ) ≤ p ∧ (p : ℤ) < delVec.length) by omega), if_neg (by omega),
      if_neg (by omega), if_neg (by omega)]

/-- **The code from `test_again` on** passes the ids below the document. -/
theorem testAgain_eq (pos : ℤ) (docId : ℕ) :
    testAgain delVec docId (delVec.length + 1) pos = some (deletes delVec pos docId) := by
  by_cases hneg : pos < 0
  · rw [deletes, if_pos hneg, testAgain, if_neg (show ¬(0 ≤ pos ∧ pos < delVec.length) by omega),
      if_neg (by omega), if_neg (by omega)]
  have hrun : ∀ fuel p : ℕ, below delVec docId ≤ fuel + p →
      testAgain delVec docId (fuel + 1) p = some (deletes delVec p docId) := by
    intro fuel
    induction fuel with
    | zero =>
      intro p hp
      exact testAgain_here hsorted hposv 0 (by omega)
    | succ fuel ih =>
      intro p hp
      by_cases hat : below delVec docId ≤ p
      · exact testAgain_here hsorted hposv _ hat
      have hle := below_le_length delVec docId
      have hin : p < delVec.length := by omega
      have hless := (getD_lt_iff hsorted docId hin).2 (by omega)
      have hx := hposv _ (getD_mem hin)
      have hnext := ih (p + 1) (by omega)
      have hmax : max ((p + 1 : ℕ) : ℤ) (below delVec docId) = max (p : ℤ) (below delVec docId) :=
        by omega
      have hsame : deletes delVec ((p + 1 : ℕ) : ℤ) docId = deletes delVec p docId := by
        simp only [deletes, hmax]
        rw [if_neg (show ¬((p + 1 : ℕ) : ℤ) < 0 by omega), if_neg (show ¬(p : ℤ) < 0 by omega)]
      rw [testAgain]
      simp only [Int.toNat_natCast]
      rw [if_pos (show (0 : ℤ) ≤ p ∧ (p : ℤ) < delVec.length by omega), if_neg (by omega),
        if_pos ⟨hx, hless⟩, ← hsame, ← hnext]
      norm_cast
  obtain ⟨p, rfl⟩ : ∃ p : ℕ, pos = p := ⟨pos.toNat, by omega⟩
  have hle := below_le_length delVec docId
  exact hrun delVec.length p (by omega)

end Skipping

/-! ### A sequence of documents -/

/-- The documents of a sequence that are kept. -/
def kept (delVec : List ℕ) : ℤ → List Doc → List Doc
  | _, [] => []
  | pos, d :: docs =>
    (if (deletes delVec pos d.1).1 then [] else [d]) ++ kept delVec (deletes delVec pos d.1).2 docs

/-- The position behind a sequence of documents. -/
def posAfter (delVec : List ℕ) (pos : ℤ) (docs : List Doc) : ℤ :=
  docs.foldl (fun pos d => (deletes delVec pos d.1).2) pos

theorem kept_append (delVec : List ℕ) (xs ys : List Doc) : ∀ pos,
    kept delVec pos (xs ++ ys) = kept delVec pos xs ++ kept delVec (posAfter delVec pos xs) ys := by
  induction xs with
  | nil => intro pos; rfl
  | cons d xs ih =>
    intro pos
    rw [cons_append, kept, kept, ih, append_assoc]
    rfl

theorem kept_sublist (delVec : List ℕ) (docs : List Doc) : ∀ pos,
    (kept delVec pos docs).Sublist docs := by
  induction docs with
  | nil => intro pos; exact List.Sublist.refl _
  | cons d docs ih =>
    intro pos
    have hhead : (if (deletes delVec pos d.1).1 then [] else [d]).Sublist [d] := by
      split
      · exact nil_sublist _
      · exact List.Sublist.refl _
    exact hhead.append (ih _)

theorem kept_of_neg {pos : ℤ} (hpos : pos < 0) (docs : List Doc) : kept delVec pos docs = docs := by
  induction docs with
  | nil => rfl
  | cons d docs ih =>
    rw [kept, deletes, if_pos hpos]
    simp [ih]

theorem le_deletes (delVec : List ℕ) {pos : ℤ} (hpos : 0 ≤ pos) (docId : ℕ) :
    pos ≤ (deletes delVec pos docId).2 ∧ below delVec docId ≤ (deletes delVec pos docId).2 := by
  rw [deletes, if_neg (by omega)]
  split <;> omega

/-- A document is kept when the position has passed its id. -/
theorem mem_kept_of_passed {d : Doc} (docs : List Doc) : ∀ pos : ℤ,
    below delVec (d.1 + 1) ≤ pos → d ∈ docs → d ∈ kept delVec pos docs := by
  induction docs with
  | nil => intro pos _ hd; exact hd
  | cons c docs ih =>
    intro pos hpos hd
    rcases mem_cons.1 hd with rfl | hd
    · refine mem_append_left _ ?_
      rw [deletes_keep (by omega) (by omega)]
      exact mem_singleton.2 rfl
    · have := (le_deletes delVec (show 0 ≤ pos by omega) c.1).1
      exact mem_append_right _ (ih _ (by omega) hd)

section Sorted

variable (hsorted : delVec.Pairwise (· ≤ ·))

include hsorted

/-- The deleted documents are skipped, when each of them comes behind smaller ids only. -/
theorem kept_eq_filter (docs : List Doc) : ∀ pos : ℤ, 0 ≤ pos →
    (∀ d ∈ docs, d.1 ∈ delVec → pos < below delVec (d.1 + 1)) →
    docs.Pairwise (fun c d => d.1 ∈ delVec → c.1 < d.1) →
      kept delVec pos docs = docs.filter fun d => d.1 ∉ delVec := by
  induction docs with
  | nil => intro _ _ _ _; rfl
  | cons d docs ih =>
    intro pos hpos hpassed hpair
    rw [pairwise_cons] at hpair
    have hmem := mem_iff_below hsorted d.1
    have hmono := below_mono delVec (Nat.le_add_right d.1 1)
    have hlater : ∀ c ∈ docs, c.1 ∈ delVec → below delVec (d.1 + 1) < below delVec (c.1 + 1) := by
      intro c hc hdel
      have h1 := below_mono delVec (hpair.1 c hc hdel)
      have h2 := (mem_iff_below hsorted _).1 hdel
      exact lt_of_le_of_lt h1 h2
    have htail := ih (deletes delVec pos d.1).2 (by
        have := (le_deletes delVec hpos d.1).1
        omega)
      (by
        intro c hc hdel
        have h1 := hlater c hc hdel
        have h2 := hpassed c (mem_cons_of_mem d hc) hdel
        rw [deletes, if_neg (by omega)]
        split <;> omega) hpair.2
    rw [kept, htail]
    by_cases hdel : d.1 ∈ delVec
    · have hlt := hpassed d mem_cons_self hdel
      have hmem' := hmem.1 hdel
      rw [filter_cons_of_neg (by simpa using hdel), deletes_skip hpos (by omega)]
      rfl
    · have hmem' := mt hmem.2 hdel
      rw [filter_cons_of_pos (by simpa using hdel), deletes_keep hpos (by omega)]
      rfl

omit hsorted in
/-- If every deleted document is skipped, each of them comes behind smaller ids only. -/
theorem pairwise_of_kept (docs : List Doc) : ∀ pos : ℤ, 0 ≤ pos → (docs.map Prod.fst).Nodup →
    (∀ d ∈ kept delVec pos docs, d.1 ∉ delVec) →
      docs.Pairwise fun c d => d.1 ∈ delVec → c.1 < d.1 := by
  induction docs with
  | nil => intro _ _ _ _; exact List.Pairwise.nil
  | cons d docs ih =>
    intro pos hpos hnodup hkept
    rw [map_cons, nodup_cons] at hnodup
    have hle := le_deletes delVec hpos d.1
    refine pairwise_cons.2 ⟨fun c hc hdel => ?_, ih _ (by omega) hnodup.2 fun c hc =>
      hkept c (mem_append_right _ hc)⟩
    by_contra hge
    have hne : c.1 ≠ d.1 := fun heq => hnodup.1 (heq ▸ mem_map_of_mem hc)
    -- the position passed the id with the document before
    have hmono := below_mono delVec (show c.1 + 1 ≤ d.1 by omega)
    exact hkept c (mem_append_right _ (mem_kept_of_passed docs _ (by omega) hc)) hdel

/-- **The documents that are kept are those not deleted** exactly if there is a position, unless
nothing is deleted, and no deleted document comes behind one with a larger id. -/
theorem kept_perm_iff {docs : List Doc} {pos : ℤ} (hnodup : (docs.map Prod.fst).Nodup)
    (hpassed : 0 ≤ pos → ∀ d ∈ docs, d.1 ∈ delVec → pos < below delVec (d.1 + 1)) :
    (kept delVec pos docs).Perm (docs.filter fun d => d.1 ∉ delVec) ↔
      (∀ d ∈ docs, d.1 ∈ delVec → 0 ≤ pos) ∧ docs.Pairwise fun c d => d.1 ∈ delVec → c.1 < d.1 := by
  constructor
  · intro hperm
    have hnot : ∀ d ∈ kept delVec pos docs, d.1 ∉ delVec := by
      intro d hd
      simpa using (mem_filter.1 (hperm.mem_iff.1 hd)).2
    by_cases hpos : 0 ≤ pos
    · exact ⟨fun _ _ _ => hpos, pairwise_of_kept docs pos hpos hnodup hnot⟩
    · rw [kept_of_neg (by omega)] at hnot
      refine ⟨fun d hd hdel => absurd hdel (hnot d hd), ?_⟩
      exact pairwise_of_forall_mem_list fun c _ d hd hdel => absurd hdel (hnot d hd)
  · rintro ⟨hfound, hpair⟩
    by_cases hpos : 0 ≤ pos
    · rw [kept_eq_filter hsorted docs pos hpos (hpassed hpos) hpair]
    · have hnot : ∀ d ∈ docs, d.1 ∉ delVec := fun d hd hdel => hpos (hfound d hd hdel)
      rw [kept_of_neg (by omega), filter_eq_self.2 fun d hd => by simpa using hnot d hd]

end Sorted

end Fts
