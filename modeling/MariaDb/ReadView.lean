/-
**The purge view is the intersection of the open read views.**

A read view remembers which transactions were active when it was taken; a row version is visible
when its transaction was committed before that.  Purge may remove a version only when every open
view sees its successor, so it works with one view that sees what *all* of them see.  That view is
built in place: it starts as a copy of one view and `ReadViewBase::append` merges the others into
it, one by one, in the order in which the transaction list happens to be walked.

The merge keeps an iterator into the vector that it extends.  Here the vector and the iterator are
a pair of lists, the elements before the iterator and the ones from it on: advancing the iterator
moves one element across, inserting at it appends to the first list.

Main definitions:

* `ReadViewBase`, `ReadView`: the two classes of `read0types.h`;
* `ReadViewBase.append`, `ReadViewBase.changesVisible`: merging and the visibility check;
* `ReadViewBase.Snapshot`: the invariant of a view taken by `snapshot()`;
* `cloneOldestView`: the loop of `trx_sys_t::clone_oldest_view()`.

Main results:

* `foldl_append_intersection`: **any number of appends, in any order**, give the intersection, and
  the result does not depend on the order.
-/

import MariaDb.Bisect
import Mathlib.Data.List.Sort
import Mathlib.Order.Lattice

set_option autoImplicit false

namespace Mvcc

open List

/-! ### The view -/

/-- The members of `ReadViewBase`.  Transaction identifiers are only compared and copied. -/
structure ReadViewBase where
  /-- The view sees no transaction from this identifier on. -/
  lowLimitId : ℕ
  /-- The view sees every transaction below this identifier. -/
  upLimitId : ℕ
  /-- The read-write transactions that were active when the view was taken. -/
  ids : List ℕ
  /-- The view needs no undo log of a transaction with a smaller number. -/
  lowLimitNo : ℕ
  deriving DecidableEq, Repr

namespace ReadViewBase

def changesVisible (v : ReadViewBase) (id : ℕ) : Bool :=
  if v.lowLimitId ≤ id then false
  else decide (id < v.upLimitId) || v.ids.isEmpty || !Bisect.binarySearch v.ids id

/-- The body of the loop of `append()` for one identifier: `done` is what lies before `dst` and
`rest` what lies from `dst` on. -/
def placeId (id : ℕ) : List ℕ → List ℕ → List ℕ × List ℕ
  | done, [] => (done ++ [id], [])
  | done, d :: rest =>
    if d < id then placeId id (done ++ [d]) rest
    else if id < d then (done ++ [id], d :: rest)
    else (done, d :: rest)

/-- The loop of `append()` over the identifiers of the other view. -/
def mergeIds (lowLimitId : ℕ) : List ℕ → List ℕ → List ℕ → List ℕ × List ℕ
  | [], done, rest => (done, rest)
  | id :: ids, done, rest =>
    if lowLimitId ≤ id then (done, rest)
    else
      let p := placeId id done rest
      mergeIds lowLimitId ids p.1 p.2

def append (v other : ReadViewBase) : ReadViewBase :=
  let lowLimitNo := if other.lowLimitNo < v.lowLimitNo then other.lowLimitNo else v.lowLimitNo
  let lowLimitId := if other.lowLimitId < v.lowLimitId then other.lowLimitId else v.lowLimitId
  let p := mergeIds lowLimitId other.ids [] v.ids
  let ids := p.1 ++ p.2.take (Bisect.lowerBound p.2 lowLimitId)
  { lowLimitId := lowLimitId
    upLimitId := ids.headD lowLimitId
    ids := ids
    lowLimitNo := lowLimitNo }

/-- The invariant of a view that `snapshot()` has filled: the identifiers are strictly increasing
and below the high water mark, and the low water mark is the first of them, if any. -/
structure Snapshot (v : ReadViewBase) : Prop where
  sorted : v.ids.Pairwise (· < ·)
  below : ∀ id ∈ v.ids, id < v.lowLimitId
  up : v.upLimitId = v.ids.headD v.lowLimitId

end ReadViewBase

/-- The members of `ReadView` that purge reads: the view and whether it is open. -/
structure ReadView extends ReadViewBase where
  isOpen : Bool
  deriving DecidableEq, Repr

/-- `ReadView::append_to()`: a closed view contributes nothing. -/
def ReadView.appendTo (v : ReadView) (view : ReadViewBase) : ReadViewBase :=
  if v.isOpen then view.append v.toReadViewBase else view

/-- The loop of `trx_sys_t::clone_oldest_view()` over the transaction list, started from the
snapshot that the purge coordinator takes itself. -/
def cloneOldestView (own : ReadViewBase) (trxList : List ReadView) : ReadViewBase :=
  trxList.foldl (fun view trx => trx.appendTo view) own

open ReadViewBase

/-! ### What a view sees -/

variable {v w r : ReadViewBase} {views : List ReadViewBase}

/-- The low water mark is a lower bound of the identifiers. -/
theorem ReadViewBase.Snapshot.up_le (h : v.Snapshot) : ∀ id ∈ v.ids, v.upLimitId ≤ id := by
  intro id hid
  cases hl : v.ids with
  | nil => simp [hl] at hid
  | cons a l =>
    have hs := h.sorted
    rw [hl] at hid hs
    rw [h.up, hl, headD_cons]
    rcases mem_cons.1 hid with rfl | hid
    · exact le_rfl
    · exact (rel_of_pairwise_cons hs hid).le

/-- **Visibility**: a well-formed view sees exactly the transactions below the high water mark
that were not active. -/
theorem changesVisible_iff (h : v.Snapshot) (id : ℕ) :
    v.changesVisible id = true ↔ id < v.lowLimitId ∧ id ∉ v.ids := by
  unfold changesVisible
  by_cases hlow : v.lowLimitId ≤ id
  · simp [hlow]
  rw [if_neg hlow]
  have hsorted : v.ids.Pairwise (· ≤ ·) := h.sorted.imp le_of_lt
  have hsearch := Bisect.binarySearch_iff hsorted id
  constructor
  · intro hv
    refine ⟨by omega, fun hmem => ?_⟩
    have hge := h.up_le id hmem
    have hne : v.ids.isEmpty = false := isEmpty_eq_false_iff.2 (ne_nil_of_mem hmem)
    rw [hsearch.2 hmem, hne] at hv
    simp at hv
    omega
  · rintro ⟨-, hmem⟩
    have hnot : Bisect.binarySearch v.ids id = false := by
      rw [Bool.eq_false_iff]
      exact fun hc => hmem (hsearch.1 hc)
    simp [hnot]

/-! ### Merging the identifiers -/

theorem le_of_mem_concat {id : ℕ} {done : List ℕ} (hlt : ∀ x ∈ done, x < id) :
    ∀ x ∈ done ++ [id], x ≤ id := by
  simpa [or_imp, forall_and] using fun x hx => (hlt x hx).le

/-- One round of the loop: with everything before the iterator below `id`, the vector becomes the
sorted union with `id`, and everything before the iterator is at most `id`. -/
theorem placeId_spec (id : ℕ) : ∀ (rest done : List ℕ),
    (done ++ rest).Pairwise (· < ·) → (∀ x ∈ done, x < id) →
    ((placeId id done rest).1 ++ (placeId id done rest).2).Pairwise (· < ·) ∧
      (∀ x, x ∈ (placeId id done rest).1 ++ (placeId id done rest).2 ↔ x = id ∨ x ∈ done ++ rest) ∧
      (∀ x ∈ (placeId id done rest).1, x ≤ id) := by
  intro rest
  induction rest with
  | nil =>
    intro done hs hlt
    simp only [placeId, append_nil] at hs ⊢
    refine ⟨?_, ?_, ?_⟩
    · rw [pairwise_append]
      exact ⟨hs, pairwise_singleton _ _, fun x hx y hy => by
        rw [mem_singleton.1 hy]; exact hlt x hx⟩
    · intro x; simp [or_comm]
    · exact le_of_mem_concat hlt
  | cons d rest ih =>
    intro done hs hlt
    simp only [placeId]
    by_cases h1 : d < id
    · -- the iterator moves past `d`
      rw [if_pos h1]
      have hs' : ((done ++ [d]) ++ rest).Pairwise (· < ·) := by simpa using hs
      obtain ⟨ha, hb, hc⟩ := ih _ hs' (forall_mem_append.2 ⟨hlt, by simpa using h1⟩)
      exact ⟨ha, fun x => by rw [hb x]; simp, hc⟩
    rw [if_neg h1]
    by_cases h2 : id < d
    · -- `id` is inserted before `d`
      rw [if_pos h2]
      rw [pairwise_append, pairwise_cons] at hs
      obtain ⟨hdone, ⟨hd, hrest⟩, hcross⟩ := hs
      refine ⟨?_, ?_, ?_⟩
      · simp only [append_assoc, singleton_append]
        rw [pairwise_append, pairwise_cons, pairwise_cons]
        refine ⟨hdone, ⟨?_, hd, hrest⟩, ?_⟩
        · intro y hy
          rcases mem_cons.1 hy with rfl | hy
          · exact h2
          · exact lt_trans h2 (hd y hy)
        · intro x hx y hy
          rcases mem_cons.1 hy with rfl | hy
          · exact hlt x hx
          · exact hcross x hx y hy
      · intro x
        simp only [mem_append, mem_cons, not_mem_nil, or_false]
        tauto
      · exact le_of_mem_concat hlt
    · -- `id` is already there
      rw [if_neg h2]
      have hid : d = id := by omega
      refine ⟨hs, ?_, fun x hx => le_of_lt (hlt x hx)⟩
      intro x
      subst hid
      simp only [mem_append, mem_cons]
      tauto

/-- **The merge loop**: the vector becomes the sorted union with the identifiers of the other view
that are below the limit, and everything before the iterator stays below the limit. -/
theorem mergeIds_spec (lim : ℕ) : ∀ (ids done rest : List ℕ),
    ids.Pairwise (· < ·) → (done ++ rest).Pairwise (· < ·) →
    (∀ x ∈ done, x < lim ∧ ∀ y ∈ ids, x < y) →
    ((mergeIds lim ids done rest).1 ++ (mergeIds lim ids done rest).2).Pairwise (· < ·) ∧
      (∀ x, x ∈ (mergeIds lim ids done rest).1 ++ (mergeIds lim ids done rest).2 ↔
        x ∈ done ++ rest ∨ (x ∈ ids ∧ x < lim)) ∧
      (∀ x ∈ (mergeIds lim ids done rest).1, x < lim) := by
  intro ids
  induction ids with
  | nil =>
    intro done rest _ hs hd
    simp only [mergeIds]
    exact ⟨hs, fun x => by simp, fun x hx => (hd x hx).1⟩
  | cons id ids ih =>
    intro done rest hids hs hd
    rw [pairwise_cons] at hids
    simp only [mergeIds]
    by_cases hlim : lim ≤ id
    · -- the identifiers are sorted: from here on none is below the limit
      rw [if_pos hlim]
      refine ⟨hs, fun x => ?_, fun x hx => (hd x hx).1⟩
      constructor
      · exact .inl
      rintro (hx | ⟨hx, hlt⟩)
      · exact hx
      rcases mem_cons.1 hx with rfl | hx
      · omega
      · have := hids.1 x hx
        omega
    rw [if_neg hlim]
    have hdone : ∀ x ∈ done, x < id := fun x hx => (hd x hx).2 id mem_cons_self
    obtain ⟨ha, hb, hc⟩ := placeId_spec id rest done hs hdone
    have hnext : ∀ x ∈ (placeId id done rest).1, x < lim ∧ ∀ y ∈ ids, x < y := by
      intro x hx
      have hle := hc x hx
      exact ⟨by omega, fun y hy => lt_of_le_of_lt hle (hids.1 y hy)⟩
    obtain ⟨ha', hb', hc'⟩ := ih _ _ hids.2 ha hnext
    refine ⟨ha', fun x => ?_, hc'⟩
    rw [hb' x, hb x]
    constructor
    · rintro ((rfl | hx) | ⟨hx, hlt⟩)
      · exact .inr ⟨mem_cons_self, by omega⟩
      · exact .inl hx
      · exact .inr ⟨mem_cons_of_mem _ hx, hlt⟩
    · rintro (hx | ⟨hx, hlt⟩)
      · exact .inl (.inr hx)
      · rcases mem_cons.1 hx with rfl | hx
        · exact .inl (.inl rfl)
        · exact .inr ⟨hx, hlt⟩

/-! ### Appending a view -/

theorem append_lowLimitNo (v w : ReadViewBase) :
    (v.append w).lowLimitNo = min v.lowLimitNo w.lowLimitNo := by
  simp only [append]
  split <;> omega

theorem append_lowLimitId (v w : ReadViewBase) :
    (v.append w).lowLimitId = min v.lowLimitId w.lowLimitId := by
  simp only [append]
  split <;> omega

section

variable (hv : v.Snapshot) (hw : w.Snapshot)
include hv hw

/-- The identifiers of the merged view, before and after the truncation at the limit. -/
theorem append_ids : (v.append w).ids.Pairwise (· < ·) ∧
      ∀ id, id ∈ (v.append w).ids ↔ (id ∈ v.ids ∨ id ∈ w.ids) ∧ id < (v.append w).lowLimitId := by
  obtain ⟨hs, hmem, hdone⟩ := mergeIds_spec (v.append w).lowLimitId w.ids [] v.ids
    hw.sorted hv.sorted (by simp)
  rw [pairwise_append] at hs
  obtain ⟨hs1, hs2, hs₁₂⟩ := hs
  -- what lies from the iterator on is cut at the limit; what lies before it is below already
  have hcut := Bisect.take_lowerBound (hs2.imp le_of_lt) (v.append w).lowLimitId
  have hids : (v.append w).ids =
      (mergeIds (v.append w).lowLimitId w.ids [] v.ids).1 ++
        (mergeIds (v.append w).lowLimitId w.ids [] v.ids).2.filter
          fun x => decide (x < (v.append w).lowLimitId) := by
    rw [← hcut]
    rfl
  rw [hids]
  constructor
  · rw [pairwise_append]
    exact ⟨hs1, hs2.filter _, fun x hx y hy => hs₁₂ x hx y (mem_of_mem_filter hy)⟩
  intro id
  have hmem' := hmem id
  simp only [nil_append, mem_append] at hmem'
  simp only [mem_append, mem_filter, decide_eq_true_eq]
  tauto

/-- **One append** keeps the invariant, and the result sees what both views see. -/
theorem append_spec : (v.append w).Snapshot ∧ ∀ id, (v.append w).changesVisible id = true ↔
        v.changesVisible id = true ∧ w.changesVisible id = true := by
  obtain ⟨hs, hmem⟩ := append_ids hv hw
  have hsnap : (v.append w).Snapshot := ⟨hs, fun id hid => ((hmem id).1 hid).2, rfl⟩
  refine ⟨hsnap, fun id => ?_⟩
  rw [changesVisible_iff hsnap, changesVisible_iff hv, changesVisible_iff hw, hmem,
    append_lowLimitId, lt_min_iff]
  tauto

/-- A view is determined by its limits and the *set* of its identifiers. -/
theorem ReadViewBase.Snapshot.ext
    (hid : v.lowLimitId = w.lowLimitId) (hno : v.lowLimitNo = w.lowLimitNo)
    (hmem : ∀ id, id ∈ v.ids ↔ id ∈ w.ids) : v = w := by
  have hids : v.ids = w.ids := hv.sorted.eq_of_mem_iff hw.sorted hmem
  have hup : v.upLimitId = w.upLimitId := by rw [hv.up, hw.up, hids, hid]
  cases v
  cases w
  simp only at hid hno hids hup
  rw [hid, hno, hids, hup]

end

/-! ### Appending all views -/

/-- What a sequence of appends computes: least limits, and the union of the identifiers below the
least high water mark. -/
structure Merged (views : List ReadViewBase) (r : ReadViewBase) : Prop where
  snapshot : r.Snapshot
  lowLimitId : IsLeast {n | ∃ w ∈ views, w.lowLimitId = n} r.lowLimitId
  lowLimitNo : IsLeast {n | ∃ w ∈ views, w.lowLimitNo = n} r.lowLimitNo
  ids : ∀ id, id ∈ r.ids ↔ (∃ w ∈ views, id ∈ w.ids) ∧ id < r.lowLimitId

/-- A view is the merge of itself. -/
theorem merged_singleton (hv : v.Snapshot) : Merged [v] v where
  snapshot := hv
  lowLimitId := ⟨⟨v, mem_singleton_self v, rfl⟩, by
    rintro n ⟨w, hw, rfl⟩
    rw [mem_singleton.1 hw]⟩
  lowLimitNo := ⟨⟨v, mem_singleton_self v, rfl⟩, by
    rintro n ⟨w, hw, rfl⟩
    rw [mem_singleton.1 hw]⟩
  ids := by
    intro id
    simp only [mem_singleton, exists_eq_left]
    exact ⟨fun h => ⟨h, hv.below id h⟩, And.left⟩

/-- The least value of a view attribute, when one more view is added. -/
theorem isLeast_snoc {f : ReadViewBase → ℕ} {m : ℕ} (w : ReadViewBase)
    (h : IsLeast {n | ∃ u ∈ views, f u = n} m) :
    IsLeast {n | ∃ u ∈ views ++ [w], f u = n} (min m (f w)) := by
  obtain ⟨⟨u, hu, rfl⟩, hle⟩ := h
  constructor
  · rcases le_total (f u) (f w) with h | h
    · exact ⟨u, mem_append_left _ hu, (min_eq_left h).symm⟩
    · exact ⟨w, by simp, (min_eq_right h).symm⟩
  rintro n ⟨x, hx, rfl⟩
  rcases mem_append.1 hx with hx | hx
  · exact le_trans (min_le_left _ _) (hle ⟨x, hx, rfl⟩)
  · rw [mem_singleton.1 hx]
    exact min_le_right _ _

/-- Appending one more view to a merge. -/
theorem Merged.append (h : Merged views r)
    (hw : w.Snapshot) : Merged (views ++ [w]) (r.append w) where
  snapshot := (append_spec h.snapshot hw).1
  lowLimitId := by
    rw [append_lowLimitId]
    exact isLeast_snoc w h.lowLimitId
  lowLimitNo := by
    rw [append_lowLimitNo]
    exact isLeast_snoc w h.lowLimitNo
  ids := by
    intro id
    rw [(append_ids h.snapshot hw).2 id, h.ids id]
    simp only [append_lowLimitId, lt_min_iff, mem_append, mem_singleton]
    constructor
    · rintro ⟨⟨⟨u, hu, hid⟩, _⟩ | hid, hlt⟩
      · exact ⟨⟨u, .inl hu, hid⟩, hlt⟩
      · exact ⟨⟨w, .inr rfl, hid⟩, hlt⟩
    · rintro ⟨⟨u, hu | rfl, hid⟩, hlt⟩
      · exact ⟨.inl ⟨⟨u, hu, hid⟩, hlt.1⟩, hlt⟩
      · exact ⟨.inr hid, hlt⟩

/-- **The run**: appending a list of views, one after the other. -/
theorem Merged.foldl (vs : List ReadViewBase) (h : Merged views r) (hvs : ∀ w ∈ vs, w.Snapshot) :
    Merged (views ++ vs) (vs.foldl ReadViewBase.append r) := by
  induction vs generalizing views r with
  | nil => simpa using h
  | cons w vs ih =>
    have hw := h.append (hvs w mem_cons_self)
    have hrec := ih hw fun u hu => hvs u (mem_cons_of_mem _ hu)
    simpa using hrec

/-- A merge only depends on which views were merged. -/
theorem Merged.unique {views' : List ReadViewBase} {r' : ReadViewBase} (h : Merged views r)
    (h' : Merged views' r') (hmem : ∀ w, w ∈ views ↔ w ∈ views') : r = r' := by
  have hset : ∀ f : ReadViewBase → ℕ, {n | ∃ w ∈ views, f w = n} = {n | ∃ w ∈ views', f w = n} := by
    intro f
    ext n
    simp only [Set.mem_ofPred_eq, hmem]
  have hid : r.lowLimitId = r'.lowLimitId := h.lowLimitId.unique (hset _ ▸ h'.lowLimitId)
  have hno : r.lowLimitNo = r'.lowLimitNo := h.lowLimitNo.unique (hset _ ▸ h'.lowLimitNo)
  refine h.snapshot.ext h'.snapshot hid hno fun id => ?_
  rw [h.ids, h'.ids, hid]
  simp only [hmem]

/-- A merge sees exactly what every merged view sees. -/
theorem Merged.visible_iff (h : Merged views r) (hviews : ∀ w ∈ views, w.Snapshot) (id : ℕ) :
    r.changesVisible id = true ↔ ∀ w ∈ views, w.changesVisible id = true := by
  rw [changesVisible_iff h.snapshot]
  constructor
  · rintro ⟨hlt, hnot⟩ w hw
    rw [changesVisible_iff (hviews w hw)]
    refine ⟨lt_of_lt_of_le hlt (h.lowLimitId.2 ⟨w, hw, rfl⟩), fun hid => hnot ?_⟩
    exact (h.ids id).2 ⟨⟨w, hw, hid⟩, hlt⟩
  intro hall
  obtain ⟨w, hw, hlow⟩ := h.lowLimitId.1
  have hvis := (changesVisible_iff (hviews w hw) id).1 (hall w hw)
  refine ⟨by omega, fun hid => ?_⟩
  obtain ⟨⟨u, hu, hidu⟩, _⟩ := (h.ids id).1 hid
  exact ((changesVisible_iff (hviews u hu) id).1 (hall u hu)).2 hidu

/-- **The purge view is the intersection of the views**: starting from a copy of one of them and
appending the others in any order gives a well-formed view that sees exactly what all of them see,
with the least transaction number, and every order gives the same view. -/
theorem foldl_append_intersection {views : List ReadViewBase} (hsnap : ∀ w ∈ views, w.Snapshot)
    {v : ReadViewBase} {vs : List ReadViewBase} (horder : (v :: vs).Perm views) :
    (vs.foldl append v).Snapshot ∧
      (∀ id, (vs.foldl append v).changesVisible id = true ↔
        ∀ w ∈ views, w.changesVisible id = true) ∧
      IsLeast {n | ∃ w ∈ views, w.lowLimitNo = n} (vs.foldl append v).lowLimitNo ∧
      ∀ v' vs', (v' :: vs').Perm views → vs'.foldl append v' = vs.foldl append v := by
  -- every order of the same views is a merge of them
  have hmerged : ∀ u us, (u :: us).Perm views → Merged (u :: us) (us.foldl append u) := by
    intro u us hp
    have hall : ∀ w ∈ u :: us, w.Snapshot := fun w hw => hsnap w (hp.subset hw)
    exact (merged_singleton (hall u mem_cons_self)).foldl us
      fun w hw => hall w (mem_cons_of_mem _ hw)
  have hm := hmerged v vs horder
  have hall : ∀ w ∈ v :: vs, w.Snapshot := fun w hw => hsnap w (horder.subset hw)
  refine ⟨hm.snapshot, fun id => ?_, ?_, fun v' vs' hp => ?_⟩
  · rw [hm.visible_iff hall id]
    simp only [horder.mem_iff]
  · have hleast := hm.lowLimitNo
    simp only [horder.mem_iff] at hleast
    exact hleast
  · exact (hmerged v' vs' hp).unique hm fun w => by rw [hp.mem_iff, horder.mem_iff]

/-- Two views of which the second is older: the merge drops an identifier that the older view's
high water mark hides, and keeps the union of the rest. -/
theorem foldl_append_intersection_two :
    ([⟨7, 3, [3, 5], 6⟩] : List ReadViewBase).foldl append ⟨10, 2, [2, 8], 4⟩ =
        ⟨7, 2, [2, 3, 5], 4⟩ ∧
      (⟨7, 2, [2, 3, 5], 4⟩ : ReadViewBase).Snapshot := by
  have h := @foldl_append_intersection [⟨10, 2, [2, 8], 4⟩, ⟨7, 3, [3, 5], 6⟩]
    (by
      intro w hw
      rcases mem_cons.1 hw with rfl | hw
      · exact ⟨by decide, by decide, rfl⟩
      · rw [mem_singleton.1 hw]
        exact ⟨by decide, by decide, rfl⟩)
    _ _ (List.Perm.refl _)
  exact ⟨by decide, h.1⟩

/-! ### The purge coordinator -/

/-- Walking the transaction list appends the open views. -/
theorem cloneOldestView_eq (own : ReadViewBase) (trxList : List ReadView) :
    cloneOldestView own trxList =
      ((trxList.filter (·.isOpen)).map (·.toReadViewBase)).foldl append own := by
  induction trxList generalizing own with
  | nil => rfl
  | cons trx trxList ih =>
    have hstep : cloneOldestView own (trx :: trxList) =
        cloneOldestView (trx.appendTo own) trxList := rfl
    rw [hstep, ih]
    cases hopen : trx.isOpen <;> simp [ReadView.appendTo, hopen]

/-- **What purge may remove**: the view of the purge coordinator sees a transaction exactly when
its own snapshot and every open view see it. -/
theorem cloneOldestView_visible {own : ReadViewBase} {trxList : List ReadView} (hown : own.Snapshot)
    (hopen : ∀ v ∈ trxList, v.isOpen = true → v.toReadViewBase.Snapshot) (id : ℕ) :
    (cloneOldestView own trxList).changesVisible id = true ↔
      own.changesVisible id = true ∧
        ∀ v ∈ trxList, v.isOpen = true → v.toReadViewBase.changesVisible id = true := by
  have hsnap : ∀ w ∈ (trxList.filter (·.isOpen)).map (·.toReadViewBase), w.Snapshot := by
    intro w hw
    obtain ⟨v, hv, rfl⟩ := mem_map.1 hw
    exact hopen v (mem_of_mem_filter hv) (mem_filter.1 hv).2
  have hm := (merged_singleton hown).foldl _ hsnap
  rw [cloneOldestView_eq, hm.visible_iff]
  · simp only [cons_append, nil_append, forall_mem_cons, forall_mem_map, mem_filter, and_imp]
  intro w hw
  rcases mem_append.1 hw with hw | hw
  · rw [mem_singleton.1 hw]
    exact hown
  · exact hsnap w hw

theorem cloneOldestView_visible_open :
    (cloneOldestView ⟨10, 2, [2, 8], 4⟩ [⟨⟨7, 3, [3], 6⟩, true⟩]).changesVisible 5 = true :=
  (cloneOldestView_visible ⟨by decide, by decide, rfl⟩
    (fun _ hv _ => mem_singleton.1 hv ▸ ⟨by decide, by decide, rfl⟩) 5).2 (by decide)

end Mvcc
