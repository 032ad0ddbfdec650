/-
**Chains threaded through one array.**

The cells of an array hold a value and the index of another cell.  Every value belongs to a bucket,
the values of a bucket are linked into a chain, and the chain of the bucket `i` starts in the cell
`i`: a cell is at once a place for any value and the door to a bucket.  This module has the facts
about such tables that an algorithm needs which moves values between cells and relinks them.

Main definitions:

* `Linked`: a list of cells is linked in this order;
* `Table`: the chains of a table over a set of occupied cells;
* `vals`: the values in the occupied cells as a multiset.

Main results:

* `Table.rebuild`: a table after the chains of some buckets have been replaced;
* `Table.add_first`, `Table.add_second`, `Table.relocate`, `Table.unlink`, `Table.unlink_head`,
  `Table.unlink_single`: a value is added, moved to a free cell, or taken out;
* `Table.remap`: the buckets are renamed, but for those of no value.
-/

import Mathlib.Data.Finset.Card
import Mathlib.Data.Multiset.AddSub
import Mathlib.Logic.Function.Basic
import Mathlib.Tactic

set_option autoImplicit false

namespace Chains

open Function List

/-- A cell: the index of the next cell of the chain, and a value. -/
structure Cell (β : Type*) where
  next : Option ℕ
  val : β

variable {β : Type*} {c c' : ℕ → Cell β} {l l1 l2 : List ℕ} {t : Option ℕ} {i j : ℕ}

/-! ### Linked cells -/

/-- The cells `l` are linked in this order, and the last one refers to `t`. -/
def Linked (c : ℕ → Cell β) : List ℕ → Option ℕ → Prop
  | [], _ => True
  | i :: l, t => (c i).next = l.head?.or t ∧ Linked c l t

@[simp] theorem linked_nil : Linked c [] t := trivial

@[simp] theorem linked_cons :
    Linked c (i :: l) t ↔ (c i).next = l.head?.or t ∧ Linked c l t := Iff.rfl

theorem Linked.next (hl : Linked c (i :: l) none) : (c i).next = l.head? := by simpa using hl.1

theorem linked_append : Linked c (l1 ++ l2) t ↔ Linked c l1 (l2.head?.or t) ∧ Linked c l2 t := by
  induction l1 with
  | nil => simp
  | cons i l1 ih =>
    simp [linked_cons, ih, head?_append, Option.or_assoc, and_assoc]

theorem Linked.congr (hl : Linked c l t) (hc : ∀ i ∈ l, (c' i).next = (c i).next) :
    Linked c' l t := by
  induction l with
  | nil => trivial
  | cons i l ih =>
    refine ⟨?_, ih hl.2 fun j hj => hc j (mem_cons_of_mem i hj)⟩
    rw [hc i mem_cons_self]
    exact hl.1

theorem Linked.relink_last {p : ℕ} {t' : Option ℕ} (hl : Linked c (l ++ [p]) t)
    (hcp : (c' p).next = t') (hc : ∀ i ∈ l, (c' i).next = (c i).next) :
    Linked c' (l ++ [p]) t' := by
  rw [linked_append] at hl ⊢
  refine ⟨?_, by simpa using hcp⟩
  exact (by simpa using hl.1 : Linked c l (some p)).congr hc

theorem length_le_of_nodup {n : ℕ} (hl : l.Nodup) (hlt : ∀ j ∈ l, j < n) : l.length ≤ n := by
  have hle := (hl.subperm fun j hj => mem_range.2 (hlt j hj)).length_le
  rwa [length_range] at hle

theorem range_erase_self (n : ℕ) : (Finset.range (n + 1)).erase n = Finset.range n := by
  rw [Finset.range_add_one, Finset.erase_insert (by simp)]

/-! ### Tables -/

/-- The values in the occupied cells `S` are linked into the chains `ch` of their buckets, which
`M` gives; the chain of a bucket starts in the cell of that number. -/
structure Table (c : ℕ → Cell β) (M : β → ℕ) (S : Finset ℕ) (ch : ℕ → List ℕ) : Prop where
  linked : ∀ i, Linked c (ch i) none
  nodup : ∀ i, (ch i).Nodup
  mem : ∀ i j, j ∈ ch i ↔ j ∈ S ∧ M (c j).val = i
  head : ∀ i j, (ch i).head? = some j → j = i

/-- `l` is the chain of one bucket. -/
structure IsChain (c : ℕ → Cell β) (M : β → ℕ) (S : Finset ℕ) (k : ℕ) (l : List ℕ) : Prop where
  linked : Linked c l none
  nodup : l.Nodup
  mem : ∀ j, j ∈ l ↔ j ∈ S ∧ M (c j).val = k
  head : ∀ j, l.head? = some j → j = k

variable {M M' : β → ℕ} {S S' : Finset ℕ} {ch : ℕ → List ℕ} {k p a e : ℕ}

namespace Table

variable (ht : Table c M S ch)
include ht

theorem isChain (hch : ch k = l) : IsChain c M S k l := by
  subst hch
  exact ⟨ht.linked k, ht.nodup k, ht.mem k, ht.head k⟩

theorem cons_of_ne_nil (hne : ch i ≠ []) : ∃ l, ch i = i :: l := by
  obtain ⟨j, l, hl⟩ := exists_cons_of_ne_nil hne
  have hj := ht.head i j (by rw [hl]; rfl)
  exact ⟨l, by rw [hl, hj]⟩

theorem head_of_mem (hj : j ∈ S) (hM : M (c j).val = i) : i ∈ S ∧ M (c i).val = i := by
  obtain ⟨l, hl⟩ := ht.cons_of_ne_nil (ne_nil_of_mem ((ht.mem i j).2 ⟨hj, hM⟩))
  exact ((ht.isChain hl).mem i).1 mem_cons_self

/-- The bucket of a cell that is free, or taken by a value of another bucket, is empty. -/
theorem eq_nil (hi : i ∈ S → M (c i).val ≠ i) : ch i = [] := by
  refine eq_nil_iff_forall_not_mem.2 fun j hj => ?_
  obtain ⟨hjS, hM⟩ := (ht.mem i j).1 hj
  obtain ⟨hiS, hMi⟩ := ht.head_of_mem hjS hM
  exact hi hiS hMi

theorem cons_of_mem (hi : i ∈ S) (hM : M (c i).val = i) : ∃ l, ch i = i :: l :=
  ht.cons_of_ne_nil (ne_nil_of_mem ((ht.mem i i).2 ⟨hi, hM⟩))

/-- A value outside of the cell of its bucket has a predecessor. -/
theorem exists_pred (hi : i ∈ S) (hM : M (c i).val ≠ i) :
    ∃ l1 p l2, ch (M (c i).val) = l1 ++ p :: i :: l2 := by
  obtain ⟨l1, l2, hl⟩ := append_of_mem ((ht.mem _ i).2 ⟨hi, rfl⟩)
  cases hl1 : l1.reverse with
  | nil =>
    rw [reverse_eq_nil_iff] at hl1
    subst hl1
    exact absurd (ht.head _ i (by rw [hl]; rfl)) (Ne.symm hM)
  | cons p l =>
    refine ⟨l.reverse, p, l2, ?_⟩
    rw [hl, ← reverse_reverse l1, hl1]
    simp

theorem toFinset (i : ℕ) : (ch i).toFinset = S.filter fun j => M (c j).val = i := by
  ext j
  rw [mem_toFinset, Finset.mem_filter, ht.mem]

theorem length_eq (i : ℕ) : (ch i).length = (S.filter fun j => M (c j).val = i).card := by
  rw [← ht.toFinset, toFinset_card_of_nodup (ht.nodup i)]

theorem length_le (i : ℕ) : (ch i).length ≤ S.card := by
  rw [ht.length_eq]
  exact Finset.card_filter_le S _

/-- The chains hold every occupied cell once. -/
theorem sum_length {n : ℕ} (hn : ∀ j ∈ S, M (c j).val < n) :
    ∑ i ∈ Finset.range n, (ch i).length = S.card := by
  rw [Finset.card_eq_sum_card_fiberwise (f := fun j => M (c j).val) (t := Finset.range n)
    (fun j hj => Finset.mem_coe.2 (Finset.mem_range.2 (hn j hj)))]
  exact Finset.sum_congr rfl fun i _ => ht.length_eq i

/-- The chains of some buckets `K` are replaced, the others stay. -/
theorem rebuild {K : Set ℕ} {ch' : ℕ → List ℕ} (hout : ∀ i, i ∉ K → ch' i = ch i)
    (hkeep : ∀ j ∈ S, M (c j).val ∉ K → j ∈ S' ∧ c' j = c j ∧ M' (c j).val = M (c j).val)
    (hback : ∀ j ∈ S', M' (c' j).val ∉ K → j ∈ S ∧ M (c j).val ∉ K)
    (hnew : ∀ k ∈ K, IsChain c' M' S' k (ch' k)) : Table c' M' S' ch' := by
  have hchain : ∀ i, IsChain c' M' S' i (ch' i) := by
    intro i
    by_cases hi : i ∈ K
    · exact hnew i hi
    rw [hout i hi]
    refine ⟨(ht.linked i).congr fun j hj => ?_, ht.nodup i, fun j => ?_, ht.head i⟩
    · obtain ⟨hjS, hM⟩ := (ht.mem i j).1 hj
      rw [(hkeep j hjS (by rwa [hM])).2.1]
    rw [ht.mem]
    constructor
    · rintro ⟨hjS, rfl⟩
      obtain ⟨hj, hcj, hM⟩ := hkeep j hjS hi
      exact ⟨hj, by rw [hcj, hM]⟩
    · rintro ⟨hj, rfl⟩
      obtain ⟨hjS, hM⟩ := hback j hj hi
      obtain ⟨-, hcj, hM'⟩ := hkeep j hjS hM
      exact ⟨hjS, by rw [hcj, hM']⟩
  exact ⟨fun i => (hchain i).linked, fun i => (hchain i).nodup, fun i => (hchain i).mem,
    fun i => (hchain i).head⟩

/-- The chain of one bucket is replaced by cells that were its own or free. -/
theorem rechain (k : ℕ) (hlinked : Linked c' l none)
    (hnodup : l.Nodup) (hhead : ∀ j, l.head? = some j → j = k)
    (hval : ∀ j ∈ l, M (c' j).val = k) (hfree : ∀ j ∈ l, j ∈ S → j ∈ ch k)
    (hsame : ∀ j ∈ S, j ∉ l → j ∉ ch k → c' j = c j)
    (hS : ∀ j, j ∈ S' ↔ j ∈ l ∨ j ∈ S ∧ j ∉ ch k) : Table c' M S' (update ch k l) := by
  have hother : ∀ j ∈ S, j ∉ ch k → M (c j).val ≠ k ∧ c' j = c j := by
    intro j hj hjk
    exact ⟨fun hM => hjk ((ht.mem k j).2 ⟨hj, hM⟩), hsame j hj (fun hl => hjk (hfree j hl hj)) hjk⟩
  refine ht.rebuild (K := {k}) (fun i hi => update_of_ne hi _ _) ?_ ?_ ?_
  · intro j hj hM
    have hjk : j ∉ ch k := fun hmem => hM ((ht.mem k j).1 hmem).2
    exact ⟨(hS j).2 (.inr ⟨hj, hjk⟩), (hother j hj hjk).2, rfl⟩
  · intro j hj hM
    rcases (hS j).1 hj with hl | ⟨hjS, hjk⟩
    · exact absurd (hval j hl) hM
    · exact ⟨hjS, (hother j hjS hjk).1⟩
  rintro _ rfl
  rw [update_self]
  refine ⟨hlinked, hnodup, fun j => ?_, hhead⟩
  rw [hS]
  constructor
  · intro hl
    exact ⟨.inl hl, hval j hl⟩
  rintro ⟨hl | ⟨hjS, hjk⟩, hM⟩
  · exact hl
  · obtain ⟨hne, heq⟩ := hother j hjS hjk
    rw [heq] at hM
    exact absurd hM hne

/-- The chains of two buckets are replaced, and the buckets of their values may change. -/
theorem rechain_pair {n f : ℕ} {l' : List ℕ} (hfn : f ≠ n) (hlinked : Linked c' l none)
    (hnodup : l.Nodup) (hhead : ∀ j, l.head? = some j → j = f) (hval : ∀ j ∈ l, M' (c' j).val = f)
    (hlinked' : Linked c' l' none) (hnodup' : l'.Nodup) (hhead' : ∀ j, l'.head? = some j → j = n)
    (hval' : ∀ j ∈ l', M' (c' j).val = n)
    (hsame : ∀ j ∈ S, j ∉ ch f → j ∉ ch n → c' j = c j ∧ M' (c j).val = M (c j).val)
    (hS : ∀ j, j ∈ S' ↔ j ∈ l ∨ j ∈ l' ∨ j ∈ S ∧ j ∉ ch f ∧ j ∉ ch n) :
    Table c' M' S' (update (update ch n l') f l) := by
  have hother : ∀ j ∈ S, j ∉ ch f → j ∉ ch n →
      M' (c' j).val = M (c j).val ∧ M (c j).val ≠ f ∧ M (c j).val ≠ n := by
    intro j hj hjf hjn
    obtain ⟨hcj, hMj⟩ := hsame j hj hjf hjn
    exact ⟨by rw [hcj, hMj], fun h => hjf ((ht.mem f j).2 ⟨hj, h⟩),
      fun h => hjn ((ht.mem n j).2 ⟨hj, h⟩)⟩
  refine ht.rebuild (K := {f, n}) ?_ ?_ ?_ ?_
  · intro i hi
    simp only [Set.mem_insert_iff, Set.mem_singleton_iff, not_or] at hi
    rw [update_of_ne hi.1, update_of_ne hi.2]
  · intro j hj hK
    have hjf : j ∉ ch f := fun h => hK (.inl ((ht.mem f j).1 h).2)
    have hjn : j ∉ ch n := fun h => hK (.inr ((ht.mem n j).1 h).2)
    exact ⟨(hS j).2 (.inr (.inr ⟨hj, hjf, hjn⟩)), hsame j hj hjf hjn⟩
  · intro j hj hK
    rcases (hS j).1 hj with hjl | hjl | ⟨hjS, hjf, hjn⟩
    · exact absurd (.inl (hval j hjl)) hK
    · exact absurd (.inr (hval' j hjl)) hK
    · obtain ⟨-, hMf, hMn⟩ := hother j hjS hjf hjn
      exact ⟨hjS, by simp [hMf, hMn]⟩
  · rintro k (rfl | rfl)
    · rw [update_self]
      refine ⟨hlinked, hnodup, fun j => ?_, hhead⟩
      grind
    · rw [update_of_ne hfn.symm, update_self]
      refine ⟨hlinked', hnodup', fun j => ?_, hhead'⟩
      rw [hS]
      grind

/-- Two buckets become one: the values of the bucket `n` go to the bucket `f`. -/
theorem merge {n f : ℕ} (hfn : f ≠ n) (hM : ∀ v, M' v = if M v = n then f else M v)
    (hlinked : Linked c' l none) (hnodup : l.Nodup) (hhead : ∀ j, l.head? = some j → j = f)
    (hval : ∀ j ∈ l, M' (c' j).val = f) (hsame : ∀ j ∈ S, j ∉ ch f → j ∉ ch n → c' j = c j)
    (hS : ∀ j, j ∈ S' ↔ j ∈ l ∨ j ∈ S ∧ j ∉ ch f ∧ j ∉ ch n) :
    Table c' M' S' (update (update ch n []) f l) := by
  refine ht.rechain_pair hfn hlinked hnodup hhead hval linked_nil nodup_nil (by simp) (by simp)
    (fun j hj hjf hjn => ⟨hsame j hj hjf hjn, ?_⟩) (by simpa using hS)
  rw [hM, if_neg fun hMj => hjn ((ht.mem n j).2 ⟨hj, hMj⟩)]

theorem congr (hnext : ∀ j ∈ S, (c' j).next = (c j).next)
    (hval : ∀ j ∈ S, M' (c' j).val = M (c j).val) : Table c' M' S ch where
  linked i := (ht.linked i).congr fun j hj => hnext j ((ht.mem i j).1 hj).1
  nodup := ht.nodup
  mem i j := by
    rw [ht.mem]
    exact and_congr_right fun hj => by rw [hval j hj]
  head := ht.head

/-- The buckets are renamed, and no value is in one whose name changes. -/
theorem remap (hM : ∀ j ∈ S, M' (c j).val = M (c j).val) : Table c M' S ch :=
  ht.congr (fun _ _ => rfl) hM

/-! ### Adding, moving and removing a value -/

theorem subset (hj : j ∈ ch i) : j ∈ S := ((ht.mem i j).1 hj).1

/-- A value is put into the free cell of its bucket. -/
theorem add_first {v : β} (hi : i ∉ S) (hv : M v = i) :
    Table (update c i ⟨none, v⟩) M (insert i S) (update ch i [i]) := by
  have hnil : ch i = [] := ht.eq_nil fun h => absurd h hi
  refine ht.rechain i (by simp) (nodup_singleton i) (by simp) (by simp [hv]) ?_ ?_ ?_
  · simp [hi]
  · intro j hj hjl _
    exact update_of_ne (by simpa using hjl) _ _
  · simp [hnil]

/-- A value is linked behind the first one of its bucket. -/
theorem add_second (hi : i ∈ S) (hM : M (c i).val = i)
    (he : e ∉ S) (hnext : (c' i).next = some e) (hnext' : (c' e).next = (c i).next)
    (hval : M (c' i).val = i) (hval' : M (c' e).val = i)
    (hc : ∀ j, j ≠ i → j ≠ e → c' j = c j) : ∃ ch', Table c' M (insert e S) ch' := by
  obtain ⟨l, hl⟩ := ht.cons_of_mem hi hM
  have hei : e ≠ i := fun h => he (h ▸ hi)
  have hchain := ht.isChain hl
  have hlinked := hchain.linked
  obtain ⟨hil, hnodup⟩ := nodup_cons.1 hchain.nodup
  have hel : e ∉ l := fun h => he ((hchain.mem e).1 (mem_cons_of_mem i h)).1
  have hrest : ∀ j ∈ l, c' j = c j := fun j hj =>
    hc j (ne_of_mem_of_not_mem hj hil) (ne_of_mem_of_not_mem hj hel)
  refine ⟨_, ht.rechain (l := i :: e :: l) i ?_ ?_ (by simp) ?_ ?_ ?_ ?_⟩
  · refine ⟨by simpa using hnext, ?_, hlinked.2.congr fun j hj => by rw [hrest j hj]⟩
    rw [hnext']
    exact hlinked.1
  · simpa [hil, hel, hei.symm] using hnodup
  · intro j hj
    rcases mem_cons.1 hj with rfl | hj
    · exact hval
    rcases mem_cons.1 hj with rfl | hj
    · exact hval'
    rw [hrest j hj]
    exact ((hchain.mem j).1 (mem_cons_of_mem i hj)).2
  · intro j hj hjS
    have hje : j ≠ e := ne_of_mem_of_not_mem hjS he
    rw [hl]
    simpa [hje] using hj
  · intro j _ hj _
    simp only [mem_cons, not_or] at hj
    exact hc j hj.1 hj.2.1
  · intro j
    have hsub : j ∈ i :: l → j ∈ S := fun h => ((hchain.mem j).1 h).1
    rw [hl]
    grind

theorem around (hch : ch k = l1 ++ p :: a :: l2) :
    Linked c l1 (some p) ∧ (c p).next = some a ∧ (c a).next = l2.head? ∧ Linked c l2 none ∧
      (l1 ++ p :: a :: l2).Nodup := by
  obtain ⟨h1, hp, ha, h2⟩ := linked_append.1 (ht.isChain hch).linked
  exact ⟨by simpa using h1, by simpa using hp, by simpa using ha, h2, (ht.isChain hch).nodup⟩

theorem head_append (hch : ch k = l1 ++ p :: l2) (l : List ℕ) : (l1 ++ p :: l).head? = some k := by
  have hhead := (ht.isChain hch).head
  cases l1 with
  | nil => exact congrArg some (hhead p rfl)
  | cons i l1 => exact congrArg some (hhead i rfl)

theorem before (hch : ch k = l1 ++ p :: a :: l2) (hj : j ∈ l1 ++ [p]) :
    j ∈ S ∧ M (c j).val = k ∧ j ≠ a := by
  have hnodup := (ht.isChain hch).nodup
  obtain ⟨hjS, hMj⟩ := ((ht.isChain hch).mem j).1 (by grind)
  exact ⟨hjS, hMj, by grind⟩

/-- A value with a predecessor is moved to a free cell. -/
theorem relocate (he : e ∉ S) (hch : ch k = l1 ++ p :: a :: l2) (hp : c' p = ⟨some e, (c p).val⟩)
    (hce : c' e = c a) (hc : ∀ j, j ≠ p → j ≠ a → j ≠ e → c' j = c j) :
    ∃ ch', Table c' M (insert e (S.erase a)) ch' := by
  obtain ⟨hl1, -, ha, hl2, hnodup⟩ := ht.around hch
  have hsub := fun j => ((ht.isChain hch).mem j).1
  have hsame : ∀ j, j ∈ l1 ∨ j ∈ l2 → c' j = c j := by
    intro j hj
    refine hc j ?_ ?_ ?_ <;> grind
  refine ⟨_, ht.rechain (l := l1 ++ p :: e :: l2) k ?_ ?_ ?_ ?_ ?_ ?_ ?_⟩
  · rw [linked_append]
    refine ⟨?_, by simp [hp], ?_, ?_⟩
    · exact (by simpa using hl1 : Linked c l1 _).congr fun j hj => by rw [hsame j (.inl hj)]
    · rw [hce, ha, Option.or_none]
    · exact hl2.congr fun j hj => by rw [hsame j (.inr hj)]
  · grind
  · exact fun j hj => Option.some.inj (hj.symm.trans (ht.head_append hch _))
  · intro j hj
    simp only [mem_append, mem_cons] at hj
    rcases hj with hj | rfl | rfl | hj
    · rw [hsame j (.inl hj)]
      exact (hsub j (by simp [hj])).2
    · rw [hp]
      exact (hsub j (by simp)).2
    · rw [hce]
      exact (hsub a (by simp)).2
    · rw [hsame j (.inr hj)]
      exact (hsub j (by simp [hj])).2
  · intro j hj hjS
    grind
  · intro j hjS hjl hjk
    refine hc j ?_ ?_ ?_ <;> grind
  · intro j
    rw [hch]
    grind

/-- A value with a predecessor is taken out of its chain. -/
theorem unlink (hch : ch k = l1 ++ p :: a :: l2) :
    ∃ ch', Table (update c p ⟨(c a).next, (c p).val⟩) M (S.erase a) ch' := by
  obtain ⟨hl1, -, ha, hl2, hnodup⟩ := ht.around hch
  have hsub := fun j => ((ht.isChain hch).mem j).1
  refine ⟨_, ht.rechain (l := l1 ++ p :: l2) k ?_ ?_ ?_ ?_ ?_ ?_ ?_⟩
  · rw [linked_append]
    refine ⟨?_, by simp [ha], ?_⟩
    · refine (by simpa using hl1 : Linked c l1 _).congr fun j hj => ?_
      rw [update_of_ne (by grind)]
    · refine hl2.congr fun j hj => ?_
      rw [update_of_ne (by grind)]
  · grind
  · exact fun j hj => Option.some.inj (hj.symm.trans (ht.head_append hch _))
  · intro j hj
    have hval := (hsub j (by grind)).2
    by_cases hjp : j = p
    · subst hjp
      rw [update_self]
      exact hval
    · rwa [update_of_ne hjp]
  · intro j hj _
    grind
  · intro j _ hjl _
    exact update_of_ne (by grind) _ _
  · intro j
    rw [hch]
    grind

/-- The first value of a chain is taken out: the second one takes its cell. -/
theorem unlink_head (hch : ch k = k :: a :: l) :
    ∃ ch', Table (update c k (c a)) M (S.erase a) ch' := by
  obtain ⟨-, -, ha, hl, hnodup⟩ := ht.around (show ch k = [] ++ k :: a :: l from hch)
  have hsub := fun j => ((ht.isChain hch).mem j).1
  refine ⟨_, ht.rechain (l := k :: l) k ?_ ?_ (by simp) ?_ ?_ ?_ ?_⟩
  · refine ⟨by simp [ha], hl.congr fun j hj => ?_⟩
    rw [update_of_ne (by grind)]
  · grind
  · intro j hj
    by_cases hjk : j = k
    · rw [hjk, update_self]
      exact (hsub a (by simp)).2
    · rw [update_of_ne hjk]
      exact (hsub j (by grind)).2
  · intro j hj _
    grind
  · intro j _ hjl _
    exact update_of_ne (by grind) _ _
  · intro j
    rw [hch]
    grind

/-- The only value of a chain is taken out. -/
theorem unlink_single (hch : ch k = [k]) : ∃ ch', Table c M (S.erase k) ch' := by
  refine ⟨_, ht.rechain (l := []) k linked_nil nodup_nil (by simp) (by simp) (by simp)
    (fun _ _ _ _ => rfl) ?_⟩
  intro j
  rw [hch]
  simp [and_comm]

/-! ### Giving up a bucket -/

variable {n f : ℕ}

/-- A bucket whose cell is free, or taken by a value of another bucket, is given up. -/
theorem drop_bucket (hM : ∀ v, M' v = if M v = n then f else M v) (hn : n ∈ S → M (c n).val ≠ n) :
    Table c M' S ch := by
  refine ht.remap fun j hj => ?_
  rw [hM, if_neg]
  intro hMj
  obtain ⟨hnS, hMn⟩ := ht.head_of_mem hj hMj
  exact hn hnS hMn

section

variable (hfn : f ≠ n) (hM : ∀ v, M' v = if M v = n then f else M v)
include hfn hM

/-- The chain of the bucket `n` moves to the bucket `f`, whose cell is free. -/
theorem move_chain (hf : f ∉ S) (hn : n ∈ S) (hMn : M (c n).val = n) :
    ∃ ch', Table (update c f (c n)) M' (insert f (S.erase n)) ch' := by
  obtain ⟨l, hl⟩ := ht.cons_of_mem hn hMn
  have hnil : ch f = [] := ht.eq_nil fun h => absurd h hf
  have hlinked := (ht.isChain hl).linked
  obtain ⟨hnl, hnodup⟩ := nodup_cons.1 (ht.isChain hl).nodup
  have hsub := fun j => ((ht.isChain hl).mem j).1
  have hfl : f ∉ l := fun h => hf (hsub f (mem_cons_of_mem n h)).1
  have hsame : ∀ j, j ≠ f → update c f (c n) j = c j := fun j hj => update_of_ne hj _ _
  refine ⟨_, ht.merge (l := f :: l) hfn hM ?_ ?_ (by simp) ?_ ?_ ?_⟩
  · refine ⟨by rw [update_self]; exact hlinked.1, hlinked.2.congr fun j hj => ?_⟩
    rw [hsame j (ne_of_mem_of_not_mem hj hfl)]
  · exact nodup_cons.2 ⟨hfl, hnodup⟩
  · intro j hj
    rw [hM, if_pos]
    rcases mem_cons.1 hj with rfl | hj
    · rw [update_self]
      exact hMn
    · rw [hsame j (ne_of_mem_of_not_mem hj hfl)]
      exact (hsub j (mem_cons_of_mem n hj)).2
  · intro j hj _ _
    exact hsame j (ne_of_mem_of_not_mem hj hf)
  · intro j
    rw [hnil, hl]
    have := hsub j
    grind

/-- The value in the cell `n`, which moves to `e`, and those behind it up to `t` are put behind the
value in the cell `f`. -/
theorem join_chain {A B : List ℕ} (he : e ∉ S) (hA : Linked c (n :: A) t)
    (hB : Linked c B none) (hf : (c f).next = B.head?) (hlast : e :: A = l ++ [p])
    (hnodup : (f :: n :: (A ++ B)).Nodup)
    (hmem : ∀ j, j ∈ f :: n :: (A ++ B) ↔ j ∈ ch f ∨ j ∈ ch n) :
    ∃ ch', Table (update (update (update c e (c n)) p
        ⟨(c f).next, (update c e (c n) p).val⟩) f ⟨some e, (c f).val⟩) M'
      (insert e (S.erase n)) ch' := by
  have hsub : ∀ j ∈ f :: n :: (A ++ B), j ∈ S ∧ M' (c j).val = f := by
    intro j hj
    rcases (hmem j).1 hj with hj | hj
    · obtain ⟨hjS, hMj⟩ := (ht.mem f j).1 hj
      exact ⟨hjS, by rw [hM, hMj, if_neg hfn]⟩
    · obtain ⟨hjS, hMj⟩ := (ht.mem n j).1 hj
      exact ⟨hjS, by rw [hM, if_pos hMj]⟩
  have hej : ∀ j ∈ f :: n :: (A ++ B), j ≠ e := fun j hj =>
    ne_of_mem_of_not_mem (hsub j hj).1 he
  have hpf : p ≠ f := by grind
  set c1 := update c e (c n) with hc1
  set c3 := update (update c1 p ⟨(c f).next, (c1 p).val⟩) f ⟨some e, (c f).val⟩ with hc3
  have hc₁e : c1 e = c n := update_self _ _ _
  have hc₁j : ∀ j, j ≠ e → c1 j = c j := fun j hj => update_of_ne hj _ _
  have hc₃f : c3 f = ⟨some e, (c f).val⟩ := update_self _ _ _
  have hc₃p : c3 p = ⟨(c f).next, (c1 p).val⟩ := by
    rw [hc3, update_of_ne hpf, update_self]
  have hc₃j : ∀ j, j ≠ p → j ≠ f → c3 j = c1 j := by
    intro j hjp hjf
    rw [hc3, update_of_ne hjf, update_of_ne hjp]
  have hval : ∀ j, j ≠ f → (c3 j).val = (c1 j).val := by
    intro j hjf
    by_cases hjp : j = p
    · rw [hjp, hc₃p]
    · rw [hc₃j j hjp hjf]
  have hA1 : Linked c1 (l ++ [p]) t := by
    rw [← hlast]
    refine ⟨by rw [hc₁e]; exact hA.1, hA.2.congr fun j hj => ?_⟩
    rw [hc₁j j (hej j (by simp [hj]))]
  have hlnd : (l ++ [p]).Nodup := by
    grind
  refine ⟨_, ht.merge (l := f :: ((e :: A) ++ B)) hfn hM ?_ ?_ (by simp) ?_ ?_ ?_⟩
  · rw [linked_cons, linked_append]
    refine ⟨by rw [hc₃f]; rfl, ?_, hB.congr fun j hj => ?_⟩
    · rw [hlast]
      refine hA1.relink_last (by rw [hc₃p, hf, Option.or_none]) fun j hj => ?_
      rw [hc₃j j (by grind) (by grind)]
    · rw [hc₃j j (by grind) (by grind), hc₁j j (by grind)]
  · grind
  · intro j hj
    by_cases hjf : j = f
    · rw [hjf, hc₃f]
      exact (hsub f (by simp)).2
    rw [hval j hjf]
    by_cases hje : j = e
    · rw [hje, hc₁e]
      exact (hsub n (by simp)).2
    · rw [hc₁j j hje]
      exact (hsub j (by grind)).2
  · intro j hj hjf hjn
    have hje : j ≠ e := ne_of_mem_of_not_mem hj he
    rw [hc₃j j (by grind) (by grind), hc₁j j hje]
  · intro j
    rw [← not_or, ← hmem j, Finset.mem_insert, Finset.mem_erase]
    have hjS := hsub j
    grind

end

end Table

/-! ### The values -/

/-- The values in the cells `S`. -/
def vals (c : ℕ → Cell β) (S : Finset ℕ) : Multiset β := S.val.map fun j => (c j).val

theorem vals_congr (hc : ∀ j ∈ S, (c' j).val = (c j).val) : vals c' S = vals c S :=
  Multiset.map_congr rfl hc

theorem vals_insert (he : e ∉ S) : vals c (insert e S) = (c e).val ::ₘ vals c S := by
  rw [vals, Finset.insert_val_of_notMem he, Multiset.map_cons, vals]

theorem vals_add {v : β} (he : e ∉ S) (hv : (c' e).val = v)
    (hc : ∀ j ∈ S, (c' j).val = (c j).val) : vals c' (insert e S) = v ::ₘ vals c S := by
  rw [vals_insert he, hv, vals_congr hc]

theorem vals_erase (ha : a ∈ S) : vals c S = (c a).val ::ₘ vals c (S.erase a) := by
  rw [← vals_insert (Finset.notMem_erase a S), Finset.insert_erase ha]

theorem vals_displace {v : β} (ha : a ∈ S) (he : e ∉ S) (hval : (c' e).val = (c a).val)
    (hv : (c' a).val = v) (hc : ∀ j ∈ S, j ≠ a → (c' j).val = (c j).val) :
    vals c' (insert e S) = v ::ₘ vals c S := by
  rw [vals_insert he, vals_erase ha, vals_erase (c := c) ha, hval, hv, Multiset.cons_swap,
    vals_congr fun j hj => hc j (Finset.mem_of_mem_erase hj) (Finset.ne_of_mem_erase hj)]

/-- The values in the cells of a list and in the other cells. -/
theorem vals_split (hl : l.Nodup) (hsub : ∀ j ∈ l, j ∈ S) :
    vals c S = (l.map fun j => (c j).val : Multiset β) + vals c (S.filter (· ∉ l)) := by
  have hfilter : (S.filter (· ∈ l)).val = l := by
    have hset : S.filter (· ∈ l) = l.toFinset := by
      ext j
      rw [Finset.mem_filter, mem_toFinset]
      exact ⟨fun h => h.2, fun h => ⟨hsub j h, h⟩⟩
    rw [hset, toFinset_val, hl.dedup]
  rw [vals, ← Multiset.filter_add_not (· ∈ l) S.val, Multiset.map_add, ← Finset.filter_val,
    hfilter, Multiset.map_coe]
  rfl

theorem vals_relocate (ha : a ∈ S) (he : e ∉ S) (hval : (c' e).val = (c a).val)
    (hc : ∀ j ∈ S, j ≠ a → (c' j).val = (c j).val) : vals c' (insert e (S.erase a)) = vals c S := by
  rw [vals_insert (fun h => he (Finset.mem_of_mem_erase h)), vals_erase ha, hval]
  congr 1
  refine vals_congr fun j hj => ?_
  exact hc j (Finset.mem_of_mem_erase hj) (Finset.ne_of_mem_erase hj)

end Chains
