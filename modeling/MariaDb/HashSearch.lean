/-
**The dynamic hash of mysys: buckets, chains and the search.**

The invariant of the hash is that its links are a table of chains, one for each value of
`my_hash_mask`.  On a chain every walk of the source ends, and finds what it looks for.

Main definitions:

* `bucket`, `Hash.Valid`: the bucket of an entry, and the invariant.

Main results:

* `searchAll_spec`: **a search finds every record with the key once**.
-/

import MariaDb.HashTable

set_option autoImplicit false

namespace HashTable

open Chains ChainArray Function List Finset Option Cells LinearMask

variable {R K : Type*}

/-! ### Walks along a chain -/

variable {l : List ℕ} {fuel : ℕ} {cf : Conf K} {key : R → K} {h : Hash R} {k : K}

/-- The record in the link `j` has the key `k`. -/
def hasKey (cf : Conf K) (key : R → K) (h : Hash R) (k : K) (j : ℕ) : Bool :=
  cf.same (key (h.array.cell j).val.data) k

theorem myHashNext_spec {i : ℕ} (hlinked : Linked h.array.cell (i :: l) none)
    (hsize : ∀ j ∈ i :: l, j < h.array.size) (hlen : l.length ≤ h.array.size) :
    myHashNext cf key h k i = some (l.find? (hasKey cf key h k)) := by
  have hnext := hlinked.next
  rw [myHashNext, get_of_lt (hsize i (by simp)), bind_some, hnext]
  exact nextCell_spec hlinked.2 (fun j hj => hsize j (mem_cons_of_mem i hj))
    (fun j _ => rfl) (by omega)

/-! ### The invariant -/

/-- The bucket of an entry in a hash of the length `b` with `n` records. -/
def bucket (b n : ℕ) (entry : Entry R) : ℕ := myHashMask entry.hashNr b n

/-- The links are a table of chains: every record is in one chain, that of its hash value, and the
chain of a bucket starts with the link of that number. -/
structure Hash.Valid (h : Hash R) : Prop extends Fits h.blength h.records where
  size : h.array.size = h.records
  table : ∃ ch, Table h.array.cell (bucket h.blength h.records) (Finset.range h.records) ch

/-- The hash values in the links are those of the keys. -/
def Hash.Synced (cf : Conf K) (key : R → K) (h : Hash R) : Prop :=
  ∀ j, j < h.records → (h.array.cell j).val.hashNr = cf.hashFunction (key (h.array.cell j).val.data)

/-- Equal keys have equal hash values. -/
def Conf.Proper (cf : Conf K) : Prop :=
  ∀ k k', cf.same k k' = true → cf.hashFunction k = cf.hashFunction k'

theorem toNat_lt_two_pow (x : UInt32) : x.toNat < 2 ^ 64 := x.toNat_lt.trans (by norm_num)

theorem Hash.Valid.mask_lt (hv : h.Valid) (hne : h.records ≠ 0) (x : UInt32) :
    myHashMask x h.blength h.records < h.records :=
  LinearMask.mask_lt (toNat_lt_two_pow x) hv.toFits hne

theorem Hash.Valid.chain {ch : ℕ → List ℕ} (hv : h.Valid)
    (ht : Table h.array.cell (bucket h.blength h.records) (Finset.range h.records) ch) (i : ℕ) :
    (∀ j ∈ ch i, j < h.array.size) ∧ (ch i).length ≤ h.array.size := by
  rw [hv.size]
  have hlen := ht.length_le i
  rw [card_range] at hlen
  exact ⟨fun j hj => Finset.mem_range.1 (ht.subset hj), hlen⟩

/-- `my_hash_first` walks along the chain of the bucket.  If the bucket is empty, the link of its
number has a record of another bucket; that one is compared too. -/
theorem myHashFirst_spec {ch : ℕ → List ℕ} (hv : h.Valid) (hne : h.records ≠ 0)
    (ht : Table h.array.cell (bucket h.blength h.records) (Finset.range h.records) ch)
    (x : UInt32) (k : K) :
    let idx := myHashMask x h.blength h.records
    myHashFirstFromHashValue cf key h x k =
      some (if ch idx = [] then (if hasKey cf key h k idx then some idx else none)
        else (ch idx).find? (hasKey cf key h k)) := by
  intro idx
  have hidx : idx < h.records := hv.mask_lt hne x
  have hget : h.array.get idx = some (h.array.cell idx) := get_of_lt (hv.size ▸ hidx)
  rw [myHashFirstFromHashValue, if_neg hne]
  simp only []
  rw [hget, bind_some]
  by_cases hM : myHashMask (h.array.cell idx).val.hashNr h.blength h.records = idx
  · obtain ⟨l, hl⟩ := ht.cons_of_mem (Finset.mem_range.2 hidx) hM
    obtain ⟨hsize, hlen⟩ := hv.chain ht idx
    have hlinked := ht.linked idx
    rw [hl] at hlinked hsize hlen ⊢
    have hnext := hlinked.next
    rw [length_cons] at hlen
    rw [if_neg (cons_ne_nil _ _), if_neg (not_not.2 hM), hnext,
      nextCell_spec (b := hasKey cf key h k) hlinked.2
        (fun j hj => hsize j (mem_cons_of_mem idx hj)) (fun _ _ => rfl) (by omega), find?_cons]
    cases hkey : hasKey cf key h k idx <;> rw [hasKey] at hkey <;> simp [hkey, idx]
  · -- the link is taken by a record of another bucket
    rw [if_pos (ht.eq_nil fun _ => hM), if_pos hM]
    exact (apply_ite some _ _ _).symm

/-- A record with the key `k` is in the bucket of the hash value of `k`. -/
theorem Hash.Synced.bucket_eq (hs : h.Synced cf key) (hcf : cf.Proper) {j : ℕ} {k : K}
    (hj : j < h.records) (hkey : hasKey cf key h k j = true) :
    bucket h.blength h.records (h.array.cell j).val
      = myHashMask (cf.hashFunction k) h.blength h.records := by
  rw [bucket, hs j hj, hcf _ _ hkey]

/-- **A search finds every record with the key once.** -/
theorem searchAll_spec (hv : h.Valid) (hs : h.Synced cf key) (hcf : cf.Proper) (k : K) :
    ∃ l, searchAll cf key h k = some l ∧ l.Nodup ∧
      ∀ j, j ∈ l ↔ j < h.records ∧ cf.same (key (h.array.cell j).val.data) k = true := by
  by_cases hne : h.records = 0
  · refine ⟨[], ?_, nodup_nil, by simp [hne]⟩
    simp [searchAll, myHashFirst, myHashFirstFromHashValue, hne]
  obtain ⟨ch, ht⟩ := hv.table
  set idx := myHashMask (cf.hashFunction k) h.blength h.records with hidx
  refine ⟨(ch idx).filter (hasKey cf key h k), ?_, (ht.nodup idx).filter _, ?_⟩
  · rw [searchAll, myHashFirst, myHashFirst_spec hv hne ht, bind_some, ← hidx]
    by_cases hnil : ch idx = []
    · have hnot : ¬ hasKey cf key h k idx = true := by
        intro hkey
        have hlt := hv.mask_lt hne (cf.hashFunction k)
        exact ne_nil_of_mem
          ((ht.mem idx idx).2 ⟨Finset.mem_range.2 hlt, hs.bucket_eq hcf hlt hkey⟩) hnil
      rw [if_pos hnil, if_neg hnot, hnil, cellsFrom_none]
      rfl
    rw [if_neg hnil]
    obtain ⟨hsize, hlen⟩ := hv.chain ht idx
    exact cellsFrom_spec (ht.linked idx) hsize (fun _ _ => rfl) hlen hlen
  · intro j
    rw [mem_filter, ht.mem, Finset.mem_range]
    constructor
    · rintro ⟨⟨hj, -⟩, hkey⟩
      exact ⟨hj, hkey⟩
    · rintro ⟨hj, hkey⟩
      exact ⟨⟨hj, hs.bucket_eq hcf hj hkey⟩, hkey⟩

/-! ### The check -/

theorem checkLinks_spec {i found : ℕ} (hlinked : Linked h.array.cell l none)
    (hl : ∀ j ∈ l, j < h.records ∧ bucket h.blength h.records (h.array.cell j).val = i)
    (hsize : h.array.size = h.records) (hfound : found + l.length ≤ h.records)
    (hfuel : l.length < fuel) :
    checkLinks h i fuel l.head? found false = some (found + l.length, false) := by
  induction l generalizing found fuel with
  | nil =>
    obtain _ | fuel := fuel
    · simp at hfuel
    rfl
  | cons j l ih =>
    obtain _ | fuel := fuel
    · simp at hfuel
    obtain ⟨hj, hM⟩ := hl j (by simp)
    have hnext := hlinked.next
    rw [bucket] at hM
    simp only [length_cons] at hfound hfuel
    rw [head?_cons, checkLinks, if_pos (by omega), if_neg (by omega),
      get_of_lt (by omega), bind_some, if_neg (by simpa using hM), hnext,
      ih hlinked.2 (fun x hx => hl x (mem_cons_of_mem j hx)) (by omega) (by omega)]
    simp only [length_cons]
    congr 2
    omega

theorem checkLoop_spec {ch : ℕ → List ℕ} (hs : h.Synced cf key)
    (ht : Table h.array.cell (bucket h.blength h.records) (Finset.range h.records) ch)
    (hsize : h.array.size = h.records)
    (hsum : ∑ i ∈ Finset.range h.records, (ch i).length = h.records) (n : ℕ) (hn : n ≤ h.records) :
    checkLoop cf key h n (∑ i ∈ Finset.range (h.records - n), (ch i).length) false
      = some (h.records, false) := by
  induction n with
  | zero => simp [checkLoop, hsum]
  | succ n ih =>
    specialize ih (by omega)
    set i := h.records - (n + 1) with hi
    have hi' : h.records - n = i + 1 := by omega
    rw [hi', Finset.sum_range_succ] at ih
    have hlt : i < h.records := by omega
    have hle : ∑ j ∈ Finset.range i, (ch j).length + (ch i).length ≤ h.records := by
      rw [← Finset.sum_range_succ, ← hsum]
      exact sum_le_sum_of_subset (range_mono hlt)
    rw [checkLoop, ← hi]
    simp only [get_of_lt (show i < h.array.size by omega), bind_some, ne_eq,
      hs i hlt, not_true_eq_false, if_false]
    rw [← hs i hlt]
    by_cases hM : myHashMask (h.array.cell i).val.hashNr h.blength h.records = i
    · rw [if_pos hM]
      obtain ⟨l, hl⟩ := ht.cons_of_mem (Finset.mem_range.2 hlt) hM
      have hlinked := (ht.isChain hl).linked
      have hmem : ∀ j ∈ l, j < h.records ∧ bucket h.blength h.records (h.array.cell j).val = i := by
        intro j hj
        simpa using ((ht.isChain hl).mem j).1 (mem_cons_of_mem i hj)
      have hlen := ht.length_le i
      rw [hl] at hle ih hlen
      have hnext := hlinked.next
      rw [length_cons] at hle ih
      rw [hnext, checkLinks_spec hlinked.2 hmem hsize (by omega) (by omega), bind_some, ← ih]
      congr 1
      omega
    · rw [if_neg hM]
      have hnil : ch i = [] := ht.eq_nil fun _ => hM
      rw [hnil, length_nil, Nat.add_zero] at ih
      exact ih

/-- **`my_hash_check` finds no error** in a valid hash. -/
theorem myHashCheck_valid (hv : h.Valid) (hs : h.Synced cf key) :
    myHashCheck cf key h = some false := by
  obtain ⟨ch, ht⟩ := hv.table
  have hsum : ∑ i ∈ Finset.range h.records, (ch i).length = h.records := by
    by_cases hne : h.records = 0
    · simp [hne]
    · rw [ht.sum_length fun j _ => hv.mask_lt hne _, card_range]
  have hloop := checkLoop_spec hs ht hv.size hsum h.records le_rfl
  rw [Nat.sub_self, Finset.range_zero, sum_empty] at hloop
  simp [myHashCheck, hloop]

end HashTable
