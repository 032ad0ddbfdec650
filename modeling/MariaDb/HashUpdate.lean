/-
**The dynamic hash of mysys: update.**

The key of a record is changed by the caller, who then calls `my_hash_update` with the old key.
With `HASH_UNIQUE` it first looks for another record with the new key.  At that time the link of the
record itself has the old hash value with the new key, so the search may meet it in a chain where
such a key does not belong.  Then the record is taken out of its old chain, and the link that is
free then is linked into the new one.

Main results:

* `findRecord_of_hash`: the walk of delete and update finds a record exactly if it is in the hash;
* `duplicate_spec`: the search for another record with the new key;
* `relinkRecord_spec`: the record is put into its new chain.
-/

import MariaDb.HashSearch

set_option autoImplicit false

namespace HashTable

open Chains ChainArray Function List Cells
open Option (bind_some)

variable {R K : Type*} {cf : Conf K} {key : R → K} {h : Hash R} {ch : ℕ → List ℕ}

/-! ### Finding a record -/

/-- A walk from the link of a bucket goes along the chain of the bucket or, if the bucket is empty,
along the end of another chain. -/
theorem Hash.Valid.walk (hv : h.Valid)
    (ht : Table h.array.cell (bucket h.blength h.records) (Finset.range h.records) ch) {i : ℕ}
    (hi : i < h.records) :
    ∃ l, Linked h.array.cell (i :: l) none ∧ (∀ j ∈ i :: l, j < h.array.size) ∧
      (i :: l).length ≤ h.array.size ∧
      (bucket h.blength h.records (h.array.cell i).val = i → ch i = i :: l) := by
  obtain ⟨l1, l, hch⟩ := append_of_mem ((ht.mem _ i).2 ⟨Finset.mem_range.2 hi, rfl⟩)
  have hchain := ht.isChain hch
  obtain ⟨hsize, hlen⟩ := hv.chain ht (bucket h.blength h.records (h.array.cell i).val)
  rw [hch] at hsize hlen
  rw [length_append] at hlen
  refine ⟨l, (linked_append.1 hchain.linked).2, fun j hj => hsize j (mem_append_right _ hj),
    by omega, fun hM => ?_⟩
  rw [hM] at hch hchain
  -- the chain starts with the link, which is in it once
  cases l1 with
  | nil => exact hch
  | cons x l1 =>
    have hnodup := hchain.nodup
    rw [hchain.head x rfl] at hnodup
    simp at hnodup

variable [DecidableEq R]

/-- **The walk of delete and update** finds a record exactly if it is in the hash. -/
theorem findRecord_of_hash (hv : h.Valid) (hne : h.records ≠ 0)
    (ht : Table h.array.cell (bucket h.blength h.records) (Finset.range h.records) ch)
    (record : R) (x : UInt32)
    (hx : ∀ j, j < h.records → (h.array.cell j).val.data = record →
      (h.array.cell j).val.hashNr = x) :
    let idx := myHashMask x h.blength h.records
    ((∀ j, j < h.records → (h.array.cell j).val.data ≠ record) ∧
      findRecord h.array record idx = some none) ∨
    ∃ l1 j l2, ch idx = l1 ++ j :: l2 ∧ (h.array.cell j).val.data = record ∧
      findRecord h.array record idx = some (some (j, l1.getLast?)) := by
  intro idx
  have hidx : idx < h.records := hv.mask_lt hne x
  have hbucket : ∀ j, j < h.records → (h.array.cell j).val.data = record → j ∈ ch idx := by
    intro j hj hdata
    refine (ht.mem idx j).2 ⟨Finset.mem_range.2 hj, ?_⟩
    rw [bucket, hx j hj hdata]
  obtain ⟨l, hlinked, hsize, hlen, hchain⟩ := hv.walk ht hidx
  have hspec := findCell_spec (fun v => v.data = record) hlinked hsize hlen none idx rfl
  simp only [decide_eq_true_eq, decide_eq_false_iff_not] at hspec
  by_cases hM : bucket h.blength h.records (h.array.cell idx).val = idx
  · have hl := hchain hM
    rcases hspec with ⟨hnone, hres⟩ | ⟨l1, j, l2, hl', hdata, -, hres⟩
    · refine .inl ⟨fun j hj hdata => ?_, hres⟩
      exact hnone j (by rw [← hl]; exact hbucket j hj hdata) hdata
    · refine .inr ⟨l1, j, l2, by rw [hl, hl'], hdata, ?_⟩
      exact hres.trans (by rw [Option.or_none])
  -- the bucket is empty, so the record is not in the hash
  have hnil : ch idx = [] := ht.eq_nil fun _ => hM
  have hnot : ∀ j, j < h.records → (h.array.cell j).val.data ≠ record := by
    intro j hj hdata
    exact ne_nil_of_mem (hbucket j hj hdata) hnil
  rcases hspec with ⟨-, hres⟩ | ⟨l1, j, l2, hl', hdata, -⟩
  · exact .inl ⟨hnot, hres⟩
  · have hjlt := hsize j (by rw [hl']; simp)
    rw [hv.size] at hjlt
    exact absurd hdata (hnot j hjlt)

/-! ### Another record with the new key -/

/-- The loop over the records that are found along a chain. -/
theorem duplicateLoop_spec {record : R} {k : K} {fuel : ℕ} {l : List ℕ}
    (hlinked : Linked h.array.cell l none) (hsize : ∀ j ∈ l, j < h.array.size)
    (hlen : l.length ≤ h.array.size) (hfuel : l.length < fuel) :
    duplicateLoop cf key h record k fuel (l.find? (hasKey cf key h k)) =
      some (l.any fun j => hasKey cf key h k j && (h.array.cell j).val.data ≠ record) := by
  induction fuel generalizing l with
  | zero => omega
  | succ fuel ih =>
    cases hfind : l.find? (hasKey cf key h k) with
    | none =>
      rw [find?_eq_none] at hfind
      simp only [duplicateLoop, Option.some.injEq]
      symm
      rw [any_eq_false]
      intro j hj
      simp [hfind j hj]
    | some j =>
      obtain ⟨hj, l1, l2, rfl, hnot⟩ := find?_eq_some_iff_append.1 hfind
      have hfirst : (l1.any fun j =>
          hasKey cf key h k j && (h.array.cell j).val.data ≠ record) = false := by
        rw [any_eq_false]
        intro x hx
        simp_all
      have hjs : j < h.array.size := hsize j (by simp)
      have hl2 : Linked h.array.cell (j :: l2) none := (linked_append.1 hlinked).2
      rw [any_append, hfirst, Bool.false_or, any_cons, hj, Bool.true_and]
      simp only [length_append, length_cons] at hlen hfuel
      simp only [duplicateLoop, get_of_lt hjs, bind_some]
      by_cases hdata : (h.array.cell j).val.data = record
      · have hsize' : ∀ x ∈ j :: l2, x < h.array.size := fun x hx =>
          hsize x (mem_append_right _ hx)
        rw [if_neg (not_not.2 hdata), myHashNext_spec hl2 hsize' (by omega), bind_some,
          ih hl2.2 (fun x hx => hsize' x (mem_cons_of_mem j hx)) (by omega) (by omega)]
        simp [hdata]
      · simp [hdata]

/-- **The search of update** answers whether another record has the new key. -/
theorem duplicate_spec (hv : h.Valid) (hne : h.records ≠ 0) (hcf : cf.Proper) (record : R) (k : K)
    (hs : ∀ j, j < h.records → (h.array.cell j).val.data ≠ record →
      (h.array.cell j).val.hashNr = cf.hashFunction (key (h.array.cell j).val.data)) :
    ∃ dup, ((myHashFirstFromHashValue cf key h (cf.hashFunction k) k).bind
        (duplicateLoop cf key h record k (h.array.size + 1))) = some dup ∧
      (dup = true ↔ ∃ j, j < h.records ∧ (h.array.cell j).val.data ≠ record ∧
        cf.same (key (h.array.cell j).val.data) k = true) := by
  obtain ⟨ch, ht⟩ := hv.table
  set idx := myHashMask (cf.hashFunction k) h.blength h.records with hidx
  have hlt : idx < h.records := hv.mask_lt hne _
  have hbucket : ∀ j, j < h.records → (h.array.cell j).val.data ≠ record →
      hasKey cf key h k j = true → j ∈ ch idx := by
    intro j hj hdata hkey
    refine (ht.mem idx j).2 ⟨Finset.mem_range.2 hj, ?_⟩
    rw [bucket, hs j hj hdata, hcf _ _ hkey]
  obtain ⟨l, hlinked, hsize, hlen, hchain⟩ := hv.walk ht hlt
  have hloop : duplicateLoop cf key h record k (h.array.size + 1)
      ((idx :: l).find? (hasKey cf key h k)) = _ :=
    duplicateLoop_spec hlinked hsize hlen (Nat.lt_succ_of_le hlen)
  rw [myHashFirst_spec hv hne ht, bind_some, ← hidx]
  by_cases hM : bucket h.blength h.records (h.array.cell idx).val = idx
  · have hl := hchain hM
    rw [if_neg (by rw [hl]; exact cons_ne_nil _ _), hl, hloop]
    refine ⟨_, rfl, ?_⟩
    rw [any_eq_true]
    constructor
    · rintro ⟨j, hj, hboth⟩
      have hjlt := hsize j hj
      rw [hv.size] at hjlt
      simp only [Bool.and_eq_true, decide_eq_true_eq] at hboth
      exact ⟨j, hjlt, hboth.2, hboth.1⟩
    · rintro ⟨j, hj, hdata, hkey⟩
      refine ⟨j, by rw [← hl]; exact hbucket j hj hdata hkey, ?_⟩
      simp only [Bool.and_eq_true, decide_eq_true_eq]
      exact ⟨hkey, hdata⟩
  -- the bucket is empty: at most the record itself is found
  have hnil : ch idx = [] := ht.eq_nil fun _ => hM
  have hnot : ∀ j, j < h.records → (h.array.cell j).val.data ≠ record →
      ¬ hasKey cf key h k j = true := by
    intro j hj hdata hkey
    exact ne_nil_of_mem (hbucket j hj hdata hkey) hnil
  have hfalse : ((idx :: l).any fun j =>
      hasKey cf key h k j && (h.array.cell j).val.data ≠ record) = false := by
    rw [any_eq_false]
    intro j hj hboth
    have hjlt := hsize j hj
    rw [hv.size] at hjlt
    simp only [Bool.and_eq_true, decide_eq_true_eq] at hboth
    exact hnot j hjlt hboth.2 hboth.1
  refine ⟨false, ?_, ?_⟩
  · rw [if_pos hnil]
    cases hkey : hasKey cf key h k idx with
    | true =>
      rw [find?_cons_of_pos hkey, hfalse] at hloop
      exact hloop
    | false => rfl
  · simp only [Bool.false_eq_true, false_iff, not_exists, not_and]
    exact hnot

/-! ### The new chain -/

omit [DecidableEq R] in
/-- **The record is put into its new chain.**  `e` is the link that is free since the record was
taken out of the link `idx`. -/
theorem relinkRecord_spec {a : Links R} {S : Finset ℕ} {idx e : ℕ} {org : HashLink R}
    {hashNr : UInt32} (hsize : ∀ j ∈ insert e S, j < a.size) (he : e ∉ S)
    (ht : Table a.cell (bucket h.blength h.records) S ch)
    (hdata : e = idx → (a.cell e).val.data = org.val.data)
    (hnew : myHashMask hashNr h.blength h.records ∈ insert e S) :
    ∃ a', relinkRecord h a idx e (myHashMask hashNr h.blength h.records) org hashNr = some a' ∧
      a'.size = a.size ∧
      (∃ ch', Table a'.cell (bucket h.blength h.records) (insert e S) ch') ∧
      vals a'.cell (insert e S) = ⟨hashNr, org.val.data⟩ ::ₘ vals a.cell S := by
  set new := myHashMask hashNr h.blength h.records with hdef
  set v : Entry R := ⟨hashNr, org.val.data⟩ with hv
  have hbucket : bucket h.blength h.records v = new := rfl
  have hea : e < a.size := hsize e (Finset.mem_insert_self e S)
  have hna : new < a.size := hsize new hnew
  by_cases hne : new = e
  · -- the free link is that of the new bucket
    refine ⟨⟨a.size, update a.cell e ⟨none, v⟩⟩, ?_, rfl,
      insert_free_spec ht he (hbucket.trans hne)⟩
    rw [relinkRecord, if_pos hne]
    by_cases hei : e = idx
    · rw [if_neg (not_not.2 hei), bind_some, get_of_lt hea, bind_some, set_of_lt hea, hdata hei]
    · rw [if_pos hei, set_of_lt hea, bind_some, get_mk hea, bind_some,
        set_mk hea, update_self, update_idem]
  have hnS : new ∈ S := Finset.mem_of_mem_insert_of_ne hnew hne
  rw [relinkRecord, if_neg hne, get_of_lt hna, bind_some]
  by_cases hM : bucket h.blength h.records (a.cell new).val = new
  · -- behind the first record of the new bucket
    set c' := update (update a.cell e ⟨(a.cell new).next, v⟩) new ⟨some e, (a.cell new).val⟩
      with hc'
    have hcn : c' new = ⟨some e, (a.cell new).val⟩ := by rw [hc', update_self]
    have hce : c' e = ⟨(a.cell new).next, v⟩ := by
      rw [hc', update_of_ne (Ne.symm hne), update_self]
    have hcj : ∀ j, j ≠ new → j ≠ e → c' j = a.cell j := by
      intro j hjn hje
      rw [hc', update_of_ne hjn, update_of_ne hje]
    refine ⟨⟨a.size, c'⟩, ?_, rfl, ?_, ?_⟩
    · rw [if_neg (not_not.2 (show new = myHashMask _ _ _ from hM.symm)), set_of_lt hea,
        bind_some, get_mk hna, bind_some, set_mk hna, update_of_ne hne]
    · show ∃ ch', Table c' _ _ ch'
      exact ht.add_second hnS hM he (by rw [hcn]) (by rw [hce]) (by rw [hcn]; exact hM)
        (by rw [hce]; exact hbucket) hcj
    refine vals_add he (congrArg Cell.val hce) fun j hj => ?_
    show (c' j).val = _
    by_cases hjn : j = new
    · rw [hjn, hcn]
    · rw [hcj j hjn (ne_of_mem_of_not_mem hj he)]
  · -- a record of another bucket is in the way
    obtain ⟨c2, hmove, -, htable, hvals⟩ := displace_spec a.size (update a.cell e (a.cell new)) ht
      hnS hM he (fun j hj => hsize j (Finset.mem_insert_of_mem hj)) (update_self _ _ _)
      (fun j _ hje => update_of_ne hje _ _) hbucket
    refine ⟨⟨a.size, update c2 new ⟨none, v⟩⟩, ?_, rfl, htable, hvals⟩
    rw [if_pos (show new ≠ myHashMask _ _ _ from fun h' => hM h'.symm), set_of_lt hea, bind_some]
    rw [show movelink _ _ _ _ (myHashMask _ _ _) = _ from hmove, bind_some]
    exact set_mk hna _

end HashTable
