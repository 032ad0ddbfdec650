/-
**The dynamic hash of mysys: insert and delete.**

An insert takes one link more into use and splits a bucket.  Then the new record is put where it
belongs; a record of another bucket that is in its way moves to the free link.  A delete takes a
record out of its chain, which frees one link, and moves the record of the last link there, since
there is one link less.

Main results:

* `insert_spec`, `delete_spec`: **one record more or less**.
-/

import MariaDb.HashSearch

set_option autoImplicit false

namespace HashTable

open Chains ChainArray Function Finset Option Cells LinearMask

variable {R K : Type*} {h : Hash R}

/-! ### The split -/

/-- **The split**: the links are a table of one more bucket, with one free link. -/
theorem splitBucket_spec (hv : h.Valid) (entry0 : Entry R) :
    ∃ a e, splitBucket h entry0 = some (a, e) ∧ a.size = h.records + 1 ∧ e ≤ h.records ∧
      (∃ ch, Table a.cell (bucket h.blength (h.records + 1)) ((range (h.records + 1)).erase e) ch) ∧
      vals a.cell ((range (h.records + 1)).erase e) = vals h.array.cell (range h.records) := by
  obtain ⟨ch, ht⟩ := hv.table
  obtain ⟨a, e, both, hsplit, hsize, he, htable, hvals, -⟩ := LinearHash.splitBucket_spec
    (fun v : Entry R => toNat_lt_two_pow v.hashNr) hv.toFits (a := ⟨h.records + 1, h.array.cell⟩)
    entry0 (Nat.lt_succ_self _) ht
  refine ⟨a, e, ?_, hsize, Nat.le_of_lt_succ he, htable, hvals⟩
  rw [splitBucket, hv.size, hsplit]
  rfl

/-! ### The new record -/

/-- **The new record** is put into a table with a free link. -/
theorem placeRecord_spec {a : Links R} {e : ℕ} {ch : ℕ → List ℕ} (entry : Entry R)
    (hv : h.Valid)
    (hsize : a.size = h.records + 1) (he : e ≤ h.records)
    (ht : Table a.cell (bucket h.blength (h.records + 1)) ((range (h.records + 1)).erase e) ch) :
    ∃ a', placeRecord h a e entry = some a' ∧ a'.size = h.records + 1 ∧
      (∃ ch', Table a'.cell (bucket h.blength (h.records + 1)) (range (h.records + 1)) ch') ∧
      vals a'.cell (range (h.records + 1))
        = entry ::ₘ vals a.cell ((range (h.records + 1)).erase e) := by
  set S := (range (h.records + 1)).erase e with hS
  set idx := myHashMask entry.hashNr h.blength (h.records + 1) with hidx
  have heS : e ∉ S := notMem_erase _ _
  have hins : insert e S = range (h.records + 1) :=
    insert_erase (mem_range.2 (by omega))
  have hbucket : bucket h.blength (h.records + 1) entry = idx := rfl
  have hlt : idx < h.records + 1 := mask_lt_succ (toNat_lt_two_pow entry.hashNr) hv.toFits
  have hea : e < a.size := by omega
  have hia : idx < a.size := by omega
  by_cases hie : idx = e
  · -- the link of the bucket is the free one
    obtain ⟨htable, hvals⟩ := insert_free_spec ht heS (hbucket.trans hie)
    rw [hins] at htable hvals
    refine ⟨⟨a.size, update a.cell e ⟨none, entry⟩⟩, ?_, hsize, htable, hvals⟩
    simp only [placeRecord, ← hidx, hie, if_true]
    exact set_of_lt hea _
  have hiS : idx ∈ S := by
    rw [hS, mem_erase, mem_range]
    exact ⟨hie, hlt⟩
  by_cases hhead : bucket h.blength (h.records + 1) (a.cell idx).val = idx
  · -- the first record of the bucket moves behind the new one
    obtain ⟨htable, hvals⟩ := insert_first_spec ht hiS hhead heS hbucket
    rw [hins] at htable hvals
    refine ⟨⟨a.size, update (update a.cell e (a.cell idx)) idx ⟨some e, entry⟩⟩, ?_, hsize, htable,
      hvals⟩
    have hhead' : idx = myHashMask (a.cell idx).val.hashNr h.blength (h.records + 1) := hhead.symm
    simp only [placeRecord, ← hidx, if_neg hie, get_of_lt hia, set_of_lt hea, bind_some]
    rw [if_pos hhead', set_mk hia]
  -- a record of another bucket is moved to the free link
  have hhead' : ¬ idx = myHashMask (a.cell idx).val.hashNr h.blength (h.records + 1) :=
    fun h' => hhead h'.symm
  obtain ⟨c2, hmove, -, htable, hvals⟩ := displace_spec a.size
    (update (update a.cell e (a.cell idx)) idx ⟨none, (a.cell idx).val⟩) ht hiS hhead heS
    (fun j hj => by
      rw [hS, mem_erase, mem_range] at hj
      omega)
    (by rw [update_of_ne (Ne.symm hie), update_self])
    (fun j hji hje => by rw [update_of_ne hji, update_of_ne hje]) hbucket
  rw [hins] at htable hvals
  refine ⟨⟨a.size, update c2 idx ⟨none, entry⟩⟩, ?_, hsize, htable, hvals⟩
  simp only [placeRecord, ← hidx, if_neg hie, get_of_lt hia, set_of_lt hea, bind_some]
  rw [if_neg hhead', set_mk hia, bind_some]
  rw [show movelink _ _ _ _ (myHashMask _ _ _) = _ from hmove, bind_some]
  exact set_mk hia _

/-! ### Insert -/

def Hash.contents (h : Hash R) : Multiset R :=
  (vals h.array.cell (range h.records)).map Entry.data

variable {cf : Conf K} {key : R → K}

/-- **`my_hash_insert`** without an error adds the record. -/
theorem insert_spec (hv : h.Valid) (entry : Entry R) :
    ∃ a e a', splitBucket h entry = some (a, e) ∧ placeRecord h a e entry = some a' ∧
      (⟨if h.records + 1 = h.blength then h.blength + h.blength else h.blength,
        h.records + 1, a'⟩ : Hash R).Valid ∧
      vals a'.cell (range (h.records + 1)) = entry ::ₘ vals h.array.cell (range h.records) := by
  obtain ⟨a, e, hsplit, hsize, he, ⟨ch, ht⟩, hvals⟩ := splitBucket_spec hv entry
  obtain ⟨a', hplace, hsize', ⟨ch', ht'⟩, hvals'⟩ := placeRecord_spec entry hv hsize he ht
  refine ⟨a, e, a', hsplit, hplace, ⟨hv.toFits.succ, hsize', ch', ht'.remap fun j _ => ?_⟩,
    by rw [hvals', hvals]⟩
  exact mask_grow (toNat_lt_two_pow _) hv.toFits

/-! ### Delete -/

/-- **`my_hash_delete`** of a record that is found takes it out of the hash. -/
theorem delete_spec {k j n : ℕ} {l1 l2 : List ℕ} {ch : ℕ → List ℕ} (hv : h.Valid)
    (hn : h.records = n + 1)
    (ht : Table h.array.cell (bucket h.blength h.records) (range h.records) ch)
    (hch : ch k = l1 ++ j :: l2) :
    let blength := if n < h.blength / 2 then h.blength / 2 else h.blength
    ∃ a e a', unlinkCell h.array j l1.getLast? = some (a, e) ∧
      moveLast ⟨blength, n, a⟩ h.blength a e = some a' ∧
      (⟨blength, n, { a' with size := a'.size - 1 }⟩ : Hash R).Valid ∧
      vals h.array.cell (range h.records) = (h.array.cell j).val ::ₘ vals a'.cell (range n) := by
  intro blength
  obtain ⟨hfits, hgrow⟩ := (hn ▸ hv.toFits : Fits h.blength (n + 1)).pred
  obtain ⟨a, e, hunlink, hsize, he, ⟨ch', ht'⟩, -, hvals⟩ := unlinkCell_spec ht
    (fun i hi => by rw [hv.size]; exact mem_range.1 hi) hch
  have he' : e ≤ n := by
    rw [hn, mem_range] at he
    omega
  rw [hn] at ht' hvals
  rw [hv.size, hn] at hsize
  obtain ⟨a', joined, hmove, ⟨hsize', ⟨ch'', ht''⟩, hvals'⟩, -⟩ := LinearHash.moveLast_spec
    (fun v : Entry R => toNat_lt_two_pow v.hashNr) hfits false hgrow.symm (by omega) he' ht'
  refine ⟨a, e, a', hunlink, congrArg (Option.map Prod.fst) hmove, ⟨hfits, ?_, ch'', ht''⟩,
    by rw [hn, hvals, hvals']⟩
  rw [hsize', hsize]
  rfl

end HashTable
