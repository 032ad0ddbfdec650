/-
**One hash index of the HEAP engine, when a row is added or removed.**

An index holds a multiset of entries, if its entries are a table of chains for the buckets of
`hp_mask`, and `hash_buckets` is the number of buckets with entries.  `hp_write_key` adds an entry,
and reports a duplicate if there is one.  `hp_delete_key` removes an entry.

Main definitions:

* `bucket`, `Index.Holds`: the bucket of an entry, and the invariant.

Main results:

* `hpWriteKey_spec`: **an entry is added**, and when a duplicate is reported;
* `hpDeleteKey_spec`: **an entry is removed**;
* `searchAll_spec`: **a search finds every row with the key once**.
-/

import MariaDb.HeapHash

set_option autoImplicit false

namespace HeapHash

open Chains ChainArray ChainShrink Function List LinearMask Cells Nat
open Option (bind_some map_some getD_some)

variable {V K : Type*}

/-! ### Buckets -/

/-- The bucket of an entry in an index of the length `b` with `n` entries. -/
def bucket (b n : ℕ) (v : HashInfo) : ℕ := hpMask v.hashOfKey b n

variable {b n e : ℕ} {a : Cells HashInfo} {ch : ℕ → List ℕ}

theorem hash_lt (v : HashInfo) : v.hash < 2 ^ 64 := v.hashOfKey.toNat_lt

theorem bucket_oldLength (hl : Fits b n) (v : HashInfo) :
    bucket (oldLength b n) (n + 1) v = bucket b (n + 1) v := mask_grow (hash_lt v) hl

/-! ### The invariant -/

/-- The index holds the entries `E`, one in each of the first `n` positions. -/
structure Index.Holds (b n : ℕ) (ix : Index) (E : Multiset HashInfo) : Prop where
  alloc : n ≤ ix.array.size
  table : ∃ ch, Table ix.array.cell (bucket b n) (Finset.range n) ch
  entries : vals ix.array.cell (Finset.range n) = E
  buckets : ix.hashBuckets = (occupied (bucket b n) E).card

variable {b n : ℕ} {ix : Index} {E : Multiset HashInfo}

theorem Index.Holds.empty (a : Cells HashInfo) : Index.Holds 1 0 ⟨a, 0⟩ 0 where
  alloc := zero_le _
  table := ⟨fun _ => [], fun _ => linked_nil, fun _ => nodup_nil, by simp, by simp⟩
  entries := rfl
  buckets := rfl

theorem Index.Holds.congr {b' : ℕ} (h : ix.Holds b n E) (hb : ∀ v, bucket b' n v = bucket b n v) :
    ix.Holds b' n E where
  alloc := h.alloc
  table := by
    obtain ⟨ch, ht⟩ := h.table
    exact ⟨ch, ht.remap fun j _ => hb _⟩
  entries := h.entries
  buckets := by rw [h.buckets, occupied_congr fun v _ => hb v]

/-! ### Adding an entry -/

section Place

variable {kd : KeyDef V K} {rows : ℕ → Option V} {record : V} {recpos i : ℕ}

/-- The entries refer to rows, and have their hash values. -/
def Refers (kd : KeyDef V K) (rows : ℕ → Option V) (E : Multiset HashInfo) : Prop :=
  ∀ x ∈ E, ∃ v, rows x.ptrToRec = some v ∧ x.hashOfKey = kd.recHashnr v

/-- There is an entry of a row with the same key. -/
def Duplicate (kd : KeyDef V K) (rows : ℕ → Option V) (E : Multiset HashInfo) (record : V) : Prop :=
  ∃ x ∈ E, ∃ v, rows x.ptrToRec = some v ∧ kd.recKeyCmp record v = false

theorem sameKey_eq {x : HashInfo} {v : V} (hrow : rows x.ptrToRec = some v)
    (hhash : x.hashOfKey = kd.recHashnr v) :
    sameKey kd rows record x = some (!kd.recKeyCmp record v) := by
  rw [sameKey, hrow, map_some]
  split
  case isTrue => rfl
  case isFalse hne =>
    cases hcmp : kd.recKeyCmp record v with
    | true => rfl
    | false => exact absurd (hhash.trans (kd.hash_eq _ _ hcmp).symm) hne

theorem Duplicate.occupied (hdup : Duplicate kd rows E record) (hrefers : Refers kd rows E)
    (hv : bucket b n ⟨recpos, kd.recHashnr record⟩ = i) : i ∈ occupied (bucket b n) E := by
  obtain ⟨x, hx, v, hrow, hcmp⟩ := hdup
  obtain ⟨w, hrow', hhash⟩ := hrefers x hx
  obtain rfl : v = w := Option.some.inj (hrow.symm.trans hrow')
  refine mem_occupied.2 ⟨x, hx, ?_⟩
  rw [← hv, bucket, bucket, hhash, kd.hash_eq _ _ hcmp]

/-- The loop for duplicates, along the chain behind the new entry. -/
theorem nextCell_sameKey {c : ℕ → Cell HashInfo} (c' : ℕ → Cell HashInfo) {S : Finset ℕ} {N : ℕ}
    (ht : Table c (bucket b n) S ch) (hi : i ∈ S) (hhead : bucket b n (c i).val = i) (he : e ∉ S)
    (hv : bucket b n ⟨recpos, kd.recHashnr record⟩ = i) (hrefers : Refers kd rows (vals c S))
    (heN : e < N) (hN : ∀ j ∈ S, j < N) (hce : c' e = c i) (hcj : ∀ j, j ≠ i → j ≠ e → c' j = c j) :
    ∃ found, nextCell (sameKey kd rows record) ⟨N, c'⟩ (N + 1) (some e) = some found ∧
      (found.isSome = true ↔ Duplicate kd rows (vals c S) record) := by
  obtain ⟨l, hl⟩ := ht.cons_of_mem hi hhead
  have hchain := ht.isChain hl
  have hlinked := hchain.linked
  have hnodup := hchain.nodup
  have hlS : ∀ j ∈ l, j ∈ S ∧ c' j = c j := by
    intro j hj
    have hjS := ((hchain.mem j).1 (mem_cons_of_mem i hj)).1
    exact ⟨hjS, hcj j (by grind) (ne_of_mem_of_not_mem hjS he)⟩
  have hlinked' : Linked c' (e :: l) none := by
    refine ⟨by rw [hce]; exact hlinked.1, hlinked.2.congr fun j hj => ?_⟩
    rw [(hlS j hj).2]
  -- the entries of the chain are those of the bucket
  have hval : ∀ j ∈ e :: l, (c' j).val ∈ vals c S := by
    intro j hj
    rcases mem_cons.1 hj with rfl | hj
    · rw [hce]
      exact Multiset.mem_map_of_mem _ hi
    · rw [(hlS j hj).2]
      exact Multiset.mem_map_of_mem _ (hlS j hj).1
  have hlen := length_le_of_nodup hnodup fun j hj => hN j ((hchain.mem j).1 hj).1
  have htest : ∀ j ∈ e :: l, ∃ v, rows (c' j).val.ptrToRec = some v ∧
      sameKey kd rows record (c' j).val = some (!kd.recKeyCmp record v) := by
    intro j hj
    obtain ⟨v, hrow, hhash⟩ := hrefers _ (hval j hj)
    exact ⟨v, hrow, sameKey_eq hrow hhash⟩
  have hspec := nextCell_spec (a := ⟨N, c'⟩) (t := sameKey kd rows record)
    (b := fun j => (sameKey kd rows record (c' j).val).getD false) hlinked' (fun j hj => by
      rcases mem_cons.1 hj with rfl | hj
      · exact heN
      · exact hN j (hlS j hj).1) (fun j hj => by
      obtain ⟨v, -, hsame⟩ := htest j hj
      simp only [hsame, getD_some]) (lt_succ_of_le hlen)
  refine ⟨_, hspec, ?_⟩
  rw [find?_isSome]
  constructor
  · rintro ⟨j, hj, hfound⟩
    obtain ⟨v, hrow, hsame⟩ := htest j hj
    rw [hsame, getD_some, Bool.not_eq_true'] at hfound
    exact ⟨_, hval j hj, v, hrow, hfound⟩
  rintro ⟨x, hx, v, hrow, hcmp⟩
  obtain ⟨j, hj, rfl⟩ := Multiset.mem_map.1 hx
  obtain ⟨w, hrow', hhash⟩ := hrefers _ hx
  obtain rfl : v = w := Option.some.inj (hrow.symm.trans hrow')
  have hbucket : bucket b n (c j).val = i := by
    rw [← hv, bucket, bucket, hhash, kd.hash_eq _ _ hcmp]
  rcases mem_cons.1 ((hchain.mem j).2 ⟨hj, hbucket⟩) with rfl | hjl
  · refine ⟨e, mem_cons_self, ?_⟩
    rw [hce, sameKey_eq hrow hhash, hcmp]
    rfl
  · refine ⟨j, mem_cons_of_mem e hjl, ?_⟩
    rw [(hlS j hjl).2, sameKey_eq hrow hhash, hcmp]
    rfl

/-- **The second part**: the entry is put into the index. -/
theorem placeKey_spec (record : V) (recpos hashBuckets : ℕ) (hl : Fits b n) (ha : n < a.size)
    (he : e < n + 1) (ht : Table a.cell (bucket b (n + 1)) ((Finset.range (n + 1)).erase e) ch)
    (hE : vals a.cell ((Finset.range (n + 1)).erase e) = E)
    (hbuckets : hashBuckets = (occupied (bucket b (n + 1)) E).card) (hrefers : Refers kd rows E) :
    ∃ ix' r, placeKey kd rows b n ⟨a, hashBuckets⟩ e record recpos = some (ix', r) ∧
      ix'.Holds b (n + 1) (⟨recpos, kd.recHashnr record⟩ ::ₘ E) ∧
      (r = .ok ∨ r = .foundDuppKey) ∧
      (r = .foundDuppKey ↔ kd.checks record = true ∧ Duplicate kd rows E record) := by
  set S := (Finset.range (n + 1)).erase e with hS
  set entry : HashInfo := ⟨recpos, kd.recHashnr record⟩ with hentry
  set idx := hpMask entry.hashOfKey b (n + 1) with hidx
  have hv : bucket b (n + 1) entry = idx := rfl
  have heS : e ∉ S := Finset.notMem_erase _ _
  have hins : insert e S = Finset.range (n + 1) := Finset.insert_erase (Finset.mem_range.2 he)
  have hea : e < a.size := by omega
  have hlt : idx < n + 1 := mask_lt_succ entry.hashOfKey.toNat_lt hl
  have hia : idx < a.size := by omega
  have hSa : ∀ j ∈ S, j < a.size := by
    intro j hj
    have := (mem_range_erase.1 hj).2
    omega
  -- the number of buckets, and no duplicate, when the bucket of the row has no entries
  have hnew : idx ∉ occupied (bucket b (n + 1)) E →
      hashBuckets + 1 = (occupied (bucket b (n + 1)) (entry ::ₘ E)).card ∧
      ¬ Duplicate kd rows E record := by
    intro hnot
    refine ⟨?_, fun hdup => hnot (hdup.occupied hrefers hv)⟩
    rw [occupied_cons, hv, Finset.card_insert_of_notMem hnot, hbuckets]
  by_cases hie : idx = e
  · -- the position of the bucket is the free one
    obtain ⟨htab, hvals⟩ := insert_free_spec (v := entry) ht heS (hv.trans hie)
    rw [hins] at htab hvals
    obtain ⟨hcount, hdup⟩ := hnew (by
      rw [← hE, mem_occupied_vals ht, hie]
      exact fun h => heS h.1)
    refine ⟨⟨⟨a.size, update a.cell e ⟨none, entry⟩⟩, hashBuckets + 1⟩, .ok, ?_, ?_, .inl rfl, ?_⟩
    · simp only [placeKey]
      rw [if_pos hie, ← hentry, ← hidx, hie, set_of_lt hea, map_some]
    · exact ⟨ha, htab, by rw [← hE]; exact hvals, hcount⟩
    · simp [hdup]
  have hiS : idx ∈ S := mem_range_erase.2 ⟨hie, hlt⟩
  by_cases hhead : bucket b (n + 1) (a.cell idx).val = idx
  · -- the first entry of the bucket moves behind the new one
    obtain ⟨htab, hvals⟩ := insert_first_spec (v := entry) ht hiS hhead heS hv
    rw [hins] at htab hvals
    have hocc : idx ∈ occupied (bucket b (n + 1)) E := by
      rw [← hE, mem_occupied_vals ht]
      exact ⟨hiS, hhead⟩
    set c1 := update (update a.cell e (a.cell idx)) idx ⟨some e, entry⟩ with hc1
    have hholds : Index.Holds b (n + 1) ⟨⟨a.size, c1⟩, hashBuckets⟩ (entry ::ₘ E) :=
      ⟨ha, htab, by rw [← hE]; exact hvals, by
        rw [occupied_cons, hv, Finset.insert_eq_of_mem hocc, hbuckets]⟩
    have hcall : placeKey kd rows b n ⟨a, hashBuckets⟩ e record recpos =
        if kd.checks record then
          (nextCell (sameKey kd rows record) ⟨a.size, c1⟩ (a.size + 1) (some e)).map fun found =>
            (⟨⟨a.size, c1⟩, hashBuckets⟩, if found.isSome then .foundDuppKey else .ok)
        else some (⟨⟨a.size, c1⟩, hashBuckets⟩, .ok) := by
      have hhead' : idx = hpMask (a.cell idx).val.hashOfKey b (n + 1) := hhead.symm
      simp only [placeKey]
      rw [if_neg hie, ← hentry, ← hidx, get_of_lt hia, bind_some,
        set_of_lt hea, bind_some, if_pos hhead', set_mk hia, bind_some]
    rw [hcall]
    cases hchecks : kd.checks record with
    | false => exact ⟨_, _, if_neg Bool.false_ne_true, hholds, .inl rfl, by simp⟩
    | true =>
      obtain ⟨found, hfound, hiff⟩ := nextCell_sameKey c1 ht hiS hhead heS hv
        (by rw [hE]; exact hrefers) hea hSa
        (by rw [hc1, update_of_ne (Ne.symm hie), update_self])
        (fun j hji hje => by rw [hc1, update_of_ne hji, update_of_ne hje])
      rw [hE] at hiff
      rw [if_pos rfl, hfound, map_some]
      refine ⟨_, _, rfl, hholds, ?_, ?_⟩
      · cases found <;> simp
      · rw [← hiff]
        cases found <;> simp
  · -- an entry of another bucket is moved to the free position
    have hhead' : ¬ idx = hpMask (a.cell idx).val.hashOfKey b (n + 1) := fun h => hhead h.symm
    obtain ⟨c2, hmove, hc2, htab, hvals⟩ := displace_spec a.size
      (update (update a.cell e (a.cell idx)) idx ⟨none, entry⟩) ht hiS hhead heS hSa
      (by rw [update_of_ne (Ne.symm hie), update_self])
      (fun j hji hje => by rw [update_of_ne hji, update_of_ne hje]) hv
    rw [update_self] at hc2
    rw [hins, ← hc2, update_eq_self] at htab hvals
    obtain ⟨hcount, hdup⟩ := hnew (by
      rw [← hE, mem_occupied_vals ht]
      exact fun h => hhead h.2)
    refine ⟨⟨⟨a.size, c2⟩, hashBuckets + 1⟩, .ok, ?_, ?_, .inl rfl, by simp [hdup]⟩
    · have hmove' : movelink (some idx) (some e) a.size
          ⟨a.size, update (update a.cell e (a.cell idx)) idx ⟨none, entry⟩⟩
          (hpMask (a.cell idx).val.hashOfKey b (n + 1)) = some ⟨a.size, c2⟩ := hmove
      simp only [placeKey]
      rw [if_neg hie, ← hentry, ← hidx, get_of_lt hia, bind_some,
        set_of_lt hea, bind_some, if_neg hhead', set_mk hia, bind_some,
        hmove', map_some]
    · exact ⟨ha, htab, by rw [← hE]; exact hvals, hcount⟩

/-- **`hp_write_key` adds the entry of a row**, and reports a duplicate exactly if keys of the index
must differ and there is an entry of a row with the same key.  It fails only if a new block of
entries is needed. -/
theorem hpWriteKey_spec (record : V) (recpos : ℕ) (hl : Fits b n) (hix : ix.Holds b n E)
    (hrefers : Refers kd rows E) (memory : Bool) :
    (hpWriteKey kd rows b n ix record recpos memory = some (ix, .noMem) ∧ memory = false ∧
      ¬ n < ix.array.size) ∨
    ∃ ix' r, hpWriteKey kd rows b n ix record recpos memory = some (ix', r) ∧
      ix'.Holds b (n + 1) (⟨recpos, kd.recHashnr record⟩ ::ₘ E) ∧
      (r = .ok ∨ r = .foundDuppKey) ∧
      (r = .foundDuppKey ↔ kd.checks record = true ∧ Duplicate kd rows E record) := by
  obtain ⟨ch, ht⟩ := hix.table
  cases hfree : hpFindFreeHash kd ix.array n memory with
  | none =>
    refine .inl ⟨by rw [hpWriteKey, hfree], ?_⟩
    rw [hpFindFreeHash] at hfree
    split_ifs at hfree with h1 h2
    exact ⟨h2.2, h1⟩
  | some a =>
    right
    have ha : n < a.size ∧ a.cell = ix.array.cell := by
      rw [hpFindFreeHash] at hfree
      split_ifs at hfree with h1 h2
      · cases hfree
        exact ⟨h1, rfl⟩
      · cases hfree
        exact ⟨lt_succ_self n, rfl⟩
    have hEa : vals a.cell (Finset.range n) = E := by
      rw [ha.2]
      exact hix.entries
    obtain ⟨a', e, both, hsplit, hsize, he, ⟨ch', ht'⟩, hE, hcount⟩ :=
      LinearHash.splitBucket_spec hash_lt hl (a := a) default ha.1 (by rw [ha.2]; exact ht)
    rw [hEa] at hE hcount
    have hcount : (occupied (bucket b (n + 1)) E).card = (occupied (bucket b n) E).card + _ := hcount
    obtain ⟨ix', r, hplace, hrest⟩ := placeKey_spec record recpos
      (if both then ix.hashBuckets + 1 else ix.hashBuckets) hl
      (by rw [hsize]; exact ha.1) he ht' hE (by
        rw [hcount, hix.buckets]
        cases both <;> rfl) hrefers
    refine ⟨ix', r, ?_, hrest⟩
    simp only [hpWriteKey, hfree]
    rw [hsplit, bind_some]
    exact hplace

end Place

/-! ### Removing an entry -/

/-- **`hp_delete_key` removes the entry of a row.** -/
theorem hpDeleteKey_spec {kd : KeyDef V K} (record : V) {recpos : ℕ} (hl : Fits b n)
    (hix : ix.Holds (oldLength b n) (n + 1) (⟨recpos, kd.recHashnr record⟩ ::ₘ E))
    (hother : ∀ x ∈ E, x.ptrToRec ≠ recpos) :
    ∃ ix', hpDeleteKey kd b n ix record recpos = some (some ix') ∧ ix'.Holds b n E ∧
      ix'.array.size = ix.array.size := by
  obtain ⟨ch, ht⟩ := hix.table
  set M := bucket (oldLength b n) (n + 1) with hM
  set entry : HashInfo := ⟨recpos, kd.recHashnr record⟩ with hentry
  have hsize : ∀ j ∈ Finset.range (n + 1), j < ix.array.size := fun j hj =>
    (Finset.mem_range.1 hj).trans_le hix.alloc
  -- the entry is in the chain of its bucket
  obtain ⟨j, hj, hval⟩ : ∃ j ∈ Finset.range (n + 1), (ix.array.cell j).val = entry := by
    have hmem : entry ∈ vals ix.array.cell (Finset.range (n + 1)) := by
      rw [hix.entries]
      exact Multiset.mem_cons_self _ _
    obtain ⟨j, hj, hval⟩ := Multiset.mem_map.1 hmem
    exact ⟨j, hj, hval⟩
  have hjch : j ∈ ch (M entry) := (ht.mem _ j).2 ⟨hj, by rw [hval]⟩
  obtain ⟨l, hlist⟩ := ht.cons_of_ne_nil (ne_nil_of_mem hjch)
  have hchsize : ∀ i ∈ ch (M entry), i < ix.array.size := fun i hi => hsize i (ht.subset hi)
  have hlen : (ch (M entry)).length ≤ ix.array.size := by
    have := ht.length_le (M entry)
    rw [Finset.card_range] at this
    exact this.trans hix.alloc
  -- and it is the only one of the row
  have honly : ∀ i ∈ Finset.range (n + 1), (ix.array.cell i).val.ptrToRec = recpos →
      (ix.array.cell i).val = entry := by
    intro i hi hptr
    have hmem : (ix.array.cell i).val ∈ entry ::ₘ E := by
      rw [← hix.entries]
      exact Multiset.mem_map_of_mem _ hi
    rcases Multiset.mem_cons.1 hmem with h | h
    · exact h
    · exact absurd hptr (hother _ h)
  obtain ⟨l1, i, l2, hch, hi, hprev⟩ : ∃ l1 i l2, ch (M entry) = l1 ++ i :: l2 ∧
      (ix.array.cell i).val = entry ∧
      findCell (fun v => v.ptrToRec = recpos) ix.array ix.array.size none (M entry)
        = some (some (i, l1.getLast?)) := by
    rcases findCell_spec (fun v => decide (v.ptrToRec = recpos)) (ht.linked (M entry)) hchsize hlen
      none (M entry) (by rw [hlist]; rfl) with ⟨hnone, -⟩ | ⟨l1, i, l2, hch, hi, -, hfind⟩
    · have := hnone j hjch
      rw [hval] at this
      simp [hentry] at this
    · refine ⟨l1, i, l2, hch, ?_, by rw [hfind, Option.or_none]⟩
      exact honly i (((ht.isChain hch).mem i).1 (by simp)).1 (by simpa using hi)
  have hia : i < ix.array.size := hchsize i (by rw [hch]; simp)
  obtain ⟨a, e, hunlink, hasize, heS, ⟨ch', ht'⟩, -, hvals⟩ := unlinkCell_spec ht hsize hch
  rw [hix.entries, hi] at hvals
  have hE : vals a.cell ((Finset.range (n + 1)).erase e) = E :=
    (Multiset.cons_inj_right _).1 hvals.symm
  have halloc : n < ix.array.size := hix.alloc
  obtain ⟨a', joined, hmove, ⟨hsize', htab, hvals'⟩, hcount⟩ :=
    LinearHash.moveLast_spec hash_lt hl true (show oldLength b n = _ from rfl)
      (by rw [hasize]; exact halloc) (Nat.le_of_lt_succ (Finset.mem_range.1 heS)) ht'
  rw [hE] at hvals' hcount
  have hcount : (occupied M E).card = (occupied (bucket b n) E).card + _ := hcount
  -- the bucket of the entry has no other one, or it has
  have hsingle : (if l1.getLast?.isNone && (ix.array.cell i).next.isNone then ix.hashBuckets - 1
      else ix.hashBuckets) = (occupied M E).card := by
    have hnext : (ix.array.cell i).next = l2.head? := by
      simpa using (linked_append.1 (ht.isChain hch).linked).2.1
    have hrest := mem_occupied_rest ht hix.entries
    rw [hch] at hrest
    rw [hix.buckets, occupied_cons, hnext]
    by_cases hone : l1 = [] ∧ l2 = []
    · obtain ⟨rfl, rfl⟩ := hone
      rw [Finset.card_insert_of_notMem (by rw [hrest]; simp)]
      exact (if_pos rfl).trans (Nat.add_sub_cancel _ 1)
    rw [Finset.insert_eq_of_mem (hrest.2 ?_), if_neg]
    · simpa using hone
    simp only [← length_eq_zero_iff] at hone
    simp only [length_append, length_cons]
    omega
  refine ⟨⟨a', if joined then (occupied M E).card - 1 else (occupied M E).card⟩, ?_, ?_,
    hsize'.trans hasize⟩
  · simp only [hpDeleteKey]
    rw [show hpMask (kd.recHashnr record) (oldLength b n) (n + 1) = M entry from rfl, hprev,
      bind_some]
    simp only []
    rw [get_of_lt hia, bind_some, hunlink, bind_some]
    rw [hmove, map_some, hsingle]
  · refine ⟨?_, htab, hvals', ?_⟩
    · rw [hsize', hasize]
      exact halloc.le
    · rw [hcount]
      cases joined <;> simp

/-! ### The search -/

section Search

variable {s : Share V K} {kd : KeyDef V K} {ch : ℕ → List ℕ} {k : K}

theorem Refers.bucket_eq (hrefers : Refers kd s.rows E) {x : HashInfo} (hx : x ∈ E) {v : V}
    (hrow : s.rows x.ptrToRec = some v) (hcmp : kd.keyCmp v k = false) :
    bucket b n x = hpMask (kd.hashnr k) b n := by
  obtain ⟨w, hrow', hhash⟩ := hrefers x hx
  obtain rfl : v = w := Option.some.inj (hrow.symm.trans hrow')
  rw [bucket, hhash, kd.search_eq v k hcmp]

/-- The entries that a search finds are those of the chain of the key that pass the test. -/
theorem searchAll_eq (hl : Fits s.blength s.records) (hne : s.records ≠ 0)
    (hix : ix.Holds s.blength s.records E)
    (ht : Table ix.array.cell (bucket s.blength s.records) (Finset.range s.records) ch)
    (hrefers : Refers kd s.rows E) :
    searchAll s kd ix.array k = some (((ch (hpMask (kd.hashnr k) s.blength s.records)).filter
      fun j => (hasKey kd s.rows k (ix.array.cell j).val).getD false).map
        fun j => (ix.array.cell j).val.ptrToRec) := by
  set i := hpMask (kd.hashnr k) s.blength s.records with hi
  have hin : i < s.records := mask_lt (kd.hashnr k).toNat_lt hl hne
  have hia : i < ix.array.size := hin.trans_le hix.alloc
  by_cases hhead : bucket s.blength s.records (ix.array.cell i).val = i
  · obtain ⟨l, hlist⟩ := ht.cons_of_mem (Finset.mem_range.2 hin) hhead
    have hlinked := ht.linked i
    have hsize : ∀ j ∈ ch i, j < ix.array.size := fun j hj =>
      (Finset.mem_range.1 (ht.subset hj)).trans_le hix.alloc
    have hlen : (ch i).length ≤ ix.array.size :=
      ((ht.length_le i).trans_eq (Finset.card_range _)).trans hix.alloc
    have htest : ∀ j ∈ ch i, hasKey kd s.rows k (ix.array.cell j).val
        = some ((hasKey kd s.rows k (ix.array.cell j).val).getD false) := by
      intro j hj
      obtain ⟨v, hrow, -⟩ := hrefers (ix.array.cell j).val (by
        rw [← hix.entries]
        exact Multiset.mem_map_of_mem _ (ht.subset hj))
      rw [hasKey, hrow]
      rfl
    have hstart : (ch i).head? = some i := by rw [hlist]; rfl
    have hfirst := nextCell_spec hlinked hsize htest (Nat.lt_succ_of_le hlen)
    rw [hstart] at hfirst
    rw [searchAll, hpSearch, if_neg hne]
    simp only []
    have hmask : ¬ i ≠ hpMask (ix.array.cell i).val.hashOfKey s.blength s.records :=
      not_not.2 hhead.symm
    rw [get_of_lt hia, bind_some, ← hi, if_neg hmask, hfirst, bind_some,
      cellsFrom_spec hlinked hsize htest (by omega) (by omega), map_some]
  · -- the entry in the position of the bucket is one of another bucket
    rw [ht.eq_nil fun _ => hhead, searchAll, hpSearch, if_neg hne]
    simp only []
    have hmask : i ≠ hpMask (ix.array.cell i).val.hashOfKey s.blength s.records :=
      Ne.symm hhead
    rw [get_of_lt hia, bind_some, ← hi, if_pos hmask, bind_some, cellsFrom_none]
    rfl

/-- **A search finds every row with the key once.** -/
theorem searchAll_spec (hl : Fits s.blength s.records) (hix : ix.Holds s.blength s.records E)
    (hrefers : Refers kd s.rows E) (hnodup : (E.map HashInfo.ptrToRec).Nodup) (k : K) :
    ∃ l, searchAll s kd ix.array k = some l ∧ l.Nodup ∧
      ∀ p, p ∈ l ↔ ∃ x ∈ E, x.ptrToRec = p ∧ ∃ v, s.rows p = some v ∧ kd.keyCmp v k = false := by
  by_cases hne : s.records = 0
  · have hE : E = 0 := by
      rw [← hix.entries, hne]
      rfl
    exact ⟨[], by simp [searchAll, hpSearch, hne], nodup_nil, by simp [hE]⟩
  obtain ⟨ch, ht⟩ := hix.table
  refine ⟨_, searchAll_eq hl hne hix ht hrefers, ?_, ?_⟩
  · -- no two entries are of one row
    rw [← hix.entries, vals, Multiset.map_map] at hnodup
    refine Nodup.map_on ?_ ((ht.nodup _).filter _)
    intro x hx y hy hxy
    have hxS := ht.subset (mem_filter.1 hx).1
    have hyS := ht.subset (mem_filter.1 hy).1
    exact Multiset.inj_on_of_nodup_map hnodup x hxS y hyS hxy
  intro p
  simp only [mem_map, mem_filter]
  constructor
  · rintro ⟨j, ⟨hj, hkey⟩, rfl⟩
    have hmem : (ix.array.cell j).val ∈ E := by
      rw [← hix.entries]
      exact Multiset.mem_map_of_mem _ (ht.subset hj)
    obtain ⟨v, hrow, -⟩ := hrefers _ hmem
    refine ⟨_, hmem, rfl, v, hrow, ?_⟩
    rw [hasKey, hrow] at hkey
    simpa using hkey
  · rintro ⟨x, hx, rfl, v, hrow, hcmp⟩
    have hbucket := hrefers.bucket_eq (b := s.blength) (n := s.records) hx hrow hcmp
    rw [← hix.entries] at hx
    obtain ⟨j, hj, rfl⟩ := Multiset.mem_map.1 hx
    refine ⟨j, ⟨(ht.mem _ j).2 ⟨hj, hbucket⟩, ?_⟩, rfl⟩
    rw [hasKey, hrow]
    simp [hcmp]

end Search

end HeapHash
