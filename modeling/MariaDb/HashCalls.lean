/-
**The dynamic hash of mysys is a multimap.**

Any sequence of inserts, deletes and updates keeps the links a table of chains, with exactly the
records that were inserted and not deleted.  There is one exception: `my_hash_update` does not
look whether there are any records, as `my_hash_delete` and the search do, and of a hash without
records it reads a link that does not exist.

A caller changes the key of a record only while the record is not in the hash, or for an update,
and takes the change back when the update returns an error.

Main definitions:

* `Op`, `State`, `call`, `step`: the calls, with an account of the records;
* `Allowed`: what a caller has to observe.

Main results:

* `run_hash`: **the hash is a multimap** after any allowed run.
-/

import MariaDb.HashChange
import MariaDb.HashUpdate

set_option autoImplicit false

namespace HashTable

open Chains ChainArray Function Finset Option Hash

variable {R K : Type*} {cf : Conf K} {key : R → K} {h : Hash R}

/-! ### The records -/

theorem Hash.mem_contents {r : R} :
    r ∈ h.contents ↔ ∃ j, j < h.records ∧ (h.array.cell j).val.data = r := by
  simp only [contents, vals, Multiset.mem_map, mem_val, mem_range]
  constructor
  · rintro ⟨v, ⟨j, hj, rfl⟩, rfl⟩
    exact ⟨j, hj, rfl⟩
  · rintro ⟨j, hj, rfl⟩
    exact ⟨_, ⟨j, hj, rfl⟩, rfl⟩

theorem Hash.synced_iff : h.Synced cf key ↔
    ∀ v ∈ vals h.array.cell (range h.records), v.hashNr = cf.hashFunction (key v.data) := by
  simp only [Synced, vals, Multiset.mem_map, mem_val, mem_range]
  constructor
  · rintro hs v ⟨j, hj, rfl⟩
    exact hs j hj
  · intro hs j hj
    exact hs _ ⟨j, hj, rfl⟩

/-! ### The functions -/

/-- With `HASH_UNIQUE` an insert finds a record with the key exactly if there is one. -/
theorem insert_search (hv : h.Valid) (hs : h.Synced cf key) (hcf : cf.Proper) (k : K) :
    ∃ found, (if cf.unique then myHashFirstFromHashValue cf key h (cf.hashFunction k) k
        else some none) = some found ∧
      (found.isSome = true ↔ cf.unique = true ∧ ∃ j, j < h.records ∧
        cf.same (key (h.array.cell j).val.data) k = true) := by
  cases hu : cf.unique with
  | false => exact ⟨none, rfl, by simp⟩
  | true =>
    by_cases hne : h.records = 0
    · exact ⟨none, by simp [myHashFirstFromHashValue, hne], by simp [hne]⟩
    obtain ⟨ch, ht⟩ := hv.table
    rw [if_pos rfl, myHashFirst_spec hv hne ht]
    refine ⟨_, rfl, ?_⟩
    have hlt := hv.mask_lt hne (cf.hashFunction k)
    have hmem : ∀ j, j < h.records → hasKey cf key h k j = true →
        j ∈ ch (myHashMask (cf.hashFunction k) h.blength h.records) := fun j hj hkey =>
      (ht.mem _ j).2 ⟨mem_range.2 hj, hs.bucket_eq hcf hj hkey⟩
    simp only [true_and]
    split
    case isTrue hnil =>
      have hnot : ∀ j, j < h.records → ¬ hasKey cf key h k j = true := by
        intro j hj hkey
        exact List.ne_nil_of_mem (hmem j hj hkey) hnil
      rw [if_neg (hnot _ hlt)]
      simp only [isSome_none, Bool.false_eq_true, false_iff, not_exists, not_and]
      exact hnot
    case isFalse =>
      rw [List.find?_isSome]
      constructor
      · rintro ⟨j, hj, hkey⟩
        exact ⟨j, mem_range.1 (ht.subset hj), hkey⟩
      · rintro ⟨j, hj, hkey⟩
        exact ⟨j, hmem j hj hkey, hkey⟩

/-- **`my_hash_insert`** adds the record, or returns an error and changes nothing. -/
theorem insert_call (hv : h.Valid) (hs : h.Synced cf key) (hcf : cf.Proper) (record : R)
    (memory : Bool) :
    ∃ h' err, myHashInsert cf key h record memory = some (h', err) ∧ (err = true → h' = h) ∧
      (err = true ↔ memory = false ∨ cf.unique = true ∧ ∃ j, j < h.records ∧
        cf.same (key (h.array.cell j).val.data) (key record) = true) ∧
      (err = false → h'.Valid ∧ h'.Synced cf key ∧ h'.contents = record ::ₘ h.contents) := by
  obtain ⟨found, hfound, hiff⟩ := insert_search hv hs hcf (key record)
  rw [← hiff]
  cases hf : found.isSome with
  | true => exact ⟨h, true, by simp [myHashInsert, hfound, hf], by simp, by simp, by simp⟩
  | false =>
    cases memory with
    | false => exact ⟨h, true, by simp [myHashInsert, hfound], by simp, by simp, by simp⟩
    | true =>
      obtain ⟨a, e, a', hsplit, hplace, hv', hvals⟩ :=
        insert_spec hv ⟨cf.hashFunction (key record), record⟩
      refine ⟨_, false, by simp [myHashInsert, hfound, hf, hsplit, hplace], by simp, by simp,
        fun _ => ⟨hv', ?_, ?_⟩⟩
      · rw [synced_iff] at hs ⊢
        intro v hmem
        rw [hvals, Multiset.mem_cons] at hmem
        rcases hmem with rfl | hmem
        · rfl
        · exact hs v hmem
      · rw [contents, hvals, Multiset.map_cons]
        rfl

variable [DecidableEq R]

/-- **`my_hash_delete`** takes the record out, or returns an error and changes nothing. -/
theorem delete_call (hv : h.Valid) (hs : h.Synced cf key) (record : R) :
    ∃ h' err, myHashDelete cf key h record = some (h', err) ∧ (err = true → h' = h) ∧
      (err = true ↔ record ∉ h.contents) ∧
      (err = false → h'.Valid ∧ h'.Synced cf key ∧ h.contents = record ::ₘ h'.contents) := by
  by_cases hne : h.records = 0
  · refine ⟨h, true, by simp [myHashDelete, hne], by simp, ?_, by simp⟩
    simp [mem_contents, hne]
  obtain ⟨ch, ht⟩ := hv.table
  obtain ⟨n, hn⟩ : ∃ n, h.records = n + 1 := ⟨h.records - 1, by omega⟩
  rcases findRecord_of_hash hv hne ht record (cf.hashFunction (key record))
    (fun j hj hdata => by rw [hs j hj, hdata]) with ⟨hnot, hfind⟩ | ⟨l1, j, l2, hch, hdata, hfind⟩
  · refine ⟨h, true, by simp [myHashDelete, hne, hfind], by simp, ?_, by simp⟩
    rw [mem_contents]
    simp only [true_iff, not_exists, not_and]
    exact hnot
  obtain ⟨a, e, a', hunlink, hmove, hv', hvals⟩ := delete_spec hv hn ht hch
  have hj := mem_range.1 (((ht.isChain hch).mem j).1 (by simp)).1
  refine ⟨⟨if n < h.blength / 2 then h.blength / 2 else h.blength, n,
    { a' with size := a'.size - 1 }⟩, false, ?_, by simp, ?_, fun _ => ⟨hv', ?_, ?_⟩⟩
  · have hn' : h.records - 1 = n := by omega
    simp [myHashDelete, if_neg hne, hfind, hunlink, hn', hmove]
  · simp only [Bool.false_eq_true, false_iff, not_not]
    exact mem_contents.2 ⟨j, hj, hdata⟩
  · rw [synced_iff, hvals] at hs
    rw [synced_iff]
    exact fun v hmem => hs v (Multiset.mem_cons_of_mem hmem)
  · rw [contents, hvals, Multiset.map_cons, hdata]
    rfl

omit [DecidableEq R] in
/-- The part of `my_hash_update` after the record was found: the record goes to its new chain. -/
theorem update_move (hv : h.Valid) {ch : ℕ → List ℕ}
    (ht : Table h.array.cell (bucket h.blength h.records) (range h.records) ch)
    {x : UInt32} {org j : ℕ} {l1 l2 : List ℕ} (hch : ch org = l1 ++ j :: l2) :
    ∃ a rest, ((h.array.get j).bind fun pos =>
        if org = myHashMask x h.blength h.records then
          (h.array.set j ⟨pos.next, ⟨x, pos.val.data⟩⟩).map fun a => ({ h with array := a }, false)
        else
          (unlinkCell h.array j l1.getLast?).bind fun (a, empty) =>
            (relinkRecord h a j empty (myHashMask x h.blength h.records) pos x).map fun a =>
              ({ h with array := a }, false)) = some ({ h with array := a }, false) ∧
      ({ h with array := a } : Hash R).Valid ∧
      vals h.array.cell (range h.records) = (h.array.cell j).val ::ₘ rest ∧
      vals a.cell (range h.records) = ⟨x, (h.array.cell j).val.data⟩ ::ₘ rest := by
  obtain ⟨hjS, hMj⟩ := ((ht.isChain hch).mem j).1 (by simp)
  have hj : j < h.array.size := by rw [hv.size]; exact mem_range.1 hjS
  have hsize : ∀ i ∈ range h.records, i < h.array.size := by
    intro i hi
    rw [hv.size]
    exact mem_range.1 hi
  rw [Cells.get_of_lt hj, bind_some]
  by_cases horg : org = myHashMask x h.blength h.records
  · -- the chain stays, only the hash value is new
    set c' := update h.array.cell j ⟨(h.array.cell j).next, ⟨x, (h.array.cell j).val.data⟩⟩ with hc'
    have hother : ∀ i, i ≠ j → c' i = h.array.cell i := fun i hi => update_of_ne hi _ _
    have hself : c' j = ⟨(h.array.cell j).next, ⟨x, (h.array.cell j).val.data⟩⟩ :=
      update_self _ _ _
    refine ⟨⟨h.array.size, c'⟩, vals h.array.cell ((range h.records).erase j), ?_,
      ⟨hv.toFits, hv.size, ch, ?_⟩, vals_erase hjS, ?_⟩
    · rw [if_pos horg, Cells.set_of_lt hj, map_some]
    · show Table c' _ _ ch
      refine ht.congr (fun i _ => ?_) fun i _ => ?_
      · by_cases hi : i = j
        · rw [hi, hself]
        · rw [hother i hi]
      · by_cases hi : i = j
        · rw [hi, hself, hMj]
          exact horg.symm
        · rw [hother i hi]
    · show vals c' _ = _
      rw [vals_erase hjS, hself, vals_congr fun i hi => by rw [hother i (ne_of_mem_erase hi)]]
  · obtain ⟨a, e, hunlink, hasize, he, ⟨ch1, ht1⟩, hdata, hvals⟩ := unlinkCell_spec ht hsize hch
    have hne : h.records ≠ 0 := by
      have := mem_range.1 hjS
      omega
    have hins := insert_erase he
    have hsize1 : ∀ i ∈ insert e ((range h.records).erase e), i < a.size := by
      rw [hins, hasize]
      exact hsize
    have hdata' : e = j → (a.cell e).val.data = (h.array.cell j).val.data := by
      intro hej
      rw [hej, hdata hej]
    obtain ⟨a', hrelink, hasize', ht', hvals'⟩ := relinkRecord_spec hsize1
      (notMem_erase e _) ht1 hdata'
      (by rw [hins]; exact mem_range.2 (hv.mask_lt hne x))
    rw [hins] at ht' hvals'
    refine ⟨a', _, ?_, ⟨hv.toFits, ?_, ht'⟩, hvals, hvals'⟩
    · rw [if_neg horg, hunlink, bind_some]
      simp [hrelink]
    · rw [hasize', hasize, hv.size]

/-- **`my_hash_update`**, in a hash with records, moves the record to the chain of its new key, or
returns an error and changes nothing. -/
theorem update_call (hv : h.Valid) (hs : h.Synced cf key) (hcf : cf.Proper)
    (hne : h.records ≠ 0) {record : R} (hcount : h.contents.count record ≤ 1) (k : K) :
    ∃ h' err, myHashUpdate cf (update key record k) h record (key record) = some (h', err) ∧
      (err = true → h' = h) ∧
      (err = true ↔ record ∉ h.contents ∨ cf.unique = true ∧ ∃ j, j < h.records ∧
        (h.array.cell j).val.data ≠ record ∧
        cf.same (key (h.array.cell j).val.data) k = true) ∧
      (err = false → h'.Valid ∧ h'.Synced cf (update key record k) ∧ h'.contents = h.contents) := by
  have hkey : update key record k record = k := update_self _ _ _
  have hdup : ∃ dup, (if cf.unique then
      (myHashFirstFromHashValue cf (update key record k) h (cf.hashFunction k) k).bind
        (duplicateLoop cf (update key record k) h record k (h.array.size + 1))
      else some false) = some dup ∧
      (dup = true ↔ cf.unique = true ∧ ∃ j, j < h.records ∧ (h.array.cell j).val.data ≠ record ∧
        cf.same (key (h.array.cell j).val.data) k = true) := by
    cases cf.unique with
    | false => exact ⟨false, rfl, by simp⟩
    | true =>
      have hs' : ∀ j, j < h.records → (h.array.cell j).val.data ≠ record →
          (h.array.cell j).val.hashNr =
            cf.hashFunction (update key record k (h.array.cell j).val.data) :=
        fun j hj hdata => by rw [update_of_ne hdata, hs j hj]
      obtain ⟨dup, hres, hiff⟩ := duplicate_spec hv hne hcf record k hs'
      refine ⟨dup, by rw [if_pos rfl, hres], hiff.trans ?_⟩
      simp only [true_and]
      refine exists_congr fun j => and_congr_right fun _ => and_congr_right fun hdata => ?_
      rw [update_of_ne hdata]
  obtain ⟨dup, hdup, hiff⟩ := hdup
  rw [← hiff]
  simp only [myHashUpdate, hkey]
  rw [hdup, bind_some]
  cases dup with
  | true => exact ⟨h, true, rfl, by simp, by simp, by simp⟩
  | false =>
    obtain ⟨ch, ht⟩ := hv.table
    simp only [Bool.false_eq_true, if_false]
    rcases findRecord_of_hash hv hne ht record (cf.hashFunction (key record))
      (fun j hj hdata => by rw [hs j hj, hdata])
      with ⟨hnot, hfind⟩ | ⟨l1, j, l2, hch, hdata, hfind⟩
    · refine ⟨h, true, by rw [hfind, bind_some], by simp, ?_, by simp⟩
      simp only [or_false, true_iff]
      rw [mem_contents]
      simp only [not_exists, not_and]
      exact hnot
    obtain ⟨a, rest, hmove, hv', hvals, hvals'⟩ :=
      update_move hv ht (x := cf.hashFunction k) hch
    have hj := mem_range.1 (((ht.isChain hch).mem j).1 (by simp)).1
    have hcontents : h.contents = record ::ₘ rest.map Entry.data := by
      rw [contents, hvals, Multiset.map_cons, hdata]
    refine ⟨{ h with array := a }, false, by rw [hfind, bind_some]; exact hmove,
      by simp, ?_, fun _ => ⟨hv', ?_, ?_⟩⟩
    · simp only [Bool.false_eq_true, or_false, false_iff, not_not]
      exact mem_contents.2 ⟨j, hj, hdata⟩
    · -- the other links have other records, whose keys are as before
      have hrest : record ∉ rest.map Entry.data := by
        rw [hcontents, Multiset.count_cons_self] at hcount
        exact Multiset.count_eq_zero.1 (by omega)
      rw [synced_iff, hvals] at hs
      rw [synced_iff]
      rw [hvals']
      intro v hmem
      rcases Multiset.mem_cons.1 hmem with rfl | hmem
      · rw [hdata, hkey]
      have hvr : v.data ≠ record := fun hvr =>
        hrest (hvr ▸ Multiset.mem_map_of_mem Entry.data hmem)
      rw [update_of_ne hvr]
      exact hs v (Multiset.mem_cons_of_mem hmem)
    · rw [hcontents]
      show (vals a.cell (range h.records)).map Entry.data = _
      rw [hvals', Multiset.map_cons, hdata]

/-! ### Runs of calls -/

inductive Op (R K : Type*) where
  /-- `my_hash_insert`; `memory` says whether the array could grow -/
  | insert (record : R) (memory : Bool)
  /-- `my_hash_delete` -/
  | delete (record : R)
  /-- the key of the record is changed, then `my_hash_update` -/
  | update (record : R) (k : K)
  /-- the key of a record outside of the hash is changed -/
  | setKey (record : R) (k : K)

/-- A hash with the keys of the records, and the account of its records. -/
structure State (R K : Type*) where
  hash : Hash R
  key : R → K
  /-- what `my_hash_insert` has added -/
  inserted : Multiset R
  /-- what `my_hash_delete` has taken out -/
  deleted : Multiset R

def call (cf : Conf K) (s : State R K) : Op R K → Option (Hash R × Bool)
  | .insert record memory => myHashInsert cf s.key s.hash record memory
  | .delete record => myHashDelete cf s.key s.hash record
  | .update record k => myHashUpdate cf (update s.key record k) s.hash record (s.key record)
  | .setKey _ _ => some (s.hash, false)

/-- The state after a call that has returned 0. -/
def account (s : State R K) (hash : Hash R) : Op R K → State R K
  | .insert record _ => { s with hash, inserted := record ::ₘ s.inserted }
  | .delete record => { s with hash, deleted := record ::ₘ s.deleted }
  | .update record k => { s with hash, key := update s.key record k }
  | .setKey record k => { s with hash, key := update s.key record k }

def step (cf : Conf K) (s : State R K) (op : Op R K) : Option (State R K) :=
  (call cf s op).map fun (hash, err) => if err then { s with hash } else account s hash op

def run (cf : Conf K) (s : State R K) : List (Op R K) → Option (State R K)
  | [] => some s
  | op :: ops => (step cf s op).bind fun s' => run cf s' ops

/-- What a caller has to observe: no update of a hash without records or of a record that is in the
hash twice, and no other change of the key of a record in the hash. -/
def Allowed (h : Hash R) : Op R K → Prop
  | .insert _ _ => True
  | .delete _ => True
  | .update record _ => h.records ≠ 0 ∧ h.contents.count record ≤ 1
  | .setKey record _ => record ∉ h.contents

instance (h : Hash R) (op : Op R K) : Decidable (Allowed h op) := by
  cases op <;> unfold Allowed <;> infer_instance

/-- Every call of a run is allowed when it is made. -/
def AllowedRun (cf : Conf K) (s : State R K) : List (Op R K) → Prop
  | [] => True
  | op :: ops => Allowed s.hash op ∧ ∀ s' ∈ step cf s op, AllowedRun cf s' ops

instance decidableAllowedRun (cf : Conf K) :
    (ops : List (Op R K)) → (s : State R K) → Decidable (AllowedRun cf s ops)
  | [], _ => isTrue trivial
  | op :: ops, s =>
    have (s' : State R K) : Decidable (AllowedRun cf s' ops) := decidableAllowedRun cf ops s'
    inferInstanceAs (Decidable (Allowed s.hash op ∧ ∀ s' ∈ step cf s op, AllowedRun cf s' ops))

/-- A hash after `my_hash_init`, with an empty account. -/
def start (link : ℕ → HashLink R) (key : R → K) : State R K := ⟨myHashInit link, key, 0, 0⟩

/-- A valid hash of the records that went in and did not go out. -/
structure Inv (cf : Conf K) (s : State R K) : Prop where
  valid : s.hash.Valid
  synced : s.hash.Synced cf s.key
  account : s.hash.contents + s.deleted = s.inserted

/-- Every allowed call returns; with an error the hash is what it was. -/
theorem call_returns {s : State R K} (hs : Inv cf s) (hcf : cf.Proper) {op : Op R K}
    (hop : Allowed s.hash op) :
    ∃ h' err, call cf s op = some (h', err) ∧ (err = true → h' = s.hash) ∧
      (err = false → Inv cf (account s h' op)) := by
  cases op with
  | insert record memory =>
    obtain ⟨h', err, hcall, herr, -, hok⟩ := insert_call hs.valid hs.synced hcf record memory
    refine ⟨h', err, hcall, herr, fun he => ⟨(hok he).1, (hok he).2.1, ?_⟩⟩
    simp only [HashTable.account]
    rw [(hok he).2.2, ← hs.account, Multiset.cons_add]
  | delete record =>
    obtain ⟨h', err, hcall, herr, -, hok⟩ := delete_call hs.valid hs.synced record
    refine ⟨h', err, hcall, herr, fun he => ⟨(hok he).1, (hok he).2.1, ?_⟩⟩
    simp only [HashTable.account]
    rw [← hs.account, (hok he).2.2, Multiset.cons_add, Multiset.add_cons]
  | update record k =>
    obtain ⟨h', err, hcall, herr, -, hok⟩ :=
      update_call hs.valid hs.synced hcf hop.1 hop.2 k
    refine ⟨h', err, hcall, herr, fun he => ⟨(hok he).1, (hok he).2.1, ?_⟩⟩
    simp only [HashTable.account]
    rw [(hok he).2.2, hs.account]
  | setKey record k =>
    refine ⟨s.hash, false, rfl, fun _ => rfl, fun _ => ⟨hs.valid, ?_, hs.account⟩⟩
    intro j hj
    have hne : (s.hash.array.cell j).val.data ≠ record := fun hdata =>
      hop (mem_contents.2 ⟨j, hj, hdata⟩)
    simp only [HashTable.account]
    rw [update_of_ne hne]
    exact hs.synced j hj

theorem step_inv {s : State R K} (hs : Inv cf s) (hcf : cf.Proper) {op : Op R K}
    (hop : Allowed s.hash op) : ∃ s', step cf s op = some s' ∧ Inv cf s' := by
  obtain ⟨h', err, hcall, herr, hok⟩ := call_returns hs hcf hop
  rw [step, hcall, map_some]
  cases err with
  | true =>
    refine ⟨_, rfl, ?_⟩
    rw [herr rfl]
    exact hs
  | false => exact ⟨_, rfl, hok rfl⟩

/-- A run ends, and keeps the invariant. -/
theorem run_inv (hcf : cf.Proper) {s : State R K} (hs : Inv cf s) (ops : List (Op R K))
    (hops : AllowedRun cf s ops) : ∃ s', run cf s ops = some s' ∧ Inv cf s' := by
  induction ops generalizing s with
  | nil => exact ⟨s, rfl, hs⟩
  | cons op ops ih =>
    obtain ⟨s', hstep, hs'⟩ := step_inv hs hcf hops.1
    obtain ⟨s'', hrun, hs''⟩ := ih hs' (hops.2 s' hstep)
    exact ⟨s'', by rw [run, hstep, bind_some, hrun], hs''⟩

omit [DecidableEq R] in
theorem inv_start (link : ℕ → HashLink R) (key : R → K) : Inv cf (start link key) := by
  refine ⟨⟨LinearMask.Fits.zero, rfl, fun _ => [], ?_⟩, fun j hj => ?_, rfl⟩
  · exact ⟨fun _ => trivial, fun _ => List.nodup_nil, by simp [start, myHashInit], by simp⟩
  · exact absurd hj (Nat.not_lt_zero j)

/-- **The hash is a multimap.**  After any run of allowed calls the length is a power of two and
the number of records is between half of it and the whole, the links are a table of chains and
`my_hash_check` finds no error; the records are those inserted but for those deleted; a search finds
each record with the key once; any further allowed call that returns 1 changes nothing; and an insert
returns 1 if there is no memory, or if the keys are unique and a record with the key is there. -/
theorem run_hash (cf : Conf K) (hcf : cf.Proper) (link : ℕ → HashLink R) (key : R → K)
    (ops : List (Op R K)) (hops : AllowedRun cf (start link key) ops) :
    ∃ s, run cf (start link key) ops = some s ∧
      (∃ m, s.hash.blength = 2 ^ m) ∧ s.hash.blength / 2 ≤ s.hash.records ∧
      s.hash.records < s.hash.blength ∧
      (∃ ch, Table s.hash.array.cell (bucket s.hash.blength s.hash.records)
        (range s.hash.records) ch) ∧
      myHashCheck cf s.key s.hash = some false ∧
      s.hash.contents + s.deleted = s.inserted ∧
      (∀ k, ∃ l, searchAll cf s.key s.hash k = some l ∧ l.Nodup ∧
        ∀ j, j ∈ l ↔ j < s.hash.records ∧
          cf.same (s.key (s.hash.array.cell j).val.data) k = true) ∧
      (∀ op, Allowed s.hash op → ∃ h' err, call cf s op = some (h', err) ∧
        (err = true → h' = s.hash)) ∧
      ∀ record memory, ∃ h' err, call cf s (.insert record memory) = some (h', err) ∧
        (err = true ↔ memory = false ∨ cf.unique = true ∧ ∃ j < s.hash.records,
          cf.same (s.key (s.hash.array.cell j).val.data) (s.key record) = true) := by
  obtain ⟨s, hrun, hs⟩ := run_inv hcf (inv_start link key) ops hops
  refine ⟨s, hrun, hs.valid.pow, hs.valid.half, hs.valid.lt, hs.valid.table,
    myHashCheck_valid hs.valid hs.synced, hs.account, searchAll_spec hs.valid hs.synced hcf,
    fun op hop => ?_, fun record memory => ?_⟩
  · obtain ⟨h', err, hcall, herr, -⟩ := call_returns hs hcf hop
    exact ⟨h', err, hcall, herr⟩
  · obtain ⟨h', err, hcall, -, herr, -⟩ := insert_call hs.valid hs.synced hcf record memory
    exact ⟨h', err, hcall, herr⟩

/-- Keys are numbers and their own hash values, so that records of the same key are refused. -/
def sampleConf : Conf UInt32 := ⟨id, fun x y => x == y, true⟩

/-- Numbers that are their own keys. -/
def sampleStart : State UInt32 UInt32 := start (fun _ => ⟨none, 0, 0⟩) id

/-- Three records are inserted, one of them twice, one is deleted and another gets a new key. -/
def sampleOps : List (Op UInt32 UInt32) :=
  [.insert 1 true, .insert 3 true, .insert 1 true, .insert 5 true, .delete 3, .update 1 6]

theorem sampleConf_proper : sampleConf.Proper := by
  intro k k' hsame
  simpa [sampleConf] using hsame

theorem sampleOps_allowed : AllowedRun sampleConf sampleStart sampleOps := by decide

theorem run_hash_sampleOps :
    AllowedRun sampleConf sampleStart sampleOps ∧
      ∃ s, run sampleConf sampleStart sampleOps = some s ∧
        s.hash.contents + s.deleted = s.inserted := by
  obtain ⟨s, hrun, -, -, -, -, -, haccount, -⟩ := run_hash sampleConf sampleConf_proper
    (fun _ => ⟨none, 0, 0⟩) id sampleOps sampleOps_allowed
  exact ⟨sampleOps_allowed, s, hrun, haccount⟩

/-- Without links there is none to read, however often the walk may go on. -/
theorem findRecord_empty (link : ℕ → HashLink R) (record : R) (idx : ℕ) :
    findRecord ⟨0, link⟩ record idx = none := rfl

/-- `my_hash_update` of a hash without records reads the link with the hash value as its number,
which is not in the array. -/
theorem myHashUpdate_empty (cf : Conf K) (key : R → K) (link : ℕ → HashLink R) (record : R)
    (oldKey : K) : myHashUpdate cf key (myHashInit link) record oldKey = none := by
  cases hu : cf.unique <;>
    simp [myHashUpdate, hu, findRecord_empty, myHashFirstFromHashValue, duplicateLoop, myHashInit]

/-- **Not every call returns**: an update right after `my_hash_init` reads outside of the array, with
and without `HASH_UNIQUE`. -/
theorem update_empty_undefined :
    call sampleConf sampleStart (.update 1 6) = none ∧
      call { sampleConf with unique := false } sampleStart (.update 1 6) = none :=
  ⟨myHashUpdate_empty sampleConf (update id 1 6) (fun _ => ⟨none, 0, 0⟩) 1 1,
    myHashUpdate_empty { sampleConf with unique := false } (update id 1 6)
      (fun _ => ⟨none, 0, 0⟩) 1 1⟩

end HashTable
