/-
**The hash indexes of the HEAP engine stay consistent.**

In every run of writes, updates and deletes, each index has one entry for each row.  A failed write
or update removes again what it has added to the indexes before the error.

Main definitions:

* `entries`, `Inv`: the entries of an index, and the invariant of a table;
* `IndexOk`: what the index of a table should be;
* `Answers`: what a call should return and do to the rows.

Main results:

* `run_consistent`: **every run**.
-/

import MariaDb.HeapHashKeys

set_option autoImplicit false

namespace HeapHash

open Chains ChainArray Function List LinearMask
open Option (bind_some map_some)

variable {V K : Type*}

/-! ### Rows and entries -/

/-- The rows in the memory of a table are `R`. -/
structure RowsOf (rows : ℕ → Option V) (R : Multiset (ℕ × V)) : Prop where
  nodup : (R.map Prod.fst).Nodup
  iff : ∀ p v, rows p = some v ↔ (p, v) ∈ R

def entry (kd : KeyDef V K) (r : ℕ × V) : HashInfo := ⟨r.1, kd.recHashnr r.2⟩

def entries (kd : KeyDef V K) (R : Multiset (ℕ × V)) : Multiset HashInfo := R.map (entry kd)

/-- No two rows have the same key, if it is one without `NULL` of an index for different keys. -/
def Unique (kd : KeyDef V K) (R : Multiset (ℕ × V)) : Prop :=
  ∀ r ∈ R, ∀ r' ∈ R, r.1 ≠ r'.1 → kd.checks r.2 = true → kd.recKeyCmp r.2 r'.2 = true

/-- Another row of `R` has the same key. -/
def Clashes (kd : KeyDef V K) (R : Multiset (ℕ × V)) (record : V) : Prop :=
  kd.checks record = true ∧ ∃ r ∈ R, kd.recKeyCmp record r.2 = false

variable {rows : ℕ → Option V} {R : Multiset (ℕ × V)} {kd : KeyDef V K} {record old new : V}
  {pos b n : ℕ}

@[simp] theorem entries_cons (r : ℕ × V) : entries kd (r ::ₘ R) = entry kd r ::ₘ entries kd R :=
  Multiset.map_cons _ _ _

theorem refers (hrows : ∀ r ∈ R, rows r.1 = some r.2) : Refers kd rows (entries kd R) := by
  intro x hx
  obtain ⟨r, hr, rfl⟩ := Multiset.mem_map.1 hx
  exact ⟨r.2, hrows r hr, rfl⟩

theorem duplicate_iff (hrows : ∀ r ∈ R, rows r.1 = some r.2) :
    Duplicate kd rows (entries kd R) record ↔ ∃ r ∈ R, kd.recKeyCmp record r.2 = false := by
  constructor
  · rintro ⟨x, hx, v, hrow, hcmp⟩
    obtain ⟨r, hr, rfl⟩ := Multiset.mem_map.1 hx
    obtain rfl : r.2 = v := Option.some.inj ((hrows r hr).symm.trans hrow)
    exact ⟨r, hr, hcmp⟩
  · rintro ⟨r, hr, hcmp⟩
    exact ⟨entry kd r, Multiset.mem_map_of_mem _ hr, r.2, hrows r hr, hcmp⟩

theorem entries_ptr (hpos : ∀ r ∈ R, r.1 ≠ pos) : ∀ x ∈ entries kd R, x.ptrToRec ≠ pos := by
  intro x hx
  obtain ⟨r, hr, rfl⟩ := Multiset.mem_map.1 hx
  exact hpos r hr

theorem entry_eq (hcmp : kd.recKeyCmp old new = false) : entry kd (pos, old) = entry kd (pos, new) := by
  rw [entry, entry, kd.hash_eq _ _ hcmp]

theorem checks_eq {v w : V} (hcmp : kd.recKeyCmp v w = false) : kd.checks v = kd.checks w := by
  rw [KeyDef.checks, KeyDef.checks, kd.null_eq _ _ hcmp]

namespace RowsOf

theorem row (h : RowsOf rows R) : ∀ r ∈ R, rows r.1 = some r.2 := fun r hr => (h.iff r.1 r.2).2 hr

theorem cons (h : RowsOf rows R) (hpos : rows pos = none) :
    RowsOf (update rows pos (some record)) ((pos, record) ::ₘ R) := by
  have hnot : ∀ v, (pos, v) ∉ R := by
    intro v hv
    rw [← h.iff, hpos] at hv
    cases hv
  constructor
  · rw [Multiset.map_cons, Multiset.nodup_cons]
    refine ⟨fun hmem => ?_, h.nodup⟩
    obtain ⟨r, hr, rfl⟩ := Multiset.mem_map.1 hmem
    exact hnot r.2 hr
  intro p v
  rw [Multiset.mem_cons, Prod.mk.injEq]
  by_cases hp : p = pos
  · subst hp
    rw [update_self, Option.some.injEq]
    constructor
    · rintro rfl
      exact .inl ⟨rfl, rfl⟩
    · rintro (⟨-, rfl⟩ | hv)
      · rfl
      · exact absurd hv (hnot v)
  · rw [update_of_ne hp, h.iff]
    simp [hp]

/-- A row and the others. -/
theorem exists_cons (h : RowsOf rows R) (hpos : rows pos = some old) :
    ∃ R', R = (pos, old) ::ₘ R' ∧ RowsOf (update rows pos none) R' ∧ ∀ r ∈ R', r.1 ≠ pos := by
  obtain ⟨R', rfl⟩ := Multiset.exists_cons_of_mem ((h.iff pos old).1 hpos)
  have hnodup := h.nodup
  rw [Multiset.map_cons, Multiset.nodup_cons] at hnodup
  have hne : ∀ r ∈ R', r.1 ≠ pos := by
    intro r hr hr1
    have hmem : r.1 ∈ R'.map Prod.fst := Multiset.mem_map_of_mem Prod.fst hr
    rw [hr1] at hmem
    exact hnodup.1 hmem
  refine ⟨R', rfl, ⟨hnodup.2, ?_⟩, hne⟩
  intro p v
  by_cases hp : p = pos
  · subst hp
    rw [update_self]
    constructor
    · intro hv
      cases hv
    · exact fun hv => absurd rfl (hne _ hv)
  · rw [update_of_ne hp, h.iff, Multiset.mem_cons, Prod.mk.injEq]
    simp [hp]

end RowsOf

/-! ### The loops over the indexes -/

/-- The indexes hold the entries of the rows `R`. -/
def AllHold (b n : ℕ) (R : Multiset (ℕ × V)) (l : List (KeyDef V K × Index)) : Prop :=
  ∀ k ∈ l, k.2.Holds b n (entries k.1 R)

theorem AllHold.cons {l : List (KeyDef V K × Index)} {k : KeyDef V K × Index}
    (hl : AllHold b n R l) (hk : k.2.Holds b n (entries k.1 R)) : AllHold b n R (k :: l) := by
  intro k' hk'
  rcases mem_cons.1 hk' with rfl | hk'
  · exact hk
  · exact hl k' hk'

theorem AllHold.append {l l' : List (KeyDef V K × Index)} (hl : AllHold b n R l)
    (hl' : AllHold b n R l') : AllHold b n R (l.reverse ++ l') := by
  intro k hk
  rcases mem_append.1 hk with hk | hk
  · exact hl k (mem_reverse.1 hk)
  · exact hl' k hk

variable {l done todo : List (KeyDef V K × Index)} {k : KeyDef V K × Index}

theorem AllHold.oldLength (hfits : Fits b n) (hl : AllHold b (n + 1) R l) :
    AllHold (oldLength b n) (n + 1) R l := fun k hk =>
  (hl k hk).congr (bucket_oldLength hfits)

/-- How a loop ends that puts `record` into the indexes: those up to the end are as in `D`, and those
behind it still as in `T`; there is an error at a duplicate, or for want of memory. -/
def LoopEnds (D T : List (KeyDef V K × Index) → Prop) (record : V) (R : Multiset (ℕ × V))
    (noMem : Prop) (done todo : List (KeyDef V K × Index))
    (res : Option (Ret × List (KeyDef V K × Index) × List (KeyDef V K × Index))) : Prop :=
  ∃ ret done' todo', res = some (ret, done', todo') ∧ D done' ∧ T todo' ∧
    (done'.reverse ++ todo').map Prod.fst = (done.reverse ++ todo).map Prod.fst ∧
    ((ret = .ok ∧ todo' = [] ∧ ∀ k ∈ todo, ¬ Clashes k.1 R record) ∨
      (ret = .foundDuppKey ∧ ∃ k ∈ todo, Clashes k.1 R record) ∨ (ret = .noMem ∧ noMem))

/-- The loop goes on after an index without a duplicate. -/
theorem LoopEnds.next {D T : List (KeyDef V K × Index) → Prop} {noMem : Prop} {ix ix' : Index}
    {res : Option (Ret × List (KeyDef V K × Index) × List (KeyDef V K × Index))}
    (h : LoopEnds D T record R noMem ((kd, ix') :: done) todo res)
    (hclash : ¬ Clashes kd R record) : LoopEnds D T record R noMem done ((kd, ix) :: todo) res := by
  obtain ⟨ret, done', todo', hres, h1, h2, h3, h4⟩ := h
  refine ⟨ret, done', todo', hres, h1, h2, by rw [h3]; simp, ?_⟩
  rcases h4 with ⟨hret, hnil, hnot⟩ | ⟨hret, k, hk, hdup⟩ | hmem
  · exact .inl ⟨hret, hnil, forall_mem_cons.2 ⟨hclash, hnot⟩⟩
  · exact .inr (.inl ⟨hret, k, mem_cons_of_mem _ hk, hdup⟩)
  · exact .inr (.inr hmem)

section Loops

variable {s : Share V K} (hfits : Fits s.blength s.records)
  (hrows : ∀ r ∈ R, s.rows r.1 = some r.2) (hpos : ∀ r ∈ R, r.1 ≠ pos)

include hfits hpos in
/-- The row is removed from all indexes. -/
theorem deleteKeys_spec
    (htodo : AllHold (oldLength s.blength s.records) (s.records + 1) ((pos, record) ::ₘ R) todo) :
    ∃ todo', deleteKeys s record pos todo = some (true, todo') ∧
      AllHold s.blength s.records R todo' ∧ todo'.map Prod.fst = todo.map Prod.fst := by
  induction todo with
  | nil => exact ⟨[], rfl, forall_mem_nil _, rfl⟩
  | cons k todo ih =>
    obtain ⟨kd, ix⟩ := k
    have hold := htodo _ mem_cons_self
    rw [entries_cons] at hold
    obtain ⟨ix', hdel, hix', -⟩ := hpDeleteKey_spec record hfits hold (entries_ptr hpos)
    obtain ⟨todo', hrest, htodo', hmap⟩ := ih fun k hk => htodo k (mem_cons_of_mem _ hk)
    refine ⟨(kd, ix') :: todo', ?_, htodo'.cons hix', by simp [hmap]⟩
    rw [deleteKeys, hdel, bind_some]
    simp [hrest]

include hfits hpos in
/-- The row is removed from the indexes in which it was written. -/
theorem unwriteKeys_spec (hdone : AllHold s.blength (s.records + 1) ((pos, record) ::ₘ R) done) :
    ∃ done', unwriteKeys s record pos done = some done' ∧ AllHold s.blength s.records R done' ∧
      done'.map Prod.fst = done.map Prod.fst := by
  have hsame : ∀ l, unwriteKeys s record pos l = (deleteKeys s record pos l).map Prod.snd := by
    intro l
    induction l with
    | nil => rfl
    | cons k l ih =>
      rw [unwriteKeys, deleteKeys, ih]
      rcases hpDeleteKey k.1 s.blength s.records k.2 record pos with _ | _ | ix <;> simp
      rfl
  obtain ⟨done', hdel, hrest⟩ := deleteKeys_spec hfits hpos (hdone.oldLength hfits)
  exact ⟨done', by rw [hsame, hdel, map_some], hrest⟩

variable (record pos) in
include hfits hrows in
/-- **The loop of `heap_write`.**  It ends with an error at the first index with a duplicate, or for
which there is no memory. -/
theorem writeKeys_spec (memory : ℕ → Bool)
    (hdone : AllHold s.blength (s.records + 1) ((pos, record) ::ₘ R) done)
    (htodo : AllHold s.blength s.records R todo) :
    LoopEnds (AllHold s.blength (s.records + 1) ((pos, record) ::ₘ R))
      (AllHold s.blength s.records R) record R (∃ i, memory i = false) done todo
      (writeKeys s record pos memory done todo) := by
  induction todo generalizing done with
  | nil => exact ⟨.ok, done, [], rfl, hdone, htodo, rfl, .inl ⟨rfl, rfl, by simp⟩⟩
  | cons k todo ih =>
    obtain ⟨kd, ix⟩ := k
    have htodo' : AllHold s.blength s.records R todo := fun k hk =>
      htodo k (mem_cons_of_mem _ hk)
    rw [writeKeys]
    rcases hpWriteKey_spec record pos hfits (htodo _ mem_cons_self)
      (refers hrows) (memory done.length) with ⟨hwrite, hmem, -⟩ | ⟨ix', r, hwrite, hix', hr, hdup⟩
    · rw [hwrite, bind_some]
      exact ⟨.noMem, done, (kd, ix) :: todo, rfl, hdone, htodo, rfl, .inr (.inr ⟨rfl, _, hmem⟩)⟩
    rw [duplicate_iff hrows] at hdup
    have hix'' : ix'.Holds s.blength (s.records + 1) (entries kd ((pos, record) ::ₘ R)) := by
      rw [entries_cons]
      exact hix'
    rw [hwrite, bind_some]
    rcases hr with rfl | rfl
    · exact (ih (hdone.cons hix'') htodo').next fun h => by simpa using hdup.2 h
    · exact ⟨.foundDuppKey, (kd, ix') :: done, todo, rfl, hdone.cons hix'', htodo', by simp,
        .inr (.inl ⟨rfl, (kd, ix), mem_cons_self, hdup.1 rfl⟩)⟩

variable (old new) in
include hfits hrows hpos in
/-- One index, when the row is changed.  No memory is needed. -/
theorem changeKey_spec {ix : Index} (memory : Bool)
    (hix : ix.Holds (oldLength s.blength s.records) (s.records + 1)
      (entries kd ((pos, old) ::ₘ R))) :
    ∃ ix' r, changeKey s pos old new memory kd ix = some (ix', r) ∧
      ix'.Holds (oldLength s.blength s.records) (s.records + 1) (entries kd ((pos, new) ::ₘ R)) ∧
      (r = .ok ∨ r = .foundDuppKey) ∧ (r = .foundDuppKey ↔ Clashes kd R new) := by
  have halloc := hix.alloc
  rw [entries_cons] at hix
  obtain ⟨ix1, hdel, hix1, hsize⟩ := hpDeleteKey_spec old hfits hix (entries_ptr hpos)
  rcases hpWriteKey_spec new pos hfits hix1 (refers hrows) memory with
    ⟨-, -, hfull⟩ | ⟨ix', r, hwrite, hix', hr, hdup⟩
  · exact absurd (by rw [hsize]; exact halloc) hfull
  rw [duplicate_iff hrows] at hdup
  refine ⟨ix', r, ?_, ?_, hr, hdup⟩
  · rw [changeKey, hdel, bind_some]
    exact hwrite
  · rw [entries_cons]
    exact hix'.congr (bucket_oldLength hfits)

variable (new) in
include hfits hrows hpos in
/-- **The loop of `heap_update`.**  It ends with an error at the first index with a duplicate. -/
theorem updateKeys_spec (memory : ℕ → Bool)
    (hunique : ∀ k ∈ todo, k.1.recKeyCmp old new = false → ¬ Clashes k.1 R new)
    (hdone : AllHold (oldLength s.blength s.records) (s.records + 1) ((pos, new) ::ₘ R) done)
    (htodo : AllHold (oldLength s.blength s.records) (s.records + 1) ((pos, old) ::ₘ R) todo) :
    LoopEnds (AllHold (oldLength s.blength s.records) (s.records + 1) ((pos, new) ::ₘ R))
      (AllHold (oldLength s.blength s.records) (s.records + 1) ((pos, old) ::ₘ R)) new R False
      done todo (updateKeys s pos old new memory done todo) := by
  induction todo generalizing done with
  | nil => exact ⟨.ok, done, [], rfl, hdone, htodo, rfl, .inl ⟨rfl, rfl, by simp⟩⟩
  | cons k todo ih =>
    obtain ⟨kd, ix⟩ := k
    have htodo' : AllHold (oldLength s.blength s.records) (s.records + 1) ((pos, old) ::ₘ R) todo :=
      fun k hk => htodo k (mem_cons_of_mem _ hk)
    have hix := htodo _ mem_cons_self
    have hunique' := fun k hk => hunique k (mem_cons_of_mem (kd, ix) hk)
    rw [updateKeys]
    by_cases hcmp : kd.recKeyCmp old new = true
    · rw [if_pos hcmp]
      obtain ⟨ix', r, hchange, hix', hr, hdup⟩ := changeKey_spec old new hfits hrows hpos
        (memory done.length) hix
      rw [hchange, bind_some]
      rcases hr with rfl | rfl
      · exact (ih hunique' (hdone.cons hix') htodo').next fun h => by simpa using hdup.2 h
      · exact ⟨.foundDuppKey, (kd, ix') :: done, todo, rfl, hdone.cons hix', htodo', by simp,
          .inr (.inl ⟨rfl, (kd, ix), mem_cons_self, hdup.1 rfl⟩)⟩
    · rw [if_neg hcmp]
      have hsame : kd.recKeyCmp old new = false := by simpa using hcmp
      refine (ih hunique' (hdone.cons ?_) htodo').next (hunique _ mem_cons_self hsame)
      rw [entries_cons] at hix ⊢
      rw [← entry_eq hsame]
      exact hix

include hfits hrows hpos in
/-- **The old row is put back.** -/
theorem undoKeys_spec (memory : ℕ → Bool) (hunique : ∀ k ∈ done, ¬ Clashes k.1 R old)
    (hdone : AllHold (oldLength s.blength s.records) (s.records + 1) ((pos, new) ::ₘ R) done) :
    ∃ done', undoKeys s pos old new memory done = some done' ∧
      AllHold (oldLength s.blength s.records) (s.records + 1) ((pos, old) ::ₘ R) done' ∧
      done'.map Prod.fst = done.map Prod.fst := by
  induction done with
  | nil => exact ⟨[], rfl, forall_mem_nil _, rfl⟩
  | cons k done ih =>
    obtain ⟨kd, ix⟩ := k
    have hix := hdone _ mem_cons_self
    obtain ⟨done', hrest, hdone', hmap⟩ := ih (fun k hk => hunique k (mem_cons_of_mem _ hk))
      fun k hk => hdone k (mem_cons_of_mem _ hk)
    rw [undoKeys]
    by_cases hcmp : kd.recKeyCmp old new = true
    · rw [if_pos hcmp]
      obtain ⟨ix', r, hchange, hix', hr, hdup⟩ := changeKey_spec new old hfits
        hrows hpos (memory done.length) hix
      rw [hchange, bind_some]
      rcases hr with rfl | rfl
      · refine ⟨(kd, ix') :: done', ?_, hdone'.cons hix', by simp [hmap]⟩
        simp [hrest]
      · exact absurd (hdup.1 rfl) (hunique _ mem_cons_self)
    · rw [if_neg hcmp]
      have hsame : kd.recKeyCmp old new = false := by simpa using hcmp
      refine ⟨(kd, ix) :: done', by rw [hrest, map_some], hdone'.cons ?_, by simp [hmap]⟩
      rw [entries_cons] at hix ⊢
      rw [entry_eq hsame]
      exact hix

end Loops

/-! ### The invariant of a table -/

/-- The table has the rows `R` and the indexes `defs`; the places in `del_link` are free. -/
structure Inv (defs : List (KeyDef V K)) (s : Share V K) (R : Multiset (ℕ × V)) : Prop where
  rows : RowsOf s.rows R
  card : Multiset.card R = s.records
  fits : Fits s.blength s.records
  keys : AllHold s.blength s.records R s.keydef
  unique : ∀ kd ∈ defs, Unique kd R
  defs : s.keydef.map Prod.fst = defs
  nodup : s.delLink.Nodup
  free : ∀ p ∈ s.delLink, s.rows p = none
  bound : ∀ p, s.rows p ≠ none ∨ p ∈ s.delLink → p < s.records + s.delLink.length

variable {defs : List (KeyDef V K)} {s : Share V K}

theorem Inv.mem_defs (h : Inv defs s R) (hk : k ∈ s.keydef) : k.1 ∈ defs := by
  rw [← h.defs]
  exact mem_map_of_mem hk

theorem heapCreate_inv (defs : List (KeyDef V K)) (recordsInBlock : ℕ) :
    Inv defs (heapCreate defs recordsInBlock) 0 where
  rows := ⟨by simp, by simp [heapCreate]⟩
  card := rfl
  fits := Fits.zero
  keys k hk := by
    obtain ⟨kd, -, rfl⟩ := mem_map.1 hk
    exact Index.Holds.empty _
  unique _ _ r hr := absurd hr (Multiset.notMem_zero r)
  defs := by
    show (defs.map _).map Prod.fst = defs
    rw [map_map]
    exact map_id defs
  nodup := nodup_nil
  free _ hp := absurd hp not_mem_nil
  bound p hp := by simp [heapCreate] at hp

/-- A row more, without a duplicate. -/
theorem Unique.cons (h : Unique kd R) (hclash : ¬ Clashes kd R record) :
    Unique kd ((pos, record) ::ₘ R) := by
  have hnew : ∀ r ∈ R, kd.checks record = true → kd.recKeyCmp record r.2 = true := by
    intro r hr hchecks
    by_contra hcmp
    exact hclash ⟨hchecks, r, hr, by simpa using hcmp⟩
  intro r hr r' hr' hne hchecks
  rcases Multiset.mem_cons.1 hr with rfl | hr
  · rcases Multiset.mem_cons.1 hr' with rfl | hr'
    · exact absurd rfl hne
    · exact hnew r' hr' hchecks
  rcases Multiset.mem_cons.1 hr' with rfl | hr'
  · -- the comparison is symmetric
    by_contra hcmp
    have hcmp' : kd.recKeyCmp r.2 record = false := by simpa using hcmp
    have := hnew r hr (by rw [← checks_eq hcmp']; exact hchecks)
    rw [kd.cmp_equiv.symm hcmp'] at this
    cases this
  · exact h r hr r' hr' hne hchecks

theorem Unique.of_cons {r : ℕ × V} (h : Unique kd (r ::ₘ R)) : Unique kd R := fun r hr r' hr' =>
  h r (Multiset.mem_cons_of_mem hr) r' (Multiset.mem_cons_of_mem hr')

theorem Unique.not_clashes (h : Unique kd ((pos, old) ::ₘ R)) (hpos : ∀ r ∈ R, r.1 ≠ pos) :
    ¬ Clashes kd R old := by
  rintro ⟨hchecks, r, hr, hcmp⟩
  have := h _ (Multiset.mem_cons_self _ _) r (Multiset.mem_cons_of_mem hr) (hpos r hr).symm hchecks
  rw [hcmp] at this
  cases this

theorem clashes_congr (hcmp : kd.recKeyCmp old new = false) : Clashes kd R old ↔ Clashes kd R new := by
  have htrans : ∀ w, kd.recKeyCmp old w = false ↔ kd.recKeyCmp new w = false := fun w =>
    ⟨fun h => kd.cmp_equiv.trans (kd.cmp_equiv.symm hcmp) h, fun h => kd.cmp_equiv.trans hcmp h⟩
  rw [Clashes, Clashes, checks_eq hcmp]
  simp only [htrans]

/-! ### One call -/

/-- Another row than that at `pos` has the same key. -/
def HasDuplicate (s : Share V K) (pos : Option ℕ) (record : V) : Prop :=
  ∃ k ∈ s.keydef, k.1.checks record = true ∧
    ∃ p v, some p ≠ pos ∧ s.rows p = some v ∧ k.1.recKeyCmp record v = false

/-- What a call returns, and does to the rows.  A write fails if there is a duplicate, if there is no
memory or the table is full; an update fails only if there is a duplicate. -/
def Answers (s : Share V K) (rows' : ℕ → Option V) (ret : Ret) : Op V → Prop
  | .write record full memory =>
    (ret = .ok ∧ ¬ HasDuplicate s none record ∧
      ∃ pos, s.rows pos = none ∧ rows' = update s.rows pos (some record)) ∨
    (ret = .foundDuppKey ∧ HasDuplicate s none record ∧ rows' = s.rows) ∨
    (ret = .noMem ∧ (∃ i, memory i = false) ∧ rows' = s.rows) ∨
    (ret = .recordFileFull ∧ full = true ∧ rows' = s.rows)
  | .update pos new _ _ =>
    (ret = .noActiveRecord ∧ s.rows pos = none ∧ rows' = s.rows) ∨
    (ret = .ok ∧ s.rows pos ≠ none ∧ ¬ HasDuplicate s (some pos) new ∧
      rows' = update s.rows pos (some new)) ∨
    (ret = .foundDuppKey ∧ s.rows pos ≠ none ∧ HasDuplicate s (some pos) new ∧ rows' = s.rows)
  | .delete pos =>
    (ret = .noActiveRecord ∧ s.rows pos = none ∧ rows' = s.rows) ∨
    (ret = .ok ∧ s.rows pos ≠ none ∧ rows' = update s.rows pos none)

theorem hasDuplicate_iff {other : Option ℕ}
    (hR : ∀ p v, (some p ≠ other ∧ s.rows p = some v) ↔ (p, v) ∈ R) :
    HasDuplicate s other record ↔ ∃ k ∈ s.keydef, Clashes k.1 R record := by
  simp only [HasDuplicate, Clashes, ← and_assoc, hR, Prod.exists]

theorem Inv.hasDuplicate_none (h : Inv defs s R) :
    HasDuplicate s none record ↔ ∃ k ∈ s.keydef, Clashes k.1 R record :=
  hasDuplicate_iff fun p v => by simp [h.rows.iff]

theorem Inv.hasDuplicate_some (h : Inv defs s ((pos, old) ::ₘ R)) (hpos : ∀ r ∈ R, r.1 ≠ pos) :
    HasDuplicate s (some pos) new ↔ ∃ k ∈ s.keydef, Clashes k.1 R new := by
  refine hasDuplicate_iff fun p v => ?_
  rw [h.rows.iff, Multiset.mem_cons, Prod.mk.injEq]
  refine ⟨fun ⟨hp, hmem⟩ => hmem.resolve_left fun heq => hp (by rw [heq.1]), fun hmem => ?_⟩
  exact ⟨by simpa using hpos _ hmem, .inr hmem⟩

/-- The place for a new row is free. -/
theorem nextFreeRecordPos_spec (h : Inv defs s R) (full memory : Bool) :
    (∃ pos rest, nextFreeRecordPos s full memory = .ok (pos, rest) ∧ s.rows pos = none ∧
      pos ∉ rest ∧ rest.Nodup ∧ (∀ p ∈ rest, p ∈ s.delLink) ∧
      (∀ p, s.rows p ≠ none ∨ p = pos ∨ p ∈ rest → p < s.records + 1 + rest.length)) ∨
    (nextFreeRecordPos s full memory = .error .recordFileFull ∧ full = true) ∨
    (nextFreeRecordPos s full memory = .error .noMem ∧ memory = false) := by
  have hbound := h.bound
  cases hdel : s.delLink with
  | cons pos rest =>
    have hnodup := h.nodup
    rw [hdel, nodup_cons] at hnodup
    rw [hdel] at hbound
    refine .inl ⟨pos, rest, by rw [nextFreeRecordPos, hdel], ?_, hnodup.1, hnodup.2,
      fun p hp => mem_cons_of_mem pos hp, ?_⟩
    · exact h.free pos (by rw [hdel]; exact mem_cons_self)
    intro p hp
    have := hbound p (by
      rcases hp with hp | rfl | hp
      · exact .inl hp
      · exact .inr mem_cons_self
      · exact .inr (mem_cons_of_mem pos hp))
    rw [length_cons] at this
    omega
  | nil =>
    rw [hdel] at hbound
    rw [nextFreeRecordPos, hdel]
    by_cases hfull : full = true
    · rw [if_pos hfull]
      exact .inr (.inl ⟨rfl, hfull⟩)
    rw [if_neg hfull]
    by_cases hmem : s.records % s.recordsInBlock = 0 ∧ memory = false
    · rw [if_pos hmem]
      exact .inr (.inr ⟨rfl, hmem.2⟩)
    rw [if_neg hmem]
    refine .inl ⟨s.records, [], rfl, ?_, by simp, nodup_nil, by simp, ?_⟩
    · by_contra hrow
      have := hbound s.records (.inl hrow)
      simp at this
    rintro p (hp | rfl | hp)
    · have := hbound p (.inl hp)
      omega
    · simp
    · exact absurd hp not_mem_nil

theorem heapWrite_spec (h : Inv defs s R) (record : V) (full : Bool) (memory : ℕ → Bool) :
    ∃ s' r R', heapWrite s record full memory = some (s', r) ∧ Inv defs s' R' ∧
      Answers s s'.rows r (.write record full memory) := by
  rcases nextFreeRecordPos_spec h full (memory 0) with
    ⟨pos, rest, hnext, hnone, hnot, hnodup, hsub, hbound⟩ | ⟨hnext, hfull⟩ | ⟨hnext, hmem⟩
  · have hpos : ∀ r ∈ R, r.1 ≠ pos := by
      intro r hr hr1
      have hrow := h.rows.row r hr
      rw [hr1, hnone] at hrow
      cases hrow
    obtain ⟨ret, done, todo, hloop, hdone, htodo, hmap, hret⟩ := writeKeys_spec record pos
      h.fits h.rows.row (fun i => memory (i + 1))
      (forall_mem_nil _) h.keys
    rw [reverse_nil, nil_append, h.defs] at hmap
    -- the table after an error
    have herror : ret ≠ .ok → ∃ s', heapWrite s record full memory = some (s', ret) ∧ Inv defs s' R ∧
        s'.rows = s.rows := by
      intro hne
      obtain ⟨done', hundo, hdone', hmap'⟩ := unwriteKeys_spec h.fits hpos hdone
      refine ⟨{ s with keydef := done'.reverse ++ todo, delLink := pos :: rest }, ?_, ?_, rfl⟩
      · rw [heapWrite, hnext]
        simp only []
        rw [hloop, bind_some]
        cases ret with
        | ok => exact absurd rfl hne
        | _ => simp [hundo]
      exact
        { h with
          keys := hdone'.append htodo
          defs := by
            rw [← hmap, map_append, map_append, map_reverse, map_reverse, hmap']
          nodup := nodup_cons.2 ⟨hnot, hnodup⟩
          free := fun p hp => by
            rcases mem_cons.1 hp with rfl | hp
            · exact hnone
            · exact h.free p (hsub p hp)
          bound := fun p hp => by
            have := hbound p (by
              rcases hp with hp | hp
              · exact .inl hp
              · exact .inr (mem_cons.1 hp))
            show p < s.records + (pos :: rest).length
            rw [length_cons]
            omega }
    rcases hret with ⟨rfl, rfl, hclash⟩ | ⟨rfl, hclash⟩ | ⟨rfl, i, hmem⟩
    · rw [append_nil] at hmap
      refine ⟨({ s with keydef := done.reverse ++ [], delLink := rest
                        rows := update s.rows pos (some record) } : Share V K).addRecord, .ok,
        (pos, record) ::ₘ R, ?_, ?_, ?_⟩
      · rw [heapWrite, hnext]
        simp only []
        rw [hloop, bind_some]
      · have hkeys : AllHold (grow s.blength s.records) (s.records + 1)
            ((pos, record) ::ₘ R) (done.reverse ++ []) :=
          (hdone.oldLength h.fits).append (forall_mem_nil _)
        exact
          { rows := h.rows.cons hnone
            card := by rw [Multiset.card_cons, h.card]; rfl
            fits := h.fits.succ
            keys := hkeys
            unique := fun kd hkd => by
              rw [← h.defs] at hkd
              obtain ⟨k, hk, rfl⟩ := mem_map.1 hkd
              exact (h.unique _ (h.mem_defs hk)).cons (hclash k hk)
            defs := by
              show (done.reverse ++ []).map Prod.fst = defs
              rw [append_nil, hmap]
            nodup := hnodup
            free := fun p hp => by
              show update s.rows pos (some record) p = none
              rw [update_of_ne (ne_of_mem_of_not_mem hp hnot)]
              exact h.free p (hsub p hp)
            bound := fun p hp => by
              refine hbound p ?_
              rcases hp with hp | hp
              · by_cases hpp : p = pos
                · exact .inr (.inl hpp)
                · refine .inl ?_
                  rwa [show (Share.addRecord _).rows p = update s.rows pos (some record) p from rfl,
                    update_of_ne hpp] at hp
              · exact .inr (.inr hp) }
      · refine .inl ⟨rfl, ?_, pos, hnone, rfl⟩
        rw [h.hasDuplicate_none]
        rintro ⟨k, hk, hcl⟩
        exact hclash k hk hcl
    · obtain ⟨s', hcall, hinv, hrows⟩ := herror (by simp)
      exact ⟨s', _, R, hcall, hinv, .inr (.inl ⟨rfl, h.hasDuplicate_none.2 hclash, hrows⟩)⟩
    · obtain ⟨s', hcall, hinv, hrows⟩ := herror (by simp)
      exact ⟨s', _, R, hcall, hinv, .inr (.inr (.inl ⟨rfl, ⟨i + 1, hmem⟩, hrows⟩))⟩
  · refine ⟨s, .recordFileFull, R, by rw [heapWrite, hnext], h, ?_⟩
    exact .inr (.inr (.inr ⟨rfl, hfull, rfl⟩))
  · refine ⟨s, .noMem, R, by rw [heapWrite, hnext], h, ?_⟩
    exact .inr (.inr (.inl ⟨rfl, ⟨0, hmem⟩, rfl⟩))

/-- The lengths while a row is changed or removed. -/
theorem Inv.removeRecord (h : Inv defs s ((pos, old) ::ₘ R)) :
    Fits s.removeRecord.blength s.removeRecord.records ∧
      oldLength s.removeRecord.blength s.removeRecord.records = s.blength ∧
      s.removeRecord.records + 1 = s.records ∧ Multiset.card R = s.removeRecord.records := by
  have hcard := h.card
  rw [Multiset.card_cons] at hcard
  have hfits := h.fits
  rw [← hcard] at hfits
  obtain ⟨h1, h2⟩ := hfits.pred
  have hrecords : s.removeRecord.records = Multiset.card R := by
    show s.records - 1 = _
    omega
  have hblength : s.removeRecord.blength = shrink s.blength (Multiset.card R) := by
    rw [← hrecords]
    rfl
  rw [hrecords, hblength]
  exact ⟨h1, h2, hcard, rfl⟩

section

variable (h : Inv defs s R)
include h

theorem heapUpdate_spec (hold : s.rows pos = some old) (new : V) (memory memory' : ℕ → Bool) :
    ∃ s' r R', heapUpdate s pos old new memory memory' = some (s', r) ∧ Inv defs s' R' ∧
      Answers s s'.rows r (.update pos new memory memory') := by
  obtain ⟨R₀, rfl, hrows0, hpos⟩ := h.rows.exists_cons hold
  obtain ⟨hfits, hlength, hrecords, hcard⟩ := h.removeRecord
  have hrow : ∀ r ∈ R₀, s.removeRecord.rows r.1 = some r.2 := fun r hr =>
    h.rows.row r (Multiset.mem_cons_of_mem hr)
  have hclash : ∀ k ∈ s.keydef, ¬ Clashes k.1 R₀ old := fun k hk =>
    (h.unique _ (h.mem_defs hk)).not_clashes hpos
  have hkeys := h.keys
  rw [← hlength, ← hrecords] at hkeys
  obtain ⟨ret, done, todo, hloop, hdone, htodo, hmap, hret⟩ := updateKeys_spec new hfits
    hrow hpos memory (fun k hk hcmp hc => hclash k hk ((clashes_congr hcmp).2 hc))
    (forall_mem_nil _) hkeys
  rw [reverse_nil, nil_append, h.defs] at hmap
  -- the lengths are what they were
  have hadd : ∀ keydef rows, (({ s.removeRecord with keydef := keydef, rows := rows } :
      Share V K).addRecord) = { s with keydef := keydef, rows := rows } :=
    fun keydef rows => congrArg₂ (fun b n => ({ s with
      keydef := keydef, rows := rows, blength := b, records := n } : Share V K)) hlength hrecords
  rcases hret with ⟨rfl, rfl, hnot⟩ | ⟨rfl, hdup⟩ | ⟨-, hmem⟩
  · rw [append_nil] at hmap
    refine ⟨{ s with keydef := done.reverse ++ [], rows := update s.rows pos (some new) }, .ok,
      (pos, new) ::ₘ R₀, ?_, ?_, ?_⟩
    · rw [heapUpdate]
      rw [show s.removeRecord.keydef = s.keydef from rfl, hloop, bind_some]
      simp only []
      rw [hadd]
      rfl
    · have hrows' : RowsOf (update s.rows pos (some new)) ((pos, new) ::ₘ R₀) := by
        have hcons : RowsOf (update (update s.rows pos none) pos (some new)) ((pos, new) ::ₘ R₀) :=
          hrows0.cons (update_self pos none s.rows)
        rwa [update_idem] at hcons
      have hlive : ∀ p, update s.rows pos (some new) p ≠ none → s.rows p ≠ none := by
        intro p hp
        by_cases hpp : p = pos
        · rw [hpp, hold]
          simp
        · rwa [update_of_ne hpp] at hp
      rw [hlength, hrecords] at hdone
      exact
        { rows := hrows'
          card := by
            rw [Multiset.card_cons, hcard]
            exact hrecords
          fits := h.fits
          keys := hdone.append (forall_mem_nil _)
          unique := fun kd hkd => by
            have hu := (h.unique kd hkd).of_cons
            rw [← h.defs] at hkd
            obtain ⟨k, hk, rfl⟩ := mem_map.1 hkd
            exact hu.cons (hnot k hk)
          defs := by
            rw [append_nil, hmap]
          nodup := h.nodup
          free := fun p hp => by
            have hfree := h.free p hp
            show update s.rows pos (some new) p = none
            rw [update_of_ne, hfree]
            rintro rfl
            rw [hold] at hfree
            cases hfree
          bound := fun p hp => h.bound p (hp.imp_left (hlive p)) }
    · refine .inr (.inl ⟨rfl, by rw [hold]; simp, ?_, rfl⟩)
      rw [h.hasDuplicate_some hpos]
      rintro ⟨k, hk, hc⟩
      exact hnot k hk hc
  · -- the old row is put back
    have hdefs : ∀ k ∈ done, ¬ Clashes k.1 R₀ old := by
      intro k hk
      have hmem : k.1 ∈ defs := by
        rw [← hmap]
        exact mem_map_of_mem (mem_append_left _ (mem_reverse.2 hk))
      exact (h.unique _ hmem).not_clashes hpos
    obtain ⟨done', hundo, hdone', hmap'⟩ := undoKeys_spec hfits hrow hpos memory' hdefs hdone
    refine ⟨{ s with keydef := done'.reverse ++ todo, rows := s.rows }, .foundDuppKey,
      (pos, old) ::ₘ R₀, ?_, ?_, ?_⟩
    · rw [heapUpdate]
      rw [show s.removeRecord.keydef = s.keydef from rfl, hloop, bind_some]
      simp only [hundo, map_some]
      rw [← hadd (done'.reverse ++ todo) s.rows]
      rfl
    · rw [hlength, hrecords] at hdone' htodo
      exact
        { h with
          keys := hdone'.append htodo
          defs := by
            rw [← hmap, map_append, map_append, map_reverse, map_reverse, hmap'] }
    · exact .inr (.inr ⟨rfl, by rw [hold]; simp, (h.hasDuplicate_some hpos).2 hdup, rfl⟩)
  · exact hmem.elim

theorem heapDelete_spec (hold : s.rows pos = some old) :
    ∃ s' r R', heapDelete s pos old = some (s', r) ∧ Inv defs s' R' ∧
      Answers s s'.rows r (.delete pos) := by
  obtain ⟨R₀, rfl, hrows0, hpos⟩ := h.rows.exists_cons hold
  obtain ⟨hfits, hlength, hrecords, hcard⟩ := h.removeRecord
  have hkeys := h.keys
  rw [← hlength, ← hrecords] at hkeys
  obtain ⟨keydef, hloop, hkeydef, hmap⟩ := deleteKeys_spec hfits hpos hkeys
  have hused : pos ∉ s.delLink := by
    intro hmem
    have hfree := h.free pos hmem
    rw [hold] at hfree
    cases hfree
  refine ⟨{ s.removeRecord with keydef := keydef, delLink := pos :: s.delLink
                                rows := update s.rows pos none }, .ok, R₀, ?_, ?_, ?_⟩
  · rw [heapDelete]
    rw [show s.removeRecord.keydef = s.keydef from rfl, hloop, map_some]
    rfl
  · exact
      { rows := hrows0
        card := hcard
        fits := hfits
        keys := hkeydef
        unique := fun kd hkd => (h.unique kd hkd).of_cons
        defs := hmap.trans h.defs
        nodup := nodup_cons.2 ⟨hused, h.nodup⟩
        free := fun p hp => by
          show update s.rows pos none p = none
          by_cases hpp : p = pos
          · rw [hpp, update_self]
          · rw [update_of_ne hpp]
            exact h.free p ((mem_cons.1 hp).resolve_left hpp)
        bound := fun p hp => by
          have hlt : p < s.records + s.delLink.length := by
            refine h.bound p ?_
            by_cases hpp : p = pos
            · refine .inl ?_
              rw [hpp, hold]
              simp
            rcases hp with hp | hp
            · have hp' : update s.rows pos none p ≠ none := hp
              rw [update_of_ne hpp] at hp'
              exact .inl hp'
            · exact .inr ((mem_cons.1 hp).resolve_left hpp)
          show p < s.removeRecord.records + (pos :: s.delLink).length
          rw [length_cons]
          omega }
  · exact .inr ⟨rfl, by rw [hold]; simp, rfl⟩

/-- **One call keeps the invariant**, and answers as it should. -/
theorem step_inv (op : Op V) :
    ∃ s' r R', step s op = some (s', r) ∧ Inv defs s' R' ∧ Answers s s'.rows r op := by
  cases op with
  | write record full memory => exact heapWrite_spec h record full memory
  | update pos new memory memory' =>
    cases hrow : s.rows pos with
    | none => exact ⟨s, .noActiveRecord, R, by rw [step, hrow], h, .inl ⟨rfl, hrow, rfl⟩⟩
    | some old =>
      obtain ⟨s', r, R', hcall, hrest⟩ := heapUpdate_spec h hrow new memory memory'
      exact ⟨s', r, R', by rw [step, hrow]; exact hcall, hrest⟩
  | delete pos =>
    cases hrow : s.rows pos with
    | none => exact ⟨s, .noActiveRecord, R, by rw [step, hrow], h, .inl ⟨rfl, hrow, rfl⟩⟩
    | some old =>
      obtain ⟨s', r, R', hcall, hrest⟩ := heapDelete_spec h hrow
      exact ⟨s', r, R', by rw [step, hrow]; exact hcall, hrest⟩

theorem run_inv (ops : List (Op V)) : ∃ s' R', run s ops = some s' ∧ Inv defs s' R' := by
  induction ops generalizing s R with
  | nil => exact ⟨s, R, rfl, h⟩
  | cons op ops ih =>
    obtain ⟨s1, r, R₁, hstep, h₁, -⟩ := step_inv h op
    obtain ⟨s', R', hrun, h'⟩ := ih h₁
    exact ⟨s', R', by rw [run, hstep, bind_some]; exact hrun, h'⟩

end

/-! ### What the invariant says of an index -/

/-- The position `j` is reached from `i` along the links. -/
def Reaches (a : Cells HashInfo) (i j : ℕ) : Prop :=
  Relation.ReflTransGen (fun x y => (a.cell x).next = some y) i j

/-- The index has one entry for each row, with the hash value of its key.  Every entry is in the
chain of its hash value, and in no other one; a chain starts in a position with an entry that
belongs there.  `hash_buckets` is the number of chains with entries.  A search finds every row with
the key once. -/
structure IndexOk (s : Share V K) (kd : KeyDef V K) (ix : Index) : Prop where
  live : ∀ j < s.records, ∃ v, s.rows (ix.array.cell j).val.ptrToRec = some v ∧
    (ix.array.cell j).val.hashOfKey = kd.recHashnr v
  once : ∀ p, s.rows p ≠ none → ∃! j, j < s.records ∧ (ix.array.cell j).val.ptrToRec = p
  reached : ∀ j < s.records,
    Reaches ix.array (hpMask (ix.array.cell j).val.hashOfKey s.blength s.records) j
  only : ∀ i < s.records, hpMask (ix.array.cell i).val.hashOfKey s.blength s.records = i →
    ∀ j, Reaches ix.array i j →
      j < s.records ∧ hpMask (ix.array.cell j).val.hashOfKey s.blength s.records = i
  buckets : ix.hashBuckets = ((Finset.range s.records).filter fun i => ∃ j < s.records,
    hpMask (ix.array.cell j).val.hashOfKey s.blength s.records = i).card
  search : ∀ k, ∃ l, searchAll s kd ix.array k = some l ∧ l.Nodup ∧
    ∀ p, p ∈ l ↔ ∃ v, s.rows p = some v ∧ kd.keyCmp v k = false

theorem reaches_of_linked {a : Cells HashInfo} {i j : ℕ} {l : List ℕ} {t : Option ℕ}
    (hl : Linked a.cell (i :: l) t) (hj : j ∈ i :: l) : Reaches a i j := by
  induction l generalizing i with
  | nil =>
    obtain rfl : j = i := by simpa using hj
    exact Relation.ReflTransGen.refl
  | cons x l ih =>
    rcases mem_cons.1 hj with rfl | hj
    · exact Relation.ReflTransGen.refl
    · have hnext : (a.cell i).next = some x := by simpa using hl.1
      exact Relation.ReflTransGen.head hnext (ih hl.2 hj)

theorem mem_of_next {c : ℕ → Cell HashInfo} {l : List ℕ} {x y : ℕ} (hl : Linked c l none)
    (hx : x ∈ l) (hnext : (c x).next = some y) : y ∈ l := by
  obtain ⟨l1, l2, rfl⟩ := append_of_mem hx
  rw [linked_append] at hl
  have hhead := hl.2.next
  rw [hnext] at hhead
  exact mem_append_right _ (mem_cons_of_mem x (mem_of_mem_head? hhead.symm))

/-- **The indexes of a table with the invariant are what they should be.** -/
theorem Inv.indexOk (h : Inv defs s R) (hk : k ∈ s.keydef) : IndexOk s k.1 k.2 := by
  have hix := h.keys k hk
  have hrefers : Refers k.1 s.rows (entries k.1 R) := refers h.rows.row
  obtain ⟨ch, ht⟩ := hix.table
  have hptr : (entries k.1 R).map HashInfo.ptrToRec = R.map Prod.fst := by
    rw [entries, Multiset.map_map]
    rfl
  have hmem : ∀ j < s.records, (k.2.array.cell j).val ∈ entries k.1 R := by
    intro j hj
    rw [← hix.entries]
    exact Multiset.mem_map_of_mem _ (Finset.mem_range.2 hj)
  constructor
  · exact fun j hj => hrefers _ (hmem j hj)
  · intro p hp
    obtain ⟨v, hv⟩ := Option.ne_none_iff_exists'.1 hp
    have hentry : entry k.1 (p, v) ∈ vals k.2.array.cell (Finset.range s.records) := by
      rw [hix.entries]
      exact Multiset.mem_map_of_mem _ ((h.rows.iff p v).1 hv)
    obtain ⟨j, hj, hval⟩ := Multiset.mem_map.1 hentry
    refine ⟨j, ⟨Finset.mem_range.1 hj, by rw [hval]; rfl⟩, ?_⟩
    rintro i ⟨hi, hiptr⟩
    have hnodup := h.rows.nodup
    rw [← hptr, ← hix.entries, vals, Multiset.map_map] at hnodup
    refine Multiset.inj_on_of_nodup_map hnodup i (Finset.mem_range.2 hi) j hj ?_
    show (k.2.array.cell i).val.ptrToRec = (k.2.array.cell j).val.ptrToRec
    rw [hiptr, hval]
    rfl
  · intro j hj
    set i := hpMask (k.2.array.cell j).val.hashOfKey s.blength s.records with hi
    have hjch : j ∈ ch i := (ht.mem i j).2 ⟨Finset.mem_range.2 hj, rfl⟩
    obtain ⟨l, hl⟩ := ht.cons_of_ne_nil (ne_nil_of_mem hjch)
    have hlinked := ht.linked i
    rw [hl] at hlinked hjch
    exact reaches_of_linked hlinked hjch
  · intro i hi hhead j hreach
    have hjch : j ∈ ch i := by
      induction hreach with
      | refl => exact (ht.mem i i).2 ⟨Finset.mem_range.2 hi, hhead⟩
      | tail _ hnext ih => exact mem_of_next (ht.linked i) ih hnext
    obtain ⟨hj, hbucket⟩ := (ht.mem i j).1 hjch
    exact ⟨Finset.mem_range.1 hj, hbucket⟩
  · rw [hix.buckets]
    congr 1
    ext i
    rw [← hix.entries, mem_occupied, Finset.mem_filter, Finset.mem_range]
    constructor
    · rintro ⟨v, hv, hbucket⟩
      obtain ⟨j, hj, rfl⟩ := Multiset.mem_map.1 hv
      have hj' := Finset.mem_range.1 hj
      refine ⟨?_, j, hj', hbucket⟩
      rw [← hbucket]
      exact mask_lt (UInt64.toNat_lt _) h.fits (by omega)
    · rintro ⟨-, j, hj, hbucket⟩
      exact ⟨_, Multiset.mem_map_of_mem _ (Finset.mem_range.2 hj), hbucket⟩
  · intro key
    obtain ⟨l, hsearch, hnodup, hl⟩ := searchAll_spec h.fits hix hrefers
      (by rw [hptr]; exact h.rows.nodup) key
    refine ⟨l, hsearch, hnodup, fun p => ?_⟩
    rw [hl]
    constructor
    · rintro ⟨x, hx, -, hv⟩
      exact hv
    · rintro ⟨v, hv, hcmp⟩
      exact ⟨_, Multiset.mem_map_of_mem (entry k.1) ((h.rows.iff p v).1 hv), rfl, v, hv, hcmp⟩

/-- A record: the byte with the null bit, a number, and one that can be `NULL`. -/
def sampleRow (a : UInt8) (b : Option UInt8) : Bytes :=
  fun i => [if b.isNone then 1 else 0, a, b.getD 0].getD i 0

/-- The first number is to be unique; there is another index on the second one. -/
def sampleDefs : List (KeyDef Bytes Bytes) :=
  [keyDef [⟨1, 1, 0, 0⟩] true false 4, keyDef [⟨2, 1, 0, 1⟩] false false 4]

/-- Four rows are written, one of them is changed and one deleted, and a row with the number 3 is
refused. -/
def sampleOps : List (Op Bytes) :=
  [.write (sampleRow 1 (some 7)) false fun _ => true,
    .write (sampleRow 2 (some 7)) false fun _ => true,
    .write (sampleRow 3 none) false fun _ => true,
    .write (sampleRow 4 (some 9)) false fun _ => true,
    .update 1 (sampleRow 5 (some 9)) (fun _ => true) fun _ => true, .delete 0,
    .write (sampleRow 3 (some 1)) false fun _ => true]

/-- The row at 3 is to get the number 5, which is that of another row. -/
def sampleOp : Op Bytes := .update 3 (sampleRow 5 none) (fun _ => true) fun _ => true

/-- The number of rows; where there is 5 in the first column, and 9 in the second one. -/
def summary (s : Share Bytes Bytes) : ℕ × List (Option (List ℕ)) :=
  (s.records, zipWith (fun k key => searchAll s k.1 k.2.array fun i => key.getD i 0) s.keydef
    [[5], [0, 9]])

end HeapHash
