/-
**The hash indexes of the HEAP engine.**

A table of the HEAP engine keeps its rows in fixed places of memory.  A hash index is an array of
entries, one for each row: an entry has the address of its row, the hash value of the key of the
row, and a link to another entry.  The number of buckets is the number of rows.  The bucket of a
hash value is given by `hp_mask`, and the entries of a bucket are a chain that starts in the entry
with the number of the bucket.  A row more splits one bucket, and a row less joins two.

The functions follow `hp_write.c`, `hp_delete.c`, `hp_update.c` and `hp_hash.c` for a table whose
indexes are all hash indexes.  A function returns `none` if it reads or writes an entry that is not
allocated, or reads a row that is deleted.  Which allocations fail, and whether the table is full,
are arguments.  The entry that `info->current_ptr` refers to after a delete is left out.  The chains
are changed by the functions of `ChainArray` and `LinearHash`.

Main definitions:

* `KeyDef`, `Index`, `Share`: an index and a table;
* `keyDef`: the index on a list of columns;
* `hpWriteKey`, `hpDeleteKey`: one index, when a row is added or removed;
* `heapWrite`, `heapUpdate`, `heapDelete`: the operations of the table;
* `searchAll`: `hp_search` followed by `hp_search_next`;
* `run`: a sequence of operations.
-/

import MariaDb.LinearHash

set_option autoImplicit false

namespace HeapHash

open Chains ChainArray Function

variable {V K : Type*}

/-- `HASH_INFO`, but for the link: the number of the place of the row, and the hash value. -/
structure HashInfo where
  ptrToRec : ℕ
  hashOfKey : UInt64
deriving DecidableEq, Inhabited

def HashInfo.hash (v : HashInfo) : ℕ := v.hashOfKey.toNat

/-- What is fixed of `HP_KEYDEF`: the functions `hp_rec_hashnr`, `hp_rec_key_cmp`,
`hp_if_null_in_key` of rows, `hp_hashnr` and `hp_key_cmp` for a key of a search, the flags
`HA_NOSAME` and `HA_NULL_PART_KEY`, and the number of entries in a block.  The comparisons give
`true` for different keys.  Keys that are not different have the same hash value, and `NULL` in the
same parts. -/
structure KeyDef (V K : Type*) where
  recHashnr : V → UInt64
  recKeyCmp : V → V → Bool
  ifNullInKey : V → Bool
  hashnr : K → UInt64
  keyCmp : V → K → Bool
  noSame : Bool
  nullPartKey : Bool
  recordsInBlock : ℕ
  cmp_equiv : Equivalence fun v w => recKeyCmp v w = false
  hash_eq : ∀ v w, recKeyCmp v w = false → recHashnr v = recHashnr w
  null_eq : ∀ v w, recKeyCmp v w = false → ifNullInKey v = ifNullInKey w
  search_eq : ∀ v k, keyCmp v k = false → recHashnr v = hashnr k

/-! ### Key segments -/

/-- A record or a key: the bytes from an address on. -/
abbrev Bytes := ℕ → UInt8

/-- `HA_KEYSEG` of a column whose values are compared byte by byte.  The bit is 0 for a column that
cannot be `NULL`. -/
structure KeySeg where
  start : ℕ
  length : ℕ
  nullPos : ℕ
  nullBit : UInt8

/-- `rec[seg->null_pos] & seg->null_bit`, which is 0 unless the column is `NULL`. -/
def KeySeg.null (seg : KeySeg) (record : Bytes) : UInt8 := record seg.nullPos &&& seg.nullBit

def slice (m : Bytes) (pos length : ℕ) : List UInt8 := (List.range length).map fun i => m (pos + i)

/-- `nr` and `nr2` after a byte of a key. -/
def hashByte : UInt64 × UInt64 → UInt8 → UInt64 × UInt64
  | (nr, nr2), c => (nr ^^^ (((nr &&& (63 : UInt64)) + nr2) * c.toUInt64 + nr <<< (8 : UInt64)), nr2 + 3)

/-- `nr` and `nr2` after `NULL`. -/
def hashNull : UInt64 × UInt64 → UInt64 × UInt64
  | (nr, nr2) => (nr ^^^ (nr <<< (1 : UInt64) ||| (1 : UInt64)), nr2)

/-- The loop of `hp_rec_hashnr`. -/
def recHashnrLoop (segs : List KeySeg) (record : Bytes) (nr : UInt64 × UInt64) : UInt64 × UInt64 :=
  segs.foldl (fun nr seg => if seg.null record ≠ 0 then hashNull nr
    else (slice record seg.start seg.length).foldl hashByte nr) nr

/-- The loop of `hp_hashnr`.  In a key, a byte tells whether a column that can be `NULL` is. -/
def hashnrLoop (key : Bytes) : List KeySeg → ℕ → UInt64 × UInt64 → UInt64 × UInt64
  | [], _, nr => nr
  | seg :: segs, pos, nr =>
    if seg.nullBit ≠ 0 then
      hashnrLoop key segs (pos + 1 + seg.length)
        (if key pos ≠ 0 then hashNull nr else (slice key (pos + 1) seg.length).foldl hashByte nr)
    else hashnrLoop key segs (pos + seg.length) ((slice key pos seg.length).foldl hashByte nr)

def hpRecKeyCmp : List KeySeg → Bytes → Bytes → Bool
  | [], _, _ => false
  | seg :: segs, rec1, rec2 =>
    if seg.null rec1 ≠ seg.null rec2 then true
    else if seg.null rec1 ≠ 0 then hpRecKeyCmp segs rec1 rec2
    else if slice rec1 seg.start seg.length ≠ slice rec2 seg.start seg.length then true
    else hpRecKeyCmp segs rec1 rec2

/-- `MY_TEST` -/
def myTest (a : UInt8) : UInt8 := if a ≠ 0 then 1 else 0

def hpKeyCmp (record key : Bytes) : List KeySeg → ℕ → Bool
  | [], _ => false
  | seg :: segs, pos =>
    if seg.nullBit ≠ 0 then
      if myTest (seg.null record) ≠ key pos then true
      else if seg.null record ≠ 0 then hpKeyCmp record key segs (pos + 1 + seg.length)
      else if slice record seg.start seg.length ≠ slice key (pos + 1) seg.length then true
      else hpKeyCmp record key segs (pos + 1 + seg.length)
    else if slice record seg.start seg.length ≠ slice key pos seg.length then true
    else hpKeyCmp record key segs (pos + seg.length)

def hpIfNullInKey (segs : List KeySeg) (record : Bytes) : Bool :=
  segs.any fun seg => seg.null record ≠ 0

/-- What the functions read of a column. -/
def KeySeg.part (seg : KeySeg) (record : Bytes) : UInt8 × List UInt8 :=
  (seg.null record, if seg.null record ≠ 0 then [] else slice record seg.start seg.length)

theorem hpRecKeyCmp_eq_false {segs : List KeySeg} {rec1 rec2 : Bytes} :
    hpRecKeyCmp segs rec1 rec2 = false ↔ ∀ seg ∈ segs, seg.part rec1 = seg.part rec2 := by
  induction segs with
  | nil => simp [hpRecKeyCmp]
  | cons seg segs ih =>
    rw [List.forall_mem_cons, ← ih, hpRecKeyCmp]
    by_cases hnull : seg.null rec1 = seg.null rec2
    · by_cases hzero : seg.null rec2 = 0 <;> simp [KeySeg.part, hnull, hzero]
    · simp [KeySeg.part, hnull]

theorem recHashnrLoop_eq {segs : List KeySeg} {rec1 rec2 : Bytes}
    (h : ∀ seg ∈ segs, seg.part rec1 = seg.part rec2) (nr : UInt64 × UInt64) :
    recHashnrLoop segs rec1 nr = recHashnrLoop segs rec2 nr := by
  refine List.foldl_ext _ _ _ fun nr seg hseg => ?_
  obtain ⟨hnull, hslice⟩ := Prod.ext_iff.1 (h seg hseg)
  simp only [KeySeg.part] at hnull hslice
  by_cases hzero : seg.null rec2 = 0
  · simp_all
  · simp [hnull, hzero]

theorem recHashnrLoop_cons (seg : KeySeg) (segs : List KeySeg) (record : Bytes)
    (nr : UInt64 × UInt64) : recHashnrLoop (seg :: segs) record nr
      = recHashnrLoop segs record (if seg.null record ≠ 0 then hashNull nr
        else (slice record seg.start seg.length).foldl hashByte nr) := rfl

/-- A key that is not different from that of a record is read in the same way. -/
theorem recHashnrLoop_eq_hashnrLoop {segs : List KeySeg} {record key : Bytes} {pos : ℕ}
    (h : hpKeyCmp record key segs pos = false) (nr : UInt64 × UInt64) :
    recHashnrLoop segs record nr = hashnrLoop key segs pos nr := by
  induction segs generalizing pos nr with
  | nil => rfl
  | cons seg segs ih =>
    rw [recHashnrLoop_cons, hashnrLoop]
    rw [hpKeyCmp] at h
    split_ifs at h with hbit hkey hnull hslice hslice
    · rw [myTest, if_pos hnull, not_not] at hkey
      rw [if_pos hnull, if_pos hbit, if_pos (by simp [← hkey]), ih h]
    · rw [myTest, if_neg hnull, not_not] at hkey
      rw [if_neg hnull, if_pos hbit, if_neg (by simp [← hkey]), not_not.1 hslice, ih h]
    · have hnull : ¬ seg.null record ≠ 0 := by simp [KeySeg.null, not_not.1 hbit]
      rw [if_neg hnull, if_neg hbit, not_not.1 hslice, ih h]

/-- `HP_KEYDEF` of an index on columns that are compared byte by byte.  `heap_create` sets
`HA_NULL_PART_KEY` if a column can be `NULL`, unless `HA_NULL_ARE_EQUAL` is set. -/
def keyDef (segs : List KeySeg) (noSame nullAreEqual : Bool) (recordsInBlock : ℕ) :
    KeyDef Bytes Bytes where
  recHashnr record := (recHashnrLoop segs record (1, 4)).1
  recKeyCmp := hpRecKeyCmp segs
  ifNullInKey := hpIfNullInKey segs
  hashnr key := (hashnrLoop key segs 0 (1, 4)).1
  keyCmp record key := hpKeyCmp record key segs 0
  noSame := noSame
  nullPartKey := segs.any (·.nullBit ≠ 0) && !nullAreEqual
  recordsInBlock := recordsInBlock
  cmp_equiv := by
    simp only [hpRecKeyCmp_eq_false]
    exact ⟨fun _ _ _ => rfl, fun h seg hseg => (h seg hseg).symm,
      fun h h' seg hseg => (h seg hseg).trans (h' seg hseg)⟩
  hash_eq _ _ h := by rw [recHashnrLoop_eq (hpRecKeyCmp_eq_false.1 h)]
  null_eq v w h := by
    have hnull : ∀ seg ∈ segs, seg.null v = seg.null w :=
      fun seg hseg => congrArg Prod.fst (hpRecKeyCmp_eq_false.1 h seg hseg)
    rw [Bool.eq_iff_iff]
    simp only [hpIfNullInKey, List.any_eq_true]
    exact exists_congr fun seg => and_congr_right fun hseg => by rw [hnull seg hseg]
  search_eq _ _ h := by rw [recHashnrLoop_eq_hashnrLoop h]

/-! ### The table -/

/-- What varies of `HP_KEYDEF`.  The size of the array is `last_allocated`. -/
structure Index where
  array : Cells HashInfo
  hashBuckets : ℕ

/-- The results of the functions: no error, `HA_ERR_FOUND_DUPP_KEY`, `ENOMEM`, `HA_ERR_CRASHED`,
`HA_ERR_RECORD_FILE_FULL` and `HA_ERR_NO_ACTIVE_RECORD`. -/
inductive Ret
  | ok
  | foundDuppKey
  | noMem
  | crashed
  | recordFileFull
  | noActiveRecord
deriving DecidableEq

/-- `hp_mask` -/
def hpMask (hashnr : UInt64) (buffmax maxlength : ℕ) : ℕ :=
  LinearMask.mask hashnr.toNat buffmax maxlength

/-! ### Adding a row to an index -/

/-- `hp_find_free_hash`: the array with the entry `records`, or no more memory. -/
def hpFindFreeHash (kd : KeyDef V K) (a : Cells HashInfo) (records : ℕ) (memory : Bool) :
    Option (Cells HashInfo) :=
  if records < a.size then some a
  else if records % kd.recordsInBlock = 0 ∧ memory = false then none
  else some { a with size := records + 1 }

/-- Keys of this index must differ from that of the row. -/
def KeyDef.checks (kd : KeyDef V K) (record : V) : Bool :=
  kd.noSame && (!kd.nullPartKey || !kd.ifNullInKey record)

/-- The entry is one of another row with the same key. -/
def sameKey (kd : KeyDef V K) (rows : ℕ → Option V) (record : V) (v : HashInfo) : Option Bool :=
  if v.hashOfKey = kd.recHashnr record then
    (rows v.ptrToRec).map fun row => !kd.recKeyCmp record row
  else some false

/-- The second part of `hp_write_key`: the entry is put into the array, and the chain is searched
for a duplicate. -/
def placeKey (kd : KeyDef V K) (rows : ℕ → Option V) (blength records : ℕ) (ix : Index)
    (empty : ℕ) (record : V) (recpos : ℕ) : Option (Index × Ret) :=
  let entry : HashInfo := ⟨recpos, kd.recHashnr record⟩
  let idx := hpMask entry.hashOfKey blength (records + 1)
  if idx = empty then
    (ix.array.set idx ⟨none, entry⟩).map fun a => (⟨a, ix.hashBuckets + 1⟩, .ok)
  else
    (ix.array.get idx).bind fun pos =>
      (ix.array.set empty pos).bind fun a =>
        let gpos := hpMask pos.val.hashOfKey blength (records + 1)
        if idx = gpos then
          (a.set idx ⟨some empty, entry⟩).bind fun a =>
            if kd.checks record then
              (nextCell (sameKey kd rows record) a (a.size + 1) (some empty)).map fun found =>
                (⟨a, ix.hashBuckets⟩, if found.isSome then .foundDuppKey else .ok)
            else some (⟨a, ix.hashBuckets⟩, .ok)
        else
          (a.set idx ⟨none, entry⟩).bind fun a =>
            (movelink (some idx) (some empty) a.size a gpos).map fun a =>
              (⟨a, ix.hashBuckets + 1⟩, .ok)

def hpWriteKey (kd : KeyDef V K) (rows : ℕ → Option V) (blength records : ℕ) (ix : Index)
    (record : V) (recpos : ℕ) (memory : Bool) : Option (Index × Ret) :=
  match hpFindFreeHash kd ix.array records memory with
  | none => some (ix, .noMem)
  | some a =>
    -- the bucket `first_index` is split
    (LinearHash.splitBucket HashInfo.hash blength records a records default).bind
      fun (a, empty, both) =>
        placeKey kd rows blength records
          ⟨a, if both then ix.hashBuckets + 1 else ix.hashBuckets⟩ empty record recpos

/-! ### Removing a row from an index -/

/-- The length when there was one row more. -/
def oldLength (blength records : ℕ) : ℕ :=
  if records + 1 = blength then blength + blength else blength

/-- `hp_delete_key`; `blength` and `records` are those without the row.  The result is `some none`
for `HA_ERR_CRASHED`. -/
def hpDeleteKey (kd : KeyDef V K) (blength records : ℕ) (ix : Index) (record : V) (recpos : ℕ) :
    Option (Option Index) :=
  let keyPos := hpMask (kd.recHashnr record) (oldLength blength records) (records + 1)
  (findCell (fun v => v.ptrToRec = recpos) ix.array ix.array.size none keyPos).bind fun
    | none => some none
    | some (idx, previous) =>
      (ix.array.get idx).bind fun pos =>
        (unlinkCell ix.array idx previous).bind fun (a, empty) =>
          let hashBuckets :=
            if previous.isNone && pos.next.isNone then ix.hashBuckets - 1 else ix.hashBuckets
          -- the last entry is moved, so that its place is free
          (LinearHash.moveLast HashInfo.hash (oldLength blength records) blength records true a
            empty).map fun (a, joined) =>
            some ⟨a, if joined then hashBuckets - 1 else hashBuckets⟩

/-! ### The operations of a table -/

/-- `HP_SHARE`.  `rows` are the rows that are visible, and `delLink` the places of deleted rows. -/
structure Share (V K : Type*) where
  records : ℕ
  blength : ℕ
  keydef : List (KeyDef V K × Index)
  rows : ℕ → Option V
  delLink : List ℕ
  recordsInBlock : ℕ

def heapCreate (defs : List (KeyDef V K)) (recordsInBlock : ℕ) : Share V K where
  records := 0
  blength := 1
  keydef := defs.map fun kd => (kd, ⟨⟨0, fun _ => ⟨none, default⟩⟩, 0⟩)
  rows _ := none
  delLink := []
  recordsInBlock := recordsInBlock

/-- `if (++share->records == share->blength) share->blength+= share->blength` -/
def Share.addRecord (s : Share V K) : Share V K :=
  { s with records := s.records + 1
           blength := if s.records + 1 = s.blength then s.blength + s.blength else s.blength }

/-- `if (--(share->records) < share->blength >> 1) share->blength>>= 1` -/
def Share.removeRecord (s : Share V K) : Share V K :=
  { s with records := s.records - 1
           blength := if s.records - 1 < s.blength / 2 then s.blength / 2 else s.blength }

/-- `next_free_record_pos`: a place for the row and what is left of `del_link`, or an error. -/
def nextFreeRecordPos (s : Share V K) (full memory : Bool) : Except Ret (ℕ × List ℕ) :=
  match s.delLink with
  | pos :: rest => .ok (pos, rest)
  | [] =>
    if full then .error .recordFileFull
    else if s.records % s.recordsInBlock = 0 ∧ memory = false then .error .noMem
    else .ok (s.records, [])

section Loops

variable (s : Share V K) (record : V) (pos : ℕ)

/-- The loop of `heap_write`.  `done` has the indexes with the new row, the last one first.  After
an error these are the indexes from which the row is to be removed again. -/
def writeKeys (memory : ℕ → Bool) : List (KeyDef V K × Index) → List (KeyDef V K × Index) →
    Option (Ret × List (KeyDef V K × Index) × List (KeyDef V K × Index))
  | done, [] => some (.ok, done, [])
  | done, (kd, ix) :: todo =>
    (hpWriteKey kd s.rows s.blength s.records ix record pos (memory done.length)).bind
      fun (ix', ret) =>
        match ret with
        | .ok => writeKeys memory ((kd, ix') :: done) todo
        -- if there was no memory, then the key was not inserted
        | .noMem => some (.noMem, done, (kd, ix') :: todo)
        | ret => some (ret, (kd, ix') :: done, todo)

/-- The loop after an error in `heap_write`. -/
def unwriteKeys : List (KeyDef V K × Index) → Option (List (KeyDef V K × Index))
  | [] => some []
  | (kd, ix) :: done =>
    (hpDeleteKey kd s.blength s.records ix record pos).bind fun
      | none => some ((kd, ix) :: done)
      | some ix' => (unwriteKeys done).map ((kd, ix') :: ·)

/-- The loop of `heap_delete`: whether there was no error, and the indexes. -/
def deleteKeys : List (KeyDef V K × Index) → Option (Bool × List (KeyDef V K × Index))
  | [] => some (true, [])
  | (kd, ix) :: todo =>
    (hpDeleteKey kd s.blength s.records ix record pos).bind fun
      | none => some (false, (kd, ix) :: todo)
      | some ix' => (deleteKeys todo).map fun (ok, todo) => (ok, (kd, ix') :: todo)

/-- The key of an index is changed from that of `old` to that of `new`. -/
def changeKey (old new : V) (memory : Bool) (kd : KeyDef V K) (ix : Index) : Option (Index × Ret) :=
  (hpDeleteKey kd s.blength s.records ix old pos).bind fun
    | none => some (ix, .crashed)
    | some ix' => hpWriteKey kd s.rows s.blength s.records ix' new pos memory

def updateKeys (old new : V) (memory : ℕ → Bool) :
    List (KeyDef V K × Index) → List (KeyDef V K × Index) →
    Option (Ret × List (KeyDef V K × Index) × List (KeyDef V K × Index))
  | done, [] => some (.ok, done, [])
  | done, (kd, ix) :: todo =>
    if kd.recKeyCmp old new then
      (changeKey s pos old new (memory done.length) kd ix).bind fun (ix', ret) =>
        match ret with
        | .ok => updateKeys old new memory ((kd, ix') :: done) todo
        | ret => some (ret, (kd, ix') :: done, todo)
    else updateKeys old new memory ((kd, ix) :: done) todo

/-- The loop after a duplicate in `heap_update`. -/
def undoKeys (old new : V) (memory : ℕ → Bool) :
    List (KeyDef V K × Index) → Option (List (KeyDef V K × Index))
  | [] => some []
  | (kd, ix) :: done =>
    if kd.recKeyCmp old new then
      (changeKey s pos new old (memory done.length) kd ix).bind fun (ix', ret) =>
        match ret with
        | .ok => (undoKeys old new memory done).map ((kd, ix') :: ·)
        | _ => some ((kd, ix') :: done)
    else (undoKeys old new memory done).map ((kd, ix) :: ·)

end Loops

section

variable (s : Share V K)

/-- `heap_write`.  `memory 0` is for the block of the row, `memory (i + 1)` for the index `i`. -/
def heapWrite (record : V) (full : Bool) (memory : ℕ → Bool) : Option (Share V K × Ret) :=
  match nextFreeRecordPos s full (memory 0) with
  | .error ret => some (s, ret)
  | .ok (pos, delLink) =>
    (writeKeys s record pos (fun i => memory (i + 1)) [] s.keydef).bind fun
      | (.ok, done, todo) =>
        let s := { s with keydef := done.reverse ++ todo, delLink := delLink
                          rows := update s.rows pos (some record) }
        some (s.addRecord, .ok)
      | (ret, done, todo) =>
        (unwriteKeys s record pos done).map fun done =>
          ({ s with keydef := done.reverse ++ todo, delLink := pos :: delLink }, ret)

/-- `heap_update` of the row at `pos`, which is `old`.  `memory` is for the loop, and `memory'` for
that after an error. -/
def heapUpdate (pos : ℕ) (old new : V) (memory memory' : ℕ → Bool) : Option (Share V K × Ret) :=
  let s := s.removeRecord
  (updateKeys s pos old new memory [] s.keydef).bind fun
    | (.ok, done, todo) =>
      let s := { s with keydef := done.reverse ++ todo, rows := update s.rows pos (some new) }
      some (s.addRecord, .ok)
    | (.foundDuppKey, done, todo) =>
      (undoKeys s pos old new memory' done).map fun done =>
        ({ s with keydef := done.reverse ++ todo }.addRecord, .foundDuppKey)
    | (ret, done, todo) => some ({ s with keydef := done.reverse ++ todo }.addRecord, ret)

/-- `heap_delete` of the row at `pos`, which is `record`. -/
def heapDelete (pos : ℕ) (record : V) : Option (Share V K × Ret) :=
  let s := s.removeRecord
  (deleteKeys s record pos s.keydef).map fun
    | (true, keydef) =>
      ({ s with keydef := keydef, delLink := pos :: s.delLink, rows := update s.rows pos none },
        .ok)
    | (false, keydef) => ({ s with keydef := keydef }.addRecord, .crashed)

/-! ### The search -/

/-- The row of an entry has the key `k`. -/
def hasKey (kd : KeyDef V K) (rows : ℕ → Option V) (k : K) (v : HashInfo) : Option Bool :=
  (rows v.ptrToRec).map fun row => !kd.keyCmp row k

/-- `hp_search` for the first entry with a key. -/
def hpSearch (kd : KeyDef V K) (a : Cells HashInfo) (k : K) : Option (Option ℕ) :=
  if s.records = 0 then some none
  else
    let searchPos := hpMask (kd.hashnr k) s.blength s.records
    (a.get searchPos).bind fun pos =>
      if searchPos ≠ hpMask pos.val.hashOfKey s.blength s.records then some none
      else nextCell (hasKey kd s.rows k) a (a.size + 1) (some searchPos)

/-- The places of all rows that `hp_search` and then `hp_search_next`, as long as it finds
something, return. -/
def searchAll (kd : KeyDef V K) (a : Cells HashInfo) (k : K) : Option (List ℕ) :=
  ((hpSearch s kd a k).bind (cellsFrom (hasKey kd s.rows k) a a.size)).map
    (List.map fun j => (a.cell j).val.ptrToRec)

/-! ### Runs -/

/-- A call of the engine.  `update` and `delete` are for the row read last, at `pos`. -/
inductive Op (V : Type*)
  | write (record : V) (full : Bool) (memory : ℕ → Bool)
  | update (pos : ℕ) (new : V) (memory memory' : ℕ → Bool)
  | delete (pos : ℕ)

/-- One call.  Without a row at `pos` there is no active record. -/
def step : Op V → Option (Share V K × Ret)
  | .write record full memory => heapWrite s record full memory
  | .update pos new memory memory' =>
    match s.rows pos with
    | none => some (s, .noActiveRecord)
    | some old => heapUpdate s pos old new memory memory'
  | .delete pos =>
    match s.rows pos with
    | none => some (s, .noActiveRecord)
    | some record => heapDelete s pos record

end

def run (s : Share V K) : List (Op V) → Option (Share V K)
  | [] => some s
  | op :: ops => (step s op).bind fun (s', _) => run s' ops

end HeapHash
