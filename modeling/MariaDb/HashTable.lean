/-
**The dynamic hash of mysys: the model.**

`mysys/hash.c` keeps a multimap from keys to records by linear hashing.  All of it is in one array
of links, with the number of a next link, a hash value and a record: as many links as records, each
of them at once a place for a record and the start of a chain.  With `n` records there are the
buckets `0 … n - 1`; `my_hash_mask` finds that of a hash value.  An insert splits one bucket into
two, and a delete merges two into one.

The record is a pointer of type `R`; its key is in memory that belongs to the caller, `key`.  The
comparison and the hash function of keys are parameters.  A walk along a chain that comes back to a
link would not end, and an index may be outside of the array: the functions return `none` in both
cases.  The walks along the chains and the changes of them are those of `ChainArray` and
`LinearHash`.  `NO_RECORD` is `none` as an index, and no table is taken to have as many as 2^32 - 1
records.

Main definitions:

* `Hash`, `Conf`: the table, and what `my_hash_init` fixes;
* `myHashMask`: the bucket of a hash value;
* `myHashFirst`, `myHashNext`: the search;
* `myHashInsert`, `myHashDelete`, `myHashUpdate`: the changes;
* `myHashCheck`: the check of the structure.
-/

import MariaDb.LinearHash

set_option autoImplicit false

namespace HashTable

open Chains ChainArray Function

/-! ### The table -/

/-- What a link holds besides `next`. -/
structure Entry (R : Type*) where
  hashNr : UInt32
  data : R

abbrev HashLink (R : Type*) := Cell (Entry R)

/-- The links in use of the dynamic array. -/
abbrev Links (R : Type*) := Cells (Entry R)

variable {R K : Type*}

structure Hash (R : Type*) where
  blength : ℕ
  records : ℕ
  array : Links R

/-- What `my_hash_init` fixes: the hash function, when `hashcmp` finds two keys equal, and the flag
`HASH_UNIQUE`. -/
structure Conf (K : Type*) where
  hashFunction : K → UInt32
  same : K → K → Bool
  unique : Bool

/-- `my_hash_init`: the array has no links in use. -/
def myHashInit (link : ℕ → HashLink R) : Hash R := ⟨1, 0, ⟨0, link⟩⟩

/-- `my_hash_mask` -/
def myHashMask (hashnr : UInt32) (buffmax maxlength : ℕ) : ℕ :=
  LinearMask.mask hashnr.toNat buffmax maxlength

/-! ### The search -/

variable (cf : Conf K) (key : R → K) (h : Hash R)

/-- The record of a link has the key `k`. -/
def isKey (k : K) (entry : Entry R) : Option Bool := some (cf.same (key entry.data) k)

/-- `my_hash_first_from_hash_value`: returns the number of the link found. -/
def myHashFirstFromHashValue (hashValue : UInt32) (k : K) : Option (Option ℕ) :=
  if h.records = 0 then some none
  else
    let idx := myHashMask hashValue h.blength h.records
    (h.array.get idx).bind fun pos =>
      if cf.same (key pos.val.data) k then some (some idx)
      -- `flag`: only the first link is looked at in this way
      else if myHashMask pos.val.hashNr h.blength h.records ≠ idx then some none
      else nextCell (isKey cf key k) h.array (h.array.size + 1) pos.next

def myHashFirst (k : K) : Option (Option ℕ) :=
  myHashFirstFromHashValue cf key h (cf.hashFunction k) k

/-- `my_hash_next`, from the link `current` that was found last. -/
def myHashNext (k : K) (current : ℕ) : Option (Option ℕ) :=
  (h.array.get current).bind fun pos =>
    nextCell (isKey cf key k) h.array (h.array.size + 1) pos.next

/-- `my_hash_first`, and calls of `my_hash_next` until one finds nothing. -/
def searchAll (k : K) : Option (List ℕ) :=
  (myHashFirst cf key h k).bind (cellsFrom (isKey cf key k) h.array h.array.size)

/-! ### Insert -/

/-- The first part of `my_hash_insert`: with one more link in use the bucket `first_index` is
split.  Returns the array and the free link.  `entry0` stands for what is not initialised. -/
def splitBucket (entry0 : Entry R) : Option (Links R × ℕ) :=
  (LinearHash.splitBucket (fun v => v.hashNr.toNat) h.blength h.records
    { h.array with size := h.array.size + 1 } h.array.size entry0).map fun (a, empty, _) => (a, empty)

/-- The second part of `my_hash_insert`: the record is put into the table. -/
def placeRecord (a : Links R) (empty : ℕ) (entry : Entry R) : Option (Links R) :=
  let idx := myHashMask entry.hashNr h.blength (h.records + 1)
  if idx = empty then a.set idx ⟨none, entry⟩
  else
    (a.get idx).bind fun pos =>
      (a.set empty pos).bind fun a =>
        let gpos := myHashMask pos.val.hashNr h.blength (h.records + 1)
        if idx = gpos then a.set idx ⟨some empty, entry⟩
        else
          (a.set idx ⟨none, pos.val⟩).bind fun a =>
            (movelink (some idx) (some empty) a.size a gpos).bind fun a =>
              a.set idx ⟨none, entry⟩

/-- `my_hash_insert`: `memory` says whether a link could be allocated.  Returns whether there was
an error. -/
def myHashInsert (record : R) (memory : Bool) : Option (Hash R × Bool) :=
  let entry : Entry R := ⟨cf.hashFunction (key record), record⟩
  (if cf.unique then myHashFirstFromHashValue cf key h entry.hashNr (key record) else some none).bind
    fun found =>
      if found.isSome then some (h, true)
      else if !memory then some (h, true)
      else
        (splitBucket h entry).bind fun (a, empty) =>
          (placeRecord h a empty entry).map fun a =>
            (⟨if h.records + 1 = h.blength then h.blength + h.blength else h.blength,
              h.records + 1, a⟩, false)

/-! ### Delete -/

/-- The search for a record in `my_hash_delete` and `my_hash_update`, from the link `idx`: its link
and the link before that, or `none` if it is not in the chain. -/
def findRecord [DecidableEq R] (a : Links R) (record : R) (idx : ℕ) :
    Option (Option (ℕ × Option ℕ)) :=
  findCell (fun v => v.data = record) a a.size none idx

/-- The part of `my_hash_delete` that moves the last link, `lastpos`, to the free one.  `blength`
is the old length, `h` has the new length and the new number of records. -/
def moveLast (blength : ℕ) (a : Links R) (empty : ℕ) : Option (Links R) :=
  (LinearHash.moveLast (fun v => v.hashNr.toNat) blength h.blength h.records false a empty).map
    Prod.fst

/-- `my_hash_delete`: returns whether there was an error. -/
def myHashDelete [DecidableEq R] (cf : Conf K) (key : R → K) (h : Hash R) (record : R) :
    Option (Hash R × Bool) :=
  if h.records = 0 then some (h, true)
  else
    (findRecord h.array record
      (myHashMask (cf.hashFunction (key record)) h.blength h.records)).bind fun found =>
        match found with
        | none => some (h, true)
        | some (idx, previous) =>
          let records := h.records - 1
          let blength := if records < h.blength / 2 then h.blength / 2 else h.blength
          (unlinkCell h.array idx previous).bind fun (a, empty) =>
            (moveLast ⟨blength, records, a⟩ h.blength a empty).map fun a =>
              (⟨blength, records, { a with size := a.size - 1 }⟩, false)

/-! ### Update -/

/-- The loop with which `my_hash_update` looks for another record with the new key: `true` if there
is one. -/
def duplicateLoop [DecidableEq R] (cf : Conf K) (key : R → K) (h : Hash R) (record : R) (k : K) :
    ℕ → Option ℕ → Option Bool
  | 0, _ => none
  | _ + 1, none => some false
  | fuel + 1, some idx =>
    (h.array.get idx).bind fun found =>
      if found.val.data ≠ record then some true
      else (myHashNext cf key h k idx).bind (duplicateLoop cf key h record k fuel)

/-- The last part of `my_hash_update`: the record `org` is linked into the bucket `newIndex`. -/
def relinkRecord (a : Links R) (idx empty newIndex : ℕ) (org : HashLink R) (hashNr : UInt32) :
    Option (Links R) :=
  if newIndex = empty then
    (if empty ≠ idx then a.set empty org else some a).bind fun a =>
      (a.get empty).bind fun link => a.set empty ⟨none, ⟨hashNr, link.val.data⟩⟩
  else
    (a.get newIndex).bind fun pos =>
      let newPosIndex := myHashMask pos.val.hashNr h.blength h.records
      if newIndex ≠ newPosIndex then
        (a.set empty pos).bind fun a =>
          (movelink (some newIndex) (some empty) a.size a newPosIndex).bind fun a =>
            a.set newIndex ⟨none, ⟨hashNr, org.val.data⟩⟩
      else
        (a.set empty ⟨pos.next, ⟨hashNr, org.val.data⟩⟩).bind fun a =>
          (a.get newIndex).bind fun pos => a.set newIndex ⟨some empty, pos.val⟩

/-- `my_hash_update`, called after the key of the record was changed: returns whether there was an
error. -/
def myHashUpdate [DecidableEq R] (cf : Conf K) (key : R → K) (h : Hash R) (record : R)
    (oldKey : K) : Option (Hash R × Bool) :=
  let hashNr := cf.hashFunction (key record)
  (if cf.unique then
    (myHashFirstFromHashValue cf key h hashNr (key record)).bind
      (duplicateLoop cf key h record (key record) (h.array.size + 1))
  else some false).bind fun duplicate =>
    if duplicate then some (h, true)
    else
      let orgIndex := myHashMask (cf.hashFunction oldKey) h.blength h.records
      let newIndex := myHashMask hashNr h.blength h.records
      (findRecord h.array record orgIndex).bind fun found =>
        match found with
        | none => some (h, true)
        | some (idx, previous) =>
          (h.array.get idx).bind fun pos =>
            if orgIndex = newIndex then
              (h.array.set idx ⟨pos.next, ⟨hashNr, pos.val.data⟩⟩).map fun a =>
                ({ h with array := a }, false)
            else
              (unlinkCell h.array idx previous).bind fun (a, empty) =>
                (relinkRecord h a idx empty newIndex pos hashNr).map fun a =>
                  ({ h with array := a }, false)

/-! ### The check -/

/-- The inner loop of `my_hash_check`, along the chain that starts at `i`. -/
def checkLinks (i : ℕ) : ℕ → Option ℕ → ℕ → Bool → Option (ℕ × Bool)
  | 0, _, _, _ => none
  | _ + 1, none, found, error => some (found, error)
  | fuel + 1, some idx, found, error =>
    if found < h.records + 1 then
      let error := if h.records ≤ idx then true else error
      (h.array.get idx).bind fun info =>
        if myHashMask info.val.hashNr h.blength h.records ≠ i then
          checkLinks i fuel info.next found true
        else checkLinks i fuel info.next (found + 1) error
    else some (found, error)

/-- The outer loop of `my_hash_check`: `n` links are left. -/
def checkLoop : ℕ → ℕ → Bool → Option (ℕ × Bool)
  | 0, found, error => some (found, error)
  | n + 1, found, error =>
    let i := h.records - (n + 1)
    (h.array.get i).bind fun pos =>
      let error := if pos.val.hashNr ≠ cf.hashFunction (key pos.val.data) then true else error
      if myHashMask pos.val.hashNr h.blength h.records = i then
        (checkLinks h i (h.array.size + 1) pos.next (found + 1) error).bind
          fun (found, error) => checkLoop n found error
      else checkLoop n found error

/-- `my_hash_check`: returns whether there was an error. -/
def myHashCheck : Option Bool :=
  (checkLoop cf key h h.records 0 false).map fun (found, error) =>
    if found ≠ h.records then true else error

end HashTable
