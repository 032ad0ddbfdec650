/-
**Redo log records of a mini-transaction.**

A mini-transaction logs its changes of pages as a sequence of records.  A record starts with a byte
that holds its type, a flag and its length; a long record has its length in a variable-length
integer after that byte.  The page identifier is omitted when the record is for the page of the
record before it (the `same_page` flag), and the byte offset of a write is then counted from the
end of the write before it.  The writer (`mtr_t::log_write` and its callers) and the reader (the
loop of `log_phys_t::apply`) keep the end of the last write separately: `m_last_offset` in one,
`last_offset` in the other.

This module models both sides, and the loop of `recv_sys_t::parse` that finds the end of a
mini-transaction from the lengths of the records alone.  What the reader does with a page is kept
symbolically, as a `PageOp`.

Main definitions:

* `logWrite`, `PageRec.log`, `logAll`: the writer;
* `readRecord`, `applyLoop`: the reader;
* `lengthLoop`: the search for the end of the mini-transaction;
* `PageRec.Writable`, `PageRec.Readable`: what either side requires of a record.
-/

import MariaDb.MlogVarint

set_option autoImplicit false

namespace MtrLog

/-! ### Records -/

/-- `mrec_type_t`, the types of records for pages. -/
inductive MrecType
  | freePage
  | initPage
  | extended
  | write
  | memset
  | memmove
  | reserved
  | option
  deriving DecidableEq, Repr

/-- The bits of the type in the first byte of a record. -/
def MrecType.code : MrecType → ℕ
  | .freePage => 0
  | .initPage => 0x10
  | .extended => 0x20
  | .write => 0x30
  | .memset => 0x40
  | .memmove => 0x50
  | .reserved => 0x60
  | .option => 0x70

/-- The type in the first byte of a record. -/
def MrecType.ofByte (b : ℕ) : MrecType :=
  match b &&& 0x70 with
  | 0x00 => .freePage
  | 0x10 => .initPage
  | 0x20 => .extended
  | 0x30 => .write
  | 0x40 => .memset
  | 0x50 => .memmove
  | 0x60 => .reserved
  | _ => .option

/-- Records of this type have a payload. -/
def MrecType.haveLen (type : MrecType) : Bool := type ≠ .initPage ∧ type ≠ .freePage

/-- Records of this type have a byte offset. -/
def MrecType.haveOffset (type : MrecType) : Bool :=
  type = .write ∨ type = .memset ∨ type = .memmove

/-- `page_id_t` -/
structure PageId where
  space : ℕ
  pageNo : ℕ
  deriving DecidableEq, Repr

/-- What a record says: its type, the page, the absolute byte offset (0 if the type has none) and
the payload. -/
structure LogRec where
  type : MrecType
  id : PageId
  offset : ℕ
  payload : List ℕ
  deriving DecidableEq, Repr

/-- What a record does to its page. -/
inductive PageOp
  | free
  | init
  | extended (payload : List ℕ)
  | write (offset : ℕ) (data : List ℕ)
  | memset (offset len : ℕ) (str : List ℕ)
  | memmove (offset len src : ℕ)
  | option
  deriving DecidableEq, Repr

/-! ### The writer -/

/-- The members of `mtr_t` that `log_write` uses: the buffer page `m_last` of the last record, and
the offset `m_last_offset` at which the last write ended. -/
structure MtrState where
  last : Option ℕ
  lastOffset : ℕ
  deriving DecidableEq, Repr

/-- The state in which `mtr_t::start` leaves the mini-transaction. -/
def MtrState.start : MtrState := ⟨none, 0⟩

/-- The condition for an offset that is relative to the last one. -/
def MtrState.onPage (st : MtrState) (bpage : Option ℕ) : Bool := bpage ≠ none ∧ st.last = bpage

/-- The bound on the length of the record without its payload. -/
def maxLen (type : MrecType) (st : MtrState) (bpage : Option ℕ) (offset : ℕ) : ℕ :=
  if ¬ type.haveLen then 1 + 5 + 5
  else if ¬ type.haveOffset then
    if st.onPage bpage then 1 + 3 else 1 + 3 + 5 + 5
  else if st.onPage bpage ∧ st.lastOffset ≤ offset then 1 + 3 + 3
  else 1 + 3 + 5 + 5 + 3

/-- The offset that is written: relative to `m_last_offset` if it does not lie before it. -/
def codedOffset (st : MtrState) (bpage : Option ℕ) (offset : ℕ) : ℕ :=
  if st.onPage bpage ∧ st.lastOffset ≤ offset then offset - st.lastOffset else offset

/-- The `same_page` flag: the page identifier is omitted. -/
def samePage (type : MrecType) (st : MtrState) (bpage : Option ℕ) (offset : ℕ) : Bool :=
  maxLen type st bpage offset < 1 + 5 + 5

/-- The page identifier, if it is written. -/
def idBytes (same : Bool) (id : PageId) : List ℕ :=
  if same then [] else mlogEncodeVarint id.space ++ mlogEncodeVarint id.pageNo

/-- The number to store for a long record: the length of the additional length bytes is part of
it. -/
def storedLen (len : ℕ) : ℕ :=
  if min3Byte - 1 ≤ len then len + 2 else if min2Byte ≤ len then len + 1 else len

/-- `mtr_t::log_write`: the bytes of the record up to its payload of `len` bytes. -/
def logWrite (type : MrecType) (st : MtrState) (id : PageId) (bpage : Option ℕ)
    (len offset : ℕ) : List ℕ × MtrState :=
  let same := samePage type st bpage offset
  let flag := if same then 0x80 else 0
  let st' := if same then st else { st with last := bpage }
  let ids := idBytes same id
  if type.haveOffset then
    let o := mlogEncodeVarint (codedOffset st bpage offset)
    let oend := 1 + ids.length + o.length
    if oend + len > 16 then
      ((type.code ||| flag) :: (mlogEncodeVarint (storedLen (len + oend - 15)) ++ ids ++ o), st')
    else
      ((type.code ||| flag ||| (oend + len - 1) % 256) :: (ids ++ o), st')
  else
    let stop := 1 + ids.length
    if 3 ≤ len ∧ stop + len > 16 then
      ((type.code ||| flag) :: (mlogEncodeVarint (storedLen (len + stop - 15)) ++ ids), st')
    else
      ((type.code ||| flag ||| (stop + len - 1) % 256) :: ids, st')

/-- `FIL_PAGE_TYPE`: the offset from which a record counts that follows one without an offset. -/
def filPageType : ℕ := 24

/-- The coded source of a move from `src` to `dest`: relative to the destination, with the sign in
the least significant bit; the distance 0 is not possible. -/
def moveCode (dest src : ℕ) : ℕ :=
  (if src > dest then (src - dest) <<< 1 else (dest - src) <<< 1 ||| 1) - 1 <<< 1

/-- The type of the record for a change. -/
def PageOp.type : PageOp → MrecType
  | .free => .freePage
  | .init => .initPage
  | .extended _ => .extended
  | .write _ _ => .write
  | .memset _ _ _ => .memset
  | .memmove _ _ _ => .memmove
  | .option => .option

/-- The byte offset that is passed to `log_write`. -/
def PageOp.offset : PageOp → ℕ
  | .write offset _ | .memset offset _ _ | .memmove offset _ _ => offset
  | .free | .init | .extended _ | .option => 0

/-- The bytes that are written after the return of `log_write`. -/
def PageOp.payload : PageOp → List ℕ
  | .extended payload => payload
  | .write _ data => data
  | .memset _ len str => mlogEncodeVarint len ++ str
  | .memmove offset len src => mlogEncodeVarint len ++ mlogEncodeVarint (moveCode offset src)
  | .free | .init | .option => []

/-- A page change that is logged: the page identifier, and the buffer page if there is one. -/
structure PageRec where
  id : PageId
  bpage : Option ℕ
  op : PageOp
  deriving DecidableEq, Repr

def PageRec.toLogRec (r : PageRec) : LogRec := ⟨r.op.type, r.id, r.op.offset, r.op.payload⟩

/-- `m_last_offset` after the record: the callers of `log_write` set it to the end of the write, or
to `FIL_PAGE_TYPE` after a record that initialises or reorganises the page. -/
def PageRec.lastOffset (r : PageRec) (lastOffset : ℕ) : ℕ :=
  match r.op with
  | .write offset data => (offset + data.length) % 2 ^ 16
  | .memset offset len _ | .memmove offset len _ => (offset + len) % 2 ^ 16
  | .init => filPageType
  | .extended _ => if r.bpage = none then lastOffset else filPageType
  | .free | .option => lastOffset

/-- Log one record: `log_write`, the payload, and the new `m_last_offset`. -/
def PageRec.log (r : PageRec) (st : MtrState) : List ℕ × MtrState :=
  let (head, st') := logWrite r.op.type st r.id r.bpage r.op.payload.length r.op.offset
  (head ++ r.op.payload, { st' with lastOffset := r.lastOffset st'.lastOffset })

/-- Log a sequence of records; the bytes of each. -/
def logAll : MtrState → List PageRec → List (List ℕ)
  | _, [] => []
  | st, r :: rs => (r.log st).1 :: logAll (r.log st).2 rs

/-! ### The reader -/

/-- What the reader knows of the pages: their sizes, and whether they are compressed.  `pageApply`
is the result of the function that an `EXTENDED` record calls on its page. -/
structure PageEnv where
  srvPageSize : ℕ
  /-- `block.physical_size()` -/
  size : PageId → ℕ
  /-- `block.page.zip.ssize != 0` -/
  zip : PageId → Bool
  pageApply : PageId → List ℕ → Bool
  srvPageSize_le : srvPageSize ≤ 2 ^ 16
  size_le : ∀ id, size id ≤ srvPageSize

/-- A record as the reader sees it. -/
structure Visit extends LogRec where
  op : PageOp
  deriving DecidableEq, Repr

/-- The state of the loop: the page of the last page identifier, and `last_offset`. -/
structure Reader where
  page : PageId
  lastOffset : ℕ
  deriving DecidableEq, Repr

/-- The number of bytes after the first byte and the length, and the log from there on. -/
def recLen (b : ℕ) (l : List ℕ) : ℕ × List ℕ :=
  if b &&& 0xf = 0 then
    let lenlen := mlogDecodeVarintLength (l.headD 0)
    (mlogDecodeVarint l + 15 - lenlen, l.drop lenlen)
  else (b &&& 0xf, l)

/-- The page identifier, if there is one; it starts a new page. -/
def readPageId (rd : Reader) (b rlen : ℕ) (l : List ℕ) : Reader × ℕ × List ℕ :=
  if b &&& 0x80 = 0 then
    let space := mlogDecodeVarint l
    let idlen := mlogDecodeVarintLength (l.headD 0)
    let l := l.drop idlen
    let rlen := rlen - idlen
    let pageNo := mlogDecodeVarint l
    let idlen := mlogDecodeVarintLength (l.headD 0)
    ({ page := ⟨space, pageNo⟩, lastOffset := 0 }, rlen - idlen, l.drop idlen)
  else (rd, rlen, l)

/-- A field of an `EXTENDED` record: an integer of at most `maxLen` bytes that ends before the
record does. -/
def extendedField (maxLen : ℕ) (l : List ℕ) : Option (List ℕ) :=
  let ll := mlogDecodeVarintLength (l.headD 0)
  if ll > maxLen ∨ ll ≥ l.length then none else some (l.drop ll)

/-- The fields of `INSERT_HEAP_REDUNDANT` .. `INSERT_REUSE_DYNAMIC`. -/
def insertFields (subtype : ℕ) (l : List ℕ) : Option (List ℕ) := do
  let l ← extendedField 3 l
  if subtype &&& 2 ≠ 0 then
    let l ← if subtype &&& 1 ≠ 0 then extendedField 3 l else some l
    let l ← extendedField 3 l
    let l ← extendedField 2 l
    extendedField 3 l
  else
    let l ← extendedField 2 l
    let l ← extendedField 2 l
    extendedField 2 l

/-- The checks of an `EXTENDED` record, by its subtype. -/
def extendedChecked (payload : List ℕ) : Bool :=
  match payload with
  | [] => false
  | subtype :: l =>
    match subtype with
    -- `INIT_ROW_FORMAT_REDUNDANT`, `INIT_ROW_FORMAT_DYNAMIC`, `UNDO_INIT`
    | 0 | 1 | 2 => l.length = 0
    -- `UNDO_APPEND`
    | 3 => l.length + 1 > 3
    | 4 | 5 | 6 | 7 => l.length ≥ 1 ∧ (insertFields subtype l).isSome
    -- `DELETE_ROW_FORMAT_REDUNDANT`
    | 8 => 1 ≤ l.length ∧ l.length ≤ 3 ∧ mlogDecodeVarintLength (l.headD 0) = l.length
    -- `DELETE_ROW_FORMAT_DYNAMIC`
    | 9 => l.length ≥ 1 &&
        match (extendedField 3 l).bind (extendedField 2) with
        | none => false
        | some l => mlogDecodeVarintLength (l.headD 0) ≤ 3 ∧
            mlogDecodeVarintLength (l.headD 0) = l.length
    | _ => false

/-- The byte offset of a write, added to `last_offset`; `none` is `record_corrupted`. -/
def readOffset (size lastOffset : ℕ) (l : List ℕ) : Option (ℕ × List ℕ) :=
  if lastOffset = 1 then none
  else
    let olen := mlogDecodeVarintLength (l.headD 0)
    if olen ≥ l.length ∨ olen > 3 then none
    else
      let offset := mlogDecodeVarint l
      if offset ≥ size then none
      else if offset + lastOffset < 8 ∨ offset + lastOffset ≥ size then none
      else some ((lastOffset + offset) % 2 ^ 16, l.drop olen)

/-- The data of a `WRITE` at `lastOffset`. -/
def readWrite (size lastOffset : ℕ) (l : List ℕ) : Option (PageOp × ℕ) :=
  if l.length + lastOffset > size then none
  else some (.write lastOffset l, l.length)

/-- The length of the range of a `MEMSET` or `MEMMOVE`, and what follows it. -/
def readFillLen (size lastOffset : ℕ) (l : List ℕ) : Option (ℕ × List ℕ) :=
  let llen := mlogDecodeVarintLength (l.headD 0)
  if llen > l.length ∨ llen > 3 then none
  else
    let len := mlogDecodeVarint l
    if len + lastOffset > size then none
    else some (len, l.drop llen)

/-- The source of a `MEMMOVE` to `lastOffset`, in 32-bit arithmetic; it is relative, with the sign
in the least significant bit. -/
def moveSource (lastOffset s : ℕ) : ℕ :=
  if s &&& 1 ≠ 0 then (2 ^ 32 + lastOffset - (s >>> 1) - 1) % 2 ^ 32
  else (lastOffset + (s >>> 1) + 1) % 2 ^ 32

/-- The source of a `MEMMOVE`. -/
def readMove (size lastOffset len : ℕ) (l : List ℕ) : Option (PageOp × ℕ) :=
  let slen := mlogDecodeVarintLength (l.headD 0)
  if slen ≠ l.length ∨ slen > 3 then none
  else
    let s := moveSource lastOffset (mlogDecodeVarint l)
    if s ≥ 8 ∧ s + len ≤ size then some (.memmove lastOffset len s, len) else none

/-- The part of a `WRITE`, `MEMSET` or `MEMMOVE` after its offset: the operation, and the number of
bytes that it covers. -/
def readOp (type : MrecType) (size lastOffset : ℕ) (l : List ℕ) : Option (PageOp × ℕ) :=
  match type with
  | .write => readWrite size lastOffset l
  | .memset => (readFillLen size lastOffset l).map fun (len, str) =>
    (.memset lastOffset len str, len)
  | .memmove => (readFillLen size lastOffset l).bind fun (len, l) => readMove size lastOffset len l
  | _ => none

/-- The part of a record after the page identifier: `rlen` bytes of the log `l`, for the page of
`rd`.  The result is the record, the new state and the rest of the log; `none` is
`record_corrupted`. -/
def readBody (env : PageEnv) (rd : Reader) (type : MrecType) (rlen : ℕ) (l : List ℕ) :
    Option (Visit × Reader × List ℕ) :=
  let payload := l.take rlen
  let next := l.drop rlen
  match type with
  | .freePage => some (⟨⟨type, rd.page, 0, payload⟩, .free⟩, { rd with lastOffset := 1 }, next)
  | .initPage =>
    if rlen = 0 then
      some (⟨⟨type, rd.page, 0, payload⟩, .init⟩, { rd with lastOffset := filPageType }, next)
    else none
  | .option => some (⟨⟨type, rd.page, 0, payload⟩, .option⟩, rd, next)
  | .reserved => none
  | .extended =>
    if rd.page.pageNo < 3 ∨ env.zip rd.page then none
    else if extendedChecked payload ∧ env.pageApply rd.page payload then
      some (⟨⟨type, rd.page, 0, payload⟩, .extended payload⟩,
        { rd with lastOffset := filPageType }, next)
    else none
  | .write | .memset | .memmove => do
      let (lastOffset, data) ← readOffset (env.size rd.page) rd.lastOffset payload
      let (op, llen) ← readOp type (env.size rd.page) lastOffset data
      some (⟨⟨type, rd.page, lastOffset, data⟩, op⟩,
        { rd with lastOffset := (lastOffset + llen) % 2 ^ 16 }, next)

/-- One iteration of the loop of `log_phys_t::apply`, for a first byte `b ≠ 0`.  A corrupted record
ends the loop unless `innodb_force_recovery` is set. -/
def readRecord (env : PageEnv) (rd : Reader) (b : ℕ) (l : List ℕ) :
    Option (Visit × Reader × List ℕ) :=
  let (rlen, l) := recLen b l
  let (rd, rlen, l) := readPageId rd b rlen l
  readBody env rd (MrecType.ofByte b) rlen l

/-- How the loop of `log_phys_t::apply` ends. -/
inductive ApplyEnd
  | done
  | corrupt
  | unfinished
  deriving DecidableEq, Repr

/-- The loop of `log_phys_t::apply`: the records that it visits, and how it ends. -/
def applyLoop (env : PageEnv) : ℕ → Reader → List ℕ → List Visit × ApplyEnd
  | 0, _, _ => ([], .unfinished)
  | _ + 1, _, [] => ([], .unfinished)
  | fuel + 1, rd, b :: l =>
    if b = 0 then ([], .done)
    else match readRecord env rd b l with
      | none => ([], .corrupt)
      | some (v, rd', l') =>
        let (vs, e) := applyLoop env fuel rd' l'
        (v :: vs, e)

def mtrSizeMax : ℕ := 1 <<< 20

/-- How the loop of `recv_sys_t::parse` over the lengths ends. -/
inductive ParseEnd
  | eomFound
  | gotEof
  | prematureEof
  deriving DecidableEq, Repr

/-- The number of bytes after the first byte of a record, for the length loop. -/
def parseLen (b : ℕ) (l : List ℕ) : Except ParseEnd ℕ :=
  if b &&& 0xf ≠ 0 then .ok (b &&& 0xf)
  else if l.length = 0 then .error .prematureEof
  else if l.length ≤ mlogDecodeVarintLength (l.headD 0) then .error .prematureEof
  else if mtrSizeMax ≤ mlogDecodeVarint l then .error .gotEof
  else .ok (mlogDecodeVarint l + 15)

/-- The loop of `recv_sys_t::parse` that looks for the end of the mini-transaction: the bytes of
each record that it steps over, and how it ends. -/
def lengthLoop : ℕ → ℕ → List ℕ → List (List ℕ) × ParseEnd
  | 0, _, _ => ([], .prematureEof)
  | _ + 1, _, [] => ([], .prematureEof)
  | fuel + 1, totalLen, b :: l =>
    if mtrSizeMax ≤ totalLen then ([], .gotEof)
    else if b ≤ 1 then ([], .eomFound)
    else match parseLen b l with
      | .error e => ([], e)
      | .ok rlen =>
        let (recs, e) := lengthLoop fuel (totalLen + rlen) (l.drop rlen)
        ((b :: l.take rlen) :: recs, e)

/-! ### Records that can be written and read -/

/-- A page identifier whose numbers can be encoded. -/
def PageId.Ok (id : PageId) : Prop := id.space < mlogDecodeError ∧ id.pageNo < mlogDecodeError

instance (id : PageId) : Decidable id.Ok :=
  inferInstanceAs (Decidable (id.space < mlogDecodeError ∧ id.pageNo < mlogDecodeError))

/-- The number of bytes on the page that a write covers. -/
def PageOp.covered : PageOp → ℕ
  | .write _ data => data.length
  | .memset _ len _ | .memmove _ len _ => len
  | .free | .init | .extended _ | .option => 0

/-- The change can be made on a page of this size: what the reader requires of a write, and the
writer as well, except that it allows the first 8 bytes of a page in `mtr_t::write`,
`mtr_t::memcpy` and `mtr_t::memset`. -/
def PageOp.InRange (size : ℕ) : PageOp → Prop
  | .write offset data => 8 ≤ offset ∧ 0 < data.length ∧ offset + data.length ≤ size
  | .memset offset len _ => 8 ≤ offset ∧ 0 < len ∧ offset + len ≤ size
  | .memmove offset len src =>
    8 ≤ offset ∧ 0 < len ∧ offset + len ≤ size ∧ 8 ≤ src ∧ src + len ≤ size ∧ src ≠ offset
  | .free | .init | .extended _ | .option => True

/-- What `mtr_t::log_write` and its callers assert; `idOf` is the page identifier of each buffer
page.  A payload is at most as long as a page, after the length of the range of a `MEMSET` or
`MEMMOVE`. -/
structure PageRec.Writable (env : PageEnv) (idOf : ℕ → PageId) (r : PageRec) : Prop where
  id_ok : r.id.Ok
  bpage_id : ∀ p, r.bpage = some p → r.id = idOf p
  /-- `mtr_t::free` passes no buffer page. -/
  free_bpage : r.op = .free → r.bpage = none
  not_option : r.op ≠ .option
  payload_ne : r.op.type.haveLen = true → r.op.payload ≠ []
  bytes : Bytes r.op.payload
  offset_le : r.op.offset ≤ env.srvPageSize
  payload_le : r.op.payload.length ≤ env.srvPageSize + 3

/-- What the reader requires of a record: a write is inside the page and not in its first 8 bytes;
an `EXTENDED` record is for an uncompressed page other than the first three of its tablespace, and
its page function finds nothing wrong. -/
def PageRec.Readable (env : PageEnv) (r : PageRec) : Prop :=
  r.op.InRange (env.size r.id) ∧
    ∀ payload, r.op = .extended payload →
      3 ≤ r.id.pageNo ∧ env.zip r.id = false ∧ extendedChecked payload = true ∧
        env.pageApply r.id payload = true

/-- The record as the reader should see it. -/
def PageRec.visit (r : PageRec) : Visit := ⟨r.toLogRec, r.op⟩

end MtrLog
