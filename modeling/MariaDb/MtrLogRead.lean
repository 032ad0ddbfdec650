/-
**Redo log records are read back.**

The records that a mini-transaction writes are visited by the loop of `log_phys_t::apply` one after
the other, each with its type, page, offset and payload, and the length loop of `recv_sys_t::parse`
steps over the same bytes.  The proof follows the bytes of one record: first byte and length, page
identifier, offset, payload.  What one record leaves for the next is `Synced`: the reader is on the
page of the writer, and both count from the same offset.

Main definitions:

* `Framed`: a first byte and length bytes that announce a number of bytes;
* `Synced`: writer and reader are in step.

Main results:

* `applyLoop_logAll`, `lengthLoop_logAll`: **whole mini-transactions**.
-/

import MariaDb.MtrLog

set_option autoImplicit false

namespace MtrLog

open List Option MrecType PageRec

/-! ### The first byte and the length -/

variable {n len offset b size dest src : ℕ} {type : MrecType} {same : Bool}
  {lenBytes l rest : List ℕ} {op : PageOp} {recs : List PageRec}

section

variable (type : MrecType) (same : Bool) (id : PageId)

theorem firstByte_spec : ∀ n < 16, let b := type.code ||| (if same then 0x80 else 0) ||| n
    ofByte b = type ∧ (b &&& 0x80 = 0 ↔ same = false) ∧ b &&& 0xf = n ∧
      type.code + n ≤ b ∧ b < 256 := by
  cases type <;> cases same <;> decide

/-- The first byte `b` and the length bytes `lenBytes` of a record of which `n` bytes follow. -/
structure Framed (type : MrecType) (same : Bool) (n b : ℕ) (lenBytes : List ℕ) : Prop where
  type_eq : ofByte b = type
  same_eq : b &&& 0x80 = 0 ↔ same = false
  one_lt : 1 < b
  lt_256 : b < 256
  len_eq : (b &&& 0xf = n ∧ 0 < n ∧ lenBytes = []) ∨
    (b &&& 0xf = 0 ∧ ∃ k < mtrSizeMax, lenBytes = mlogEncodeVarint k ∧ k + 15 = n + lenBytes.length)

/-- The stored number counts its own additional bytes, at all thresholds. -/
theorem storedLen_spec (h : len < 2 ^ 17) :
    storedLen len + 1 = len + (mlogEncodeVarint (storedLen len)).length ∧
      storedLen len < mtrSizeMax := by
  rw [length_encodeVarint, storedLen, min3Byte_eq, min2Byte_eq]
  have hmax : mtrSizeMax = 1048576 := rfl
  split_ifs <;> omega

theorem Framed.short (hpos : 0 < n) (hn : n < 16) (hfree : 1 < type.code + n) :
    Framed type same n (type.code ||| (if same then 0x80 else 0) ||| n % 256) [] := by
  rw [Nat.mod_eq_of_lt (by omega : n < 256)]
  obtain ⟨htype, hsame, hlow, hle, hlt⟩ := firstByte_spec type same n hn
  exact ⟨htype, hsame, by omega, hlt, .inl ⟨hlow, hpos, rfl⟩⟩

theorem Framed.long (htype : type ≠ .freePage) (h15 : 14 ≤ n) (hn : n < 2 ^ 17) :
    Framed type same n (type.code ||| (if same then 0x80 else 0))
      (mlogEncodeVarint (storedLen (n - 14))) := by
  obtain ⟨hty, hsame, hlow, hle, hlt⟩ := firstByte_spec type same 0 (by omega)
  rw [Nat.or_zero] at hty hsame hlow hle hlt
  obtain ⟨hstored, hmax⟩ := @storedLen_spec (n - 14) (by omega)
  have hcode : 1 < type.code := by
    cases type <;> simp_all [code]
  exact ⟨hty, hsame, by omega, hlt, .inr ⟨hlow, _, hmax, rfl, by omega⟩⟩

/-- The offset as it is written, if the type has one. -/
def offsetBytes (st : MtrState) (bpage : Option ℕ) (offset : ℕ) : List ℕ :=
  if type.haveOffset then mlogEncodeVarint (codedOffset st bpage offset) else []

theorem length_idBytes_le : (idBytes same id).length ≤ 10 := by
  unfold idBytes
  split
  · simp
  · rw [length_append, length_encodeVarint, length_encodeVarint]
    split_ifs <;> omega

theorem two_le_length_idBytes : 2 ≤ (idBytes false id).length := by
  have h1 := length_pos_of_ne_nil (mlogEncodeVarint_ne_nil id.space)
  have h2 := length_pos_of_ne_nil (mlogEncodeVarint_ne_nil id.pageNo)
  simp only [idBytes, Bool.false_eq_true, if_false, length_append]
  omega

end

theorem samePage_of_not_haveLen (h : type.haveLen = false) (st : MtrState) (bpage : Option ℕ)
    (offset : ℕ) : samePage type st bpage offset = false := by
  simp [samePage, maxLen, h]

section

variable (type : MrecType) (st : MtrState) (bpage : Option ℕ)

/-- Of every record at least one byte follows the first one, and two of a `FREE_PAGE` record, whose
first byte would otherwise look like the end of the mini-transaction. -/
theorem length_after_firstByte (id : PageId) (bpage : Option ℕ)
    (offset : ℕ) (hlen : type.haveLen = true → 0 < len) :
    let n := (idBytes (samePage type st bpage offset) id).length + len
    0 < n ∧ 1 < type.code + n := by
  cases h : type.haveLen with
  | false =>
    rw [samePage_of_not_haveLen h]
    have := two_le_length_idBytes id
    omega
  | true =>
    have := hlen h
    have hcode : 1 < type.code := by
      cases type <;> simp_all [haveLen, code]
    omega

theorem codedOffset_le (offset : ℕ) : codedOffset st bpage offset ≤ offset := by
  unfold codedOffset
  split <;> omega

theorem length_codedOffset_le (hoff : offset ≤ 2 ^ 16) :
    (mlogEncodeVarint (codedOffset st bpage offset)).length ≤ 3 := by
  have := codedOffset_le st bpage offset
  rw [length_encodeVarint]
  split_ifs <;> omega

/-- What `log_write` writes, and the state in which it leaves the mini-transaction. -/
theorem logWrite_framed (id : PageId) (bpage : Option ℕ)
    (len offset : ℕ) (hmax : len ≤ 2 ^ 16 + 3) (hoff : offset ≤ 2 ^ 16)
    (hlen : type.haveLen = true ↔ 0 < len) :
    let same := samePage type st bpage offset
    let ids := idBytes same id
    let o := offsetBytes type st bpage offset
    ∃ b lenBytes, logWrite type st id bpage len offset =
        (b :: (lenBytes ++ ids ++ o), if same then st else { st with last := bpage }) ∧
      Framed type same (ids.length + o.length + len) b lenBytes := by
  intro same ids o
  have hids : ids.length ≤ 10 := length_idBytes_le same id
  obtain ⟨hpos, hfree⟩ : 0 < ids.length + len ∧ 1 < type.code + (ids.length + len) :=
    length_after_firstByte type st id bpage offset hlen.mp
  have hnotFree : 0 < len → type ≠ .freePage := by
    intro h hfree
    rw [← hlen, hfree] at h
    exact absurd h (by decide)
  have hfold : idBytes (samePage type st bpage offset) id = ids := rfl
  unfold logWrite
  cases hoffset : type.haveOffset with
  | true =>
    have ho : o = mlogEncodeVarint (codedOffset st bpage offset) := by
      simp [o, offsetBytes, hoffset]
    have holen : o.length ≤ 3 := ho ▸ length_codedOffset_le st bpage hoff
    have hne : type ≠ .freePage := by
      intro hfree
      rw [hfree] at hoffset
      exact absurd hoffset (by decide)
    simp only [if_true, hfold, ← ho]
    split
    · refine ⟨_, _, rfl, ?_⟩
      rw [show len + (1 + ids.length + o.length) - 15 = ids.length + o.length + len - 14 by omega]
      exact Framed.long type same hne (by omega) (by omega)
    · refine ⟨_, [], rfl, ?_⟩
      rw [show 1 + ids.length + o.length + len - 1 = ids.length + o.length + len by omega]
      exact Framed.short type same (by omega) (by omega) (by omega)
  | false =>
    have ho : o = [] := by simp [o, offsetBytes, hoffset]
    simp only [Bool.false_eq_true, if_false, hfold, ho, append_nil, length_nil, add_zero]
    split
    next h =>
      refine ⟨_, _, rfl, ?_⟩
      rw [show len + (1 + ids.length) - 15 = ids.length + len - 14 by omega]
      exact Framed.long type same (hnotFree (by omega)) (by omega) (by omega)
    next h =>
      refine ⟨_, [], rfl, ?_⟩
      rw [show 1 + ids.length + len - 1 = ids.length + len by omega]
      exact Framed.short type same hpos (by omega) hfree

end

/-! ### Reading one record back -/

theorem Framed.recLen (h : Framed type same n b lenBytes) (hl : Bytes l) :
    recLen b (lenBytes ++ l) = (n, l) := by
  unfold MtrLog.recLen
  cases h.len_eq with
  | inl hshort =>
    obtain ⟨hlow, hpos, hnil⟩ := hshort
    rw [if_neg (by omega), hlow, hnil, nil_append]
  | inr hlong =>
    obtain ⟨hlow, k, hk, hbytes, hlen⟩ := hlong
    have hk' : k < mlogDecodeError := hk.trans (by decide)
    rw [hbytes] at hlen ⊢
    rw [if_pos hlow, mlogDecodeVarintLength_encode hk', mlogDecodeVarint_encode hk' hl]
    simp only [drop_left, Prod.mk.injEq, and_true]
    omega

theorem Framed.parseLen (h : Framed type same n b lenBytes) (hl : Bytes l) (hne : l ≠ []) :
    parseLen b (lenBytes ++ l) = .ok (lenBytes.length + n) := by
  unfold MtrLog.parseLen
  cases h.len_eq with
  | inl hshort =>
    obtain ⟨hlow, hpos, hnil⟩ := hshort
    rw [if_pos (by omega), hlow, hnil, length_nil, zero_add]
  | inr hlong =>
    obtain ⟨hlow, k, hk, hbytes, hlen⟩ := hlong
    have hk' : k < mlogDecodeError := hk.trans (by decide)
    have hpos := length_pos_of_ne_nil hne
    rw [hbytes] at hlen ⊢
    have hlength := @length_append _ (mlogEncodeVarint k) l
    rw [if_neg (by omega), if_neg (by omega), mlogDecodeVarintLength_encode hk',
      if_neg (by omega), mlogDecodeVarint_encode hk' hl, if_neg (by omega), hlen, Nat.add_comm]

/-- The state of the reader after the page identifier. -/
def Reader.moved (rd : Reader) (same : Bool) (id : PageId) : Reader :=
  if same then rd else ⟨id, 0⟩

theorem readPageId_idBytes {id : PageId} (hid : id.Ok) (hb : b &&& 0x80 = 0 ↔ same = false)
    (rd : Reader) (n : ℕ) (hl : Bytes l) :
    readPageId rd b ((idBytes same id).length + n) (idBytes same id ++ l) =
      (rd.moved same id, n, l) := by
  obtain ⟨hspace, hpage⟩ := hid
  unfold readPageId Reader.moved idBytes
  cases same with
  | true => simp [hb]
  | false =>
    have hl' : Bytes (mlogEncodeVarint id.pageNo ++ l) := (bytes_encodeVarint hpage).append hl
    rw [if_pos (hb.mpr rfl)]
    simp only [Bool.false_eq_true, if_false, append_assoc,
      mlogDecodeVarintLength_encode hspace, mlogDecodeVarint_encode hspace hl', drop_left,
      mlogDecodeVarintLength_encode hpage, mlogDecodeVarint_encode hpage hl, length_append]
    congr 2
    omega

/-! ### The operation -/

theorem length_encodeVarint_le {i : ℕ} (hi : i < min4Byte) : (mlogEncodeVarint i).length ≤ 3 := by
  rw [min4Byte_eq] at hi
  rw [length_encodeVarint]
  split_ifs <;> omega

theorem lt_mlogDecodeError {i : ℕ} (hi : i < min4Byte) : i < mlogDecodeError :=
  hi.trans (by decide)

theorem readOffset_encode {lastOffset coded : ℕ} {data : List ℕ} (hsize : size ≤ 2 ^ 16)
    (hlast : lastOffset ≠ 1) (hmin : 8 ≤ coded + lastOffset) (hmax : coded + lastOffset < size)
    (hdata : Bytes data) (hne : data ≠ []) :
    readOffset size lastOffset (mlogEncodeVarint coded ++ data) =
      some (coded + lastOffset, data) := by
  have hcoded : coded < min4Byte := by rw [min4Byte_eq]; omega
  have hlen := length_encodeVarint_le hcoded
  have hpos := length_pos_of_ne_nil hne
  unfold readOffset
  simp only [mlogDecodeVarintLength_encode (lt_mlogDecodeError hcoded),
    mlogDecodeVarint_encode (lt_mlogDecodeError hcoded) hdata, length_append, drop_left]
  rw [if_neg hlast, if_neg (by omega), if_neg (by omega), if_neg (by omega),
    Nat.mod_eq_of_lt (by omega), Nat.add_comm]

theorem readFillLen_encode {str : List ℕ} (hsize : size ≤ 2 ^ 16) (hrange : offset + len ≤ size)
    (hstr : Bytes str) :
    readFillLen size offset (mlogEncodeVarint len ++ str) = some (len, str) := by
  have hlt : len < min4Byte := by rw [min4Byte_eq]; omega
  have hlen := length_encodeVarint_le hlt
  unfold readFillLen
  simp only [mlogDecodeVarintLength_encode (lt_mlogDecodeError hlt),
    mlogDecodeVarint_encode (lt_mlogDecodeError hlt) hstr, length_append, drop_left]
  rw [if_neg (by omega), if_neg (by omega)]

theorem moveCode_eq (hne : src ≠ dest) :
    moveCode dest src = if src > dest then 2 * (src - dest - 1) else 2 * (dest - src - 1) + 1 := by
  have h1 : (1 : ℕ) <<< 1 = 2 := rfl
  unfold moveCode
  rw [h1, shiftLeft_or_eq 1 (by norm_num)]
  split_ifs
  · omega
  · omega

section

variable (hne : src ≠ dest) (hdest : dest ≤ 2 ^ 16) (hsrc : src ≤ 2 ^ 16)
include hne hdest hsrc

theorem moveSource_moveCode : moveSource dest (moveCode dest src) = src := by
  unfold moveSource
  rw [Nat.and_one_is_mod, Nat.shiftRight_eq_div_pow, moveCode_eq hne]
  split_ifs <;> omega

theorem moveCode_lt : moveCode dest src < min4Byte := by
  rw [moveCode_eq hne, min4Byte_eq]
  split_ifs <;> omega

end

theorem readMove_encode (hsize : size ≤ 2 ^ 16) (hne : src ≠ dest) (hdest : dest + len ≤ size)
    (hmin : 8 ≤ src) (hsrc : src + len ≤ size) :
    readMove size dest len (mlogEncodeVarint (moveCode dest src)) =
      some (.memmove dest len src, len) := by
  have hcode : moveCode dest src < min4Byte := moveCode_lt hne (by omega) (by omega)
  have hlen := length_encodeVarint_le hcode
  have hdec := mlogDecodeVarint_encode (lt_mlogDecodeError hcode) Bytes.nil
  have hll := mlogDecodeVarintLength_encode (lt_mlogDecodeError hcode) []
  rw [append_nil] at hdec hll
  unfold readMove
  simp only [hdec, hll, moveSource_moveCode hne (show dest ≤ 2 ^ 16 by omega) (by omega)]
  rw [if_neg (by omega), if_pos ⟨hmin, hsrc⟩]

theorem readOp_payload (hsize : size ≤ 2 ^ 16) (hin : op.InRange size)
    (hoff : op.type.haveOffset = true) (hbytes : Bytes op.payload) :
    readOp op.type size op.offset op.payload = some (op, op.covered) := by
  cases op with
  | write offset data =>
    obtain ⟨hmin, hne, hle⟩ := hin
    have hfit : ¬ data.length + offset > size := by omega
    exact if_neg hfit
  | memset offset len str =>
    obtain ⟨hmin, hpos, hle⟩ := hin
    have hstr : Bytes str := fun x hx => hbytes x (mem_append_right _ hx)
    simp [PageOp.type, PageOp.offset, PageOp.payload, PageOp.covered, readOp,
      readFillLen_encode hsize hle hstr]
  | memmove offset len src =>
    obtain ⟨hmin, hpos, hle, hsmin, hsle, hne⟩ := hin
    have hsrc : Bytes (mlogEncodeVarint (moveCode offset src)) :=
      fun x hx => hbytes x (mem_append_right _ hx)
    simp only [PageOp.type, PageOp.offset, PageOp.payload, PageOp.covered, readOp,
      readFillLen_encode hsize hle hsrc]
    exact readMove_encode hsize hne hle hsmin hsle
  | free | init | extended payload | option => exact absurd hoff Bool.false_ne_true

/-! ### Writer and reader in step -/

/-- The reader is on the page of the writer, at the same offset, and may see a write there without
a page identifier. -/
def Synced (idOf : ℕ → PageId) (st : MtrState) (rd : Reader) : Prop :=
  ∀ p, st.last = some p → rd.page = idOf p ∧ rd.lastOffset = st.lastOffset ∧ rd.lastOffset ≠ 1

variable {env : PageEnv} {idOf : ℕ → PageId} {st : MtrState} {rd : Reader} {r : PageRec}

theorem synced_start (idOf : ℕ → PageId) (rd : Reader) : Synced idOf MtrState.start rd := by
  intro p hp
  cases hp

/-- A record without a page identifier is for the page of the last record. -/
theorem onPage_of_samePage {bpage : Option ℕ} (h : samePage type st bpage offset = true) :
    st.last = bpage ∧ bpage ≠ none ∧ (type.haveOffset = true → st.lastOffset ≤ offset) := by
  simp only [samePage, maxLen, MtrState.onPage, decide_eq_true_eq] at h
  split_ifs at h with h1 h2 h3 h4 <;> simp_all

/-- An offset that is not relative is preceded by a page identifier. -/
theorem codedOffset_eq {bpage : Option ℕ} (htype : type.haveOffset = true) :
    codedOffset st bpage offset =
      if samePage type st bpage offset then offset - st.lastOffset else offset := by
  have hlen : type.haveLen = true := by
    cases type <;> simp_all [haveOffset, haveLen]
  by_cases h : st.onPage bpage = true ∧ st.lastOffset ≤ offset <;>
    simp [codedOffset, samePage, maxLen, htype, hlen, h]

/-- The record is for the page of the last one, and has no page identifier. -/
abbrev PageRec.onLast (r : PageRec) (st : MtrState) : Bool :=
  samePage r.op.type st r.bpage r.op.offset

/-- The offset of the record as it is written. -/
abbrev PageRec.offsetPart (r : PageRec) (st : MtrState) : List ℕ :=
  offsetBytes r.op.type st r.bpage r.op.offset

/-- After the page identifier, the coded offset is relative to `last_offset` of the reader. -/
theorem Synced.moved_offset (hs : Synced idOf st rd) (htype : r.op.type.haveOffset = true) :
    let rd' := rd.moved (r.onLast st) r.id
    codedOffset st r.bpage r.op.offset + rd'.lastOffset = r.op.offset ∧ rd'.lastOffset ≠ 1 := by
  rw [codedOffset_eq htype]
  unfold onLast
  cases hsame : samePage r.op.type st r.bpage r.op.offset with
  | false => exact ⟨rfl, Nat.zero_ne_one⟩
  | true =>
    obtain ⟨hlast, hsome, hle⟩ := onPage_of_samePage hsame
    obtain ⟨p, hp⟩ := ne_none_iff_exists'.mp hsome
    obtain ⟨_, hoff, hone⟩ := hs p (hlast.trans hp)
    have hle' := hle htype
    refine ⟨?_, hone⟩
    simp only [Reader.moved, if_true]
    omega

/-- `last_offset` after a record. -/
def PageOp.readerOffset (op : PageOp) : ℕ :=
  match op with
  | .free => 1
  | .init | .extended _ => filPageType
  | .write _ _ | .memset _ _ _ | .memmove _ _ _ => (op.offset + op.covered) % 2 ^ 16
  | .option => 0

theorem readBody_of_haveOffset (h : type.haveOffset = true) (rlen : ℕ) (l : List ℕ) :
    readBody env rd type rlen l =
      (readOffset (env.size rd.page) rd.lastOffset (l.take rlen)).bind fun (lastOffset, data) =>
        (readOp type (env.size rd.page) lastOffset data).bind fun (op, llen) =>
          some (⟨⟨type, rd.page, lastOffset, data⟩, op⟩,
            ⟨rd.page, (lastOffset + llen) % 2 ^ 16⟩, l.drop rlen) := by
  cases type with
  | write | memset | memmove => rfl
  | freePage | initPage | extended | reserved | option => exact absurd h Bool.false_ne_true

theorem PageOp.InRange.range (hin : op.InRange size) (h : op.type.haveOffset = true) :
    8 ≤ op.offset ∧ 0 < op.covered ∧ op.offset + op.covered ≤ size := by
  cases op with
  | write offset data => exact hin
  | memset offset len str => exact hin
  | memmove offset len src => exact ⟨hin.1, hin.2.1, hin.2.2.1⟩
  | free | init | extended payload | option => exact absurd h Bool.false_ne_true

theorem readerOffset_of_haveOffset (h : op.type.haveOffset = true) :
    op.readerOffset = (op.offset + op.covered) % 2 ^ 16 := by
  cases op with
  | write offset data | memset offset len str | memmove offset len src => rfl
  | free | init | extended payload | option => exact absurd h Bool.false_ne_true

theorem haveLen_of_haveOffset (h : type.haveOffset = true) : type.haveLen = true := by
  cases type <;> simp_all [haveOffset, haveLen]

theorem PageEnv.size_le_max (env : PageEnv) (id : PageId) : env.size id ≤ 2 ^ 16 :=
  (env.size_le id).trans env.srvPageSize_le

theorem bytes_idBytes {id : PageId} (hid : id.Ok) : Bytes (idBytes same id) := by
  unfold idBytes
  split
  · exact Bytes.nil
  · exact (bytes_encodeVarint hid.1).append (bytes_encodeVarint hid.2)

theorem bytes_offsetBytes (type : MrecType) (st : MtrState) (bpage : Option ℕ) (offset : ℕ)
    (hoff : offset ≤ 2 ^ 16) : Bytes (offsetBytes type st bpage offset) := by
  have hle := codedOffset_le st bpage offset
  unfold offsetBytes
  split
  · exact bytes_encodeVarint (by rw [mlogDecodeError_eq]; omega)
  · exact Bytes.nil

theorem Framed.bytes (h : Framed type same n b lenBytes) : Bytes lenBytes := by
  cases h.len_eq with
  | inl hshort => rw [hshort.2.2]; exact Bytes.nil
  | inr hlong =>
    obtain ⟨_, k, hk, hbytes, _⟩ := hlong
    rw [hbytes]
    exact bytes_encodeVarint (hk.trans (by decide))

section

variable (hw : r.Writable env idOf)
include hw

theorem haveLen_iff : r.op.type.haveLen = true ↔ 0 < r.op.payload.length := by
  refine ⟨fun h => length_pos_of_ne_nil (hw.payload_ne h), fun h => ?_⟩
  cases hop : r.op with
  | free | init => rw [hop] at h; exact absurd h (lt_irrefl 0)
  | extended payload | write offset data | memset offset len str | memmove offset len src => rfl
  | option => exact absurd hop hw.not_option

theorem Synced.moved_page (hs : Synced idOf st rd) : (rd.moved (r.onLast st) r.id).page = r.id := by
  cases hsame : r.onLast st with
  | false => rfl
  | true =>
    obtain ⟨hlast, hsome, _⟩ := onPage_of_samePage hsame
    obtain ⟨p, hp⟩ := ne_none_iff_exists'.mp hsome
    rw [hw.bpage_id p hp]
    exact (hs p (hlast.trans hp)).1

/-- The bytes of a record, and the state of the writer after it. -/
theorem log_eq (st : MtrState) :
    let same := r.onLast st
    let ids := idBytes same r.id
    let o := r.offsetPart st
    ∃ b lenBytes, r.log st =
        (b :: (lenBytes ++ (ids ++ (o ++ r.op.payload))), ⟨r.bpage, r.lastOffset st.lastOffset⟩) ∧
      Framed r.op.type same (ids.length + (o.length + r.op.payload.length)) b lenBytes := by
  intro same ids o
  have hsize := env.srvPageSize_le
  have hoff := hw.offset_le
  have hlen := hw.payload_le
  obtain ⟨b, lenBytes, hlog, hframed⟩ := logWrite_framed r.op.type st r.id r.bpage
    r.op.payload.length r.op.offset (by omega) (by omega) (haveLen_iff hw)
  refine ⟨b, lenBytes, ?_, by rw [← Nat.add_assoc]; exact hframed⟩
  unfold log
  rw [hlog]
  cases hsame : r.onLast st with
  | false => simp [ids, o, same, hsame]
  | true => simp [ids, o, same, hsame, (onPage_of_samePage hsame).1]

theorem bytes_afterLen (st : MtrState) (same : Bool) :
    Bytes (r.offsetPart st ++ r.op.payload) ∧
      Bytes (idBytes same r.id ++ (r.offsetPart st ++ r.op.payload)) := by
  have hoff := hw.offset_le.trans env.srvPageSize_le
  have hbody := (bytes_offsetBytes r.op.type st r.bpage r.op.offset hoff).append hw.bytes
  exact ⟨hbody, (bytes_idBytes hw.id_ok).append hbody⟩

theorem bytes_log (st : MtrState) : Bytes (r.log st).1 := by
  obtain ⟨b, lenBytes, hlog, hframed⟩ := log_eq hw st
  rw [hlog]
  intro x hx
  cases hx with
  | head => exact hframed.lt_256
  | tail _ hx => exact (hframed.bytes.append (bytes_afterLen hw st _).2) x hx

theorem log_ne_nil (st : MtrState) : (r.log st).1 ≠ [] := by
  obtain ⟨b, lenBytes, hlog, _⟩ := log_eq hw st
  rw [hlog]
  exact cons_ne_nil _ _

/-- The reader comes to the part of a record after the page identifier, on the page of the
record. -/
theorem readRecord_eq_readBody (rd : Reader) (hlog : (r.log st).1 = b :: l) (hrest : Bytes rest) :
    let o := r.offsetPart st
    readRecord env rd b (l ++ rest) =
      readBody env (rd.moved (r.onLast st) r.id) r.op.type
        (o.length + r.op.payload.length) (o ++ r.op.payload ++ rest) := by
  obtain ⟨b', lenBytes, hlog', hframed⟩ := log_eq hw st
  cases (congrArg Prod.fst hlog').symm.trans hlog
  obtain ⟨hbody, hids⟩ := bytes_afterLen hw st (r.onLast st)
  have hbody' := hbody.append hrest
  have hids' := hids.append hrest
  unfold readRecord
  rw [append_assoc, hframed.recLen hids', append_assoc]
  simp only [readPageId_idBytes hw.id_ok hframed.same_eq rd _ hbody', hframed.type_eq]

/-- The length loop steps over exactly the bytes of a record. -/
theorem parseLen_log (hlog : (r.log st).1 = b :: l) (hrest : Bytes rest)
    (hne : rest ≠ []) : 1 < b ∧ parseLen b (l ++ rest) = .ok l.length := by
  obtain ⟨b', lenBytes, hlog', hframed⟩ := log_eq hw st
  cases (congrArg Prod.fst hlog').symm.trans hlog
  obtain ⟨_, hids⟩ := bytes_afterLen hw st (r.onLast st)
  refine ⟨hframed.one_lt, ?_⟩
  rw [append_assoc, hframed.parseLen (hids.append hrest) (append_ne_nil_of_right_ne_nil _ hne)]
  simp

/-- Both sides count from the same offset after a record for a buffer page. -/
theorem readerOffset_eq_lastOffset {p : ℕ} (hp : r.bpage = some p)
    (lastOffset : ℕ) : r.op.readerOffset = r.lastOffset lastOffset := by
  unfold PageRec.lastOffset
  cases hop : r.op with
  | write offset data | memset offset len str | memmove offset len src => rfl
  | free => rw [hw.free_bpage hop] at hp; cases hp
  | init => rfl
  | extended payload => rw [hp]; rfl
  | option => exact absurd hop hw.not_option

variable (hr : r.Readable env)
include hr

/-- A `WRITE`, `MEMSET` or `MEMMOVE` record is read back. -/
theorem readBody_write (hpage : rd.page = r.id) (htype : r.op.type.haveOffset = true) {coded : ℕ}
    (hoff : coded + rd.lastOffset = r.op.offset) (hlast : rd.lastOffset ≠ 1) (rest : List ℕ) :
    readBody env rd r.op.type ((mlogEncodeVarint coded).length + r.op.payload.length)
        (mlogEncodeVarint coded ++ r.op.payload ++ rest) =
      some (r.visit, ⟨r.id, r.op.readerOffset⟩, rest) := by
  obtain ⟨hmin, hpos, hle⟩ := hr.1.range htype
  have hne := hw.payload_ne (haveLen_of_haveOffset htype)
  have hsize := env.size_le_max r.id
  rw [← length_append, readBody_of_haveOffset htype, take_left, drop_left, hpage,
    readOffset_encode hsize hlast (by omega) (by omega) hw.bytes hne, bind_some, hoff]
  simp [readOp_payload hsize hr.1 htype hw.bytes, readerOffset_of_haveOffset htype, visit, toLogRec]

/-- A record of a type without an offset is read back. -/
theorem readBody_noOffset (hpage : rd.page = r.id)
    (htype : r.op.type.haveOffset = false) (rest : List ℕ) :
    readBody env rd r.op.type r.op.payload.length (r.op.payload ++ rest) =
      some (r.visit, ⟨r.id, r.op.readerOffset⟩, rest) := by
  rw [visit, toLogRec]
  cases hop : r.op with
  | free | init =>
    simp [readBody, PageOp.type, PageOp.payload, PageOp.offset, PageOp.readerOffset, hpage]
  | extended payload =>
    obtain ⟨hno, hzip, hcheck, happly⟩ := hr.2 payload hop
    simp [readBody, PageOp.type, PageOp.payload, PageOp.offset, PageOp.readerOffset, hpage,
      Nat.not_lt.mpr hno, hzip, hcheck, happly]
  | write offset data | memset offset len str | memmove offset len src =>
    rw [hop] at htype; exact absurd htype Bool.false_ne_true.symm
  | option => exact absurd hop hw.not_option

/-- The bytes of a record after the page identifier are read back. -/
theorem readBody_op (hs : Synced idOf st rd) (rest : List ℕ) :
    let o := r.offsetPart st
    readBody env (rd.moved (r.onLast st) r.id) r.op.type
        (o.length + r.op.payload.length) (o ++ r.op.payload ++ rest) =
      some (r.visit, ⟨r.id, r.op.readerOffset⟩, rest) := by
  have hpage := hs.moved_page hw
  unfold offsetPart offsetBytes
  cases htype : r.op.type.haveOffset with
  | true =>
    obtain ⟨hoff, hlast⟩ := hs.moved_offset (r := r) htype
    exact readBody_write hw hr hpage htype hoff hlast rest
  | false =>
    simp only [Bool.false_eq_true, if_false, length_nil, zero_add]
    exact readBody_noOffset hw hr hpage htype rest

/-- **One record.**  A record is read back in the state that the writer left. -/
theorem readRecord_log (hs : Synced idOf st rd)
    (hlog : (r.log st).1 = b :: l) (hrest : Bytes rest) :
    readRecord env rd b (l ++ rest) = some (r.visit, ⟨r.id, r.op.readerOffset⟩, rest) := by
  rw [readRecord_eq_readBody hw rd hlog hrest]
  exact readBody_op hw hr hs rest

theorem readerOffset_ne_one {p : ℕ} (hp : r.bpage = some p) : r.op.readerOffset ≠ 1 := by
  cases htype : r.op.type.haveOffset with
  | true =>
    -- the end of a write is past the first 8 bytes; at the end of a 64 KiB page it wraps to 0
    obtain ⟨hmin, hpos, hle⟩ := hr.1.range htype
    have hsize := env.size_le_max r.id
    rw [readerOffset_of_haveOffset htype]
    omega
  | false =>
    cases hop : r.op with
    | init => decide
    | extended payload => exact (by decide : filPageType ≠ 1)
    | free => rw [hw.free_bpage hop] at hp; cases hp
    | option => exact absurd hop hw.not_option
    | write offset data | memset offset len str | memmove offset len src =>
      rw [hop] at htype; cases htype

/-- The record keeps writer and reader in step. -/
theorem Synced.log (st : MtrState) : Synced idOf (r.log st).2 ⟨r.id, r.op.readerOffset⟩ := by
  obtain ⟨b, lenBytes, hlog, _⟩ := log_eq hw st
  rw [hlog]
  intro p hp
  exact ⟨hw.bpage_id p hp, readerOffset_eq_lastOffset hw hp _, readerOffset_ne_one hw hr hp⟩

end

/-! ### Whole mini-transactions -/

section

variable (hw : ∀ r ∈ recs, r.Writable env idOf)
include hw

theorem bytes_logAll (st : MtrState) : Bytes (logAll st recs).flatten := by
  induction recs generalizing st with
  | nil => exact Bytes.nil
  | cons r recs ih =>
    rw [forall_mem_cons] at hw
    exact (bytes_log hw.1 st).append (ih hw.2 _)

/-- The loop of `log_phys_t::apply` visits the records of a mini-transaction. -/
theorem applyLoop_logAll (hr : ∀ r ∈ recs, r.Readable env)
    (hs : Synced idOf st rd) {tail : List ℕ} (htail : Bytes tail) {fuel : ℕ}
    (hfuel : recs.length < fuel) :
    applyLoop env fuel rd ((logAll st recs).flatten ++ 0 :: tail) = (recs.map visit, .done) := by
  -- by induction on the records; `Synced` is what one record leaves for the next
  induction recs generalizing st rd fuel with
  | nil =>
    obtain ⟨fuel, rfl⟩ := Nat.exists_eq_succ_of_ne_zero (Nat.ne_zero_of_lt hfuel)
    rfl
  | cons r recs ih =>
    obtain ⟨fuel, rfl⟩ := Nat.exists_eq_succ_of_ne_zero (Nat.ne_zero_of_lt hfuel)
    rw [forall_mem_cons] at hw hr
    have hrest : Bytes ((logAll (r.log st).2 recs).flatten ++ 0 :: tail) :=
      (bytes_logAll hw.2 _).append (htail.cons (by norm_num))
    obtain ⟨b, l, hlog⟩ := exists_cons_of_ne_nil (log_ne_nil hw.1 st)
    have hb := (parseLen_log hw.1 hlog hrest (by simp)).1
    have hnext := ih hw.2 hr.2 (Synced.log hw.1 hr.1 st) (Nat.lt_of_succ_lt_succ hfuel)
    rw [logAll, flatten_cons, hlog, cons_append, cons_append, append_assoc, applyLoop,
      if_neg (by omega), readRecord_log hw.1 hr.1 hs hlog hrest]
    simp [hnext]

/-- The length loop of `recv_sys_t::parse` finds the records of a mini-transaction and its end. -/
theorem lengthLoop_logAll {tail : List ℕ}
    (htail : Bytes tail) {eom : ℕ} (heom : eom ≤ 1) {total : ℕ}
    (htotal : total + ((logAll st recs).map fun l => l.length - 1).sum < mtrSizeMax) {fuel : ℕ}
    (hfuel : recs.length < fuel) :
    lengthLoop fuel total ((logAll st recs).flatten ++ eom :: tail) =
      (logAll st recs, .eomFound) := by
  induction recs generalizing st total fuel with
  | nil =>
    obtain ⟨fuel, rfl⟩ := Nat.exists_eq_succ_of_ne_zero (Nat.ne_zero_of_lt hfuel)
    rw [logAll, flatten_nil, nil_append, lengthLoop, if_neg (by omega), if_pos heom]
  | cons r recs ih =>
    obtain ⟨fuel, rfl⟩ := Nat.exists_eq_succ_of_ne_zero (Nat.ne_zero_of_lt hfuel)
    rw [forall_mem_cons] at hw
    have hrest : Bytes ((logAll (r.log st).2 recs).flatten ++ eom :: tail) :=
      (bytes_logAll hw.2 _).append (htail.cons (by omega))
    obtain ⟨b, l, hlog⟩ := exists_cons_of_ne_nil (log_ne_nil hw.1 st)
    obtain ⟨hb, hlen⟩ := parseLen_log hw.1 hlog hrest (by simp)
    simp only [logAll, map_cons, sum_cons, hlog, length_cons, Nat.add_sub_cancel] at htotal
    have hnext := @ih (r.log st).2 hw.2 (total + l.length) (by omega) fuel
      (Nat.lt_of_succ_lt_succ hfuel)
    rw [logAll, flatten_cons, hlog, cons_append, cons_append,
      append_assoc, lengthLoop, if_neg (by omega), if_neg (by omega), hlen]
    simp [hnext]

end

/-- **The records of a mini-transaction are read back.**  If every record is one that `log_write`
accepts and the reader accepts, then `log_phys_t::apply` visits exactly these records, and so does
the length loop of `recv_sys_t::parse` as long as the mini-transaction is below its size limit. -/
theorem mtr_log_read_back (env : PageEnv) (idOf : ℕ → PageId) (recs : List PageRec)
    (hw : ∀ r ∈ recs, r.Writable env idOf) (hr : ∀ r ∈ recs, r.Readable env) (rd : Reader)
    (tail : List ℕ) (htail : Bytes tail) (fuel : ℕ) (hfuel : recs.length < fuel) :
    let log := logAll MtrState.start recs
    applyLoop env fuel rd (log.flatten ++ 0 :: tail) = (recs.map visit, .done) ∧
      ((log.map fun l => l.length - 1).sum < mtrSizeMax → ∀ eom ≤ 1,
        lengthLoop fuel 0 (log.flatten ++ eom :: tail) = (log, .eomFound)) := by
  intro log
  constructor
  · exact applyLoop_logAll hw hr (synced_start idOf rd) htail hfuel
  · intro htotal eom heom
    exact lengthLoop_logAll hw htail heom (by rw [zero_add]; exact htotal) hfuel

/-- Uncompressed pages of 16 KiB. -/
def plainPages : PageEnv where
  srvPageSize := 2 ^ 14
  size := fun _ => 2 ^ 14
  zip := fun _ => false
  pageApply := fun _ _ => true
  srvPageSize_le := by norm_num
  size_le := fun _ => le_rfl

/-- A mini-transaction that initialises a page, writes to it three times and frees another one. -/
def initAndWrite : List PageRec :=
  [⟨⟨5, 4⟩, some 4, .init⟩, ⟨⟨5, 4⟩, some 4, .write 24 [69, 191]⟩,
    ⟨⟨5, 4⟩, some 4, .memset 38 200 [0]⟩, ⟨⟨5, 4⟩, some 4, .memmove 100 40 120⟩,
    ⟨⟨5, 9⟩, none, .free⟩]

theorem initAndWrite_writable : ∀ r ∈ initAndWrite, r.Writable plainPages fun p => ⟨5, p⟩ := by
  intro r hr
  simp only [initAndWrite, mem_cons, not_mem_nil, or_false] at hr
  rcases hr with rfl | rfl | rfl | rfl | rfl <;>
    exact ⟨by decide, by simp, by simp, by simp, by decide, by decide, by decide, by decide⟩

theorem initAndWrite_readable : ∀ r ∈ initAndWrite, r.Readable plainPages := by
  intro r hr
  simp only [initAndWrite, mem_cons, not_mem_nil, or_false] at hr
  rcases hr with rfl | rfl | rfl | rfl | rfl <;>
    exact ⟨by simp [PageOp.InRange, plainPages], by simp⟩

theorem mtr_log_read_back_initAndWrite :
    (∀ r ∈ initAndWrite, r.Writable plainPages fun p => ⟨5, p⟩) ∧
      (∀ r ∈ initAndWrite, r.Readable plainPages) ∧
      applyLoop plainPages 6 ⟨⟨0, 0⟩, 1⟩ ((logAll MtrState.start initAndWrite).flatten ++ [0]) =
        (initAndWrite.map visit, .done) :=
  ⟨initAndWrite_writable, initAndWrite_readable,
    (mtr_log_read_back plainPages _ initAndWrite initAndWrite_writable initAndWrite_readable
      ⟨⟨0, 0⟩, 1⟩ [] Bytes.nil 6 (by decide)).1⟩

/-- A write of one byte at the start of a page. -/
def writeAtStart : PageRec := ⟨⟨5, 4⟩, some 4, .write 0 [1]⟩

/-- The reader accepts no write to the first 8 bytes of a page, which hold the checksum and the page
number; `log_write` logs it all the same. -/
theorem write_at_start_not_visited :
    (writeAtStart.Writable plainPages fun p => ⟨5, p⟩) ∧
      applyLoop plainPages 2 ⟨⟨0, 0⟩, 1⟩
        ((logAll MtrState.start [writeAtStart]).flatten ++ [0]) = ([], .corrupt) := by
  constructor
  · exact ⟨by decide, by simp [writeAtStart], by simp [writeAtStart], by simp [writeAtStart],
      by decide, by decide, by decide, by decide⟩
  · decide

end MtrLog
