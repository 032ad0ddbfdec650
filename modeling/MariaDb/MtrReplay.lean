/-
**Replaying a page write.**

The functions of `mtr_t` that change a page do two things: they change the bytes of the page in the
buffer pool, and they log a record.  Recovery applies the record to the old page.  This module
models both sides on page images and says exactly when the two images are the same.

Every access to the page is checked against the range of the operation, so that an operation that
reads or writes outside of its range has no result.

The two sides differ in one operation, the fill with a repeating string.  The loop of
`mtr_t::memset` advances by the length of the range where the loop of `log_phys_t::apply` advances
by the length of the string, so the page in the buffer pool receives the string only once.  And if
the length of the string does not divide that of the range, the loop of `log_phys_t::apply` writes
past the end of the range, and the length of the copy that follows it is negative.

Main definitions:

* `Image`, `copy`, `fill`: page images and their operations;
* `PageWrite.exec`, `PageWrite.logged`: a page write in the buffer pool, and its record;
* `PageOp.replay`, `replay`: recovery;
* `Reproduced`: recovery gives the page of the buffer pool.

Main results:

* `fill_stride`, `fill_eq_none`: the fill loop of recovery;
* `reproduced_iff`: **when recovery gives the page of the buffer pool**.
-/

import MariaDb.MtrLogRead

set_option autoImplicit false

namespace MtrLog

open List Option Nat

/-! ### Page images -/

/-- The bytes of a page, by their offsets. -/
abbrev Image := ℕ → ℕ

/-- The image with `n` bytes from `p` on replaced. -/
def Image.over (img : Image) (p n : ℕ) (f : ℕ → ℕ) : Image :=
  fun i => if p ≤ i ∧ i < p + n then f (i - p) else img i

/-- `memcpy(frame + p, str, n)`, where the operation may access the page from `lo` to `hi`. -/
def copy (lo hi : ℕ) (img : Image) (p : ℕ) (str : List ℕ) (n : ℕ) : Option Image :=
  if n ≤ str.length ∧ lo ≤ p ∧ p + n ≤ hi then some (img.over p n fun j => str.getD j 0) else none

/-- The loop `for (s= 0; s < len; s+= stride) memcpy(frame + p + s, str, size)` from `s` on; the
value of `s` at its end is part of the result. -/
def fillLoop (lo hi p len : ℕ) (str : List ℕ) (stride : ℕ) : ℕ → ℕ → Image → Option (ℕ × Image)
  | 0, _, _ => none
  | fuel + 1, s, img =>
    if s < len then
      (copy lo hi img (p + s) str str.length).bind
        (fillLoop lo hi p len str stride fuel (s + stride))
    else some (s, img)

/-- The loop and the copy after it, `memcpy(frame + p + s, str, len - s)`; the length is a
`size_t`. -/
def fill (lo hi : ℕ) (img : Image) (p len : ℕ) (str : List ℕ) (stride : ℕ) : Option Image :=
  (fillLoop lo hi p len str stride (len + 1) 0 img).bind fun (s, img) =>
    copy lo hi img (p + s) str ((2 ^ 64 + len - s) % 2 ^ 64)

/-- The bytes from `p` on. -/
def Image.read (img : Image) (p n : ℕ) : List ℕ := (List.range n).map fun j => img (p + j)

/-- The number of leading bytes of `buf` that the page already has at `p`. -/
def equalPrefix (img : Image) : ℕ → List ℕ → ℕ
  | _, [] => 0
  | p, b :: buf => if img p = b then equalPrefix img (p + 1) buf + 1 else 0

/-! ### Page writes -/

inductive WriteType
  | normal
  | maybeNop
  | forced
  deriving DecidableEq, Repr

/-- `mach_write_to_1` .. `mach_write_to_8`: the last `l` bytes of a number, the most significant one
first. -/
def machWrite (l val : ℕ) : List ℕ := (List.range l).map fun j => (val >>> (8 * (l - 1 - j))) % 256

/-- The page writes of `mtr_t`. -/
inductive PageWrite
  /-- `mtr_t::write<l,w>` -/
  | write (l : ℕ) (w : WriteType) (offset val : ℕ)
  /-- `mtr_t::memcpy<w>` -/
  | memcpy (w : WriteType) (offset : ℕ) (str : List ℕ)
  /-- `mtr_t::memset` with one byte -/
  | memset (offset len val : ℕ)
  /-- `mtr_t::memset` with a string -/
  | memsetString (offset len : ℕ) (str : List ℕ)
  /-- `mtr_t::memmove`; the caller moves the bytes -/
  | memmove (dest src len : ℕ)
  deriving DecidableEq, Repr

open PageWrite

variable (img : Image)

/-- The number of bytes that `write` and `memcpy` skip, because the page has them already. -/
def skipped (w : WriteType) (offset : ℕ) (buf : List ℕ) : ℕ :=
  if w ≠ .forced then equalPrefix img offset buf else 0

/-- The page in the buffer pool after the write. -/
def PageWrite.exec : PageWrite → Option Image
  | .write l w offset val =>
    let buf := machWrite l val
    if w ≠ .forced ∧ skipped img w offset buf = l then some img
    else copy offset (offset + l) img offset buf l
  | .memcpy w offset str =>
    let k := skipped img w offset str
    if w ≠ .forced ∧ k = str.length then some img
    else copy offset (offset + str.length) img (offset + k) (str.drop k) (str.length - k)
  | .memset offset len val => some (img.over offset len fun _ => val)
  | .memsetString offset len str =>
    -- `s+= len`
    fill offset (offset + len) img offset len str len
  | .memmove dest src len => some (img.over dest len fun j => img (src + j))

/-- The record of the write, if there is one.  The data are taken from the page after the write. -/
def PageWrite.logged : PageWrite → Option PageOp
  | .write l w offset val =>
    let buf := machWrite l val
    let k := skipped img w offset buf
    if w ≠ .forced ∧ k = l then none
    else
      let img' := img.over offset l fun j => buf.getD j 0
      some (.write (offset + k) (img'.read (offset + k) (l - k)))
  | .memcpy w offset str =>
    let k := skipped img w offset str
    if w ≠ .forced ∧ k = str.length then none
    else
      let img' := img.over (offset + k) (str.length - k) fun j => (str.drop k).getD j 0
      some (.write (offset + k) (img'.read (offset + k) (str.length - k)))
  | .memset offset len val => some (.memset offset len [val])
  | .memsetString offset len str => some (.memset offset len str)
  | .memmove dest src len => some (.memmove dest len src)

/-- What the functions assert: the range lies inside the page; a string is shorter than the range
that it fills; a move has distinct source and destination, neither in the first 8 bytes. -/
def PageWrite.InPage (size : ℕ) : PageWrite → Prop
  | .write l _ offset _ => (l = 1 ∨ l = 2 ∨ l = 4 ∨ l = 8) ∧ offset + l ≤ size
  | .memcpy _ offset str => str ≠ [] ∧ Bytes str ∧ offset + str.length ≤ size
  | .memset offset len val => 0 < len ∧ val < 256 ∧ offset + len ≤ size
  | .memsetString offset len str =>
    str ≠ [] ∧ str.length < len ∧ Bytes str ∧ offset + len ≤ size
  | .memmove dest src len =>
    8 ≤ dest ∧ 8 ≤ src ∧ 0 < len ∧ src + len ≤ size ∧ src ≠ dest ∧ dest + len ≤ size

/-! ### Recovery -/

/-- The effect of a record on its page in `log_phys_t::apply`, for the records of page writes. -/
def PageOp.replay : PageOp → Option Image
  | .write offset data => copy offset (offset + data.length) img offset data data.length
  | .memset offset len str =>
    if str.length ≠ 1 then fill offset (offset + len) img offset len str str.length
    else some (img.over offset len fun _ => str.getD 0 0)
  | .memmove offset len src => some (img.over offset len fun j => img (src + j))
  | .free | .option => some img
  | .init | .extended _ => none

/-- Apply a record of one page write to the page; there is no result if the record is found to be
corrupted. -/
def replay (env : PageEnv) (rd : Reader) (bytes : List ℕ) (img : Image) : Option Image :=
  match applyLoop env 2 rd (bytes ++ [0]) with
  | ([v], .done) => v.op.replay img
  | _ => none

/-- The write stays in its range, and applying what it logged to the old page stays in the range
too and gives the new page.  A write that logs nothing changes nothing. -/
def Reproduced (env : PageEnv) (st : MtrState) (rd : Reader) (id : PageId) (bpage : Option ℕ)
    (op : PageWrite) (img : Image) : Prop :=
  match op.logged img with
  | none => op.exec img = some img
  | some lop =>
    ∃ img', op.exec img = some img' ∧
      replay env rd ((⟨id, bpage, lop⟩ : PageRec).log st).1 img = some img'

/-- The bytes of a write that lie in the first 8 bytes of the page: there are none if the write is
forced, and otherwise none that change. -/
def HeaderKept (w : WriteType) (offset : ℕ) (buf : List ℕ) : Prop :=
  if w = .forced then 8 ≤ offset
  else ∀ j < buf.length, offset + j < 8 → img (offset + j) = buf.getD j 0

/-- When recovery gives the page of the buffer pool.  The first 8 bytes of a page are not written.
A fill with a string is right only if the page has the repeated string already, after its first
copy, and a whole number of copies fill the range. -/
def PageWrite.Replayable : PageWrite → Prop
  | .write l w offset val => HeaderKept img w offset (machWrite l val)
  | .memcpy w offset str => HeaderKept img w offset str
  | .memset offset _ _ => 8 ≤ offset
  | .memsetString offset len str =>
    8 ≤ offset ∧ str.length ∣ len ∧
      ∀ j, str.length ≤ j → j < len → img (offset + j) = str.getD (j % str.length) 0
  | .memmove _ _ _ => True

/-! ### The fill loops -/

theorem over_apply (p n : ℕ) (f : ℕ → ℕ) (i : ℕ) :
    img.over p n f i = if p ≤ i ∧ i < p + n then f (i - p) else img i := rfl

theorem over_zero (p : ℕ) (f : ℕ → ℕ) : img.over p 0 f = img := by
  funext i
  rw [over_apply, if_neg (by omega)]

theorem over_over (p n m : ℕ) (f g : ℕ → ℕ) (hg : ∀ j < m, g j = f (n + j)) :
    (img.over p n f).over (p + n) m g = img.over p (n + m) f := by
  funext i
  simp only [over_apply]
  split_ifs with h1 h2 h3 h4
  · rw [hg _ (by omega)]
    congr 1
    omega
  all_goals omega

variable {p s offset len : ℕ} {str buf : List ℕ} {w : WriteType}

theorem copy_eq {lo hi n : ℕ} (hn : n ≤ str.length) (hlo : lo ≤ p) (hhi : p + n ≤ hi) :
    copy lo hi img p str n = some (img.over p n fun j => str.getD j 0) :=
  if_pos ⟨hn, hlo, hhi⟩

def repeated (str : List ℕ) (j : ℕ) : ℕ := str.getD (j % str.length) 0

variable {p len : ℕ} {str : List ℕ}

theorem over_repeated (hs : str.length ∣ s) :
    (img.over p s (repeated str)).over (p + s) str.length (fun j => str.getD j 0) =
      img.over p (s + str.length) (repeated str) := by
  refine over_over img p s str.length _ _ fun j hj => ?_
  obtain ⟨k, rfl⟩ := hs
  rw [repeated, mul_add_mod, mod_eq_of_lt hj]

/-- The fill loop of recovery, from a whole number of copies on. -/
theorem fillLoop_stride (hpos : 0 < str.length) (hdvd : str.length ∣ len) {fuel s : ℕ}
    (hs : str.length ∣ s) (hle : s ≤ len) (hfuel : len - s < fuel) :
    fillLoop p (p + len) p len str str.length fuel s (img.over p s (repeated str)) =
      some (len, img.over p len (repeated str)) := by
  induction fuel generalizing s with
  | zero => omega
  | succ fuel ih =>
    rw [fillLoop]
    split
    next hlt =>
      have hrest : str.length ≤ len - s := le_of_dvd (by omega) (dvd_sub hdvd hs)
      have hnext : s + str.length ≤ len := by omega
      rw [copy_eq _ le_rfl (by omega) (by omega), bind_some, over_repeated img hs]
      exact ih (Dvd.dvd.add hs dvd_rfl) hnext (by omega)
    next hge =>
      have hlen : s = len := by omega
      rw [hlen]

/-- If no whole number of copies fills the range, then the last one goes past its end. -/
theorem fillLoop_eq_none (hdvd : ¬ str.length ∣ len) {fuel : ℕ} (hs : str.length ∣ s)
    (hle : s ≤ len) : fillLoop p (p + len) p len str str.length fuel s img = none := by
  induction fuel generalizing s img with
  | zero => rfl
  | succ fuel ih =>
    have hne : s ≠ len := fun h => hdvd (h ▸ hs)
    rw [fillLoop, if_pos (by omega)]
    by_cases hnext : s + str.length ≤ len
    · rw [copy_eq _ le_rfl (by omega) (by omega), bind_some]
      exact ih _ (Dvd.dvd.add hs dvd_rfl) hnext
    · rw [copy, if_neg (by omega), bind_none]

/-- Nothing is left to copy after a loop that ends at the end of the range. -/
theorem fill_of_loop {img img' : Image} {stride : ℕ}
    (h : fillLoop p (p + len) p len str stride (len + 1) 0 img = some (len, img')) :
    fill p (p + len) img p len str stride = some img' := by
  have hzero : (2 ^ 64 + len - len) % 2 ^ 64 = 0 := by
    rw [Nat.add_sub_cancel, Nat.mod_self]
  rw [fill, h]
  simp only [bind_some, hzero]
  rw [copy_eq _ (zero_le _) (by omega) (by omega), over_zero]

/-- The fill of recovery. -/
theorem fill_stride (hpos : 0 < str.length) (hdvd : str.length ∣ len) :
    fill p (p + len) img p len str str.length = some (img.over p len (repeated str)) := by
  apply fill_of_loop
  have hloop := @fillLoop_stride img p len str hpos hdvd (len + 1) 0 (dvd_zero _) (zero_le len)
    (by omega)
  rw [over_zero] at hloop
  exact hloop

theorem fill_eq_none (hdvd : ¬ str.length ∣ len) :
    fill p (p + len) img p len str str.length = none := by
  rw [fill, fillLoop_eq_none img hdvd (dvd_zero _) (zero_le len), bind_none]

theorem fill_once (hlt : str.length < len) :
    fill p (p + len) img p len str len = some (img.over p str.length fun j => str.getD j 0) := by
  apply fill_of_loop
  obtain _ | n := len
  · omega
  rw [fillLoop, if_pos (by omega), add_zero, copy_eq _ le_rfl le_rfl (by omega), bind_some,
    fillLoop, if_neg (by omega), zero_add]

/-! ### Writes of bytes -/

theorem equalPrefix_spec (p : ℕ) (buf : List ℕ) : let k := equalPrefix img p buf
    k ≤ buf.length ∧ (∀ j < k, img (p + j) = buf.getD j 0) ∧
      (k < buf.length → img (p + k) ≠ buf.getD k 0) := by
  induction buf generalizing p with
  | nil => simp [equalPrefix]
  | cons b buf ih =>
    obtain ⟨hle, heq, hne⟩ := ih (p + 1)
    simp only [add_right_comm p 1] at heq hne
    rw [equalPrefix]
    split
    next hb =>
      refine ⟨succ_le_succ hle, fun j hj => ?_, fun h => hne (lt_of_succ_lt_succ h)⟩
      cases j with
      | zero => exact hb
      | succ j => exact heq j (lt_of_succ_lt_succ hj)
    next hb => exact ⟨zero_le _, fun j hj => absurd hj (not_lt_zero j), fun _ => hb⟩

theorem skipped_le (w : WriteType) (offset : ℕ) (buf : List ℕ) :
    skipped img w offset buf ≤ buf.length := by
  unfold skipped
  split
  · exact (equalPrefix_spec img offset buf).1
  · exact zero_le _

theorem skipped_lt (hne : buf ≠ []) (h : ¬ (w ≠ .forced ∧ skipped img w offset buf = buf.length)) :
    skipped img w offset buf < buf.length := by
  refine (skipped_le img w offset buf).lt_of_ne fun heq => ?_
  by_cases hw : w = .forced
  · rw [skipped, if_neg (not_not.mpr hw)] at heq
    exact hne (length_eq_zero_iff.1 heq.symm)
  · exact h ⟨hw, heq⟩

theorem skipped_eq {j : ℕ} (hj : j < skipped img w offset buf) :
    img (offset + j) = buf.getD j 0 := by
  unfold skipped at hj
  split at hj
  · exact (equalPrefix_spec img offset buf).2.1 j hj
  · exact absurd hj (not_lt_zero j)

/-- The bytes that are skipped need not be written. -/
theorem over_drop {k : ℕ} (hk : k ≤ buf.length) (heq : ∀ j < k, img (p + j) = buf.getD j 0) :
    img.over (p + k) (buf.length - k) (fun j => (buf.drop k).getD j 0) =
      img.over p buf.length fun j => buf.getD j 0 := by
  funext i
  simp only [over_apply]
  split_ifs with h1 h2 h3
  · rw [getD_eq_getElem?_getD, getD_eq_getElem?_getD, getElem?_drop]
    congr 2
    omega
  · omega
  · have h := heq (i - p) (by omega)
    rw [← h]
    congr 1
    omega
  · rfl

theorem read_over (p : ℕ) (buf : List ℕ) :
    (img.over p buf.length fun j => buf.getD j 0).read p buf.length = buf := by
  apply ext_getElem
  · simp [Image.read]
  · intro j h1 h2
    simp only [Image.read, getElem_map, getElem_range, over_apply]
    rw [if_pos (by omega), Nat.add_sub_cancel_left, getD_eq_getElem _ _ h2]

theorem length_machWrite (l val : ℕ) : (machWrite l val).length = l := by
  simp [machWrite]

theorem bytes_machWrite (l val : ℕ) : Bytes (machWrite l val) := by
  intro x hx
  obtain ⟨j, _, rfl⟩ := mem_map.mp hx
  exact mod_lt _ (by norm_num)

section

variable (h : ¬ (w ≠ .forced ∧ skipped img w offset str = str.length))
include h

/-- The page after `mtr_t::memcpy`: all bytes are written, whether they are skipped or not. -/
theorem exec_memcpy : (memcpy w offset str).exec img =
      some (img.over offset str.length fun j => str.getD j 0) := by
  have hk := skipped_le img w offset str
  simp only [exec]
  rw [if_neg h, copy_eq _ (by rw [length_drop]) (by omega) (by omega),
    over_drop img hk fun j hj => skipped_eq img hj]

theorem logged_memcpy : (memcpy w offset str).logged img =
      some (.write (offset + skipped img w offset str) (str.drop (skipped img w offset str))) := by
  have hread := read_over img (offset + skipped img w offset str)
    (str.drop (skipped img w offset str))
  rw [length_drop] at hread
  simp only [logged]
  rw [if_neg h, hread]

end

/-- `mtr_t::write` does the same as `mtr_t::memcpy` with the bytes of the number, though it copies
them all. -/
theorem exec_write (l : ℕ) (w : WriteType) (offset val : ℕ) :
    (write l w offset val).exec img = (memcpy w offset (machWrite l val)).exec img := by
  by_cases h : w ≠ .forced ∧ skipped img w offset (machWrite l val) = l
  · simp only [exec, length_machWrite]
    rw [if_pos h, if_pos h]
  · rw [exec_memcpy img (by rw [length_machWrite]; exact h)]
    simp only [exec]
    rw [if_neg h, copy_eq _ (by rw [length_machWrite]) le_rfl le_rfl, length_machWrite]

theorem logged_write (l : ℕ) (w : WriteType) (offset val : ℕ) :
    (write l w offset val).logged img = (memcpy w offset (machWrite l val)).logged img := by
  have hk := skipped_le img w offset (machWrite l val)
  have hover := over_drop img hk fun j hj => skipped_eq img hj
  rw [length_machWrite] at hover
  simp only [logged, length_machWrite, hover]

/-- The bytes below offset 8 are kept if and only if the first byte that is logged is not below. -/
theorem headerKept_iff (w : WriteType) (offset : ℕ) (buf : List ℕ) : HeaderKept img w offset buf ↔
      (w ≠ .forced ∧ skipped img w offset buf = buf.length) ∨
        8 ≤ offset + skipped img w offset buf := by
  unfold HeaderKept
  split
  next hw => simp [skipped, hw]
  next hw =>
    have hskip : skipped img w offset buf = equalPrefix img offset buf := if_pos hw
    obtain ⟨hle, heq, hne⟩ := equalPrefix_spec img offset buf
    rw [hskip]
    constructor
    · intro h
      by_contra! hcon
      have hlen : equalPrefix img offset buf < buf.length := hle.lt_of_ne (hcon.1 hw)
      exact hne hlen (h _ hlen hcon.2)
    · intro h j hj hlt
      exact heq j (by omega)

/-! ### Applying one record -/

variable {env : PageEnv} {idOf : ℕ → PageId} {st : MtrState} {rd : Reader} {r : PageRec}

theorem replay_log (hs : Synced idOf st rd) (hw : r.Writable env idOf) (hr : r.Readable env)
    (img : Image) : replay env rd (r.log st).1 img = r.op.replay img := by
  have hall : ∀ r' ∈ [r], r'.Writable env idOf := forall_mem_singleton.mpr hw
  have hall' : ∀ r' ∈ [r], r'.Readable env := forall_mem_singleton.mpr hr
  have happly := applyLoop_logAll hall hall' hs Bytes.nil (lt_succ_self [r].length)
  rw [logAll, logAll, flatten_cons, flatten_nil, append_nil] at happly
  unfold replay
  rw [show 2 = succ [r].length from rfl, happly]
  rfl

theorem readOffset_header {size lastOffset coded : ℕ} {data : List ℕ} (hdata : Bytes data)
    (hlt : coded + lastOffset < 8) :
    readOffset size lastOffset (mlogEncodeVarint coded ++ data) = none := by
  have hcoded : coded < mlogDecodeError := by rw [mlogDecodeError_eq]; omega
  unfold readOffset
  simp only [mlogDecodeVarint_encode hcoded hdata]
  rw [if_pos (Or.inl hlt), ite_self, ite_self, ite_self]

/-- A write to the first 8 bytes of a page is not applied. -/
theorem replay_log_header (hs : Synced idOf st rd) (hw : r.Writable env idOf)
    (htype : r.op.type.haveOffset = true) (hlt : r.op.offset < 8) (img : Image) :
    replay env rd (r.log st).1 img = none := by
  obtain ⟨hoff, _⟩ := hs.moved_offset (r := r) htype
  have hbytes : r.offsetPart st = mlogEncodeVarint (codedOffset st r.bpage r.op.offset) :=
    if_pos htype
  have hzero : Bytes [0] := by decide
  obtain ⟨b, l, hlog⟩ := exists_cons_of_ne_nil (log_ne_nil hw st)
  have hb := (parseLen_log hw hlog hzero (cons_ne_nil _ _)).1
  have hread : readRecord env rd b (l ++ [0]) = none := by
    rw [readRecord_eq_readBody hw rd hlog hzero, readBody_of_haveOffset htype, ← length_append,
      take_left, hbytes, readOffset_header hw.bytes (by omega), bind_none]
  rw [replay, hlog, cons_append, applyLoop, if_neg (by omega), hread]

/-! ### When recovery gives the page of the buffer pool -/

section Reproduced

variable {id : PageId} {bpage : Option ℕ} {op : PageWrite} {lop : PageOp} {img : Image}

theorem reproduced_of_not_logged (h : op.logged img = none) :
    Reproduced env st rd id bpage op img ↔ op.exec img = some img := by
  unfold Reproduced
  rw [h]

theorem readable_of_inRange (htype : lop.type.haveOffset = true) (hin : lop.InRange (env.size id)) :
    (⟨id, bpage, lop⟩ : PageRec).Readable env := by
  refine ⟨hin, fun payload hp => ?_⟩
  rw [show lop = .extended payload from hp] at htype
  cases htype

/-- A write with a record is reproduced if the record is not for the first 8 bytes, and the record
does what the write did. -/
theorem reproduced_of_logged (hs : Synced idOf st rd) (h : op.logged img = some lop)
    (hw : (⟨id, bpage, lop⟩ : PageRec).Writable env idOf) (htype : lop.type.haveOffset = true)
    (hin : 8 ≤ lop.offset → lop.InRange (env.size id)) :
    Reproduced env st rd id bpage op img ↔
      8 ≤ lop.offset ∧ ∃ img', op.exec img = some img' ∧ lop.replay img = some img' := by
  unfold Reproduced
  rw [h]
  by_cases hmin : 8 ≤ lop.offset
  · simp only [replay_log hs hw (readable_of_inRange htype (hin hmin)), hmin, true_and]
  · simp [replay_log_header hs hw htype (not_le.mp hmin), hmin]

variable (hs : Synced idOf st rd) (hid : id.Ok) (hbpage : ∀ q, bpage = some q → id = idOf q)
include hid hbpage

/-- What is logged can be written: a write, a fill or a move. -/
theorem writable_of_write {data : List ℕ}
    (hdata : Bytes data) (hne : data ≠ []) (hrange : offset + data.length ≤ env.size id) :
    (⟨id, bpage, .write offset data⟩ : PageRec).Writable env idOf := by
  have hsize := env.size_le id
  refine ⟨hid, hbpage, nofun, nofun, fun _ => hne, hdata, ?_, ?_⟩
  · simp only [PageOp.offset]
    omega
  · simp only [PageOp.payload]
    omega

theorem writable_of_memset
    (hstr : Bytes str) (hlen : str.length ≤ len) (hrange : offset + len ≤ env.size id) :
    (⟨id, bpage, .memset offset len str⟩ : PageRec).Writable env idOf := by
  have hsize := env.size_le id
  have hmax := env.srvPageSize_le
  have hlt : len < min4Byte := by rw [min4Byte_eq]; omega
  have hle := length_encodeVarint_le hlt
  refine ⟨hid, hbpage, nofun, nofun, fun _ => ?_, ?_, ?_, ?_⟩
  · exact append_ne_nil_of_left_ne_nil (mlogEncodeVarint_ne_nil len) str
  · exact (bytes_encodeVarint (lt_mlogDecodeError hlt)).append hstr
  · simp only [PageOp.offset]
    omega
  · simp only [PageOp.payload, length_append]
    omega

theorem writable_of_memmove {dest src : ℕ} (hne : src ≠ dest) (hmin : 8 ≤ dest)
    (hdest : dest + len ≤ env.size id) (hsrc : src + len ≤ env.size id) :
    (⟨id, bpage, .memmove dest len src⟩ : PageRec).Writable env idOf := by
  have hsize := env.size_le id
  have hmax := env.srvPageSize_le
  have hlt : len < min4Byte := by rw [min4Byte_eq]; omega
  have hle := length_encodeVarint_le hlt
  have hcode : moveCode dest src < min4Byte := moveCode_lt hne (by omega) (by omega)
  have hcle := length_encodeVarint_le hcode
  refine ⟨hid, hbpage, nofun, nofun, fun _ => ?_, ?_, ?_, ?_⟩
  · exact append_ne_nil_of_left_ne_nil (mlogEncodeVarint_ne_nil len) _
  · exact (bytes_encodeVarint (lt_mlogDecodeError hlt)).append
      (bytes_encodeVarint (lt_mlogDecodeError hcode))
  · simp only [PageOp.offset]
    omega
  · simp only [PageOp.payload, length_append]
    omega

include hs

theorem reproduced_memcpy (hin : (memcpy w offset str).InPage (env.size id)) :
    Reproduced env st rd id bpage (.memcpy w offset str) img ↔ HeaderKept img w offset str := by
  obtain ⟨hne, hstr, hrange⟩ := hin
  rw [headerKept_iff]
  by_cases h : w ≠ .forced ∧ skipped img w offset str = str.length
  · have hlogged : (memcpy w offset str).logged img = none := if_pos h
    have hexec : (memcpy w offset str).exec img = some img := if_pos h
    rw [reproduced_of_not_logged hlogged]
    exact ⟨fun _ => .inl h, fun _ => hexec⟩
  have hk := skipped_le img w offset str
  have hlt := skipped_lt img hne h
  have hexec := exec_memcpy img h
  have hover := over_drop img hk fun j hj => skipped_eq img hj
  have hlog := logged_memcpy img h
  rw [or_iff_right h]
  generalize skipped img w offset str = k at *
  have hdrop : (str.drop k).length = str.length - k := length_drop
  have hw : (⟨id, bpage, .write (offset + k) (str.drop k)⟩ : PageRec).Writable env idOf :=
    writable_of_write hid hbpage (fun x hx => hstr x (mem_of_mem_drop hx))
      (ne_nil_of_length_pos (by omega)) (by omega)
  have hreplay : (PageOp.write (offset + k) (str.drop k)).replay img =
      some (img.over offset str.length fun j => str.getD j 0) := by
    simp only [PageOp.replay]
    rw [copy_eq _ le_rfl le_rfl le_rfl, hdrop, hover]
  rw [reproduced_of_logged hs hlog hw rfl fun hmin => ⟨hmin, by omega, by omega⟩, hexec, hreplay]
  exact ⟨fun hrep => hrep.1, fun hmin => ⟨hmin, _, rfl, rfl⟩⟩

theorem reproduced_memset {val : ℕ} (hin : (memset offset len val).InPage (env.size id)) :
    Reproduced env st rd id bpage (.memset offset len val) img ↔ 8 ≤ offset := by
  obtain ⟨hpos, hval, hrange⟩ := hin
  have hw : (⟨id, bpage, .memset offset len [val]⟩ : PageRec).Writable env idOf :=
    writable_of_memset hid hbpage (Bytes.nil.cons hval) hpos hrange
  rw [reproduced_of_logged hs rfl hw rfl fun hmin => ⟨hmin, hpos, hrange⟩]
  exact ⟨fun hrep => hrep.1, fun hmin => ⟨hmin, _, rfl, rfl⟩⟩

theorem reproduced_memmove {dest src : ℕ} (hin : (memmove dest src len).InPage (env.size id)) :
    Reproduced env st rd id bpage (.memmove dest src len) img := by
  obtain ⟨hdmin, hsmin, hpos, hsrc, hne, hdest⟩ := hin
  have hw : (⟨id, bpage, .memmove dest len src⟩ : PageRec).Writable env idOf :=
    writable_of_memmove hid hbpage hne hdmin hdest hsrc
  rw [reproduced_of_logged hs rfl hw rfl fun hmin => ⟨hmin, hpos, hdest, hsmin, hsrc, hne⟩]
  exact ⟨hdmin, _, rfl, rfl⟩

omit hs hid hbpage in
/-- One copy of the string is all of the repeated string exactly if the rest was there before. -/
theorem over_once_eq_iff (hlt : str.length < len) :
    (img.over offset str.length fun j => str.getD j 0) = img.over offset len (repeated str) ↔
      ∀ j, str.length ≤ j → j < len → img (offset + j) = str.getD (j % str.length) 0 := by
  constructor
  · intro h j hj hlen
    have hbyte := congrFun h (offset + j)
    rw [over_apply, over_apply, if_neg (by omega), if_pos (by omega),
      Nat.add_sub_cancel_left] at hbyte
    exact hbyte
  intro h
  funext i
  simp only [over_apply]
  split_ifs with h1 h2 h3
  · rw [repeated, mod_eq_of_lt (by omega)]
  · omega
  · have hbyte := h (i - offset) (by omega) (by omega)
    rw [repeated, ← hbyte]
    congr 1
    omega
  · rfl

omit hs hid hbpage in
/-- Recovery repeats the string if it fits a whole number of times, and writes outside of the range
otherwise. -/
theorem replay_memset (hne : str ≠ []) : (PageOp.memset offset len str).replay img =
      if str.length ∣ len then some (img.over offset len (repeated str)) else none := by
  have hpos := length_pos_of_ne_nil hne
  simp only [PageOp.replay]
  by_cases hone : str.length = 1
  · have hrep : repeated str = fun _ => str.getD 0 0 := by
      funext j
      rw [repeated, hone, mod_one]
    rw [if_neg (not_not.mpr hone), if_pos (hone ▸ one_dvd len), hrep]
  · rw [if_pos hone]
    split
    next hdvd => exact fill_stride img hpos hdvd
    next hdvd => exact fill_eq_none img hdvd

theorem reproduced_memsetString (hin : (memsetString offset len str).InPage (env.size id)) :
    Reproduced env st rd id bpage (.memsetString offset len str) img ↔
      8 ≤ offset ∧ str.length ∣ len ∧
        ∀ j, str.length ≤ j → j < len → img (offset + j) = str.getD (j % str.length) 0 := by
  obtain ⟨hne, hlt, hstr, hrange⟩ := hin
  have hw : (⟨id, bpage, .memset offset len str⟩ : PageRec).Writable env idOf :=
    writable_of_memset hid hbpage hstr hlt.le hrange
  have hexec : (memsetString offset len str).exec img =
      some (img.over offset str.length fun j => str.getD j 0) := fill_once img hlt
  rw [reproduced_of_logged hs rfl hw rfl fun hmin => ⟨hmin, by omega, hrange⟩, hexec,
    replay_memset hne, ← over_once_eq_iff hlt]
  apply and_congr_right
  intro _
  split_ifs with hdvd
  · simp [hdvd, eq_comm]
  · simp [hdvd]

end Reproduced

/-- **When recovery gives the page of the buffer pool.**  From any state in which writer and reader
are in step, the record of a page write reproduces the write, without an access outside of its
range, exactly if the write is `Replayable`. -/
theorem reproduced_iff (env : PageEnv) (idOf : ℕ → PageId) (st : MtrState) (rd : Reader)
    (hs : Synced idOf st rd) (id : PageId) (hid : id.Ok) (bpage : Option ℕ)
    (hbpage : ∀ q, bpage = some q → id = idOf q) (op : PageWrite) (img : Image)
    (hin : op.InPage (env.size id)) : Reproduced env st rd id bpage op img ↔ op.Replayable img := by
  cases op with
  | write l w offset val =>
    obtain ⟨hl, hrange⟩ := hin
    have hlen := length_machWrite l val
    have hin' : (memcpy w offset (machWrite l val)).InPage (env.size id) :=
      ⟨ne_nil_of_length_pos (by omega), bytes_machWrite l val, by omega⟩
    rw [Replayable, ← reproduced_memcpy hs hid hbpage hin', Reproduced, Reproduced,
      logged_write, exec_write]
  | memcpy w offset str => exact reproduced_memcpy hs hid hbpage hin
  | memset offset len val => exact reproduced_memset hs hid hbpage hin
  | memsetString offset len str => exact reproduced_memsetString hs hid hbpage hin
  | memmove dest src len =>
    exact ⟨fun _ => trivial, fun _ => reproduced_memmove hs hid hbpage hin⟩

theorem reproduced_iff_memcpy_three :
    (memcpy .normal 100 [1, 2, 3]).InPage (plainPages.size ⟨5, 4⟩) ∧
      (Reproduced plainPages .start ⟨⟨0, 0⟩, 1⟩ ⟨5, 4⟩ (some 4) (.memcpy .normal 100 [1, 2, 3])
          (fun _ => 0) ↔
        (memcpy .normal 100 [1, 2, 3]).Replayable fun _ => 0) := by
  have hin : (memcpy .normal 100 [1, 2, 3]).InPage (plainPages.size ⟨5, 4⟩) :=
    ⟨by simp, by decide, by decide⟩
  exact ⟨hin, reproduced_iff plainPages (fun q => ⟨5, q⟩) .start _ (synced_start _ _) ⟨5, 4⟩
    (by decide) (some 4) (by simp) _ _ hin⟩

/-- A fill of four bytes of a zeroed page with the string `1, 2`: the page in the buffer pool has
`1, 2, 0, 0`, and after recovery it has `1, 2, 1, 2`. -/
theorem memset_string_not_reproduced :
    (memsetString 100 4 [1, 2]).InPage (plainPages.size ⟨5, 4⟩) ∧
      ¬ Reproduced plainPages .start ⟨⟨0, 0⟩, 1⟩ ⟨5, 4⟩ (some 4) (.memsetString 100 4 [1, 2])
        (fun _ => 0) := by
  have hin : (memsetString 100 4 [1, 2]).InPage (plainPages.size ⟨5, 4⟩) :=
    ⟨by simp, by decide, by decide, by decide⟩
  refine ⟨hin, fun h => ?_⟩
  rw [reproduced_memsetString (synced_start (fun q => ⟨5, q⟩) _) (by decide) (by simp) hin] at h
  exact absurd (h.2.2 2 (by decide) (by decide)) (by decide)

end MtrLog
