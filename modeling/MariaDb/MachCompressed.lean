/-
**The compressed integers of InnoDB.**

`mach_write_compressed` writes a number of 32 bits in one to five bytes: the leading one bits of the
first byte tell how many follow.  A number of 64 bits is written with its upper half in that form, or
with both halves in that form behind the byte 0xFF, or as a number of 32 bits if it is one.  The first
byte is never 0xFF in the other form, so that the readers can tell the forms apart.

A writer returns the bytes it writes; the size that it returns is their number.  A reader returns the
number and the bytes behind it.  A byte behind the end would be read as zero.

Main definitions:

* `machWriteCompressed`, `machReadNextCompressed`: 32 bits;
* `machU64WriteCompressed`, `machU64ReadNextCompressed`: 64 bits, in 5 to 9 bytes;
* `machU64WriteMuchCompressed`, `machReadNextMuchCompressed`: 64 bits, in 1 to 11 bytes;
* `Item`, `readAll`: a number with the form it is written in, and a list of them.

Main result: `compressed_roundtrip` — **every list of numbers is read back**.
-/

import MariaDb.MlogVarint

set_option autoImplicit false

namespace Mach

open List

/-! ### Bytes -/

/-- The bytes of a number, the most significant one first. -/
def writeBytes : ℕ → ℕ → List UInt8
  | 0, _ => []
  | k + 1, n => UInt8.ofNat (n >>> (8 * k)) :: writeBytes k n

/-- The number in the first bytes. -/
def readBytes : ℕ → List UInt8 → ℕ
  | 0, _ => 0
  | k + 1, b => (b.headD 0).toNat <<< (8 * k) ||| readBytes k b.tail

def machWriteTo1 : ℕ → List UInt8 := writeBytes 1
def machWriteTo2 : ℕ → List UInt8 := writeBytes 2
def machWriteTo3 : ℕ → List UInt8 := writeBytes 3
def machWriteTo4 : ℕ → List UInt8 := writeBytes 4
def machReadFrom1 : List UInt8 → ℕ := readBytes 1
def machReadFrom2 : List UInt8 → ℕ := readBytes 2
def machReadFrom3 : List UInt8 → ℕ := readBytes 3
def machReadFrom4 : List UInt8 → ℕ := readBytes 4

/-! ### The code -/

def machWriteCompressed (n : ℕ) : List UInt8 :=
  if n < 0x80 then machWriteTo1 n
  else if n < 0x4000 then machWriteTo2 (n ||| 0x8000)
  else if n < 0x200000 then machWriteTo3 (n ||| 0xC00000)
  else if n < 0x10000000 then machWriteTo4 (n ||| 0xE0000000)
  else machWriteTo1 0xF0 ++ machWriteTo4 n

def machGetCompressedSize (n : ℕ) : ℕ :=
  if n < 0x80 then 1 else if n < 0x4000 then 2 else if n < 0x200000 then 3
  else if n < 0x10000000 then 4 else 5

def machReadCompressed (b : List UInt8) : ℕ :=
  let val := machReadFrom1 b
  if val < 0x80 then val
  else if val < 0xC0 then machReadFrom2 b &&& 0x3FFF
  else if val < 0xE0 then machReadFrom3 b &&& 0x1FFFFF
  else if val < 0xF0 then machReadFrom4 b &&& 0xFFFFFFF
  else machReadFrom4 (b.drop 1)

def machReadNextCompressed (b : List UInt8) : ℕ × List UInt8 :=
  let val := machReadFrom1 b
  if val < 0x80 then (val, b.drop 1)
  else if val < 0xC0 then (machReadFrom2 b &&& 0x3FFF, b.drop 2)
  else if val < 0xE0 then (machReadFrom3 b &&& 0x1FFFFF, b.drop 3)
  else if val < 0xF0 then (machReadFrom4 b &&& 0xFFFFFFF, b.drop 4)
  else (machReadFrom4 (b.drop 1), b.drop 5)

def machU64WriteCompressed (n : ℕ) : List UInt8 :=
  machWriteCompressed (n >>> 32) ++ machWriteTo4 n

def machU64ReadNextCompressed (b : List UInt8) : ℕ × List UInt8 :=
  let (val, b) := machReadNextCompressed b
  (val <<< 32 % 2 ^ 64 ||| machReadFrom4 b, b.drop 4)

def machU64WriteMuchCompressed (n : ℕ) : List UInt8 :=
  if n >>> 32 = 0 then machWriteCompressed n
  else 0xFF :: (machWriteCompressed (n >>> 32) ++ machWriteCompressed (n &&& 0xFFFFFFFF))

def machU64ReadMuchCompressed (b : List UInt8) : ℕ :=
  if b.headD 0 ≠ 0xFF then machReadCompressed b
  else
    let (n, b) := machReadNextCompressed b.tail
    n <<< 32 % 2 ^ 64 ||| machReadCompressed b

def machReadNextMuchCompressed (b : List UInt8) : ℕ × List UInt8 :=
  let val := machReadFrom1 b
  if val < 0x80 then (val, b.drop 1)
  else if val < 0xC0 then (machReadFrom2 b &&& 0x3FFF, b.drop 2)
  else if val < 0xE0 then (machReadFrom3 b &&& 0x1FFFFF, b.drop 3)
  else if val < 0xF0 then (machReadFrom4 b &&& 0xFFFFFFF, b.drop 4)
  else if val = 0xF0 then (machReadFrom4 (b.drop 1), b.drop 5)
  else
    let (val, b) := machReadNextCompressed (b.drop 1)
    let (low, b) := machReadNextCompressed b
    (val <<< 32 % 2 ^ 64 ||| low, b)

/-- The forms in which a number can be written. -/
inductive Form where
  | compressed | u64Compressed | u64MuchCompressed
  deriving DecidableEq

/-- The number of bits of a number of this form. -/
def Form.bits : Form → ℕ
  | .compressed => 32
  | .u64Compressed | .u64MuchCompressed => 64

def Form.write : Form → ℕ → List UInt8
  | .compressed => machWriteCompressed
  | .u64Compressed => machU64WriteCompressed
  | .u64MuchCompressed => machU64WriteMuchCompressed

def Form.readNext : Form → List UInt8 → ℕ × List UInt8
  | .compressed => machReadNextCompressed
  | .u64Compressed => machU64ReadNextCompressed
  | .u64MuchCompressed => machReadNextMuchCompressed

/-- The size that a writer returns. -/
def Form.size : Form → ℕ → ℕ
  | .compressed, n => machGetCompressedSize n
  | .u64Compressed, n => machGetCompressedSize (n >>> 32) + 4
  | .u64MuchCompressed, n => if n >>> 32 = 0 then machGetCompressedSize n
    else 1 + machGetCompressedSize (n >>> 32) + machGetCompressedSize (n &&& 0xFFFFFFFF)

/-- A number and the form in which it is written. -/
@[ext] structure Item where
  form : Form
  val : ℕ
  fits : val < 2 ^ form.bits

def Item.bytes (x : Item) : List UInt8 := x.form.write x.val

def readAll : List Form → List UInt8 → List ℕ × List UInt8
  | [], b => ([], b)
  | form :: forms, b =>
    let (val, b) := form.readNext b
    let (vals, b) := readAll forms b
    (val :: vals, b)

/-! ### Round trip -/

variable {n k : ℕ} (rest : List UInt8)

theorem length_writeBytes (k n : ℕ) : (writeBytes k n).length = k := by
  induction k with
  | zero => rfl
  | succ k ih => rw [writeBytes, length_cons, ih]

theorem drop_writeBytes (k n : ℕ) : (writeBytes k n ++ rest).drop k = rest :=
  drop_left' (length_writeBytes k n)

theorem readBytes_write (k n : ℕ) :
    readBytes k (writeBytes k n ++ rest) = n % 2 ^ (8 * k) := by
  induction k with
  | zero => simp [readBytes, Nat.mod_one]
  | succ k ih =>
    have hlt : n % 2 ^ (8 * k) < 2 ^ (8 * k) := Nat.mod_lt _ (Nat.two_pow_pos _)
    rw [writeBytes, cons_append, readBytes, headD_cons, tail_cons, ih,
      MtrLog.shiftLeft_or_eq _ hlt, UInt8.toNat_ofNat', Nat.shiftRight_eq_div_pow,
      show 8 * (k + 1) = 8 * k + 8 by ring, pow_add, Nat.mod_mul]
    ring

/-- The first byte tells the length. -/
theorem readBytes_first (k n : ℕ) :
    machReadFrom1 (writeBytes (k + 1) n ++ rest) = n / 2 ^ (8 * k) % 256 := by
  simp [machReadFrom1, readBytes, writeBytes, Nat.shiftRight_eq_div_pow]

/-- A number below the marker in its first byte. -/
theorem marked_bytes (i m : ℕ) {b : List UInt8} (hi : i ≤ 8 * (k + 1)) (hn : n < 2 ^ i)
    (hb : writeBytes (k + 1) (n ||| 2 ^ i * m) ++ rest = b) :
    machReadFrom1 b = (2 ^ i * m + n) / 2 ^ (8 * k) % 256 ∧
      readBytes (k + 1) b &&& (2 ^ i - 1) = n ∧ b.drop (k + 1) = rest := by
  rw [Nat.or_comm, MtrLog.marker_or_eq m i hn] at hb
  refine ⟨by rw [← hb, readBytes_first], ?_, by rw [← hb, drop_writeBytes]⟩
  rw [Nat.and_two_pow_sub_one_eq_mod, ← hb, readBytes_write,
    Nat.mod_mod_of_dvd _ (Nat.pow_dvd_pow 2 hi), Nat.mul_add_mod, Nat.mod_eq_of_lt hn]

/-- **The first byte tells the length**, and the bytes give the number without its marker. -/
theorem machWriteCompressed_cases (hn : n < 2 ^ 32) {b : List UInt8}
    (hb : machWriteCompressed n ++ rest = b) :
    (machReadFrom1 b < 0x80 ∧ machReadFrom1 b = n ∧ b.drop 1 = rest) ∨
    ((0x80 ≤ machReadFrom1 b ∧ machReadFrom1 b < 0xC0) ∧ machReadFrom2 b &&& 0x3FFF = n ∧
      b.drop 2 = rest) ∨
    ((0xC0 ≤ machReadFrom1 b ∧ machReadFrom1 b < 0xE0) ∧ machReadFrom3 b &&& 0x1FFFFF = n ∧
      b.drop 3 = rest) ∨
    ((0xE0 ≤ machReadFrom1 b ∧ machReadFrom1 b < 0xF0) ∧ machReadFrom4 b &&& 0xFFFFFFF = n ∧
      b.drop 4 = rest) ∨
    (machReadFrom1 b = 0xF0 ∧ machReadFrom4 (b.drop 1) = n ∧ b.drop 5 = rest) := by
  unfold machWriteCompressed at hb
  split_ifs at hb with h1 h2 h3 h4
  · have hfirst : machReadFrom1 b = n / 2 ^ (8 * 0) % 256 := by
      rw [← hb]
      exact readBytes_first rest 0 n
    exact .inl ⟨by omega, by omega, by rw [← hb]; exact drop_writeBytes rest 1 n⟩
  · obtain ⟨hfirst, hval, hrest⟩ := marked_bytes rest (k := 1) 14 2 (by norm_num) h2 hb
    exact .inr (.inl ⟨by omega, hval, hrest⟩)
  · obtain ⟨hfirst, hval, hrest⟩ := marked_bytes rest (k := 2) 21 6 (by norm_num) h3 hb
    exact .inr (.inr (.inl ⟨by omega, hval, hrest⟩))
  · obtain ⟨hfirst, hval, hrest⟩ := marked_bytes rest (k := 3) 28 14 (by norm_num) h4 hb
    exact .inr (.inr (.inr (.inl ⟨by omega, hval, hrest⟩)))
  · have hcons : b = 0xF0 :: (writeBytes 4 n ++ rest) := hb.symm
    refine .inr (.inr (.inr (.inr ⟨by simp [hcons, machReadFrom1, readBytes], ?_, ?_⟩)))
    · rw [hcons, drop_one, tail_cons, machReadFrom4, readBytes_write]
      exact Nat.mod_eq_of_lt hn
    · rw [hcons, drop_succ_cons, drop_writeBytes]

theorem length_machWriteCompressed (n : ℕ) :
    (machWriteCompressed n).length = machGetCompressedSize n := by
  unfold machWriteCompressed machGetCompressedSize
  split_ifs <;> rfl

/-- **Every reader takes the number**, and its first byte is at most 0xF0. -/
theorem read_write (hn : n < 2 ^ 32) {b : List UInt8} (hb : machWriteCompressed n ++ rest = b) :
    machReadNextCompressed b = (n, rest) ∧ machReadCompressed b = n ∧
      machReadNextMuchCompressed b = (n, rest) ∧ machReadFrom1 b ≤ 0xF0 := by
  unfold machReadNextCompressed machReadCompressed machReadNextMuchCompressed
  rcases machWriteCompressed_cases rest hn hb with h | h | h | h | h <;> grind

/-- The halves of a number of 64 bits. -/
theorem halves (hn : n < 2 ^ 64) : (n >>> 32 = 0 → n < 2 ^ 32) ∧ n >>> 32 < 2 ^ 32 ∧
    n &&& 0xFFFFFFFF < 2 ^ 32 ∧ n % 2 ^ 32 = n &&& 0xFFFFFFFF ∧
    (n >>> 32) <<< 32 % 2 ^ 64 ||| n &&& 0xFFFFFFFF = n := by
  have hlow : n &&& 0xFFFFFFFF = n % 2 ^ 32 := Nat.and_two_pow_sub_one_eq_mod n 32
  have hlt : n % 2 ^ 32 < 2 ^ 32 := Nat.mod_lt _ (by norm_num)
  have hhigh : (n / 2 ^ 32) <<< 32 % 2 ^ 64 = (n / 2 ^ 32) <<< 32 := by
    rw [Nat.shiftLeft_eq]
    omega
  rw [hlow, Nat.shiftRight_eq_div_pow, hhigh, MtrLog.shiftLeft_or_eq 32 hlt]
  omega

/-- **A number is read back**, with any bytes behind it. -/
theorem readNext_write (form : Form) (hn : n < 2 ^ form.bits) :
    form.readNext (form.write n ++ rest) = (n, rest) := by
  cases form with
  | compressed => exact (read_write rest hn rfl).1
  | u64Compressed =>
    obtain ⟨-, hhigh, -, hmod, hor⟩ := halves hn
    simp only [Form.readNext, Form.write, machU64ReadNextCompressed, machU64WriteCompressed,
      append_assoc, (read_write _ hhigh rfl).1, machReadFrom4, machWriteTo4, readBytes_write,
      drop_writeBytes]
    rw [hmod, hor]
  | u64MuchCompressed =>
    obtain ⟨hzero, hhigh, hlow, -, hor⟩ := halves hn
    simp only [Form.readNext, Form.write, machU64WriteMuchCompressed]
    split
    case isTrue h => exact (read_write rest (hzero h) rfl).2.2.1
    case isFalse =>
      have hfirst : ∀ b, machReadFrom1 (0xFF :: b) = 255 := fun b => by simp [machReadFrom1, readBytes]
      rw [cons_append, append_assoc]
      simp [machReadNextMuchCompressed, hfirst, (read_write _ hhigh rfl).1, (read_write _ hlow rfl).1]
      exact hor

theorem machU64ReadMuchCompressed_write (hn : n < 2 ^ 64) :
    machU64ReadMuchCompressed (machU64WriteMuchCompressed n ++ rest) = n := by
  obtain ⟨hzero, hhigh, hlow, -, hor⟩ := halves hn
  rw [machU64WriteMuchCompressed]
  split
  case isTrue h =>
    obtain ⟨-, hval, -, hle⟩ := read_write rest (hzero h) rfl
    rw [machU64ReadMuchCompressed, if_pos, hval]
    intro hhead
    rw [machReadFrom1, readBytes, hhead] at hle
    simp [readBytes] at hle
  case isFalse =>
    rw [cons_append, append_assoc, machU64ReadMuchCompressed, headD_cons, if_neg (by simp), tail_cons]
    simp only [(read_write _ hhigh rfl).1, (read_write rest hlow rfl).2.1]
    exact hor

theorem length_write (form : Form) (n : ℕ) : (form.write n).length = form.size n := by
  cases form with
  | compressed => exact length_machWriteCompressed n
  | u64Compressed =>
    rw [Form.write, machU64WriteCompressed, length_append, length_machWriteCompressed, machWriteTo4,
      length_writeBytes, Form.size]
  | u64MuchCompressed =>
    simp only [Form.write, machU64WriteMuchCompressed, Form.size]
    split
    · exact length_machWriteCompressed n
    · rw [length_cons, length_append, length_machWriteCompressed, length_machWriteCompressed]
      omega

theorem readAll_bytes (items : List Item) :
    readAll (items.map Item.form) (items.flatMap Item.bytes ++ rest) = (items.map Item.val, rest) := by
  induction items with
  | nil => rfl
  | cons x items ih =>
    rw [map_cons, flatMap_cons, append_assoc, readAll, Item.bytes, readNext_write _ x.form x.fits]
    simp only [ih, map_cons]

/-- **InnoDB's compressed integers are read back**: one number by every reader of its form, with the
number of bytes that was written, and any list of numbers.  No encoding starts another one of the same
form. -/
theorem compressed_roundtrip :
    (∀ (x : Item) (rest : List UInt8), x.form.readNext (x.bytes ++ rest) = (x.val, rest) ∧
      x.bytes.length = x.form.size x.val ∧
      (x.form = .compressed → machReadCompressed (x.bytes ++ rest) = x.val) ∧
      (x.form = .u64MuchCompressed → machU64ReadMuchCompressed (x.bytes ++ rest) = x.val)) ∧
    (∀ (items : List Item) (rest : List UInt8),
      readAll (items.map Item.form) (items.flatMap Item.bytes ++ rest) = (items.map Item.val, rest)) ∧
    ∀ x y : Item, x.form = y.form → x.bytes <+: y.bytes → x = y := by
  refine ⟨fun x rest => ⟨readNext_write rest x.form x.fits, length_write x.form x.val, ?_, ?_⟩,
    fun items rest => readAll_bytes rest items, fun x y hform hpre => ?_⟩
  · obtain ⟨form, n, hn⟩ := x
    rintro rfl
    exact (read_write rest hn rfl).2.1
  · obtain ⟨form, n, hn⟩ := x
    rintro rfl
    exact machU64ReadMuchCompressed_write rest hn
  obtain ⟨rest, hrest⟩ := hpre
  have hx := readNext_write rest x.form x.fits
  have hy := readNext_write [] y.form y.fits
  unfold Item.bytes at hrest
  rw [append_nil, ← hform] at hy
  rw [← hform] at hrest
  rw [hrest, hy] at hx
  exact Item.ext hform (congrArg Prod.fst hx).symm

end Mach
