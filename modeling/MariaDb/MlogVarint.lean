/-
**The variable-length integers of the redo log.**

Lengths, page identifiers and byte offsets in redo log records are written as integers of one to
five bytes.  The number of leading one bits of the first byte says how many bytes follow, and each
length starts where the shorter one ends, so every number has exactly one encoding.  This module
models `mlog_encode_varint`, `mlog_decode_varint_length` and `mlog_decode_varint`.

A byte is a natural number below 256; bytes that the decoder reads past the end of its input are
zero, which no caller relies on.

Main definitions:

* `mlogEncodeVarint`: the encoder;
* `mlogDecodeVarintLength`, `mlogDecodeVarint`: the decoder.

Main results:

* `mlogDecodeVarint_encode`: **every encodable number is decoded again**, whatever follows.
-/

import Mathlib.Data.Nat.Bitwise
import Mathlib.Tactic

set_option autoImplicit false

namespace MtrLog

open List

/-! ### The code -/

/-- The least number that takes two bytes. -/
def min2Byte : ℕ := 1 <<< 7

/-- The least number that takes three bytes. -/
def min3Byte : ℕ := min2Byte + 1 <<< 14

/-- The least number that takes four bytes. -/
def min4Byte : ℕ := min3Byte + 1 <<< 21

/-- The least number that takes five bytes. -/
def min5Byte : ℕ := min4Byte + 1 <<< 28

/-- The largest 32-bit number; no integer of a record has this value. -/
def mlogDecodeError : ℕ := 2 ^ 32 - 1

/-- The loop of `mlog_decode_varint_length`: one more byte for each leading one bit. -/
def varintLengthLoop : ℕ → ℕ → ℕ → ℕ
  | 0, len, _ => len
  | fuel + 1, len, first =>
    if first &&& 0x80 ≠ 0 then varintLengthLoop fuel (len + 1) ((first <<< 1) % 256) else len

/-- The number of bytes of an encoded integer, from its first byte. -/
def mlogDecodeVarintLength (first : ℕ) : ℕ := varintLengthLoop 8 1 first

/-- Decode an integer at the start of `log`. -/
def mlogDecodeVarint (log : List ℕ) : ℕ :=
  let i := log.getD 0 0
  if i < min2Byte then i
  else if i < 0xc0 then
    min2Byte + ((i &&& 0x7f) <<< 8 ||| log.getD 1 0)
  else if i < 0xe0 then
    min3Byte + ((i &&& 0x3f) <<< 16 ||| log.getD 1 0 <<< 8 ||| log.getD 2 0)
  else if i < 0xf0 then
    min4Byte + ((i &&& 0x1f) <<< 24 ||| log.getD 1 0 <<< 16 ||| log.getD 2 0 <<< 8 ||| log.getD 3 0)
  else if i = 0xf0 then
    let i := log.getD 1 0 <<< 24 ||| log.getD 2 0 <<< 16 ||| log.getD 3 0 <<< 8 ||| log.getD 4 0
    -- `~MIN_5BYTE`
    if i ≤ 2 ^ 32 - 1 - min5Byte then min5Byte + i else mlogDecodeError
  else mlogDecodeError

def mlogEncodeVarint (i : ℕ) : List ℕ :=
  if i < min2Byte then [i % 256]
  else if i < min3Byte then
    let i := i - min2Byte
    [0x80 ||| (i >>> 8) % 256, i % 256]
  else if i < min4Byte then
    let i := i - min3Byte
    [0xc0 ||| (i >>> 16) % 256, (i >>> 8) % 256, i % 256]
  else if i < min5Byte then
    let i := i - min4Byte
    [0xe0 ||| (i >>> 24) % 256, (i >>> 16) % 256, (i >>> 8) % 256, i % 256]
  else
    let i := i - min5Byte
    [0xf0, (i >>> 24) % 256, (i >>> 16) % 256, (i >>> 8) % 256, i % 256]

/-! ### Bytes as numbers -/

theorem min2Byte_eq : min2Byte = 128 := rfl
theorem min3Byte_eq : min3Byte = 16512 := rfl
theorem min4Byte_eq : min4Byte = 2113664 := rfl
theorem min5Byte_eq : min5Byte = 270549120 := rfl
theorem mlogDecodeError_eq : mlogDecodeError = 4294967295 := rfl

theorem shiftLeft_or_eq {a b : ℕ} (i : ℕ) (hb : b < 2 ^ i) : a <<< i ||| b = a * 2 ^ i + b := by
  rw [← Nat.shiftLeft_add_eq_or_of_lt hb, Nat.shiftLeft_eq]

/-- A marker of leading one bits, as `m * 2 ^ i`, over a value below it. -/
theorem marker_or_eq {x : ℕ} (m i : ℕ) (hx : x < 2 ^ i) : (2 ^ i * m) ||| x = 2 ^ i * m + x :=
  (Nat.two_pow_add_eq_or_of_lt hx m).symm

theorem two_fields {a b : ℕ} (hb : b < 2 ^ 8) : a <<< 8 ||| b = a * 256 + b :=
  shiftLeft_or_eq 8 hb

theorem three_fields {a b c : ℕ} (hb : b < 2 ^ 8) (hc : c < 2 ^ 8) :
    a <<< 16 ||| b <<< 8 ||| c = a * 65536 + b * 256 + c := by
  rw [Nat.or_assoc, two_fields hc, shiftLeft_or_eq 16 (by omega)]
  omega

theorem four_fields {a b c d : ℕ} (hb : b < 2 ^ 8) (hc : c < 2 ^ 8) (hd : d < 2 ^ 8) :
    a <<< 24 ||| b <<< 16 ||| c <<< 8 ||| d = a * 16777216 + b * 65536 + c * 256 + d := by
  rw [Nat.or_assoc, Nat.or_assoc, ← Nat.or_assoc (b <<< 16), three_fields hc hd,
    shiftLeft_or_eq 24 (by omega)]
  omega

/-! ### Round trip -/

/-- The encoding in plain arithmetic. -/
theorem mlogEncodeVarint_eq (i : ℕ) :
    mlogEncodeVarint i =
      if i < 128 then [i]
      else if i < 16512 then [128 + (i - 128) / 256, (i - 128) % 256]
      else if i < 2113664 then
        [192 + (i - 16512) / 65536, (i - 16512) / 256 % 256, (i - 16512) % 256]
      else if i < 270549120 then
        [224 + (i - 2113664) / 16777216, (i - 2113664) / 65536 % 256,
          (i - 2113664) / 256 % 256, (i - 2113664) % 256]
      else
        [240, (i - 270549120) / 16777216 % 256, (i - 270549120) / 65536 % 256,
          (i - 270549120) / 256 % 256, (i - 270549120) % 256] := by
  unfold mlogEncodeVarint
  simp only [min2Byte_eq, min3Byte_eq, min4Byte_eq, min5Byte_eq, Nat.shiftRight_eq_div_pow]
  split
  · rw [Nat.mod_eq_of_lt (by omega)]
  split
  · have h := marker_or_eq (x := (i - 128) / 2 ^ 8 % 256) 1 7 (by omega)
    norm_num at h ⊢
    omega
  split
  · have h := marker_or_eq (x := (i - 16512) / 2 ^ 16 % 256) 3 6 (by omega)
    norm_num at h ⊢
    omega
  split
  · have h := marker_or_eq (x := (i - 2113664) / 2 ^ 24 % 256) 7 5 (by omega)
    norm_num at h ⊢
    omega
  · rfl

theorem mlogDecodeVarint_eq {log : List ℕ} (hlog : ∀ k, log.getD k 0 < 256) :
    mlogDecodeVarint log =
      if log.getD 0 0 < 128 then log.getD 0 0
      else if log.getD 0 0 < 192 then 128 + (log.getD 0 0 - 128) * 256 + log.getD 1 0
      else if log.getD 0 0 < 224 then
        16512 + (log.getD 0 0 - 192) * 65536 + log.getD 1 0 * 256 + log.getD 2 0
      else if log.getD 0 0 < 240 then
        2113664 + (log.getD 0 0 - 224) * 16777216 + log.getD 1 0 * 65536 + log.getD 2 0 * 256 +
          log.getD 3 0
      else if log.getD 0 0 = 240 ∧ log.getD 1 0 * 16777216 + log.getD 2 0 * 65536 +
          log.getD 3 0 * 256 + log.getD 4 0 ≤ 4024418175 then
        270549120 + (log.getD 1 0 * 16777216 + log.getD 2 0 * 65536 + log.getD 3 0 * 256 +
          log.getD 4 0)
      else 4294967295 := by
  unfold mlogDecodeVarint
  have h7 : log.getD 0 0 &&& 0x7f = log.getD 0 0 % 128 := Nat.and_two_pow_sub_one_eq_mod _ 7
  have h6 : log.getD 0 0 &&& 0x3f = log.getD 0 0 % 64 := Nat.and_two_pow_sub_one_eq_mod _ 6
  have h5 : log.getD 0 0 &&& 0x1f = log.getD 0 0 % 32 := Nat.and_two_pow_sub_one_eq_mod _ 5
  simp only [min2Byte_eq, min3Byte_eq, min4Byte_eq, min5Byte_eq, mlogDecodeError, h7, h6, h5,
    two_fields (hlog 1), three_fields (hlog 1) (hlog 2),
    four_fields (hlog 1) (hlog 2) (hlog 3), four_fields (hlog 2) (hlog 3) (hlog 4)]
  split_ifs <;> omega

def Bytes (l : List ℕ) : Prop := ∀ x ∈ l, x < 256

instance (l : List ℕ) : Decidable (Bytes l) := inferInstanceAs (Decidable (∀ x ∈ l, x < 256))

theorem Bytes.nil : Bytes [] := fun _ h => absurd h not_mem_nil

theorem Bytes.cons {x : ℕ} {l : List ℕ} (h : Bytes l) (hx : x < 256) : Bytes (x :: l) :=
  forall_mem_cons.mpr ⟨hx, h⟩

theorem Bytes.append {l1 l2 : List ℕ} (h1 : Bytes l1) (h2 : Bytes l2) : Bytes (l1 ++ l2) := by
  intro x hx
  cases mem_append.mp hx with
  | inl h => exact h1 x h
  | inr h => exact h2 x h

theorem Bytes.getD_lt {l : List ℕ} (h : Bytes l) (k : ℕ) : l.getD k 0 < 256 := by
  rcases lt_or_ge k l.length with hk | hk
  · rw [getD_eq_getElem l 0 hk]
    exact h _ (getElem_mem hk)
  · rw [getD_eq_default _ _ hk]
    norm_num

theorem bytes_encodeVarint {i : ℕ} (hi : i < mlogDecodeError) : Bytes (mlogEncodeVarint i) := by
  rw [mlogDecodeError_eq] at hi
  rw [mlogEncodeVarint_eq]
  intro x hx
  split_ifs at hx <;> simp only [mem_cons, not_mem_nil, or_false] at hx <;> omega

theorem mlogEncodeVarint_ne_nil (i : ℕ) : mlogEncodeVarint i ≠ [] := by
  rw [mlogEncodeVarint_eq]
  split_ifs <;> simp

/-- Decoding reads the encoded number back, whatever bytes follow it. -/
theorem mlogDecodeVarint_encode {i : ℕ} (hi : i < mlogDecodeError) {rest : List ℕ}
    (hrest : Bytes rest) : mlogDecodeVarint (mlogEncodeVarint i ++ rest) = i := by
  have hbytes := (bytes_encodeVarint hi).append hrest
  rw [mlogDecodeError_eq] at hi
  rw [mlogDecodeVarint_eq hbytes.getD_lt]
  have henc := mlogEncodeVarint_eq i
  -- one case for each length; the first byte selects the same length in the decoder
  split_ifs at henc <;> rw [henc] <;>
    simp only [cons_append, getD_cons_zero, getD_cons_succ, true_and] <;>
    split_ifs <;> omega

/-- The length that the first byte announces, for each of the five forms. -/
theorem mlogDecodeVarintLength_eq {first : ℕ} (h : first < 248) :
    mlogDecodeVarintLength first =
      if first < 128 then 1 else if first < 192 then 2 else if first < 224 then 3
      else if first < 240 then 4 else 5 := by
  have hall : ∀ b : Fin 248, mlogDecodeVarintLength b.val =
      if b.val < 128 then 1 else if b.val < 192 then 2 else if b.val < 224 then 3
      else if b.val < 240 then 4 else 5 := by decide +kernel
  exact hall ⟨first, h⟩

/-- The first byte of an encoding tells its length. -/
theorem mlogDecodeVarintLength_encode {i : ℕ} (hi : i < mlogDecodeError) (rest : List ℕ) :
    mlogDecodeVarintLength ((mlogEncodeVarint i ++ rest).headD 0) =
      (mlogEncodeVarint i).length := by
  rw [mlogDecodeError_eq] at hi
  have henc := mlogEncodeVarint_eq i
  split_ifs at henc <;> rw [henc] <;>
    rw [cons_append, headD_cons, mlogDecodeVarintLength_eq (by omega)] <;>
    simp only [length_cons, length_nil] <;> split_ifs <;> omega

theorem length_encodeVarint (i : ℕ) :
    (mlogEncodeVarint i).length =
      if i < 128 then 1 else if i < 16512 then 2 else if i < 2113664 then 3
      else if i < 270549120 then 4 else 5 := by
  rw [mlogEncodeVarint_eq]
  split_ifs <;> rfl

end MtrLog
