/-
**Strings and numbers of `strings/json_lib.c`.**

The scanner reads a text character by character.  A string ends at its quotation mark, with escapes
on the way; for a number there is a table of states, and the number ends at the first character that
leads nowhere in it.  The table has no way from a zero to an exponent, so `0e5` is read as `0`, and
what follows is an error.  A text is here the list of the characters that `json_next_char` gives.

A token carries the proof that the scanner reads its text as a whole.

Main definitions:

* `skipNumConstant`, `jsonReadStringConstChr`, `skipStrConstant`: the functions of the source;
* `Number`, `Chr`, `Str`: what they accept;
* `Token`: the parts of a text.

Main results:

* `Number.skip`, `Str.skip`: **the scanner comes to what follows** a number or a string.
-/

import Mathlib.Data.List.Basic
import Mathlib.Tactic

set_option autoImplicit false

namespace JsonLib

open List

/-- A text, as the characters that `json_next_char` gives. -/
abbrev Text := List ℕ

/-! ### Numbers -/

/-- `enum json_num_char_classes` -/
inductive NumClass
  | minus
  | plus
  | zero
  | digit
  | point
  | e
  | ends
  | eend
  | err
deriving DecidableEq

/-- `json_num_chr_map` -/
def numChrMap (c : ℕ) : NumClass :=
  if c = 45 then .minus
  else if c = 43 then .plus
  else if c = 48 then .zero
  else if 49 ≤ c ∧ c ≤ 57 then .digit
  else if c = 46 then .point
  else if c = 69 ∨ c = 101 then .e
  else if c ∈ [9, 10, 13, 32, 44, 93, 125] then .ends
  else if c < 32 then .err
  else .eend

/-- `enum json_num_states` -/
inductive NumState
  | ok
  | go
  | go1
  | z
  | z1
  | int
  | frac
  | ex
  | ex1
deriving DecidableEq

/-- The table `json_num_states`; `none` is an error code.  Its rows have no entry for `N_ERR`, which
is so 0. -/
def numStates : NumState → NumClass → Option NumState
  | _, .err => some .ok
  | .go, .minus => some .go1
  | .go, .zero => some .z
  | .go, .digit => some .int
  | .go1, .zero => some .z1
  | .go1, .digit => some .int
  | .z, .point | .z1, .point | .int, .point => some .frac
  | .z, .ends | .z1, .ends | .int, .ends | .frac, .ends | .ex1, .ends => some .ok
  | .int, .zero | .int, .digit => some .int
  | .int, .e | .frac, .e => some .ex
  | .frac, .zero | .frac, .digit => some .frac
  | .ex, .minus | .ex, .plus => some .ex
  | .ex, .zero | .ex, .digit | .ex1, .zero | .ex1, .digit => some .ex1
  | _, _ => none

/-- The loop of `skip_num_constant`: the text behind the number, or an error.  Only at the end of the
text the error of the table is one of the scanner. -/
def skipNumLoop : NumState → Text → Option Text
  | state, [] => if (numStates state .ends).isSome then some [] else none
  | state, c :: rest =>
    if c < 128 then
      match numStates state (numChrMap c) with
      | none | some .ok => some (c :: rest)
      | some state => skipNumLoop state rest
    else none

/-- `skip_num_constant` for a number that starts with `c`. -/
def skipNumConstant (c : ℕ) (rest : Text) : Option Text :=
  (numStates .go (numChrMap c)).bind fun state => skipNumLoop state rest

/-- The class `C_DIGIT` of `json_chr_map`. -/
def isDigit (c : ℕ) : Bool := c = 45 ∨ 48 ≤ c ∧ c ≤ 57

/-- A number, as a text that the scanner reads to its end. -/
structure Number where
  first : ℕ
  rest : Text
  digit : isDigit first
  reads : skipNumConstant first rest = some []
deriving DecidableEq

/-- What may follow a number: nothing, or a character at which a number ends. -/
def Delimits (rest : Text) : Prop := ∀ c ∈ rest.head?, numChrMap c = .ends

theorem skipNumLoop_append {state : NumState} {text rest : Text} (hrest : Delimits rest)
    (h : skipNumLoop state text = some []) : skipNumLoop state (text ++ rest) = some rest := by
  induction text generalizing state with
  | nil =>
    cases rest with
    | nil => exact h
    | cons c rest =>
      have hc : numChrMap c = .ends := hrest c rfl
      have hlt : c < 128 := by
        by_contra hge
        have hbig : numChrMap c = .eend := by
          unfold numChrMap
          split_ifs <;> simp_all <;> omega
        rw [hbig] at hc
        cases hc
      rw [nil_append, skipNumLoop, if_pos hlt, hc]
      cases state <;> rfl
  | cons c text ih =>
    rw [skipNumLoop] at h
    rw [cons_append, skipNumLoop]
    split at h
    case isFalse => cases h
    case isTrue hlt =>
      rw [if_pos hlt]
      split at h <;> simp_all

theorem Number.skip (n : Number) {rest : Text} (hrest : Delimits rest) :
    skipNumConstant n.first (n.rest ++ rest) = some rest := by
  have hreads := n.reads
  unfold skipNumConstant at hreads ⊢
  cases hgo : numStates .go (numChrMap n.first) with
  | none => simp [hgo] at hreads
  | some state =>
    rw [hgo] at hreads
    exact skipNumLoop_append hrest hreads

/-! ### Strings -/

/-- The value of a character of `json_instr_chr_map` that is at most `S_F`. -/
def hexDigit (c : ℕ) : Option ℕ :=
  if 48 ≤ c ∧ c ≤ 57 then some (c - 48)
  else if 65 ≤ c ∧ c ≤ 70 then some (c - 55)
  else if 97 ≤ c ∧ c ≤ 102 then some (c - 87)
  else none

/-- `read_4_hexdigits`, as one number of 16 bits. -/
def read4Hexdigits : Text → Option (ℕ × Text)
  | c3 :: c2 :: c1 :: c0 :: rest =>
    match hexDigit c3, hexDigit c2, hexDigit c1, hexDigit c0 with
    | some d3, some d2, some d1, some d0 => some (((d3 * 16 + d2) * 16 + d1) * 16 + d0, rest)
    | _, _, _, _ => none
  | _ => none

/-- The second half of a surrogate pair, `\u` and four digits. -/
def lowSurrogate (high : ℕ) : Text → Option (ℕ × Text)
  | 92 :: 117 :: rest =>
    match read4Hexdigits rest with
    | none => none
    | some (low, rest) =>
      if low / 1024 = 0xDC00 / 1024 then some (high % 1024 * 1024 + low % 1024 + 0x10000, rest)
      else none
  | _ => none

/-- The code of the character that an escape other than `\u` stands for. -/
def escaped (c : ℕ) : ℕ :=
  if c = 98 then 8
  else if c = 102 then 12
  else if c = 110 then 10
  else if c = 114 then 13
  else if c = 116 then 9
  else c

/-- `json_handle_esc`: the code of the character, and the text behind the escape. -/
def jsonHandleEsc : Text → Option (ℕ × Text)
  | [] => none
  | c :: rest =>
    if c < 32 then none
    else if c ≠ 117 then some (escaped c, rest)
    else
      match read4Hexdigits rest with
      | none => none
      | some (code, rest) =>
        -- half of a surrogate pair
        if code / 1024 = 0xD800 / 1024 then lowSurrogate code rest
        else if code / 1024 = 0xDC00 / 1024 then none
        else some (code, rest)

def jsonReadStringConstChr : Text → Option (ℕ × Text)
  | [] => none
  | c :: rest => if c = 92 then jsonHandleEsc rest else some (c, rest)

/-- `skip_str_constant`: the text behind the quotation mark. -/
def skipStrConstant : ℕ → Text → Option Text
  | 0, _ => none
  | _ + 1, [] => none
  | fuel + 1, c :: rest =>
    if c = 34 then some rest
    -- characters that are not allowed in a string
    else if c < 32 then none
    else (jsonReadStringConstChr (c :: rest)).bind fun r => skipStrConstant fuel r.2

/-- A character of a string: its text in the document, which may be an escape, and its code. -/
structure Chr where
  first : ℕ
  rest : Text
  code : ℕ
  allowed : first ≠ 34 ∧ 32 ≤ first
  reads : jsonReadStringConstChr (first :: rest) = some (code, [])
deriving DecidableEq

def Chr.text (c : Chr) : Text := c.first :: c.rest

/-- A string, as a key or as a value, without its quotation marks. -/
abbrev Str := List Chr

/-- The text of a string between its quotation marks. -/
def Str.text (s : Str) : Text := s.flatMap Chr.text

/-- The characters of a string, with the escapes resolved. -/
def Str.name (s : Str) : List ℕ := s.map Chr.code

theorem Str.text_cons (c : Chr) (s : Str) : Str.text (c :: s) = c.text ++ Str.text s :=
  flatMap_cons

theorem read4Hexdigits_append {text left : Text} {code : ℕ} (rest : Text)
    (h : read4Hexdigits text = some (code, left)) :
    read4Hexdigits (text ++ rest) = some (code, left ++ rest) := by
  match text, h with
  | c3 :: c2 :: c1 :: c0 :: text, h =>
    simp only [read4Hexdigits, cons_append] at h ⊢
    split at h
    · simp_all
    · cases h

theorem lowSurrogate_append {text left : Text} {high code : ℕ} (rest : Text)
    (h : lowSurrogate high text = some (code, left)) :
    lowSurrogate high (text ++ rest) = some (code, left ++ rest) := by
  match text, h with
  | 92 :: 117 :: text, h =>
    simp only [lowSurrogate, cons_append] at h ⊢
    cases hread : read4Hexdigits text with
    | none => simp [hread] at h
    | some r =>
      rw [read4Hexdigits_append rest hread]
      simp only [hread] at h ⊢
      split_ifs at h ⊢
      simp_all

/-- What is behind an escape is not looked at. -/
theorem jsonHandleEsc_append {text left : Text} {code : ℕ} (rest : Text)
    (h : jsonHandleEsc text = some (code, left)) :
    jsonHandleEsc (text ++ rest) = some (code, left ++ rest) := by
  match text, h with
  | c :: text, h =>
    simp only [jsonHandleEsc, cons_append] at h ⊢
    split_ifs at h ⊢
    · simp_all
    · cases hread : read4Hexdigits text with
      | none => simp [hread] at h
      | some r =>
        rw [read4Hexdigits_append rest hread]
        simp only [hread] at h ⊢
        split_ifs at h ⊢
        · exact lowSurrogate_append rest h
        · simp_all

theorem Chr.read (c : Chr) (rest : Text) :
    jsonReadStringConstChr (c.text ++ rest) = some (c.code, rest) := by
  have hreads := c.reads
  rw [jsonReadStringConstChr] at hreads
  rw [Chr.text, cons_append, jsonReadStringConstChr]
  split_ifs at hreads ⊢
  · simpa using jsonHandleEsc_append rest hreads
  · simp_all

/-- Strings that are written in the same way are the same. -/
theorem Str.name_eq_of_text_eq {s s' : Str} (h : Str.text s = Str.text s') :
    Str.name s = Str.name s' := by
  induction s generalizing s' with
  | nil =>
    cases s' with
    | nil => rfl
    | cons c' s' => simp [Str.text, Chr.text] at h
  | cons c s ih =>
    cases s' with
    | nil => simp [Str.text, Chr.text] at h
    | cons c' s' =>
      have hread := c.read (Str.text s)
      rw [← Str.text_cons, h, Str.text_cons, c'.read] at hread
      obtain ⟨hcode, htext⟩ : c'.code = c.code ∧ Str.text s' = Str.text s := by simpa using hread
      simpa [Str.name, hcode] using ih htext.symm

theorem Str.skip (s : Str) {fuel : ℕ} (hfuel : s.length < fuel) (rest : Text) :
    skipStrConstant fuel (Str.text s ++ 34 :: rest) = some rest := by
  induction s generalizing fuel with
  | nil =>
    cases fuel with
    | zero => simp at hfuel
    | succ fuel => rfl
  | cons c s ih =>
    cases fuel with
    | zero => simp at hfuel
    | succ fuel =>
      have hread := c.read (Str.text s ++ 34 :: rest)
      rw [Chr.text, cons_append] at hread
      rw [Str.text, flatMap_cons, Chr.text, cons_append, cons_append, skipStrConstant,
        if_neg c.allowed.1, if_neg (by have := c.allowed.2; omega), append_assoc, ← Str.text, hread]
      exact ih (by simpa using hfuel)

/-! ### Tokens -/

/-- A value without parts. -/
inductive Scalar
  | string (s : Str)
  | number (n : Number)
  | true
  | false
  | null
deriving DecidableEq

inductive Token
  | lcurb
  | rcurb
  | lsqrb
  | rsqrb
  | colon
  | comma
  | scalar (s : Scalar)
deriving DecidableEq

end JsonLib
