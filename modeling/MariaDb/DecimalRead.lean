/-
**The round trip of decimals through the binary format.**

`bin2decimal` takes the sign from the first bit, reads the groups and leaves out the zero words in
front.  The bytes that `decimal2bin` wrote are a list of groups of digits under one mask, and each
group leaves the top bit of its bytes free, so that the first bit is the sign, whichever group is the
first one that is not empty.

Main definitions:

* `pack`, `Decimal.groups`: the bytes of a list of groups, and the groups of a decimal;
* `Decimal.restored`: the decimal that is read back.

Main results:

* `bin2decimal_decimal2bin`: **the round trip**: the number is restored.
-/

import MariaDb.DecimalBin

set_option autoImplicit false

namespace Dec

open Radix List Option Decimal Nat

variable {d : Decimal} {p s : ℕ}

/-! ### Reading back -/

variable (mask : Bool)

theorem xorMask_xorMask (x : ℤ) : xorMask mask (xorMask mask x) = x := by
  cases mask with
  | false => rfl
  | true =>
    simp only [xorMask, if_true]
    omega

variable {n x w len : ℕ} {ws : List ℕ}

theorem readSigned_xorMask (h : 2 * (x + 1) ≤ 256 ^ n) :
    readSigned (store n (xorMask mask x)) = xorMask mask x := by
  have h' : 2 * ((x : ℤ) + 1) ≤ 256 ^ n := by exact_mod_cast h
  apply readSigned_store <;> cases mask <;>
    simp only [xorMask, if_true, Bool.false_eq_true, if_false] <;> omega

theorem readWord_store (h : 2 * (x + 1) ≤ 256 ^ n) (rest : List ℕ) :
    readWord mask n (store n (xorMask mask x) ++ rest) = x := by
  have hlen := length_store n (xorMask mask x)
  rw [readWord, take_append_of_le_length hlen.ge, take_of_length_le hlen.le,
    readSigned_xorMask mask h, xorMask_xorMask]

theorem drop_store (n : ℕ) (v : ℤ) (rest : List ℕ) : (store n v ++ rest).drop n = rest := by
  rw [drop_append_of_le_length (length_store n v).ge,
    drop_of_length_le (length_store n v).le, nil_append]

theorem word_fits (hw : w < digBase) : 2 * (w + 1) ≤ 256 ^ 4 := by
  unfold digBase at hw
  omega

theorem word_emod (hw : w < digBase) : (w : ℤ) % 2 ^ 32 = w := by
  unfold digBase at hw
  omega

theorem word_not_gt (hw : w < digBase) : ¬ ((w : ℤ) % 2 ^ 32 > digMax) := by
  rw [word_emod hw, digMax]
  omega

section

variable (hws : ∀ w ∈ ws, w < digBase)
include hws

/-- Words behind one that is not zero are all kept. -/
theorem readIntWords_append (rest : List ℕ) (intg : ℕ) {buf : List ℕ} (hbuf : buf ≠ []) :
    readIntWords mask ws.length (storeWords mask ws ++ rest) intg buf =
      some (intg, buf ++ ws, rest) := by
  induction ws generalizing buf with
  | nil => rw [storeWords_nil, nil_append, length_nil, readIntWords, append_nil]
  | cons w ws ih =>
    rw [forall_mem_cons] at hws
    rw [length_cons, readIntWords, storeWords_cons, append_assoc,
      readWord_store mask (word_fits hws.1), drop_store]
    simp only [if_neg (word_not_gt hws.1), hbuf, ne_eq, not_false_eq_true, true_or, if_true,
      Int.toNat_natCast]
    rw [ih hws.2 (append_ne_nil_of_left_ne_nil hbuf [w]), append_assoc, singleton_append]

/-- The words of the integer part are read back without leading zeros. -/
theorem readIntWords_nil (rest : List ℕ) {intg : ℕ} (hintg : intg = 9 * ws.length) :
    readIntWords mask ws.length (storeWords mask ws ++ rest) intg [] =
      some (9 * (ws.dropWhile (· = 0)).length, ws.dropWhile (· = 0), rest) := by
  induction ws generalizing intg with
  | nil => rw [hintg]; rfl
  | cons w ws ih =>
    rw [forall_mem_cons] at hws
    rw [length_cons, readIntWords, storeWords_cons, append_assoc,
      readWord_store mask (word_fits hws.1), drop_store]
    simp only [if_neg (word_not_gt hws.1), Int.toNat_natCast, nil_append]
    by_cases hw : w = 0
    · have hleft : intg - digPerDec1 = 9 * ws.length := by
        rw [hintg, length_cons, digPerDec1]
        omega
      rw [if_neg (by simp [hw]), ih hws.2 hleft, dropWhile_cons_of_pos (by simp [hw])]
    · rw [if_pos (by simp [hw]), readIntWords_append mask hws.2 rest intg (cons_ne_nil _ _),
        dropWhile_cons_of_neg (by simp [hw]), hintg]
      rfl

theorem readFracWords_storeWords (rest buf : List ℕ) :
    readFracWords mask ws.length (storeWords mask ws ++ rest) buf = some (buf ++ ws, rest) := by
  induction ws generalizing buf with
  | nil => rw [storeWords_nil, nil_append, length_nil, readFracWords, append_nil]
  | cons w ws ih =>
    rw [forall_mem_cons] at hws
    rw [length_cons, readFracWords, storeWords_cons, append_assoc,
      readWord_store mask (word_fits hws.1), drop_store]
    simp only [if_neg (word_not_gt hws.1), Int.toNat_natCast]
    rw [ih hws.2, append_assoc, singleton_append]

end

/-- A group of `n` digits is read back. -/
theorem group_fits (hn : n ≠ 0) (hn9 : n ≤ 9) (hx : x < 10 ^ n) : 2 * (x + 1) ≤ 256 ^ dig2bytes n :=
  (mul_le_mul_left 2 hx).trans (two_mul_pow_le (pos_of_ne_zero hn) hn9)

/-- The integer part is read back without leading zeros. -/
theorem readInt_pack {intg : ℕ} {iw : List ℕ} (hlen : iw.length = intg / 9 + 1)
    (hiw : ∀ w ∈ iw, w < digBase) (hlead : iw.getD 0 0 < 10 ^ (intg % 9)) (rest : List ℕ) :
    ((readLead mask (intg / 9 * digPerDec1 + intg % 9) (intg % 9)
        (packInt mask intg iw ++ rest)).bind fun (n, buf, bytes) =>
          readIntWords mask (intg / 9) bytes n buf) =
      some (if iw.getD 0 0 = 0 then 9 * (iw.dropWhile (· = 0)).length else intg,
        iw.dropWhile (· = 0), rest) := by
  cases iw with
  | nil => simp at hlen
  | cons w ws =>
    have hws : ws.length = intg / 9 := by simpa using hlen
    have hmul : intg / 9 * digPerDec1 = 9 * ws.length := by
      rw [hws, digPerDec1]
      omega
    rw [forall_mem_cons] at hiw
    rw [getD_cons_zero] at hlead ⊢
    rw [packInt, getD_cons_zero, drop_one, tail_cons, hmul, ← hws, readLead]
    by_cases hx : intg % 9 = 0
    · -- there is no first group
      have hw : w = 0 := by
        rw [hx, pow_zero] at hlead
        omega
      rw [if_neg (not_not.mpr hx), if_pos hw, bind_some, hx, add_zero,
        dropWhile_cons_of_pos (by simp [hw]), append_assoc]
      exact readIntWords_nil mask hiw.2 rest rfl
    have hfits := group_fits hx (by omega) hlead
    have hpow : w < powers10 (intg % 9 + 1) :=
      hlead.trans_le (Nat.pow_le_pow_right (by norm_num) (by omega))
    rw [if_pos hx, append_assoc]
    simp only [readWord_store mask hfits, drop_store]
    rw [if_neg (by omega)]
    by_cases hw : w = 0
    · rw [if_neg (by simp [hw]), if_pos hw, bind_some, dropWhile_cons_of_pos (by simp [hw])]
      exact readIntWords_nil mask hiw.2 rest (by omega)
    rw [if_pos (by simp [hw]), if_neg hw, bind_some,
      dropWhile_cons_of_neg (by simp [hw]), Int.toNat_natCast]
    have hread := readIntWords_append mask hiw.2 rest (9 * ws.length + intg % 9) (cons_ne_nil w [])
    have hintg : 9 * ws.length + intg % 9 = intg := by omega
    rw [hintg] at hread ⊢
    exact hread

theorem last_lt (hw : w < digBase) (hn : n ≤ 9) : w / powers10 (9 - n) < 10 ^ n := by
  have hsplit : (10 : ℕ) ^ 9 = 10 ^ (9 - n) * 10 ^ n := by
    rw [← pow_add, Nat.sub_add_cancel hn]
  rw [digBase_eq, hsplit] at hw
  exact Nat.div_lt_of_lt_mul hw

theorem getD_lt {b : ℕ} (hb : 0 < b) (h : ∀ w ∈ ws, w < b) (i : ℕ) : ws.getD i 0 < b := by
  rcases lt_or_ge i ws.length with hi | hi
  · rw [getD_eq_getElem _ _ hi]
    exact h _ (getElem_mem hi)
  · rw [getD_eq_default _ _ hi]
    exact hb

/-- The fraction is read back, in all words that its digits take. -/
theorem readFrac_pack {frac : ℕ} {fs : List ℕ} (hfs : ∀ w ∈ fs, w < digBase)
    (hdvd : 10 ^ (9 - frac % 9) ∣ fs.getD (frac / 9) 0) (buf : List ℕ) :
    ((readFracWords mask (frac / 9) (packFrac mask frac fs) buf).bind fun (buf, bytes) =>
        readLast mask (frac % 9) bytes buf) =
      some (buf ++ padTo (roundUp frac) fs) := by
  have hpad : ∀ w ∈ padTo (frac / 9) fs, w < digBase := padTo_lt (by norm_num [digBase]) hfs
  have hread := readFracWords_storeWords mask hpad (store (dig2bytes (frac % 9))
    (xorMask mask (fs.getD (frac / 9) 0 / powers10 (9 - frac % 9) : ℕ))) buf
  rw [length_padTo] at hread
  rw [packFrac, hread, roundUp_eq]
  simp only [bind_some]
  unfold readLast
  by_cases hx : frac % 9 = 0
  · have hround : (frac + 8) / 9 = frac / 9 := by omega
    rw [if_neg (not_not.mpr hx), hround]
  have hround : (frac + 8) / 9 = frac / 9 + 1 := by omega
  have hword : fs.getD (frac / 9) 0 < digBase := getD_lt (by norm_num [digBase]) hfs _
  have hx' := readWord_store mask (group_fits hx (by omega) (last_lt hword (by omega))) []
  rw [append_nil] at hx'
  have hmul : fs.getD (frac / 9) 0 / powers10 (9 - frac % 9) * powers10 (9 - frac % 9) =
      fs.getD (frac / 9) 0 := Nat.div_mul_cancel hdvd
  rw [if_pos hx, hx', show digPerDec1 = 9 from rfl, ← Nat.cast_mul, hmul]
  simp only [if_neg (word_not_gt hword)]
  rw [word_emod hword, Int.toNat_natCast, hround, padTo_succ, append_assoc]

/-! ### Groups -/

/-- A list of groups, each with its number of digits, in the bytes of the format. -/
def pack (mask : Bool) (gs : List (ℕ × ℕ)) : List ℕ :=
  gs.flatMap fun g => store (dig2bytes g.1) (xorMask mask g.2)

/-- A group holds a number of its digits. -/
def GroupOk (g : ℕ × ℕ) : Prop := g.1 ≤ 9 ∧ g.2 < 10 ^ g.1

theorem pack_cons (g : ℕ × ℕ) (gs : List (ℕ × ℕ)) :
    pack mask (g :: gs) = store (dig2bytes g.1) (xorMask mask g.2) ++ pack mask gs := rfl

theorem pack_append (gs hs : List (ℕ × ℕ)) :
    pack mask (gs ++ hs) = pack mask gs ++ pack mask hs := flatMap_append

theorem pack_lt (gs : List (ℕ × ℕ)) : ∀ x ∈ pack mask gs, x < 256 := by
  intro x hx
  obtain ⟨g, -, hx⟩ := mem_flatMap.mp hx
  exact store_lt _ _ x hx

theorem pack_words (ws : List ℕ) : pack mask (ws.map fun w => (9, w)) = storeWords mask ws := by
  rw [pack, flatMap_map]
  rfl

theorem dig2bytes_pos (h : n ≠ 0) (hn : n ≤ 9) : ∃ m, dig2bytes n = m + 1 := by
  have hmono := dig2bytes_mono (one_le_iff_ne_zero.mpr h) hn
  rw [show dig2bytes 1 = 1 from rfl] at hmono
  exact ⟨dig2bytes n - 1, by omega⟩

theorem group_signed {g : ℕ × ℕ} {m : ℕ} (hok : GroupOk g) (hg : g.1 ≠ 0)
    (hm : dig2bytes g.1 = m + 1) :
    -(128 * 256 ^ m) ≤ xorMask mask g.2 ∧ xorMask mask g.2 < 128 * 256 ^ m := by
  have hfits := group_fits hg hok.1 hok.2
  rw [hm, pow_succ] at hfits
  have hfits' : 2 * ((g.2 : ℤ) + 1) ≤ 256 ^ m * 256 := by exact_mod_cast hfits
  cases mask <;> simp only [xorMask, if_true, Bool.false_eq_true, if_false] <;> omega

/-- The first bit of the binary format is the sign. -/
theorem flipTop_pack_bit {gs : List (ℕ × ℕ)} (hok : ∀ g ∈ gs, GroupOk g) (hne : ∃ g ∈ gs, g.1 ≠ 0) :
    (flipTop (pack mask gs)).getD 0 0 &&& 0x80 = 0 ↔ mask = true := by
  induction gs with
  | nil =>
    obtain ⟨g, hg, _⟩ := hne
    cases hg
  | cons g gs ih =>
    rw [forall_mem_cons] at hok
    by_cases hg : g.1 = 0
    · rw [pack_cons, hg, show dig2bytes 0 = 0 from rfl, store, nil_append]
      apply ih hok.2
      obtain ⟨g', hg', hne'⟩ := hne
      cases mem_cons.mp hg' with
      | inl h => rw [h] at hne'; exact absurd hg hne'
      | inr h => exact ⟨g', h, hne'⟩
    · obtain ⟨m, hm⟩ := dig2bytes_pos hg hok.1.1
      obtain ⟨hlo, hhi⟩ := group_signed mask hok.1 hg hm
      rw [pack_cons, hm, flipTop_store_bit hlo hhi]
      cases mask with
      | false => simp [xorMask]
      | true => simp only [xorMask, if_true, iff_true]; omega

/-- The groups of a decimal in the format for precision `p` and scale `s`. -/
def Decimal.groups (d : Decimal) (p s : ℕ) : List (ℕ × ℕ) :=
  let iw := d.intCanon ((p - s) / 9 + 1)
  ((p - s) % 9, iw.getD 0 0) :: ((iw.drop 1).map (9, ·) ++ ((padTo (s / 9) d.fracWords).map (9, ·) ++
    [(s % 9, d.fracWords.getD (s / 9) 0 / powers10 (9 - s % 9))]))

theorem pack_groups (d : Decimal) (p s : ℕ) : pack mask (d.groups p s) =
      packInt mask (p - s) (d.intCanon ((p - s) / 9 + 1)) ++ packFrac mask s d.fracWords := by
  rw [groups, pack_cons, pack_append, pack_append, pack_words, pack_words, packInt, packFrac,
    append_assoc]
  simp [pack]

/-! ### The words of a decimal that fits -/

theorem dropWhile_zeros (n : ℕ) (ws : List ℕ) :
    (List.replicate n 0 ++ ws).dropWhile (· = 0) = ws.dropWhile (· = 0) := by
  induction n with
  | zero => rfl
  | succ n ih =>
    rw [replicate_succ, cons_append, dropWhile_cons_of_pos (by simp), ih]

theorem dropWhile_intCanon (d : Decimal) (n : ℕ) : (d.intCanon n).dropWhile (· = 0) = d.sigWords := by
  rw [intCanon, dropWhile_zeros, sigWords, dropWhile_idempotent]

theorem val_intCanon (d : Decimal) (n : ℕ) :
    val digBase (d.intCanon n) = val digBase d.intWords := by
  rw [intCanon, val_zeros_append, sigWords, val_dropWhile_zero]

theorem Decimal.Sound.sigWord_lt (hd : d.Sound) : ∀ w ∈ d.sigWords, w < digBase := fun w hw =>
  hd.intWord_lt w ((dropWhile_suffix _).subset hw)

theorem Decimal.Sound.intCanon_lt (hd : d.Sound) (n : ℕ) : ∀ w ∈ d.intCanon n, w < digBase := by
  intro w hw
  cases mem_append.mp hw with
  | inl h => rw [eq_of_mem_replicate h]; norm_num [digBase]
  | inr h => exact hd.sigWord_lt w h

/-- The decimal that is read back, unless it has no digits. -/
def Decimal.restored (d : Decimal) (len p s : ℕ) : Decimal where
  intg := if (d.intCanon ((p - s) / 9 + 1)).getD 0 0 = 0 then 9 * d.sigWords.length else p - s
  frac := s
  len := len
  sign := d.mask
  buf := d.sigWords ++ padTo (roundUp s) d.fracWords

theorem decimalBinSize_eq (p s : ℕ) : decimalBinSize p s = digitsSize (p - s) + digitsSize s :=
  add_assoc _ _ _

theorem length_packFrac (frac : ℕ) (fs : List ℕ) :
    (packFrac mask frac fs).length = digitsSize frac := by
  rw [packFrac, length_append, length_storeWords, length_padTo, length_store, digitsSize_eq]

theorem words_eq (n : ℕ) : n / 9 + (if n % 9 > 0 then 1 else 0) = roundUp n := by
  rw [roundUp_eq]
  split <;> omega

theorem getD_padTo {i : ℕ} (h : i < n) (fs : List ℕ) : (padTo n fs).getD i 0 = fs.getD i 0 := by
  rw [padTo, getD_eq_getElem?_getD, getElem?_take, if_pos h, ← getD_eq_getElem?_getD]
  rcases lt_or_ge i fs.length with hi | hi
  · exact getD_append _ _ _ _ hi
  · rw [getD_append_right _ _ _ _ hi, getD_eq_default _ _ hi,
      getD_eq_getElem?_getD, getElem?_replicate]
    split <;> rfl

/-- A decimal that is given by the words of its two parts. -/
theorem wf_of_words {intg frac len : ℕ} (sign : Bool) {iw fw : List ℕ} (hintg : intg < 2 ^ 16)
    (hiw : iw.length = roundUp intg) (hfw : fw.length = roundUp frac)
    (hlen : iw.length + fw.length ≤ len) (hword : ∀ w ∈ iw ++ fw, w < digBase)
    (hfirst : LeadOk intg iw) (hlast : frac % 9 ≠ 0 → 10 ^ (9 - frac % 9) ∣ fw.getD (frac / 9) 0) :
    (⟨intg, frac, len, sign, iw ++ fw⟩ : Decimal).WF ∧
      (⟨intg, frac, len, sign, iw ++ fw⟩ : Decimal).intWords = iw ∧
      (⟨intg, frac, len, sign, iw ++ fw⟩ : Decimal).fracWords = fw := by
  have hint : (⟨intg, frac, len, sign, iw ++ fw⟩ : Decimal).intWords = iw := by
    rw [intWords, ← hiw]
    exact take_left
  have hfrac : (⟨intg, frac, len, sign, iw ++ fw⟩ : Decimal).fracWords = fw := by
    rw [fracWords, ← hiw, drop_left, ← hfw, take_length]
  refine ⟨⟨⟨?_, ?_, ?_, ?_⟩, hintg, ?_⟩, hint, hfrac⟩
  · rw [length_append, hiw, hfw]
  · rwa [← hiw, ← hfw]
  · rwa [hint, hfrac]
  · intro hpos
    have hhead : (iw ++ fw).getD 0 0 = iw.getD 0 0 :=
      getD_append _ _ _ _ (hiw ▸ roundUp_pos hpos)
    rw [hhead]
    exact hfirst hpos
  · intro hne
    have hget : (iw ++ fw).getD (roundUp intg + frac / 9) 0 = fw.getD (frac / 9) 0 := by
      rw [← hiw, getD_append_right _ _ _ _ (Nat.le_add_right _ _), Nat.add_sub_cancel_left]
    have hdvd := hlast hne
    rw [← hget] at hdvd
    exact hdvd

/-- The magnitude in units of the word `n` of the fraction. -/
theorem Decimal.Sound.val_padTo (hd : d.Sound) (hn : roundUp d.frac ≤ n) :
    val digBase (d.sigWords ++ padTo n d.fracWords) = d.mag * digBase ^ (n - roundUp d.frac) := by
  rw [padTo_of_le (hd.length_fracWords.le.trans hn), ← append_assoc, val_append_zeros, mag,
    val_append, val_append, sigWords, val_dropWhile_zero, hd.length_fracWords]

theorem Decimal.Sound.value_eq (hd : d.Sound) (hn : roundUp d.frac ≤ n) :
    d.value = (if d.sign then -1 else 1) *
      (val digBase (d.sigWords ++ padTo n d.fracWords) / digBase ^ n) := by
  have hbase : (digBase : ℚ) ≠ 0 := by norm_num [digBase]
  have hpow : (digBase : ℚ) ^ n = digBase ^ roundUp d.frac * digBase ^ (n - roundUp d.frac) := by
    rw [← pow_add, Nat.add_sub_cancel' hn]
  rw [hd.val_padTo hn, value, Nat.cast_mul, cast_pow, hpow,
    mul_div_mul_right _ _ (pow_ne_zero _ hbase)]

/-- The sign that is lost is that of a zero. -/
theorem Decimal.Sound.mask_or_zero (hd : d.Sound) : d.mask = d.sign ∨ d.mag = 0 := by
  by_cases h : d.sigWords = [] ∧ d.frac = 0
  · have hfrac : d.fracWords = [] := by
      rw [← length_eq_zero_iff, hd.length_fracWords, h.2]
      rfl
    refine .inr ?_
    rw [mag, hfrac, append_nil, ← val_dropWhile_zero]
    exact congrArg (val digBase) h.1
  · refine .inl ?_
    simp [mask, h]

theorem decimalMakeZero_wf (h : 0 < len) : (decimalMakeZero len).WF :=
  (@wf_of_words 1 0 len false [0] [] (by norm_num) rfl rfl h (by simp [digBase])
    (fun _ => by norm_num) fun hne => absurd rfl hne).1

section

variable (hd : d.WF) (hfit : d.Fits p s)
include hd hfit

theorem Decimal.Fits.length_sigWords : d.sigWords.length ≤ (p - s) / 9 + 1 := by
  obtain ⟨k, _, hlen, hlead⟩ := removeLeadingZeroes_spec hd
  have hval := hfit.int_lt
  rw [← val_dropWhile_zero] at hval
  have hk : k ≤ p - s := digits_le hlen (fun h => (hlead h).1) hval
  rw [hlen, roundUp_eq]
  omega

theorem Decimal.Fits.length_intCanon : (d.intCanon ((p - s) / 9 + 1)).length = (p - s) / 9 + 1 := by
  have hle := hfit.length_sigWords hd
  rw [intCanon, length_append, length_replicate]
  omega

/-- The first group of the integer part has no more digits than are left to it. -/
theorem Decimal.Fits.lead_lt : (d.intCanon ((p - s) / 9 + 1)).getD 0 0 < 10 ^ ((p - s) % 9) := by
  have hlen := hfit.length_intCanon hd
  have hval := hfit.int_lt
  rw [← val_intCanon d ((p - s) / 9 + 1)] at hval
  cases hiw : d.intCanon ((p - s) / 9 + 1) with
  | nil => rw [hiw] at hlen; cases hlen
  | cons w ws =>
    rw [hiw] at hlen hval
    have hws : ws.length = (p - s) / 9 := by simpa using hlen
    have hexp : p - s = (p - s) % 9 + 9 * ws.length := by omega
    rw [val_cons, digBase_eq, ← pow_mul, hexp, pow_add] at hval
    exact Nat.lt_of_mul_lt_mul_right ((Nat.le_add_right _ _).trans_lt hval)

/-- The digits of the fraction that fall into the last group are all that the word has. -/
theorem Decimal.Fits.dvd_last : 10 ^ (9 - s % 9) ∣ d.fracWords.getD (s / 9) 0 := by
  have hle := hfit.frac_le
  have hlen := hd.length_fracWords
  rw [roundUp_eq] at hlen
  rcases lt_or_ge (s / 9) d.fracWords.length with h | h
  · have hdiv : s / 9 = d.frac / 9 := by omega
    have hfrac : d.frac % digPerDec1 ≠ 0 := by
      unfold digPerDec1
      omega
    have hget : d.fracWords.getD (s / 9) 0 =
        d.buf.getD (roundUp d.intg + d.frac / digPerDec1) 0 := by
      rw [fracWords, getD_eq_getElem?_getD, getElem?_take, if_pos, hdiv,
        getElem?_drop, ← getD_eq_getElem?_getD, digPerDec1]
      rw [roundUp_eq]
      omega
    rw [hget]
    refine (pow_dvd_pow 10 ?_).trans (hd.last_dvd hfrac)
    unfold digPerDec1
    omega
  · rw [getD_eq_default _ _ h]
    exact dvd_zero _

theorem Decimal.Fits.groups_ok : ∀ g ∈ d.groups p s, GroupOk g := by
  have hpos : 0 < digBase := by norm_num [digBase]
  have hword : ∀ {ws : List ℕ}, (∀ w ∈ ws, w < digBase) → ∀ g ∈ ws.map (9, ·), GroupOk g := by
    intro ws hws g hg
    obtain ⟨w, hw, rfl⟩ := mem_map.mp hg
    exact ⟨le_rfl, hws w hw⟩
  intro g hg
  rw [groups, mem_cons, mem_append, mem_append, mem_singleton] at hg
  rcases hg with rfl | hint | hfrac | rfl
  · exact ⟨by simp only; omega, hfit.lead_lt hd⟩
  · exact hword (fun w hw => hd.intCanon_lt _ w (mem_of_mem_drop hw)) g hint
  · exact hword (padTo_lt hpos hd.fracWord_lt) g hfrac
  · exact ⟨by simp only; omega, last_lt (getD_lt hpos hd.fracWord_lt _) (by omega)⟩

/-- A format for at least one digit has a group that is not empty. -/
theorem Decimal.Fits.groups_ne (hp : 0 < p) : ∃ g ∈ d.groups p s, g.1 ≠ 0 := by
  have hlen := hfit.length_intCanon hd
  have hword : ∀ ws : List ℕ, 0 < ws.length → ∃ g ∈ ws.map ((9 : ℕ), ·), g.1 ≠ 0 := by
    intro ws hws
    cases ws with
    | nil => cases hws
    | cons w ws => exact ⟨(9, w), mem_cons_self, by norm_num⟩
  simp only [groups, mem_cons, mem_append]
  by_cases h1 : (p - s) % 9 = 0
  · by_cases h2 : s % 9 = 0
    · by_cases h3 : (p - s) / 9 = 0
      · obtain ⟨g, hg, hne⟩ := hword (padTo (s / 9) d.fracWords) (by rw [length_padTo]; omega)
        exact ⟨g, .inr (.inr (.inl hg)), hne⟩
      · obtain ⟨g, hg, hne⟩ := hword ((d.intCanon ((p - s) / 9 + 1)).drop 1)
          (by rw [length_drop, hlen]; omega)
        exact ⟨g, .inr (.inl hg), hne⟩
    · exact ⟨_, .inr (.inr (.inr (.inl rfl))), h2⟩
  · exact ⟨_, .inl rfl, h1⟩

/-! ### The decimal that is read back -/

theorem readBin_pack (len : ℕ) :
    readBin mask ((p - s) / 9) ((p - s) % 9) (s / 9) (s % 9) (pack mask (d.groups p s)) =
      some ((d.restored len p s).intg, (d.restored len p s).buf) := by
  have hint := readInt_pack mask (hfit.length_intCanon hd) (hd.intCanon_lt _) (hfit.lead_lt hd)
    (packFrac mask s d.fracWords)
  have hfrac := readFrac_pack mask hd.fracWord_lt (hfit.dvd_last hd) d.sigWords
  rw [dropWhile_intCanon] at hint
  obtain ⟨⟨n, buf, bytes⟩, hlead, hwords⟩ := bind_eq_some_iff.mp hint
  obtain ⟨⟨buf', bytes'⟩, hread, hlast⟩ := bind_eq_some_iff.mp hfrac
  simp only [pack_groups, readBin, hlead, hwords, hread, hlast, bind_eq_bind, bind_some]
  rfl

theorem length_pack_groups : (pack mask (d.groups p s)).length = decimalBinSize p s := by
  rw [pack_groups, length_append, length_packInt mask (hfit.length_intCanon hd), length_packFrac,
    decimalBinSize_eq]

/-- **The result of reading back** the groups of a decimal that fits, under any mask. -/
theorem bin2decimal_eq (hp : 0 < p) (hlen : decimalSize p s ≤ len) :
    bin2decimal (flipTop (pack mask (d.groups p s))) len p s =
      (.ok, if (d.restored len p s).intg = 0 ∧ s = 0 then decimalMakeZero len
        else { d.restored len p s with sign := mask }) := by
  have hbit : decide ((flipTop (pack mask (d.groups p s))).getD 0 0 &&& 0x80 = 0) = mask := by
    rw [Bool.eq_iff_iff, decide_eq_true_iff]
    exact flipTop_pack_bit mask (hfit.groups_ok hd) (hfit.groups_ne hd hp)
  have htake : (flipTop (pack mask (d.groups p s))).take (decimalBinSize p s) =
      flipTop (pack mask (d.groups p s)) :=
    take_of_length_le (by rw [length_flipTop, length_pack_groups mask hd hfit])
  have hwords : fixIntgFracError len ((p - s) / 9 + if (p - s) % 9 > 0 then 1 else 0)
      (s / 9 + if s % 9 > 0 then 1 else 0) = (roundUp (p - s), roundUp s, .ok) := by
    rw [words_eq, words_eq, fixIntgFracError, if_neg]
    exact not_lt.mpr hlen
  have hfrac : s / 9 * 9 + s % 9 = s := by omega
  unfold bin2decimal
  simp only [hbit, htake, flipTop_flipTop, mod_eq_sub]
  simp only [show digPerDec1 = 9 from rfl, hwords, if_true, readBin_pack mask hd hfit len, hfrac]
  split <;> rfl

/-! ### It is well-formed and denotes the same number -/

/-- The first group is empty or zero, or it is the first word of the number. -/
theorem Decimal.Fits.lead_cases :
    ((d.intCanon ((p - s) / 9 + 1)).getD 0 0 = 0 ∧ d.sigWords.length ≤ (p - s) / 9) ∨
      ((d.intCanon ((p - s) / 9 + 1)).getD 0 0 ≠ 0 ∧ (p - s) % 9 ≠ 0 ∧
        d.intCanon ((p - s) / 9 + 1) = d.sigWords) := by
  have hlead := hfit.lead_lt hd
  rcases lt_or_ge d.sigWords.length ((p - s) / 9 + 1) with h | h
  · have hzeros : (p - s) / 9 + 1 - d.sigWords.length = (p - s) / 9 - d.sigWords.length + 1 := by
      omega
    refine .inl ⟨?_, by omega⟩
    rw [intCanon, hzeros, replicate_succ, cons_append, getD_cons_zero]
  have hcanon : d.intCanon ((p - s) / 9 + 1) = d.sigWords := by
    rw [intCanon, Nat.sub_eq_zero_of_le h, replicate_zero, nil_append]
  have hne : (d.intCanon ((p - s) / 9 + 1)).getD 0 0 ≠ 0 := by
    rw [hcanon]
    exact getD_dropWhile_ne_zero (ne_nil_of_length_pos (lt_of_succ_le ((le_add_left 1 _).trans h)))
  refine .inr ⟨hne, fun hmod => ?_, hcanon⟩
  rw [hmod, pow_zero] at hlead
  omega

theorem Decimal.Fits.roundUp_restored (len : ℕ) :
    roundUp (d.restored len p s).intg = d.sigWords.length := by
  have hlen := hfit.length_intCanon hd
  simp only [restored, roundUp_eq]
  rcases hfit.lead_cases hd with ⟨hzero, _⟩ | ⟨hne, hmod, hcanon⟩
  · rw [if_pos hzero]
    omega
  · rw [if_neg hne, ← hcanon, hlen]
    omega

theorem Decimal.Fits.intg_restored_le (len : ℕ) : (d.restored len p s).intg ≤ p - s := by
  simp only [restored]
  rcases hfit.lead_cases hd with ⟨hzero, hle⟩ | ⟨hne, _⟩
  · rw [if_pos hzero]
    omega
  · rw [if_neg hne]

theorem Decimal.Fits.first_lt_restored (len : ℕ) : LeadOk (d.restored len p s).intg d.sigWords := by
  intro hpos
  rcases hfit.lead_cases hd with ⟨hzero, _⟩ | ⟨hne, hmod, hcanon⟩
  · have hdigits : ((d.restored len p s).intg - 1) % 9 + 1 = 9 := by
      simp only [restored, if_pos hzero] at hpos ⊢
      omega
    rw [hdigits, ← digBase_eq]
    exact getD_lt (by norm_num [digBase]) hd.sigWord_lt 0
  · have hdigits : ((d.restored len p s).intg - 1) % 9 + 1 = (p - s) % 9 := by
      simp only [restored, if_neg hne]
      omega
    rw [hdigits, ← hcanon]
    exact hfit.lead_lt hd

theorem Decimal.Fits.wf_restored (hp16 : p < 2 ^ 16) (hlen : decimalSize p s ≤ len) :
    { d.restored len p s with sign := mask }.WF ∧
      { d.restored len p s with sign := mask }.intWords = d.sigWords ∧
      { d.restored len p s with sign := mask }.fracWords = padTo (roundUp s) d.fracWords := by
  have hle := hfit.intg_restored_le hd len
  have hround := hfit.roundUp_restored hd len
  refine @wf_of_words _ s len mask d.sigWords (padTo (roundUp s) d.fracWords) (by omega) hround.symm
    (length_padTo _ _) ?_ ?_ (hfit.first_lt_restored hd len) fun hs => ?_
  · rw [decimalSize, roundUp_eq, roundUp_eq] at hlen
    rw [← hround, length_padTo, roundUp_eq, roundUp_eq]
    omega
  · rw [forall_mem_append]
    exact ⟨hd.sigWord_lt, padTo_lt (by norm_num [digBase]) hd.fracWord_lt⟩
  · rw [getD_padTo (by rw [roundUp_eq]; omega)]
    exact hfit.dvd_last hd

/-- **What is read back**: the number, if the mask is that of its sign or it is zero. -/
theorem bin2decimal_pack (hp : 0 < p) (hp16 : p < 2 ^ 16) (hs : s ≤ p)
    (hmask : mask = d.sign ∨ d.mag = 0) (hlen : decimalSize p s ≤ len) :
    ∃ r, bin2decimal (flipTop (pack mask (d.groups p s))) len p s = (.ok, r) ∧ r.WF ∧ r.frac = s ∧
      r.value = d.value := by
  have hle : roundUp d.frac ≤ roundUp s := by
    have := hfit.frac_le
    rw [roundUp_eq, roundUp_eq]
    omega
  obtain ⟨hwf, hint, hfrac⟩ := hfit.wf_restored mask hd hp16 hlen
  have hvalue : { d.restored len p s with sign := mask }.value = d.value := by
    rw [hd.value_eq hle, value, mag, hint, hfrac]
    rcases hmask with rfl | h
    · rfl
    · rw [hd.val_padTo hle, h, zero_mul, cast_zero, zero_div, zero_div, mul_zero, mul_zero]
  rw [bin2decimal_eq mask hd hfit hp hlen]
  by_cases hz : (d.restored len p s).intg = 0 ∧ s = 0
  · -- no digits: the result is a proper zero
    have hpos : 0 < len := by
      have := roundUp_pos (x := p - s) (by omega)
      unfold decimalSize at hlen
      omega
    have hsig : d.sigWords = [] := by
      rw [← length_eq_zero_iff, ← hfit.roundUp_restored hd len, hz.1]
      rfl
    have hzero : d.value = 0 := by
      rw [← hvalue, value_eq_zero_iff, mag, hint, hfrac, hsig, hz.2]
      rfl
    rw [if_pos hz]
    exact ⟨_, rfl, decimalMakeZero_wf hpos, hz.2.symm, (value_decimalMakeZero len).trans hzero.symm⟩
  · rw [if_neg hz]
    exact ⟨_, rfl, hwf, rfl, hvalue⟩

end

/-- A decimal is stored and read back: for every precision and scale that it fits, `decimal2bin`
fills the space of the format, and `bin2decimal` restores the number from it. -/
theorem bin2decimal_decimal2bin (hd : d.WF) (hp : 0 < p) (hp16 : p < 2 ^ 16) (hs : s ≤ p)
    (hfit : d.Fits p s) {len : ℕ} (hlen : decimalSize p s ≤ len) :
    (decimal2bin d p s).1 = .ok ∧
    (decimal2bin d p s).2.length = decimalBinSize p s ∧
    (bin2decimal (decimal2bin d p s).2 len p s).1 = .ok ∧
    (bin2decimal (decimal2bin d p s).2 len p s).2.WF ∧
    (bin2decimal (decimal2bin d p s).2 len p s).2.frac = s ∧
    (bin2decimal (decimal2bin d p s).2 len p s).2.value = d.value := by
  obtain ⟨r, hr, hwf, hfrac, hvalue⟩ :=
    bin2decimal_pack d.mask hd hfit hp hp16 hs hd.mask_or_zero hlen
  rw [decimal2bin_eq hd hfit, ← pack_groups, hr]
  exact ⟨rfl, by rw [length_flipTop, length_pack_groups d.mask hd hfit], rfl, hwf, hfrac, hvalue⟩

/-- The number -1234567890.1234. -/
def sampleDecimal : Decimal := ⟨10, 4, 9, true, [1, 234567890, 123400000]⟩

theorem sampleDecimal_wf : sampleDecimal.WF where
  intg_lt := by decide
  enough := by decide
  fits := by decide
  word_lt := by decide
  first_lt := by decide
  last_dvd := by decide

theorem sampleDecimal_fits : sampleDecimal.Fits 14 4 := ⟨by decide, by decide⟩

/-- The number -1234567890.1234 in seven bytes and back. -/
theorem bin2decimal_decimal2bin_sample :
    decimal2bin sampleDecimal 14 4 = (.ok, [0x7E, 0xF2, 0x04, 0xC7, 0x2D, 0xFB, 0x2D]) ∧
      (bin2decimal (decimal2bin sampleDecimal 14 4).2 9 14 4).2.value = sampleDecimal.value :=
  ⟨by decide, (bin2decimal_decimal2bin sampleDecimal_wf (by decide) (by decide) (by decide)
    sampleDecimal_fits (by decide)).2.2.2.2.2⟩

end Dec
