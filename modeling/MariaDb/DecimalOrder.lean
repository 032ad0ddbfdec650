/-
**The order of decimals.**

Indexes compare decimals by the bytes of their binary format, everything else by `decimal_cmp`, which
compares words from the first one that is not zero to the last one that is not zero.  Both orders are
that of the numbers.  A zero that carries a sign would break this, since `decimal_cmp` decides by the
signs where these differ.

Main definitions:

* `Decimal.scaled`: the magnitude in units of a given word of the fraction;
* `signFactor`: the sign as a number.

Main results:

* `memcmp_decimal2bin_eq_decimalCmp`: **the orders agree**.
-/

import MariaDb.DecimalRead

set_option autoImplicit false

namespace Dec

open Radix List Decimal Nat

variable {a b d : Decimal} {p s : ℕ}

/-! ### Comparison of groups -/

def signFactor (sign : Bool) : ℤ := if sign then -1 else 1

theorem signFactor_ne_zero (sign : Bool) : signFactor sign ≠ 0 := by
  cases sign <;> decide

variable {n x y : ℕ} {gs hs : List (ℕ × ℕ)} {xs : List ℕ}

/-- Two groups of one length, under one mask. -/
theorem memcmp_group (mask : Bool) (hn : n ≤ 9) (hx : x < 10 ^ n) (hy : y < 10 ^ n) :
    memcmp (store (dig2bytes n) (xorMask mask x))
        (store (dig2bytes n) (xorMask mask y)) =
      signFactor mask * ((x : ℤ) - y).sign := by
  have hle : ((10 : ℤ) ^ n) ≤ 256 ^ dig2bytes n := by exact_mod_cast pow_le_dig2bytes hn
  have hx' : (x : ℤ) < 10 ^ n := by exact_mod_cast hx
  have hy' : (y : ℤ) < 10 ^ n := by exact_mod_cast hy
  rw [memcmp_store]
  cases mask with
  | false =>
    simp only [xorMask, signFactor, Bool.false_eq_true, if_false, one_mul]
    rw [Int.emod_eq_of_lt (by omega) (by omega), Int.emod_eq_of_lt (by omega) (by omega)]
  | true =>
    have hmod : ∀ z : ℤ, 0 ≤ z → z < 10 ^ n →
        (-z - 1) % 256 ^ dig2bytes n = 256 ^ dig2bytes n - 1 - z := by
      intro z hz hlt
      rw [show -z - 1 = (256 ^ dig2bytes n - 1 - z) + 256 ^ dig2bytes n * (-1) by ring,
        Int.add_mul_emod_self_left, Int.emod_eq_of_lt (by omega) (by omega)]
    simp only [xorMask, signFactor, if_true]
    rw [hmod x (by omega) hx', hmod y (by omega) hy', neg_one_mul, ← Int.sign_neg]
    congr 1
    ring

theorem sign_natCast_sub (h : x ≠ y) : ((x : ℤ) - y).sign = if x < y then -1 else 1 := by
  split
  next hlt => exact Int.sign_eq_neg_one_of_neg (by omega)
  next hge => exact Int.sign_eq_one_of_pos (by omega)

/-- Groups under one mask compare as the numbers in them. -/
theorem memcmp_pack (mask : Bool) (hshape : gs.map Prod.fst = hs.map Prod.fst)
    (hgs : ∀ g ∈ gs, GroupOk g) (hhs : ∀ g ∈ hs, GroupOk g) : memcmp (pack mask gs) (pack mask hs) =
    signFactor mask * memcmp (gs.map Prod.snd) (hs.map Prod.snd) := by
  induction gs generalizing hs with
  | nil =>
    rw [map_nil, memcmp_nil, mul_zero]
    rfl
  | cons g gs ih =>
    cases hs with
    | nil => cases hshape
    | cons h hs =>
      rw [map_cons, map_cons, cons_eq_cons] at hshape
      rw [forall_mem_cons] at hgs hhs
      have hgroup := memcmp_group mask hgs.1.1 hgs.1.2 (hshape.1 ▸ hhs.1.2)
      rw [pack_cons, pack_cons, ← hshape.1, memcmp_append (by simp), hgroup,
        map_cons, map_cons, memcmp_cons, ih hshape.2 hgs.2 hhs.2]
      by_cases heq : g.2 = h.2
      · rw [heq, sub_self, Int.sign_zero, mul_zero, if_pos rfl, if_pos rfl]
      have hne : signFactor mask * ((g.2 : ℤ) - h.2).sign ≠ 0 := by
        refine mul_ne_zero (signFactor_ne_zero mask) ?_
        rw [Ne, Int.sign_eq_zero_iff_zero]
        omega
      rw [if_neg heq, if_neg hne, sign_natCast_sub heq]

/-! ### Groups and words -/

/-- The magnitude in units of the word `n` of the fraction. -/
def Decimal.scaled (d : Decimal) (n : ℕ) : ℕ :=
  val digBase (d.sigWords ++ padTo n d.fracWords)

theorem map_fst_groups (ha : a.WF) (hb : b.WF) (hfa : a.Fits p s) (hfb : b.Fits p s) :
    (a.groups p s).map Prod.fst = (b.groups p s).map Prod.fst := by
  simp [groups, map_map, Function.comp_def, map_const', length_padTo, hfa.length_intCanon ha,
    hfb.length_intCanon hb]

theorem map_snd_groups (hd : d.WF) (hfit : d.Fits p s) :
    (d.groups p s).map Prod.snd = (d.intCanon ((p - s) / 9 + 1) ++ padTo (s / 9) d.fracWords) ++
      [d.fracWords.getD (s / 9) 0 / powers10 (9 - s % 9)] := by
  have hlen := hfit.length_intCanon hd
  cases hiw : d.intCanon ((p - s) / 9 + 1) with
  | nil => rw [hiw] at hlen; cases hlen
  | cons w ws =>
    simp [groups, hiw, Function.comp_def]

theorem memcmp_singleton_div {k : ℕ} (hk : 0 < k) (hx : k ∣ x) (hy : k ∣ y) :
    memcmp [x / k] [y / k] = memcmp [x] [y] := by
  obtain ⟨u, rfl⟩ := hx
  obtain ⟨v, rfl⟩ := hy
  rw [Nat.mul_div_cancel_left _ hk, Nat.mul_div_cancel_left _ hk, memcmp_cons, memcmp_cons]
  simp only [Nat.mul_right_inj hk.ne', Nat.mul_lt_mul_left hk]

theorem val_intCanon_append (d : Decimal) (n : ℕ) (ws : List ℕ) :
    val digBase (d.intCanon n ++ ws) = val digBase (d.sigWords ++ ws) := by
  rw [intCanon, append_assoc, val_zeros_append]

/-- The numbers in the groups compare as the magnitudes. -/
theorem memcmp_groups (ha : a.WF) (hb : b.WF) (hfa : a.Fits p s) (hfb : b.Fits p s) :
    memcmp ((a.groups p s).map Prod.snd) ((b.groups p s).map Prod.snd) =
      ((a.scaled (s / 9 + 1) : ℤ) - b.scaled (s / 9 + 1)).sign := by
  have hpos : 0 < digBase := by norm_num [digBase]
  have hlen (n : ℕ) : (a.intCanon ((p - s) / 9 + 1) ++ padTo n a.fracWords).length =
      (b.intCanon ((p - s) / 9 + 1) ++ padTo n b.fracWords).length := by
    rw [length_append, length_append, hfa.length_intCanon ha, hfb.length_intCanon hb,
      length_padTo, length_padTo]
  have hwords : ∀ {d : Decimal}, d.WF →
      ∀ w ∈ d.intCanon ((p - s) / 9 + 1) ++ padTo (s / 9 + 1) d.fracWords, w < digBase := by
    intro d hd
    exact forall_mem_append.mpr ⟨hd.intCanon_lt _, padTo_lt hpos hd.fracWord_lt⟩
  have hdiv : memcmp [a.fracWords.getD (s / 9) 0 / powers10 (9 - s % 9)]
      [b.fracWords.getD (s / 9) 0 / powers10 (9 - s % 9)] =
      memcmp [a.fracWords.getD (s / 9) 0] [b.fracWords.getD (s / 9) 0] :=
    memcmp_singleton_div (by unfold powers10; positivity) (hfa.dvd_last ha) (hfb.dvd_last hb)
  rw [map_snd_groups ha hfa, map_snd_groups hb hfb, memcmp_append (hlen _), hdiv,
    ← memcmp_append (hlen _), append_assoc, append_assoc, ← padTo_succ, ← padTo_succ,
    memcmp_eq_sign one_lt_digBase (hlen _) (hwords ha) (hwords hb), val_intCanon_append,
    val_intCanon_append]
  rfl

/-- The order of the binary formats, by the signs and the magnitudes. -/
theorem memcmp_decimal2bin (ha : a.WF) (hb : b.WF) (hfa : a.Fits p s) (hfb : b.Fits p s)
    (hp : 0 < p) :
    memcmp (decimal2bin a p s).2 (decimal2bin b p s).2 =
      if a.mask = b.mask then
        signFactor a.mask * ((a.scaled (s / 9 + 1) : ℤ) - b.scaled (s / 9 + 1)).sign
      else signFactor a.mask := by
  have hlen : (pack a.mask (a.groups p s)).length = (pack b.mask (b.groups p s)).length := by
    rw [length_pack_groups _ ha hfa, length_pack_groups _ hb hfb]
  have hbit : ∀ {d : Decimal}, d.WF → d.Fits p s →
      ((flipTop (pack d.mask (d.groups p s))).getD 0 0 &&& 0x80 = 0 ↔ d.mask = true) :=
    fun hd hfit => flipTop_pack_bit _ (hfit.groups_ok hd) (hfit.groups_ne hd hp)
  have hbita := hbit ha hfa
  have hbitb := hbit hb hfb
  rw [decimal2bin_eq ha hfa, decimal2bin_eq hb hfb, ← pack_groups, ← pack_groups]
  split
  next hmask =>
    rw [memcmp_flipTop (pack_lt _ _) (pack_lt _ _) (by rw [hbita, hbitb, hmask]), ← hmask,
      memcmp_pack _ (map_fst_groups ha hb hfa hfb) (hfa.groups_ok ha) (hfb.groups_ok hb),
      memcmp_groups ha hb hfa hfb]
  next hmask =>
    rcases Bool.eq_false_or_eq_true a.mask with hma | hma
    · rw [show signFactor a.mask = -1 by rw [hma]; rfl]
      exact (memcmp_flipTop_of_bit (pack_lt _ _) (pack_lt _ _) hlen (hbita.mpr hma)
        fun h => hmask (hma.trans (hbitb.mp h).symm)).1
    · rw [show signFactor a.mask = 1 by rw [hma]; rfl]
      have hmb : b.mask = true := by simpa [hma] using hmask
      exact (memcmp_flipTop_of_bit (pack_lt _ _) (pack_lt _ _) hlen.symm (hbitb.mpr hmb)
        fun h => hmask ((hbita.mp h).trans hmb.symm)).2

/-! ### The comparison of the words -/

theorem padTo_cons (n w : ℕ) (ws : List ℕ) : padTo (n + 1) (w :: ws) = w :: padTo n ws := by
  rw [padTo, replicate_succ', ← append_assoc, cons_append, cons_append,
    take_succ_cons, take_append_of_le_length]
  · rfl
  · rw [length_append, length_replicate]
    omega

theorem padTo_nil (n : ℕ) : padTo n [] = List.replicate n 0 := by
  rw [padTo, nil_append, take_replicate, min_self]

theorem val_padTo_pos {ws : List ℕ} (hne : ws ≠ []) (hlast : ws.getLast hne ≠ 0)
    (hn : ws.length ≤ n) : 0 < val digBase (padTo n ws) := by
  rw [pos_iff_ne_zero, Ne, val_eq_zero_iff (by norm_num [digBase])]
  intro hall
  refine hlast (hall _ ?_)
  rw [padTo_of_le hn]
  exact mem_append_left _ (getLast_mem hne)

theorem memcmp_padTo (n : ℕ) {ys : List ℕ} (hxs : ∀ w ∈ xs, w < digBase)
    (hys : ∀ w ∈ ys, w < digBase) :
    memcmp (padTo n xs) (padTo n ys) =
      ((val digBase (padTo n xs) : ℤ) - val digBase (padTo n ys)).sign :=
  memcmp_eq_sign one_lt_digBase (by rw [length_padTo, length_padTo])
    (padTo_lt (by norm_num [digBase]) hxs) (padTo_lt (by norm_num [digBase]) hys)

/-- The carry of `do_sub` for the result of a comparison. -/
def carryOf (c : ℤ) : Option Bool := if c = 0 then none else some (c < 0)

theorem getLast_tail_ne_zero (h : ∀ hne : x :: xs ≠ [], (x :: xs).getLast hne ≠ 0) :
    ∀ hne : xs ≠ [], xs.getLast hne ≠ 0 := by
  intro hne
  rw [← getLast_cons hne]
  exact h (cons_ne_nil x xs)

/-- The comparison loop, on words that do not end in zeros. -/
theorem carryLoop_eq {ys : List ℕ} (hxs : ∀ w ∈ xs, w < digBase) (hys : ∀ w ∈ ys, w < digBase)
    (hx : ∀ h : xs ≠ [], xs.getLast h ≠ 0) (hy : ∀ h : ys ≠ [], ys.getLast h ≠ 0)
    (hxn : xs.length ≤ n) (hyn : ys.length ≤ n) :
    carryLoop xs ys = carryOf (memcmp (padTo n xs) (padTo n ys)) := by
  induction xs generalizing ys n with
  | nil =>
    cases ys with
    | nil => rw [memcmp_self, carryLoop]; rfl
    | cons y ys =>
      have hval := val_padTo_pos (cons_ne_nil y ys) (hy _) hyn
      have hsign : memcmp (padTo n []) (padTo n (y :: ys)) = -1 := by
        rw [memcmp_padTo n hxs hys, padTo_nil, val_replicate_zero]
        exact Int.sign_eq_neg_one_of_neg (by omega)
      rw [hsign, carryLoop]
      rfl
  | cons x xs ih =>
    cases ys with
    | nil =>
      have hval := val_padTo_pos (cons_ne_nil x xs) (hx _) hxn
      have hsign : memcmp (padTo n (x :: xs)) (padTo n []) = 1 := by
        rw [memcmp_padTo n hxs hys, padTo_nil, val_replicate_zero]
        exact Int.sign_eq_one_of_pos (by omega)
      rw [hsign, carryLoop]
      rfl
    | cons y ys =>
      rw [length_cons] at hxn hyn
      obtain _ | n := n
      · omega
      rw [forall_mem_cons] at hxs hys
      rw [carryLoop, padTo_cons, padTo_cons, memcmp_cons]
      by_cases heq : x = y
      · rw [if_pos heq, if_pos heq]
        exact ih hxs.2 hys.2 (getLast_tail_ne_zero hx) (getLast_tail_ne_zero hy)
          (le_of_succ_le_succ hxn) (le_of_succ_le_succ hyn)
      rw [if_neg heq, if_neg heq]
      by_cases hlt : x < y
      · rw [if_pos hlt, decide_eq_true hlt]
        rfl
      · rw [if_neg hlt, decide_eq_false hlt]
        rfl

/-- Zeros at the end do not change the words that follow the point. -/
theorem padTo_rdropWhile (n : ℕ) (ws : List ℕ) : padTo n (ws.rdropWhile (· = 0)) = padTo n ws := by
  induction ws using List.reverseRecOn with
  | nil => rfl
  | append_singleton ws w ih =>
    by_cases hw : w = 0
    · rw [rdropWhile_concat_pos _ _ _ (by simp [hw]), ih, hw, padTo, padTo, append_assoc,
        singleton_append, ← replicate_succ, take_append, take_append,
        take_replicate, take_replicate, min_eq_left (sub_le _ _),
        min_eq_left ((sub_le _ _).trans (le_succ n))]
    · rw [rdropWhile_concat_neg _ _ _ (by simp [hw])]

theorem padTo_append (n : ℕ) (ys : List ℕ) :
    padTo (xs.length + n) (xs ++ ys) = xs ++ padTo n ys := by
  induction xs with
  | nil => rw [nil_append, nil_append, length_nil, zero_add]
  | cons x xs ih =>
    rw [length_cons, succ_add, cons_append, padTo_cons, ih, cons_append]

/-! ### The result of the comparison -/

/-- A number with more words before the point is the larger one. -/
theorem scaled_lt_of_length_lt (ha : a.Sound) (hlt : a.sigWords.length < b.sigWords.length) :
    a.scaled n < b.scaled n := by
  have hpos : 0 < digBase := by norm_num [digBase]
  have hsmall : a.scaled n < digBase ^ (a.sigWords.length + n) := by
    have hval := val_lt one_lt_digBase
      (forall_mem_append.mpr ⟨ha.sigWord_lt, padTo_lt (n := n) hpos ha.fracWord_lt⟩)
    rw [length_append, length_padTo] at hval
    exact hval
  have hlarge : digBase ^ (b.sigWords.length - 1 + n) ≤ b.scaled n := by
    have hne : b.sigWords.getD 0 0 ≠ 0 :=
      getD_dropWhile_ne_zero (ne_nil_of_length_pos (zero_lt_of_lt hlt))
    rw [scaled]
    cases hsig : b.sigWords with
    | nil => rw [hsig] at hlt; cases hlt
    | cons w ws =>
      rw [hsig, getD_cons_zero] at hne
      have hle := @Radix.le_val_cons digBase w hne (ws ++ padTo n b.fracWords)
      rw [length_append, length_padTo] at hle
      exact hle
  calc a.scaled n < digBase ^ (a.sigWords.length + n) := hsmall
    _ ≤ digBase ^ (b.sigWords.length - 1 + n) := Nat.pow_le_pow_right hpos (by omega)
    _ ≤ b.scaled n := hlarge

theorem rdropWhile_getLast_ne_zero (ws : List ℕ) :
    ∀ h : ws.rdropWhile (· = 0) ≠ [], (ws.rdropWhile (· = 0)).getLast h ≠ 0 := by
  intro h
  simpa using rdropWhile_last_not (· = 0) ws h

/-- The first part of `do_sub` compares the magnitudes. -/
theorem doSubCarry_eq (ha : a.Sound) (hb : b.Sound) (hna : roundUp a.frac ≤ n)
    (hnb : roundUp b.frac ≤ n) : doSubCarry a b = carryOf ((a.scaled n : ℤ) - b.scaled n).sign := by
  have hcarry : doSubCarry a b =
      if b.sigWords.length > a.sigWords.length then some true
      else if b.sigWords.length = a.sigWords.length then
        carryLoop ((a.sigWords ++ a.fracWords).rdropWhile (· = 0))
          ((b.sigWords ++ b.fracWords).rdropWhile (· = 0))
      else some false := rfl
  rw [hcarry]
  rcases lt_trichotomy a.sigWords.length b.sigWords.length with hlt | heq | hgt
  · have hscaled : a.scaled n < b.scaled n := scaled_lt_of_length_lt ha hlt
    rw [if_pos hlt, Int.sign_eq_neg_one_of_neg (by omega)]
    rfl
  · have hkept : ∀ ws : List ℕ, ws.rdropWhile (· = 0) <+: ws := rdropWhile_prefix _
    have hwords : ∀ {d : Decimal}, d.Sound → ∀ w ∈ (d.sigWords ++ d.fracWords).rdropWhile (· = 0),
        w < digBase := fun hd w hw =>
      forall_mem_append.mpr ⟨hd.sigWord_lt, hd.fracWord_lt⟩ w ((hkept _).subset hw)
    have hlen : ∀ {d : Decimal}, d.Sound → roundUp d.frac ≤ n →
        ((d.sigWords ++ d.fracWords).rdropWhile (· = 0)).length ≤ d.sigWords.length + n := by
      intro d hd hn
      refine (hkept _).length_le.trans ?_
      rw [length_append, hd.length_fracWords]
      omega
    have hla := hlen ha hna
    rw [heq] at hla
    have hloop := carryLoop_eq (hwords ha) (hwords hb) (rdropWhile_getLast_ne_zero _)
      (rdropWhile_getLast_ne_zero _) hla (hlen hb hnb)
    rw [if_neg (by omega), if_pos heq.symm, hloop, memcmp_padTo _ (hwords ha) (hwords hb),
      padTo_rdropWhile, padTo_rdropWhile, padTo_append]
    rw [← heq, padTo_append]
    rfl
  · have hscaled : b.scaled n < a.scaled n := scaled_lt_of_length_lt hb hgt
    rw [if_neg (by omega), if_neg (by omega), Int.sign_eq_one_of_pos (by omega)]
    rfl

/-! ### The order of the numbers -/

theorem Decimal.Sound.value_eq_scaled (hd : d.Sound) (hn : roundUp d.frac ≤ n) :
    d.value = (signFactor d.sign * d.scaled n : ℤ) / (digBase : ℚ) ^ n := by
  rw [hd.value_eq hn, scaled, signFactor, Int.cast_mul, Int.cast_natCast, mul_div_assoc]
  cases d.sign <;> norm_num

/-- The order of two numbers, by the signs and the magnitudes. -/
theorem sign_value_sub (ha : a.Sound) (hb : b.Sound) (hna : roundUp a.frac ≤ n)
    (hnb : roundUp b.frac ≤ n) :
    (SignType.sign (a.value - b.value) : ℤ) =
      (signFactor a.sign * a.scaled n - signFactor b.sign * b.scaled n).sign := by
  have hpow : (0 : ℚ) < (digBase : ℚ) ^ n := by
    have : (0 : ℚ) < digBase := by norm_num [digBase]
    positivity
  rw [ha.value_eq_scaled hna, hb.value_eq_scaled hnb, ← sub_div, ← Int.cast_sub, div_eq_mul_inv,
    sign_mul, sign_pos (inv_pos.mpr hpow), mul_one, sign_intCast, Int.sign_eq_sign]

theorem scaled_ne_zero (hd : d.Sound) (hz : d.NoNegZero) (hsign : d.sign = true)
    (hn : roundUp d.frac ≤ n) : d.scaled n ≠ 0 := by
  intro h
  have hvalue : d.value = 0 := by
    rw [hd.value_eq_scaled hn, h, cast_zero, mul_zero, Int.cast_zero, zero_div]
  rw [hz hvalue] at hsign
  cases hsign

/-- Numbers of different signs are ordered by the signs, those of one sign by the magnitudes. -/
theorem sign_sub_eq (ha : a.Sound) (hb : b.Sound) (hza : a.NoNegZero) (hzb : b.NoNegZero)
    (hna : roundUp a.frac ≤ n) (hnb : roundUp b.frac ≤ n) :
    (SignType.sign (a.value - b.value) : ℤ) =
      if a.sign = b.sign then signFactor a.sign * ((a.scaled n : ℤ) - b.scaled n).sign
      else signFactor a.sign := by
  rw [sign_value_sub ha hb hna hnb]
  by_cases hsign : a.sign = b.sign
  · rw [if_pos hsign, ← hsign, ← mul_sub, Int.sign_mul]
    cases a.sign <;> rfl
  have hsb : b.sign = !a.sign := Bool.eq_not.mpr (Ne.symm hsign)
  cases hsa : a.sign with
  | false =>
    rw [hsa] at hsb
    have hne := scaled_ne_zero hb hzb hsb hnb
    simp only [hsb, signFactor, Bool.not_false, Bool.false_eq_true, if_false, if_true]
    exact Int.sign_eq_one_of_pos (by omega)
  | true =>
    rw [hsa] at hsb
    have hne := scaled_ne_zero ha hza hsa hna
    simp only [hsb, signFactor, Bool.not_true, Bool.false_eq_true, if_false, if_true]
    exact Int.sign_eq_neg_one_of_neg (by omega)

/-- The result that `do_sub` makes of the carry, for two numbers of one sign. -/
theorem carryOf_sign (sign : Bool) (x : ℤ) :
    (match carryOf x.sign with
      | none => 0
      | some carry => if carry = sign then 1 else -1) = signFactor sign * x.sign := by
  rcases lt_trichotomy x 0 with hlt | heq | hgt
  · rw [Int.sign_eq_neg_one_of_neg hlt]
    cases sign <;> rfl
  · rw [heq, Int.sign_zero, mul_zero]
    rfl
  · rw [Int.sign_eq_one_of_pos hgt]
    cases sign <;> rfl

/-- **`decimal_cmp` compares the numbers.** -/
theorem decimalCmp_eq (ha : a.Sound) (hb : b.Sound) (hza : a.NoNegZero) (hzb : b.NoNegZero) :
    decimalCmp a b = SignType.sign (a.value - b.value) := by
  have hna : roundUp a.frac ≤ max (roundUp a.frac) (roundUp b.frac) := le_max_left _ _
  have hnb : roundUp b.frac ≤ max (roundUp a.frac) (roundUp b.frac) := le_max_right _ _
  rw [sign_sub_eq ha hb hza hzb hna hnb, decimalCmp, doSubCarry_eq ha hb hna hnb]
  by_cases hsign : a.sign = b.sign
  · rw [if_pos hsign, if_pos hsign]
    exact carryOf_sign a.sign _
  · rw [if_neg hsign, if_neg hsign]
    rfl

theorem Decimal.Sound.mask_eq (hd : d.Sound) (hz : d.NoNegZero) : d.mask = d.sign := by
  rcases hd.mask_or_zero with h | h
  · exact h
  · rw [mask, hz (d.value_eq_zero_iff.mpr h), Bool.false_and]

/-- The order of the binary formats is that of the numbers: for two decimals that fit a precision
and a scale, comparison of the bytes, `decimal_cmp` and comparison of the numbers agree. -/
theorem memcmp_decimal2bin_eq_decimalCmp (hp : 0 < p) (_hs : s ≤ p) (ha : a.WF) (hb : b.WF)
    (hfa : a.Fits p s) (hfb : b.Fits p s) (hza : a.NoNegZero) (hzb : b.NoNegZero) :
    memcmp (decimal2bin a p s).2 (decimal2bin b p s).2 = decimalCmp a b ∧
      decimalCmp a b = SignType.sign (a.value - b.value) := by
  have hcmp := decimalCmp_eq ha.toSound hb.toSound hza hzb
  have hround : ∀ {d : Decimal}, d.Fits p s → roundUp d.frac ≤ s / 9 + 1 := by
    intro d hfit
    have := hfit.frac_le
    rw [roundUp_eq]
    omega
  refine ⟨?_, hcmp⟩
  rw [hcmp, sign_sub_eq ha.toSound hb.toSound hza hzb (hround hfa) (hround hfb),
    memcmp_decimal2bin ha hb hfa hfb hp, ha.mask_eq hza, hb.mask_eq hzb]

/-- The numbers -2 and 1.5. -/
theorem memcmp_decimal2bin_eq_decimalCmp_sample :
    memcmp (decimal2bin ⟨1, 0, 9, true, [2]⟩ 3 1).2
        (decimal2bin ⟨1, 1, 9, false, [1, 500000000]⟩ 3 1).2 =
      decimalCmp ⟨1, 0, 9, true, [2]⟩ ⟨1, 1, 9, false, [1, 500000000]⟩ :=
  (memcmp_decimal2bin_eq_decimalCmp (by decide) (by decide)
    ⟨⟨by decide, by decide, by decide, by decide⟩, by decide, by decide⟩
    ⟨⟨by decide, by decide, by decide, by decide⟩, by decide, by decide⟩
    ⟨by decide, by decide⟩ ⟨by decide, by decide⟩
    (fun h => absurd ((value_eq_zero_iff _).mp h) (by decide)) (fun _ => rfl)).1

end Dec
