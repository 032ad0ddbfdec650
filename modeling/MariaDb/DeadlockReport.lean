/-
**The victim of a deadlock.**

`Deadlock::report()` goes around the cycle once, from the transaction behind the one that
`find_cycle()` returned, and keeps the first transaction of least weight.  The requesting transaction
is to be preferred if it is on the cycle and none is lighter; for this the loop notes positions.  But
the position counter is not advanced, and the loop compares with the victim where it should compare
with the requesting transaction, so that the position it notes is always 0, which stands for "not on
the cycle".  The preference is left to chance: to where Brent's algorithm stops.

Main definitions:

* `findCycle`: `Deadlock::find_cycle()`;
* `TrxData.weight`: the weight of a transaction;
* `chooseLoop`, `reportVictim`: the loop of `report()` and its outcome;
* `VictimOk`, `TieOk`: the intended victim, and when it is the one chosen.

Main results:

* `findCycle_correct`: **the search is right**;
* `reportVictim_ok_iff`: **when the victim is the intended one**.
-/

import MariaDb.LockRec
import MariaDb.Walk
import Mathlib.Data.Nat.Log

set_option autoImplicit false

namespace LockRec

open Walk Finset Nat

/-! ### The search -/

/-- `Deadlock::find_cycle()`, in a system of `n` transactions. -/
def findCycle (n : ℕ) (w : Waits) (trx : ℕ) : Option ℕ := Walk.findCycle w.waitTrx (4 * (n + 1)) trx

/-- The waiting transactions have numbers below `n`. -/
def WaitsBelow (n : ℕ) (w : Waits) : Prop := ∀ t, (w.waitTrx t).isSome = true → t < n

/-- **`Deadlock::find_cycle()` finds the deadlocks**: it ends, within a bound on its iterations that
only depends on the number of transactions; it returns null exactly when the waits lead from `trx`
to a transaction that does not wait, and otherwise a transaction that waits for itself, directly or
not.  (The counters are `unsigned`; they do not wrap around, for there are at most 524,288
transactions.) -/
theorem findCycle_correct {n : ℕ} {w : Waits} (hb : WaitsBelow n w) (trx : ℕ) :
    brentRun w.waitTrx (4 * (n + 1)) trx trx 1 1 = some (findCycle n w trx) ∧
      (findCycle n w trx = none ↔ ∃ t, Reaches w.waitTrx trx t ∧ w.waitTrx t = none) ∧
      ∀ cycle, findCycle n w trx = some cycle →
        OnCycle w.waitTrx cycle ∧ Reaches w.waitTrx trx cycle := by
  have hS : ∀ t, (w.waitTrx t).isSome = true → t ∈ range n := fun t ht => mem_range.mpr (hb t ht)
  have hfuel : 4 * ((range n).card + 1) ≤ 4 * (n + 1) := by rw [card_range]
  refine ⟨brentRun_findCycle hS hfuel, ⟨findCycle_none hS hfuel, ?_⟩, fun _ => findCycle_some⟩
  rintro ⟨t, htrx, ht⟩
  cases hc : findCycle n w trx with
  | none => rfl
  | some cycle =>
    obtain ⟨hon, hcycle⟩ := findCycle_some hc
    exact absurd ht (hon.next_ne_none hcycle htrx)

/-- 0 waits for 1, which waits for 2, and 2 for 1: the search from 0 ends in the cycle. -/
theorem findCycle_correct_three :
    let w := { LockSys.init.waits with waitTrx := fun t => [some 1, some 2, some 1].getD t none }
    WaitsBelow 3 w ∧ findCycle 3 w 0 = some 1 ∧ OnCycle w.waitTrx 1 := by
  intro w
  have hb : WaitsBelow 3 w := by
    intro t ht
    by_contra hge
    have hlen : [some 1, some 2, some 1].length ≤ t := Nat.not_lt.mp hge
    simp [w, List.getElem?_eq_none hlen] at ht
  exact ⟨hb, by decide, ((findCycle_correct hb 0).2.2 1 (by decide)).1⟩

/-! ### The loop -/

/-- What `report()` reads of a transaction: `undo_no`, the length of `lock.trx_locks`, and whether its
thread is known, has edited non-transactional tables or is a brute force applier of Galera. -/
structure TrxData where
  undoNo : ℕ
  nTrxLocks : ℕ
  mysqlThd : Bool
  editedNontrans : Bool
  wsrepBf : Bool

/-- `TRX_WEIGHT`, with the highest bit for a transaction that should not be rolled back. -/
def TrxData.weight (t : TrxData) : ℕ :=
  (t.undoNo + t.nTrxLocks) % 2 ^ 64 |||
    if t.mysqlThd && (t.editedNontrans || t.wsrepBf) then 1 <<< 63 else 0

structure Choice where
  victim : Option ℕ
  victimWeight : ℕ
  victimPos : ℕ
  trxPos : ℕ

/-- They are null, `~0ULL` and 0 before the loop. -/
def Choice.start : Choice := ⟨none, 2 ^ 64 - 1, 0, 0⟩

def Choice.visit (weight : ℕ → ℕ) (l : ℕ) (s : Choice) (next : ℕ) : Choice :=
  let s :=
    if weight next < s.victimWeight then
      { s with victim := some next, victimWeight := weight next, victimPos := l }
    else s
  if some next = s.victim then { s with trxPos := l } else s

/-- The loop around the cycle; `l` does not change. -/
def chooseLoop (weight : ℕ → ℕ) (waitTrx : ℕ → Option ℕ) (cycle l : ℕ) :
    ℕ → ℕ → Choice → Option Choice
  | 0, _, _ => none
  | fuel + 1, trx, s =>
    match waitTrx trx with
    | none => none
    | some next =>
      let s := s.visit weight l next
      if next = cycle then some s else chooseLoop weight waitTrx cycle l fuel next s

/-- The victim of `Deadlock::report()`, in a system of `n` transactions.  `trxWeight` is the weight of
`trx`, which is read before `lock_sys.wait_mutex` may have to be released. -/
def reportVictim (n : ℕ) (data : ℕ → TrxData) (trxWeight : ℕ) (w : Waits) (trx : ℕ) : Option ℕ :=
  match findCycle n w trx with
  | none => none
  | some cycle =>
    match chooseLoop (fun t => (data t).weight) w.waitTrx cycle 0 (n + 1) cycle .start with
    | none => none
    | some s => if s.trxPos ≠ 0 ∧ trxWeight = s.victimWeight then some trx else s.victim

/-! ### The first transaction of least weight -/

variable {weight f : ℕ → ℕ} {n p : ℕ} {s : Choice}

/-- Of `f 0`, …, `f (n - 1)`, the first one of least weight is `f p`. -/
structure FirstLeast (weight f : ℕ → ℕ) (n p : ℕ) : Prop where
  lt : p < n
  least : ∀ j < n, weight (f p) ≤ weight (f j)
  first : ∀ j < p, weight (f p) < weight (f j)

/-- What the loop has found among the first `n` transactions that it has visited. -/
structure Chosen (weight f : ℕ → ℕ) (n : ℕ) (s : Choice) : Prop where
  trxPos : s.trxPos = 0
  victim : (s.victim = none ∧ s.victimWeight = 2 ^ 64 - 1 ∧ ∀ j < n, 2 ^ 64 - 1 ≤ weight (f j)) ∨
    ∃ p, FirstLeast weight f n p ∧ s.victim = some (f p) ∧ s.victimWeight = weight (f p) ∧
      weight (f p) < 2 ^ 64 - 1

theorem Chosen.start (weight f : ℕ → ℕ) : Chosen weight f 0 .start :=
  ⟨rfl, .inl ⟨rfl, rfl, fun _ hj => absurd hj (not_lt_zero _)⟩⟩

theorem Choice.visit_trxPos (hs : s.trxPos = 0) (next : ℕ) : (s.visit weight 0 next).trxPos = 0 := by
  by_cases h : weight next < s.victimWeight
  · simp [Choice.visit, h]
  simp only [Choice.visit, if_neg h]
  split_ifs
  · rfl
  · exact hs

theorem Choice.visit_victim (weight : ℕ → ℕ) (s : Choice) (l next : ℕ) :
    (s.visit weight l next).victim
        = (if weight next < s.victimWeight then some next else s.victim) ∧
      (s.visit weight l next).victimWeight = min (weight next) s.victimWeight := by
  by_cases h : weight next < s.victimWeight
  · simp [Choice.visit, h, h.le]
  simp only [Choice.visit, if_neg h, min_eq_right (Nat.not_lt.mp h)]
  split_ifs
  · exact ⟨rfl, rfl⟩
  · exact ⟨rfl, rfl⟩

theorem FirstLeast.lighter (h : ∀ j < n, weight (f n) < weight (f j)) :
    FirstLeast weight f (n + 1) n :=
  ⟨n.lt_succ_self, Nat.forall_lt_succ_right.mpr ⟨fun j hj => (h j hj).le, le_rfl⟩, h⟩

/-- **One transaction is visited.** -/
theorem Chosen.visit (h : Chosen weight f n s) : Chosen weight f (n + 1) (s.visit weight 0 (f n)) := by
  obtain ⟨hvictim, hweight⟩ := s.visit_victim weight 0 (f n)
  refine ⟨s.visit_trxPos h.trxPos (f n), ?_⟩
  rw [hvictim, hweight]
  rcases h.victim with ⟨hnone, hmax, hall⟩ | ⟨p, hp, hsome, hle, hlt⟩
  · rw [hnone, hmax]
    by_cases hn : weight (f n) < 2 ^ 64 - 1
    · exact .inr ⟨n, .lighter fun j hj => hn.trans_le (hall j hj), if_pos hn, min_eq_left hn.le, hn⟩
    · have hn' := Nat.not_lt.mp hn
      exact .inl ⟨if_neg hn, min_eq_right hn', Nat.forall_lt_succ_right.mpr ⟨hall, hn'⟩⟩
  · rw [hsome, hle]
    by_cases hn : weight (f n) < weight (f p)
    · exact .inr ⟨n, .lighter fun j hj => hn.trans_le (hp.least j hj), if_pos hn,
        min_eq_left hn.le, hn.trans hlt⟩
    · have hn' := Nat.not_lt.mp hn
      exact .inr ⟨p, ⟨hp.lt.trans n.lt_succ_self, Nat.forall_lt_succ_right.mpr ⟨hp.least, hn'⟩,
        hp.first⟩, if_neg hn, min_eq_right hn', hlt⟩

/-- **The loop** goes around the cycle once. -/
theorem chooseLoop_spec {waitTrx : ℕ → Option ℕ} {cycle len i fuel x : ℕ} {s : Choice}
    (hlen : CycleLength waitTrx cycle len) (hf : ∀ j, walk waitTrx (j + 1) cycle = some (f j))
    (hx : walk waitTrx i cycle = some x) (hi : i < len) (hfuel : len ≤ i + fuel)
    (hs : Chosen weight f i s) :
    ∃ s', chooseLoop weight waitTrx cycle 0 fuel x s = some s' ∧ Chosen weight f len s' := by
  obtain _ | fuel := fuel
  · omega
  have hnext : waitTrx x = some (f i) := by rw [← walk_snoc hx, hf]
  simp only [chooseLoop, hnext]
  by_cases hlast : i + 1 = len
  · have hcycle : f i = cycle := Option.some.inj (by rw [← hf, hlast, hlen.returns])
    rw [if_pos hcycle, ← hlast]
    exact ⟨_, rfl, hs.visit⟩
  · have hne : f i ≠ cycle := fun h => hlen.first (i + 1) (by omega) (by omega) (by rw [hf, h])
    rw [if_neg hne]
    exact chooseLoop_spec hlen hf (hf i) (by omega) (by omega) hs.visit
termination_by len - i

/-! ### The victim -/

/-- The transaction `m` is on the cycle that the waits of `trx` run into. -/
def InCycle (w : Waits) (trx m : ℕ) : Prop := Reaches w.waitTrx trx m ∧ OnCycle w.waitTrx m

/-- If the waits of `trx` run into a cycle, one of its transactions weighs less than the weight that the
loop starts with. -/
def HasVictim (data : ℕ → TrxData) (w : Waits) (trx : ℕ) : Prop :=
  (∃ m, InCycle w trx m) → ∃ m, InCycle w trx m ∧ (data m).weight < 2 ^ 64 - 1

/-- The victim that is meant: a transaction of the cycle of least weight, and `trx` if it is one. -/
def VictimOk (weight : ℕ → ℕ) (w : Waits) (trx : ℕ) (victim : Option ℕ) : Prop :=
  ∃ v, victim = some v ∧ InCycle w trx v ∧ (∀ m, InCycle w trx m → weight v ≤ weight m) ∧
    (InCycle w trx trx → (∀ m, InCycle w trx m → weight trx ≤ weight m) → v = trx)

/-- If `trx` is on the cycle and none is lighter, the transactions that are visited before it are
heavier.  There are none if the length of the cycle is a power of two. -/
def TieOk (weight : ℕ → ℕ) (w : Waits) (trx : ℕ) : Prop :=
  ∀ len, CycleLength w.waitTrx trx len → (∀ m, InCycle w trx m → weight trx ≤ weight m) →
    2 ^ clog 2 len ≠ len → ∀ k < len, 2 ^ clog 2 len - len ≤ k →
      ∀ m, walk w.waitTrx k trx = some m → weight trx < weight m

theorem two_pow_clog_lt {len : ℕ} (h : 0 < len) : 2 ^ clog 2 len < 2 * len := by
  rcases Nat.eq_or_lt_of_le h with rfl | hlt
  · simp
  have hpred := Nat.pow_pred_clog_lt_self one_lt_two hlt
  have hpos := clog_pos one_lt_two hlt
  rw [← succ_pred_eq_of_pos hpos, pow_succ]
  omega

/-- **Which of the transactions of least weight is visited first**, when the search for the cycle has
started on it. -/
theorem FirstLeast.eq_trx_iff {waitTrx : ℕ → Option ℕ} {trx len : ℕ} (hp : FirstLeast weight f len p)
    (hlen : CycleLength waitTrx trx len)
    (hf : ∀ j, walk waitTrx (2 ^ clog 2 len + j) trx = some (f j))
    (hmin : ∀ j < len, weight trx ≤ weight (f j)) :
    f p = trx ↔ (2 ^ clog 2 len ≠ len → ∀ k < len, 2 ^ clog 2 len - len ≤ k →
      ∀ m, walk waitTrx k trx = some m → weight trx < weight m) := by
  have hpos := hlen.pos
  have hle := le_pow_clog one_lt_two len
  have hlt := two_pow_clog_lt hpos
  have hmp := hmin p hp.lt
  have hplt := hp.lt
  generalize 2 ^ clog 2 len = c at *
  by_cases hc : c = len
  · -- the first one that is visited is `trx`
    subst hc
    have h0 : f 0 = trx := Option.some.inj (by rw [← hf, hlen.walk_mod]; simp)
    have hp0 : p = 0 := by
      by_contra hne
      have := hp.first 0 (by omega)
      rw [h0] at this
      omega
    exact ⟨fun _ hne => absurd rfl hne, fun _ => hp0 ▸ h0⟩
  -- going around from `trx` on, the visits begin `c - len` steps behind it
  have hvisit : ∀ j, walk waitTrx (c - len + j) trx = some (f j) := by
    intro j
    rw [← hf, show c + j = len + (c - len + j) by omega, walk_add len, hlen.returns]
    rfl
  have hq : f (2 * len - c) = trx := by
    refine Option.some.inj ?_
    rw [← hvisit, show c - len + (2 * len - c) = len by omega]
    exact hlen.returns
  constructor
  · rintro hfp - k hk hck m hm
    have hpq : c - len + p = len := by
      obtain ⟨e, he⟩ := hlen.dvd (k := c - len + p) (by rw [hvisit, hfp])
      rcases e with _ | _ | e
      · omega
      · simpa using he
      · have : len * 2 ≤ len * (e + 1 + 1) := mul_le_mul_left len (by omega)
        omega
    obtain rfl : f (k - (c - len)) = m := by
      refine Option.some.inj ?_
      rw [← hvisit, Nat.add_sub_cancel' hck, hm]
    rw [← hfp]
    exact hp.first _ (by omega)
  · intro h
    have hpq := hp.least (2 * len - c) (by omega)
    rw [hq] at hpq
    rcases lt_trichotomy p (2 * len - c) with hlt' | rfl | hgt
    · have := h hc (c - len + p) (by omega) (by omega) (f p) (hvisit p)
      omega
    · exact hq
    · have := hp.first _ hgt
      rw [hq] at this
      omega

variable {w : Waits} {trx len cycle : ℕ}

theorem length_le_of_waitsBelow (hb : WaitsBelow n w) (h : CycleLength w.waitTrx trx len) :
    len ≤ n := by
  obtain ⟨y, hy⟩ := Option.isSome_iff_exists.mp (h.onCycle.walk_isSome n)
  obtain ⟨d, hd, hr⟩ := walk_returns (S := Finset.range n)
    (fun t ht => mem_range.mpr (hb t ht)) h.onCycle.walk_isSome (by simp) hy
  rw [card_range] at hd
  exact (le_of_dvd d.succ_pos ((h.of_walk hy).dvd hr)).trans hd

/-- Where `find_cycle()` stops when it is started on the cycle. -/
theorem findCycle_of_length (hb : WaitsBelow n w) (h : CycleLength w.waitTrx trx len) :
    findCycle n w trx = walk w.waitTrx (2 ^ clog 2 len - 1) trx := by
  have hle := length_le_of_waitsBelow hb h
  have hlt := two_pow_clog_lt h.pos
  exact brent_period (i := 0) h rfl (zero_le _) (by omega)

/-- `f` enumerates the cycle of `len` transactions that the loop goes around. -/
theorem reportVictim_spec (hb : WaitsBelow n w) (hcycle : findCycle n w trx = some cycle)
    (data : ℕ → TrxData) (trxWeight : ℕ) :
    ∃ len f s, CycleLength w.waitTrx cycle len ∧ (∀ j, walk w.waitTrx (j + 1) cycle = some (f j)) ∧
      (∀ m, InCycle w trx m ↔ ∃ j < len, f j = m) ∧ Chosen (fun t => (data t).weight) f len s ∧
      reportVictim n data trxWeight w trx = s.victim := by
  obtain ⟨hon, hreach⟩ := findCycle_some hcycle
  obtain ⟨len, hlen⟩ := hon.exists_length
  choose f hf using fun j => Option.isSome_iff_exists.mp (hon.walk_isSome (j + 1))
  have hle := length_le_of_waitsBelow hb hlen
  obtain ⟨s, hloop, hs⟩ := chooseLoop_spec hlen hf walk_zero hlen.pos
    (show len ≤ 0 + (n + 1) by omega) (Chosen.start (fun t => (data t).weight) f)
  refine ⟨len, f, s, hlen, hf, fun m => ⟨?_, ?_⟩, hs, ?_⟩
  · rintro ⟨hm, honm⟩
    obtain ⟨j, hj, hw⟩ := hlen.exists_walk (honm.reaches hreach hm)
    exact ⟨j, hj, Option.some.inj (by rw [← hf, hw])⟩
  · rintro ⟨j, -, rfl⟩
    exact ⟨hreach.trans ⟨j + 1, hf j⟩, hon.of_reaches ⟨j + 1, hf j⟩⟩
  · simp only [reportVictim, hcycle, hloop]
    exact if_neg fun h => h.1 hs.trxPos

theorem reportVictim_inCycle {data : ℕ → TrxData} {trxWeight v : ℕ} (hb : WaitsBelow n w)
    (hv : reportVictim n data trxWeight w trx = some v) : InCycle w trx v := by
  cases hcycle : findCycle n w trx with
  | none => simp [reportVictim, hcycle] at hv
  | some cycle =>
    obtain ⟨len, f, s, -, -, hmem, hs, hvictim⟩ := reportVictim_spec hb hcycle data trxWeight
    rw [hvictim] at hv
    rcases hs.victim with ⟨hnone, -⟩ | ⟨p, hp, hsome, -⟩
    · rw [hnone] at hv
      cases hv
    · exact (hmem v).2 ⟨p, hp.lt, Option.some.inj (hsome.symm.trans hv)⟩

theorem reportVictim_ne_none {data : ℕ → TrxData} (hb : WaitsBelow n w)
    (hcycle : findCycle n w trx = some cycle) (h : HasVictim data w trx) (trxWeight : ℕ) :
    reportVictim n data trxWeight w trx ≠ none := by
  obtain ⟨len, f, s, -, -, hmem, hs, hvictim⟩ := reportVictim_spec hb hcycle data trxWeight
  obtain ⟨m, hm, hlt⟩ := h ⟨cycle, (findCycle_some hcycle).symm⟩
  obtain ⟨j, hj, rfl⟩ := (hmem m).1 hm
  rw [hvictim]
  rcases hs.victim with ⟨-, -, hall⟩ | ⟨p, -, hsome, -⟩
  · exact absurd hlt (not_lt.mpr (hall j hj))
  · simp [hsome]

/-- **When the victim of a deadlock is the intended one**: exactly when a transaction of the cycle is
lighter than the weight that the loop starts with, and a tie does not go to a transaction that is
visited before the requesting one. -/
theorem reportVictim_ok_iff (hb : WaitsBelow n w) (hex : ∃ m, InCycle w trx m)
    (data : ℕ → TrxData) (trxWeight : ℕ) :
    VictimOk (fun t => (data t).weight) w trx (reportVictim n data trxWeight w trx) ↔
      (∃ m, InCycle w trx m ∧ (data m).weight < 2 ^ 64 - 1) ∧
        TieOk (fun t => (data t).weight) w trx := by
  obtain ⟨m0, hm₀, hon0⟩ := hex
  cases hcycle : findCycle n w trx with
  | none =>
    obtain ⟨t, ht, hn⟩ := findCycle_none (S := Finset.range n)
      (fun t ht => mem_range.mpr (hb t ht)) (by rw [card_range]) hcycle
    exact absurd hn (hon0.next_ne_none hm₀ ht)
  | some cycle =>
  obtain ⟨len, f, s, hlen, hf, hmem, hs, hvictim⟩ := reportVictim_spec hb hcycle data trxWeight
  rw [hvictim]
  rcases hs.victim with ⟨hnone, -, hall⟩ | ⟨p, hp, hsome, -, hlt⟩
  · constructor
    · rintro ⟨v, hv, -⟩
      rw [hnone] at hv
      cases hv
    · rintro ⟨⟨m, hm, hlt⟩, -⟩
      obtain ⟨j, hj, rfl⟩ := (hmem m).1 hm
      exact absurd hlt (not_lt.mpr (hall j hj))
  have hin : InCycle w trx (f p) := (hmem _).2 ⟨p, hp.lt, rfl⟩
  have hleast : ∀ m, InCycle w trx m → (data (f p)).weight ≤ (data m).weight := by
    rintro m hm
    obtain ⟨j, hj, rfl⟩ := (hmem m).1 hm
    exact hp.least j hj
  -- the place of `trx` among the visits, if it is on the cycle
  have htie : ∀ len', CycleLength w.waitTrx trx len' →
      (∀ m, InCycle w trx m → (data trx).weight ≤ (data m).weight) →
      (f p = trx ↔ (2 ^ clog 2 len' ≠ len' → ∀ k < len', 2 ^ clog 2 len' - len' ≤ k →
        ∀ m, walk w.waitTrx k trx = some m → (data trx).weight < (data m).weight)) := by
    intro len' hlen' hmin
    have hstop := (findCycle_of_length hb hlen').symm.trans hcycle
    obtain rfl : len = len' := dvd_antisymm (hlen.dvd (hlen'.of_walk hstop).returns)
      ((hlen'.of_walk hstop).dvd hlen.returns)
    refine hp.eq_trx_iff hlen' (fun j => ?_) fun j hj => hmin _ ((hmem _).2 ⟨j, hj, rfl⟩)
    rw [← walk_trans hstop (hf j)]
    congr 1
    have := Nat.one_le_two_pow (n := clog 2 len)
    omega
  constructor
  · rintro ⟨v, hv, -, -, hpref⟩
    obtain rfl : f p = v := Option.some.inj (hsome.symm.trans hv)
    refine ⟨⟨f p, hin, hlt⟩, fun len' hlen' hmin => ?_⟩
    exact (htie len' hlen' hmin).1 (hpref ⟨Reaches.refl trx, hlen'.onCycle⟩ hmin)
  · rintro ⟨-, hok⟩
    refine ⟨f p, hsome, hin, hleast, fun htrx hmin => ?_⟩
    obtain ⟨len', hlen'⟩ := htrx.2.exists_length
    exact (htie len' hlen' hmin).2 (hok len' hlen' hmin)

/-- 0 waits for 1, 1 for 2 and 2 for 0. -/
def threeWaits : Waits :=
  { LockSys.init.waits with waitTrx := fun t => [some 1, some 2, some 0].getD t none }

theorem threeWaits_below : WaitsBelow 3 threeWaits := by
  intro t ht
  by_contra hge
  have hlen : [some 1, some 2, some 0].length ≤ t := Nat.not_lt.mp hge
  simp [threeWaits, List.getElem?_eq_none hlen] at ht

theorem threeWaits_inCycle : InCycle threeWaits 0 0 := ⟨Reaches.refl 0, 2, by decide⟩

/-- The transaction `v` has changed no rows, the others five each. -/
def lightest (v t : ℕ) : TrxData := ⟨if t = v then 0 else 5, 1, true, false, false⟩

theorem hasVictim_lightest (v : ℕ) (w : Waits) (trx : ℕ) : HasVictim (lightest v) w trx := by
  rintro ⟨m, hm⟩
  refine ⟨m, hm, ?_⟩
  unfold lightest
  split
  · decide
  · decide

/-- The requesting transaction is lighter than the others, and it is the victim. -/
theorem reportVictim_ok_lightest :
    reportVictim 3 (lightest 0) 1 threeWaits 0 = some 0 ∧
      VictimOk (fun t => (lightest 0 t).weight) threeWaits 0
        (reportVictim 3 (lightest 0) 1 threeWaits 0) := by
  refine ⟨by decide, (reportVictim_ok_iff threeWaits_below ⟨0, threeWaits_inCycle⟩ (lightest 0) 1).2
    ⟨⟨0, threeWaits_inCycle, by decide⟩, ?_⟩⟩
  intro len hlen _ hne k hk hle m hm
  have hclog := le_pow_clog one_lt_two len
  have hm0 : m ≠ 0 := by
    rintro rfl
    exact hlen.first k (by omega) hk hm
  simp only [lightest, if_neg hm0]
  decide

/-- Three transactions of the same weight. -/
def equal (_ : ℕ) : TrxData := ⟨0, 1, true, false, false⟩

theorem hasVictim_equal (w : Waits) (trx : ℕ) : HasVictim equal w trx :=
  fun ⟨m, hm⟩ => ⟨m, hm, by unfold equal; decide⟩

/-- **The preference for the requesting transaction is lost**: of three transactions of the same
weight the victim is not the requesting one. -/
theorem equal_weights_lose_preference :
    reportVictim 3 equal 1 threeWaits 0 = some 1 ∧
      ¬ VictimOk (fun t => (equal t).weight) threeWaits 0 (reportVictim 3 equal 1 threeWaits 0) := by
  have hvictim : reportVictim 3 equal 1 threeWaits 0 = some 1 := by decide
  refine ⟨hvictim, ?_⟩
  rintro ⟨v, hv, -, -, hpref⟩
  rw [hvictim, hpref threeWaits_inCycle fun m _ => le_rfl] at hv
  cases hv

end LockRec
