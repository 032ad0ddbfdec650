/-
**Walks along a partial function, and finding their cycles.**

A partial function `next : α → Option α` is a graph in which every node has at most one outgoing
edge.  A walk from a node either ends or runs into a cycle, and the cycle is the only one that it
can run into.  This module has the few facts about such graphs that an algorithm needs which keeps
one while edges are added, removed and redirected, and has to know at each moment where a cycle
may be; and Brent's algorithm, which finds the cycle of a walk with two pointers.

Main definitions:

* `walk`, `Reaches`, `OnCycle`: walks, reachability, and nodes on a cycle;
* `CycleLength`: the number of steps after which a walk is back;
* `Covered`: every cycle passes through a given set of nodes;
* `brent`, `findCycle`: the search.

Main results:

* `findCycle_some`, `findCycle_none`: **the search is right** when its fuel is at least `4 * (n +
  1)` for the number `n` of nodes that have an edge.
-/

import Mathlib.Data.Finset.Card
import Mathlib.Data.Fintype.Pigeonhole
import Mathlib.Data.Nat.Periodic
import Mathlib.Tactic

set_option autoImplicit false

namespace Walk

open Option Nat
open Function (update update_of_ne update_self)

variable {α : Type*}

/-! ### Walks -/

/-- The node after `k` steps from `x`, if there is one. -/
def walk (next : α → Option α) : ℕ → α → Option α
  | 0, x => some x
  | k + 1, x => (next x).bind (walk next k)

/-- The walk from `x` passes through `y`. -/
def Reaches (next : α → Option α) (x y : α) : Prop := ∃ k, walk next k x = some y

/-- The walk from `x` returns to `x`. -/
def OnCycle (next : α → Option α) (x : α) : Prop := ∃ k, walk next (k + 1) x = some x

variable {next : α → Option α} {x y z t : α}

@[simp] theorem walk_zero : walk next 0 x = some x := rfl

theorem walk_succ (k : ℕ) : walk next (k + 1) x = (next x).bind (walk next k) := rfl

theorem walk_add (j k : ℕ) : walk next (j + k) x = (walk next j x).bind (walk next k) := by
  induction j generalizing x with
  | zero => simp
  | succ j ih =>
    rw [add_right_comm, walk_succ, walk_succ]
    cases next x with
    | none => rfl
    | some y => exact ih

theorem walk_trans {j k : ℕ} (hj : walk next j x = some y) (hk : walk next k y = some z) :
    walk next (j + k) x = some z := by
  rw [walk_add, hj]
  exact hk

theorem walk_one (h : next x = some y) : walk next 1 x = some y := by
  simp [walk_succ, h]

theorem walk_snoc {k : ℕ} (h : walk next k x = some y) : walk next (k + 1) x = next y := by
  rw [walk_add, h]
  cases hn : next y <;> simp [walk_succ, hn]

theorem Reaches.refl (x : α) : Reaches next x x := ⟨0, rfl⟩

theorem Reaches.trans (h : Reaches next x y) (h' : Reaches next y z) : Reaches next x z := by
  obtain ⟨j, hj⟩ := h
  obtain ⟨k, hk⟩ := h'
  exact ⟨j + k, walk_trans hj hk⟩

theorem Reaches.of_next (h : next x = some y) : Reaches next x y := ⟨1, walk_one h⟩

theorem OnCycle.next_isSome (h : OnCycle next x) : (next x).isSome = true := by
  obtain ⟨k, hk⟩ := h
  obtain ⟨y, hn, -⟩ := bind_eq_some_iff.mp hk
  rw [hn]
  rfl

/-- Going around a cycle commutes with going on. -/
theorem walk_around {j k : ℕ} (hx : walk next k x = some x) (hj : walk next j x = some y) :
    walk next k y = some y := by
  have hy := walk_trans hx hj
  rwa [add_comm, walk_add, hj] at hy

theorem OnCycle.of_reaches (h : OnCycle next x) (hxy : Reaches next x y) : OnCycle next y := by
  obtain ⟨j, hj⟩ := hxy
  obtain ⟨k, hk⟩ := h
  exact ⟨k, walk_around hk hj⟩

/-- A node on a cycle is reached from everywhere that its walk leads to. -/
theorem OnCycle.reaches_symm (h : OnCycle next x) (hxy : Reaches next x y) : Reaches next y x := by
  obtain ⟨k, hk⟩ := hxy
  induction k generalizing x with
  | zero =>
    obtain rfl : x = y := by simpa using hk
    exact Reaches.refl x
  | succ k ih =>
    obtain ⟨z, hn, hk⟩ := bind_eq_some_iff.mp hk
    have hz := ih (h.of_reaches (Reaches.of_next hn)) hk
    -- `z` leads back to `x`
    obtain ⟨j, hj⟩ := h
    rw [walk_succ, hn] at hj
    exact hz.trans ⟨j, hj⟩

/-- Every node of a walk leads to the cycle that the walk runs into. -/
theorem OnCycle.reaches (hz : OnCycle next z) (hxy : Reaches next x y) (hxz : Reaches next x z) :
    Reaches next y z := by
  obtain ⟨i, hi⟩ := hxy
  obtain ⟨j, hj⟩ := hxz
  rcases le_total i j with hle | hle
  · obtain ⟨m, rfl⟩ := Nat.exists_eq_add_of_le hle
    rw [walk_add, hi] at hj
    exact ⟨m, hj⟩
  · obtain ⟨m, rfl⟩ := Nat.exists_eq_add_of_le hle
    rw [walk_add, hj] at hi
    exact hz.reaches_symm ⟨m, hi⟩

/-- A walk that runs into a cycle does not end. -/
theorem OnCycle.next_ne_none (hc : OnCycle next z) (hz : Reaches next x z) (hy : Reaches next x y) :
    next y ≠ none := by
  obtain ⟨k, hk⟩ := hc.reaches hy hz
  cases k with
  | zero =>
    obtain rfl : y = z := by simpa using hk
    exact isSome_iff_ne_none.mp hc.next_isSome
  | succ k =>
    intro hn
    simp [walk_succ, hn] at hk

theorem walk_isSome (h : ∀ y, Reaches next x y → next y ≠ none) (k : ℕ) :
    (walk next k x).isSome = true := by
  induction k with
  | zero => rfl
  | succ k ih =>
    obtain ⟨y, hy⟩ := isSome_iff_exists.mp ih
    rw [walk_snoc hy, isSome_iff_ne_none]
    exact h y ⟨k, hy⟩

theorem OnCycle.walk_isSome (h : OnCycle next x) (k : ℕ) : (walk next k x).isSome = true :=
  Walk.walk_isSome (fun _ hy => h.next_ne_none (Reaches.refl x) hy) k

/-! ### The length of a cycle -/

/-- The cycle through `x` has `len` nodes. -/
structure CycleLength (next : α → Option α) (x : α) (len : ℕ) : Prop where
  pos : 0 < len
  returns : walk next len x = some x
  first : ∀ j, 0 < j → j < len → walk next j x ≠ some x

theorem OnCycle.exists_length (h : OnCycle next x) : ∃ len, CycleLength next x len := by
  classical
  obtain ⟨k, hk⟩ := h
  have hex : ∃ k, 0 < k ∧ walk next k x = some x := ⟨k + 1, k.succ_pos, hk⟩
  obtain ⟨hpos, hret⟩ := Nat.find_spec hex
  exact ⟨Nat.find hex, hpos, hret, fun j hj hlt hw => Nat.find_min hex hlt ⟨hj, hw⟩⟩

section Length

variable {len j k : ℕ} (h : CycleLength next x len)
include h

theorem CycleLength.onCycle : OnCycle next x := by
  refine ⟨len - 1, ?_⟩
  rw [Nat.sub_add_cancel h.pos]
  exact h.returns

theorem CycleLength.walk_mod (k : ℕ) : walk next k x = walk next (k % len) x := by
  have hperiodic : Function.Periodic (fun k => walk next k x) len := by
    intro k
    simp only [add_comm k, walk_add, h.returns, bind_some]
  exact (hperiodic.map_mod_nat k).symm

theorem CycleLength.dvd (hk : walk next k x = some x) : len ∣ k := by
  rw [h.walk_mod] at hk
  by_contra hn
  exact h.first _ (pos_of_ne_zero fun h0 => hn (dvd_of_mod_eq_zero h0)) (mod_lt k h.pos) hk

/-- The length is the same from every node of the cycle. -/
theorem CycleLength.of_walk (hj : walk next j x = some y) : CycleLength next y len := by
  obtain ⟨b, hb⟩ := h.onCycle.reaches_symm ⟨j, hj⟩
  exact ⟨h.pos, walk_around h.returns hj, fun i hi hlt hw => h.first i hi hlt (walk_around hw hb)⟩

/-- Every node of the cycle is met on the way around. -/
theorem CycleLength.exists_walk (hy : Reaches next x y) : ∃ j < len, walk next (j + 1) x = some y := by
  obtain ⟨k, hk⟩ := hy
  have hpos := h.pos
  rw [h.walk_mod] at hk
  have hlt := mod_lt k hpos
  rcases Nat.eq_zero_or_pos (k % len) with h0 | h0
  · rw [h0] at hk
    exact ⟨len - 1, by omega, by rw [Nat.sub_add_cancel hpos, h.returns]; exact hk⟩
  · exact ⟨k % len - 1, by omega, by rw [Nat.sub_add_cancel h0]; exact hk⟩

end Length

/-! ### Covering the cycles -/

/-- Every cycle passes through the set `P`. -/
def Covered (next : α → Option α) (P : Set α) : Prop :=
  ∀ x, OnCycle next x → ∃ y ∈ P, Reaches next x y

theorem Covered.mono {P Q : Set α} (h : Covered next P) (hPQ : ∀ y ∈ P, OnCycle next y → y ∈ Q) :
    Covered next Q := by
  intro x hx
  obtain ⟨y, hy, hxy⟩ := h x hx
  exact ⟨y, hPQ y hy (hx.of_reaches hxy), hxy⟩

/-! ### Changing an edge -/

section Update

variable [DecidableEq α] {o : Option α} {P Q : Set α}

/-- A walk that does not pass through `t` does not see the edge of `t`. -/
theorem walk_update (h : ¬ Reaches (update next t o) x t) (k : ℕ) :
    walk (update next t o) k x = walk next k x := by
  induction k generalizing x with
  | zero => rfl
  | succ k ih =>
    have hx : x ≠ t := by
      rintro rfl
      exact h (Reaches.refl x)
    rw [walk_succ, walk_succ, update_of_ne hx]
    cases hn : next x with
    | none => rfl
    | some y =>
      refine ih fun hy => h ?_
      exact (Reaches.of_next (by rw [update_of_ne hx, hn])).trans hy

/-- A cycle after the change passes through `t` or was there before. -/
theorem onCycle_update (h : OnCycle (update next t o) x) :
    Reaches (update next t o) x t ∨
      (OnCycle next x ∧ ∀ y, Reaches next x y ↔ Reaches (update next t o) x y) := by
  by_cases hr : Reaches (update next t o) x t
  · exact .inl hr
  have hw := walk_update hr
  refine .inr ⟨?_, fun y => ?_⟩
  · obtain ⟨k, hk⟩ := h
    exact ⟨k, by rw [← hw, hk]⟩
  · simp only [Reaches, hw]

/-- Once the edge of `t` is removed, no walk that passed through `t` is on a cycle. -/
theorem not_onCycle_of_cut (h : Reaches next x t) : ¬ OnCycle (update next t none) x := by
  intro hc
  have hr : Reaches (update next t none) x t := by
    rcases onCycle_update hc with hr | ⟨-, hr⟩
    · exact hr
    · exact (hr t).mp h
  have ht := (hc.of_reaches hr).next_isSome
  simp at ht

/-- **Changing an edge**: the cycles stay covered if an end of the new edge is in the set when the
edge is on a cycle, and if no node on a cycle leaves the set. -/
theorem Covered.update (h : Covered next P)
    (hPQ : ∀ y ∈ P, OnCycle (update next t o) y → y ∈ Q)
    (ho : ∀ c, o = some c → OnCycle (update next t o) c → t ∈ Q ∨ c ∈ Q) :
    Covered (update next t o) Q := by
  intro x hx
  rcases onCycle_update hx with hxt | ⟨hx', hr⟩
  · have ht := (hx.of_reaches hxt).next_isSome
    rw [update_self] at ht
    obtain ⟨c, hc⟩ := isSome_iff_exists.mp ht
    have hxc := hxt.trans (Reaches.of_next (by rw [update_self, hc]))
    rcases ho c hc (hx.of_reaches hxc) with htQ | hcQ
    · exact ⟨t, htQ, hxt⟩
    · exact ⟨c, hcQ, hxc⟩
  · obtain ⟨y, hy, hxy⟩ := h x hx'
    have hxy' := (hr y).mp hxy
    exact ⟨y, hPQ y hy (hx.of_reaches hxy'), hxy'⟩

/-- Removing the edge of `t`: the nodes whose walk passes through `t` may leave the set. -/
theorem Covered.cut (h : Covered next P) (hPQ : ∀ y ∈ P, y ∉ Q → Reaches next y t) :
    Covered (Function.update next t none) Q := by
  refine h.update (fun y hy hc => ?_) (fun c hc => by simp at hc)
  by_contra hq
  exact not_onCycle_of_cut (hPQ y hy hq) hc

end Update

/-! ### Endless walks -/

/-- A walk of more than `n` steps among `n` nodes repeats a node within its first `n + 1` ones. -/
theorem exists_repeat {S : Finset α} (hS : ∀ y, (next y).isSome = true → y ∈ S)
    (hx : (walk next (S.card + 1) x).isSome = true) :
    ∃ i d z, i + d < S.card ∧ walk next i x = some z ∧ walk next (d + 1) z = some z := by
  have hmem : ∀ k : Fin (S.card + 1), ∃ z ∈ S, walk next k x = some z := by
    intro k
    obtain ⟨m, hm⟩ : ∃ m, S.card + 1 = k + (m + 1) := ⟨S.card - k, by omega⟩
    rw [hm, walk_add] at hx
    cases hz : walk next k x with
    | none => simp [hz] at hx
    | some z =>
      refine ⟨z, hS z ?_, rfl⟩
      rw [hz, bind_some, walk_succ] at hx
      exact isSome_of_isSome_bind hx
  choose f hfS hf using hmem
  -- pigeonhole on the first `n + 1` nodes
  obtain ⟨a, -, b, -, hab, he⟩ := Finset.exists_ne_map_eq_of_card_lt_of_maps_to
    (s := Finset.univ) (t := S) (by simp) (fun k _ => hfS k)
  have key : ∀ i j : Fin (S.card + 1), i < j → f i = f j →
      ∃ i d z, i + d < S.card ∧ walk next i x = some z ∧ walk next (d + 1) z = some z := by
    intro i j hij hfe
    refine ⟨i, j - i - 1, f i, by omega, hf i, ?_⟩
    have hjw := hf j
    rw [show (j : ℕ) = i + (j - i - 1 + 1) by omega, walk_add, hf i, ← hfe] at hjw
    exact hjw
  rcases lt_or_gt_of_ne hab with h | h
  · exact key a b h he
  · exact key b a h he.symm

/-- From the `n`-th node on, an endless walk among `n` nodes is on its cycle, and it returns within
`n` steps. -/
theorem walk_returns {S : Finset α} (hS : ∀ y, (next y).isSome = true → y ∈ S)
    (hx : ∀ k, (walk next k x).isSome = true) {m : ℕ} (hm : S.card ≤ m + 1)
    (hy : walk next m x = some y) : ∃ d < S.card, walk next (d + 1) y = some y := by
  obtain ⟨i, d, z, hid, hz, hd⟩ := exists_repeat hS (hx _)
  refine ⟨d, by omega, ?_⟩
  -- `y` lies behind `z`
  rw [show m = i + (m - i) by omega, walk_add, hz] at hy
  exact walk_around hd hy

/-! ### Brent's algorithm -/

/-- The loop of Brent's algorithm: `hare` makes one step at a time; when it has made `power` steps
since `tortoise` was last moved, `tortoise` is moved to it and `power` is doubled. -/
def brent [DecidableEq α] (next : α → Option α) : ℕ → α → α → ℕ → ℕ → Option α
  | 0, _, _, _, _ => none
  | fuel + 1, tortoise, hare, power, l =>
    match next hare with
    | none => none
    | some hare =>
      if tortoise = hare then some hare
      else if l = power then brent next fuel hare hare (2 * power) 1
      else brent next fuel tortoise hare power (l + 1)

/-- A node on the cycle that the walk from `x` runs into. -/
def findCycle [DecidableEq α] (next : α → Option α) (fuel : ℕ) (x : α) : Option α :=
  brent next fuel x x 1 1

/-- The same loop with its end told apart: `none` when the fuel does not suffice. -/
def brentRun [DecidableEq α] (next : α → Option α) : ℕ → α → α → ℕ → ℕ → Option (Option α)
  | 0, _, _, _, _ => none
  | fuel + 1, tortoise, hare, power, l =>
    match next hare with
    | none => some none
    | some hare =>
      if tortoise = hare then some (some hare)
      else if l = power then brentRun next fuel hare hare (2 * power) 1
      else brentRun next fuel tortoise hare power (l + 1)

section Brent

variable [DecidableEq α]

theorem brent_some {fuel : ℕ} {tortoise hare : α} {power l : ℕ}
    (ht : Reaches next tortoise hare) (h : brent next fuel tortoise hare power l = some y) :
    OnCycle next y ∧ Reaches next tortoise y := by
  induction fuel generalizing tortoise hare power l with
  | zero => simp [brent] at h
  | succ fuel ih =>
    rw [brent] at h
    cases hn : next hare with
    | none => simp [hn] at h
    | some hare' =>
      simp only [hn] at h
      obtain ⟨j, hj⟩ := ht
      have hj' : walk next (j + 1) tortoise = some hare' := by rw [walk_snoc hj, hn]
      split at h
      · rename_i he
        obtain rfl : hare' = y := by simpa using h
        subst he
        exact ⟨⟨j, hj'⟩, Reaches.refl tortoise⟩
      · split at h
        · obtain ⟨hc, hr⟩ := ih (Reaches.refl hare') h
          exact ⟨hc, Reaches.trans ⟨j + 1, hj'⟩ hr⟩
        · exact ih ⟨j + 1, hj'⟩ h

/-- What the search finds is on a cycle that the walk runs into. -/
theorem findCycle_some {fuel : ℕ} (h : findCycle next fuel x = some y) :
    OnCycle next y ∧ Reaches next x y :=
  brent_some (Reaches.refl x) h

/-- The hare meets the tortoise when it returns before the tortoise is moved. -/
theorem brent_meets {fuel d : ℕ} {tortoise hare : α} {power l : ℕ}
    (hd : walk next (d + 1) hare = some tortoise) (hl : l + d ≤ power) (hf : d < fuel) :
    brent next fuel tortoise hare power l = some tortoise := by
  induction d generalizing fuel hare l with
  | zero =>
    obtain _ | fuel := fuel
    · omega
    rw [walk_snoc walk_zero] at hd
    simp [brent, hd]
  | succ d ih =>
    obtain _ | fuel := fuel
    · omega
    obtain ⟨hare', hn, hd⟩ := bind_eq_some_iff.mp hd
    simp only [brent, hn]
    split
    · rename_i he
      rw [he]
    · rw [if_neg (by omega)]
      exact ih hd (by omega) (by omega)

/-- The rest of a round in which the hare does not return: the tortoise is moved to it. -/
theorem brent_round {d fuel : ℕ} {tortoise hare hare' : α} {power l : ℕ}
    (hd : walk next (d + 1) hare = some hare') (hl : l + d = power)
    (hne : ∀ j ≤ d, walk next (j + 1) hare ≠ some tortoise) :
    brent next (d + 1 + fuel) tortoise hare power l = brent next fuel hare' hare' (2 * power) 1 := by
  induction d generalizing hare l with
  | zero =>
    have hfirst := hne 0 le_rfl
    rw [walk_snoc walk_zero] at hd hfirst
    rw [show 0 + 1 + fuel = fuel + 1 by omega]
    simp only [brent, hd]
    rw [if_neg fun he => hfirst (by rw [hd, he]), if_pos (by omega)]
  | succ d ih =>
    have hfirst := hne 0 (by omega)
    obtain ⟨hare₁, hn, hd⟩ := bind_eq_some_iff.mp hd
    rw [walk_snoc walk_zero, hn] at hfirst
    rw [show d + 1 + 1 + fuel = (d + 1 + fuel) + 1 by omega]
    simp only [brent, hn]
    rw [if_neg fun he => hfirst (by rw [he]), if_neg (by omega)]
    refine ih hd (by omega) fun j hj => ?_
    have hlater := hne (j + 1) (by omega)
    rwa [walk_succ, hn] at hlater

/-- The search from a node of a cycle: the rounds are over when the tortoise waits long enough for
the hare to come back. -/
theorem brent_period {len i fuel : ℕ} {tortoise : α} (h : CycleLength next x len)
    (ht : walk next (2 ^ i - 1) x = some tortoise) (hi : i ≤ Nat.clog 2 len)
    (hf : 2 * 2 ^ Nat.clog 2 len ≤ fuel + 2 ^ i) :
    brent next fuel tortoise tortoise (2 ^ i) 1 = walk next (2 ^ Nat.clog 2 len - 1) x := by
  have hlen := h.of_walk ht
  have hpos := h.pos
  have hone := Nat.one_le_two_pow (n := i)
  rcases hi.eq_or_lt with rfl | hlt
  · have hle := Nat.le_pow_clog one_lt_two len
    rw [ht]
    exact brent_meets (d := len - 1) (by rw [Nat.sub_add_cancel hpos]; exact hlen.returns)
      (by omega) (by omega)
  have hshort : 2 ^ i < len := Nat.pow_lt_of_lt_clog hlt
  have hpow : 2 ^ (i + 1) ≤ 2 ^ Nat.clog 2 len := Nat.pow_le_pow_right two_pos hlt
  obtain ⟨tortoise', ht'⟩ := isSome_iff_exists.mp (hlen.onCycle.walk_isSome (2 ^ i))
  obtain ⟨fuel, rfl⟩ : ∃ f, fuel = 2 ^ i - 1 + 1 + f := ⟨fuel - 2 ^ i, by omega⟩
  rw [brent_round (by rw [Nat.sub_add_cancel hone]; exact ht') (by omega)
    (fun j hj => hlen.first (j + 1) (by omega) (by omega)), ← pow_succ']
  refine brent_period h ?_ hlt (by rw [pow_succ]; omega)
  have htt := walk_trans ht ht'
  rwa [show 2 ^ i - 1 + 2 ^ i = 2 ^ (i + 1) - 1 by rw [pow_succ]; omega] at htt
termination_by Nat.clog 2 len - i

theorem brentRun_join {fuel : ℕ} {tortoise hare : α} {power l : ℕ} :
    (brentRun next fuel tortoise hare power l).join = brent next fuel tortoise hare power l := by
  induction fuel generalizing tortoise hare power l with
  | zero => rfl
  | succ fuel ih =>
    rw [brentRun, brent]
    cases next hare with
    | none => rfl
    | some hare' =>
      simp only
      split_ifs
      · rfl
      · exact ih
      · exact ih

/-- The loop ends when the walk does. -/
theorem brentRun_ends {fuel k : ℕ} {tortoise hare : α} {power l : ℕ}
    (hk : walk next (k + 1) hare = none) (hf : k < fuel) :
    (brentRun next fuel tortoise hare power l).isSome = true := by
  induction k generalizing fuel tortoise hare power l with
  | zero =>
    obtain _ | fuel := fuel
    · omega
    rw [walk_snoc walk_zero] at hk
    rw [brentRun, hk]
    rfl
  | succ k ih =>
    obtain _ | fuel := fuel
    · omega
    rw [walk_succ] at hk
    rw [brentRun]
    cases hn : next hare with
    | none => rfl
    | some hare' =>
      rw [hn] at hk
      simp only
      split_ifs
      · rfl
      · exact ih hk (by omega)
      · exact ih hk (by omega)

variable {S : Finset α} (hS : ∀ y, (next y).isSome = true → y ∈ S)
include hS

/-- Each round of an endless walk among `n` nodes has enough fuel, and the one that starts behind
the `n`-th node succeeds. -/
theorem brent_endless (hx : ∀ k, (walk next k x).isSome = true) {m fuel : ℕ} {tortoise : α}
    (ht : walk next m x = some tortoise) (hm : m ≤ 2 * S.card) (hf : 4 * (S.card + 1) ≤ fuel + m) :
    (brent next fuel tortoise tortoise (m + 1) 1).isSome = true := by
  by_cases hmeet : ∃ d ≤ m, walk next (d + 1) tortoise = some tortoise
  · obtain ⟨d, hd, hr⟩ := hmeet
    rw [brent_meets hr (by omega) (by omega)]
    rfl
  have hearly : m + 1 < S.card := by
    by_contra hlate
    obtain ⟨d, hd, hr⟩ := walk_returns hS hx (not_lt.mp hlate) ht
    exact hmeet ⟨d, by omega, hr⟩
  push Not at hmeet
  obtain ⟨tortoise', ht'⟩ := isSome_iff_exists.mp (hx (m + (m + 1)))
  have hstep : walk next (m + 1) tortoise = some tortoise' := by
    rw [walk_add, ht] at ht'
    exact ht'
  obtain ⟨fuel, rfl⟩ : ∃ f, fuel = m + 1 + f := ⟨fuel - (m + 1), by omega⟩
  rw [brent_round hstep (by omega) hmeet, show 2 * (m + 1) = m + (m + 1) + 1 by omega]
  exact brent_endless hx ht' (by omega) (by omega)
termination_by S.card - m

/-- When the search finds nothing, the walk ends. -/
theorem findCycle_none {fuel : ℕ} (hf : 4 * (S.card + 1) ≤ fuel)
    (h : findCycle next fuel x = none) : ∃ y, Reaches next x y ∧ next y = none := by
  by_contra hno
  push Not at hno
  have hb : (brent next fuel x x (0 + 1) 1).isSome = true :=
    brent_endless hS (walk_isSome hno) walk_zero (by omega) (by omega)
  rw [findCycle] at h
  simp [h] at hb

theorem not_onCycle_of_findCycle {fuel : ℕ} (hf : 4 * (S.card + 1) ≤ fuel)
    (h : findCycle next fuel x = none) : ¬ OnCycle next x := by
  intro hc
  obtain ⟨y, hxy, hy⟩ := findCycle_none hS hf h
  exact hc.next_ne_none (Reaches.refl x) hxy hy

/-- **The search ends** within its fuel. -/
theorem brentRun_findCycle {fuel : ℕ} (hf : 4 * (S.card + 1) ≤ fuel) :
    brentRun next fuel x x 1 1 = some (findCycle next fuel x) := by
  have hjoin : (brentRun next fuel x x 1 1).join = findCycle next fuel x := brentRun_join
  suffices h : (brentRun next fuel x x 1 1).isSome = true by
    obtain ⟨r, hr⟩ := isSome_iff_exists.mp h
    rw [hr] at hjoin
    rw [hr, ← hjoin]
    rfl
  cases hc : findCycle next fuel x with
  | some y =>
    cases hr : brentRun next fuel x x 1 1 with
    | none => simp [hr, hc] at hjoin
    | some r => rfl
  | none =>
    -- a walk that ends makes at most `n` steps
    obtain ⟨y, hxy, hy⟩ := findCycle_none hS hf hc
    refine brentRun_ends (k := S.card) ?_ (by omega)
    by_contra hw
    obtain ⟨i, d, z, -, hz, hd⟩ := exists_repeat hS (isSome_iff_ne_none.mpr hw)
    exact OnCycle.next_ne_none ⟨d, hd⟩ ⟨i, hz⟩ hxy hy

end Brent

end Walk
