/-
**A table that has as many buckets as values.**

With one value more a bucket is split, and the values that move go to a new bucket at the end; with
one value less the last bucket is joined to another one.  The number of the bucket is computed from
a hash value by a mask, so that nothing but the values of one bucket moves.

Main definitions:

* `bucket`: the bucket of a value;
* `splitBucket`, `moveLast`: a cell of the table is made free for a new value, or given up.

Main results:

* `splitBucket_spec`, `moveLast_spec`: **the table stays one**, with the buckets for the new number
  of values.
-/

import MariaDb.ChainShrink
import MariaDb.ChainSplit
import MariaDb.LinearMask

set_option autoImplicit false

namespace LinearHash

open Chains ChainArray ChainShrink ChainSplit LinearMask Finset

variable {β : Type*}

/-- The bucket of a value with the hash value `x v`, for the length `b` and `n` values. -/
def bucket (x : β → ℕ) (b n : ℕ) (v : β) : ℕ := mask (x v) b n

/-- One bucket is split.  The cell `e` is free before that; gives the cell that is free after it, and
tells whether both buckets have values.  `val0` stands for what is not initialised. -/
def splitBucket (x : β → ℕ) (b n : ℕ) (a : Cells β) (e : ℕ) (val0 : β) :
    Option (Cells β × ℕ × Bool) :=
  let half := b / 2
  let first := n - half
  if first ≠ n then
    (splitLoop (fun v => bucket x b n v = first) (fun v => x v &&& half = 0) a.size
      (Splitting.start a e val0) first).bind fun s =>
        (splitClose s).map fun a => (a, s.empty, s.lowFind && s.highFind)
  else some (a, e, false)

/-- The last cell is given up and `e` used, where the length was `b'` with one value more. -/
def moveLast (x : β → ℕ) (b' b n : ℕ) (front : Bool) (a : Cells β) (e : ℕ) :
    Option (Cells β × Bool) :=
  giveUp (bucket x b' (n + 1)) (bucket x b n) n front a e

variable {x : β → ℕ} {b n e : ℕ} {a : Cells β} {ch : ℕ → List ℕ} (hx : ∀ v, x v < 2 ^ 64)
  (hl : Fits b n)
include hx hl

theorem bucket_succ (hn : n ≠ 0) (v : β) :
    bucket x b n v = if bucket x b (n + 1) v = n then n - b / 2 else bucket x b (n + 1) v :=
  mask_succ (hx v) hl hn

theorem splitBucket_spec (val0 : β) (ha : n < a.size)
    (ht : Table a.cell (bucket x b n) (range n) ch) :
    ∃ a' e both, splitBucket x b n a n val0 = some (a', e, both) ∧ a'.size = a.size ∧ e < n + 1 ∧
      (∃ ch', Table a'.cell (bucket x b (n + 1)) ((range (n + 1)).erase e) ch') ∧
      vals a'.cell ((range (n + 1)).erase e) = vals a.cell (range n) ∧
      (occupied (bucket x b (n + 1)) (vals a.cell (range n))).card
        = (occupied (bucket x b n) (vals a.cell (range n))).card + if both then 1 else 0 := by
  by_cases hn : n = 0
  · -- the first value
    subst hn
    refine ⟨a, 0, false, by simp [splitBucket], rfl, one_pos, ⟨ch, ht.remap (by simp)⟩, ?_, rfl⟩
    rw [range_erase_self]
  have hfn := hl.first_lt hn
  have hM := bucket_succ hx hl hn
  obtain ⟨s, a', hloop, hclose, hsize, hempty, htab, hvals, hboth⟩ := split_spec
    (fun v => bucket x b n v = n - b / 2) (fun v => x v &&& (b / 2) = 0) a val0 ht ha hfn hM
    (fun v hv => by rw [decide_eq_true_iff]; exact mask_stays (hx v) hl hn hv)
    fun v => decide_eq_true_iff
  refine ⟨a', s.empty, s.lowFind && s.highFind, ?_, hsize, hempty, htab, hvals, ?_⟩
  · simp only [splitBucket]
    rw [if_pos hfn.ne, hloop, Option.bind_some, hclose, Option.map_some]
  · rw [card_occupied_join hfn.ne fun v _ => hM v]
    congr 1
    exact if_congr hboth.symm rfl rfl

theorem moveLast_spec {b' : ℕ} (front : Bool) (hb : b' = grow b n) (ha : n < a.size) (he : e ≤ n)
    (ht : Table a.cell (bucket x b' (n + 1)) ((range (n + 1)).erase e) ch) :
    ∃ a' joined, moveLast x b' b n front a e = some (a', joined) ∧ Shrunk (bucket x b n) n a a' e ∧
      (occupied (bucket x b' (n + 1)) (vals a.cell ((range (n + 1)).erase e))).card
        = (occupied (bucket x b n) (vals a.cell ((range (n + 1)).erase e))).card
          + if joined then 1 else 0 :=
  giveUp_spec (bucket x b n) front ha he ht fun hn => by
    have hM : ∀ v, bucket x b' (n + 1) v = bucket x b (n + 1) v := fun v =>
      hb ▸ mask_grow (hx v) hl
    refine ⟨fun v => ?_, hl.first_lt hn, fun v => mask_lt (hx v) hl hn⟩
    rw [hM]
    exact bucket_succ hx hl hn v

end LinearHash
