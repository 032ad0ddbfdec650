/-
**An array of chained cells.**

The operations on a table of chains that is kept in an array: reading and writing a cell, the walk
to the cell before a given one, the search of a value along a chain, and taking a cell out of its
chain.  Every walk has a bound on its length; on the chains of a table the size of the array is
enough.

Main definitions:

* `Cells`: the array;
* `movelink`, `findCell`, `nextCell`, `unlinkCell`: the walks, and unlinking;
* `occupied`: the buckets that have values.

Main results:

* `movelink_pred`, `displace_spec`: a cell is found, and moved to a free one;
* `insert_first_spec`, `insert_free_spec`: a value is put into the table;
* `findCell_spec`, `nextCell_spec`, `cellsFrom_spec`: the searches along a chain;
* `unlinkCell_spec`: one cell of the table is free after a value was taken out.
-/

import MariaDb.Chains

set_option autoImplicit false

namespace ChainArray

open Chains Function List Finset Option

variable {β : Type*}

/-- Cells in an array of some size. -/
structure Cells (β : Type*) where
  size : ℕ
  cell : ℕ → Cell β

open Cells

/-- Read a cell, if the array has it. -/
def Cells.get (a : Cells β) (i : ℕ) : Option (Cell β) :=
  if i < a.size then some (a.cell i) else none

/-- Write a cell, if the array has it. -/
def Cells.set (a : Cells β) (i : ℕ) (x : Cell β) : Option (Cells β) :=
  if i < a.size then some { a with cell := update a.cell i x } else none

/-- From `nextLink` on, the cell that refers to `find` is made to refer to `newlink`. -/
def movelink (find newlink : Option ℕ) : ℕ → Cells β → ℕ → Option (Cells β)
  | 0, _, _ => none
  | fuel + 1, a, nextLink =>
    (a.get nextLink).bind fun oldLink =>
      if oldLink.next = find then a.set nextLink ⟨newlink, oldLink.val⟩
      else oldLink.next.bind (movelink find newlink fuel a)

/-- The first cell of a chain with a value in question, and the cell before it. -/
def findCell (t : β → Bool) (a : Cells β) : ℕ → Option ℕ → ℕ → Option (Option (ℕ × Option ℕ))
  | 0, _, _ => none
  | fuel + 1, previous, idx =>
    (a.get idx).bind fun pos =>
      if t pos.val then some (some (idx, previous))
      else
        match pos.next with
        | none => some none
        | some next => findCell t a fuel (some idx) next

/-- A cell is taken out of its chain: returns the array and the free cell.  The second cell of a
chain is copied into the first one, when that is to be free. -/
def unlinkCell (a : Cells β) (idx : ℕ) (previous : Option ℕ) : Option (Cells β × ℕ) :=
  (a.get idx).bind fun pos =>
    match previous with
    | some prev =>
      (a.get prev).bind fun gpos =>
        (a.set prev ⟨pos.next, gpos.val⟩).map fun a => (a, idx)
    | none =>
      match pos.next with
      | some next =>
        (a.get next).bind fun second => (a.set idx second).map fun a => (a, next)
      | none => some (a, idx)

/-- The first cell from `start` on with a value that passes a test; the test may be undefined. -/
def nextCell (t : β → Option Bool) (a : Cells β) : ℕ → Option ℕ → Option (Option ℕ)
  | 0, _ => none
  | _ + 1, none => some none
  | fuel + 1, some idx =>
    (a.get idx).bind fun pos =>
      (t pos.val).bind fun passed =>
        if passed then some (some idx) else nextCell t a fuel pos.next

/-- The cell that was found, and all such cells behind it, found one after the other. -/
def cellsFrom (t : β → Option Bool) (a : Cells β) : ℕ → Option ℕ → Option (List ℕ)
  | _, none => some []
  | 0, some _ => none
  | fuel + 1, some idx =>
    (a.get idx).bind fun pos =>
      (nextCell t a (a.size + 1) pos.next).bind fun found =>
        (cellsFrom t a fuel found).map (idx :: ·)

/-! ### Walks -/

variable {a : Cells β} {i n e : ℕ} {c : ℕ → Cell β} {M : β → ℕ} {S : Finset ℕ} {ch : ℕ → List ℕ}
  {v : β} {V : Multiset β}

theorem Cells.get_of_lt (hi : i < a.size) : a.get i = some (a.cell i) :=
  if_pos hi

theorem Cells.set_of_lt (hi : i < a.size) (x : Cell β) :
    a.set i x = some ⟨a.size, update a.cell i x⟩ := if_pos hi

theorem Cells.get_mk (hi : i < n) : (⟨n, c⟩ : Cells β).get i = some (c i) := if_pos hi

theorem Cells.set_mk (hi : i < n) (x : Cell β) :
    (⟨n, c⟩ : Cells β).set i x = some ⟨n, update c i x⟩ := if_pos hi

variable {a : Cells β} {l l1 l2 : List ℕ} {p : ℕ} {fuel : ℕ}

/-- **`movelink`** finds the link before `find`, and makes it refer to `newlink`. -/
theorem movelink_spec {find newlink t : Option ℕ} (hlinked : Linked a.cell (l ++ [p]) t)
    (hsize : ∀ j ∈ l ++ [p], j < a.size) (hfind : t = find)
    (hnot : ∀ j ∈ (l ++ [p]).tail, find ≠ some j) (hfuel : l.length < fuel) :
    ∀ start, (l ++ [p]).head? = some start →
      movelink find newlink fuel a start
        = some ⟨a.size, update a.cell p ⟨newlink, (a.cell p).val⟩⟩ := by
  induction l generalizing fuel with
  | nil =>
    rintro start hstart
    obtain rfl : p = start := by simpa using hstart
    obtain _ | fuel := fuel
    · simp at hfuel
    have hp : p < a.size := hsize p (by simp)
    have hnext : (a.cell p).next = find := by simpa [hfind] using hlinked.1
    simp [movelink, get_of_lt hp, set_of_lt hp, hnext]
  | cons i l ih =>
    rintro start hstart
    obtain rfl : i = start := by simpa using hstart
    obtain _ | fuel := fuel
    · simp at hfuel
    have hi : i < a.size := hsize i (by simp)
    -- the next link is one of the chain, and not the one looked for
    obtain ⟨k, hk⟩ : ∃ k, (l ++ [p]).head? = some k := by cases l <;> simp
    have hnext : (a.cell i).next = some k := by
      rw [hlinked.1]
      show (l ++ [p]).head?.or t = some k
      rw [hk]
      rfl
    have hne : some k ≠ find := fun h => hnot k (mem_of_mem_head? hk) h.symm
    simp only [movelink, get_of_lt hi, bind_some, hnext, hne, if_false]
    refine ih hlinked.2 (fun j hj => hsize j (by simp_all)) ?_ (by simp at hfuel; omega) k hk
    intro j hj
    exact hnot j (mem_of_mem_tail hj)

/-- `movelink` for a cell of a table, from the start of its chain. -/
theorem movelink_pred {k x : ℕ} {newlink : Option ℕ} (ht : Table c M S ch)
    (hch : ch k = l1 ++ p :: x :: l2) (hc : ∀ j ∈ l1 ++ [p], a.cell j = c j)
    (hsize : ∀ j ∈ S, j < a.size) :
    movelink (some x) newlink a.size a k = some ⟨a.size, update a.cell p ⟨newlink, (c p).val⟩⟩ := by
  obtain ⟨hl1, hp, -, -, hnodup⟩ := ht.around hch
  have hlinked : Linked a.cell (l1 ++ [p]) (some x) := by
    refine Linked.congr ?_ fun j hj => by rw [hc j hj]
    rw [linked_append]
    exact ⟨by simpa using hl1, by simpa using hp⟩
  have hsub : ∀ j ∈ l1 ++ [p], j < a.size := fun j hj => hsize j (ht.before hch hj).1
  have hlen : l1.length < a.size := by
    have := length_le_of_nodup (l := l1 ++ [p]) (by grind) hsub
    simpa using this
  rw [movelink_spec hlinked hsub rfl ?_ hlen k (ht.head_append hch []), hc p (by simp)]
  intro j hj heq
  exact (ht.before hch (mem_of_mem_tail hj)).2.2 (Option.some.inj heq).symm

/-- A value is put into the cell of its bucket, and the value of another bucket that was there moves
to the free cell `e`: its predecessor is found with `movelink`. -/
theorem displace_spec (N : ℕ) (c1 : ℕ → Cell β) (ht : Table c M S ch) (hi : i ∈ S)
    (hother : M (c i).val ≠ i) (he : e ∉ S) (hN : ∀ j ∈ S, j < N) (hc₁e : c1 e = c i)
    (hc1 : ∀ j, j ≠ i → j ≠ e → c1 j = c j) (hv : M v = i) :
    ∃ c2, movelink (some i) (some e) N ⟨N, c1⟩ (M (c i).val) = some ⟨N, c2⟩ ∧ c2 i = c1 i ∧
      (∃ ch', Table (update c2 i ⟨none, v⟩) M (insert e S) ch') ∧
      vals (update c2 i ⟨none, v⟩) (insert e S) = v ::ₘ vals c S := by
  obtain ⟨l1, p, l2, hch⟩ := ht.exists_pred hi hother
  have hei : e ≠ i := (ne_of_mem_of_not_mem hi he).symm
  have hsub : ∀ j ∈ l1 ++ [p], j ≠ i ∧ j ≠ e := by
    intro j hj
    obtain ⟨hjS, -, hji⟩ := ht.before hch hj
    exact ⟨hji, ne_of_mem_of_not_mem hjS he⟩
  have hp := hsub p (by simp)
  set c2 := update c1 p ⟨some e, (c p).val⟩ with hc2
  have hc₂e : c2 e = c i := by rw [hc2, update_of_ne hp.2.symm, hc₁e]
  have hc₂j : ∀ j, j ≠ p → j ≠ i → j ≠ e → c2 j = c j := by
    intro j hjp hji hje
    rw [hc2, update_of_ne hjp, hc1 j hji hje]
  refine ⟨c2, ?_, update_of_ne hp.1.symm _ _, ?_, ?_⟩
  · exact movelink_pred (a := ⟨N, c1⟩) ht hch (fun j hj => hc1 j (hsub j hj).1 (hsub j hj).2) hN
  · obtain ⟨ch', ht'⟩ : ∃ ch', Table c2 M (insert e (S.erase i)) ch' :=
      ht.relocate he hch (by rw [hc2, update_self]) hc₂e hc₂j
    have hnot : i ∉ insert e (S.erase i) := by simp [hei.symm]
    have hset : insert i (insert e (S.erase i)) = insert e S := by
      rw [insert_comm, insert_erase hi]
    rw [← hset]
    exact ⟨_, ht'.add_first hnot hv⟩
  · refine vals_displace hi he (by rw [update_of_ne hei, hc₂e]) (by rw [update_self]) ?_
    intro j hj hji
    rw [update_of_ne hji]
    by_cases hjp : j = p
    · rw [hjp, hc2, update_self]
    · rw [hc₂j j hjp hji (ne_of_mem_of_not_mem hj he)]

/-- A value goes into the cell of its bucket, and the first value of the bucket, which is there,
moves behind it. -/
theorem insert_first_spec (ht : Table c M S ch) (hi : i ∈ S) (hhead : M (c i).val = i) (he : e ∉ S)
    (hv : M v = i) :
    (∃ ch', Table (update (update c e (c i)) i ⟨some e, v⟩) M (insert e S) ch') ∧
      vals (update (update c e (c i)) i ⟨some e, v⟩) (insert e S) = v ::ₘ vals c S := by
  have hei : e ≠ i := (ne_of_mem_of_not_mem hi he).symm
  set c' := update (update c e (c i)) i ⟨some e, v⟩ with hc'
  have hce : c' e = c i := by rw [hc', update_of_ne hei, update_self]
  have hci : c' i = ⟨some e, v⟩ := by rw [hc', update_self]
  have hcj : ∀ j, j ≠ i → j ≠ e → c' j = c j := by
    intro j hji hje
    rw [hc', update_of_ne hji, update_of_ne hje]
  constructor
  · exact ht.add_second hi hhead he (by rw [hci]) (by rw [hce]) (by rw [hci]; exact hv)
      (by rw [hce]; exact hhead) hcj
  · refine vals_displace hi he (by rw [hce]) (by rw [hci]) fun j hj hji => ?_
    rw [hcj j hji (ne_of_mem_of_not_mem hj he)]

/-- A value goes into the cell of its bucket, which is free. -/
theorem insert_free_spec (ht : Table c M S ch) (he : e ∉ S) (hv : M v = e) :
    (∃ ch', Table (update c e ⟨none, v⟩) M (insert e S) ch') ∧
      vals (update c e ⟨none, v⟩) (insert e S) = v ::ₘ vals c S := by
  refine ⟨⟨_, ht.add_first he hv⟩, vals_add he (by rw [update_self]) fun j hj => ?_⟩
  rw [update_of_ne (ne_of_mem_of_not_mem hj he)]

/-- **`findCell`** finds the first cell of a chain with such a value, and the cell before it. -/
theorem findCell_spec (t : β → Bool) (hlinked : Linked a.cell l none)
    (hsize : ∀ j ∈ l, j < a.size) (hfuel : l.length ≤ fuel) (previous : Option ℕ) :
    ∀ start, l.head? = some start →
      ((∀ j ∈ l, t (a.cell j).val = false) ∧ findCell t a fuel previous start = some none) ∨
      ∃ l1 j l2, l = l1 ++ j :: l2 ∧ t (a.cell j).val = true ∧
        (∀ i ∈ l1, t (a.cell i).val = false) ∧
        findCell t a fuel previous start = some (some (j, l1.getLast?.or previous)) := by
  induction l generalizing fuel previous with
  | nil => simp
  | cons i l ih =>
    rintro start hstart
    obtain rfl : i = start := by simpa using hstart
    obtain _ | fuel := fuel
    · simp at hfuel
    have hi : i < a.size := hsize i (by simp)
    cases htest : t (a.cell i).val with
    | true =>
      exact .inr ⟨[], i, l, rfl, htest, by simp, by
        simp [findCell, get_of_lt hi, htest]⟩
    | false =>
      cases l with
      | nil =>
        have hnext := hlinked.next
        refine .inl ⟨by simpa using htest, ?_⟩
        simp [findCell, get_of_lt hi, htest, hnext]
      | cons k l =>
        have hnext := hlinked.next
        have hstep : findCell t a (fuel + 1) previous i = findCell t a fuel (some i) k := by
          simp [findCell, get_of_lt hi, htest, hnext]
        rw [hstep]
        rcases ih hlinked.2 (fun j hj => hsize j (mem_cons_of_mem i hj))
          (by simp at hfuel ⊢; omega) (some i) k rfl with
          ⟨hnone, hres⟩ | ⟨l1, j, l2, hl, hj, hbefore, hres⟩
        · exact .inl ⟨by simpa [htest] using hnone, hres⟩
        · refine .inr ⟨i :: l1, j, l2, by rw [hl]; rfl, hj, by simpa [htest] using hbefore, ?_⟩
          rw [hres]
          cases hlast : l1.getLast? <;> simp [getLast?_cons, hlast]

section Tests

variable {t : β → Option Bool} {b : ℕ → Bool}

/-- **`nextCell`** finds the first cell of a chain that passes the test. -/
theorem nextCell_spec (hlinked : Linked a.cell l none) (hsize : ∀ j ∈ l, j < a.size)
    (ht : ∀ j ∈ l, t (a.cell j).val = some (b j)) (hfuel : l.length < fuel) :
    nextCell t a fuel l.head? = some (l.find? b) := by
  induction l generalizing fuel with
  | nil =>
    obtain _ | fuel := fuel
    · simp at hfuel
    rfl
  | cons i l ih =>
    obtain _ | fuel := fuel
    · simp at hfuel
    have hi : i < a.size := hsize i (by simp)
    have hnext := hlinked.next
    simp only [head?_cons, nextCell, get_of_lt hi, bind_some, hnext, ht i (by simp), find?_cons]
    cases hb : b i with
    | true => rfl
    | false =>
      exact ih hlinked.2 (fun j hj => hsize j (mem_cons_of_mem i hj))
        (fun j hj => ht j (mem_cons_of_mem i hj)) (by simp at hfuel; omega)

@[simp] theorem cellsFrom_none : cellsFrom t a fuel none = some [] := by
  cases fuel <;> rfl

/-- **All cells of a chain that pass the test** are found. -/
theorem cellsFrom_spec (hlinked : Linked a.cell l none) (hsize : ∀ j ∈ l, j < a.size)
    (ht : ∀ j ∈ l, t (a.cell j).val = some (b j)) (hlen : l.length ≤ a.size)
    (hfuel : l.length ≤ fuel) : cellsFrom t a fuel (l.find? b) = some (l.filter b) := by
  induction fuel generalizing l with
  | zero =>
    obtain rfl := length_eq_zero_iff.1 (Nat.le_zero.1 hfuel)
    rfl
  | succ fuel ih =>
    cases hfind : l.find? b with
    | none =>
      rw [find?_eq_none] at hfind
      rw [cellsFrom_none, filter_eq_nil_iff.2 hfind]
    | some j =>
      obtain ⟨hj, l1, l2, rfl, hnot⟩ := find?_eq_some_iff_append.1 hfind
      have hnil : l1.filter b = [] :=
        filter_eq_nil_iff.2 fun x hx => by simpa using hnot x hx
      have hl2 : Linked a.cell (j :: l2) none := (linked_append.1 hlinked).2
      have hnext := hl2.next
      have hsize2 : ∀ x ∈ l2, x < a.size := fun x hx => hsize x (by simp [hx])
      have ht2 : ∀ x ∈ l2, t (a.cell x).val = some (b x) := fun x hx => ht x (by simp [hx])
      simp only [length_append, length_cons] at hlen hfuel
      rw [cellsFrom, get_of_lt (hsize j (by simp)), bind_some, hnext,
        nextCell_spec hl2.2 hsize2 ht2 (by omega), bind_some,
        ih hl2.2 hsize2 ht2 (by omega) (by omega), map_some, filter_append, hnil, nil_append,
        filter_cons_of_pos hj]

end Tests

/-! ### Unlinking -/

variable {M : β → ℕ} {S : Finset ℕ} {ch : ℕ → List ℕ}

/-- A value is taken out of its chain; `e` is the cell that is free then. -/
theorem unlinkCell_spec {k j : ℕ} (ht : Table a.cell M S ch)
    (hsize : ∀ i ∈ S, i < a.size) (hch : ch k = l1 ++ j :: l2) :
    ∃ a' e, unlinkCell a j l1.getLast? = some (a', e) ∧ a'.size = a.size ∧ e ∈ S ∧
      (∃ ch', Table a'.cell M (S.erase e) ch') ∧ (e = j → (a'.cell j).val = (a.cell j).val) ∧
      vals a.cell S = (a.cell j).val ::ₘ vals a'.cell (S.erase e) := by
  have hchain := ht.isChain hch
  have hsub : ∀ i ∈ l1 ++ j :: l2, i ∈ S := fun i hi => ((hchain.mem i).1 hi).1
  have hjS := hsub j (by simp)
  rcases eq_nil_or_concat l1 with rfl | ⟨l, p, rfl⟩
  · -- the first cell of the chain
    obtain rfl : j = k := hchain.head j rfl
    have hget := get_of_lt (hsize j hjS)
    have hnext := hchain.linked.next
    cases l2 with
    | nil =>
      refine ⟨a, j, ?_, rfl, hjS, ht.unlink_single hch, fun _ => rfl, vals_erase hjS⟩
      simp [unlinkCell, hget, hnext]
    | cons b l2 =>
      have hbS := hsub b (by simp)
      have hbj : b ≠ j := by
        have hnodup := hchain.nodup
        grind
      refine ⟨⟨a.size, update a.cell j (a.cell b)⟩, b, ?_, rfl, hbS, ht.unlink_head hch,
        fun hb => absurd hb hbj, ?_⟩
      · simp [unlinkCell, hget, hnext, get_of_lt (hsize b hbS), set_of_lt (hsize j hjS)]
      have hset : insert j ((S.erase j).erase b) = S.erase b := by
        grind
      have hvals : vals (update a.cell j (a.cell b)) (insert j ((S.erase j).erase b))
          = vals a.cell (S.erase j) :=
        vals_relocate (by simp [hbj, hbS]) (by simp) (by rw [update_self]) fun i hi _ => by
          rw [update_of_ne (ne_of_mem_erase hi)]
      rw [hset] at hvals
      rw [vals_erase hjS]
      congr 1
      exact hvals.symm
  · -- a cell with another one before it
    have hch' : ch k = l ++ p :: j :: l2 := by rw [hch]; simp
    have hpS := hsub p (by simp)
    have hpj : p ≠ j := (ht.before hch' (by simp)).2.2
    refine ⟨⟨a.size, update a.cell p ⟨(a.cell j).next, (a.cell p).val⟩⟩, j, ?_, rfl, hjS,
      ht.unlink hch', fun _ => congrArg Cell.val (update_of_ne hpj.symm _ _), ?_⟩
    · simp [unlinkCell, get_of_lt (hsize j hjS), get_of_lt (hsize p hpS), set_of_lt (hsize p hpS)]
    rw [vals_erase hjS]
    congr 1
    refine vals_congr fun i _ => ?_
    show _ = (update a.cell p _ i).val
    by_cases hip : i = p
    · rw [hip, update_self]
    · rw [update_of_ne hip]

/-! ### Buckets with values -/

/-- The buckets that have values. -/
def occupied (M : β → ℕ) (V : Multiset β) : Finset ℕ := (V.map M).toFinset

theorem mem_occupied : i ∈ occupied M V ↔ ∃ v ∈ V, M v = i := by
  simp [occupied]

@[simp] theorem occupied_cons (v : β) (V : Multiset β) :
    occupied M (v ::ₘ V) = insert (M v) (occupied M V) := by
  simp [occupied]

theorem occupied_congr {M' : β → ℕ} (hM : ∀ v ∈ V, M' v = M v) : occupied M' V = occupied M V := by
  rw [occupied, Multiset.map_congr rfl hM, occupied]

/-- A bucket has values if its cell has one of them. -/
theorem mem_occupied_vals (ht : Table c M S ch) :
    i ∈ occupied M (vals c S) ↔ i ∈ S ∧ M (c i).val = i := by
  rw [mem_occupied]
  constructor
  · rintro ⟨v, hv, hMv⟩
    obtain ⟨j, hj, rfl⟩ := Multiset.mem_map.1 hv
    exact ht.head_of_mem hj hMv
  · rintro ⟨hi, hMi⟩
    exact ⟨_, Multiset.mem_map_of_mem _ hi, hMi⟩

/-- Without one of the values its bucket has values as long as its chain had more than one. -/
theorem mem_occupied_rest (ht : Table c M S ch) (hvals : vals c S = v ::ₘ V) :
    M v ∈ occupied M V ↔ 1 < (ch (M v)).length := by
  have hlen : (ch (M v)).length = Multiset.card ((vals c S).filter (M · = M v)) := by
    rw [ht.length_eq, vals, Multiset.filter_map, Multiset.card_map]
    rfl
  have hcons : Multiset.card ((v ::ₘ V).filter (M · = M v))
      = Multiset.card (V.filter (M · = M v)) + 1 := by
    rw [Multiset.filter_cons_of_pos (p := (M · = M v)) V rfl, Multiset.card_cons]
  rw [hlen, hvals, hcons, Nat.lt_add_left_iff_pos, Multiset.card_pos_iff_exists_mem, mem_occupied]
  simp only [Multiset.mem_filter]

/-- When the bucket `n` is joined with `f`, there is one bucket less with values if both had
some. -/
theorem card_occupied_join {M' : β → ℕ} {f : ℕ} (hfn : f ≠ n)
    (hM : ∀ v ∈ V, M v = if M' v = n then f else M' v) :
    (occupied M' V).card = (occupied M V).card +
      if f ∈ occupied M' V ∧ n ∈ occupied M' V then 1 else 0 := by
  have hmem : ∀ i, i ∈ occupied M V ↔
      (i ∈ occupied M' V ∧ i ≠ n) ∨ (i = f ∧ n ∈ occupied M' V) := by
    intro i
    simp only [mem_occupied]
    constructor
    · rintro ⟨v, hv, rfl⟩
      rw [hM v hv]
      by_cases hn : M' v = n
      · rw [if_pos hn]
        exact .inr ⟨rfl, v, hv, hn⟩
      · rw [if_neg hn]
        exact .inl ⟨⟨v, hv, rfl⟩, hn⟩
    · rintro (⟨⟨v, hv, rfl⟩, hne⟩ | ⟨rfl, v, hv, hn⟩)
      · exact ⟨v, hv, by rw [hM v hv, if_neg hne]⟩
      · exact ⟨v, hv, by rw [hM v hv, if_pos hn]⟩
  by_cases hn : n ∈ occupied M' V
  · have hset : occupied M V = insert f ((occupied M' V).erase n) := by
      ext i
      rw [hmem, mem_insert, mem_erase]
      tauto
    have hcard := card_erase_add_one hn
    by_cases hf : f ∈ occupied M' V
    · rw [if_pos ⟨hf, hn⟩, hset, insert_eq_of_mem (mem_erase.2 ⟨hfn, hf⟩), hcard]
    · rw [if_neg fun h => hf h.1, hset, card_insert_of_notMem fun h =>
        hf (mem_of_mem_erase h), hcard]
  · have hset : occupied M V = occupied M' V := by
      ext i
      rw [hmem]
      grind
    rw [if_neg fun h => hn h.2, hset]
    rfl

end ChainArray
