/-
**A table of chains gives up its last cell.**

When a value was taken out of a table of chains, one cell is free.  The table gives up its last
cell and its last bucket: the value in that cell moves to another one, and the values of the last
bucket join those of an earlier one.

Main definitions:

* `Shrinking`, `Shrunk`: the table before and after;
* `giveUp`: the function that does it.

Main results, for each place where the value of the last cell can go and for the function:

* `giveUp_spec`: **the last cell is given up**.
-/

import MariaDb.ChainArray

set_option autoImplicit false

namespace ChainShrink

open Chains ChainArray Function List

variable {β : Type*}

/-! ### The last cell -/

variable {M M' : β → ℕ} {n f e : ℕ} {a : Cells β} {ch : ℕ → List ℕ}

/-- The cells that are left: the last one is given up, or filled with its value. -/
theorem insert_erase_last (he : e ≤ n) (hne : e ≠ n) :
    insert e (((Finset.range (n + 1)).erase e).erase n) = Finset.range n := by
  ext j
  simp only [Finset.mem_insert, Finset.mem_erase, Finset.mem_range]
  omega

theorem vals_move_last {c c' : ℕ → Cell β} (he : e ≤ n) (hne : e ≠ n)
    (hce : (c' e).val = (c n).val) (hc : ∀ j, j ≠ e → j ≠ n → (c' j).val = (c j).val) :
    vals c' (Finset.range n) = vals c ((Finset.range (n + 1)).erase e) := by
  rw [← insert_erase_last he hne]
  refine vals_relocate (by simp [hne.symm]) (by simp) hce fun j hj hjn => ?_
  exact hc j (Finset.ne_of_mem_erase hj) hjn

/-- A value has been taken out of a table, `e` is free, and the last cell, `n`, is to be given up.  The
buckets `M` are joined to `M'`. -/
structure Shrinking (M M' : β → ℕ) (n : ℕ) (a : Cells β) (e f : ℕ) (ch : ℕ → List ℕ) :
    Prop where
  size : n < a.size
  free : e < n
  table : Table a.cell M ((Finset.range (n + 1)).erase e) ch
  merge : ∀ v : β, M' v = if M v = n then f else M v
  into : f < n
  lt : ∀ v : β, M' v < n

/-- The table after that. -/
def Shrunk (M' : β → ℕ) (n : ℕ) (a a' : Cells β) (e : ℕ) : Prop :=
  a'.size = a.size ∧
    (∃ ch', Table a'.cell M' (Finset.range n) ch') ∧
    vals a'.cell (Finset.range n) = vals a.cell ((Finset.range (n + 1)).erase e)

/-- The last value moves to the free cell, the last one before `t` is linked to what comes behind the
value in the cell `pos`, and that value to the free cell. -/
def joined (a : Cells β) (n e pos : ℕ) (t : Option ℕ) : Option (Cells β) :=
  (movelink t (a.cell pos).next a.size ⟨a.size, update a.cell e (a.cell n)⟩ e).bind fun a =>
    (a.get pos).bind fun posLink => a.set pos ⟨some e, posLink.val⟩

/-- The last cell, `n`, is given up, and the free one, `e`, used.  `M` are the buckets before, and
`M'` those after that.  When the value in the cell where the last one belongs is of the last bucket
too, it moves out of the way (`front`) or stays.  Tells whether two chains were joined. -/
def giveUp (M M' : β → ℕ) (n : ℕ) (front : Bool) (a : Cells β) (e : ℕ) : Option (Cells β × Bool) :=
  if e = n then some (a, false)
  else
    (a.get n).bind fun last =>
      let pos := M' last.val
      if pos = e then (a.set e last).map fun a => (a, false)
      else
        (a.get pos).bind fun x =>
          -- the value in the cell `pos` belongs elsewhere, or makes room
          if pos ≠ M' x.val ∨ front = true ∧ M last.val = M x.val ∧ M last.val = n then
            (a.set e x).bind fun a =>
              (a.set pos last).bind fun a =>
                (movelink (some pos) (some e) a.size a (M' x.val)).map fun a => (a, false)
          -- both are in one chain, which stays
          else if M last.val = M x.val ∧ M last.val ≠ n then
            (a.set e last).bind fun a =>
              (movelink (some n) (some e) a.size a pos).map fun a => (a, false)
          else
            (a.set e last).bind fun a =>
              (movelink (if M last.val = M x.val then some pos else none) x.next a.size a e).bind
                fun a => (a.get pos).bind fun x' =>
                  (a.set pos ⟨some e, x'.val⟩).map fun a => (a, M last.val ≠ M x.val)

theorem mem_range_erase {j : ℕ} : j ∈ (Finset.range (n + 1)).erase e ↔ j ≠ e ∧ j < n + 1 := by
  rw [Finset.mem_erase, Finset.mem_range]

namespace Shrinking

variable (hs : Shrinking M M' n a e f ch)

include hs

theorem last_mem : n ∈ (Finset.range (n + 1)).erase e := by
  have := hs.free
  exact mem_range_erase.2 ⟨by omega, by omega⟩

theorem free_lt : e < a.size := by
  have h1 := hs.free
  have h2 := hs.size
  omega

theorem lt_size {j : ℕ} (hj : j ≤ n) : j < a.size := by
  have := hs.size
  omega

theorem lt_size_of_mem {j : ℕ} (hj : j ∈ (Finset.range (n + 1)).erase e) : j < a.size :=
  hs.lt_size (Nat.le_of_lt_succ (mem_range_erase.1 hj).2)

theorem bucket_of_ne {v : β} (hv : M v ≠ n) : M' v = M v := by
  rw [hs.merge, if_neg hv]

theorem bucket_of_eq {v : β} (hv : M v = n) : M' v = f := by
  rw [hs.merge, if_pos hv]

/-- If the cell where the last value belongs is free or has a value of another bucket, then the last
value is in the last bucket. -/
theorem last_bucket {pos : ℕ} (hpos : M' (a.cell n).val = pos)
    (hother : pos ≠ e → M' (a.cell pos).val ≠ pos) : M (a.cell n).val = n ∧ f = pos := by
  have hMn : M (a.cell n).val = n := by
    by_contra hne
    have hkeep := hs.bucket_of_ne hne
    rw [hpos] at hkeep
    obtain ⟨hpS, hMp⟩ := hs.table.head_of_mem hs.last_mem hkeep.symm
    have hposn : pos < n := hpos ▸ hs.lt _
    refine hother (mem_range_erase.1 hpS).1 ?_
    rw [hs.bucket_of_ne (by rw [hMp]; exact hposn.ne), hMp]
  exact ⟨hMn, by rw [← hs.bucket_of_eq hMn, hpos]⟩

/-- The last value belongs into the free cell. -/
theorem move_to_free (hpos : M' (a.cell n).val = e) :
    Shrunk M' n a ⟨a.size, update a.cell e (a.cell n)⟩ e := by
  have hen := hs.free.ne
  obtain ⟨hMn, rfl⟩ := hs.last_bucket hpos fun h' => absurd rfl h'
  refine ⟨rfl, ?_, ?_⟩
  · have hmoved := hs.table.move_chain hen hs.merge (Finset.notMem_erase _ _) hs.last_mem hMn
    rw [insert_erase_last hs.free.le hen] at hmoved
    exact hmoved
  refine vals_move_last hs.free.le hen ?_ fun j hje _ => ?_
  · show (update a.cell f _ f).val = _
    rw [update_self]
  · show (update a.cell f _ j).val = _
    rw [update_of_ne hje]

/-- The cell of the bucket `f` has a value with a predecessor.  That value moves to the free cell,
and the last bucket takes its place. -/
theorem move_bucket {k p : ℕ} {l1 l2 : List ℕ} {c2 c3 : ℕ → Cell β} (hMn : M (a.cell n).val = n)
    (hfe : f ≠ e) (hch : ch k = l1 ++ p :: f :: l2)
    (hc2 : c2 = update (update a.cell e (a.cell f)) p ⟨some e, (a.cell p).val⟩)
    (hc3 : ∀ j, j ≠ n → c3 j = update c2 f (c2 n) j) : Shrunk M' n a ⟨a.size, c3⟩ e := by
  have hen := hs.free.ne
  have hfS : f ∈ (Finset.range (n + 1)).erase e :=
    mem_range_erase.2 ⟨hfe, hs.into.trans (Nat.lt_succ_self n)⟩
  have hpS := hs.table.subset (i := k) (j := p) (by rw [hch]; simp)
  have hpe := (mem_range_erase.1 hpS).1
  have hc₂e : c2 e = a.cell f := by rw [hc2, update_of_ne hpe.symm, update_self]
  have hc₂v : ∀ j, j ≠ e → (c2 j).val = (a.cell j).val := by
    intro j hje
    rw [hc2]
    by_cases hjp : j = p
    · rw [hjp, update_self]
    · rw [update_of_ne hjp, update_of_ne hje]
  have hins : insert e (((Finset.range (n + 1)).erase e).erase f)
      = (Finset.range (n + 1)).erase f := by
    have := hs.free
    ext j
    simp only [Finset.mem_insert, Finset.mem_erase, Finset.mem_range]
    omega
  have hrange : ∀ j ∈ Finset.range n, c3 j = update c2 f (c2 n) j := fun j hj =>
    hc3 j (Finset.mem_range.1 hj).ne
  refine ⟨rfl, ?_, ?_⟩
  · obtain ⟨ch', ht'⟩ : ∃ ch', Table c2 M
        (insert e (((Finset.range (n + 1)).erase e).erase f)) ch' :=
      hs.table.relocate (Finset.notMem_erase _ _) hch (by rw [hc2, update_self]) hc₂e
        fun j hjp _ hje => by rw [hc2, update_of_ne hjp, update_of_ne hje]
    rw [hins] at ht'
    obtain ⟨ch'', ht''⟩ := ht'.move_chain hs.into.ne hs.merge (Finset.notMem_erase _ _)
      (by simp [hs.into.ne']) (by rw [hc₂v n hen.symm]; exact hMn)
    rw [insert_erase_last hs.into.le hs.into.ne] at ht''
    exact ⟨ch'', ht''.congr (fun j hj => congrArg Cell.next (hrange j hj)) fun j hj =>
      congrArg (fun x => M' x.val) (hrange j hj)⟩
  · rw [vals_congr fun j hj => congrArg Cell.val (hrange j hj),
      vals_move_last (c := c2) hs.into.le hs.into.ne (by rw [update_self]) fun j hjf _ => by
        rw [update_of_ne hjf], ← hins]
    exact vals_relocate hfS (Finset.notMem_erase _ _) (by rw [hc₂e]) fun j hj _ =>
      hc₂v j (mem_range_erase.1 hj).1

/-- `movelink` on the chain of the last value, when that value stands in the cell `x`. -/
theorem movelink_moved {x : ℕ} {A : List ℕ} {t : Option ℕ} {c1 : ℕ → Cell β} (newlink : Option ℕ)
    (hA : Linked a.cell (n :: A) t) (hnodup : (n :: A).Nodup)
    (hsub : ∀ j ∈ n :: A, j ∈ (Finset.range (n + 1)).erase e) (hx : c1 x = a.cell n)
    (hxa : x < a.size) (hc1 : ∀ j ∈ A, c1 j = a.cell j) (ht : ∀ j ∈ A, t ≠ some j) :
    ∃ l p, x :: A = l ++ [p] ∧ movelink t newlink a.size ⟨a.size, c1⟩ x
      = some ⟨a.size, update c1 p ⟨newlink, (c1 p).val⟩⟩ := by
  obtain ⟨l, p, hlast⟩ : ∃ l p, x :: A = l ++ [p] :=
    ⟨_, _, (dropLast_append_getLast (cons_ne_nil x A)).symm⟩
  have hlinked : Linked c1 (x :: A) t :=
    ⟨by rw [hx]; exact hA.1, hA.2.congr fun j hj => congrArg Cell.next (hc1 j hj)⟩
  have hlen : l.length < a.size := by
    have hcard := length_le_of_nodup hnodup fun j hj => hs.lt_size_of_mem (hsub j hj)
    have hlength := congrArg List.length hlast
    simp only [length_cons, length_append, length_nil] at hcard hlength
    omega
  refine ⟨l, p, hlast, movelink_spec (a := ⟨a.size, c1⟩) (hlast ▸ hlinked) ?_ rfl ?_ hlen x
    (by rw [← hlast]; rfl)⟩
  · rw [← hlast]
    intro j hj
    rcases mem_cons.1 hj with rfl | hj
    · exact hxa
    · exact hs.lt_size_of_mem (hsub j (mem_cons_of_mem n hj))
  · rw [← hlast]
    exact ht

variable {pos : ℕ} (hpos : M' (a.cell n).val = pos) (hpe : pos ≠ e)

include hpos hpe

theorem pos_mem : pos < n ∧ pos ∈ (Finset.range (n + 1)).erase e := by
  have hposn : pos < n := hpos ▸ hs.lt _
  exact ⟨hposn, mem_range_erase.2 ⟨hpe, by omega⟩⟩

/-- The cell where the last value belongs has a value of another bucket: that one moves to the free
cell. -/
theorem move_displacing (hother : M' (a.cell pos).val ≠ pos) :
    ∃ a', movelink (some pos) (some e) a.size
        ⟨a.size, update (update a.cell e (a.cell pos)) pos (a.cell n)⟩ (M' (a.cell pos).val)
      = some a' ∧ Shrunk M' n a a' e := by
  have hen := hs.free.ne
  obtain ⟨hposn, hpS⟩ := hs.pos_mem hpos hpe
  obtain ⟨hMn, rfl⟩ := hs.last_bucket hpos fun _ => hother
  have hMp : M (a.cell f).val ≠ n := fun h' =>
    hother (hs.bucket_of_eq h')
  have hMp' := hs.bucket_of_ne hMp
  obtain ⟨l1, p, l2, hch⟩ := hs.table.exists_pred hpS (by rw [← hMp']; exact hother)
  rw [← hMp'] at hch
  have hsub : ∀ j ∈ l1 ++ [p], j ≠ f ∧ j ≠ e ∧ j ≠ n := by
    intro j hj
    obtain ⟨hjS, hMj, hjf⟩ := hs.table.before hch hj
    refine ⟨hjf, (mem_range_erase.1 hjS).1, ?_⟩
    rintro rfl
    rw [hMn] at hMj
    exact absurd hMj.symm (hs.lt _).ne
  have hp := hsub p (by simp)
  set c1 := update a.cell e (a.cell f) with hc1
  rw [movelink_pred (a := ⟨a.size, update c1 f (a.cell n)⟩) hs.table hch]
  · refine ⟨_, rfl, hs.move_bucket hMn hpe hch rfl fun j _ => ?_⟩
    rw [update_of_ne hp.2.2.symm, update_of_ne hen.symm]
    exact congrFun (update_comm hp.1.symm _ _ _) j
  · intro j hj
    show update c1 f (a.cell n) j = a.cell j
    rw [update_of_ne (hsub j hj).1, hc1, update_of_ne (hsub j hj).2.1]
  · exact fun j hj => hs.lt_size_of_mem hj

omit hpe in
/-- The last value is in the same chain as the first one of the bucket where it belongs. -/
theorem move_in_chain (hne : M (a.cell n).val ≠ n) :
    ∃ a', movelink (some n) (some e) a.size ⟨a.size, update a.cell e (a.cell n)⟩ pos = some a' ∧
      Shrunk M' n a a' e := by
  have hen := hs.free.ne
  have hMn := hs.bucket_of_ne hne
  obtain ⟨l1, p, l2, hch⟩ := hs.table.exists_pred hs.last_mem hne
  rw [← hMn, hpos] at hch
  have hsub : ∀ j ∈ l1 ++ [p], j ≠ e := fun j hj =>
    (mem_range_erase.1 (hs.table.before hch hj).1).1
  have hp := hsub p (by simp)
  set c1 := update a.cell e (a.cell n) with hc1
  set c2 := update c1 p ⟨some e, (a.cell p).val⟩ with hc2
  have hc₂e : c2 e = a.cell n := by
    rw [hc2, update_of_ne hp.symm, hc1, update_self]
  have hc₂j : ∀ j, j ≠ p → j ≠ e → c2 j = a.cell j := by
    intro j hjp hje
    rw [hc2, update_of_ne hjp, hc1, update_of_ne hje]
  rw [movelink_pred (a := ⟨a.size, c1⟩) hs.table hch]
  · refine ⟨_, rfl, rfl, ?_, ?_⟩
    · obtain ⟨ch', ht'⟩ : ∃ ch', Table c2 M
          (insert e (((Finset.range (n + 1)).erase e).erase n)) ch' :=
        hs.table.relocate (Finset.notMem_erase _ _) hch (by rw [hc2, update_self]) hc₂e
          fun j hjp _ hje => hc₂j j hjp hje
      rw [insert_erase_last hs.free.le hen] at ht'
      exact ⟨ch', ht'.drop_bucket hs.merge fun hmem => by simp at hmem⟩
    · show vals c2 _ = _
      refine vals_move_last hs.free.le hen (by rw [hc₂e]) fun j hje _ => ?_
      by_cases hjp : j = p
      · rw [hjp, hc2, update_self]
      · rw [hc₂j j hjp hje]
  · exact fun j hj => update_of_ne (hsub j hj) _ _
  · exact fun j hj => hs.lt_size_of_mem hj

/-- The values from the last one on, up to `t`, come behind the value in the cell where it
belongs. -/
theorem join_behind {A B : List ℕ} {t : Option ℕ} (hpf : f = pos) (hA : Linked a.cell (n :: A) t)
    (hB : Linked a.cell B none) (hnext : (a.cell pos).next = B.head?) (ht : t = none ∨ t = some pos)
    (hnodup : (pos :: n :: (A ++ B)).Nodup)
    (hmem : ∀ j, j ∈ pos :: n :: (A ++ B) ↔ j ∈ ch pos ∨ j ∈ ch n) :
    ∃ a', joined a n e pos t = some a' ∧ Shrunk M' n a a' e := by
  have hen := hs.free.ne
  obtain ⟨hposn, hpS⟩ := hs.pos_mem hpos hpe
  have hsub : ∀ j ∈ pos :: n :: (A ++ B), j ∈ (Finset.range (n + 1)).erase e := by
    intro j hj
    rcases (hmem j).1 hj with hj | hj
    · exact hs.table.subset hj
    · exact hs.table.subset hj
  have hej : ∀ j ∈ pos :: n :: (A ++ B), j ≠ e := fun j hj =>
    (mem_range_erase.1 (hsub j hj)).1
  set c1 := update a.cell e (a.cell n) with hc1
  have hc₁j : ∀ j, j ≠ e → c1 j = a.cell j := fun j hj => update_of_ne hj _ _
  have hc₁e : c1 e = a.cell n := update_self ..
  obtain ⟨l, p, hlast, hmove⟩ := hs.movelink_moved (a.cell pos).next hA (by grind)
    (fun j hj => hsub j (by grind)) hc₁e hs.free_lt
    (fun j hj => hc₁j j (hej j (by simp [hj]))) fun j hj => by
      rcases ht with rfl | rfl
      · simp
      · grind
  have hppos : pos ≠ p := by
    grind
  have hpa : pos < a.size := hs.lt_size hposn.le
  rw [joined, hmove, Option.bind_some, Cells.get_mk hpa, Option.bind_some, Cells.set_mk hpa,
    update_of_ne hppos, hc₁j pos hpe]
  refine ⟨_, rfl, rfl, ?_, ?_⟩
  · subst hpf
    have hjoin := hs.table.join_chain hposn.ne hs.merge (Finset.notMem_erase _ _) hA hB hnext hlast
      hnodup hmem
    rw [insert_erase_last hs.free.le hen] at hjoin
    exact hjoin
  refine vals_move_last hs.free.le hen ?_ fun j hje _ => ?_
  · show (update (update c1 p _) pos _ e).val = _
    rw [update_of_ne (Ne.symm hpe)]
    by_cases hep : e = p
    · rw [← hep, update_self, hc1, update_self]
    · rw [update_of_ne hep, hc1, update_self]
  show (update (update c1 p _) pos _ j).val = _
  by_cases hjpos : j = pos
  · rw [hjpos, update_self]
  rw [update_of_ne hjpos]
  by_cases hjp : j = p
  · rw [hjp, update_self, hc₁j p (hjp ▸ hje)]
  · rw [update_of_ne hjp, hc₁j j hje]

section

variable (hMn : M (a.cell n).val = n)
include hMn

/-- The last bucket joins one that has values. -/
theorem move_joining (hMp : M (a.cell pos).val = pos) :
    ∃ a', joined a n e pos none = some a' ∧ Shrunk M' n a a' e := by
  obtain ⟨hposn, hpS⟩ := hs.pos_mem hpos hpe
  have hpf : f = pos := by rw [← hs.bucket_of_eq hMn, hpos]
  obtain ⟨l, hl⟩ := hs.table.cons_of_mem hs.last_mem hMn
  obtain ⟨B, hB⟩ := hs.table.cons_of_mem hpS hMp
  have hlast := hs.table.isChain hl
  have hfirst := hs.table.isChain hB
  have hdisj : ∀ j ∈ n :: l, j ∉ pos :: B := fun j hj hj' =>
    hposn.ne (((hfirst.mem j).1 hj').2.symm.trans ((hlast.mem j).1 hj).2)
  refine hs.join_behind hpos hpe hpf hlast.linked hfirst.linked.2 hfirst.linked.next (.inl rfl) ?_ ?_
  · have h1 := hlast.nodup
    have h2 := hfirst.nodup
    grind
  · intro j
    rw [hl, hB]
    simp only [mem_cons, mem_append]
    tauto

section

variable (hMp : M (a.cell pos).val = n)
include hMp

/-- The value in the cell where the last one belongs is of the last bucket as well, behind the last
value. -/
theorem last_chain : ∃ A B, ch n = n :: (A ++ pos :: B) ∧ Linked a.cell (n :: A) (some pos) ∧
      (a.cell pos).next = B.head? ∧ Linked a.cell B none := by
  obtain ⟨hposn, hpS⟩ := hs.pos_mem hpos hpe
  obtain ⟨l, hl⟩ := hs.table.cons_of_mem hs.last_mem hMn
  have hchain := hs.table.isChain hl
  have hmemp := (mem_cons.1 ((hchain.mem pos).2 ⟨hpS, hMp⟩)).resolve_left hposn.ne
  obtain ⟨A, B, rfl⟩ := append_of_mem hmemp
  have hlinked := hchain.linked
  rw [← cons_append, linked_append] at hlinked
  exact ⟨A, B, hl, by simpa using hlinked.1, by simpa using hlinked.2.1, hlinked.2.2⟩

/-- In that case the last value moves to the free cell, and the chain is rotated to start with the
other one. -/
theorem move_behind : ∃ a', joined a n e pos (some pos) = some a' ∧ Shrunk M' n a a' e := by
  have hpf : f = pos := by rw [← hs.bucket_of_eq hMn, hpos]
  obtain ⟨A, B, hl, hA, hnext, hB⟩ := hs.last_chain hpos hpe hMn hMp
  have hnodup := (hs.table.isChain hl).nodup
  have hnil : ch pos = [] := hs.table.eq_nil fun _ => by
    rw [hMp, ← hpf]
    exact hs.into.ne'
  refine hs.join_behind hpos hpe hpf hA hB hnext (.inr rfl) ?_ ?_
  · grind
  intro j
  rw [hnil, hl]
  simp only [mem_cons, mem_append, not_mem_nil, false_or]
  tauto

/-- Or the other value moves to the free cell, and the last one to the front of the chain. -/
theorem move_to_front : ∃ a', movelink (some pos) (some e) a.size
        ⟨a.size, update (update a.cell e (a.cell pos)) pos (a.cell n)⟩ pos
      = some a' ∧ Shrunk M' n a a' e := by
  have hen := hs.free.ne
  obtain rfl : f = pos := by rw [← hs.bucket_of_eq hMn, hpos]
  obtain ⟨A, B, hl, hA, -, -⟩ := hs.last_chain hpos hpe hMn hMp
  have hnodup := (hs.table.isChain hl).nodup
  have hsub : ∀ j ∈ n :: A, j ∈ (Finset.range (n + 1)).erase e := fun j hj =>
    hs.table.subset (i := n) (by grind)
  have hne : ∀ j ∈ A, j ≠ f ∧ j ≠ e ∧ j ≠ n := fun j hj =>
    ⟨by grind, (mem_range_erase.1 (hsub j (mem_cons_of_mem n hj))).1, by grind⟩
  set c1 := update (update a.cell e (a.cell f)) f (a.cell n) with hc1
  have hc₁f : c1 f = a.cell n := by rw [hc1, update_self]
  have hc₁j : ∀ j, j ≠ f → c1 j = update a.cell e (a.cell f) j := fun j hj => by
    rw [hc1, update_of_ne hj]
  have hc₁A : ∀ j ∈ A, c1 j = a.cell j := fun j hj => by
    rw [hc₁j j (hne j hj).1, update_of_ne (hne j hj).2.1]
  obtain ⟨l, p', hlast, hmove⟩ := hs.movelink_moved (some e) hA (by grind) hsub hc₁f
    (hs.lt_size hs.into.le) hc₁A fun j hj h' => (hne j hj).1 (by simpa using h'.symm)
  -- the predecessor of `f` is the last cell, whose value is in the cell `f` now, or not
  obtain ⟨l1, p, hl1⟩ : ∃ l1 p, n :: A = l1 ++ [p] :=
    ⟨_, _, (dropLast_append_getLast (cons_ne_nil n A)).symm⟩
  have hp : (p = n ∧ p' = f) ∨ (p ∈ A ∧ p' = p) := by
    have h1 := congrArg getLast? hlast
    have h2 := congrArg getLast? hl1
    simp only [getLast?_cons, getLast?_concat, Option.some.injEq] at h1 h2
    rw [← h1, ← h2]
    cases hx : A.getLast? with
    | none => simp
    | some x => simp [mem_of_getLast? hx]
  have hch : ch n = l1 ++ p :: f :: B := by
    rw [hl, ← cons_append, hl1, append_assoc]
    rfl
  refine ⟨_, hmove, hs.move_bucket hMn hpe hch rfl fun j hj => ?_⟩
  rcases hp with ⟨rfl, rfl⟩ | ⟨hpA, rfl⟩
  · by_cases hjf : j = p'
    · rw [hjf, update_self, update_self, update_self, hc₁f]
    · rw [update_of_ne hjf, update_of_ne hjf, update_of_ne hj, hc₁j j hjf]
  · rw [hc₁A p' hpA, update_of_ne (hne p' hpA).2.2.symm, update_of_ne hen.symm,
      update_comm (hne p' hpA).1]

end

end

omit hpos hpe in
/-- The function, when the free cell is not the last one. -/
theorem giveUp_of_free (front : Bool) : ∃ a' joined, giveUp M M' n front a e = some (a', joined) ∧
    Shrunk M' n a a' e ∧ (joined = true ↔
      (f ∈ (Finset.range (n + 1)).erase e ∧ M (a.cell f).val = f) ∧ M (a.cell n).val = n) := by
  have hset : ∀ x, a.set e x = some ⟨a.size, update a.cell e x⟩ := Cells.set_of_lt hs.free_lt
  obtain ⟨pos, hpos⟩ : ∃ pos, M' (a.cell n).val = pos := ⟨_, rfl⟩
  by_cases hpe : pos = e
  · subst hpe
    obtain ⟨-, hfpos⟩ := hs.last_bucket hpos fun h => absurd rfl h
    refine ⟨_, false, ?_, hs.move_to_free hpos, by simp [hfpos]⟩
    simp only [giveUp, if_neg hs.free.ne, Cells.get_of_lt hs.size, Option.bind_some, if_pos hpos, hset,
      Option.map_some]
  obtain ⟨hposn, hpS⟩ := hs.pos_mem hpos hpe
  have hposa : pos < a.size := hs.lt_size hposn.le
  -- the function in the cases that are left
  have hcall : giveUp M M' n front a e =
      if pos ≠ M' (a.cell pos).val ∨
          front = true ∧ M (a.cell n).val = M (a.cell pos).val ∧ M (a.cell n).val = n then
        (movelink (some pos) (some e) a.size
          ⟨a.size, update (update a.cell e (a.cell pos)) pos (a.cell n)⟩
          (M' (a.cell pos).val)).map fun a => (a, false)
      else if M (a.cell n).val = M (a.cell pos).val ∧ M (a.cell n).val ≠ n then
        (movelink (some n) (some e) a.size ⟨a.size, update a.cell e (a.cell n)⟩ pos).map
          fun a => (a, false)
      else
        (joined a n e pos (if M (a.cell n).val = M (a.cell pos).val then some pos else none)).map
          fun a' => (a', decide (M (a.cell n).val ≠ M (a.cell pos).val)) := by
    simp only [giveUp, if_neg hs.free.ne, Cells.get_of_lt hs.size, Option.bind_some, hpos, if_neg hpe,
      Cells.get_of_lt hposa, hset, Cells.set_mk hposa, joined, Option.map_bind, Function.comp_def]
  by_cases hother : M' (a.cell pos).val ≠ pos
  · obtain ⟨a', hmove, hshrunk⟩ := hs.move_displacing hpos hpe hother
    obtain ⟨-, hfpos⟩ := hs.last_bucket hpos fun _ => hother
    have hne : M (a.cell pos).val ≠ pos := fun h =>
      hother (by rw [hs.merge, h, if_neg hposn.ne])
    exact ⟨a', false, by rw [hcall, if_pos (.inl hother.symm), hmove, Option.map_some], hshrunk,
      by simp [hfpos, hne]⟩
  rw [not_not] at hother
  by_cases hMn : M (a.cell n).val = n
  · obtain rfl : f = pos := by rw [← hs.bucket_of_eq hMn, hpos]
    by_cases hMp : M (a.cell f).val = n
    · -- both values are in the last bucket
      cases front with
      | true =>
        obtain ⟨a', hmove, hshrunk⟩ := hs.move_to_front hpos hpe hMn hMp
        refine ⟨a', false, ?_, hshrunk, by simp [hMp, hposn.ne']⟩
        rw [hcall, if_pos (.inr ⟨rfl, hMn.trans hMp.symm, hMn⟩), hother, hmove, Option.map_some]
      | false =>
        obtain ⟨a', hmove, hshrunk⟩ := hs.move_behind hpos hpe hMn hMp
        refine ⟨a', false, ?_, hshrunk, by simp [hMp, hposn.ne']⟩
        simp [hcall, hother, hMn, hMp, hmove]
    · have hMp' : M (a.cell f).val = f := by rw [← hs.bucket_of_ne hMp, hother]
      obtain ⟨a', hmove, hshrunk⟩ := hs.move_joining hpos hpe hMn hMp'
      refine ⟨a', true, ?_, hshrunk, by simp [hpS, hMp', hMn]⟩
      simp [hcall, hother, hMn, hMp', hposn.ne', hmove]
  · -- the last value stays in its chain
    have hlast : M (a.cell n).val = pos := by rw [← hs.bucket_of_ne hMn, hpos]
    have hMpos := (hs.table.head_of_mem hs.last_mem hlast).2
    obtain ⟨a', hmove, hshrunk⟩ := hs.move_in_chain hpos hMn
    refine ⟨a', false, ?_, hshrunk, by simp [hMn]⟩
    simp [hcall, hother, hlast, hMpos, hposn.ne, hmove]

end Shrinking

/-- **The last cell is given up**, and its bucket joins the bucket `f`.  Two chains were joined if both
had values. -/
theorem giveUp_spec (M' : β → ℕ) (front : Bool) (hsize : n < a.size) (he : e ≤ n)
    (ht : Table a.cell M ((Finset.range (n + 1)).erase e) ch)
    (hM : n ≠ 0 → (∀ v, M' v = if M v = n then f else M v) ∧ f < n ∧ ∀ v, M' v < n) :
    ∃ a' joined, giveUp M M' n front a e = some (a', joined) ∧ Shrunk M' n a a' e ∧
      (occupied M (vals a.cell ((Finset.range (n + 1)).erase e))).card
        = (occupied M' (vals a.cell ((Finset.range (n + 1)).erase e))).card
          + if joined then 1 else 0 := by
  rcases Nat.eq_zero_or_pos n with rfl | hn
  · -- there was one cell
    obtain rfl : e = 0 := by omega
    exact ⟨a, false, if_pos rfl, ⟨rfl, ⟨ch, ht.remap (by simp)⟩, rfl⟩, by simp [vals, occupied]⟩
  obtain ⟨hmerge, hf, hlt⟩ := hM hn.ne'
  have hcard := card_occupied_join (V := vals a.cell ((Finset.range (n + 1)).erase e)) hf.ne
    fun v _ => hmerge v
  simp only [mem_occupied_vals ht] at hcard
  rcases he.lt_or_eq with hen | rfl
  · have hs : Shrinking M M' n a e f ch := ⟨hsize, hen, ht, hmerge, hf, hlt⟩
    obtain ⟨a', joined, hcall, hshrunk, hjoined⟩ := hs.giveUp_of_free front
    refine ⟨a', joined, hcall, hshrunk, ?_⟩
    rw [hcard]
    congr 1
    refine if_congr ?_ rfl rfl
    rw [hjoined]
    exact and_congr_right fun _ => and_iff_right hs.last_mem
  · -- the free cell is the last one
    refine ⟨a, false, if_pos rfl, ⟨rfl, ⟨ch, ?_⟩, by rw [range_erase_self]⟩, by simpa using hcard⟩
    have hdrop := ht.drop_bucket hmerge fun h => absurd rfl (mem_range_erase.1 h).1
    rwa [range_erase_self] at hdrop

end ChainShrink
