/-
**A chain is split into two.**

A table of chains grows by one cell and by one bucket.  The values of one old bucket that belong to
the new one are moved to it, in one walk along the chain that keeps a free cell at hand: the
last cell of each of the two chains is written only when the next value of its kind is found, or
when the walk is over.

Main definitions:

* `Splitting`, `splitLoop`, `splitClose`: the walk;
* `SplitInv`: its invariant.

Main results:

* `split_spec`: **the table after the split**.
-/

import MariaDb.ChainArray

set_option autoImplicit false

namespace ChainSplit

open Chains ChainArray Function List

variable {β : Type*}

/-- The variables of the walk: whether a value was found that stays or that moves to the new bucket
(`lowFind`, `highFind`), and whether the last cell of its kind is written already (`lowUsed`,
`highUsed`); `gpos` is the cell of the last value that stays, `gpos2` that of the last value that
moves. -/
structure Splitting (β : Type*) where
  array : Cells β
  empty : ℕ
  lowFind : Bool
  lowUsed : Bool
  highFind : Bool
  highUsed : Bool
  gpos : ℕ
  recd : β
  gpos2 : ℕ
  recd2 : β

open Splitting

/-- One round of the walk, for a value that stays. -/
def splitLow (s : Splitting β) (idx : ℕ) (pos : Cell β) : Option (Splitting β) :=
  if !s.lowFind then
    if s.highFind then
      some { s with
        lowFind := true, lowUsed := false, highUsed := false,
        gpos := s.empty, recd := pos.val, empty := idx }
    else
      some { s with lowFind := true, lowUsed := true, gpos := idx, recd := pos.val }
  else if !s.lowUsed then
    (s.array.set s.gpos ⟨some idx, s.recd⟩).map fun a =>
      { s with array := a, lowUsed := true, highUsed := false, gpos := idx, recd := pos.val }
  else some { s with gpos := idx, recd := pos.val }

/-- One round of the walk, for a value that moves to the new bucket. -/
def splitHigh (s : Splitting β) (idx : ℕ) (pos : Cell β) : Option (Splitting β) :=
  if !s.highFind then
    some { s with
      lowUsed := false, highFind := true, highUsed := false,
      gpos2 := s.empty, empty := idx, recd2 := pos.val }
  else if !s.highUsed then
    (s.array.set s.gpos2 ⟨some idx, s.recd2⟩).map fun a =>
      { s with array := a, lowUsed := false, highUsed := true, gpos2 := idx, recd2 := pos.val }
  else some { s with gpos2 := idx, recd2 := pos.val }

/-- The walk: it ends at once if the first value is not one of the bucket (`mine`). -/
def splitLoop (mine low : β → Bool) : ℕ → Splitting β → ℕ → Option (Splitting β)
  | 0, _, _ => none
  | fuel + 1, s, idx =>
    (s.array.get idx).bind fun pos =>
      if (!s.lowFind && !s.lowUsed && !s.highFind && !s.highUsed) && !mine pos.val then some s
      else
        (if low pos.val then splitLow s idx pos else splitHigh s idx pos).bind fun s =>
          (s.array.get idx).bind fun pos =>
            match pos.next with
            | none => some s
            | some next => splitLoop mine low fuel s next

/-- What follows the walk: the last cells are written. -/
def splitClose (s : Splitting β) : Option (Cells β) :=
  (if s.lowFind && !s.lowUsed then s.array.set s.gpos ⟨none, s.recd⟩ else some s.array).bind
    fun a => if s.highFind && !s.highUsed then a.set s.gpos2 ⟨none, s.recd2⟩ else some a

/-- The walk starts with nothing found and one free cell.  `val0` stands for what is not
initialised. -/
def Splitting.start (array : Cells β) (empty : ℕ) (val0 : β) : Splitting β :=
  ⟨array, empty, false, false, false, false, 0, val0, 0, val0⟩

/-! ### A chain with an open end -/

/-- The cells `L` are a chain of the values `V`, once `⟨none, r⟩` is written into the last one,
`g`. -/
structure Track (c : ℕ → Cell β) (L : List ℕ) (g : ℕ) (r : β) (V : List (β)) :
    Prop where
  last : L.getLast? = some g
  nodup : L.Nodup
  linked : Linked (update c g ⟨none, r⟩) L none
  vals : L.map (fun j => (update c g ⟨none, r⟩ j).val) = V

variable {c c' : ℕ → Cell β} {L : List ℕ} {g : ℕ} {r : β} {V : List (β)}

theorem Track.single (c : ℕ → Cell β) (g : ℕ) (r : β) : Track c [g] g r [r] where
  last := rfl
  nodup := nodup_singleton g
  linked := by simp
  vals := by simp

section

variable (ht : Track c L g r V)
include ht

theorem Track.mem : g ∈ L := mem_of_getLast? ht.last

/-- Only the other cells of the chain matter. -/
theorem Track.congr (hc : ∀ j ∈ L, j ≠ g → c' j = c j) : Track c' L g r V := by
  have hupd : ∀ j ∈ L, update c' g ⟨none, r⟩ j = update c g ⟨none, r⟩ j := by
    intro j hj
    by_cases hjg : j = g
    · rw [hjg, update_self, update_self]
    · rw [update_of_ne hjg, update_of_ne hjg, hc j hj hjg]
  exact
    { last := ht.last
      nodup := ht.nodup
      linked := ht.linked.congr fun j hj => by rw [hupd j hj]
      vals := by
        rw [← ht.vals]
        exact map_congr_left fun j hj => by rw [hupd j hj] }

theorem Track.frame {x : ℕ} (hx : x ∉ L) (y : Cell β) : Track (update c x y) L g r V :=
  ht.congr fun _ hj _ => update_of_ne (ne_of_mem_of_not_mem hj hx) _ _

/-- The chain goes on with the cell `x`. -/
theorem Track.extend {x : ℕ} {v : β} (hx : x ∉ L) :
    Track (update c g ⟨some x, r⟩) (L ++ [x]) x v (V ++ [v]) := by
  obtain ⟨l, rfl⟩ : ∃ l, L = l ++ [g] :=
    ⟨L.dropLast, (dropLast_append_getLast? g ht.last).symm⟩
  have hnodup := ht.nodup
  have hlinked := ht.linked
  have hgl : g ∉ l := by grind
  have hg : update (update c g ⟨some x, r⟩) x ⟨none, v⟩ g = ⟨some x, r⟩ := by
    rw [update_of_ne (ne_of_mem_of_not_mem ht.mem hx), update_self]
  -- the other cells of the chain are as before
  have hsame : ∀ j ∈ l, update (update c g ⟨some x, r⟩) x ⟨none, v⟩ j = update c g ⟨none, r⟩ j := by
    intro j hj
    have hjg : j ≠ g := ne_of_mem_of_not_mem hj hgl
    rw [update_of_ne (ne_of_mem_of_not_mem (mem_append_left _ hj) hx), update_of_ne hjg,
      update_of_ne hjg]
  rw [linked_append] at hlinked
  refine ⟨by simp, by grind, ?_, ?_⟩
  · rw [append_assoc, linked_append]
    refine ⟨?_, by rw [hg]; rfl, by simp⟩
    exact (by simpa using hlinked.1 : Linked _ l (some g)).congr fun j hj => by rw [hsame j hj]
  · rw [← ht.vals, map_append, map_append, map_append,
      map_congr_left fun j hj => by rw [hsame j hj]]
    simp [hg]

/-- The chain when its last cell is written. -/
theorem Track.close (hg : c' g = ⟨none, r⟩)
    (hc : ∀ j ∈ L, j ≠ g → c' j = c j) : Linked c' L none ∧ L.map (fun j => (c' j).val) = V := by
  have hself : update c' g ⟨none, r⟩ = c' := by rw [← hg, update_eq_self]
  have ht' := ht.congr hc
  exact ⟨hself ▸ ht'.linked, hself ▸ ht'.vals⟩

end

/-! ### The walk -/

/-- The invariant of the walk.  `P` are the cells of the chain that have been visited, and `Q` those
that are left; `L` are the cells of the values that stay and `H` those of the values that move.
One of the cells `P` and the new cell `n` is free. -/
structure SplitInv (c0 : ℕ → Cell β) (n f : ℕ) (low : β → Bool) (P Q : List ℕ)
    (s : Splitting β) (L H : List ℕ) : Prop where
  size : n < s.array.size
  perm : (s.empty :: (L ++ H)).Perm (n :: P)
  out : ∀ j, j ∉ P → j ≠ n → s.array.cell j = c0 j
  lowTrack : s.lowFind = true →
    Track s.array.cell L s.gpos s.recd ((P.map fun j => (c0 j).val).filter low)
  lowNone : s.lowFind = false → L = [] ∧ (P.map fun j => (c0 j).val).filter low = []
  highTrack : s.highFind = true →
    Track s.array.cell H s.gpos2 s.recd2 ((P.map fun j => (c0 j).val).filter (!low ·))
  highNone : s.highFind = false → H = [] ∧ (P.map fun j => (c0 j).val).filter (!low ·) = []
  lowUsed : s.lowUsed = true →
    s.lowFind = true ∧ s.highUsed = false ∧ s.array.cell s.gpos = ⟨Q.head?, s.recd⟩
  highUsed : s.highUsed = true → s.highFind = true ∧ s.array.cell s.gpos2 = ⟨Q.head?, s.recd2⟩
  lowHead : ∀ j, L.head? = some j → j = f
  highHead : ∀ j, H.head? = some j → j = n
  emptyNew : H = [] → s.empty = n
  emptyFirst : L = [] → H ≠ [] → s.empty = f

variable {c0 : ℕ → Cell β} {n f q : ℕ} {low : β → Bool} {P Q H : List ℕ} {s : Splitting β}

section

variable (hs : SplitInv c0 n f low P Q s L H)
include hs

/-- The cells of the two chains and the free one are those visited and the new one. -/
theorem SplitInv.mem_iff (j : ℕ) : j = s.empty ∨ j ∈ L ∨ j ∈ H ↔ j = n ∨ j ∈ P := by
  have hmem := hs.perm.mem_iff (a := j)
  simpa only [mem_cons, mem_append] using hmem

theorem SplitInv.untouched {j : ℕ} (hjP : j ∉ P)
    (hjn : j ≠ n) : j ∉ L ∧ j ∉ H ∧ s.array.cell j = c0 j := by
  have hnot := (hs.mem_iff j).not.2 (by tauto)
  simp only [not_or] at hnot
  exact ⟨hnot.2.1, hnot.2.2, hs.out j hjP hjn⟩

theorem SplitInv.disjoint (hnd : (n :: P).Nodup) : ∀ j ∈ L, j ∉ H := by
  have hperm := hs.perm.nodup_iff.2 hnd
  rw [nodup_cons, nodup_append] at hperm
  exact fun j hj hj' => hperm.2.2.2 j hj j hj' rfl

theorem SplitInv.lt (hlt : ∀ j ∈ P, j < n) {j : ℕ} (hj : j ∈ L ∨ j ∈ H) : j < s.array.size := by
  rcases (hs.mem_iff j).1 (.inr hj) with rfl | hP
  · exact hs.size
  · exact (hlt j hP).trans hs.size

end

theorem SplitInv.visited_nil (hs : SplitInv c0 n f low P Q s [] []) : P = [] := by
  have hlen := hs.perm.length_eq
  simpa using hlen

theorem filter_snoc_of_pos (c0 : ℕ → Cell β) (P : List ℕ) (q : ℕ) (t : β → Bool)
    (hq : t (c0 q).val = true) :
    ((P ++ [q]).map fun j => (c0 j).val).filter t
      = (P.map fun j => (c0 j).val).filter t ++ [(c0 q).val] := by
  simp [hq]

theorem filter_snoc_of_neg (c0 : ℕ → Cell β) (P : List ℕ) (q : ℕ) (t : β → Bool)
    (hq : t (c0 q).val = false) :
    ((P ++ [q]).map fun j => (c0 j).val).filter t = (P.map fun j => (c0 j).val).filter t := by
  simp [hq]

theorem Track.head_snoc (ht : Track c L g r V) (x : ℕ) : (L ++ [x]).head? = L.head? := by
  cases hL : L with
  | nil => exact absurd ht.mem (by simp [hL])
  | cons y l => rfl

variable {mine : β → Bool}

section

variable (hs : SplitInv c0 n f low P (q :: Q) s L H)
include hs

theorem SplitInv.perm_next : (q :: s.empty :: (L ++ H)).Perm (n :: (P ++ [q])) := by
  refine (hs.perm.cons q).trans ?_
  exact (List.Perm.swap n q P).trans ((perm_append_singleton q P).symm.cons n)

theorem SplitInv.out_next {j : ℕ} (hj : j ∉ P ++ [q]) (hjn : j ≠ n) :
    j ∉ L ∧ j ∉ H ∧ s.array.cell j = c0 j :=
  hs.untouched (fun h => hj (mem_append_left _ h)) hjn

variable (hnd : (n :: (P ++ q :: Q)).Nodup)
include hnd

theorem SplitInv.next_eq : q ∉ L ∧ q ∉ H ∧ s.array.cell q = c0 q :=
  hs.untouched (by grind) (by grind)

section

variable (hlt : ∀ j ∈ P, j < n) (hq : (c0 q).next = Q.head?) (hfirst : P = [] → q = f)
include hlt hq hfirst

/-- **One round for a value that stays.** -/
theorem splitLow_inv (hlow : low (c0 q).val = true) :
    ∃ s' L', splitLow s q (c0 q) = some s' ∧
      SplitInv c0 n f low (P ++ [q]) Q s' L' H ∧ s'.array.cell q = c0 q ∧
      s'.array.size = s.array.size := by
  obtain ⟨hqL, hqH, hlink⟩ := hs.next_eq hnd
  have hdisj := hs.disjoint (by grind)
  have hpos := filter_snoc_of_pos c0 P q low hlow
  have hneg := filter_snoc_of_neg c0 P q (!low ·) (by simp [hlow])
  cases hf : s.lowFind with
  | false =>
    obtain ⟨rfl, hnone⟩ := hs.lowNone hf
    rw [hnone, nil_append] at hpos
    cases hhf : s.highFind with
    | true =>
      have hH : H ≠ [] := ne_nil_of_mem (hs.highTrack hhf).mem
      have hstep : splitLow s q (c0 q) = some { s with
          lowFind := true, lowUsed := false, highUsed := false,
          gpos := s.empty, recd := (c0 q).val, empty := q } := by
        simp [splitLow, hf, hhf]
      refine ⟨_, [s.empty], hstep, ?_, hlink, rfl⟩
      exact
        { hs with
          perm := hs.perm_next
          out := fun j hj hjn => (hs.out_next hj hjn).2.2
          lowTrack := fun _ => hpos ▸ Track.single _ _ _
          lowNone := by simp
          highTrack := fun h => hneg ▸ hs.highTrack h
          highNone := fun h => hneg ▸ hs.highNone h
          lowUsed := by simp
          highUsed := by simp
          lowHead := fun j hj => by
            rw [← hs.emptyFirst rfl hH]
            simpa using hj.symm
          emptyNew := fun h => absurd h hH
          emptyFirst := by simp }
    | false =>
      obtain ⟨rfl, hnone'⟩ := hs.highNone hhf
      have hhu : s.highUsed = false :=
        Bool.eq_false_iff.2 fun hu => absurd (hs.highUsed hu).1 (by simp [hhf])
      have hstep : splitLow s q (c0 q) = some { s with
          lowFind := true, lowUsed := true, gpos := q, recd := (c0 q).val } := by
        simp [splitLow, hf, hhf]
      refine ⟨_, [q], hstep, ?_, hlink, rfl⟩
      exact
        { hs with
          perm := (List.Perm.swap q s.empty []).trans hs.perm_next
          out := fun j hj hjn => (hs.out_next hj hjn).2.2
          lowTrack := fun _ => hpos ▸ Track.single _ _ _
          lowNone := by simp
          highTrack := fun h => by simp [hhf] at h
          highNone := fun _ => ⟨rfl, hneg.trans hnone'⟩
          lowUsed := fun _ => ⟨rfl, hhu, by rw [hlink, ← hq]⟩
          highUsed := fun h => by simp [hhu] at h
          lowHead := fun j hj => by
            rw [← hfirst hs.visited_nil]
            simpa using hj.symm
          emptyFirst := by simp }
  | true =>
    have htrack := hs.lowTrack hf
    have hg : s.gpos < s.array.size := hs.lt hlt (.inl htrack.mem)
    have hgq : q ≠ s.gpos := (ne_of_mem_of_not_mem htrack.mem hqL).symm
    -- the cell of the last value that stays is written now, or it is right already
    have hinv : SplitInv c0 n f low (P ++ [q]) Q
        { s with
          array := ⟨s.array.size, update s.array.cell s.gpos ⟨some q, s.recd⟩⟩,
          lowUsed := true, highUsed := false, gpos := q, recd := (c0 q).val } (L ++ [q]) H :=
      { hs with
        perm := by
          refine List.Perm.trans ?_ hs.perm_next
          rw [append_assoc]
          exact (List.Perm.cons s.empty perm_middle).trans (List.Perm.swap _ _ _)
        out := fun j hj hjn => by
          obtain ⟨hjL, -, hout⟩ := hs.out_next hj hjn
          exact (update_of_ne (ne_of_mem_of_not_mem htrack.mem hjL).symm _ _).trans hout
        lowTrack := fun _ => hpos ▸ htrack.extend hqL
        lowNone := fun h => by simp [hf] at h
        highTrack := fun h => hneg ▸ (hs.highTrack h).frame (hdisj _ htrack.mem) _
        highNone := fun h => hneg ▸ hs.highNone h
        lowUsed := fun _ => ⟨hf, rfl, by simp only [update_of_ne hgq, hlink, ← hq]⟩
        highUsed := by simp
        lowHead := fun j hj => hs.lowHead j (by rwa [htrack.head_snoc] at hj)
        emptyFirst := by simp }
    cases hu : s.lowUsed with
    | false =>
      have hset := Cells.set_of_lt hg ⟨some q, s.recd⟩
      exact ⟨_, _, by simp [splitLow, hf, hu, hset], hinv, (update_of_ne hgq _ _).trans hlink, rfl⟩
    | true =>
      obtain ⟨-, hhu, hused⟩ := hs.lowUsed hu
      rw [head?_cons] at hused
      rw [← hused, update_eq_self] at hinv
      exact ⟨_, _, by simp [splitLow, hf, hu, hhu], hinv, hlink, rfl⟩

/-- **One round for a value that moves to the new bucket.** -/
theorem splitHigh_inv (hhigh : low (c0 q).val = false) :
    ∃ s' H', splitHigh s q (c0 q) = some s' ∧
      SplitInv c0 n f low (P ++ [q]) Q s' L H' ∧ s'.array.cell q = c0 q ∧
      s'.array.size = s.array.size := by
  obtain ⟨hqL, hqH, hlink⟩ := hs.next_eq hnd
  have hdisj := hs.disjoint (by grind)
  have hpos := filter_snoc_of_pos c0 P q (!low ·) (by simp [hhigh])
  have hneg := filter_snoc_of_neg c0 P q low hhigh
  cases hf : s.highFind with
  | false =>
    obtain ⟨rfl, hnone⟩ := hs.highNone hf
    rw [hnone, nil_append] at hpos
    have hstep : splitHigh s q (c0 q) = some { s with
        lowUsed := false, highFind := true, highUsed := false,
        gpos2 := s.empty, empty := q, recd2 := (c0 q).val } := by
      simp [splitHigh, hf]
    refine ⟨_, [s.empty], hstep, ?_, hlink, rfl⟩
    exact
      { hs with
        perm := by
          refine List.Perm.trans (List.Perm.cons q ?_) hs.perm_next
          rw [append_nil]
          exact perm_append_singleton _ _
        out := fun j hj hjn => (hs.out_next hj hjn).2.2
        lowTrack := fun h => hneg ▸ hs.lowTrack h
        lowNone := fun h => hneg ▸ hs.lowNone h
        highTrack := fun _ => hpos ▸ Track.single _ _ _
        highNone := by simp
        lowUsed := by simp
        highUsed := by simp
        highHead := fun j hj => by
          rw [← hs.emptyNew rfl]
          simpa using hj.symm
        emptyNew := by simp
        emptyFirst := fun hL _ => by
          subst hL
          exact hfirst hs.visited_nil }
  | true =>
    have htrack := hs.highTrack hf
    have hg : s.gpos2 < s.array.size := hs.lt hlt (.inr htrack.mem)
    have hgq : q ≠ s.gpos2 := (ne_of_mem_of_not_mem htrack.mem hqH).symm
    have hinv : SplitInv c0 n f low (P ++ [q]) Q
        { s with
          array := ⟨s.array.size, update s.array.cell s.gpos2 ⟨some q, s.recd2⟩⟩,
          lowUsed := false, highUsed := true, gpos2 := q, recd2 := (c0 q).val } L (H ++ [q]) :=
      { hs with
        perm := by
          refine List.Perm.trans ?_ hs.perm_next
          rw [← append_assoc]
          refine (List.Perm.cons s.empty ?_).trans (List.Perm.swap _ _ _)
          exact perm_append_singleton _ _
        out := fun j hj hjn => by
          obtain ⟨-, hjH, hout⟩ := hs.out_next hj hjn
          exact (update_of_ne (ne_of_mem_of_not_mem htrack.mem hjH).symm _ _).trans hout
        lowTrack := fun h => hneg ▸ (hs.lowTrack h).frame (fun hL => hdisj _ hL htrack.mem) _
        lowNone := fun h => hneg ▸ hs.lowNone h
        highTrack := fun _ => hpos ▸ htrack.extend hqH
        highNone := fun h => by simp [hf] at h
        lowUsed := by simp
        highUsed := fun _ => ⟨hf, by simp only [update_of_ne hgq, hlink, ← hq]⟩
        highHead := fun j hj => hs.highHead j (by rwa [htrack.head_snoc] at hj)
        emptyNew := by simp
        emptyFirst := fun hL _ => hs.emptyFirst hL (ne_nil_of_mem htrack.mem) }
    cases hu : s.highUsed with
    | false =>
      have hset := Cells.set_of_lt hg ⟨some q, s.recd2⟩
      exact ⟨_, _, by simp [splitHigh, hf, hu, hset], hinv, (update_of_ne hgq _ _).trans hlink, rfl⟩
    | true =>
      have hlu : s.lowUsed = false :=
        Bool.eq_false_iff.2 fun hl => absurd (hs.lowUsed hl).2.1 (by simp [hu])
      have hused := (hs.highUsed hu).2
      rw [head?_cons] at hused
      rw [← hused, update_eq_self] at hinv
      exact ⟨_, _, by simp [splitHigh, hf, hu, hlu], hinv, hlink, rfl⟩

end

variable (hlt : ∀ j ∈ P ++ q :: Q, j < n) (hhead : (P ++ q :: Q).head? = some f)
include hlt hhead

theorem splitLoop_round (fuel : ℕ) (hq : (c0 q).next = Q.head?) (hmine : mine (c0 q).val = true) :
    ∃ s' L' H', SplitInv c0 n f low (P ++ [q]) Q s' L' H' ∧ s'.array.size = s.array.size ∧
      splitLoop mine low (fuel + 1) s q =
        match Q.head? with
        | none => some s'
        | some next => splitLoop mine low fuel s' next := by
  obtain ⟨-, -, hlink⟩ := hs.next_eq hnd
  have hltP : ∀ j ∈ P, j < n := fun j hj => hlt j (mem_append_left _ hj)
  have hfirst : P = [] → q = f := by
    rintro rfl
    simpa using hhead
  have hqn : q < n := hlt q (by simp)
  have hget : s.array.get q = some (c0 q) := by
    rw [Cells.get_of_lt (hqn.trans hs.size), hlink]
  -- what follows the two kinds of rounds
  have hrest : ∀ s' L' H', SplitInv c0 n f low (P ++ [q]) Q s' L' H' →
      s'.array.cell q = c0 q → s'.array.get q = some ⟨Q.head?, (c0 q).val⟩ := by
    intro s' L' H' hs' hlink''
    rw [Cells.get_of_lt (hqn.trans hs'.size), hlink'', ← hq]
  simp only [splitLoop, hget, Option.bind_some, hmine, Bool.not_true, Bool.and_false,
    Bool.false_eq_true, if_false]
  cases hlow : low (c0 q).val with
  | true =>
    obtain ⟨s', L', hstep, hs', hlink'', hsize⟩ := splitLow_inv hs hnd hltP hq hfirst hlow
    refine ⟨s', L', H, hs', hsize, ?_⟩
    rw [if_pos rfl, hstep, Option.bind_some, hrest s' L' H hs' hlink'', Option.bind_some]
  | false =>
    obtain ⟨s', H', hstep, hs', hlink'', hsize⟩ := splitHigh_inv hs hnd hltP hq hfirst hlow
    refine ⟨s', L, H', hs', hsize, ?_⟩
    rw [if_neg Bool.false_ne_true, hstep, Option.bind_some, hrest s' L H' hs' hlink'',
      Option.bind_some]

/-- **The whole walk** along the chain of the bucket. -/
theorem splitLoop_spec (mine : β → Bool) (fuel : ℕ) (hlinked : Linked c0 (q :: Q) none)
    (hmine : ∀ j ∈ q :: Q, mine (c0 j).val = true) (hfuel : Q.length < fuel) :
    ∃ s' L' H', splitLoop mine low fuel s q = some s' ∧ s'.array.size = s.array.size ∧
      SplitInv c0 n f low (P ++ q :: Q) [] s' L' H' := by
  induction fuel generalizing P q Q s L H with
  | zero => omega
  | succ fuel ih =>
    obtain ⟨s', L', H', hs', hsize, hloop⟩ := splitLoop_round hs hnd hlt hhead fuel
      (by simpa using hlinked.1) (hmine q (by simp))
    rw [hloop, ← hsize]
    cases Q with
    | nil => exact ⟨s', L', H', rfl, rfl, hs'⟩
    | cons x Q =>
      have happ : P ++ q :: x :: Q = (P ++ [q]) ++ x :: Q := by simp
      rw [happ] at hnd hlt hhead ⊢
      exact ih hs' hnd hlt hhead hlinked.2 (fun j hj => hmine j (mem_cons_of_mem q hj))
        (by simp at hfuel; omega)

end

/-- The last cell of a chain is written, unless it is right already. -/
theorem close_track {a : Cells β} {found used : Bool}
    (htrack : found = true → Track a.cell L g r V) (hnone : found = false → L = [] ∧ V = [])
    (hsize : ∀ j ∈ L, j < a.size) (hused : used = true → a.cell g = ⟨none, r⟩) :
    ∃ a', (if found && !used then a.set g ⟨none, r⟩ else some a) = some a' ∧ a'.size = a.size ∧
      Linked a'.cell L none ∧ L.map (fun j => (a'.cell j).val) = V ∧
      ∀ j, j ∉ L → a'.cell j = a.cell j := by
  cases found with
  | false =>
    obtain ⟨rfl, rfl⟩ := hnone rfl
    exact ⟨a, by simp, rfl, linked_nil, rfl, fun _ _ => rfl⟩
  | true =>
    have ht := htrack rfl
    cases used with
    | true =>
      obtain ⟨hlinked, hvals⟩ := ht.close (hused rfl) fun _ _ _ => rfl
      exact ⟨a, by simp, rfl, hlinked, hvals, fun _ _ => rfl⟩
    | false =>
      refine ⟨⟨a.size, update a.cell g ⟨none, r⟩⟩, ?_, rfl, ht.linked, ht.vals, ?_⟩
      · simpa using Cells.set_of_lt (hsize g ht.mem) ⟨none, r⟩
      · intro j hj
        exact update_of_ne (ne_of_mem_of_not_mem ht.mem hj).symm _ _

/-- After the walk the last cells are written. -/
theorem splitClose_spec (hs : SplitInv c0 n f low P [] s L H) (hnd : (n :: P).Nodup)
    (hlt : ∀ j ∈ P, j < n) :
    ∃ a, splitClose s = some a ∧ a.size = s.array.size ∧ (∀ j, j ∉ P → j ≠ n → a.cell j = c0 j) ∧
      Linked a.cell L none ∧
      L.map (fun j => (a.cell j).val) = (P.map fun j => (c0 j).val).filter low ∧
      Linked a.cell H none ∧
      H.map (fun j => (a.cell j).val) = (P.map fun j => (c0 j).val).filter (!low ·) := by
  have hdisj := hs.disjoint hnd
  obtain ⟨a, ha, hasize, hlinked, hvals, hasame⟩ := close_track hs.lowTrack hs.lowNone
    (fun j hj => hs.lt hlt (.inl hj)) (fun h => (hs.lowUsed h).2.2)
  have hH : ∀ j ∈ H, a.cell j = s.array.cell j := fun j hj =>
    hasame j fun hjL => hdisj j hjL hj
  obtain ⟨b, hb, hbsize, hblinked, hbvals, hbsame⟩ := close_track (a := a)
    (fun h => (hs.highTrack h).congr fun j hj _ => hH j hj) hs.highNone
    (fun j hj => by rw [hasize]; exact hs.lt hlt (.inr hj))
    (fun h => (hH _ (hs.highTrack (hs.highUsed h).1).mem).trans (hs.highUsed h).2)
  have hL : ∀ j ∈ L, b.cell j = a.cell j := fun j hj => hbsame j (hdisj j hj)
  refine ⟨b, ?_, by rw [hbsize, hasize], ?_, ?_, ?_, hblinked, hbvals⟩
  · rw [splitClose, ha, Option.bind_some, hb]
  · intro j hjP hjn
    obtain ⟨hjL, hjH, hout⟩ := hs.untouched hjP hjn
    rw [hbsame j hjH, hasame j hjL, hout]
  · exact hlinked.congr fun j hj => by rw [hL j hj]
  · rw [← hvals]
    exact map_congr_left fun j hj => by rw [hL j hj]

/-! ### The split -/

theorem splitInv_start (a : Cells β) (ha : n < a.size) (low : β → Bool) (Q : List ℕ) (val0 : β) :
    SplitInv a.cell n f low [] Q (start a n val0) [] [] where
  size := ha
  perm := List.Perm.refl _
  out _ _ _ := rfl
  lowTrack := by simp [start]
  lowNone := by simp
  highTrack := by simp [start]
  highNone := by simp
  lowUsed := by simp [start]
  highUsed := by simp [start]
  lowHead := by simp
  highHead := by simp
  emptyNew _ := rfl
  emptyFirst := by simp

section

variable {M M' : β → ℕ} (hfn : f < n) (hM : ∀ v, M v = if M' v = n then f else M' v)
  (hlow : ∀ v, M v = f → (low v = true ↔ M' v ≠ n))
include hM

theorem bucket_of_ne {v : β} (hv : M v ≠ f) : M' v = M v := by
  grind

include hfn hlow

/-- The two kinds of values of the bucket that is split. -/
theorem low_iff {v : β} (hv : M v = f) :
    (low v = true ↔ M' v = f) ∧ ((!low v) = true ↔ M' v = n) := by
  have h1 := hM v
  have h2 := hlow v hv
  rw [hv] at h1
  by_cases hn : M' v = n
  · have hl : low v = false := by simpa [hn] using h2
    simp [hl, hn, hfn.ne']
  · rw [if_neg hn] at h1
    simp [h2.2 hn, ← h1, hfn.ne]

/-- The table after the split of a chain, in terms of the two new chains. -/
theorem table_split {ch : ℕ → List ℕ} {e : ℕ}
    (ht : Table c0 M (Finset.range n) ch) (hperm : (e :: (L ++ H)).Perm (n :: ch f))
    (hout : ∀ j, j ∉ ch f → j ≠ n → c' j = c0 j) (hL : Linked c' L none)
    (hLv : L.map (fun j => (c' j).val) = ((ch f).map fun j => (c0 j).val).filter low)
    (hH : Linked c' H none)
    (hHv : H.map (fun j => (c' j).val) = ((ch f).map fun j => (c0 j).val).filter (!low ·))
    (hLhead : ∀ j, L.head? = some j → j = f) (hHhead : ∀ j, H.head? = some j → j = n) :
    (∃ ch', Table c' M' ((Finset.range (n + 1)).erase e) ch') ∧
      vals c' ((Finset.range (n + 1)).erase e) = vals c0 (Finset.range n) := by
  have hP : ∀ j ∈ ch f, j < n ∧ M (c0 j).val = f := fun j hj => by
    simpa using (ht.mem f j).1 hj
  have hnd : (n :: ch f).Nodup :=
    nodup_cons.2 ⟨fun h => absurd (hP n h).1 (lt_irrefl n), ht.nodup f⟩
  have hnodup := hperm.nodup_iff.2 hnd
  have hmem : ∀ j, j = e ∨ j ∈ L ∨ j ∈ H ↔ j = n ∨ j ∈ ch f := by
    intro j
    simpa only [mem_cons, mem_append] using hperm.mem_iff (a := j)
  simp only [nodup_cons, mem_append, not_or, nodup_append] at hnodup
  obtain ⟨⟨heL, heH⟩, hLnd, hHnd, hdisj⟩ := hnodup
  -- the values of the two chains
  have hkind : ∀ (X : List ℕ) (t : β → Bool),
      X.map (fun j => (c' j).val) = ((ch f).map fun j => (c0 j).val).filter t →
      ∀ j ∈ X, M (c' j).val = f ∧ t (c' j).val = true := by
    intro X t hX j hj
    have hv : (c' j).val ∈ X.map fun j => (c' j).val := mem_map_of_mem hj
    rw [hX, mem_filter, mem_map] at hv
    obtain ⟨⟨x, hx, hxv⟩, ht⟩ := hv
    exact ⟨hxv ▸ (hP x hx).2, ht⟩
  have hLval : ∀ j ∈ L, M' (c' j).val = f := fun j hj =>
    (low_iff hfn hM hlow (hkind L low hLv j hj).1).1.1 (hkind L low hLv j hj).2
  have hHval : ∀ j ∈ H, M' (c' j).val = n := fun j hj =>
    (low_iff hfn hM hlow (hkind H _ hHv j hj).1).2.1 (hkind H _ hHv j hj).2
  have hnil : ch n = [] := ht.eq_nil fun h => absurd h (by simp)
  have hS : ∀ j, j ∈ (Finset.range (n + 1)).erase e ↔ j ∈ L ∨ j ∈ H ∨ (j < n ∧ j ∉ ch f) := by
    intro j
    have hj := hmem j
    have hjn := hP j
    grind
  have hrest : ∀ j, j < n → j ∉ ch f → c' j = c0 j ∧ M' (c0 j).val = M (c0 j).val := by
    intro j hjn hjP
    refine ⟨hout j hjP (by omega), bucket_of_ne hM fun h => ?_⟩
    exact hjP ((ht.mem f j).2 ⟨Finset.mem_range.2 hjn, h⟩)
  constructor
  · refine ⟨_, ht.rechain_pair hfn.ne hL hLnd hLhead hLval hH hHnd hHhead hHval ?_ ?_⟩
    · exact fun j hj hjf _ => hrest j (Finset.mem_range.1 hj) hjf
    · simpa [hnil] using hS
  have hLH : (L ++ H).Nodup := nodup_append.2 ⟨hLnd, hHnd, hdisj⟩
  rw [vals_split hLH fun j hj => (hS j).2 ((mem_append.1 hj).imp_right .inl),
    vals_split (ht.nodup f) fun j hj => Finset.mem_range.2 (hP j hj).1]
  congr 1
  · rw [Multiset.coe_eq_coe, map_append, hLv, hHv]
    exact filter_append_perm _ _
  have hset : ((Finset.range (n + 1)).erase e).filter (· ∉ L ++ H)
      = (Finset.range n).filter (· ∉ ch f) := by
    ext j
    grind
  rw [hset]
  refine vals_congr fun j hj => ?_
  rw [Finset.mem_filter, Finset.mem_range] at hj
  rw [(hrest j hj.1 hj.2).1]

end

theorem found_iff {found : Bool} (htrack : found = true → Track c L g r V)
    (hnone : found = false → L = [] ∧ V = []) : found = true ↔ V ≠ [] := by
  cases found with
  | false => simp [(hnone rfl).2]
  | true =>
    have ht := htrack rfl
    have hmem : (update c g ⟨none, r⟩ g).val ∈ V := by
      rw [← ht.vals]
      exact mem_map_of_mem ht.mem
    simp [ne_nil_of_mem hmem]

/-- **The split.**  The array has room for one cell more than the table; a cell `e` is free after
it.  The flags tell whether the old and the new bucket have values. -/
theorem split_spec {M M' : β → ℕ} {ch : ℕ → List ℕ} (mine low : β → Bool) (a : Cells β) (val0 : β)
    (ht : Table a.cell M (Finset.range n) ch) (ha : n < a.size) (hfn : f < n)
    (hM : ∀ v, M v = if M' v = n then f else M' v) (hlow : ∀ v, M v = f → (low v = true ↔ M' v ≠ n))
    (hmine : ∀ v, mine v = true ↔ M v = f) :
    ∃ s a', splitLoop mine low a.size (start a n val0) f = some s ∧
      splitClose s = some a' ∧ a'.size = a.size ∧ s.empty < n + 1 ∧
      (∃ ch', Table a'.cell M' ((Finset.range (n + 1)).erase s.empty) ch') ∧
      vals a'.cell ((Finset.range (n + 1)).erase s.empty) = vals a.cell (Finset.range n) ∧
      ((s.lowFind && s.highFind) = true ↔
        f ∈ occupied M' (vals a.cell (Finset.range n)) ∧
        n ∈ occupied M' (vals a.cell (Finset.range n))) := by
  have hrange := range_erase_self n
  have hoccf : ∀ j, j < n → M' (a.cell j).val ∈ occupied M' (vals a.cell (Finset.range n)) :=
    fun j hj => mem_occupied.2 ⟨_, Multiset.mem_map_of_mem _ (Finset.mem_range.2 hj), rfl⟩
  -- a value in one of the two buckets is one of the old bucket
  have hold : ∀ i, i = f ∨ i = n → i ∈ occupied M' (vals a.cell (Finset.range n)) →
      ∃ j ∈ ch f, M' (a.cell j).val = i := by
    intro i hi hocc
    obtain ⟨v, hv, hMv⟩ := mem_occupied.1 hocc
    obtain ⟨j, hj, rfl⟩ := Multiset.mem_map.1 hv
    refine ⟨j, (ht.mem f j).2 ⟨hj, ?_⟩, hMv⟩
    rw [hM, hMv]
    rcases hi with rfl | rfl
    · rw [if_neg hfn.ne]
    · rw [if_pos rfl]
  by_cases hnil : ch f = []
  · -- the bucket is empty, and its cell has a value of another bucket
    have hother : ∀ j, j < n → M (a.cell j).val ≠ f := by
      intro j hj hMj
      exact ne_nil_of_mem ((ht.mem f j).2 ⟨Finset.mem_range.2 hj, hMj⟩) hnil
    have hmask : mine (a.cell f).val = false := by
      rw [← Bool.not_eq_true, hmine]
      exact hother f hfn
    obtain ⟨fuel, hfuel⟩ : ∃ fuel, a.size = fuel + 1 := ⟨a.size - 1, by omega⟩
    refine ⟨start a n val0, a, ?_, ?_, rfl, Nat.lt_succ_self n, ?_, ?_, ?_⟩
    · rw [hfuel]
      simp [splitLoop, start, Cells.get_of_lt (hfn.trans ha), hmask]
    · simp [splitClose, start]
    · show ∃ ch', Table a.cell M' ((Finset.range (n + 1)).erase n) ch'
      rw [hrange]
      exact ⟨ch, ht.remap fun j hj => bucket_of_ne hM (hother j (Finset.mem_range.1 hj))⟩
    · show vals a.cell ((Finset.range (n + 1)).erase n) = _
      rw [hrange]
    · constructor
      · simp [start]
      · rintro ⟨h, -⟩
        obtain ⟨j, hj, -⟩ := hold f (.inl rfl) h
        exact absurd hnil (ne_nil_of_mem hj)
  obtain ⟨Q, hQ⟩ := ht.cons_of_ne_nil hnil
  have hlt : ∀ j ∈ ch f, j < n := fun j hj => Finset.mem_range.1 (ht.subset hj)
  have hnd : (n :: ch f).Nodup :=
    nodup_cons.2 ⟨fun h => absurd (hlt n h) (lt_irrefl n), ht.nodup f⟩
  have hlinked := ht.linked f
  have hlen : (ch f).length ≤ n := by
    have := ht.length_le f
    rwa [Finset.card_range] at this
  obtain ⟨s, L, H, hloop, hasize, hs⟩ := splitLoop_spec
    (splitInv_start a ha low (f :: Q) val0) (by rw [nil_append, ← hQ]; exact hnd)
    (by rw [nil_append, ← hQ]; exact hlt) rfl mine a.size (by rw [← hQ]; exact hlinked)
    (fun j hj => (hmine _).2 ((ht.mem f j).1 (by rw [hQ]; exact hj)).2)
    (by rw [hQ, length_cons] at hlen; omega)
  rw [nil_append, ← hQ] at hs
  obtain ⟨a', hclose, hsize, hout, hLl, hLv, hHl, hHv⟩ := splitClose_spec hs hnd hlt
  have hempty : s.empty < n + 1 := by
    rcases (hs.mem_iff s.empty).1 (.inl rfl) with h | h
    · omega
    · have := hlt _ h
      omega
  obtain ⟨htab, hvals⟩ := table_split hfn hM hlow ht hs.perm hout hLl hLv hHl hHv hs.lowHead
    hs.highHead
  refine ⟨s, a', hloop, hclose, hsize.trans hasize, hempty, htab, hvals, ?_⟩
  have hbucket : ∀ j ∈ ch f, M (a.cell j).val = f := fun j hj => ((ht.mem f j).1 hj).2
  have hlowFind : s.lowFind = true ↔ ∃ j ∈ ch f, low (a.cell j).val = true := by
    rw [found_iff hs.lowTrack hs.lowNone]
    simp
  have hhighFind : s.highFind = true ↔ ∃ j ∈ ch f, (!low (a.cell j).val) = true := by
    rw [found_iff hs.highTrack hs.highNone]
    simp
  rw [Bool.and_eq_true, hlowFind, hhighFind]
  have hval := fun j (hj : j ∈ ch f) => low_iff hfn hM hlow (hbucket j hj)
  constructor
  · rintro ⟨⟨i, hi, hilow⟩, j, hj, hjhigh⟩
    have h1 := hoccf i (hlt i hi)
    have h2 := hoccf j (hlt j hj)
    rw [(hval i hi).1.1 hilow] at h1
    rw [(hval j hj).2.1 hjhigh] at h2
    exact ⟨h1, h2⟩
  · rintro ⟨h1, h2⟩
    obtain ⟨i, hi, hMi⟩ := hold f (.inl rfl) h1
    obtain ⟨j, hj, hMj⟩ := hold n (.inr rfl) h2
    exact ⟨⟨i, hi, (hval i hi).1.2 hMi⟩, j, hj, (hval j hj).2.2 hMj⟩

end ChainSplit
