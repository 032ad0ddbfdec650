/-
**The frame bounds of ROWS frames: where the cursors are and which rows they hand over.**

`MariaDb/WindowFrame.lean` gives the cursors of a ROWS frame.  Here each of them is followed
through a partition.  A bound that lies `a` rows behind (or, for a negative number, before) the
current row stands at that row as long as it is in the partition; what differs between the classes
is what happens at the two ends of a partition.  The bottom bound hands every row to the aggregate
function once, when the bound reaches it.  The top bound takes every row away once, but a bound
`n FOLLOWING` that has reached the last row of the partition takes that row away again for every
row that comes.

Main definitions:

* `Table.Part`: the rows from one number up to another are a partition;
* `BottomAt`, `TopAt`: the state of a bound when the current row is given;
* `bottomEnd`, `topStart`: the bounds of the frame as row numbers, brought into the partition;
* `removedAtRow`, `removedAtStart`: the rows that the top bound takes away.

Main results:

* `bottom_start`, `bottom_row`: the rows that the bottom bound hands over;
* `top_start`, `top_row`: the rows that the top bound takes away;
* `scan_spec`: the scan between the two bounds reads exactly the rows of the frame.
-/

import MariaDb.WindowFrame
import MariaDb.SlidingSum

set_option autoImplicit false

namespace Window

open SlidingSum FrameCursor Table Nat

variable {R κ σ V : Type}

/-! ### Partitions -/

/-- The value of the partition columns in a row. -/
def Table.keyAt (t : Table R κ) (i : ℕ) : Option κ := (t.rows[i]?).map t.key

variable {t : Table R κ} {i pos q n : ℕ} {r : R} {c : FrameCursor κ} {shift : Option ℤ}
  {w : Work R σ}

theorem Table.keyAt_of_row (h : t.rows[i]? = some r) : t.keyAt i = some (t.key r) := by
  simp [keyAt, h]

theorem Table.exists_row (h : i < t.rows.length) :
    ∃ r, t.rows[i]? = some r := ⟨_, List.getElem?_eq_getElem h⟩

/-- The rows from `p` up to `e` are one partition of the sorted rows. -/
structure Table.Part (t : Table R κ) (p e : ℕ) : Prop where
  lt : p < e
  le : e ≤ t.rows.length
  same : ∀ j, p ≤ j → j < e → t.keyAt j = t.keyAt p
  stop : e = t.rows.length ∨ t.keyAt e ≠ t.keyAt p
  start : p = 0 ∨ t.keyAt (p - 1) ≠ t.keyAt p

/-- A row that starts a partition has a partition. -/
theorem Table.exists_part {p : ℕ} (hp : p < t.rows.length)
    (hstart : p = 0 ∨ t.keyAt (p - 1) ≠ t.keyAt p) : ∃ e, t.Part p e := by
  classical
  have hex : ∃ e, p < e ∧ (e = t.rows.length ∨ t.keyAt e ≠ t.keyAt p) :=
    ⟨t.rows.length, hp, .inl rfl⟩
  refine ⟨Nat.find hex, (Nat.find_spec hex).1, Nat.find_min' hex ⟨hp, .inl rfl⟩, ?_,
    (Nat.find_spec hex).2, hstart⟩
  intro j hpj hj
  rcases eq_or_lt_of_le hpj with rfl | hlt
  · rfl
  · by_contra hne
    exact Nat.find_min hex hj ⟨hlt, .inr hne⟩

/-! ### The cursors over the rows -/

theorem Table.fetch_row (h : t.rows[pos]? = some r) (record : R) :
    t.fetch pos record = (false, r) := by
  have hlt : pos < t.rows.length := (List.getElem?_eq_some_iff.1 h).1
  have heof : t.atEof pos = false := by
    unfold atEof
    split <;> simp <;> omega
  simp [fetch, heof, h]

theorem Table.fetch_length (t : Table R κ) (record : R) :
    t.fetch t.rows.length record = (true, record) := by
  simp [fetch, atEof]

theorem Table.next_of_lt (h : pos < t.rows.length) : t.next pos = (false, pos + 1) := by
  have heof : t.atEof pos = false := by
    unfold atEof
    split <;> simp <;> omega
  simp [next, heof]

theorem Table.moveTo_of_lt (h : pos < t.rows.length) : t.moveTo pos = pos := by
  unfold moveTo
  split
  · rfl
  · omega

theorem Table.read_row (h : t.rows[pos]? = some r) (w : Work R σ) : t.read pos w = ⟨r, w.sum⟩ := by
  simp [read, fetch_row h]

/-! ### What is handed to the function -/

/-- The function after some rows were added to it, unless the cursor only moves. -/
def added (item : ItemSum R σ V) (noAction : Bool) (l : List R) (s : σ) : σ :=
  if noAction then s else l.foldl (fun s r => item.add r s) s

/-- The function after some rows were removed from it, unless the cursor only moves. -/
def removed (item : ItemSum R σ V) (noAction : Bool) (l : List R) (s : σ) : σ :=
  if noAction then s else l.foldl (fun s r => item.remove r s) s

section Hand

variable (item : ItemSum R σ V) (noAction : Bool)

variable (r : R) (l : List R) (s : σ)

@[simp] theorem added_nil : added item noAction [] s = s := by
  simp [added]

@[simp] theorem removed_nil : removed item noAction [] s = s := by
  simp [removed]

theorem added_cons :
    added item noAction (r :: l) s = added item noAction l (added item noAction [r] s) := by
  cases noAction <;> rfl

theorem removed_cons :
    removed item noAction (r :: l) s = removed item noAction l (removed item noAction [r] s) := by
  cases noAction <;> rfl

/-- A row is added to what the cursor before left, unless the cursor only moves. -/
theorem added_eq_of {noAction : Bool} {l : List R} {s s1 : σ} (hs : noAction = false → s = s1) :
    added item noAction l s = if noAction then s else added item noAction l s1 := by
  cases noAction with
  | true => rfl
  | false => rw [hs rfl]; rfl

theorem addValueToItems_eq :
    addValueToItems item noAction ⟨r, s⟩ = ⟨r, added item noAction [r] s⟩ := by
  cases noAction <;> rfl

theorem removeValueFromItems_eq :
    removeValueFromItems item noAction ⟨r, s⟩ = ⟨r, removed item noAction [r] s⟩ := by
  cases noAction <;> rfl

end Hand

/-! ### The cursor that stays in the partition -/

variable {t : Table R κ} {item : ItemSum R σ V} {noAction : Bool} {p e : ℕ}

/-- The cursor after it was asked to stand at row `q`: at the last row of the partition if `q` is
behind it. -/
structure PartitionCursor.InPart (t : Table R κ) (p e q : ℕ) (c : PartitionCursor κ) : Prop where
  pos : c.pos = min q (e - 1)
  tracker : c.boundTracker = t.keyAt p
  eop : c.endOfPartition = decide (e ≤ q)

theorem PartitionCursor.InPart.past {c : PartitionCursor κ} {q' : ℕ} (hc : c.InPart t p e q)
    (hq : e ≤ q) (hq' : e ≤ q') : c.InPart t p e q' := by
  refine ⟨?_, hc.tracker, ?_⟩
  · rw [hc.pos]
    omega
  · rw [hc.eop, decide_eq_true hq, decide_eq_true hq']

theorem PartitionCursor.InPart.row {c : PartitionCursor κ} (h : t.Part p e) (hc : c.InPart t p e q) :
    ∃ r, t.rows[c.pos]? = some r ∧ t.rows[min q (e - 1)]? = some r := by
  have hlt := h.lt
  have hle := h.le
  rw [hc.pos]
  obtain ⟨r, hr⟩ := exists_row (t := t) (i := min q (e - 1)) (by omega)
  exact ⟨r, hr, hr⟩

/-- The rows that the loop of a top bound takes away, from row `q` on. -/
def loopRows (t : Table R κ) (e q n : ℕ) : List R :=
  (List.range' q n).filterMap fun j => t.rows[min j (e - 1)]?

theorem loopRows_succ (hr : t.rows[min q (e - 1)]? = some r) :
    loopRows t e q (n + 1) = r :: loopRows t e (q + 1) n := by
  rw [loopRows, List.range'_succ,
    List.filterMap_cons_some (f := fun j => t.rows[min j (e - 1)]?) hr, loopRows]

theorem decide_or_succ (e q : ℕ) : (decide (e ≤ q) || decide (e ≤ q + 1)) = decide (e ≤ q + 1) := by
  rw [← Bool.decide_or, decide_eq_decide]
  omega

section Loops

variable [DecidableEq κ]

theorem PartitionCursor.onNextPartition_inPart (h : t.Part p e) (c : PartitionCursor κ) {record : R}
    (hr : t.rows[p]? = some record) : (c.onNextPartition t p record).InPart t p e p := by
  have hlt := h.lt
  have hle := h.le
  refine ⟨?_, (keyAt_of_row hr).symm, (decide_eq_false (by omega)).symm⟩
  change t.moveTo p = _
  rw [moveTo_of_lt (by omega)]
  omega

/-- **One step in the partition.**  It fails at the last row, and then the cursor stays. -/
theorem PartitionCursor.InPart.next {c : PartitionCursor κ} (h : t.Part p e) (hc : c.InPart t p e q)
    (hq : p ≤ q) (record : R) :
    ∃ c' r', c.next t record = (decide (e ≤ q + 1), c', r') ∧ c'.InPart t p e (q + 1) ∧
      (q + 1 < e → t.rows[q + 1]? = some r') := by
  have hle := h.le
  rcases lt_or_ge q e with hqe | hqe
  · have heop : c.endOfPartition = false := by rw [hc.eop]; exact decide_eq_false (by omega)
    have hpos : c.pos = q := by rw [hc.pos]; omega
    have hnext : t.next c.pos = (false, q + 1) := by
      rw [hpos]
      exact next_of_lt (by omega)
    -- the cursor goes back when the partition ends behind row `q`
    have hback : q + 1 = e → PartitionCursor.InPart t p e (q + 1)
        { c with
          pos := prev (q + 1)
          endOfPartition := true } := by
      intro heq
      refine ⟨?_, hc.tracker, (decide_eq_true (by omega)).symm⟩
      simp only [prev]
      split <;> omega
    rcases lt_or_ge (q + 1) t.rows.length with hrow | hrow
    · obtain ⟨r, hr⟩ := exists_row hrow
      have hfetch := fetch_row hr record
      rcases lt_or_ge (q + 1) e with hin | hout
      · have hkey : c.boundTracker = some (t.key r) := by
          rw [hc.tracker, ← h.same (q + 1) (by omega) hin, keyAt_of_row hr]
        refine ⟨{ c with pos := q + 1 }, r, ?_, ⟨?_, hc.tracker, ?_⟩, fun _ => hr⟩
        · simp [PartitionCursor.next, heop, hnext, hfetch, hkey, hin]
        · change q + 1 = _
          omega
        · rw [heop]
          exact (decide_eq_false (by omega)).symm
      · have heq : q + 1 = e := by omega
        have hkey : c.boundTracker ≠ some (t.key r) := by
          rw [hc.tracker, ← keyAt_of_row hr, heq]
          rcases h.stop with hstop | hstop
          · omega
          · exact hstop.symm
        refine ⟨_, r, ?_, hback heq, fun hlt' => absurd hlt' (by omega)⟩
        simp [PartitionCursor.next, heop, hnext, hfetch, hkey, hout]
    · have heq : q + 1 = t.rows.length := by omega
      have hfetch : t.fetch (q + 1) record = (true, record) := by
        rw [heq]
        exact fetch_length t record
      refine ⟨_, record, ?_, hback (by omega), fun hlt' => absurd hlt' (by omega)⟩
      have hout : e ≤ q + 1 := by omega
      simp [PartitionCursor.next, heop, hnext, hfetch, hout]
  · have heop : c.endOfPartition = true := by rw [hc.eop]; exact decide_eq_true hqe
    refine ⟨c, record, ?_, hc.past hqe (by omega), fun hlt' => absurd hlt' (by omega)⟩
    have hout : e ≤ q + 1 := by omega
    simp [PartitionCursor.next, heop, hout]

/-! ### The loops -/

variable (item noAction) (h : t.Part p e)
include h

/-- `next_part_top` takes the rows before the bound away, and the last row of the partition again
for every row that is missing. -/
theorem nextPartTop_spec (n : ℕ) :
    ∀ {q : ℕ} {c : PartitionCursor κ} (w : Work R σ), p ≤ q → c.InPart t p e q →
      ∃ c' r', nextPartTop t item noAction n c (decide (e ≤ q)) w =
          (c', decide (e ≤ q + n), ⟨r', removed item noAction (loopRows t e q n) w.sum⟩) ∧
        c'.InPart t p e (q + n) := by
  induction n with
  | zero =>
    intro q c w hq hc
    exact ⟨c, w.record, by simp [nextPartTop, loopRows], hc⟩
  | succ n ih =>
    intro q c w hq hc
    obtain ⟨r, hpos, hr⟩ := hc.row h
    obtain ⟨c', r', hnext, hc', -⟩ := hc.next h hq r
    obtain ⟨c'', r'', hloop, hc''⟩ := ih
      (⟨r', removed item noAction [r] w.sum⟩ : Work R σ) (by omega) hc'
    rw [show q + 1 + n = q + (n + 1) by omega] at hloop hc''
    refine ⟨c'', r'', ?_, hc''⟩
    rw [loopRows_succ hr, removed_cons, ← hloop]
    simp [nextPartTop, fetch_row hpos, removeValueFromItems_eq, hnext, decide_or_succ]

/-- The loop of `next_part_bottom` hands the rows behind row `q` over, up to the bound or the end
of the partition. -/
theorem nextPartBottomLoop_spec (n : ℕ) :
    ∀ {q : ℕ} {c : PartitionCursor κ} (w : Work R σ), p ≤ q → q < e → c.InPart t p e q →
      ∃ c' r', nextPartBottomLoop t item noAction n c false w =
          (c', decide (e ≤ q + n),
            ⟨r', added item noAction (slice t.rows (q + 1) (min (q + n + 1) e)) w.sum⟩) ∧
        c'.InPart t p e (q + n) := by
  induction n with
  | zero =>
    intro q c w hq hqe hc
    refine ⟨c, w.record, ?_, hc⟩
    rw [slice_of_le (by omega), added_nil, decide_eq_false (by omega : ¬ e ≤ q + 0)]
    rfl
  | succ n ih =>
    intro q c w hq hqe hc
    obtain ⟨c', r', hnext, hc', hrow⟩ := hc.next h hq w.record
    by_cases hout : e ≤ q + 1
    · refine ⟨c', r', ?_, hc'.past hout (by omega)⟩
      rw [slice_of_le (by omega), added_nil, decide_eq_true (by omega : e ≤ q + (n + 1))]
      simp [nextPartBottomLoop, hnext, hout]
    obtain ⟨c'', r'', hloop, hc''⟩ := ih
      (⟨r', added item noAction [r'] w.sum⟩ : Work R σ) (by omega) (by omega) hc'
    rw [show q + 1 + n = q + (n + 1) by omega] at hloop hc''
    refine ⟨c'', r'', ?_, hc''⟩
    rw [slice_cons (hrow (by omega)) (by omega), added_cons, ← hloop]
    simp [nextPartBottomLoop, hnext, hout, addValueToItems_eq]

/-- The walk to the end of the partition ends there. -/
theorem walkToEnd_spec (fuel : ℕ) :
    ∀ {q : ℕ} {c : PartitionCursor κ} (w : Work R σ), p ≤ q → q < e → e ≤ q + fuel →
      c.InPart t p e q →
      ∃ c' r', walkToEnd t item noAction fuel c w =
          (c', ⟨r', added item noAction (slice t.rows (q + 1) e) w.sum⟩) ∧ c'.pos = e - 1 := by
  induction fuel with
  | zero =>
    intro q c w _ hqe hfuel
    omega
  | succ fuel ih =>
    intro q c w hq hqe hfuel hc
    obtain ⟨c', r', hnext, hc', hrow⟩ := hc.next h hq w.record
    by_cases hout : e ≤ q + 1
    · refine ⟨c', r', ?_, by rw [hc'.pos]; omega⟩
      rw [slice_of_le hout, added_nil]
      simp [walkToEnd, hnext, hout]
    obtain ⟨c'', r'', hloop, hc''⟩ := ih
      (⟨r', added item noAction [r'] w.sum⟩ : Work R σ) (by omega) (by omega) (by omega) hc'
    refine ⟨c'', r'', ?_, hc''⟩
    rw [slice_cons (hrow (by omega)) (by omega), added_cons, ← hloop]
    simp [walkToEnd, hnext, hout, addValueToItems_eq]

end Loops

/-! ### The bounds in a partition -/

/-- The row number behind the last row of the frame, in the partition from `p` to `e`, for a bottom
bound `b` rows behind the current row `i`; `none` is UNBOUNDED FOLLOWING. -/
def bottomEnd (p e : ℕ) (shift : Option ℤ) (i : ℕ) : ℕ :=
  match shift with
  | none => e
  | some b => clip p e (i + b + 1)

/-- The row number of the first row of the frame, for a top bound `a` rows behind the current
row; `none` is UNBOUNDED PRECEDING. -/
def topStart (p e : ℕ) (shift : Option ℤ) (i : ℕ) : ℕ :=
  match shift with
  | none => p
  | some a => clip p e (i + a)

theorem bottomEnd_le (h : p ≤ e) (shift : Option ℤ) (i : ℕ) : bottomEnd p e shift i ≤ e := by
  cases shift with
  | none => exact le_rfl
  | some b => exact clip_le h _

theorem le_topStart (p e : ℕ) (shift : Option ℤ) (i : ℕ) : p ≤ topStart p e shift i := by
  cases shift with
  | none => exact le_rfl
  | some a => exact le_clip _ _ _

theorem topStart_le_iff {j : ℕ} (hj : p ≤ j) (hje : j < e) :
    topStart p e shift i ≤ j ↔ ∀ a ∈ shift, (i : ℤ) + a ≤ j := by
  cases shift with
  | none => simp [topStart, hj]
  | some a => simpa [topStart] using clip_le_iff hj hje (i + a)

theorem lt_bottomEnd_iff {j : ℕ} (hj : p ≤ j) (hje : j < e) :
    j < bottomEnd p e shift i ↔ ∀ b ∈ shift, (j : ℤ) ≤ i + b := by
  cases shift with
  | none => simp [bottomEnd, hje]
  | some b =>
    simp only [bottomEnd, lt_clip_iff hj hje, Option.mem_def, Option.some.injEq, forall_eq']
    omega

/-- The bottom bound reaches the row `j` of the partition. -/
theorem slice_bottomEnd_single {b : ℤ} {j : ℕ} (hr : t.rows[j]? = some r) (hj : (j : ℤ) = i + b + 1)
    (hpj : p ≤ j) (hje : j < e) :
    slice t.rows (bottomEnd p e (some b) i) (bottomEnd p e (some b) (i + 1)) = [r] := by
  have h1 : bottomEnd p e (some b) i = j := by simp only [bottomEnd, clip]; omega
  have h2 : bottomEnd p e (some b) (i + 1) = j + 1 := by simp only [bottomEnd, clip]; omega
  rw [h1, h2, slice_single hr]

/-- The bottom bound is still before the partition, or behind it already. -/
theorem slice_bottomEnd_nil {b : ℤ} (hpe : p ≤ e) (h : (i : ℤ) + b + 2 ≤ p ∨ (e : ℤ) ≤ i + b + 1) :
    slice t.rows (bottomEnd p e (some b) i) (bottomEnd p e (some b) (i + 1)) = [] := by
  have h1 : bottomEnd p e (some b) (i + 1) = bottomEnd p e (some b) i := by
    simp only [bottomEnd, clip]
    omega
  rw [h1, slice_self]

/-- The rows that the top bound takes away in the first row of a partition. -/
def removedAtStart (t : Table R κ) (p e : ℕ) (shift : Option ℤ) : List R :=
  match shift with
  | none => []
  | some a => loopRows t e p a.toNat

/-- The row that the top bound takes away when the current row has become row `i`: the one before
the bound, or the last row of the partition if the bound is behind that. -/
def removedAtRow (t : Table R κ) (p e : ℕ) (shift : Option ℤ) (i : ℕ) : List R :=
  match shift with
  | none => []
  | some a => if (p : ℤ) ≤ i + a - 1 then loopRows t e (i + a - 1).toNat 1 else []

theorem removedAtRow_nil {a : ℤ} (h : i + a ≤ p) : removedAtRow t p e (some a) i = [] :=
  if_neg (by omega)

theorem removedAtRow_single {a : ℤ} {j : ℕ} (hr : t.rows[min j (e - 1)]? = some r)
    (hj : (j : ℤ) = i + a - 1) (hpj : p ≤ j) : removedAtRow t p e (some a) i = [r] := by
  rw [removedAtRow, if_pos (by omega), show (i + a - 1).toNat = j by omega, loopRows_succ hr]
  rfl

/-- A cursor made for the bottom bound of a frame, in any state.  A bound PRECEDING has an offset
that is a `longlong`. -/
inductive BottomOf : Option ℤ → FrameCursor κ → Prop
  | unbounded (c : PartitionCursor κ) : BottomOf none (.unboundedFollowing c)
  | preceding (n behind pos : ℕ) (hn : n < 2 ^ 63) :
      BottomOf (some (-n)) (.nRowsPreceding false n behind pos)
  | current (curr : ℕ) : BottomOf (some 0) (.rowsCurrentRowBottom curr)
  | following (n : ℕ) (c : PartitionCursor κ) (atEnd : Bool) :
      BottomOf (some n) (.nRowsFollowing false n c atEnd)

/-- The cursor of the bottom bound when row `i` is the current row. -/
inductive BottomAt (t : Table R κ) (p e i : ℕ) : Option ℤ → FrameCursor κ → Prop
  | unbounded (c : PartitionCursor κ) (hc : c.pos = e - 1) :
      BottomAt t p e i none (.unboundedFollowing c)
  | preceding (n : ℕ) (hn : n < 2 ^ 63) :
      BottomAt t p e i (some (-n)) (.nRowsPreceding false n (min (i - p) n) (p + (i - p - n)))
  | current : BottomAt t p e i (some 0) (.rowsCurrentRowBottom i)
  | following (n : ℕ) (c : PartitionCursor κ) (hc : c.InPart t p e (i + n)) :
      BottomAt t p e i (some n) (.nRowsFollowing false n c (decide (e ≤ i + n)))

/-- A cursor made for the top bound of a frame, in any state. -/
inductive TopOf : Option ℤ → FrameCursor κ → Prop
  | unbounded (curr : ℕ) : TopOf none (.unboundedPreceding curr)
  | preceding (n behind pos : ℕ) (hn : n < 2 ^ 63) :
      TopOf (some (-n)) (.nRowsPreceding true n behind pos)
  | following (n : ℕ) (c : PartitionCursor κ) (atEnd : Bool) :
      TopOf (some n) (.nRowsFollowing true n c atEnd)

/-- The cursor of the top bound when row `i` is the current row. -/
inductive TopAt (t : Table R κ) (p e i : ℕ) : Option ℤ → FrameCursor κ → Prop
  | unbounded : TopAt t p e i none (.unboundedPreceding p)
  | preceding (n : ℕ) (hn : n < 2 ^ 63) :
      TopAt t p e i (some (-n)) (.nRowsPreceding true n (min (i - p) n) (p + (i - p - n)))
  | following (n : ℕ) (c : PartitionCursor κ) (hc : c.InPart t p e (i + n)) :
      TopAt t p e i (some n) (.nRowsFollowing true n c (decide (e ≤ i + n)))

theorem BottomAt.of (hc : BottomAt t p e i shift c) : BottomOf shift c := by
  cases hc with
  | unbounded c => exact .unbounded c
  | preceding n hn => exact .preceding n _ _ hn
  | current => exact .current _
  | following n c => exact .following n c _

theorem TopAt.of (hc : TopAt t p e i shift c) : TopOf shift c := by
  cases hc with
  | unbounded => exact .unbounded p
  | preceding n hn => exact .preceding n _ _ hn
  | following n c => exact .following n c _

/-- The signed difference is exact for an offset that is a `longlong`. -/
theorem rowsDifference_eq {behind : ℕ} (hn : n < 2 ^ 63) (hb : behind ≤ n + 1) :
    rowsDifference n behind = (n : ℤ) - behind := by
  simp only [rowsDifference]
  rcases lt_or_ge n behind with hlt | hge
  · obtain rfl : behind = n + 1 := by omega
    push_cast
    norm_num
  · omega

/-! ### The bound n PRECEDING -/

/-- A bound `n PRECEDING` that is still behind the first row of the partition waits. -/
theorem moveCursor_wait {behind : ℕ} {isTop : Bool} (hn : n < 2 ^ 63) (hb : behind < n)
    (w : Work R σ) :
    moveCursorIfPossible t item noAction isTop n behind pos w = (behind, pos, w) := by
  have hdiff := rowsDifference_eq hn (by omega : behind ≤ n + 1)
  simp only [moveCursorIfPossible, hdiff]
  rw [if_pos (by omega)]

/-- A bound `n PRECEDING` reaches the first row of the partition. -/
theorem moveCursor_reach {isTop : Bool} (hn : n < 2 ^ 63) (hr : t.rows[pos]? = some r)
    (w : Work R σ) :
    moveCursorIfPossible t item noAction isTop n n pos w =
      (n, pos, if isTop then w else ⟨r, added item noAction [r] w.sum⟩) := by
  have hdiff := rowsDifference_eq hn (by omega : n ≤ n + 1)
  simp only [moveCursorIfPossible, hdiff, sub_self, lt_irrefl, if_false, if_true]
  cases isTop
  · simp [read_row hr, addValueToItems_eq]
  · simp

/-- A bound `n PRECEDING` in the partition moves one row on.  The top bound takes the row that it
leaves away, the bottom bound hands the row that it reaches over. -/
theorem moveCursor_move {isTop : Bool} (hn : n < 2 ^ 63) (hpos : pos < t.rows.length)
    (hr : t.rows[if isTop then pos else pos + 1]? = some r) (w : Work R σ) :
    moveCursorIfPossible t item noAction isTop n (n + 1) pos w = (n, pos + 1,
      ⟨r, if isTop then removed item noAction [r] w.sum else added item noAction [r] w.sum⟩) := by
  have hmod : (n + 1 + (2 ^ 64 - 1)) % 2 ^ 64 = n := by omega
  simp only [moveCursorIfPossible, rowsDifference_eq hn (le_refl (n + 1))]
  rw [if_neg (by omega), if_neg (by omega), hmod]
  cases isTop with
  | false =>
    have hrow : t.rows[pos + 1]? = some r := hr
    simp [next_of_lt hpos, read_row hrow, addValueToItems_eq]
  | true =>
    have hrow : t.rows[pos]? = some r := hr
    simp [next_of_lt hpos, read_row hrow, removeValueFromItems_eq]

/-! ### One row of the run -/

section Rows

variable [DecidableEq κ]

variable (item noAction) (h : t.Part p e)
include h

/-- **The bound n PRECEDING in the next row.**  It waits, reaches the first row of the partition, or
is in the partition already and moves. -/
theorem nextRow_preceding (isTop : Bool) (hn : n < 2 ^ 63) (hpi : p ≤ i) (hie : i + 1 < e)
    (w : Work R σ) :
    ∃ r, nextRow t item noAction
        (.nRowsPreceding isTop n (min (i - p) n) (p + (i - p - n))) w =
      (.nRowsPreceding isTop n (min (i + 1 - p) n) (p + (i + 1 - p - n)),
        ⟨r, if isTop then removed item noAction (removedAtRow t p e (some (-n)) (i + 1)) w.sum
          else added item noAction (slice t.rows (bottomEnd p e (some (-n)) i)
            (bottomEnd p e (some (-n)) (i + 1))) w.sum⟩) := by
  have hle := h.le
  rcases lt_trichotomy (i + 1 - p) n with hwait | hreach | hmove
  · refine ⟨w.record, ?_⟩
    rw [removedAtRow_nil (by push_cast; omega), removed_nil,
      slice_bottomEnd_nil (by omega) (by omega), added_nil, ite_self]
    simp only [nextRow, show (min (i - p) n + 1) % 2 ^ 64 = i + 1 - p by omega,
      show p + (i - p - n) = p by omega, moveCursor_wait hn hwait,
      show min (i + 1 - p) n = i + 1 - p by omega, show p + (i + 1 - p - n) = p by omega]
  · obtain ⟨r, hrp⟩ := exists_row (t := t) (i := p) (by omega)
    refine ⟨if isTop then w.record else r, ?_⟩
    rw [removedAtRow_nil (by push_cast; omega), removed_nil,
      slice_bottomEnd_single hrp (by omega) le_rfl (by omega)]
    simp only [nextRow, show (min (i - p) n + 1) % 2 ^ 64 = n by omega,
      show p + (i - p - n) = p by omega, moveCursor_reach hn hrp,
      show min (i + 1 - p) n = n by omega, show p + (i + 1 - p - n) = p by omega]
    cases isTop <;> rfl
  · have hstep : p + (i + 1 - p - n) = p + (i - p - n) + 1 := by omega
    generalize hj : p + (i - p - n) = j at hstep
    obtain ⟨r, hrj⟩ := exists_row (t := t) (i := if isTop then j else j + 1) (by split <;> omega)
    refine ⟨r, ?_⟩
    simp only [nextRow, show (min (i - p) n + 1) % 2 ^ 64 = n + 1 by omega,
      show min (i + 1 - p) n = n by omega, hstep, moveCursor_move hn (by omega) hrj]
    cases isTop with
    | false =>
      rw [slice_bottomEnd_single (j := j + 1) hrj (by omega) (by omega) (by omega)]
      rfl
    | true =>
      have hlast : t.rows[min j (e - 1)]? = some r := by rwa [min_eq_left (by omega)]
      rw [removedAtRow_single hlast (by push_cast; omega) (by omega)]
      rfl

/-- **The bottom bound at the start of a partition** hands the rows of the first frame over.  The
function may have been cleared between the two calls, when the bound only moves. -/
theorem bottom_start (hr : t.rows[p]? = some w.record) (hc : BottomOf shift c) :
    ∃ c1 s1, c.preNextPartition t item noAction p w = (c1, ⟨w.record, s1⟩) ∧
      ∀ s, (noAction = false → s = s1) →
        ∃ c2 r2, c1.nextPartition t item noAction p ⟨w.record, s⟩ =
            (c2, ⟨r2, if noAction then s
              else added item noAction (slice t.rows p (bottomEnd p e shift p)) w.sum⟩) ∧
          BottomAt t p e p shift c2 := by
  have hlt := h.lt
  have hle := h.le
  have hmove : t.moveTo p = p := moveTo_of_lt (by omega)
  cases hc with
  | unbounded c =>
    have hin := PartitionCursor.onNextPartition_inPart h c hr
    have hpos : (c.onNextPartition t p w.record).pos = p := by rw [hin.pos]; omega
    refine ⟨_, w.sum, rfl, fun s hs => ?_⟩
    obtain ⟨c', r', hwalk, hc'⟩ := walkToEnd_spec item noAction h t.rows.length
      (⟨w.record, added item noAction [w.record] s⟩ : Work R σ) le_rfl hlt (by omega) hin
    refine ⟨.unboundedFollowing c', r', ?_, .unbounded c' hc'⟩
    rw [← added_eq_of item hs, bottomEnd, slice_cons hr hlt, added_cons]
    simp only [nextPartition, hpos, read_row hr, addValueToItems_eq, hwalk]
  | preceding n behind pos hn =>
    refine ⟨_, w.sum, rfl, fun s hs => ?_⟩
    have hat := BottomAt.preceding (t := t) (p := p) (e := e) (i := p) n hn
    rw [Nat.sub_self, Nat.zero_min, Nat.zero_sub, Nat.add_zero] at hat
    refine ⟨_, w.record, ?_, hat⟩
    rw [← added_eq_of item hs]
    rcases Nat.eq_zero_or_pos n with rfl | hpos
    · have hend : bottomEnd p e (some (-((0 : ℕ) : ℤ))) p = p + 1 := by
        simp only [bottomEnd, clip]
        omega
      rw [hend, slice_single hr]
      simp [nextPartition, hmove, moveCursor_reach hn hr]
    · have hend : bottomEnd p e (some (-(n : ℤ))) p = p := by
        simp only [bottomEnd, clip]
        omega
      rw [hend, slice_self, added_nil]
      simp only [nextPartition, hmove, moveCursor_wait hn hpos]
  | current curr =>
    refine ⟨.rowsCurrentRowBottom p, added item noAction [w.record] w.sum, ?_, fun s hs => ?_⟩
    · simp only [preNextPartition]
      rw [← addValueToItems_eq]
    have hend : bottomEnd p e (some 0) p = p + 1 := by
      simp only [bottomEnd, clip]
      omega
    refine ⟨.rowsCurrentRowBottom p, w.record, ?_, .current⟩
    rw [hend, slice_single hr, ← added_nil item noAction (added item noAction [w.record] w.sum),
      ← added_eq_of item hs, added_nil]
    rfl
  | following n c atEnd =>
    have hin := PartitionCursor.onNextPartition_inPart h c hr
    have hpos : (c.onNextPartition t p w.record).pos = p := by rw [hin.pos]; omega
    refine ⟨_, w.sum, rfl, fun s hs => ?_⟩
    obtain ⟨c', r', hloop, hc'⟩ := nextPartBottomLoop_spec item noAction h n
      (⟨w.record, added item noAction [w.record] s⟩ : Work R σ) le_rfl hlt hin
    refine ⟨.nRowsFollowing false n c' (decide (e ≤ p + n)), r', ?_, .following n c' hc'⟩
    have hend : bottomEnd p e (some (n : ℤ)) p = min (p + n + 1) e := by
      simp only [bottomEnd, clip]
      omega
    rw [← added_eq_of item hs, hend, slice_cons hr (by omega), added_cons]
    simp [nextPartition, nextPartBottom, hpos, fetch_row hr, addValueToItems_eq, hloop]

/-- **The bottom bound in the next row** hands the rows that enter the frame over. -/
theorem bottom_row (hpi : p ≤ i)
    (hie : i + 1 < e) (hr : t.rows[i + 1]? = some w.record) (hc : BottomAt t p e i shift c) :
    ∃ c1 s1, c.preNextRow item noAction w = (c1, ⟨w.record, s1⟩) ∧
      ∀ s, (noAction = false → s = s1) →
        ∃ c2 r2, c1.nextRow t item noAction ⟨w.record, s⟩ =
            (c2, ⟨r2, if noAction then s
              else added item noAction
                (slice t.rows (bottomEnd p e shift i) (bottomEnd p e shift (i + 1))) w.sum⟩) ∧
          BottomAt t p e (i + 1) shift c2 := by
  cases hc with
  | unbounded c hc =>
    refine ⟨_, w.sum, rfl, fun s hs => ⟨.unboundedFollowing c, w.record, ?_, .unbounded c hc⟩⟩
    rw [← added_eq_of item hs, bottomEnd, bottomEnd, slice_self, added_nil]
    rfl
  | preceding n hn =>
    refine ⟨_, w.sum, rfl, fun s hs => ?_⟩
    obtain ⟨r, hrow⟩ := nextRow_preceding item noAction h false hn hpi hie ⟨w.record, s⟩
    refine ⟨_, r, ?_, .preceding n hn⟩
    rw [← added_eq_of item hs]
    exact hrow
  | current =>
    refine ⟨.rowsCurrentRowBottom i, added item noAction [w.record] w.sum, ?_, fun s hs => ?_⟩
    · simp only [preNextRow]
      rw [← addValueToItems_eq]
    refine ⟨.rowsCurrentRowBottom (i + 1), w.record, ?_, .current⟩
    rw [slice_bottomEnd_single hr (by omega) (by omega) hie,
      ← added_nil item noAction (added item noAction [w.record] w.sum),
      ← added_eq_of item hs, added_nil]
    rfl
  | following n c hc =>
    refine ⟨_, w.sum, rfl, fun s hs => ?_⟩
    rw [← added_eq_of item hs]
    have harith : i + 1 + n = i + n + 1 := by omega
    by_cases hend : e ≤ i + n
    · refine ⟨_, w.record, ?_, .following n c (hc.past hend (by omega))⟩
      rw [slice_bottomEnd_nil (by omega) (by omega), added_nil,
        decide_eq_true (by omega : e ≤ i + 1 + n)]
      simp [nextRow, nextRowBottom, decide_eq_true hend]
    obtain ⟨c', r', hnext, hc', hrow⟩ := hc.next h (by omega) w.record
    rw [← harith] at hc'
    refine ⟨_, r', ?_, .following n c' hc'⟩
    rw [harith]
    by_cases hout : e ≤ i + n + 1
    · rw [slice_bottomEnd_nil (by omega) (by omega), added_nil]
      simp [nextRow, nextRowBottom, decide_eq_false hend, hnext, decide_eq_true hout]
    · rw [slice_bottomEnd_single (hrow (by omega)) (by omega) (by omega) (by omega)]
      simp [nextRow, nextRowBottom, decide_eq_false hend, hnext, decide_eq_false hout, addValueToItems_eq]

/-- **The top bound at the start of a partition** takes the rows before the first frame away. -/
theorem top_start (hr : t.rows[p]? = some w.record) (hc : TopOf shift c) :
    ∃ c1, c.preNextPartition t item noAction p w = (c1, w) ∧
      ∀ w', ∃ c2 r2, c1.nextPartition t item noAction p w' =
          (c2, ⟨r2, removed item noAction (removedAtStart t p e shift) w'.sum⟩) ∧
        TopAt t p e p shift c2 := by
  have hlt := h.lt
  have hle := h.le
  have hmove : t.moveTo p = p := moveTo_of_lt (by omega)
  cases hc with
  | unbounded curr =>
    refine ⟨_, rfl, fun w' => ⟨.unboundedPreceding p, w'.record, ?_, .unbounded⟩⟩
    rw [removedAtStart, removed_nil]
    rfl
  | preceding n behind pos hn =>
    refine ⟨_, rfl, fun w' => ?_⟩
    have hat := TopAt.preceding (t := t) (p := p) (e := e) (i := p) n hn
    rw [Nat.sub_self, Nat.zero_min, Nat.zero_sub, Nat.add_zero] at hat
    refine ⟨_, w'.record, ?_, hat⟩
    have hstart : removedAtStart t p e (some (-(n : ℤ))) = [] := by
      rw [removedAtStart, show (-(n : ℤ)).toNat = 0 by omega]
      rfl
    rw [hstart, removed_nil]
    rcases Nat.eq_zero_or_pos n with rfl | hpos
    · simp [nextPartition, hmove, moveCursor_reach hn hr]
    · simp only [nextPartition, hmove, moveCursor_wait hn hpos]
  | following n c atEnd =>
    have hin := PartitionCursor.onNextPartition_inPart h c hr
    refine ⟨_, rfl, fun w' => ?_⟩
    obtain ⟨c', r', hloop, hc'⟩ := nextPartTop_spec item noAction h n w' le_rfl hin
    rw [decide_eq_false (by omega : ¬ e ≤ p)] at hloop
    refine ⟨.nRowsFollowing true n c' (decide (e ≤ p + n)), r', ?_, .following n c' hc'⟩
    rw [removedAtStart, Int.toNat_natCast]
    simp [nextPartition, hloop]

/-- **The top bound in the next row** takes one row away: the one that it leaves, or the last row
of the partition when it cannot move on. -/
theorem top_row (hpi : p ≤ i) (hie : i + 1 < e) (hc : TopAt t p e i shift c) (w : Work R σ) :
    c.preNextRow item noAction w = (c, w) ∧
      ∃ c2 r2, c.nextRow t item noAction w =
          (c2, ⟨r2, removed item noAction (removedAtRow t p e shift (i + 1)) w.sum⟩) ∧
        TopAt t p e (i + 1) shift c2 := by
  cases hc with
  | unbounded =>
    refine ⟨rfl, .unboundedPreceding p, w.record, ?_, .unbounded⟩
    rw [removedAtRow, removed_nil]
    rfl
  | preceding n hn =>
    obtain ⟨r, hrow⟩ := nextRow_preceding item noAction h true hn hpi hie w
    exact ⟨rfl, _, r, hrow, .preceding n hn⟩
  | following n c hc =>
    refine ⟨rfl, ?_⟩
    obtain ⟨r, hpos, hr⟩ := hc.row h
    obtain ⟨c', r', hnext, hc', -⟩ := hc.next h (by omega) r
    have harith : i + 1 + n = i + n + 1 := by omega
    rw [← harith] at hc'
    refine ⟨_, r', ?_, .following n c' hc'⟩
    rw [removedAtRow_single hr (by push_cast; omega) (by omega)]
    simp [nextRow, nextRowTop, fetch_row hpos, removeValueFromItems_eq, hnext, decide_or_succ, harith]

end Rows

/-! ### The scan between the bounds -/

/-- The loop of the scan adds the rows from `pos` on. -/
theorem scanLoop_spec (item : ItemSum R σ V) (n : ℕ) :
    ∀ (pos : ℕ) (w : Work R σ), pos + n ≤ t.rows.length →
      ∃ pos' r', scanLoop t item n pos w =
        (pos', ⟨r', added item false (slice t.rows pos (pos + n)) w.sum⟩) := by
  induction n with
  | zero =>
    intro pos w _
    exact ⟨pos, w.record, by rw [add_zero, slice_self, added_nil]; rfl⟩
  | succ n ih =>
    intro pos w hpos
    obtain ⟨r, hr⟩ := exists_row (t := t) (i := pos) (by omega)
    obtain ⟨pos', r', hloop⟩ := ih (pos + 1) ⟨r, added item false [r] w.sum⟩ (by omega)
    refine ⟨pos', r', ?_⟩
    rw [slice_cons hr (by omega), added_cons, show pos + (n + 1) = pos + 1 + n by omega, ← hloop]
    simp [scanLoop, fetch_row hr, next_of_lt (by omega : pos < t.rows.length), addValueToItems_eq]

/-- **The scan adds exactly the rows of the frame.** -/
theorem scan_spec (item : ItemSum R σ V) {top bottom : Option ℤ} {ct cb : FrameCursor κ}
    (h : t.Part p e) (hpi : p ≤ i) (hie : i < e) (ht : TopAt t p e i top ct)
    (hb : BottomAt t p e i bottom cb) (w : Work R σ) :
    (computeValuesForCurrentRow t item ct cb w).sum =
      added item false (slice t.rows (topStart p e top i) (bottomEnd p e bottom i)) w.sum := by
  have hle := h.le
  -- a bound that is outside of the partition leaves no row
  have houtTop : ct.isOutsideComputationBounds = true → topStart p e top i = e := by
    cases ht with
    | unbounded | preceding n hn =>
      intro hout; simp [isOutsideComputationBounds] at hout
    | following n c hc =>
      intro hout
      simp only [isOutsideComputationBounds, Bool.and_true, decide_eq_true_eq] at hout
      simp only [topStart, clip]
      omega
  have hinTop : ct.isOutsideComputationBounds = false →
      ct.getCurrRownum = topStart p e top i ∧ topStart p e top i < e := by
    cases ht with
    | unbounded => intro _; exact ⟨rfl, h.lt⟩
    | preceding n hn =>
      intro _
      simp only [getCurrRownum, topStart, clip]
      omega
    | following n c hc =>
      intro hout
      simp only [isOutsideComputationBounds, Bool.and_true, decide_eq_false_iff_not] at hout
      simp only [getCurrRownum, hc.pos, topStart, clip]
      omega
  have houtBottom : cb.isOutsideComputationBounds = true → bottomEnd p e bottom i = p := by
    cases hb with
    | unbounded c hc | current | following n c hc =>
      intro hout; simp [isOutsideComputationBounds] at hout
    | preceding n hn =>
      intro hout
      simp only [isOutsideComputationBounds, Bool.not_false, Bool.true_and,
        decide_eq_true_eq] at hout
      simp only [bottomEnd, clip]
      omega
  have hinBottom : cb.isOutsideComputationBounds = false →
      cb.getCurrRownum + 1 = bottomEnd p e bottom i := by
    cases hb with
    | unbounded c hc =>
      intro _
      simp only [getCurrRownum, hc, bottomEnd]
      omega
    | current =>
      intro _
      simp only [getCurrRownum, bottomEnd, clip]
      omega
    | following n c hc =>
      intro _
      simp only [getCurrRownum, hc.pos, bottomEnd, clip]
      omega
    | preceding n hn =>
      intro hout
      simp only [isOutsideComputationBounds, Bool.not_false, Bool.true_and,
        decide_eq_false_iff_not, not_not] at hout
      simp only [getCurrRownum, bottomEnd, clip]
      omega
  have hend : bottomEnd p e bottom i ≤ e := bottomEnd_le h.lt.le _ _
  have hstart : p ≤ topStart p e top i := le_topStart _ _ _ _
  unfold computeValuesForCurrentRow
  cases htop : ct.isOutsideComputationBounds with
  | true =>
    rw [houtTop htop, slice_of_le hend, added_nil]
    rfl
  | false =>
    cases hbottom : cb.isOutsideComputationBounds with
    | true =>
      rw [houtBottom hbottom, slice_of_le hstart, added_nil]
      rfl
    | false =>
      obtain ⟨hcur, hlt⟩ := hinTop htop
      have hcur' := hinBottom hbottom
      simp only [Bool.or_false, Bool.false_eq_true, if_false, hcur, hcur']
      rw [moveTo_of_lt (by omega)]
      obtain ⟨pos', r', hloop⟩ := scanLoop_spec (t := t) item
        (bottomEnd p e bottom i - topStart p e top i) (topStart p e top i) w (by omega)
      rw [hloop]
      rcases le_total (topStart p e top i) (bottomEnd p e bottom i) with hfr | hfr
      · rw [Nat.add_sub_cancel' hfr]
      · rw [slice_of_le hfr, slice_of_le (by omega)]

end Window
