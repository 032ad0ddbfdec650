/-
**ROWS frames: which rows the aggregate of a window function covers.**

The value that `compute_window_func` saves for a row should be the aggregate over the rows of its
partition whose positions lie between the two bounds of the frame.  For COUNT and SUM it is, as
long as the start of the frame does not lie after its end.  If it does, every frame is empty; the
bottom bound still hands over one row for each row of the run, and the top bound takes another row
away in its place.  The function counts only rows in which its argument is not NULL, and it ignores
a removal when it counts nothing, so the two cancel only when the second row counts too.  A
function that is computed by the scan between the bounds gets the right rows in any case.

Main definitions:

* `Table.SamePartition`, `Frame.Within`, `frameRows`: the rows that a frame consists of;
* `countOf`, `sumOf`: COUNT and SUM of some rows;
* `Frame.PrecedingFits`: no offset of a bound PRECEDING exceeds a `longlong`;
* `Frame.Cancels`: the row that is taken away for another one counts if that one does.

Main results:

* `computeFrom_iff`: a run is right exactly when each of its rows is;
* `computeWindowFunc_scan`: the function that is computed by a scan;
* `Follows.compute_iff`: the function that is told about removals.
-/

import MariaDb.WindowCursors

set_option autoImplicit false

namespace Window

open SlidingSum List Option Table

variable {R κ σ V D : Type}

/-! ### The rows of a frame -/

/-- Row `j` is in the partition of row `i`: no row between them belongs to another one. -/
def Table.SamePartition (t : Table R κ) (i j : ℕ) : Prop :=
  j < t.rows.length ∧ ∀ m, m < t.rows.length → min i j ≤ m → m ≤ max i j → t.keyAt m = t.keyAt i

instance [DecidableEq κ] (t : Table R κ) (i j : ℕ) : Decidable (t.SamePartition i j) :=
  inferInstanceAs (Decidable (_ ∧ _))

theorem Table.Part.samePartition_iff {t : Table R κ} {p e i j : ℕ} (h : t.Part p e) (hpi : p ≤ i)
    (hie : i < e) (hj : j < t.rows.length) : t.SamePartition i j ↔ p ≤ j ∧ j < e := by
  have hle := h.le
  constructor
  · rintro ⟨-, hsame⟩
    rw [h.same i hpi hie] at hsame
    -- the rows before and behind the partition have other keys
    constructor
    · by_contra hlt
      exact h.start.elim (by omega)
        fun hstart => hstart (hsame (p - 1) (by omega) (by omega) (by omega))
    · by_contra hge
      exact h.stop.elim (by omega) fun hstop => hstop (hsame e (by omega) (by omega) (by omega))
  · rintro ⟨hpj, hje⟩
    refine ⟨hj, fun m _ hmin hmax => ?_⟩
    rw [h.same m (by omega) (by omega), h.same i hpi hie]

/-- How far a bound lies behind the current row; `none` is UNBOUNDED. -/
def FrameBound.shift (b : FrameBound) : Option ℤ :=
  match b.precedenceType, b.offset with
  | .current, _ => some 0
  | .preceding, some n => some (-n)
  | .following, some n => some n
  | _, none => none

/-- The position `j` lies between the bounds when row `i` is the current row. -/
def Frame.Within (f : Frame) (i j : ℕ) : Prop :=
  (∀ a ∈ f.topBound.shift, (i : ℤ) + a ≤ j) ∧ ∀ b ∈ f.bottomBound.shift, (j : ℤ) ≤ i + b

instance (f : Frame) (i j : ℕ) : Decidable (f.Within i j) := inferInstanceAs (Decidable (_ ∧ _))

/-- **The rows of the frame of row `i`**, in their order. -/
def frameRows [DecidableEq κ] (t : Table R κ) (f : Frame) (i : ℕ) : List R :=
  ((List.range t.rows.length).filter
    fun j => decide (t.SamePartition i j ∧ f.Within i j)).filterMap (t.rows[·]?)

/-- `COUNT(x)` over some rows. -/
def countOf (x : R → Option D) (l : List R) : ℕ := (l.filterMap x).length

/-- `SUM(x)` over some rows; NULL when no row has a value. -/
def sumOf [AddCommGroup D] (x : R → Option D) (l : List R) : Option D :=
  if (l.filterMap x).isEmpty then none else some (l.filterMap x).sum

/-- The frame of row `i` is a slice of its partition. -/
theorem frameRows_eq [DecidableEq κ] {t : Table R κ} {p e i : ℕ} (f : Frame) (h : t.Part p e)
    (hpi : p ≤ i) (hie : i < e) :
    frameRows t f i =
      slice t.rows (topStart p e f.topBound.shift i) (bottomEnd p e f.bottomBound.shift i) := by
  have hle := h.le
  have hend : bottomEnd p e f.bottomBound.shift i ≤ e := bottomEnd_le h.lt.le _ _
  refine filter_range_eq_slice (P := fun j => t.SamePartition i j ∧ f.Within i j) (by omega)
    fun j hj => ?_
  rw [h.samePartition_iff hpi hie hj]
  constructor
  · rintro ⟨⟨hpj, hje⟩, htop, hbottom⟩
    exact ⟨(topStart_le_iff hpj hje).2 htop, (lt_bottomEnd_iff hpj hje).2 hbottom⟩
  rintro ⟨htop, hbottom⟩
  have hpj : p ≤ j := (le_topStart p e _ i).trans htop
  have hje : j < e := hbottom.trans_le hend
  exact ⟨⟨hpj, hje⟩, (topStart_le_iff hpj hje).1 htop, (lt_bottomEnd_iff hpj hje).1 hbottom⟩

/-! ### The cursors of an accepted frame -/

/-- No offset of a bound PRECEDING exceeds a `longlong`. -/
def Frame.PrecedingFits (f : Frame) : Prop :=
  ∀ b ∈ [f.topBound, f.bottomBound], b.precedenceType = .preceding → ∀ n ∈ b.offset, n < 2 ^ 63

theorem bottomOf_getFrameCursor {f : Frame} (hf : f.checkFrameBounds = false)
    (hn : f.PrecedingFits) : BottomOf f.bottomBound.shift (getFrameCursor (κ := κ) f false) := by
  have hfits := hn f.bottomBound (by simp)
  obtain ⟨top, ⟨type, offset⟩⟩ := f
  cases type with
  | current => exact .current 0
  | following =>
    cases offset with
    | none => exact .unbounded _
    | some n => exact .following n _ false
  | preceding =>
    cases offset with
    | none => simp [Frame.checkFrameBounds, FrameBound.isUnbounded] at hf
    | some n => exact .preceding n 0 0 (hfits rfl n rfl)

theorem topOf_getFrameCursor {f : Frame} (hf : f.checkFrameBounds = false)
    (hn : f.PrecedingFits) : TopOf f.topBound.shift (getFrameCursor (κ := κ) f true) := by
  have hfits := hn f.topBound (by simp)
  obtain ⟨⟨type, offset⟩, bottom⟩ := f
  cases type with
  | current => exact TopOf.preceding 0 0 0 (by norm_num)
  | following =>
    cases offset with
    | none => simp [Frame.checkFrameBounds, FrameBound.isUnbounded] at hf
    | some n => exact .following n _ false
  | preceding =>
    cases offset with
    | none => exact .unbounded 0
    | some n => exact .preceding n 0 0 (hfits rfl n rfl)

/-! ### One row -/

section Run

variable [DecidableEq κ] {t : Table R κ} {item : ItemSum R σ V} {p e : ℕ} {top bottom : Option ℤ}

/-- The state of a window function after row `i`, in the partition from `p` to `e`. -/
structure After (t : Table R κ) (top bottom : Option ℤ) (p e i : ℕ) (f : WinFunc κ σ) :
    Prop where
  part : t.Part p e
  le : p ≤ i
  lt : i < e
  tracker : f.tracker = t.keyAt i
  bottomAt : BottomAt t p e i bottom f.bottom
  topAt : TopAt t p e i top f.top

/-- The function after the first row of a partition. -/
def startSum (t : Table R κ) (item : ItemSum R σ V) (top bottom : Option ℤ) (p e : ℕ) : σ :=
  if scanned item then
    added item false (slice t.rows (topStart p e top p) (bottomEnd p e bottom p)) item.clear
  else
    removed item false (removedAtStart t p e top)
      (added item false (slice t.rows p (bottomEnd p e bottom p)) item.clear)

/-- The function after row `i + 1` of a partition. -/
def nextSum (t : Table R κ) (item : ItemSum R σ V) (top bottom : Option ℤ) (p e i : ℕ) (s : σ) :
    σ :=
  if scanned item then
    added item false (slice t.rows (topStart p e top (i + 1)) (bottomEnd p e bottom (i + 1)))
      item.clear
  else
    removed item false (removedAtRow t p e top (i + 1))
      (added item false (slice t.rows (bottomEnd p e bottom i) (bottomEnd p e bottom (i + 1))) s)

omit [DecidableEq κ] in
/-- The bounds have prepared themselves and move now, the bottom bound first: the rows `la` enter and
the rows `lr` leave, unless the function is computed by the scan. -/
theorem notify_spec {i : ℕ} {r : R} {s0 s1 : σ} {la lr : List R}
    {moveBottom moveTop : Work R σ → FrameCursor κ × Work R σ} (h : t.Part p e) (hpi : p ≤ i)
    (hie : i < e)
    (hb : ∀ s, (scanned item = false → s = s1) → ∃ c r', moveBottom ⟨r, s⟩ =
      (c, ⟨r', if scanned item then s else added item (scanned item) la s0⟩) ∧
        BottomAt t p e i bottom c)
    (ht : ∀ w, ∃ c r', moveTop w = (c, ⟨r', removed item (scanned item) lr w.sum⟩) ∧
      TopAt t p e i top c) {w : Work R σ}
    (hw : w = if scanned item then ⟨r, item.clear⟩ else ⟨r, s1⟩) {b2 t2 : FrameCursor κ × Work R σ}
    (hb2 : moveBottom w = b2) (ht2 : moveTop b2.2 = t2) :
    BottomAt t p e i bottom b2.1 ∧ TopAt t p e i top t2.1 ∧
      (if scanned item then computeValuesForCurrentRow t item t2.1 b2.1 t2.2 else t2.2).sum =
        if scanned item then
          added item false (slice t.rows (topStart p e top i) (bottomEnd p e bottom i)) item.clear
        else removed item false lr (added item false la s0) := by
  obtain ⟨c', r', htop, htat⟩ := ht b2.2
  rw [ht2] at htop
  cases hscan : scanned item with
  | true =>
    obtain ⟨c, r1, hbottom, hat⟩ := hb item.clear (by simp [hscan])
    rw [hw, hscan, if_pos rfl, hbottom, hscan] at hb2
    subst hb2 htop
    rw [hscan]
    exact ⟨hat, htat, scan_spec item h hpi hie htat hat _⟩
  | false =>
    obtain ⟨c, r1, hbottom, hat⟩ := hb s1 fun _ => rfl
    rw [hw, hscan, if_neg Bool.false_ne_true, hbottom, hscan] at hb2
    subst hb2 htop
    rw [hscan]
    exact ⟨hat, htat, rfl⟩

/-- **The first row of a partition.** -/
theorem processRow_start (item : ItemSum R σ V) {f : WinFunc κ σ} {row : R} (h : t.Part p e)
    (hr : t.rows[p]? = some row) (htracker : p = 0 ∨ f.tracker = t.keyAt (p - 1))
    (hb : BottomOf bottom f.bottom) (ht : TopOf top f.top) :
    After t top bottom p e p (processRow t item p row f) ∧
      (processRow t item p row f).sum = startSum t item top bottom p e := by
  -- the tracker sees another partition, or the first row
  have hgroup : (decide (f.tracker ≠ some (t.key row)) || decide (p = 0)) = true := by
    rw [← keyAt_of_row hr]
    rcases htracker with rfl | htracker
    · simp
    · rcases h.start with rfl | hstart
      · simp
      · simp [htracker, hstart]
  obtain ⟨b1, s1, hpre, hnext⟩ := bottom_start item (scanned item) (w := ⟨row, item.clear⟩) h hr hb
  obtain ⟨t1, htpre, htnext⟩ := top_start item (scanned item) (w := ⟨row, s1⟩) h hr ht
  obtain ⟨hat, htat, hsum⟩ := notify_spec h le_rfl h.lt hnext htnext rfl rfl rfl
  simp only [processRow, checkIfNextGroup, hgroup, if_true, notifyCursorsPartitionChanged, hpre, htpre]
  exact ⟨⟨h, le_rfl, h.lt, (keyAt_of_row hr).symm, hat, htat⟩, hsum⟩

/-- **Another row of the partition.** -/
theorem processRow_next (item : ItemSum R σ V) {f : WinFunc κ σ} {row : R} {i : ℕ}
    (h : After t top bottom p e i f) (hie : i + 1 < e) (hr : t.rows[i + 1]? = some row) :
    After t top bottom p e (i + 1) (processRow t item (i + 1) row f) ∧
      (processRow t item (i + 1) row f).sum = nextSum t item top bottom p e i f.sum := by
  have hpi := h.le
  have hgroup : (decide (f.tracker ≠ some (t.key row)) || decide (i + 1 = 0)) = false := by
    rw [← keyAt_of_row hr, h.tracker, h.part.same i hpi h.lt, h.part.same (i + 1) (by omega) hie]
    simp
  obtain ⟨b1, s1, hpre, hnext⟩ := bottom_row item (scanned item)
    (w := ⟨row, f.sum⟩) h.part hpi hie hr h.bottomAt
  have htop := top_row item (scanned item) h.part hpi hie h.topAt
  obtain ⟨hat, htat, hsum⟩ := notify_spec h.part (by omega) hie hnext (fun w => (htop w).2) rfl rfl rfl
  simp only [processRow, checkIfNextGroup, hgroup, Bool.false_eq_true, if_false, notifyCursorsNextRow,
    hpre, (htop _).1]
  exact ⟨⟨h.part, by omega, hie, (keyAt_of_row hr).symm, hat, htat⟩, hsum⟩

/-! ### The whole run -/

/-- What holds before row `i` is read: it is the first one, or a row before it was processed and
`S` holds of the function. -/
def Before (t : Table R κ) (top bottom : Option ℤ) (S : ℕ → ℕ → ℕ → σ → Prop) (i : ℕ)
    (f : WinFunc κ σ) : Prop :=
  (i = 0 ∧ BottomOf bottom f.bottom ∧ TopOf top f.top) ∨
    ∃ p e j, i = j + 1 ∧ After t top bottom p e j f ∧ S p e j f.sum

/-- A row is right exactly if `ok` holds for it.  `S` is what a right row leaves of the function for
the next row of the partition. -/
structure RightIf (t : Table R κ) (item : ItemSum R σ V) (top bottom : Option ℤ) (spec : ℕ → V)
    (S : ℕ → ℕ → ℕ → σ → Prop) (ok : ℕ → Prop) : Prop where
  start : ∀ p e, t.Part p e → (item.val (startSum t item top bottom p e) = spec p ↔ ok p) ∧
    (ok p → S p e p (startSum t item top bottom p e))
  next : ∀ p e i s, t.Part p e → p ≤ i → i + 1 < e → S p e i s →
    (item.val (nextSum t item top bottom p e i s) = spec (i + 1) ↔ ok (i + 1)) ∧
      (ok (i + 1) → S p e (i + 1) (nextSum t item top bottom p e i s))

/-- **A run is right exactly when each of its rows is.** -/
theorem computeFrom_iff {S : ℕ → ℕ → ℕ → σ → Prop} {ok : ℕ → Prop} {spec : ℕ → V}
    (hright : RightIf t item top bottom spec S ok) (rest : List R) :
    ∀ (i : ℕ) (f : WinFunc κ σ), t.rows.drop i = rest → Before t top bottom S i f →
      (computeFrom t item rest i f = (List.range' i rest.length).map spec ↔
        ∀ j, i ≤ j → j < t.rows.length → ok j) := by
  induction rest with
  | nil =>
    intro i f hdrop _
    have hlen : t.rows.length ≤ i := drop_eq_nil_iff.1 hdrop
    simp only [computeFrom, length_nil, range'_zero, map_nil, true_iff]
    intro j hij hj
    omega
  | cons row rest ih =>
    intro i f hdrop hbefore
    have hr : t.rows[i]? = some row := by
      rw [← head?_drop, hdrop, head?_cons]
    have hi : i < t.rows.length := (List.getElem?_eq_some_iff.1 hr).1
    have htail : t.rows.drop (i + 1) = rest := by
      rw [← tail_drop, hdrop, tail_cons]
    -- the row itself, and what it leaves for the rest of the run
    have hrow : (item.val (processRow t item i row f).sum = spec i ↔ ok i) ∧
        (ok i → Before t top bottom S (i + 1) (processRow t item i row f)) := by
      by_cases hfirst : i = 0 ∨ t.keyAt (i - 1) ≠ t.keyAt i
      · obtain ⟨e, hpart⟩ := exists_part hi hfirst
        have hcursors : (i = 0 ∨ f.tracker = t.keyAt (i - 1)) ∧ BottomOf bottom f.bottom ∧
            TopOf top f.top := by
          rcases hbefore with ⟨rfl, hb, ht⟩ | ⟨p, e', j, rfl, hafter, -⟩
          · exact ⟨.inl rfl, hb, ht⟩
          · exact ⟨.inr hafter.tracker, hafter.bottomAt.of, hafter.topAt.of⟩
        obtain ⟨hafter, hsum⟩ := processRow_start item hpart hr hcursors.1 hcursors.2.1 hcursors.2.2
        obtain ⟨hval, hS⟩ := hright.start i e hpart
        rw [← hsum] at hval hS
        exact ⟨hval, fun hok => .inr ⟨i, e, i, rfl, hafter, hS hok⟩⟩
      -- the row is in the partition of the row before
      rw [not_or, not_not] at hfirst
      rcases hbefore with ⟨rfl, -, -⟩ | ⟨p, e, j, rfl, hafter, hS⟩
      · exact absurd rfl hfirst.1
      have hin : j + 1 < e := by
        by_contra hge
        obtain rfl : e = j + 1 := Nat.le_antisymm (not_lt.1 hge) hafter.lt
        refine hafter.part.stop.elim hi.ne fun hstop => hstop ?_
        rw [← hafter.part.same j hafter.le hafter.lt]
        exact hfirst.2.symm
      obtain ⟨hafter', hsum⟩ := processRow_next item hafter hin hr
      obtain ⟨hval, hS'⟩ := hright.next p e j f.sum hafter.part hafter.le hin hS
      rw [← hsum] at hval hS'
      exact ⟨hval, fun hok => .inr ⟨p, e, j + 1, rfl, hafter', hS' hok⟩⟩
    obtain ⟨hval, hleft⟩ := hrow
    simp only [computeFrom, length_cons, range'_succ, map_cons, List.cons.injEq]
    rw [hval]
    constructor
    · rintro ⟨hok, hrest⟩ j hij hj
      rcases Nat.eq_or_lt_of_le hij with rfl | hlt
      · exact hok
      · exact (ih (i + 1) _ htail (hleft hok)).1 hrest j hlt hj
    · intro hall
      have hok := hall i le_rfl hi
      exact ⟨hok, (ih (i + 1) _ htail (hleft hok)).2 fun j hij hj => hall j (by omega) hj⟩

/-- The same for `compute_window_func` as a whole. -/
theorem computeWindowFunc_iff {f : Frame} (hf : f.checkFrameBounds = false)
    (hn : f.PrecedingFits) (S : ℕ → ℕ → ℕ → σ → Prop) (ok : ℕ → Prop) {spec : ℕ → V}
    (hright : RightIf t item f.topBound.shift f.bottomBound.shift spec S ok) :
    computeWindowFunc t item f = (List.range t.rows.length).map spec ↔
      ∀ j, j < t.rows.length → ok j := by
  have hrun := computeFrom_iff hright t.rows 0
    ⟨none, item.clear, getFrameCursor f false, getFrameCursor f true⟩ drop_zero
    (.inl ⟨rfl, bottomOf_getFrameCursor hf hn, topOf_getFrameCursor hf hn⟩)
  rw [computeWindowFunc, range_eq_range', hrun]
  exact ⟨fun h j hj => h j (Nat.zero_le j) hj, fun h j _ hj => h j hj⟩

/-- **A function that is computed by the scan** gets exactly the rows of the frame. -/
theorem computeWindowFunc_scan {f : Frame} (hf : f.checkFrameBounds = false)
    (hn : f.PrecedingFits) (hitem : item.supportsRemoval = false) :
    computeWindowFunc t item f = (List.range t.rows.length).map fun i =>
      item.val ((frameRows t f i).foldl (fun s r => item.add r s) item.clear) := by
  have hscan : scanned item = true := by rw [scanned, hitem]; rfl
  refine (computeWindowFunc_iff hf hn (fun _ _ _ _ => True) (fun _ => True)
    ⟨fun p e h => ⟨?_, fun _ => trivial⟩, fun p e i s h hpi hie _ => ⟨?_, fun _ => trivial⟩⟩).2
    fun _ _ => trivial
  · rw [startSum, hscan, if_pos rfl, frameRows_eq f h le_rfl h.lt]
    simp [added]
  · rw [nextSum, hscan, if_pos rfl, frameRows_eq f h (by omega) hie]
    simp [added]

end Run

/-! ### Functions that are told about removals -/

/-- The aggregate function follows the rows that are added and removed.  It counts the rows in
which its argument `x` is not NULL; `Good` is what holds of every state of the function. -/
structure Follows (item : ItemSum R σ V) (x : R → Option D) (agg : List R → V) (count : σ → ℕ)
    (Holds : σ → List R → Prop) (Good : σ → Prop) : Prop where
  removal : Removable item.add item.remove (fun r => (x r).isSome) count Holds
  supports : item.supportsRemoval = true
  clear : Holds item.clear []
  val : ∀ {s l}, Holds s l → item.val s = agg l
  good : ∀ {s l}, Holds s l → Good s
  good_add : ∀ {s} (r : R), Good s → Good (item.add r s)
  good_remove : ∀ {s} (r : R), Good s → Good (item.remove r s)
  val_empty : ∀ {s}, Good s → (item.val s = agg [] ↔ count s = 0)

/-- The start of the frame lies after its end. -/
def Inverted (top bottom : Option ℤ) : Prop := ∃ a b, top = some a ∧ bottom = some b ∧ b < a

section Removing

variable {t : Table R κ} {item : ItemSum R σ V} {p e : ℕ} {top bottom : Option ℤ}

theorem topStart_le_bottomEnd (h : ¬ Inverted top bottom) (hpe : p ≤ e) (i : ℕ) :
    topStart p e top i ≤ bottomEnd p e bottom i := by
  cases top with
  | none =>
    cases bottom with
    | none => exact hpe
    | some b => exact le_clip _ _ _
  | some a =>
    cases bottom with
    | none => exact clip_le hpe _
    | some b =>
      have hab : a ≤ b := by
        by_contra hlt
        exact h ⟨a, b, rfl, rfl, by omega⟩
      exact clip_mono (by omega)

theorem bottomEnd_le_topStart (h : Inverted top bottom) (i : ℕ) :
    bottomEnd p e bottom i ≤ topStart p e top i := by
  obtain ⟨a, b, rfl, rfl, hlt⟩ := h
  exact clip_mono (by omega)

theorem bottomEnd_mono (i : ℕ) : bottomEnd p e bottom i ≤ bottomEnd p e bottom (i + 1) := by
  cases bottom with
  | none => exact le_rfl
  | some b => exact clip_mono (by push_cast; omega)

variable {x : R → Option D} {agg : List R → V} {count : σ → ℕ} {Holds : σ → List R → Prop}
  {Good : σ → Prop}

/-- The row that leaves when row `i + 1` has become the current row counts, if the row that enters
does. -/
def CancelsIn (t : Table R κ) (x : R → Option D) (p e : ℕ) (a b : ℤ) (i : ℕ) : Prop :=
  ∀ (j : ℕ) (r r' : R), (j : ℤ) = (i + 1 : ℕ) + b → p ≤ j → j < e → t.rows[j]? = some r →
    t.rows[min (((i + 1 : ℕ) : ℤ) + a - 1).toNat (e - 1)]? = some r' →
    (x r).isSome = true → (x r').isSome = true

section

variable (hfol : Follows item x agg count Holds Good)
include hfol

theorem Follows.scanned : Window.scanned item = false := by
  rw [Window.scanned, hfol.supports]
  rfl

variable (h : t.Part p e)
include h

/-- The first row of a partition: the rows that enter less those that leave. -/
theorem Follows.start_holds (top bottom : Option ℤ) :
    Holds (startSum t item top bottom p e)
      (slice t.rows (min (p + ((top.map Int.toNat).getD 0)) (bottomEnd p e bottom p))
        (bottomEnd p e bottom p)) := by
  have hlt := h.lt
  have hle := h.le
  have hend : p ≤ bottomEnd p e bottom p ∧ bottomEnd p e bottom p ≤ e := by
    refine ⟨?_, bottomEnd_le hlt.le _ _⟩
    cases bottom with
    | none => exact hlt.le
    | some b => exact le_clip _ _ _
  have hadd : Holds (added item false (slice t.rows p (bottomEnd p e bottom p)) item.clear)
      (slice t.rows (min p (bottomEnd p e bottom p)) (bottomEnd p e bottom p)) := by
    rw [Nat.min_eq_left hend.1]
    exact hfol.removal.add_list _ hfol.clear
  rw [startSum, hfol.scanned, if_neg Bool.false_ne_true]
  cases top with
  | none => simpa [removedAtStart] using hadd
  | some a => exact hfol.removal.remove_heads (by omega) (by omega) a.toNat hadd

variable {i : ℕ} {s : σ} (hpi : p ≤ i) (hie : i + 1 < e)
include hpi hie

/-- A frame whose start does not lie after its end is followed row by row. -/
theorem Follows.next_holds (hinv : ¬ Inverted top bottom)
    (hs : Holds s (slice t.rows (topStart p e top i) (bottomEnd p e bottom i))) :
    Holds (nextSum t item top bottom p e i s)
      (slice t.rows (topStart p e top (i + 1)) (bottomEnd p e bottom (i + 1))) := by
  have hlt := h.lt
  have hle := h.le
  have hadd : Holds (added item false (slice t.rows (bottomEnd p e bottom i)
      (bottomEnd p e bottom (i + 1))) s)
      (slice t.rows (topStart p e top i) (bottomEnd p e bottom (i + 1))) :=
    hfol.removal.add_slice hs (topStart_le_bottomEnd hinv hlt.le i) (bottomEnd_mono i)
  have hfr := topStart_le_bottomEnd hinv hlt.le (i + 1)
  have hfr' : topStart p e top i ≤ bottomEnd p e bottom (i + 1) :=
    (topStart_le_bottomEnd hinv hlt.le i).trans (bottomEnd_mono i)
  have hend : bottomEnd p e bottom (i + 1) ≤ e := bottomEnd_le hlt.le _ _
  rw [nextSum, hfol.scanned, if_neg Bool.false_ne_true]
  cases top with
  | none => simpa [removedAtRow, topStart] using hadd
  | some a =>
    simp only [topStart, clip] at hadd hfr hfr' ⊢
    rw [removedAtRow]
    split
    next hin =>
      -- the row at `i + a` leaves, if it is there
      generalize hq : (((i + 1 : ℕ) : ℤ) + a - 1).toNat = q
      obtain ⟨r, hr⟩ := exists_row (t := t) (i := min q (e - 1)) (by omega)
      rw [loopRows_succ hr]
      have hfrom : max p (min e ((i : ℤ) + a).toNat) = min q (bottomEnd p e bottom (i + 1)) := by
        omega
      have hto : max p (min e (((i + 1 : ℕ) : ℤ) + a).toNat) =
          min (q + 1) (bottomEnd p e bottom (i + 1)) := by
        omega
      rw [hfrom] at hadd
      rw [hto]
      refine hfol.removal.remove_step hadd fun hlt' => ?_
      rwa [Nat.min_eq_left (by omega)] at hr
    next hout =>
      have hsame : max p (min e (((i + 1 : ℕ) : ℤ) + a).toNat) =
          max p (min e ((i : ℤ) + a).toNat) := by
        omega
      rw [hsame]
      exact hadd

/-- The rows that enter and leave in a frame whose start lies after its end: the accumulator that
counts nothing still does so exactly when the rows cancel. -/
theorem Follows.next_idle {a b : ℤ} (hlt : b < a) (hs : count s = 0) (hg : Good s) :
    Good (nextSum t item (some a) (some b) p e i s) ∧
      (count (nextSum t item (some a) (some b) p e i s) = 0 ↔ CancelsIn t x p e a b i) := by
  have hle := h.le
  rw [nextSum, hfol.scanned, if_neg Bool.false_ne_true, removedAtRow, CancelsIn]
  -- the row that leaves
  generalize hk : (((i + 1 : ℕ) : ℤ) + a - 1).toNat = k
  obtain ⟨r', hr'⟩ := exists_row (t := t) (i := min k (e - 1)) (by omega)
  by_cases hj : (p : ℤ) ≤ (i + 1 : ℕ) + b ∧ ((i + 1 : ℕ) : ℤ) + b < e
  · -- a row enters, so a row leaves
    obtain ⟨j, hjb⟩ : ∃ j : ℕ, (j : ℤ) = (i + 1 : ℕ) + b :=
      ⟨(((i + 1 : ℕ) : ℤ) + b).toNat, by omega⟩
    obtain ⟨r, hr⟩ := exists_row (t := t) (i := j) (by omega)
    have h1 : bottomEnd p e (some b) i = j := by simp only [bottomEnd, clip]; omega
    have h2 : bottomEnd p e (some b) (i + 1) = j + 1 := by simp only [bottomEnd, clip]; omega
    rw [if_pos (by omega), loopRows_succ hr', h1, h2, slice_single hr]
    change Good (item.remove r' (item.add r s)) ∧ (count (item.remove r' (item.add r s)) = 0 ↔ _)
    refine ⟨hfol.good_remove r' (hfol.good_add r hg), ?_⟩
    rw [hfol.removal.idle_step hs]
    constructor
    · intro himp j' r1 r2 hj' _ _ hr1 hr2
      obtain rfl : j' = j := by omega
      cases hr.symm.trans hr1
      cases hr'.symm.trans hr2
      exact himp
    · intro hall
      exact hall j r r' hjb (by omega) (by omega) hr hr'
  · -- no row enters, and what leaves is ignored
    have h1 : bottomEnd p e (some b) i = bottomEnd p e (some b) (i + 1) := by
      simp only [bottomEnd, clip]
      omega
    rw [h1, slice_self, added_nil]
    have hsame : removed item false
        (if (p : ℤ) ≤ (i + 1 : ℕ) + a - 1 then loopRows t e k 1 else []) s = s := by
      split
      · rw [loopRows_succ hr']
        exact hfol.removal.remove_zero r' hs
      · exact removed_nil _ _ _
    rw [hsame]
    refine ⟨hg, ⟨fun _ j r r1 hj' hpj hje _ _ _ => absurd ⟨by omega, by omega⟩ hj, fun _ => hs⟩⟩

end

/-- The row that the top bound takes away for the row that the bottom bound hands over in row `i`
counts, if that row does.  This is only asked of a frame whose start lies after its end, and not of
the first row of a partition. -/
def Frame.CancelsAt (t : Table R κ) (x : R → Option D) (f : Frame) (i : ℕ) : Prop :=
  ∀ a b, f.topBound.shift = some a → f.bottomBound.shift = some b → b < a →
    0 < i → t.SamePartition i (i - 1) →
    ∀ (j k : ℕ) (r r' : R), (j : ℤ) = i + b → t.SamePartition i j → t.rows[j]? = some r →
      -- the row before the start of the frame, or the last row of the partition
      ((k : ℤ) = i + a - 1 ∨ (k : ℤ) < i + a - 1 ∧ ¬ t.SamePartition i (k + 1)) →
      t.SamePartition i k → t.rows[k]? = some r' →
      (x r).isSome = true → (x r').isSome = true

/-- The rows that are handed over and taken away cancel in every row. -/
def Frame.Cancels (t : Table R κ) (x : R → Option D) (f : Frame) : Prop :=
  ∀ i, i < t.rows.length → f.CancelsAt t x i

theorem Frame.cancelsAt_start (f : Frame) (h : t.Part p e) : f.CancelsAt t x p := by
  intro a b _ _ _ hpos hsame
  have hle := h.le
  have hlt := h.lt
  have := ((h.samePartition_iff le_rfl hlt (by omega : p - 1 < _)).1 hsame).1
  omega

theorem Frame.cancelsAt_next {f : Frame} {a b : ℤ} (ha : f.topBound.shift = some a)
    (hb : f.bottomBound.shift = some b) (hlt : b < a) (h : t.Part p e) {i : ℕ} (hpi : p ≤ i)
    (hie : i + 1 < e) :
    f.CancelsAt t x (i + 1) ↔ CancelsIn t x p e a b i := by
  have hle := h.le
  have hpart : ∀ {j : ℕ}, j < t.rows.length → (t.SamePartition (i + 1) j ↔ p ≤ j ∧ j < e) :=
    fun hj => h.samePartition_iff (by omega) hie hj
  constructor
  · intro hcan j r r' hj hpj hje hr hr'
    refine hcan a b ha hb hlt (by omega) ((hpart (by omega)).2 ⟨by omega, by omega⟩) j _ r r' hj
      ((hpart (by omega)).2 ⟨hpj, hje⟩) hr ?_ ((hpart (by omega)).2 ⟨by omega, by omega⟩) hr'
    -- the bound is in the partition, or it is behind the last row
    rcases Int.lt_or_le (((i + 1 : ℕ) : ℤ) + a - 1) e with hin | hout
    · left
      omega
    right
    refine ⟨by omega, fun hsame => ?_⟩
    have := (hpart hsame.1).1 hsame
    omega
  · intro hall a' b' ha' hb' _ _ _ j k r r' hj hsamej hr hk hsamek hr'
    cases ha.symm.trans ha'
    cases hb.symm.trans hb'
    have hj' := (hpart hsamej.1).1 hsamej
    have hk' := (hpart hsamek.1).1 hsamek
    refine hall j r r' hj hj'.1 hj'.2 hr ?_
    have hmin : min (((i + 1 : ℕ) : ℤ) + a - 1).toNat (e - 1) = k := by
      rcases hk with hk | ⟨hk, hend⟩
      · omega
      · have : ¬ k + 1 < e := fun hlt' => hend ((hpart (by omega)).2 ⟨by omega, hlt'⟩)
        omega
    rwa [hmin]

/-- **COUNT and SUM, and what is like them.** -/
theorem Follows.compute_iff [DecidableEq κ] (hfol : Follows item x agg count Holds Good)
    {f : Frame} (hf : f.checkFrameBounds = false) (hn : f.PrecedingFits) :
    computeWindowFunc t item f = (List.range t.rows.length).map (fun i => agg (frameRows t f i)) ↔
      f.Cancels t x := by
  by_cases hinv : Inverted f.topBound.shift f.bottomBound.shift
  · -- every frame is empty, and the function must count nothing after every row
    have hempty : ∀ {p e i : ℕ}, t.Part p e → p ≤ i → i < e → frameRows t f i = [] := by
      intro p e i h hpi hie
      rw [frameRows_eq f h hpi hie]
      exact slice_of_le (bottomEnd_le_topStart hinv i)
    refine computeWindowFunc_iff hf hn (fun _ _ _ s => count s = 0 ∧ Good s)
      (fun i => f.CancelsAt t x i) ⟨fun p e h => ?_, fun p e i s h hpi hie hs => ?_⟩
    · have hholds := hfol.start_holds h f.topBound.shift f.bottomBound.shift
      have hzero : min (p + (f.topBound.shift.map Int.toNat).getD 0)
          (bottomEnd p e f.bottomBound.shift p) = bottomEnd p e f.bottomBound.shift p := by
        obtain ⟨a, b, ha, hb, hlt⟩ := hinv
        have hpe := h.lt
        rw [ha, hb]
        simp only [bottomEnd, clip, map_some, getD_some]
        omega
      rw [hzero, slice_self] at hholds
      rw [hempty h le_rfl h.lt, hfol.val hholds]
      exact ⟨⟨fun _ => f.cancelsAt_start h, fun _ => rfl⟩, fun _ =>
        ⟨by simpa using hfol.removal.count_holds hholds, hfol.good hholds⟩⟩
    · obtain ⟨a, b, ha, hb, hlt⟩ := hinv
      obtain ⟨hgood, hcount⟩ := hfol.next_idle h hpi hie hlt hs.1 hs.2
      rw [hempty h (by omega) hie, ha, hb, hfol.val_empty hgood, hcount,
        Frame.cancelsAt_next ha hb hlt h hpi hie]
      exact ⟨Iff.rfl, fun hok => ⟨hok, hgood⟩⟩
  · have hall : f.Cancels t x := fun i _ a b ha hb hlt => absurd ⟨a, b, ha, hb, hlt⟩ hinv
    refine ⟨fun _ => hall, fun _ => ?_⟩
    refine (computeWindowFunc_iff hf hn
      (fun p e i s => Holds s (slice t.rows (topStart p e f.topBound.shift i)
        (bottomEnd p e f.bottomBound.shift i)))
      (fun _ => True) ⟨fun p e h => ?_, fun p e i s h hpi hie hs => ?_⟩).2 fun _ _ => trivial
    · have hholds := hfol.start_holds h f.topBound.shift f.bottomBound.shift
      have hfr := topStart_le_bottomEnd hinv h.lt.le p
      have hfrom : min (p + (f.topBound.shift.map Int.toNat).getD 0)
          (bottomEnd p e f.bottomBound.shift p) = topStart p e f.topBound.shift p := by
        have hpe := h.lt
        have hend := bottomEnd_le hpe.le f.bottomBound.shift p
        cases htop : f.topBound.shift with
        | none =>
          rw [htop] at hfr
          simpa [topStart] using hfr
        | some a =>
          rw [htop] at hfr
          simp only [topStart, clip, map_some, getD_some] at hfr ⊢
          omega
      rw [hfrom] at hholds
      rw [frameRows_eq f h le_rfl h.lt, hfol.val hholds]
      exact ⟨⟨fun _ => trivial, fun _ => rfl⟩, fun _ => hholds⟩
    · have hholds := hfol.next_holds h hpi hie hinv hs
      rw [frameRows_eq f h (by omega) hie, hfol.val hholds]
      exact ⟨⟨fun _ => trivial, fun _ => rfl⟩, fun _ => hholds⟩

end Removing

/-! ### COUNT and SUM -/

variable (x : R → Option D) (l : List R)

theorem filter_isSome_length :
    (l.filter fun r => (x r).isSome).length = (l.filterMap x).length := by
  induction l with
  | nil => rfl
  | cons r l ih => cases h : x r <;> simp [h, ih]

theorem filterMap_snoc (r : R) : (l ++ [r]).filterMap x = l.filterMap x ++ (x r).toList := by
  cases h : x r <;> simp [filterMap_append, h]

theorem filterMap_cons_toList (r : R) : (r :: l).filterMap x = (x r).toList ++ l.filterMap x := by
  cases h : x r <;> simp [h]

theorem follows_count :
    Follows (itemSumCount x) x (countOf x) id (fun s l => s = (l.filterMap x).length)
      (fun _ => True) where
  removal :=
    { add_holds := by
        rintro s l r rfl
        cases h : x r <;> simp [itemSumCount, h]
      remove_holds := by
        rintro s r l rfl
        cases h : x r <;> simp [itemSumCount, h]
      remove_zero := by
        rintro s r rfl
        cases h : x r <;> simp [itemSumCount, h]
      count_holds := fun h => by rw [filter_isSome_length]; exact h
      count_add := fun s r => by cases h : x r <;> simp [itemSumCount, h]
      count_remove := fun s r => by
        cases h : x r <;> simp [itemSumCount, h]
        omega }
  supports := rfl
  clear := rfl
  val := fun h => h
  good := fun _ => trivial
  good_add := fun _ _ => trivial
  good_remove := fun _ _ => trivial
  val_empty := fun _ => Iff.rfl

section Sum

variable [AddCommGroup D]

/-- The flag `null_value` says that nothing is counted. -/
def SumState.Good (s : SumState D) : Prop := s.nullValue = !decide (0 < s.count)

/-- The state of `SUM(x)` over some rows. -/
def SumState.Holds (x : R → Option D) (s : SumState D) (l : List R) : Prop :=
  s.count = (l.filterMap x).length ∧ s.sum = (l.filterMap x).sum ∧ s.Good

theorem addHelper_none (removal : Bool) (s : SumState D) : addHelper removal none s = s := rfl

theorem addHelper_add (v : D) (s : SumState D) :
    (addHelper false (some v) s).count = s.count + 1 ∧
      (addHelper false (some v) s).sum = v + s.sum ∧ (addHelper false (some v) s).Good := by
  simp [addHelper, SumState.sum, SumState.Good]

theorem addHelper_remove (v : D) {s : SumState D} (hs : 0 < s.count) :
    (addHelper true (some v) s).count = s.count - 1 ∧
      (addHelper true (some v) s).sum = s.sum - v ∧ (addHelper true (some v) s).Good := by
  simp [addHelper, SumState.sum, SumState.Good, hs]

theorem addHelper_remove_zero (arg : Option D) {s : SumState D} (hs : s.count = 0) :
    addHelper true arg s = s := by
  cases arg <;> simp [addHelper, hs]

theorem addHelper_good {s : SumState D} (hs : s.Good) (removal : Bool) (arg : Option D) :
    (addHelper removal arg s).Good := by
  cases arg with
  | none => exact hs
  | some v =>
    cases removal with
    | false => exact (addHelper_add v s).2.2
    | true =>
      rcases Nat.eq_zero_or_pos s.count with hzero | hpos
      · rw [addHelper_remove_zero _ hzero]
        exact hs
      · exact (addHelper_remove v hpos).2.2

theorem follows_sum :
    Follows (itemSumSum x) x (sumOf x) SumState.count (SumState.Holds x) SumState.Good where
  removal :=
    { add_holds := by
        rintro s l r ⟨hcount, hsum, hgood⟩
        change SumState.Holds x (addHelper false (x r) s) (l ++ [r])
        cases h : x r with
        | none =>
          refine ⟨?_, ?_, hgood⟩ <;> rw [filterMap_snoc, h] <;> simpa [addHelper_none]
        | some v =>
          obtain ⟨hc, hv, hg⟩ := addHelper_add v s
          refine ⟨?_, ?_, hg⟩ <;> rw [filterMap_snoc, h]
          · simp [hc, hcount]
          · simp [hv, hsum, add_comm]
      remove_holds := by
        rintro s r l ⟨hcount, hsum, hgood⟩
        change SumState.Holds x (addHelper true (x r) s) l
        rw [filterMap_cons_toList] at hcount hsum
        cases h : x r with
        | none =>
          rw [h] at hcount hsum
          exact ⟨hcount, hsum, hgood⟩
        | some v =>
          rw [h] at hcount hsum
          simp only [toList_some, singleton_append, length_cons, sum_cons] at hcount hsum
          obtain ⟨hc, hv, hg⟩ := addHelper_remove v (by omega : 0 < s.count)
          refine ⟨by omega, ?_, hg⟩
          rw [hv, hsum, add_sub_cancel_left]
      remove_zero := fun r hs => addHelper_remove_zero (x r) hs
      count_holds := fun h => by rw [filter_isSome_length]; exact h.1
      count_add := fun s r => by
        change (addHelper false (x r) s).count = _
        cases h : x r with
        | none => rfl
        | some v => exact (addHelper_add v s).1
      count_remove := fun s r => by
        change (addHelper true (x r) s).count = _
        cases h : x r with
        | none => rfl
        | some v =>
          rcases Nat.eq_zero_or_pos s.count with hzero | hpos
          · rw [addHelper_remove_zero _ hzero, hzero]
            rfl
          · exact (addHelper_remove v hpos).1 }
  supports := rfl
  clear := ⟨rfl, rfl, rfl⟩
  val := by
    rintro s l ⟨hcount, hsum, hgood⟩
    change (if s.nullValue then none else some s.sum) = _
    rw [hgood, hcount, hsum, sumOf]
    cases l.filterMap x <;> simp
  good := fun h => h.2.2
  good_add := fun r hs => addHelper_good hs false (x r)
  good_remove := fun r hs => addHelper_good hs true (x r)
  val_empty := by
    intro s hs
    change (if s.nullValue then none else some s.sum) = _ ↔ _
    rw [hs]
    rcases Nat.eq_zero_or_pos s.count with hzero | hpos
    · simp [hzero, sumOf]
    · simp [hpos, sumOf, hpos.ne']

end Sum

/-! ### The result -/

/-- **ROWS frames.**  The frame is accepted, and no offset of a bound PRECEDING exceeds a
`longlong`.  COUNT and SUM are saved right for every row exactly when the rows that are handed
over and taken away cancel in every frame whose start lies after its end.  A function that is
computed by the scan is given the rows of the frame. -/
theorem computeWindowFunc_spec [DecidableEq κ] [AddCommGroup D] (t : Table R κ) (x : R → Option D)
    (f : Frame) (hf : f.checkFrameBounds = false) (hn : f.PrecedingFits) :
    (computeWindowFunc t (itemSumCount x) f =
        (List.range t.rows.length).map (fun i => countOf x (frameRows t f i)) ↔
      f.Cancels t x) ∧
    (computeWindowFunc t (itemSumSum x) f =
        (List.range t.rows.length).map (fun i => sumOf x (frameRows t f i)) ↔
      f.Cancels t x) ∧
    ∀ {σ V : Type} (item : ItemSum R σ V), item.supportsRemoval = false →
      computeWindowFunc t item f = (List.range t.rows.length).map fun i =>
        item.val ((frameRows t f i).foldl (fun s r => item.add r s) item.clear) :=
  ⟨(follows_count x).compute_iff hf hn, (follows_sum x).compute_iff hf hn,
    fun _ hitem => computeWindowFunc_scan hf hn hitem⟩

/-- Three rows of one partition; the argument is NULL in the second one. -/
def threeRows : Table (Option ℤ) Unit := ⟨[some 5, none, some 7], fun _ => (), false⟩

/-- `ROWS BETWEEN 1 PRECEDING AND CURRENT ROW`. -/
def backOne : Frame := ⟨⟨.preceding, some 1⟩, ⟨.current, none⟩⟩

/-- A running sum of two rows. -/
theorem computeWindowFunc_backOne :
    computeWindowFunc threeRows (itemSumSum id) backOne = [some 5, some 5, some 7] := by
  have hn : backOne.PrecedingFits := by
    intro b hb _ n hm
    rcases mem_cons.1 hb with rfl | hb
    · cases hm
      norm_num
    · rcases mem_singleton.1 hb with rfl
      cases hm
  have hcancels : backOne.Cancels threeRows id := by
    intro i _ a b ha hb hlt
    cases ha
    cases hb
    norm_num at hlt
  have h := (computeWindowFunc_spec threeRows id backOne rfl hn).2.1.2 hcancels
  rw [h]
  decide

/-- `ROWS BETWEEN 2 FOLLOWING AND CURRENT ROW`, written with the bound `0 PRECEDING`: the start lies
after the end. -/
def startsAfterEnd : Frame := ⟨⟨.following, some 2⟩, ⟨.preceding, some 0⟩⟩

/-- `ROWS BETWEEN 18446744073709551615 PRECEDING AND CURRENT ROW`. -/
def farBack : Frame := ⟨⟨.preceding, some 18446744073709551615⟩, ⟨.current, none⟩⟩

/-- The frames of `startsAfterEnd` are empty, but the row that is added is not removed again when
the row two rows on is NULL.  An offset that exceeds a `longlong` is taken for a negative one. -/
theorem window_frame_goes_wrong :
    startsAfterEnd.checkFrameBounds = false ∧
      computeWindowFunc (⟨[some 1, some 5, none], fun _ => (), false⟩ : Table (Option ℤ) Unit)
          (itemSumCount id) startsAfterEnd = [0, 1, 1] ∧
      frameRows (⟨[some 1, some 5, none], fun _ => (), false⟩ : Table (Option ℤ) Unit)
          startsAfterEnd 1 = [] ∧
      farBack.checkFrameBounds = false ∧
      computeWindowFunc threeRows (itemSumCount id) farBack = [0, 0, 0] ∧
      frameRows threeRows farBack 2 = [some 5, none, some 7] := by
  decide +kernel

end Window
