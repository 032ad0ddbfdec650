/-
**Window functions over ROWS frames: the cursors and the run over the sorted rows.**

`compute_window_func` of `sql_window.cc` makes one pass over the rows, sorted by the partition
columns.  A frame is never built: a cursor for the bottom bound of the frame walks ahead and adds
rows to the aggregate function, a cursor for the top bound walks behind and removes them again,
and the value the function has when both have been told about a row is saved for it.  A function
that cannot remove a row is computed by a third cursor, which reads the positions of the other two
and adds the rows between them to the cleared function.

This module is the code: the cursors over the row numbers, the six classes of frame bounds that a
ROWS frame uses, the aggregates COUNT and SUM over DECIMAL, and the loop over the rows.  The
buffer `record` into which every cursor reads a row is the one record of the table, so a row that
a cursor reads is what the next `add` or `remove` sees.

Main definitions:

* `ItemSum`, `itemSumCount`, `itemSumSum`: an aggregate function, COUNT and SUM;
* `Table`, `PartitionCursor`: the sorted rows, and a cursor that stays in one partition;
* `FrameCursor`: the frame bounds, with `preNextPartition`, `nextPartition`, `preNextRow` and
  `nextRow`;
* `Frame.checkFrameBounds`, `getFrameCursor`: which frames are accepted, and the cursor of a bound;
* `computeWindowFunc`: the values saved for the rows, in their order.
-/

import Mathlib.Tactic

set_option autoImplicit false

namespace Window

/-! ### Aggregate functions -/

/-- An aggregate function as the cursors see it: `add` and `remove` take the row that stands in
the record buffer of the table. -/
structure ItemSum (R σ V : Type) where
  clear : σ
  add : R → σ → σ
  remove : R → σ → σ
  val : σ → V
  supportsRemoval : Bool

def itemSumCount {R D : Type} (x : R → Option D) : ItemSum R ℕ ℕ where
  clear := 0
  add r count := if (x r).isNone then count else count + 1
  remove r count := if (x r).isNone then count else if 0 < count then count - 1 else count
  val count := count
  supportsRemoval := true

/-- The state of `SUM(x)` over DECIMAL: two buffers are used in turn, `currDecBuff` says which of
them holds the sum. -/
structure SumState (D : Type) where
  nullValue : Bool
  count : ℕ
  decBuffs : Bool → D
  currDecBuff : Bool

/-- The sum that is held. -/
def SumState.sum {D : Type} (s : SumState D) : D := s.decBuffs s.currDecBuff

/-- `Item_sum_sum::add_helper` on a DECIMAL argument; decimal arithmetic is exact. -/
def addHelper {D : Type} [AddCommGroup D] (performRemoval : Bool) (arg : Option D)
    (s : SumState D) : SumState D :=
  match arg with
  | none => s
  | some val =>
    let other := !s.currDecBuff
    if performRemoval then
      if 0 < s.count then
        { nullValue := !decide (0 < s.count - 1)
          count := s.count - 1
          decBuffs := Function.update s.decBuffs other (s.decBuffs s.currDecBuff - val)
          currDecBuff := other }
      else s
    else
      { nullValue := !decide (0 < s.count + 1)
        count := s.count + 1
        decBuffs := Function.update s.decBuffs other (val + s.decBuffs s.currDecBuff)
        currDecBuff := other }

/-- `SUM(x)` over DECIMAL. -/
def itemSumSum {R D : Type} [AddCommGroup D] (x : R → Option D) :
    ItemSum R (SumState D) (Option D) where
  clear := ⟨true, 0, fun _ => 0, false⟩
  add r s := addHelper false (x r) s
  remove r s := addHelper true (x r) s
  val s := if s.nullValue then none else some s.sum
  supportsRemoval := true

/-! ### Cursors over the rows -/

/-- The sorted rows.  `key` is the value of the partition columns; `ioCache` says that the row
ids are read from a file and not from an array of pointers. -/
structure Table (R κ : Type) where
  rows : List R
  key : R → κ
  ioCache : Bool

/-- What a cursor changes besides itself: the record buffer and the aggregate function. -/
structure Work (R σ : Type) where
  record : R
  sum : σ

section Cursors

variable {R κ σ V : Type}

section

variable (t : Table R κ) (item : ItemSum R σ V)

def Table.atEof (pos : ℕ) : Bool :=
  if t.ioCache then decide (t.rows.length ≤ pos) else decide (pos = t.rows.length)

/-- `Rowid_seq_cursor::next`: whether it failed, and the new position. -/
def Table.next (pos : ℕ) : Bool × ℕ :=
  if t.atEof pos then (true, pos) else (false, pos + 1)

/-- `Rowid_seq_cursor::prev`; no caller looks at its result. -/
def Table.prev (pos : ℕ) : ℕ := if pos = 0 then pos else pos - 1

def Table.moveTo (rowNumber : ℕ) : ℕ :=
  if t.ioCache then rowNumber else min t.rows.length rowNumber

/-- `Table_read_cursor::fetch`: whether it failed, and the record buffer. -/
def Table.fetch (pos : ℕ) (record : R) : Bool × R :=
  if t.atEof pos then (true, record)
  else
    match t.rows[pos]? with
    | some r => (false, r)
    | none => (true, record)

/-- `Group_bound_tracker`: the cached value of the partition columns, `none` before the first
check. -/
abbrev Tracker (κ : Type) := Option κ

/-- `check_if_next_group`: whether the row starts a group, and the new cache. -/
def checkIfNextGroup [DecidableEq κ] (tracker : Tracker κ) (k : κ) : Bool × Tracker κ :=
  (decide (tracker ≠ some k), some k)

structure PartitionCursor (κ : Type) where
  pos : ℕ
  boundTracker : Tracker κ
  endOfPartition : Bool

def PartitionCursor.init : PartitionCursor κ := ⟨0, none, false⟩

def PartitionCursor.onNextPartition [DecidableEq κ] (t : Table R κ) (c : PartitionCursor κ)
    (rownum : ℕ) (record : R) : PartitionCursor κ :=
  { pos := t.moveTo rownum
    boundTracker := (checkIfNextGroup c.boundTracker (t.key record)).2
    endOfPartition := false }

/-- `Partition_read_cursor::next`: whether it failed, the cursor and the record buffer.  At the
end of the partition the cursor goes back to its last row. -/
def PartitionCursor.next [DecidableEq κ] (t : Table R κ) (c : PartitionCursor κ) (record : R) :
    Bool × PartitionCursor κ × R :=
  if c.endOfPartition then (true, c, record)
  else
    let res := t.next c.pos
    if res.1 then (true, { c with pos := Table.prev res.2, endOfPartition := true }, record)
    else
      let row := t.fetch res.2 record
      if row.1 then (true, { c with pos := Table.prev res.2, endOfPartition := true }, row.2)
      else if c.boundTracker ≠ some (t.key row.2) then
        (true, { c with pos := Table.prev res.2, endOfPartition := true }, row.2)
      else (false, { c with pos := res.2 }, row.2)

/-! ### Frame bounds -/

/-- The classes of frame bounds of a ROWS frame.  `Frame_rows_current_row_top` is
`nRowsPreceding true 0`. -/
inductive FrameCursor (κ : Type) where
  | unboundedPreceding (currRownum : ℕ)
  | unboundedFollowing (cursor : PartitionCursor κ)
  | nRowsPreceding (isTopBound : Bool) (nRows nRowsBehind pos : ℕ)
  | rowsCurrentRowBottom (currRownum : ℕ)
  | nRowsFollowing (isTopBound : Bool) (nRows : ℕ) (cursor : PartitionCursor κ)
      (atPartitionEnd : Bool)

/-- `add_value_to_items`; a cursor that was told `set_no_action` only moves. -/
def addValueToItems (noAction : Bool) (w : Work R σ) : Work R σ :=
  if noAction then w else { w with sum := item.add w.record w.sum }

def removeValueFromItems (noAction : Bool) (w : Work R σ) : Work R σ :=
  if noAction then w else { w with sum := item.remove w.record w.sum }

/-- The record buffer after a `fetch` whose result is not looked at. -/
def Table.read (pos : ℕ) (w : Work R σ) : Work R σ :=
  { w with record := (t.fetch pos w.record).2 }

end

/-- `longlong rows_difference= n_rows - n_rows_behind`: an unsigned difference of 64 bits, read
as a signed number. -/
def rowsDifference (nRows nRowsBehind : ℕ) : ℤ :=
  let d : ℕ := (nRows + 2 ^ 64 - nRowsBehind) % 2 ^ 64
  if d < 2 ^ 63 then (d : ℤ) else (d : ℤ) - 2 ^ 64

variable [DecidableEq κ] (t : Table R κ) (item : ItemSum R σ V) (noAction : Bool)

omit [DecidableEq κ] in
/-- `Frame_n_rows_preceding::move_cursor_if_possible`: `n_rows_behind`, the position and the
work. -/
def moveCursorIfPossible (isTopBound : Bool) (nRows nRowsBehind pos : ℕ) (w : Work R σ) :
    ℕ × ℕ × Work R σ :=
  let rowsDiff := rowsDifference nRows nRowsBehind
  if 0 < rowsDiff then (nRowsBehind, pos, w)
  else if rowsDiff = 0 then
    if isTopBound then (nRowsBehind, pos, w)
    else (nRowsBehind, pos, addValueToItems item noAction (t.read pos w))
  else
    -- the counter is a 64-bit number too
    let behind := (nRowsBehind + (2 ^ 64 - 1)) % 2 ^ 64
    if isTopBound then
      (behind, (t.next pos).2, removeValueFromItems item noAction (t.read pos w))
    else
      (behind, (t.next pos).2, addValueToItems item noAction (t.read (t.next pos).2 w))

/-- `Frame_n_rows_following::next_part_top`: the loop over the rows before the bound. -/
def nextPartTop :
    ℕ → PartitionCursor κ → Bool → Work R σ → PartitionCursor κ × Bool × Work R σ
  | 0, c, atEnd, w => (c, atEnd, w)
  | i + 1, c, atEnd, w =>
    let row := t.fetch c.pos w.record
    if row.1 then (c, atEnd, { w with record := row.2 })
    else
      let w' := removeValueFromItems item noAction { w with record := row.2 }
      let res := c.next t w'.record
      nextPartTop i res.2.1 (atEnd || res.1) { w' with record := res.2.2 }

/-- The loop of `Frame_n_rows_following::next_part_bottom`. -/
def nextPartBottomLoop :
    ℕ → PartitionCursor κ → Bool → Work R σ → PartitionCursor κ × Bool × Work R σ
  | 0, c, atEnd, w => (c, atEnd, w)
  | i + 1, c, atEnd, w =>
    let res := c.next t w.record
    if res.1 then (res.2.1, true, { w with record := res.2.2 })
    else
      nextPartBottomLoop i res.2.1 atEnd
        (addValueToItems item noAction { w with record := res.2.2 })

def nextPartBottom (nRows : ℕ) (c : PartitionCursor κ) (atEnd : Bool) (w : Work R σ) :
    PartitionCursor κ × Bool × Work R σ :=
  let row := t.fetch c.pos w.record
  if row.1 then (c, atEnd, { w with record := row.2 })
  else
    nextPartBottomLoop t item noAction nRows c atEnd
      (addValueToItems item noAction { w with record := row.2 })

def nextRowTop (c : PartitionCursor κ) (atEnd : Bool) (w : Work R σ) :
    PartitionCursor κ × Bool × Work R σ :=
  let row := t.fetch c.pos w.record
  if row.1 then (c, true, { w with record := row.2 })
  else
    let w' := removeValueFromItems item noAction { w with record := row.2 }
    let res := c.next t w'.record
    (res.2.1, atEnd || res.1, { w' with record := res.2.2 })

def nextRowBottom (c : PartitionCursor κ) (atEnd : Bool) (w : Work R σ) :
    PartitionCursor κ × Bool × Work R σ :=
  if atEnd then (c, atEnd, w)
  else
    let res := c.next t w.record
    if res.1 then (res.2.1, true, { w with record := res.2.2 })
    else (res.2.1, atEnd, addValueToItems item noAction { w with record := res.2.2 })

/-- The loop of `Frame_unbounded_following::next_partition`, `while (!cursor.next())`.  Every
successful round moves the cursor one row on, so the number of rows bounds the rounds. -/
def walkToEnd :
    ℕ → PartitionCursor κ → Work R σ → PartitionCursor κ × Work R σ
  | 0, c, w => (c, w)
  | fuel + 1, c, w =>
    let res := c.next t w.record
    if res.1 then (res.2.1, { w with record := res.2.2 })
    else
      walkToEnd fuel res.2.1 (addValueToItems item noAction { w with record := res.2.2 })

def FrameCursor.preNextPartition (rownum : ℕ) :
    FrameCursor κ → Work R σ → FrameCursor κ × Work R σ
  | .unboundedFollowing c, w => (.unboundedFollowing (c.onNextPartition t rownum w.record), w)
  | .rowsCurrentRowBottom _, w =>
    (.rowsCurrentRowBottom rownum, addValueToItems item noAction w)
  | .nRowsFollowing isTop n c _, w =>
    (.nRowsFollowing isTop n (c.onNextPartition t rownum w.record) false, w)
  | fc, w => (fc, w)

def FrameCursor.nextPartition (rownum : ℕ) :
    FrameCursor κ → Work R σ → FrameCursor κ × Work R σ
  | .unboundedPreceding _, w => (.unboundedPreceding rownum, w)
  | .unboundedFollowing c, w =>
    let res := walkToEnd t item noAction t.rows.length c
      (addValueToItems item noAction (t.read c.pos w))
    (.unboundedFollowing res.1, res.2)
  | .nRowsPreceding isTop n _ _, w =>
    let res := moveCursorIfPossible t item noAction isTop n 0 (t.moveTo rownum) w
    (.nRowsPreceding isTop n res.1 res.2.1, res.2.2)
  | .rowsCurrentRowBottom curr, w => (.rowsCurrentRowBottom curr, w)
  | .nRowsFollowing isTop n c atEnd, w =>
    let res := if isTop then nextPartTop t item noAction n c atEnd w
      else nextPartBottom t item noAction n c atEnd w
    (.nRowsFollowing isTop n res.1 res.2.1, res.2.2)

omit [DecidableEq κ] in
/-- `pre_next_row`: only the bound CURRENT ROW acts here, while the record buffer still holds the
current row. -/
def FrameCursor.preNextRow : FrameCursor κ → Work R σ → FrameCursor κ × Work R σ
  | .rowsCurrentRowBottom curr, w => (.rowsCurrentRowBottom curr, addValueToItems item noAction w)
  | fc, w => (fc, w)

def FrameCursor.nextRow : FrameCursor κ → Work R σ → FrameCursor κ × Work R σ
  | .unboundedPreceding curr, w => (.unboundedPreceding curr, w)
  | .unboundedFollowing c, w => (.unboundedFollowing c, w)
  | .nRowsPreceding isTop n behind pos, w =>
    let res := moveCursorIfPossible t item noAction isTop n ((behind + 1) % 2 ^ 64) pos w
    (.nRowsPreceding isTop n res.1 res.2.1, res.2.2)
  | .rowsCurrentRowBottom curr, w => (.rowsCurrentRowBottom (curr + 1), w)
  | .nRowsFollowing isTop n c atEnd, w =>
    let res := if isTop then nextRowTop t item noAction c atEnd w
      else nextRowBottom t item noAction c atEnd w
    (.nRowsFollowing isTop n res.1 res.2.1, res.2.2)

omit [DecidableEq κ] in
def FrameCursor.isOutsideComputationBounds : FrameCursor κ → Bool
  | .nRowsPreceding isTop n behind _ => !isTop && decide ((n + 2 ^ 64 - behind) % 2 ^ 64 ≠ 0)
  | .nRowsFollowing isTop _ _ atEnd => atEnd && isTop
  | _ => false

omit [DecidableEq κ] in
def FrameCursor.getCurrRownum : FrameCursor κ → ℕ
  | .unboundedPreceding curr => curr
  | .unboundedFollowing c => c.pos
  | .nRowsPreceding _ _ _ pos => pos
  | .rowsCurrentRowBottom curr => curr
  | .nRowsFollowing _ _ c _ => c.pos

omit [DecidableEq κ] in
/-- The loop of `Frame_scan_cursor::compute_values_for_current_row`, with the number of row
numbers from `idx` to the bottom. -/
def scanLoop : ℕ → ℕ → Work R σ → ℕ × Work R σ
  | 0, pos, w => (pos, w)
  | n + 1, pos, w =>
    let row := t.fetch pos w.record
    if row.1 then (pos, { w with record := row.2 })
    else
      let w' := addValueToItems item false { w with record := row.2 }
      let res := t.next pos
      if res.1 then (res.2, w') else scanLoop n res.2 w'

omit [DecidableEq κ] in
def computeValuesForCurrentRow (topBound bottomBound : FrameCursor κ) (w : Work R σ) : Work R σ :=
  if topBound.isOutsideComputationBounds || bottomBound.isOutsideComputationBounds then w
  else
    let startRownum := topBound.getCurrRownum
    let bottomRownum := bottomBound.getCurrRownum
    (scanLoop t item (bottomRownum + 1 - startRownum) (t.moveTo startRownum) w).2

end Cursors

/-! ### Frames -/

inductive BoundPrecedenceType where
  | preceding
  | current
  | following
deriving DecidableEq, Repr

/-- `Window_frame_bound`; a bound PRECEDING or FOLLOWING without an offset is UNBOUNDED. -/
structure FrameBound where
  precedenceType : BoundPrecedenceType
  offset : Option ℕ
deriving DecidableEq, Repr

def FrameBound.isUnbounded (b : FrameBound) : Bool := b.offset.isNone

/-- A frame whose unit is ROWS. -/
structure Frame where
  topBound : FrameBound
  bottomBound : FrameBound
deriving DecidableEq, Repr

/-- `Window_frame::check_frame_bounds`; true means that the frame is refused. -/
def Frame.checkFrameBounds (f : Frame) : Bool :=
  (f.topBound.isUnbounded && decide (f.topBound.precedenceType = .following)) ||
  (f.bottomBound.isUnbounded && decide (f.bottomBound.precedenceType = .preceding)) ||
  (decide (f.topBound.precedenceType = .current) &&
    decide (f.bottomBound.precedenceType = .preceding)) ||
  (decide (f.bottomBound.precedenceType = .current) &&
    decide (f.topBound.precedenceType = .following))

/-- `get_frame_cursor` for a ROWS frame, with what the constructor and `init` set. -/
def getFrameCursor {κ : Type} (f : Frame) (isTopBound : Bool) : FrameCursor κ :=
  let bound := if isTopBound then f.topBound else f.bottomBound
  match bound.precedenceType, bound.offset with
  | .preceding, none => .unboundedPreceding 0
  | .following, none => .unboundedFollowing PartitionCursor.init
  | .preceding, some n => .nRowsPreceding isTopBound n 0 0
  | .following, some n => .nRowsFollowing isTopBound n PartitionCursor.init false
  | .current, _ =>
    if isTopBound then .nRowsPreceding true 0 0 0 else .rowsCurrentRowBottom 0

/-! ### The run over the rows -/

section Run

variable {R κ σ V : Type} [DecidableEq κ]

/-- What belongs to one window function: its partition tracker, the aggregate function and the
cursors of its frame.  The scan cursor has no state that matters here: it clears the function
and moves its own cursor to the top bound for every row. -/
structure WinFunc (κ σ : Type) where
  tracker : Tracker κ
  sum : σ
  bottom : FrameCursor κ
  top : FrameCursor κ

/-- `get_window_functions_required_cursors`: a function that cannot remove rows gets the scan
cursor, and the two bounds only move. -/
def scanned (item : ItemSum R σ V) : Bool := !item.supportsRemoval

variable (t : Table R κ) (item : ItemSum R σ V)

/-- `notify_cursors_partition_changed`: first every cursor prepares itself, then every cursor
moves; the bottom bound comes before the top bound. -/
def notifyCursorsPartitionChanged (rownum : ℕ) (bottom top : FrameCursor κ) (w : Work R σ) :
    FrameCursor κ × FrameCursor κ × Work R σ :=
  let noAction := scanned item
  let b1 := bottom.preNextPartition t item noAction rownum w
  let t1 := top.preNextPartition t item noAction rownum b1.2
  let w1 := if scanned item then { t1.2 with sum := item.clear } else t1.2
  let b2 := b1.1.nextPartition t item noAction rownum w1
  let t2 := t1.1.nextPartition t item noAction rownum b2.2
  let w2 := if scanned item then computeValuesForCurrentRow t item t2.1 b2.1 t2.2 else t2.2
  (b2.1, t2.1, w2)

def notifyCursorsNextRow (bottom top : FrameCursor κ) (w : Work R σ) :
    FrameCursor κ × FrameCursor κ × Work R σ :=
  let noAction := scanned item
  let b1 := bottom.preNextRow item noAction w
  let t1 := top.preNextRow item noAction b1.2
  let w1 := if scanned item then { t1.2 with sum := item.clear } else t1.2
  let b2 := b1.1.nextRow t item noAction w1
  let t2 := t1.1.nextRow t item noAction b2.2
  let w2 := if scanned item then computeValuesForCurrentRow t item t2.1 b2.1 t2.2 else t2.2
  (b2.1, t2.1, w2)

/-- The body of the loop of `compute_window_func` for one function.  The record buffer holds the
current row: it was read just now, or restored after the function before this one. -/
def processRow (rownum : ℕ) (row : R) (f : WinFunc κ σ) : WinFunc κ σ :=
  let group := checkIfNextGroup f.tracker (t.key row)
  let res :=
    if group.1 || decide (rownum = 0) then
      notifyCursorsPartitionChanged t item rownum f.bottom f.top ⟨row, item.clear⟩
    else notifyCursorsNextRow t item f.bottom f.top ⟨row, f.sum⟩
  ⟨group.2, res.2.2.sum, res.1, res.2.1⟩

/-- The loop of `compute_window_func` over the rows still to be read, and the values that
`save_window_function_values` stores. -/
def computeFrom : List R → ℕ → WinFunc κ σ → List V
  | [], _, _ => []
  | row :: rest, rownum, f =>
    let f' := processRow t item rownum row f
    item.val f'.sum :: computeFrom rest (rownum + 1) f'

/-- `compute_window_func` for one window function: the value saved for each row. -/
def computeWindowFunc (f : Frame) : List V :=
  computeFrom t item t.rows 0 ⟨none, item.clear, getFrameCursor f false, getFrameCursor f true⟩

end Run

end Window
