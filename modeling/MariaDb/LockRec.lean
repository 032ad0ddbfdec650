/-
**Record locks of InnoDB.**

A record lock object belongs to one transaction and one page and covers the records whose bits are
set in its bitmap.  The lock objects of a page form a queue: a request that conflicts with another
transaction's lock is appended as a waiting lock, and whenever a lock or a bit goes away the waiting
locks are examined again, each against the locks ahead of it.  A granted request may reuse an
object that is already in the queue by setting one more bit in it.

A waiting transaction has one waiting lock (`trx->lock.wait_lock`) and points to one transaction
that it waits for (`trx->lock.wait_trx`).  `Deadlock::to_check` collects the transactions whose
waits have to be searched for a cycle.

Transactions, page identifiers and lock objects are told apart by numbers; the number of a
transaction stands for its address, which is what orders `to_check`.

Main definitions:

* `TypeMode`, `Lock`: the flags of a lock and the lock objects;
* `lockRecHasToWait`, `lockHasToWait`: the conflict rules;
* `Waits`, `LockSys`: the waits of the transactions and the lock system;
* `lockRecLock`, `lockRecInsertCheckAndLock`: the requests;
* `regrant`: the loop that examines the waiting locks of a queue again;
* `lockRecDequeueFromPage`, `lockRecUnlock`, `lockCancelWaitingAndRelease`: the ways a lock goes
  away.

Main results:

* `lockRecLock_effect`, `lockRecInsertCheckAndLock_effect`: what a request can do.
-/

import Mathlib.Data.Finset.Basic
import Mathlib.Data.List.Basic
import Mathlib.Logic.Function.Basic
import Mathlib.Tactic

set_option autoImplicit false

namespace LockRec

open Function List

/-! ### Modes and lock objects -/

inductive LockMode where
  | is
  | ix
  | s
  | x
  | autoInc
  deriving DecidableEq, Repr

/-- `lock_mode_compatible()`, by `lock_compatibility_matrix`. -/
def lockModeCompatible : LockMode → LockMode → Bool
  | .is, .x => false
  | .is, _ => true
  | .ix, .is | .ix, .ix | .ix, .autoInc => true
  | .ix, _ => false
  | .s, .is | .s, .s => true
  | .s, _ => false
  | .x, _ => false
  | .autoInc, .is | .autoInc, .ix => true
  | .autoInc, _ => false

/-- `lock_mode_stronger_or_eq()`, by `lock_strength_matrix`. -/
def lockModeStrongerOrEq : LockMode → LockMode → Bool
  | .is, .is => true
  | .is, _ => false
  | .ix, .is | .ix, .ix => true
  | .ix, _ => false
  | .s, .is | .s, .s => true
  | .s, _ => false
  | .x, _ => true
  | .autoInc, .autoInc => true
  | .autoInc, _ => false

theorem lockModeCompatible_comm (m n : LockMode) :
    lockModeCompatible m n = lockModeCompatible n m := by
  cases m <;> cases n <;> rfl

/-- The bits of `lock_t::type_mode` of a record lock: the mode and the flags `LOCK_GAP`,
`LOCK_REC_NOT_GAP`, `LOCK_INSERT_INTENTION` and `LOCK_WAIT`. -/
structure TypeMode where
  mode : LockMode
  gap : Bool := false
  recNotGap : Bool := false
  insertIntention : Bool := false
  wait : Bool := false
  deriving DecidableEq, Repr

def pageHeapNoSupremum : ℕ := 1

/-- `lock_t` for a record lock; `bits` are the positions set in the bitmap of `nBits` bits. -/
structure Lock where
  id : ℕ
  trx : ℕ
  typeMode : TypeMode
  nBits : ℕ
  bits : Finset ℕ
  deriving DecidableEq

def Lock.nthBit (l : Lock) (i : ℕ) : Bool := decide (i < l.nBits) && decide (i ∈ l.bits)

def Lock.isWaiting (l : Lock) : Bool := l.typeMode.wait

def Lock.setNthBit (l : Lock) (i : ℕ) : Lock := { l with bits := insert i l.bits }

def Lock.resetNthBit (l : Lock) (i : ℕ) : Lock := { l with bits := l.bits.erase i }

def Lock.clearWait (l : Lock) : Lock := { l with typeMode := { l.typeMode with wait := false } }

/-- `lock_rec_find_set_bit()`; `none` is `ULINT_UNDEFINED`. -/
def Lock.findSetBit (l : Lock) : Option ℕ := (List.range l.nBits).find? l.nthBit

section Simp

variable (l : Lock) (i j : ℕ)

@[simp] theorem clearWait_id : l.clearWait.id = l.id := rfl
@[simp] theorem clearWait_trx : l.clearWait.trx = l.trx := rfl
@[simp] theorem clearWait_isWaiting : l.clearWait.isWaiting = false := rfl
@[simp] theorem clearWait_nthBit : l.clearWait.nthBit i = l.nthBit i := rfl

theorem nthBit_iff : l.nthBit i = true ↔ i < l.nBits ∧ i ∈ l.bits := by
  simp [Lock.nthBit]

theorem nthBit_setNthBit :
    (l.setNthBit i).nthBit j = true ↔ l.nthBit j = true ∨ (j = i ∧ i < l.nBits) := by
  simp only [nthBit_iff, Lock.setNthBit, Finset.mem_insert]
  constructor
  · rintro ⟨hj, rfl | hm⟩
    · exact .inr ⟨rfl, hj⟩
    · exact .inl ⟨hj, hm⟩
  · rintro (⟨hj, hm⟩ | ⟨rfl, hj⟩)
    · exact ⟨hj, .inr hm⟩
    · exact ⟨hj, .inl rfl⟩

theorem nthBit_resetNthBit : (l.resetNthBit i).nthBit j = true ↔ l.nthBit j = true ∧ j ≠ i := by
  simp only [nthBit_iff, Lock.resetNthBit, Finset.mem_erase]
  tauto

end Simp

/-- The lock covers the record `h` and no other, as a waiting lock does. -/
def Lock.OnlyBit (l : Lock) (h : ℕ) : Prop := ∀ i, l.nthBit i = true ↔ i = h

theorem Lock.OnlyBit.findSetBit {l : Lock} {h : ℕ} (hl : l.OnlyBit h) : l.findSetBit = some h := by
  have hh : l.nthBit h = true := (hl h).mpr rfl
  have hlt : h < l.nBits := ((nthBit_iff l h).mp hh).1
  unfold Lock.findSetBit
  cases hf : (List.range l.nBits).find? l.nthBit with
  | none =>
    exact absurd hh (find?_eq_none.mp hf h (mem_range.mpr hlt))
  | some i =>
    rw [(hl i).mp (find?_some hf)]

/-! ### Conflicts -/

/-- What `lock_rec_has_to_wait()` asks the server layer: `thd_need_ordering_with()` for parallel
replication, and whether the first transaction is a wsrep unique key scan and the second one a
high priority transaction. -/
structure Env where
  needOrdering : ℕ → ℕ → Bool
  wsrepSkip : ℕ → ℕ → Bool

variable (env : Env)

/-- `lock_rec_has_to_wait()`: whether a request of `trx` with the flags `tm` has to wait for `l2`,
a lock on the same record. -/
def lockRecHasToWait (trx : ℕ) (tm : TypeMode) (l2 : Lock) (onSupremum : Bool) : Bool :=
  if trx = l2.trx ∨ lockModeCompatible tm.mode l2.typeMode.mode then false
  -- gap locks wait for nothing, unless they announce an insert
  else if (onSupremum || tm.gap) && !tm.insertIntention then false
  else if !tm.insertIntention && l2.typeMode.gap then false
  else if tm.gap && l2.typeMode.recNotGap then false
  else if l2.typeMode.insertIntention then false
  else if (tm.gap || l2.typeMode.gap) && !env.needOrdering trx l2.trx then false
  else if env.wsrepSkip trx l2.trx then false
  else true

/-- `lock_has_to_wait()` for record locks. -/
def lockHasToWait (l1 l2 : Lock) : Bool :=
  if l1.trx = l2.trx ∨ lockModeCompatible l1.typeMode.mode l2.typeMode.mode then false
  else lockRecHasToWait env l1.trx l1.typeMode l2 (l1.nthBit pageHeapNoSupremum)

theorem lockHasToWait_eq (l1 l2 : Lock) :
    lockHasToWait env l1 l2
      = lockRecHasToWait env l1.trx l1.typeMode l2 (l1.nthBit pageHeapNoSupremum) := by
  unfold lockHasToWait lockRecHasToWait
  split <;> simp_all

theorem lockRecHasToWait_trx_ne {trx : ℕ} {tm : TypeMode} {l2 : Lock} {sup : Bool}
    (h : lockRecHasToWait env trx tm l2 sup = true) : trx ≠ l2.trx := by
  intro he
  simp [lockRecHasToWait, he] at h

/-- `lock_rec_has_expl()`: a granted lock of `trx` on the record that is at least as strong. -/
def lockRecHasExpl (tm : TypeMode) (q : List Lock) (heapNo trx : ℕ) : Option Lock :=
  q.find? fun l => l.nthBit heapNo && (l.trx == trx) &&
    !(l.typeMode.wait || l.typeMode.insertIntention) &&
    (!(l.typeMode.recNotGap || l.typeMode.gap) || (heapNo == pageHeapNoSupremum) ||
      (l.typeMode.recNotGap && tm.recNotGap) || (l.typeMode.gap && tm.gap)) &&
    lockModeStrongerOrEq l.typeMode.mode tm.mode

/-- `lock_rec_other_has_conflicting()`: the first lock on the record that the request has to wait
for. -/
def lockRecOtherHasConflicting (tm : TypeMode) (q : List Lock) (heapNo trx : ℕ) : Option Lock :=
  q.find? fun l => l.nthBit heapNo && lockRecHasToWait env trx tm l (heapNo == pageHeapNoSupremum)

def lockRecFindSimilarOnPage (tm : TypeMode) (heapNo : ℕ) (q : List Lock) (trx : ℕ) : Option Lock :=
  q.find? fun l => (l.trx == trx) && (l.typeMode == tm) && decide (heapNo < l.nBits)

/-- `lock_rec_has_to_wait_in_queue()`: the first lock ahead of `waitLock` in the queue that it has
to wait for. -/
def lockRecHasToWaitInQueue (waitLock : Lock) : List Lock → Option Lock
  | [] => none
  | l :: rest =>
    if l.id = waitLock.id then none
    else if (match waitLock.findSetBit with
        | some heapNo => l.nthBit heapNo
        | none => false) && lockHasToWait env waitLock l then some l
    else lockRecHasToWaitInQueue waitLock rest

/-! ### The state -/

/-- A lock object as `trx->lock.wait_lock` refers to it. -/
structure LockRef where
  page : ℕ
  id : ℕ
  deriving DecidableEq, Repr

/-- What `lock_sys.wait_mutex` protects: the waits of the transactions, `Deadlock::to_check` and
`Deadlock::to_be_checked`. -/
structure Waits where
  waitTrx : ℕ → Option ℕ
  waitLock : ℕ → Option LockRef
  toCheck : Finset ℕ
  toBeChecked : Bool

/-- The lock system: the lock queue of each page, and the number that the next lock object
gets. -/
structure LockSys where
  recHash : ℕ → List Lock
  nextId : ℕ
  waits : Waits

def LockSys.init : LockSys where
  recHash := fun _ => []
  nextId := 0
  waits := { waitTrx := fun _ => none, waitLock := fun _ => none, toCheck := ∅,
             toBeChecked := false }

/-- `dberr_t`, as far as the requests return it. -/
inductive DbErr where
  | success
  | successLockedRec
  | lockWait
  | lockWaitTimeout
  deriving DecidableEq, Repr

section

variable (s : LockSys)

/-- The lock system with another queue on one page. -/
def LockSys.setQueue (page : ℕ) (q : List Lock) : LockSys :=
  { s with recHash := update s.recHash page q }

section

variable (tm : TypeMode) (w : Waits) (trx : ℕ)

/-- `trx` waits with the lock `ref` for the transaction `other`, or for the one that it already
waits for. -/
def Waits.startWait (trx : ℕ) (ref : LockRef) (other : Option ℕ) : Waits :=
  { w with
    waitTrx := if (w.waitTrx trx).isSome then w.waitTrx else update w.waitTrx trx other
    waitLock := update w.waitLock trx (some ref) }

/-- `lock_reset_lock_and_trx_wait()`, the part on the transaction of the lock.  The entry that
leaves `to_check` is the transaction that was waited for. -/
def Waits.resetTrxWait (trx : ℕ) : Waits :=
  { w with
    waitTrx := update w.waitTrx trx none
    waitLock := update w.waitLock trx none
    toCheck := match w.waitTrx trx with
      | some waitTrx => w.toCheck.erase waitTrx
      | none => w.toCheck }

@[simp] theorem startWait_waitLock (ref : LockRef) (other : Option ℕ) :
    (w.startWait trx ref other).waitLock = update w.waitLock trx (some ref) := rfl

@[simp] theorem resetTrxWait_waitTrx :
    (w.resetTrxWait trx).waitTrx = update w.waitTrx trx none := rfl

@[simp] theorem resetTrxWait_waitLock :
    (w.resetTrxWait trx).waitLock = update w.waitLock trx none := rfl

/-! ### Requests -/

/-- All locks on the supremum are of the gap type, so the two flags are dropped. -/
def TypeMode.onRecord (heapNo : ℕ) : TypeMode :=
  if heapNo = pageHeapNoSupremum then { tm with gap := false, recNotGap := false } else tm

/-- The lock object that `lock_rec_create_low()` builds, on a page with `nHeap` records in its
heap. -/
def newLock (nHeap heapNo trx : ℕ) : Lock where
  id := s.nextId
  trx := trx
  typeMode := tm.onRecord heapNo
  nBits := (nHeap + 7) / 8 * 8
  bits := {heapNo}

/-- `lock_rec_create_low()`: append a new lock object to the queue. -/
def lockRecCreateLow (cLock : Option Lock) (tm : TypeMode) (page nHeap heapNo trx : ℕ) : LockSys :=
  let lock := newLock s tm nHeap heapNo trx
  { recHash := update s.recHash page (s.recHash page ++ [lock])
    nextId := s.nextId + 1
    waits :=
      if tm.wait then s.waits.startWait trx ⟨page, lock.id⟩ (cLock.map (·.trx)) else s.waits }

/-- `lock_rec_enqueue_waiting()`; `noWait` is a lock wait timeout of zero. -/
def lockRecEnqueueWaiting (cLock : Lock) (tm : TypeMode) (page nHeap heapNo trx : ℕ) (noWait : Bool)
    : LockSys × DbErr :=
  if noWait then (s, .lockWaitTimeout)
  else (lockRecCreateLow s (some cLock) { tm with wait := true } page nHeap heapNo trx, .lockWait)

/-- Set a bit in the lock object `id` of a queue. -/
def setBitOf (id heapNo : ℕ) (q : List Lock) : List Lock :=
  q.map fun l => if l.id = id then l.setNthBit heapNo else l

/-- `lock_rec_add_to_queue()`: reuse a similar lock object unless a request waits for the
record. -/
def lockRecAddToQueue (page nHeap heapNo trx : ℕ) : LockSys :=
  let tm := tm.onRecord heapNo
  let q := s.recHash page
  if tm.wait then lockRecCreateLow s none tm page nHeap heapNo trx
  else if q.any fun l => l.isWaiting && l.nthBit heapNo then
    lockRecCreateLow s none tm page nHeap heapNo trx
  else match lockRecFindSimilarOnPage tm heapNo q trx with
    | some l => s.setQueue page (setBitOf l.id heapNo q)
    | none => lockRecCreateLow s none tm page nHeap heapNo trx

end

/-- A lock request: `lock_rec_lock()` is called with these; `tableHas` is what `lock_table_has()`
returns for the mode. -/
structure Request where
  impl : Bool := false
  tm : TypeMode
  page : ℕ
  nHeap : ℕ
  heapNo : ℕ
  trx : ℕ
  tableHas : Bool := false
  noWait : Bool := false

/-- `lock_rec_lock()`, when some lock exists on the page but not just the one that can be
extended. -/
def lockRecLockSlow (r : Request) : LockSys × DbErr :=
  match lockRecHasExpl r.tm (s.recHash r.page) r.heapNo r.trx with
  | some _ => (s, .success)
  | none =>
    match lockRecOtherHasConflicting env r.tm (s.recHash r.page) r.heapNo r.trx with
    | some cLock => lockRecEnqueueWaiting s cLock r.tm r.page r.nHeap r.heapNo r.trx r.noWait
    | none =>
      if r.impl then (s, .success)
      else (lockRecAddToQueue s r.tm r.page r.nHeap r.heapNo r.trx, .successLockedRec)

def lockRecLock (r : Request) : LockSys × DbErr :=
  if r.tableHas then (s, .success)
  else match s.recHash r.page with
  | [] =>
    if r.impl then (s, .successLockedRec)
    else (lockRecCreateLow s none r.tm r.page r.nHeap r.heapNo r.trx, .successLockedRec)
  | lock :: rest =>
    if rest ≠ [] ∨ lock.trx ≠ r.trx ∨ lock.typeMode ≠ r.tm ∨ lock.nBits ≤ r.heapNo then
      lockRecLockSlow env s r
    else if r.impl then (s, .success)
    else if lock.nthBit r.heapNo then (s, .success)
    else (s.setQueue r.page [lock.setNthBit r.heapNo], .successLockedRec)

/-- The mode of an insert: `LOCK_X | LOCK_GAP | LOCK_INSERT_INTENTION`. -/
def insertMode : TypeMode := { mode := .x, gap := true, insertIntention := true }

/-- `lock_rec_insert_check_and_lock()`: `heapNo` is the successor of the record to insert.  Returns
the error and whether gap locks may have to be inherited. -/
def lockRecInsertCheckAndLock (spatial : Bool) (page nHeap heapNo trx : ℕ) (noWait : Bool) :
    LockSys × DbErr × Bool :=
  if (s.recHash page).any (·.nthBit heapNo) then
    if spatial then (s, .success, true)
    else match lockRecOtherHasConflicting env insertMode (s.recHash page) heapNo trx with
    | some cLock =>
      let r := lockRecEnqueueWaiting s cLock insertMode page nHeap heapNo trx noWait
      (r.1, r.2, true)
    | none => (s, .success, true)
  else (s, .success, false)

/-! ### Releases -/

/-- The loop over the locks of a page that grants the waiting locks which no longer have to wait.
The locks before the current one are `ahead`; only the locks that `visit` tells are looked at, and
`redirect` notes that a transaction now waits for another one. -/
def regrant (visit : Lock → Bool) (redirect : Waits → ℕ → ℕ → Waits) :
    Waits → List Lock → List Lock → Waits × List Lock
  | w, ahead, [] => (w, ahead)
  | w, ahead, lock :: rest =>
    if visit lock && lock.isWaiting then
      match lockRecHasToWaitInQueue env lock (ahead ++ lock :: rest) with
      | some c => regrant visit redirect (redirect w lock.trx c.trx) (ahead ++ [lock]) rest
      | none =>
        -- `lock_grant()`
        regrant visit redirect (w.resetTrxWait lock.trx) (ahead ++ [lock.clearWait]) rest
    else regrant visit redirect w (ahead ++ [lock]) rest

/-- `wait_trx` is redirected, and the new target is noted in `to_check` if it waits itself. -/
def Waits.redirectAndCheck (w : Waits) (trx cTrx : ℕ) : Waits :=
  let w := { w with waitTrx := update w.waitTrx trx (some cTrx) }
  if (w.waitTrx cTrx).isSome then
    { w with
      toCheck := insert cTrx w.toCheck
      toBeChecked := if cTrx ∈ w.toCheck then w.toBeChecked else true }
  else w

/-- `wait_trx` is redirected. -/
def Waits.redirect (w : Waits) (trx cTrx : ℕ) : Waits :=
  { w with waitTrx := update w.waitTrx trx (some cTrx) }

@[simp] theorem redirectAndCheck_waitTrx (w : Waits) (trx cTrx : ℕ) :
    (w.redirectAndCheck trx cTrx).waitTrx = update w.waitTrx trx (some cTrx) := by
  unfold Waits.redirectAndCheck; dsimp only; split <;> rfl

@[simp] theorem redirectAndCheck_waitLock (w : Waits) (trx cTrx : ℕ) :
    (w.redirectAndCheck trx cTrx).waitLock = w.waitLock := by
  unfold Waits.redirectAndCheck; dsimp only; split <;> rfl

/-- `lock_rec_dequeue_from_page()`: remove a lock object and examine the waiting locks of the
page. -/
def lockRecDequeueFromPage (inLock : LockRef) : LockSys :=
  let q := (s.recHash inLock.page).filter (·.id ≠ inLock.id)
  let r := regrant env (fun _ => true) Waits.redirectAndCheck s.waits [] q
  { s.setQueue inLock.page r.2 with waits := r.1 }

/-- Clear a bit in the lock object `id` of a queue. -/
def resetBitOf (id heapNo : ℕ) (q : List Lock) : List Lock :=
  q.map fun l => if l.id = id then l.resetNthBit heapNo else l

/-- `lock_rec_unlock()`: clear the bit in the first lock of the transaction that has the mode, and
examine the waiting locks from the first lock on the record on. -/
def lockRecUnlock (trx page heapNo : ℕ) (mode : LockMode) : LockSys :=
  match (s.recHash page).find? (·.nthBit heapNo),
      (s.recHash page).find? fun l => l.nthBit heapNo && (l.trx == trx) &&
        (l.typeMode.mode == mode) with
  | some firstLock, some lock =>
    let q := resetBitOf lock.id heapNo (s.recHash page)
    let r := regrant env (fun l => (l.id == firstLock.id) || l.nthBit heapNo) Waits.redirect
      s.waits [] q
    { s.setQueue page r.2 with waits := r.1 }
  | _, _ => s

/-- `lock_cancel_waiting_and_release()`, for the waiting lock `ref` of `trx`. -/
def lockCancelWaitingAndRelease (trx : ℕ) (ref : LockRef) : LockSys :=
  let s := lockRecDequeueFromPage env s ref
  { s with waits := s.waits.resetTrxWait trx }

/-- `lock_sys_t::cancel()` and `lock_sys_t::cancel_lock_wait_for_trx()`: end the wait of a
transaction. -/
def cancel (trx : ℕ) : LockSys :=
  match s.waits.waitLock trx with
  | some ref =>
    if (s.recHash ref.page).any fun l => (l.id == ref.id) && l.isWaiting then
      lockCancelWaitingAndRelease env s trx ref
    else s
  | none => s

end

/-! ### What a request can do -/

@[simp] theorem onRecord_wait (tm : TypeMode) (heapNo : ℕ) :
    (tm.onRecord heapNo).wait = tm.wait := by
  unfold TypeMode.onRecord; split <;> rfl

theorem onRecord_of_ne (tm : TypeMode) {heapNo : ℕ} (h : heapNo ≠ pageHeapNoSupremum) :
    tm.onRecord heapNo = tm := if_neg h

@[simp] theorem onRecord_onRecord (tm : TypeMode) (heapNo : ℕ) :
    (tm.onRecord heapNo).onRecord heapNo = tm.onRecord heapNo := by
  unfold TypeMode.onRecord; split <;> rfl

theorem lockRecCreateLow_onRecord (s : LockSys) (c : Option Lock) (tm : TypeMode)
    (page nHeap heapNo trx : ℕ) :
    lockRecCreateLow s c (tm.onRecord heapNo) page nHeap heapNo trx
      = lockRecCreateLow s c tm page nHeap heapNo trx := by
  simp [lockRecCreateLow, newLock]

/-- No lock on the record makes the request wait. -/
def NoConflict (s : LockSys) (tm : TypeMode) (page heapNo trx : ℕ) : Prop :=
  ∀ l ∈ s.recHash page, l.nthBit heapNo = true →
    lockRecHasToWait env trx tm l (heapNo == pageHeapNoSupremum) = false

/-- What a request with the flags `tm` does to the lock system: nothing, or it appends a granted
lock, or it sets a bit in a granted lock of its own, or it appends a waiting lock behind a
conflicting one. -/
inductive RequestEffect (s : LockSys) (tm : TypeMode) (page nHeap heapNo trx : ℕ) :
    LockSys → Prop where
  | same : RequestEffect s tm page nHeap heapNo trx s
  | create (hc : NoConflict env s tm page heapNo trx) :
      RequestEffect s tm page nHeap heapNo trx (lockRecCreateLow s none tm page nHeap heapNo trx)
  | reuse (l : Lock) (hl : l ∈ s.recHash page) (ht : l.trx = trx) (hw : l.isWaiting = false)
      (hm : heapNo ≠ pageHeapNoSupremum → l.typeMode = tm)
      (hc : NoConflict env s tm page heapNo trx) :
      RequestEffect s tm page nHeap heapNo trx
        (s.setQueue page (setBitOf l.id heapNo (s.recHash page)))
  | wait (c : Lock) (hl : c ∈ s.recHash page) (hb : c.nthBit heapNo = true)
      (hc : lockRecHasToWait env trx tm c (heapNo == pageHeapNoSupremum) = true) :
      RequestEffect s tm page nHeap heapNo trx
        (lockRecCreateLow s (some c) { tm with wait := true } page nHeap heapNo trx)

/-- A request with the result `err` has one of these effects, and changes no wait unless its
transaction is told to wait. -/
def Requested (s : LockSys) (tm : TypeMode) (page nHeap heapNo trx : ℕ) (s' : LockSys)
    (err : DbErr) : Prop :=
  RequestEffect env s tm page nHeap heapNo trx s' ∧ (err ≠ .lockWait → s'.waits = s.waits)

variable {env}

section

variable {s : LockSys} {tm : TypeMode} {page nHeap heapNo trx : ℕ} {err : DbErr} {r : Request}

theorem Requested.same : Requested env s tm page nHeap heapNo trx s err := ⟨.same, fun _ => rfl⟩

theorem Requested.create (hw : tm.wait = false) (hc : NoConflict env s tm page heapNo trx) :
    Requested env s tm page nHeap heapNo trx (lockRecCreateLow s none tm page nHeap heapNo trx)
      err :=
  ⟨.create hc, fun _ => by simp [lockRecCreateLow, hw]⟩

theorem noConflict_of_none
    (h : lockRecOtherHasConflicting env tm (s.recHash page) heapNo trx = none) :
    NoConflict env s tm page heapNo trx := by
  intro l hl hb
  have hn := find?_eq_none.mp h l hl
  simpa [hb] using hn

theorem lockRecEnqueueWaiting_effect {c : Lock} {noWait : Bool}
    (h : lockRecOtherHasConflicting env tm (s.recHash page) heapNo trx = some c) :
    let r := lockRecEnqueueWaiting s c tm page nHeap heapNo trx noWait
    Requested env s tm page nHeap heapNo trx r.1 r.2 := by
  have hp := find?_some h
  simp only [Bool.and_eq_true] at hp
  unfold lockRecEnqueueWaiting
  split
  · exact .same
  · exact ⟨.wait c (mem_of_find?_eq_some h) hp.1 hp.2, absurd rfl⟩

theorem lockRecAddToQueue_effect (hw : tm.wait = false)
    (hc : NoConflict env s tm page heapNo trx) :
    Requested env s tm page nHeap heapNo trx (lockRecAddToQueue s tm page nHeap heapNo trx)
      err := by
  simp only [lockRecAddToQueue, onRecord_wait, hw, Bool.false_eq_true, if_false,
    lockRecCreateLow_onRecord]
  split
  · exact .create hw hc
  split
  case h_1 l hl =>
    have hp := find?_some hl
    simp only [Bool.and_eq_true, beq_iff_eq, decide_eq_true_eq] at hp
    refine ⟨.reuse l (mem_of_find?_eq_some hl) hp.1.1 ?_ ?_ hc, fun _ => rfl⟩
    · simp [Lock.isWaiting, hp.1.2, hw]
    · intro hne
      rw [hp.1.2, onRecord_of_ne tm hne]
  case h_2 => exact .create hw hc

theorem lockRecLockSlow_effect (hw : r.tm.wait = false) :
    Requested env s r.tm r.page r.nHeap r.heapNo r.trx (lockRecLockSlow env s r).1
      (lockRecLockSlow env s r).2 := by
  unfold lockRecLockSlow
  split
  · exact .same
  split
  case h_1 c hc => exact lockRecEnqueueWaiting_effect hc
  case h_2 hc =>
    split
    · exact .same
    · exact lockRecAddToQueue_effect hw (noConflict_of_none hc)

/-- A request whose flags do not contain `LOCK_WAIT` has one of the four effects. -/
theorem lockRecLock_effect (hw : r.tm.wait = false) :
    Requested env s r.tm r.page r.nHeap r.heapNo r.trx (lockRecLock env s r).1
      (lockRecLock env s r).2 := by
  unfold lockRecLock
  split
  · exact .same
  split
  case h_1 hq =>
    split
    · exact .same
    · exact .create hw (by intro l hl; simp [hq] at hl)
  case h_2 lock rest hq =>
    split
    · exact lockRecLockSlow_effect hw
    rename_i hfast
    push Not at hfast
    obtain ⟨rfl, ht, hm, -⟩ := hfast
    split
    · exact .same
    split
    · exact .same
    have hs : [lock.setNthBit r.heapNo] = setBitOf lock.id r.heapNo (s.recHash r.page) := by
      simp [setBitOf, hq]
    rw [hs]
    -- the only lock on the page is the transaction's own
    refine ⟨.reuse lock (by simp [hq]) ht (by simp [Lock.isWaiting, hm, hw]) (fun _ => hm) ?_,
      fun _ => rfl⟩
    intro l hl _
    obtain rfl : l = lock := by simpa [hq] using hl
    simp [lockRecHasToWait, ht]

theorem lockRecInsertCheckAndLock_effect {spatial noWait : Bool} :
    let r := lockRecInsertCheckAndLock env s spatial page nHeap heapNo trx noWait
    Requested env s insertMode page nHeap heapNo trx r.1 r.2.1 := by
  unfold lockRecInsertCheckAndLock
  split
  · split
    · exact .same
    · split
      case h_1 c hc => exact lockRecEnqueueWaiting_effect hc
      case h_2 => exact .same
  · exact .same

end

/-! ### The examination of a queue -/

theorem lockRecHasToWaitInQueue_eq {lock : Lock} {h : ℕ} (hh : lock.OnlyBit h)
    {ahead rest : List Lock} (hid : lock.id ∉ ahead.map (·.id)) :
    lockRecHasToWaitInQueue env lock (ahead ++ lock :: rest)
      = ahead.find? fun l => l.nthBit h && lockHasToWait env lock l := by
  induction ahead with
  | nil => simp [lockRecHasToWaitInQueue]
  | cons a ahead ih =>
    simp only [map_cons, mem_cons, not_or] at hid
    rw [cons_append, lockRecHasToWaitInQueue, if_neg (Ne.symm hid.1), ih hid.2,
      hh.findSetBit, find?_cons]
    cases a.nthBit h && lockHasToWait env lock a <;> rfl

/-- **The invariant rule of the loop over a queue**: what holds before and is kept by passing a
lock, by redirecting the wait of a lock that still has to wait and by granting one, holds at the
end. -/
theorem regrant_induct {visit : Lock → Bool} {redirect : Waits → ℕ → ℕ → Waits}
    {P : Waits → List Lock → List Lock → Prop}
    (pass : ∀ w ahead lock rest, (visit lock = true → lock.isWaiting = false) →
      P w ahead (lock :: rest) → P w (ahead ++ [lock]) rest)
    (wait : ∀ w ahead lock rest c, visit lock = true → lock.isWaiting = true →
      lockRecHasToWaitInQueue env lock (ahead ++ lock :: rest) = some c →
      P w ahead (lock :: rest) → P (redirect w lock.trx c.trx) (ahead ++ [lock]) rest)
    (grant : ∀ w ahead lock rest, visit lock = true → lock.isWaiting = true →
      lockRecHasToWaitInQueue env lock (ahead ++ lock :: rest) = none →
      P w ahead (lock :: rest) → P (w.resetTrxWait lock.trx) (ahead ++ [lock.clearWait]) rest)
    {w : Waits} {ahead rest : List Lock} (h : P w ahead rest) :
    P (regrant env visit redirect w ahead rest).1 (regrant env visit redirect w ahead rest).2
      [] := by
  induction rest generalizing w ahead with
  | nil => exact h
  | cons lock rest ih =>
    rw [regrant]
    split
    · rename_i hv
      rw [Bool.and_eq_true] at hv
      split
      · rename_i c hc
        exact ih (wait w ahead lock rest c hv.1 hv.2 hc h)
      · rename_i hc
        exact ih (grant w ahead lock rest hv.1 hv.2 hc h)
    · rename_i hv
      refine ih (pass w ahead lock rest ?_ h)
      intro hvis
      simpa [hvis] using hv

end LockRec
