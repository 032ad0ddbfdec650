/-
**Metadata locks: one lock object and the contexts that use it.**

The metadata lock of one object or schema is a list of granted and a list of waiting tickets, each
with a bitmap and counters of the types in it (`sql/mdl.cc`).  A request is granted when no waiting
type has priority over it and no granted ticket of another context is incompatible with it;
otherwise its ticket waits until a release, a downgrade or the removal of a waiter grants it in
`reschedule_waiters`, or until its wait slot is closed by a timeout, a kill or the deadlock detector.

A context is one session: it runs one call at a time, and a call that waits is cut at the points
where it gives up the lock's mutex.  What a context does between two such points is one step, and a
run is any sequence of steps of any contexts.

Main definitions:

* `LockStrategy`, `grantedIncompatible`, `waitingIncompatible`, `hogLockTypes`: the two kinds of
  lock and their matrices;
* `TicketList`, `Lock`: the lists with their bitmaps and counters;
* `canGrantLock`, `rescheduleWaiters`: granting and waking up;
* `tryAcquireLockImpl`, `acquireLock`, `wake`, `merge`, `downgradeLock`: the calls of a context, cut
  into steps;
* `Op`, `step`, `run`: runs.

Main results:

* `grantedIncompatible_symm`, `waitingIncompatible_subset`, `priority_lt`: what the matrices have in
  common.
-/

import Mathlib.Data.Finset.Basic
import Mathlib.Data.Fintype.Basic
import Mathlib.Data.Fintype.Card
import Mathlib.Data.Nat.Notation

set_option autoImplicit false

namespace Mdl

/-! ### Types and matrices -/

/-- `enum_mdl_type`. -/
inductive MdlType
  | intentionExclusive
  | shared
  | sharedHighPrio
  | sharedRead
  | sharedWrite
  | sharedUpgradable
  | sharedReadOnly
  | sharedNoWrite
  | sharedNoReadWrite
  | exclusive
  deriving DecidableEq, Repr

instance : Fintype MdlType where
  elems :=
    {.intentionExclusive, .shared, .sharedHighPrio, .sharedRead, .sharedWrite, .sharedUpgradable,
      .sharedReadOnly, .sharedNoWrite, .sharedNoReadWrite, .exclusive}
  complete := by
    intro type
    cases type <;> decide

/-- A `bitmap_t`: the types whose bit is set. -/
abbrev Bitmap := Finset MdlType

/-- The strategies of a lock: `MDL_scoped_lock` for a schema, `MDL_object_lock` for the rest. -/
inductive LockStrategy
  | scopedLock
  | objectLock
  deriving DecidableEq, Repr

instance : Fintype LockStrategy where
  elems := {.scopedLock, .objectLock}
  complete := by
    intro k
    cases k <;> decide

open MdlType Function

/-- `m_granted_incompatible`: the granted types that a request of a type is incompatible with. -/
def grantedIncompatible : LockStrategy → MdlType → Bitmap
  | .scopedLock, intentionExclusive => {exclusive, shared}
  | .scopedLock, shared => {exclusive, intentionExclusive}
  | .scopedLock, exclusive => {exclusive, shared, intentionExclusive}
  | .scopedLock, _ => ∅
  | .objectLock, intentionExclusive => ∅
  | .objectLock, shared => {exclusive}
  | .objectLock, sharedHighPrio => {exclusive}
  | .objectLock, sharedRead => {exclusive, sharedNoReadWrite}
  | .objectLock, sharedWrite => {exclusive, sharedNoReadWrite, sharedNoWrite, sharedReadOnly}
  | .objectLock, sharedUpgradable =>
    {exclusive, sharedNoReadWrite, sharedNoWrite, sharedUpgradable}
  | .objectLock, sharedReadOnly => {exclusive, sharedNoReadWrite, sharedWrite}
  | .objectLock, sharedNoWrite =>
    {exclusive, sharedNoReadWrite, sharedNoWrite, sharedUpgradable, sharedWrite}
  | .objectLock, sharedNoReadWrite =>
    {exclusive, sharedNoReadWrite, sharedNoWrite, sharedReadOnly, sharedUpgradable, sharedWrite,
      sharedRead}
  | .objectLock, exclusive =>
    {exclusive, sharedNoReadWrite, sharedNoWrite, sharedReadOnly, sharedUpgradable, sharedWrite,
      sharedRead, sharedHighPrio, shared}

/-- `m_waiting_incompatible`: the waiting types that have priority over a request of a type. -/
def waitingIncompatible : LockStrategy → MdlType → Bitmap
  | .scopedLock, intentionExclusive => {exclusive, shared}
  | .scopedLock, shared => {exclusive}
  | .scopedLock, _ => ∅
  | .objectLock, intentionExclusive => ∅
  | .objectLock, shared => {exclusive}
  | .objectLock, sharedHighPrio => ∅
  | .objectLock, sharedRead => {exclusive, sharedNoReadWrite}
  | .objectLock, sharedWrite => {exclusive, sharedNoReadWrite, sharedNoWrite}
  | .objectLock, sharedUpgradable => {exclusive}
  | .objectLock, sharedReadOnly => {exclusive, sharedNoReadWrite, sharedWrite}
  | .objectLock, sharedNoWrite => {exclusive}
  | .objectLock, sharedNoReadWrite => {exclusive}
  | .objectLock, exclusive => ∅

/-- `hog_lock_types_bitmap`: the strong types that `max_write_lock_count` keeps from starving the
weak ones. -/
def hogLockTypes : LockStrategy → Bitmap
  | .scopedLock => ∅
  | .objectLock => {sharedNoWrite, sharedNoReadWrite, exclusive}

/-- `MDL_ticket::has_stronger_or_equal_type`, for a ticket of type `type`. -/
def hasStrongerOrEqualType (k : LockStrategy) (type request : MdlType) : Bool :=
  decide (grantedIncompatible k request \ grantedIncompatible k type = ∅)

/-- Two tickets of different contexts may be granted together. -/
def Compatible (k : LockStrategy) (a b : MdlType) : Prop :=
  b ∉ grantedIncompatible k a

instance (k : LockStrategy) (a b : MdlType) : Decidable (Compatible k a b) :=
  inferInstanceAs (Decidable (b ∉ grantedIncompatible k a))

/-- The granted matrices are symmetric. -/
theorem grantedIncompatible_symm :
    ∀ (k : LockStrategy) (a b : MdlType),
      b ∈ grantedIncompatible k a → a ∈ grantedIncompatible k b := by
  decide

theorem Compatible.symm {k : LockStrategy} {a b : MdlType} (h : Compatible k a b) :
    Compatible k b a :=
  fun hab => h (grantedIncompatible_symm k b a hab)

/-- A waiting type with priority over a request is also one it cannot be granted beside. -/
theorem waitingIncompatible_subset :
    ∀ (k : LockStrategy) (a b : MdlType),
      b ∈ waitingIncompatible k a → b ∈ grantedIncompatible k a := by
  decide

/-- The levels of priority among the waiting types. -/
def priority : LockStrategy → MdlType → ℕ
  | .scopedLock, exclusive => 2
  | .scopedLock, shared => 1
  | .scopedLock, _ => 0
  | .objectLock, exclusive => 3
  | .objectLock, sharedNoReadWrite => 2
  | .objectLock, sharedNoWrite => 2
  | .objectLock, sharedWrite => 1
  | .objectLock, _ => 0

/-- A type with priority over another one is on a higher level: priorities have no cycle. -/
theorem priority_lt :
    ∀ (k : LockStrategy) (a b : MdlType),
      b ∈ waitingIncompatible k a → priority k a < priority k b := by
  decide

theorem hasStrongerOrEqualType_iff {k : LockStrategy} {type request : MdlType} :
    hasStrongerOrEqualType k type request = true ↔
      grantedIncompatible k request ⊆ grantedIncompatible k type := by
  rw [hasStrongerOrEqualType, decide_eq_true_iff, Finset.sdiff_eq_empty_iff_subset]

/-- What a ticket is compatible with, a ticket of a weaker type is compatible with. -/
theorem Compatible.of_stronger {k : LockStrategy} {type request other : MdlType}
    (h : Compatible k type other) (hs : hasStrongerOrEqualType k type request = true) :
    Compatible k request other :=
  fun ho => h (hasStrongerOrEqualType_iff.1 hs ho)

/-! ### Ticket lists -/

/-- The fields of an `MDL_ticket` that other threads read. -/
structure Ticket (C : Type) where
  ctx : C
  type : MdlType

structure TicketList (T : Type) where
  list : List T
  bitmap : Bitmap
  typeCounters : MdlType → UInt32

/-- `MDL_lock`: its two lists and `m_hog_lock_count`. -/
structure Lock (T : Type) where
  granted : TicketList T
  waiting : TicketList T
  hogLockCount : ℕ

section

variable {C T : Type} [DecidableEq T]

def TicketList.empty : TicketList T where
  list := []
  bitmap := ∅
  typeCounters := fun _ => 0

def TicketList.addTicket (l : TicketList T) (ticket : T) (type : MdlType) : TicketList T where
  list := l.list ++ [ticket]
  bitmap := insert type l.bitmap
  typeCounters := update l.typeCounters type (l.typeCounters type + 1)

/-- The links of a ticket leave the list that it is in, which is all that `ilist::remove` does. -/
def TicketList.unlink (l : TicketList T) (ticket : T) : TicketList T where
  list := l.list.erase ticket
  bitmap := l.bitmap
  typeCounters := l.typeCounters

/-- The counter and the bit of a type in `Ticket_list::remove_ticket`. -/
def TicketList.discount (l : TicketList T) (type : MdlType) : TicketList T where
  list := l.list
  bitmap := if l.typeCounters type - 1 = 0 then l.bitmap.erase type else l.bitmap
  typeCounters := update l.typeCounters type (l.typeCounters type - 1)

def Lock.removeGranted (l : Lock T) (ticket : T) (type : MdlType) : Lock T where
  granted := (l.granted.unlink ticket).discount type
  waiting := l.waiting.unlink ticket
  hogLockCount := l.hogLockCount

def Lock.removeWaiting (l : Lock T) (ticket : T) (type : MdlType) : Lock T where
  granted := l.granted.unlink ticket
  waiting := (l.waiting.unlink ticket).discount type
  hogLockCount := l.hogLockCount

def Lock.addGranted (l : Lock T) (ticket : T) (type : MdlType) : Lock T where
  granted := l.granted.addTicket ticket type
  waiting := l.waiting
  hogLockCount := l.hogLockCount

def Lock.addWaiting (l : Lock T) (ticket : T) (type : MdlType) : Lock T where
  granted := l.granted
  waiting := l.waiting.addTicket ticket type
  hogLockCount := l.hogLockCount

def Lock.isEmpty (l : Lock T) : Bool := l.granted.list.isEmpty && l.waiting.list.isEmpty

/-! ### Granting -/

/-- `MDL_wait::enum_wait_status`. -/
inductive WaitStatus
  | empty
  | granted
  | victim
  | timeout
  | killed
  deriving DecidableEq, Repr

variable [DecidableEq C]

/-- `MDL_wait::set_status`: a status is set unless there is one. -/
def setStatus (slot : C → WaitStatus) (c : C) (status : WaitStatus) : C → WaitStatus :=
  if slot c = .empty then update slot c status else slot

variable (k : LockStrategy) (maxWriteLockCount : ℕ)

def canGrantLock (mem : T → Ticket C) (l : Lock T) (type : MdlType) (ctx : C)
    (ignoreLockPriority : Bool) : Bool :=
  if !ignoreLockPriority && decide (l.waiting.bitmap ∩ waitingIncompatible k type ≠ ∅) then false
  else if l.granted.bitmap ∩ grantedIncompatible k type ≠ ∅ then
    !l.granted.list.any fun t =>
      decide ((mem t).ctx ≠ ctx) && decide ((mem t).type ∈ grantedIncompatible k type)
  else true

/-- The loop of `reschedule_waiters` over the waiting tickets, `skip` being `skip_high_priority`. -/
def rescheduleLoop (mem : T → Ticket C) (skip : Bool) :
    List T → Lock T → (C → WaitStatus) → Lock T × (C → WaitStatus)
  | [], l, slot => (l, slot)
  | t :: it, l, slot =>
    if skip && decide ((mem t).type ∈ hogLockTypes k) then rescheduleLoop mem skip it l slot
    else if canGrantLock k mem l (mem t).type (mem t).ctx skip && decide (slot (mem t).ctx = .empty)
    then
      let l' := (l.removeWaiting t (mem t).type).addGranted t (mem t).type
      rescheduleLoop mem skip it
        { l' with hogLockCount :=
            if (mem t).type ∈ hogLockTypes k then l.hogLockCount + 1 else l.hogLockCount }
        (update slot (mem t).ctx .granted)
    else rescheduleLoop mem skip it l slot

/-- The decision at the head of `reschedule_waiters` to give way to the weak locks. -/
def skipHighPriority (l : Lock T) : Bool :=
  decide (maxWriteLockCount ≤ l.hogLockCount) && decide (l.waiting.bitmap \ hogLockTypes k ≠ ∅)

def rescheduleWaiters (mem : T → Ticket C) (l : Lock T) (slot : C → WaitStatus) :
    Lock T × (C → WaitStatus) :=
  let r := rescheduleLoop k mem (skipHighPriority k maxWriteLockCount l) l.waiting.list l slot
  if r.1.waiting.bitmap \ hogLockTypes k = ∅ then ({ r.1 with hogLockCount := 0 }, r.2) else r

/-! ### Contexts -/

/-- `enum_mdl_duration`. -/
inductive Duration
  | statement
  | transaction
  | explicit
  deriving DecidableEq, Repr

/-- The order in which `find_ticket` looks through the lists of a context. -/
def Duration.searchOrder : Duration → List Duration
  | .statement => [.statement, .transaction, .explicit]
  | .transaction => [.transaction, .explicit, .statement]
  | .explicit => [.explicit, .statement, .transaction]

/-- The locals of `upgrade_shared_lock`: the ticket, the type it is to get, and the first statement
and transaction tickets when the call began (`MDL_savepoint`). -/
structure Upgrade (T : Type) where
  mdlTicket : T
  newType : MdlType
  stmtTicket : Option T
  transTicket : Option T

/-- Where the thread of a context is between two steps. -/
inductive Phase (T : Type)
  /-- Outside the calls on this lock. -/
  | idle
  /-- In `acquire_lock`, waiting for its slot, possibly on behalf of an upgrade. -/
  | waits (ticket : T) (duration : Duration) (upgrade : Option (Upgrade T))
  /-- In `acquire_lock`, having seen that its client is gone: `wait_status` is `TIMEOUT`, but the
  slot was left as it was. -/
  | gone (ticket : T)
  /-- In `upgrade_shared_lock`, after `acquire_lock` and before the two tickets are merged. -/
  | merging (upgrade : Upgrade T) (xlock : T)

/-- One lock, the tickets in memory, and of every context its wait slot, its `m_tickets` on this
lock and its place in the code. -/
structure State (C T : Type) where
  lock : Lock T
  mem : T → Ticket C
  slot : C → WaitStatus
  tickets : C → Duration → List T
  phase : C → Phase T

/-- A server at start: nothing is locked and the memory holds anything. -/
def State.init (mem : T → Ticket C) : State C T where
  lock := ⟨TicketList.empty, TicketList.empty, 0⟩
  mem := mem
  slot := fun _ => .empty
  tickets := fun _ _ => []
  phase := fun _ => .idle

variable (s : State C T)

/-- `m_tickets[duration].push_front(ticket)`. -/
def State.pushFront (c : C) (d : Duration) (t : T) : State C T :=
  { s with tickets :=
      update s.tickets c (update (s.tickets c) d (t :: s.tickets c d)) }

/-- `m_tickets[duration].remove(ticket)`. -/
def State.dropTicket (c : C) (d : Duration) (t : T) : State C T :=
  { s with tickets :=
      update s.tickets c (update (s.tickets c) d ((s.tickets c d).erase t)) }

def State.setPhase (c : C) (p : Phase T) : State C T :=
  { s with phase := update s.phase c p }

def State.create (t : T) (c : C) (type : MdlType) : State C T :=
  { s with mem := update s.mem t ⟨c, type⟩ }

/-- `reschedule_waiters` on the lock of the state. -/
def State.reschedule : State C T :=
  let r := rescheduleWaiters k maxWriteLockCount s.mem s.lock s.slot
  { s with
    lock := r.1
    slot := r.2 }

/-- `MDL_lock::remove_ticket` after the ticket has left its list: an empty lock is given back to
`mdl_locks`, otherwise the waiters are looked at. -/
def State.wakeup : State C T :=
  if s.lock.isEmpty then s else s.reschedule k maxWriteLockCount

def findTicket (c : C) (type : MdlType) (d : Duration) : Option (T × Duration) :=
  d.searchOrder.findSome? fun d' =>
    ((s.tickets c d').find? fun t => hasStrongerOrEqualType k (s.mem t).type type).map (·, d')

/-- What `try_acquire_lock_impl` reports: an error, the ticket of the acquired lock, or the ticket
made for a request that has to wait. -/
inductive TryResult (T : Type)
  | error
  | acquired (ticket : T)
  | refused (ticket : T)

/-- A new ticket enters the granted list and a list of its context. -/
def State.enter (t : T) (c : C) (type : MdlType) (d : Duration) : State C T :=
  { s.create t c type with lock := s.lock.addGranted t type }.pushFront c d t

/-- `MDL_context::clone_ticket`, `new` being what the allocation of the ticket gave. -/
def cloneTicket (c : C) (type : MdlType) (d : Duration) (new : Option T) :
    State C T × TryResult T :=
  match new with
  | none => (s, .error)
  | some t => (s.enter t c type d, .acquired t)

def tryAcquireLockImpl (c : C) (type : MdlType) (d : Duration) (new : Option T) :
    State C T × TryResult T :=
  match findTicket k s c type d with
  | some (t, found) =>
    if found ≠ d ∨ d = .explicit then cloneTicket s c type d new else (s, .acquired t)
  | none =>
    match new with
    | none => (s, .error)
    | some t =>
      if canGrantLock k (s.create t c type).mem s.lock type c false then
        (s.enter t c type d, .acquired t)
      else (s.create t c type, .refused t)

/-- The return from a successful `acquire_lock` to its caller. -/
def State.acquired (c : C) (t : T) (upgrade : Option (Upgrade T)) : State C T :=
  match upgrade with
  | none => s.setPhase c .idle
  | some u => s.setPhase c (.merging u t)

/-- `MDL_context::acquire_lock` up to the wait, with a timeout of zero or not. -/
def acquireLock (c : C) (type : MdlType) (d : Duration) (noWait : Bool) (new : Option T)
    (upgrade : Option (Upgrade T)) : State C T :=
  match tryAcquireLockImpl k s c type d new with
  | (s', .error) => s'
  | (s', .acquired t) => s'.acquired c t upgrade
  | (s', .refused t) =>
    if noWait then s'
    else
      { s' with
        lock := s'.lock.addWaiting t type
        slot := update s'.slot c .empty }.setPhase c (.waits t d upgrade)

/-- The end of `acquire_lock`, once the wait is over.  A ticket that was not granted leaves the
waiting list. -/
def wake (c : C) : State C T :=
  match s.phase c with
  | .waits t d upgrade =>
    match s.slot c with
    | .empty => s
    | .granted => (s.pushFront c d t).acquired c t upgrade
    | _ =>
      ({ s with lock := s.lock.removeWaiting t (s.mem t).type }.wakeup k
        maxWriteLockCount).setPhase c .idle
  | .gone t =>
    ({ s with lock := s.lock.removeWaiting t (s.mem t).type }.wakeup k
      maxWriteLockCount).setPhase c .idle
  | _ => s

/-- The head of `upgrade_shared_lock`. -/
def upgradeSharedLock (c : C) (mdlTicket : T) (newType : MdlType) (noWait : Bool) (new : Option T) :
    State C T :=
  if hasStrongerOrEqualType k (s.mem mdlTicket).type newType then s
  else
    acquireLock k s c newType .transaction noWait new
      (some ⟨mdlTicket, newType, (s.tickets c .statement).head?, (s.tickets c .transaction).head?⟩)

/-- A loop of `has_lock`: is the ticket among those added since the savepoint? -/
def addedSince (ticket : T) (savepoint : Option T) : List T → Bool
  | [] => false
  | t :: it =>
    if some t = savepoint then false
    else if t = ticket then true
    else addedSince ticket savepoint it

def hasLock (c : C) (u : Upgrade T) (ticket : T) : Bool :=
  !(addedSince ticket u.stmtTicket (s.tickets c .statement)) &&
    !(addedSince ticket u.transTicket (s.tickets c .transaction))

/-- The change of a granted ticket's type: it leaves the granted list under its old type and comes
back under the new one. -/
def State.changeType (t : T) (type : MdlType) : State C T :=
  { s with
    lock := (s.lock.removeGranted t (s.mem t).type).addGranted t type
    mem := update s.mem t ⟨(s.mem t).ctx, type⟩ }

/-- The end of `upgrade_shared_lock`: the acquired lock and the original one are merged. -/
def merge (c : C) : State C T :=
  match s.phase c with
  | .merging u x =>
    if hasLock s c u x then (s.changeType u.mdlTicket u.newType).setPhase c .idle
    else
      -- the acquired ticket is a new one
      (({ s with lock := s.lock.removeGranted x (s.mem x).type }.changeType u.mdlTicket
        u.newType).dropTicket c .transaction x).setPhase c .idle
  | _ => s

def downgradeLock (t : T) (type : MdlType) : State C T :=
  if (s.mem t).type = type ∨ hasStrongerOrEqualType k (s.mem t).type type = false then s
  else (s.changeType t type).reschedule k maxWriteLockCount

def releaseLock (c : C) (d : Duration) (t : T) : State C T :=
  ({ s with lock := s.lock.removeGranted t (s.mem t).type }.wakeup k
    maxWriteLockCount).dropTicket c d t

/-! ### Runs -/

/-- The steps of the contexts.  A ticket `new` is what an allocation gives. -/
inductive Op (C T : Type)
  | tryAcquireLock (c : C) (type : MdlType) (d : Duration) (new : Option T)
  | acquireLock (c : C) (type : MdlType) (d : Duration) (noWait : Bool) (new : Option T)
  | cloneTicket (c : C) (type : MdlType) (d : Duration) (source : T) (new : Option T)
  | upgradeSharedLock (c : C) (ticket : T) (newType : MdlType) (noWait : Bool) (new : Option T)
  /-- The wait of a context ends with a timeout or a kill. -/
  | closeSlot (c : C) (killed : Bool)
  /-- The deadlock detector chooses a context as its victim. -/
  | victim (c : C)
  /-- A short wait of a context ends without a status, and its client is gone. -/
  | clientGone (c : C)
  | wake (c : C)
  | merge (c : C)
  | downgradeLock (c : C) (ticket : T) (type : MdlType)
  | releaseLock (c : C) (d : Duration) (ticket : T)
  /-- The lock was given back and `find_or_insert` takes an object from the pool, whose
  `m_hog_lock_count` nobody resets. -/
  | reuse (hogLockCount : ℕ)

/-- An allocation gives no ticket, or one that is in none of the lists. -/
def Fresh (new : Option T) : Prop :=
  ∀ t ∈ new, t ∉ s.lock.granted.list ∧ t ∉ s.lock.waiting.list

instance (s : State C T) (new : Option T) : Decidable (Fresh s new) :=
  match new with
  | none => isTrue (by simp [Fresh])
  | some t =>
    decidable_of_iff (t ∉ s.lock.granted.list ∧ t ∉ s.lock.waiting.list) (by simp [Fresh])

/-- The thread of a context is outside the calls. -/
def Phase.isIdle : Phase T → Bool
  | .idle => true
  | _ => false

/-- The thread of a context has seen that its client is gone. -/
def Phase.isGone : Phase T → Bool
  | .gone _ => true
  | _ => false

/-- The ticket whose grant the thread of a context waited for and has not looked at yet. -/
def Phase.waitsOn : Phase T → Option T
  | .waits t _ _ => some t
  | .gone t => some t
  | _ => none

/-- A context can do the step: its thread is at the right place, the tickets it names are its own,
and a cloned ticket is of a type at least as strong, as `clone_ticket` asserts. -/
def Enabled : Op C T → Bool
  | .tryAcquireLock c _ _ new => (s.phase c).isIdle && decide (Fresh s new)
  | .acquireLock c _ _ _ new => (s.phase c).isIdle && decide (Fresh s new)
  | .cloneTicket c type _ source new =>
    (s.phase c).isIdle && decide (Fresh s new) && decide (source ∈ s.lock.granted.list) &&
      hasStrongerOrEqualType k (s.mem source).type type
  | .upgradeSharedLock c ticket _ _ new =>
    (s.phase c).isIdle && decide (Fresh s new) &&
      [Duration.statement, .transaction, .explicit].any fun d => decide (ticket ∈ s.tickets c d)
  | .closeSlot c _ => match s.phase c with | .waits _ _ _ => true | _ => false
  | .victim _ => true
  | .clientGone c =>
    match s.phase c with | .waits _ _ _ => decide (s.slot c = .empty) | _ => false
  | .wake _ => true
  | .merge _ => true
  | .downgradeLock c ticket _ =>
    (s.phase c).isIdle &&
      [Duration.statement, .transaction, .explicit].any fun d => decide (ticket ∈ s.tickets c d)
  | .releaseLock c d ticket => (s.phase c).isIdle && decide (ticket ∈ s.tickets c d)
  | .reuse _ => s.lock.isEmpty

/-- The effect of a step that can be done. -/
def perform : Op C T → State C T
  | .tryAcquireLock c type d new => (tryAcquireLockImpl k s c type d new).1
  | .acquireLock c type d noWait new => acquireLock k s c type d noWait new none
  | .cloneTicket c type d _ new => (cloneTicket s c type d new).1
  | .upgradeSharedLock c ticket newType noWait new =>
    upgradeSharedLock k s c ticket newType noWait new
  | .closeSlot c killed =>
    { s with slot := setStatus s.slot c (if killed then .killed else .timeout) }
  | .victim c => { s with slot := setStatus s.slot c .victim }
  | .clientGone c =>
    match s.phase c with
    | .waits t _ _ => s.setPhase c (.gone t)
    | _ => s
  | .wake c => wake k maxWriteLockCount s c
  | .merge c => merge s c
  | .downgradeLock _ ticket type => downgradeLock k maxWriteLockCount s ticket type
  | .releaseLock c d ticket => releaseLock k maxWriteLockCount s c d ticket
  | .reuse n => { s with lock := { s.lock with hogLockCount := n } }

/-- One step of a run; a step that cannot be done is passed over. -/
def step (op : Op C T) : State C T :=
  if Enabled k s op then perform k maxWriteLockCount s op else s

/-- A run: the steps of the contexts in the order in which they get the lock's mutex. -/
def run (ops : List (Op C T)) : State C T :=
  ops.foldl (step k maxWriteLockCount) s

end

end Mdl
