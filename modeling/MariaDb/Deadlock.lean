/-
**Deadlock detection.**

`Deadlock::find_cycle()` follows `trx->lock.wait_trx` with Brent's algorithm.  A transaction that
starts to wait is checked once, by `Deadlock::check_and_resolve()`, and after that only when it is in
`Deadlock::to_check`: a waiting transaction has a single outgoing edge, so a cycle through another
lock it conflicts with appears only when the edge is redirected.

The set of pending transactions, those in `to_check` and those that have not been checked yet, has
to meet every cycle.  Two places break this.  `lock_rec_unlock()` redirects `wait_trx` without
noting the new target in `to_check`, and `lock_reset_lock_and_trx_wait()` removes from `to_check` not
the transaction whose wait ends but the one that it waited for.  Everything else keeps it, and the
conditions `LockRec.UnlockOk` and `LockRec.CancelOk` say when these two do as well.  A deadlock in
which no transaction is light enough to become the victim stays (`LockRec.HasVictim`).

Main definitions:

* `report`, `checkAndResolve`, `deadlockCheckStep`: the resolution;
* `Call`, `System`: the calls, and the transactions that wait unchecked;
* `Call.Careful`: the calls that lose no pending check.

Main results:

* `acyclic_of_checked`: **every deadlock is noticed** in runs of careful calls.
-/

import MariaDb.DeadlockReport
import MariaDb.LockRecGrant

set_option autoImplicit false

namespace LockRec

open Walk Function List Option

/-! ### The detection -/

section

variable (env : Env) (n : ℕ) (data : ℕ → TrxData) (s : LockSys)

/-- `Deadlock::report()`: cancel the wait of the victim. -/
def report (trx : ℕ) : LockSys × Option ℕ :=
  match reportVictim n data (data trx).weight s.waits trx with
  | none => (s, none)
  | some v =>
    match s.waits.waitLock v with
    | none => (s, some v)
    | some ref => (lockCancelWaitingAndRelease env s v ref, some v)

/-- `Deadlock::check_and_resolve()`; returns whether `trx` has to report `DB_DEADLOCK`. -/
def checkAndResolve (trx : ℕ) : LockSys × Bool :=
  match findCycle n s.waits trx with
  | none => (s, false)
  | some _ =>
    let r := report env n data s trx
    (r.1, r.2 == some trx)

/-- A transaction is taken out of `to_check`. -/
def LockSys.takeCheck (trx : ℕ) : LockSys :=
  { s with waits := { s.waits with toCheck := s.waits.toCheck.erase trx } }

/-- One iteration of the loop of `lock_sys_t::deadlock_check()`: take the first transaction out of
`to_check` and resolve the deadlock that it waits for; the loop is left when there is none. -/
def deadlockCheckStep : LockSys :=
  if s.waits.toBeChecked then
    if h : s.waits.toCheck.Nonempty then
      let trx := s.waits.toCheck.min' h
      match findCycle n s.waits trx with
      | none => s.takeCheck trx
      | some _ => (report env n data (s.takeCheck trx) trx).1
    else { s with waits := { s.waits with toBeChecked := false } }
  else s

/-- `lock_sys_t::deadlock_check()`, with a bound on the iterations. -/
def deadlockCheck : LockSys :=
  (deadlockCheckStep env n data)^[(n + 1) * (n + 1) + 1] s

/-! ### The calls -/

/-- A call on the record locks, the check of a transaction that has begun to wait, or an iteration
of `lock_sys_t::deadlock_check()`.  What `report()` reads of the transactions may be different at
every check. -/
inductive Call where
  | op (o : Op)
  | check (trx : ℕ) (data : ℕ → TrxData)
  | deadlockCheck (data : ℕ → TrxData)

/-- The lock system, and the transactions that have been told to wait and have not been checked
since. -/
structure System where
  locks : LockSys
  unchecked : Finset ℕ

def System.init : System := ⟨LockSys.init, ∅⟩

/-- The transaction that a call tells to wait. -/
def Op.newWait : Op → Option ℕ
  | .lock r => if (lockRecLock env s r).2 = .lockWait then some r.trx else none
  | .insert spatial page nHeap heapNo trx noWait =>
    if (lockRecInsertCheckAndLock env s spatial page nHeap heapNo trx noWait).2.1 = .lockWait
    then some trx else none
  | _ => none

/-- The effect of a call; `lock_wait()` checks a transaction only if it still waits. -/
def Call.exec (env : Env) (n : ℕ) (S : System) : Call → System
  | .op o =>
    { locks := o.exec env S.locks
      unchecked := match o.newWait env S.locks with
        | some trx => insert trx S.unchecked
        | none => S.unchecked }
  | .check trx data =>
    { locks := if (S.locks.waits.waitLock trx).isSome
        then (checkAndResolve env n data S.locks trx).1 else S.locks
      unchecked := S.unchecked.erase trx }
  | .deadlockCheck data => { S with locks := deadlockCheckStep env n data S.locks }

/-- The calls are made as their callers make them, by transactions below `n`; a lock that is
released belongs to a transaction that does not wait. -/
def Call.Allowed (n : ℕ) (S : System) : Call → Prop
  | .op o => o.Allowed S.locks ∧ match o with
      | .lock r => r.trx < n
      | .insert _ _ _ _ trx _ => trx < n
      | .dequeue inLock => ∃ l ∈ S.locks.recHash inLock.page, l.id = inLock.id ∧
          S.locks.waits.waitLock l.trx = none
      | _ => True
  | _ => True

/-- The transaction that the wait of a lock is redirected to when the queue is examined, if it is
another one than before. -/
def redirected (w : Waits) (q : List Lock) (l : Lock) : Option ℕ :=
  match lockRecHasToWaitInQueue env l q with
  | some c => if w.waitTrx l.trx = some c.trx then none else some c.trx
  | none => none

/-- `lock_rec_unlock()` redirects no wait to a transaction that waits itself. -/
def UnlockOk (trx page heapNo : ℕ) (mode : LockMode) : Prop :=
  ∀ lock ∈ (s.recHash page).find? fun l => l.nthBit heapNo && (l.trx == trx) &&
      (l.typeMode.mode == mode),
    ∀ l ∈ resetBitOf lock.id heapNo (s.recHash page), l.isWaiting = true →
      l.nthBit heapNo = true →
      ∀ c ∈ redirected env s.waits (resetBitOf lock.id heapNo (s.recHash page)) l,
        s.waits.waitTrx c = none

/-- Cancelling the wait of `trx` redirects no other wait to the transaction that `trx` waits for,
while that one waits itself. -/
def CancelKeeps (trx : ℕ) : Prop :=
  ∀ ref ∈ s.waits.waitLock trx,
    ∀ l ∈ (s.recHash ref.page).filter (·.id ≠ ref.id), l.isWaiting = true →
      ∀ c ∈ redirected env s.waits ((s.recHash ref.page).filter (·.id ≠ ref.id)) l,
        s.waits.waitTrx trx = some c → s.waits.waitTrx c = none

/-- Cancelling the wait of `trx` removes no pending check: the transaction that it waits for is not
in `to_check`, unless `trx` is itself part of the deadlock, and it does not get there by the call. -/
def CancelOk (trx : ℕ) : Prop :=
  (∀ x ∈ s.waits.waitTrx trx, x ∈ s.waits.toCheck → OnCycle s.waits.waitTrx trx) ∧
    CancelKeeps env s trx

/-- The deadlock that `trx` waits for is resolved, if there is one: one of its transactions can become
the victim, and the end of the victim's wait removes no pending check. -/
def ReportOk (trx : ℕ) : Prop :=
  HasVictim data s.waits trx ∧
    ∀ v ∈ reportVictim n data (data trx).weight s.waits trx, CancelKeeps env s v

/-- The call loses no pending check. -/
def Call.Careful (S : System) : Call → Prop
  | .op (.unlock trx page heapNo mode) => UnlockOk env S.locks trx page heapNo mode
  | .op (.cancel trx) => CancelOk env S.locks trx
  | .op _ => True
  | .check trx data => ReportOk env n data S.locks trx
  | .deadlockCheck data => ∀ h : S.locks.waits.toCheck.Nonempty,
      ReportOk env n data S.locks (S.locks.waits.toCheck.min' h)

end

variable {env : Env}

/-! ### The waits during the examination of a queue -/

/-- The locks of a queue during its examination: some have been granted. -/
def Regranted (q q' : List Lock) : Prop := List.Forall₂ (fun l l' => l' = l ∨ l' = l.clearWait) q q'

theorem hasToWait_regranted {l a a' : Lock} (h : a' = a ∨ a' = a.clearWait) :
    lockHasToWait env l a' = lockHasToWait env l a := by
  rcases h with rfl | rfl <;> rfl

variable {q : List Lock} {page V t trx heapNo nHeap cycle n : ℕ} {v : Option ℕ} {w : Waits}
  {U : Set ℕ} {s s' : LockSys} {ref : LockRef} {mode : LockMode} {tm : TypeMode} {data : ℕ → TrxData}
  {S : System}

theorem Regranted.mem {q' : List Lock} (h : Regranted q q') {a : Lock} (ha : a ∈ q) :
    ∃ a' ∈ q', a' = a ∨ a' = a.clearWait := by
  induction h with
  | nil => simp at ha
  | @cons b b' q q' hb _ ih =>
    rcases mem_cons.mp ha with rfl | ha
    · exact ⟨b', by simp, hb⟩
    · obtain ⟨a', ha', h'⟩ := ih ha
      exact ⟨a', by simp [ha'], h'⟩

/-- Granting locks does not change whom a lock has to wait for. -/
theorem Regranted.find_trx {q' : List Lock} (h : Regranted q q') (l : Lock) (i : ℕ) :
    (q'.find? fun a => a.nthBit i && lockHasToWait env l a).map (·.trx)
      = (q.find? fun a => a.nthBit i && lockHasToWait env l a).map (·.trx) := by
  induction h with
  | nil => rfl
  | @cons a a' q q' ha _ ih =>
    have hb : a'.nthBit i = a.nthBit i := by rcases ha with rfl | rfl <;> rfl
    have ht : a'.trx = a.trx := by rcases ha with rfl | rfl <;> rfl
    rw [find?_cons, find?_cons, hb, hasToWait_regranted ha]
    cases a.nthBit i && lockHasToWait env l a with
    | true => simp [ht]
    | false => exact ih

section

variable {next : ℕ} {visit : Lock → Bool} {redirect : Waits → ℕ → ℕ → Waits} {w0 : Waits}
  (hr : Redirects redirect) (h : PageInv page next v w0 q)
  (hq : ∀ ahead l behind, q = ahead ++ l :: behind → l.isWaiting = true →
    BlockedAt env w0 ahead l ∨ w0.waitTrx l.trx = some V)

include hr h hq in
/-- The invariant rule for the waits alone: when the waiting locks of the queue are blocked by a
lock of the queue, or by one of the transaction `V` that is no longer there, a wait is redirected
to the owner of the first conflicting lock of the queue, and only waits for `V` are granted. -/
theorem regrant_waits_induct {P : Waits → Prop}
    (wait : ∀ w, ∀ lock ∈ q, ∀ c, lock.isWaiting = true → visit lock = true →
      (lockRecHasToWaitInQueue env lock q).map (·.trx) = some c → lock.trx ≠ c →
      Frame page w0 w → w.waitTrx lock.trx = w0.waitTrx lock.trx → P w →
      P (redirect w lock.trx c))
    (grant : ∀ w, ∀ lock ∈ q, lock.isWaiting = true → w.waitTrx lock.trx = some V → P w →
      P (w.resetTrxWait lock.trx))
    (h0 : P w0) : P (regrant env visit redirect w0 [] q).1 := by
  -- the locks still to come have their old waits, and those passed have at most been granted
  have key := @regrant_induct env visit redirect
    (fun w ahead rest => PageInv page next v w (ahead ++ rest) ∧ Frame page w0 w ∧
      (∃ pre, q = pre ++ rest ∧ Regranted pre ahead) ∧
      (∀ l ∈ rest, l.isWaiting = true → w.waitTrx l.trx = w0.waitTrx l.trx) ∧ P w)
    ?_ ?_ ?_ w0 [] q ⟨h, Frame.refl page w0, ⟨[], rfl, .nil⟩, fun _ _ _ => rfl, h0⟩
  · exact key.2.2.2.2
  · rintro w ahead lock rest - ⟨hp, hf, ⟨pre, hpre, hreg⟩, hold, hP⟩
    refine ⟨by simpa using hp, hf, ⟨pre ++ [lock], by simp [hpre], ?_⟩,
      fun l hl => hold l (by simp [hl]), hP⟩
    exact rel_append hreg (.cons (.inl rfl) .nil)
  · rintro w ahead lock rest c hv hwait hc ⟨hp, hf, ⟨pre, hpre, hreg⟩, hold, hP⟩
    have hlt := hp.lock_trx lock (by simp) hwait
    obtain ⟨i, hi⟩ := hp.single lock (by simp) hwait
    have hc' : (lockRecHasToWaitInQueue env lock q).map (·.trx) = some c.trx := by
      have hid : lock.id ∉ pre.map (·.id) := (hpre ▸ h).not_mem_ahead
      rw [hpre, lockRecHasToWaitInQueue_eq hi hid, ← hreg.find_trx,
        ← lockRecHasToWaitInQueue_eq hi hp.not_mem_ahead, hc]
      rfl
    have hne : lock.trx ≠ c.trx := by
      have hw := (hp.conflict_some hwait hc).2.1
      rw [lockHasToWait_eq] at hw
      exact lockRecHasToWait_trx_ne env hw
    refine ⟨by simpa using hp.congr (hr w lock.trx c.trx).1, hf.update hlt ?_ ?_,
      ⟨pre ++ [lock], by simp [hpre], rel_append hreg (.cons (.inl rfl) .nil)⟩, ?_, ?_⟩
    · intro t ht
      rw [(hr w lock.trx c.trx).1, (hr w lock.trx c.trx).2, update_of_ne ht]
      exact ⟨rfl, rfl⟩
    · rw [(hr w lock.trx c.trx).1, (hr w lock.trx c.trx).2, update_self]
      exact .inl ⟨rfl, rfl⟩
    · intro l hl hlw
      rw [(hr w lock.trx c.trx).2, update_of_ne (hp.trx_ne hwait (by simp [hl]) hlw)]
      exact hold l (by simp [hl]) hlw
    · exact wait w lock (by simp [hpre]) c.trx hwait hv hc' hne hf (hold lock (by simp) hwait) hP
  · rintro w ahead lock rest hv hwait hc ⟨hp, hf, ⟨pre, hpre, hreg⟩, hold, hP⟩
    have hlt := hp.lock_trx lock (by simp) hwait
    have hV : w.waitTrx lock.trx = some V := by
      rw [hold lock (by simp) hwait]
      rcases hq pre lock rest hpre hwait with ⟨i, hi, a, ha, hai, haw, -⟩ | hV
      · -- a lock that blocks it is still there
        obtain ⟨j, hj, hnone⟩ := hp.conflict_none hwait hc
        obtain rfl : i = j := (hj i).mp ((hi i).mpr rfl)
        obtain ⟨a', ha', haa⟩ := hreg.mem ha
        have hb : a'.nthBit i = true := by rcases haa with rfl | rfl <;> exact hai
        rw [← hasToWait_regranted haa, hnone a' ha' hb] at haw
        simp at haw
      · exact hV
    refine ⟨by simpa using hp.grant hwait, hf.update hlt ?_ ?_,
      ⟨pre ++ [lock], by simp [hpre], rel_append hreg (.cons (.inr rfl) .nil)⟩, ?_, ?_⟩
    · intro t ht
      simp [update_of_ne ht]
    · simp
    · intro l hl hlw
      rw [resetTrxWait_waitTrx, update_of_ne (hp.trx_ne hwait (by simp [hl]) hlw)]
      exact hold l (by simp [hl]) hlw
    · exact grant w lock (by simp [hpre]) hwait hV hP

/-- The examination of a queue makes no transaction wait. -/
theorem Frame.isSome {w' : Waits} (h : Frame page w w')
    (hboth : ∀ t, (w.waitTrx t).isSome = (w.waitLock t).isSome) (ht : (w'.waitTrx t).isSome = true) :
    (w.waitTrx t).isSome = true := by
  rcases h t with ⟨-, h1⟩ | ⟨⟨i, hi⟩, -⟩
  · rwa [h1] at ht
  · rw [hboth, hi]
    rfl

theorem subset_redirectAndCheck (w : Waits) (trx cTrx : ℕ) :
    w.toCheck ⊆ (w.redirectAndCheck trx cTrx).toCheck := by
  unfold Waits.redirectAndCheck
  dsimp only
  split
  · exact Finset.subset_insert _ _
  · exact subset_rfl

theorem mem_redirectAndCheck {cTrx : ℕ} (h : (w.waitTrx cTrx).isSome = true) :
    cTrx ∈ (w.redirectAndCheck trx cTrx).toCheck := by
  have hs : (update w.waitTrx trx (some cTrx) cTrx).isSome = true := by
    rcases eq_or_ne cTrx trx with rfl | hne
    · simp
    · rwa [update_of_ne hne]
  simp [Waits.redirectAndCheck, hs]

/-- The pending checks of `to_check`, without that of `x`, and those of `U`. -/
def Pending (w : Waits) (x : Option ℕ) (U : Set ℕ) : Set ℕ :=
  { t | (t ∈ w.toCheck ∧ some t ≠ x) ∨ t ∈ U }

/-- Every cycle of waits goes through a transaction whose check is pending. -/
def CyclesPending (w : Waits) (U : Set ℕ) : Prop := Covered w.waitTrx (Pending w none U)

include hr h hq in
/-- **One examination of a queue keeps every cycle pending**, also without the edge of `V` and the
pending check of `x`: a wait that is redirected to a waiting transaction other than `x` leaves that
transaction in `to_check`, and the checks that granting a lock removes are for `V`. -/
theorem regrant_covered (hmono : ∀ w t c, w.toCheck ⊆ (redirect w t c).toCheck)
    (hboth : ∀ t, (w0.waitTrx t).isSome = (w0.waitLock t).isSome)
    (hV : ∀ l ∈ q, l.isWaiting = true → l.trx ≠ V) {x : Option ℕ}
    (hnew : ∀ l ∈ q, l.isWaiting = true → visit l = true → ∀ c ∈ redirected env w0 q l,
      (w0.waitTrx c).isSome = true →
        some c ≠ x ∧ ∀ w, (w.waitTrx c).isSome = true → c ∈ (redirect w l.trx c).toCheck)
    (h0 : Covered (update w0.waitTrx V none) (Pending w0 x U)) :
    Covered (update (regrant env visit redirect w0 [] q).1.waitTrx V none)
        (Pending (regrant env visit redirect w0 [] q).1 x U) ∧
      (regrant env visit redirect w0 [] q).1.waitTrx V = w0.waitTrx V := by
  refine regrant_waits_induct (P := fun w => Covered (update w.waitTrx V none) (Pending w x U) ∧
    w.waitTrx V = w0.waitTrx V) hr h hq ?_ ?_ ⟨h0, rfl⟩
  · rintro w lock hlock c hwait hvis hc hne hf hold ⟨hcov, hwV⟩
    have hlV := hV lock hlock hwait
    rw [(hr w lock.trx c).2]
    refine ⟨?_, by rw [update_of_ne hlV.symm, hwV]⟩
    rw [update_comm hlV]
    have hPQ : ∀ y ∈ Pending w x U, y ∈ Pending (redirect w lock.trx c) x U :=
      fun y hy => hy.imp_left fun hy => ⟨hmono w lock.trx c hy.1, hy.2⟩
    by_cases hsame : w0.waitTrx lock.trx = some c
    · -- nothing changes
      have hself : update (update w.waitTrx V none) lock.trx (some c)
          = update w.waitTrx V none := by
        rw [update_eq_self_iff, update_of_ne hlV, hold, hsame]
      rw [hself]
      exact hcov.mono fun y hy _ => hPQ y hy
    refine hcov.update (fun y hy _ => hPQ y hy) ?_
    intro c' hc' hcyc
    obtain rfl : c = c' := by simpa using hc'
    -- the new target waits, so it is noted in `to_check`
    have hcs : (w.waitTrx c).isSome = true := by
      have hs := hcyc.next_isSome
      rw [update_of_ne hne.symm] at hs
      rcases eq_or_ne c V with rfl | hcV
      · simp at hs
      · rwa [update_of_ne hcV] at hs
    have hred : c ∈ redirected env w0 q lock := by
      obtain ⟨a, ha, hat⟩ := map_eq_some_iff.mp hc
      simp [redirected, ha, hat, hsame]
    obtain ⟨hx, hin⟩ := hnew lock hlock hwait hvis c hred (hf.isSome hboth hcs)
    exact .inr (.inl ⟨hin w hcs, hx⟩)
  · rintro w lock hlock hwait hwt ⟨hcov, hwV⟩
    have hlV := hV lock hlock hwait
    rw [resetTrxWait_waitTrx]
    refine ⟨?_, by rw [update_of_ne hlV.symm, hwV]⟩
    rw [update_comm hlV]
    refine hcov.update (fun y hy hcyc => ?_) (fun c hc => by simp at hc)
    -- only `V` leaves `to_check`, and it has no edge
    have hyV : y ≠ V := by
      rintro rfl
      have hs := hcyc.next_isSome
      rw [update_of_ne hlV.symm, update_self] at hs
      simp at hs
    refine hy.imp_left fun hy => ⟨?_, hy.2⟩
    simp [Waits.resetTrxWait, hwt, hyV, hy.1]

end

/-! ### The calls keep every cycle pending -/

/-- Without the lock `id` of `V`, a waiting lock is still blocked, or it waits for `V`. -/
theorem Blocked.filter (h : Blocked env w q) {id : ℕ} (hid : ∀ l ∈ q, l.id = id → l.trx = V)
    (ahead : List Lock) (l : Lock) (behind : List Lock)
    (hq : q.filter (·.id ≠ id) = ahead ++ l :: behind) (hw : l.isWaiting = true) :
    BlockedAt env w ahead l ∨ w.waitTrx l.trx = some V := by
  obtain ⟨ahead', rest, rfl, rfl, hrest⟩ := filter_eq_append_iff.mp hq
  obtain ⟨skip, behind', rfl, hskip, -, -⟩ := filter_eq_cons_iff.mp hrest
  obtain ⟨i, hi, a, ha, hai, haw, hat⟩ := h (ahead' ++ skip) l behind' (by simp) hw
  by_cases hida : a.id = id
  · refine .inr ?_
    rw [hat, hid a (by simp only [mem_append, mem_cons] at ha ⊢; tauto) hida]
  refine .inl ⟨i, hi, a, ?_, hai, haw, hat⟩
  rcases mem_append.mp ha with ha | ha
  · simp [ha, hida]
  · have hs := hskip a ha
    simp [hida] at hs

/-- With a bit of a lock of `V` cleared, a waiting lock is still blocked, or it waits for `V`. -/
theorem Blocked.reset (h : Blocked env w q) {lock : Lock}
    (hf : KeepsWaiting q fun l => if l.id = lock.id then l.resetNthBit heapNo else l)
    (hid : ∀ l ∈ q, l.id = lock.id → l.trx = V) (ahead : List Lock) (l : Lock) (behind : List Lock)
    (hq : resetBitOf lock.id heapNo q = ahead ++ l :: behind) (hw : l.isWaiting = true) :
    BlockedAt env w ahead l ∨ w.waitTrx l.trx = some V := by
  obtain ⟨ahead', behind', hq', rfl⟩ := hf.split hq hw
  obtain ⟨i, hi, a, ha, hai, haw, hat⟩ := h ahead' l behind' hq' hw
  have ham : a ∈ q := by simp [hq', ha]
  by_cases hida : a.id = lock.id
  · exact .inr (by rw [hat, hid a ham hida])
  · refine .inl ⟨i, hi, a, mem_map.mpr ⟨a, ha, if_neg hida⟩, hai, haw, hat⟩

section

variable (h : Inv env s)
include h

theorem Inv.waitTrx_eq_none (hw : s.waits.waitLock trx = none) : s.waits.waitTrx trx = none := by
  have hb := h.both trx
  rw [hw] at hb
  simpa using hb

/-- Cancelling the wait of `V`: the pending checks that lead to `V` may be dropped. -/
theorem covered_cancelWaiting {P : Set ℕ} (hw : s.waits.waitLock V = some ref)
    (hok : CancelKeeps env s V)
    (hdrop : ∀ y ∈ P, y ∉ Pending s.waits (s.waits.waitTrx V) U → Reaches s.waits.waitTrx y V)
    (hc : Covered s.waits.waitTrx P) :
    CyclesPending (lockCancelWaitingAndRelease env s V ref).waits U := by
  have hp := h.page ref.page
  have htrx := h.wait_lock_trx hw
  have hpf : PageInv ref.page s.nextId (some V) s.waits
      ((s.recHash ref.page).filter (·.id ≠ ref.id)) :=
    hp.filter fun l hl he _ => by rw [htrx l hl he]
  have key := @regrant_covered env _ _ V _ U _ (fun _ => true) _ s.waits redirects_redirectAndCheck
    hpf ((h.blocked ref.page).filter htrx) subset_redirectAndCheck h.both ?_ (s.waits.waitTrx V) ?_
    (hc.cut hdrop)
  · obtain ⟨hcov, hsame⟩ := key
    simp only [lockCancelWaitingAndRelease, lockRecDequeueFromPage, LockSys.setQueue]
    refine hcov.mono fun y hy _ => ?_
    rcases hy with ⟨hy, hne⟩ | hy
    · refine .inl ⟨?_, by simp⟩
      simp only [Waits.resetTrxWait, hsame]
      cases hx : s.waits.waitTrx V with
      | none => exact hy
      | some x =>
        rw [hx] at hne
        exact Finset.mem_erase.mpr ⟨fun he => hne (by rw [he]), hy⟩
    · exact .inr hy
  · intro l hl hlw he
    have hl' := mem_filter.mp hl
    have hlt := hp.lock_trx l hl'.1 hlw
    rw [he, hw] at hlt
    have hid : l.id = ref.id := by simpa using (congrArg (Option.map LockRef.id) hlt).symm
    simp [hid] at hl'
  · intro l hl hlw _ c hcr hcs
    refine ⟨fun hx => ?_, fun w hws => mem_redirectAndCheck hws⟩
    rw [hok ref hw l hl hlw c hcr hx.symm] at hcs
    simp at hcs

variable (hc : CyclesPending s.waits U)
include hc

/-- Releasing a lock of a transaction that does not wait. -/
theorem covered_dequeue {inLock : Lock} (hl : inLock ∈ s.recHash ref.page)
    (hid : inLock.id = ref.id) (hw : s.waits.waitLock inLock.trx = none) :
    CyclesPending (lockRecDequeueFromPage env s ref).waits U := by
  have hp := h.page ref.page
  have hlw := h.not_waiting hw hl rfl
  have hg : ∀ l ∈ s.recHash ref.page, l.id = ref.id → l = inLock :=
    fun l hl' he => hp.eq_of_id hl' hl (he.trans hid.symm)
  have htrx := h.waitTrx_eq_none hw
  have hpf : PageInv ref.page s.nextId none s.waits ((s.recHash ref.page).filter (·.id ≠ ref.id)) :=
    hp.filter fun l hl' he hlw' => by rw [hg l hl' he, hlw] at hlw'; simp at hlw'
  have key := @regrant_covered env _ _ inLock.trx _ U _ (fun _ => true) _ s.waits
    redirects_redirectAndCheck hpf ((h.blocked ref.page).filter fun l hl' he => by rw [hg l hl' he])
    subset_redirectAndCheck h.both ?_ none ?_ ?_
  · obtain ⟨hcov, hsame⟩ := key
    rwa [update_eq_self_iff.mpr (by rw [hsame, htrx])] at hcov
  · intro l hl' hlw' he
    rw [h.not_waiting hw (mem_filter.mp hl').1 he] at hlw'
    simp at hlw'
  · intro l _ _ _ c _ _
    exact ⟨by simp, fun w hws => mem_redirectAndCheck hws⟩
  · rwa [update_eq_self_iff.mpr htrx.symm]

/-- Unlocking a record when no wait is redirected to a waiting transaction. -/
theorem covered_unlock (hw : s.waits.waitLock trx = none)
    (hok : UnlockOk env s trx page heapNo mode) :
    CyclesPending (lockRecUnlock env s trx page heapNo mode).waits U := by
  rcases h.unlock_cases hw page heapNo mode with
    hs | ⟨firstLock, lock, hfirst, hlock, hlm, hlt, hf, hs⟩
  · rw [hs]
    exact hc
  rw [hs]
  have hp := h.page page
  have htrx : s.waits.waitTrx trx = none := h.waitTrx_eq_none hw
  -- a waiting lock of the queue is one of the old queue
  have hold : ∀ l ∈ resetBitOf lock.id heapNo (s.recHash page), l.isWaiting = true →
      l ∈ s.recHash page := by
    intro l hl hlw'
    obtain ⟨l', hl', rfl⟩ := mem_map.mp hl
    rw [hf.isWaiting hl'] at hlw'
    rwa [hf.waiting l' hl' hlw']
  have key := @regrant_covered env _ _ trx _ U _
    (fun l => (l.id == firstLock.id) || l.nthBit heapNo) _ s.waits redirects_redirect (hp.map hf)
    ((h.blocked page).reset hf fun l hl he => by rw [hp.eq_of_id hl hlm he, hlt])
    (fun _ _ _ => subset_rfl) h.both ?_ none ?_ ?_
  · obtain ⟨hcov, hsame⟩ := key
    rwa [update_eq_self_iff.mpr (by rw [hsame, htrx])] at hcov
  · intro l hl hlw' he
    rw [h.not_waiting hw (hold l hl hlw') he] at hlw'
    simp at hlw'
  · intro l hl hlw' hvis c hcr hcs
    have hbit : l.nthBit heapNo = true := by
      simp only [Bool.or_eq_true, beq_iff_eq] at hvis
      rcases hvis with he | hb
      · have hfb := find?_some hfirst
        rwa [hp.eq_of_id (hold l hl hlw') (mem_of_find?_eq_some hfirst) he]
      · exact hb
    rw [hok lock hlock l hl hlw' hbit c hcr] at hcs
    simp at hcs
  · rwa [update_eq_self_iff.mpr htrx.symm]

omit h hc in
/-- Only the check of the transaction that `V` waits for is no longer pending. -/
theorem waits_of_dropped {y : ℕ} {x : Option ℕ} (hy : y ∈ Pending w none U) (hny : y ∉ Pending w x U) :
    x = some y ∧ y ∈ w.toCheck := by
  rcases hy with ⟨hy, -⟩ | hy
  · by_contra hne
    exact hny (.inl ⟨hy, fun he => hne ⟨he.symm, hy⟩⟩)
  · exact absurd (.inr hy) hny

/-- Cancelling a wait without losing a pending check. -/
theorem covered_cancel (hok : CancelOk env s trx) : CyclesPending (cancel env s trx).waits U := by
  unfold cancel
  split
  case h_2 => exact hc
  case h_1 ref hw =>
    split
    · refine covered_cancelWaiting h hw hok.2 (fun y hy hny => ?_) hc
      -- only the transaction that is waited for is dropped, and then the cycle comes back to `trx`
      obtain ⟨hx, hy⟩ := waits_of_dropped hy hny
      exact (hok.1 y hx hy).reaches_symm (Reaches.of_next hx)
    · exact hc

/-- A request that is told to wait adds an edge, and its transaction is pending then. -/
theorem covered_request (htm : tm.wait = false) (hw : s.waits.waitLock trx = none)
    (he : RequestEffect env s tm page nHeap heapNo trx s') : CyclesPending s'.waits (insert trx U) := by
  have hsub : ∀ y ∈ Pending s.waits none U, y ∈ Pending s.waits none (insert trx U) :=
    fun y hy => hy.imp_right (Set.mem_insert_of_mem trx)
  have hsame : CyclesPending s.waits (insert trx U) :=
    hc.mono fun y hy _ => hsub y hy
  cases he with
  | same => exact hsame
  | create => simpa [lockRecCreateLow, htm] using hsame
  | reuse => exact hsame
  | wait c =>
    have htrx : (s.waits.waitTrx trx).isSome = false := by rw [h.both, hw]; rfl
    simp only [lockRecCreateLow, if_true, Waits.startWait, htrx, Bool.false_eq_true, if_false]
    exact hc.update (fun y hy _ => hsub y hy) fun _ _ _ => .inl (.inr (Set.mem_insert _ _))

end

/-! ### The checks -/

/-- `Deadlock::report()` cancels the wait of a transaction on the cycle, if there is a victim. -/
theorem report_cases (h : Inv env s) (hb : WaitsBelow n s.waits) (data : ℕ → TrxData) (trx : ℕ) :
    (reportVictim n data (data trx).weight s.waits trx = none ∧ (report env n data s trx).1 = s) ∨
      ∃ v ref, reportVictim n data (data trx).weight s.waits trx = some v ∧
        s.waits.waitLock v = some ref ∧
        (report env n data s trx).1 = lockCancelWaitingAndRelease env s v ref ∧
        InCycle s.waits trx v := by
  cases hv : reportVictim n data (data trx).weight s.waits trx with
  | none => exact .inl ⟨rfl, by simp [report, hv]⟩
  | some v =>
    have hin := reportVictim_inCycle hb hv
    obtain ⟨ref, href⟩ : ∃ ref, s.waits.waitLock v = some ref := by
      rw [← isSome_iff_exists, ← h.both]
      exact hin.2.next_isSome
    exact .inr ⟨v, ref, rfl, href, by simp [report, hv, href], hin⟩

/-- Resolving the deadlock that `trx` waits for: the check of `trx` is no longer pending. -/
theorem covered_report (h : Inv env s) (hb : WaitsBelow n s.waits) {P : Set ℕ}
    (hcyc : findCycle n s.waits trx = some cycle) (hok : ReportOk env n data s trx)
    (hP : ∀ y ∈ P, y = trx ∨ y ∈ Pending s.waits none U) (hc : Covered s.waits.waitTrx P) :
    CyclesPending (report env n data s trx).1.waits U := by
  rcases report_cases h hb data trx with ⟨hnone, -⟩ | ⟨v, ref, hv, href, heq, hin⟩
  · exact absurd hnone (reportVictim_ne_none hb hcyc hok.1 _)
  rw [heq]
  refine covered_cancelWaiting h href (hok.2 v hv) (fun y hy hny => ?_) hc
  rcases hP y hy with rfl | hy
  · exact hin.1
  · exact hin.2.reaches_symm (Reaches.of_next (waits_of_dropped hy hny).1)

theorem not_onCycle_of_none (hb : ∀ t, (w.waitTrx t).isSome = true → t < n)
    (h : findCycle n w trx = none) : ¬ OnCycle w.waitTrx trx :=
  not_onCycle_of_findCycle (S := Finset.range n) (fun y hy => Finset.mem_range.mpr (hb y hy))
    (by simp) h

theorem Inv.takeCheck (h : Inv env s) (trx : ℕ) : Inv env (s.takeCheck trx) :=
  ⟨fun p => (h.page p).congr rfl, h.both, h.blocked⟩

theorem covered_checkAndResolve (h : Inv env s) (hb : WaitsBelow n s.waits)
    (hok : ReportOk env n data s trx) (hc : CyclesPending s.waits U) :
    CyclesPending (checkAndResolve env n data s trx).1.waits (U \ {trx}) := by
  have hP : ∀ y ∈ Pending s.waits none U, y = trx ∨ y ∈ Pending s.waits none (U \ {trx}) := by
    intro y hy
    by_cases he : y = trx
    · exact .inl he
    · exact .inr (hy.imp_right fun hy => ⟨hy, he⟩)
  cases hcyc : findCycle n s.waits trx with
  | none =>
    simp only [checkAndResolve, hcyc]
    refine hc.mono fun y hy hyc => (hP y hy).resolve_left ?_
    rintro rfl
    exact not_onCycle_of_none hb hcyc hyc
  | some cycle =>
    simp only [checkAndResolve, hcyc]
    exact covered_report h hb hcyc hok hP hc

theorem covered_deadlockCheckStep (h : Inv env s) (hb : WaitsBelow n s.waits)
    (hok : ∀ hne : s.waits.toCheck.Nonempty, ReportOk env n data s (s.waits.toCheck.min' hne))
    (hc : CyclesPending s.waits U) : CyclesPending (deadlockCheckStep env n data s).waits U := by
  unfold deadlockCheckStep
  split
  · split
    · rename_i hne
      have hP : ∀ y ∈ Pending s.waits none U, y = s.waits.toCheck.min' hne ∨
          y ∈ Pending (s.takeCheck (s.waits.toCheck.min' hne)).waits none U := by
        intro y hy
        by_cases he : y = s.waits.toCheck.min' hne
        · exact .inl he
        · exact .inr (hy.imp_left fun hy => ⟨Finset.mem_erase.mpr ⟨he, hy.1⟩, hy.2⟩)
      dsimp only
      split
      · rename_i hcyc
        refine hc.mono fun y hy hyc => (hP y hy).resolve_left ?_
        intro he
        rw [he] at hyc
        exact not_onCycle_of_none hb hcyc hyc
      · rename_i cycle hcyc
        exact covered_report (h.takeCheck _) hb hcyc (hok hne) hP hc
    · exact hc
  · exact hc

/-! ### The contents of `to_check` -/

/-- `to_check` has transactions of the system, and `to_be_checked` is set while it has any. -/
structure ToCheckOk (n : ℕ) (w : Waits) : Prop where
  listed : ∀ t ∈ w.toCheck, t < n
  flag : w.toCheck.Nonempty → w.toBeChecked = true

theorem ToCheckOk.erase (h : ToCheckOk n w) (t : ℕ) {w' : Waits}
    (hC : w'.toCheck = w.toCheck.erase t) (hb : w'.toBeChecked = w.toBeChecked) :
    ToCheckOk n w' := by
  refine ⟨fun u hu => ?_, fun ⟨u, hu⟩ => ?_⟩
  · rw [hC] at hu
    exact h.listed u (Finset.mem_of_mem_erase hu)
  · rw [hC] at hu
    rw [hb]
    exact h.flag ⟨u, Finset.mem_of_mem_erase hu⟩

theorem ToCheckOk.resetTrxWait (h : ToCheckOk n w) (trx : ℕ) :
    ToCheckOk n (w.resetTrxWait trx) := by
  cases hx : w.waitTrx trx with
  | none => exact ⟨by simpa [Waits.resetTrxWait, hx] using h.listed,
      by simpa [Waits.resetTrxWait, hx] using h.flag⟩
  | some x => exact h.erase x (by simp [Waits.resetTrxWait, hx]) rfl

theorem ToCheckOk.redirectAndCheck (h : ToCheckOk n w) {cTrx : ℕ} (hne : trx ≠ cTrx)
    (hb : (w.waitTrx cTrx).isSome = true → cTrx < n) :
    ToCheckOk n (w.redirectAndCheck trx cTrx) := by
  unfold Waits.redirectAndCheck
  dsimp only
  split
  · rename_i hs
    rw [update_of_ne hne.symm] at hs
    refine ⟨fun t ht => ?_, fun _ => ?_⟩
    · rcases Finset.mem_insert.mp ht with rfl | ht
      · exact hb hs
      · exact h.listed t ht
    · split
      · rename_i hm
        exact h.flag ⟨cTrx, hm⟩
      · rfl
  · exact ⟨h.listed, h.flag⟩

/-! ### What the calls keep -/

/-- The bookkeeping of the locks, the numbers of the waiting transactions, and `to_check`. -/
structure Sound (env : Env) (n : ℕ) (s : LockSys) : Prop where
  inv : Inv env s
  bound : WaitsBelow n s.waits
  toCheck : ToCheckOk n s.waits

section

variable (h : Sound env n s)
include h

theorem Sound.unlock (hw : s.waits.waitLock trx = none) :
    Sound env n (lockRecUnlock env s trx page heapNo mode) := by
  have hinv : Inv env (lockRecUnlock env s trx page heapNo mode) := h.inv.unlock hw
  rcases h.inv.unlock_cases hw page heapNo mode with
    hs | ⟨firstLock, lock, -, -, -, -, hf, hs⟩
  · rwa [hs]
  rw [hs] at hinv ⊢
  refine ⟨hinv, fun t ht => h.bound t ?_, ?_⟩
  · exact (regrant_pageInv redirects_redirect ((h.inv.page page).map hf)).2.isSome h.inv.both ht
  refine @regrant_induct env (fun l => (l.id == firstLock.id) || l.nthBit heapNo) Waits.redirect
    (fun w _ _ => ToCheckOk n w) ?_ ?_ ?_ s.waits [] _ h.toCheck
  · exact fun _ _ _ _ _ hw' => hw'
  · exact fun _ _ _ _ _ _ _ _ hw' => ⟨hw'.listed, hw'.flag⟩
  · exact fun _ _ lock _ _ _ _ hw' => hw'.resetTrxWait lock.trx

theorem Sound.dequeue_waits (hid : ∀ l ∈ s.recHash ref.page, l.id = ref.id → l.trx = V) :
    (∀ t, ((lockRecDequeueFromPage env s ref).waits.waitTrx t).isSome = true →
        (s.waits.waitTrx t).isSome = true) ∧
      ToCheckOk n (lockRecDequeueFromPage env s ref).waits := by
  have hid' : ∀ l ∈ s.recHash ref.page, l.id = ref.id → l.isWaiting = true → some l.trx = some V :=
    fun l hl he _ => by rw [hid l hl he]
  refine ⟨fun t ht => (h.inv.dequeue_page hid').2.1.isSome h.inv.both ht, ?_⟩
  refine @regrant_waits_induct env _ _ V _ _ (fun _ => true) _ s.waits redirects_redirectAndCheck
    ((h.inv.page ref.page).filter hid') ((h.inv.blocked ref.page).filter hid) (ToCheckOk n) ?_ ?_
    h.toCheck
  · intro w lock _ c _ _ _ hne hf _ hw
    exact hw.redirectAndCheck hne fun hs => h.bound c (hf.isSome h.inv.both hs)
  · intro w lock _ _ _ hw
    exact hw.resetTrxWait lock.trx

/-- After its wait has been cancelled a transaction does not wait, and no other one has begun
to. -/
theorem Sound.cancelWaiting (hw : s.waits.waitLock trx = some ref) :
    Sound env n (lockCancelWaitingAndRelease env s trx ref) ∧
      ∀ t, ((lockCancelWaitingAndRelease env s trx ref).waits.waitTrx t).isSome = true →
        t ≠ trx ∧ (s.waits.waitTrx t).isSome = true := by
  obtain ⟨hless, hok⟩ := h.dequeue_waits (h.inv.wait_lock_trx hw)
  have hstop : ∀ t, ((lockCancelWaitingAndRelease env s trx ref).waits.waitTrx t).isSome = true →
      t ≠ trx ∧ (s.waits.waitTrx t).isSome = true := by
    intro t ht
    simp only [lockCancelWaitingAndRelease, resetTrxWait_waitTrx] at ht
    rcases eq_or_ne t trx with rfl | hne
    · simp at ht
    · rw [update_of_ne hne] at ht
      exact ⟨hne, hless t ht⟩
  exact ⟨⟨h.inv.cancelWaiting hw, fun t ht => h.bound t (hstop t ht).2, hok.resetTrxWait trx⟩, hstop⟩

theorem Sound.cancel (trx : ℕ) : Sound env n (LockRec.cancel env s trx) := by
  unfold LockRec.cancel
  split
  case h_2 => exact h
  case h_1 ref hw =>
    split
    · exact (h.cancelWaiting hw).1
    · exact h

theorem Sound.request (htm : tm.wait = false) (hh : heapNo < nHeap)
    (hw : s.waits.waitLock trx = none) (hn : trx < n)
    (he : RequestEffect env s tm page nHeap heapNo trx s') : Sound env n s' := by
  have hinv := h.inv.request hw htm hh he
  cases he with
  | same => exact h
  | create =>
    exact ⟨hinv, by simpa [lockRecCreateLow, htm] using h.bound,
      by simpa [lockRecCreateLow, htm] using h.toCheck⟩
  | reuse => exact ⟨hinv, h.bound, h.toCheck⟩
  | wait c =>
    refine ⟨hinv, fun t ht => ?_, h.toCheck.listed, h.toCheck.flag⟩
    rcases eq_or_ne t trx with rfl | hne
    · exact hn
    simp only [lockRecCreateLow, if_true, Waits.startWait] at ht
    split at ht
    · exact h.bound t ht
    · exact h.bound t (by rwa [update_of_ne hne] at ht)

theorem Sound.takeCheck (trx : ℕ) : Sound env n (s.takeCheck trx) :=
  ⟨h.inv.takeCheck trx, h.bound, h.toCheck.erase trx rfl rfl⟩

/-- Resolving a deadlock ends the wait of one transaction and begins none. -/
theorem Sound.report (data : ℕ → TrxData) (trx : ℕ) :
    Sound env n (LockRec.report env n data s trx).1 ∧
      ((LockRec.report env n data s trx).1 = s ∨ ∃ v, (s.waits.waitTrx v).isSome = true ∧
        ∀ t, ((LockRec.report env n data s trx).1.waits.waitTrx t).isSome = true →
          t ≠ v ∧ (s.waits.waitTrx t).isSome = true) := by
  rcases report_cases h.inv h.bound data trx with ⟨-, heq⟩ | ⟨v, ref, -, href, heq, hin⟩
  · rw [heq]
    exact ⟨h, .inl rfl⟩
  obtain ⟨hsound, hstop⟩ := h.cancelWaiting href
  rw [heq]
  exact ⟨hsound, .inr ⟨v, hin.2.next_isSome, hstop⟩⟩

theorem Sound.checkAndResolve : Sound env n (LockRec.checkAndResolve env n data s trx).1 := by
  unfold LockRec.checkAndResolve
  split
  · exact h
  · exact (h.report data trx).1

theorem Sound.deadlockCheckStep : Sound env n (LockRec.deadlockCheckStep env n data s) := by
  unfold LockRec.deadlockCheckStep
  split
  · split
    · dsimp only
      split
      · exact h.takeCheck _
      · exact ((h.takeCheck _).report data _).1
    · rename_i hne
      exact ⟨⟨fun p => (h.inv.page p).congr rfl, h.inv.both, h.inv.blocked⟩, h.bound,
        h.toCheck.listed, fun hne' => absurd hne' hne⟩
  · exact h

end

/-! ### The loop of `deadlock_check()` ends -/

/-- The number of waiting transactions of a system of `n`. -/
def waitCount (n : ℕ) (w : Waits) : ℕ := ((Finset.range n).filter (w.waitTrx · |>.isSome)).card

theorem waitCount_le (n : ℕ) (w : Waits) : waitCount n w ≤ n := by
  exact (Finset.card_filter_le _ _).trans_eq (Finset.card_range n)

theorem ToCheckOk.card_le (h : ToCheckOk n w) : w.toCheck.card ≤ n := by
  have hsub : w.toCheck ⊆ Finset.range n := fun t ht => Finset.mem_range.mpr (h.listed t ht)
  exact (Finset.card_le_card hsub).trans_eq (Finset.card_range n)

/-- An iteration that resolves a deadlock ends a wait; the others shorten `to_check`. -/
theorem deadlockCheckStep_decreases (h : Sound env n s) (hne : s.waits.toCheck.Nonempty) :
    waitCount n (deadlockCheckStep env n data s).waits * (n + 1)
        + (deadlockCheckStep env n data s).waits.toCheck.card
      < waitCount n s.waits * (n + 1) + s.waits.toCheck.card := by
  have htake : waitCount n (s.takeCheck (s.waits.toCheck.min' hne)).waits * (n + 1)
      + (s.takeCheck (s.waits.toCheck.min' hne)).waits.toCheck.card
      < waitCount n s.waits * (n + 1) + s.waits.toCheck.card :=
    Nat.add_lt_add_left (Finset.card_erase_lt_of_mem (s.waits.toCheck.min'_mem hne)) _
  unfold deadlockCheckStep
  rw [if_pos (h.toCheck.flag hne), dif_pos hne]
  generalize s.waits.toCheck.min' hne = trx at htake ⊢
  dsimp only
  split
  · exact htake
  obtain ⟨h1, hsame | ⟨v, hv, hless⟩⟩ := (h.takeCheck trx).report data trx
  · rwa [hsame]
  have hle := h1.toCheck.card_le
  -- the victim no longer waits, and nobody has begun to
  have hlt : waitCount n (report env n data (s.takeCheck trx) trx).1.waits < waitCount n s.waits := by
    refine Finset.card_lt_card ((Finset.ssubset_iff_of_subset ?_).mpr ⟨v, ?_, ?_⟩)
    · intro t ht
      rw [Finset.mem_filter] at ht ⊢
      exact ⟨ht.1, (hless t ht.2).2⟩
    · exact Finset.mem_filter.mpr ⟨Finset.mem_range.mpr (h.bound v hv), hv⟩
    · intro hmem
      exact (hless v (Finset.mem_filter.mp hmem).2).1 rfl
  have hmul := Nat.mul_le_mul_right (n + 1) hlt
  rw [Nat.succ_mul] at hmul
  omega

theorem deadlockCheckStep_empty (h : s.waits.toCheck = ∅) :
    (deadlockCheckStep env n data s).waits.toCheck = ∅ := by
  unfold deadlockCheckStep
  split
  · rw [dif_neg (by simp [h])]
    exact h
  · exact h

theorem deadlockCheckStep_iterate_toCheck (k : ℕ) (h : Sound env n s)
    (hk : s.waits.toCheck = ∅ ∨ waitCount n s.waits * (n + 1) + s.waits.toCheck.card ≤ k) :
    ((deadlockCheckStep env n data)^[k] s).waits.toCheck = ∅ := by
  induction k generalizing s with
  | zero =>
    rcases hk with he | hk
    · exact he
    · rw [iterate_zero, id_eq, ← Finset.card_eq_zero]
      omega
  | succ k ih =>
    refine ih h.deadlockCheckStep ?_
    rcases s.waits.toCheck.eq_empty_or_nonempty with he | hne
    · exact .inl (deadlockCheckStep_empty he)
    have hdec := @deadlockCheckStep_decreases env n s data h hne
    rcases hk with he | hk
    · exact absurd he hne.ne_empty
    · exact .inr (by omega)

/-- **`lock_sys_t::deadlock_check()` ends with nothing left to check.** -/
theorem deadlockCheck_toCheck (h : Inv env s) (hb : WaitsBelow n s.waits)
    (hok : ToCheckOk n s.waits) : (deadlockCheck env n data s).waits.toCheck = ∅ := by
  refine deadlockCheckStep_iterate_toCheck _ ⟨h, hb, hok⟩ (.inr ?_)
  have hw := Nat.mul_le_mul_right (n + 1) (waitCount_le n s.waits)
  have hc := hok.card_le
  rw [Nat.succ_mul]
  omega

/-! ### Runs -/

/-- Every cycle of the waits passes through a transaction whose check is pending. -/
structure Noticed (env : Env) (n : ℕ) (S : System) : Prop where
  inv : Inv env S.locks
  bound : ∀ t, (S.locks.waits.waitTrx t).isSome = true → t < n
  toCheck : ToCheckOk n S.locks.waits
  covered : Covered S.locks.waits.waitTrx (Pending S.locks.waits none S.unchecked)

theorem noticed_init (n : ℕ) : Noticed env n System.init where
  inv := inv_init
  bound t ht := by simp [System.init, LockSys.init] at ht
  toCheck := ⟨fun t ht => by simp [System.init, LockSys.init] at ht,
    fun h => by simp [System.init, LockSys.init] at h⟩
  covered x hx := by
    have hs := hx.next_isSome
    simp [System.init, LockSys.init] at hs

theorem Noticed.sound (h : Noticed env n S) : Sound env n S.locks := ⟨h.inv, h.bound, h.toCheck⟩

theorem Sound.noticed (h : Sound env n S.locks) (hc : CyclesPending S.locks.waits S.unchecked) :
    Noticed env n S := ⟨h.inv, h.bound, h.toCheck, hc⟩

/-- A request, which tells its transaction to wait or changes no wait. -/
theorem Noticed.request (h : Noticed env n S) (htm : tm.wait = false) (hh : heapNo < nHeap)
    (hw : S.locks.waits.waitLock trx = none) (hn : trx < n)
    {err : DbErr} (he : Requested env S.locks tm page nHeap heapNo trx s' err) :
    Noticed env n ⟨s', match if err = .lockWait then some trx else none with
      | some trx => insert trx S.unchecked
      | none => S.unchecked⟩ := by
  refine Sound.noticed (h.sound.request htm hh hw hn he.1) ?_
  by_cases hwait : err = .lockWait
  · simpa [hwait] using covered_request h.inv h.covered htm hw he.1
  · simpa [CyclesPending, hwait, he.2 hwait] using h.covered

/-- **A careful call keeps every cycle pending.** -/
theorem Noticed.step (h : Noticed env n S) {c : Call} (hallowed : c.Allowed n S)
    (hcareful : c.Careful env n S) : Noticed env n (c.exec env n S) := by
  cases c with
  | op o =>
    cases o with
    | lock r =>
      obtain ⟨⟨hw, hh, -, htm, -⟩, hn⟩ := hallowed
      exact h.request htm hh hw hn (lockRecLock_effect htm)
    | insert spatial page nHeap heapNo trx noWait =>
      obtain ⟨⟨hw, hh⟩, hn⟩ := hallowed
      exact h.request rfl hh hw hn lockRecInsertCheckAndLock_effect
    | unlock trx page heapNo mode =>
      obtain ⟨hw, -⟩ := hallowed
      exact (h.sound.unlock hw).noticed (covered_unlock h.inv h.covered hw hcareful)
    | dequeue ref =>
      obtain ⟨hg, l, hl, hid, hw⟩ := hallowed
      have htrx : ∀ l' ∈ S.locks.recHash ref.page, l'.id = ref.id → l'.trx = l.trx :=
        fun l' hl' he => by rw [(h.inv.page ref.page).eq_of_id hl' hl (he.trans hid.symm)]
      obtain ⟨hless, hok⟩ := h.sound.dequeue_waits htrx
      exact ⟨h.inv.dequeue hg, fun t ht => h.bound t (hless t ht), hok,
        covered_dequeue h.inv h.covered hl hid hw⟩
    | cancel trx =>
      exact (h.sound.cancel trx).noticed (covered_cancel h.inv h.covered hcareful)
  | check trx data =>
    by_cases hw : (S.locks.waits.waitLock trx).isSome = true
    · simp only [Call.exec, if_pos hw]
      refine h.sound.checkAndResolve.noticed ?_
      simpa using covered_checkAndResolve h.inv h.bound hcareful h.covered
    simp only [Call.exec, if_neg hw]
    refine ⟨h.inv, h.bound, h.toCheck, h.covered.mono fun y hy hyc => hy.imp_right fun hy => ?_⟩
    -- a transaction that does not wait is on no cycle
    have hne : y ≠ trx := by
      rintro rfl
      exact hw (by rw [← h.inv.both]; exact hyc.next_isSome)
    simpa [hne] using hy
  | deadlockCheck data =>
    exact h.sound.deadlockCheckStep.noticed
      (covered_deadlockCheckStep h.inv h.bound hcareful h.covered)

/-- The state after a list of calls, in a system of `n` transactions. -/
def runCalls (env : Env) (n : ℕ) (S : System) (calls : List Call) : System :=
  calls.foldl (Call.exec env n) S

/-- Each call of a list, in the state that the calls before it lead to, satisfies `P`. -/
def AllCalls (env : Env) (n : ℕ) (P : System → Call → Prop) : System → List Call → Prop
  | _, [] => True
  | S, c :: calls => P S c ∧ AllCalls env n P (c.exec env n S) calls

/-- The calls of a run are made as their callers make them. -/
def AllowedCalls (env : Env) (n : ℕ) : System → List Call → Prop :=
  AllCalls env n fun S c => c.Allowed n S

/-- No call of a run loses a pending check. -/
def CarefulCalls (env : Env) (n : ℕ) : System → List Call → Prop :=
  AllCalls env n fun S c => c.Careful env n S

theorem Noticed.run (h : Noticed env n S) {calls : List Call}
    (hallowed : AllowedCalls env n S calls) (hcareful : CarefulCalls env n S calls) :
    Noticed env n (runCalls env n S calls) := by
  induction calls generalizing S with
  | nil => exact h
  | cons c calls ih => exact ih (h.step hallowed.1 hcareful.1) hallowed.2 hcareful.2

/-- No check is pending: `to_check` is empty, and no transaction waits unchecked. -/
def System.Checked (S : System) : Prop :=
  S.locks.waits.toCheck = ∅ ∧ ∀ t ∈ S.unchecked, S.locks.waits.waitLock t = none

/-- **Every deadlock is noticed**: in a run in which no unlock redirects a wait to a waiting
transaction and no cancelled wait takes another transaction's check out of `to_check`, the
`wait_trx` pointers form no cycle in any state in which no check is pending. -/
theorem acyclic_of_checked {n : ℕ} {calls : List Call}
    (hallowed : AllowedCalls env n System.init calls)
    (hcareful : CarefulCalls env n System.init calls)
    (hchecked : (runCalls env n System.init calls).Checked) (t : ℕ) :
    ¬ OnCycle (runCalls env n System.init calls).locks.waits.waitTrx t := by
  intro hc
  have h := (noticed_init n).run hallowed hcareful
  obtain ⟨y, hy, hty⟩ := h.covered t hc
  have hys := (hc.of_reaches hty).next_isSome
  rcases hy with ⟨hy, -⟩ | hy
  · simp [hchecked.1] at hy
  · rw [h.inv.waitTrx_eq_none (hchecked.2 y hy)] at hys
    simp at hys

instance (S : System) : Decidable S.Checked := inferInstanceAs (Decidable (_ ∧ _))

instance (n : ℕ) (S : System) : (c : Call) → Decidable (c.Allowed n S)
  | .op (.lock _) => inferInstanceAs (Decidable (_ ∧ _))
  | .op (.insert ..) => inferInstanceAs (Decidable (_ ∧ _))
  | .op (.unlock ..) => inferInstanceAs (Decidable (_ ∧ True))
  | .op (.dequeue _) => inferInstanceAs (Decidable (_ ∧ ∃ l ∈ _, _))
  | .op (.cancel _) => inferInstanceAs (Decidable (_ ∧ True))
  | .check .. => inferInstanceAs (Decidable True)
  | .deadlockCheck _ => inferInstanceAs (Decidable True)

instance decidableAllCalls (env : Env) (n : ℕ) (P : System → Call → Prop)
    [∀ S c, Decidable (P S c)] : ∀ S calls, Decidable (AllCalls env n P S calls)
  | _, [] => inferInstanceAs (Decidable True)
  | S, c :: calls =>
    have := decidableAllCalls env n P (c.exec env n S) calls
    inferInstanceAs (Decidable (_ ∧ _))

instance (env : Env) (n : ℕ) (S : System) (calls : List Call) :
    Decidable (AllowedCalls env n S calls) :=
  decidableAllCalls env n (fun S c => c.Allowed n S) S calls

/-- A request of `trx` for a lock on a record. -/
def request (trx page heapNo : ℕ) (tm : TypeMode) : Call :=
  .op (.lock { tm := tm, page := page, nHeap := 8, heapNo := heapNo, trx := trx })

/-- The transactions 2 and 3 share the record 2; 1 holds the record 3 and waits for 2, the first
owner of the record 2; 3 waits for 1.  When 2 unlocks its record, 1 waits for 3. -/
def unlockCalls : List Call :=
  [request 2 0 2 { mode := .s }, request 3 0 2 { mode := .s }, request 1 0 3 { mode := .x },
    request 1 0 2 { mode := .x }, .check 1 equal,
    request 3 0 3 { mode := .x }, .check 3 equal,
    .op (.unlock 2 0 2 .s), .deadlockCheck equal]

/-- The transaction 2 waits for the record 2 behind 1; 3 waits to insert behind 2, and would next
have to wait for the gap lock of 1.  With 1 waiting for 4 and 4 for 3 on another page, there is a
deadlock of all four; when it is resolved by ending the wait of 2, the other three form a new
one. -/
def cancelCalls : List Call :=
  [request 1 0 2 { mode := .s, recNotGap := true }, request 3 1 5 { mode := .x },
    request 4 1 6 { mode := .x }, request 2 0 2 { mode := .x }, .check 2 equal,
    request 1 0 2 { mode := .s, gap := true },
    .op (.insert false 0 8 2 3 false), .check 3 equal,
    request 4 1 5 { mode := .x }, .check 4 equal,
    request 1 1 6 { mode := .x }, .check 1 (lightest 2),
    .deadlockCheck equal]

/-- The calls lead to a deadlock that nobody will look for. -/
def HideDeadlock (n : ℕ) (calls : List Call) : Prop :=
  AllowedCalls noExemption n System.init calls ∧ (runCalls noExemption n System.init calls).Checked ∧
    OnCycle (runCalls noExemption n System.init calls).locks.waits.waitTrx 1

/-- **Deadlocks are missed**: `lock_rec_unlock()` redirects a wait to a waiting transaction without a
check, and the end of a victim's wait takes the check of the next deadlock out of `to_check`. -/
theorem unlock_cancel_hide_deadlock : HideDeadlock 4 unlockCalls ∧ HideDeadlock 5 cancelCalls :=
  ⟨⟨by decide, by decide, 1, by decide⟩, by decide, by decide, 2, by decide⟩

instance (env : Env) (s : LockSys) (trx : ℕ) : Decidable (CancelKeeps env s trx) :=
  inferInstanceAs (Decidable (∀ ref ∈ _, ∀ l ∈ _, _ → ∀ c ∈ _, _ → _))

/-- The transactions 1 and 2 each wait for the record of the other. -/
def crossCalls : List Call :=
  [request 1 0 2 { mode := .x }, request 2 0 3 { mode := .x }, request 1 0 3 { mode := .x },
    .check 1 equal, request 2 0 2 { mode := .x }, .check 2 (lightest 1), .deadlockCheck equal]

theorem acyclic_of_checked_cross :
    (runCalls noExemption 3 System.init crossCalls).Checked ∧
      ∀ t, ¬ OnCycle (runCalls noExemption 3 System.init crossCalls).locks.waits.waitTrx t := by
  have hchecked : (runCalls noExemption 3 System.init crossCalls).Checked := by decide
  exact ⟨hchecked, acyclic_of_checked (by decide) ⟨trivial, trivial, trivial,
    ⟨hasVictim_equal _ _, by decide⟩, trivial, ⟨hasVictim_lightest 1 _ _, by decide⟩,
    fun h => ⟨hasVictim_equal _ _, by revert h; decide⟩, trivial⟩ hchecked⟩

/-- The transaction 2 releases the lock for which 1 waits.  Now 1 waits for 3, which waits for 1. -/
def releaseCalls : List Call :=
  [request 2 0 2 { mode := .s }, request 3 0 2 { mode := .s }, request 1 0 3 { mode := .x },
    request 1 0 2 { mode := .x }, request 3 0 3 { mode := .x }, .op (.dequeue ⟨0, 0⟩)]

theorem deadlockCheck_toCheck_release :
    (runCalls noExemption 4 System.init releaseCalls).locks.waits.toCheck = {1, 3} ∧
      (deadlockCheck noExemption 4 equal
        (runCalls noExemption 4 System.init releaseCalls).locks).waits.toCheck = ∅ := by
  have h := (noticed_init 4).run (by decide : AllowedCalls noExemption 4 System.init releaseCalls)
    ⟨trivial, trivial, trivial, trivial, trivial, trivial, trivial⟩
  exact ⟨by decide, deadlockCheck_toCheck h.inv h.bound h.toCheck⟩

end LockRec
