/-
**Record lock exclusion.**

No two transactions hold granted locks of incompatible modes on a record.  The conflict rules are
not symmetric, waiting locks are granted by looking only at the locks ahead, and reusing a lock
object puts a lock into the middle of the queue of a record.  The invariant is therefore on
ordered pairs: of two conflicting locks in a queue, the one behind waits.

Main definitions:

* `RecConflict`: two locks that must not both be granted on a record;
* `Exclusive`: of two conflicting locks of a queue, the one behind waits.

Main results:

* `granted_locks_compatible`: **exclusion**, in every reachable state.
-/

import MariaDb.LockRecGrant

set_option autoImplicit false

namespace LockRec

open Function List

variable {env : Env}

/-! ### Conflicts on a record -/

/-- Two locks of different transactions on a record, not on a gap, with incompatible modes. -/
structure RecConflict (a b : Lock) : Prop where
  trx : a.trx ≠ b.trx
  mode : lockModeCompatible a.typeMode.mode b.typeMode.mode = false
  gap_left : a.typeMode.gap = false
  gap_right : b.typeMode.gap = false
  insert_left : a.typeMode.insertIntention = false
  insert_right : b.typeMode.insertIntention = false

theorem RecConflict.symm {a b : Lock} (h : RecConflict a b) : RecConflict b a :=
  ⟨h.trx.symm, by rw [lockModeCompatible_comm, h.mode], h.gap_right, h.gap_left, h.insert_right,
    h.insert_left⟩

/-- A conflict depends on the owners and the flags of the locks only. -/
theorem RecConflict.congr {a b a' b' : Lock} (h : RecConflict a' b') (hat : a'.trx = a.trx)
    (hbt : b'.trx = b.trx) (ham : a'.typeMode = a.typeMode) (hbm : b'.typeMode = b.typeMode) :
    RecConflict a b := by
  refine ⟨?_, ?_, ?_, ?_, ?_, ?_⟩
  · rw [← hat, ← hbt]; exact h.trx
  · rw [← ham, ← hbm]; exact h.mode
  · rw [← ham]; exact h.gap_left
  · rw [← hbm]; exact h.gap_right
  · rw [← ham]; exact h.insert_left
  · rw [← hbm]; exact h.insert_right

/-- The lock `b`, behind `a`, waits if both conflict on a record. -/
def WaitsBehind (a b : Lock) : Prop :=
  ∀ h, h ≠ pageHeapNoSupremum → a.nthBit h = true → b.nthBit h = true → RecConflict a b →
    b.isWaiting = true

/-- Of two conflicting locks in the queue, the one behind waits. -/
def Exclusive (q : List Lock) : Prop := q.Pairwise WaitsBehind

theorem WaitsBehind.clearWait_left {a b : Lock} (h : WaitsBehind a b) : WaitsBehind a.clearWait b :=
  fun i hi ha hb hc => h i hi ha hb ⟨hc.1, hc.2, hc.3, hc.4, hc.5, hc.6⟩

/-- Clearing bits keeps the exclusion. -/
theorem Exclusive.resetBitOf {q : List Lock} (h : Exclusive q) (id heapNo : ℕ) :
    Exclusive (resetBitOf id heapNo q) := by
  have hbit : ∀ (a : Lock) (i : ℕ),
      (if a.id = id then a.resetNthBit heapNo else a).nthBit i = true → a.nthBit i = true := by
    intro a i hai
    split at hai
    · exact ((nthBit_resetNthBit a heapNo i).mp hai).1
    · exact hai
  have htm : ∀ a : Lock, (if a.id = id then a.resetNthBit heapNo else a).typeMode = a.typeMode := by
    intro a
    split <;> rfl
  have htrx : ∀ a : Lock, (if a.id = id then a.resetNthBit heapNo else a).trx = a.trx := by
    intro a
    split <;> rfl
  refine pairwise_map.mpr (h.imp ?_)
  intro a b hab i hi hai hbi hconf
  rw [Lock.isWaiting, htm b]
  exact hab i hi (hbit a i hai) (hbit b i hbi) (hconf.congr (htrx a) (htrx b) (htm a) (htm b))

section

variable (hskip : ∀ t u, env.wsrepSkip t u = false)
include hskip

/-- Without the wsrep exemption, conflicting requests on a record make each other wait. -/
theorem RecConflict.hasToWait {a b : Lock}
    (h : RecConflict a b) : lockRecHasToWait env a.trx a.typeMode b false = true := by
  simp [lockRecHasToWait, h.trx, h.mode, h.gap_left, h.gap_right, h.insert_left, h.insert_right,
    hskip]

/-- The examination of the queue keeps the exclusion. -/
theorem regrant_exclusive {page next : ℕ}
    {v : Option ℕ} {visit : Lock → Bool} {redirect : Waits → ℕ → ℕ → Waits}
    (hr : Redirects redirect) {w0 : Waits} {q : List Lock} (h : PageInv page next v w0 q)
    (hq : Exclusive q) : Exclusive (regrant env visit redirect w0 [] q).2 := by
  have key := @regrant_induct env visit redirect
    (fun w ahead rest => PageInv page next v w (ahead ++ rest) ∧ Exclusive (ahead ++ rest))
    ?_ ?_ ?_ w0 [] q ⟨h, hq⟩
  · simpa using key.2
  · rintro w ahead lock rest - ⟨hp, he⟩
    exact ⟨by simpa using hp, by simpa using he⟩
  · rintro w ahead lock rest c - - - ⟨hp, he⟩
    exact ⟨by simpa using hp.congr (hr w lock.trx c.trx).1, by simpa using he⟩
  rintro w ahead lock rest - hwait hc ⟨hp, he⟩
  refine ⟨by simpa using hp.grant hwait, ?_⟩
  obtain ⟨i, hi, hnone⟩ := hp.conflict_none hwait hc
  simp only [Exclusive, append_assoc, singleton_append, pairwise_append,
    pairwise_cons, mem_cons] at he ⊢
  obtain ⟨ha, ⟨hlr, hrr⟩, har⟩ := he
  refine ⟨ha, ⟨fun b hb => (hlr b hb).clearWait_left, hrr⟩, ?_⟩
  rintro a haa b (rfl | hb)
  · -- the granted lock does not conflict with a lock ahead of it
    intro j hj haj hlj hconf
    obtain rfl : j = i := (hi j).mp hlj
    have hsup : lock.nthBit pageHeapNoSupremum = false := by
      simpa using fun hs => hj ((hi _).mp hs).symm
    have hc' : RecConflict lock a := ⟨hconf.1.symm,
      by rw [lockModeCompatible_comm]; exact hconf.2, hconf.4, hconf.3, hconf.6, hconf.5⟩
    have hw := hc'.hasToWait hskip
    rw [← hsup, ← lockHasToWait_eq, hnone a haa haj] at hw
    exact absurd hw (by simp)
  · exact har a haa b (.inr hb)

/-! ### The calls -/

/-- Every effect of a request keeps the exclusion. -/
theorem Exclusive.request {s s' : LockSys}
    {tm : TypeMode} {page nHeap heapNo trx : ℕ} (hinv : Inv env s) (hh : heapNo < nHeap)
    (h : ∀ p, Exclusive (s.recHash p))
    (he : RequestEffect env s tm page nHeap heapNo trx s') : ∀ p, Exclusive (s'.recHash p) := by
  -- a lock that is on the record and does not make the request wait does not conflict
  have hnc : NoConflict env s tm page heapNo trx → heapNo ≠ pageHeapNoSupremum →
      ∀ l : Lock, l.trx = trx → l.typeMode = tm → ∀ a ∈ s.recHash page, a.nthBit heapNo = true →
        ¬ RecConflict l a := by
    rintro hc hne l rfl rfl a ha hb hconf
    have hw := hc a ha hb
    rw [beq_eq_false_iff_ne.mpr hne, hconf.hasToWait hskip] at hw
    simp at hw
  intro p
  cases he with
  | same => exact h p
  | create hc =>
    simp only [lockRecCreateLow]
    rcases eq_or_ne p page with rfl | hp
    · rw [update_self]
      refine pairwise_append.mpr ⟨h p, pairwise_singleton _ _, ?_⟩
      intro a ha b hb i hi hai hbi hconf
      obtain rfl := mem_singleton.mp hb
      obtain rfl : i = heapNo := (newLock_onlyBit hh i).mp hbi
      exact absurd hconf.symm (hnc hc hi _ rfl (onRecord_of_ne tm hi) a ha hai)
    · rw [update_of_ne hp]
      exact h p
  | wait c =>
    simp only [lockRecCreateLow]
    rcases eq_or_ne p page with rfl | hp
    · rw [update_self]
      refine pairwise_append.mpr ⟨h p, pairwise_singleton _ _, ?_⟩
      intro a _ b hb _ _ _ _ _
      obtain rfl := mem_singleton.mp hb
      exact newLock_isWaiting _ _ _ _ _
    · rw [update_of_ne hp]
      exact h p
  | reuse l hl hlt hlw hm hc =>
    simp only [LockSys.setQueue]
    rcases eq_or_ne p page with rfl | hp
    · rw [update_self]
      have hf : KeepsWaiting (s.recHash p)
          (fun l' => if l'.id = l.id then l'.setNthBit heapNo else l') :=
        keepsWaiting_ite (hinv.page p) hl hlw (fun _ => rfl) (fun _ => rfl) (fun _ => rfl)
      -- a bit that a lock now has is an old one, or the lock is `l` and the bit is the new one
      have hbit : ∀ a ∈ s.recHash p, ∀ i,
          (if a.id = l.id then a.setNthBit heapNo else a).nthBit i = true →
            a.nthBit i = true ∨ (a = l ∧ i = heapNo) := by
        intro a ha i hai
        split at hai
        · rename_i he
          exact ((nthBit_setNthBit a heapNo i).mp hai).imp_right
            fun h' => ⟨(hinv.page p).eq_of_id ha hl he, h'.1⟩
        · exact .inl hai
      refine pairwise_map.mpr ((h p).imp_of_mem ?_)
      intro a b ha hb hab i hi hai hbi hconf
      rw [hf.isWaiting hb]
      have hconf' : RecConflict a b := hconf.congr (hf.trx a ha) (hf.trx b hb)
        (hf.typeMode a ha) (hf.typeMode b hb)
      rcases hbit a ha i hai with hai' | ⟨rfl, rfl⟩
      · rcases hbit b hb i hbi with hbi' | ⟨rfl, rfl⟩
        · exact hab i hi hai' hbi' hconf'
        · exact absurd hconf'.symm (hnc hc hi b hlt (hm hi) a ha hai')
      · rcases hbit b hb i hbi with hbi' | ⟨rfl, -⟩
        · exact absurd hconf' (hnc hc hi a hlt (hm hi) b hb hbi')
        · exact absurd rfl hconf'.trx
    · rw [update_of_ne hp]
      exact h p

theorem Exclusive.dequeue {s : LockSys}
    (hinv : Inv env s) {ref : LockRef} (h : ∀ p, Exclusive (s.recHash p)) {v : Option ℕ}
    (hid : ∀ l ∈ s.recHash ref.page, l.id = ref.id → l.isWaiting = true → some l.trx = v) :
    ∀ p, Exclusive ((lockRecDequeueFromPage env s ref).recHash p) := by
  intro p
  simp only [lockRecDequeueFromPage, LockSys.setQueue]
  rcases eq_or_ne p ref.page with rfl | hp
  · rw [update_self]
    exact regrant_exclusive hskip redirects_redirectAndCheck
      ((hinv.page ref.page).filter hid) ((h ref.page).filter _)
  · rw [update_of_ne hp]
    exact h p

/-- **Every call keeps the exclusion.** -/
theorem Exclusive.step {s : LockSys} (hinv : Inv env s) (h : ∀ p, Exclusive (s.recHash p)) {op : Op}
    (hop : op.Allowed s) : ∀ p, Exclusive ((op.exec env s).recHash p) := by
  cases op with
  | lock r =>
    obtain ⟨-, hh, -, hw, -⟩ := hop
    exact Exclusive.request hskip hinv hh h (lockRecLock_effect hw).1
  | insert spatial page nHeap heapNo trx noWait =>
    exact Exclusive.request hskip hinv hop.2 h lockRecInsertCheckAndLock_effect.1
  | unlock trx page heapNo mode =>
    intro p
    simp only [Op.exec]
    rcases hinv.unlock_cases hop page heapNo mode with
      hs | ⟨firstLock, lock, -, -, -, -, hf, hs⟩
    · rw [hs]
      exact h p
    rw [hs]
    simp only [LockSys.setQueue]
    rcases eq_or_ne p page with rfl | hp
    · rw [update_self]
      exact regrant_exclusive hskip redirects_redirect ((hinv.page p).map hf) ((h p).resetBitOf _ _)
    · rw [update_of_ne hp]
      exact h p
  | dequeue inLock =>
    exact Exclusive.dequeue hskip hinv h (v := none) (fun l hl he hw => by simp [hop l hl he] at hw)
  | cancel trx =>
    simp only [Op.exec, LockRec.cancel]
    split
    case h_2 => exact h
    case h_1 ref hw =>
      split
      · exact Exclusive.dequeue hskip hinv h (v := some trx)
          fun l hl he _ => by rw [hinv.wait_lock_trx hw l hl he]
      · exact h

theorem Reachable.exclusive {s : LockSys} (h : Reachable env s) : ∀ p, Exclusive (s.recHash p) := by
  induction h with
  | init => exact fun _ => List.Pairwise.nil
  | step op h hop ih => exact Exclusive.step hskip h.inv ih hop

end

/-- **Record lock exclusion**: without a wsrep exemption, the granted locks of two transactions on a
record, neither a gap nor an insert intention lock, have compatible modes. -/
theorem granted_locks_compatible (hskip : ∀ t u, env.wsrepSkip t u = false) {s : LockSys}
    (hs : Reachable env s) {page heapNo : ℕ} {a b : Lock} (ha : a ∈ s.recHash page)
    (hb : b ∈ s.recHash page) (htrx : a.trx ≠ b.trx) (hh : heapNo ≠ pageHeapNoSupremum)
    (hab : a.nthBit heapNo = true) (hbb : b.nthBit heapNo = true) (hag : a.isWaiting = false)
    (hbg : b.isWaiting = false) (hagap : a.typeMode.gap = false) (hbgap : b.typeMode.gap = false)
    (hains : a.typeMode.insertIntention = false) (hbins : b.typeMode.insertIntention = false) :
    lockModeCompatible a.typeMode.mode b.typeMode.mode = true := by
  have hpair : (s.recHash page).Pairwise fun a b => WaitsBehind a b ∨ WaitsBehind b a :=
    (hs.exclusive hskip page).imp .inl
  have : Std.Symm fun a b => WaitsBehind a b ∨ WaitsBehind b a := ⟨fun _ _ => Or.symm⟩
  have hne : a ≠ b := fun he => htrx (congrArg Lock.trx he)
  cases hm : lockModeCompatible a.typeMode.mode b.typeMode.mode with
  | true => rfl
  | false =>
    have hconf : RecConflict a b := ⟨htrx, hm, hagap, hbgap, hains, hbins⟩
    rcases hpair.forall ha hb hne with hab' | hba'
    · have hw := hab' heapNo hh hab hbb hconf
      simp [hbg] at hw
    · have hw := hba' heapNo hh hbb hab hconf.symm
      simp [hag] at hw

/-- The transactions 1 and 2 both ask for a shared lock on the record 2 of the page 0. -/
def twoReaders : List Op :=
  [.lock { tm := { mode := .s }, page := 0, nHeap := 3, heapNo := 2, trx := 1 },
    .lock { tm := { mode := .s }, page := 0, nHeap := 3, heapNo := 2, trx := 2 }]

theorem granted_locks_compatible_two_readers :
    (run noExemption LockSys.init twoReaders).recHash 0
        = [⟨0, 1, { mode := .s }, 8, {2}⟩, ⟨1, 2, { mode := .s }, 8, {2}⟩] ∧
      lockModeCompatible .s .s = true := by
  have hq : (run noExemption LockSys.init twoReaders).recHash 0
      = [⟨0, 1, { mode := .s }, 8, {2}⟩, ⟨1, 2, { mode := .s }, 8, {2}⟩] := by decide
  refine ⟨hq, ?_⟩
  exact @granted_locks_compatible noExemption (fun _ _ => rfl) _
    (Reachable.run .init (by decide : AllowedRun noExemption LockSys.init twoReaders)) 0 2
    ⟨0, 1, { mode := .s }, 8, {2}⟩ ⟨1, 2, { mode := .s }, 8, {2}⟩ (by rw [hq]; simp)
    (by rw [hq]; simp) (by decide) (by decide) (by decide) (by decide) rfl rfl rfl rfl rfl rfl

end LockRec
