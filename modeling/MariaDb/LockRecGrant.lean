/-
**No lock grant is lost.**

The requests, unlocks and releases of `MariaDb/LockRec.lean` keep the bookkeeping of the waits: a
waiting lock covers one record, its transaction's `wait_lock` points back to it, and a transaction
that waits has exactly one such lock.  On top of this, a waiting lock always has a lock ahead of it
that it has to wait for, and that lock's owner is the `wait_trx` of the waiting transaction.  So
whenever the last reason to wait goes away, the lock is granted in the same call.

Main definitions:

* `PageInv`: the bookkeeping of one page's queue;
* `Frame`: what the examination of a queue does to the waits;
* `Blocked`: every waiting lock of a queue has to wait for a lock ahead of it;
* `Inv`: both, for all pages;
* `Op`, `Reachable`: the calls and the states they lead to.

Main results:

* `waiting_lock_blocked`: **no lost grant**, in every reachable state.
-/

import MariaDb.LockRec

set_option autoImplicit false

namespace LockRec

open Function List LockSys

variable {env : Env}

/-! ### The bookkeeping of one queue -/

/-- The queue of a page: the objects are distinct and older than `next`, a waiting lock covers one
record and is the `wait_lock` of its transaction, and every `wait_lock` on the page is a waiting
lock of the queue, that of the transaction `v` excepted. -/
structure PageInv (page next : ℕ) (v : Option ℕ) (w : Waits) (q : List Lock) : Prop where
  nodup : (q.map (·.id)).Nodup
  fresh : ∀ l ∈ q, l.id < next
  single : ∀ l ∈ q, l.isWaiting = true → ∃ h, l.OnlyBit h
  lock_trx : ∀ l ∈ q, l.isWaiting = true → w.waitLock l.trx = some ⟨page, l.id⟩
  trx_lock : ∀ t i, w.waitLock t = some ⟨page, i⟩ →
    (∃ l ∈ q, l.id = i ∧ l.trx = t ∧ l.isWaiting = true) ∨ some t = v

variable {page next trx nHeap heapNo : ℕ} {v : Option ℕ} {w w' w0 : Waits}
  {q ahead rest : List Lock} {a lock c l : Lock} {visit : Lock → Bool}
  {redirect : Waits → ℕ → ℕ → Waits} {f : Lock → Lock} {s : LockSys} {tm : TypeMode} {ref : LockRef}

section

variable (h : PageInv page next v w q)
include h

theorem PageInv.eq_of_id {b : Lock} (ha : a ∈ q) (hb : b ∈ q) (he : a.id = b.id) : a = b :=
  inj_on_of_nodup_map h.nodup ha hb he

theorem PageInv.eq_of_trx {b : Lock} (ha : a ∈ q) (hb : b ∈ q)
    (hwa : a.isWaiting = true) (hwb : b.isWaiting = true) (he : a.trx = b.trx) : a = b := by
  have h1 := h.lock_trx a ha hwa
  rw [he, h.lock_trx b hb hwb] at h1
  exact (h.eq_of_id hb ha (by simpa using h1)).symm

/-- The bookkeeping reads nothing of the waits but `wait_lock`. -/
theorem PageInv.congr (hw : w'.waitLock = w.waitLock) : PageInv page next v w' q :=
  ⟨h.nodup, h.fresh, h.single, by rw [hw]; exact h.lock_trx, by rw [hw]; exact h.trx_lock⟩

end

namespace PageInv

variable (h : PageInv page next v w (ahead ++ lock :: rest))
include h

theorem not_mem_ahead : lock.id ∉ ahead.map (·.id) := by
  have hn := h.nodup
  rw [map_append, nodup_append, map_cons] at hn
  intro hm
  exact hn.2.2 _ hm _ (mem_cons_self ..) rfl

variable (hwait : lock.isWaiting = true)
include hwait

theorem trx_ne (ha : a ∈ ahead ++ rest) (hwa : a.isWaiting = true) : a.trx ≠ lock.trx := by
  intro he
  have hn : (ahead ++ lock :: rest).Nodup := h.nodup.of_map _
  rw [nodup_middle, nodup_cons] at hn
  refine hn.1 (h.eq_of_trx ?_ (by simp) hwa hwait he ▸ ha)
  simpa [or_left_comm] using .inr (mem_append.1 ha)

/-- Granting a waiting lock keeps the bookkeeping. -/
theorem grant :
    PageInv page next v (w.resetTrxWait lock.trx) (ahead ++ lock.clearWait :: rest) := by
  -- a lock of the new queue is the granted one or another lock of the old queue
  have hmem : ∀ l, l ∈ ahead ++ lock.clearWait :: rest ↔ l = lock.clearWait ∨ l ∈ ahead ++ rest := by
    intro l
    simp only [mem_append, mem_cons]
    tauto
  have hsub : ∀ l ∈ ahead ++ rest, l ∈ ahead ++ lock :: rest := by
    intro l hl
    simp only [mem_append, mem_cons] at hl ⊢
    tauto
  refine ⟨by simpa using h.nodup, ?_, ?_, ?_, ?_⟩
  · intro l hl
    rcases (hmem l).mp hl with rfl | hl
    · exact h.fresh lock (by simp)
    · exact h.fresh l (hsub l hl)
  · intro l hl hlw
    rcases (hmem l).mp hl with rfl | hl
    · simp at hlw
    · exact h.single l (hsub l hl) hlw
  · intro l hl hlw
    rcases (hmem l).mp hl with rfl | hl
    · simp at hlw
    · simpa [update_of_ne (h.trx_ne hwait hl hlw)] using h.lock_trx l (hsub l hl) hlw
  · intro t i ht
    have htn : t ≠ lock.trx := by
      rintro rfl
      simp at ht
    rw [resetTrxWait_waitLock, update_of_ne htn] at ht
    refine (h.trx_lock t i ht).imp_left ?_
    rintro ⟨l, hl, hli, rfl, hlw⟩
    have hne : l ≠ lock := fun he => htn (he ▸ rfl)
    exact ⟨l, (hmem l).mpr (.inr (by simpa [hne] using hl)), hli, rfl, hlw⟩

/-- The conflict that the loop finds for a waiting lock is with a lock ahead of it on the record
that it covers. -/
theorem conflict_some (hc : lockRecHasToWaitInQueue env lock (ahead ++ lock :: rest) = some c) :
    c ∈ ahead ∧ lockHasToWait env lock c = true ∧ ∃ i, lock.OnlyBit i ∧ c.nthBit i = true := by
  obtain ⟨i, hi⟩ := h.single lock (by simp) hwait
  rw [lockRecHasToWaitInQueue_eq hi h.not_mem_ahead] at hc
  have hp := find?_some hc
  simp only [Bool.and_eq_true] at hp
  exact ⟨mem_of_find?_eq_some hc, hp.2, i, hi, hp.1⟩

/-- A waiting lock is granted when no lock ahead of it on its record makes it wait. -/
theorem conflict_none (hc : lockRecHasToWaitInQueue env lock (ahead ++ lock :: rest) = none) :
    ∃ i, lock.OnlyBit i ∧ ∀ l ∈ ahead, l.nthBit i = true → lockHasToWait env lock l = false := by
  obtain ⟨i, hi⟩ := h.single lock (by simp) hwait
  rw [lockRecHasToWaitInQueue_eq hi h.not_mem_ahead] at hc
  refine ⟨i, hi, fun l hl hb => ?_⟩
  simpa [hb] using find?_eq_none.mp hc l hl

end PageInv

/-! ### One examination of a queue -/

/-- What the examination of a page's queue does to the waits: only transactions with a waiting lock
on the page are touched, and each of them still waits or has stopped waiting. -/
def Frame (page : ℕ) (w w' : Waits) : Prop :=
  ∀ t, (w'.waitLock t = w.waitLock t ∧ w'.waitTrx t = w.waitTrx t) ∨
    (∃ i, w.waitLock t = some ⟨page, i⟩) ∧
      (w'.waitLock t = w.waitLock t ∧ (w'.waitTrx t).isSome = true ∨
        w'.waitLock t = none ∧ w'.waitTrx t = none)

theorem Frame.refl (page : ℕ) (w : Waits) : Frame page w w := fun _ => .inl ⟨rfl, rfl⟩

/-- Changing the wait of one transaction that has a waiting lock on the page. -/
theorem Frame.update {i : ℕ} {w'' : Waits} (h : Frame page w w')
    (ht : w'.waitLock trx = some ⟨page, i⟩)
    (hother : ∀ t, t ≠ trx → w''.waitLock t = w'.waitLock t ∧ w''.waitTrx t = w'.waitTrx t)
    (hself : w''.waitLock trx = w'.waitLock trx ∧ (w''.waitTrx trx).isSome = true ∨
      w''.waitLock trx = none ∧ w''.waitTrx trx = none) :
    Frame page w w'' := by
  intro t
  by_cases he : t = trx
  · subst he
    have hw : w'.waitLock t = w.waitLock t := by
      rcases h t with ⟨h1, -⟩ | ⟨-, ⟨h1, -⟩ | ⟨h1, -⟩⟩
      · exact h1
      · exact h1
      · simp [h1] at ht
    refine .inr ⟨⟨i, by rw [← hw, ht]⟩, ?_⟩
    rw [← hw]
    exact hself
  · rw [(hother t he).1, (hother t he).2]
    exact h t

/-- What a loop that notes redirected waits may do with the waits. -/
def Redirects (redirect : Waits → ℕ → ℕ → Waits) : Prop :=
  ∀ w trx cTrx, (redirect w trx cTrx).waitLock = w.waitLock ∧
    (redirect w trx cTrx).waitTrx = update w.waitTrx trx (some cTrx)

theorem redirects_redirect : Redirects Waits.redirect := fun _ _ _ => ⟨rfl, rfl⟩

theorem redirects_redirectAndCheck : Redirects Waits.redirectAndCheck :=
  fun w trx cTrx => ⟨redirectAndCheck_waitLock w trx cTrx, redirectAndCheck_waitTrx w trx cTrx⟩

/-- The bookkeeping survives the examination of the queue. -/
theorem regrant_pageInv (hr : Redirects redirect) (h : PageInv page next v w0 q) :
    PageInv page next v (regrant env visit redirect w0 [] q).1
        (regrant env visit redirect w0 [] q).2 ∧
      Frame page w0 (regrant env visit redirect w0 [] q).1 := by
  have key := @regrant_induct env visit redirect
    (fun w ahead rest => PageInv page next v w (ahead ++ rest) ∧ Frame page w0 w)
    ?_ ?_ ?_ w0 [] q ⟨h, Frame.refl page w0⟩
  · simpa only [append_nil] using key
  · rintro w ahead lock rest - ⟨hp, hf⟩
    exact ⟨by simpa using hp, hf⟩
  · rintro w ahead lock rest c - hwait - ⟨hp, hf⟩
    have hlt := hp.lock_trx lock (by simp) hwait
    refine ⟨by simpa using hp.congr (hr w lock.trx c.trx).1, hf.update hlt ?_ ?_⟩
    · intro t ht
      rw [(hr w lock.trx c.trx).1, (hr w lock.trx c.trx).2, update_of_ne ht]
      exact ⟨rfl, rfl⟩
    · rw [(hr w lock.trx c.trx).1, (hr w lock.trx c.trx).2, update_self]
      exact .inl ⟨rfl, rfl⟩
  · rintro w ahead lock rest - hwait - ⟨hp, hf⟩
    have hlt := hp.lock_trx lock (by simp) hwait
    refine ⟨by simpa using hp.grant hwait, hf.update hlt ?_ ?_⟩
    · intro t ht
      simp [update_of_ne ht]
    · simp

/-! ### No lost grant -/

/-- The lock covers one record, and a lock ahead on that record, owned by the transaction that the
lock's transaction waits for, makes it wait. -/
def BlockedAt (env : Env) (w : Waits) (ahead : List Lock) (l : Lock) : Prop :=
  ∃ h, l.OnlyBit h ∧ ∃ a ∈ ahead, a.nthBit h = true ∧ lockHasToWait env l a = true ∧
    w.waitTrx l.trx = some a.trx

/-- Every waiting lock of the queue is blocked by a lock ahead of it. -/
def Blocked (env : Env) (w : Waits) (q : List Lock) : Prop :=
  ∀ ahead l behind, q = ahead ++ l :: behind → l.isWaiting = true → BlockedAt env w ahead l

theorem BlockedAt.congr (h : BlockedAt env w ahead l) (hw : w'.waitTrx l.trx = w.waitTrx l.trx) :
    BlockedAt env w' ahead l := by
  unfold BlockedAt
  rw [hw]
  exact h

/-- What blocks a lock keeps blocking it when the locks ahead are replaced by locks of the same
owners that cover at least the lock's record and make it wait as before. -/
theorem BlockedAt.map {ahead' : List Lock} (h : BlockedAt env w ahead l)
    (hm : ∀ a ∈ ahead, ∀ i, l.OnlyBit i → a.nthBit i = true → lockHasToWait env l a = true →
      ∃ a' ∈ ahead', a'.nthBit i = true ∧ lockHasToWait env l a' = true ∧ a'.trx = a.trx) :
    BlockedAt env w ahead' l := by
  obtain ⟨i, hi, a, ha, hb, hc, ht⟩ := h
  obtain ⟨a', ha', hb', hc', ht'⟩ := hm a ha i hi hb hc
  exact ⟨i, hi, a', ha', hb', hc', by rw [ht, ht']⟩

theorem blocked_nil (w : Waits) : Blocked env w [] := by
  intro ahead l behind h
  simp at h

theorem blocked_concat :
    Blocked env w (q ++ [lock]) ↔
      Blocked env w q ∧ (lock.isWaiting = true → BlockedAt env w q lock) := by
  constructor
  · intro h
    refine ⟨fun ahead l behind hq hl => ?_, fun hl => h q lock [] rfl hl⟩
    exact h ahead l (behind ++ [lock]) (by simp [hq]) hl
  rintro ⟨h, hlock⟩ ahead l behind hq hl
  rcases eq_nil_or_concat' behind with rfl | ⟨behind, l', rfl⟩
  · obtain ⟨rfl, he⟩ := append_inj' hq rfl
    obtain rfl : lock = l := by simpa using he
    exact hlock hl
  · have hq' : q ++ [lock] = (ahead ++ l :: behind) ++ [l'] := by simpa using hq
    exact h ahead l behind (append_inj' hq' rfl).1 hl

/-- The examination leaves every lock blocked, if the locks that it does not visit are blocked. -/
theorem regrant_blocked (hr : Redirects redirect) (h : PageInv page next v w0 q)
    (hq : ∀ ahead l behind, q = ahead ++ l :: behind → l.isWaiting = true → visit l = false →
      BlockedAt env w0 ahead l) :
    Blocked env (regrant env visit redirect w0 [] q).1 (regrant env visit redirect w0 [] q).2 := by
  -- the locks that have been passed are blocked, and so are those that will not be visited
  have key := @regrant_induct env visit redirect
    (fun w ahead rest => PageInv page next v w (ahead ++ rest) ∧ Blocked env w ahead ∧
      ∀ pre l post, rest = pre ++ l :: post → l.isWaiting = true → visit l = false →
        BlockedAt env w (ahead ++ pre) l)
    ?_ ?_ ?_ w0 [] q ⟨h, blocked_nil w0, by simpa using hq⟩
  · exact key.2.1
  · rintro w ahead lock rest hv ⟨hp, hb, hrest⟩
    refine ⟨by simpa using hp, blocked_concat.mpr ⟨hb, fun hw => ?_⟩, ?_⟩
    · have hvis : visit lock = false := by
        cases hvl : visit lock with
        | false => rfl
        | true => simp [hv hvl] at hw
      simpa using hrest [] lock rest rfl hw hvis
    · rintro pre l post rfl hl hvis
      simpa using hrest (lock :: pre) l post rfl hl hvis
  · rintro w ahead lock rest c hv hwait hc ⟨hp, hb, hrest⟩
    obtain ⟨hca, hcw, i, hi, hci⟩ := hp.conflict_some hwait hc
    have hother : ∀ l ∈ ahead ++ rest, l.isWaiting = true →
        (redirect w lock.trx c.trx).waitTrx l.trx = w.waitTrx l.trx := by
      intro l hl hlw
      rw [(hr w lock.trx c.trx).2, update_of_ne (hp.trx_ne hwait hl hlw)]
    refine ⟨by simpa using hp.congr (hr w lock.trx c.trx).1,
      blocked_concat.mpr ⟨?_, fun _ => ?_⟩, ?_⟩
    · intro pre l post he hl
      exact (hb pre l post he hl).congr (hother l (by simp [he]) hl)
    · refine ⟨i, hi, c, hca, hci, hcw, ?_⟩
      rw [(hr w lock.trx c.trx).2, update_self]
    · rintro pre l post rfl hl hvis
      simpa using (hrest (lock :: pre) l post rfl hl hvis).congr (hother l (by simp) hl)
  · rintro w ahead lock rest hv hwait - ⟨hp, hb, hrest⟩
    have hother : ∀ l ∈ ahead ++ rest, l.isWaiting = true →
        (w.resetTrxWait lock.trx).waitTrx l.trx = w.waitTrx l.trx := by
      intro l hl hlw
      rw [resetTrxWait_waitTrx, update_of_ne (hp.trx_ne hwait hl hlw)]
    refine ⟨by simpa using hp.grant hwait, blocked_concat.mpr ⟨?_, fun hw => by simp at hw⟩, ?_⟩
    · intro pre l post he hl
      exact (hb pre l post he hl).congr (hother l (by simp [he]) hl)
    rintro pre l post rfl hl hvis
    refine ((hrest (lock :: pre) l post rfl hl hvis).congr (hother l (by simp) hl)).map ?_
    intro a ha i _ hai haw
    simp only [mem_append, mem_cons] at ha
    rcases ha with ha | rfl | ha
    · exact ⟨a, by simp [ha], hai, haw, rfl⟩
    · exact ⟨a.clearWait, by simp, hai, haw, rfl⟩
    · exact ⟨a, by simp [ha], hai, haw, rfl⟩

/-- The examination grants waiting locks and makes none wait. -/
theorem regrant_waiting_mem (hl : l ∈ (regrant env visit redirect w0 [] q).2)
    (hw : l.isWaiting = true) : l ∈ q := by
  have key := @regrant_induct env visit redirect
    (fun _ ahead rest => ∀ l ∈ ahead ++ rest, l.isWaiting = true → l ∈ q)
    ?_ ?_ ?_ w0 [] q (fun l hl _ => hl)
  · exact key l (by simpa using hl) hw
  · intro w ahead lock rest _ h
    simpa using h
  · intro w ahead lock rest c _ _ _ h
    simpa using h
  · intro w ahead lock rest _ _ _ h l hl hlw
    simp only [mem_append, mem_singleton] at hl
    rcases hl with (hl | rfl) | hl
    · exact h l (by simp [hl]) hlw
    · simp at hlw
    · exact h l (by simp [hl]) hlw

/-! ### Locks changed in place -/

/-- A change of the lock objects of a queue that leaves the waiting ones alone. -/
structure KeepsWaiting (q : List Lock) (f : Lock → Lock) : Prop where
  id : ∀ l ∈ q, (f l).id = l.id
  trx : ∀ l ∈ q, (f l).trx = l.trx
  typeMode : ∀ l ∈ q, (f l).typeMode = l.typeMode
  waiting : ∀ l ∈ q, l.isWaiting = true → f l = l

theorem KeepsWaiting.isWaiting (hf : KeepsWaiting q f) (hl : l ∈ q) :
    (f l).isWaiting = l.isWaiting := by
  rw [Lock.isWaiting, hf.typeMode l hl, Lock.isWaiting]

theorem KeepsWaiting.hasToWait (hf : KeepsWaiting q f) (ha : a ∈ q) (l : Lock) :
    lockHasToWait env l (f a) = lockHasToWait env l a := by
  simp only [lockHasToWait, lockRecHasToWait, hf.typeMode a ha, hf.trx a ha]

theorem keepsWaiting_ite (h : PageInv page next v w q) (hl : l ∈ q) (hw : l.isWaiting = false)
    (hid : ∀ l, (f l).id = l.id) (htrx : ∀ l, (f l).trx = l.trx)
    (htm : ∀ l, (f l).typeMode = l.typeMode) :
    KeepsWaiting q fun l' => if l'.id = l.id then f l' else l' := by
  refine ⟨?_, ?_, ?_, ?_⟩
  · intro l' _; split <;> simp [hid]
  · intro l' _; split <;> simp [htrx]
  · intro l' _; split <;> simp [htm]
  · intro l' hl' hw'
    refine if_neg fun he => ?_
    rw [h.eq_of_id hl' hl he, hw] at hw'
    simp at hw'

theorem PageInv.map (h : PageInv page next v w q) (hf : KeepsWaiting q f) :
    PageInv page next v w (q.map f) := by
  have hwait : ∀ l ∈ q, (f l).isWaiting = true → f l = l := fun l hl hw =>
    hf.waiting l hl (by rwa [hf.isWaiting hl] at hw)
  refine ⟨?_, ?_, ?_, ?_, ?_⟩
  · have hids : (q.map f).map (·.id) = q.map (·.id) := by
      rw [map_map]
      exact map_congr_left hf.id
    rw [hids]
    exact h.nodup
  · simp only [forall_mem_map]
    intro l hl
    rw [hf.id l hl]
    exact h.fresh l hl
  · simp only [forall_mem_map]
    intro l hl hw
    have he := hwait l hl hw
    rw [he] at hw ⊢
    exact h.single l hl hw
  · simp only [forall_mem_map]
    intro l hl hw
    have he := hwait l hl hw
    rw [he] at hw ⊢
    exact h.lock_trx l hl hw
  · intro t i ht
    refine (h.trx_lock t i ht).imp_left ?_
    rintro ⟨l, hl, hi, hlt, hw⟩
    exact ⟨l, mem_map.mpr ⟨l, hl, hf.waiting l hl hw⟩, hi, hlt, hw⟩

section

variable (hf : KeepsWaiting q f) {behind : List Lock} (hq : q.map f = ahead ++ l :: behind)
  (hw : l.isWaiting = true)
include hf hq hw

/-- A waiting lock of a changed queue was in the queue, with the changed locks ahead of it. -/
theorem KeepsWaiting.split :
    ∃ ahead' behind', q = ahead' ++ l :: behind' ∧ ahead = ahead'.map f := by
  obtain ⟨ahead', rest, hq', rfl, hrest⟩ := map_eq_append_iff.mp hq
  obtain ⟨l', behind', rfl, rfl, rfl⟩ := map_eq_cons_iff.mp hrest
  have hl' : l' ∈ q := by simp [hq']
  rw [hf.isWaiting hl'] at hw
  refine ⟨ahead', behind', ?_, rfl⟩
  rw [hf.waiting l' hl' hw]
  exact hq'

/-- It is still blocked, if the changed locks still cover its record. -/
theorem KeepsWaiting.blockedAt (h : Blocked env w q)
    (hbit : ∀ a i, l.OnlyBit i → a.nthBit i = true → (f a).nthBit i = true) :
    BlockedAt env w ahead l := by
  obtain ⟨ahead', behind', hq', rfl⟩ := hf.split hq hw
  refine (h ahead' l behind' hq' hw).map ?_
  intro a ha i hi hai haw
  have ham : a ∈ q := by simp [hq', ha]
  exact ⟨f a, mem_map_of_mem ha, hbit a i hi hai, by rw [hf.hasToWait ham]; exact haw, hf.trx a ham⟩

end

/-! ### The invariant of the lock system -/

/-- The bookkeeping of all pages, and no lost grant. -/
structure Inv (env : Env) (s : LockSys) : Prop where
  page : ∀ p, PageInv p s.nextId none s.waits (s.recHash p)
  both : ∀ t, (s.waits.waitTrx t).isSome = (s.waits.waitLock t).isSome
  blocked : ∀ p, Blocked env s.waits (s.recHash p)

/-- The queue of one page has been replaced. -/
theorem inv_update {next : ℕ} (hp : PageInv page next none w q) (hb : Blocked env w q)
    (hother : ∀ p ≠ page, PageInv p next none w (s.recHash p) ∧ Blocked env w (s.recHash p))
    (hboth : ∀ t, (w.waitTrx t).isSome = (w.waitLock t).isSome) :
    Inv env ⟨update s.recHash page q, next, w⟩ := by
  have hpage : ∀ p, PageInv p next none w (update s.recHash page q p) ∧
      Blocked env w (update s.recHash page q p) := by
    intro p
    rcases eq_or_ne p page with rfl | hne
    · rw [update_self]
      exact ⟨hp, hb⟩
    · rw [update_of_ne hne]
      exact hother p hne
  exact ⟨fun p => (hpage p).1, hboth, fun p => (hpage p).2⟩

theorem inv_init : Inv env init where
  page p := by constructor <;> simp [init]
  both t := rfl
  blocked p := blocked_nil _

theorem newLock_onlyBit (hh : heapNo < nHeap) : (newLock s tm nHeap heapNo trx).OnlyBit heapNo := by
  intro i
  simp only [nthBit_iff, newLock, Finset.mem_singleton]
  omega

theorem newLock_isWaiting (s : LockSys) (tm : TypeMode) (nHeap heapNo trx : ℕ) :
    (newLock s tm nHeap heapNo trx).isWaiting = tm.wait := by
  simp [Lock.isWaiting, newLock]

theorem PageInv.mono {next' : ℕ} (h : PageInv page next v w q) (hn : next ≤ next') :
    PageInv page next' v w q :=
  ⟨h.nodup, fun l hl => lt_of_lt_of_le (h.fresh l hl) hn, h.single, h.lock_trx, h.trx_lock⟩

/-- Appending a new lock; if it waits, it has to be the `wait_lock` of its transaction already. -/
theorem PageInv.append {page : ℕ} {v v' : Option ℕ} {w : Waits} {q : List Lock} {lock : Lock}
    (h : PageInv page lock.id v w q)
    (hlock : lock.isWaiting = true →
      w.waitLock lock.trx = some ⟨page, lock.id⟩ ∧ ∃ i, lock.OnlyBit i)
    (hv : v = v' ∨ v = some lock.trx ∧ lock.isWaiting = true) :
    PageInv page (lock.id + 1) v' w (q ++ [lock]) := by
  refine ⟨?_, ?_, ?_, ?_, ?_⟩
  · rw [map_append, nodup_append]
    refine ⟨h.nodup, by simp, ?_⟩
    intro i hi j hj hij
    obtain ⟨l, hl, rfl⟩ := mem_map.mp hi
    have hlt := h.fresh l hl
    simp only [map_cons, map_nil, mem_singleton] at hj
    omega
  · intro l hl
    rcases mem_append.mp hl with hl | hl
    · exact (h.fresh l hl).trans (Nat.lt_succ_self _)
    · rw [mem_singleton.mp hl]
      exact Nat.lt_succ_self _
  · intro l hl hlw
    rcases mem_append.mp hl with hl | hl
    · exact h.single l hl hlw
    · obtain rfl := mem_singleton.mp hl
      exact (hlock hlw).2
  · intro l hl hlw
    rcases mem_append.mp hl with hl | hl
    · exact h.lock_trx l hl hlw
    · obtain rfl := mem_singleton.mp hl
      exact (hlock hlw).1
  · intro t i ht
    rcases h.trx_lock t i ht with ⟨l, hl, hl'⟩ | htv
    · exact .inl ⟨l, mem_append_left _ hl, hl'⟩
    rcases hv with rfl | ⟨rfl, hw⟩
    · exact .inr htv
    obtain rfl : t = lock.trx := by simpa using htv
    have hi := (hlock hw).1
    rw [ht] at hi
    exact .inl ⟨lock, by simp, by simpa using hi.symm, rfl, hw⟩

/-- A transaction that does not wait starts to wait with the lock `ref`. -/
theorem PageInv.startWait {p : ℕ} (h : PageInv p next none w q) (ht : w.waitLock trx = none)
    (ref : LockRef) (c : Option ℕ) :
    PageInv p next (if p = ref.page then some trx else none) (w.startWait trx ref c) q := by
  refine ⟨h.nodup, h.fresh, h.single, ?_, ?_⟩
  · intro l hl hlw
    have hlt := h.lock_trx l hl hlw
    have hne : l.trx ≠ trx := by
      rintro rfl
      simp [ht] at hlt
    simpa [update_of_ne hne] using hlt
  intro t i hti
  rcases eq_or_ne t trx with rfl | hne
  · have hr : ref = ⟨p, i⟩ := by simpa using hti
    simp [hr]
  rw [startWait_waitLock, update_of_ne hne] at hti
  rcases h.trx_lock t i hti with hl | hv
  · exact .inl hl
  · simp at hv

/-- A lock that a request has to wait for makes the new lock wait, whose flags may have been
reset on the supremum. -/
theorem newLock_hasToWait (hh : heapNo < nHeap)
    (hc : lockRecHasToWait env trx tm c (heapNo == pageHeapNoSupremum) = true) :
    lockHasToWait env (newLock s { tm with wait := true } nHeap heapNo trx) c = true := by
  have hsup : (newLock s { tm with wait := true } nHeap heapNo trx).nthBit pageHeapNoSupremum
      = (heapNo == pageHeapNoSupremum) := by
    rw [Bool.eq_iff_iff, newLock_onlyBit hh, beq_iff_eq, eq_comm]
  rw [lockHasToWait_eq, hsup]
  have htrx : (newLock s { tm with wait := true } nHeap heapNo trx).trx = trx := rfl
  have htm : (newLock s { tm with wait := true } nHeap heapNo trx).typeMode
      = ({ tm with wait := true } : TypeMode).onRecord heapNo := rfl
  rw [htrx, htm]
  rcases eq_or_ne heapNo pageHeapNoSupremum with rfl | hne
  · revert hc
    simp only [lockRecHasToWait, TypeMode.onRecord, if_true]
    cases tm.gap <;> cases tm.insertIntention <;> cases c.typeMode.gap <;>
      cases c.typeMode.insertIntention <;> simp <;> tauto
  · rw [onRecord_of_ne _ hne]
    exact hc

/-- The queue without one lock, which is the waiting lock of `v` or a granted one. -/
theorem PageInv.filter {id : ℕ} (h : PageInv page next none w q)
    (hid : ∀ l ∈ q, l.id = id → l.isWaiting = true → some l.trx = v) :
    PageInv page next v w (q.filter (·.id ≠ id)) := by
  have hmem : ∀ l, l ∈ q.filter (·.id ≠ id) ↔ l ∈ q ∧ l.id ≠ id := by simp
  refine ⟨?_, ?_, ?_, ?_, ?_⟩
  · exact h.nodup.sublist (filter_sublist.map _)
  · exact fun l hl => h.fresh l ((hmem l).mp hl).1
  · exact fun l hl => h.single l ((hmem l).mp hl).1
  · exact fun l hl => h.lock_trx l ((hmem l).mp hl).1
  intro t i ht
  rcases h.trx_lock t i ht with ⟨l, hl, rfl, rfl, hw⟩ | hv
  · by_cases he : l.id = id
    · exact .inr (hid l hl he hw)
    · exact .inl ⟨l, (hmem l).mpr ⟨hl, he⟩, rfl, rfl, hw⟩
  · simp at hv

section

variable (h : Inv env s)
include h

theorem Inv.create (hw : tm.wait = false) :
    Inv env (lockRecCreateLow s none tm page nHeap heapNo trx) := by
  have hnw := newLock_isWaiting s tm nHeap heapNo trx
  rw [hw] at hnw
  simp only [lockRecCreateLow, hw, Bool.false_eq_true, if_false]
  refine inv_update ?_ ?_ (fun p _ => ⟨(h.page p).mono (Nat.le_succ _), h.blocked p⟩) h.both
  · exact @PageInv.append page none none s.waits _ (newLock s tm nHeap heapNo trx) (h.page page)
      (fun hc => by simp [hnw] at hc) (.inl rfl)
  · exact blocked_concat.mpr ⟨h.blocked page, fun hc => by simp [hnw] at hc⟩

/-- Setting a bit in a granted lock. -/
theorem Inv.reuse (hl : l ∈ s.recHash page) (hw : l.isWaiting = false) :
    Inv env (s.setQueue page (setBitOf l.id heapNo (s.recHash page))) := by
  have hf : KeepsWaiting (s.recHash page)
      (fun l' => if l'.id = l.id then l'.setNthBit heapNo else l') :=
    keepsWaiting_ite (h.page page) hl hw (fun _ => rfl) (fun _ => rfl) (fun _ => rfl)
  refine inv_update ((h.page page).map hf) ?_ (fun p _ => ⟨h.page p, h.blocked p⟩) h.both
  intro ahead l' behind hq hl'
  refine hf.blockedAt hq hl' (h.blocked page) fun a i _ hai => ?_
  split
  · exact (nthBit_setNthBit a heapNo i).mpr (.inl hai)
  · exact hai

/-- The queue of one page has been examined. -/
theorem Inv.examined (hp : PageInv page s.nextId none w q) (hf : Frame page s.waits w)
    (hb : Blocked env w q) : Inv env { s.setQueue page q with waits := w } := by
  -- a transaction with a waiting lock on another page is not touched
  have hother : ∀ p, p ≠ page → ∀ t i, s.waits.waitLock t = some ⟨p, i⟩ →
      w.waitLock t = s.waits.waitLock t ∧ w.waitTrx t = s.waits.waitTrx t := by
    intro p hne t i ht
    rcases hf t with hsame | ⟨⟨j, hj⟩, -⟩
    · exact hsame
    · rw [ht] at hj
      exact absurd (by simpa using hj : p = page ∧ i = j).1 hne
  refine inv_update hp hb (fun p hne => ⟨?_, ?_⟩) ?_
  · have hpp := h.page p
    refine ⟨hpp.nodup, hpp.fresh, hpp.single, ?_, ?_⟩
    · intro l hl hlw
      have hlt := hpp.lock_trx l hl hlw
      rw [(hother p hne _ _ hlt).1, hlt]
    intro t i ht
    refine hpp.trx_lock t i ?_
    rcases hf t with hsame | ⟨-, ⟨hsame, -⟩ | ⟨hnone, -⟩⟩
    · rw [← hsame.1, ht]
    · rw [← hsame, ht]
    · simp [hnone] at ht
  · intro ahead l behind hq hl
    refine (h.blocked p ahead l behind hq hl).congr ?_
    have hlt := (h.page p).lock_trx l (by simp [hq]) hl
    exact (hother p hne _ _ hlt).2
  · intro t
    have hbt := h.both t
    rcases hf t with ⟨h1, h2⟩ | ⟨⟨i, hi⟩, ⟨h1, h2⟩ | ⟨h1, h2⟩⟩
    · simpa [h1, h2] using hbt
    · simp [h1, h2, hi]
    · simp [h1, h2]

/-- The bookkeeping and the blocking of the page's queue after `lock_rec_dequeue_from_page()`. -/
theorem Inv.dequeue_page
    (hid : ∀ l ∈ s.recHash ref.page, l.id = ref.id → l.isWaiting = true → some l.trx = v) :
    let s' := lockRecDequeueFromPage env s ref
    PageInv ref.page s.nextId v s'.waits (s'.recHash ref.page) ∧
      Frame ref.page s.waits s'.waits ∧ Blocked env s'.waits (s'.recHash ref.page) := by
  have hp := (h.page ref.page).filter hid
  have hr := @regrant_pageInv env _ _ _ s.waits _ (fun _ => true) _ redirects_redirectAndCheck hp
  have hb := @regrant_blocked env _ _ _ s.waits _ (fun _ => true) _ redirects_redirectAndCheck hp
    fun _ _ _ _ _ hv => by simp at hv
  simp only [lockRecDequeueFromPage, setQueue, update_self]
  exact ⟨hr.1, hr.2, hb⟩

/-- `lock_rec_dequeue_from_page()` of a granted lock keeps the invariant. -/
theorem Inv.dequeue (hg : ∀ l ∈ s.recHash ref.page, l.id = ref.id → l.isWaiting = false) :
    Inv env (lockRecDequeueFromPage env s ref) := by
  obtain ⟨hp, hf, hb⟩ := @Inv.dequeue_page env none s ref h
    (fun l hl he hw => by simp [hg l hl he] at hw)
  simp only [lockRecDequeueFromPage, setQueue, update_self] at hp hf hb ⊢
  exact h.examined hp hf hb

section

variable (ht : s.waits.waitLock trx = none)
include ht

theorem Inv.not_waiting {p : ℕ}
    (hl : l ∈ s.recHash p) (hlt : l.trx = trx) : l.isWaiting = false := by
  cases hw : l.isWaiting with
  | false => rfl
  | true =>
    have h1 := (h.page p).lock_trx l hl hw
    rw [hlt, ht] at h1
    simp at h1

/-- Appending a waiting lock behind one that it has to wait for. -/
theorem Inv.wait (hh : heapNo < nHeap) (hcm : c ∈ s.recHash page) (hcb : c.nthBit heapNo = true)
    (hc : lockRecHasToWait env trx tm c (heapNo == pageHeapNoSupremum) = true) :
    Inv env (lockRecCreateLow s (some c) { tm with wait := true } page nHeap heapNo trx) := by
  have htrx : (s.waits.waitTrx trx).isSome = false := by rw [h.both, ht]; rfl
  have hw : (newLock s { tm with wait := true } nHeap heapNo trx).isWaiting = true :=
    newLock_isWaiting _ _ _ _ _
  have hwt : ∀ ref, (s.waits.startWait trx ref (some c.trx)).waitTrx
      = update s.waits.waitTrx trx (some c.trx) := by
    intro ref
    simp [Waits.startWait, htrx]
  have hold : ∀ p, Blocked env (s.waits.startWait trx ⟨page, s.nextId⟩ (some c.trx))
      (s.recHash p) := by
    intro p ahead l behind hq hl
    refine (h.blocked p ahead l behind hq hl).congr ?_
    rw [hwt, update_of_ne]
    intro hlt
    simp [h.not_waiting ht (p := p) (by simp [hq]) hlt] at hl
  have hpage := fun p => (h.page p).startWait ht ⟨page, s.nextId⟩ (some c.trx)
  simp only [lockRecCreateLow, if_true]
  refine inv_update ?_ ?_ (fun p hne => ⟨?_, hold p⟩) fun t => ?_
  · have hp := hpage page
    rw [if_pos rfl] at hp
    refine @PageInv.append page (some trx) none _ _
      (newLock s { tm with wait := true } nHeap heapNo trx) hp (fun _ => ⟨?_, ?_⟩) (.inr ⟨rfl, hw⟩)
    · simp [newLock]
    · exact ⟨heapNo, newLock_onlyBit hh⟩
  · refine blocked_concat.mpr ⟨hold page, fun _ => ⟨heapNo, newLock_onlyBit hh, c, hcm, hcb,
      newLock_hasToWait hh hc, ?_⟩⟩
    simp [hwt, newLock]
  · have hp := hpage p
    rw [if_neg hne] at hp
    exact hp.mono (Nat.le_succ _)
  · simp only [Option.map_some, hwt]
    rcases eq_or_ne t trx with rfl | hne
    · simp
    · simpa [update_of_ne hne] using h.both t

/-- What `lock_rec_unlock()` does for a transaction that does not wait: nothing, or it clears the
bit in a granted lock of the transaction and examines the queue. -/
theorem Inv.unlock_cases (page heapNo : ℕ) (mode : LockMode) :
    lockRecUnlock env s trx page heapNo mode = s ∨
      ∃ firstLock lock, (s.recHash page).find? (·.nthBit heapNo) = some firstLock ∧
        ((s.recHash page).find? fun l => l.nthBit heapNo && (l.trx == trx) &&
          (l.typeMode.mode == mode)) = some lock ∧
        lock ∈ s.recHash page ∧ lock.trx = trx ∧
        KeepsWaiting (s.recHash page)
          (fun l' => if l'.id = lock.id then l'.resetNthBit heapNo else l') ∧
        lockRecUnlock env s trx page heapNo mode =
          let r := regrant env (fun l => (l.id == firstLock.id) || l.nthBit heapNo) Waits.redirect
            s.waits [] (resetBitOf lock.id heapNo (s.recHash page))
          { s.setQueue page r.2 with waits := r.1 } := by
  unfold lockRecUnlock
  split
  case h_2 => exact .inl rfl
  case h_1 firstLock lock hfirst hlock =>
    have hlm := mem_of_find?_eq_some hlock
    have hlp := find?_some hlock
    simp only [Bool.and_eq_true, beq_iff_eq] at hlp
    have hlw : lock.isWaiting = false := h.not_waiting ht hlm hlp.1.2
    exact .inr ⟨firstLock, lock, hfirst, hlock, hlm, hlp.1.2,
      keepsWaiting_ite (h.page page) hlm hlw (fun _ => rfl) (fun _ => rfl) (fun _ => rfl), rfl⟩

/-- `lock_rec_unlock()` keeps the invariant. -/
theorem Inv.unlock {mode : LockMode} : Inv env (lockRecUnlock env s trx page heapNo mode) := by
  rcases h.unlock_cases ht page heapNo mode with
    hs | ⟨firstLock, lock, -, -, -, -, hf, hs⟩
  · rw [hs]
    exact h
  rw [hs]
  have hp := (h.page page).map hf
  have hr := @regrant_pageInv env _ _ _ s.waits _
    (fun l => (l.id == firstLock.id) || l.nthBit heapNo) _ redirects_redirect hp
  refine h.examined hr.1 hr.2 (regrant_blocked redirects_redirect hp ?_)
  -- a lock that is not visited waits on another record, where nothing was unlocked
  intro ahead l behind hq hl hv
  refine hf.blockedAt hq hl (h.blocked page) fun a i hi hai => ?_
  split
  · refine (nthBit_resetNthBit a heapNo i).mpr ⟨hai, ?_⟩
    rintro rfl
    simp [(hi i).mpr rfl] at hv
  · exact hai

theorem Inv.request {s' : LockSys} (hw : tm.wait = false) (hh : heapNo < nHeap)
    (he : RequestEffect env s tm page nHeap heapNo trx s') : Inv env s' := by
  cases he with
  | same => exact h
  | create => exact h.create hw
  | reuse l hl _ hlw => exact h.reuse hl hlw
  | wait c hcm hcb hc => exact h.wait ht hh hcm hcb hc

end

section

variable (hw : s.waits.waitLock trx = some ref)
include hw

/-- After `lock_rec_dequeue_from_page()` of the waiting lock of a transaction, the transaction has
no waiting lock on the page. -/
theorem Inv.dequeue_not_waiting (hl : l ∈ (lockRecDequeueFromPage env s ref).recHash ref.page)
    (hlw : l.isWaiting = true) : l.trx ≠ trx := by
  rintro rfl
  simp only [lockRecDequeueFromPage, setQueue, update_self] at hl
  obtain ⟨hlq, hne⟩ := mem_filter.mp (regrant_waiting_mem hl hlw)
  have hlt := (h.page ref.page).lock_trx l hlq hlw
  rw [hw] at hlt
  have hid : ref.id = l.id := by simpa using congrArg (Option.map LockRef.id) hlt
  simp [hid] at hne

/-- The `wait_lock` of a transaction is a lock of the transaction. -/
theorem Inv.wait_lock_trx : ∀ l ∈ s.recHash ref.page, l.id = ref.id → l.trx = trx := by
  intro l hl he
  obtain ⟨l', hl', he', rfl, -⟩ | hv := (h.page ref.page).trx_lock trx ref.id hw
  · rw [(h.page ref.page).eq_of_id hl hl' (he.trans he'.symm)]
  · simp at hv

/-- `lock_cancel_waiting_and_release()` keeps the invariant. -/
theorem Inv.cancelWaiting : Inv env (lockCancelWaitingAndRelease env s trx ref) := by
  have hid := h.wait_lock_trx hw
  obtain ⟨page, id⟩ := ref
  obtain ⟨hp, hf, hb⟩ := @Inv.dequeue_page env (some trx) s ⟨page, id⟩ h
    (fun l hl he _ => by rw [hid l hl he])
  have hno := fun l => @Inv.dequeue_not_waiting env trx l s ⟨page, id⟩ h hw
  simp only [lockCancelWaitingAndRelease, lockRecDequeueFromPage, setQueue,
    update_self] at hp hf hb hno ⊢
  refine h.examined ⟨hp.nodup, hp.fresh, hp.single, ?_, ?_⟩ ?_ ?_
  · intro l hl hlw
    rw [resetTrxWait_waitLock, update_of_ne (hno l hl hlw)]
    exact hp.lock_trx l hl hlw
  · intro t i ht
    rcases eq_or_ne t trx with rfl | hne
    · simp at ht
    rw [resetTrxWait_waitLock, update_of_ne hne] at ht
    rcases hp.trx_lock t i ht with hl | hv
    · exact .inl hl
    · exact absurd (Option.some.inj hv) hne
  · intro t
    rcases eq_or_ne t trx with rfl | hne
    · exact .inr ⟨⟨id, hw⟩, .inr (by simp)⟩
    · simpa [update_of_ne hne] using hf t
  · intro ahead l behind hq hl
    refine (hb ahead l behind hq hl).congr ?_
    rw [resetTrxWait_waitTrx, update_of_ne (hno l (by rw [hq]; simp) hl)]

end

/-- `lock_sys_t::cancel()` keeps the invariant. -/
theorem Inv.cancel (trx : ℕ) : Inv env (cancel env s trx) := by
  unfold LockRec.cancel
  split
  case h_1 ref hw =>
    split
    · exact h.cancelWaiting hw
    · exact h
  case h_2 => exact h

end

/-! ### The calls and the reachable states -/

/-- The calls of the transactions on the record locks. -/
inductive Op where
  | lock (r : Request)
  | insert (spatial : Bool) (page nHeap heapNo trx : ℕ) (noWait : Bool)
  | unlock (trx page heapNo : ℕ) (mode : LockMode)
  | dequeue (inLock : LockRef)
  | cancel (trx : ℕ)

/-- What the callers see to: a transaction asks for or unlocks a lock while it does not wait, for
a record of the page, in one of the record modes; and `lock_rec_dequeue_from_page()` removes a
waiting lock only to cancel the wait. -/
def Op.Allowed (s : LockSys) : Op → Prop
  | .lock r => s.waits.waitLock r.trx = none ∧ r.heapNo < r.nHeap ∧
      (r.tm.mode = .s ∨ r.tm.mode = .x) ∧ r.tm.wait = false ∧ r.tm.insertIntention = false ∧
      ¬ (r.tm.gap = true ∧ r.tm.recNotGap = true)
  | .insert _ _ nHeap heapNo trx _ => s.waits.waitLock trx = none ∧ heapNo < nHeap
  | .unlock trx _ _ _ => s.waits.waitLock trx = none
  | .dequeue inLock => ∀ l ∈ s.recHash inLock.page, l.id = inLock.id → l.isWaiting = false
  | .cancel _ => True

def Op.exec (env : Env) (s : LockSys) : Op → LockSys
  | .lock r => (lockRecLock env s r).1
  | .insert spatial page nHeap heapNo trx noWait =>
    (lockRecInsertCheckAndLock env s spatial page nHeap heapNo trx noWait).1
  | .unlock trx page heapNo mode => lockRecUnlock env s trx page heapNo mode
  | .dequeue inLock => lockRecDequeueFromPage env s inLock
  | .cancel trx => LockRec.cancel env s trx

/-- The states that sequences of calls lead to. -/
inductive Reachable (env : Env) : LockSys → Prop where
  | init : Reachable env init
  | step {s : LockSys} (op : Op) (h : Reachable env s) (hop : op.Allowed s) :
      Reachable env (op.exec env s)

instance (s : LockSys) (op : Op) : Decidable (op.Allowed s) :=
  match op with
  | .lock _ => inferInstanceAs (Decidable (_ ∧ _))
  | .insert .. => inferInstanceAs (Decidable (_ ∧ _))
  | .unlock .. => inferInstanceAs (Decidable (_ = _))
  | .dequeue _ => inferInstanceAs (Decidable (∀ l ∈ _, _))
  | .cancel _ => inferInstanceAs (Decidable True)

/-- **Every call keeps the bookkeeping and the blocking.** -/
theorem Inv.step (h : Inv env s) {op : Op} (hop : op.Allowed s) : Inv env (op.exec env s) := by
  cases op with
  | lock r =>
    obtain ⟨ht, hh, -, hw, -⟩ := hop
    exact h.request ht hw hh (lockRecLock_effect hw).1
  | insert spatial page nHeap heapNo trx noWait =>
    exact h.request hop.1 rfl hop.2 lockRecInsertCheckAndLock_effect.1
  | unlock trx page heapNo mode => exact h.unlock hop
  | dequeue inLock => exact h.dequeue hop
  | cancel trx => exact h.cancel trx

theorem Reachable.inv (h : Reachable env s) : Inv env s := by
  induction h with
  | init => exact inv_init
  | step op _ hop ih => exact ih.step hop

/-- The calls of a list can be made one after the other. -/
def AllowedRun (env : Env) : LockSys → List Op → Prop
  | _, [] => True
  | s, op :: ops => op.Allowed s ∧ AllowedRun env (op.exec env s) ops

def run (env : Env) (s : LockSys) (ops : List Op) : LockSys := ops.foldl (Op.exec env) s

instance decidableAllowedRun (env : Env) : ∀ (s : LockSys) (ops : List Op),
    Decidable (AllowedRun env s ops)
  | _, [] => inferInstanceAs (Decidable True)
  | s, op :: ops =>
    have := decidableAllowedRun env (op.exec env s) ops
    inferInstanceAs (Decidable (_ ∧ _))

theorem Reachable.run (h : Reachable env s) {ops : List Op} (hops : AllowedRun env s ops) :
    Reachable env (run env s ops) := by
  induction ops generalizing s with
  | nil => exact h
  | cons op ops ih => exact ih (h.step op hops.1) hops.2

/-- **No lost grant**: in every reachable state, a waiting lock covers one record and has a lock
ahead of it on that record that it has to wait for, and its transaction's `wait_trx` is the owner
of that lock. -/
theorem waiting_lock_blocked {s : LockSys} (hs : Reachable env s) {page : ℕ}
    {ahead behind : List Lock} {lock : Lock} (hq : s.recHash page = ahead ++ lock :: behind)
    (hw : lock.isWaiting = true) :
    ∃ heapNo, lock.OnlyBit heapNo ∧ ∃ l ∈ ahead, l.nthBit heapNo = true ∧
      lockHasToWait env lock l = true ∧ s.waits.waitTrx lock.trx = some l.trx :=
  hs.inv.blocked page ahead lock behind hq hw

/-- Neither parallel replication nor wsrep lets a request pass. -/
def noExemption : Env := ⟨fun _ _ => true, fun _ _ => false⟩

/-- The transactions 1 and 2 both ask for an exclusive lock on the record 2 of the page 0. -/
def twoWriters : List Op :=
  [.lock { tm := { mode := .x }, page := 0, nHeap := 3, heapNo := 2, trx := 1 },
    .lock { tm := { mode := .x }, page := 0, nHeap := 3, heapNo := 2, trx := 2 }]

theorem waiting_lock_blocked_two_writers :
    (run noExemption init twoWriters).recHash 0
        = [⟨0, 1, { mode := .x }, 8, {2}⟩] ++ ⟨1, 2, { mode := .x, wait := true }, 8, {2}⟩ :: [] ∧
      ∃ heapNo, Lock.OnlyBit ⟨1, 2, { mode := .x, wait := true }, 8, {2}⟩ heapNo ∧
        ∃ l ∈ [(⟨0, 1, { mode := .x }, 8, {2}⟩ : Lock)], l.nthBit heapNo = true ∧
          lockHasToWait noExemption ⟨1, 2, { mode := .x, wait := true }, 8, {2}⟩ l = true ∧
          (run noExemption init twoWriters).waits.waitTrx 2 = some l.trx := by
  have hq : (run noExemption init twoWriters).recHash 0
      = [⟨0, 1, { mode := .x }, 8, {2}⟩] ++ ⟨1, 2, { mode := .x, wait := true }, 8, {2}⟩ :: [] := by
    decide
  exact ⟨hq, waiting_lock_blocked (Reachable.run .init (by decide)) hq rfl⟩

end LockRec
