/-
**No metadata lock waiter is forgotten.**

Whoever waits with an empty slot is blocked, after every step: a release, a downgrade and the removal
of a waiter look at the queue again, and the other steps only add reasons to wait.  The exception is
`upgrade_shared_lock`, which changes a granted type without looking at the queue; it takes no reason
to wait away when the new type is incompatible with all that the old one is incompatible with, as it
is in every upgrade that the server makes.  Apart from that, and even when strong locks give way to
weak ones, a queue that is not empty waits for a granted ticket or for a waiter that will remove its
own ticket.

Both rest on exact bitmaps.  Once a waiter whose client is gone has been miscounted, the waiting
bitmap can keep a type that nobody waits for, and requests wait for a lock that nobody holds.

Main definitions:

* `NotForgotten`: whoever waits with an empty slot is blocked;
* `Live`: a queue waits for somebody;
* `UpgradeCovers`: an upgrade to a type that takes no conflict away.

Main results:

* `run_waiters`: **no waiter is forgotten**, in every run.
-/

import MariaDb.MdlExclusion

set_option autoImplicit false

namespace Mdl

open Function List State

variable {C T : Type} {k : LockStrategy}

/-! ### The properties -/

/-- Whoever waits with an empty slot is blocked. -/
def NotForgotten (k : LockStrategy) (s : State C T) : Prop :=
  ∀ t ∈ s.lock.waiting.list, s.slot (s.mem t).ctx = .empty →
    Blocked k s.mem s.lock.granted s.lock.waiting (s.mem t).type (s.mem t).ctx false

/-- A queue that is not empty waits for a granted ticket, or for a waiter whose slot is closed. -/
def Live (s : State C T) : Prop :=
  s.lock.waiting.list ≠ [] →
    s.lock.granted.list ≠ [] ∨ ∃ t ∈ s.lock.waiting.list, s.slot (s.mem t).ctx ≠ .empty

/-- The upgrade that a context has in progress. -/
def Phase.upgrade : Phase T → Option (Upgrade T)
  | .waits _ _ u => u
  | .merging u _ => some u
  | _ => none

/-- The upgrade takes no conflict away. -/
def Upgrade.Covers (k : LockStrategy) (s : State C T) (u : Upgrade T) : Prop :=
  grantedIncompatible k (s.mem u.mdlTicket).type ⊆ grantedIncompatible k u.newType

/-- The upgrades in progress take no conflict away. -/
def Covered (k : LockStrategy) (s : State C T) : Prop :=
  ∀ c u, (s.phase c).upgrade = some u →
    grantedIncompatible k (s.mem u.mdlTicket).type ⊆ grantedIncompatible k u.newType

/-- An upgrade is to a type that is incompatible with whatever the old type is incompatible with,
or to one that the ticket already covers. -/
def UpgradeCovers (k : LockStrategy) (s : State C T) : Op C T → Prop
  | .upgradeSharedLock _ ticket newType _ _ =>
    hasStrongerOrEqualType k (s.mem ticket).type newType = true ∨
      grantedIncompatible k (s.mem ticket).type ⊆ grantedIncompatible k newType
  | _ => True

/-- What every step but an upgrade keeps: the queue is live, and below the limit nobody in it is
forgotten. -/
def Waiters (k : LockStrategy) (s s' : State C T) (below : Prop) : Prop :=
  (Live s → Live s') ∧ (below → NotForgotten k s → NotForgotten k s')

variable {type : MdlType} {c : C} {t : T} {s s' : State C T} {d : Duration}

/-- A ticket of the same context that is incompatible with at least as much. -/
def NoWeaker (k : LockStrategy) (a b : Ticket C) : Prop :=
  b.ctx = a.ctx ∧ ∀ type, a.type ∈ grantedIncompatible k type → b.type ∈ grantedIncompatible k type

theorem NoWeaker.of_eq {a b : Ticket C} (h : b = a) : NoWeaker k a b :=
  h ▸ ⟨rfl, fun _ hty => hty⟩

/-- A request that is blocked stays so when every granted ticket is replaced by one that is no
weaker. -/
theorem Blocked.replace {mem mem' : T → Ticket C} {g w g' w' : TicketList T} {ctx : C}
    {ignore : Bool} (h : Blocked k mem g w type ctx ignore)
    (hg : ∀ a ∈ g.list, ∃ b ∈ g'.list, NoWeaker k (mem a) (mem' b))
    (hw : ∀ t ∈ w.list, t ∈ w'.list ∧ mem' t = mem t) : Blocked k mem' g' w' type ctx ignore := by
  rcases h with ⟨a, ha, hctx, hinc⟩ | ⟨hi, t, ht, hpri⟩
  · obtain ⟨b, hb, hbc, hbt⟩ := hg a ha
    exact .inl ⟨b, hb, by rw [hbc]; exact hctx, hbt type hinc⟩
  · refine .inr ⟨hi, t, (hw t ht).1, ?_⟩
    rw [(hw t ht).2]
    exact hpri

theorem Blocked.mono {mem mem' : T → Ticket C} {g w g' w' : TicketList T} {ctx : C} {ignore : Bool}
    (h : Blocked k mem g w type ctx ignore) (hg : ∀ t ∈ g.list, t ∈ g'.list ∧ mem' t = mem t)
    (hw : ∀ t ∈ w.list, t ∈ w'.list ∧ mem' t = mem t) : Blocked k mem' g' w' type ctx ignore :=
  h.replace (fun a ha => ⟨a, (hg a ha).1, .of_eq (hg a ha).2⟩) hw

/-! ### Steps that add tickets -/

section

variable {below : Prop} (hw : s'.lock.waiting = s.lock.waiting)
  (hmem : ∀ t ∈ s.lock.waiting.list, s'.mem t = s.mem t)
  (hslot : ∀ c, s'.slot c = .empty → s.slot c = .empty)
include hw hmem hslot

/-- A step that leaves the waiting list alone and takes no conflict away. -/
theorem NotForgotten.replace (h : NotForgotten k s)
    (hg : ∀ a ∈ s.lock.granted.list, ∃ b ∈ s'.lock.granted.list,
      NoWeaker k (s.mem a) (s'.mem b)) : NotForgotten k s' := by
  intro t ht he
  rw [hw] at ht
  rw [hmem t ht] at he ⊢
  refine (h t ht (hslot _ he)).replace hg ?_
  intro a ha
  rw [hw]
  exact ⟨ha, hmem a ha⟩

/-- A step that leaves the waiting list alone and takes no granted ticket away. -/
theorem NotForgotten.frame (h : NotForgotten k s)
    (hg : ∀ t ∈ s.lock.granted.list, t ∈ s'.lock.granted.list ∧ s'.mem t = s.mem t) :
    NotForgotten k s' :=
  h.replace hw hmem hslot fun a ha => ⟨a, (hg a ha).1, .of_eq (hg a ha).2⟩

theorem Live.frame (h : Live s) (hg : ∀ t ∈ s.lock.granted.list, t ∈ s'.lock.granted.list) :
    Live s' := by
  intro hne
  rw [hw] at hne
  rcases h hne with h | ⟨t, ht, he⟩
  · obtain ⟨a, ha⟩ := exists_mem_of_ne_nil _ h
    exact .inl (ne_nil_of_mem (hg a ha))
  · refine .inr ⟨t, by rw [hw]; exact ht, ?_⟩
    rw [hmem t ht]
    exact fun he' => he (hslot _ he')

theorem Waiters.frame
    (hg : ∀ t ∈ s.lock.granted.list, t ∈ s'.lock.granted.list ∧ s'.mem t = s.mem t) :
    Waiters k s s' below :=
  ⟨fun h => h.frame hw hmem hslot fun t ht => (hg t ht).1, fun _ h => h.frame hw hmem hslot hg⟩

end

theorem notForgotten_of_nil (h : s.lock.waiting.list = []) : NotForgotten k s := by
  intro t ht
  rw [h] at ht
  exact absurd ht not_mem_nil

theorem Waiters.mono {b b' : Prop} (h : Waiters k s s' b) (hb : b' → b) : Waiters k s s' b' :=
  ⟨h.1, fun hb' => h.2 (hb hb')⟩

theorem Waiters.refl (k : LockStrategy) (s : State C T) (below : Prop) : Waiters k s s below :=
  ⟨id, fun _ => id⟩

theorem Covered.frame (h : Covered k s)
    (hphase : ∀ c u, (s'.phase c).upgrade = some u → (s.phase c).upgrade = some u)
    (hmem : ∀ c u, (s'.phase c).upgrade = some u → s'.mem u.mdlTicket = s.mem u.mdlTicket) :
    Covered k s' := by
  intro c u hu
  rw [hmem c u hu]
  exact h c u (hphase c u hu)

section

variable [DecidableEq T]

theorem waiters_create (hg : t ∉ s.lock.granted.list) (hw : t ∉ s.lock.waiting.list) (c : C)
    (type : MdlType) (below : Prop) : Waiters k s (s.create t c type) below :=
  Waiters.frame rfl (fun _ ha => mem_create hg hw (.inr ha)) (fun _ he => he) fun _ ha =>
    ⟨ha, mem_create hg hw (.inl ha)⟩

/-- A granted ticket gets a type that takes no conflict away; tickets of its context that have the
new type already may go. -/
theorem NotForgotten.upgrade (h : NotForgotten k s) {m : T} {newType : MdlType}
    (hmem : s'.mem = update s.mem m ⟨(s.mem m).ctx, newType⟩)
    (hw : s'.lock.waiting = s.lock.waiting) (hslot : s'.slot = s.slot)
    (hmw : m ∉ s.lock.waiting.list) (hm : m ∈ s'.lock.granted.list)
    (hg : ∀ a ∈ s.lock.granted.list, a ∈ s'.lock.granted.list ∨
      ((s.mem a).ctx = (s.mem m).ctx ∧ (s.mem a).type = newType))
    (hcover : grantedIncompatible k (s.mem m).type ⊆ grantedIncompatible k newType) :
    NotForgotten k s' := by
  have hself : s'.mem m = ⟨(s.mem m).ctx, newType⟩ := by
    rw [hmem, update_self]
  have hother : ∀ a, a ≠ m → s'.mem a = s.mem a := by
    intro a ha
    rw [hmem, update_of_ne ha]
  refine h.replace hw ?_ (fun c he => by rw [hslot] at he; exact he) ?_
  · intro a ha
    refine hother a ?_
    rintro rfl
    exact hmw ha
  intro a ha
  by_cases ham : a = m
  · -- the upgraded ticket keeps out whoever its old type kept out
    subst ham
    refine ⟨a, hm, ?_⟩
    rw [hself]
    refine ⟨rfl, ?_⟩
    intro type hty
    exact grantedIncompatible_symm k _ _ (hcover (grantedIncompatible_symm k _ _ hty))
  · rcases hg a ha with ha' | ⟨hctx, hty⟩
    · exact ⟨a, ha', .of_eq (hother a ham)⟩
    · exact ⟨m, hm, .of_eq (by rw [hself, ← hctx, ← hty])⟩

/-- The ticket of an upgrade in progress is granted to its context. -/
theorem Inv.upgrade_own (h : Inv k s) {u : Upgrade T} (hu : (s.phase c).upgrade = some u) :
    u.mdlTicket ∈ s.lock.granted.list ∧ (s.mem u.mdlTicket).ctx = c := by
  cases hp : s.phase c with
  | idle | gone t =>
    rw [hp] at hu
    contradiction
  | waits t d upgrade =>
    rw [hp] at hu
    cases (show upgrade = some u from hu)
    obtain ⟨-, -, ⟨⟨d', hd'⟩, -⟩⟩ := (h.ctx c).waits_upgrade t d u hp
    exact (h.ctx c).held.granted d' _ hd'
  | merging u' x =>
    rw [hp] at hu
    cases (show some u' = some u from hu)
    obtain ⟨⟨⟨d', hd'⟩, -⟩, -⟩ := (h.ctx c).merging_xlock u x hp
    exact (h.ctx c).held.granted d' _ hd'

theorem Covered.create (h : Covered k s) (hinv : Inv k s) (hg : t ∉ s.lock.granted.list)
    (hw : t ∉ s.lock.waiting.list) (c : C) (type : MdlType) : Covered k (s.create t c type) :=
  h.frame (fun _ _ hu => hu) fun _ _ hu => mem_create hg hw (.inl (hinv.upgrade_own hu).1)

/-- The type of a ticket changes, of a context with no other upgrade in progress. -/
theorem Covered.changeType (h : Covered k s) (hinv : Inv k s)
    (hidle : (s.phase (s.mem t).ctx).upgrade = none) : Covered k (s.changeType t type) := by
  refine h.frame (fun _ _ hu => hu) ?_
  intro c u hu
  refine update_of_ne ?_ _ _
  rintro rfl
  rw [(hinv.upgrade_own hu).2] at hidle
  rw [show (s.phase c).upgrade = some u from hu] at hidle
  contradiction

end

variable [DecidableEq C]

theorem setStatus_empty {slot : C → WaitStatus} {c' : C} {status : WaitStatus}
    (h : setStatus slot c status c' = .empty) : slot c' = .empty := by
  rw [setStatus] at h
  split_ifs at h with he
  · by_cases hc : c' = c
    · rw [hc]
      exact he
    · rwa [update_of_ne hc] at h
  · exact h

theorem Covered.setPhase (h : Covered k s) {p : Phase T}
    (hp : ∀ u, p.upgrade = some u → u.Covers k s) : Covered k (s.setPhase c p) := by
  intro c' u hu
  by_cases hc : c' = c
  · subst hc
    simp only [State.setPhase, update_self] at hu
    exact hp u hu
  · simp only [State.setPhase, update_of_ne hc] at hu
    exact h c' u hu

theorem Waiters.acquired {below : Prop} (h : Waiters k s s' below) (t : T)
    (upgrade : Option (Upgrade T)) : Waiters k s (s'.acquired c t upgrade) below := by
  obtain ⟨p, hp, -⟩ := acquired_eq s' c t upgrade
  rw [hp]
  exact h

theorem Covered.acquired (h : Covered k s) (t : T) {upgrade : Option (Upgrade T)}
    (hup : ∀ u, upgrade = some u → u.Covers k s) : Covered k (s.acquired c t upgrade) := by
  obtain ⟨p, hp, hcase⟩ := acquired_eq s c t upgrade
  rw [hp]
  refine h.setPhase ?_
  intro u hu
  rcases hcase with ⟨-, rfl⟩ | ⟨v, hv, rfl⟩
  · contradiction
  · cases (show some v = some u from hu)
    exact hup u hv

variable [DecidableEq T] {maxWriteLockCount : ℕ}

/-! ### The calls -/

theorem waiters_enter (hg : t ∉ s.lock.granted.list) (hw : t ∉ s.lock.waiting.list) (c : C)
    (type : MdlType) (d : Duration) (below : Prop) : Waiters k s (s.enter t c type d) below := by
  refine Waiters.frame rfl (fun _ ha => mem_create hg hw (.inr ha)) (fun _ he => he) ?_
  intro a ha
  exact ⟨mem_append_left _ ha, mem_create hg hw (.inl ha)⟩

/-- A new waiter is blocked, by a granted ticket or by one that waits already. -/
theorem waiters_wait (h : Inv k s) (hidle : (s.phase c).waitsOn = none)
    (hg : t ∉ s.lock.granted.list) (hw : t ∉ s.lock.waiting.list)
    (hb : Blocked k s.mem s.lock.granted s.lock.waiting type c false) (p : Phase T) (below : Prop) :
    Waiters k s ({ s.create t c type with
      lock := s.lock.addWaiting t type
      slot := update s.slot c .empty }.setPhase c p) below := by
  have hself : (s.create t c type).mem t = ⟨c, type⟩ := update_self ..
  have hmem : ∀ a ∈ s.lock.waiting.list, (s.create t c type).mem a = s.mem a :=
    fun a ha => mem_create hg hw (.inr ha)
  have hone : ∀ a ∈ s.lock.waiting.list, (s.mem a).ctx ≠ c := fun a ha => h.waiting_ctx_ne hidle ha
  have hmono : ∀ {type' : MdlType} {c' : C},
      Blocked k s.mem s.lock.granted s.lock.waiting type' c' false →
      Blocked k (s.create t c type).mem s.lock.granted (s.lock.waiting.addTicket t type) type' c'
        false := by
    intro type' c' hb'
    refine hb'.mono (fun a ha => ⟨ha, mem_create hg hw (.inl ha)⟩) ?_
    intro a ha
    exact ⟨mem_append_left _ ha, hmem a ha⟩
  constructor
  · intro hlive _
    have hold : s.lock.granted.list ≠ [] ∨
        ∃ a ∈ s.lock.waiting.list, s.slot (s.mem a).ctx ≠ .empty := by
      rcases hb with ⟨a, ha, -⟩ | ⟨-, a, ha, -⟩
      · exact .inl (ne_nil_of_mem ha)
      · exact hlive (ne_nil_of_mem ha)
    refine hold.imp_right ?_
    rintro ⟨a, ha, he⟩
    refine ⟨a, mem_append_left _ ha, ?_⟩
    simp only [State.setPhase]
    rw [hmem a ha, update_of_ne (hone a ha)]
    exact he
  · intro _ hnf a ha he
    simp only [State.setPhase, Lock.addWaiting, TicketList.addTicket, mem_append,
      mem_singleton] at ha
    rcases ha with ha | rfl
    · simp only [State.setPhase] at he ⊢
      rw [hmem a ha] at he ⊢
      rw [update_of_ne (hone a ha)] at he
      exact hmono (hnf a ha he)
    · simp only [State.setPhase] at he ⊢
      rw [hself]
      exact hmono hb

theorem waiters_acquireLock (h : Inv k s) {noWait : Bool} {new : Option T}
    {upgrade : Option (Upgrade T)} (hidle : s.phase c = .idle) (hfresh : Fresh s new) (below : Prop) :
    Waiters k s (acquireLock k s c type d noWait new upgrade) below := by
  have hcases : TryCases k s c type d (tryAcquireLockImpl k s c type d new) :=
    tryAcquireLockImpl_cases h hfresh
  rw [Mdl.acquireLock]
  generalize tryAcquireLockImpl k s c type d new = r at hcases
  cases hcases with
  | error => exact Waiters.refl ..
  | reused t hown hs => exact (Waiters.refl k s below).acquired t upgrade
  | entered t hg hw hc => exact (waiters_enter hg hw c type d below).acquired t upgrade
  | refused t hg hw hb =>
    split_ifs
    · exact waiters_create hg hw c type below
    · exact waiters_wait h (waitsOn_of_idle hidle) hg hw hb _ below

/-- The merge at the end of an upgrade. -/
theorem waiters_merge (h : Inv k s) (c : C) : Waiters k s (merge s c) (Covered k s) := by
  rw [Mdl.merge]
  cases hp : s.phase c with
  | idle | waits t d upgrade | gone t => exact Waiters.refl ..
  | merging u x =>
    obtain ⟨⟨⟨d, hm⟩, -⟩, hx, -⟩ := (h.ctx c).merging_xlock u x hp
    obtain ⟨hmg, hmc⟩ := (h.ctx c).held.granted d _ hm
    obtain ⟨hxg, hxc⟩ := (h.ctx c).held.granted _ x hx
    have hmw := h.lock.not_waiting hmg
    have hxw := removeGranted_waiting (h.lock.not_waiting hxg) (s.mem x).type
    dsimp only
    split_ifs with hlock
    · refine ⟨fun _ _ => .inl (ne_nil_of_mem (mem_changeType u.newType hmg)), ?_⟩
      intro hcov hnf
      refine hnf.upgrade rfl (removeGranted_waiting hmw (s.mem u.mdlTicket).type) rfl hmw
        (mem_changeType _ hmg) ?_ (hcov c u (by rw [hp]; rfl))
      intro a ha
      exact .inl (mem_changeType _ ha)
    -- the ticket that goes was made for the upgrade and has the new type
    have hnew : (s.mem x).type = u.newType := by
      refine (h.ctx c).merging_new u x hp ?_
      simp only [hasLock, Bool.and_eq_true, Bool.not_eq_true', not_and_or,
        Bool.not_eq_false] at hlock
      exact hlock
    have hmin : u.mdlTicket ∈
        ({ s with lock := s.lock.removeGranted x (s.mem x).type }.changeType u.mdlTicket
          u.newType).lock.granted.list := by
      simp [changeType, Lock.addGranted, TicketList.addTicket]
    refine ⟨fun _ _ => .inl (ne_nil_of_mem hmin), ?_⟩
    intro hcov hnf
    refine hnf.upgrade rfl ?_ rfl hmw hmin ?_ (hcov c u (by rw [hp]; rfl))
    · refine (removeGranted_waiting ?_ (s.mem u.mdlTicket).type).trans hxw
      rw [hxw]
      exact hmw
    intro a ha
    by_cases hax : a = x
    · subst hax
      exact .inr ⟨hxc.trans hmc.symm, hnew⟩
    · exact .inl (mem_changeType _ ((mem_erase_of_ne hax).2 ha))

section

variable [Fintype T] (hcard : Fintype.card T < 2 ^ 32) (h : Inv k s)
include hcard h

theorem wakeup_live : Live (s.wakeup k maxWriteLockCount) := by
  rw [State.wakeup]
  split_ifs with he
  · intro hne
    simp only [Lock.isEmpty, Bool.and_eq_true, List.isEmpty_iff] at he
    exact absurd he.2 hne
  · exact rescheduleWaiters_live hcard maxWriteLockCount h.lock

theorem wakeup_notForgotten (hhog : s.lock.hogLockCount < maxWriteLockCount) :
    NotForgotten k (s.wakeup k maxWriteLockCount) := by
  rw [State.wakeup]
  split_ifs with he
  · simp only [Lock.isEmpty, Bool.and_eq_true, List.isEmpty_iff] at he
    exact notForgotten_of_nil he.2
  · exact rescheduleWaiters_blocked hcard _ h.lock hhog

theorem leave_waiters (hp : (s.phase c).waitsOn = some t) (hs : s.slot c ≠ .granted)
    (maxWriteLockCount : ℕ) :
    let s' := ({ s with lock := s.lock.removeWaiting t (s.mem t).type }.wakeup k
      maxWriteLockCount).setPhase c .idle
    Waiters k s s' (s.lock.hogLockCount < maxWriteLockCount) := by
  have hleave := h.leave hp hs
  rw [wakeup_setPhase]
  exact ⟨fun _ => wakeup_live hcard hleave, fun hhog _ => wakeup_notForgotten hcard hleave hhog⟩

theorem waiters_wake (hok : (s.phase c).isGone = true → s.slot c ≠ .granted)
    (maxWriteLockCount : ℕ) :
    Waiters k s (wake k maxWriteLockCount s c) (s.lock.hogLockCount < maxWriteLockCount) := by
  rw [Mdl.wake]
  cases hp : s.phase c with
  | idle | merging u x => exact Waiters.refl ..
  | gone t =>
    exact leave_waiters hcard h (by rw [hp]; rfl) (hok (by rw [hp]; rfl)) maxWriteLockCount
  | waits t d upgrade =>
    have hw : (s.phase c).waitsOn = some t := by
      rw [hp]
      rfl
    have hleave := leave_waiters hcard h hw
    cases hs : s.slot c with
    | empty => exact Waiters.refl ..
    | granted =>
      exact Waiters.acquired (show Waiters k s (s.pushFront c d t) _ from Waiters.refl k s _) t upgrade
    | victim | timeout | killed =>
      exact hleave (by rw [hs]; decide) maxWriteLockCount

section

variable (hidle : s.phase c = .idle) (ht : t ∈ s.tickets c d) (maxWriteLockCount : ℕ)
include hidle ht

theorem waiters_downgradeLock : Waiters k s (downgradeLock k maxWriteLockCount s t type)
      (s.lock.hogLockCount < maxWriteLockCount) := by
  rw [Mdl.downgradeLock]
  split_ifs with hno
  · exact Waiters.refl ..
  rw [not_or, Bool.not_eq_false] at hno
  obtain ⟨htg, htc⟩ := (h.ctx c).held.granted d t ht
  have hinv : Inv k (s.changeType t type) := by
    refine h.changeType hcard hidle ht ?_
    intro a ha hac
    exact ((h.lock.exclusive t htg a ha (by rw [htc]; exact Ne.symm hac)).of_stronger hno.2).symm
  exact ⟨fun _ => rescheduleWaiters_live hcard maxWriteLockCount hinv.lock,
    fun hhog _ => rescheduleWaiters_blocked hcard _ hinv.lock hhog⟩

theorem waiters_releaseLock : Waiters k s (releaseLock k maxWriteLockCount s c d t)
      (s.lock.hogLockCount < maxWriteLockCount) := by
  rw [Mdl.releaseLock, wakeup_dropTicket]
  have hdrop := h.drop (waitsOn_of_idle hidle) ht
  rw [setPhase_eq (by exact hidle)] at hdrop
  exact ⟨fun _ => wakeup_live hcard hdrop, fun hhog _ => wakeup_notForgotten hcard hdrop hhog⟩

end

/-- One step, whichever it is. -/
theorem step_waiters {op : Op C T} (hok : StepOk k s op) (maxWriteLockCount : ℕ) :
    Waiters k s (step k maxWriteLockCount s op)
      (s.lock.hogLockCount < maxWriteLockCount ∧ Covered k s) := by
  have hcases := step_cases h hok maxWriteLockCount
  generalize step k maxWriteLockCount s op = s' at hcases ⊢
  cases hcases with
  | same => exact Waiters.refl ..
  | entered c type d t hidle hg hw hc => exact waiters_enter hg hw c type d _
  | refused c type t hg hw => exact waiters_create hg hw c type _
  | acquireLock c type d noWait new hidle hfresh => exact waiters_acquireLock h hidle hfresh _
  | upgradeSharedLock c ticket newType noWait new hidle hfresh =>
    exact waiters_acquireLock h hidle hfresh _
  | setStatus c status =>
    exact Waiters.frame rfl (fun _ _ => rfl) (fun _ he => setStatus_empty he) fun _ ha => ⟨ha, rfl⟩
  | clientGone c t => exact Waiters.refl k s _
  | wake c hok => exact (waiters_wake hcard h hok maxWriteLockCount).mono And.left
  | merge c => exact (waiters_merge h c).mono And.right
  | downgradeLock c d ticket type hidle hd =>
    exact (waiters_downgradeLock hcard h hidle hd maxWriteLockCount).mono And.left
  | releaseLock c d ticket hidle hd =>
    exact (waiters_releaseLock hcard h hidle hd maxWriteLockCount).mono And.left
  | reuse n => exact Waiters.refl k s _

end

/-! ### The upgrades in progress -/

section

variable (h : Covered k s)
include h

theorem Covered.acquireLock (hinv : Inv k s) {noWait : Bool} {new : Option T}
    {upgrade : Option (Upgrade T)} (hfresh : Fresh s new)
    (hup : ∀ u, upgrade = some u → (∃ d, u.mdlTicket ∈ s.tickets c d) ∧ u.Covers k s) :
    Covered k (acquireLock k s c type d noWait new upgrade) := by
  have hcases : TryCases k s c type d (tryAcquireLockImpl k s c type d new) :=
    tryAcquireLockImpl_cases hinv hfresh
  -- the new ticket is not the one that is upgraded
  have hup' : ∀ t, t ∉ s.lock.granted.list → t ∉ s.lock.waiting.list → ∀ u, upgrade = some u →
      u.Covers k (s.create t c type) := by
    intro t hg hw u hu
    obtain ⟨⟨d', hd'⟩, hcov⟩ := hup u hu
    rw [Upgrade.Covers, mem_create hg hw (.inl ((hinv.ctx c).held.granted d' _ hd').1)]
    exact hcov
  rw [Mdl.acquireLock]
  generalize tryAcquireLockImpl k s c type d new = r at hcases
  cases hcases with
  | error => exact h
  | reused t hown hs => exact h.acquired t fun u hu => (hup u hu).2
  | entered t hg hw hc =>
    have hcreate : Covered k (s.enter t c type d) := h.create hinv hg hw c type
    exact hcreate.acquired t (hup' t hg hw)
  | refused t hg hw hb =>
    have hcreate := h.create hinv hg hw c type
    split_ifs
    · exact hcreate
    have hlock : Covered k { s.create t c type with
        lock := s.lock.addWaiting t type
        slot := update s.slot c .empty } := hcreate
    exact hlock.setPhase (hup' t hg hw)

theorem Covered.wakeup : Covered k (s.wakeup k maxWriteLockCount) := by
  rw [State.wakeup]
  split_ifs <;> exact h

theorem Covered.leave (c : C) (t : T) :
    Covered k (({ s with lock := s.lock.removeWaiting t (s.mem t).type }.wakeup k
      maxWriteLockCount).setPhase c .idle) := by
  have hrem : Covered k { s with lock := s.lock.removeWaiting t (s.mem t).type } := h
  refine hrem.wakeup.setPhase ?_
  intro u hu
  contradiction

theorem Covered.wake (c : C) : Covered k (wake k maxWriteLockCount s c) := by
  rw [Mdl.wake]
  cases hp : s.phase c with
  | idle => exact h
  | merging u x => exact h
  | gone t => exact h.leave c t
  | waits t d upgrade =>
    cases hs : s.slot c with
    | empty => exact h
    | granted =>
      have hpush : Covered k (s.pushFront c d t) := h
      exact hpush.acquired t fun u hu => h c u (by rw [hp]; exact hu)
    | victim | timeout | killed => exact h.leave c t

theorem Covered.merge (hinv : Inv k s) (c : C) : Covered k (merge s c) := by
  rw [Mdl.merge]
  cases hp : s.phase c with
  | idle | waits t d upgrade | gone t => exact h
  | merging u x =>
    obtain ⟨⟨⟨d, hm⟩, -⟩, -⟩ := (hinv.ctx c).merging_xlock u x hp
    have hmc := ((hinv.ctx c).held.granted d _ hm).2
    -- other contexts upgrade other tickets, and this one has finished
    have hother : ∀ s' : State C T,
        s'.mem = update s.mem u.mdlTicket ⟨(s.mem u.mdlTicket).ctx, u.newType⟩ →
        s'.phase = update s.phase c .idle → Covered k s' := by
      intro s' hmem hphase
      have hne : ∀ c' v, (s'.phase c').upgrade = some v → c' ≠ c := by
        rintro c' v hv rfl
        rw [hphase, update_self] at hv
        contradiction
      refine h.frame ?_ ?_
      · intro c' v hv
        have hc := hne c' v hv
        rwa [hphase, update_of_ne hc] at hv
      intro c' v hv
      have hc := hne c' v hv
      rw [hphase, update_of_ne hc] at hv
      rw [hmem]
      refine update_of_ne ?_ _ _
      intro he
      have hvc := (hinv.upgrade_own hv).2
      rw [he, hmc] at hvc
      exact hc hvc.symm
    dsimp only
    split_ifs
    · exact hother _ rfl rfl
    · exact hother _ rfl rfl

/-- One step, if it is no upgrade that takes a conflict away. -/
theorem step_covered (hinv : Inv k s) {op : Op C T} (hok : StepOk k s op)
    (hup : UpgradeCovers k s op) : Covered k (step k maxWriteLockCount s op) := by
  have hcases := step_cases hinv hok maxWriteLockCount
  generalize step k maxWriteLockCount s op = s' at hcases ⊢
  cases hcases with
  | same => exact h
  | entered c type d t hidle hg hw => exact h.create hinv hg hw c type
  | refused c type t hg hw => exact h.create hinv hg hw c type
  | acquireLock c type d noWait new hidle hfresh =>
    exact h.acquireLock hinv hfresh (fun u hu => absurd hu (by simp))
  | upgradeSharedLock c ticket newType noWait new hidle hfresh hown hs =>
    refine h.acquireLock hinv hfresh ?_
    rintro u hu
    cases hu
    exact ⟨hown, Or.resolve_left hup hs⟩
  | setStatus c status => exact h
  | clientGone c t => exact h.setPhase fun u hu => by contradiction
  | wake c => exact h.wake c
  | merge c => exact h.merge hinv c
  | downgradeLock c d ticket type hidle hd =>
    rw [Mdl.downgradeLock]
    split_ifs
    · exact h
    · refine h.changeType hinv ?_
      rw [((hinv.ctx c).held.granted d _ hd).2, hidle]
      rfl
  | releaseLock c d ticket =>
    have hdrop : Covered k ({ s with
        lock := s.lock.removeGranted ticket (s.mem ticket).type }.dropTicket c d ticket) := h
    rw [Mdl.releaseLock, wakeup_dropTicket]
    exact hdrop.wakeup
  | reuse n => exact h

end

/-! ### Runs -/

/-- Below the limit of strong locks before every step, and with upgrades that take no conflict
away. -/
def StepFair (k : LockStrategy) (maxWriteLockCount : ℕ) (s : State C T) (op : Op C T) : Prop :=
  s.lock.hogLockCount < maxWriteLockCount ∧ UpgradeCovers k s op

instance (k : LockStrategy) (s : State C T) : (op : Op C T) → Decidable (UpgradeCovers k s op)
  | .upgradeSharedLock _ _ _ _ _ => inferInstanceAs (Decidable (_ ∨ _))
  | .tryAcquireLock .. | .acquireLock .. | .cloneTicket .. | .closeSlot .. | .victim _
  | .clientGone _ | .wake _ | .merge _ | .downgradeLock .. | .releaseLock .. | .reuse _ =>
    isTrue trivial

instance (k : LockStrategy) (maxWriteLockCount : ℕ) (s : State C T) (op : Op C T) :
    Decidable (StepFair k maxWriteLockCount s op) :=
  inferInstanceAs (Decidable (_ ∧ _))

section

variable [Fintype T]

section

variable (hcard : Fintype.card T < 2 ^ 32) (maxWriteLockCount : ℕ) (ops : List (Op C T))
include hcard

theorem run_live
    (hinv : Inv k s) (h : Live s) (hok : AllSteps k maxWriteLockCount (StepOk k) s ops) :
    Live (run k maxWriteLockCount s ops) := by
  induction ops generalizing s with
  | nil => exact h
  | cons op ops ih =>
    exact ih (step_inv hcard hinv hok.1)
      ((step_waiters hcard hinv hok.1 maxWriteLockCount).1 h) hok.2

theorem run_notForgotten (hinv : Inv k s) (hcov : Covered k s) (h : NotForgotten k s)
    (hok : AllSteps k maxWriteLockCount (StepOk k) s ops)
    (hfair : AllSteps k maxWriteLockCount (StepFair k maxWriteLockCount) s ops) :
    NotForgotten k (run k maxWriteLockCount s ops) := by
  induction ops generalizing s with
  | nil => exact h
  | cons op ops ih =>
    exact ih (step_inv hcard hinv hok.1)
      (step_covered hcov hinv hok.1 hfair.1.2)
      ((step_waiters hcard hinv hok.1 maxWriteLockCount).2 ⟨hfair.1.1, hcov⟩ h) hok.2 hfair.2

end

/-- **No waiter is forgotten.**  In every state that a run reaches, below the limit of strong locks
throughout, whoever waits with an empty slot is refused by `can_grant_lock` and conflicts with a
granted ticket of another context or a waiting ticket with priority; and whatever the count of strong
locks is, a queue that is not empty waits for a granted ticket or for a waiter with a closed slot. -/
theorem run_waiters (hcard : Fintype.card T < 2 ^ 32) (k : LockStrategy) (maxWriteLockCount : ℕ)
    (mem : T → Ticket C) (ops : List (Op C T))
    (hok : AllSteps k maxWriteLockCount (StepOk k) (init mem) ops) :
    let s := run k maxWriteLockCount (init mem) ops
    (AllSteps k maxWriteLockCount (StepFair k maxWriteLockCount) (init mem) ops →
      ∀ t ∈ s.lock.waiting.list, s.slot (s.mem t).ctx = .empty →
        canGrantLock k s.mem s.lock (s.mem t).type (s.mem t).ctx false = false ∧
          ((∃ g ∈ s.lock.granted.list, (s.mem g).ctx ≠ (s.mem t).ctx ∧
              (s.mem g).type ∈ grantedIncompatible k (s.mem t).type) ∨
            ∃ w ∈ s.lock.waiting.list,
              (s.mem w).type ∈ waitingIncompatible k (s.mem t).type)) ∧
    (s.lock.waiting.list ≠ [] →
      s.lock.granted.list ≠ [] ∨ ∃ t ∈ s.lock.waiting.list, s.slot (s.mem t).ctx ≠ .empty) := by
  have hinit := Inv.init k mem
  have hinv := run_inv hcard maxWriteLockCount ops hinit hok
  constructor
  · intro hfair t ht he
    have hcov : Covered k (init mem) := fun c u hu => by contradiction
    have hb := run_notForgotten hcard maxWriteLockCount ops hinit hcov (notForgotten_of_nil rfl) hok
      hfair t ht he
    refine ⟨(canGrantLock_eq_false_iff hinv.lock.granted hinv.lock.waiting).2 hb, ?_⟩
    exact hb.imp_right fun hw => hw.2
  · exact run_live hcard maxWriteLockCount ops hinit (fun hne => absurd rfl hne) hok

end

/-- The upgrade of `sampleOps` waits for a reader, and a writer waits for the upgrade. -/
theorem run_waiters_sampleOps :
    let s := run .objectLock 4294967295 (init noTickets) (sampleOps.take 4)
    s.lock.waiting.list = [2, 3] ∧ s.slot (s.mem 3).ctx = .empty ∧
      (canGrantLock .objectLock s.mem s.lock (s.mem 3).type (s.mem 3).ctx false = false ∧
        ((∃ g ∈ s.lock.granted.list, (s.mem g).ctx ≠ (s.mem 3).ctx ∧
            (s.mem g).type ∈ grantedIncompatible .objectLock (s.mem 3).type) ∨
          ∃ w ∈ s.lock.waiting.list,
            (s.mem w).type ∈ waitingIncompatible .objectLock (s.mem 3).type)) ∧
      (s.lock.granted.list ≠ [] ∨ ∃ t ∈ s.lock.waiting.list, s.slot (s.mem t).ctx ≠ .empty) := by
  have h := run_waiters (by decide) .objectLock 4294967295 noTickets (sampleOps.take 4)
    (by decide +kernel)
  exact ⟨by decide +kernel, by decide +kernel,
    h.1 (by decide +kernel) 3 (by decide +kernel) (by decide +kernel), h.2 (by decide +kernel)⟩

/-- The waiting bitmap has kept a type that nobody waits for.  A reader waits with an empty slot for
a lock that nobody holds or waits for, and nothing will wake it. -/
theorem gone_waiter_blocks_lock :
    let s := run .objectLock 4294967295 (init noTickets) stuckOps
    s.lock.waiting.list = [1] ∧ s.slot (s.mem 1).ctx = .empty ∧ s.lock.granted.list = [] ∧
      ¬ ((∃ g ∈ s.lock.granted.list, (s.mem g).ctx ≠ (s.mem 1).ctx ∧
            (s.mem g).type ∈ grantedIncompatible .objectLock (s.mem 1).type) ∨
          ∃ w ∈ s.lock.waiting.list,
            (s.mem w).type ∈ waitingIncompatible .objectLock (s.mem 1).type) ∧
      ¬ (s.lock.granted.list ≠ [] ∨ ∃ t ∈ s.lock.waiting.list, s.slot (s.mem t).ctx ≠ .empty) := by
  decide +kernel

/-- An upgrade from a shared write to a shared no-write lock takes the conflict with a waiting
read-only lock away without looking at the queue: the waiter could be granted, but is not. -/
theorem upgrade_forgets_waiter :
    let s := run .objectLock 4294967295 (init noTickets)
      ([.acquireLock 0 .sharedWrite .transaction false (some 0),
        .acquireLock 1 .sharedReadOnly .transaction false (some 1),
        .upgradeSharedLock 0 0 .sharedNoWrite false (some 2), .merge 0] : List (Op (Fin 3) (Fin 3)))
    s.lock.waiting.list = [1] ∧ s.slot (s.mem 1).ctx = .empty ∧
      canGrantLock .objectLock s.mem s.lock (s.mem 1).type (s.mem 1).ctx false = true := by
  decide +kernel

end Mdl
