/-
**Metadata locks exclude each other.**

In every run of `MariaDb/Mdl.lean` the granted tickets of different contexts are compatible, whatever
happens between two contexts: a request of the same context passes the conflict check through an own
ticket of a stronger type, a clone enters the granted list unchecked, a ticket changes its type in
place by an upgrade or a downgrade, and waiters are granted by the thread that makes way for them.
Every such path is one of three: the check of `can_grant_lock`, an own ticket that is at least as
strong, or a type that is at most as strong; the rest is the symmetry of the matrix.

Two kinds of step are outside this.  A clone into another context is not checked against its own
source (`INSERT DELAYED` clones a shared write lock, which is compatible with itself).  And a waiter
that finds its client gone stops waiting without closing its wait slot, so that it can be granted in
the meantime; it then takes its ticket, which is in the granted list, out of the waiting list, and
the counters of both lists are wrong from then on.

Main definitions:

* `CtxOk`: the invariant of one context;
* `Inv`: that of a state;
* `StepOk`: the steps that keep it.

Main results:

* `run_exclusive`: **exclusion**, and the lists are described exactly.
-/

import MariaDb.MdlLists

set_option autoImplicit false

namespace Mdl

open Function List State TicketList Fintype

variable {C T : Type}

/-! ### The invariant -/

/-- The tickets of a context: they are granted and its own, and each is in one list, once. -/
structure Held (mem : T → Ticket C) (g : List T) (c : C) (tickets : Duration → List T) : Prop where
  granted : ∀ d, ∀ t ∈ tickets d, t ∈ g ∧ (mem t).ctx = c
  nodup : ∀ d, (tickets d).Nodup
  once : ∀ d d' t, t ∈ tickets d → t ∈ tickets d' → d = d'

/-- An upgrade in progress is of an own ticket that is not strong enough yet. -/
structure UpgradeOk (k : LockStrategy) (mem : T → Ticket C) (tickets : Duration → List T)
    (u : Upgrade T) : Prop where
  own : ∃ d, u.mdlTicket ∈ tickets d
  weaker : hasStrongerOrEqualType k (mem u.mdlTicket).type u.newType = false

/-- One context `c`: what its thread waits for or merges is in the list where it expects it. -/
structure CtxOk [DecidableEq T] (k : LockStrategy) (mem : T → Ticket C) (g w : List T) (c : C)
    (slot : WaitStatus) (tickets : Duration → List T) (phase : Phase T) : Prop where
  held : Held mem g c tickets
  waits_ctx : ∀ t, phase.waitsOn = some t → (mem t).ctx = c ∧ ∀ d, t ∉ tickets d
  waits_granted : ∀ t, phase.waitsOn = some t → slot = .granted → t ∈ g
  waits_waiting : ∀ t, phase.waitsOn = some t → slot ≠ .granted → t ∈ w
  waits_upgrade : ∀ t d u, phase = .waits t d (some u) →
    d = .transaction ∧ (mem t).type = u.newType ∧ UpgradeOk k mem tickets u
  merging_xlock : ∀ u x, phase = .merging u x →
    UpgradeOk k mem tickets u ∧ x ∈ tickets .transaction ∧
      hasStrongerOrEqualType k (mem x).type u.newType = true
  /-- A ticket that `has_lock` does not find below the savepoint was made for the upgrade. -/
  merging_new : ∀ u x, phase = .merging u x →
    (addedSince x u.stmtTicket (tickets .statement) = true ∨
      addedSince x u.transTicket (tickets .transaction) = true) → (mem x).type = u.newType

/-- The lock, and every context; a waiting ticket is the one that its context waits for. -/
structure Inv [DecidableEq T] (k : LockStrategy) (s : State C T) : Prop where
  lock : LockOk k s.mem s.lock.granted s.lock.waiting s.slot
  waiting_phase : ∀ t ∈ s.lock.waiting.list, (s.phase (s.mem t).ctx).waitsOn = some t
  ctx : ∀ c, CtxOk k s.mem s.lock.granted.list s.lock.waiting.list c (s.slot c) (s.tickets c)
    (s.phase c)

/-! ### One context -/

variable {mem mem' : T → Ticket C} {g w : List T} {c : C} {tickets : Duration → List T}
  {d : Duration} {t : T} {u : Upgrade T} {k : LockStrategy} {slot : WaitStatus} {p : Phase T}
  {type : MdlType} {new : Option T} {s s' : State C T}

theorem Held.congr {g' : List T} (h : Held mem g c tickets)
    (hm : ∀ t ∈ g, (mem t).ctx = c → (mem' t).ctx = c) (hg : ∀ t ∈ g, (mem t).ctx = c → t ∈ g') :
    Held mem' g' c tickets where
  granted d t ht := by
    obtain ⟨htg, htc⟩ := h.granted d t ht
    exact ⟨hg t htg htc, hm t htg htc⟩
  nodup := h.nodup
  once := h.once

theorem mem_pushFront {d' : Duration} {u : T} :
    u ∈ update tickets d (t :: tickets d) d' ↔ (d' = d ∧ u = t) ∨ u ∈ tickets d' := by
  by_cases hd : d' = d
  · subst hd
    simp
  · simp [hd]

/-- A granted ticket enters a list of its context. -/
theorem Held.push (h : Held mem g c tickets) (d : Duration) (ht : t ∈ g) (hc : (mem t).ctx = c)
    (hnot : ∀ d, t ∉ tickets d) :
    Held mem g c (update tickets d (t :: tickets d)) where
  granted d' u hu := by
    rcases mem_pushFront.1 hu with ⟨-, rfl⟩ | hu
    · exact ⟨ht, hc⟩
    · exact h.granted d' u hu
  nodup d' := by
    by_cases hd : d' = d
    · subst hd
      rw [update_self, nodup_cons]
      exact ⟨hnot d', h.nodup d'⟩
    · rw [update_of_ne hd]
      exact h.nodup d'
  once d1 d2 u h1 h2 := by
    rcases mem_pushFront.1 h1 with ⟨hd1, rfl⟩ | hu1
    · rcases mem_pushFront.1 h2 with ⟨hd2, -⟩ | hu2
      · rw [hd1, hd2]
      · exact absurd hu2 (hnot d2)
    · rcases mem_pushFront.1 h2 with ⟨-, rfl⟩ | hu2
      · exact absurd hu1 (hnot d1)
      · exact h.once d1 d2 u hu1 hu2

theorem UpgradeOk.congr {tickets' : Duration → List T} (h : UpgradeOk k mem tickets u)
    (ht : ∀ d, ∀ t ∈ tickets d, t ∈ tickets' d) (hm : ∀ d, ∀ t ∈ tickets d, mem' t = mem t) :
    UpgradeOk k mem' tickets' u := by
  obtain ⟨d, hd⟩ := h.own
  exact ⟨⟨d, ht d _ hd⟩, by rw [hm d _ hd]; exact h.weaker⟩

theorem Phase.eq_idle (h : p.isIdle = true) : p = .idle := by
  cases p with
  | idle => rfl
  | waits | gone | merging => contradiction

theorem findTicket_some {found : Duration} (h : findTicket k s c type d = some (t, found)) :
    t ∈ s.tickets c found ∧ hasStrongerOrEqualType k (s.mem t).type type = true := by
  obtain ⟨d', -, hd'⟩ := exists_of_findSome?_eq_some h
  rw [Option.map_eq_some_iff] at hd'
  obtain ⟨u, hu, heq⟩ := hd'
  cases heq
  have hs := find?_some hu
  exact ⟨mem_of_find?_eq_some hu, hs⟩

theorem State.setPhase_eq [DecidableEq C] (h : s.phase c = p) : s.setPhase c p = s := by
  subst h
  simp [State.setPhase]

/-- The phase of a context whose `acquire_lock` has succeeded. -/
theorem State.acquired_eq [DecidableEq C] (s : State C T) (c : C) (t : T)
    (upgrade : Option (Upgrade T)) :
    ∃ p, s.acquired c t upgrade = s.setPhase c p ∧
      ((upgrade = none ∧ p = .idle) ∨ ∃ u, upgrade = some u ∧ p = .merging u t) := by
  cases upgrade with
  | none => exact ⟨.idle, rfl, .inl ⟨rfl, rfl⟩⟩
  | some u => exact ⟨.merging u t, rfl, .inr ⟨u, rfl, rfl⟩⟩

theorem waitsOn_of_idle (h : s.phase c = .idle) : (s.phase c).waitsOn = none := by
  rw [h]
  rfl

theorem ne_of_ctx {a : T} (ht : (mem t).ctx = c) (ha : (mem a).ctx ≠ c) : a ≠ t := by
  rintro rfl
  exact ha ht

variable [DecidableEq T]

theorem exists_held
    (h : ([Duration.statement, .transaction, .explicit].any fun d => decide (t ∈ tickets d)) = true) :
    ∃ d, t ∈ tickets d := by
  obtain ⟨d, -, hd⟩ := any_eq_true.1 h
  exact ⟨d, of_decide_eq_true hd⟩

theorem mem_drop {d' : Duration} {u : T}
    (hu : u ∈ update tickets d ((tickets d).erase t) d') : u ∈ tickets d' := by
  by_cases hd : d' = d
  · subst hd
    rw [update_self] at hu
    exact mem_of_mem_erase hu
  · rwa [update_of_ne hd] at hu

/-- A ticket leaves the granted list and the list of its context. -/
theorem Held.drop (h : Held mem g c tickets) (ht : t ∈ tickets d) :
    Held mem (g.erase t) c (update tickets d ((tickets d).erase t)) where
  granted d' u hu := by
    have hut : u ≠ t := by
      rintro rfl
      obtain rfl := h.once d' d u (mem_drop hu) ht
      rw [update_self, (h.nodup d').mem_erase_iff] at hu
      exact hu.1 rfl
    obtain ⟨hg, hc⟩ := h.granted d' u (mem_drop hu)
    exact ⟨(mem_erase_of_ne hut).2 hg, hc⟩
  nodup d' := by
    by_cases hd : d' = d
    · subst hd
      rw [update_self]
      exact (h.nodup d').erase t
    · rw [update_of_ne hd]
      exact h.nodup d'
  once d1 d2 u h1 h2 := h.once d1 d2 u (mem_drop h1) (mem_drop h2)

/-- A context is not concerned by what happens to the tickets of others. -/
theorem CtxOk.frame {g' w' : List T} {phase : Phase T} (h : CtxOk k mem g w c slot tickets phase)
    (hm : ∀ t, t ∈ g ∨ t ∈ w → (mem t).ctx = c → mem' t = mem t)
    (hg : ∀ t ∈ g, (mem t).ctx = c → t ∈ g') (hw : ∀ t ∈ w, (mem t).ctx = c → t ∈ w') :
    CtxOk k mem' g' w' c slot tickets phase := by
  have hheld : ∀ d, ∀ t ∈ tickets d, mem' t = mem t := fun d t ht =>
    hm t (.inl (h.held.granted d t ht).1) (h.held.granted d t ht).2
  have hwaits : ∀ t, phase.waitsOn = some t → mem' t = mem t := by
    intro t ht
    refine hm t ?_ (h.waits_ctx t ht).1
    by_cases hs : slot = .granted
    · exact .inl (h.waits_granted t ht hs)
    · exact .inr (h.waits_waiting t ht hs)
  constructor
  · refine h.held.congr ?_ hg
    intro t ht hc
    rw [hm t (.inl ht) hc]
    exact hc
  · intro t ht
    rw [hwaits t ht]
    exact h.waits_ctx t ht
  · intro t ht hs
    exact hg t (h.waits_granted t ht hs) (h.waits_ctx t ht).1
  · intro t ht hs
    exact hw t (h.waits_waiting t ht hs) (h.waits_ctx t ht).1
  · intro t d u hp
    obtain ⟨hd, hty, hu⟩ := h.waits_upgrade t d u hp
    refine ⟨hd, ?_, hu.congr (fun _ _ h => h) hheld⟩
    rw [hwaits t (by rw [hp]; rfl)]
    exact hty
  · intro u x hp
    obtain ⟨hu, hx, hs⟩ := h.merging_xlock u x hp
    refine ⟨hu.congr (fun _ _ h => h) hheld, hx, ?_⟩
    rw [hheld _ x hx]
    exact hs
  · intro u x hp hadd
    rw [hheld _ x (h.merging_xlock u x hp).2.1]
    exact h.merging_new u x hp hadd

theorem Held.idle (h : Held mem g c tickets) : CtxOk k mem g w c slot tickets .idle :=
  ⟨h, nofun, nofun, nofun, nofun, nofun, nofun⟩

theorem Held.merging (h : Held mem g c tickets) {x : T} (hu : UpgradeOk k mem tickets u)
    (hx : x ∈ tickets .transaction) (hs : hasStrongerOrEqualType k (mem x).type u.newType = true)
    (hnew : addedSince x u.stmtTicket (tickets .statement) = true ∨
      addedSince x u.transTicket (tickets .transaction) = true → (mem x).type = u.newType) :
    CtxOk k mem g w c slot tickets (.merging u x) := by
  refine ⟨h, nofun, nofun, nofun, nofun, ?_, ?_⟩
  · rintro u' x' hp
    cases hp
    exact ⟨hu, hx, hs⟩
  · rintro u' x' hp
    cases hp
    exact hnew

/-- A context that waits for a ticket. -/
theorem Held.waits (h : Held mem g c tickets) (hp : p.waitsOn = some t)
    (hctx : (mem t).ctx = c ∧ ∀ d, t ∉ tickets d) (hg : slot = .granted → t ∈ g)
    (hw : slot ≠ .granted → t ∈ w)
    (hup : ∀ d u, p = .waits t d (some u) →
      d = .transaction ∧ (mem t).type = u.newType ∧ UpgradeOk k mem tickets u) :
    CtxOk k mem g w c slot tickets p := by
  have hone : ∀ {t'}, p.waitsOn = some t' → t = t' := fun h => Option.some.inj (hp.symm.trans h)
  have hnot : ∀ u x, p ≠ .merging u x := by
    rintro u x rfl
    cases hp
  refine ⟨h, ?_, ?_, ?_, ?_, fun u x hm => absurd hm (hnot u x), fun u x hm => absurd hm (hnot u x)⟩
  · intro t' ht'
    exact hone ht' ▸ hctx
  · intro t' ht'
    exact hone ht' ▸ hg
  · intro t' ht'
    exact hone ht' ▸ hw
  · rintro t' d u rfl
    cases hone rfl
    exact hup d u rfl

/-- The contexts after a pass over the waiters. -/
theorem CtxOk.moved {g w g' w' : TicketList T} {slot slot' : C → WaitStatus} {phase : Phase T}
    (h : CtxOk k mem g.list w.list c (slot c) tickets phase)
    (hphase : ∀ t ∈ w.list, (mem t).ctx = c → phase.waitsOn = some t)
    (hm : Moved mem g w g' w' slot slot') :
    CtxOk k mem g'.list w'.list c (slot' c) tickets phase where
  held := h.held.congr (fun _ _ hc => hc) (fun t ht _ => (hm.granted_iff t).2 (.inl ht))
  waits_ctx := h.waits_ctx
  waits_granted t ht hs := by
    by_cases hs0 : slot c = .granted
    · exact (hm.granted_iff t).2 (.inl (h.waits_granted t ht hs0))
    -- the slot was filled by the pass, for a ticket of this context, and it has only one
    have htw := h.waits_waiting t ht hs0
    by_cases hmv : t ∈ w'.list
    · refine absurd hs ?_
      rw [hm.slot_kept c]
      · exact hs0
      intro u hu hun hctx
      have hut := hphase u hu hctx
      rw [ht] at hut
      exact hun (Option.some.inj hut ▸ hmv)
    · exact (hm.granted_iff t).2 (.inr ⟨htw, hmv⟩)
  waits_waiting t ht hs := by
    have hctx := (h.waits_ctx t ht).1
    by_cases hs0 : slot c = .granted
    · refine absurd ?_ hs
      rw [hm.slot_kept c, hs0]
      intro u hu hun huc
      have := (hm.slot_moved u hu hun).1
      rw [huc, hs0] at this
      exact absurd this (by decide)
    · by_contra hmv
      have := (hm.slot_moved t (h.waits_waiting t ht hs0) hmv).2
      rw [hctx] at this
      exact hs this
  waits_upgrade := h.waits_upgrade
  merging_xlock := h.merging_xlock
  merging_new := h.merging_new

/-! ### The steps -/

theorem removeGranted_waiting {l : Lock T} (h : t ∉ l.waiting.list) (type : MdlType) :
    (l.removeGranted t type).waiting = l.waiting :=
  unlink_of_not_mem h

theorem removeWaiting_granted {l : Lock T} (h : t ∉ l.granted.list) (type : MdlType) :
    (l.removeWaiting t type).granted = l.granted :=
  unlink_of_not_mem h

theorem mem_create {a : T} (ht : t ∉ s.lock.granted.list) (ht' : t ∉ s.lock.waiting.list)
    (ha : a ∈ s.lock.granted.list ∨ a ∈ s.lock.waiting.list) :
    (s.create t c type).mem a = s.mem a := by
  refine update_of_ne ?_ _ _
  rintro rfl
  exact ha.elim ht ht'

theorem mem_changeType {a : T} (type : MdlType) (ha : a ∈ s.lock.granted.list) :
    a ∈ (s.changeType t type).lock.granted.list := by
  simp only [State.changeType, Lock.addGranted, addTicket, mem_append, mem_singleton]
  by_cases hat : a = t
  · exact .inr hat
  · exact .inl ((mem_erase_of_ne hat).2 ha)

namespace Inv

theorem init (k : LockStrategy) (mem : T → Ticket C) : Inv k (State.init mem) where
  lock := by
    refine ⟨Describes.empty mem, Describes.empty mem, ?_, ?_, ?_, ?_⟩ <;>
      simp [State.init, empty]
  waiting_phase := by simp [State.init, empty]
  ctx c := by
    refine Held.idle ⟨?_, ?_, ?_⟩ <;> simp [State.init]

variable (h : Inv k s)
include h

/-- A step that only concerns the context `c`. -/
theorem update (c : C)
    (hlock : LockOk k s'.mem s'.lock.granted s'.lock.waiting s'.slot)
    (hslot : ∀ c' ≠ c, s'.slot c' = s.slot c')
    (htickets : ∀ c' ≠ c, s'.tickets c' = s.tickets c')
    (hphase : ∀ c' ≠ c, s'.phase c' = s.phase c')
    (hmem : ∀ t, t ∈ s.lock.granted.list ∨ t ∈ s.lock.waiting.list → (s.mem t).ctx ≠ c →
      s'.mem t = s.mem t)
    (hg : ∀ t ∈ s.lock.granted.list, (s.mem t).ctx ≠ c → t ∈ s'.lock.granted.list)
    (hw : ∀ t ∈ s.lock.waiting.list, (s.mem t).ctx ≠ c → t ∈ s'.lock.waiting.list)
    (hw' : ∀ t ∈ s'.lock.waiting.list, (s'.mem t).ctx ≠ c →
      t ∈ s.lock.waiting.list ∧ (s.mem t).ctx ≠ c)
    (hown : CtxOk k s'.mem s'.lock.granted.list s'.lock.waiting.list c (s'.slot c) (s'.tickets c)
      (s'.phase c))
    (hwaits : ∀ t ∈ s'.lock.waiting.list, (s'.mem t).ctx = c → (s'.phase c).waitsOn = some t) :
    Inv k s' where
  lock := hlock
  waiting_phase t ht := by
    by_cases hc : (s'.mem t).ctx = c
    · rw [hc]
      exact hwaits t ht hc
    · obtain ⟨htw, htc⟩ := hw' t ht hc
      rw [hphase _ hc, hmem t (.inr htw) htc]
      exact h.waiting_phase t htw
  ctx c' := by
    by_cases hc : c' = c
    · subst hc
      exact hown
    rw [hslot c' hc, htickets c' hc, hphase c' hc]
    refine (h.ctx c').frame ?_ ?_ ?_
    · rintro t ht rfl
      exact hmem t ht hc
    · rintro t ht rfl
      exact hg t ht hc
    · rintro t ht rfl
      exact hw t ht hc

theorem waiting_ctx_ne (hidle : (s.phase c).waitsOn = none)
    (ht : t ∈ s.lock.waiting.list) : (s.mem t).ctx ≠ c := by
  rintro rfl
  rw [h.waiting_phase t ht] at hidle
  exact absurd hidle (by simp)

theorem create (hg : t ∉ s.lock.granted.list) (hw : t ∉ s.lock.waiting.list) (c : C)
    (type : MdlType) : Inv k (s.create t c type) := by
  refine ⟨h.lock.congr_mem (fun u hu => mem_create hg hw (.inl hu))
    (fun u hu => mem_create hg hw (.inr hu)), ?_, ?_⟩
  · intro u hu
    rw [mem_create hg hw (.inr hu)]
    exact h.waiting_phase u hu
  · intro c'
    exact (h.ctx c').frame (fun u hu _ => mem_create hg hw hu) (fun _ hu _ => hu) (fun _ hu _ => hu)

/-- What an upgrade has acquired keeps out what the new type is incompatible with. -/
theorem merging_compatible {x : T} (hp : s.phase c = .merging u x) :
    ∀ a ∈ s.lock.granted.list, (s.mem a).ctx ≠ c → Compatible k (s.mem a).type u.newType := by
  obtain ⟨-, hx, hs⟩ := (h.ctx c).merging_xlock u x hp
  obtain ⟨hxg, hxc⟩ := (h.ctx c).held.granted _ x hx
  intro a ha hac
  exact ((h.lock.exclusive x hxg a ha (by rw [hxc]; exact Ne.symm hac)).of_stronger hs).symm

section

variable [DecidableEq C]

/-- A step that only changes the phase of the context `c`. -/
theorem setPhase
    (hown : CtxOk k s.mem s.lock.granted.list s.lock.waiting.list c (s.slot c) (s.tickets c) p)
    (hwaits : ∀ t ∈ s.lock.waiting.list, (s.mem t).ctx = c → p.waitsOn = some t) :
    Inv k (s.setPhase c p) := by
  refine h.update c h.lock (fun _ _ => rfl) (fun _ _ => rfl) (fun c' hc' => update_of_ne hc' _ _)
    (fun _ _ _ => rfl) (fun _ ha _ => ha) (fun _ ha _ => ha) (fun _ ha hne => ⟨ha, hne⟩) ?_ ?_
  · simpa only [State.setPhase, update_self] using hown
  · simpa only [State.setPhase, update_self] using hwaits

theorem setIdle (hidle : (s.phase c).waitsOn = none) : Inv k (s.setPhase c .idle) :=
  h.setPhase (h.ctx c).held.idle fun _ ha hac => absurd hac (h.waiting_ctx_ne hidle ha)


/-- A context that has been granted a ticket adds it to its own, and goes on. -/
theorem obtained (ht : t ∈ s.lock.granted.list) (hctx : (s.mem t).ctx = c)
    (hnot : ∀ d, t ∉ s.tickets c d) (hone : ∀ a ∈ s.lock.waiting.list, (s.mem a).ctx ≠ c)
    (hp : p = .idle ∨
      ∃ u, p = .merging u t ∧ d = .transaction ∧ (s.mem t).type = u.newType ∧
      UpgradeOk k s.mem (s.tickets c) u) :
    Inv k ((s.pushFront c d t).setPhase c p) := by
  have hheld := (h.ctx c).held.push d ht hctx hnot
  refine h.update c h.lock (fun _ _ => rfl) ?_ ?_ (fun _ _ _ => rfl) (fun _ ha _ => ha)
    (fun _ ha _ => ha) (fun _ ha hne => ⟨ha, hne⟩) ?_ ?_
  · exact fun c' hc' => update_of_ne hc' _ _
  · exact fun c' hc' => update_of_ne hc' _ _
  · simp only [State.setPhase, pushFront, update_self]
    rcases hp with rfl | ⟨u, rfl, rfl, hty, hu⟩
    · exact hheld.idle
    refine hheld.merging (hu.congr ?_ (fun _ _ _ => rfl)) ?_ ?_ (fun _ => hty)
    · intro d v hv
      exact mem_pushFront.2 (.inr hv)
    · exact mem_pushFront.2 (.inl ⟨rfl, rfl⟩)
    · rw [hty, hasStrongerOrEqualType_iff]
  · intro a ha hc
    exact absurd hc (hone a ha)

/-- The slot of a context is closed. -/
theorem setStatus (c : C) {status : WaitStatus} (hs : status ≠ .granted) :
    Inv k { s with slot := setStatus s.slot c status } := by
  have hslot : ∀ c', Mdl.setStatus s.slot c status c' = .granted ↔ s.slot c' = .granted := by
    intro c'
    rw [Mdl.setStatus]
    split_ifs with he
    · by_cases hc : c' = c
      · subst hc
        rw [update_self, he]
        simp [hs]
      · rw [update_of_ne hc]
    · rfl
  refine ⟨h.lock.congr_slot ?_, h.waiting_phase, ?_⟩
  · intro t ht
    rw [Ne, hslot]
    exact h.lock.slot_waiting t ht
  intro c'
  have hc := h.ctx c'
  refine ⟨hc.held, hc.waits_ctx, ?_, ?_, hc.waits_upgrade, hc.merging_xlock, hc.merging_new⟩
  · intro t ht hg
    exact hc.waits_granted t ht ((hslot c').1 hg)
  · intro t ht hg
    exact hc.waits_waiting t ht fun h' => hg ((hslot c').2 h')

theorem clientGone (hp : (s.phase c).waitsOn = some t) : Inv k (s.setPhase c (.gone t)) := by
  have hc := h.ctx c
  refine h.setPhase (hc.held.waits rfl (hc.waits_ctx t hp) (hc.waits_granted t hp)
    (hc.waits_waiting t hp) nofun) ?_
  rintro a ha rfl
  exact hp.symm.trans (h.waiting_phase a ha)

/-- A waiting ticket is given up. -/
theorem leave (hp : (s.phase c).waitsOn = some t) (hs : s.slot c ≠ .granted) :
    Inv k ({ s with lock := s.lock.removeWaiting t (s.mem t).type }.setPhase c .idle) := by
  have htw := (h.ctx c).waits_waiting t hp hs
  have htc := ((h.ctx c).waits_ctx t hp).1
  have htg : t ∉ s.lock.granted.list := fun hg => h.lock.not_waiting hg htw
  have hgr := removeWaiting_granted htg (s.mem t).type
  have herase : ∀ a, a ∈ (s.lock.removeWaiting t (s.mem t).type).waiting.list ↔
      a ≠ t ∧ a ∈ s.lock.waiting.list := fun a => h.lock.waiting_nodup.mem_erase_iff
  refine h.update c ?_ (fun _ _ => rfl) (fun _ _ => rfl) ?_ (fun _ _ _ => rfl) ?_ ?_ ?_ ?_ ?_
  · have hlock := h.lock.removeWaiting rfl htw
    rw [← hgr] at hlock
    exact hlock
  · exact fun c' hc' => update_of_ne hc' _ _
  · intro a ha _
    simp only [State.setPhase, hgr]
    exact ha
  · intro a ha hne
    exact (herase a).2 ⟨ne_of_ctx htc hne, ha⟩
  · intro a ha hne
    exact ⟨((herase a).1 ha).2, hne⟩
  · simp only [State.setPhase, update_self, hgr]
    exact (h.ctx c).held.idle
  · intro a ha hac
    obtain ⟨hne, ha⟩ := (herase a).1 ha
    have hap := h.waiting_phase a ha
    rw [show (s.mem a).ctx = c from hac, hp] at hap
    cases hap
    exact absurd rfl hne

/-- A granted ticket leaves the lock and its context. -/
theorem drop (hidle : (s.phase c).waitsOn = none) (ht : t ∈ s.tickets c d) :
    Inv k (({ s with lock := s.lock.removeGranted t (s.mem t).type }.dropTicket c d t).setPhase c
      .idle) := by
  obtain ⟨htg, htc⟩ := (h.ctx c).held.granted d t ht
  have hwt := removeGranted_waiting (h.lock.not_waiting htg) (s.mem t).type
  refine h.update c ?_ (fun _ _ => rfl) ?_ ?_ (fun _ _ _ => rfl) ?_ ?_ ?_ ?_ ?_
  · have hlock := h.lock.removeGranted rfl htg
    rw [← hwt] at hlock
    exact hlock
  · exact fun c' hc' => update_of_ne hc' _ _
  · exact fun c' hc' => update_of_ne hc' _ _
  · intro a ha hne
    exact (mem_erase_of_ne (ne_of_ctx htc hne)).2 ha
  · intro a ha _
    simp only [State.setPhase, dropTicket, hwt]
    exact ha
  · intro a ha hne
    simp only [State.setPhase, dropTicket, hwt] at ha
    exact ⟨ha, hne⟩
  · simp only [State.setPhase, dropTicket, update_self]
    exact ((h.ctx c).held.drop ht).idle
  · intro a ha hac
    simp only [State.setPhase, dropTicket, hwt] at ha
    exact absurd hac (h.waiting_ctx_ne hidle ha)

end

variable [Fintype T] (hcard : card T < 2 ^ 32)
include hcard

theorem addGranted
    (hg : t ∉ s.lock.granted.list) (hw : t ∉ s.lock.waiting.list)
    (hc : ∀ a ∈ s.lock.granted.list, (s.mem a).ctx ≠ (s.mem t).ctx →
      Compatible k (s.mem a).type (s.mem t).type) :
    Inv k { s with lock := s.lock.addGranted t (s.mem t).type } := by
  refine ⟨h.lock.addGranted hcard rfl hg hw hc, h.waiting_phase, ?_⟩
  intro c
  refine (h.ctx c).frame (fun _ _ _ => rfl) ?_ (fun _ hu _ => hu)
  intro u hu _
  exact mem_append_left _ hu

/-- A granted ticket of an idle context gets a type that no other context is against. -/
theorem changeType (hidle : s.phase c = .idle) (ht : t ∈ s.tickets c d)
    (hc : ∀ a ∈ s.lock.granted.list, (s.mem a).ctx ≠ c → Compatible k (s.mem a).type type) :
    Inv k (s.changeType t type) := by
  obtain ⟨htg, htc⟩ := (h.ctx c).held.granted d t ht
  have hwt := removeGranted_waiting (h.lock.not_waiting htg) (s.mem t).type
  have hwt' : (s.changeType t type).lock.waiting = s.lock.waiting := hwt
  have hctx : ∀ a, ((s.changeType t type).mem a).ctx = (s.mem a).ctx := by
    intro a
    by_cases ha : a = t
    · subst ha
      simp [State.changeType]
    · simp [State.changeType, update_of_ne ha]
  refine h.update c ?_ (fun _ _ => rfl) (fun _ _ => rfl) (fun _ _ => rfl) ?_
    (fun a ha _ => mem_changeType type ha) ?_ ?_ ?_ ?_
  · have hlock := h.lock.retype hcard htg (by rw [htc]; exact hc)
    rw [← hwt] at hlock
    exact hlock
  · intro a _ hne
    exact update_of_ne (ne_of_ctx htc hne) _ _
  · intro a ha _
    rw [hwt']
    exact ha
  · intro a ha hne
    rw [hwt'] at ha
    rw [hctx] at hne
    exact ⟨ha, hne⟩
  · have hph : (s.changeType t type).phase c = .idle := hidle
    rw [hph]
    refine Held.idle ((h.ctx c).held.congr ?_ (fun a ha _ => mem_changeType type ha))
    intro a _ hac
    rw [hctx]
    exact hac
  · intro a ha hac
    rw [hwt'] at ha
    rw [hctx] at hac
    exact absurd hac (h.waiting_ctx_ne (waitsOn_of_idle hidle) ha)

variable [DecidableEq C] {maxWriteLockCount : ℕ}

theorem reschedule : Inv k (s.reschedule k maxWriteLockCount) := by
  obtain ⟨hok, hm⟩ := rescheduleWaiters_ok hcard maxWriteLockCount h.lock
  refine ⟨hok, ?_, ?_⟩
  · intro t ht
    exact h.waiting_phase t (hm.waiting_subset t ht)
  intro c
  refine (h.ctx c).moved ?_ hm
  rintro t ht rfl
  exact h.waiting_phase t ht

theorem wakeup : Inv k (s.wakeup k maxWriteLockCount) := by
  rw [State.wakeup]
  split_ifs
  · exact h
  · exact h.reschedule hcard

/-- A context begins to wait with a new ticket. -/
theorem wait
    (hidle : (s.phase c).waitsOn = none) (hg : t ∉ s.lock.granted.list)
    (hw : t ∉ s.lock.waiting.list) (hctx : (s.mem t).ctx = c) (upgrade : Option (Upgrade T))
    (hup : ∀ u, upgrade = some u →
      d = .transaction ∧ (s.mem t).type = u.newType ∧ UpgradeOk k s.mem (s.tickets c) u) :
    Inv k ({ s with
      lock := s.lock.addWaiting t (s.mem t).type
      slot := Function.update s.slot c .empty }.setPhase c (.waits t d upgrade)) := by
  have hone : ∀ a ∈ s.lock.waiting.list, (s.mem a).ctx ≠ c := fun a ha => h.waiting_ctx_ne hidle ha
  have hlock : LockOk k s.mem s.lock.granted s.lock.waiting (Function.update s.slot c .empty) := by
    refine h.lock.congr_slot ?_
    intro a ha
    rw [update_of_ne (hone a ha)]
    exact h.lock.slot_waiting a ha
  refine h.update c (hlock.addWaiting hcard rfl hg hw ?_ ?_) ?_ (fun _ _ => rfl) ?_
    (fun _ _ _ => rfl) (fun _ ha _ => ha) ?_ ?_ ?_ ?_
  · intro a ha
    exact hctx ▸ hone a ha
  · rw [hctx, update_self]
    decide
  · exact fun c' hc' => update_of_ne hc' _ _
  · exact fun c' hc' => update_of_ne hc' _ _
  · intro a ha _
    exact mem_append_left _ ha
  · intro a ha hne
    simp only [State.setPhase, Lock.addWaiting, addTicket, mem_append, mem_singleton] at ha
    rcases ha with ha | rfl
    · exact ⟨ha, hne⟩
    · exact absurd hctx hne
  · simp only [State.setPhase, update_self]
    refine (h.ctx c).held.waits rfl ⟨hctx, fun d hd => hg ((h.ctx c).held.granted d t hd).1⟩
      (fun hs => absurd hs (by decide)) (fun _ => ?_) ?_
    · simp [Lock.addWaiting, addTicket]
    · rintro d' u hp
      cases hp
      exact hup u rfl
  · intro a ha hc
    simp only [State.setPhase, Lock.addWaiting, addTicket, mem_append, mem_singleton] at ha
    rcases ha with ha | rfl
    · exact absurd hc (hone a ha)
    · simp [State.setPhase, Phase.waitsOn]

end Inv

/-! ### The calls -/

variable [DecidableEq C] {maxWriteLockCount : ℕ}

/-- What `try_acquire_lock_impl` can do: fail, find a ticket that serves, make one that is granted,
or make one for a request that is blocked. -/
inductive TryCases (k : LockStrategy) (s : State C T) (c : C) (type : MdlType) (d : Duration) :
    State C T × TryResult T → Prop
  | error : TryCases k s c type d (s, .error)
  | reused (t : T) (own : t ∈ s.tickets c d)
      (stronger : hasStrongerOrEqualType k (s.mem t).type type = true) :
      TryCases k s c type d (s, .acquired t)
  | entered (t : T) (granted : t ∉ s.lock.granted.list) (waiting : t ∉ s.lock.waiting.list)
      (compatible : ∀ a ∈ s.lock.granted.list, (s.mem a).ctx ≠ c →
        Compatible k (s.mem a).type type) :
      TryCases k s c type d (s.enter t c type d, .acquired t)
  | refused (t : T) (granted : t ∉ s.lock.granted.list) (waiting : t ∉ s.lock.waiting.list)
      (blocked : Blocked k s.mem s.lock.granted s.lock.waiting type c false) :
      TryCases k s c type d (s.create t c type, .refused t)

/-- A clone of an own ticket is compatible with what is granted, as is one whose type the tickets of
the source's context allow. -/
theorem cloneTicket_cases (h : Inv k s) {source : T} (hfresh : Fresh s new)
    (hsource : source ∈ s.lock.granted.list)
    (hs : hasStrongerOrEqualType k (s.mem source).type type = true)
    (hc : (s.mem source).ctx = c ∨ ∀ a ∈ s.lock.granted.list, (s.mem a).ctx = (s.mem source).ctx →
      Compatible k (s.mem a).type type) :
    TryCases k s c type d (cloneTicket s c type d new) := by
  cases new with
  | none => exact .error
  | some t =>
    obtain ⟨hg, hw⟩ := hfresh t rfl
    refine .entered t hg hw ?_
    intro a ha hac
    by_cases hctx : (s.mem a).ctx = (s.mem source).ctx
    · rcases hc with hc | hc
      · exact absurd (hctx.trans hc) hac
      · exact hc a ha hctx
    · exact ((h.lock.exclusive source hsource a ha (Ne.symm hctx)).of_stronger hs).symm

theorem tryAcquireLockImpl_cases (h : Inv k s) (hfresh : Fresh s new) :
    TryCases k s c type d (tryAcquireLockImpl k s c type d new) := by
  rw [tryAcquireLockImpl.eq_def]
  cases hfind : findTicket k s c type d with
  | some r =>
    obtain ⟨t, found⟩ := r
    obtain ⟨hown, hs⟩ := findTicket_some hfind
    obtain ⟨hg, hctx⟩ := (h.ctx c).held.granted found t hown
    dsimp only
    split_ifs with hclone
    · exact cloneTicket_cases h hfresh hg hs (.inl hctx)
    have hd : found = d := by
      by_contra hne
      exact hclone (.inl hne)
    exact .reused t (hd ▸ hown) hs
  | none =>
    cases new with
    | none => exact .error
    | some t =>
      obtain ⟨hg, hw⟩ := hfresh t rfl
      have hinv := h.create hg hw c type
      have hcan : canGrantLock k (s.create t c type).mem s.lock type c false = false ↔
          Blocked k (s.create t c type).mem s.lock.granted s.lock.waiting type c false :=
        canGrantLock_eq_false_iff hinv.lock.granted hinv.lock.waiting
      have hblocked : Blocked k (s.create t c type).mem s.lock.granted s.lock.waiting type c
          false ↔ Blocked k s.mem s.lock.granted s.lock.waiting type c false := by
        refine or_congr (exists_congr fun a => and_congr_right fun ha => ?_)
          (and_congr_right fun _ => exists_congr fun a => and_congr_right fun ha => ?_)
        · rw [mem_create hg hw (.inl ha)]
        · rw [mem_create hg hw (.inr ha)]
      rw [hblocked] at hcan
      dsimp only
      split_ifs with hgrant
      · refine .entered t hg hw ?_
        intro a ha hac
        refine Compatible.symm fun hinc => ?_
        have := hcan.2 (.inl ⟨a, ha, hac, hinc⟩)
        rw [hgrant] at this
        exact absurd this (by decide)
      · exact .refused t hg hw (hcan.1 (by simpa using hgrant))

theorem addedSince_head (x : T) (l : List T) : addedSince x l.head? l = false := by
  cases l with
  | nil => rfl
  | cons t it => simp [addedSince]

/-- What neither reads nor changes the lock commutes with waking up the waiters. -/
theorem State.wakeup_comm {f : State C T → State C T} (hl : (f s).lock = s.lock)
    (hr : f (s.reschedule k maxWriteLockCount) = (f s).reschedule k maxWriteLockCount) :
    f (s.wakeup k maxWriteLockCount) = (f s).wakeup k maxWriteLockCount := by
  rw [State.wakeup, State.wakeup, hl]
  split_ifs
  · rfl
  · exact hr

theorem State.wakeup_setPhase (maxWriteLockCount : ℕ) (s : State C T) (c : C) (p : Phase T) :
    (s.wakeup k maxWriteLockCount).setPhase c p = (s.setPhase c p).wakeup k maxWriteLockCount :=
  wakeup_comm (f := (·.setPhase c p)) rfl rfl

theorem State.wakeup_dropTicket (maxWriteLockCount : ℕ) (s : State C T) (c : C) (d : Duration)
    (t : T) : (s.wakeup k maxWriteLockCount).dropTicket c d t =
      (s.dropTicket c d t).wakeup k maxWriteLockCount :=
  wakeup_comm (f := (·.dropTicket c d t)) rfl rfl

section

variable [Fintype T] (hcard : card T < 2 ^ 32) (h : Inv k s)
include hcard h

/-- A ticket made for a request that can be granted. -/
theorem Inv.enter (hidle : s.phase c = .idle)
    (hg : t ∉ s.lock.granted.list) (hw : t ∉ s.lock.waiting.list)
    (hc : ∀ a ∈ s.lock.granted.list, (s.mem a).ctx ≠ c → Compatible k (s.mem a).type type)
    (hp : p = .idle ∨
      ∃ u, p = .merging u t ∧ d = .transaction ∧ type = u.newType ∧
      UpgradeOk k s.mem (s.tickets c) u) :
    Inv k ((s.enter t c type d).setPhase c p) := by
  have hinv := h.create hg hw c type
  have hself : (s.create t c type).mem t = ⟨c, type⟩ := update_self ..
  have hadd : Inv k { s.create t c type with lock := s.lock.addGranted t type } := by
    have := hinv.addGranted hcard hg hw
    rw [hself] at this
    refine this ?_
    intro a ha
    rw [mem_create hg hw (.inl ha)]
    exact hc a ha
  refine hadd.obtained ?_ ?_ ?_ ?_ ?_
  · simp [Lock.addGranted, addTicket]
  · exact congrArg Ticket.ctx hself
  · intro d hd
    exact hg ((h.ctx c).held.granted d t hd).1
  · intro a ha
    exact hinv.waiting_ctx_ne (waitsOn_of_idle hidle) ha
  · rcases hp with rfl | ⟨u, rfl, rfl, rfl, hu⟩
    · exact .inl rfl
    · refine .inr ⟨u, rfl, rfl, congrArg Ticket.type hself, hu.congr (fun _ _ hv => hv) ?_⟩
      intro d v hv
      exact mem_create hg hw (.inl ((h.ctx c).held.granted d v hv).1)

theorem Inv.acquireLock {noWait : Bool}
    {upgrade : Option (Upgrade T)} (hidle : s.phase c = .idle) (hfresh : Fresh s new)
    (hup : ∀ u, upgrade = some u →
      d = .transaction ∧ type = u.newType ∧ UpgradeOk k s.mem (s.tickets c) u ∧
      u.stmtTicket = (s.tickets c .statement).head? ∧
      u.transTicket = (s.tickets c .transaction).head?) :
    Inv k (acquireLock k s c type d noWait new upgrade) := by
  have hcases : TryCases k s c type d (tryAcquireLockImpl k s c type d new) :=
    tryAcquireLockImpl_cases h hfresh
  have hnone := waitsOn_of_idle hidle
  rw [Mdl.acquireLock]
  generalize tryAcquireLockImpl k s c type d new = r at hcases
  cases hcases with
  | error => exact h
  | reused t hown hs =>
    -- an own ticket serves: the lock is left as it is
    cases upgrade with
    | none => exact h.setIdle hnone
    | some u =>
      obtain ⟨rfl, rfl, hu, hstmt, htrans⟩ := hup u rfl
      refine h.setPhase ((h.ctx c).held.merging hu hown hs ?_) fun _ ha hac =>
        absurd hac (h.waiting_ctx_ne hnone ha)
      rw [hstmt, htrans, addedSince_head, addedSince_head]
      simp
  | entered t hg hw hc =>
    dsimp only
    obtain ⟨p, hp, hcase⟩ := acquired_eq (s.enter t c type d) c t upgrade
    rw [hp]
    refine h.enter hcard hidle hg hw hc ?_
    rcases hcase with ⟨-, rfl⟩ | ⟨u, rfl, rfl⟩
    · exact .inl rfl
    · obtain ⟨hd, hty, hu, -⟩ := hup u rfl
      exact .inr ⟨u, rfl, hd, hty, hu⟩
  | refused t hg hw hb =>
    have hinv := h.create hg hw c type
    have hself : (s.create t c type).mem t = ⟨c, type⟩ := update_self ..
    split_ifs with hnw
    · exact hinv
    have hwait := hinv.wait (d := d) hcard hnone hg hw (congrArg Ticket.ctx hself) upgrade
    rw [hself] at hwait
    refine hwait ?_
    intro u hu
    obtain ⟨hd, hty, hu, -⟩ := hup u hu
    refine ⟨hd, hty, hu.congr (fun _ _ hv => hv) fun d' v hv => ?_⟩
    exact mem_create hg hw (.inl ((h.ctx c).held.granted d' v hv).1)

/-- The end of a wait, unless the waiter has given up and was granted the lock all the same. -/
theorem Inv.wake (hok : (s.phase c).isGone = true → s.slot c ≠ .granted) :
    Inv k (wake k maxWriteLockCount s c) := by
  rw [Mdl.wake]
  cases hp : s.phase c with
  | idle => exact h
  | merging u x => exact h
  | gone t =>
    have hw : (s.phase c).waitsOn = some t := by
      rw [hp]
      rfl
    dsimp only
    rw [wakeup_setPhase]
    exact (h.leave hw (hok (by rw [hp]; rfl))).wakeup hcard
  | waits t d upgrade =>
    have hw : (s.phase c).waitsOn = some t := by
      rw [hp]
      rfl
    cases hs : s.slot c with
    | empty => exact h
    | granted =>
      have htg := (h.ctx c).waits_granted t hw hs
      obtain ⟨htc, hnot⟩ := (h.ctx c).waits_ctx t hw
      obtain ⟨p, hpe, hcase⟩ := acquired_eq (s.pushFront c d t) c t upgrade
      dsimp only
      rw [hpe]
      refine h.obtained htg htc hnot ?_ ?_
      · rintro a ha rfl
        have hap := h.waiting_phase a ha
        rw [hw] at hap
        cases hap
        exact h.lock.not_waiting htg ha
      · rcases hcase with ⟨-, rfl⟩ | ⟨u, rfl, rfl⟩
        · exact .inl rfl
        · exact .inr ⟨u, rfl, (h.ctx c).waits_upgrade t d u hp⟩
    | victim | timeout | killed =>
      dsimp only
      rw [wakeup_setPhase]
      exact (h.leave hw (by rw [hs]; decide)).wakeup hcard

theorem Inv.merge (c : C) : Inv k (merge s c) := by
  rw [Mdl.merge]
  cases hp : s.phase c with
  | idle | waits t d upgrade | gone t => exact h
  | merging u x =>
    have hnone : (s.phase c).waitsOn = none := by
      rw [hp]
      rfl
    obtain ⟨⟨⟨d, hm⟩, hweak⟩, hx, hs⟩ := (h.ctx c).merging_xlock u x hp
    have hcompat := h.merging_compatible hp
    have hne : u.mdlTicket ≠ x := by
      intro he
      rw [he, hs] at hweak
      exact absurd hweak (by decide)
    dsimp only
    split_ifs with hlock
    · -- an own ticket serves as well, and stays
      have hidle := h.setIdle hnone
      exact hidle.changeType hcard (by simp [State.setPhase]) hm hcompat
    -- the ticket made for the upgrade goes first
    have hdrop := h.drop hnone hx
    have hmem : u.mdlTicket ∈ Function.update (s.tickets c) .transaction
        ((s.tickets c .transaction).erase x) d := by
      by_cases hd : d = .transaction
      · subst hd
        exact (mem_erase_of_ne hne).2 hm
      · rw [update_of_ne hd]
        exact hm
    refine hdrop.changeType (d := d) (c := c) hcard ?_ ?_ ?_
    · simp [State.setPhase]
    · simpa [State.setPhase, dropTicket] using hmem
    · intro a ha
      exact hcompat a (mem_of_mem_erase ha)

theorem Inv.downgradeLock (hidle : s.phase c = .idle) (ht : t ∈ s.tickets c d) :
    Inv k (downgradeLock k maxWriteLockCount s t type) := by
  rw [Mdl.downgradeLock]
  split_ifs with hno
  · exact h
  rw [not_or, Bool.not_eq_false] at hno
  obtain ⟨htg, htc⟩ := (h.ctx c).held.granted d t ht
  refine (h.changeType hcard hidle ht ?_).reschedule hcard
  intro a ha hac
  exact ((h.lock.exclusive t htg a ha (by rw [htc]; exact Ne.symm hac)).of_stronger hno.2).symm

theorem Inv.releaseLock (hidle : s.phase c = .idle) (ht : t ∈ s.tickets c d) :
    Inv k (releaseLock k maxWriteLockCount s c d t) := by
  rw [Mdl.releaseLock, wakeup_dropTicket]
  have hdrop := h.drop (waitsOn_of_idle hidle) ht
  rw [setPhase_eq (by exact hidle)] at hdrop
  exact hdrop.wakeup hcard

end

/-! ### Runs -/

/-- The steps that keep the lists in order.  A clone into another context has a type that no ticket
of the source's context is incompatible with, and a waiter whose client is gone has not been
granted its request when it takes its ticket out of the waiting list. -/
def StepOk (k : LockStrategy) (s : State C T) : Op C T → Prop
  | .cloneTicket c type _ source _ =>
    (s.mem source).ctx = c ∨ ∀ a ∈ s.lock.granted.list,
      (s.mem a).ctx = (s.mem source).ctx → Compatible k (s.mem a).type type
  | .wake c => (s.phase c).isGone = true → s.slot c ≠ .granted
  | _ => True

/-- A condition on every step of a run and the state before it. -/
def AllSteps (k : LockStrategy) (maxWriteLockCount : ℕ) (P : State C T → Op C T → Prop) :
    State C T → List (Op C T) → Prop
  | _, [] => True
  | s, op :: ops =>
    P s op ∧ AllSteps k maxWriteLockCount P (step k maxWriteLockCount s op) ops

instance (k : LockStrategy) (s : State C T) : (op : Op C T) → Decidable (StepOk k s op)
  | .cloneTicket _ _ _ _ _ => inferInstanceAs (Decidable (_ ∨ _))
  | .wake _ => inferInstanceAs (Decidable (_ → _))
  | .tryAcquireLock .. | .acquireLock .. | .upgradeSharedLock .. | .closeSlot .. | .victim _
  | .clientGone _ | .merge _ | .downgradeLock .. | .releaseLock .. | .reuse _ => isTrue trivial

instance decidableAllSteps (k : LockStrategy) (maxWriteLockCount : ℕ)
    (P : State C T → Op C T → Prop) [∀ s op, Decidable (P s op)] (s : State C T) :
    (ops : List (Op C T)) → Decidable (AllSteps k maxWriteLockCount P s ops)
  | [] => isTrue trivial
  | op :: ops =>
    have := decidableAllSteps k maxWriteLockCount P (step k maxWriteLockCount s op) ops
    inferInstanceAs (Decidable (_ ∧ _))

variable (k) (maxWriteLockCount : ℕ) (s) in
/-- What a step can do. -/
inductive StepCases : Op C T → State C T → Prop
  | same {op : Op C T} : StepCases op s
  | entered {op : Op C T} (c : C) (type : MdlType) (d : Duration) (t : T) (idle : s.phase c = .idle)
      (granted : t ∉ s.lock.granted.list) (waiting : t ∉ s.lock.waiting.list)
      (compatible : ∀ a ∈ s.lock.granted.list, (s.mem a).ctx ≠ c →
        Compatible k (s.mem a).type type) :
      StepCases op (s.enter t c type d)
  | refused {op : Op C T} (c : C) (type : MdlType) (t : T) (granted : t ∉ s.lock.granted.list)
      (waiting : t ∉ s.lock.waiting.list) : StepCases op (s.create t c type)
  | acquireLock (c : C) (type : MdlType) (d : Duration) (noWait : Bool) (new : Option T)
      (idle : s.phase c = .idle) (fresh : Fresh s new) :
      StepCases (.acquireLock c type d noWait new) (acquireLock k s c type d noWait new none)
  | upgradeSharedLock (c : C) (ticket : T) (newType : MdlType) (noWait : Bool) (new : Option T)
      (idle : s.phase c = .idle) (fresh : Fresh s new) (own : ∃ d, ticket ∈ s.tickets c d)
      (weaker : hasStrongerOrEqualType k (s.mem ticket).type newType ≠ true) :
      StepCases (.upgradeSharedLock c ticket newType noWait new)
        (acquireLock k s c newType .transaction noWait new
          (some ⟨ticket, newType, (s.tickets c .statement).head?, (s.tickets c .transaction).head?⟩))
  | setStatus {op : Op C T} (c : C) (status : WaitStatus) (hs : status ≠ .granted) :
      StepCases op { s with slot := setStatus s.slot c status }
  | clientGone (c : C) (t : T) (waits : (s.phase c).waitsOn = some t) :
      StepCases (.clientGone c) (s.setPhase c (.gone t))
  | wake (c : C) (hok : (s.phase c).isGone = true → s.slot c ≠ .granted) :
      StepCases (.wake c) (wake k maxWriteLockCount s c)
  | merge (c : C) : StepCases (.merge c) (merge s c)
  | downgradeLock (c : C) (d : Duration) (ticket : T) (type : MdlType) (idle : s.phase c = .idle)
      (own : ticket ∈ s.tickets c d) :
      StepCases (.downgradeLock c ticket type) (downgradeLock k maxWriteLockCount s ticket type)
  | releaseLock (c : C) (d : Duration) (ticket : T) (idle : s.phase c = .idle)
      (own : ticket ∈ s.tickets c d) :
      StepCases (.releaseLock c d ticket) (releaseLock k maxWriteLockCount s c d ticket)
  | reuse (n : ℕ) :
      StepCases (.reuse n) { s with lock := { s.lock with hogLockCount := n } }

theorem TryCases.step {r : State C T × TryResult T} (h : TryCases k s c type d r)
    (hidle : s.phase c = .idle) {op : Op C T} : StepCases k s maxWriteLockCount op r.1 := by
  cases h with
  | error | reused t hown hs => exact .same
  | entered t hg hw hc => exact .entered c type d t hidle hg hw hc
  | refused t hg hw hb => exact .refused c type t hg hw

theorem step_cases (h : Inv k s) {op : Op C T} (hok : StepOk k s op) (maxWriteLockCount : ℕ) :
    StepCases k s maxWriteLockCount op (step k maxWriteLockCount s op) := by
  rw [step]
  split_ifs with hen
  swap
  · exact .same
  cases op with
  | tryAcquireLock c type d new =>
    simp only [Enabled, Bool.and_eq_true, decide_eq_true_iff] at hen
    exact (tryAcquireLockImpl_cases h hen.2).step (Phase.eq_idle hen.1)
  | acquireLock c type d noWait new =>
    simp only [Enabled, Bool.and_eq_true, decide_eq_true_iff] at hen
    exact .acquireLock c type d noWait new (Phase.eq_idle hen.1) hen.2
  | cloneTicket c type d source new =>
    simp only [Enabled, Bool.and_eq_true, decide_eq_true_iff] at hen
    obtain ⟨⟨⟨hidle, hfresh⟩, hsource⟩, hs⟩ := hen
    exact (cloneTicket_cases h hfresh hsource hs hok).step (Phase.eq_idle hidle)
  | upgradeSharedLock c ticket newType noWait new =>
    simp only [Enabled, Bool.and_eq_true, decide_eq_true_iff] at hen
    obtain ⟨⟨hidle, hfresh⟩, hown⟩ := hen
    rw [perform, Mdl.upgradeSharedLock]
    split_ifs with hs
    · exact .same
    · exact .upgradeSharedLock c ticket newType noWait new (Phase.eq_idle hidle) hfresh
        (exists_held hown) hs
  | closeSlot c killed =>
    refine .setStatus c (if killed then .killed else .timeout) ?_
    cases killed <;> decide
  | victim c => exact .setStatus c .victim (by decide)
  | clientGone c =>
    rw [perform]
    cases hp : s.phase c with
    | idle | gone t | merging u x => exact .same
    | waits t d upgrade => exact .clientGone c t (by rw [hp]; rfl)
  | wake c => exact .wake c hok
  | merge c => exact .merge c
  | downgradeLock c ticket type =>
    simp only [Enabled, Bool.and_eq_true] at hen
    obtain ⟨d, hd⟩ := exists_held hen.2
    exact .downgradeLock c d ticket type (Phase.eq_idle hen.1) hd
  | releaseLock c d ticket =>
    simp only [Enabled, Bool.and_eq_true, decide_eq_true_iff] at hen
    exact .releaseLock c d ticket (Phase.eq_idle hen.1) hen.2
  | reuse n => exact .reuse n

variable [Fintype T]

theorem step_inv (hcard : card T < 2 ^ 32) (h : Inv k s) {op : Op C T}
    (hok : StepOk k s op) : Inv k (step k maxWriteLockCount s op) := by
  have hcases := step_cases h hok maxWriteLockCount
  generalize step k maxWriteLockCount s op = s' at hcases ⊢
  cases hcases with
  | same => exact h
  | entered c type d t hidle hg hw hc =>
    have henter := h.enter (d := d) hcard hidle hg hw hc (.inl rfl)
    rwa [setPhase_eq (by exact hidle)] at henter
  | refused c type t hg hw => exact h.create hg hw c type
  | acquireLock c type d noWait new hidle hfresh =>
    exact h.acquireLock hcard hidle hfresh (fun u hu => absurd hu (by simp))
  | upgradeSharedLock c ticket newType noWait new hidle hfresh hown hs =>
    refine h.acquireLock hcard hidle hfresh ?_
    rintro u hu
    cases hu
    exact ⟨rfl, rfl, ⟨hown, by simpa using hs⟩, rfl, rfl⟩
  | setStatus c status hs => exact h.setStatus c hs
  | clientGone c t hp => exact h.clientGone hp
  | wake c hok => exact h.wake hcard hok
  | merge c => exact h.merge hcard c
  | downgradeLock c d ticket type hidle hd =>
    exact h.downgradeLock hcard hidle hd
  | releaseLock c d ticket hidle hd => exact h.releaseLock hcard hidle hd
  | reuse n => exact ⟨h.lock, h.waiting_phase, h.ctx⟩

theorem run_inv (hcard : card T < 2 ^ 32) (maxWriteLockCount : ℕ) (ops : List (Op C T))
    (h : Inv k s) (hok : AllSteps k maxWriteLockCount (StepOk k) s ops) :
    Inv k (run k maxWriteLockCount s ops) := by
  induction ops generalizing s with
  | nil => exact h
  | cons op ops ih => exact ih (step_inv hcard h hok.1) hok.2

/-- **Exclusion.**  In every state that a run reaches, granted tickets of different contexts are
compatible in both directions, and the bitmaps and counters of both lists are exact. -/
theorem run_exclusive (hcard : card T < 2 ^ 32) (k : LockStrategy) (maxWriteLockCount : ℕ)
    (mem : T → Ticket C) (ops : List (Op C T))
    (hok : AllSteps k maxWriteLockCount (StepOk k) (State.init mem) ops) :
    let s := run k maxWriteLockCount (State.init mem) ops
    (∀ a ∈ s.lock.granted.list, ∀ b ∈ s.lock.granted.list, (s.mem a).ctx ≠ (s.mem b).ctx →
      Compatible k (s.mem a).type (s.mem b).type ∧ Compatible k (s.mem b).type (s.mem a).type) ∧
    Describes s.mem s.lock.granted ∧ Describes s.mem s.lock.waiting := by
  have h := run_inv hcard maxWriteLockCount ops (Inv.init k mem) hok
  refine ⟨?_, h.lock.granted, h.lock.waiting⟩
  intro a ha b hb hab
  exact ⟨h.lock.exclusive a ha b hb hab, h.lock.exclusive b hb a ha (Ne.symm hab)⟩

/-- A table is altered: an upgradable lock is upgraded to an exclusive one, which waits for a
reader, a writer queues up behind it, and the lock is downgraded and released. -/
def sampleOps : List (Op (Fin 3) (Fin 4)) :=
  [.acquireLock 0 .sharedUpgradable .transaction false (some 0),
    .acquireLock 1 .sharedRead .transaction false (some 1),
    .upgradeSharedLock 0 0 .exclusive false (some 2),
    .acquireLock 2 .sharedWrite .transaction false (some 3),
    .releaseLock 1 .transaction 1, .wake 0, .merge 0, .downgradeLock 0 0 .sharedNoReadWrite,
    .tryAcquireLock 1 .sharedHighPrio .explicit (some 1), .closeSlot 2 true, .wake 2]

/-- Memory before the first ticket. -/
def noTickets {n m : ℕ} : Fin m → Ticket (Fin (n + 1)) := fun _ => ⟨0, .intentionExclusive⟩

theorem run_exclusive_sampleOps :
    let s := run .objectLock 4294967295 (State.init noTickets) sampleOps
    s.lock.granted.list = [0, 1] ∧ s.lock.waiting.list = [] ∧
      (∀ a ∈ s.lock.granted.list, ∀ b ∈ s.lock.granted.list, (s.mem a).ctx ≠ (s.mem b).ctx →
        Compatible .objectLock (s.mem a).type (s.mem b).type ∧
          Compatible .objectLock (s.mem b).type (s.mem a).type) ∧
      Describes s.mem s.lock.granted ∧ Describes s.mem s.lock.waiting :=
  ⟨by decide +kernel, by decide +kernel,
    run_exclusive (by decide) .objectLock 4294967295 noTickets sampleOps (by decide +kernel)⟩

/-- A session waits for a no-read-no-write lock when its client goes away.  Before it gets the
lock's mutex to take its ticket back, the reader that it waited for releases its lock, and the
request is granted. -/
def goneOps : List (Op (Fin 3) (Fin 3)) :=
  [.acquireLock 1 .sharedHighPrio .transaction false (some 0),
    .acquireLock 0 .sharedRead .transaction false (some 1),
    .acquireLock 2 .sharedNoReadWrite .transaction false (some 2),
    .clientGone 2, .releaseLock 0 .transaction 1, .wake 2]

/-- After `goneOps` a second session waits for the same type, gets the lock and releases it; a
reader comes, and the last granted lock goes. -/
def stuckOps : List (Op (Fin 3) (Fin 3)) :=
  goneOps ++
    [.acquireLock 0 .sharedRead .transaction false (some 1),
      .acquireLock 2 .sharedNoReadWrite .transaction false (some 2),
      .releaseLock 0 .transaction 1, .wake 2, .releaseLock 2 .transaction 2,
      .acquireLock 0 .sharedRead .transaction false (some 1), .releaseLock 1 .transaction 0]

instance (mem : T → Ticket C) (l : TicketList T) : Decidable (Describes mem l) :=
  decidable_of_iff
    ((∀ type, type ∈ l.bitmap ↔ ∃ t ∈ l.list, (mem t).type = type) ∧
      ∀ type, (l.typeCounters type).toNat = l.list.countP fun t => decide ((mem t).type = type))
    ⟨fun h => ⟨h.1, h.2⟩, fun h => ⟨h.bitmap, h.counters⟩⟩

/-- The ticket leaves the granted list but is counted out of the waiting list, whose counter falls
below zero; the granted list keeps the bit and the count of a type that is not in it. -/
theorem gone_waiter_miscounts :
    let s := run .objectLock 4294967295 (State.init noTickets) goneOps
    s.lock.granted.list = [0] ∧ s.lock.waiting.list = [] ∧
      s.lock.waiting.typeCounters .sharedNoReadWrite = 4294967295 ∧
      .sharedNoReadWrite ∈ s.lock.granted.bitmap ∧
      ¬ Describes s.mem s.lock.granted ∧ ¬ Describes s.mem s.lock.waiting := by
  decide +kernel

end Mdl
