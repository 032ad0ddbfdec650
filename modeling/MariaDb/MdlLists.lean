/-
**The lists of a metadata lock, and one pass over its waiters.**

The bitmap and the counters of a ticket list say which types are in the list, as long as every
ticket leaves the list that it is counted in.  With that, `can_grant_lock` refuses a request exactly
when it is *blocked*: by a granted ticket of another context, or by a waiting ticket with priority.

`reschedule_waiters` looks at every waiting ticket once.  A ticket that was blocked when the pass
came to it is still blocked at the end, although tickets behind it have been granted in the meantime
and no longer wait: what has priority over a request is also incompatible with it once granted.

Main definitions:

* `Describes`: bitmap and counters are those of the list;
* `Blocked`: a request cannot be granted;
* `LockOk`: the invariant of a lock and its wait slots;
* `Moved`: what a pass over the waiters changes.

Main results:

* `rescheduleLoop_spec`: **one pass is enough**: the invariant is kept and whoever still waits with
  an empty slot is blocked or was skipped.
-/

import MariaDb.Mdl
import Mathlib.Data.Finset.Max
import Mathlib.Data.List.Nodup

set_option autoImplicit false

namespace Mdl

open Function List TicketList

variable {C T : Type}

/-! ### Bitmaps and counters -/

/-- The bitmap and the counters of a list are those of the types in it. -/
structure Describes (mem : T → Ticket C) (l : TicketList T) : Prop where
  bitmap : ∀ type, type ∈ l.bitmap ↔ ∃ t ∈ l.list, (mem t).type = type
  counters : ∀ type, (l.typeCounters type).toNat =
    l.list.countP fun t => decide ((mem t).type = type)

theorem Describes.empty (mem : T → Ticket C) : Describes mem TicketList.empty := by
  constructor <;> simp [TicketList.empty]

variable {mem : T → Ticket C} {l : TicketList T} {t : T} {type : MdlType} {slot : C → WaitStatus}

def countType (mem : T → Ticket C) (l : List T) (type : MdlType) : ℕ :=
  l.countP fun t => decide ((mem t).type = type)

theorem countType_pos {l : List T} : 0 < countType mem l type ↔ ∃ t ∈ l, (mem t).type = type := by
  simp [countType]

theorem Describes.congr {mem' : T → Ticket C} (h : Describes mem l)
    (hm : ∀ t ∈ l.list, mem' t = mem t) : Describes mem' l := by
  constructor
  · intro type
    rw [h.bitmap]
    exact exists_congr fun t => and_congr_right fun ht => by rw [hm t ht]
  · intro type
    rw [h.counters]
    refine countP_congr ?_
    intro t ht
    rw [hm t ht]

theorem Describes.addTicket (h : Describes mem l) (ht : (mem t).type = type)
    (hlen : l.list.length + 1 < 2 ^ 32) : Describes mem (l.addTicket t type) := by
  constructor
  · intro type'
    simp only [TicketList.addTicket, Finset.mem_insert, h.bitmap, mem_append, mem_singleton,
      or_and_right, exists_or, exists_eq_left, ht]
    rw [or_comm, eq_comm]
  · intro type'
    have hle : l.list.countP (fun u => decide ((mem u).type = type)) ≤ l.list.length :=
      countP_le_length
    simp only [TicketList.addTicket, countP_append, countP_singleton, ht]
    by_cases hty : type' = type
    · subst hty
      rw [update_self, UInt32.toNat_add, h.counters]
      simp
      omega
    · rw [update_of_ne hty, h.counters]
      simp [Ne.symm hty]

section

variable [DecidableEq T]

/-- Removing a ticket from the list that it is counted in. -/
theorem Describes.removeTicket (h : Describes mem l) (hmem : t ∈ l.list) (ht : (mem t).type = type) :
    Describes mem ((l.unlink t).discount type) := by
  have hpos : 0 < countType mem l.list type := countType_pos.2 ⟨t, hmem, ht⟩
  have hcount : ∀ type', countType mem (l.list.erase t) type' =
      countType mem l.list type' - if type' = type then 1 else 0 := by
    intro type'
    rw [countType, countType, countP_erase]
    by_cases hty : type' = type
    · simp [hmem, ht, hty]
    · simp [ht, hty, Ne.symm hty]
  have hdec : (l.typeCounters type - 1).toNat = countType mem l.list type - 1 := by
    rw [UInt32.toNat_sub_of_le, h.counters]
    · rfl
    · rw [UInt32.le_iff_toNat_le, h.counters]
      exact hpos
  constructor
  · intro type'
    -- the bit of the removed type goes exactly when no ticket of that type is left
    have hold : type' ∈ l.bitmap ↔ 0 < countType mem l.list type' := by
      rw [h.bitmap, countType_pos]
    have hzero : l.typeCounters type - 1 = 0 ↔ countType mem l.list type = 1 := by
      rw [← UInt32.toNat_inj, hdec]
      simp
      omega
    show type' ∈ (if l.typeCounters type - 1 = 0 then l.bitmap.erase type else l.bitmap) ↔ _
    rw [← countType_pos, discount, unlink, hcount]
    split_ifs with h0 hty hty
    · subst hty
      simp [hzero.1 h0]
    · rw [Finset.mem_erase, hold]
      simp [hty]
    · subst hty
      have hne := mt hzero.2 h0
      rw [hold]
      omega
    · rw [hold, Nat.sub_zero]
  · intro type'
    refine Eq.trans ?_ (hcount type').symm
    simp only [discount, unlink]
    by_cases hty : type' = type
    · subst hty
      rw [update_self, hdec, if_pos rfl]
    · rw [update_of_ne hty, h.counters, if_neg hty]
      rfl

theorem TicketList.unlink_of_not_mem (h : t ∉ l.list) : l.unlink t = l := by
  rw [unlink, erase_of_not_mem h]

end

/-! ### Blocked requests -/

/-- A request cannot be granted: a granted ticket of another context is incompatible with it, or,
unless priorities are ignored, a ticket that waits has priority over it. -/
def Blocked (k : LockStrategy) (mem : T → Ticket C) (g w : TicketList T) (type : MdlType) (ctx : C)
    (ignoreLockPriority : Bool) : Prop :=
  (∃ t ∈ g.list, (mem t).ctx ≠ ctx ∧ (mem t).type ∈ grantedIncompatible k type) ∨
    (ignoreLockPriority = false ∧ ∃ t ∈ w.list, (mem t).type ∈ waitingIncompatible k type)

theorem inter_ne_empty_iff (h : Describes mem l) (row : Bitmap) :
    l.bitmap ∩ row ≠ ∅ ↔ ∃ t ∈ l.list, (mem t).type ∈ row := by
  rw [← Finset.nonempty_iff_ne_empty]
  constructor
  · rintro ⟨type, hty⟩
    rw [Finset.mem_inter, h.bitmap] at hty
    obtain ⟨⟨t, ht, rfl⟩, hrow⟩ := hty
    exact ⟨t, ht, hrow⟩
  · rintro ⟨t, ht, hrow⟩
    exact ⟨(mem t).type, Finset.mem_inter.2 ⟨(h.bitmap _).2 ⟨t, ht, rfl⟩, hrow⟩⟩

section

variable [DecidableEq C]

/-- `can_grant_lock` refuses exactly the blocked requests. -/
theorem canGrantLock_eq_false_iff {k : LockStrategy} {l : Lock T} {ctx : C} {ignore : Bool}
    (hg : Describes mem l.granted) (hw : Describes mem l.waiting) :
    canGrantLock k mem l type ctx ignore = false ↔
      Blocked k mem l.granted l.waiting type ctx ignore := by
  have hpri := inter_ne_empty_iff hw (waitingIncompatible k type)
  have hinc := inter_ne_empty_iff hg (grantedIncompatible k type)
  rw [canGrantLock, Blocked]
  split_ifs with h1 h2
  · rw [Bool.and_eq_true, decide_eq_true_iff, hpri] at h1
    simp only [true_iff]
    exact .inr ⟨by simpa using h1.1, h1.2⟩
  · rw [Bool.and_eq_true, decide_eq_true_iff, hpri] at h1
    have hno : ¬ (ignore = false ∧ ∃ t ∈ l.waiting.list, (mem t).type ∈ waitingIncompatible k type) :=
      fun h => h1 ⟨by simp [h.1], h.2⟩
    simp only [hno, or_false]
    simp
  · rw [Bool.and_eq_true, decide_eq_true_iff, hpri] at h1
    rw [hinc] at h2
    simp only [false_iff]
    rintro (⟨t, ht, -, htr⟩ | ⟨hi, hu⟩)
    · exact h2 ⟨t, ht, htr⟩
    · exact h1 ⟨by simp [hi], hu⟩

end

/-! ### The invariant of a lock -/

/-- The lists of a lock and the wait slots of the contexts. -/
structure LockOk (k : LockStrategy) (mem : T → Ticket C) (g w : TicketList T)
    (slot : C → WaitStatus) : Prop where
  granted : Describes mem g
  waiting : Describes mem w
  nodup : (g.list ++ w.list).Nodup
  exclusive : ∀ a ∈ g.list, ∀ b ∈ g.list, (mem a).ctx ≠ (mem b).ctx →
    Compatible k (mem a).type (mem b).type
  one_wait : ∀ a ∈ w.list, ∀ b ∈ w.list, (mem a).ctx = (mem b).ctx → a = b
  slot_waiting : ∀ t ∈ w.list, slot (mem t).ctx ≠ .granted

namespace LockOk

theorem length_add_one_lt [Fintype T] (hcard : Fintype.card T < 2 ^ 32) {l : List T} (hn : l.Nodup)
    (ht : t ∉ l) : l.length + 1 < 2 ^ 32 := by
  have hcons : (t :: l).Nodup := nodup_cons.2 ⟨ht, hn⟩
  have hle := hcons.length_le_card
  rw [length_cons] at hle
  omega

variable {k : LockStrategy} {mem mem' : T → Ticket C} {g w : TicketList T} {slot : C → WaitStatus}
  (h : LockOk k mem g w slot)
include h

theorem granted_nodup : g.list.Nodup :=
  (nodup_append.1 h.nodup).1

theorem waiting_nodup : w.list.Nodup :=
  (nodup_append.1 h.nodup).2.1

theorem not_waiting (ht : t ∈ g.list) : t ∉ w.list :=
  fun hw => (nodup_append.1 h.nodup).2.2 t ht t hw rfl

/-- The invariant reads nothing of the memory but the tickets in the lists. -/
theorem congr_mem (hg : ∀ t ∈ g.list, mem' t = mem t)
    (hw : ∀ t ∈ w.list, mem' t = mem t) : LockOk k mem' g w slot where
  granted := h.granted.congr hg
  waiting := h.waiting.congr hw
  nodup := h.nodup
  exclusive := by
    intro a ha b hb
    rw [hg a ha, hg b hb]
    exact h.exclusive a ha b hb
  one_wait := by
    intro a ha b hb
    rw [hw a ha, hw b hb]
    exact h.one_wait a ha b hb
  slot_waiting := by
    intro t ht
    rw [hw t ht]
    exact h.slot_waiting t ht

theorem congr_slot {slot' : C → WaitStatus}
    (hs : ∀ t ∈ w.list, slot' (mem t).ctx ≠ .granted) : LockOk k mem g w slot' :=
  ⟨h.granted, h.waiting, h.nodup, h.exclusive, h.one_wait, hs⟩

section

omit h in
/-- One more element, for a property of two elements that does not depend on their order. -/
theorem forall_pairs {l : List T} {R : T → T → Prop} (hsymm : ∀ a b, R a b → R b a)
    (hl : ∀ a ∈ l, ∀ b ∈ l, R a b) (ht : R t t) (hlt : ∀ a ∈ l, R a t) :
    ∀ a ∈ l ++ [t], ∀ b ∈ l ++ [t], R a b := by
  simp only [forall_mem_append, forall_mem_singleton]
  exact ⟨fun a ha => ⟨hl a ha, hlt a ha⟩, fun b hb => hsymm b t (hlt b hb), ht⟩

variable [Fintype T] (hcard : Fintype.card T < 2 ^ 32)
include hcard

section

variable (ht : (mem t).type = type) (hg : t ∉ g.list) (hw : t ∉ w.list)
include ht hg hw

/-- A new ticket that no granted one is against enters the granted list. -/
theorem addGranted (hc : ∀ a ∈ g.list, (mem a).ctx ≠ (mem t).ctx → Compatible k (mem a).type type) :
    LockOk k mem (g.addTicket t type) w slot where
  granted := h.granted.addTicket ht (length_add_one_lt hcard h.granted_nodup hg)
  waiting := h.waiting
  nodup := by
    have hmid : (g.list ++ t :: w.list).Nodup := by
      rw [nodup_middle, nodup_cons]
      exact ⟨by simp [hg, hw], h.nodup⟩
    simpa [TicketList.addTicket] using hmid
  exclusive := forall_pairs (fun _ _ hab hne => (hab hne.symm).symm) h.exclusive
    (fun hne => absurd rfl hne) fun a ha hne => ht ▸ hc a ha hne
  one_wait := h.one_wait
  slot_waiting := h.slot_waiting

/-- A new ticket of a context that does not wait enters the waiting list. -/
theorem addWaiting
    (hone : ∀ a ∈ w.list, (mem a).ctx ≠ (mem t).ctx) (hslot : slot (mem t).ctx ≠ .granted) :
    LockOk k mem g (w.addTicket t type) slot where
  granted := h.granted
  waiting := h.waiting.addTicket ht (length_add_one_lt hcard h.waiting_nodup hw)
  nodup := by
    have happ : (g.list ++ w.list ++ [t]).Nodup :=
      h.nodup.append (by simp) (by simp [hg, hw])
    simpa [TicketList.addTicket] using happ
  exclusive := h.exclusive
  one_wait := forall_pairs (fun _ _ hab he => (hab he.symm).symm) h.one_wait (fun _ => rfl)
    fun a ha he => absurd he (hone a ha)
  slot_waiting := forall_mem_append.2 ⟨h.slot_waiting, forall_mem_singleton.2 hslot⟩

end

end

section

variable [DecidableEq T]

theorem removeGranted (ht : (mem t).type = type) (hg : t ∈ g.list) :
    LockOk k mem ((g.unlink t).discount type) w slot where
  granted := h.granted.removeTicket hg ht
  waiting := h.waiting
  nodup := List.Nodup.sublist (Sublist.append_right erase_sublist _) h.nodup
  exclusive a ha b hb :=
    h.exclusive a (mem_of_mem_erase ha) b (mem_of_mem_erase hb)
  one_wait := h.one_wait
  slot_waiting := h.slot_waiting

theorem removeWaiting (ht : (mem t).type = type) (hw : t ∈ w.list) :
    LockOk k mem g ((w.unlink t).discount type) slot where
  granted := h.granted
  waiting := h.waiting.removeTicket hw ht
  nodup := List.Nodup.sublist (Sublist.append_left erase_sublist _) h.nodup
  exclusive := h.exclusive
  one_wait a ha b hb :=
    h.one_wait a (mem_of_mem_erase ha) b (mem_of_mem_erase hb)
  slot_waiting t ht := h.slot_waiting t (mem_of_mem_erase ht)

variable [Fintype T] (hcard : Fintype.card T < 2 ^ 32)
include hcard

/-- A granted ticket changes its type, and no granted one is against it. -/
theorem retype (hg : t ∈ g.list)
    (hc : ∀ a ∈ g.list, (mem a).ctx ≠ (mem t).ctx → Compatible k (mem a).type type) :
    LockOk k (update mem t ⟨(mem t).ctx, type⟩)
      (((g.unlink t).discount (mem t).type).addTicket t type) w slot := by
  have hg' : t ∉ g.list.erase t := by
    rw [h.granted_nodup.mem_erase_iff]
    exact fun hm => hm.1 rfl
  have hw : t ∉ w.list := h.not_waiting hg
  have hne : ∀ {l : List T} {u : T}, t ∉ l → u ∈ l →
      update mem t ⟨(mem t).ctx, type⟩ u = mem u := by
    rintro l u ht hu
    refine update_of_ne ?_ _ _
    rintro rfl
    exact ht hu
  refine ((h.removeGranted rfl hg).congr_mem (fun u hu => hne hg' hu)
    (fun u hu => hne hw hu)).addGranted hcard ?_ hg' hw ?_
  · rw [update_self]
  · intro a ha
    rw [hne hg' ha, update_self]
    exact hc a (mem_of_mem_erase ha)

variable [DecidableEq C]

/-- A waiting ticket that no granted one is against moves to the granted list, and the slot of its
context says so. -/
theorem grant (hw : t ∈ w.list)
    (hc : ∀ a ∈ g.list, (mem a).ctx ≠ (mem t).ctx → Compatible k (mem a).type (mem t).type) :
    LockOk k mem (g.addTicket t (mem t).type) ((w.unlink t).discount (mem t).type)
      (update slot (mem t).ctx .granted) := by
  have hg : t ∉ g.list := fun hg => h.not_waiting hg hw
  have herase : t ∉ w.list.erase t := by
    rw [h.waiting_nodup.mem_erase_iff]
    exact fun hm => hm.1 rfl
  refine ((h.removeWaiting rfl hw).addGranted hcard rfl hg herase hc).congr_slot ?_
  intro a ha
  obtain ⟨hne, ha⟩ := h.waiting_nodup.mem_erase_iff.1 ha
  have hctx : (mem a).ctx ≠ (mem t).ctx := fun he => hne (h.one_wait a ha t hw he)
  rw [update_of_ne hctx]
  exact h.slot_waiting a ha

end

end LockOk

/-! ### What a pass over the waiters changes -/

/-- Tickets moved from the waiting to the granted list, with the slots of their contexts. -/
structure Moved (mem : T → Ticket C) (g w g' w' : TicketList T) (slot slot' : C → WaitStatus) :
    Prop where
  waiting_subset : ∀ t ∈ w'.list, t ∈ w.list
  granted_iff : ∀ t, t ∈ g'.list ↔ t ∈ g.list ∨ (t ∈ w.list ∧ t ∉ w'.list)
  slot_moved : ∀ t ∈ w.list, t ∉ w'.list → slot (mem t).ctx = .empty ∧ slot' (mem t).ctx = .granted
  slot_kept : ∀ c, (∀ t ∈ w.list, t ∉ w'.list → (mem t).ctx ≠ c) → slot' c = slot c

namespace Moved

variable {k : LockStrategy} {mem : T → Ticket C} {g w g' w' g'' w'' : TicketList T}
  {slot slot' slot'' : C → WaitStatus}

theorem refl (mem : T → Ticket C) (g w : TicketList T) (slot : C → WaitStatus) :
    Moved mem g w g w slot slot where
  waiting_subset _ ht := ht
  granted_iff t := by simp
  slot_moved t ht hn := absurd ht hn
  slot_kept _ _ := rfl

theorem trans (h : Moved mem g w g' w' slot slot') (h' : Moved mem g' w' g'' w'' slot' slot'')
    (hok' : LockOk k mem g' w' slot') : Moved mem g w g'' w'' slot slot'' where
  waiting_subset t ht := h.waiting_subset t (h'.waiting_subset t ht)
  granted_iff t := by
    have hsub := h.waiting_subset t
    have hsub' := h'.waiting_subset t
    rw [h'.granted_iff, h.granted_iff]
    tauto
  slot_moved t ht hn := by
    by_cases hm : t ∈ w'.list
    · -- moved by the second part; the first left the slot of its context alone
      obtain ⟨hempty, hgranted⟩ := h'.slot_moved t hm hn
      refine ⟨?_, hgranted⟩
      by_cases hfirst : ∀ u ∈ w.list, u ∉ w'.list → (mem u).ctx ≠ (mem t).ctx
      · rw [← h.slot_kept _ hfirst]
        exact hempty
      simp only [not_forall, not_not] at hfirst
      obtain ⟨u, hu, hun, hctx⟩ := hfirst
      have := (h.slot_moved u hu hun).2
      rw [hctx, hempty] at this
      exact absurd this (by decide)
    · obtain ⟨hempty, hgranted⟩ := h.slot_moved t ht hm
      refine ⟨hempty, ?_⟩
      rw [h'.slot_kept, hgranted]
      intro u hu _ hctx
      exact hok'.slot_waiting u hu (by rw [hctx]; exact hgranted)
  slot_kept c hc := by
    rw [h'.slot_kept, h.slot_kept]
    · intro t ht hn
      exact hc t ht fun hm => hn (h'.waiting_subset t hm)
    · intro t ht hn
      exact hc t (h.waiting_subset t ht) hn

theorem grant [DecidableEq T] [DecidableEq C] (h : LockOk k mem g w slot) (hw : t ∈ w.list)
    (hempty : slot (mem t).ctx = .empty) :
    Moved mem g w (g.addTicket t (mem t).type) ((w.unlink t).discount (mem t).type) slot
      (update slot (mem t).ctx .granted) := by
  have herase : ∀ u, u ∈ w.list.erase t ↔ u ≠ t ∧ u ∈ w.list := fun u =>
    h.waiting_nodup.mem_erase_iff
  have hmoved : ∀ u ∈ w.list, u ∉ w.list.erase t → u = t := by
    intro u hu hn
    by_contra hne
    exact hn ((herase u).2 ⟨hne, hu⟩)
  constructor
  · intro u hu
    exact ((herase u).1 hu).2
  · intro u
    simp only [TicketList.addTicket, discount, unlink, mem_append, mem_singleton]
    refine or_congr Iff.rfl ?_
    constructor
    · rintro rfl
      exact ⟨hw, fun hm => ((herase u).1 hm).1 rfl⟩
    · rintro ⟨hu, hn⟩
      exact hmoved u hu hn
  · intro u hu hn
    rw [hmoved u hu hn]
    exact ⟨hempty, update_self ..⟩
  · intro c hc
    refine update_of_ne ?_ _ _
    rintro rfl
    exact hc t hw (fun hm => ((herase t).1 hm).1 rfl) rfl

/-- A ticket that waits throughout stays blocked: what has priority over it is incompatible with it
once it is granted. -/
theorem blocked (h : Moved mem g w g' w' slot slot') (hok : LockOk k mem g w slot) {ignore : Bool}
    (ht : t ∈ w'.list) (hb : Blocked k mem g w (mem t).type (mem t).ctx ignore) :
    Blocked k mem g' w' (mem t).type (mem t).ctx ignore := by
  rcases hb with ⟨a, ha, hctx, hinc⟩ | ⟨hi, a, ha, hpri⟩
  · exact .inl ⟨a, (h.granted_iff a).2 (.inl ha), hctx, hinc⟩
  by_cases hm : a ∈ w'.list
  · exact .inr ⟨hi, a, hm, hpri⟩
  refine .inl ⟨a, (h.granted_iff a).2 (.inr ⟨ha, hm⟩), ?_, waitingIncompatible_subset k _ _ hpri⟩
  intro hctx
  rw [hok.one_wait a ha t (h.waiting_subset t ht) hctx] at hm
  exact hm ht

end Moved

/-! ### The pass -/

section

variable [DecidableEq T] {k : LockStrategy} {mem : T → Ticket C}

/-- In a non-empty queue some ticket has no other one with priority over it. -/
theorem exists_unpreceded (k : LockStrategy) (mem : T → Ticket C) {w : TicketList T}
    (hw : w.list ≠ []) :
    ∃ t ∈ w.list, ∀ u ∈ w.list, (mem u).type ∉ waitingIncompatible k (mem t).type := by
  obtain ⟨a, ha⟩ := exists_mem_of_ne_nil _ hw
  obtain ⟨t, ht, hmax⟩ := Finset.exists_max_image w.list.toFinset
    (fun u => priority k (mem u).type) ⟨a, by simpa using ha⟩
  refine ⟨t, by simpa using ht, ?_⟩
  intro u hu hpri
  have hlt := priority_lt k _ _ hpri
  have hle := hmax u (by simpa using hu)
  omega

variable [DecidableEq C] [Fintype T] (hcard : Fintype.card T < 2 ^ 32)
include hcard

/-- The loop of `reschedule_waiters`, from any point on: the invariant is kept, tickets only move
from the waiting to the granted list, and a ticket that the loop has come to and that still waits
with an empty slot was skipped or is blocked. -/
theorem rescheduleLoop_spec (skip : Bool) (it : List T)
    (l : Lock T) (slot : C → WaitStatus) (hok : LockOk k mem l.granted l.waiting slot)
    (hit : ∀ t ∈ it, t ∈ l.waiting.list) (hn : it.Nodup) :
    let r := rescheduleLoop k mem skip it l slot
    LockOk k mem r.1.granted r.1.waiting r.2 ∧
      Moved mem l.granted l.waiting r.1.granted r.1.waiting slot r.2 ∧
      ∀ t ∈ it, t ∈ r.1.waiting.list → r.2 (mem t).ctx = .empty →
        (skip = true ∧ (mem t).type ∈ hogLockTypes k) ∨
          Blocked k mem r.1.granted r.1.waiting (mem t).type (mem t).ctx skip := by
  induction it generalizing l slot with
  | nil => exact ⟨hok, Moved.refl .., by simp⟩
  | cons t it ih =>
    obtain ⟨htit, hn⟩ := nodup_cons.1 hn
    have htw : t ∈ l.waiting.list := hit t (by simp)
    have hit' : ∀ u ∈ it, u ∈ l.waiting.list := fun u hu => hit u (by simp [hu])
    have hcan : canGrantLock k mem l (mem t).type (mem t).ctx skip = false ↔
        Blocked k mem l.granted l.waiting (mem t).type (mem t).ctx skip :=
      canGrantLock_eq_false_iff hok.granted hok.waiting
    rw [rescheduleLoop]
    by_cases hskip : (skip && decide ((mem t).type ∈ hogLockTypes k)) = true
    · -- a strong lock gives way
      rw [if_pos hskip]
      obtain ⟨h1, h2, h3⟩ := ih l slot hok hit' hn
      exact ⟨h1, h2, forall_mem_cons.2 ⟨fun _ _ => .inl (by simpa using hskip), h3⟩⟩
    rw [if_neg hskip]
    by_cases hgrant : (canGrantLock k mem l (mem t).type (mem t).ctx skip &&
        decide (slot (mem t).ctx = .empty)) = true
    · -- the request is granted
      rw [if_pos hgrant]
      rw [Bool.and_eq_true, decide_eq_true_iff] at hgrant
      have hnb : ¬ Blocked k mem l.granted l.waiting (mem t).type (mem t).ctx skip := by
        rw [← hcan, hgrant.1]
        decide
      have hc : ∀ a ∈ l.granted.list, (mem a).ctx ≠ (mem t).ctx →
          Compatible k (mem a).type (mem t).type := by
        intro a ha hctx
        exact Compatible.symm fun hinc => hnb (.inl ⟨a, ha, hctx, hinc⟩)
      have hl : ((l.removeWaiting t (mem t).type).addGranted t (mem t).type).granted =
          l.granted.addTicket t (mem t).type := by
        have hg : t ∉ l.granted.list := fun hg => hok.not_waiting hg htw
        simp only [Lock.addGranted, Lock.removeWaiting, unlink_of_not_mem hg]
      have hmoved := Moved.grant hok htw hgrant.2
      have hok' := hok.grant hcard htw hc
      rw [← hl] at hmoved hok'
      obtain ⟨h1, h2, h3⟩ := ih
        { (l.removeWaiting t (mem t).type).addGranted t (mem t).type with
          hogLockCount :=
            if (mem t).type ∈ hogLockTypes k then l.hogLockCount + 1 else l.hogLockCount }
        (update slot (mem t).ctx .granted) hok'
        (by
          intro u hu
          refine hok.waiting_nodup.mem_erase_iff.2 ⟨?_, hit' u hu⟩
          rintro rfl
          exact htit hu)
        hn
      refine ⟨h1, hmoved.trans h2 hok', forall_mem_cons.2 ⟨fun huw => ?_, h3⟩⟩
      have htw' := h2.waiting_subset t huw
      exact absurd rfl (hok.waiting_nodup.mem_erase_iff.1 htw').1
    · -- blocked, or with a slot that is already closed
      rw [if_neg hgrant]
      obtain ⟨h1, h2, h3⟩ := ih l slot hok hit' hn
      refine ⟨h1, h2, forall_mem_cons.2 ⟨fun huw hue => .inr (h2.blocked hok huw ?_), h3⟩⟩
      have hslot : slot (mem t).ctx = .empty := by
        rw [← hue]
        refine (h2.slot_kept _ ?_).symm
        intro v hv hvn hctx
        rw [hok.one_wait v hv t htw hctx] at hvn
        exact hvn huw
      rw [← hcan]
      simpa [hslot] using hgrant

variable (maxWriteLockCount : ℕ) {l : Lock T} (hok : LockOk k mem l.granted l.waiting slot)
include hok

/-- `reschedule_waiters` keeps the invariant and moves tickets to the granted list. -/
theorem rescheduleWaiters_ok :
    let r := rescheduleWaiters k maxWriteLockCount mem l slot
    LockOk k mem r.1.granted r.1.waiting r.2 ∧
      Moved mem l.granted l.waiting r.1.granted r.1.waiting slot r.2 := by
  obtain ⟨h1, h2, -⟩ := rescheduleLoop_spec hcard (skipHighPriority k maxWriteLockCount l)
    l.waiting.list l slot hok (fun _ h => h) hok.waiting_nodup
  simp only [rescheduleWaiters]
  split_ifs <;> exact ⟨h1, h2⟩

/-- Whoever waits after `reschedule_waiters` with an empty slot is blocked, or is a strong lock that
has given way. -/
theorem rescheduleWaiters_blocked_or :
    let r := rescheduleWaiters k maxWriteLockCount mem l slot
    let skip := skipHighPriority k maxWriteLockCount l
    ∀ t ∈ r.1.waiting.list, r.2 (mem t).ctx = .empty →
      (skip = true ∧ (mem t).type ∈ hogLockTypes k) ∨
        Blocked k mem r.1.granted r.1.waiting (mem t).type (mem t).ctx skip := by
  obtain ⟨-, h2, h3⟩ := rescheduleLoop_spec hcard (skipHighPriority k maxWriteLockCount l)
    l.waiting.list l slot hok (fun _ h => h) hok.waiting_nodup
  simp only [rescheduleWaiters]
  split_ifs <;> exact fun t ht => h3 t (h2.waiting_subset t ht) ht

/-- Below the limit of strong locks, whoever still waits with an empty slot is blocked. -/
theorem rescheduleWaiters_blocked (hhog : l.hogLockCount < maxWriteLockCount) :
    let r := rescheduleWaiters k maxWriteLockCount mem l slot
    ∀ t ∈ r.1.waiting.list, r.2 (mem t).ctx = .empty →
      Blocked k mem r.1.granted r.1.waiting (mem t).type (mem t).ctx false := by
  intro r t ht he
  have hskip : skipHighPriority k maxWriteLockCount l = false := by
    rw [skipHighPriority, decide_eq_false (by omega), Bool.false_and]
  have h := rescheduleWaiters_blocked_or hcard maxWriteLockCount hok t ht he
  rw [hskip] at h
  exact h.resolve_left (by simp)

/-- After `reschedule_waiters`, a queue that is not empty waits for a granted ticket, or has a
ticket whose slot is closed and whose context will remove it. -/
theorem rescheduleWaiters_live :
    let r := rescheduleWaiters k maxWriteLockCount mem l slot
    r.1.waiting.list ≠ [] →
      r.1.granted.list ≠ [] ∨ ∃ t ∈ r.1.waiting.list, r.2 (mem t).ctx ≠ .empty := by
  intro r hne
  by_contra hcon
  rw [not_or, not_not] at hcon
  obtain ⟨hg, hcon⟩ := hcon
  have hempty : ∀ t ∈ r.1.waiting.list, r.2 (mem t).ctx = .empty := by
    intro t ht
    by_contra he
    exact hcon ⟨t, ht, he⟩
  have hnot : ∀ t ∈ r.1.waiting.list, ∀ ignore,
      Blocked k mem r.1.granted r.1.waiting (mem t).type (mem t).ctx ignore →
        ignore = false ∧ ∃ u ∈ r.1.waiting.list, (mem u).type ∈ waitingIncompatible k (mem t).type := by
    intro t ht ignore hb
    refine hb.resolve_left ?_
    rintro ⟨a, ha, -⟩
    rw [hg] at ha
    exact absurd ha not_mem_nil
  have hor := rescheduleWaiters_blocked_or (k := k) hcard maxWriteLockCount hok
  have hmoved := (rescheduleWaiters_ok (k := k) hcard maxWriteLockCount hok).2
  cases hskip : skipHighPriority k maxWriteLockCount l with
  | false =>
    obtain ⟨t, ht, htop⟩ := exists_unpreceded k mem hne
    have hb := hor t ht (hempty t ht)
    rw [hskip] at hb
    obtain ⟨-, u, hu, hpri⟩ := hnot t ht _ (hb.resolve_left (by simp))
    exact htop u hu hpri
  | true =>
    -- a weak lock waited, and nothing is granted that it could be against
    have hweak := hskip
    rw [skipHighPriority, Bool.and_eq_true, decide_eq_true_iff, decide_eq_true_iff,
      ← Finset.nonempty_iff_ne_empty] at hweak
    obtain ⟨type, htype⟩ := hweak.2
    rw [Finset.mem_sdiff, hok.waiting.bitmap] at htype
    obtain ⟨⟨t, ht, rfl⟩, hhog⟩ := htype
    have htr : t ∈ r.1.waiting.list := by
      by_contra hn
      have := (hmoved.granted_iff t).2 (.inr ⟨ht, hn⟩)
      rw [hg] at this
      exact absurd this not_mem_nil
    have hb := hor t htr (hempty t htr)
    rw [hskip] at hb
    have hfalse := (hnot t htr _ (hb.resolve_left fun h => hhog h.2)).1
    exact absurd hfalse (by decide)

end

end Mdl
