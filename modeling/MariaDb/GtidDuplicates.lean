/-
**Duplicate GTIDs are applied at most once.**

With `--gtid-ignore-duplicates` several master connections may receive the same event groups.  Before
a worker applies one it calls `check_duplicate_gtid` (sql/rpl_gtid.cc): the group is skipped if its
sequence number, or a higher one, has been applied in its domain; else the connection of the worker
has to become the owner of the domain, which counts the workers that it has there.  A worker of
another connection waits.  `update`, after a commit, and `release_domain_owner`, after a failure, give
the share of the worker back.

Every function holds `LOCK_slave_state`, which only the wait for the condition gives up, so a run is a
sequence of steps: a call, a wakeup in the loop of `check_duplicate_gtid`, a commit or a release.  Of
an element of the slave state only the fields that these functions read are kept.  A group that is
being executed has a worker thread, and there are at most 16383 of these (`slave_parallel_threads`);
what matters is that `owner_count`, of 32 bits, can count them.

Main definitions:

* `State`: the elements, the workers and the account of the commits;
* `checkDuplicateGtid`, `updateState`, `releaseDomainOwner`: the functions;
* `step`, `run`: the steps of a run;
* `Inv`: the invariant.

Main results:

* `run_duplicates`: **no GTID is committed by two connections**.
-/

import MariaDb.GtidState
import Mathlib.Data.Fintype.Card

set_option autoImplicit false

namespace Gtid.Duplicates

open Function List Finset Option

/-! ### The state -/

/-- `gtid_ignore_duplicate_state` -/
inductive DuplicateState where
  | null
  | ignore
  | owner
  deriving DecidableEq, Repr

variable {C W : Type*}

/-- The fields of `rpl_slave_state::element` that are used here; a connection is its
`Relay_log_info`. -/
structure Element (C : Type*) where
  highestSeqNo : UInt64
  ownerRli : Option C
  ownerCount : UInt32

/-- A new element of `get_element`. -/
def Element.new : Element C := ⟨0, none, 0⟩

/-- The fields of a worker's `rpl_group_info`, and whether it waits in `check_duplicate_gtid`. -/
structure GroupInfo where
  currentGtid : RplGtid
  duplicateState : DuplicateState
  waiting : Bool

/-- The slave state and the workers, with an account of the commits. -/
structure State (C W : Type*) where
  elem : UInt32 → Option (Element C)
  rgi : W → GroupInfo
  committed : List (C × RplGtid)

/-! ### The functions -/

/-- `get_element`: the element of a domain; without memory there is none if it was not there. -/
def getElement (s : State C W) (domainId : UInt32) (memory : Bool) : Option (Element C) :=
  match s.elem domainId with
  | some elem => some elem
  | none => if memory then some Element.new else none

/-- The element of a domain, whether it is there or not. -/
def State.element (s : State C W) (domainId : UInt32) : Element C :=
  (s.elem domainId).getD Element.new

section Functions

variable [DecidableEq C] [DecidableEq W]

section

variable (s : State C W)

def State.put (domainId : UInt32) (elem : Element C) (w : W) (rgi : GroupInfo) : State C W :=
  ⟨update s.elem domainId (some elem), update s.rgi w rgi, s.committed⟩

/-- The loop of `check_duplicate_gtid` up to the next wait, for a worker of the connection `rli`;
`killed` is what `check_killed` returns. -/
def checkLoop (rli : C) (w : W) (gtid : RplGtid) (elem : Element C) (killed : Bool) : State C W :=
  let rgi : GroupInfo := { s.rgi w with currentGtid := gtid, waiting := false }
  if gtid.seqNo ≤ elem.highestSeqNo then
    s.put gtid.domainId elem w { rgi with duplicateState := .ignore }
  else
    match elem.ownerRli with
    | none =>
      s.put gtid.domainId { elem with ownerRli := some rli, ownerCount := 1 } w
        { rgi with duplicateState := .owner }
    | some owner =>
      if owner = rli then
        s.put gtid.domainId { elem with ownerCount := elem.ownerCount + 1 } w
          { rgi with duplicateState := .owner }
      else if killed then s.put gtid.domainId elem w rgi
      else s.put gtid.domainId elem w { rgi with waiting := true }

/-- `check_duplicate_gtid`: when it does not wait it returns -1, 0 or 1, of which 0 is the state
`ignore` of the worker and 1 the state `owner`. -/
def checkDuplicateGtid (rli : C) (w : W) (gtid : RplGtid) (memory killed : Bool) : State C W :=
  match getElement s gtid.domainId memory with
  | none => s
  | some elem => checkLoop s rli w gtid elem killed

/-- A worker in the state `owner` gives up its share of the domain. -/
def Element.giveUp (elem : Element C) : Element C :=
  let count := elem.ownerCount - 1
  { elem with
    ownerCount := count
    ownerRli := if count = 0 then none else elem.ownerRli }

/-- The part that `update` and `release_domain_owner` have in common. -/
def giveUpOwner (elem : Element C) (rgi : GroupInfo) : Element C :=
  if rgi.duplicateState = .owner then elem.giveUp else elem

/-- `update`, after the commit of the worker's group. -/
def updateState (w : W) (memory : Bool) : State C W :=
  let rgi := s.rgi w
  match getElement s rgi.currentGtid.domainId memory with
  | none => s
  | some elem =>
    let highest :=
      if elem.highestSeqNo < rgi.currentGtid.seqNo then rgi.currentGtid.seqNo
      else elem.highestSeqNo
    s.put rgi.currentGtid.domainId (giveUpOwner { elem with highestSeqNo := highest } rgi) w
      { rgi with duplicateState := .null }

def releaseDomainOwner (w : W) (memory : Bool) : State C W :=
  let rgi := s.rgi w
  match getElement s rgi.currentGtid.domainId memory with
  | none => s
  | some elem =>
    s.put rgi.currentGtid.domainId (giveUpOwner elem rgi) w { rgi with duplicateState := .null }

end

/-! ### Runs -/

inductive Op (W : Type*) where
  /-- a worker calls `check_duplicate_gtid` for a group -/
  | check (w : W) (gtid : RplGtid) (memory killed : Bool)
  /-- a waiting worker wakes up -/
  | wake (w : W) (killed : Bool)
  /-- a worker that was told to apply its group has committed it -/
  | commit (w : W) (memory : Bool)
  /-- a worker that was told to apply its group has failed -/
  | release (w : W) (memory : Bool)

/-- One step, where it is possible: a worker that waits or was told to apply a group has to finish
with it before the next one.  A worker that wakes up still has the pointer to the element.  `rli` is
the connection of a worker. -/
def step (rli : W → C) (s : State C W) : Op W → Option (State C W)
  | .check w gtid memory killed =>
    if (s.rgi w).waiting ∨ (s.rgi w).duplicateState = .owner then none
    else some (checkDuplicateGtid s (rli w) w gtid memory killed)
  | .wake w killed =>
    if (s.rgi w).waiting then
      some (checkLoop s (rli w) w (s.rgi w).currentGtid
        (s.element (s.rgi w).currentGtid.domainId) killed)
    else none
  | .commit w memory =>
    if (s.rgi w).duplicateState = .owner then
      some { updateState s w memory with
        committed := (rli w, (s.rgi w).currentGtid) :: s.committed }
    else none
  | .release w memory =>
    if (s.rgi w).duplicateState = .owner then some (releaseDomainOwner s w memory) else none

def run (rli : W → C) (s : State C W) : List (Op W) → Option (State C W)
  | [] => some s
  | op :: ops => (step rli s op).bind fun s' => run rli s' ops

end Functions

/-- No domain is known and no worker has a group. -/
def start : State C W := ⟨fun _ => none, fun _ => ⟨⟨0, 0, 0⟩, .null, false⟩, []⟩

/-! ### The invariant -/

/-- The worker was told to apply a group of the domain. -/
def State.Owns (s : State C W) (domainId : UInt32) (w : W) : Prop :=
  (s.rgi w).duplicateState = .owner ∧ (s.rgi w).currentGtid.domainId = domainId

instance (s : State C W) (domainId : UInt32) : DecidablePred (s.Owns domainId) := fun _ =>
  inferInstanceAs (Decidable (_ ∧ _))

/-- The workers that were told to apply a group of the domain. -/
def State.owners [Fintype W] (s : State C W) (domainId : UInt32) : Finset W :=
  Finset.univ.filter (s.Owns domainId)

/-- The owner of a domain is the connection of all workers that were told to apply a group of it,
and these are counted; no committed GTID is above the highest one, nor is it that of a worker of
another connection that was told to apply it. -/
structure Inv [Fintype W] (rli : W → C) (s : State C W) : Prop where
  count : ∀ d, (s.element d).ownerCount.toNat = (s.owners d).card
  owner : ∀ d w, s.Owns d w → (s.element d).ownerRli = some (rli w)
  known : ∀ d w, s.Owns d w → s.elem d ≠ none
  waits : ∀ w, (s.rgi w).waiting = true → (s.rgi w).duplicateState ≠ .owner
  highest : ∀ c g, (c, g) ∈ s.committed → g.seqNo ≤ (s.element g.domainId).highestSeqNo
  applying : ∀ d w, s.Owns d w → ∀ c g, (c, g) ∈ s.committed → g.domainId = d →
    g.seqNo = (s.rgi w).currentGtid.seqNo → c = rli w
  once : ∀ c c' g g', (c, g) ∈ s.committed → (c', g') ∈ s.committed → g.domainId = g'.domainId →
    g.seqNo = g'.seqNo → c = c'

variable {rli : W → C} {s : State C W}

variable {d : UInt32} {elem : Element C} {w : W} {rgi : GroupInfo}

theorem getElement_eq {memory : Bool} (hget : getElement s d memory = some elem) :
    elem = s.element d := by
  rw [getElement] at hget
  rw [State.element]
  cases helem : s.elem d with
  | some e =>
    rw [helem] at hget
    exact (some.inj hget).symm
  | none =>
    rw [helem] at hget
    cases memory with
    | true => exact (some.inj hget).symm
    | false => cases hget

theorem mem_owners [Fintype W] : w ∈ s.owners d ↔ s.Owns d w := by
  simp [State.owners]

section Put

variable [DecidableEq W]

theorem element_put (d : UInt32) (elem : Element C) (w : W) (rgi : GroupInfo) (d' : UInt32) :
    (s.put d elem w rgi).element d' = if d' = d then elem else s.element d' := by
  simp only [State.element, State.put, update_apply]
  split <;> rfl

theorem owns_put_of_ne {d' : UInt32} {w' : W} (hne : w' ≠ w) :
    (s.put d elem w rgi).Owns d' w' ↔ s.Owns d' w' := by
  simp [State.Owns, State.put, update_of_ne hne]

theorem owns_put_self {d' : UInt32} :
    (s.put d elem w rgi).Owns d' w ↔ rgi.duplicateState = .owner ∧ rgi.currentGtid.domainId = d' := by
  simp [State.Owns, State.put]

variable [Fintype W]

variable (hs : Inv rli s) (hdomain : rgi.currentGtid.domainId = d)
include hs hdomain

/-- **A worker and the element of its domain are stored.**  The worker must not leave a share in
another domain, and the element must count the workers and name their connection. -/
theorem Inv.put
    (hbefore : ∀ d', s.Owns d' w → d' = d)
    (hwaits : rgi.waiting = true → rgi.duplicateState ≠ .owner)
    (hhighest : (s.element d).highestSeqNo ≤ elem.highestSeqNo)
    (hcount : elem.ownerCount.toNat =
      (if rgi.duplicateState = .owner then insert w (s.owners d) else (s.owners d).erase w).card)
    (howner : ∀ w', s.Owns d w' → w' ≠ w → elem.ownerRli = some (rli w'))
    (hself : rgi.duplicateState = .owner → elem.ownerRli = some (rli w))
    (happlying : rgi.duplicateState = .owner → ∀ c g, (c, g) ∈ s.committed → g.domainId = d →
      g.seqNo = rgi.currentGtid.seqNo → c = rli w) :
    Inv rli (s.put d elem w rgi) where
  count := by
    intro d'
    rw [element_put]
    by_cases heq : d' = d
    · subst heq
      rw [if_pos rfl, hcount]
      congr 1
      ext w'
      rw [mem_owners]
      by_cases hw : w' = w
      · subst hw
        rw [owns_put_self]
        split <;> simp_all
      · rw [owns_put_of_ne hw]
        split <;> simp [hw, mem_owners]
    · rw [if_neg heq, hs.count d']
      congr 1
      ext w'
      rw [mem_owners, mem_owners]
      by_cases hw : w' = w
      · subst hw
        rw [owns_put_self, hdomain]
        constructor
        · intro howns
          exact absurd (hbefore d' howns) heq
        · rintro ⟨-, hd⟩
          exact absurd hd.symm heq
      · rw [owns_put_of_ne hw]
  owner := by
    intro d' w' howns
    rw [element_put]
    by_cases hw : w' = w
    · subst hw
      rw [owns_put_self, hdomain] at howns
      rw [if_pos howns.2.symm]
      exact hself howns.1
    · rw [owns_put_of_ne hw] at howns
      split
      case isTrue heq => exact howner w' (heq ▸ howns) hw
      case isFalse => exact hs.owner d' w' howns
  known := by
    intro d' w' howns
    simp only [State.put, update_apply]
    split
    case isTrue => simp
    case isFalse hne =>
      by_cases hw : w' = w
      · subst hw
        rw [owns_put_self, hdomain] at howns
        exact absurd howns.2.symm hne
      · exact hs.known d' w' ((owns_put_of_ne hw).1 howns)
  waits := by
    intro w' hwait
    by_cases hw : w' = w
    · subst hw
      simp only [State.put, update_self] at hwait ⊢
      exact hwaits hwait
    · simp only [State.put, update_of_ne hw] at hwait ⊢
      exact hs.waits w' hwait
  highest := by
    intro c g hmem
    have hle := hs.highest c g hmem
    rw [element_put]
    split
    case isTrue heq => exact UInt64.le_trans (heq ▸ hle) hhighest
    case isFalse => exact hle
  applying := by
    intro d' w' howns c g hmem hd hseq
    by_cases hw : w' = w
    · subst hw
      rw [owns_put_self, hdomain] at howns
      simp only [State.put, update_self] at hseq
      exact happlying howns.1 c g hmem (hd.trans howns.2.symm) hseq
    · rw [owns_put_of_ne hw] at howns
      simp only [State.put, update_of_ne hw] at hseq
      exact hs.applying d' w' howns c g hmem hd hseq
  once := hs.once

/-- A worker that is not told to apply a group leaves the counts as they are. -/
theorem Inv.put_skip (hfree : (s.rgi w).duplicateState ≠ .owner)
    (hskip : rgi.duplicateState ≠ .owner) : Inv rli (s.put d (s.element d) w rgi) := by
  have hnot : ∀ d', ¬ s.Owns d' w := fun d' howns => hfree howns.1
  refine hs.put hdomain (fun d' howns => absurd howns (hnot d')) (fun _ => hskip)
    (UInt64.le_refl _) ?_ ?_ (absurd · hskip) (absurd · hskip)
  · rw [if_neg hskip, erase_eq_of_notMem (by rw [mem_owners]; exact hnot d)]
    exact hs.count d
  · intro w' howns _
    exact hs.owner d w' howns

/-- A worker is told to apply a group: the domain was free or owned by its connection, and the
sequence number is new. -/
theorem Inv.put_take (hcard : Fintype.card W < 2 ^ 32) (htake : rgi.duplicateState = .owner)
    (hgoes : rgi.waiting = false) (hfree : (s.rgi w).duplicateState ≠ .owner)
    (hnew : (s.element d).highestSeqNo < rgi.currentGtid.seqNo)
    (hhighest : elem.highestSeqNo = (s.element d).highestSeqNo)
    (hrli : elem.ownerRli = some (rli w))
    (hcan : (s.element d).ownerRli = none ∨ (s.element d).ownerRli = some (rli w))
    (hcount : elem.ownerCount = (s.element d).ownerCount + 1) : Inv rli (s.put d elem w rgi) := by
  have hnot : ∀ d', ¬ s.Owns d' w := fun d' howns => hfree howns.1
  have hnotMem : w ∉ s.owners d := by
    rw [mem_owners]
    exact hnot d
  refine hs.put hdomain (fun d' howns => absurd howns (hnot d')) (by simp [hgoes]) ?_ ?_ ?_ ?_ ?_
  · rw [hhighest]
    exact UInt64.le_refl _
  · -- the worker itself is not counted yet, so the count does not overflow
    have hlt : (s.owners d).card < Fintype.card W :=
      card_lt_univ_of_notMem hnotMem
    have hone : (1 : UInt32).toNat = 1 := rfl
    have hins : (s.owners d).card + 1 = (insert w (s.owners d)).card :=
      (card_insert_of_notMem hnotMem).symm
    have hnat : elem.ownerCount.toNat = (s.owners d).card + 1 := by
      rw [hcount, UInt32.toNat_add, hs.count d, hone, Nat.mod_eq_of_lt (by omega)]
    rw [hnat, hins, if_pos htake]
  · intro w' howns hne
    rcases hcan with hnone | hsome
    · rw [hs.owner d w' howns] at hnone
      cases hnone
    · rw [hrli, ← hsome]
      exact hs.owner d w' howns
  · exact fun _ => hrli
  · intro _ c g hmem hd hseq
    have hle := hs.highest c g hmem
    rw [hd, hseq] at hle
    exact absurd hle (UInt64.not_le.2 hnew)

/-- A worker gives up its share of a domain. -/
theorem Inv.put_give (hskip : rgi.duplicateState ≠ .owner) (howns : s.Owns d w) :
    Inv rli (s.put d (s.element d).giveUp w rgi) := by
  have hmem : w ∈ s.owners d := mem_owners.2 howns
  have hpos : 0 < (s.owners d).card := card_pos.2 ⟨w, hmem⟩
  have hone : (1 : UInt32).toNat = 1 := rfl
  have hcount : ((s.element d).ownerCount - 1).toNat = ((s.owners d).erase w).card := by
    have hle : (1 : UInt32) ≤ (s.element d).ownerCount := by
      rw [UInt32.le_iff_toNat_le, hs.count d, hone]
      exact hpos
    rw [UInt32.toNat_sub_of_le _ _ hle, hs.count d, hone, card_erase_of_mem hmem]
  refine hs.put hdomain (fun d' h => h.2.symm.trans howns.2) (fun _ => hskip) (UInt64.le_refl _)
    ?_ ?_ (absurd · hskip) (absurd · hskip)
  · rw [if_neg hskip]
    exact hcount
  · -- another worker has a share, so that the count does not become 0
    intro w' howns' hne
    have hw' : w' ∈ (s.owners d).erase w := mem_erase.2 ⟨hne, mem_owners.2 howns'⟩
    have hne0 : (s.element d).ownerCount - 1 ≠ 0 := by
      intro h0
      rw [h0] at hcount
      exact absurd hcount.symm (card_pos.2 ⟨w', hw'⟩).ne'
    show (if (s.element d).ownerCount - 1 = 0 then none else (s.element d).ownerRli) = _
    rw [if_neg hne0]
    exact hs.owner d w' howns'

end Put

/-- The account of the commits gets the GTID of a worker, and its domain a highest sequence number. -/
def State.record (rli : W → C) (s : State C W) (d : UInt32) (w : W) (highest : UInt64) : State C W :=
  ⟨update s.elem d (some { s.element d with highestSeqNo := highest }), s.rgi,
    (rli w, (s.rgi w).currentGtid) :: s.committed⟩

theorem element_record {highest : UInt64} (d' : UInt32) : (s.record rli d w highest).element d'
    = if d' = d then { s.element d with highestSeqNo := highest } else s.element d' := by
  simp only [State.record, State.element, update_apply]
  split <;> rfl

/-- The worker was told to apply the GTID, and the highest sequence number is not below it. -/
theorem Inv.record [Fintype W] (hs : Inv rli s) (howns : s.Owns d w) {highest : UInt64}
    (hold : (s.element d).highestSeqNo ≤ highest) (hnew : (s.rgi w).currentGtid.seqNo ≤ highest) :
    Inv rli (s.record rli d w highest) := by
  have hsame : ∀ d', ((s.record rli d w highest).element d').ownerCount = (s.element d').ownerCount ∧
      ((s.record rli d w highest).element d').ownerRli = (s.element d').ownerRli := by
    intro d'
    rw [element_record]
    split
    case isTrue heq => exact heq ▸ ⟨rfl, rfl⟩
    case isFalse => exact ⟨rfl, rfl⟩
  refine ⟨fun d' => ?_, fun d' w' h => ?_, fun d' w' h => ?_, hs.waits, fun c g hmem => ?_,
    fun d' w' h c g hmem hd hseq => ?_, fun c c' g g' hmem hmem' hd hseq => ?_⟩
  · rw [(hsame d').1]
    exact hs.count d'
  · rw [(hsame d').2]
    exact hs.owner d' w' h
  · simp only [State.record, update_apply]
    split
    case isTrue => simp
    case isFalse => exact hs.known d' w' h
  · rw [element_record]
    rcases mem_cons.1 hmem with heq | hmem
    · obtain ⟨rfl, rfl⟩ := Prod.mk.inj heq
      rw [if_pos howns.2]
      exact hnew
    · have hle := hs.highest c g hmem
      split
      case isTrue heq => exact UInt64.le_trans (heq ▸ hle) hold
      case isFalse => exact hle
  · rcases mem_cons.1 hmem with heq | hmem
    · -- both workers were told to apply a group of the domain, so they have one connection
      obtain ⟨rfl, rfl⟩ := Prod.mk.inj heq
      have hd' : d' = d := hd.symm.trans howns.2
      have howner := hs.owner d' w' h
      rw [hd', hs.owner d w howns] at howner
      exact some.inj howner
    · exact hs.applying d' w' h c g hmem hd hseq
  · rcases mem_cons.1 hmem with heq | hmem <;> rcases mem_cons.1 hmem' with heq' | hmem'
    · rw [(Prod.mk.inj heq).1, (Prod.mk.inj heq').1]
    · obtain ⟨rfl, rfl⟩ := Prod.mk.inj heq
      exact (hs.applying d w howns c' g' hmem' (hd.symm.trans howns.2) hseq.symm).symm
    · obtain ⟨rfl, rfl⟩ := Prod.mk.inj heq'
      exact hs.applying d w howns c g hmem (hd.trans howns.2) hseq
    · exact hs.once c c' g g' hmem hmem' hd hseq

/-! ### The steps -/

section Steps

variable [DecidableEq C] [DecidableEq W] [Fintype W]

omit [DecidableEq C] [DecidableEq W] in
theorem inv_start (rli : W → C) : Inv rli (start : State C W) where
  count d := by
    have hempty : (start : State C W).owners d = ∅ := by
      rw [eq_empty_iff_forall_notMem]
      intro w hw
      simp [mem_owners, start, State.Owns] at hw
    rw [hempty]
    rfl
  owner d w howns := by simp [start, State.Owns] at howns
  known d w howns := by simp [start, State.Owns] at howns
  waits w hwait := by simp [start] at hwait
  highest c g hmem := by simp [start] at hmem
  applying d w howns := by simp [start, State.Owns] at howns
  once c c' g g' hmem := by simp [start] at hmem

section

variable (hs : Inv rli s)
include hs

omit [DecidableEq C] in
/-- A commit: the account and the highest sequence number first, then the share in the domain. -/
theorem commit_inv (howns : s.Owns (s.rgi w).currentGtid.domainId w) (memory : Bool) :
    Inv rli { updateState s w memory with
      committed := (rli w, (s.rgi w).currentGtid) :: s.committed } := by
  obtain ⟨elem, helem⟩ := ne_none_iff_exists'.1 (hs.known _ w howns)
  have hget : getElement s (s.rgi w).currentGtid.domainId memory = some elem := by
    rw [getElement, helem]
  have heq : s.element (s.rgi w).currentGtid.domainId = elem := (getElement_eq hget).symm
  set highest := if elem.highestSeqNo < (s.rgi w).currentGtid.seqNo then (s.rgi w).currentGtid.seqNo
    else elem.highestSeqNo with hhighest
  have hold : (s.element (s.rgi w).currentGtid.domainId).highestSeqNo ≤ highest := by
    rw [heq, hhighest]
    split
    case isTrue hlt => exact UInt64.le_of_lt hlt
    case isFalse => exact UInt64.le_refl _
  have hnew : (s.rgi w).currentGtid.seqNo ≤ highest := by
    rw [hhighest]
    split
    case isTrue => exact UInt64.le_refl _
    case isFalse hle => exact UInt64.not_lt.1 hle
  have hskip : ({ s.rgi w with duplicateState := .null } : GroupInfo).duplicateState ≠ .owner := by
    simp
  have hput := (hs.record howns hold hnew).put_give rfl hskip howns
  rw [element_record, if_pos rfl, heq] at hput
  have hstate : { updateState s w memory with
        committed := (rli w, (s.rgi w).currentGtid) :: s.committed }
      = (s.record rli (s.rgi w).currentGtid.domainId w highest).put
        (s.rgi w).currentGtid.domainId ({ elem with highestSeqNo := highest } : Element C).giveUp w
        { s.rgi w with duplicateState := .null } := by
    simp only [updateState, hget, giveUpOwner, if_pos howns.1, State.put, State.record, update_idem,
      hhighest]
  rw [hstate]
  exact hput

variable (hcard : Fintype.card W < 2 ^ 32)
include hcard

/-- A pass of the loop of `check_duplicate_gtid`. -/
theorem checkLoop_inv (hfree : (s.rgi w).duplicateState ≠ .owner) (gtid : RplGtid) (killed : Bool) :
    Inv rli (checkLoop s (rli w) w gtid (s.element gtid.domainId) killed) := by
  rw [checkLoop]
  split
  case isTrue => exact hs.put_skip rfl hfree (by simp)
  case isFalse hnew =>
    have hnew' : (s.element gtid.domainId).highestSeqNo < gtid.seqNo := UInt64.not_le.1 hnew
    split
    case h_1 hnone =>
      -- nobody has a share in a free domain, so the count was 0
      have hzero : (s.element gtid.domainId).ownerCount = 0 := by
        have hempty : s.owners gtid.domainId = ∅ := by
          rw [eq_empty_iff_forall_notMem]
          intro w' hw'
          rw [hs.owner _ w' (mem_owners.1 hw')] at hnone
          cases hnone
        rw [← UInt32.toNat_inj, hs.count, hempty]
        rfl
      refine hs.put_take rfl hcard rfl rfl hfree hnew' rfl rfl (.inl hnone) ?_
      rw [hzero]
      rfl
    case h_2 owner hsome =>
      split
      case isTrue heq =>
        subst heq
        exact hs.put_take rfl hcard rfl rfl hfree hnew' rfl hsome (.inr hsome) rfl
      case isFalse =>
        split <;> exact hs.put_skip rfl hfree hfree

theorem step_inv {op : Op W} {s' : State C W} (hstep : step rli s op = some s') : Inv rli s' := by
  cases op with
  | check w gtid memory killed =>
    rw [step] at hstep
    split at hstep
    case isTrue => cases hstep
    case isFalse hno =>
      rw [not_or] at hno
      rw [← some.inj hstep, checkDuplicateGtid]
      split
      case h_1 => exact hs
      case h_2 elem hget =>
        rw [getElement_eq hget]
        exact checkLoop_inv hs hcard hno.2 gtid killed
  | wake w killed =>
    rw [step] at hstep
    split at hstep
    case isFalse => cases hstep
    case isTrue hwait =>
      rw [← some.inj hstep]
      exact checkLoop_inv hs hcard (hs.waits w hwait) _ killed
  | commit w memory =>
    rw [step] at hstep
    split at hstep
    case isFalse => cases hstep
    case isTrue howner =>
      rw [← some.inj hstep]
      exact commit_inv hs ⟨howner, rfl⟩ memory
  | release w memory =>
    rw [step] at hstep
    split at hstep
    case isFalse => cases hstep
    case isTrue howner =>
      rw [← some.inj hstep, releaseDomainOwner]
      split
      case h_1 => exact hs
      case h_2 elem hget =>
        rw [getElement_eq hget, giveUpOwner, if_pos howner]
        exact hs.put_give rfl (by simp) ⟨howner, rfl⟩

theorem run_inv (ops : List (Op W))
    {s' : State C W} (hrun : run rli s ops = some s') : Inv rli s' := by
  induction ops generalizing s with
  | nil =>
    rw [← some.inj hrun]
    exact hs
  | cons op ops ih =>
    obtain ⟨s₁, hstep, hrest⟩ := bind_eq_some_iff.1 hrun
    exact ih (step_inv hs hcard hstep) hrest

end

/-- **No GTID is committed by two connections.**  In every state that the workers can reach, the
workers that were told to apply a group of a domain are of one connection, the owner of the domain,
and `owner_count` is their number; and no two connections have committed the same GTID. -/
theorem run_duplicates (rli : W → C) (hcard : Fintype.card W < 2 ^ 32) (ops : List (Op W))
    (s : State C W) (hrun : run rli start ops = some s) :
    (∀ d w, s.Owns d w → (s.element d).ownerRli = some (rli w)) ∧
    (∀ d, (s.element d).ownerCount.toNat = (s.owners d).card) ∧
    ∀ c c' gtid, (c, gtid) ∈ s.committed → (c', gtid) ∈ s.committed → c = c' := by
  have hs := run_inv (inv_start rli) hcard ops hrun
  exact ⟨hs.owner, hs.count, fun c c' gtid hmem hmem' => hs.once c c' gtid gtid hmem hmem' rfl rfl⟩

end Steps

/-- Two connections get the GTID 0-1-5: the worker 0 applies it, the worker 1 waits, and then skips
it. -/
def sampleSteps : List (Op (Fin 2)) :=
  [.check 0 ⟨0, 1, 5⟩ true false, .check 1 ⟨0, 1, 5⟩ true false, .commit 0 true, .wake 1 false]

def sampleRli : Fin 2 → Bool := fun w => w == 1

theorem run_duplicates_sampleSteps :
    ∃ s, run sampleRli (start : State Bool (Fin 2)) sampleSteps = some s ∧
      s.committed = [(false, ⟨0, 1, 5⟩)] ∧ (s.rgi 1).duplicateState = .ignore ∧
      ∀ c c' gtid, (c, gtid) ∈ s.committed → (c', gtid) ∈ s.committed → c = c' := by
  obtain ⟨s, hrun, hcom, hign⟩ : ∃ s, run sampleRli (start : State Bool (Fin 2)) sampleSteps = some s ∧
      s.committed = [(false, ⟨0, 1, 5⟩)] ∧ (s.rgi 1).duplicateState = .ignore := by
    refine ⟨_, rfl, ?_, ?_⟩ <;> decide +kernel
  exact ⟨s, hrun, hcom, hign, (run_duplicates sampleRli (by decide) sampleSteps s hrun).2.2⟩

end Gtid.Duplicates
