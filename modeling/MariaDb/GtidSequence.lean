/-
**The sequence numbers of the binary log.**

A GTID that the server writes itself gets the next sequence number of its domain from
`rpl_binlog_state::update_with_next_gtid`, which keeps a counter for each domain.  `update` records
GTIDs of a master, in strict mode only in their order, and `bump_seq_no_if_needed` lets the counter
follow numbers that are not recorded.  What was recorded since the last reset is kept here beside
the state.  No number is used twice as long as there is a next one: after the largest number of 64
bits the counter starts from 0 again, which is not noticed, not even in strict mode.  Strict mode
compares with the last GTID of the domain only, so the numbers accepted in it increase as long as no
update in the other mode lowers that one.

Main definitions:

* `History`, `history`: what was recorded and seen in a run since the last reset;
* `NeverReused`: new numbers, and what the state says of them;
* `History.Increasing`: the numbers that were recorded in their order.

Main results:

* `BinlogState.load_spec`: **a state loaded from a list says what the list says**;
* `run_neverReused`: **a run in which there is always a next number uses none twice, and one in which
  no update lowers a last GTID keeps strict mode in order**.
-/

import MariaDb.GtidState

set_option autoImplicit false

namespace Gtid

open HashTable Function List IdHash BinlogState

variable {f : UInt32 → UInt32} {s s' : BinlogState f} {gtid : RplGtid}

/-! ### What was recorded -/

/-- What happened since the last reset. -/
structure History where
  /-- the GTIDs that were recorded, and whether it was in their order: in strict mode, or with a
  number from the counter -/
  recorded : List (RplGtid × Bool)
  /-- the domains and numbers of `bump_seq_no_if_needed` -/
  bumped : List (UInt32 × UInt64)

theorem recentOf_concat (list : List RplGtid) (d : UInt32) :
    recentOf (list ++ [gtid]) d = if gtid.domainId = d then some gtid else recentOf list d := by
  rw [recentOf, recentOf, filter_append]
  by_cases hd : gtid.domainId = d <;> simp [hd]

namespace History

def gtids (h : History) : List RplGtid := h.recorded.map Prod.fst

/-- A number of a domain was recorded or skipped. -/
def Seen (h : History) (domainId : UInt32) (seqNo : UInt64) : Prop :=
  (∃ g ∈ h.gtids, g.domainId = domainId ∧ g.seqNo = seqNo) ∨ (domainId, seqNo) ∈ h.bumped

def load (memory : ℕ → Memory) : ℕ → List RplGtid → BinlogState f → History → History
  | _, [], _, h => h
  | i, gtid :: list, s, h =>
    match s.updateNolock gtid false (memory i) with
    | (s, none) => load memory (i + 1) list s { h with recorded := h.recorded ++ [(gtid, false)] }
    | (_, some _) => h

/-- After a call in the state `s`: a call that fails records nothing. -/
def step (s : BinlogState f) (h : History) : Op → History
  | .update gtid strict memory =>
    match (s.updateNolock gtid strict memory).2 with
    | none => { h with recorded := h.recorded ++ [(gtid, strict)] }
    | some _ => h
  | .updateWithNextGtid domainId serverId memory =>
    match (s.updateWithNextGtid domainId serverId memory).2 with
    | some gtid => { h with recorded := h.recorded ++ [(gtid, true)] }
    | none => h
  | .bumpSeqNoIfNeeded domainId seqNo memory =>
    if (s.bumpSeqNoIfNeeded domainId seqNo memory).2 then h
    else { h with bumped := (domainId, seqNo) :: h.bumped }
  | .load memory list => load memory 0 list (init : BinlogState f) ⟨[], []⟩

theorem gtids_concat {h : History} {strict : Bool} :
    gtids { h with recorded := h.recorded ++ [(gtid, strict)] } = h.gtids ++ [gtid] := by
  simp [gtids]

/-- The numbers recorded in their order increase in each domain, and none is above the last one. -/
structure Increasing (h : History) : Prop where
  pairwise : (h.recorded.filter Prod.snd).Pairwise fun g g' =>
    g.1.domainId = g'.1.domainId → g.1.seqNo < g'.1.seqNo
  le_recent : ∀ g ∈ h.recorded, g.2 = true →
    ∃ last ∈ recentOf h.gtids g.1.domainId, g.1.seqNo ≤ last.seqNo

theorem increasing_of_false {h : History} (hall : ∀ g ∈ h.recorded, g.2 = false) :
    h.Increasing where
  pairwise := by
    rw [filter_eq_nil_iff.2 fun g hg => by simp [hall g hg]]
    exact .nil
  le_recent g hg hs := by simp [hall g hg] at hs

theorem Increasing.record {h : History} (hi : h.Increasing) {strict : Bool}
    (hle : ∀ last ∈ recentOf h.gtids gtid.domainId, last.seqNo ≤ gtid.seqNo)
    (hlt : strict = true → ∀ last ∈ recentOf h.gtids gtid.domainId, last.seqNo < gtid.seqNo) :
    Increasing { h with recorded := h.recorded ++ [(gtid, strict)] } where
  pairwise := by
    rw [filter_append, pairwise_append]
    refine ⟨hi.pairwise, pairwise_filter.2 (pairwise_singleton _ _), fun g hg g' hg' hd => ?_⟩
    obtain ⟨hg, hs⟩ := mem_filter.1 hg
    obtain ⟨rfl, hstrict⟩ : g' = (gtid, strict) ∧ strict = true := by
      obtain ⟨hg', hs'⟩ := mem_filter.1 hg'
      cases mem_singleton.1 hg'
      exact ⟨rfl, hs'⟩
    obtain ⟨last, hlast, hle'⟩ := hi.le_recent g hg hs
    exact UInt64.lt_of_le_of_lt hle' (hlt hstrict last (hd ▸ hlast))
  le_recent g hg hs := by
    rw [gtids_concat, recentOf_concat]
    rcases mem_append.1 hg with hg | hg
    · obtain ⟨last, hlast, hle'⟩ := hi.le_recent g hg hs
      by_cases hd : gtid.domainId = g.1.domainId
      · exact ⟨gtid, if_pos hd, UInt64.le_trans hle' (hle last (hd ▸ hlast))⟩
      · exact ⟨last, (if_neg hd).trans hlast, hle'⟩
    · cases mem_singleton.1 hg
      exact ⟨gtid, if_pos rfl, UInt64.le_refl _⟩

/-- What is loaded was not in its order. -/
theorem load_false {memory : ℕ → Memory} {i : ℕ} {list : List RplGtid} {s : BinlogState f}
    {h : History} (hall : ∀ g ∈ h.recorded, g.2 = false) :
    ∀ g ∈ (h.load memory i list s).recorded, g.2 = false := by
  induction list generalizing s h i with
  | nil => exact hall
  | cons gtid list ih =>
    rw [load]
    split
    · refine ih fun g hg => ?_
      rcases mem_append.1 hg with hg | hg
      · exact hall g hg
      · rw [mem_singleton.1 hg]
    · exact hall

end History

variable (f) in
/-- The state and the history after some calls. -/
def history (ops : List Op) : BinlogState f × History :=
  ops.foldl (fun r op => (r.1.step op, r.2.step r.1 op)) (init, ⟨[], []⟩)

theorem history_fst (ops : List Op) : (history f ops).1 = .run ops :=
  (foldl_hom Prod.fst fun _ _ => rfl).symm

/-! ### Runs -/

/-- The state says what was recorded last. -/
structure Agrees (s : BinlogState f) (h : History) : Prop where
  find : ∀ d server, s.findNolock d server = lastOf h.gtids d server
  recent : ∀ d, s.findMostRecent d = recentOf h.gtids d

/-- What every call preserves; `P` says that no update lowers a last GTID. -/
structure Inv (P : Prop) (s : BinlogState f) (h : History) : Prop extends Agrees s h where
  reached : ∀ d n, h.Seen d n → s.Reached d n
  increasing : P → h.Increasing

variable {h : History} {P : Prop}

theorem Inv.init : Inv P (init : BinlogState f) ⟨[], []⟩ where
  reached d n hn := by simp [History.Seen, History.gtids] at hn
  find d server := by simp [findNolock_eq, BinlogState.init, lastOf, History.gtids]
  recent d := by simp [findMostRecent_eq, BinlogState.init, recentOf, History.gtids]
  increasing _ := History.increasing_of_false (by simp)

theorem Inv.kept (hi : Inv P s h) (hk : Kept s s') : Inv P s' h where
  reached d n hn := hk.reached d n (hi.reached d n hn)
  find d server := (hk.find d server).trans (hi.find d server)
  recent d := (hk.recent d).trans (hi.recent d)
  increasing := hi.increasing

theorem Inv.record (hi : Inv P s h) (hr : Recorded s s' gtid) {strict : Bool}
    (hlt : strict = true → ∀ last ∈ s.findMostRecent gtid.domainId, last.seqNo < gtid.seqNo)
    (hle : P → ∀ last ∈ s.findMostRecent gtid.domainId, last.seqNo ≤ gtid.seqNo) :
    Inv P s' { h with recorded := h.recorded ++ [(gtid, strict)] } where
  reached d n hn := by
    rcases hn with ⟨g, hg, rfl, rfl⟩ | hb
    · rw [History.gtids_concat, mem_append] at hg
      rcases hg with hg | hg
      · exact hr.reached _ _ (hi.reached _ _ (.inl ⟨g, hg, rfl, rfl⟩))
      · rw [mem_singleton.1 hg]
        exact hr.counted
    · exact hr.reached d n (hi.reached d n (.inr hb))
  find d server := by
    rw [hr.findNolock, hi.find, History.gtids_concat, lastOf, lastOf, filter_append]
    by_cases hd : gtid.domainId = d ∧ gtid.serverId = server
    · simp [hd]
    · rw [if_neg hd, filter_singleton, decide_eq_false hd]
      simp
  recent d := by
    rw [hr.findMostRecent, hi.recent, History.gtids_concat, recentOf_concat]
  increasing hp := by
    have hrecent := hi.recent gtid.domainId
    exact (hi.increasing hp).record (hrecent ▸ hle hp) (hrecent ▸ hlt)

theorem Inv.load (hi : Inv False s h) (memory : ℕ → Memory) (i : ℕ) (list : List RplGtid) :
    Inv False (loadLoop memory i list s).1 (h.load memory i list s) := by
  induction list generalizing s h i with
  | nil => exact hi
  | cons gtid list ih =>
    have hcases := s.updateNolock_cases gtid false (memory i)
    rw [loadLoop, History.load]
    generalize s.updateNolock gtid false (memory i) = r at hcases
    obtain ⟨s', err⟩ := r
    rcases hcases with ⟨⟨err, rfl⟩, -, hk⟩ | ⟨rfl, hr, -⟩
    · exact hi.kept hk
    · exact ih (hi.record hr (by simp) False.elim) (i + 1)

theorem loadLoop_enough (list : List RplGtid) (i : ℕ) (s : BinlogState f) (h : History) :
    (loadLoop (fun _ => .enough) i list s).2 = false ∧
      (h.load (fun _ => .enough) i list s).gtids = h.gtids ++ list := by
  induction list generalizing s h i with
  | nil => exact ⟨rfl, (append_nil _).symm⟩
  | cons gtid list ih =>
    obtain ⟨s', hup, -⟩ := s.updateNolock_enough gtid
    rw [loadLoop, History.load, hup]
    obtain ⟨hok, hgtids⟩ := ih (i + 1) s' { h with recorded := h.recorded ++ [(gtid, false)] }
    exact ⟨hok, by rw [hgtids, History.gtids_concat, append_assoc]; rfl⟩

/-- **A state loaded from a list says what the list says.** -/
theorem BinlogState.load_spec (list : List RplGtid) :
    ∃ s : BinlogState f, load (fun _ => .enough) list = (s, false) ∧
      (∀ d server, s.findNolock d server = lastOf list d server) ∧
      ∀ d, s.findMostRecent d = recentOf list d := by
  obtain ⟨hok, hgtids⟩ := loadLoop_enough list 0 (init : BinlogState f) ⟨[], []⟩
  have hi := Inv.init.load (f := f) (fun _ => .enough) 0 list
  refine ⟨(load _ list).1, Prod.ext rfl hok, fun d server => ?_, fun d => ?_⟩
  · rw [load, hi.find, hgtids]
    rfl
  · rw [load, hi.recent, hgtids]
    rfl

/-- The call is no update that lowers the last GTID of its domain. -/
def BinlogState.InOrder (s : BinlogState f) : Op → Prop
  | .update gtid false _ => ∀ last ∈ s.findMostRecent gtid.domainId, last.seqNo ≤ gtid.seqNo
  | _ => True

/-- **A call keeps what the state knows**, if it finds a next number. -/
theorem Inv.step (hi : Inv P s h) {op : Op} (hroom : s.Room op) (horder : P → s.InOrder op) :
    Inv P (s.step op) (h.step s op) := by
  cases op with
  | update gtid strict memory =>
    rcases s.updateNolock_cases gtid strict memory with ⟨⟨err, herr⟩, -, hk⟩ | ⟨hok, hr, hlt⟩
    · rw [History.step, herr]
      exact hi.kept hk
    · rw [History.step, hok]
      refine hi.record hr hlt fun hp => ?_
      cases strict with
      | false => exact horder hp
      | true => exact fun last hlast => UInt64.le_of_lt (hlt rfl last hlast)
  | updateWithNextGtid domainId serverId memory =>
    rcases updateWithNextGtid_cases hroom with ⟨herr, hk⟩ | ⟨gtid, hok, rfl, hr, hlt⟩
    · rw [History.step, herr]
      exact hi.kept hk
    rw [History.step, hok]
    have habove : ∀ last ∈ s.findMostRecent gtid.domainId, last.seqNo < gtid.seqNo := by
      intro last hlast
      rw [hi.recent] at hlast
      have hmem := mem_filter.1 (mem_of_getLast? hlast)
      exact hlt _ (hi.reached _ _ (.inl ⟨last, hmem.1, of_decide_eq_true hmem.2, rfl⟩))
    exact hi.record hr (fun _ => habove) fun _ last hlast =>
      UInt64.le_of_lt (habove last hlast)
  | bumpSeqNoIfNeeded domainId seqNo memory =>
    obtain ⟨hk, hreached⟩ := s.bumpSeqNoIfNeeded_cases domainId seqNo memory
    have hi' := hi.kept hk
    rw [History.step]
    split
    case isTrue => exact hi'
    case isFalse herr =>
      refine ⟨⟨hi'.find, hi'.recent⟩, fun d n hn => ?_,
        fun hp => ⟨(hi'.increasing hp).pairwise, (hi'.increasing hp).le_recent⟩⟩
      rcases hn with hg | hb
      · exact hi'.reached d n (.inl hg)
      rcases mem_cons.1 hb with heq | hb
      · cases heq
        exact hreached (by simpa using herr)
      · exact hi'.reached d n (.inr hb)
  | load memory list =>
    exact { Inv.init.load memory 0 list with
      increasing := fun _ => History.increasing_of_false (History.load_false (by simp)) }

/-- Every call of a run finds a next number. -/
def RunRoom (f : UInt32 → UInt32) (ops : List Op) : Prop :=
  ∀ before op, before ++ [op] <+: ops → (run before : BinlogState f).Room op

/-- No call of a run lowers a last GTID. -/
def RunInOrder (f : UInt32 → UInt32) (ops : List Op) : Prop :=
  ∀ before op, before ++ [op] <+: ops → (run before : BinlogState f).InOrder op

theorem inv_history {ops : List Op} (hroom : RunRoom f ops) :
    Inv (RunInOrder f ops) (run ops : BinlogState f) (history f ops).2 := by
  rw [← history_fst]
  induction ops using reverseRecOn with
  | nil => exact Inv.init
  | append_singleton ops op ih =>
    have hi := ih fun before op' hpre => hroom before op' (hpre.trans (prefix_append ..))
    have hop := hroom ops op (prefix_refl _)
    have hall : RunInOrder f (ops ++ [op]) → RunInOrder f ops :=
      fun h before op' hpre => h before op' (hpre.trans (prefix_append ..))
    have hi' : Inv (RunInOrder f (ops ++ [op])) (history f ops).1 (history f ops).2 :=
      { hi with increasing := fun h => hi.increasing (hall h) }
    have horder : RunInOrder f (ops ++ [op]) → (history f ops).1.InOrder op := fun h => by
      rw [history_fst]
      exact h ops op (prefix_refl _)
    rw [← history_fst] at hop
    simpa [history] using hi'.step hop horder

/-- In a run no number of a domain is used twice. -/
structure NeverReused (f : UInt32 → UInt32) (ops : List Op) : Prop where
  /-- an allocated number is above all numbers seen since the last reset -/
  fresh : ∀ before domainId serverId memory gtid,
    before ++ [.updateWithNextGtid domainId serverId memory] <+: ops →
    ((run before : BinlogState f).updateWithNextGtid domainId serverId memory).2 = some gtid →
    ∀ n, (history f before).2.Seen domainId n → n < gtid.seqNo
  agrees : Agrees (run ops : BinlogState f) (history f ops).2

/-- **Sequence numbers are never reused** as long as there is a next one; and the numbers accepted in
strict mode increase if no update in the other mode lowers the last GTID of a domain. -/
theorem run_neverReused (f : UInt32 → UInt32) (ops : List Op) (hroom : RunRoom f ops) :
    NeverReused f ops ∧ (RunInOrder f ops → (history f ops).2.Increasing) := by
  have hall := inv_history hroom
  refine ⟨⟨fun before d server memory gtid hpre hsome n hn => ?_, hall.toAgrees⟩, hall.increasing⟩
  have hi := inv_history fun b op hb => hroom b op (hb.trans ((prefix_append ..).trans hpre))
  rcases updateWithNextGtid_cases (hroom _ _ hpre) with ⟨hnone, -⟩ | ⟨g, hok, -, -, hlt⟩
  · rw [hnone] at hsome
    cases hsome
  · rw [hok, Option.some.injEq] at hsome
    exact hsome ▸ hlt n (hi.reached _ n hn)

/-- A GTID of a master in strict mode, one of the same number in the other mode, and one of the
server after them. -/
def threeCalls (seqNo : UInt64) : List Op :=
  [.update ⟨0, 2, seqNo⟩ true .enough, .update ⟨0, 3, seqNo⟩ false .enough,
    .updateWithNextGtid 0 1 .enough]

theorem neverReused_threeCalls :
    NeverReused id (threeCalls 5) ∧ (history id (threeCalls 5)).2.Increasing := by
  have hcalls : ∀ before op, before ++ [op] <+: threeCalls 5 →
      (run before : BinlogState id).Room op ∧ (run before : BinlogState id).InOrder op := by
    intro before op hpre
    match before, hpre with
    | [], hpre =>
      obtain rfl : op = .update ⟨0, 2, 5⟩ true .enough := by simpa [threeCalls] using hpre
      exact ⟨trivial, trivial⟩
    | [b], hpre =>
      obtain ⟨rfl, rfl⟩ : b = _ ∧ op = _ := by simpa [threeCalls] using hpre
      refine ⟨trivial, show ∀ last ∈ findMostRecent _ _, _ from ?_⟩
      decide +kernel
    | [b, b'], hpre =>
      obtain ⟨rfl, rfl, rfl⟩ : b = _ ∧ b' = _ ∧ op = _ := by simpa [threeCalls] using hpre
      exact ⟨fun hr => absurd hr.2 (by decide +kernel), trivial⟩
    | _ :: _ :: _ :: _, hpre => simp [threeCalls] at hpre
  have hrun := run_neverReused id (threeCalls 5) fun before op hpre => (hcalls before op hpre).1
  exact ⟨hrun.1, hrun.2 fun before op hpre => (hcalls before op hpre).2⟩

/-- The number 5 is accepted in strict mode, 2 in the other one, and then 3 in strict mode. -/
def loweringCalls : List Op :=
  [.update ⟨0, 1, 5⟩ true .enough, .update ⟨0, 1, 2⟩ false .enough,
    .update ⟨0, 2, 3⟩ true .enough]

/-- After the largest number comes 0, which is recorded although it is out of order; and a number in
strict mode may come after a larger one. -/
theorem numbers_repeat :
    ¬ NeverReused id (threeCalls 0xFFFFFFFFFFFFFFFF) ∧
      ¬ (history id loweringCalls).2.Increasing := by
  constructor
  · intro h
    exact absurd (h.fresh [_, _] 0 1 .enough ⟨0, 1, 0⟩ (prefix_refl _) (by decide +kernel)
      0xFFFFFFFFFFFFFFFF (.inl ⟨⟨0, 2, 0xFFFFFFFFFFFFFFFF⟩, by decide +kernel, rfl, rfl⟩))
      (by decide)
  · intro h
    exact absurd h.pairwise (by decide +kernel)

end Gtid
