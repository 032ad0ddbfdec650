/-
**GTID event filters.**

`Domain_gtid_event_filter` chooses the GTIDs of a stream between start and stop positions.  Each
domain with a position has a `Window_gtid_event_filter`, which opens and closes as the stream goes
on; the other domains are given to a default filter, which rejects all as soon as there is a stop
position.  A window without a start is open from the beginning, also for the sequence number 0.

Main definitions:

* `WindowFilter.exclude`, `DomainFilter.exclude`: the two filters;
* `DomainFilter.Built`, `Selected`: the positions asked for, and the GTIDs they select.

Main results:

* `DomainFilter.exclude_iff_selected`: **exactly the requested windows pass**.
-/

import MariaDb.GtidState

set_option autoImplicit false

namespace Gtid

open Function List

/-! ### The model -/

def isGtidAtOrAfter (boundary testGtid : RplGtid) : Bool :=
  testGtid.domainId = boundary.domainId ∧ boundary.seqNo ≤ testGtid.seqNo

def isGtidAtOrBefore (boundary testGtid : RplGtid) : Bool :=
  testGtid.domainId = boundary.domainId ∧ testGtid.seqNo ≤ boundary.seqNo

/-- `Window_gtid_event_filter`; a bound that was not set is `none`.  One of them is set in use. -/
structure WindowFilter where
  start : Option RplGtid
  stop : Option RplGtid
  isActive : Bool
  hasPassed : Bool

namespace WindowFilter

def exclude (w : WindowFilter) (gtid : RplGtid) : WindowFilter × Bool :=
  if !w.isActive && !w.hasPassed then
    if w.start.isNone && w.stop.any (isGtidAtOrBefore · gtid) then
      ({ w with isActive := true }, false)
    else if w.start.any (isGtidAtOrAfter · gtid) && w.stop.all (isGtidAtOrBefore · gtid) then
      -- the start of the range is exclusive
      ({ w with isActive := true, hasPassed := w.stop.any (·.seqNo == gtid.seqNo) },
        w.start.any (·.seqNo == gtid.seqNo))
    else (w, true)
  else if w.isActive && !w.hasPassed then
    if w.stop.any (isGtidAtOrAfter · gtid) then
      ({ w with isActive := false, hasPassed := true }, !w.stop.any (isGtidAtOrBefore · gtid))
    else (w, false)
  else (w, true)

def hasFinished (w : WindowFilter) : Bool := w.stop.isSome && w.hasPassed

/-- The window has the bounds `start` and `stop`, which are of its domain, and its flags say where
the GTIDs are that are still to come. -/
@[mk_iff]
structure Tracks (start stop : Option RplGtid) (domainId : UInt32) (later : List RplGtid)
    (w : WindowFilter) : Prop where
  start_eq : w.start = start
  stop_eq : w.stop = stop
  start_domain : ∀ s ∈ start, s.domainId = domainId
  stop_domain : ∀ t ∈ stop, t.domainId = domainId
  active : w.isActive = true → ∀ s ∈ start, ∀ g ∈ later, g.domainId = domainId → s.seqNo < g.seqNo
  passed : w.hasPassed = true → ∃ t ∈ stop, ∀ g ∈ later, g.domainId = domainId → t.seqNo < g.seqNo

variable {start stop : Option RplGtid} {w : WindowFilter} {gtid : RplGtid} {later : List RplGtid}

theorem Tracks.tail {d : UInt32} (hw : w.Tracks start stop d (gtid :: later)) :
    w.Tracks start stop d later := by
  rw [tracks_iff] at hw ⊢
  grind

/-- **One GTID of a window.** -/
theorem exclude_spec (hset : start ≠ none ∨ stop ≠ none)
    (hw : w.Tracks start stop gtid.domainId (gtid :: later))
    (hinc : ∀ g ∈ later, gtid.domainId = g.domainId → gtid.seqNo < g.seqNo) :
    ((w.exclude gtid).2 = false ↔
      (∀ s ∈ start, s.seqNo < gtid.seqNo) ∧ ∀ t ∈ stop, gtid.seqNo ≤ t.seqNo) ∧
    (w.exclude gtid).1.Tracks start stop gtid.domainId later := by
  obtain ⟨start, stop, active, passed⟩ := w
  obtain ⟨rfl, rfl, hstart, hstop, hactive, hpassed⟩ := hw
  rw [tracks_iff]
  cases passed with
  | true =>
    -- every GTID is behind the stop
    obtain ⟨t, ht, hlt⟩ := hpassed rfl
    grind [exclude]
  | false =>
    cases active with
    | true =>
      -- the start was passed, and only the stop matters
      cases stop with
      | none => grind [exclude]
      | some t => grind [exclude, isGtidAtOrAfter, isGtidAtOrBefore]
    | false =>
      cases start with
      | none =>
        cases stop with
        | none => simp at hset
        | some t => grind [exclude, isGtidAtOrBefore]
      | some s =>
        cases stop with
        | none => grind [exclude, isGtidAtOrAfter]
        | some t => grind [exclude, isGtidAtOrAfter, isGtidAtOrBefore]

end WindowFilter

/-- `Accept_all_gtid_filter` and `Reject_all_gtid_filter` -/
inductive DefaultFilter
  | acceptAll
  | rejectAll
  deriving DecidableEq, Repr

/-- `Domain_gtid_event_filter`.  A domain that is not in `m_filters_by_id_hash` has a window without
bounds here. -/
structure DomainFilter where
  filtersById : UInt32 → WindowFilter
  numStatefulFilters : UInt32
  numCompletedFilters : UInt32
  defaultFilter : DefaultFilter
  /-- `m_stop_filters`, by the identifiers of the elements -/
  stopFilters : List UInt32

namespace DomainFilter

/-- The filter without positions. -/
def new : DomainFilter := ⟨fun _ => ⟨none, none, false, false⟩, 0, 0, .acceptAll, []⟩

/-- `add_start_gtid`, with its error code. -/
def addStartGtid (f : DomainFilter) (gtid : RplGtid) : DomainFilter × ℕ :=
  let w := f.filtersById gtid.domainId
  if w.start.isSome then (f, 1)
  else ({ f with filtersById := update f.filtersById gtid.domainId { w with start := gtid } }, 0)

/-- `add_stop_gtid`, with its error code. -/
def addStopGtid (f : DomainFilter) (gtid : RplGtid) : DomainFilter × ℕ :=
  let w := f.filtersById gtid.domainId
  if w.stop.isSome then (f, 1)
  else
    ({ f with
        filtersById := update f.filtersById gtid.domainId { w with stop := gtid }
        stopFilters := f.stopFilters ++ [gtid.domainId]
        numStatefulFilters := f.numStatefulFilters + 1
        defaultFilter :=
          if f.defaultFilter = .acceptAll then .rejectAll else f.defaultFilter }, 0)

def hasFinished (f : DomainFilter) : Bool :=
  f.numStatefulFilters ≠ 0 ∧ f.numCompletedFilters = f.numStatefulFilters

/-- `Id_delegating_gtid_event_filter::exclude` -/
def delegateExclude (f : DomainFilter) (gtid : RplGtid) : DomainFilter × Bool :=
  let w := f.filtersById gtid.domainId
  if w.start = none ∧ w.stop = none then (f, f.defaultFilter = .rejectAll)
  else if w.hasFinished then (f, true)
  else
    let (w, ret) := w.exclude gtid
    ({ f with
        filtersById := update f.filtersById gtid.domainId w
        numCompletedFilters :=
          if w.hasFinished then f.numCompletedFilters + 1 else f.numCompletedFilters }, ret)

/-- `Domain_gtid_event_filter::exclude`: if there are stops, domains without a stop are left out. -/
def exclude (f : DomainFilter) (gtid : RplGtid) : DomainFilter × Bool :=
  let w := f.filtersById gtid.domainId
  if f.stopFilters.length ≠ 0 ∧ w.start ≠ none ∧ w.stop = none then (f, true)
  else f.delegateExclude gtid

/-- The filter after some GTIDs of a stream. -/
def run (f : DomainFilter) (gtids : List RplGtid) : DomainFilter :=
  gtids.foldl (fun f gtid => (f.exclude gtid).1) f

/-- At most one GTID for each domain. -/
abbrev Positions := UInt32 → Option RplGtid

/-- The filter after the positions `start` and `stop` were added, in some order. -/
inductive Built : (start stop : Positions) → DomainFilter → Prop
  | new : Built (fun _ => none) (fun _ => none) new
  | start {a b : Positions} {f : DomainFilter} (gtid : RplGtid) : Built a b f →
      a gtid.domainId = none → Built (update a gtid.domainId gtid) b (f.addStartGtid gtid).1
  | stop {a b : Positions} {f : DomainFilter} (gtid : RplGtid) : Built a b f →
      b gtid.domainId = none → Built a (update b gtid.domainId gtid) (f.addStopGtid gtid).1

/-- The GTIDs of the requested windows.  Without a start there is no lower bound. -/
def Selected (start stop : Positions) (gtid : RplGtid) : Prop :=
  (∀ s ∈ start gtid.domainId, s.seqNo < gtid.seqNo) ∧
    ((∃ d, stop d ≠ none) → ∃ t ∈ stop gtid.domainId, gtid.seqNo ≤ t.seqNo)

/-! ### The run -/

/-- The filter for a request, before the GTIDs `later`. -/
structure Inv (a b : Positions) (later : List RplGtid) (f : DomainFilter) : Prop where
  tracks : ∀ d, (f.filtersById d).Tracks (a d) (b d) d later
  mem_stops : ∀ d, d ∈ f.stopFilters ↔ b d ≠ none
  nodup : f.stopFilters.Nodup
  default : f.defaultFilter = .acceptAll ↔ f.stopFilters = []
  stateful : f.numStatefulFilters = UInt32.ofNat f.stopFilters.length
  completed : ∃ done : List UInt32, done.Nodup ∧ f.numCompletedFilters = UInt32.ofNat done.length ∧
    ∀ d, d ∈ done ↔ (f.filtersById d).hasFinished = true

variable {a b : Positions} {f : DomainFilter} {gtid : RplGtid} {later : List RplGtid}

theorem Built.inv (hb : Built a b f) (later : List RplGtid) :
    Inv a b later f ∧
      ∀ d, (f.filtersById d).isActive = false ∧ (f.filtersById d).hasPassed = false := by
  induction hb with
  | new =>
    refine ⟨⟨fun d => ?_, ?_, .nil, ?_, rfl, [], .nil, rfl, ?_⟩, fun _ => ⟨rfl, rfl⟩⟩ <;>
      simp [DomainFilter.new, WindowFilter.tracks_iff, WindowFilter.hasFinished]
  | @start a b f gtid hb ha ih =>
    obtain ⟨⟨hw, hmem, hstops, hdef, hnum, done, hnd, hlen, hdone⟩, hidle⟩ := ih
    have hnone : (f.filtersById gtid.domainId).start = none := by rw [(hw _).start_eq, ha]
    simp only [addStartGtid, hnone, Option.isSome_none, Bool.false_eq_true, if_false]
    refine ⟨⟨?_, hmem, hstops, hdef, hnum, done, hnd, hlen, ?_⟩, ?_⟩ <;> intro d <;>
      by_cases hd : d = gtid.domainId <;> grind [WindowFilter.tracks_iff, WindowFilter.hasFinished]
  | @stop a b f gtid hb hb' ih =>
    obtain ⟨⟨hw, hmem, hstops, hdef, hnum, done, hnd, hlen, hdone⟩, hidle⟩ := ih
    have hnone : (f.filtersById gtid.domainId).stop = none := by rw [(hw _).stop_eq, hb']
    simp only [addStopGtid, hnone, Option.isSome_none, Bool.false_eq_true, if_false]
    have hnodup : (f.stopFilters ++ [gtid.domainId]).Nodup := by
      rw [← concat_eq_append]
      exact (nodup_concat _ _).2 ⟨by simp [hmem, hb'], hstops⟩
    refine ⟨⟨?_, ?_, hnodup, by simp; grind, by simp [hnum], done, hnd, hlen, ?_⟩, ?_⟩ <;> intro d <;>
      by_cases hd : d = gtid.domainId <;> grind [WindowFilter.tracks_iff, WindowFilter.hasFinished]

/-- **One GTID of the stream.** -/
theorem Inv.exclude (hf : Inv a b (gtid :: later) f)
    (hinc : ∀ g ∈ later, gtid.domainId = g.domainId → gtid.seqNo < g.seqNo) :
    ((f.exclude gtid).2 = false ↔ Selected a b gtid) ∧ Inv a b later (f.exclude gtid).1 := by
  have hstops : (∃ d, b d ≠ none) ↔ f.stopFilters ≠ [] := by
    simp only [← hf.mem_stops, ne_eq, eq_nil_iff_forall_not_mem, not_forall, not_not]
  have htail : Inv a b later f := { hf with tracks := fun d => (hf.tracks d).tail }
  have hlisted : b gtid.domainId ≠ none → f.stopFilters ≠ [] := fun h => hstops.1 ⟨_, h⟩
  have hdef := hf.default
  have hw := hf.tracks gtid.domainId
  simp only [DomainFilter.exclude, delegateExclude, Selected, hstops, hw.start_eq, hw.stop_eq,
    ne_eq, length_eq_zero_iff]
  generalize hd : f.filtersById gtid.domainId = w at hw
  generalize hs : a gtid.domainId = start at hw
  generalize ht : b gtid.domainId = stop at hw hlisted
  by_cases hout : ¬ f.stopFilters = [] ∧ ¬ start = none ∧ stop = none
  · exact ⟨by simp [hout], by simpa [hout]⟩
  by_cases hnone : start = none ∧ stop = none
  · exact ⟨by cases h : f.defaultFilter <;> simp_all, by simpa [hout, hnone]⟩
  have hsel : (¬ f.stopFilters = [] → ∃ t ∈ stop, gtid.seqNo ≤ t.seqNo) ↔
      ∀ t ∈ stop, gtid.seqNo ≤ t.seqNo := by
    cases stop <;> simp_all
  rw [if_neg hout, if_neg hnone, hsel]
  by_cases hfin : w.hasFinished = true
  · -- the stop was passed before
    obtain ⟨t, ht, hlt⟩ := hw.passed (Bool.and_eq_true_iff.1 hfin).2
    rw [if_pos hfin]
    exact ⟨by grind, htail⟩
  obtain ⟨hiff, hw'⟩ := w.exclude_spec (not_and_or.1 hnone) hw hinc
  obtain ⟨done, hnd, hlen, hdone⟩ := hf.completed
  rw [if_neg hfin]
  refine ⟨hiff, { htail with tracks := fun d => ?_, completed := ?_ }⟩
  · by_cases hdd : d = gtid.domainId <;> grind [htail.tracks]
  · by_cases hfin' : (w.exclude gtid).1.hasFinished = true
    · exact ⟨gtid.domainId :: done, by grind, by simp [hfin', hlen], by grind⟩
    · exact ⟨done, hnd, by simp [hfin', hlen], by grind⟩

theorem Inv.run {before : List RplGtid} (hf : Inv a b (before ++ later) f)
    (hinc : (before ++ later).Pairwise fun x y => x.domainId = y.domainId → x.seqNo < y.seqNo) :
    Inv a b later (f.run before) := by
  induction before generalizing f with
  | nil => exact hf
  | cons gtid before ih =>
    rw [cons_append, pairwise_cons] at hinc
    exact ih (hf.exclude hinc.1).2 hinc.2

/-- There are `2 ^ 32` domains. -/
theorem length_le_of_nodup {l : List UInt32} (h : l.Nodup) : l.length ≤ 2 ^ 32 := by
  have hsub : l.map UInt32.toNat ⊆ List.range (2 ^ 32) := fun n hn => by
    obtain ⟨d, -, rfl⟩ := mem_map.1 hn
    exact mem_range.2 d.toNat_lt
  simpa using ((h.map fun _ _ => UInt32.toNat_inj.1).subperm hsub).length_le

/-- When all windows with a stop have finished, nothing passes any more. -/
theorem Inv.finished (hf : Inv a b later f) (hfin : f.hasFinished = true) (gtid : RplGtid) :
    f.exclude gtid = (f, true) := by
  obtain ⟨hpos, heq⟩ := of_decide_eq_true hfin
  obtain ⟨done, hnd, hlen, hdone⟩ := hf.completed
  have hsub : done ⊆ f.stopFilters := by
    intro d hd
    rw [hf.mem_stops, ← (hf.tracks d).stop_eq, ← Option.isSome_iff_ne_none]
    exact (Bool.and_eq_true_iff.1 ((hdone d).1 hd)).1
  have hle := (hnd.subperm hsub).length_le
  have hmax := length_le_of_nodup hf.nodup
  rw [hlen, hf.stateful, ← UInt32.toNat_inj, UInt32.toNat_ofNat', UInt32.toNat_ofNat'] at heq
  rw [hf.stateful, ne_eq, ← UInt32.toNat_inj, UInt32.toNat_ofNat'] at hpos
  -- the number of stops is not 0 in 32 bits
  have hperm := (hnd.subperm hsub).perm_of_length_le (by simp at hpos; omega)
  have hall := hdone gtid.domainId
  rw [hperm.mem_iff, hf.mem_stops, ← (hf.tracks _).stop_eq] at hall
  have hstops : f.stopFilters ≠ [] := by
    rintro h
    simp [h] at hpos
  have hdef : f.defaultFilter = .rejectAll := by
    cases h : f.defaultFilter <;> simp_all [hf.default]
  grind [DomainFilter.exclude, delegateExclude]

/-- **Exactly the requested windows pass**, and nothing once `has_finished` is true. -/
theorem exclude_iff_selected (hb : Built a b f) (before : List RplGtid) (gtid : RplGtid)
    (hinc : (before ++ [gtid]).Pairwise fun x y => x.domainId = y.domainId → x.seqNo < y.seqNo) :
    (((f.run before).exclude gtid).2 = false ↔ Selected a b gtid) ∧
      ((f.run before).hasFinished = true →
        ∀ later g, (((f.run before).run later).exclude g).2 = true) := by
  have hf := (hb.inv _).1.run hinc
  refine ⟨(hf.exclude (by simp)).1, fun hfin later g => ?_⟩
  have hrun : (f.run before).run later = f.run before := by
    induction later with
    | nil => rfl
    | cons x later ih =>
      rw [run, foldl_cons, hf.finished hfin]
      exact ih
  rw [hrun, hf.finished hfin]

/-- The stop `0-1-5` alone. -/
def upToFive : DomainFilter := (new.addStopGtid ⟨0, 1, 5⟩).1

theorem built_upToFive :
    Built (fun _ => none) (update (fun _ => none) 0 (some ⟨0, 1, 5⟩)) upToFive :=
  .stop ⟨0, 1, 5⟩ .new rfl

/-- The stop itself passes, in a stream with another domain. -/
theorem exclude_iff_selected_upToFive :
    ((upToFive.run [⟨0, 1, 4⟩, ⟨1, 1, 1⟩]).exclude ⟨0, 2, 5⟩).2 = false :=
  (exclude_iff_selected built_upToFive [⟨0, 1, 4⟩, ⟨1, 1, 1⟩] ⟨0, 2, 5⟩ (by decide)).1.2
    ⟨by simp, fun _ => ⟨_, rfl, by decide⟩⟩

/-- Without a start the sequence number 0 passes too. -/
theorem zero_passes_without_start :
    Built (fun _ => none) (update (fun _ => none) 0 (some ⟨0, 1, 5⟩)) upToFive ∧
      (upToFive.exclude ⟨0, 1, 0⟩).2 = false :=
  ⟨built_upToFive, by decide⟩

end DomainFilter

end Gtid
