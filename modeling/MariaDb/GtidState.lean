/-
**The state of the binary log: the model.**

`rpl_binlog_state` (sql/rpl_gtid.cc) remembers, for every replication domain and every server, the
last GTID that was written to the binary log, and for every domain which of these is the most recent
one.  It is a hash of elements, one for a domain, and each element has a hash of GTIDs, one for a
server.  An element is named by its domain and a GTID in it by its server.  Of a GTID in an element
only `seq_no` is kept: its domain is that of the element.

The order in which the elements of a hash are enumerated is that of the links of the hash of mysys,
for any hash function `f`.  Every allocation may fail.

Main definitions:

* `RplGtid`, `Element`, `BinlogState`: a GTID, the GTIDs of a domain, the state;
* `BinlogState.updateNolock`, `BinlogState.updateWithNextGtid`, `BinlogState.bumpSeqNoIfNeeded`,
  `BinlogState.load`: the changes;
* `BinlogState.findNolock`, `BinlogState.findMostRecent`, `BinlogState.getGtidList`: what is read;
* `lastOf`, `recentOf`: what a list of GTIDs says of a server and of a domain.

Main results:

* `BinlogState.findNolock_eq_lastOf`, `BinlogState.findMostRecent_eq_recentOf`: the list of the
  GTIDs in a state says what the state says;
* `BinlogState.updateNolock_cases`, `BinlogState.updateWithNextGtid_cases`,
  `BinlogState.bumpSeqNoIfNeeded_cases`: what a call does, also without memory.
-/

import MariaDb.HashIds

set_option autoImplicit false

namespace Gtid

open HashTable Function List IdHash

structure RplGtid where
  domainId : UInt32
  serverId : UInt32
  seqNo : UInt64
  deriving DecidableEq, Repr

/-- Which of the allocations of a call succeed. -/
structure Memory where
  /-- an `element` -/
  element : Bool
  /-- an `rpl_gtid` -/
  gtid : Bool
  /-- a link in the hash of an element -/
  gtidLink : Bool
  /-- a link in the hash of the state -/
  elementLink : Bool

open Memory

/-- All of them succeed. -/
def Memory.enough : Memory := ⟨true, true, true, true⟩

inductive UpdateError where
  /-- `ER_GTID_STRICT_OUT_OF_ORDER`, with the new and the most recent GTID -/
  | strictOutOfOrder (gtid last : RplGtid)
  /-- `ER_OUT_OF_RESOURCES` -/
  | outOfResources
  deriving DecidableEq

variable {f : UInt32 → UInt32}

/-! ### The GTIDs of a domain -/

/-- `rpl_binlog_state::element`: `last_gtid` is a GTID in the hash, if there is any. -/
structure Element (f : UInt32 → UInt32) where
  /-- the servers -/
  hash : IdHash f
  /-- the field `seq_no` of the GTID of a server -/
  seqNo : UInt32 → UInt64
  /-- the server of the most recent GTID -/
  lastGtid : Option UInt32
  seqNoCounter : UInt64
  last_mem : ∀ server ∈ lastGtid, server ∈ hash.toList
  last_none : lastGtid = none → hash.toList = []

namespace Element

/-- An element without GTIDs. -/
def blank (seqNoCounter : UInt64) : Element f where
  hash := empty
  seqNo := fun _ => 0
  lastGtid := none
  seqNoCounter := seqNoCounter
  last_mem := by simp
  last_none := by simp

/-- A GTID becomes the most recent one. -/
def setLast (e : Element f) (gtid : RplGtid) (hash : IdHash f)
    (hmem : gtid.serverId ∈ hash.toList) : Element f where
  hash := hash
  seqNo := update e.seqNo gtid.serverId gtid.seqNo
  lastGtid := some gtid.serverId
  seqNoCounter := e.seqNoCounter
  last_mem := by rintro server ⟨⟩; exact hmem
  last_none := by simp

theorem mem_of_insert {h h' : IdHash f} {x : UInt32} {memory : Bool}
    (hins : h.insert x memory = (h', false)) : x ∈ h'.toList :=
  (perm_of_insert hins).2.mem_iff.2 mem_cons_self

theorem mem_of_search {h : IdHash f} {x y : UInt32} (hs : h.search x = some y) :
    y = x ∧ x ∈ h.toList := by
  rw [search_eq] at hs
  split at hs
  case isTrue hx => exact ⟨(Option.some.inj hs).symm, hx⟩
  case isFalse => cases hs

/-- `rpl_binlog_state::element::update_element`: returns whether there was an error. -/
def updateElement (e : Element f) (gtid : RplGtid) (memory : Memory) : Element f × Bool :=
  if hlast : e.lastGtid = some gtid.serverId then
    (e.setLast gtid e.hash (e.last_mem _ hlast), false)
  else
    match hs : e.hash.search gtid.serverId with
    | some _ => (e.setLast gtid e.hash (mem_of_search hs).2, false)
    | none =>
      if !memory.gtid then (e, true)
      else
        match hins : e.hash.insert gtid.serverId memory.gtidLink with
        | (hash, false) => (e.setLast gtid hash (mem_of_insert hins), false)
        | (_, true) => (e, true)

/-- **`update_element`** makes the GTID the most recent one, and keeps the GTIDs of the other
servers.  If there is not enough memory, it may do nothing. -/
theorem updateElement_spec (e : Element f) (gtid : RplGtid) (memory : Memory) :
    memory ≠ .enough ∧ e.updateElement gtid memory = (e, true) ∨
    ∃ hash hmem, e.updateElement gtid memory = (e.setLast gtid hash hmem, false) ∧
      ∀ x, x ∈ hash.toList ↔ x = gtid.serverId ∨ x ∈ e.hash.toList := by
  have hold (hmem : gtid.serverId ∈ e.hash.toList) (x : UInt32) :
      x ∈ e.hash.toList ↔ x = gtid.serverId ∨ x ∈ e.hash.toList :=
    (or_iff_right_of_imp fun hx => hx ▸ hmem).symm
  rw [updateElement]
  split
  case isTrue hlast => exact .inr ⟨e.hash, e.last_mem _ hlast, rfl, hold (e.last_mem _ hlast)⟩
  case isFalse =>
    split
    case h_1 hs => exact .inr ⟨e.hash, (mem_of_search hs).2, rfl, hold (mem_of_search hs).2⟩
    case h_2 hs =>
      have hnot : gtid.serverId ∉ e.hash.toList := by
        intro hx
        rw [search_eq, if_pos hx] at hs
        cases hs
      split
      case isTrue hm => exact .inl ⟨by rintro rfl; exact absurd hm (by decide), rfl⟩
      case isFalse =>
        split
        case h_1 hash hins =>
          refine .inr ⟨hash, mem_of_insert hins, rfl, fun x => ?_⟩
          rw [(perm_of_insert hins).2.mem_iff, mem_cons]
        case h_2 hins =>
          refine .inl ⟨?_, rfl⟩
          rintro rfl
          simpa [hnot, enough] using insert_fails hins

def find (e : Element f) (domainId serverId : UInt32) : Option RplGtid :=
  (e.hash.search serverId).map fun server => ⟨domainId, server, e.seqNo server⟩

/-- The loop `for (j= 0; j <= e->hash.records; ++j)`, which `write_to_iocache`, `get_gtid_list` and
`append_state` have in common: all GTIDs, the most recent one at the end. -/
def gtids (domainId : UInt32) (e : Element f) : List RplGtid :=
  match e.lastGtid with
  | none => []
  | some last =>
    (e.hash.toList.filter (· ≠ last) ++ [last]).map fun server => ⟨domainId, server, e.seqNo server⟩

end Element

/-! ### The state -/

/-- `rpl_binlog_state`, with the memory of the elements. -/
structure BinlogState (f : UInt32 → UInt32) where
  /-- the domains -/
  hash : IdHash f
  elem : UInt32 → Element f

namespace BinlogState

/-- `init`, and what `reset_nolock` leaves. -/
def init : BinlogState f := ⟨empty, fun _ => Element.blank 0⟩

variable (s : BinlogState f)

/-- `alloc_element_nolock`: returns whether there was an error. -/
def allocElementNolock (gtid : RplGtid) (memory : Memory) : BinlogState f × Bool :=
  if memory.element && memory.gtid then
    match hins : (empty : IdHash f).insert gtid.serverId memory.gtidLink with
    | (servers, false) =>
      match s.hash.insert gtid.domainId memory.elementLink with
      | (hash, false) =>
        (⟨hash, update s.elem gtid.domainId
          ((Element.blank gtid.seqNo).setLast gtid servers (Element.mem_of_insert hins))⟩, false)
      | (_, true) => (s, true)
    | (_, true) => (s, true)
  else (s, true)

/-- `elem->last_gtid && elem->last_gtid->seq_no >= gtid->seq_no`: the GTID that is in the way. -/
def outOfOrder (gtid : RplGtid) : Option RplGtid :=
  match (s.elem gtid.domainId).lastGtid with
  | none => none
  | some last =>
    let seqNo := (s.elem gtid.domainId).seqNo last
    if gtid.seqNo ≤ seqNo then some ⟨gtid.domainId, last, seqNo⟩ else none

/-- `if (elem->seq_no_counter < seq_no) elem->seq_no_counter= seq_no` -/
def bump (e : Element f) (seqNo : UInt64) : Element f :=
  if e.seqNoCounter < seqNo then { e with seqNoCounter := seqNo } else e

/-- An element after an `update_element`. -/
def setElement (domainId : UInt32) : Element f × Bool → BinlogState f × Bool
  | (e, err) => (⟨s.hash, update s.elem domainId e⟩, err)

def updateNolock (gtid : RplGtid) (strict : Bool) (memory : Memory) :
    BinlogState f × Option UpdateError :=
  match s.hash.search gtid.domainId with
  | some _ =>
    match if strict then s.outOfOrder gtid else none with
    | some last => (s, some (.strictOutOfOrder gtid last))
    | none =>
      match s.setElement gtid.domainId
        ((bump (s.elem gtid.domainId) gtid.seqNo).updateElement gtid memory) with
      | (s, err) => (s, if err then some .outOfResources else none)
  | none =>
    match s.allocElementNolock gtid memory with
    | (s, err) => (s, if err then some .outOfResources else none)

/-- `update_with_next_gtid`: returns the GTID, unless there was an error. -/
def updateWithNextGtid (domainId serverId : UInt32) (memory : Memory) :
    BinlogState f × Option RplGtid :=
  match s.hash.search domainId with
  | some _ =>
    let e := s.elem domainId
    let e := { e with seqNoCounter := e.seqNoCounter + 1 }
    let gtid : RplGtid := ⟨domainId, serverId, e.seqNoCounter⟩
    match s.setElement domainId (e.updateElement gtid memory) with
    | (s, err) => (s, if err then none else some gtid)
  | none =>
    let gtid : RplGtid := ⟨domainId, serverId, 1⟩
    match s.allocElementNolock gtid memory with
    | (s, err) => (s, if err then none else some gtid)

/-- `bump_seq_no_if_needed`: returns whether there was an error. -/
def bumpSeqNoIfNeeded (domainId : UInt32) (seqNo : UInt64) (memory : Memory) : BinlogState f × Bool :=
  match s.hash.search domainId with
  | some _ => (⟨s.hash, update s.elem domainId (bump (s.elem domainId) seqNo)⟩, false)
  | none =>
    if !memory.element then (s, true)
    else
      match s.hash.insert domainId memory.elementLink with
      | (hash, false) => (⟨hash, update s.elem domainId (Element.blank seqNo)⟩, false)
      | (_, true) => (s, true)

/-- The loop of `load`: returns whether there was an error. -/
def loadLoop (memory : ℕ → Memory) : ℕ → List RplGtid → BinlogState f → BinlogState f × Bool
  | _, [], s => (s, false)
  | i, gtid :: list, s =>
    match s.updateNolock gtid false (memory i) with
    | (s, none) => loadLoop memory (i + 1) list s
    | (s, some _) => (s, true)

/-- `load`, also from the GTIDs that a slave state enumerates: what was in the state is dropped. -/
def load (memory : ℕ → Memory) (list : List RplGtid) : BinlogState f × Bool :=
  loadLoop memory 0 list init

def findNolock (domainId serverId : UInt32) : Option RplGtid :=
  (s.hash.search domainId).bind fun domain => (s.elem domain).find domain serverId

def findMostRecent (domainId : UInt32) : Option RplGtid :=
  (s.hash.search domainId).bind fun domain =>
    (s.elem domain).lastGtid.map fun server => ⟨domain, server, (s.elem domain).seqNo server⟩

/-- The GTIDs in the order in which `get_gtid_list` stores them. -/
def getGtidList : List RplGtid :=
  s.hash.toList.flatMap fun domain => (s.elem domain).gtids domain

/-! ### Runs -/

inductive Op where
  | update (gtid : RplGtid) (strict : Bool) (memory : Memory)
  | updateWithNextGtid (domainId serverId : UInt32) (memory : Memory)
  | bumpSeqNoIfNeeded (domainId : UInt32) (seqNo : UInt64) (memory : Memory)
  | load (memory : ℕ → Memory) (list : List RplGtid)

def step : Op → BinlogState f
  | .update gtid strict memory => (s.updateNolock gtid strict memory).1
  | .updateWithNextGtid domainId serverId memory =>
    (s.updateWithNextGtid domainId serverId memory).1
  | .bumpSeqNoIfNeeded domainId seqNo memory => (s.bumpSeqNoIfNeeded domainId seqNo memory).1
  | .load memory list => (load memory list).1

def run (ops : List Op) : BinlogState f := ops.foldl step init

end BinlogState

/-! ### Lists of GTIDs -/

/-- The last GTID of a server in a list. -/
def lastOf (list : List RplGtid) (domainId serverId : UInt32) : Option RplGtid :=
  (list.filter fun g => g.domainId = domainId ∧ g.serverId = serverId).getLast?

/-- The last GTID of a domain in a list. -/
def recentOf (list : List RplGtid) (domainId : UInt32) : Option RplGtid :=
  (list.filter fun g => g.domainId = domainId).getLast?

namespace Element

/-- The GTIDs of an element that are from a server: there is one if the server is known. -/
theorem filter_gtids (e : Element f) (domainId serverId : UInt32) :
    (e.gtids domainId).filter (fun g => g.domainId = domainId ∧ g.serverId = serverId)
      = if serverId ∈ e.hash.toList then [⟨domainId, serverId, e.seqNo serverId⟩] else [] := by
  cases hlast : e.lastGtid with
  | none =>
    simp [gtids, hlast, e.last_none hlast]
  | some last =>
    have hmem := e.last_mem last hlast
    have hone : ∀ l : List UInt32, l.Nodup →
        (l.filter fun x => x = serverId) = if serverId ∈ l then [serverId] else [] := by
      intro l hl
      rw [filter_eq, hl.count]
      split <;> rfl
    have hnodup : (e.hash.toList.filter (· ≠ last) ++ [last]).Nodup := by
      rw [nodup_append]
      refine ⟨e.hash.nodup_toList.filter _, nodup_singleton _, ?_⟩
      intro x hx y hy
      rw [mem_singleton.1 hy]
      simpa using (mem_filter.1 hx).2
    have hiff : serverId ∈ e.hash.toList.filter (· ≠ last) ++ [last] ↔
        serverId ∈ e.hash.toList := by
      by_cases heq : serverId = last
      · simp [heq, hmem]
      · simp [heq]
    simp only [gtids, hlast]
    rw [filter_map]
    have hcomp : ((fun g : RplGtid => decide (g.domainId = domainId ∧ g.serverId = serverId)) ∘
        fun server => (⟨domainId, server, e.seqNo server⟩ : RplGtid))
          = fun x => decide (x = serverId) := by
      funext x
      simp
    rw [hcomp, hone _ hnodup]
    simp only [hiff]
    split <;> rfl

theorem domainId_of_mem_gtids {e : Element f} {domainId : UInt32} {g : RplGtid}
    (hg : g ∈ e.gtids domainId) : g.domainId = domainId := by
  unfold gtids at hg
  split at hg
  · simp at hg
  · obtain ⟨server, -, rfl⟩ := mem_map.1 hg
    rfl

theorem getLast?_gtids (e : Element f) (domainId : UInt32) :
    (e.gtids domainId).getLast? =
      e.lastGtid.map fun server => ⟨domainId, server, e.seqNo server⟩ := by
  unfold gtids
  split
  case h_1 hlast => simp [hlast]
  case h_2 last hlast => simp [hlast]

end Element

/-- In a list made of one part for each domain, the GTIDs of a domain are its part. -/
theorem filter_flatMap {domains : List UInt32} (hnodup : domains.Nodup)
    {part : UInt32 → List RplGtid} (hpart : ∀ d, ∀ g ∈ part d, g.domainId = d) (domainId : UInt32) :
    (domains.flatMap part).filter (fun g => g.domainId = domainId)
      = if domainId ∈ domains then part domainId else [] := by
  induction domains with
  | nil => rfl
  | cons d domains ih =>
    obtain ⟨hd, hrest⟩ := nodup_cons.1 hnodup
    rw [flatMap_cons, filter_append, ih hrest]
    by_cases heq : domainId = d
    · subst heq
      have hall : (part domainId).filter (fun g => g.domainId = domainId) = part domainId :=
        filter_eq_self.2 fun g hg => by simp [hpart domainId g hg]
      rw [hall, if_neg hd, if_pos mem_cons_self, append_nil]
    · have hnone : (part d).filter (fun g => g.domainId = domainId) = [] :=
        filter_eq_nil_iff.2 fun g hg => by simp [hpart d g hg, Ne.symm heq]
      rw [hnone, nil_append]
      simp [heq]

namespace BinlogState

variable (s : BinlogState f)

theorem filter_getGtidList (domainId : UInt32) :
    s.getGtidList.filter (fun g => g.domainId = domainId)
      = if domainId ∈ s.hash.toList then (s.elem domainId).gtids domainId else [] :=
  filter_flatMap s.hash.nodup_toList (fun _ _ hg => Element.domainId_of_mem_gtids hg) domainId

variable (domainId serverId : UInt32)

/-- The GTIDs of a server in the list of all GTIDs: at most one, that of the state. -/
theorem filter_getGtidList_server :
    s.getGtidList.filter (fun g => g.domainId = domainId ∧ g.serverId = serverId)
      = (s.findNolock domainId serverId).toList := by
  have hand : s.getGtidList.filter (fun g => g.domainId = domainId ∧ g.serverId = serverId)
      = (s.getGtidList.filter (fun g => g.domainId = domainId)).filter
        (fun g => g.domainId = domainId ∧ g.serverId = serverId) := by
    rw [filter_filter]
    refine filter_congr fun g _ => ?_
    by_cases hd : g.domainId = domainId <;> simp [hd]
  rw [hand, filter_getGtidList, findNolock, search_eq]
  split
  case isTrue =>
    rw [Element.filter_gtids, Option.bind_some, Element.find, search_eq]
    split <;> rfl
  case isFalse => rfl

/-- **What the list of the GTIDs says of a server is what the state says.** -/
theorem findNolock_eq_lastOf :
    s.findNolock domainId serverId = lastOf s.getGtidList domainId serverId := by
  rw [lastOf, filter_getGtidList_server]
  cases s.findNolock domainId serverId <;> rfl

/-- **What the list of the GTIDs says of a domain is what the state says.** -/
theorem findMostRecent_eq_recentOf (domainId : UInt32) :
    s.findMostRecent domainId = recentOf s.getGtidList domainId := by
  rw [recentOf, filter_getGtidList, findMostRecent, search_eq]
  split
  case isTrue => rw [Element.getLast?_gtids]; rfl
  case isFalse => rfl

/-! ### What a call does -/

theorem findNolock_eq : s.findNolock domainId serverId =
      if domainId ∈ s.hash.toList ∧ serverId ∈ (s.elem domainId).hash.toList then
        some ⟨domainId, serverId, (s.elem domainId).seqNo serverId⟩
      else none := by
  rw [findNolock, search_eq]
  by_cases hd : domainId ∈ s.hash.toList
  · rw [if_pos hd, Option.bind_some, Element.find, search_eq]
    by_cases hs : serverId ∈ (s.elem domainId).hash.toList <;> simp [hd, hs]
  · simp [hd]

theorem findMostRecent_eq (domainId : UInt32) : s.findMostRecent domainId =
      if domainId ∈ s.hash.toList then
        (s.elem domainId).lastGtid.map fun server =>
          ⟨domainId, server, (s.elem domainId).seqNo server⟩
      else none := by
  rw [findMostRecent, search_eq]
  split <;> rfl

/-- What an update does if it has enough memory: the element of the domain gets the GTID. -/
structure Updated (s s' : BinlogState f) (gtid : RplGtid) : Prop where
  domains : ∀ d, d ∈ s'.hash.toList ↔ d = gtid.domainId ∨ d ∈ s.hash.toList
  others : ∀ d, d ≠ gtid.domainId → s'.elem d = s.elem d
  servers : ∀ x, x ∈ (s'.elem gtid.domainId).hash.toList ↔ x = gtid.serverId ∨
    gtid.domainId ∈ s.hash.toList ∧ x ∈ (s.elem gtid.domainId).hash.toList
  seqNo : ∀ x, x ∈ (s'.elem gtid.domainId).hash.toList → (s'.elem gtid.domainId).seqNo x =
    if x = gtid.serverId then gtid.seqNo else (s.elem gtid.domainId).seqNo x
  last : (s'.elem gtid.domainId).lastGtid = some gtid.serverId

variable {s s' : BinlogState f} {gtid : RplGtid} {domainId : UInt32}

theorem Updated.findNolock (hu : Updated s s' gtid)
    (domainId serverId : UInt32) :
    s'.findNolock domainId serverId =
      if gtid.domainId = domainId ∧ gtid.serverId = serverId then some gtid
      else s.findNolock domainId serverId := by
  rw [findNolock_eq, findNolock_eq]
  simp only [hu.domains]
  by_cases hd : domainId = gtid.domainId
  · subst hd
    have hseq := hu.seqNo serverId
    simp only [hu.servers] at hseq ⊢
    by_cases hs : serverId = gtid.serverId
    · subst hs
      simp only [true_or, and_self, if_true]
      rw [hseq (.inl rfl), if_pos rfl]
    · simp only [hs, Ne.symm hs, true_or, false_or, true_and, and_false, if_false] at hseq ⊢
      split
      case isTrue hmem => rw [hseq hmem]
      case isFalse => rfl
  · rw [hu.others domainId hd]
    simp [hd, Ne.symm hd]

theorem Updated.findMostRecent (hu : Updated s s' gtid)
    (domainId : UInt32) :
    s'.findMostRecent domainId =
      if gtid.domainId = domainId then some gtid else s.findMostRecent domainId := by
  rw [findMostRecent_eq, findMostRecent_eq]
  simp only [hu.domains]
  by_cases hd : domainId = gtid.domainId
  · subst hd
    have hseq := hu.seqNo gtid.serverId ((hu.servers _).2 (.inl rfl))
    simp [hu.last, hseq]
  · rw [hu.others domainId hd]
    simp [hd, Ne.symm hd]

/-- The counter of a domain has come to a number. -/
def Reached (s : BinlogState f) (domainId : UInt32) (seqNo : UInt64) : Prop :=
  domainId ∈ s.hash.toList ∧ seqNo ≤ (s.elem domainId).seqNoCounter

/-- No GTID is recorded, and no counter goes back. -/
structure Kept (s s' : BinlogState f) : Prop where
  find : ∀ d server, s'.findNolock d server = s.findNolock d server
  recent : ∀ d, s'.findMostRecent d = s.findMostRecent d
  reached : ∀ d n, s.Reached d n → s'.Reached d n

/-- A GTID is recorded, the counter comes to its number, and no counter goes back. -/
structure Recorded (s s' : BinlogState f) (gtid : RplGtid) : Prop extends Updated s s' gtid where
  counted : s'.Reached gtid.domainId gtid.seqNo
  reached : ∀ d n, s.Reached d n → s'.Reached d n

/-- What a call may do that records a GTID unless there is an error. -/
def Tries (s : BinlogState f) (gtid : RplGtid) (memory : Memory) (r : BinlogState f × Bool) : Prop :=
  (r.2 = true ∧ memory ≠ .enough ∧ Kept s r.1) ∨ r.2 = false ∧ Recorded s r.1 gtid

theorem Kept.refl (s : BinlogState f) : Kept s s := ⟨fun _ _ => rfl, fun _ => rfl, fun _ _ h => h⟩

theorem Updated.recorded (hu : Updated s s' gtid)
    (hcount : gtid.seqNo ≤ (s'.elem gtid.domainId).seqNoCounter)
    (hle : gtid.domainId ∈ s.hash.toList →
      (s.elem gtid.domainId).seqNoCounter ≤ (s'.elem gtid.domainId).seqNoCounter) :
    Recorded s s' gtid where
  toUpdated := hu
  counted := ⟨(hu.domains _).2 (.inl rfl), hcount⟩
  reached d n h := by
    refine ⟨(hu.domains d).2 (.inr h.1), ?_⟩
    by_cases hd : d = gtid.domainId
    · subst hd
      exact UInt64.le_trans h.2 (hle h.1)
    · rw [hu.others d hd]
      exact h.2


/-- An element changes that says of the GTIDs what the state said. -/
theorem kept_update {hash : IdHash f} {e : Element f}
    (hmem : ∀ d, d ∈ hash.toList ↔ d = domainId ∨ d ∈ s.hash.toList)
    (hfind : ∀ server, e.find domainId server = s.findNolock domainId server)
    (hrecent : (e.lastGtid.map fun server => ⟨domainId, server, e.seqNo server⟩)
      = s.findMostRecent domainId)
    (hle : domainId ∈ s.hash.toList → (s.elem domainId).seqNoCounter ≤ e.seqNoCounter) :
    Kept s ⟨hash, update s.elem domainId e⟩ := by
  refine ⟨fun d server => ?_, fun d => ?_, fun d n h => ⟨(hmem d).2 (.inr h.1), ?_⟩⟩
  all_goals by_cases hd : d = domainId
  · subst hd
    rw [← hfind, findNolock, search_eq]
    simp [hmem]
  · simp [findNolock_eq, hmem, hd]
  · subst hd
    rw [← hrecent, findMostRecent, search_eq]
    simp [hmem]
  · simp [findMostRecent_eq, hmem, hd]
  · subst hd
    simpa using UInt64.le_trans h.2 (hle h.1)
  · simpa [hd] using h.2

/-- Only the counter of a domain changes. -/
theorem kept_counter (hd : domainId ∈ s.hash.toList) {c : UInt64}
    (hc : (s.elem domainId).seqNoCounter ≤ c) :
    Kept s ⟨s.hash, update s.elem domainId { s.elem domainId with seqNoCounter := c }⟩ := by
  refine kept_update (fun d => (or_iff_right_of_imp fun h => h ▸ hd).symm) (fun server => ?_) ?_
    fun _ => hc
  · rw [findNolock, search_eq, if_pos hd]
    rfl
  · rw [findMostRecent, search_eq, if_pos hd]
    rfl

/-- A GTID of a known domain, when its counter is at `c`. -/
theorem tries_setElement (gtid : RplGtid) (hd : gtid.domainId ∈ s.hash.toList) {c : UInt64}
    (hle : (s.elem gtid.domainId).seqNoCounter ≤ c) (hn : gtid.seqNo ≤ c) (memory : Memory) :
    Tries s gtid memory (s.setElement gtid.domainId
      (Element.updateElement { s.elem gtid.domainId with seqNoCounter := c } gtid memory)) := by
  rcases Element.updateElement_spec { s.elem gtid.domainId with seqNoCounter := c } gtid memory with
    ⟨hm, hup⟩ | ⟨hash, hmem, hup, hiff⟩
  · rw [hup]
    exact .inl ⟨rfl, hm, kept_counter hd hle⟩
  rw [hup]
  refine .inr ⟨rfl, Updated.recorded ⟨fun d => (or_iff_right_of_imp fun h => h ▸ hd).symm,
    fun d hne => update_of_ne hne _ _, fun x => ?_, fun x _ => ?_, ?_⟩ ?_ fun _ => ?_⟩
  all_goals simp only [setElement, update_self, Element.setLast]
  · rw [hiff]
    simp [hd]
  · rw [update_apply]
  · exact hn
  · exact hle

/-- A GTID of a new domain. -/
theorem tries_alloc (gtid : RplGtid) (hd : gtid.domainId ∉ s.hash.toList) (memory : Memory) :
    Tries s gtid memory (s.allocElementNolock gtid memory) := by
  rw [allocElementNolock]
  split
  case isFalse hm => exact .inl ⟨rfl, by rintro rfl; exact hm rfl, .refl s⟩
  case isTrue =>
    split
    case h_2 hins =>
      exact .inl ⟨rfl, by rintro rfl; simpa [enough] using insert_fails hins, .refl s⟩
    case h_1 servers hins =>
      have hservers (x : UInt32) : x ∈ servers.toList ↔ x = gtid.serverId := by
        rw [(perm_of_insert hins).2.mem_iff]
        exact mem_singleton
      split
      case h_2 hins' =>
        exact .inl ⟨rfl, by rintro rfl; simpa [enough, hd] using insert_fails hins', .refl s⟩
      case h_1 hash hins' =>
        refine .inr ⟨rfl, Updated.recorded ⟨fun d => ?_, fun d hne => update_of_ne hne _ _,
          fun x => ?_, fun x hx => ?_, ?_⟩ ?_ fun h => absurd h hd⟩
        · rw [(perm_of_insert hins').2.mem_iff, mem_cons]
        all_goals simp only [update_self, Element.setLast] at *
        · rw [hservers]
          simp [hd]
        · rw [if_pos ((hservers x).1 hx), (hservers x).1 hx, update_self]
        · exact UInt64.le_refl _

theorem bump_eq (e : Element f) (seqNo : UInt64) :
    ∃ c, bump e seqNo = { e with seqNoCounter := c } ∧ e.seqNoCounter ≤ c ∧ seqNo ≤ c := by
  rw [bump]
  split
  case isTrue h => exact ⟨seqNo, rfl, UInt64.le_of_lt h, UInt64.le_refl _⟩
  case isFalse h => exact ⟨e.seqNoCounter, rfl, UInt64.le_refl _, UInt64.not_lt.1 h⟩

/-- **`update`** records the GTID, in strict mode only after those of smaller numbers. -/
theorem updateNolock_cases (s : BinlogState f) (gtid : RplGtid) (strict : Bool) (memory : Memory) :
    let r := s.updateNolock gtid strict memory
    ((∃ err, r.2 = some err) ∧ (strict = true ∨ memory ≠ .enough) ∧ Kept s r.1) ∨
    r.2 = none ∧ Recorded s r.1 gtid ∧
      (strict = true → ∀ last ∈ s.findMostRecent gtid.domainId, last.seqNo < gtid.seqNo) := by
  rw [updateNolock, search_eq, findMostRecent_eq]
  by_cases hd : gtid.domainId ∈ s.hash.toList
  · obtain ⟨c, hbump, hle, hn⟩ := bump_eq (s.elem gtid.domainId) gtid.seqNo
    simp only [if_pos hd, hbump]
    split
    case h_1 hin =>
      refine .inl ⟨⟨_, rfl⟩, .inl ?_, .refl s⟩
      by_contra hstrict
      rw [if_neg hstrict] at hin
      cases hin
    case h_2 hin =>
      rcases tries_setElement gtid hd hle hn memory with ⟨herr, hm, hkept⟩ | ⟨herr, hrec⟩
      · exact .inl ⟨⟨_, if_pos herr⟩, .inr hm, hkept⟩
      refine .inr ⟨by simp [herr], hrec, fun hstrict last hlast => ?_⟩
      obtain ⟨server, hserver, rfl⟩ := Option.map_eq_some_iff.1 hlast
      rw [if_pos hstrict, outOfOrder, hserver] at hin
      dsimp only at hin
      split at hin
      case isTrue => cases hin
      case isFalse hlt => exact UInt64.not_le.1 hlt
  · simp only [if_neg hd]
    rcases tries_alloc gtid hd memory with ⟨herr, hm, hkept⟩ | ⟨herr, hrec⟩
    · exact .inl ⟨⟨_, if_pos herr⟩, .inr hm, hkept⟩
    · exact .inr ⟨by simp [herr], hrec, by simp⟩

/-- **An update with enough memory, not in strict mode, cannot fail.** -/
theorem updateNolock_enough (s : BinlogState f) (gtid : RplGtid) :
    ∃ s', s.updateNolock gtid false .enough = (s', none) ∧ Updated s s' gtid := by
  rcases s.updateNolock_cases gtid false .enough with ⟨-, h | h, -⟩ | ⟨hok, hrec, -⟩
  · cases h
  · exact absurd rfl h
  · exact ⟨_, Prod.ext rfl hok, hrec.toUpdated⟩

/-- The call finds a next number. -/
def Room (s : BinlogState f) : Op → Prop
  | .updateWithNextGtid domainId _ _ => ¬ s.Reached domainId 0xFFFFFFFFFFFFFFFF
  | _ => True

/-- **`update_with_next_gtid`** records a GTID with a new number, if there is a next one. -/
theorem updateWithNextGtid_cases {serverId : UInt32} {memory : Memory}
    (hroom : s.Room (.updateWithNextGtid domainId serverId memory)) :
    let r := s.updateWithNextGtid domainId serverId memory
    r.2 = none ∧ Kept s r.1 ∨ ∃ gtid, r.2 = some gtid ∧ gtid.domainId = domainId ∧
      Recorded s r.1 gtid ∧ ∀ n, s.Reached domainId n → n < gtid.seqNo := by
  rw [updateWithNextGtid, search_eq]
  by_cases hd : domainId ∈ s.hash.toList
  · simp only [if_pos hd]
    have hlt : (s.elem domainId).seqNoCounter < (s.elem domainId).seqNoCounter + 1 := by
      have hne : ¬ (0xFFFFFFFFFFFFFFFF : UInt64) ≤ (s.elem domainId).seqNoCounter :=
        fun h => hroom ⟨hd, h⟩
      rw [UInt64.le_iff_toNat_le] at hne
      rw [UInt64.lt_iff_toNat_lt, UInt64.toNat_add]
      have hmax : (0xFFFFFFFFFFFFFFFF : UInt64).toNat = 2 ^ 64 - 1 := rfl
      have hone : (1 : UInt64).toNat = 1 := rfl
      omega
    rcases tries_setElement ⟨domainId, serverId, (s.elem domainId).seqNoCounter + 1⟩ hd
      (UInt64.le_of_lt hlt) (UInt64.le_refl _) memory with ⟨herr, -, hkept⟩ | ⟨herr, hrec⟩
    · exact .inl ⟨if_pos herr, hkept⟩
    · exact .inr ⟨_, by rw [herr]; rfl, rfl, hrec, fun n h => UInt64.lt_of_le_of_lt h.2 hlt⟩
  · simp only [if_neg hd]
    rcases tries_alloc ⟨domainId, serverId, 1⟩ hd memory with ⟨herr, -, hkept⟩ | ⟨herr, hrec⟩
    · exact .inl ⟨if_pos herr, hkept⟩
    · exact .inr ⟨_, by rw [herr]; rfl, rfl, hrec, fun n h => absurd h.1 hd⟩

/-- **`bump_seq_no_if_needed`** records nothing; the counter comes to the number. -/
theorem bumpSeqNoIfNeeded_cases (s : BinlogState f) (domainId : UInt32) (seqNo : UInt64)
    (memory : Memory) :
    let r := s.bumpSeqNoIfNeeded domainId seqNo memory
    Kept s r.1 ∧ (r.2 = false → r.1.Reached domainId seqNo) := by
  rw [bumpSeqNoIfNeeded, search_eq]
  by_cases hd : domainId ∈ s.hash.toList
  · obtain ⟨c, hbump, hle, hn⟩ := bump_eq (s.elem domainId) seqNo
    simp only [if_pos hd, hbump]
    exact ⟨kept_counter hd hle, fun _ => ⟨hd, by simpa using hn⟩⟩
  simp only [if_neg hd]
  split
  case isTrue => exact ⟨.refl s, by simp⟩
  case isFalse =>
    split
    case h_2 => exact ⟨.refl s, by simp⟩
    case h_1 hash hins =>
      have hmem (d : UInt32) : d ∈ hash.toList ↔ d = domainId ∨ d ∈ s.hash.toList := by
        rw [(perm_of_insert hins).2.mem_iff, mem_cons]
      refine ⟨kept_update hmem (fun server => ?_) ?_ fun h => absurd h hd,
        fun _ => ⟨(hmem _).2 (.inl rfl), by simp [Element.blank]⟩⟩
      · simp [findNolock, search_eq, hd, Element.find, Element.blank]
      · simp [findMostRecent, search_eq, hd, Element.blank]

end BinlogState

end Gtid
