/-
**Dropping domains from the state of the binary log.**

`rpl_binlog_state::drop_domain` removes replication domains on request.  This is safe for a domain
whose GTIDs have all been purged from the binary log, which is when the last GTID of each of its
servers is in the list event at the start of the oldest log file.  The code means to look for the
GTID of every server, but keeps one flag for all of them: it is content with one GTID of the domain
that is in the list, and never content with a domain that has no GTIDs.  The domains to be removed
are collected without duplicates, but the test compares a place in the array with an element, instead
of what stands there, so that a domain requested twice is removed twice; the second time its element
has been freed.

Main definitions:

* `dropDomain`: the function, undefined where it uses a freed element;
* `Covered`: every last GTID of the domain is in the list;
* `DropsSafely`: what the function is for.

Main results:

* `dropDomain_safe_iff`: **when the function does what it is for**.
-/

import MariaDb.GtidState

set_option autoImplicit false

namespace Gtid

open HashTable List

variable {f : UInt32 → UInt32}

/-! ### The function -/

variable (unique : List UInt32) (s : BinlogState f) (gtid : RplGtid)

/-- The text `'%u-%u-%llu'` of a GTID. -/
def gtidString : String :=
  toString gtid.domainId.toNat ++ "-" ++ toString gtid.serverId.toNat ++ "-" ++
    toString gtid.seqNo.toNat

/-- What the first loop writes to `errbuf` for a GTID of the list event, if anything. -/
def inconsistency (gtid : RplGtid) : Option String :=
  match s.findNolock gtid.domainId gtid.serverId with
  | none =>
    some ("missing gtids from the '" ++ toString gtid.domainId.toNat ++ "-" ++
      toString gtid.serverId.toNat ++ "' domain-server pair which is " ++
      "referred to in the gtid list describing an earlier state. Ignore " ++
      "if the domain ('" ++ toString gtid.domainId.toNat ++ "') was already explicitly deleted")
  | some rbStateGtid =>
    if rbStateGtid.seqNo < gtid.seqNo then
      some ("having a gtid '" ++ gtidString rbStateGtid ++ "' which is less than " ++
        "the '" ++ gtidString gtid ++ "' of the gtid list describing an earlier state. " ++
        "The state may have been affected by manually injecting " ++
        "a lower sequence number gtid or via replication")
    else none

/-- The warnings of the first loop. -/
def inconsistencyWarnings (glev : List RplGtid) : List String :=
  (glev.filterMap (inconsistency s)).map fun errbuf =>
    "The current gtid binlog state is incompatible with a former one " ++ errbuf ++ "."

/-- The warning for a domain that is not there. -/
def unknownWarning (domainId : UInt32) : String :=
  "The gtid domain being deleted ('" ++ toString domainId.toNat ++
    "') is not in the current binlog state"

/-- The error for a domain that may not be dropped. -/
def purgeError (domainId : UInt32) : String :=
  "binlog files may contain gtids from the domain ('" ++ toString domainId.toNat ++
    "') being deleted. Make sure to first purge those files"

/-- The last GTIDs of the servers of a domain. -/
def Element.all (domainId : UInt32) (e : Element f) : List RplGtid :=
  e.hash.toList.map fun server => ⟨domainId, server, e.seqNo server⟩

/-- The loop `for (l= 0; l < glev->count && not_match; l++)`. -/
def listLoop (gtid : RplGtid) : Bool → List RplGtid → Bool
  | notMatch, [] => notMatch
  | notMatch, g :: glev => if notMatch then listLoop gtid (!(gtid == g)) glev else notMatch

/-- The loop over the servers of a domain, with the flag `not_match`. -/
def matchLoop (glev : List RplGtid) : Bool → List RplGtid → Bool
  | notMatch, [] => notMatch
  | notMatch, gtid :: gtids => matchLoop glev (listLoop gtid notMatch glev) gtids

/-- An address: an element, or the place `k` in the array `domain_unique`. -/
inductive Address where
  | element (domainId : UInt32)
  | place (k : ℕ)
  deriving DecidableEq

/-- The search for `elem` in `domain_unique`: `dynamic_array_ptr` is the address of a place, and it is
this address that is compared with `elem`. -/
def alreadyIn (unique : List UInt32) (domainId : UInt32) : Bool :=
  (List.range unique.length).any fun k => Address.place k == Address.element domainId

/-- The loop over the requested domains: the elements to remove, or an error, and the warnings. -/
def collectLoop (s : BinlogState f) (glev : List RplGtid) :
    List UInt32 → List UInt32 → List String → Except String (List UInt32) × List String
  | [], unique, warnings => (.ok unique, warnings)
  | domainId :: ids, unique, warnings =>
    match s.hash.search domainId with
    | none => collectLoop s glev ids unique (warnings ++ [unknownWarning domainId])
    | some domain =>
      if matchLoop glev true ((s.elem domain).all domain) then
        (.error (purgeError domainId), warnings)
      else if alreadyIn unique domain then collectLoop s glev ids unique warnings
      else collectLoop s glev ids (unique ++ [domain]) warnings

/-- The loop that removes the elements: `my_hash_delete` frees an element, and an element that was
freed must not be used. -/
def removeLoop : List UInt32 → BinlogState f → Option (BinlogState f)
  | [], s => some s
  | domain :: unique, s =>
    if domain ∈ s.hash.toList then removeLoop unique ⟨(s.hash.delete domain).1, s.elem⟩ else none

/-- What `drop_domain` leaves: `errmsg` is `NULL`, empty or a message. -/
structure DropResult (f : UInt32 → UInt32) where
  state : BinlogState f
  errmsg : Option String
  /-- the elements that were removed, one after another -/
  removed : List UInt32
  warnings : List String

def dropDomain (ids : List UInt32) (glev : List RplGtid) : Option (DropResult f) :=
  match collectLoop s glev ids [] (inconsistencyWarnings s glev) with
  | (.error errmsg, warnings) => some ⟨s, some errmsg, [], warnings⟩
  | (.ok unique, warnings) =>
    (removeLoop unique s).map fun s' =>
      ⟨s', if unique.length = 0 then some "" else none, unique, warnings⟩

/-! ### What it is for -/

/-- An error: `errmsg` is a message that is not empty. -/
def DropResult.IsError (r : DropResult f) : Prop := ∃ errmsg ∈ r.errmsg, errmsg ≠ ""

/-- The last GTID of every server of the domain is in the list. -/
def Covered (glev : List RplGtid) (domainId : UInt32) : Prop :=
  ∀ gtid ∈ (s.elem domainId).all domainId, gtid ∈ glev

/-- Domains are removed only when that is safe; if one of the requested domains may not be removed
there is an error and nothing changes; else exactly the requested domains are removed, each of them
once, and the others keep their GTIDs. -/
def DropsSafely (ids : List UInt32) (glev : List RplGtid) : Prop :=
  ∃ r, dropDomain s ids glev = some r ∧
    (∀ d ∈ s.hash.toList, d ∉ r.state.hash.toList → Covered s glev d) ∧
    ((∃ d ∈ ids, d ∈ s.hash.toList ∧ ¬ Covered s glev d) → r.IsError ∧ r.state = s) ∧
    ((∀ d ∈ ids, d ∈ s.hash.toList → Covered s glev d) →
      ¬ r.IsError ∧ r.removed.Nodup ∧ (∀ d, d ∈ r.removed ↔ d ∈ ids ∧ d ∈ s.hash.toList) ∧
      (∀ d, d ∈ r.state.hash.toList ↔ d ∈ s.hash.toList ∧ d ∉ ids) ∧
      ∀ d ∈ r.state.hash.toList, r.state.elem d = s.elem d)

/-! ### The loops -/

/-- No GTID of the domain is in the list. -/
def Unmatched (glev : List RplGtid) (domainId : UInt32) : Prop :=
  ∀ gtid ∈ (s.elem domainId).all domainId, gtid ∉ glev

theorem listLoop_false (glev : List RplGtid) : listLoop gtid false glev = false := by
  cases glev <;> rfl

theorem listLoop_true (glev : List RplGtid) : listLoop gtid true glev = decide (gtid ∉ glev) := by
  induction glev with
  | nil => rfl
  | cons g glev ih =>
    rw [listLoop, if_pos rfl]
    by_cases heq : gtid = g
    · simp [heq, listLoop_false]
    · have hbeq : (gtid == g) = false := beq_eq_false_iff_ne.2 heq
      rw [hbeq, Bool.not_false, ih]
      simp [heq]

theorem matchLoop_false (glev gtids : List RplGtid) : matchLoop glev false gtids = false := by
  induction gtids with
  | nil => rfl
  | cons gtid gtids ih => rw [matchLoop, listLoop_false, ih]

/-- **The flag is set only if no GTID at all was found.** -/
theorem matchLoop_eq (glev gtids : List RplGtid) :
    matchLoop glev true gtids = true ↔ ∀ gtid ∈ gtids, gtid ∉ glev := by
  induction gtids with
  | nil => simp [matchLoop]
  | cons gtid gtids ih =>
    rw [matchLoop, listLoop_true]
    by_cases hmem : gtid ∈ glev
    · simp [hmem, matchLoop_false]
    · simp [hmem, ih]

theorem alreadyIn_eq_false (domainId : UInt32) : alreadyIn unique domainId = false := by
  simp [alreadyIn]

theorem purgeError_ne (domainId : UInt32) : purgeError domainId ≠ "" := by
  intro h
  exact absurd (String.append_eq_empty_iff.1 h).2 (by decide)

/-- **What is collected**: an error if a requested domain has no match, else all requested domains
that exist, with their duplicates. -/
theorem collectLoop_spec (glev : List RplGtid) (ids unique : List UInt32) (warnings : List String) :
    (∃ d ∈ ids, d ∈ s.hash.toList ∧ Unmatched s glev d) ∧
      (∃ errmsg warnings', errmsg ≠ "" ∧
        collectLoop s glev ids unique warnings = (.error errmsg, warnings')) ∨
    (∀ d ∈ ids, d ∈ s.hash.toList → ¬ Unmatched s glev d) ∧
      ∃ warnings', collectLoop s glev ids unique warnings
        = (.ok (unique ++ ids.filter fun d => d ∈ s.hash.toList), warnings') := by
  induction ids generalizing unique warnings with
  | nil => exact .inr ⟨by simp, warnings, by simp [collectLoop]⟩
  | cons domainId ids ih =>
    by_cases hun : domainId ∈ s.hash.toList ∧ Unmatched s glev domainId
    · -- the first requested domain without a match ends the loop
      refine .inl ⟨⟨domainId, mem_cons_self, hun⟩, purgeError domainId, warnings,
        purgeError_ne domainId, ?_⟩
      simp [collectLoop, IdHash.search_eq, hun.1, (matchLoop_eq _ _).2 hun.2]
    obtain ⟨unique', warnings', hloop, hlist⟩ : ∃ unique' warnings',
        collectLoop s glev (domainId :: ids) unique warnings =
          collectLoop s glev ids unique' warnings' ∧
        unique' ++ (ids.filter fun d => d ∈ s.hash.toList) =
          unique ++ (domainId :: ids).filter fun d => d ∈ s.hash.toList := by
      rw [collectLoop, IdHash.search_eq]
      by_cases hd : domainId ∈ s.hash.toList
      · have hno : matchLoop glev true ((s.elem domainId).all domainId) = false := by
          rw [← Bool.not_eq_true, matchLoop_eq]
          exact fun h => hun ⟨hd, h⟩
        simp only [hd, if_true, hno, alreadyIn_eq_false, Bool.false_eq_true, if_false]
        exact ⟨_, _, rfl, by simp [hd]⟩
      · simp only [hd, if_false]
        exact ⟨_, _, rfl, by simp [hd]⟩
    rw [hloop, ← hlist]
    refine (ih unique' warnings').imp (And.imp_left ?_) (And.imp_left ?_)
    · rintro ⟨d, hmem, hex⟩
      exact ⟨d, mem_cons_of_mem _ hmem, hex⟩
    · exact fun hall => forall_mem_cons.2 ⟨fun hd h => hun ⟨hd, h⟩, hall⟩

/-- The loop must not come to an element that is not there. -/
theorem removeLoop_freed {domain : UInt32} {unique : List UInt32}
    (hmem : domain ∈ unique) (hfreed : domain ∉ s.hash.toList) : removeLoop unique s = none := by
  induction unique generalizing s with
  | nil => exact absurd hmem not_mem_nil
  | cons x unique ih =>
    rw [removeLoop]
    split
    case isFalse => rfl
    case isTrue hx =>
      have hne : domain ≠ x := fun heq => hfreed (heq ▸ hx)
      obtain ⟨hash, hdel, hperm⟩ := IdHash.delete_spec hx
      rw [hdel]
      refine ih _ ((mem_cons.1 hmem).resolve_left hne) fun hin => hfreed ?_
      rw [hperm.mem_iff]
      exact mem_cons_of_mem _ hin

/-- **What is removed**: the elements of the list, if they are all there and none is there twice. -/
theorem removeLoop_spec (hunique : ∀ d ∈ unique, d ∈ s.hash.toList) :
    (¬ unique.Nodup ∧ removeLoop unique s = none) ∨
    unique.Nodup ∧ ∃ hash, removeLoop unique s = some ⟨hash, s.elem⟩ ∧
      ∀ d, d ∈ hash.toList ↔ d ∈ s.hash.toList ∧ d ∉ unique := by
  induction unique generalizing s with
  | nil => exact .inr ⟨nodup_nil, s.hash, rfl, by simp⟩
  | cons domain unique ih =>
    have hd := hunique domain mem_cons_self
    obtain ⟨hash, hdel, hperm⟩ := IdHash.delete_spec hd
    have hnodup := hperm.nodup_iff.1 s.hash.nodup_toList
    have hnot : domain ∉ hash.toList := (nodup_cons.1 hnodup).1
    rw [removeLoop, if_pos hd, hdel, nodup_cons]
    by_cases hdup : domain ∈ unique
    · -- the second time the element is not there any more
      refine .inl ⟨fun h => h.1 hdup, ?_⟩
      exact removeLoop_freed ⟨hash, s.elem⟩ hdup hnot
    have hrest : ∀ d ∈ unique, d ∈ hash.toList := by
      intro d hmem
      have hs := hperm.mem_iff.1 (hunique d (mem_cons_of_mem _ hmem))
      exact (mem_cons.1 hs).resolve_left (ne_of_mem_of_not_mem hmem hdup)
    rcases ih ⟨hash, s.elem⟩ hrest with ⟨hno, hnone⟩ | ⟨hyes, hash', hsome, hiff⟩
    · exact .inl ⟨fun h => hno h.2, hnone⟩
    refine .inr ⟨⟨hdup, hyes⟩, hash', hsome, fun d => ?_⟩
    have hne : d ∈ hash.toList → d ≠ domain := fun hmem => ne_of_mem_of_not_mem hmem hnot
    rw [hiff, hperm.mem_iff, mem_cons, mem_cons]
    tauto

/-! ### When it does what it is for -/

/-- **When `drop_domain` does what it is for**: if there is an error to report and the code finds it,
because a requested domain has no GTID in the list at all; or if every requested domain has GTIDs, all
of them in the list, and none of them is requested twice. -/
theorem dropDomain_safe_iff (s : BinlogState f) (ids : List UInt32) (glev : List RplGtid) :
    DropsSafely s ids glev ↔
      (∃ d ∈ ids, d ∈ s.hash.toList ∧ ¬ Covered s glev d) ∧
        (∃ d ∈ ids, d ∈ s.hash.toList ∧ ∀ gtid ∈ (s.elem d).all d, gtid ∉ glev) ∨
      (∀ d ∈ ids, d ∈ s.hash.toList → Covered s glev d ∧ (s.elem d).all d ≠ []) ∧
        (ids.filter fun d => d ∈ s.hash.toList).Nodup := by
  have hmem : ∀ d, d ∈ (ids.filter fun d => d ∈ s.hash.toList) ↔ d ∈ ids ∧ d ∈ s.hash.toList := by
    simp
  have hspec := collectLoop_spec s glev ids [] (inconsistencyWarnings s glev)
  rw [nil_append] at hspec
  generalize (ids.filter fun d => d ∈ s.hash.toList) = unique at *
  rcases hspec with
    ⟨⟨d, hd, hex, hun⟩, errmsg, warnings, hne, hcollect⟩ | ⟨hmatch, warnings, hcollect⟩
  · -- the code reports an error
    have hcall : dropDomain s ids glev = some ⟨s, some errmsg, [], warnings⟩ := by
      rw [dropDomain, hcollect]
    have herror : (⟨s, some errmsg, [], warnings⟩ : DropResult f).IsError := ⟨errmsg, rfl, hne⟩
    constructor
    · rintro ⟨r, hr, -, -, hok⟩
      rw [hcall, Option.some.injEq] at hr
      subst hr
      refine .inl ⟨?_, d, hd, hex, hun⟩
      by_contra! hall
      exact (hok hall).1 herror
    · rintro (⟨⟨x, hx, hxs, hnc⟩, -⟩ | ⟨hall, -⟩)
      · refine ⟨_, hcall, fun _ h h' => absurd h h', fun _ => ⟨herror, rfl⟩, fun hcov => ?_⟩
        exact absurd (hcov x hx hxs) hnc
      -- a domain with GTIDs cannot be covered and unmatched
      obtain ⟨hcov, hnil⟩ := hall d hd hex
      obtain ⟨gtid, hgtid⟩ := exists_mem_of_ne_nil _ hnil
      exact absurd (hcov gtid hgtid) (hun gtid hgtid)
  -- the code removes what it has collected
  have hcall : dropDomain s ids glev = (removeLoop unique s).map fun s' =>
      ⟨s', if unique.length = 0 then some "" else none, unique, warnings⟩ := by
    rw [dropDomain, hcollect]
  have hnoerror : ∀ s' removed, ¬ (⟨s', if unique.length = 0 then some "" else none, removed,
      warnings⟩ : DropResult f).IsError := by
    rintro s' removed ⟨errmsg, hmsg, hne⟩
    split at hmsg
    · exact hne (Option.some.inj hmsg).symm
    · cases hmsg
  have hnonempty : ∀ d ∈ ids, d ∈ s.hash.toList → (s.elem d).all d ≠ [] := by
    intro d hd hex hnil
    refine hmatch d hd hex ?_
    rw [Unmatched, hnil]
    simp
  rcases removeLoop_spec unique s (fun d h => ((hmem d).1 h).2) with
    ⟨hdup, hnone⟩ | ⟨hnodup, hash, hsome, hiff⟩
  · rw [hnone, Option.map_none] at hcall
    constructor
    · rintro ⟨r, hr, -⟩
      rw [hcall] at hr
      cases hr
    · rintro (⟨-, d, hd, hex, hun⟩ | ⟨-, hnodup⟩)
      · exact absurd hun (hmatch d hd hex)
      · exact absurd hnodup hdup
  rw [hsome, Option.map_some] at hcall
  constructor
  · rintro ⟨r, hr, -, herr, -⟩
    rw [hcall, Option.some.injEq] at hr
    subst hr
    refine .inr ⟨fun d hd hex => ⟨?_, hnonempty d hd hex⟩, hnodup⟩
    by_contra hnc
    exact hnoerror _ _ (herr ⟨d, hd, hex, hnc⟩).1
  rintro (⟨-, d, hd, hex, hun⟩ | ⟨hall, -⟩)
  · exact absurd hun (hmatch d hd hex)
  refine ⟨_, hcall, fun d hd hgone => ?_, ?_, fun _ => ⟨hnoerror _ _, hnodup, hmem, ?_, ?_⟩⟩
  · have hin : d ∈ unique := by
      by_contra hnot
      exact hgone ((hiff d).2 ⟨hd, hnot⟩)
    exact (hall d ((hmem d).1 hin).1 hd).1
  · rintro ⟨d, hd, hex, hnc⟩
    exact absurd (hall d hd hex).1 hnc
  · intro d
    rw [hiff, hmem]
    tauto
  · intro d _
    rfl

/-! ### Where it does not -/

/-- The servers 1 and 2 have written to the domain 0. -/
def twoServers : BinlogState id :=
  BinlogState.run [.update ⟨0, 1, 5⟩ false .enough, .update ⟨0, 2, 6⟩ false .enough]

/-- The domain 0 is dropped although the GTID 0-2-6 is not in the list. -/
theorem drops_uncovered_domain : ¬ DropsSafely twoServers [0] [⟨0, 1, 5⟩] := by
  rintro ⟨r, hr, hsafe, -⟩
  have hgone : (dropDomain twoServers [0] [⟨0, 1, 5⟩]).map (fun r => r.state.hash.toList)
      = some [] := by decide +kernel
  rw [hr, Option.map_some, Option.some.injEq] at hgone
  have hcovered := hsafe 0 (by decide +kernel) (by rw [hgone]; exact not_mem_nil)
  exact absurd (hcovered ⟨0, 2, 6⟩ (by decide +kernel)) (by decide)

end Gtid
