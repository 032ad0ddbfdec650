/-
**The state of the binary log as text.**

The state is saved in two ways (sql/rpl_gtid.cc): `write_to_iocache` writes a file with a line for
each GTID, which `read_from_iocache` reads, and `append_state` makes a string of the GTIDs, sorted by
their domain, which `gtid_parse_string_to_list` reads and `load` takes.  Which GTID of a domain is the
most recent one is not in the text: it is the last one of the domain.

The file is read back as it was.  The string is read back only if there is a GTID in it, since the
empty text is no list, and if it has fewer than 2^28 of them; and the most recent GTID of a domain
survives only if the sort, which compares nothing but the domains, leaves it behind the others.

Errors of the file and of allocations in `gtid_parse_string_to_list` are not modelled, and of
`my_b_gets` not that it takes the file in blocks.

Main definitions:

* `gtidParserHelper`, `gtidParseStringToList`: reading a GTID and a list of them;
* `writeToIocache`, `readFromIocache`: the file;
* `appendState`: the string;
* `ComparisonSort`: what `sort_dynamic` does; `KeepsLast`, `Stable`: what it should do.

Main results:

* `save_restore`: **when the state survives being saved and restored**.
-/

import MariaDb.GtidSequence
import MariaDb.NumberText

set_option autoImplicit false

namespace Gtid

open NumberText HashTable List BinlogState

variable {f : UInt32 → UInt32}

/-! ### One GTID -/

/-- A number of at most 32 bits and the `-` behind it, as `gtid_parser_helper` reads it twice. -/
def parseId (p : Text) : Option (UInt32 × Text) :=
  let r := myStrtoll10 p
  if r.error ≠ .ok ∨ 0xffffffff < r.value then none
  else
    match r.endptr with
    | [] => none
    | c :: q => if c ≠ 45 then none else some (r.value.toUInt32, q)

/-- `gtid_parser_helper`: returns the GTID and the text behind it, or an error. -/
def gtidParserHelper (p : Text) : Option (RplGtid × Text) :=
  (parseId p).bind fun (domainId, p) =>
    (parseId p).bind fun (serverId, p) =>
      let r := myStrtoll10 p
      if r.error ≠ .ok then none else some (⟨domainId, serverId, r.value⟩, r.endptr)

def gtidText (gtid : RplGtid) : Text :=
  text (decimal gtid.domainId.toNat) ++ 45 :: (text (decimal gtid.serverId.toNat) ++
    45 :: text (decimal gtid.seqNo.toNat))

theorem parseId_decimal (x : UInt32) (p : Text) :
    parseId (text (decimal x.toNat) ++ 45 :: p) = some (x, p) := by
  have hx : x.toUInt64.toNat = x.toNat := UInt32.toNat_toUInt64 x
  have hnum := myStrtoll10_decimal x.toUInt64 (noDigit_cons (by decide : digit 45 = none) p)
  rw [hx] at hnum
  have hle : ¬ (0xffffffff : UInt64) < x.toUInt64 := by
    have := x.toNat_lt
    show ¬ 4294967295 < x.toNat
    omega
  rw [parseId, hnum]
  simp [hle]

variable (gtid : RplGtid)

/-- **A printed GTID is read back.** -/
theorem gtidParserHelper_gtidText {rest : Text} (hrest : NoDigit rest) :
    gtidParserHelper (gtidText gtid ++ rest) = some (gtid, rest) := by
  rw [gtidText, append_assoc, cons_append, append_assoc, cons_append,
    gtidParserHelper, parseId_decimal, Option.bind_some]
  simp only
  rw [parseId_decimal, Option.bind_some]
  simp only [myStrtoll10_decimal _ hrest]
  simp

theorem length_gtidText_le : (gtidText gtid).length ≤ 42 := by
  have hd := length_decimal_le (k := 10) (by norm_num)
    (show gtid.domainId.toNat < 10 ^ 10 from gtid.domainId.toNat_lt.trans (by norm_num))
  have hs := length_decimal_le (k := 10) (by norm_num)
    (show gtid.serverId.toNat < 10 ^ 10 from gtid.serverId.toNat_lt.trans (by norm_num))
  have hq := length_decimal_le (k := 20) (by norm_num)
    (show gtid.seqNo.toNat < 10 ^ 20 from gtid.seqNo.toNat_lt.trans (by norm_num))
  simp only [gtidText, length_append, length_cons, length_text]
  omega

/-- Neither digits nor `-` end a line. -/
theorem newline_notMem_gtidText : (10 : UInt8) ∉ gtidText gtid := by
  have hdigits : ∀ n, (10 : UInt8) ∉ text (decimal n) := by
    intro n hmem
    obtain ⟨d, hd, heq⟩ := mem_map.1 hmem
    have hall : ∀ d < 10, digitChar d ≠ 10 := by decide
    exact hall d (decimal_lt hd) heq
  simp [gtidText, hdigits]

/-! ### The file -/

/-- What `my_b_printf` writes for the format `"%u-%u-%s\n"`. -/
def writeLine (gtid : RplGtid) : Text :=
  int10ToStr gtid.domainId ++ [45] ++ int10ToStr gtid.serverId ++ [45] ++
    longlong10ToStr gtid.seqNo ++ [10]

section

variable (memory : ℕ → Memory) (list : List RplGtid) (s : BinlogState f)

def writeToIocache : Text := s.getGtidList.flatMap writeLine

/-- `my_b_gets` with room for `n` bytes: the line, with its end, and the rest of the file; `none` at
the end of the file. -/
def myBGets : ℕ → Text → Option (Text × Text)
  | 0, src => some ([], src)
  | _ + 1, [] => none
  | n + 1, c :: src =>
    if c = 10 then some ([c], src) else (myBGets n src).map fun (line, src) => (c :: line, src)

/-- The loop of `read_from_iocache`, with a buffer of 44 bytes: returns the state and whether there
was an error. -/
def readLoop (memory : ℕ → Memory) :
    ℕ → ℕ → Text → BinlogState f → Option (BinlogState f × Bool)
  | 0, _, _, _ => none
  | fuel + 1, i, src, s =>
    match myBGets 43 src with
    | none => some (s, false)
    | some (line, src) =>
      match gtidParserHelper line with
      | none => some (s, true)
      | some (gtid, _) =>
        match s.updateNolock gtid false (memory i) with
        | (s, none) => readLoop memory fuel (i + 1) src s
        | (s, some _) => some (s, true)

/-- `read_from_iocache`: what was in the state is dropped. -/
def readFromIocache (memory : ℕ → Memory) (src : Text) : Option (BinlogState f × Bool) :=
  readLoop memory (src.length + 1) 0 src init

theorem writeLine_eq : writeLine gtid = gtidText gtid ++ [10] := by
  simp [writeLine, gtidText, int10ToStr_eq, longlong10ToStr_eq]

/-- A line that fits into the buffer is read whole. -/
theorem myBGets_line {line : Text} (hline : (10 : UInt8) ∉ line) {n : ℕ} (hlen : line.length < n)
    (src : Text) : myBGets n (line ++ 10 :: src) = some (line ++ [10], src) := by
  induction line generalizing n with
  | nil =>
    obtain _ | n := n
    · simp at hlen
    rfl
  | cons c line ih =>
    obtain _ | n := n
    · simp at hlen
    have hc : c ≠ 10 := fun heq => hline (by simp [heq])
    rw [cons_append, myBGets, if_neg hc,
      ih (fun hmem => hline (mem_cons_of_mem c hmem)) (by simpa using hlen)]
    rfl

/-- Reading the lines is the loop of `load`. -/
theorem readLoop_lines {fuel : ℕ} (hfuel : list.length < fuel) (i : ℕ) (s : BinlogState f) :
    readLoop memory fuel i (list.flatMap writeLine) s = some (loadLoop memory i list s) := by
  induction list generalizing fuel i s with
  | nil =>
    obtain _ | fuel := fuel
    · simp at hfuel
    rfl
  | cons gtid list ih =>
    obtain _ | fuel := fuel
    · simp at hfuel
    have hline : myBGets 43 ((gtid :: list).flatMap writeLine)
        = some (gtidText gtid ++ [10], list.flatMap writeLine) := by
      have hlen := length_gtidText_le gtid
      rw [flatMap_cons, writeLine_eq, append_assoc, singleton_append,
        myBGets_line (newline_notMem_gtidText gtid) (by omega)]
    have hparse := gtidParserHelper_gtidText gtid (noDigit_cons (by decide : digit 10 = none) [])
    rw [readLoop, hline]
    simp only [hparse]
    rw [loadLoop]
    rcases s.updateNolock gtid false (memory i) with ⟨s', _ | err⟩
    · exact ih (by simpa using hfuel) (i + 1) s'
    · rfl

theorem length_le_flatMap_writeLine : list.length ≤ (list.flatMap writeLine).length := by
  induction list with
  | nil => simp
  | cons gtid list ih =>
    rw [flatMap_cons, writeLine_eq]
    simp only [length_cons, length_append, length_nil]
    omega

/-- **Reading the file is loading the list of the GTIDs.** -/
theorem readFromIocache_writeToIocache :
    (readFromIocache memory (writeToIocache s) : Option (BinlogState f × Bool))
      = some (load memory s.getGtidList) :=
  readLoop_lines memory _ (Nat.lt_succ_of_le (length_le_flatMap_writeLine _)) 0 _

/-! ### The string -/

/-- `rpl_slave_state_tostring_helper` for one GTID, without the comma. -/
def toStringHelper (gtid : RplGtid) : Text :=
  longlong10ToStr gtid.domainId.toUInt64 ++ [45] ++ longlong10ToStr gtid.serverId.toUInt64 ++ [45] ++
    longlong10ToStr gtid.seqNo

/-- The loop of `rpl_slave_state_tostring_helper`: no comma stands before the first GTID. -/
def toStringLoop : Bool → List RplGtid → Text
  | _, [] => []
  | first, gtid :: list =>
    (if first then [] else [44]) ++ toStringHelper gtid ++ toStringLoop false list

/-- `append_state`, to an empty string. -/
def appendState (sort : List RplGtid → List RplGtid) (s : BinlogState f) : Text :=
  toStringLoop true (sort s.getGtidList)

/-- The loop of `gtid_parse_string_to_list`, with `len` GTIDs read before. -/
def parseLoop : ℕ → ℕ → Text → Option (List RplGtid)
  | 0, _, _ => none
  | fuel + 1, len, p =>
    if 2 ^ 28 - 1 ≤ len then none
    else
      match gtidParserHelper p with
      | none => none
      | some (gtid, []) => some [gtid]
      | some (gtid, c :: p) =>
        if c ≠ 44 then none else (parseLoop fuel (len + 1) p).map (gtid :: ·)

/-- `gtid_parse_string_to_list`: the list, or `NULL`. -/
def gtidParseStringToList (str : Text) : Option (List RplGtid) := parseLoop (str.length + 1) 0 str

theorem toStringHelper_eq : toStringHelper gtid = gtidText gtid := by
  simp [toStringHelper, gtidText, longlong10ToStr_eq]

/-- A string of GTIDs is read back, unless there are too many of them. -/
theorem parseLoop_string {fuel : ℕ} (hfuel : list.length < fuel) (len : ℕ) :
    parseLoop fuel len (toStringLoop true (gtid :: list))
      = if len + list.length < 2 ^ 28 - 1 then some (gtid :: list) else none := by
  induction list generalizing gtid fuel len with
  | nil =>
    obtain _ | fuel := fuel
    · simp at hfuel
    have hparse := gtidParserHelper_gtidText gtid noDigit_nil
    rw [parseLoop, toStringLoop, toStringHelper_eq, if_pos rfl, nil_append, toStringLoop,
      hparse, length_nil]
    by_cases hlen : len + 0 < 2 ^ 28 - 1
    · rw [if_neg (by omega), if_pos hlen]
    · rw [if_pos (by omega), if_neg hlen]
  | cons next list ih =>
    obtain _ | fuel := fuel
    · simp at hfuel
    have htext : toStringLoop true (gtid :: next :: list)
        = gtidText gtid ++ 44 :: toStringLoop true (next :: list) := by
      simp [toStringLoop, toStringHelper_eq]
    have hparse := gtidParserHelper_gtidText gtid
      (noDigit_cons (by decide : digit 44 = none) (toStringLoop true (next :: list)))
    rw [parseLoop, htext, hparse]
    simp only [ne_eq, not_true_eq_false, if_false]
    rw [ih next (by simpa using hfuel), length_cons]
    by_cases hlen : len + (list.length + 1) < 2 ^ 28 - 1
    · rw [if_neg (by omega), if_pos (by omega), if_pos hlen]
      rfl
    split
    · rfl
    · rw [if_neg (by omega)]
      rfl

theorem length_le_toStringLoop (first : Bool) (list : List RplGtid) :
    list.length ≤ (toStringLoop first list).length := by
  induction list generalizing first with
  | nil => simp
  | cons gtid list ih =>
    have hrest := ih false
    have hpos : 1 ≤ (gtidText gtid).length := by
      simp only [gtidText, length_append, length_cons]
      omega
    rw [toStringLoop, toStringHelper_eq, length_append, length_append, length_cons]
    omega

/-- **A string is read back** exactly if it has at least one GTID and fewer than 2^28. -/
theorem gtidParseStringToList_string : gtidParseStringToList (toStringLoop true list)
      = if 0 < list.length ∧ list.length < 2 ^ 28 then some list else none := by
  cases list with
  | nil => rfl
  | cons gtid list =>
    have hlen := length_le_toStringLoop true (gtid :: list)
    rw [length_cons] at hlen ⊢
    rw [gtidParseStringToList, parseLoop_string gtid list (by omega), Nat.zero_add]
    by_cases hlt : list.length < 2 ^ 28 - 1
    · rw [if_pos hlt, if_pos (by omega)]
    · rw [if_neg hlt, if_neg (by omega)]

end

/-! ### Saving and restoring -/

/-- What `sort_dynamic` does with `rpl_gtid_cmp_cb`: the entries are put into an order in which their
domains increase. -/
structure ComparisonSort (sort : List RplGtid → List RplGtid) : Prop where
  perm : ∀ list, (sort list).Perm list
  sorted : ∀ list, (sort list).Pairwise fun g g' => g.domainId ≤ g'.domainId

/-- A sort leaves the last GTID of each domain of a list behind the others. -/
def KeepsLast (sort : List RplGtid → List RplGtid) (list : List RplGtid) : Prop :=
  ∀ d, recentOf (sort list) d = recentOf list d

/-- A sort that keeps the order of the entries of a domain. -/
def Stable (sort : List RplGtid → List RplGtid) : Prop :=
  ∀ list (d : UInt32), (sort list).filter (·.domainId = d) = list.filter (·.domainId = d)

theorem Stable.keepsLast {sort : List RplGtid → List RplGtid} (hstable : Stable sort)
    (list : List RplGtid) : KeepsLast sort list :=
  fun d => congrArg getLast? (hstable list d)

/-- The two states have the same GTID for every server, and the same most recent GTID in every
domain. -/
def Same (s s' : BinlogState f) : Prop :=
  (∀ d server, s'.findNolock d server = s.findNolock d server) ∧
    ∀ d, s'.findMostRecent d = s.findMostRecent d

/-- The file gives back the state. -/
def RestoresFromFile (s : BinlogState f) : Prop :=
  ∃ s' : BinlogState f,
    readFromIocache (fun _ => .enough) (writeToIocache s) = some (s', false) ∧ Same s s'

/-- The string gives back the state. -/
def RestoresFromString (sort : List RplGtid → List RplGtid) (s : BinlogState f) : Prop :=
  ∃ list, gtidParseStringToList (appendState sort s) = some list ∧
    ∃ s' : BinlogState f, load (fun _ => .enough) list = (s', false) ∧ Same s s'

theorem restoresFromFile (s : BinlogState f) : RestoresFromFile s := by
  obtain ⟨s', hload, hfind, hrecent⟩ := load_spec (f := f) s.getGtidList
  refine ⟨s', by rw [readFromIocache_writeToIocache, hload], fun d server => ?_, fun d => ?_⟩
  · rw [hfind, s.findNolock_eq_lastOf]
  · rw [hrecent, s.findMostRecent_eq_recentOf]

/-- A state has at most one GTID of a server, so that no order changes which one is the last. -/
theorem lastOf_perm {s : BinlogState f} {list : List RplGtid} (hperm : list.Perm s.getGtidList)
    (d server : UInt32) : lastOf list d server = s.findNolock d server := by
  have hfilter := hperm.filter fun g => g.domainId = d ∧ g.serverId = server
  rw [s.filter_getGtidList_server] at hfilter
  rw [lastOf]
  cases hfind : s.findNolock d server with
  | none =>
    rw [hfind] at hfilter
    rw [hfilter.eq_nil]
    rfl
  | some g =>
    rw [hfind] at hfilter
    rw [hfilter.eq_singleton]
    rfl

/-- **When loading the string restores the state.** -/
theorem restoresFromString_iff {sort : List RplGtid → List RplGtid} (hsort : ComparisonSort sort)
    (s : BinlogState f) :
    RestoresFromString sort s ↔ (0 < s.getGtidList.length ∧ s.getGtidList.length < 2 ^ 28) ∧
      KeepsLast sort s.getGtidList := by
  have hperm := hsort.perm s.getGtidList
  obtain ⟨s', hload, hfind, hrecent⟩ := load_spec (f := f) (sort s.getGtidList)
  rw [RestoresFromString, appendState, gtidParseStringToList_string, hperm.length_eq]
  constructor
  · rintro ⟨list, hlist, s'', hload', -, hsame⟩
    split at hlist
    case isFalse => cases hlist
    case isTrue hlen =>
      refine ⟨hlen, fun d => ?_⟩
      rw [← Option.some.inj hlist, hload, Prod.mk.injEq] at hload'
      rw [← s.findMostRecent_eq_recentOf, ← hsame d, ← hload'.1, hrecent]
  · rintro ⟨hlen, hlast⟩
    refine ⟨_, if_pos hlen, s', hload, fun d server => ?_, fun d => ?_⟩
    · rw [hfind, lastOf_perm hperm]
    · rw [hrecent, hlast, s.findMostRecent_eq_recentOf]

/-- **When the state survives being saved and restored.**  After any calls the file gives the state
back.  The string gives it back exactly if there is at least one GTID and fewer than 2^28 of them and
the sort leaves the last GTID of each domain of the list behind the others, as every stable sort
does. -/
theorem save_restore (ops : List Op) (sort : List RplGtid → List RplGtid)
    (hsort : ComparisonSort sort) :
    let s : BinlogState f := run ops
    RestoresFromFile s ∧
      (RestoresFromString sort s ↔ (0 < s.getGtidList.length ∧ s.getGtidList.length < 2 ^ 28) ∧
        KeepsLast sort s.getGtidList) ∧
      (Stable sort → KeepsLast sort s.getGtidList) :=
  ⟨restoresFromFile _, restoresFromString_iff hsort _, fun hstable => hstable.keepsLast _⟩

/-- A sort by the domains that keeps the order of equal entries. -/
def domainSort (list : List RplGtid) : List RplGtid :=
  list.insertionSort fun g g' => g.domainId ≤ g'.domainId

theorem domainSort_sort : ComparisonSort domainSort where
  perm := perm_insertionSort _
  sorted := pairwise_insertionSort _

theorem domainSort_stable : Stable domainSort := by
  intro list d
  have hpairwise : (list.filter (·.domainId = d)).Pairwise fun g g' => g.domainId ≤ g'.domainId :=
    pairwise_of_forall_mem_list (by simp +contextual)
  have hsub := (sublist_insertionSort hpairwise filter_sublist).filter (·.domainId = d)
  rw [filter_filter] at hsub
  simp only [Bool.and_self] at hsub
  exact (hsub.eq_of_length ((domainSort_sort.perm list).filter _).length_eq.symm).symm

/-- Two servers write to the domain 0, the server 2 last. -/
def sampleOps : List Op :=
  [.update ⟨0, 1, 5⟩ false .enough, .update ⟨0, 2, 6⟩ false .enough]

/-- The state after `sampleOps`, with the identity as hash function. -/
def sampleState : BinlogState id := run sampleOps

theorem sampleState_list : sampleState.getGtidList = [⟨0, 1, 5⟩, ⟨0, 2, 6⟩] := by decide +kernel

theorem save_restore_sampleOps :
    RestoresFromFile sampleState ∧ RestoresFromString domainSort sampleState :=
  have ⟨hfile, hstring, hstable⟩ := save_restore (f := id) sampleOps domainSort domainSort_sort
  ⟨hfile, hstring.2 ⟨by decide +kernel, hstable domainSort_stable⟩⟩

/-! ### Where the string does not give the state back -/

/-- A sort by the domains that turns equal entries around. -/
def turningSort (list : List RplGtid) : List RplGtid := domainSort list.reverse

theorem turningSort_sort : ComparisonSort turningSort where
  perm list := (domainSort_sort.perm _).trans (reverse_perm list)
  sorted _ := domainSort_sort.sorted _

/-- The string of the state without GTIDs is no list, and with an unstable sort it loses which GTID
is the most recent one. -/
theorem string_loses_state :
    ¬ RestoresFromString turningSort (run [] : BinlogState id) ∧
    ¬ RestoresFromString turningSort sampleState := by
  rw [restoresFromString_iff turningSort_sort, restoresFromString_iff turningSort_sort]
  refine ⟨fun h => absurd h.1.1 (by decide +kernel), fun h => absurd (h.2 0) ?_⟩
  rw [sampleState_list]
  decide +kernel

end Gtid
