/-
**OPTIMIZE of a full-text word: the nodes that are made.**

Whatever the list of deleted doc ids is, the nodes that `fts_optimize_word` makes describe their
documents, and together they have the documents that are kept, in the order of the source nodes.
These are the ones that are not deleted, unless a position for the word was not found, or a deleted
document is read behind one with a larger id: the nodes of a word are in the order of their first
doc id and may overlap, but the position in the list never moves back.

Main definitions:

* `Node.Describes`: the fields of a node describe its documents;
* `Word`: the documents of the nodes of a word, and a list of deleted doc ids.

Main results:

* `ftsOptimizeWord_live`: **when the live postings are kept**.
-/

import MariaDb.FtsDeletedPos

set_option autoImplicit false

namespace Fts

open List Option Node

variable {delVec : List ℕ}

/-! ### Copying a document -/

variable {node src : Node} {docs : List Doc} {d : Doc} {nodes : List Node} {parts : List (List Doc)}

/-- A document is copied to a node with smaller doc ids. -/
theorem ftsOptimizeEncodeNode_spec (h : node.Holds docs) (hd : DocFits d) (hpos : 0 < d.1)
    (hlast : ∀ c ∈ docs, c.1 < d.1) (rest : List ℕ) :
    ∃ node', ftsOptimizeEncodeNode node d.1 (positionBytes 0 d.2 ++ 0 :: rest) = some (node', rest) ∧
      ({ node' with docCount := node'.docCount + 1 } : Node).Holds (docs ++ [d]) := by
  set src := positionBytes 0 d.2 ++ 0 :: rest with hsrc
  have hskip : skipPositions (src.length + 1) src = some rest :=
    skipPositions_spec d.2 0 rest _ (by rw [hsrc, length_append]; omega)
  have hlen : src.length - rest.length = (positionBytes 0 d.2).length + 1 := by
    rw [hsrc, length_append, length_cons]
    omega
  have htake : src.take ((positionBytes 0 d.2).length + 1) = positionBytes 0 d.2 ++ [0] := by
    have happend : src = (positionBytes 0 d.2 ++ [0]) ++ rest := by simp [hsrc]
    rw [happend, take_left' (by simp)]
  have henc : ftsGetEncodedLen (diff64 d.1 node.lastDocId) + ((positionBytes 0 d.2).length + 1)
      = (docBytes node.lastDocId d).length := by
    rw [length_docBytes, length_positionBytes, Nat.add_assoc]
  have hzero : ¬(node.firstDocId = 0 ∧ node.lastDocId ≠ 0) := by
    rintro ⟨hfirst, hne⟩
    cases docs with
    | nil => exact hne h.last
    | cons c docs =>
      have hc : node.firstDocId = c.1 := h.first
      exact absurd (hc.symm.trans hfirst) (h.increasing.2 c mem_cons_self).ne'
  obtain ⟨alloc, hres⟩ : ∃ alloc, ftsOptimizeEncodeNode node d.1 src = some
      ({ node with
          firstDocId := if node.firstDocId = 0 then d.1 else node.firstDocId
          lastDocId := d.1
          ilist := some (node.ilist.getD [] ++ docBytes node.lastDocId d)
          ilistSize := node.ilistSize + (docBytes node.lastDocId d).length
          ilistSizeAlloc := alloc }, rest) := by
    simp only [ftsOptimizeEncodeNode]
    rw [if_neg hzero, hskip, bind_some]
    simp only [hlen, henc, htake]
    -- there is room for the document in a new list, and in one that has grown
    cases hlist : node.ilist with
    | none =>
      have hsize := h.null hlist
      simp only [hsize]
      rw [if_neg (by simp), if_neg (by split <;> omega)]
      exact ⟨_, rfl⟩
    | some bytes =>
      simp only
      rw [if_neg (by simp), if_neg (by split <;> omega)]
      exact ⟨_, rfl⟩
  exact ⟨_, hres, h.append hd hpos hlast rfl rfl rfl rfl rfl⟩

/-- **One document of the source** is skipped or copied. -/
theorem copyDoc_spec (hsorted : delVec.Pairwise (· ≤ ·)) (hposv : ∀ x ∈ delVec, 0 < x) (pos : ℤ)
    {dst : Node} {id : ℕ} (rest : List Doc) (h : dst.Holds docs) (hid : id < 2 ^ 64)
    (hd : DocFits d) (hpos : 0 < d.1) (hlast : ∀ c ∈ docs, c.1 < d.1) :
    ∃ dst', copyDoc delVec ⟨pos, dst, id, docsBytes id (d :: rest)⟩
        = some ⟨(deletes delVec pos d.1).2, dst', d.1, docsBytes d.1 rest⟩ ∧
      dst'.Holds (docs ++ kept delVec pos [d]) := by
  have hbytes : docsBytes id (d :: rest) = ftsEncodeInt (diff64 d.1 id) ++
      (positionBytes 0 d.2 ++ 0 :: docsBytes d.1 rest) := by
    rw [docsBytes, docBytes, append_assoc, append_assoc, singleton_append]
  have hkept : kept delVec pos [d] = if (deletes delVec pos d.1).1 then [] else [d] := by
    rw [kept, kept, append_nil]
  rw [copyDoc, hbytes, ftsDecodeVlc_encode (diff64_lt d.1 id), bind_some]
  simp only [add_diff64 hd.1 hid, testAgain_eq hsorted hposv, bind_some]
  rw [hkept]
  cases (deletes delVec pos d.1).1 with
  | true =>
    refine ⟨dst, ?_, by simpa using h⟩
    simp only [if_true]
    rw [skipPositions_spec d.2 0 _ _ (by rw [length_append]; omega), map_some]
  | false =>
    obtain ⟨node', hcopy, hholds⟩ :=
      ftsOptimizeEncodeNode_spec h hd hpos hlast (docsBytes d.1 rest)
    exact ⟨_, by simp [hcopy], hholds⟩

/-! ### Copying from one node to another -/

theorem Increasing.fst_lt {xs ys : List Doc} (h : Increasing (xs ++ ys)) {c : Doc} (hc : c ∈ xs)
    (hd : d ∈ ys) : c.1 < d.1 := by
  have hpair := h.1
  rw [map_append, pairwise_append] at hpair
  exact hpair.2.2 _ (mem_map_of_mem hc) _ (mem_map_of_mem hd)

theorem docBytes_pos (id : ℕ) (d : Doc) : 0 < (docBytes id d).length := by
  rw [length_docBytes]
  omega

theorem length_le_docsBytes (docs : List Doc) : ∀ id, docs.length ≤ (docsBytes id docs).length := by
  induction docs with
  | nil => intro id; exact le_rfl
  | cons d docs ih =>
    intro id
    have h1 := docBytes_pos id d
    have h2 := ih d.1
    rw [length_cons, docsBytes, length_append]
    omega

theorem docsBytes_append (xs ys : List Doc) : ∀ id,
    docsBytes id (xs ++ ys) = docsBytes id xs ++ docsBytes (lastId id xs) ys := by
  induction xs with
  | nil => intro id; rfl
  | cons d xs ih => intro id; rw [cons_append, docsBytes, docsBytes, ih, append_assoc]; rfl

theorem lastId_lt (hfits : ∀ d ∈ docs, DocFits d) : ∀ id, id < 2 ^ 64 →
    lastId id docs < 2 ^ 64 := by
  induction docs with
  | nil => intro id hid; exact hid
  | cons d docs ih =>
    intro id _
    exact ih (fun c hc => hfits c (mem_cons_of_mem d hc)) d.1 (hfits d mem_cons_self).1

/-- **The loop over a source node**: it stops at the end of the node, or when the destination is
full. -/
theorem copyLoop_spec (hsorted : delVec.Pairwise (· ≤ ·)) (hposv : ∀ x ∈ delVec, 0 < x)
    {all : List Doc} (hsrc : src.Holds all) :
    ∀ (fuel : ℕ) (rest done docs : List Doc) (pos : ℤ) (dst : Node), all = done ++ rest →
      dst.Holds docs → (∀ c ∈ docs, ∀ d ∈ rest, c.1 < d.1) → rest.length < fuel →
      ∃ dst' done' rest', rest = done' ++ rest' ∧
        copyLoop delVec src fuel ⟨pos, dst, lastId 0 done, docsBytes (lastId 0 done) rest⟩
          = some ⟨posAfter delVec pos done', dst', lastId 0 (done ++ done'),
              docsBytes (lastId 0 (done ++ done')) rest'⟩ ∧
        dst'.Holds (docs ++ kept delVec pos done') ∧
        (rest' = [] ∨ ftsIlistMaxSize ≤ dst'.ilistSize) ∧
        (rest ≠ [] → dst.ilistSize < ftsIlistMaxSize → done' ≠ []) := by
  intro fuel
  induction fuel with
  | zero => intro rest _ _ _ _ _ _ _ hfuel; omega
  | succ fuel ih =>
    intro rest done docs pos dst hall hdst hlt hfuel
    have hbytes : src.ilist.getD [] = docsBytes 0 done ++ docsBytes (lastId 0 done) rest := by
      rw [hsrc.bytes, hall, docsBytes_append]
    have hstay : dst.Holds (docs ++ kept delVec pos []) := by
      rw [kept, append_nil]
      exact hdst
    cases rest with
    | nil =>
      refine ⟨dst, [], [], rfl, ?_, hstay, .inl rfl, fun h => absurd rfl h⟩
      rw [copyLoop, if_neg, append_nil]
      · rfl
      · rintro ⟨hlt, -⟩
        rw [hsrc.size] at hlt
        exact absurd hlt (by simp [docsBytes])
    | cons d rest =>
      by_cases hfull : ftsIlistMaxSize ≤ dst.ilistSize
      · refine ⟨dst, [], d :: rest, rfl, ?_, hstay, .inr hfull, fun _ h => absurd h (by omega)⟩
        rw [copyLoop, if_neg fun h => absurd h.2 (not_lt.2 hfull), append_nil]
        rfl
      have hd : DocFits d := hsrc.fits d (by rw [hall]; simp)
      have hinc := hsrc.increasing
      rw [hall] at hinc
      have hid : lastId 0 done < 2 ^ 64 :=
        lastId_lt (fun c hc => hsrc.fits c (by rw [hall]; simp [hc])) 0 (by norm_num)
      obtain ⟨dst', hcopy, hdst'⟩ := copyDoc_spec hsorted hposv pos rest hdst
        hid hd (hinc.2 d (by simp)) (fun c hc => hlt c hc d mem_cons_self)
      have hid' : lastId 0 (done ++ [d]) = d.1 := lastId_snoc done d 0
      obtain ⟨dst2, done', rest', hrest, hloop, hdst2, hstop, -⟩ := ih rest (done ++ [d])
        (docs ++ kept delVec pos [d]) (deletes delVec pos d.1).2 dst' (by rw [hall]; simp)
        hdst' (by
          intro c hc e he
          rcases mem_append.1 hc with hc | hc
          · exact hlt c hc e (mem_cons_of_mem d he)
          · rw [mem_singleton.1 ((kept_sublist delVec [d] pos).subset hc)]
            rw [append_cons] at hinc
            exact hinc.fst_lt (by simp) he)
        (by rw [length_cons] at hfuel; omega)
      refine ⟨dst2, d :: done', rest', by rw [hrest]; rfl, ?_, ?_, hstop, fun _ _ => by simp⟩
      · have hmore : (src.ilist.getD []).length - (docsBytes (lastId 0 done) (d :: rest)).length
            < src.ilistSize ∧ dst.ilistSize < ftsIlistMaxSize := by
          have hpos := docBytes_pos (lastId 0 done) d
          rw [hsrc.size, hbytes, length_append, docsBytes, length_append]
          omega
        rw [hid', append_assoc] at hloop
        rw [copyLoop, if_pos hmore, hcopy, bind_some, hloop]
        rfl
      · have hkept := kept_append delVec [d] done' pos
        rw [singleton_append] at hkept
        rw [hkept, ← append_assoc]
        exact hdst2

/-- The decoder is behind the documents `done` of a source node, before `rest`. -/
def Enc.At (enc : Enc) (done rest : List Doc) : Prop :=
  enc.srcLastDocId = lastId 0 done ∧
    enc.srcIlistPtr.getD (docsBytes 0 (done ++ rest)) = docsBytes (lastId 0 done) rest

theorem Enc.at_start (docs : List Doc) : (⟨0, none⟩ : Enc).At [] docs := ⟨rfl, rfl⟩

/-- **`fts_optimize_node`** copies documents until the source is read or the destination is full. -/
theorem ftsOptimizeNode_spec (hsorted : delVec.Pairwise (· ≤ ·)) (hposv : ∀ x ∈ delVec, 0 < x)
    {dst : Node} {done rest : List Doc} {enc : Enc} (hsrc : src.Holds (done ++ rest))
    (henc : enc.At done rest) (hdst : dst.Holds docs) (hlt : ∀ c ∈ docs, ∀ d ∈ rest, c.1 < d.1)
    (pos : ℤ) :
    ∃ dst' done' rest' bytes, rest = done' ++ rest' ∧
      ftsOptimizeNode delVec pos dst src enc
        = some (posAfter delVec pos done', dst', ⟨lastId 0 (done ++ done'), some bytes⟩) ∧
      bytes = docsBytes (lastId 0 (done ++ done')) rest' ∧
      dst'.Holds (docs ++ kept delVec pos done') ∧
      (rest' = [] ∨ ftsIlistMaxSize ≤ dst'.ilistSize) ∧
      (rest ≠ [] → dst.ilistSize < ftsIlistMaxSize → done' ≠ []) := by
  have hptr : enc.srcIlistPtr.getD (src.ilist.getD []) = docsBytes (lastId 0 done) rest := by
    rw [hsrc.bytes]
    exact henc.2
  have hfuel : rest.length < (src.ilist.getD []).length + 1 := by
    rw [hsrc.bytes, docsBytes_append, length_append]
    have := length_le_docsBytes rest (lastId 0 done)
    omega
  obtain ⟨dst', done', rest', hrest, hloop, hdst', hstop, htook⟩ := copyLoop_spec hsorted hposv hsrc
    _ rest done docs pos dst rfl hdst hlt hfuel
  refine ⟨dst', done', rest', _, hrest, ?_, rfl, hdst', hstop, htook⟩
  simp only [ftsOptimizeNode, hptr, henc.1, hloop, bind_some]
  rw [if_neg]
  rintro ⟨hread, hne⟩
  -- the source is read to its end, so the last id is that of the node
  have hnil : rest' = [] := by
    by_contra hcons
    have hlen := length_le_docsBytes rest' (lastId 0 (done ++ done'))
    have hpos := length_pos_of_ne_nil hcons
    have hall : (src.ilist.getD []).length = (docsBytes 0 (done ++ done')).length +
        (docsBytes (lastId 0 (done ++ done')) rest').length := by
      rw [hsrc.bytes, hrest, ← append_assoc, docsBytes_append, length_append]
    rw [hsrc.size] at hread
    omega
  refine hne ?_
  rw [hsrc.last, hrest, hnil, append_nil]

/-! ### All nodes of a word -/

theorem Node.Holds.fst_le (h : node.Holds docs) (hd : d ∈ docs) : d.1 ≤ node.lastDocId := by
  rcases eq_nil_or_concat docs with rfl | ⟨init, e, rfl⟩
  · exact absurd hd not_mem_nil
  rw [concat_eq_append] at h hd
  rw [h.last, lastId_snoc]
  rcases mem_append.1 hd with hd | hd
  · exact (h.increasing.fst_lt hd (mem_singleton.2 rfl)).le
  · rw [mem_singleton.1 hd]

theorem Node.Holds.le_fst (h : node.Holds docs) (hd : d ∈ docs) : node.firstDocId ≤ d.1 := by
  cases docs with
  | nil => exact absurd hd not_mem_nil
  | cons c docs =>
    have hfirst : node.firstDocId = c.1 := h.first
    rw [hfirst]
    rcases mem_cons.1 hd with rfl | hd
    · exact le_rfl
    · have hinc : Increasing ([c] ++ docs) := h.increasing
      exact (hinc.fst_lt (mem_singleton.2 rfl) hd).le

/-- The nodes describe the lists of documents. -/
abbrev AllHold (nodes : List Node) (docs : List (List Doc)) : Prop :=
  List.Forall₂ Holds nodes docs

theorem zero_room : zero.ilistSize < ftsIlistMaxSize := by decide

theorem modifyHead_nil_append (parts : List (List Doc)) : parts.modifyHead ([] ++ ·) = parts := by
  cases parts <;> rfl

/-- The loop of `fts_optimize_word` between two rounds: `madeDocs` and `docs` are in the nodes that
are made and in the destination, `done` was read from the current source node, and `parts` is left
of the source nodes. -/
structure WordState.At (s : WordState) (madeDocs : List (List Doc)) (docs done : List Doc)
    (parts : List (List Doc)) : Prop where
  made : AllHold s.made madeDocs
  dst : (s.dst.getD zero).Holds docs
  closed : s.dst = none → docs = []
  opened : ∀ node, s.dst = some node → done = [] ∧ node.ilistSize < ftsIlistMaxSize ∧ parts ≠ []
  todo : AllHold s.todo (parts.modifyHead (done ++ ·))
  enc : s.enc.At done (parts.headD [])
  docs_ne : ∀ docs ∈ parts, docs ≠ []
  nodup : ((docs ++ parts.flatten).map Prod.fst).Nodup

section

variable {s : WordState} {madeDocs moreDocs : List (List Doc)} {done rest : List Doc}

/-- The destination for the next documents of a source node: the node there is, if all its doc ids
are smaller, or a new one. -/
theorem WordState.At.destination (h : s.At madeDocs docs done (rest :: moreDocs))
    (hsrc : src.Holds (done ++ rest)) :
    let fresh := s.dst.all fun dst => decide (src.firstDocId < dst.lastDocId)
    ∃ madeDocs' docs', AllHold (if fresh then s.made ++ s.dst.toList else s.made) madeDocs' ∧
      (if fresh then zero else s.dst.getD zero).Holds docs' ∧
      (if fresh then zero else s.dst.getD zero).ilistSize < ftsIlistMaxSize ∧
      madeDocs'.flatten ++ docs' = madeDocs.flatten ++ docs ∧ docs'.Sublist docs ∧
      ∀ c ∈ docs', ∀ d ∈ rest, c.1 < d.1 := by
  intro fresh
  have hdst := h.dst
  cases hs : s.dst with
  | none =>
    refine ⟨madeDocs, [], ?_, ?_, ?_, by rw [h.closed hs], nil_sublist _, by simp⟩
    · simpa [fresh, hs] using h.made
    · simpa [fresh, hs] using Holds.zero
    · simpa [fresh, hs] using zero_room
  | some node =>
    obtain ⟨rfl, hroom, -⟩ := h.opened node hs
    rw [hs, getD_some] at hdst
    by_cases hfar : src.firstDocId < node.lastDocId
    · have hfresh : fresh = true := by simpa [fresh, hs] using hfar
      rw [hfresh]
      refine ⟨madeDocs ++ [docs], [], ?_, Holds.zero, zero_room, by simp, nil_sublist _, by simp⟩
      exact rel_append h.made (List.Forall₂.cons hdst List.Forall₂.nil)
    have hfresh : fresh = false := by simpa [fresh, hs] using hfar
    rw [hfresh]
    refine ⟨madeDocs, docs, h.made, hdst, hroom, rfl, List.Sublist.refl _, ?_⟩
    intro c hc d hd
    -- the ids of the node are at most its last one, those of the source at least its first one
    have hc' : c.1 ≤ node.lastDocId := hdst.fst_le hc
    have hd' : src.firstDocId ≤ d.1 := hsrc.le_fst hd
    have hne : c.1 ≠ d.1 := by
      have hnodup := h.nodup
      rw [flatten_cons, map_append, nodup_append] at hnodup
      exact hnodup.2.2 _ (mem_map_of_mem hc) _ (mem_map_of_mem (mem_append_left _ hd))
    omega

variable (hsorted : delVec.Pairwise (· ≤ ·)) (hposv : ∀ x ∈ delVec, 0 < x)
include hsorted hposv

/-- One round: the documents that are written and those that will be kept stay the same. -/
theorem wordStep_spec {more : List Node} (h : s.At madeDocs docs done (rest :: moreDocs))
    (htodo : s.todo = src :: more) :
    ∃ s' madeDocs' docs' done' parts', wordStep delVec src more s = some s' ∧
      s'.At madeDocs' docs' done' parts' ∧
      parts'.flatten.length < (rest :: moreDocs).flatten.length ∧
      madeDocs'.flatten ++ docs' ++ kept delVec s'.delPos parts'.flatten =
        madeDocs.flatten ++ docs ++ kept delVec s.delPos (rest :: moreDocs).flatten := by
  have hall := h.todo
  rw [htodo, modifyHead_cons] at hall
  obtain ⟨hsrc, hmore⟩ := forall₂_cons.1 hall
  have hne := h.docs_ne
  rw [forall_mem_cons] at hne
  obtain ⟨madeDocs1, docs1, hmade1, hbase, hroom, hflat, hsub, hlt⟩ := h.destination hsrc
  obtain ⟨dst1, done', rest', bytes, rfl, hnode, hbytes, hdst1, hstop, htook⟩ :=
    ftsOptimizeNode_spec hsorted hposv hsrc h.enc hbase hlt s.delPos
  have hlen := length_pos_of_ne_nil (htook hne.1 hroom)
  -- how much of the source is read
  have hsize : src.ilistSize = (docsBytes 0 (done ++ done')).length + bytes.length := by
    rw [hsrc.size, hsrc.bytes, hbytes, ← append_assoc, docsBytes_append, length_append]
  have hread : (src.ilist.getD []).length - bytes.length
      = (docsBytes 0 (done ++ done')).length := by
    rw [← hsrc.size, hsize]
    omega
  have hend : (docsBytes 0 (done ++ done')).length = src.ilistSize ↔ rest' = [] := by
    rw [hsize]
    constructor
    · intro h
      have hlen := length_le_docsBytes rest' (lastId 0 (done ++ done'))
      rw [← hbytes] at hlen
      exact length_eq_zero_iff.1 (by omega)
    · rintro rfl
      rw [hbytes]
      rfl
  -- the source nodes that are left
  set todo' := if rest' = [] then more else src :: more with htodo'
  set enc' : Enc := if rest' = [] then ⟨0, none⟩ else ⟨lastId 0 (done ++ done'), some bytes⟩
    with henc'
  obtain ⟨done2, parts2, hall2, henc2, hne2, hflat2, hstart⟩ : ∃ (done2 : List Doc)
      (parts2 : List (List Doc)), AllHold todo' (parts2.modifyHead (done2 ++ ·)) ∧
      enc'.At done2 (parts2.headD []) ∧ (∀ l ∈ parts2, l ≠ []) ∧ parts2.flatten = rest' ++ moreDocs.flatten ∧
      (¬ ftsIlistMaxSize ≤ dst1.ilistSize → done2 = []) := by
    by_cases hnil : rest' = []
    · rw [htodo', henc', if_pos hnil, if_pos hnil]
      exact ⟨[], moreDocs, by rwa [modifyHead_nil_append], Enc.at_start _, hne.2,
        by rw [hnil, nil_append], fun _ => rfl⟩
    rw [htodo', henc', if_neg hnil, if_neg hnil]
    refine ⟨done ++ done', rest' :: moreDocs, ?_, ⟨rfl, hbytes⟩, ?_, rfl, fun hfull =>
      absurd (hstop.resolve_left hnil) hfull⟩
    · rw [modifyHead_cons, append_assoc]
      exact List.Forall₂.cons hsrc hmore
    · exact forall_mem_cons.2 ⟨hnil, hne.2⟩
  have hkept : kept delVec s.delPos ((done' ++ rest') :: moreDocs).flatten =
      kept delVec s.delPos done' ++ kept delVec (posAfter delVec s.delPos done') parts2.flatten := by
    rw [flatten_cons, append_assoc, kept_append, hflat2]
  have hless : parts2.flatten.length < ((done' ++ rest') :: moreDocs).flatten.length := by
    simp only [hflat2, flatten_cons, length_append]
    omega
  have hnodup : ((docs1 ++ kept delVec s.delPos done' ++ parts2.flatten).map Prod.fst).Nodup := by
    refine h.nodup.sublist (List.Sublist.map _ ?_)
    rw [flatten_cons, hflat2, append_assoc, append_assoc]
    exact hsub.append ((kept_sublist delVec done' s.delPos).append (List.Sublist.refl _))
  simp only [wordStep]
  rw [hnode, bind_some]
  simp only [getD_some, hread, hend]
  rw [if_neg (by omega), ← htodo', ← henc', hkept, ← hflat]
  split
  case isTrue =>
    refine ⟨_, madeDocs1 ++ [docs1 ++ kept delVec s.delPos done'], [], done2, parts2, rfl,
      ⟨?_, Holds.zero, fun _ => rfl, by simp, hall2, henc2, hne2, ?_⟩, hless, by simp⟩
    · exact rel_append hmade1 (List.Forall₂.cons hdst1 List.Forall₂.nil)
    · exact hnodup.sublist ((sublist_append_right _ _).map _)
  case isFalse hopen =>
    rw [not_or] at hopen
    refine ⟨_, madeDocs1, _, done2, parts2, rfl, ⟨hmade1, hdst1, by simp, ?_, hall2, henc2, hne2,
      hnodup⟩, hless, by simp⟩
    rintro node ⟨⟩
    refine ⟨hstart hopen.1, not_le.1 hopen.1, ?_⟩
    rintro rfl
    exact hopen.2 (forall₂_nil_right_iff.1 hall2)

/-- **The loop of `fts_optimize_word`**. -/
theorem wordLoop_spec : ∀ (fuel : ℕ) (s : WordState) (madeDocs : List (List Doc))
    (docs done : List Doc) (parts : List (List Doc)), s.At madeDocs docs done parts →
    parts.flatten.length < fuel →
    ∃ out outDocs, wordLoop delVec fuel s = some out ∧ AllHold out outDocs ∧
      outDocs.flatten = madeDocs.flatten ++ docs ++ kept delVec s.delPos parts.flatten := by
  intro fuel
  induction fuel with
  | zero => intros; omega
  | succ fuel ih =>
    intro s madeDocs docs done parts h hfuel
    cases parts with
    | nil =>
      have htodo : s.todo = [] := forall₂_nil_right_iff.1 h.todo
      have hdst : s.dst = none := by
        cases hs : s.dst with
        | none => rfl
        | some node => exact absurd rfl (h.opened node hs).2.2
      refine ⟨s.made, madeDocs, ?_, h.made, by simp [h.closed hdst, kept]⟩
      rw [wordLoop, htodo]
      exact if_pos hdst
    | cons rest moreDocs =>
      obtain ⟨src, more, -, -, htodo⟩ := forall₂_cons_right_iff.1 h.todo
      obtain ⟨s', madeDocs', docs', done', parts', hstep, h', hless, hsame⟩ :=
        wordStep_spec hsorted hposv h htodo
      obtain ⟨out, outDocs, hout, hholds, heq⟩ := ih s' _ _ _ _ h' (by omega)
      refine ⟨out, outDocs, ?_, hholds, by rw [heq, hsame]⟩
      rw [wordLoop, htodo]
      simp only
      rw [hstep, bind_some, hout]

end

/-! ### The live postings -/

/-- The fields of a node describe the documents of its list, in which doc ids increase. -/
def Node.Describes (node : Node) : Prop :=
  ∃ docs, node.decode = some docs ∧ (docs.map Prod.fst).Pairwise (· < ·) ∧
    node.firstDocId = (docs.head?.map Prod.fst).getD 0 ∧ node.lastDocId = lastId 0 docs ∧
    node.docCount = docs.length ∧ node.ilistSize = (node.ilist.getD []).length

/-- The documents of the nodes of a word, in the order of the first doc ids, and a list of deleted
doc ids. -/
structure Word (delVec : List ℕ) (parts : List (List Doc)) : Prop where
  sorted : delVec.Pairwise (· ≤ ·)
  positive : ∀ x ∈ delVec, 0 < x
  nodes : parts ≠ []
  docs : ∀ docs ∈ parts, docs ≠ []
  increasing : ∀ docs ∈ parts, Increasing docs
  fits : ∀ docs ∈ parts, ∀ d ∈ docs, DocFits d
  ordered : (parts.map fun docs => (docs.head?.map Prod.fst).getD 0).Pairwise (· ≤ ·)
  nodup : (parts.flatten.map Prod.fst).Nodup

/-- What `fts_optimize_lookup` finds for the first doc id of the first node and the last one of the
last node. -/
def lookupOf (delVec : List ℕ) (parts : List (List Doc)) : ℤ :=
  ftsOptimizeLookup delVec (((parts.head?.getD []).head?.map Prod.fst).getD 0)
    (lastId 0 (parts.getLast?.getD []))

theorem mapM_buildNode : ∀ {parts : List (List Doc)}, (∀ docs ∈ parts, Increasing docs) →
    (∀ docs ∈ parts, ∀ d ∈ docs, DocFits d) →
    ∃ nodes, parts.mapM buildNode = some nodes ∧ AllHold nodes parts := by
  intro parts
  induction parts with
  | nil => exact fun _ _ => ⟨[], rfl, List.Forall₂.nil⟩
  | cons docs parts ih =>
    intro hinc hfits
    obtain ⟨node, hnode, hholds⟩ := buildNode_holds (hinc docs mem_cons_self)
      (hfits docs mem_cons_self)
    obtain ⟨nodes, hnodes, hall⟩ := ih (fun l hl => hinc l (mem_cons_of_mem _ hl))
      fun l hl => hfits l (mem_cons_of_mem _ hl)
    refine ⟨node :: nodes, ?_, List.Forall₂.cons hholds hall⟩
    rw [mapM_cons, hnode, hnodes]
    rfl

section

variable (h : AllHold nodes parts)
include h

theorem AllHold.mapM_decode : nodes.mapM decode = some parts := by
  induction h with
  | nil => rfl
  | cons hnode _ ih =>
    rw [mapM_cons, hnode.decode, ih]
    rfl

theorem AllHold.describes : ∀ node ∈ nodes, node.Describes := by
  induction h with
  | nil => simp
  | cons hnode _ ih =>
    intro node hmem
    rcases mem_cons.1 hmem with rfl | hmem
    · exact ⟨_, hnode.decode, hnode.increasing.1, hnode.first, hnode.last, hnode.count, hnode.size⟩
    · exact ih node hmem

theorem AllHold.length_le :
    parts.flatten.length ≤ (nodes.map fun n => (n.ilist.getD []).length + 1).sum := by
  induction h with
  | nil => exact le_rfl
  | @cons node docs nodes parts hnode _ ih =>
    have := length_le_docsBytes docs 0
    rw [flatten_cons, length_append, map_cons, sum_cons, hnode.bytes]
    omega

/-- The first and the last node. -/
theorem AllHold.ends (hne : parts ≠ []) :
    ∃ first last, nodes.head? = some first ∧ first.Holds (parts.head?.getD []) ∧
      nodes.getLast? = some last ∧ last.Holds (parts.getLast?.getD []) := by
  induction h with
  | nil => exact absurd rfl hne
  | @cons node docs nodes parts hnode hmore ih =>
    cases hmore with
    | nil => exact ⟨node, node, rfl, hnode, rfl, hnode⟩
    | cons hnext hmore =>
      obtain ⟨-, last, -, -, hlast, hholds⟩ := ih (cons_ne_nil _ _)
      exact ⟨node, last, rfl, hnode, by rwa [getLast?_cons_cons], by
        rwa [getLast?_cons_cons]⟩

end

namespace Word

variable {parts : List (List Doc)} (hw : Word delVec parts)

include hw

/-- Every doc id of a word is at least the first one of its first node. -/
theorem first_le (hd : d ∈ parts.flatten) :
    ((parts.head?.getD []).head?.map Prod.fst).getD 0 ≤ d.1 := by
  obtain ⟨docs, hdocs, hd⟩ := mem_flatten.1 hd
  obtain ⟨node, -, hnode⟩ := buildNode_holds (hw.increasing docs hdocs) (hw.fits docs hdocs)
  have hle := hnode.le_fst hd
  rw [hnode.first] at hle
  refine le_trans ?_ hle
  cases parts with
  | nil => exact absurd hdocs not_mem_nil
  | cons first parts =>
    rcases mem_cons.1 hdocs with rfl | hmem
    · exact le_rfl
    · exact (pairwise_cons.1 hw.ordered).1 _ (mem_map_of_mem hmem)

/-- **`fts_optimize_deleted_pos`** finds a position, with nothing to delete before it. -/
theorem deletedPos_spec (hnodes : AllHold nodes parts) :
    ∃ pos, ftsOptimizeDeletedPos delVec nodes = some pos ∧
      (delVec ≠ [] → pos = lookupOf delVec parts) := by
  rw [ftsOptimizeDeletedPos]
  by_cases hdel : delVec = []
  · exact ⟨-1, by simp [hdel], fun h => absurd hdel h⟩
  rw [if_pos (length_pos_of_ne_nil hdel)]
  obtain ⟨first, last, hfirst, hholds, hlast, hholds'⟩ := hnodes.ends hw.nodes
  have hrange : first.firstDocId ≤ last.lastDocId := by
    obtain ⟨docs, hdocs⟩ : ∃ docs, parts.getLast? = some docs :=
      ne_none_iff_exists'.1 fun h => hw.nodes (getLast?_eq_none_iff.1 h)
    have hmem := mem_of_getLast? hdocs
    obtain ⟨d, hd⟩ := exists_mem_of_ne_nil _ (hw.docs docs hmem)
    rw [hdocs] at hholds'
    rw [hholds.first]
    exact (hw.first_le (mem_flatten.2 ⟨docs, hmem, hd⟩)).trans (hholds'.fst_le hd)
  refine ⟨lookupOf delVec parts, ?_, fun _ => rfl⟩
  rw [lookupOf, ← hholds.first, ← hholds'.last]
  simp [hfirst, hlast, hrange]

/-- **The nodes that are made** have the documents that are kept. -/
theorem optimize_spec :
    ∃ nodes out outDocs pos, parts.mapM buildNode = some nodes ∧
      ftsOptimizeWord delVec nodes = some out ∧ AllHold out outDocs ∧
      outDocs.flatten = kept delVec pos parts.flatten ∧
      (delVec ≠ [] → pos = lookupOf delVec parts) := by
  obtain ⟨nodes, hbuild, hnodes⟩ := mapM_buildNode hw.increasing hw.fits
  obtain ⟨pos, hpos, hlookup⟩ := hw.deletedPos_spec hnodes
  obtain ⟨out, outDocs, hout, hholds, heq⟩ := wordLoop_spec hw.sorted hw.positive
    ((nodes.map fun n => (n.ilist.getD []).length + 1).sum + 1) ⟨[], none, nodes, pos, ⟨0, none⟩⟩
    [] [] [] parts ⟨List.Forall₂.nil, Holds.zero, fun _ => rfl, by simp, by rwa [modifyHead_nil_append],
      Enc.at_start _, hw.docs, hw.nodup⟩ (Nat.lt_succ_of_le hnodes.length_le)
  refine ⟨nodes, out, outDocs, pos, hbuild, ?_, hholds, heq, hlookup⟩
  rw [ftsOptimizeWord, hpos, bind_some]
  exact hout

/-- The documents that are kept are the live ones, under the conditions. -/
theorem live_iff {pos : ℤ} (hpos : delVec ≠ [] → pos = lookupOf delVec parts) :
    (kept delVec pos parts.flatten).Perm (parts.flatten.filter fun d => d.1 ∉ delVec) ↔
      (∀ d ∈ parts.flatten, d.1 ∈ delVec → 0 ≤ lookupOf delVec parts) ∧
        parts.flatten.Pairwise fun c d => d.1 ∈ delVec → c.1 < d.1 := by
  have hfound : ∀ d : Doc, d.1 ∈ delVec → pos = lookupOf delVec parts := fun d hd =>
    hpos (ne_nil_of_mem hd)
  rw [kept_perm_iff hw.sorted hw.nodup]
  · refine and_congr_left' (forall₂_congr fun d _ => forall_congr' fun hdel => ?_)
    rw [hfound d hdel]
  · intro hge d hd hdel
    rw [hfound d hdel] at hge ⊢
    exact ftsOptimizeLookup_passed hw.sorted (ne_nil_of_mem hdel) hge hdel (hw.first_le hd)

end Word

/-- **OPTIMIZE keeps the live postings** of a word exactly if no deleted document comes behind one
with a larger doc id, in the order of the nodes, and `fts_optimize_lookup` finds a position for the
word when it has a deleted document.  The nodes that are made always describe their documents. -/
theorem ftsOptimizeWord_live {parts : List (List Doc)} (hw : Word delVec parts) :
    ∃ nodes out, parts.mapM buildNode = some nodes ∧ ftsOptimizeWord delVec nodes = some out ∧
      (∀ node ∈ out, node.Describes) ∧
      ((∃ live, out.mapM decode = some live ∧
          live.flatten.Perm (parts.flatten.filter fun d => d.1 ∉ delVec)) ↔
        (∀ d ∈ parts.flatten, d.1 ∈ delVec → 0 ≤ lookupOf delVec parts) ∧
          parts.flatten.Pairwise fun c d => d.1 ∈ delVec → c.1 < d.1) := by
  obtain ⟨nodes, out, outDocs, pos, hbuild, hout, hholds, heq, hpos⟩ := hw.optimize_spec
  refine ⟨nodes, out, hbuild, hout, hholds.describes, ?_⟩
  rw [← hw.live_iff hpos, ← heq, hholds.mapM_decode]
  constructor
  · rintro ⟨live, hlive, hperm⟩
    rw [Option.some.inj hlive]
    exact hperm
  · exact fun hperm => ⟨outDocs, rfl, hperm⟩

/-- Two nodes that do not overlap, with a deleted document in the first one. -/
def sampleParts : List (List Doc) := [[(1, [3]), (5, [0, 200])], [(7, [2])]]

theorem samplePartsWord : Word [5] sampleParts where
  sorted := by simp
  positive := by simp
  nodes := by simp [sampleParts]
  docs := by simp [sampleParts]
  increasing := by
    simp only [Increasing]
    decide
  fits := by
    simp only [DocFits]
    decide
  ordered := by simp [sampleParts]
  nodup := by simp [sampleParts]

theorem ftsOptimizeWord_sampleParts :
    Word [5] sampleParts ∧ ∃ nodes out, sampleParts.mapM buildNode = some nodes ∧
      ftsOptimizeWord [5] nodes = some out ∧ (∀ node ∈ out, node.Describes) ∧
      ∃ live, out.mapM decode = some live ∧
        live.flatten.Perm (sampleParts.flatten.filter fun d => d.1 ∉ [5]) := by
  obtain ⟨nodes, out, hbuild, hout, hdescribes, hiff⟩ := ftsOptimizeWord_live samplePartsWord
  refine ⟨samplePartsWord, nodes, out, hbuild, hout, hdescribes, hiff.2 ⟨?_, ?_⟩⟩
  · intro _ _ _
    decide
  · simp [sampleParts]

/-- **In a word whose nodes do not overlap the live postings are kept.** -/
theorem ftsOptimizeWord_ascending (hw : Word delVec parts)
    (hasc : (parts.flatten.map Prod.fst).Pairwise (· < ·)) :
    ∃ nodes out live, parts.mapM buildNode = some nodes ∧
      ftsOptimizeWord delVec nodes = some out ∧ out.mapM decode = some live ∧
      live.flatten.Perm (parts.flatten.filter fun d => d.1 ∉ delVec) := by
  obtain ⟨nodes, out, outDocs, pos, hbuild, hout, hholds, heq, hpos⟩ := hw.optimize_spec
  refine ⟨nodes, out, outDocs, hbuild, hout, hholds.mapM_decode, ?_⟩
  rw [heq, hw.live_iff hpos]
  have hpair : parts.flatten.Pairwise fun c d => d.1 ∈ delVec → c.1 < d.1 := by
    refine List.Pairwise.imp ?_ (pairwise_map.1 hasc)
    exact fun h _ => h
  refine ⟨fun d hd hdel => ?_, hpair⟩
  refine ftsOptimizeLookup_nonneg hw.sorted hdel (hw.first_le hd) ?_
  -- the last doc id of the last node is the largest one
  obtain ⟨init, last, rfl⟩ := (eq_nil_or_concat parts).resolve_left hw.nodes
  have hlast : last ∈ init.concat last := by simp
  obtain ⟨node, -, hnode⟩ := buildNode_holds (hw.increasing last hlast) (hw.fits last hlast)
  obtain ⟨e, he⟩ := exists_mem_of_ne_nil _ (hw.docs last hlast)
  rw [concat_eq_append, flatten_append, flatten_singleton] at hasc hd
  rw [concat_eq_append, getLast?_concat, getD_some, ← hnode.last]
  rcases mem_append.1 hd with hd | hd
  · rw [map_append, pairwise_append] at hasc
    exact (hasc.2.2 _ (mem_map_of_mem hd) _ (mem_map_of_mem he)).le.trans (hnode.fst_le he)
  · exact hnode.fst_le hd

theorem ftsOptimizeWord_ascending_sampleParts :
    ∃ nodes out live, sampleParts.mapM buildNode = some nodes ∧
      ftsOptimizeWord [5] nodes = some out ∧ out.mapM decode = some live ∧
      live.flatten.Perm (sampleParts.flatten.filter fun d => d.1 ∉ [5]) :=
  ftsOptimizeWord_ascending samplePartsWord (by simp [sampleParts])

/-- The document 5 is deleted, but is read behind the document 10: its postings are kept. -/
theorem overlapping_nodes_keep_deleted :
    ((([[(1, [3]), (10, [4])], [(5, [2])]] : List (List Doc)).mapM buildNode).bind fun nodes =>
      (ftsOptimizeWord [5] nodes).bind fun out => out.mapM decode)
        = some [[(1, [3]), (10, [4])], [(5, [2])]] := by
  decide +kernel

end Fts
