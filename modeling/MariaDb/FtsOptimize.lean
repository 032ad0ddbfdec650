/-
**OPTIMIZE of a full-text word: the nodes are copied without the deleted documents.**

`fts_optimize_word` of `fts0opt.cc` reads the nodes of a word and writes new ones, as full as they
may get, leaving out the documents in the sorted list of deleted doc ids.  A position in that list
is found once for the word, by a search for the range of doc ids of its nodes, and only moves
forward from then on.  The decoder of a source node is resumed in the middle of the node when a
destination node is full.

Main definitions:

* `ftsBsearch`, `ftsOptimizeLookup`, `ftsOptimizeDeletedPos`: the position in the list of deleted
  doc ids;
* `ftsOptimizeEncodeNode`, `ftsOptimizeNode`: copying from one node to another;
* `ftsOptimizeWord`: all nodes of a word.
-/

import MariaDb.FtsIlist

set_option autoImplicit false

namespace Fts

/-! ### The position in the list of deleted doc ids -/

/-- The loop of `fts_bsearch`: the index, or the two bounds that are left.  The first argument is
fuel. -/
def bsearchLoop (array : List ℕ) (docId : ℕ) : ℕ → ℤ → ℤ → Sum ℤ (ℤ × ℤ)
  | 0, lower, upper => .inr (lower, upper)
  | fuel + 1, lower, upper =>
    if lower < upper then
      let i := (lower + upper) / 2
      let x := array.getD i.toNat 0
      if x < docId then bsearchLoop array docId fuel (i + 1) upper
      else if docId < x then bsearchLoop array docId fuel lower (i - 1)
      else .inl i
    else .inr (lower, upper)

def ftsBsearch (array : List ℕ) (lower upper : ℤ) (docId : ℕ) : ℤ :=
  let origSize := upper
  if upper = 0 then -1
  else
    match bsearchLoop array docId (array.length + 1) lower upper with
    | .inl i => i
    | .inr (lower, upper) =>
      if lower = upper ∧ lower < origSize ∧ docId = array.getD lower.toNat 0 then lower
      else if lower = 0 then -1
      else -lower

/-- `fts_optimize_lookup`, from the start of the list. -/
def ftsOptimizeLookup (docIds : List ℕ) (firstDocId lastDocId : ℕ) : ℤ :=
  let upper : ℤ := docIds.length
  let pos := ftsBsearch docIds 0 upper firstDocId
  if pos < 0 then
    let i := pos.natAbs
    if i = 1 ∧ docIds.getD 0 0 ≤ lastDocId ∧ firstDocId < docIds.getD 0 0 then 0
    else if (i : ℤ) < upper ∧ docIds.getD i 0 ≤ lastDocId then i
    else pos
  else pos

/-- `fts_optimize_deleted_pos`; `none` when the word has no node. -/
def ftsOptimizeDeletedPos (delVec : List ℕ) (nodes : List Node) : Option ℤ :=
  if 0 < delVec.length then do
    let first ← nodes.head?
    let last ← nodes.getLast?
    if first.firstDocId ≤ last.lastDocId then
      some (ftsOptimizeLookup delVec first.firstDocId last.lastDocId)
    else none
  else some (-1)

/-! ### Copying a node -/

def ftsIlistMaxSize : ℕ := 64 * 1024

/-- `fts_optimize_encode_node`: the node, and the bytes of the source behind the document; `none` is
a failed assertion or a read behind the source. -/
def ftsOptimizeEncodeNode (node : Node) (docId : ℕ) (src : List ℕ) : Option (Node × List ℕ) :=
  if node.firstDocId = 0 ∧ node.lastDocId ≠ 0 then none
  else
    let docIdDelta := diff64 docId node.lastDocId
    (skipPositions (src.length + 1) src).bind fun src' =>
      let posEncLen := src.length - src'.length
      let encLen := ftsGetEncodedLen docIdDelta + posEncLen
      let alloc :=
        match node.ilist with
        | none => if ftsIlistMaxSize < encLen then encLen else ftsIlistMaxSize
        | some _ =>
          if node.ilistSizeAlloc < node.ilistSize + encLen then node.ilistSize + encLen
          else node.ilistSizeAlloc
      if node.ilist = none ∧ node.ilistSize ≠ 0 then none
      else if alloc < node.ilistSize + encLen then none
      else
        some
          ({ node with
              firstDocId := if node.firstDocId = 0 then docId else node.firstDocId
              lastDocId := docId
              ilist := some (node.ilist.getD [] ++ (ftsEncodeInt docIdDelta ++ src.take posEncLen))
              ilistSize := node.ilistSize + encLen
              ilistSizeAlloc := alloc }, src')

variable (delVec : List ℕ)

/-- The code from the label `test_again` to the decision about a document: whether it is deleted,
and the new position in the list.  The first argument is fuel. -/
def testAgain (docId : ℕ) : ℕ → ℤ → Option (Bool × ℤ)
  | 0, _ => none
  | fuel + 1, delPos =>
    let delDocId := if 0 ≤ delPos ∧ delPos < delVec.length then delVec.getD delPos.toNat 0 else 0
    if 0 < delDocId ∧ docId = delDocId then some (true, delPos + 1)
    else if 0 < delDocId ∧ delDocId < docId then testAgain docId fuel (delPos + 1)
    else some (false, delPos)

/-- What `fts_optimize_node` works on: the position in the list of deleted doc ids, the destination,
the doc id read last and the bytes of the source that are left. -/
structure CopyState where
  delPos : ℤ
  dst : Node
  docId : ℕ
  ptr : List ℕ

/-- One document is read from the source, and skipped or copied. -/
def copyDoc (s : CopyState) : Option CopyState :=
  (ftsDecodeVlc s.ptr).bind fun r =>
    let docId := (s.docId + r.1) % 2 ^ 64
    (testAgain delVec docId (delVec.length + 1) s.delPos).bind fun test =>
      if test.1 then
        (skipPositions (r.2.length + 1) r.2).map fun ptr => ⟨test.2, s.dst, docId, ptr⟩
      else
        (ftsOptimizeEncodeNode s.dst docId r.2).map fun p =>
          ⟨test.2, { p.1 with docCount := p.1.docCount + 1 }, docId, p.2⟩

/-- The loop of `fts_optimize_node`.  The first argument is fuel: every round reads a byte. -/
def copyLoop (src : Node) : ℕ → CopyState → Option CopyState
  | 0, _ => none
  | fuel + 1, s =>
    if (src.ilist.getD []).length - s.ptr.length < src.ilistSize ∧
        s.dst.ilistSize < ftsIlistMaxSize then
      (copyDoc delVec s).bind (copyLoop src fuel)
    else some s

/-- `fts_encode_t`. -/
structure Enc where
  srcLastDocId : ℕ
  srcIlistPtr : Option (List ℕ)

/-- `fts_optimize_node`: the position, the destination and the state of the decoder. -/
def ftsOptimizeNode (delPos : ℤ) (dst src : Node) (enc : Enc) : Option (ℤ × Node × Enc) :=
  let ilist := src.ilist.getD []
  let ptr := enc.srcIlistPtr.getD ilist
  (copyLoop delVec src (ilist.length + 1) ⟨delPos, dst, enc.srcLastDocId, ptr⟩).bind fun s =>
    if src.ilistSize ≤ ilist.length - s.ptr.length ∧ s.docId ≠ src.lastDocId then none
    else some (s.delPos, s.dst, ⟨s.docId, some s.ptr⟩)

/-! ### All nodes of a word -/

/-- What the loop of `fts_optimize_word` works on: the nodes that were made before the destination
node, the destination, the source nodes from the current one on, the position in the list of
deleted doc ids and the state of the decoder. -/
structure WordState where
  made : List Node
  dst : Option Node
  todo : List Node
  delPos : ℤ
  enc : Enc

/-- One round of the loop of `fts_optimize_word`, for the current source node `src`. -/
def wordStep (src : Node) (rest : List Node) (s : WordState) : Option WordState :=
  -- a new destination node, when there is none or its doc ids have gone too far
  let fresh := s.dst.all fun dst => decide (src.firstDocId < dst.lastDocId)
  let made := if fresh then s.made ++ s.dst.toList else s.made
  let dst := if fresh then Node.zero else s.dst.getD Node.zero
  (ftsOptimizeNode delVec s.delPos dst src s.enc).bind fun r =>
    let ptr := r.2.2.srcIlistPtr.getD []
    let copied := (src.ilist.getD []).length - ptr.length
    if src.ilistSize < copied then none
    else
      let done := copied = src.ilistSize
      let todo := if done then rest else src :: rest
      let enc := if done then ⟨0, none⟩ else r.2.2
      if ftsIlistMaxSize ≤ r.2.1.ilistSize ∨ todo = [] then
        some ⟨made ++ [r.2.1], none, todo, r.1, enc⟩
      else some ⟨made, some r.2.1, todo, r.1, enc⟩

/-- The loop of `fts_optimize_word`.  The first argument is fuel. -/
def wordLoop : ℕ → WordState → Option (List Node)
  | 0, _ => none
  | fuel + 1, s =>
    match s.todo with
    | [] => if s.dst = none then some s.made else none
    | src :: rest => (wordStep delVec src rest s).bind (wordLoop fuel)

/-- `fts_optimize_word`: the nodes that are made; `none` is a failed assertion.  Every round of the
loop ends a source node or reads a byte of one. -/
def ftsOptimizeWord (nodes : List Node) : Option (List Node) :=
  (ftsOptimizeDeletedPos delVec nodes).bind fun delPos =>
    wordLoop delVec ((nodes.map fun n => (n.ilist.getD []).length + 1).sum + 1)
      ⟨[], none, nodes, delPos, ⟨0, none⟩⟩

end Fts
