/-
**Full-text index nodes: doc ids and word positions as a list of bytes.**

A node of a full-text index holds, for one word, the documents in which the word occurs and its
positions there.  `fts_cache_node_add_positions` of `fts0fts.cc` appends one document to a node:
the distance to the doc id before it, the distances between the positions, and a zero byte.  Each
number is written by `fts_encode_int` of `fts0vlc.h` in groups of seven bits, the most significant
group first, and the last byte is marked by its high bit; so no number starts with a zero byte, and
the zero byte ends the positions.

This module gives the code, the decoder, and what a node that was built by the code consists of.

Main definitions:

* `ftsGetEncodedLen`, `ftsEncodeInt`, `ftsDecodeVlc`: the numbers;
* `Node`, `ftsCacheNodeAddPositions`, `buildNode`: the nodes;
* `Node.decode`: the documents of a node;
* `Node.Holds`: a node and the documents that it describes.

Main results:

* `ftsDecodeVlc_encode`, `length_ftsEncodeInt`: a number is read back, and its length;
* `Node.Holds.decode`: a node that describes some documents is decoded to them.
-/

import Mathlib.Tactic

set_option autoImplicit false

namespace Fts

open List Option Nat

/-! ### Numbers -/

def ftsGetEncodedLen (val : ℕ) : ℕ :=
  if val < 1 <<< 7 then 1
  else if val < 1 <<< 14 then 2
  else if val < 1 <<< 21 then 3
  else if val < 1 <<< 28 then 4
  else if val < 1 <<< 35 then 5
  else if val < 1 <<< 42 then 6
  else if val < 1 <<< 49 then 7
  else if val < 1 <<< 56 then 8
  else if val < 1 <<< 63 then 9
  else 10

/-- The bytes that `fts_encode_int` writes from the label `add_(k + 1)` on. -/
def addBytes (val : ℕ) : ℕ → List ℕ
  | 0 => [val % 256 ||| 0x80]
  | k + 1 => ((val >>> (7 * (k + 1))) % 256 &&& 0x7F) :: addBytes val k

def ftsEncodeInt (val : ℕ) : List ℕ :=
  if val < 1 <<< 7 then addBytes val 0
  else if val < 1 <<< 14 then addBytes val 1
  else if val < 1 <<< 21 then addBytes val 2
  else if val < 1 <<< 28 then addBytes val 3
  else if val < 1 <<< 35 then addBytes val 4
  else if val < 1 <<< 42 then addBytes val 5
  else if val < 1 <<< 49 then addBytes val 6
  else if val < 1 <<< 56 then addBytes val 7
  else if val < 1 <<< 63 then addBytes val 8
  else (val >>> 63) % 256 :: addBytes val 8

/-- The loop of `fts_decode_vlc`: the number, and the bytes behind it. -/
def decodeLoop : ℕ → List ℕ → Option (ℕ × List ℕ)
  | _, [] => none
  | val, b :: rest =>
    let val' := val ||| (b &&& 0x7F)
    if b &&& 0x80 ≠ 0 then some (val', rest) else decodeLoop ((val' <<< 7) % 2 ^ 64) rest

def ftsDecodeVlc (bytes : List ℕ) : Option (ℕ × List ℕ) := decodeLoop 0 bytes

theorem and_7F (b : ℕ) : b &&& 0x7F = b % 128 := and_two_pow_sub_one_eq_mod b 7

theorem byte_and_7F (n : ℕ) : n % 256 &&& 0x7F = n % 128 := by
  rw [and_7F]
  omega

theorem byte_or_80 (n : ℕ) : n % 256 ||| 0x80 = n % 128 + 128 := by
  have hall : ∀ b < 256, b ||| 0x80 = b % 128 + 128 := by decide +kernel
  rw [hall _ (mod_lt n (by norm_num))]
  omega

theorem and_80_of_lt {b : ℕ} (h : b < 128) : b &&& 0x80 = 0 := by
  have hall : ∀ b < 128, b &&& 0x80 = 0 := by decide
  exact hall b h

theorem and_80_of_ge {b : ℕ} (h : b < 128) : (b + 128) &&& 0x80 ≠ 0 := by
  have hall : ∀ b < 128, (b + 128) &&& 0x80 ≠ 0 := by decide
  exact hall b h

theorem or_group {val d : ℕ} (hval : val % 128 = 0) (hd : d < 128) : val ||| d = val + d := by
  obtain ⟨q, rfl⟩ : 128 ∣ val := dvd_of_mod_eq_zero hval
  have := two_pow_add_eq_or_of_lt (i := 7) hd q
  simpa using this.symm

theorem length_addBytes (val k : ℕ) : (addBytes val k).length = k + 1 := by
  induction k with
  | zero => rfl
  | succ k ih => rw [addBytes, length_cons, ih]

theorem shiftRight_seven (val k : ℕ) : val >>> (7 * k) = val / 128 ^ k := by
  rw [shiftRight_eq_div_pow, pow_mul]
  norm_num

/-- The decoder reads the groups that were written. -/
theorem decodeLoop_addBytes (val : ℕ) (rest : List ℕ) (k : ℕ) :
    ∀ acc, acc % 128 = 0 → acc * 128 ^ k + val % 128 ^ (k + 1) < 2 ^ 64 →
      decodeLoop acc (addBytes val k ++ rest) =
        some (acc * 128 ^ k + val % 128 ^ (k + 1), rest) := by
  induction k with
  | zero =>
    intro acc hacc _
    have hd : val % 128 < 128 := mod_lt _ (by norm_num)
    have hbyte : (val % 128 + 128) % 128 = val % 128 := by omega
    simp only [addBytes, singleton_append, decodeLoop, byte_or_80, and_7F, hbyte,
      or_group hacc hd, if_pos (and_80_of_ge hd), pow_zero, mul_one, zero_add, pow_one]
  | succ k ih =>
    intro acc hacc hlt
    have hsplit : val % 128 ^ (k + 1 + 1) =
        val % 128 ^ (k + 1) + 128 ^ (k + 1) * (val / 128 ^ (k + 1) % 128) := by
      rw [pow_succ 128 (k + 1), mod_mul]
    have hd : val / 128 ^ (k + 1) % 128 < 128 := mod_lt _ (by norm_num)
    simp only [addBytes, cons_append, decodeLoop, byte_and_7F, shiftRight_seven]
    generalize val / 128 ^ (k + 1) % 128 = d at *
    -- the group that is read is the next one of the number
    have hvalue : (acc + d) * 128 * 128 ^ k + val % 128 ^ (k + 1) =
        acc * 128 ^ (k + 1) + val % 128 ^ (k + 1 + 1) := by
      rw [hsplit]
      ring
    have hle : (acc + d) * 128 ≤ (acc + d) * 128 * 128 ^ k :=
      Nat.le_mul_of_pos_right _ (by positivity)
    have hmod : ((acc + d) <<< 7) % 2 ^ 64 = (acc + d) * 128 := by
      rw [shiftLeft_eq]
      exact mod_eq_of_lt (by omega)
    have hrest := ih ((acc + d) * 128) (by omega) (by rw [hvalue]; exact hlt)
    rw [hvalue] at hrest
    simp only [and_7F, mod_eq_of_lt hd, or_group hacc hd, and_80_of_lt hd, ne_eq,
      not_true_eq_false, if_false, hmod, hrest]

/-- A number of `k + 1` groups, below `2 ^ 63`: the thresholds of the two functions agree. -/
theorem ftsEncodeInt_groups {val k : ℕ} (hk : k ≤ 8) (hge : k = 0 ∨ 128 ^ k ≤ val)
    (hlt : val < 128 ^ (k + 1)) :
    ftsEncodeInt val = addBytes val k ∧ ftsGetEncodedLen val = k + 1 := by
  simp only [ftsEncodeInt, ftsGetEncodedLen, reduceShiftLeft]
  interval_cases k <;> norm_num at hge hlt <;> constructor
  all_goals repeat rw [if_neg (by omega)]
  all_goals rw [if_pos (by omega)]

/-- The number of groups of a number. -/
theorem ftsEncodeInt_cases {val : ℕ} (h : val < 2 ^ 64) :
    (∃ k, val < 128 ^ (k + 1) ∧ (k = 0 ∨ 128 ^ k ≤ val) ∧
        ftsEncodeInt val = addBytes val k ∧ ftsGetEncodedLen val = k + 1) ∨
      (2 ^ 63 ≤ val ∧ ftsEncodeInt val = 1 :: addBytes val 8 ∧ ftsGetEncodedLen val = 10) := by
  rcases lt_or_ge val (2 ^ 63) with hlt | hge
  · left
    have hlog : val < 128 ^ (Nat.log 128 val + 1) := lt_pow_succ_log_self (by norm_num) val
    have hle : Nat.log 128 val = 0 ∨ 128 ^ Nat.log 128 val ≤ val := by
      rcases Nat.eq_zero_or_pos val with rfl | hpos
      · exact .inl rfl
      · exact .inr (pow_log_le_self 128 hpos.ne')
    have hsmall : Nat.log 128 val ≤ 8 := by
      have hlt' : val < 128 ^ 9 := hlt
      have := log_lt_of_lt_pow' (by norm_num : (9 : ℕ) ≠ 0) hlt'
      omega
    exact ⟨Nat.log 128 val, hlog, hle, ftsEncodeInt_groups hsmall hle hlog⟩
  · right
    have htop : (val >>> 63) % 256 = 1 := by
      rw [shiftRight_eq_div_pow]
      omega
    refine ⟨by norm_num; exact hge, ?_, ?_⟩
    · simp only [ftsEncodeInt, reduceShiftLeft]
      repeat rw [if_neg (by omega)]
      rw [htop]
    · simp only [ftsGetEncodedLen, reduceShiftLeft]
      repeat rw [if_neg (by omega)]

/-- **A number is read back**, and the decoder stops behind it. -/
theorem ftsDecodeVlc_encode {val : ℕ} (h : val < 2 ^ 64) (rest : List ℕ) :
    ftsDecodeVlc (ftsEncodeInt val ++ rest) = some (val, rest) := by
  rcases ftsEncodeInt_cases h with ⟨k, hlt, -, henc, -⟩ | ⟨hge, henc, -⟩
  · have hdec := decodeLoop_addBytes val rest k 0 rfl (by rw [mod_eq_of_lt hlt]; omega)
    rw [mod_eq_of_lt hlt, zero_mul, zero_add] at hdec
    rw [henc, ftsDecodeVlc, hdec]
  have hvalue : 128 * 128 ^ 8 + val % 128 ^ (8 + 1) = val := by
    omega
  have hdec := decodeLoop_addBytes val rest 8 128 rfl (by rw [hvalue]; exact h)
  rw [hvalue] at hdec
  rw [henc, ftsDecodeVlc, cons_append]
  exact hdec

theorem length_ftsEncodeInt {val : ℕ} (h : val < 2 ^ 64) :
    (ftsEncodeInt val).length = ftsGetEncodedLen val := by
  rcases ftsEncodeInt_cases h with ⟨k, -, -, henc, hlen⟩ | ⟨-, henc, hlen⟩
  · rw [henc, hlen, length_addBytes]
  · rw [henc, hlen, length_cons, length_addBytes]

/-- No number starts with a zero byte. -/
theorem ftsEncodeInt_head {val : ℕ} (h : val < 2 ^ 64) :
    ∃ b bytes, ftsEncodeInt val = b :: bytes ∧ b ≠ 0 := by
  rcases ftsEncodeInt_cases h with ⟨k, hlt, hge, henc, -⟩ | ⟨-, henc, -⟩
  · rw [henc]
    cases k with
    | zero => exact ⟨_, _, rfl, by rw [byte_or_80]; omega⟩
    | succ k =>
      refine ⟨_, _, rfl, ?_⟩
      have hpos : 0 < val / 128 ^ (k + 1) := div_pos (hge.resolve_left (by omega)) (by positivity)
      have hsmall : val / 128 ^ (k + 1) < 128 := by
        rw [div_lt_iff_lt_mul (by positivity), ← pow_succ']
        exact hlt
      rw [shiftRight_seven, byte_and_7F, mod_eq_of_lt hsmall]
      omega
  · exact ⟨1, _, henc, by omega⟩

/-! ### Documents -/

/-- A document in which the word occurs: its id, and the positions of the word. -/
abbrev Doc := ℕ × List ℕ

/-- The difference of two numbers of 64 bits. -/
def diff64 (a b : ℕ) : ℕ := (a + 2 ^ 64 - b) % 2 ^ 64

theorem diff64_lt (a b : ℕ) : diff64 a b < 2 ^ 64 := mod_lt _ (by norm_num)

theorem add_diff64 {a b : ℕ} (ha : a < 2 ^ 64) (hb : b < 2 ^ 64) :
    (b + diff64 a b) % 2 ^ 64 = a := by
  norm_num [diff64] at ha hb ⊢
  omega

/-- The bytes for the positions of a word, without the zero byte behind them. -/
def positionBytes (lastPos : ℕ) : List ℕ → List ℕ
  | [] => []
  | pos :: ps => ftsEncodeInt (diff64 pos lastPos) ++ positionBytes pos ps

/-- The length that is computed for the positions. -/
def positionsLen (lastPos : ℕ) : List ℕ → ℕ
  | [] => 0
  | pos :: ps => ftsGetEncodedLen (diff64 pos lastPos) + positionsLen pos ps

section

variable (ps : List ℕ) (docs : List Doc) (d : Doc)

theorem length_positionBytes :
    ∀ lastPos, (positionBytes lastPos ps).length = positionsLen lastPos ps := by
  induction ps with
  | nil => intro _; rfl
  | cons pos ps ih =>
    intro lastPos
    rw [positionBytes, positionsLen, length_append, ih, length_ftsEncodeInt (diff64_lt pos lastPos)]

/-- The loop `while (*src) fts_decode_vlc(&src)` with the step over the zero byte: the bytes behind
the positions. -/
def skipPositions : ℕ → List ℕ → Option (List ℕ)
  | 0, _ => none
  | _ + 1, [] => none
  | fuel + 1, b :: bytes =>
    if b = 0 then some bytes
    else (ftsDecodeVlc (b :: bytes)).bind fun r => skipPositions fuel r.2

theorem skipPositions_spec : ∀ (lastPos : ℕ) (rest : List ℕ) (fuel : ℕ),
    (positionBytes lastPos ps).length < fuel →
      skipPositions fuel (positionBytes lastPos ps ++ 0 :: rest) = some rest := by
  induction ps with
  | nil =>
    intro lastPos rest fuel hfuel
    obtain _ | fuel := fuel
    · omega
    rfl
  | cons pos ps ih =>
    intro lastPos rest fuel hfuel
    obtain _ | fuel := fuel
    · omega
    obtain ⟨b, bytes, henc, hb⟩ := ftsEncodeInt_head (diff64_lt pos lastPos)
    have hdec := ftsDecodeVlc_encode (diff64_lt pos lastPos) (positionBytes pos ps ++ 0 :: rest)
    rw [positionBytes, length_append, henc, length_cons] at hfuel
    rw [positionBytes, append_assoc]
    rw [henc, cons_append] at hdec ⊢
    rw [skipPositions, if_neg hb, hdec, bind_some]
    exact ih pos rest fuel (by omega)

/-- Decoding the positions of a document: the positions, and the bytes behind the zero byte. -/
def decodePositions : ℕ → ℕ → List ℕ → Option (List ℕ × List ℕ)
  | 0, _, _ => none
  | _ + 1, _, [] => none
  | fuel + 1, lastPos, b :: bytes =>
    if b = 0 then some ([], bytes)
    else (ftsDecodeVlc (b :: bytes)).bind fun r =>
      let pos := (lastPos + r.1) % 2 ^ 64
      (decodePositions fuel pos r.2).map fun q => (pos :: q.1, q.2)

/-- Decoding a list of documents behind the doc id `docId`. -/
def decodeDocs : ℕ → ℕ → List ℕ → Option (List Doc)
  | 0, _, _ => none
  | _ + 1, _, [] => some []
  | fuel + 1, docId, b :: bytes =>
    (ftsDecodeVlc (b :: bytes)).bind fun r =>
      let docId' := (docId + r.1) % 2 ^ 64
      (decodePositions (r.2.length + 1) 0 r.2).bind fun q =>
        (decodeDocs fuel docId' q.2).map fun docs => (docId', q.1) :: docs

/-- The numbers of a document fit into 64 bits. -/
def DocFits : Prop := d.1 < 2 ^ 64 ∧ ∀ pos ∈ d.2, pos < 2 ^ 64

theorem decodePositions_spec : ∀ (lastPos : ℕ) (rest : List ℕ) (fuel : ℕ),
    lastPos < 2 ^ 64 → (∀ pos ∈ ps, pos < 2 ^ 64) → (positionBytes lastPos ps).length < fuel →
      decodePositions fuel lastPos (positionBytes lastPos ps ++ 0 :: rest) = some (ps, rest) := by
  induction ps with
  | nil =>
    intro lastPos rest fuel _ _ hfuel
    obtain _ | fuel := fuel
    · omega
    rfl
  | cons pos ps ih =>
    intro lastPos rest fuel hlast hfits hfuel
    obtain _ | fuel := fuel
    · omega
    obtain ⟨b, bytes, henc, hb⟩ := ftsEncodeInt_head (diff64_lt pos lastPos)
    have hdec := ftsDecodeVlc_encode (diff64_lt pos lastPos) (positionBytes pos ps ++ 0 :: rest)
    have hpos : pos < 2 ^ 64 := hfits pos mem_cons_self
    rw [positionBytes, length_append, henc, length_cons] at hfuel
    rw [positionBytes, append_assoc]
    rw [henc, cons_append] at hdec ⊢
    rw [decodePositions, if_neg hb, hdec, bind_some]
    simp only [add_diff64 hpos hlast]
    rw [ih pos rest fuel hpos (fun q hq => hfits q (mem_cons_of_mem _ hq)) (by omega)]
    rfl

/-- The bytes of one document behind the doc id `lastDocId`. -/
def docBytes (lastDocId : ℕ) (d : Doc) : List ℕ :=
  ftsEncodeInt (diff64 d.1 lastDocId) ++ (positionBytes 0 d.2 ++ [0])

/-- The bytes of some documents behind the doc id `lastDocId`. -/
def docsBytes (lastDocId : ℕ) : List Doc → List ℕ
  | [] => []
  | d :: docs => docBytes lastDocId d ++ docsBytes d.1 docs

/-- The last doc id of a list behind `lastDocId`. -/
def lastId (lastDocId : ℕ) : List Doc → ℕ
  | [] => lastDocId
  | d :: docs => lastId d.1 docs

theorem lastId_snoc : ∀ lastDocId, lastId lastDocId (docs ++ [d]) = d.1 := by
  induction docs with
  | nil => intro _; rfl
  | cons c docs ih => intro _; exact ih c.1

theorem docsBytes_snoc : ∀ lastDocId, docsBytes lastDocId (docs ++ [d]) =
      docsBytes lastDocId docs ++ docBytes (lastId lastDocId docs) d := by
  induction docs with
  | nil =>
    intro lastDocId
    rw [nil_append, docsBytes, docsBytes, docsBytes, lastId, append_nil, nil_append]
  | cons c docs ih =>
    intro lastDocId
    rw [cons_append, docsBytes, ih, docsBytes, append_assoc, lastId]

theorem decodeDocs_spec : ∀ (lastDocId fuel : ℕ), lastDocId < 2 ^ 64 →
    (∀ d ∈ docs, DocFits d) → (docsBytes lastDocId docs).length < fuel →
      decodeDocs fuel lastDocId (docsBytes lastDocId docs) = some docs := by
  induction docs with
  | nil =>
    intro lastDocId fuel _ _ hfuel
    obtain _ | fuel := fuel
    · omega
    rfl
  | cons d docs ih =>
    intro lastDocId fuel hlast hfits hfuel
    obtain _ | fuel := fuel
    · omega
    obtain ⟨hd, hps⟩ := hfits d mem_cons_self
    obtain ⟨b, bytes, henc, hb⟩ := ftsEncodeInt_head (diff64_lt d.1 lastDocId)
    have hsplit : docsBytes lastDocId (d :: docs) =
        ftsEncodeInt (diff64 d.1 lastDocId) ++ (positionBytes 0 d.2 ++ 0 :: docsBytes d.1 docs) := by
      simp [docsBytes, docBytes]
    have hdec := ftsDecodeVlc_encode (diff64_lt d.1 lastDocId)
      (positionBytes 0 d.2 ++ 0 :: docsBytes d.1 docs)
    have hpos := decodePositions_spec d.2 0 (docsBytes d.1 docs)
      ((positionBytes 0 d.2 ++ 0 :: docsBytes d.1 docs).length + 1) (by norm_num) hps
      (by rw [length_append]; omega)
    rw [hsplit, henc, cons_append, length_cons, length_append, length_append, length_cons] at hfuel
    rw [hsplit]
    rw [henc, cons_append] at hdec ⊢
    rw [decodeDocs, hdec, bind_some]
    simp only [hpos, bind_some, add_diff64 hd hlast]
    rw [ih d.1 fuel hd (fun c hc => hfits c (mem_cons_of_mem _ hc)) (by omega)]
    rfl

/-! ### Nodes -/

/-- `fts_node_t`.  `ilist` holds the bytes in use; `none` is the null pointer. -/
structure Node where
  firstDocId : ℕ
  lastDocId : ℕ
  ilist : Option (List ℕ)
  docCount : ℕ
  ilistSize : ℕ
  ilistSizeAlloc : ℕ
deriving DecidableEq, Repr

def Node.zero : Node := ⟨0, 0, none, 0, 0, 0⟩

/-- How much `fts_cache_node_add_positions` reserves. -/
def reserveSize (newSize : ℕ) : ℕ :=
  if newSize < 16 then 16
  else if newSize < 32 then 32
  else if newSize < 48 then 48
  else newSize * 6 / 5

/-- `fts_cache_node_add_positions`; `none` is a failed assertion. -/
def ftsCacheNodeAddPositions (node : Node) (docId : ℕ) (positions : List ℕ) : Option Node :=
  let docIdDelta := diff64 docId node.lastDocId
  let encLen := ftsGetEncodedLen docIdDelta + positionsLen 0 positions + 1
  let alloc := if encLen ≤ node.ilistSizeAlloc - node.ilistSize then node.ilistSizeAlloc
    else reserveSize (node.ilistSize + encLen)
  let fragment := ftsEncodeInt docIdDelta ++ positionBytes 0 positions ++ [0]
  if encLen ≠ fragment.length then none
  else
    some
      { firstDocId := if node.firstDocId = 0 then docId else node.firstDocId
        lastDocId := docId
        ilist := some (node.ilist.getD [] ++ fragment)
        docCount := node.docCount + 1
        ilistSize := node.ilistSize + encLen
        ilistSizeAlloc := alloc }

def buildNode (docs : List Doc) : Option Node :=
  docs.foldlM (fun node d => ftsCacheNodeAddPositions node d.1 d.2) Node.zero

/-- **The documents of a node.** -/
def Node.decode (node : Node) : Option (List Doc) :=
  decodeDocs ((node.ilist.getD []).length + 1) 0 (node.ilist.getD [])

/-- Doc ids that increase strictly and are not zero. -/
def Increasing (docs : List Doc) : Prop :=
  (docs.map Prod.fst).Pairwise (· < ·) ∧ ∀ d ∈ docs, 0 < d.1

end

/-- The node describes the documents: their bytes, their number and the ends of their range. -/
structure Node.Holds (node : Node) (docs : List Doc) : Prop where
  bytes : node.ilist.getD [] = docsBytes 0 docs
  first : node.firstDocId = (docs.head?.map Prod.fst).getD 0
  last : node.lastDocId = lastId 0 docs
  count : node.docCount = docs.length
  size : node.ilistSize = (node.ilist.getD []).length
  null : node.ilist = none → node.ilistSize = 0
  increasing : Increasing docs
  fits : ∀ d ∈ docs, DocFits d

theorem Node.Holds.decode {node : Node} {docs : List Doc} (h : node.Holds docs) :
    node.decode = some docs := by
  rw [Node.decode, h.bytes]
  exact decodeDocs_spec docs 0 _ (by norm_num) h.fits (by omega)

theorem Node.Holds.zero : Node.zero.Holds [] :=
  ⟨rfl, rfl, rfl, rfl, rfl, fun _ => rfl, ⟨List.Pairwise.nil, by simp⟩, by simp⟩

theorem Increasing.snoc {docs : List Doc} {d : Doc} (h : Increasing docs) (hpos : 0 < d.1)
    (hlast : ∀ c ∈ docs, c.1 < d.1) : Increasing (docs ++ [d]) := by
  refine ⟨?_, forall_mem_append.2 ⟨h.2, forall_mem_singleton.2 hpos⟩⟩
  rw [map_append, pairwise_append]
  exact ⟨h.1, by simp, by simpa using hlast⟩

/-- One document more, when its bytes are appended and the fields are kept up. -/
theorem Node.Holds.append {node node' : Node} {docs : List Doc} {d : Doc} (h : node.Holds docs)
    (hd : DocFits d) (hpos : 0 < d.1) (hlast : ∀ c ∈ docs, c.1 < d.1)
    (hbytes : node'.ilist = some (node.ilist.getD [] ++ docBytes node.lastDocId d))
    (hfirst : node'.firstDocId = if node.firstDocId = 0 then d.1 else node.firstDocId)
    (hlast' : node'.lastDocId = d.1) (hcount : node'.docCount = node.docCount + 1)
    (hsize : node'.ilistSize = node.ilistSize + (docBytes node.lastDocId d).length) :
    node'.Holds (docs ++ [d]) where
  bytes := by
    rw [hbytes, getD_some, h.bytes, docsBytes_snoc, h.last]
  first := by
    cases docs with
    | nil =>
      have hzero : node.firstDocId = 0 := h.first
      rw [hfirst, if_pos hzero]
      rfl
    | cons c docs =>
      have hc : node.firstDocId = c.1 := h.first
      have hne : node.firstDocId ≠ 0 := hc ▸ (h.increasing.2 c mem_cons_self).ne'
      rw [hfirst, if_neg hne, hc]
      rfl
  last := by rw [hlast', lastId_snoc]
  count := by rw [hcount, h.count, length_append]; rfl
  size := by rw [hsize, hbytes, getD_some, length_append, h.size]
  null := by rw [hbytes]; exact fun h => absurd h (by simp)
  increasing := h.increasing.snoc hpos hlast
  fits := forall_mem_append.2 ⟨h.fits, forall_mem_singleton.2 hd⟩

theorem length_docBytes (lastDocId : ℕ) (d : Doc) : (docBytes lastDocId d).length =
    ftsGetEncodedLen (diff64 d.1 lastDocId) + positionsLen 0 d.2 + 1 := by
  rw [docBytes, length_append, length_append, length_ftsEncodeInt (diff64_lt _ _),
    length_positionBytes, length_singleton, add_assoc]

/-- **A document is appended** to a node. -/
theorem addPositions_holds {node : Node} {docs : List Doc} {d : Doc} (h : node.Holds docs)
    (hd : DocFits d) (hpos : 0 < d.1) (hlast : ∀ c ∈ docs, c.1 < d.1) :
    ∃ node', ftsCacheNodeAddPositions node d.1 d.2 = some node' ∧ node'.Holds (docs ++ [d]) := by
  have hfragment : ftsEncodeInt (diff64 d.1 node.lastDocId) ++ positionBytes 0 d.2 ++ [0] =
      docBytes node.lastDocId d := by
    rw [docBytes, append_assoc]
  have hlen := length_docBytes node.lastDocId d
  refine ⟨_, if_neg (not_not.2 ?_), h.append hd hpos hlast ?_ rfl rfl rfl ?_⟩
  · rw [hfragment, hlen]
  · rw [hfragment]
  · rw [hlen]

/-- **A node is built** from documents with increasing ids. -/
theorem buildNode_holds {docs : List Doc} (h : Increasing docs) (hfits : ∀ d ∈ docs, DocFits d) :
    ∃ node, buildNode docs = some node ∧ node.Holds docs := by
  -- from the documents that are in the node already
  have hrun : ∀ (todo done : List Doc) (node : Node), Increasing (done ++ todo) →
      (∀ d ∈ todo, DocFits d) → node.Holds done →
      ∃ node', todo.foldlM (fun node d => ftsCacheNodeAddPositions node d.1 d.2) node = some node' ∧
        node'.Holds (done ++ todo) := by
    intro todo
    induction todo with
    | nil =>
      intro done node _ _ hnode
      exact ⟨node, rfl, by rwa [append_nil]⟩
    | cons d todo ih =>
      intro done node hinc hfits hnode
      have hbefore : ∀ c ∈ done, c.1 < d.1 := by
        intro c hc
        have hpair := hinc.1
        rw [map_append, pairwise_append] at hpair
        exact hpair.2.2 _ (mem_map_of_mem hc) _ (mem_map_of_mem mem_cons_self)
      obtain ⟨node', hadd, hnode'⟩ := addPositions_holds hnode (hfits d mem_cons_self)
        (hinc.2 d (by simp)) hbefore
      rw [append_cons] at hinc ⊢
      obtain ⟨node'', hrest, hnode''⟩ := ih (done ++ [d]) node' hinc
        (fun c hc => hfits c (mem_cons_of_mem _ hc)) hnode'
      refine ⟨node'', ?_, hnode''⟩
      rw [foldlM_cons, hadd]
      exact hrest
  exact hrun docs [] Node.zero h hfits Node.Holds.zero

/-- **The documents of a node are read back.** -/
theorem decode_buildNode {docs : List Doc} (h : Increasing docs) (hfits : ∀ d ∈ docs, DocFits d) :
    (buildNode docs).bind Node.decode = some docs := by
  obtain ⟨node, hnode, hholds⟩ := buildNode_holds h hfits
  rw [hnode, Option.bind_some, hholds.decode]

theorem decode_buildNode_two :
    (buildNode [(1, [3]), (5, [200])]).bind Node.decode = some [(1, [3]), (5, [200])] :=
  decode_buildNode (by unfold Increasing; decide) (by unfold DocFits; decide)

end Fts
