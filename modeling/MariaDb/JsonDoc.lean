/-
**JSON documents and their places.**

A document is kept with the texts of its strings and numbers as they stand.  An array is kept as an
object is, as its parts with their keys; the keys of an array are no part of its text.  `Json.tokens`
is the text of a document without the blanks: what the scanner of `strings/json_lib.c` reads.

Main definitions:

* `Json`, `ValueType`: documents, and the types of their values;
* `Hop`, `Json.at`: the places of the values of a document;
* `Json.tokens`: the text of a document;
* `Json.walk`: the values of a document in the order of its text, down to a depth.

Main results:

* `Json.ind`: induction over documents;
* `mem_walk`: the walk goes to places of the document;
* `walk_complete`: in a document that is not too deep it goes to all of them.
-/

import MariaDb.JsonLex

set_option autoImplicit false

namespace JsonLib

open List

/-! ### Documents -/

inductive Json
  | scalar (s : Scalar)
  /-- an object or an array -/
  | node (object : Bool) (parts : List (Str × Json))

open Json

def Json.object (members : List (Str × Json)) : Json := .node true members

def Json.array (items : List Json) : Json := .node false (items.map fun v => ([], v))

/-- `enum json_value_types` -/
inductive ValueType
  | object
  | array
  | string
  | number
  | true
  | false
  | null
deriving DecidableEq

def Scalar.type : Scalar → ValueType
  | .string _ => .string
  | .number _ => .number
  | .true => .true
  | .false => .false
  | .null => .null

def Json.type : Json → ValueType
  | .scalar s => s.type
  | .node object _ => if object then .object else .array

/-- `json_value_scalar` -/
def ValueType.isScalar (vt : ValueType) : Bool := vt ≠ .object ∧ vt ≠ .array

@[simp] theorem Scalar.isScalar_type (s : Scalar) : s.type.isScalar = Bool.true := by
  cases s <;> rfl

theorem Json.ind {P : Json → Prop} (hscalar : ∀ s, P (.scalar s))
    (hnode : ∀ object parts, (∀ m ∈ parts, P m.2) → P (.node object parts)) : ∀ v, P v
  | .scalar s => hscalar s
  | .node object parts => hnode object parts fun m hm => by
    have := sizeOf_lt_of_mem hm
    have : sizeOf m.2 < sizeOf m := by
      rcases m with ⟨key, v⟩
      simp
    exact ind hscalar hnode m.2
termination_by v => sizeOf v

/-! ### Places -/

/-- A step down in a document: the member `m` of an object, with its key, or an item of an array. -/
inductive Hop
  | member (m : ℕ) (key : Str)
  | item (n : ℕ)
deriving DecidableEq

/-- The step to the part `n` of an object or array. -/
def hop (object : Bool) (n : ℕ) (key : Str) : Hop := if object then .member n key else .item n

/-- The value after a step down. -/
def Json.child : Json → Hop → Option Json
  | .node false parts, .item n => (parts[n]?).map Prod.snd
  | .node true parts, .member m key =>
    (parts[m]?).bind fun part => if part.1 = key then some part.2 else none
  | _, _ => none

/-- The value at a place. -/
def Json.at : Json → List Hop → Option Json
  | v, [] => some v
  | v, h :: p => (v.child h).bind fun u => u.at p

def Json.size : Json → ℕ
  | .node false parts => parts.length
  | _ => 0

/-! ### Tokens -/

def opening (object : Bool) : Token := if object then .lcurb else .lsqrb

def closing (object : Bool) : Token := if object then .rcurb else .rsqrb

/-- The key of a part, with the colon. -/
def keyTokens (object : Bool) (key : Str) : List Token :=
  if object then [.scalar (.string key), .colon] else []

mutual

def Json.tokens : Json → List Token
  | .scalar s => [.scalar s]
  | .node object parts => opening object :: (contParts object parts).tail ++ [closing object]

/-- The text of the further parts of an array or object. -/
def contParts (object : Bool) : List (Str × Json) → List Token
  | [] => []
  | (key, v) :: parts => .comma :: (keyTokens object key ++ (v.tokens ++ contParts object parts))

end

/-! ### The walk through a document -/

mutual

/-- How deep arrays and objects are nested. -/
def Json.depth : Json → ℕ
  | .scalar _ => 0
  | .node _ parts => depthParts parts + 1

def depthParts : List (Str × Json) → ℕ
  | [] => 0
  | (_, v) :: parts => max v.depth (depthParts parts)

end

/-- Two walks after each other; the second one is made if the first one got to its end. -/
def andThen {α : Type} (r r' : List α × Bool) : List α × Bool :=
  if r.2 then (r.1 ++ r'.1, r'.2) else r

mutual

/-- The values of a document in the order of its text, with their places below `q`.  The walk stops
at an array or object that is nested deeper than `d`. -/
def Json.walk (d : ℕ) (q : List Hop) : Json → List (List Hop × Json) × Bool
  | .scalar s => ([(q, .scalar s)], true)
  | .node object parts =>
    match d with
    | 0 => ([], false)
    | d + 1 => andThen ([(q, .node object parts)], true) (walkParts object d q 0 parts)

/-- The walk through the parts of an array or object from the part `n` on. -/
def walkParts (object : Bool) (d : ℕ) (q : List Hop) (n : ℕ) :
    List (Str × Json) → List (List Hop × Json) × Bool
  | [] => ([], true)
  | (key, v) :: parts =>
    andThen (v.walk d (q ++ [hop object n key])) (walkParts object d q (n + 1) parts)

end

variable {α : Type} {d n : ℕ} {q q' : List Hop} {u w v : Json} {object : Bool} {h : Hop}
  {parts : List (Str × Json)}

theorem mem_andThen {r r' : List α × Bool} {x : α} (hx : x ∈ (andThen r r').1) :
    x ∈ r.1 ∨ (r.2 = true ∧ x ∈ r'.1) := by
  unfold andThen at hx
  split at hx
  case isTrue hr =>
    rcases mem_append.1 hx with hx | hx
    · exact .inl hx
    · exact .inr ⟨hr, hx⟩
  case isFalse => exact .inl hx

theorem andThen_of_true {r r' : List α × Bool} (hr : r.2 = true) :
    andThen r r' = (r.1 ++ r'.1, r'.2) :=
  if_pos hr

@[simp] theorem Json.at_nil (v : Json) : v.at [] = some v := by
  cases v <;> rfl

theorem Json.at_cons (v : Json) (h : Hop) (p : List Hop) :
    v.at (h :: p) = (v.child h).bind fun u => u.at p := by
  cases v <;> rfl

/-- The values below an array or object are its parts. -/
theorem child_node : (node object parts).child h = some u ↔
    ∃ n key, h = hop object n key ∧ parts[n]? = some (key, u) := by
  cases object <;> cases h <;> simp [child, hop, Option.bind_eq_some_iff]

/-- A value that the walk through the parts goes to is at a place of one of them. -/
theorem mem_walkParts
    (hparts : ∀ m ∈ parts, ∀ (q q' : List Hop), (q', w) ∈ (m.2.walk d q).1 →
      ∃ p, q' = q ++ p ∧ m.2.at p = some w)
    (hw : (q', w) ∈ (walkParts object d q n parts).1) :
    ∃ i key v p, parts[i]? = some (key, v) ∧ q' = q ++ hop object (n + i) key :: p ∧
      v.at p = some w := by
  induction parts generalizing n with
  | nil => simp [walkParts] at hw
  | cons m parts ih =>
    obtain ⟨key, v⟩ := m
    rcases mem_andThen hw with hw | ⟨-, hw⟩
    · obtain ⟨p, rfl, hp⟩ := hparts (key, v) (by simp) _ _ hw
      exact ⟨0, key, v, p, rfl, by simp, hp⟩
    · obtain ⟨i, key', u, p, hi, rfl, hp⟩ := ih (fun m hm => hparts m (by simp [hm])) hw
      exact ⟨i + 1, key', u, p, by simpa using hi, by simp [Nat.add_assoc, Nat.add_comm 1 i], hp⟩

/-- **The walk goes to places of the document.** -/
theorem mem_walk (hw : (q', w) ∈ (v.walk d q).1) : ∃ p, q' = q ++ p ∧ v.at p = some w := by
  induction v using ind generalizing d q q' with
  | hscalar s =>
    simp only [walk, mem_singleton, Prod.mk.injEq] at hw
    exact ⟨[], by simp [hw.1], by simp [hw.2]⟩
  | hnode object parts ih =>
    cases d with
    | zero => simp [walk] at hw
    | succ d =>
      rcases mem_andThen hw with hw | ⟨-, hw⟩
      · simp only [mem_singleton, Prod.mk.injEq] at hw
        exact ⟨[], by simp [hw.1], by simp [hw.2]⟩
      · obtain ⟨i, key, v, p, hi, rfl, hp⟩ := mem_walkParts (fun m hm _ _ => ih m hm) hw
        exact ⟨hop object (0 + i) key :: p, rfl,
          by rw [at_cons, child_node.2 ⟨_, key, rfl, by simpa using hi⟩, Option.bind_some, hp]⟩

theorem walkParts_complete (object : Bool)
    (hparts : ∀ m ∈ parts, ∀ q, (m.2.walk d q).2 = true ∧ ∀ p w, m.2.at p = some w →
      (q ++ p, w) ∈ (m.2.walk d q).1) :
    (walkParts object d q n parts).2 = true ∧ ∀ i key v p w, parts[i]? = some (key, v) →
      v.at p = some w → (q ++ hop object (n + i) key :: p, w) ∈ (walkParts object d q n parts).1 := by
  induction parts generalizing n with
  | nil => simp [walkParts]
  | cons m parts ih =>
    obtain ⟨key, v⟩ := m
    obtain ⟨htrue, hv⟩ := hparts (key, v) (by simp) (q ++ [hop object n key])
    obtain ⟨htrue', hrest⟩ := ih (n := n + 1) fun m hm => hparts m (by simp [hm])
    rw [walkParts, andThen_of_true htrue]
    refine ⟨htrue', fun i key' u p w hi hp => ?_⟩
    cases i with
    | zero =>
      obtain ⟨rfl, rfl⟩ : key = key' ∧ v = u := by simpa using hi
      exact mem_append_left _ (by simpa using hv p w hp)
    | succ i =>
      have := hrest i key' u p w (by simpa using hi) hp
      rw [Nat.add_assoc, Nat.add_comm 1 i] at this
      exact mem_append_right _ this

theorem depth_le_of_mem {m : Str × Json} (hm : m ∈ parts) : m.2.depth ≤ depthParts parts := by
  induction parts with
  | nil => simp at hm
  | cons m' parts ih =>
    rcases mem_cons.1 hm with rfl | hm
    · exact le_max_left _ _
    · exact (ih hm).trans (le_max_right _ _)

/-- **In a document that is not too deep the walk goes to all places.** -/
theorem walk_complete (hd : v.depth ≤ d) (q : List Hop) :
    (v.walk d q).2 = true ∧ ∀ p w, v.at p = some w → (q ++ p, w) ∈ (v.walk d q).1 := by
  induction v using ind generalizing d q with
  | hscalar s =>
    refine ⟨rfl, fun p w hp => ?_⟩
    cases p with
    | nil => simpa [walk, eq_comm] using hp
    | cons h p => simp [at_cons, child] at hp
  | hnode object parts ih =>
    rw [depth] at hd
    cases d with
    | zero => omega
    | succ d =>
      obtain ⟨htrue, hall⟩ := walkParts_complete object (d := d) (q := q) (n := 0)
        fun m hm => ih m hm ((depth_le_of_mem hm).trans (by omega))
      rw [walk, andThen_of_true rfl]
      refine ⟨htrue, fun p w hp => ?_⟩
      cases p with
      | nil =>
        obtain rfl : node object parts = w := by simpa using hp
        simp
      | cons h p =>
        obtain ⟨u, hu, hw⟩ := Option.bind_eq_some_iff.1 hp
        obtain ⟨n, key, rfl, hn⟩ := child_node.1 hu
        have := hall n key u p w hn hw
        rw [Nat.zero_add] at this
        exact mem_append_right _ this

theorem length_andThen (r r' : List α × Bool) :
    (andThen r r').1.length ≤ r.1.length + r'.1.length := by
  unfold andThen
  split
  case isTrue => simp
  case isFalse => omega

mutual

/-- The walk goes to no more values than the text has tokens. -/
theorem walk_length (d : ℕ) (q : List Hop) : ∀ v : Json, (v.walk d q).1.length ≤ v.tokens.length
  | .scalar s => by simp [walk, tokens]
  | .node object parts => by
    cases d with
    | zero => simp [walk]
    | succ d =>
      have h := walkParts_length object d q 0 parts
      rw [walk, andThen_of_true rfl, tokens]
      simp only [length_append, length_cons, length_nil, length_tail]
      omega

theorem walkParts_length (object : Bool) (d : ℕ) (q : List Hop) (n : ℕ) :
    ∀ parts : List (Str × Json),
      (walkParts object d q n parts).1.length ≤ (contParts object parts).length
  | [] => by simp [walkParts]
  | (key, v) :: parts => by
    have hv := walk_length d (q ++ [hop object n key]) v
    have hparts := walkParts_length object d q (n + 1) parts
    have hthen := length_andThen (v.walk d (q ++ [hop object n key]))
      (walkParts object d q (n + 1) parts)
    rw [walkParts, contParts]
    simp only [length_append, length_cons]
    omega

end

end JsonLib
