/-
**JSON paths: the paths of the values of a document.**

`json_get_path_next` goes through a document and gives the path of each value.  It keeps the path as
an array of steps, and changes its last step when the scanner comes to a key, to the next item, or
to the end of an array or object.  The values come in the order of the text, each with its path.

Main definitions:

* `jsonGetPathNext`: the function of the source;
* `jsonPaths`: all calls of it, one after another.

Main results:

* `jsonPaths_spec`: **the calls go through all values of the document**.
-/

import MariaDb.JsonPath
import MariaDb.JsonScan

set_option autoImplicit false

namespace JsonPath

open JsonLib StepRun List Engine

/-! ### The function -/

/-- A step of the path that is built: `type`, `n_item` and `key`. -/
structure Cell where
  array : Bool
  nItem : ℕ
  key : Str
deriving DecidableEq

/-- `p->steps[0], …, *p->last_step`, the last step first. -/
abbrev Path := List Cell

/-- The first step, `$`. -/
def rootCell : Cell := { array := true, nItem := 0, key := [] }

/-- `if (p->last_step->type & JSON_PATH_ARRAY) p->last_step->n_item++` -/
def nextItem : Path → Path
  | [] => []
  | c :: p => (if c.array then { c with nItem := c.nItem + 1 } else c) :: p

/-- `p->last_step->key` and `p->last_step->key_end` -/
def setKey (key : Str) : Path → Path
  | [] => []
  | c :: p => { c with key := key } :: p

def nextLoop : ℕ → Engine × Path → Bool × (Engine × Path)
  | 0, x => (true, x)
  | fuel + 1, (j, p) =>
    match j.state with
    | .key =>
      let p := setKey j.key p
      let j := readKeyname j.key j
      if j.error.isSome then (true, j, p)
      else
        let r := jsonReadValue j
        (r.1, r.2, p)
    | .value =>
      let r := jsonReadValue j
      (r.1, r.2, p)
    | .objEnd | .arrayEnd =>
      let p := nextItem p.tail
      let r := jsonScanNext j
      if r.1 then (true, r.2, p) else nextLoop fuel (r.2, p)
    | _ =>
      let r := jsonScanNext j
      if r.1 then (true, r.2, p) else nextLoop fuel (r.2, p)

/-- `json_scan_next`, and then the loop of `json_get_path_next`. -/
def scanLoop (x : Engine × Path) : Bool × (Engine × Path) :=
  let r := jsonScanNext x.1
  if r.1 then (true, r.2, x.2) else nextLoop r.2.fuel (r.2, x.2)

def jsonGetPathNext (x : Engine × Path) : Bool × (Engine × Path) :=
  match x.2 with
  | [] =>
    let r := jsonReadValue x.1
    if r.1 then (true, r.2, []) else (false, r.2, [rootCell])
  | p =>
    if x.1.scalar then scanLoop (x.1, nextItem p)
    else
      scanLoop (x.1, { array := x.1.valueType = some .array, nItem := 0, key := [] } :: p)

/-- The calls of `json_get_path_next` until it returns 1: where they come to, and the end. -/
def pathCalls : ℕ → Engine × Path → List (Engine × Path) × (Engine × Path)
  | 0, x => ([], x)
  | fuel + 1, x =>
    let r := jsonGetPathNext x
    if r.1 then ([], r.2)
    else
      let calls := pathCalls fuel r.2
      (r.2 :: calls.1, calls.2)

def Cell.step (c : Cell) : Step := if c.array then .item c.nItem else .key c.key

/-- The steps of a path, without the first one. -/
def pathSteps (p : Path) : List Step := p.reverse.tail.map Cell.step

/-- **All paths that `json_get_path_next` gives for a document**, with the types of the values. -/
def jsonPaths (doc : Json) : List (List Step × Option ValueType) :=
  (pathCalls (doc.tokens.length + 1) (jsonScanStart doc.tokens, [])).1.map fun x =>
    (pathSteps x.2, x.1.valueType)

/-! ### The path of a place -/

/-- The step of the path that is built for a step down. -/
def cellOf : Hop → Cell
  | .member _ key => { array := false, nItem := 0, key := key }
  | .item n => { array := true, nItem := n, key := [] }

/-- The path that is built for a place. -/
def pathOf (q : List Hop) : Path := (q.map cellOf).reverse ++ [rootCell]

theorem pathOf_append (q : List Hop) (h : Hop) : pathOf (q ++ [h]) = cellOf h :: pathOf q := by
  simp [pathOf]

theorem pathSteps_pathOf (q : List Hop) : pathSteps (pathOf q) = q.map stepOf := by
  have hstep : ∀ h, (cellOf h).step = stepOf h := by
    intro h
    cases h <;> rfl
  simp [pathSteps, pathOf, hstep]

theorem pathOf_ne_nil (q : List Hop) : pathOf q ≠ [] := by
  simp [pathOf]

/-! ### The loop has fuel enough -/

/-- How far the loop can still go. -/
def loopMeasure (j : Engine) : ℕ :=
  2 * j.input.length + if j.state = .key ∨ j.state = .value then 0 else 1

theorem loopMeasure_lt_fuel (j : Engine) : loopMeasure j < j.fuel := by
  unfold loopMeasure fuel
  split <;> omega

variable {j : Engine} {n : ℕ} {q : List Hop} {rest : List Token} {stack : List State}

theorem contAction_measure {j' : Engine} (h : contAction j = (false, j')) :
    j'.input.length < j.input.length := by
  unfold contAction at h
  split at h <;> simp_all [unexpected, fail] <;>
    (obtain rfl := h; simp_all)

theorem scanNext_measure {j' : Engine} (hkey : j.state ≠ .key) (hvalue : j.state ≠ .value)
    (h : jsonScanNext j = (false, j')) : loopMeasure j' < loopMeasure j := by
  have hj : loopMeasure j = 2 * j.input.length + 1 := by simp [loopMeasure, hkey, hvalue]
  cases hbetween : j.state.between with
  | true =>
    rw [scanNext_between hbetween] at h
    have := contAction_measure h
    unfold loopMeasure
    split <;> omega
  | false =>
    -- the start of an array or object
    unfold jsonScanNext at h
    rw [hj]
    split at h <;> simp_all [unexpected, fail, State.between] <;>
      (obtain rfl := h; simp_all [loopMeasure])

theorem nextLoop_fuel {n' : ℕ} {p : Path} (hn : loopMeasure j < n) (hn' : loopMeasure j < n') :
    nextLoop n (j, p) = nextLoop n' (j, p) := by
  induction n generalizing n' j p with
  | zero => omega
  | succ n ih =>
    cases n' with
    | zero => omega
    | succ n' =>
      have hrec : ∀ j' p, j.state ≠ .key → j.state ≠ .value → jsonScanNext j = (false, j') →
          nextLoop n (j', p) = nextLoop n' (j', p) := by
        intro j' p hkey hvalue h
        have := scanNext_measure hkey hvalue h
        exact ih (by omega) (by omega)
      rcases hscan : jsonScanNext j with ⟨rc, j'⟩
      unfold nextLoop
      cases hstate : j.state <;> cases rc <;>
        simp_all only [Bool.false_eq_true, if_false, if_true, ne_eq, not_false_eq_true,
          reduceCtorEq]

/-- At the end of an array or object the loop goes on as after a value. -/
theorem nextLoop_end {c : Cell} {p : Path} (hstate : j.state = .objEnd ∨ j.state = .arrayEnd) :
    nextLoop j.fuel (j, c :: p) = scanLoop (j, nextItem p) := by
  have hstep : nextLoop j.fuel (j, c :: p) = (if (jsonScanNext j).1 then
      (true, (jsonScanNext j).2, nextItem p)
      else nextLoop (2 * j.input.length + 1) ((jsonScanNext j).2, nextItem p)) := by
    rw [fuel, nextLoop]
    rcases hstate with hstate | hstate <;> simp only [hstate, tail_cons]
  rw [hstep, scanLoop]
  rcases hscan : jsonScanNext j with ⟨rc, j'⟩
  cases rc with
  | true => rfl
  | false =>
    simp only [Bool.false_eq_true, if_false]
    have hkey : j.state ≠ .key := by rcases hstate with h | h <;> simp [h]
    have hvalue : j.state ≠ .value := by rcases hstate with h | h <;> simp [h]
    have hlt := scanNext_measure hkey hvalue hscan
    have hj : loopMeasure j = 2 * j.input.length + 1 := by simp [loopMeasure, hkey, hvalue]
    exact nextLoop_fuel (by omega) (loopMeasure_lt_fuel j')

/-! ### The calls for a value -/

section Calls

variable {j : Engine} {v : Json} {key : Str} {object : Bool} {parts : List (Str × Json)}
  {rest : List Token} {stack : List State} {c : Cell} {p : Path}

theorem scanLoop_parts_nil (h : AtParts object j [] rest stack) : scanLoop (j, c :: p)
    = scanLoop ({ j with input := rest, stack := stack, state := .ends object }, nextItem p) := by
  rw [scanLoop, h.scan_nil]
  simp only [Bool.false_eq_true, if_false]
  exact nextLoop_end (by cases object <;> simp [State.ends])

/-- The last step of the path at a part with a key. -/
def Cell.at (c : Cell) (object : Bool) (key : Str) : Cell := if object then { c with key } else c

/-- Otherwise the next call reads the next part. -/
theorem scanLoop_parts_cons (h : AtParts object j ((key, v) :: parts) rest stack) :
    ∃ j', Before j' v (contParts object parts ++ closing object :: rest) (.cont object :: stack) ∧
      scanLoop (j, c :: p) = ((jsonReadValue j').1, (jsonReadValue j').2, c.at object key :: p) := by
  refine ⟨{ j with
      input := v.tokens ++ (contParts object parts ++ closing object :: rest), state := .value },
    ⟨h.error, between_cont, h.stack, .inl ⟨rfl, rfl⟩⟩, ?_⟩
  rw [scanLoop, h.scan_cons]
  cases object with
  | false => rfl
  | true =>
    let atKey : Engine := { j with
      input := .scalar (.string key) :: .colon ::
        (v.tokens ++ (contParts true parts ++ closing true :: rest))
      state := .key }
    have hkey : atKey.key = key := rfl
    have hread := readKeyname_spec key (j := atKey) rfl
    show nextLoop atKey.fuel (atKey, c :: p) = _
    rw [fuel, nextLoop]
    simp only [show atKey.state = .key from rfl, hkey, hread, setKey]
    simp [atKey, h.error, Cell.at]

end Calls

/-- A call has come to the value at a place. -/
def Visited (x : Engine × Path) (y : List Hop × Json) : Prop :=
  x.2 = pathOf y.1 ∧ ∃ rest stack, Opened x.1 y.2 rest stack ∧ stack.length = y.1.length + 1

/-- How the calls go on after a value at the place `q`: with what follows it, unless something was
nested too deep. -/
def Outcome (r : Bool × (Engine × Path)) (done : Bool) (rest : List Token) (stack : List State)
    (q : List Hop) : Prop :=
  if done then ∃ j, After j rest stack ∧ r = scanLoop (j, nextItem (pathOf q))
  else ∃ x, r = (true, x) ∧ x.1.error = some .depth

/-- What the calls come to from the one that reads the value on. -/
def ValueCalls (v : Json) : Prop :=
  ∀ (j : Engine) (q : List Hop) (rest : List Token) (stack : List State) (d : ℕ),
    Before j v rest stack → stack.length = q.length + 1 → d + stack.length = depthLimit →
    ∃ calls r, Run jsonGetPathNext ((jsonReadValue j).1, (jsonReadValue j).2, pathOf q) calls r ∧
      List.Forall₂ Visited calls (v.walk d q).1 ∧ Outcome r (v.walk d q).2 rest stack q

/-- The calls from a result on go through the values `W.1`, and then on after the place `q`. -/
def Calls (start : Bool × (Engine × Path)) (W : List (List Hop × Json) × Bool) (rest : List Token)
    (stack : List State) (q : List Hop) : Prop :=
  ∃ calls r, Run jsonGetPathNext start calls r ∧ List.Forall₂ Visited calls W.1 ∧
    Outcome r W.2 rest stack q

/-- The calls for two parts of a document, one after the other. -/
theorem Calls.andThen {start : Bool × (Engine × Path)} {W W' : List (List Hop × Json) × Bool}
    {rest' : List Token} {stack' : List State} {q' : List Hop} (h : Calls start W rest' stack' q')
    (h' : ∀ j, After j rest' stack' → Calls (scanLoop (j, nextItem (pathOf q'))) W' rest stack q) :
    Calls start (JsonLib.andThen W W') rest stack q := by
  obtain ⟨calls, r, hrun, hvisited, hout⟩ := h
  cases hdone : W.2 with
  | false =>
    rw [JsonLib.andThen, hdone, if_neg (by simp)]
    refine ⟨calls, r, hrun, hvisited, ?_⟩
    rw [Outcome, hdone, if_neg (by simp)] at hout ⊢
    exact hout
  | true =>
    rw [Outcome, hdone, if_pos rfl] at hout
    obtain ⟨j, hafter, rfl⟩ := hout
    obtain ⟨calls', r', hrun', hvisited', hout'⟩ := h' j hafter
    rw [andThen_of_true hdone]
    exact ⟨calls ++ calls', r', hrun.append hrun', rel_append hvisited hvisited', hout'⟩

/-- The calls go through the parts that are left; `c` is the last step of the path before the part
`n`. -/
theorem parts_calls {object : Bool} {parts : List (Str × Json)}
    (hparts : ∀ m ∈ parts, ValueCalls m.2) {d : ℕ} {c : Cell} (h : AtParts object j parts rest stack)
    (hstack : stack.length = q.length + 1) (hd : d + (stack.length + 1) = depthLimit)
    (hc : ∀ key, c.at object key = cellOf (hop object n key)) :
    Calls (scanLoop (j, c :: pathOf q)) (walkParts object d q n parts) rest stack q := by
  induction parts generalizing j n c with
  | nil =>
    refine ⟨[], _, .of_eq (scanLoop_parts_nil h), by simp [walkParts], ?_⟩
    exact ⟨{ j with input := rest, stack := stack, state := .ends object },
      ⟨h.error, rfl, rfl, between_ends⟩, rfl⟩
  | cons m parts ih =>
    obtain ⟨key, v⟩ := m
    obtain ⟨j', hbefore, hscan⟩ := scanLoop_parts_cons (c := c) (p := pathOf q) h
    have hvalue := hparts (key, v) (by simp) j' (q ++ [hop object n key]) _ _ d hbefore
      (by simp [hstack]) (by simpa using hd)
    rw [hc, ← pathOf_append] at hscan
    rw [← hscan] at hvalue
    refine Calls.andThen hvalue fun j'' hafter => ?_
    rw [pathOf_append, nextItem]
    refine ih (n := n + 1) (fun m hm => hparts m (by simp [hm])) hafter.atParts fun key' => ?_
    cases object <;> rfl

theorem jsonGetPathNext_pathOf (j : Engine) (q : List Hop) :
    jsonGetPathNext (j, pathOf q) = if j.scalar then scanLoop (j, nextItem (pathOf q)) else
      scanLoop (j, { array := j.valueType = some .array, nItem := 0, key := [] } :: pathOf q) := by
  unfold jsonGetPathNext
  split
  case h_1 h => exact absurd h (pathOf_ne_nil q)
  case h_2 => rfl

theorem deep_calls {v : Json} (hbefore : Before j v rest stack) (hv : v.depth ≠ 0)
    (hd : 0 + stack.length = depthLimit) :
    Calls ((jsonReadValue j).1, (jsonReadValue j).2, pathOf q) ([], false) rest stack q := by
  have hfits : ¬ Fits v stack := by
    unfold Fits
    omega
  obtain ⟨j', hread, herror⟩ := jsonReadValue_deep hbefore hfits
  rw [hread]
  exact ⟨[], _, .nil _, .nil, (j', pathOf q), rfl, herror⟩

/-- The calls for an array or object: one comes to it, and the next ones to its parts. -/
theorem open_calls {v : Json} {d : ℕ} {W : List (List Hop × Json) × Bool}
    (hbefore : Before j v rest stack) (hstack : stack.length = q.length + 1)
    (hd : d + 1 + stack.length = depthLimit) (hv : v.type.isScalar = false)
    (hparts : ∀ j', Opened j' v rest stack → Calls (scanLoop
      (j', { array := some v.type = some .array, nItem := 0, key := [] } :: pathOf q)) W rest stack q) :
    Calls ((jsonReadValue j).1, (jsonReadValue j).2, pathOf q) (JsonLib.andThen ([(q, v)], true) W)
      rest stack q := by
  obtain ⟨j', hread, hopen⟩ := jsonReadValue_spec hbefore (.inr (by omega))
  have hscalar : j'.scalar = false := by simp [scalar, hopen.valueType, hv]
  obtain ⟨calls, r, hrun, hvisited, hout⟩ := hparts j' hopen
  refine ⟨(j', pathOf q) :: calls, r, Run.step (by rw [hread]) ?_,
    .cons ⟨rfl, rest, stack, hopen, hstack⟩ hvisited, hout⟩
  rw [jsonGetPathNext_pathOf, hscalar, if_neg (by simp), hopen.valueType]
  exact hrun

/-- **The calls go through the parts of a value, and come to what follows it.** -/
theorem value_calls (v : Json) : ValueCalls v := by
  induction v using Json.ind with
  | hscalar s =>
    intro j q rest stack d hbefore hstack hd
    obtain ⟨j', hread, hopen⟩ := jsonReadValue_spec hbefore (.inl rfl)
    have hscalar : j'.scalar = true := by simp [scalar, hopen.valueType, Json.type]
    refine ⟨[(j', pathOf q)], scanLoop (j', nextItem (pathOf q)), ?_, ?_, ?_⟩
    · refine Run.step (x := (j', pathOf q)) (by rw [hread]) (Run.of_eq ?_)
      rw [jsonGetPathNext_pathOf, if_pos hscalar]
    · exact .cons ⟨rfl, rest, stack, hopen, hstack⟩ .nil
    · exact ⟨j', hopen.place, rfl⟩
  | hnode object parts ih =>
    intro j q rest stack d hbefore hstack hd
    cases d with
    | zero => exact deep_calls hbefore (by simp [Json.depth]) hd
    | succ d =>
      refine open_calls hbefore hstack hd (by cases object <;> rfl) fun j' hopen => ?_
      refine parts_calls ih (n := 0) hopen.place hstack (by omega) fun key => ?_
      cases object <;> rfl

/-! ### All calls for a document -/

/-- The values of a document that the calls go to. -/
def visited (doc : Json) : List (List Hop × Json) × Bool := doc.walk (depthLimit - 1) []

/-- The calls as one run, to their end. -/
theorem document_calls (doc : Json) :
    ∃ calls x, Run jsonGetPathNext (jsonGetPathNext (jsonScanStart doc.tokens, [])) calls (true, x) ∧
      List.Forall₂ Visited calls (visited doc).1 ∧
      x.1.error = if (visited doc).2 then none else some .depth := by
  have hbefore : Before (jsonScanStart doc.tokens) doc [] [.done] :=
    ⟨rfl, rfl, rfl, .inl ⟨rfl, by simp [jsonScanStart]⟩⟩
  obtain ⟨calls, r, hrun, hvisited, hout⟩ := value_calls doc _ [] [] [.done] (depthLimit - 1) hbefore
    rfl rfl
  obtain ⟨j', hread, -⟩ := jsonReadValue_spec hbefore (.inr (by decide))
  have hfirst : jsonGetPathNext (jsonScanStart doc.tokens, [])
      = ((jsonReadValue (jsonScanStart doc.tokens)).1, (jsonReadValue (jsonScanStart doc.tokens)).2,
        pathOf []) := by
    rw [jsonGetPathNext, hread]
    rfl
  rw [← hfirst] at hrun
  rw [← visited] at hvisited hout
  unfold Outcome at hout
  split at hout
  case isTrue hdone =>
    obtain ⟨j, hafter, rfl⟩ := hout
    -- after the document there is nothing
    have hend : jsonScanNext j = (true, j) := by
      rw [scanNext_between hafter.state]
      simp [contAction, hafter.stack, hafter.input]
    have hscan : scanLoop (j, nextItem (pathOf [])) = (true, j, nextItem (pathOf [])) := by
      rw [scanLoop, hend]
      rfl
    rw [hscan] at hrun
    exact ⟨calls, _, hrun, hvisited, by rw [if_pos hdone]; exact hafter.error⟩
  case isFalse hdone =>
    obtain ⟨x, rfl, herror⟩ := hout
    exact ⟨calls, x, hrun, hvisited, by rw [if_neg hdone]; exact herror⟩

/-- The calls until one of them returns 1. -/
theorem pathCalls_run {fuel : ℕ} {x x' : Engine × Path} {calls : List (Engine × Path)}
    (h : Run jsonGetPathNext (jsonGetPathNext x) calls (true, x')) (hfuel : calls.length < fuel) :
    pathCalls fuel x = (calls, x') := by
  induction calls generalizing x fuel with
  | nil =>
    cases fuel with
    | zero => simp at hfuel
    | succ fuel =>
      generalize hr : jsonGetPathNext x = r at h
      cases h
      rw [pathCalls, hr]
      rfl
  | cons y calls ih =>
    cases fuel with
    | zero => simp at hfuel
    | succ fuel =>
      generalize hr : jsonGetPathNext x = r at h
      cases h with
      | cons h =>
      rw [pathCalls, hr, ih h (by simpa using hfuel)]
      rfl

/-- **The calls go through all values of the document**, in the order of its text, up to one that is
nested too deep. -/
theorem jsonPaths_spec (doc : Json) :
    jsonPaths doc = (visited doc).1.map fun y => (y.1.map stepOf, some y.2.type) := by
  obtain ⟨calls, x, hrun, hvisited, -⟩ := document_calls doc
  have hlength : calls.length < doc.tokens.length + 1 := by
    have := walk_length (depthLimit - 1) [] doc
    rw [hvisited.length_eq, visited]
    omega
  rw [jsonPaths, pathCalls_run hrun hlength]
  generalize (visited doc).1 = places at hvisited
  clear hrun hlength
  induction hvisited with
  | nil => rfl
  | @cons x y calls places h _ ih =>
    obtain ⟨hpath, rest, stack, hopen, -⟩ := h
    rw [map_cons, map_cons, ih, hpath, pathSteps_pathOf, hopen.valueType]

/-- **In a document that is not too deep the calls give the paths and types of all values.** -/
theorem mem_jsonPaths {doc : Json} (hdepth : doc.depth < depthLimit) (b : List Step)
    (vt : Option ValueType) : (b, vt) ∈ jsonPaths doc ↔
      ∃ p w, doc.at p = some w ∧ b = p.map stepOf ∧ vt = some w.type := by
  rw [jsonPaths_spec, mem_map]
  constructor
  · rintro ⟨⟨q, w⟩, hq, heq⟩
    obtain ⟨rfl, rfl⟩ := Prod.mk.inj heq
    obtain ⟨p, hp, hw⟩ := mem_walk hq
    exact ⟨q, w, hp ▸ hw, rfl, rfl⟩
  · rintro ⟨p, w, hw, rfl, rfl⟩
    exact ⟨(p, w), (walk_complete (Nat.le_sub_one_of_lt hdepth) []).2 p w hw, rfl⟩

theorem mem_jsonPaths_inner : ([.item 0], some .array) ∈ jsonPaths (.array [.array []]) :=
  (mem_jsonPaths (by decide) _ _).2 ⟨[.item 0], .array [], rfl, rfl, rfl⟩

end JsonPath
