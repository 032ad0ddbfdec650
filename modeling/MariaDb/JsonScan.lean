/-
**The scanner of `strings/json_lib.c`.**

The scanner reads a document step by step.  `json_scan_next` goes to the next event: the key of a
member, the start or the end of an array or object, an item.  `json_read_value` reads the value that
follows, and leaves the parts of an array or object to further steps.  The model works on the tokens
of a text, which carry that the scanner reads them as a whole: a string is read by its characters
where the source compares keys, and the blanks are left out.

Main definitions:

* `Engine`: `json_engine_t`;
* `jsonScanNext`, `jsonReadValue`, `jsonReadKeynameChr`: the steps;
* `jsonSkipToLevel`, `jsonSkipKey`, `jsonSkipLevelAndCount`: loops of steps;
* `Before`, `Opened`, `After`: where an engine is at a value;
* `AtParts`: where it is in an array or object.

Main results:

* `value_run`: a step into a value, and the further ones, come to what follows it;
* `jsonSkipLevel_spec`, `jsonSkipKey_spec`: what is skipped;
* `jsonSkipArrayAndCount_spec`: the number of the items of an array.
-/

import MariaDb.JsonDoc
import MariaDb.StepRun

set_option autoImplicit false

namespace JsonLib

open StepRun List Json

/-! ### The engine -/

/-- `JSON_DEPTH_LIMIT` -/
def depthLimit : ℕ := 32

/-- The errors of `enum json_errors` that the order of the tokens can give. -/
inductive JsonError
  | eos
  | syn
  | depth
deriving DecidableEq

/-- `enum json_states` and `enum json_all_states`. -/
inductive State
  | value
  | key
  | objStart
  | objEnd
  | arrayStart
  | arrayEnd
  | done
  | objCont
  | arrayCont
deriving DecidableEq

/-- `json_engine_t`.  `input` is the text from `s.c_str` on; inside a key it starts with the
characters of the key that are not read yet.  `stack` is `stack[stack_p], …, stack[0]`. -/
structure Engine where
  input : List Token
  error : Option JsonError
  state : State
  stack : List State
  valueType : Option ValueType
  valueBegin : List Token
deriving DecidableEq

open Engine

def jsonScanStart (text : List Token) : Engine where
  input := text
  error := none
  state := .value
  stack := [.done]
  valueType := none
  valueBegin := []

section

variable (j : Engine)

def Engine.fail (error : JsonError) : Bool × Engine :=
  (true, { j with error := some error })

/-- What is wrong when no other case applies: the text has ended, or it has the wrong token. -/
def Engine.unexpected : Bool × Engine :=
  j.fail (if j.input = [] then .eos else .syn)

/-- `json_actions` for `JST_DONE`, `JST_OBJ_CONT` and `JST_ARRAY_CONT`, by what is on the stack. -/
def contAction : Bool × Engine :=
  match j.stack, j.input with
  | .done :: _, [] => (true, j)
  | .objCont :: stack, .rcurb :: rest =>
    (false, { j with input := rest, stack := stack, state := .objEnd })
  | .objCont :: _, .comma :: .scalar (.string key) :: rest =>
    (false, { j with input := .scalar (.string key) :: rest, state := .key })
  | .objCont :: _, .comma :: rest => { j with input := rest }.unexpected
  | .arrayCont :: stack, .rsqrb :: rest =>
    (false, { j with input := rest, stack := stack, state := .arrayEnd })
  | .arrayCont :: _, .comma :: rest => (false, { j with input := rest, state := .value })
  | _, _ => j.unexpected

/-- `++j->stack_p < JSON_DEPTH_LIMIT` and what is put there. -/
def Engine.push (cont : State) : Bool × Engine :=
  if j.stack.length < depthLimit then (false, { j with stack := cont :: j.stack })
  else j.fail .depth

/-- `json_actions[JST_VALUE]`: a value without parts is skipped, with the step after it. -/
def valueAction : Bool × Engine :=
  match j.input with
  | .lcurb :: rest => { j with input := rest, state := .objStart }.push .objCont
  | .lsqrb :: rest => { j with input := rest, state := .arrayStart }.push .arrayCont
  | .scalar _ :: rest => contAction { j with input := rest, state := j.stack.headD .done }
  | _ => j.unexpected

/-- `json_read_keyname_chr`: the next character of the key, or none after the colon. -/
def jsonReadKeynameChr : Option Chr × Engine :=
  match j.input with
  | .scalar (.string (c :: key)) :: rest =>
    (some c, { j with input := .scalar (.string key) :: rest })
  | .scalar (.string []) :: .colon :: rest => (none, { j with input := rest, state := .value })
  | .scalar (.string []) :: rest => (none, ({ j with input := rest }.unexpected).2)
  | _ => (none, j.unexpected.2)

/-- The key from where the engine is in it. -/
def Engine.key (j : Engine) : Str :=
  match j.input with
  | .scalar (.string key) :: _ => key
  | _ => []

/-- `while (json_read_keyname_chr(j) == 0) {}` for the characters `key`. -/
def readKeyname : Str → Engine → Engine
  | [], j => (jsonReadKeynameChr j).2
  | _ :: key, j => readKeyname key (jsonReadKeynameChr j).2

def jsonScanNext : Bool × Engine :=
  match j.state, j.input with
  | .value, _ => valueAction j
  | .key, _ =>
    let j := readKeyname j.key j
    if j.error.isSome then (true, j) else valueAction j
  | .objStart, .rcurb :: rest =>
    (false, { j with input := rest, stack := j.stack.tail, state := .objEnd })
  | .objStart, .scalar (.string _) :: _ => (false, { j with state := .key })
  | .arrayStart, .rsqrb :: rest =>
    (false, { j with input := rest, stack := j.stack.tail, state := .arrayEnd })
  | .arrayStart, .lcurb :: _ => (false, { j with state := .value })
  | .arrayStart, .lsqrb :: _ => (false, { j with state := .value })
  | .arrayStart, .scalar _ :: _ => (false, { j with state := .value })
  | .objStart, _ => j.unexpected
  | .arrayStart, _ => j.unexpected
  | .objEnd, _ => contAction j
  | .arrayEnd, _ => contAction j
  | .done, _ => contAction j
  | .objCont, _ => contAction j
  | .arrayCont, _ => contAction j

/-- `json_actions[JST_READ_VALUE]` -/
def readValueAction : Bool × Engine :=
  let j := { j with valueBegin := j.input }
  match j.input with
  | .lcurb :: rest =>
    { j with input := rest, state := .objStart, valueType := some .object }.push .objCont
  | .lsqrb :: rest =>
    { j with input := rest, state := .arrayStart, valueType := some .array }.push .arrayCont
  | .scalar s :: rest =>
    (false, { j with input := rest, state := j.stack.headD .done, valueType := some s.type })
  | _ => j.unexpected

/-- `json_read_value`.  `value_end` is the input that is left. -/
def jsonReadValue : Bool × Engine :=
  let j := { j with valueType := none }
  match j.state with
  | .key =>
    let j := readKeyname j.key j
    if j.error.isSome then (true, j) else readValueAction j
  | _ => readValueAction j

/-- `json_value_scalar` -/
def Engine.scalar : Bool :=
  match j.valueType with
  | none => false
  | some vt => vt.isScalar

/-- `json_skip_to_level`; `stack_p < level` for a stack with `stack_p + 1` entries. -/
def jsonSkipToLevel (level : ℕ) : ℕ → Engine → Bool × Engine
  | 0, j => (true, j)
  | fuel + 1, j =>
    if j.stack.length < level + 1 then (false, j)
    else
      let r := jsonScanNext j
      if r.1 then r else jsonSkipToLevel level fuel r.2

/-- The steps that are enough for what is left of the text. -/
def Engine.fuel : ℕ := 2 * j.input.length + 2

def jsonSkipLevel : Bool × Engine :=
  jsonSkipToLevel (j.stack.length - 1) j.fuel j

/-- The loop of `json_skip_level_and_count`. -/
def skipAndCount (level : ℕ) : ℕ → ℕ → Engine → Bool × Engine × ℕ
  | 0, n, j => (true, j, n)
  | fuel + 1, n, j =>
    let r := jsonScanNext j
    if r.1 then (true, r.2, n)
    else if r.2.stack.length < level + 1 then (false, r.2, n)
    else
      skipAndCount level fuel
        (if r.2.stack.length = level + 1 ∧ r.2.state = .value then n + 1 else n) r.2

def jsonSkipLevelAndCount : Bool × Engine × ℕ :=
  skipAndCount (j.stack.length - 1) j.fuel 0 j

/-- `json_skip_array_and_count`: the engine itself stays where it is. -/
def jsonSkipArrayAndCount : Bool × ℕ :=
  let r := jsonSkipLevelAndCount j
  (r.1, r.2.2)

def jsonSkipKey : Bool × Engine :=
  let r := jsonReadValue j
  if r.1 then r
  else if r.2.scalar then (false, r.2)
  else jsonSkipLevel r.2

end

/-! ### Steps one after another -/

/-- The engines on the way stay at the level `n` or below it, and find no item at the level `n`. -/
def Below (n : ℕ) (es : List Engine) : Prop :=
  ∀ e ∈ es, n ≤ e.stack.length ∧ (e.stack.length = n → e.state ≠ .value)

/-- The items that are found at the level `n`. -/
def countAt (n : ℕ) (es : List Engine) : ℕ :=
  es.countP fun e => e.stack.length = n ∧ e.state = .value

theorem countAt_append (n : ℕ) (es es' : List Engine) :
    countAt n (es ++ es') = countAt n es + countAt n es' :=
  countP_append

variable {n : ℕ} {es : List Engine} {j : Engine} {v : Json} {key : Str} {object : Bool}
  {parts : List (Str × Json)} {rest : List Token} {stack : List State}

theorem Below.countAt (h : Below n es) : countAt n es = 0 := by
  rw [JsonLib.countAt, countP_eq_zero]
  intro e he
  have := (h e he).2
  simpa using this

/-! ### A step into a value -/

/-- The text of a value starts with a token that `JST_ARRAY_START` takes for an item. -/
theorem scanNext_item (hstate : j.state = .arrayStart) (hinput : j.input = v.tokens ++ rest) :
    jsonScanNext j = (false, { j with state := .value }) := by
  unfold jsonScanNext
  cases v with
  | scalar s => simp [hstate, hinput, tokens]
  | node object parts => cases object <;> simp [hstate, hinput, tokens, opening]

theorem contParts_cons (object : Bool) (key : Str) (v : Json) (parts : List (Str × Json)) :
    contParts object ((key, v) :: parts)
      = .comma :: (keyTokens object key ++ (v.tokens ++ contParts object parts)) := by
  rw [contParts]

/-- The key is read up to the value. -/
theorem readKeyname_spec (key : Str) (hinput : j.input = .scalar (.string key) :: .colon :: rest) :
    readKeyname key j = { j with input := rest, state := .value } := by
  induction key generalizing j with
  | nil => simp [readKeyname, jsonReadKeynameChr, hinput]
  | cons c key ih =>
    have hstep : (jsonReadKeynameChr j).2
        = { j with input := .scalar (.string key) :: .colon :: rest } := by
      simp [jsonReadKeynameChr, hinput]
    rw [readKeyname, hstep, ih rfl]

theorem scanNext_key (hstate : j.state = .key) (herror : j.error = none)
    (hinput : j.input = .scalar (.string key) :: .colon :: rest) :
    jsonScanNext j = valueAction { j with input := rest, state := .value } := by
  have hkey : j.key = key := by simp [Engine.key, hinput]
  unfold jsonScanNext
  simp only [hstate]
  rw [hkey, readKeyname_spec key hinput]
  simp [herror]

/-- The state at a part of an array or object, before its key or its value. -/
def State.part (object : Bool) : State := if object then .key else .value

/-- The step from a part leads into its value. -/
theorem scanNext_part (herror : j.error = none) : jsonScanNext { j with
      input := keyTokens object key ++ (v.tokens ++ rest), state := .part object }
    = valueAction { j with input := v.tokens ++ rest, state := .value } := by
  cases object with
  | false => rfl
  | true => exact scanNext_key rfl herror rfl

/-! ### Where an engine is -/

def State.start (object : Bool) : State := if object then .objStart else .arrayStart

def State.cont (object : Bool) : State := if object then .objCont else .arrayCont

def State.ends (object : Bool) : State := if object then .objEnd else .arrayEnd

/-- The states in which what follows is told by the stack. -/
def State.between : State → Bool
  | .objEnd | .arrayEnd | .done | .objCont | .arrayCont => true
  | _ => false

theorem between_cont : (State.cont object).between = true := by
  cases object <;> rfl

theorem between_ends : (State.ends object).between = true := by
  cases object <;> rfl

theorem scanNext_between (hstate : j.state.between = true) : jsonScanNext j = contAction j := by
  unfold jsonScanNext
  cases hs : j.state <;> simp_all [State.between]

/-- The engine is after a value, and `rest` follows. -/
structure After (j : Engine) (rest : List Token) (stack : List State) : Prop where
  error : j.error = none
  input : j.input = rest
  stack : j.stack = stack
  state : j.state.between = true

/-- The engine is in an array or object, with the parts that are left. -/
structure AtParts (object : Bool) (j : Engine) (parts : List (Str × Json)) (rest : List Token)
    (stack : List State) : Prop where
  error : j.error = none
  stack : j.stack = .cont object :: stack
  place : (j.state = .start object ∧
      j.input = (contParts object parts).tail ++ closing object :: rest) ∨
    (j.state.between = true ∧ j.input = contParts object parts ++ closing object :: rest)

theorem After.atParts
    (h : After j (contParts object parts ++ closing object :: rest) (.cont object :: stack)) :
    AtParts object j parts rest stack :=
  ⟨h.error, h.stack, .inr ⟨h.state, h.input⟩⟩

theorem AtParts.length_le (h : AtParts object j parts rest stack) :
    (contParts object parts).tail.length ≤ j.input.length := by
  rcases h.place with ⟨-, hinput⟩ | ⟨-, hinput⟩ <;>
  · rw [hinput, length_append, length_tail]
    omega

theorem AtParts.scan_nil (h : AtParts object j [] rest stack) : jsonScanNext j
    = (false, { j with input := rest, stack := stack, state := .ends object }) := by
  rcases h.place with ⟨hstate, hinput⟩ | ⟨hstate, hinput⟩
  · rw [contParts, tail_nil, nil_append] at hinput
    cases object <;> simp_all [jsonScanNext, State.start, State.ends, closing, h.stack]
  · rw [contParts, nil_append] at hinput
    rw [scanNext_between hstate]
    cases object <;> simp_all [contAction, State.cont, State.ends, closing, h.stack]

/-- Otherwise it comes to the next part. -/
theorem AtParts.scan_cons (h : AtParts object j ((key, v) :: parts) rest stack) : jsonScanNext j
    = (false, { j with
        input := keyTokens object key ++ (v.tokens ++ (contParts object parts ++ closing object :: rest))
        state := .part object }) := by
  rcases h.place with ⟨hstate, hinput⟩ | ⟨hstate, hinput⟩
  · rw [contParts_cons, tail_cons, append_assoc, append_assoc] at hinput
    cases object with
    | false => rw [scanNext_item hstate hinput, ← hinput]; rfl
    | true => simp_all [jsonScanNext, State.start, State.part, keyTokens]
  · rw [contParts_cons, cons_append, append_assoc, append_assoc] at hinput
    rw [scanNext_between hstate]
    cases object <;> simp [contAction, h.stack, hinput, State.cont, State.part, keyTokens]

/-! ### The run through a value -/

/-- What the steps into a value come to. -/
def ValueRun (v : Json) : Prop :=
  ∀ (j : Engine) (rest : List Token), j.error = none → (j.stack.headD .done).between = true →
    j.input = v.tokens ++ rest → j.stack.length + v.depth ≤ depthLimit →
    ∃ es s, s.between = true ∧
      Run jsonScanNext (valueAction j) es (jsonScanNext { j with input := rest, state := s }) ∧
      Below j.stack.length es ∧ es.length + 2 ≤ 2 * v.tokens.length

/-- The steps from `r` to `r'` stay in an array or object that lies on `stack`, come to `n` values of
it and are at most `N`. -/
def Inside (stack : List State) (n N : ℕ) (r r' : Bool × Engine) : Prop :=
  ∃ es, Run jsonScanNext r es r' ∧ (∀ e ∈ es, stack.length + 1 ≤ e.stack.length) ∧
    countAt (stack.length + 1) es = n ∧ es.length ≤ N

section Inside

variable {N : ℕ} {r r' : Bool × Engine} {first : Engine} {c : State}

theorem Inside.of_eq (h : r = r') : Inside stack 0 N r r' :=
  ⟨[], Run.of_eq h, by simp, rfl, by simp⟩

/-- The steps through one value, and through what follows it. -/
theorem Inside.cons {n' N' : ℕ} (hv : ValueRun v) (hr : r = (false, first))
    (hfirst : jsonScanNext first = valueAction j ∧ first.stack = j.stack) (herror : j.error = none)
    (hstack : j.stack = c :: stack) (hc : c.between = true) (hinput : j.input = v.tokens ++ rest)
    (hdepth : stack.length + 1 + v.depth ≤ depthLimit)
    (hrest : ∀ s : State, s.between = true →
      Inside stack n N (jsonScanNext { j with input := rest, state := s }) r')
    (hn : n' = n + if first.state = .value then 1 else 0) (hN : 2 * v.tokens.length + N ≤ N') :
    Inside stack n' N' r r' := by
  obtain ⟨es, s, hs, hrun, hbelow, hlength⟩ := hv j rest herror (by simpa [hstack] using hc) hinput
    (by rw [hstack, length_cons]; omega)
  obtain ⟨es', hrun', hbelow', hcount', hlength'⟩ := hrest s hs
  rw [hstack, length_cons] at hbelow
  refine ⟨first :: (es ++ es'), Run.step hr ?_, ?_, ?_, ?_⟩
  · rw [hfirst.1]
    exact hrun.append hrun'
  · intro e he
    rcases mem_cons.1 he with rfl | he
    · simp [hfirst.2, hstack]
    · rcases mem_append.1 he with he | he
      · exact (hbelow e he).1
      · exact hbelow' e he
  · rw [countAt, countP_cons, ← countAt, countAt_append, hbelow.countAt, hcount', hn]
    simp [hfirst.2, hstack]
  · simp only [length_cons, length_append]
    omega

/-- The steps through an array or object as a whole. -/
theorem Inside.opened (hpush : valueAction j = (false, first)) (hfirst : first.stack = c :: j.stack)
    {s : State} (hs : s.between = true)
    (h : Inside j.stack n N (jsonScanNext first) (false, { j with input := rest, state := s })) :
    ∃ es s, s.between = true ∧
      Run jsonScanNext (valueAction j) es (jsonScanNext { j with input := rest, state := s }) ∧
      Below j.stack.length es ∧ es.length ≤ N + 2 := by
  obtain ⟨es, hrun, hbelow, -, hlength⟩ := h
  refine ⟨first :: (es ++ [{ j with input := rest, state := s }]), s, hs,
    Run.step hpush (hrun.append (.cons (Run.of_eq rfl))), ?_, ?_⟩
  · intro e he
    simp only [mem_cons, mem_append, not_mem_nil, or_false] at he
    rcases he with rfl | he | rfl
    · simp [hfirst]
    · have := hbelow e he
      exact ⟨by omega, fun h => by omega⟩
    · refine ⟨le_rfl, fun _ => ?_⟩
      rintro rfl
      exact absurd hs (by decide)
  · simp only [length_cons, length_append, length_nil]
    omega

end Inside

/-- The steps through the parts that are left of an array or object, to its end. -/
theorem AtParts.run (hparts : ∀ m ∈ parts, ValueRun m.2) (h : AtParts object j parts rest stack)
    (hdepth : stack.length + 1 + depthParts parts ≤ depthLimit) :
    Inside stack (if object then 0 else parts.length) (2 * (contParts object parts).tail.length)
      (jsonScanNext j) (false, { j with input := rest, stack := stack, state := .ends object }) := by
  induction parts generalizing j with
  | nil =>
    rw [length_nil, ite_self]
    exact .of_eq h.scan_nil
  | cons m parts ih =>
    obtain ⟨key, v⟩ := m
    rw [depthParts] at hdepth
    have hv : ValueRun v := hparts (key, v) (by simp)
    refine .cons hv h.scan_cons ⟨scanNext_part h.error, rfl⟩ h.error h.stack between_cont rfl
      (by omega) (fun s hs => ?_) ?_ (n := if object then 0 else parts.length)
      (N := 2 * (contParts object parts).tail.length) ?_
    · exact ih (fun m hm => hparts m (by simp [hm])) ⟨h.error, h.stack, .inr ⟨hs, rfl⟩⟩ (by omega)
    · cases object <;> rfl
    · simp only [contParts_cons, tail_cons, length_append, length_tail]
      omega

/-- **A step into a value, and the further ones, come to what follows it.** -/
theorem value_run (v : Json) : ValueRun v := by
  induction v using ind with
  | hscalar s =>
    intro j rest herror hhead hinput hdepth
    refine ⟨[], j.stack.headD .done, hhead, Run.of_eq ?_, by simp [Below], by simp [tokens]⟩
    rw [scanNext_between hhead]
    simp [valueAction, hinput, tokens]
  | hnode object parts ih =>
    intro j rest herror hhead hinput hdepth
    rw [depth] at hdepth
    let start : Engine := { j with
      input := (contParts object parts).tail ++ closing object :: rest
      state := .start object
      stack := .cont object :: j.stack }
    have hpush : valueAction j = (false, start) := by
      have hroom : j.stack.length < depthLimit := by omega
      cases object <;>
        simp [valueAction, hinput, tokens, opening, closing, push, hroom, start, State.start,
          State.cont]
    have hstart : AtParts object start parts rest j.stack := ⟨herror, rfl, .inl ⟨rfl, rfl⟩⟩
    obtain ⟨es, s, hs, hrun, hbelow, hlength⟩ := Inside.opened hpush rfl between_ends
      (hstart.run ih (by omega))
    refine ⟨es, s, hs, hrun, hbelow, ?_⟩
    simp only [tokens, length_cons, length_append, length_nil]
    omega

/-! ### What is skipped -/

/-- The loop of `json_skip_to_level` along steps that stay below the level. -/
theorem jsonSkipToLevel_run {level fuel : ℕ} {r : Bool × Engine}
    (hrun : Run jsonScanNext r es (false, j)) (hes : ∀ e ∈ es, level + 1 ≤ e.stack.length)
    (hj : j.stack.length < level + 1) (hfuel : es.length < fuel) :
    ∀ e, r = (false, e) → jsonSkipToLevel level fuel e = (false, j) := by
  generalize hr' : ((false, j) : Bool × Engine) = r' at hrun
  induction hrun generalizing fuel with
  | nil r =>
    rintro e rfl
    obtain rfl : j = e := (Prod.mk.inj hr').2
    cases fuel with
    | zero => simp at hfuel
    | succ fuel => rw [jsonSkipToLevel, if_pos hj]
  | @cons e es r hrun ih =>
    rintro e' he'
    obtain rfl : e = e' := (Prod.mk.inj he').2
    cases fuel with
    | zero => simp at hfuel
    | succ fuel =>
      have hlevel := hes e (by simp)
      rw [jsonSkipToLevel, if_neg (by omega)]
      -- the step does not fail: the run goes on to its end
      rcases hscan : jsonScanNext e with ⟨rc, e''⟩
      cases rc with
      | true =>
        rw [hscan] at hrun
        subst hr'
        cases hrun
      | false =>
        exact ih (fun e he => hes e (by simp [he])) (by simpa using hfuel) hr' e'' hscan

/-- `json_skip_level` along steps that stay inside. -/
theorem Inside.skipLevel {N : ℕ} {c : State} {j' : Engine} (hstack : j.stack = c :: stack)
    (h : Inside stack n N (jsonScanNext j) (false, j')) (hj' : j'.stack = stack)
    (hN : N ≤ 2 * j.input.length) : jsonSkipLevel j = (false, j') := by
  obtain ⟨es, hrun, hes, -, hlength⟩ := h
  rw [jsonSkipLevel, hstack, length_cons, Nat.add_sub_cancel]
  refine jsonSkipToLevel_run (.cons hrun) (forall_mem_cons.2 ⟨?_, hes⟩) ?_ ?_ j rfl
  · rw [hstack, length_cons]
  · rw [hj']
    omega
  · rw [fuel, length_cons]
    omega

/-- The loop of `json_skip_level_and_count` along steps that stay below the level. -/
theorem skipAndCount_run {level fuel : ℕ} {j' : Engine}
    (hrun : Run jsonScanNext (jsonScanNext j) es (false, j'))
    (hes : ∀ e ∈ es, level + 1 ≤ e.stack.length) (hj' : j'.stack.length < level + 1)
    (hfuel : es.length < fuel) :
    skipAndCount level fuel n j = (false, j', n + countAt (level + 1) es) := by
  induction es generalizing j n fuel with
  | nil =>
    cases fuel with
    | zero => simp at hfuel
    | succ fuel =>
      generalize hr : jsonScanNext j = r at hrun
      cases hrun
      rw [skipAndCount, hr]
      simp [hj', countAt]
  | cons e es ih =>
    cases fuel with
    | zero => simp at hfuel
    | succ fuel =>
      generalize hr : jsonScanNext j = r at hrun
      cases hrun with
      | cons hrun =>
      have hlevel := hes e (by simp)
      rw [skipAndCount, hr]
      simp only [Bool.false_eq_true, if_false]
      rw [if_neg (by omega), ih hrun (fun e he => hes e (by simp [he])) (by simpa using hfuel),
        countAt, countAt, countP_cons]
      by_cases hitem : e.stack.length = level + 1 ∧ e.state = .value
      · simp [hitem, Nat.add_assoc, Nat.add_comm 1]
      · simp [hitem]

/-! ### Reading a value -/

/-- The engine has read the start of the value `w`, and `rest` follows the value. -/
structure Opened (j : Engine) (w : Json) (rest : List Token) (stack : List State) : Prop where
  error : j.error = none
  valueType : j.valueType = some w.type
  valueBegin : j.valueBegin = w.tokens ++ rest
  place : match w with
    | .scalar _ => After j rest stack
    | .node object parts => AtParts object j parts rest stack

/-- The engine is before the value `v`, and `rest` follows the value: in an array, or after the
colon of a member, or inside the key of the member. -/
structure Before (j : Engine) (v : Json) (rest : List Token) (stack : List State) : Prop where
  error : j.error = none
  head : (stack.headD .done).between = true
  stack : j.stack = stack
  place : (j.state = .value ∧ j.input = v.tokens ++ rest) ∨
    (j.state = .key ∧ ∃ key, j.input = .scalar (.string key) :: .colon :: (v.tokens ++ rest))

/-- A value can be opened. -/
def Fits (v : Json) (stack : List State) : Prop := v.depth = 0 ∨ stack.length < depthLimit

theorem readValueAction_spec (herror : j.error = none)
    (hhead : (j.stack.headD .done).between = true) (hinput : j.input = v.tokens ++ rest)
    (hfits : Fits v j.stack) :
    ∃ j', readValueAction j = (false, j') ∧ Opened j' v rest j.stack := by
  cases v with
  | scalar s =>
    have hread : readValueAction j = (false, { j with
        valueBegin := j.input
        input := rest
        state := j.stack.headD .done
        valueType := some s.type }) := by
      simp [readValueAction, hinput, tokens]
    exact ⟨_, hread, herror, rfl, hinput, herror, rfl, rfl, hhead⟩
  | node object parts =>
    have hstack : j.stack.length < depthLimit := hfits.resolve_left (by simp [depth])
    have hread : readValueAction j = (false, { j with
        valueBegin := j.input
        input := (contParts object parts).tail ++ closing object :: rest
        state := .start object
        stack := .cont object :: j.stack
        valueType := some (node object parts).type }) := by
      cases object <;>
        simp [readValueAction, hinput, tokens, opening, closing, push, hstack, State.start,
          State.cont, type]
    exact ⟨_, hread, herror, rfl, hinput, herror, rfl, .inl ⟨rfl, rfl⟩⟩

theorem readValueAction_deep (hinput : j.input = v.tokens ++ rest) (hfits : ¬ Fits v j.stack) :
    ∃ j', readValueAction j = (true, j') ∧ j'.error = some .depth := by
  simp only [Fits, not_or, Nat.not_lt] at hfits
  have hstack : ¬ j.stack.length < depthLimit := by omega
  cases v with
  | scalar s => exact absurd rfl hfits.1
  | node object parts =>
    cases object <;> simp [readValueAction, hinput, tokens, opening, push, hstack, fail]

section

variable (h : Before j v rest stack)
include h

/-- Before a value, `json_read_value` reads its start. -/
theorem Before.read_eq : jsonReadValue j
      = readValueAction { j with valueType := none, input := v.tokens ++ rest, state := .value } := by
  rcases h.place with ⟨hstate, hinput⟩ | ⟨hstate, key, hinput⟩
  · unfold jsonReadValue
    simp only [hstate]
    rw [← hinput, ← hstate]
  have hkey : Engine.key { j with valueType := none } = key := by simp [Engine.key, hinput]
  unfold jsonReadValue
  simp only [hstate]
  rw [← hstate, hkey, readKeyname_spec key (j := { j with valueType := none }) hinput]
  simp [h.error]

/-- **`json_read_value` reads the start of the value.** -/
theorem jsonReadValue_spec (hfits : Fits v stack) :
    ∃ j', jsonReadValue j = (false, j') ∧ Opened j' v rest stack := by
  rw [h.read_eq, ← h.stack]
  exact readValueAction_spec h.error (h.stack ▸ h.head) rfl (h.stack ▸ hfits)

/-- `json_read_value` fails at a value that is nested too deep. -/
theorem jsonReadValue_deep (hfits : ¬ Fits v stack) :
    ∃ j', jsonReadValue j = (true, j') ∧ j'.error = some .depth := by
  rw [h.read_eq]
  exact readValueAction_deep rfl (h.stack ▸ hfits)

end

/-- **`json_skip_level` goes to the end of what was opened.** -/
theorem jsonSkipLevel_spec (h : Opened j (.node object parts) rest stack)
    (hdepth : stack.length + (node object parts).depth ≤ depthLimit) :
    jsonSkipLevel j = (false, { j with input := rest, stack := stack, state := .ends object }) := by
  have hat : AtParts object j parts rest stack := h.place
  have hlength := hat.length_le
  rw [depth] at hdepth
  exact Inside.skipLevel hat.stack (hat.run (fun m _ => value_run m.2) (by omega)) rfl (by omega)

/-- **`json_skip_array_and_count` counts the items.** -/
theorem jsonSkipArrayAndCount_spec (h : Opened j (.node false parts) rest stack)
    (hdepth : stack.length + (node false parts).depth ≤ depthLimit) :
    jsonSkipArrayAndCount j = (false, parts.length) := by
  have hat : AtParts false j parts rest stack := h.place
  rw [depth] at hdepth
  obtain ⟨es, hrun, hes, hcount, hlength⟩ := hat.run (fun m _ => value_run m.2) (by omega)
  have hfuel : es.length < j.fuel := by
    have := hat.length_le
    rw [fuel]
    omega
  have hloop : skipAndCount stack.length j.fuel 0 j = (false, _, 0 + countAt (stack.length + 1) es) :=
    skipAndCount_run hrun hes (by simp) hfuel
  rw [jsonSkipArrayAndCount, jsonSkipLevelAndCount, hat.stack, length_cons, Nat.add_sub_cancel,
    hloop, hcount, Nat.zero_add]
  rfl

theorem jsonSkipArrayAndCount_spec_two :
    jsonSkipArrayAndCount ⟨[.lsqrb, .rsqrb, .comma, .lsqrb, .rsqrb, .rsqrb], none, .arrayStart,
      [.arrayCont, .done], some .array, (array [array [], array []]).tokens⟩ = (false, 2) :=
  jsonSkipArrayAndCount_spec (show Opened _ (array [array [], array []]) [] [.done] from
    ⟨rfl, rfl, rfl, rfl, rfl, .inl ⟨rfl, rfl⟩⟩) (by decide)

/-- **`json_skip_key` goes to the end of the value.** -/
theorem jsonSkipKey_spec (h : Before j v rest stack) (hdepth : stack.length + v.depth ≤ depthLimit) :
    ∃ j', jsonSkipKey j = (false, j') ∧ After j' rest stack := by
  have hfits : Fits v stack := by
    unfold Fits
    omega
  obtain ⟨j', hread, hopen⟩ := jsonReadValue_spec h hfits
  have hscalar : j'.scalar = v.type.isScalar := by simp [Engine.scalar, hopen.valueType]
  rw [jsonSkipKey, hread, hscalar]
  cases v with
  | scalar s =>
    rw [type, Scalar.isScalar_type, if_pos rfl]
    exact ⟨j', rfl, hopen.place⟩
  | node object parts =>
    have hnot : (node object parts).type.isScalar = false := by cases object <;> rfl
    rw [hnot, if_neg (by simp)]
    exact ⟨_, jsonSkipLevel_spec hopen hdepth, hopen.error, rfl, rfl, between_ends⟩

theorem jsonSkipKey_spec_array :
    ∃ j', jsonSkipKey (jsonScanStart (array [array []]).tokens) = (false, j') ∧
      After j' [] [.done] :=
  jsonSkipKey_spec (v := array [array []])
    ⟨rfl, rfl, rfl, .inl ⟨rfl, (append_nil _).symm⟩⟩ (by decide)

end JsonLib
