/-
**The priority queue of mysys.**

`mysys/queues.c` keeps pointers to records in an array `root`, from the index 1 on, as a binary
heap.  The order is that of a caller's `compare` on the key part of the records, turned round by
`max_at_top = -1`.  When `offset_to_queue_pos` is set the queue also writes into every record the
index at which its pointer stands, with which the record can be removed later.

`queue_replace` is not the textbook sift: it compares the element in hand with a child only in its
first round, otherwise lets the hole fall to a leaf, and then lets the element rise from there with
`insert_at`.  `queue_remove` calls it also for the index just behind the shrunken heap.

The memory of the records is part of the state here: `key` is what a caller may change, `queuePos`
is what the queue writes.  An index is a `uint` that stays below `max_elements`, so it is a natural
number; `compare` is given with its first argument and returns an `int`.

Main definitions:

* `Queue`: the queue and the records;
* `insertAt`, `downheap`, `queueFix`, `queueReplace`, `queueInsert`, `queueInsertSafe`,
  `queueRemove`, `resizeQueue`: the functions of the source;
* `Op`, `Allowed`, `run`: runs of calls, with an account of the elements that went in and out.

Main results:

* `run_queue`: **the queue is a heap of exactly the elements that were put in and not taken out, its
  top is least (greatest), and the stored positions are right**;
* `removeTops_sorted`: **the elements leave it in its order**.
-/

import MariaDb.BinaryHeap
import MariaDb.CompareOrder

set_option autoImplicit false

namespace Queues

open BinaryHeap CompareOrder Function

/-! ### The model -/

/-- `QUEUE`, and the records that its pointers point to. -/
structure Queue (E K : Type*) where
  root : ℕ → E
  elements : ℕ
  maxElements : ℕ
  /-- 0, or the offset of the position in a record, plus 1 -/
  offsetToQueuePos : ℕ
  autoExtent : ℕ
  maxAtTop : Int32
  compare : K → K → Int32
  /-- what `element + offset_to_key` points to -/
  key : E → K
  /-- what `element + offset_to_queue_pos - 1` points to -/
  queuePos : E → ℕ

variable {E K : Type*}

namespace Queue

/-- The result of `queue->compare(...) * queue->max_at_top` for two elements. -/
def cmp (q : Queue E K) (x y : E) : ℤ := (q.compare (q.key x) (q.key y) * q.maxAtTop).toInt

/-- The child of `idx` that comes first; the left one if there is no other. -/
def nextIndex (q : Queue E K) (idx : ℕ) : ℕ :=
  if idx + idx < q.elements ∧ 0 < q.cmp (q.root (idx + idx)) (q.root (idx + idx + 1)) then
    idx + idx + 1
  else idx + idx

theorem lt_nextIndex (q : Queue E K) {idx : ℕ} (hidx : 0 < idx) : idx < q.nextIndex idx := by
  unfold nextIndex
  split <;> omega

/-- `root[idx]= element`, and its position if positions are stored. -/
def store [DecidableEq E] (q : Queue E K) (idx : ℕ) (element : E) : Queue E K :=
  { q with
    root := update q.root idx element
    queuePos :=
      if q.offsetToQueuePos ≠ 0 then update q.queuePos element idx else q.queuePos }

end Queue

section Functions

variable [DecidableEq E]

/-- `init_queue`: the array is not initialised, nor are the positions in the records. -/
def initQueue (root : ℕ → E) (key : E → K) (queuePos : E → ℕ) (maxElements : ℕ) (maxAtTop : Bool)
    (compare : K → K → Int32) (offsetToQueuePos autoExtent : ℕ) : Queue E K :=
  { root, elements := 0, maxElements, offsetToQueuePos, autoExtent,
    maxAtTop := if maxAtTop then -1 else 1, compare, key, queuePos }

variable (q : Queue E K)

/-- `insert_at`: the element rises from `idx`. -/
def insertAt (q : Queue E K) (element : E) (idx : ℕ) : Queue E K :=
  if 0 < idx / 2 ∧ q.cmp element (q.root (idx / 2)) < 0 then
    insertAt (q.store idx (q.root (idx / 2))) element (idx / 2)
  else q.store idx element
termination_by idx
decreasing_by omega

def queueInsert (element : E) : Queue E K :=
  insertAt { q with elements := q.elements + 1 } element (q.elements + 1)

/-- `resize_queue`: `memory` says whether the memory could be allocated.  Returns 1 if not. -/
def resizeQueue (maxElements : ℕ) (memory : Bool) : Queue E K × ℕ :=
  if q.maxElements = maxElements then (q, 0)
  else if !memory then (q, 1)
  else ({ q with elements := min q.elements maxElements, maxElements := maxElements }, 0)

def queueInsertSafe (element : E) (memory : Bool) : Queue E K × ℕ :=
  if q.elements = q.maxElements then
    if q.autoExtent = 0 then (q, 2)
    else
      let (q', err) := resizeQueue q (q.maxElements + q.autoExtent) memory
      if err ≠ 0 then (q', 1) else (queueInsert q' element, 0)
  else (queueInsert q element, 0)

/-- The loop of `_downheap` and what follows it.  The index 0 is no part of the heap; no caller
passes it. -/
def downheapLoop (q : Queue E K) (element : E) (idx : ℕ) : Queue E K :=
  if 0 < idx ∧ idx ≤ q.elements / 2 then
    if 0 ≤ q.cmp (q.root (q.nextIndex idx)) element then q.store idx element
    else downheapLoop (q.store idx (q.root (q.nextIndex idx))) element (q.nextIndex idx)
  else q.store idx element
termination_by q.elements - idx
decreasing_by
  have := q.lt_nextIndex (show 0 < idx by omega)
  simp only [Queue.store]
  omega

def downheap (idx : ℕ) : Queue E K := downheapLoop q (q.root idx) idx

/-- The loop of `queue_fix`, from `i` down to 1. -/
def queueFixLoop (q : Queue E K) : ℕ → Queue E K
  | 0 => q
  | i + 1 => queueFixLoop (downheap q (i + 1)) i

def queueFix : Queue E K := queueFixLoop q (q.elements / 2)

/-- The loop of `queue_replace`: the queue and the index at which it ends. -/
def replaceLoop (q : Queue E K) (element : E) (idx : ℕ) (first : Bool) : Queue E K × ℕ :=
  if 0 < idx ∧ idx ≤ q.elements / 2 then
    if first ∧ 0 ≤ q.cmp (q.root (q.nextIndex idx)) element then (q.store idx element, idx)
    else replaceLoop (q.store idx (q.root (q.nextIndex idx))) element (q.nextIndex idx) false
  else (q, idx)
termination_by q.elements - idx
decreasing_by
  have := q.lt_nextIndex (show 0 < idx by omega)
  simp only [Queue.store]
  omega

def queueReplace (idx : ℕ) : Queue E K :=
  let element := q.root idx
  let (q', idx') := replaceLoop q element idx true
  insertAt q' element idx'

/-- `queue_remove`: the queue and the element removed. -/
def queueRemove (idx : ℕ) : Queue E K × E :=
  let element := q.root idx
  (queueReplace
    { q with root := update q.root idx (q.root q.elements), elements := q.elements - 1 } idx,
    element)

end Functions

/-! ### The order -/

/-- The compare function and the direction of a queue are proper.  To turn the order round the source
multiplies by -1, which the least `int` does not survive. -/
structure Ordered (q : Queue E K) : Prop where
  compare : TotalOrder fun x y => (q.compare x y).toInt
  maxAtTop : q.maxAtTop = 1 ∨ q.maxAtTop = -1 ∧ ∀ x y, q.compare x y ≠ Int32.minValue

/-- `x` may stand above `y`. -/
def Queue.le (q : Queue E K) (x y : E) : Prop := q.cmp x y ≤ 0

variable {q q0 : Queue E K} {h k : ℕ} {e : E} {m : Multiset E}

theorem toInt_mul_neg_one {a : Int32} (ha : a ≠ Int32.minValue) : (a * -1).toInt = -a.toInt := by
  rw [Int32.mul_neg, Int32.mul_one]
  exact BitVec.toInt_neg_of_ne_intMin fun h => ha (Int32.toBitVec_inj.1 h)

theorem Ordered.cmp_eq (ho : Ordered q) :
    (∀ x y, q.cmp x y = (q.compare (q.key x) (q.key y)).toInt) ∨
      ∀ x y, q.cmp x y = -(q.compare (q.key x) (q.key y)).toInt := by
  rcases ho.maxAtTop with hm | ⟨hm, hmin⟩
  · exact .inl fun x y => by rw [Queue.cmp, hm, Int32.mul_one]
  · exact .inr fun x y => by rw [Queue.cmp, hm, toInt_mul_neg_one (hmin _ _)]

/-- What a queue compares by is a total order in both directions. -/
theorem Ordered.totalOrder (ho : Ordered q) : TotalOrder q.cmp := by
  have hc := ho.compare
  rcases ho.cmp_eq with h | h
  · exact ⟨fun x y => by simpa only [h] using hc.swap _ _,
      fun x y z => by simpa only [h] using hc.trans _ _ _⟩
  · refine ⟨fun x y => ?_, fun x y z hxy hyz => ?_⟩
    · simpa only [h, Left.neg_nonpos_iff, Left.nonneg_neg_iff] using (hc.swap _ _).symm
    · simp only [h, Left.neg_nonpos_iff, ← hc.swap] at hxy hyz ⊢
      exact hc.trans _ _ _ hyz hxy

theorem Ordered.le_iff (ho : Ordered q) {x y : E} : q.le x y ↔ 0 ≤ q.cmp y x :=
  ho.totalOrder.swap x y

theorem Ordered.refl (ho : Ordered q) : Std.Refl q.le := ⟨fun x => (ho.totalOrder.refl x).le⟩

theorem Ordered.isTrans (ho : Ordered q) : IsTrans E q.le := ⟨ho.totalOrder.trans⟩

/-! ### A queue with a hole -/

/-- `q` is `q0` but for the array and the stored positions. -/
def SameFrame (q0 q : Queue E K) : Prop :=
  q = { q0 with root := q.root, queuePos := q.queuePos }

/-- The queue `q` with the hole `h` and the element `e` in hand: the elements are `m` in all, and
the positions of those in the array are right. -/
structure Open (q0 q : Queue E K) (h : ℕ) (e : E) (m : Multiset E) : Prop where
  frame : SameFrame q0 q
  pos : 1 ≤ h
  le : h ≤ q0.elements
  elems : contents (update q.root h e) q0.elements = m
  placed : q0.offsetToQueuePos ≠ 0 →
    ∀ i, 1 ≤ i → i ≤ q0.elements → i ≠ h → q.queuePos (q.root i) = i ∧ q.root i ≠ e

/-- The positions stored in the records are those of the array. -/
def Placed (q : Queue E K) : Prop :=
  q.offsetToQueuePos ≠ 0 → ∀ i, 1 ≤ i → i ≤ q.elements → q.queuePos (q.root i) = i

/-- The queue `q` without a hole: its elements are `m`, and the positions are right. -/
structure Closed (q0 q : Queue E K) (m : Multiset E) : Prop where
  frame : SameFrame q0 q
  elems : contents q.root q0.elements = m
  placed : Placed q

namespace SameFrame

variable (hf : SameFrame q0 q)
include hf

theorem elements : q.elements = q0.elements := by rw [hf]

theorem offsetToQueuePos : q.offsetToQueuePos = q0.offsetToQueuePos := by rw [hf]

theorem cmp (x y : E) : q.cmp x y = q0.cmp x y := by
  rw [hf]
  rfl

theorem le : q.le = q0.le := by
  funext x y
  simp only [Queue.le, hf.cmp]

theorem ordered (hord : Ordered q0) : Ordered q := by
  rw [hf]
  exact ⟨hord.compare, hord.maxAtTop⟩

end SameFrame

theorem SameFrame.trans {q1 : Queue E K} (hf : SameFrame q0 q1) (hf' : SameFrame q1 q) :
    SameFrame q0 q := by
  unfold SameFrame at hf hf' ⊢
  rw [hf', hf]

/-- The next index is a child, and none of the children comes before it. -/
theorem nextIndex_spec (hord : Ordered q) (hhalf : h ≤ q.elements / 2) :
    q.nextIndex h ≤ q.elements ∧ q.nextIndex h / 2 = h ∧
      ∀ i, i ≤ q.elements → i / 2 = h → i ≠ q.nextIndex h →
        q.le (q.root (q.nextIndex h)) (q.root i) := by
  unfold Queue.nextIndex
  split
  case isTrue hr =>
    refine ⟨by omega, by omega, ?_⟩
    intro i hi hih hne
    have hleft : i = h + h := by omega
    rw [hleft, hord.le_iff]
    exact hr.2.le
  case isFalse hl =>
    refine ⟨by omega, by omega, ?_⟩
    intro i hi hih hne
    have hright : i = h + h + 1 := by omega
    rw [hright]
    by_contra hlt
    exact hl ⟨by omega, not_le.1 hlt⟩

/-- An element that the first child does not come before is before all children. -/
theorem le_children (hord : Ordered q0) (hf : SameFrame q0 q) (hhalf : h ≤ q.elements / 2)
    (hstop : 0 ≤ q.cmp (q.root (q.nextIndex h)) e) :
    ∀ i, i ≤ q0.elements → i / 2 = h → q0.le e (q.root i) := by
  have := hord.isTrans
  obtain ⟨-, -, hmin⟩ := nextIndex_spec (hf.ordered hord) hhalf
  rw [hf.elements, hf.le] at hmin
  have hfirst : q0.le e (q.root (q.nextIndex h)) := by
    rw [hord.le_iff, ← hf.cmp]
    exact hstop
  intro i hi hih
  by_cases hne : i = q.nextIndex h
  · rw [hne]
    exact hfirst
  · exact IsTrans.trans _ _ _ hfirst (hmin i hi hih hne)

/-! ### Proper queues -/

/-- What `init_queue` sets, and only a change of the size changes. -/
structure Setup (K : Type*) where
  compare : K → K → Int32
  maxAtTop : Int32
  offsetToQueuePos : ℕ
  maxElements : ℕ

def Queue.setup (q : Queue E K) : Setup K :=
  ⟨q.compare, q.maxAtTop, q.offsetToQueuePos, q.maxElements⟩

/-- A proper queue: a heap of the elements `m`, within the array, and with the right positions. -/
structure Good (c : Setup K) (q : Queue E K) (m : Multiset E) : Prop where
  setup : q.setup = c
  ordered : Ordered q
  room : q.elements ≤ q.maxElements
  heap : Heap q.le q.root q.elements
  elems : contents q.root q.elements = m
  placed : Placed q

variable {c : Setup K}

/-- What the loops leave is a proper queue. -/
theorem Closed.good (hc : Closed q0 q m) (hsetup : q0.setup = c) (hord : Ordered q0)
    (hroom : q0.elements ≤ q0.maxElements) (hp : Heap q0.le q.root q0.elements) : Good c q m where
  setup := by
    rw [hc.frame]
    exact hsetup
  ordered := hc.frame.ordered hord
  room := by
    rw [hc.frame]
    exact hroom
  heap := by
    rw [hc.frame.le, hc.frame.elements]
    exact hp
  elems := by
    rw [hc.frame.elements]
    exact hc.elems
  placed := hc.placed

/-- The elements of a proper queue with stored positions are different from each other. -/
theorem Placed.root_ne (hp : Placed q) (hoff : q.offsetToQueuePos ≠ 0) {i j : ℕ} (hi : 1 ≤ i)
    (hin : i ≤ q.elements) (hj : 1 ≤ j) (hjn : j ≤ q.elements) (hne : i ≠ j) :
    q.root i ≠ q.root j := by
  intro heq
  have hpi := hp hoff i hi hin
  rw [heq, hp hoff j hj hjn] at hpi
  exact hne hpi.symm

def Queue.Member (q : Queue E K) (element : E) : Prop :=
  ∃ i, 1 ≤ i ∧ i ≤ q.elements ∧ q.root i = element

theorem Good.mem_iff (hq : Good c q m) : q.Member e ↔ e ∈ m := by
  rw [← hq.elems]
  exact mem_contents.symm

/-- An array that is full is one with a hole, whose element is in hand. -/
theorem Open.of_array (h1 : 1 ≤ h) (hn : h ≤ q.elements)
    (hplaced : q.offsetToQueuePos ≠ 0 → ∀ i, 1 ≤ i → i ≤ q.elements → i ≠ h →
      q.queuePos (q.root i) = i ∧ q.root i ≠ q.root h) :
    Open q q h (q.root h) (contents q.root q.elements) :=
  ⟨rfl, h1, hn, by rw [update_eq_self], hplaced⟩

theorem resizeQueue_good (hq : Good c q m) (maxElements : ℕ) (memory : Bool) :
    ∃ m', Good { c with maxElements := if memory then maxElements else c.maxElements }
        (resizeQueue q maxElements memory).1 m' ∧
      m = m' + if memory then (Finset.Ioc maxElements q.elements).val.map q.root else 0 := by
  have hroom := hq.room
  have hc := hq.setup
  have hmax : c.maxElements = q.maxElements := by rw [← hc, Queue.setup]
  cases memory with
  | false =>
    have hkept : (resizeQueue q maxElements false).1 = q := by
      simp [resizeQueue, apply_ite]
    exact ⟨m, by simpa [hkept] using hq, by simp⟩
  | true =>
    by_cases hsame : q.maxElements = maxElements
    · refine ⟨m, by simpa [resizeQueue, ← hsame, ← hmax] using hq, ?_⟩
      simp [Finset.Ioc_eq_empty_of_le (hsame ▸ hroom)]
    · have hmin := min_le_left q.elements maxElements
      simp only [resizeQueue, hsame, if_true, if_false, Bool.not_true, Bool.false_eq_true]
      refine ⟨_, ⟨by rw [← hc]; rfl, ⟨hq.ordered.1, hq.ordered.2⟩, min_le_right _ _,
        HeapFrom.mono hq.heap hmin, rfl,
        fun hoff i hi hin => hq.placed hoff i hi (hin.trans hmin)⟩, ?_⟩
      rw [← hq.elems, contents_split q.root hmin]
      rcases le_total q.elements maxElements with hle | hle
      · simp [hle]
      · simp [hle]

/-! ### The hole moves and is closed -/

/-- A full queue is extended by `queue_insert_safe`. -/
def Queue.Extends (q : Queue E K) (memory : Bool) : Prop :=
  q.elements = q.maxElements ∧ q.autoExtent ≠ 0 ∧ memory

instance (q : Queue E K) (memory : Bool) : Decidable (q.Extends memory) :=
  inferInstanceAs (Decidable (_ ∧ _ ∧ _))

variable [DecidableEq E]

theorem SameFrame.store (hf : SameFrame q0 q) (idx : ℕ) (x : E) : SameFrame q0 (q.store idx x) := by
  rw [hf]
  rfl

@[simp] theorem store_root (idx : ℕ) (x : E) : (q.store idx x).root = update q.root idx x := rfl

theorem store_queuePos (ho : q.offsetToQueuePos ≠ 0) (idx : ℕ) (x : E) :
    (q.store idx x).queuePos = update q.queuePos x idx := by
  simp [Queue.store, ho]

/-- The hole moves to `c`. -/
theorem Open.move {c : ℕ} (ho : Open q0 q h e m) (c1 : 1 ≤ c) (cn : c ≤ q0.elements)
    (hne : c ≠ h) : Open q0 (q.store h (q.root c)) c e m where
  frame := ho.frame.store h _
  pos := c1
  le := cn
  elems := by
    rw [store_root, contents_move q.root ho.pos ho.le c1 cn hne]
    exact ho.elems
  placed hoff i hi hin hic := by
    have hc := ho.placed hoff c c1 cn hne
    rw [store_root, store_queuePos (by rwa [ho.frame.offsetToQueuePos])]
    by_cases hih : i = h
    · subst hih
      rw [update_self, update_self]
      exact ⟨rfl, hc.2⟩
    rw [update_of_ne hih]
    have hi' := ho.placed hoff i hi hin hih
    -- the positions of the two elements differ, so they do
    have hdiff : q.root i ≠ q.root c := by
      intro heq
      rw [heq, hc.1] at hi'
      exact hic hi'.1.symm
    rw [update_of_ne hdiff]
    exact hi'

/-- The element is put into the hole. -/
theorem Open.close (ho : Open q0 q h e m) : Closed q0 (q.store h e) m where
  frame := ho.frame.store h e
  elems := ho.elems
  placed := by
    intro hoff i hi hin
    rw [(ho.frame.store h e).offsetToQueuePos] at hoff
    rw [(ho.frame.store h e).elements] at hin
    rw [store_root, store_queuePos (by rwa [ho.frame.offsetToQueuePos])]
    by_cases hih : i = h
    · subst hih
      rw [update_self, update_self]
    · have hi' := ho.placed hoff i hi hin hih
      rw [update_of_ne hih, update_of_ne hi'.2]
      exact hi'.1

/-- Writing the element into the hole does not close it. -/
theorem Open.store_hole (ho : Open q0 q h e m) : Open q0 (q.store h e) h e m where
  frame := ho.frame.store h e
  pos := ho.pos
  le := ho.le
  elems := by
    rw [store_root, update_idem]
    exact ho.elems
  placed hoff i hi hin hih := by
    have hi' := ho.placed hoff i hi hin hih
    rw [store_root, store_queuePos (by rwa [ho.frame.offsetToQueuePos]), update_of_ne hih,
      update_of_ne hi'.2]
    exact hi'

/-! ### The loops -/

section

variable (hord : Ordered q0) (ho : Open q0 q h e m)
include hord ho

/-- **`insert_at`** closes a hole whose children come after the element. -/
theorem insertAt_spec (hp : HeapExcept q0.le q.root 1 q0.elements h)
    (hbelow : ∀ i, i ≤ q0.elements → i / 2 = h → q0.le e (q.root i)) :
    Closed q0 (insertAt q e h) m ∧ Heap q0.le (insertAt q e h).root q0.elements := by
  have := hord.isTrans
  fun_induction insertAt q e h with
  | case1 q h hup ih =>
    have hbefore : q0.le e (q.root (h / 2)) := by
      rw [ho.frame.cmp] at hup
      exact hup.2.le
    have hn := ho.le
    have hpull := hp.pull_parent ho.le (by omega) hup.1
    exact ih (ho.move (by omega) (by omega) (by omega)) hpull
      (hp.le_of_parent (by omega) hup.1 hbefore)
  | case2 q h hstop =>
    refine ⟨ho.close, hp.fill ho.pos ?_ hbelow⟩
    intro hpos
    rw [ho.frame.cmp] at hstop
    rw [hord.le_iff]
    by_contra hlt
    exact hstop ⟨hpos, not_le.1 hlt⟩

/-- What the loops on the way down do in one round: the first child moves up. -/
theorem pull_nextIndex (hp : HeapExcept q0.le q.root k q0.elements h) (hhalf : h ≤ q.elements / 2) :
    Open q0 (q.store h (q.root (q.nextIndex h))) (q.nextIndex h) e m ∧
      HeapExcept q0.le (q.store h (q.root (q.nextIndex h))).root k q0.elements (q.nextIndex h) := by
  obtain ⟨hle, hchild, hmin⟩ := nextIndex_spec (ho.frame.ordered hord) hhalf
  rw [ho.frame.elements, ho.frame.le] at hmin
  rw [ho.frame.elements] at hle
  have hpos := ho.pos
  exact ⟨ho.move (by omega) hle (by omega), hp.pull_child hpos hle hchild hmin⟩

/-- **The loop of `_downheap`** closes a hole whose parent comes before the element. -/
theorem downheapLoop_spec
    (hp : HeapExcept q0.le q.root k q0.elements h) (habove : k ≤ h / 2 → q0.le (q.root (h / 2)) e) :
    Closed q0 (downheapLoop q e h) m ∧ HeapFrom q0.le (downheapLoop q e h).root k q0.elements := by
  fun_induction downheapLoop q e h with
  | case1 q h hin hstop =>
    exact ⟨ho.close, hp.fill ho.pos habove (le_children hord ho.frame hin.2 hstop)⟩
  | case2 q h hin hgo ih =>
    obtain ⟨ho', hp'⟩ := pull_nextIndex hord ho hp hin.2
    refine ih ho' hp' ?_
    intro _
    rw [(nextIndex_spec (ho.frame.ordered hord) hin.2).2.1, store_root, update_self]
    rw [ho.frame.cmp] at hgo
    exact (not_le.1 hgo).le
  | case3 q h hout =>
    refine ⟨ho.close, hp.fill ho.pos habove ?_⟩
    intro i hi hih
    have hpos := ho.pos
    rw [ho.frame.elements] at hout
    omega

/-- **The loop of `queue_replace`** ends with a hole whose children come after the element: in the
first round since it has been compared, and later since the hole is a leaf. -/
theorem replaceLoop_spec (first : Bool) (hp : HeapExcept q0.le q.root 1 q0.elements h) :
    Open q0 (replaceLoop q e h first).1 (replaceLoop q e h first).2 e m ∧
      HeapExcept q0.le (replaceLoop q e h first).1.root 1 q0.elements (replaceLoop q e h first).2 ∧
      ∀ i, i ≤ q0.elements → i / 2 = (replaceLoop q e h first).2 →
        q0.le e ((replaceLoop q e h first).1.root i) := by
  fun_induction replaceLoop q e h first with
  | case1 q h first hin hstop =>
    refine ⟨ho.store_hole, hp.update_hole ho.pos e, ?_⟩
    intro i hi hih
    have hpos := ho.pos
    rw [store_root, update_of_ne (by omega)]
    exact le_children hord ho.frame hin.2 hstop.2 i hi hih
  | case2 q h first hin hgo ih =>
    obtain ⟨ho', hp'⟩ := pull_nextIndex hord ho hp hin.2
    exact ih ho' hp'
  | case3 q h first hout =>
    refine ⟨ho, hp, ?_⟩
    intro i hi hih
    have hpos := ho.pos
    rw [ho.frame.elements] at hout
    omega

end

/-! ### The functions -/

/-- **`queue_insert`** adds the element. -/
theorem queueInsert_good (hq : Good c q m) (hroom : q.elements < q.maxElements)
    (hnew : q.offsetToQueuePos ≠ 0 → e ∉ m) : Good c (queueInsert q e) (e ::ₘ m) := by
  set q1 : Queue E K := { q with elements := q.elements + 1 } with hq1
  have hord : Ordered q1 := ⟨hq.ordered.1, hq.ordered.2⟩
  have hopen : Open q1 q1 (q.elements + 1) e (e ::ₘ m) :=
    { frame := rfl
      pos := by omega
      le := le_rfl
      elems := by
        rw [contents_succ, update_self, ← hq.elems]
        congr 1
        refine contents_congr fun i _ hi => ?_
        rw [update_of_ne (by omega)]
      placed := by
        intro hoff i hi hin hne
        have hin' : i ≤ q.elements := Nat.lt_succ_iff.1 (lt_of_le_of_ne hin hne)
        refine ⟨hq.placed hoff i hi hin', ?_⟩
        rintro rfl
        exact hnew hoff (hq.mem_iff.1 ⟨i, hi, hin', rfl⟩) }
  have hspec := insertAt_spec hord hopen (HeapFrom.open_last hq.heap) (by
    intro i hi hih
    have hi' : i ≤ q.elements + 1 := hi
    omega)
  exact hspec.1.good hq.setup hord hroom hspec.2

/-- **`queue_insert_safe`** adds the element, or returns an error and leaves the queue as it is. -/
theorem queueInsertSafe_good (hq : Good c q m) (memory : Bool)
    (hnew : q.offsetToQueuePos ≠ 0 → e ∉ m) :
    Good { c with maxElements := if q.Extends memory then c.maxElements + q.autoExtent
        else c.maxElements }
      (queueInsertSafe q e memory).1
      (if q.elements = q.maxElements ∧ ¬ q.Extends memory then m else e ::ₘ m) := by
  have hroom := hq.room
  by_cases hfull : q.elements = q.maxElements
  · by_cases hgrow : q.Extends memory
    · obtain ⟨-, hauto, rfl⟩ := id hgrow
      have hresize : resizeQueue q (q.maxElements + q.autoExtent) true =
          ({ q with maxElements := q.maxElements + q.autoExtent }, 0) := by
        simp [resizeQueue, hauto, hroom.trans (Nat.le_add_right _ _)]
      have hmax : c.maxElements = q.maxElements := by rw [← hq.setup, Queue.setup]
      rw [if_pos hgrow, if_neg fun h => h.2 hgrow, queueInsertSafe, if_pos hfull, if_neg hauto,
        hresize]
      refine queueInsert_good ⟨?_, ⟨hq.ordered.1, hq.ordered.2⟩, Nat.le_add_right_of_le hroom,
        hq.heap, hq.elems, hq.placed⟩ ?_ hnew
      · rw [hmax, ← hq.setup]
        rfl
      · show q.elements < q.maxElements + q.autoExtent
        omega
    · have hkept : (queueInsertSafe q e memory).1 = q := by
        by_cases hauto : q.autoExtent = 0
        · simp [queueInsertSafe, hfull, hauto]
        · have hno : memory = false := by simpa [Queue.Extends, hfull, hauto] using hgrow
          simp [queueInsertSafe, hfull, hauto, hno, resizeQueue]
      simpa [hfull, hgrow, hkept] using hq
  · simpa [queueInsertSafe, Queue.Extends, hfull] using queueInsert_good hq (by omega) hnew

/-- **`queue_replace`** restores the heap when the order holds but at `idx`. -/
theorem queueReplace_spec (hord : Ordered q) (ho : Open q q h (q.root h) m)
    (hp : HeapExcept q.le q.root 1 q.elements h) :
    Closed q (queueReplace q h) m ∧ Heap q.le (queueReplace q h).root q.elements := by
  obtain ⟨ho', hp', hbelow⟩ := replaceLoop_spec hord ho true hp
  exact insertAt_spec hord ho' hp' hbelow

/-- Called for the index behind the heap, `queue_replace` leaves an element alone that comes after
its parent. -/
theorem queueReplace_past (hh : q.elements < h)
    (habove : 1 ≤ h / 2 → 0 ≤ q.cmp (q.root h) (q.root (h / 2))) :
    queueReplace q h = q.store h (q.root h) := by
  have hloop : replaceLoop q (q.root h) h true = (q, h) := by
    rw [replaceLoop, if_neg (by omega)]
  rw [queueReplace, hloop]
  show insertAt q (q.root h) h = _
  rw [insertAt, if_neg]
  rintro ⟨hpos, hlt⟩
  exact absurd (habove hpos) (not_le.2 hlt)

/-- **`queue_remove`** takes out the element at `idx`, and returns it. -/
theorem queueRemove_good (hq : Good c q m) (h1 : 1 ≤ h) (hn : h ≤ q.elements) :
    ∃ m', Good c (queueRemove q h).1 m' ∧ m = (queueRemove q h).2 ::ₘ m' := by
  obtain ⟨n, hn'⟩ : ∃ n, q.elements = n + 1 := ⟨q.elements - 1, by omega⟩
  have hroom := hq.room
  set q1 : Queue E K := { q with root := update q.root h (q.root q.elements), elements := n }
    with hq1
  have hord : Ordered q1 := ⟨hq.ordered.1, hq.ordered.2⟩
  have hcall : (queueRemove q h).1 = queueReplace q1 h := by
    simp [queueRemove, hq1, hn']
  -- the last element fills the place of the one removed
  have helems : m = q.root h ::ₘ contents q1.root n := by
    have hupd := contents_update q.root h1 hn (q.root q.elements)
    rw [hq.elems, hn', contents_succ] at hupd
    have hlast : update q.root h (q.root (n + 1)) (n + 1) = q.root (n + 1) := by
      by_cases hne : n + 1 = h
      · rw [hne, update_self]
      · rw [update_of_ne hne]
    rw [hlast, Multiset.cons_swap] at hupd
    have hm := (Multiset.cons_inj_right _).1 hupd
    rw [hq1, ← hm, hn']
  have hheap : Heap q1.le q.root n := HeapFrom.mono hq.heap (by omega)
  refine ⟨contents q1.root n, ?_, helems⟩
  rw [hcall]
  rcases Nat.lt_or_ge n h with hpast | hin
  · -- the element removed was the last one
    have hlast : h = n + 1 := by omega
    have hroot : q1.root = q.root := by
      simp only [hq1, hn', ← hlast, update_eq_self]
    have habove : 1 ≤ h / 2 → 0 ≤ q1.cmp (q1.root h) (q1.root (h / 2)) := by
      intro hpos
      rw [hroot]
      exact hq.ordered.le_iff.1 (hq.heap h (by omega) hpos)
    rw [queueReplace_past hpast habove]
    refine ⟨hq.setup, ⟨hord.compare, hord.maxAtTop⟩, by show n ≤ q.maxElements; omega, ?_, ?_, ?_⟩
    · rw [store_root, hroot, update_eq_self]
      exact hheap
    · rw [store_root, hroot, update_eq_self]
      rfl
    intro hoff i hi hin
    have hin' : i ≤ n := hin
    have hoff' : q1.offsetToQueuePos ≠ 0 := hoff
    rw [store_root, store_queuePos hoff', hroot, update_eq_self, update_of_ne]
    · exact hq.placed hoff i hi (by omega)
    · exact hq.placed.root_ne hoff hi (by omega) h1 hn (by omega)
  · have hlastroot : q1.root h = q.root q.elements := update_self _ _ _
    have hopen : Open q1 q1 h (q1.root h) (contents q1.root n) := by
      refine .of_array h1 hin fun hoff i hi hin' hne => ?_
      have hi' : i ≤ n := hin'
      have hroot : q1.root i = q.root i := update_of_ne hne _ _
      rw [hlastroot, hroot]
      exact ⟨hq.placed hoff i hi (by omega),
        hq.placed.root_ne hoff hi (by omega) (by omega) le_rfl (by omega)⟩
    have htrans := hord.isTrans
    have hexc : HeapExcept q1.le q1.root 1 n h := (HeapFrom.open hheap h1).update_hole h1 _
    have hspec := queueReplace_spec hord hopen hexc
    exact hspec.1.good hq.setup hord (by show n ≤ q.maxElements; omega) hspec.2

/-- The queue after the key of an element was changed to `x`. -/
def Queue.setKey (q : Queue E K) (element : E) (x : K) : Queue E K :=
  { q with key := update q.key element x }

theorem setKey_le {x y : E} (hx : x ≠ e) (hy : y ≠ e) (key : K) (hle : q.le x y) :
    (q.setKey e key).le x y := by
  simpa only [Queue.le, Queue.cmp, Queue.setKey, update_of_ne hx, update_of_ne hy] using hle

/-- **`queue_replace`** after the key at `idx` was changed. -/
theorem queueReplace_good (hq : Good c q m) (h1 : 1 ≤ h) (hn : h ≤ q.elements)
    (honly : ∀ i, 1 ≤ i → i ≤ q.elements → q.root i = q.root h → i = h) (x : K) :
    Good c (queueReplace (q.setKey (q.root h) x) h) m := by
  set q1 := q.setKey (q.root h) x with hq1
  have hord : Ordered q1 := ⟨hq.ordered.1, hq.ordered.2⟩
  have htrans := hq.ordered.isTrans
  -- the keys of all others are as they were
  have hother : ∀ i, 1 ≤ i → i ≤ q.elements → i ≠ h → q.root i ≠ q.root h :=
    fun i hi hin hne heq => hne (honly i hi hin heq)
  have hopen : Open q1 q1 h (q1.root h) m := by
    rw [← hq.elems]
    exact .of_array h1 hn fun hoff i hi hin hne => ⟨hq.placed hoff i hi hin, hother i hi hin hne⟩
  have hold := HeapFrom.open hq.heap h1
  have hexc : HeapExcept q1.le q1.root 1 q.elements h :=
    { edge := fun i hi hk hne hne' => setKey_le (hother _ hk (by omega) hne')
        (hother i (by omega) hi hne) x (hold.edge i hi hk hne hne')
      skip := fun i hi hih hk => setKey_le (hother _ hk (by omega) (by omega))
        (hother i (by omega) hi (by omega)) x (hold.skip i hi hih hk) }
  have hspec := queueReplace_spec hord hopen hexc
  exact hspec.1.good hq.setup hord hq.room hspec.2

/-- `_downheap` extends the part that is a heap by the element at `idx`. -/
theorem downheap_spec (hord : Ordered q) (hplaced : Placed q) (h1 : 1 ≤ h) (hn : h ≤ q.elements)
    (hp : HeapFrom q.le q.root (h + 1) q.elements) :
    Closed q (downheap q h) (contents q.root q.elements) ∧
      HeapFrom q.le (downheap q h).root h q.elements := by
  refine downheapLoop_spec hord ?_ (hp.open_pred h1) (by omega)
  exact .of_array h1 hn fun hoff i hi hin hne =>
    ⟨hplaced hoff i hi hin, hplaced.root_ne hoff hi hin h1 hn hne⟩

theorem queueFixLoop_spec (hord : Ordered q) (i : ℕ) (hi : i ≤ q.elements)
    (hplaced : Placed q) (hp : HeapFrom q.le q.root (i + 1) q.elements) :
    Closed q (queueFixLoop q i) (contents q.root q.elements) ∧
      Heap q.le (queueFixLoop q i).root q.elements := by
  induction i generalizing q with
  | zero => exact ⟨⟨rfl, rfl, hplaced⟩, hp⟩
  | succ i ih =>
    obtain ⟨hc, hheap⟩ := downheap_spec hord hplaced (by omega) hi hp
    obtain ⟨hc', hheap'⟩ := ih (hc.frame.ordered hord)
      (by rw [hc.frame.elements]; omega) hc.placed
      (by rw [hc.frame.le, hc.frame.elements]; exact hheap)
    rw [hc.frame.le, hc.frame.elements] at hheap'
    rw [hc.frame.elements, hc.elems] at hc'
    have helems := hc'.elems
    rw [hc.frame.elements] at helems
    exact ⟨⟨hc.frame.trans hc'.frame, helems, hc'.placed⟩, hheap'⟩

/-- **`queue_fix`** makes a heap whatever the keys are. -/
theorem queueFix_good (hq : Good c q m) (key : E → K) : Good c (queueFix { q with key := key }) m := by
  set q1 : Queue E K := { q with key := key } with hq1
  have hord : Ordered q1 := ⟨hq.ordered.1, hq.ordered.2⟩
  have hspec := queueFixLoop_spec hord (q1.elements / 2) (Nat.div_le_self _ _) hq.placed
    (heapFrom_half _ _ _)
  have helems : contents q1.root q1.elements = m := hq.elems
  rw [helems] at hspec
  exact hspec.1.good hq.setup hord hq.room hspec.2

/-- Changing the key of an element that is not in the queue. -/
theorem setKey_good (hq : Good c q m) (hout : e ∉ m) (x : K) : Good c (q.setKey e x) m where
  setup := hq.setup
  ordered := ⟨hq.ordered.1, hq.ordered.2⟩
  room := hq.room
  heap := by
    have hother : ∀ i, 1 ≤ i → i ≤ q.elements → q.root i ≠ e := fun i hi hin heq =>
      hout (hq.mem_iff.1 ⟨i, hi, hin, heq⟩)
    intro i hi hk
    exact setKey_le (hother _ hk ((Nat.div_le_self i 2).trans hi)) (hother i (by omega) hi) x
      (hq.heap i hi hk)
  elems := hq.elems
  placed := hq.placed

/-! ### Runs -/

/-- The calls, with the changes of keys that a caller makes before them. -/
inductive Op (E K : Type*) where
  /-- `queue_insert` -/
  | insert (element : E)
  /-- `queue_insert_safe` -/
  | insertSafe (element : E) (memory : Bool)
  /-- `queue_remove` -/
  | remove (idx : ℕ)
  /-- the key at `idx` is changed, then `queue_replace` -/
  | replace (idx : ℕ) (key : K)
  /-- any keys are changed, then `queue_fix` -/
  | fix (key : E → K)
  /-- `resize_queue` -/
  | resize (maxElements : ℕ) (memory : Bool)
  /-- the key of an element outside of the queue is changed -/
  | setKey (element : E) (key : K)

/-- A queue, and the account of its elements. -/
structure State (E K : Type*) where
  q : Queue E K
  /-- what the calls of insert functions have added -/
  inserted : Multiset E
  /-- what `queue_remove` has returned -/
  removed : Multiset E
  /-- what stood behind a smaller size when it was set -/
  cutOff : Multiset E
  /-- the size that was set last -/
  maxElements : ℕ

/-- A call, and what it has to do by its arguments. -/
def step (s : State E K) : Op E K → State E K
  | .insert element => { s with q := queueInsert s.q element, inserted := element ::ₘ s.inserted }
  | .insertSafe element memory =>
    { s with
      q := (queueInsertSafe s.q element memory).1
      -- a full queue that is not extended takes nothing
      inserted := if s.q.elements = s.q.maxElements ∧ ¬ s.q.Extends memory then s.inserted
        else element ::ₘ s.inserted
      maxElements := if s.q.Extends memory then s.maxElements + s.q.autoExtent
        else s.maxElements }
  | .remove idx =>
    { s with q := (queueRemove s.q idx).1, removed := s.q.root idx ::ₘ s.removed }
  | .replace idx key => { s with q := queueReplace (s.q.setKey (s.q.root idx) key) idx }
  | .fix key => { s with q := queueFix { s.q with key } }
  | .resize maxElements memory =>
    { s with
      q := (resizeQueue s.q maxElements memory).1
      cutOff := s.cutOff +
        if memory then (Finset.Ioc maxElements s.q.elements).val.map s.q.root else 0
      maxElements := if memory then maxElements else s.maxElements }
  | .setKey element key => { s with q := s.q.setKey element key }

/-- What a caller has to observe: the assertions of the source, that a record with a stored
position is in the queue once, and that a change of the key at `idx` changes no other key. -/
def Allowed (q : Queue E K) : Op E K → Prop
  | .insert element =>
    q.elements < q.maxElements ∧ (q.offsetToQueuePos ≠ 0 → ¬ q.Member element)
  | .insertSafe element _ => q.offsetToQueuePos ≠ 0 → ¬ q.Member element
  | .remove idx => 1 ≤ idx ∧ idx ≤ q.elements
  | .replace idx _ =>
    1 ≤ idx ∧ idx ≤ q.elements ∧ ∀ i, 1 ≤ i → i ≤ q.elements → q.root i = q.root idx → i = idx
  | .fix _ => True
  | .resize _ _ => True
  | .setKey element _ => ¬ q.Member element

def run (s : State E K) (ops : List (Op E K)) : State E K := ops.foldl step s

/-- Every call of a run is allowed when it is made. -/
def AllowedRun : State E K → List (Op E K) → Prop
  | _, [] => True
  | s, op :: ops => Allowed s.q op ∧ AllowedRun (step s op) ops

/-- A queue after `init_queue`, with an empty account. -/
def start (q : Queue E K) : State E K := ⟨q, 0, 0, 0, q.maxElements⟩

/-- A proper queue of the elements that went in and did not go out, of the size that was set. -/
def Inv (c : Setup K) (s : State E K) : Prop :=
  ∃ m, Good { c with maxElements := s.maxElements } s.q m ∧
    m + s.removed + s.cutOff = s.inserted

theorem step_inv {s : State E K} (hs : Inv c s) {op : Op E K} (hop : Allowed s.q op) :
    Inv c (step s op) := by
  obtain ⟨m, hq, hsum⟩ := hs
  cases op with
  | insert element =>
    refine ⟨_, queueInsert_good hq hop.1 (fun hoff => mt hq.mem_iff.2 (hop.2 hoff)), ?_⟩
    simp only [step]
    rw [← hsum]
    simp
  | insertSafe element memory =>
    refine ⟨_, queueInsertSafe_good hq memory (fun hoff => mt hq.mem_iff.2 (hop hoff)), ?_⟩
    simp only [step]
    rw [← hsum]
    split <;> simp
  | remove idx =>
    obtain ⟨m', hq', hm⟩ := queueRemove_good hq hop.1 hop.2
    refine ⟨m', hq', ?_⟩
    simp only [step]
    rw [← hsum, hm]
    simp [queueRemove]
  | replace idx key => exact ⟨m, queueReplace_good hq hop.1 hop.2.1 hop.2.2 key, hsum⟩
  | fix key => exact ⟨m, queueFix_good hq key, hsum⟩
  | resize maxElements memory =>
    obtain ⟨m', hq', hm⟩ := resizeQueue_good hq maxElements memory
    refine ⟨m', hq', ?_⟩
    simp only [step]
    rw [← hsum, hm]
    abel
  | setKey element key =>
    exact ⟨m, setKey_good hq (mt hq.mem_iff.2 hop) key, hsum⟩

theorem run_inv {s : State E K} (hs : Inv c s) (ops : List (Op E K)) (hops : AllowedRun s ops) :
    Inv c (run s ops) := by
  induction ops generalizing s with
  | nil => exact hs
  | cons op ops ih => exact ih (step_inv hs hops.1) hops.2

omit [DecidableEq E] in
theorem inv_start (root : ℕ → E) (key : E → K) (queuePos : E → ℕ) (maxElements : ℕ)
    (maxAtTop : Bool) {compare : K → K → Int32}
    (hcompare : TotalOrder fun x y => (compare x y).toInt)
    (hmin : maxAtTop → ∀ x y, compare x y ≠ Int32.minValue) (offsetToQueuePos autoExtent : ℕ) :
    Inv ⟨compare, if maxAtTop then -1 else 1, offsetToQueuePos, maxElements⟩
      (start (initQueue root key queuePos maxElements maxAtTop compare offsetToQueuePos
        autoExtent)) := by
  refine ⟨0, ⟨rfl, ⟨hcompare, ?_⟩, Nat.zero_le _, ?_, contents_zero _, ?_⟩, rfl⟩
  · cases maxAtTop with
    | false => exact .inl rfl
    | true => exact .inr ⟨rfl, hmin rfl⟩
  · intro i hi hk
    have hi' : i ≤ 0 := hi
    omega
  · intro _ i hi hin
    have hi' : i ≤ 0 := hin
    omega

/-- **The priority queue.**  After any run of allowed calls the array is a heap, its elements are
those inserted but for those removed and cut off, within the size that was set last, the first one
is least, or greatest with `max_at_top`, and the stored position of every element is its index. -/
theorem run_queue (root : ℕ → E) (key : E → K) (queuePos : E → ℕ) (maxElements : ℕ)
    (maxAtTop : Bool) (compare : K → K → Int32)
    (hcompare : TotalOrder fun x y => (compare x y).toInt)
    (hmin : maxAtTop → ∀ x y, compare x y ≠ Int32.minValue)
    (offsetToQueuePos autoExtent : ℕ) (ops : List (Op E K))
    (hops : AllowedRun (start (initQueue root key queuePos maxElements maxAtTop compare
      offsetToQueuePos autoExtent)) ops) :
    let s := run (start (initQueue root key queuePos maxElements maxAtTop compare
      offsetToQueuePos autoExtent)) ops
    let before x y := if maxAtTop then 0 ≤ (compare (s.q.key x) (s.q.key y)).toInt
      else (compare (s.q.key x) (s.q.key y)).toInt ≤ 0
    (∀ i, 2 ≤ i → i ≤ s.q.elements → before (s.q.root (i / 2)) (s.q.root i)) ∧
    (Multiset.map s.q.root (Finset.Icc 1 s.q.elements).val + s.removed + s.cutOff = s.inserted) ∧
    (s.q.elements ≤ s.q.maxElements ∧ s.q.maxElements = s.maxElements) ∧
    (∀ i, 1 ≤ i → i ≤ s.q.elements → before (s.q.root 1) (s.q.root i)) ∧
    (offsetToQueuePos ≠ 0 → ∀ i, 1 ≤ i → i ≤ s.q.elements → s.q.queuePos (s.q.root i) = i) := by
  intro s before
  obtain ⟨m, hq, hsum⟩ := run_inv (inv_start root key queuePos maxElements maxAtTop hcompare hmin
    offsetToQueuePos autoExtent) ops hops
  have hrefl := hq.ordered.refl
  have htrans := hq.ordered.isTrans
  obtain ⟨hcmp, hmax, hoff, hsize⟩ := Setup.mk.inj hq.setup
  have hle : ∀ x y, s.q.le x y → before x y := by
    intro x y hxy
    unfold Queue.le Queue.cmp at hxy
    rw [hcmp, hmax] at hxy
    cases maxAtTop with
    | false => simpa [before] using hxy
    | true =>
      rw [if_pos rfl, toInt_mul_neg_one (hmin rfl _ _)] at hxy
      simpa [before] using hxy
  refine ⟨?_, ?_, ⟨hq.room, hsize⟩, ?_, ?_⟩
  · intro i hi hin
    exact hle _ _ (hq.heap i hin (by omega))
  · rw [← hsum, ← hq.elems]
    rfl
  · intro i hi hin
    exact hle _ _ (hq.heap.le_of_top i hi hin)
  · intro hne
    exact hq.placed (by rwa [hoff])

/-- The difference of two keys, as compare functions of single bytes return it. -/
def difference (x y : Fin 8) : Int32 := Int32.ofNat x - Int32.ofNat y

theorem totalOrder_difference : TotalOrder fun x y => (difference x y).toInt :=
  ⟨by decide +kernel, by decide +kernel⟩

theorem difference_ne_minValue : ∀ x y, difference x y ≠ Int32.minValue := by decide +kernel

/-- An empty queue of numbers that are their own keys, the greatest at the top, with stored
positions. -/
def sampleQueue : Queue (Fin 8) (Fin 8) :=
  initQueue (fun _ => 0) id (fun _ => 0) 2 true difference 1 2

/-- The queue is extended for the third record, its top sinks, the element at 2 is removed, and the
size becomes 2. -/
def sampleOps : List (Op (Fin 8) (Fin 8)) :=
  [.insert 5, .insert 3, .insertSafe 7 true, .insert 6, .replace 1 4, .remove 2, .resize 2 true]

theorem sampleOps_result :
    let s := run (start sampleQueue) sampleOps
    AllowedRun (start sampleQueue) sampleOps ∧ s.q.elements = 2 ∧
      s.removed = {7} ∧ s.cutOff = {5} ∧ s.inserted = {6, 7, 3, 5} := by
  have hIoc : Finset.Ioc 2 3 = {3} := rfl
  simp [sampleOps, sampleQueue, AllowedRun, Allowed, run, step, start, initQueue, queueInsert,
    queueInsertSafe, Queue.Extends, resizeQueue, queueReplace, queueRemove, replaceLoop, insertAt,
    Queue.store, Queue.cmp, Queue.setKey, Queue.nextIndex, Queue.Member, Function.update_apply,
    difference, hIoc]
  refine ⟨?_, ?_, ?_, ?_⟩ <;>
  · intro i h1 hi
    interval_cases i <;> decide

theorem run_queue_sampleOps :
    let s := run (start sampleQueue) sampleOps
    s.q.elements = 2 ∧ s.q.maxElements = 2 ∧
      (∀ i, 1 ≤ i → i ≤ 2 → s.q.queuePos (s.q.root i) = i) ∧
      0 ≤ (difference (s.q.key (s.q.root 1)) (s.q.key (s.q.root 2))).toInt := by
  obtain ⟨hallowed, helements, -⟩ := sampleOps_result
  obtain ⟨hheap, -, ⟨-, hmax⟩, -, hpos⟩ := run_queue (fun _ => 0) id (fun _ => 0) 2 true difference
    totalOrder_difference (fun _ => difference_ne_minValue) 1 2 sampleOps hallowed
  rw [sampleQueue] at helements
  rw [helements] at hheap hpos
  exact ⟨helements, hmax, hpos one_ne_zero, hheap 2 le_rfl le_rfl⟩

/-! ### Taking out the tops -/

/-- `queue_remove_top`, so many times: the elements that are taken out. -/
def removeTops (q : Queue E K) : ℕ → List E
  | 0 => []
  | n + 1 => (queueRemove q 1).2 :: removeTops (queueRemove q 1).1 n

theorem insertAt_key : (insertAt q e h).key = q.key := by
  fun_induction insertAt q e h with
  | case1 q h hrise ih => exact ih
  | case2 => rfl

theorem replaceLoop_key (first : Bool) : (replaceLoop q e h first).1.key = q.key := by
  fun_induction replaceLoop q e h first with
  | case1 | case3 => rfl
  | case2 q h first hhalf hdown ih => exact ih

theorem Good.le_queueRemove {m' : Multiset E} (hq : Good c q m)
    (hq' : Good c (queueRemove q h).1 m') : (queueRemove q h).1.le = q.le := by
  have hkey : (queueRemove q h).1.key = q.key := insertAt_key.trans (replaceLoop_key true)
  have hsetup := hq'.setup.trans hq.setup.symm
  simp only [Queue.setup, Setup.mk.injEq] at hsetup
  funext x y
  simp only [Queue.le, Queue.cmp, hkey, hsetup]

omit [DecidableEq E] in
theorem Good.card (hq : Good c q m) : m.card = q.elements := by
  simp [← hq.elems, contents]

theorem Good.removeTops (hq : Good c q m) :
    (removeTops q q.elements).Pairwise q.le ∧ (removeTops q q.elements : Multiset E) = m := by
  generalize hn : q.elements = n
  induction n generalizing q m with
  | zero =>
    have hm := hq.card
    rw [hn, Multiset.card_eq_zero] at hm
    simp [Queues.removeTops, hm]
  | succ n ih =>
    obtain ⟨m', hq', rfl⟩ := queueRemove_good hq le_rfl (by omega)
    have hcard := hq.card
    rw [Multiset.card_cons, hq'.card, hn, Nat.add_right_cancel_iff] at hcard
    obtain ⟨hsorted, hm⟩ := ih hq' hcard
    rw [hq.le_queueRemove hq'] at hsorted
    refine ⟨.cons (fun y hy => ?_) hsorted, by rw [Queues.removeTops, ← Multiset.cons_coe, hm]⟩
    -- the one that leaves first was at the top
    rw [← Multiset.mem_coe, hm] at hy
    obtain ⟨i, h1, hi, rfl⟩ := hq.mem_iff.2 (Multiset.mem_cons_of_mem hy)
    have hrefl := hq.ordered.refl
    have htrans := hq.ordered.isTrans
    exact hq.heap.le_of_top i h1 hi

/-- **The elements leave the queue in its order**: all that went in and did not go out before. -/
theorem removeTops_sorted {s : State E K} (hs : Inv c s) :
    (removeTops s.q s.q.elements).Pairwise s.q.le ∧
      (removeTops s.q s.q.elements : Multiset E) + s.removed + s.cutOff = s.inserted := by
  obtain ⟨m, hq, hsum⟩ := hs
  have htops := hq.removeTops
  exact ⟨htops.1, by rw [htops.2, hsum]⟩

theorem removeTops_sorted_sampleOps :
    let s := run (start sampleQueue) sampleOps
    s.q.elements = 2 ∧ (removeTops s.q 2).Pairwise s.q.le ∧
      (removeTops s.q 2 : Multiset (Fin 8)) + {7} + {5} = {6, 7, 3, 5} := by
  obtain ⟨hallowed, helements, hremoved, hcut, hinserted⟩ := sampleOps_result
  have htops := removeTops_sorted (s := run (start sampleQueue) sampleOps)
    (run_inv (inv_start _ _ _ _ _ totalOrder_difference (fun _ => difference_ne_minValue) _ _)
      sampleOps hallowed)
  rw [helements, hremoved, hcut, hinserted] at htops
  exact ⟨helements, htops⟩

end Queues
