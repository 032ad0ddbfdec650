/-
**The interval trees of the range optimizer.**

A model of `SEL_ARG::insert`, `SEL_ARG::tree_delete` and `test_rb_tree` in `sql/opt_range.cc`.  The
intervals of one key part are the nodes of a red-black tree with parent pointers and, in the same
order, of a doubly linked list.  The number of the nodes and the weight are kept at the root, and a
function that changes the root takes them along.

The link `.root` of the heap is the variable `root` of the functions.  `null_element` is `none`, as is
a null pointer; a function that goes on from one of them has no result.  The left and the right
variants of the repairs are the same code with the sides exchanged.  `use_count` and `maybe_flag`,
which the functions only pass on, are left out.

Main definitions:

* `Mem`: the nodes;
* `insert`, `treeDelete`: with `rbInsert`, `rbDeleteFixup`;
* `testRbTree`: `test_rb_tree`.
-/

import MariaDb.ParentTree
import MariaDb.SelArg
import MariaDb.ThreadedList

set_option autoImplicit false

namespace SelArg

open RedBlack (Color Side Link UpHeap)
open ThreadedList (set)
open Function

/-- The nodes: the links of the tree and of the list, and the data of each node. -/
structure Mem (V : Type*) where
  heap : UpHeap
  next : ℕ → Option ℕ
  prev : ℕ → Option ℕ
  arg : ℕ → Interval V
  part : ℕ → ℕ
  nextKeyPart : ℕ → Option ℕ
  elements : ℕ → UInt32
  weight : ℕ → UInt32

variable {V : Type*}

variable (mem : Mem V) (heap : UpHeap)

/-- `key->next_key_part ? key->next_key_part->weight : 0`. -/
def Mem.partWeight (key : ℕ) : UInt32 :=
  match mem.nextKeyPart key with
  | none => 0
  | some root => mem.weight root

/-- `x->color=BLACK`; `null_element` is black. -/
def blacken : Option ℕ → UpHeap
  | none => heap
  | some x => heap.setColor x .black

/-! ### The repairs -/

def leftRotate (leaf : ℕ) : Option UpHeap := heap.rotate .left leaf

def rightRotate (leaf : ℕ) : Option UpHeap := heap.rotate .right leaf

def rotateTo : Side → UpHeap → ℕ → Option UpHeap
  | .left => leftRotate
  | .right => rightRotate

/-- The side on which `par` has `x`: the test `x == par->left`. -/
def sideOf (x : Option ℕ) (par : ℕ) : Side :=
  if heap.link (.child .left par) = x then .left else .right

/-- What `rb_insert` does if the other child of `par2` is black; `par` is on the side `s` of it. -/
def insertRotations (leaf par par2 : ℕ) (s : Side) : Option UpHeap :=
  (if heap.link (.child s.other par) = some leaf then
    (rotateTo s heap par).map fun heap => (heap, leaf)
  else some (heap, par)).bind fun (heap, par) =>
    rotateTo s.other ((heap.setColor par .black).setColor par2 .red) par2

def rbInsertLoop : ℕ → UpHeap → ℕ → Option UpHeap
  | 0, _, _ => none
  | fuel + 1, heap, leaf =>
    if heap.link .root = some leaf then some heap
    else
      (heap.parent leaf).bind fun par =>
        if heap.color par = .black then some heap
        else
          (heap.parent par).bind fun par2 =>
            let s := sideOf heap (some par) par2
            match heap.link (.child s.other par2) with
            | none => insertRotations heap leaf par par2 s
            | some y =>
              if heap.color y = .red then
                rbInsertLoop fuel (((heap.setColor par .black).setColor y .black).setColor par2
                  .red) par2
              else insertRotations heap leaf par par2 s

def rbInsert (fuel : ℕ) (heap : UpHeap) (this leaf : ℕ) : Option UpHeap :=
  let heap := (heap.write .root (some this)).setParent (some this) none
  (rbInsertLoop fuel (heap.setColor leaf .red) leaf).map fun heap =>
    blacken heap (heap.link .root)

/-- The part of the loop of `rb_delete_fixup` for a red sibling `w`: returns the sibling after it. -/
def redSibling (par w : ℕ) (s : Side) : Option (UpHeap × ℕ) :=
  if heap.color w = .red then
    (rotateTo s ((heap.setColor w .black).setColor par .red) par).bind fun heap =>
      (heap.link (.child s.other par)).map fun w => (heap, w)
  else some (heap, w)

/-- The part of the loop for a sibling with a red child: the loop ends with it. -/
def redNephew (par w : ℕ) (s : Side) : Option UpHeap :=
  (if heap.colorOf (heap.link (.child s.other w)) = .black then
    (rotateTo s.other ((blacken heap (heap.link (.child s w))).setColor w .red) w).bind fun heap =>
      (heap.link (.child s.other par)).map fun w => (heap, w)
  else some (heap, w)).bind fun (heap, w) =>
    let heap := (heap.setColor w (heap.color par)).setColor par .black
    rotateTo s (blacken heap (heap.link (.child s.other w))) par

/-- The loop of `rb_delete_fixup`: returns `x` after the loop. -/
def rbDeleteFixupLoop : ℕ → UpHeap → Option ℕ → Option ℕ → Option (UpHeap × Option ℕ)
  | 0, _, _, _ => none
  | fuel + 1, heap, x, par =>
    if heap.link .root ≠ x ∧ heap.colorOf x = .black then
      par.bind fun par =>
        let s := sideOf heap x par
        (heap.link (.child s.other par)).bind fun w =>
          (redSibling heap par w s).bind fun (heap, w) =>
            if heap.colorOf (heap.link (.child s w)) = .black ∧
                heap.colorOf (heap.link (.child s.other w)) = .black then
              rbDeleteFixupLoop fuel (heap.setColor w .red) (some par) (heap.parent par)
            else (redNephew heap par w s).map fun heap => (heap, heap.link .root)
    else some (heap, x)

def rbDeleteFixup (fuel : ℕ) (heap : UpHeap) (key par : Option ℕ) : Option UpHeap :=
  (heap.link .root).bind fun root =>
    (rbDeleteFixupLoop fuel (heap.setParent (some root) none) key par).map fun (heap, x) =>
      blacken heap x

/-! ### Insert and delete -/

/-- The way down of `SEL_ARG::insert`: the last element, and the side on which `key` comes. -/
def insertPlace (field : Field V) (mem : Mem V) (key : ℕ) : ℕ → ℕ → Option (ℕ × Side)
  | 0, _ => none
  | fuel + 1, element =>
    let s : Side :=
      if 0 < (mem.arg key).cmpMinToMin field (mem.arg element) then .right else .left
    match mem.heap.link (.child s element) with
    | none => some (element, s)
    | some element => insertPlace field mem key fuel element

/-- The part "Link in list" of `SEL_ARG::insert`. -/
def linkInList (lastElement key : ℕ) : Side → Mem V
  | .left =>
    let next := update mem.next key (some lastElement)
    let prev := update mem.prev key (mem.prev lastElement)
    let next := set next (prev key) (some key)
    { mem with next, prev := update prev lastElement (some key) }
  | .right =>
    let next := update mem.next key (mem.next lastElement)
    let prev := set mem.prev (next key) (some key)
    let prev := update prev key (some lastElement)
    { mem with next := update next lastElement (some key), prev }

/-- `SEL_ARG::insert`: returns the root. -/
def insert (field : Field V) (fuel : ℕ) (mem : Mem V) (this key : ℕ) : Option (Mem V × ℕ) :=
  (insertPlace field mem key fuel this).bind fun (lastElement, s) =>
    let heap := (mem.heap.write (.child s lastElement) (some key)).setParent (some key)
      (some lastElement)
    let mem := linkInList mem lastElement key s
    let heap := (heap.write (.child .left key) none).write (.child .right key) none
    (rbInsert fuel heap this key).bind fun heap =>
      (heap.link .root).map fun root =>
        ({ mem with
            heap
            elements := update mem.elements root (mem.elements this + 1)
            weight := update mem.weight root (mem.weight this + 1 + mem.partWeight key) }, root)

/-- The node is taken out of the tree: returns `nod`, `fix_par` and `remove_color`. -/
def unlinkNode (next : ℕ → Option ℕ) (key : ℕ) : Option (UpHeap × Option ℕ × Option ℕ × Color) :=
  let par := heap.parentPtr key
  match heap.link (.child .left key), heap.link (.child .right key) with
  | none, nod =>
    let fixPar := heap.parent key
    some ((heap.write par nod).setParent nod fixPar, nod, fixPar, heap.color key)
  | nod, none =>
    let fixPar := heap.parent key
    some ((heap.write par nod).setParent nod fixPar, nod, fixPar, heap.color key)
  | some _, some _ =>
    (next key).map fun tmp =>
      let nod := heap.link (.child .right tmp)
      let heap := heap.write (heap.parentPtr tmp) nod
      let fixPar := heap.parent tmp
      let heap := heap.setParent nod fixPar
      let removeColor := heap.color tmp
      let heap := heap.setParent (some tmp) (heap.parent key)
      let left := heap.link (.child .left key)
      let heap := (heap.write (.child .left tmp) left).setParent left (some tmp)
      let right := heap.link (.child .right key)
      let heap := (heap.write (.child .right tmp) right).setParent right (some tmp)
      let heap := heap.setColor tmp (heap.color key)
      let heap := heap.write par (some tmp)
      (heap, nod, if fixPar = some key then some tmp else fixPar, removeColor)

/-- `SEL_ARG::tree_delete`: returns the root, or `none` inside for 0. -/
def treeDelete (fuel : ℕ) (mem : Mem V) (this key : ℕ) : Option (Mem V × Option ℕ) :=
  let heap := (mem.heap.write .root (some this)).setParent (some this) none
  let newWeight := mem.weight this - (1 + mem.partWeight key)
  let next := set mem.next (mem.prev key) (mem.next key)
  let prev := set mem.prev (next key) (mem.prev key)
  (unlinkNode heap next key).bind fun (heap, nod, fixPar, removeColor) =>
    match heap.link .root with
    | none => some ({ mem with heap, next, prev }, none)
    | some _ =>
      (if removeColor = .black then rbDeleteFixup fuel heap nod fixPar else some heap).bind
        fun heap =>
          (heap.link .root).map fun root =>
            ({ mem with
                heap, next, prev
                elements := update mem.elements root (mem.elements this - 1)
                weight := update mem.weight root newWeight }, some root)

/-! ### The test -/

/-- `test_rb_tree`: the number of black nodes on every way down, or -1. -/
def testRbTree (heap : UpHeap) : ℕ → Option ℕ → Option ℕ → Option ℤ
  | _, none, _ => some 0
  | 0, some _, _ => none
  | fuel + 1, some element, parent =>
    let left := heap.link (.child .left element)
    let right := heap.link (.child .right element)
    if heap.parent element ≠ parent then some (-1)
    else if heap.color element = .red ∧
        (heap.colorOf left = .red ∨ heap.colorOf right = .red) then some (-1)
    else if left = right ∧ left ≠ none then some (-1)
    else
      (testRbTree heap fuel left (some element)).bind fun countL =>
        (testRbTree heap fuel right (some element)).map fun countR =>
          if 0 ≤ countL ∧ 0 ≤ countR then
            if countL = countR then countL + if heap.color element = .black then 1 else 0
            else -1
          else -1

end SelArg
