/-
**The binary trees of mysys.**

A model of `mysys/tree.c`.  A `TREE` has no parent pointers: `tree_insert` and `tree_delete` note
in `tree->parents` the addresses of the links on their way down, and the repairs go back along them.
`null_element` stands for the end of a branch; it is black and has no children, and a function that
goes on from it has no result here, like one that needs more than `MAX_TREE_HEIGHT` entries of
`parents`.  The left and the right variants of the repairs are the same code with the sides
exchanged; they are one definition with the side as a parameter.

The searches write the elements on their way down into an array and answer with a position in it.
What counts of the array is the part up to that position, so a position is the list of its elements,
the last one first.

Main definitions:

* `Tree`: `TREE`, with the elements it has allocated;
* `treeInsert`, `treeDelete`: with `rbInsert`, `rbDeleteFixup`;
* `treeSearchKey`, `treeSearchEdge`, `treeSearchNext`;
* `treeWalk`, `testRbTree`.
-/

import MariaDb.LinkedTree

set_option autoImplicit false

namespace MyTree

open RedBlack (Color Side Link Heap)
open Function

/-- `MAX_TREE_HEIGHT`: the number of entries of `tree->parents`. -/
def maxTreeHeight : ℕ := 64

/-- `sizeof(TREE_ELEMENT)`. -/
def sizeofTreeElement : UInt64 := 24

/-- `TREE`.  The links and colours of the elements are in `heap`, with `tree->root`. -/
structure Tree (K : Type*) where
  heap : Heap
  key : ℕ → K
  /-- a field of 31 bits -/
  count : ℕ → ℕ
  elementsInTree : UInt32
  sizeOfElement : UInt64
  memoryLimit : UInt64
  allocated : UInt64
  withDelete : Bool
  /-- `TREE_NO_DUPS` -/
  noDups : Bool
  /-- `TREE_ONLY_DUPS` -/
  onlyDups : Bool

variable {K : Type*}

/-- `init_tree`: the elements are not allocated yet. -/
def initTree (heap : Heap) (key : ℕ → K) (count : ℕ → ℕ) (sizeOfElement memoryLimit : UInt64)
    (withDelete : Bool) : Tree K :=
  { heap := heap.write .root none, key, count, elementsInTree := 0, sizeOfElement, memoryLimit,
    allocated := 0, withDelete, noDups := false, onlyDups := false }

def resetTree (tree : Tree K) : Tree K :=
  { tree with heap := tree.heap.write .root none, elementsInTree := 0, allocated := 0 }

/-- `*++parent= link`: `parents` is a list, the present entry first. -/
def push (link : Link) (parents : List Link) : Option (List Link) :=
  if parents.length < maxTreeHeight then some (link :: parents) else none

/-- `x->colour=BLACK`; `null_element` is black. -/
def blacken (heap : Heap) : Option ℕ → Heap
  | none => heap
  | some x => heap.setColor x .black

/-! ### The repairs -/

section

variable (heap : Heap) (parents : List Link)

def leftRotate (parent : Link) (leaf : ℕ) : Option Heap :=
  heap.rotate .left parent leaf

def rightRotate (parent : Link) (leaf : ℕ) : Option Heap :=
  heap.rotate .right parent leaf

def rotateTo : Side → Heap → Link → ℕ → Option Heap
  | .left => leftRotate
  | .right => rightRotate

/-- The side on which `par2` has `par`: the test `par == par2->left`. -/
def sideOf (par : Option ℕ) (par2 : ℕ) : Side :=
  if heap.link (.child .left par2) = par then .left else .right

/-- The loop of `rb_insert`; `par` is on the side `s` of `par2`. -/
def rbInsertLoop (heap : Heap) (parents : List Link) (leaf : ℕ) : Option Heap :=
  if heap.link .root = some leaf then some heap
  else
    match parents with
    | _ :: parent1 :: up =>
      match heap.link parent1 with
      | none => some heap
      | some par =>
        if heap.color par = .black then some heap
        else
          match up with
          | [] => none
          | parent2 :: up =>
            (heap.link parent2).bind fun par2 =>
              let s := sideOf heap (some par) par2
              match heap.link (.child s.other par2) with
              | none => rotations heap parent1 parent2 leaf par par2 s
              | some y =>
                if heap.color y = .red then
                  rbInsertLoop (((heap.setColor par .black).setColor y .black).setColor
                    par2 .red) (parent2 :: up) par2
                else rotations heap parent1 parent2 leaf par par2 s
    | _ => none
termination_by parents.length
where
  /-- What is done if the other child of `par2` is black. -/
  rotations (heap : Heap) (parent1 parent2 : Link) (leaf par par2 : ℕ) (s : Side) : Option Heap :=
    (if heap.link (.child s.other par) = some leaf then
      (rotateTo s heap parent1 par).map fun heap => (heap, leaf)
    else some (heap, par)).bind fun (heap, par) =>
      rotateTo s.other ((heap.setColor par .black).setColor par2 .red) parent2 par2

def rbInsert (leaf : ℕ) : Option Heap :=
  (rbInsertLoop (heap.setColor leaf .red) parents leaf).map fun heap =>
    blacken heap (heap.link .root)

/-- The part of the loop of `rb_delete_fixup` for a red sibling `w`: returns the sibling after it. -/
def redSibling (par w : ℕ) (s : Side) : Option (Heap × List Link × ℕ) :=
  if heap.color w = .red then
    match parents with
    | _ :: parent1 :: up =>
      (rotateTo s ((heap.setColor w .black).setColor par .red) parent1 par).bind fun heap =>
        (push (.child s par) (.child s w :: parent1 :: up)).bind fun parents =>
          (heap.link (.child s.other par)).map fun w => (heap, parents, w)
    | _ => none
  else some (heap, parents, w)

/-- The part of the loop for a sibling with a red child: the loop ends with it. -/
def redNephew (par w : ℕ) (s : Side) : Option Heap :=
  (if heap.colorOf (heap.link (.child s.other w)) = .black then
    (rotateTo s.other ((blacken heap (heap.link (.child s w))).setColor w .red)
      (.child s.other par) w).bind fun heap =>
        (heap.link (.child s.other par)).map fun w => (heap, w)
  else some (heap, w)).bind fun (heap, w) =>
    match parents with
    | _ :: parent1 :: _ =>
      let heap := (heap.setColor w (heap.color par)).setColor par .black
      rotateTo s (blacken heap (heap.link (.child s.other w))) parent1 par
    | _ => none

/-- The loop of `rb_delete_fixup`: returns `x` after the loop.  A round without an entry of
`parents` less is the last one but one. -/
def rbDeleteFixupLoop : ℕ → Heap → List Link → Option ℕ → Option (Heap × Option ℕ)
  | 0, _, _, _ => none
  | fuel + 1, heap, parents, x =>
    if heap.link .root ≠ x ∧ heap.colorOf x = .black then
      match parents with
      | _ :: parent1 :: _ =>
        (heap.link parent1).bind fun par =>
          let s := sideOf heap x par
          (heap.link (.child s.other par)).bind fun w =>
            (redSibling heap parents par w s).bind fun (heap, parents, w) =>
              if heap.colorOf (heap.link (.child s w)) = .black ∧
                  heap.colorOf (heap.link (.child s.other w)) = .black then
                rbDeleteFixupLoop fuel (heap.setColor w .red) parents.tail (some par)
              else
                (redNephew heap parents par w s).map fun heap => (heap, heap.link .root)
      | _ => none
    else some (heap, x)

def rbDeleteFixup : Option Heap :=
  (parents.head?.bind fun parent =>
    rbDeleteFixupLoop (maxTreeHeight + 2) heap parents (heap.link parent)).map fun (heap, x) =>
      blacken heap x

/-! ### Insert and delete -/

/-- The way down of `tree_insert` and `tree_delete`: the entries of `parents`, and the element found
or `null_element`.  The number counts the entries that are left. -/
def findPlace (cmp : ℕ → ℤ) (heap : Heap) :
    ℕ → List Link → Option ℕ → Option (List Link × Option ℕ)
  | _, parents, none => some (parents, none)
  | room, parents, some element =>
    if cmp element = 0 then some (parents, some element)
    else
      let link := Link.child (if cmp element < 0 then .right else .left) element
      match room with
      | 0 => none
      | room + 1 => findPlace cmp heap room (link :: parents) (heap.link link)

inductive Inserted where
  | element (a : ℕ)
  | null
  /-- `TREE_ELEMENT_UNIQUE` -/
  | unique
  deriving DecidableEq

/-- `count++`, without a wrap over. -/
def incrementCount (count : ℕ) : ℕ :=
  let count := (count + 1) % 2 ^ 31
  if count = 0 then 2 ^ 31 - 1 else count

/-- `tree_insert`: `memory` is the element that `my_malloc` returns, if it does. -/
def treeInsert (compare : K → K → ℤ) (tree : Tree K) (key : K) (keySize : UInt64)
    (memory : Option ℕ) : Option (Tree K × Inserted) :=
  (findPlace (fun element => compare (tree.key element) key) tree.heap (maxTreeHeight - 1)
      [.root] (tree.heap.link .root)).bind fun (parents, found) =>
    match found with
    | some element =>
      if tree.noDups then some (tree, .null)
      else
        let count := update tree.count element (incrementCount (tree.count element))
        some ({ tree with count }, .element element)
    | none =>
      if tree.onlyDups then some (tree, .unique)
      else
        let allocSize := sizeofTreeElement + keySize + tree.sizeOfElement
        let tree' := { tree with allocated := tree.allocated + allocSize }
        if _full : tree.memoryLimit ≠ 0 ∧ tree.elementsInTree ≠ 0 ∧
            tree.memoryLimit < tree'.allocated then
          treeInsert compare (resetTree tree') key keySize memory
        else
          match memory, parents with
          | some element, parent :: _ =>
            let heap := ((tree.heap.write parent (some element)).write (.child .left element)
              none).write (.child .right element) none
            (rbInsert heap parents element).map fun heap =>
              ({ tree' with
                  heap
                  key := update tree.key element key
                  count := update tree.count element 1
                  elementsInTree := tree.elementsInTree + 1 }, .element element)
          | _, _ => some (tree', .null)
termination_by tree.elementsInTree.toNat
decreasing_by
  simp only [resetTree]
  have hne : tree.elementsInTree.toNat ≠ 0 := fun h0 => _full.2.1 (UInt32.toNat_inj.1 h0)
  have : (0 : UInt32).toNat = 0 := rfl
  omega

/-- The way of `tree_delete` to the next bigger element: the entries of `parents`, and the
element. -/
def leftmost : ℕ → List Link → ℕ → Option (List Link × ℕ)
  | room, parents, nod =>
    match heap.link (.child .left nod) with
    | none => some (parents, nod)
    | some next =>
      match room with
      | 0 => none
      | room + 1 => leftmost room (.child .left nod :: parents) next

/-- The element is unlinked: returns the entries of `parents` for the repair, and the colour that is
missing now. -/
def unlinkElement (element : ℕ) : Option (Heap × List Link × Color) :=
  parents.head?.bind fun parent =>
    match heap.link (.child .left element), heap.link (.child .right element) with
    | none, right => some (heap.write parent right, parents, heap.color element)
    | left, none => some (heap.write parent left, parents, heap.color element)
    | some _, some right =>
      (push (.child .right element) parents).bind fun down =>
        (leftmost heap (maxTreeHeight - down.length) down right).bind fun (down, nod) =>
          down.head?.map fun parent' =>
            let removeColour := heap.color nod
            let heap := heap.write parent' (heap.link (.child .right nod))
            let heap := heap.write parent (some nod)
            -- `org_parent[1]= &nod->right`
            let down := down.take (down.length - parents.length - 1) ++ .child .right nod :: parents
            let heap := heap.write (.child .left nod) (heap.link (.child .left element))
            let heap := heap.write (.child .right nod) (heap.link (.child .right element))
            (heap.setColor nod (heap.color element), down, removeColour)

end

/-- `tree_delete`: the element that is freed, or `none` if it returns 1. -/
def treeDelete (compare : K → K → ℤ) (tree : Tree K) (key : K) (keySize : UInt64) :
    Option (Tree K × Option ℕ) :=
  if !tree.withDelete then some (tree, none)
  else
    (findPlace (fun element => compare (tree.key element) key) tree.heap (maxTreeHeight - 1)
        [.root] (tree.heap.link .root)).bind fun (parents, found) =>
      match found with
      | none => some (tree, none)
      | some element =>
        (unlinkElement tree.heap parents element).bind fun (heap, parents, removeColour) =>
          (if removeColour = .black then rbDeleteFixup heap parents else some heap).map
            fun heap =>
              ({ tree with
                  heap
                  allocated := tree.allocated - (sizeofTreeElement + tree.sizeOfElement + keySize)
                  elementsInTree := tree.elementsInTree - 1 }, some element)

/-! ### Searches -/

/-- `ha_rkey_function`. -/
inductive RkeyFunction where
  | keyExact
  | keyOrNext
  | keyOrPrev
  | afterKey
  | beforeKey
  | prefixFirst
  | prefixLast
  | prefixLastOrPrev
  | mbrContain
  | mbrIntersect
  | mbrWithin
  | mbrDisjoint
  | mbrEqual
  deriving DecidableEq

/-- The positions that `tree_search_key` notes on its way. -/
structure Steps where
  lastLeftStep : Option (List ℕ)
  lastRightStep : Option (List ℕ)
  lastEqual : Option (List ℕ)

/-- The first `switch` of `tree_search_key`, for an equal element: whether the position is noted, and
the value that `cmp` gets; `none` for `return NULL`. -/
def equalCase : RkeyFunction → Option (Bool × ℤ)
  | .keyExact | .keyOrNext | .beforeKey | .keyOrPrev => some (true, 1)
  | .afterKey => some (false, -1)
  | .prefixLast | .prefixLastOrPrev => some (true, -1)
  | _ => none

/-- The loop of `tree_search_key`: `none` inside for `return NULL`, and outside if the array of
`MAX_TREE_HEIGHT + 1` positions is too small. -/
def searchKeyLoop (cmp : ℕ → ℤ) (flag : RkeyFunction) (heap : Heap) :
    ℕ → List ℕ → Steps → Option ℕ → Option (Option Steps)
  | _, _, steps, none => some (some steps)
  | 0, _, _, some _ => none
  | room + 1, parents, steps, some element =>
    let parents := element :: parents
    match (if cmp element = 0 then equalCase flag else some (false, cmp element)) with
    | none => some none
    | some (noted, cmp') =>
      let steps := if noted then { steps with lastEqual := some parents } else steps
      if cmp' < 0 then
        searchKeyLoop cmp flag heap room parents { steps with lastRightStep := some parents }
          (heap.link (.child .right element))
      else
        searchKeyLoop cmp flag heap room parents { steps with lastLeftStep := some parents }
          (heap.link (.child .left element))

/-- The second `switch` of `tree_search_key`; `none` for `NULL`. -/
def lastPos (steps : Steps) : RkeyFunction → Option (List ℕ)
  | .keyExact | .prefixLast => steps.lastEqual
  | .keyOrNext => steps.lastEqual.or steps.lastLeftStep
  | .afterKey => steps.lastLeftStep
  | .prefixLastOrPrev => steps.lastEqual.or steps.lastRightStep
  | .beforeKey => steps.lastRightStep
  | .keyOrPrev => steps.lastEqual.or steps.lastRightStep
  | _ => none

/-- `tree_search_key`: the position of the element found, or `none` for `NULL`. -/
def treeSearchKey (cmp : ℕ → ℤ) (flag : RkeyFunction) (heap : Heap) : Option (Option (List ℕ)) :=
  (searchKeyLoop cmp flag heap maxTreeHeight [] ⟨none, none, none⟩ (heap.link .root)).map fun found =>
    found.bind fun steps => lastPos steps flag

/-- The way down on one side, in `tree_search_edge` and `tree_search_next`. -/
def edgeLoop (s : Side) (heap : Heap) : ℕ → List ℕ → Option ℕ → Option (List ℕ)
  | _, parents, none => some parents
  | 0, _, some _ => none
  | room + 1, parents, some element =>
    edgeLoop s heap room (element :: parents) (heap.link (.child s element))

/-- `tree_search_edge`: the position of the first or the last element; empty without elements. -/
def treeSearchEdge (s : Side) (heap : Heap) : Option (List ℕ) :=
  edgeLoop s heap maxTreeHeight [] (heap.link .root)

/-- The way up of `tree_search_next`, from `x`: the position of the element over it, which is
`null_element` for an empty list. -/
def climb (r : Side) (heap : Heap) (x : ℕ) : List ℕ → List ℕ
  | [] => []
  | y :: parents =>
    if heap.link (.child r y) = some x then climb r heap y parents else y :: parents

/-- `tree_search_next`, with the sides of its offsets: the position of the next element; empty if
there is none. -/
def treeSearchNext (l r : Side) (heap : Heap) : List ℕ → Option (List ℕ)
  | [] => none
  | x :: parents =>
    match heap.link (.child r x) with
    | some y => edgeLoop l heap (maxTreeHeight - (parents.length + 1)) (x :: parents) (some y)
    | none => some (climb r heap x parents)

/-- `tree_walk_left_root_right`: the elements in the order in which the action is called for them.
The fuel bounds the depth. -/
def treeWalk (heap : Heap) : ℕ → Option ℕ → Option (List ℕ)
  | _, none => some []
  | 0, some _ => none
  | fuel + 1, some element =>
    (treeWalk heap fuel (heap.link (.child .left element))).bind fun l =>
      (treeWalk heap fuel (heap.link (.child .right element))).map fun r => l ++ element :: r

/-! ### The test -/

/-- `test_rb_tree`: the number of black elements on every way down, or -1.  The fuel bounds the
depth. -/
def testRbTree (heap : Heap) : ℕ → Option ℕ → Option ℤ
  | _, none => some 0
  | 0, some _ => none
  | fuel + 1, some element =>
    let left := heap.link (.child .left element)
    let right := heap.link (.child .right element)
    if heap.color element = .red ∧ (heap.colorOf left = .red ∨ heap.colorOf right = .red) then
      some (-1)
    else
      (testRbTree heap fuel left).bind fun countL =>
        (testRbTree heap fuel right).map fun countR =>
          if 0 ≤ countL ∧ 0 ≤ countR ∧ countL = countR then
            countL + if heap.color element = .black then 1 else 0
          else -1

end MyTree
