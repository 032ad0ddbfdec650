/-
**The interval trees of the range optimizer stay balanced and ordered.**

Runs of `SEL_ARG::insert` and `SEL_ARG::tree_delete` on a tree that starts with one interval.  Every
interval that is inserted is a new node and disjoint from those present; every node that is deleted is
a member.  After the last one was deleted there is no tree.

Main definitions:

* `newSelArg`: a new node;
* `Op`, `State`, `step`, `run`: runs of calls;
* `Allowed`: what the callers observe.

Main results:

* `step_inv`, `run_inv`: the invariant over one call and over a run;
* `run_selArg`: **the tree is a red-black tree, in the order of the list**, and its number and
  weight are right.
-/

import MariaDb.SelArgCalls

set_option autoImplicit false

namespace SelArg

open RedBlack RedBlack.Tree ThreadedList Function List

variable {V : Type*} {field : Field V} {mem : Mem V} {heap : UpHeap} {t : RedBlack.Tree ℕ}
  {this key : ℕ}

/-! ### The test -/

/-- `test_rb_tree` finds no error in a balanced tree. -/
theorem testRbTree_spec {c : Color} {n fuel : ℕ} {p : Option ℕ} (ht : Shape heap.toHeap t)
    (hp : Parents heap.parent t p) (hnodup : t.toList.Nodup) (hbal : Balanced t c n)
    (hfuel : t.toList.length ≤ fuel) : testRbTree heap fuel t.root p = some (n : ℤ) := by
  induction t generalizing fuel p c n with
  | nil =>
    cases hbal
    cases fuel <;> rfl
  | node _ l a r ihl ihr =>
    obtain ⟨hll, hlr, hc, hsl, hsr⟩ := ht
    obtain ⟨hpa, hpl, hpr⟩ := hp
    obtain ⟨hnl, hnr, -, -, hdisj⟩ := (nodup_join (s := .left)).1 hnodup
    -- the children differ, unless both are missing
    have hne : ¬(l.root = r.root ∧ l.root ≠ none) := by
      rintro ⟨heq, hne⟩
      obtain ⟨x, hx⟩ := Option.ne_none_iff_exists'.1 hne
      exact hdisj x (mem_of_root hx) (mem_of_root (heq ▸ hx))
    simp only [toList, length_append, length_cons] at hfuel
    obtain _ | fuel := fuel
    · omega
    have hlel : l.toList.length ≤ fuel := by omega
    have hler : r.toList.length ≤ fuel := by omega
    rw [root_node, testRbTree]
    cases hbal with
    | red hl hr =>
      simp [hll, hlr, hc, hpa, hsl.colorOf, hsr.colorOf, hl.color_eq, hr.color_eq, if_neg hne,
        ihl hsl hpl hnl hl hlel, ihr hsr hpr hnr hr hler]
    | black hl hr =>
      simp [hll, hlr, hc, hpa, hsl.colorOf, hsr.colorOf, if_neg hne, ihl hsl hpl hnl hl hlel,
        ihr hsr hpr hnr hr hler]

/-! ### New nodes -/

/-- `new SEL_ARG(...)`, with its `next_key_part` and the weight of it. -/
def newSelArg (mem : Mem V) (key : ℕ) (arg : Interval V) (part : ℕ) (nextKeyPart : Option ℕ) :
    Mem V where
  heap := ((mem.heap.write (.child .left key) none).write (.child .right key) none).setColor key
    .black
  next := update mem.next key none
  prev := update mem.prev key none
  arg := update mem.arg key arg
  part := update mem.part key part
  nextKeyPart := update mem.nextKeyPart key nextKeyPart
  elements := update mem.elements key 1
  weight := update mem.weight key
    (match nextKeyPart with
      | none => 1
      | some root => 1 + mem.weight root)

theorem represents_congr {h h' : Heap} (hr : Represents h t) (hroot : h'.link .root = h.link .root)
    (hagree : ∀ x ∈ t.toList, AgreeAt h h' x) : Represents h' t :=
  ⟨hroot.trans hr.root, hr.shape.congr hagree, hr.nodup⟩

/-- A new node changes nothing in a tree. -/
theorem Holds.newSelArg (h : Holds field mem this t) (hkey : key ∉ t.toList)
    (hlater : ∀ a ∈ t.toList, mem.nextKeyPart a ≠ some key) (arg : Interval V) (part : ℕ)
    (nextKeyPart : Option ℕ) : Holds field (newSelArg mem key arg part nextKeyPart) this t := by
  have hne : ∀ {x}, x ∈ t.toList → x ≠ key := fun hx => ne_of_mem_of_not_mem hx hkey
  have hthis : this ≠ key := hne (mem_of_root h.rooted.root)
  have hpart : ∀ a ∈ t.toList, (SelArg.newSelArg mem key arg part nextKeyPart).partWeight a =
      mem.partWeight a := by
    intro a ha
    unfold Mem.partWeight
    simp only [SelArg.newSelArg, update_of_ne (hne ha)]
    cases hnkp : mem.nextKeyPart a with
    | none => rfl
    | some b =>
      have hb : b ≠ key := fun hb => hlater a ha (hb ▸ hnkp)
      exact update_of_ne hb _ _
  refine ⟨⟨represents_congr h.rooted.represents ?_ fun x hx => ⟨fun s => ?_, ?_⟩, h.rooted.parents⟩,
    h.balanced, h.threaded.congr fun x hx => ⟨?_, ?_⟩, ?_, ?_, ?_, fun a ha b hb => ?_⟩
  · simp
  · have hx' : ∀ s', Link.child s x ≠ .child s' key := fun s' => by simp [hne hx]
    simp only [SelArg.newSelArg, UpHeap.toHeap_setColor, UpHeap.toHeap_write, Heap.link_write,
      Heap.link_setColor]
    rw [update_of_ne (by simp), update_of_ne (hx' _), update_of_ne (hx' _), update_of_ne (by simp)]
  · simp only [SelArg.newSelArg, UpHeap.toHeap_setColor, UpHeap.toHeap_write, Heap.color_write,
      Heap.color_setColor]
    rw [update_of_ne (hne hx)]
  · exact update_of_ne (hne hx) _ _
  · exact update_of_ne (hne hx) _ _
  · refine Pairwise.imp_of_mem (fun {x y} hx hy hxy => ?_) h.sorted
    simp only [SelArg.newSelArg]
    rwa [update_of_ne (hne hx), update_of_ne (hne hy)]
  · simp only [SelArg.newSelArg]
    rw [update_of_ne hthis, h.elements]
  · rw [map_congr_left fun a ha => congrArg UInt32.toNat (hpart a ha), ← h.weight]
    exact update_of_ne hthis _ _
  · simp only [SelArg.newSelArg]
    rw [update_of_ne (hne ha)]
    exact h.later a ha b hb

/-- A new node is a tree. -/
theorem holds_newSelArg (field : Field V) (mem : Mem V) (arg : Interval V) (part : ℕ)
    {nextKeyPart : Option ℕ} (hnkp : nextKeyPart ≠ some key) :
    Holds field (newSelArg mem key arg part nextKeyPart) key (node .black .nil key .nil) := by
  have hlist : (node .black .nil key .nil : RedBlack.Tree ℕ).toList = [key] := rfl
  refine ⟨⟨⟨?_, ⟨?_, ?_, ?_, trivial, trivial⟩, ?_⟩, _, rfl, trivial, trivial⟩, ⟨1, .black .nil .nil⟩,
    ?_, ?_, ?_, ?_, ?_⟩
  · simp
  · simp [newSelArg, Tree.root]
  · simp [newSelArg, Tree.root]
  · simp [newSelArg]
  · simp [hlist]
  · rw [hlist]
    exact ⟨by simp [newSelArg], by simp [newSelArg], trivial⟩
  · simp [hlist]
  · simp [newSelArg, hlist]
  · rw [hlist]
    simp only [newSelArg, Mem.partWeight, update_self, map_cons, map_nil, sum_cons,
      sum_nil, length_singleton, Nat.add_zero]
    cases nextKeyPart with
    | none => rfl
    | some b =>
      have hb : b ≠ key := fun hb => hnkp (hb ▸ rfl)
      simp [update_of_ne hb, UInt32.ofNat_add]
  · simp [hlist, newSelArg, hnkp]

/-! ### Runs -/

inductive Op (V : Type*) where
  /-- a new node, and `SEL_ARG::insert` -/
  | insert (key : ℕ) (arg : Interval V) (part : ℕ) (nextKeyPart : Option ℕ)
  /-- `SEL_ARG::tree_delete` -/
  | delete (key : ℕ)

/-- The nodes, the root of the tree, if there is one, and the account of the members. -/
structure State (V : Type*) where
  mem : Mem V
  root : Option ℕ
  members : List ℕ

def step (field : Field V) (fuel : ℕ) (s : State V) : Op V → Option (State V)
  | .insert key arg part nextKeyPart =>
    s.root.bind fun root =>
      (insert field fuel (newSelArg s.mem key arg part nextKeyPart) root key).map fun (mem, root) =>
        ⟨mem, some root, key :: s.members⟩
  | .delete key =>
    s.root.bind fun root =>
      (treeDelete fuel s.mem root key).map fun (mem, root) => ⟨mem, root, s.members.erase key⟩

def run (field : Field V) (fuel : ℕ) (s : State V) : List (Op V) → Option (State V)
  | [] => some s
  | op :: ops => (step field fuel s op).bind fun s' => run field fuel s' ops

/-- What the callers observe: only intervals disjoint from those present are inserted, at a new
address, and with a `next_key_part` that is another tree; only members are deleted. -/
def Allowed (field : Field V) (s : State V) : Op V → Prop
  | .insert key arg _ nextKeyPart =>
    s.root ≠ none ∧ key ∉ s.members ∧ arg.Proper field ∧
      (∀ a ∈ s.members, arg.Disjoint field (s.mem.arg a)) ∧ nextKeyPart ≠ some key ∧
      (∀ a ∈ s.members, nextKeyPart ≠ some a) ∧ ∀ a ∈ s.members, s.mem.nextKeyPart a ≠ some key
  | .delete key => key ∈ s.members

instance (field : Field V) (s : State V) (op : Op V) : Decidable (Allowed field s op) := by
  unfold Allowed
  split <;> infer_instance

/-- Every call of a run is allowed when it is made. -/
def AllowedRun (field : Field V) (fuel : ℕ) (s : State V) : List (Op V) → Prop
  | [] => True
  | op :: ops => Allowed field s op ∧ ∀ s' ∈ step field fuel s op, AllowedRun field fuel s' ops

instance decidableAllowedRun (field : Field V) (fuel : ℕ) :
    (ops : List (Op V)) → (s : State V) → Decidable (AllowedRun field fuel s ops)
  | [], _ => isTrue trivial
  | op :: ops, s =>
    have (s' : State V) : Decidable (AllowedRun field fuel s' ops) :=
      decidableAllowedRun field fuel ops s'
    inferInstanceAs
      (Decidable (Allowed field s op ∧ ∀ s' ∈ step field fuel s op, AllowedRun field fuel s' ops))

/-- A tree of one new node. -/
def start (mem : Mem V) (key : ℕ) (arg : Interval V) (part : ℕ) (nextKeyPart : Option ℕ) : State V :=
  ⟨newSelArg mem key arg part nextKeyPart, some key, [key]⟩

/-- The tree has the members, and they are proper intervals. -/
structure Inv (field : Field V) (s : State V) (t : RedBlack.Tree ℕ) : Prop where
  root : s.root = t.root
  holds : ∀ root, s.root = some root → Holds field s.mem root t
  members : s.members.Perm t.toList
  proper : ∀ a ∈ s.members, (s.mem.arg a).Proper field

variable {s : State V}

/-- Every allowed call returns and keeps the invariant. -/
theorem step_inv (hs : Inv field s t) (hf : field.Proper) {op : Op V} (hop : Allowed field s op)
    {fuel : ℕ} (hfuel : s.members.length + 1 ≤ fuel) :
    ∃ s' t', step field fuel s op = some s' ∧ Inv field s' t' ∧
      s'.members.length ≤ s.members.length + 1 := by
  have hlen := hs.members.length_eq
  cases op with
  | insert key arg part nextKeyPart =>
    obtain ⟨hroot, hkey, hproper, hdisj, hself, hmem, hlater⟩ := hop
    obtain ⟨root, hroot⟩ := Option.ne_none_iff_exists'.1 hroot
    have hmems : ∀ {a}, a ∈ s.members ↔ a ∈ t.toList := hs.members.mem_iff
    have hkey' : key ∉ t.toList := fun h => hkey (hmems.2 h)
    have hh := (hs.holds root hroot).newSelArg hkey' (fun a ha => hlater a (hmems.2 ha)) arg part
      nextKeyPart
    have harg : ∀ a ∈ t.toList, (newSelArg s.mem key arg part nextKeyPart).arg a = s.mem.arg a :=
      fun a ha => update_of_ne (ne_of_mem_of_not_mem ha hkey') _ _
    have hargk : (newSelArg s.mem key arg part nextKeyPart).arg key = arg := update_self _ _ _
    have hne : ∀ a ∈ t.toList, ((newSelArg s.mem key arg part nextKeyPart).arg key).cmpMinToMin
        field ((newSelArg s.mem key arg part nextKeyPart).arg a) ≠ 0 := by
      intro a ha
      rw [hargk, harg a ha]
      exact (hdisj a (hmems.2 ha)).cmpMinToMin_ne hf hproper (hs.proper a (hmems.2 ha))
    have hnkp : ∀ a ∈ key :: t.toList, ∀ b ∈ key :: t.toList,
        (newSelArg s.mem key arg part nextKeyPart).nextKeyPart a ≠ some b := by
      intro a ha b hb
      simp only [newSelArg]
      by_cases hak : a = key
      · subst hak
        rw [update_self]
        rcases mem_cons.1 hb with rfl | hb
        · exact hself
        · exact hmem b (hmems.2 hb)
      · have ha' := (mem_cons.1 ha).resolve_left hak
        rw [update_of_ne hak]
        rcases mem_cons.1 hb with rfl | hb
        · exact hlater a (hmems.2 ha')
        · exact (hs.holds root hroot).later a ha' b hb
    obtain ⟨mem', root', t', hins, hh', hperm, harg', -, -⟩ :=
      insert_spec hh hf hkey' hne hnkp (show t.toList.length + 1 ≤ fuel by omega)
    refine ⟨⟨mem', some root', key :: s.members⟩, t', ?_, ⟨?_, ?_, ?_, ?_⟩, le_rfl⟩
    · rw [step, hroot, Option.bind_some, hins, Option.map_some]
    · exact hh'.rooted.root.symm
    · rintro r ⟨⟩
      exact hh'
    · exact (hs.members.cons key).trans hperm.symm
    intro a ha
    rw [harg']
    by_cases hak : a = key
    · subst hak
      rwa [hargk]
    · have ha := (mem_cons.1 ha).resolve_left hak
      rw [harg a (hmems.1 ha)]
      exact hs.proper a ha
  | delete key =>
    have hkey : key ∈ t.toList := hs.members.mem_iff.1 hop
    obtain ⟨root, hroot⟩ : ∃ root, s.root = some root := by
      rw [hs.root]
      cases hcase : t.root with
      | none =>
        rw [root_eq_none.1 hcase] at hkey
        simp [toList] at hkey
      | some root => exact ⟨root, rfl⟩
    obtain ⟨mem', t', hdel, hh', hperm, harg, -, -⟩ :=
      treeDelete_spec (hs.holds root hroot) hkey (show t.toList.length + 1 ≤ fuel by omega)
    refine ⟨⟨mem', t'.root, s.members.erase key⟩, t', ?_, ⟨rfl, hh', ?_, ?_⟩, ?_⟩
    · rw [step, hroot, Option.bind_some, hdel, Option.map_some]
    · have herase := (hs.members.trans hperm).erase key
      rwa [erase_cons_head] at herase
    · intro a ha
      rw [harg]
      exact hs.proper a (mem_of_mem_erase ha)
    · exact (length_erase_le).trans (Nat.le_succ _)

theorem run_inv (hs : Inv field s t) (hf : field.Proper) {ops : List (Op V)} {fuel : ℕ}
    (hops : AllowedRun field fuel s ops) (hfuel : s.members.length + ops.length + 1 ≤ fuel) :
    ∃ s' t', run field fuel s ops = some s' ∧ Inv field s' t' := by
  induction ops generalizing s t with
  | nil => exact ⟨s, t, rfl, hs⟩
  | cons op ops ih =>
    obtain ⟨hop, hrest⟩ := hops
    rw [length_cons] at hfuel
    obtain ⟨s1, t1, hstep, hs1, hlen⟩ := step_inv hs hf hop (show _ ≤ fuel by omega)
    rw [run, hstep, Option.bind_some]
    exact ih hs1 (hrest s1 hstep) (by omega)

theorem inv_start {arg : Interval V} (hproper : arg.Proper field) (mem : Mem V) (part : ℕ)
    {nextKeyPart : Option ℕ} (hnkp : nextKeyPart ≠ some key) :
    Inv field (start mem key arg part nextKeyPart) (node .black .nil key .nil) where
  root := rfl
  holds := by
    rintro root ⟨⟩
    exact holds_newSelArg field mem arg part hnkp
  members := List.Perm.refl _
  proper := by
    intro a ha
    obtain rfl : a = key := mem_singleton.1 ha
    simpa [start, newSelArg] using hproper

/-- **The interval tree stays balanced and ordered.**  Every run of allowed calls returns, with fuel
for as many rounds as there can be nodes.  If there is a tree after it: `test_rb_tree` finds no error;
its nodes from left to right are the members, sorted by their minimum endpoints; `next` and `prev` are
the neighbours in that order; `elements` is their number, and the weight of the root is their number
and the weights of their `next_key_part` trees. -/
theorem run_selArg (hf : field.Proper) (mem : Mem V) (key : ℕ) (arg : Interval V) (part : ℕ)
    (nextKeyPart : Option ℕ) (hproper : arg.Proper field) (hnkp : nextKeyPart ≠ some key)
    (ops : List (Op V)) (fuel : ℕ) (hfuel : ops.length + 2 ≤ fuel)
    (hops : AllowedRun field fuel (start mem key arg part nextKeyPart) ops) :
    ∃ s, run field fuel (start mem key arg part nextKeyPart) ops = some s ∧
      ∃ l : List ℕ, l.Perm s.members ∧ (s.root = none ↔ l = []) ∧ ∀ root, s.root = some root →
        (∃ n : ℕ, testRbTree s.mem.heap l.length (some root) (s.mem.heap.parent root) =
          some (n : ℤ)) ∧
        s.mem.heap.inorder l.length (some root) = some l ∧
        (l.Pairwise fun a b => (s.mem.arg a).cmpMinToMin field (s.mem.arg b) < 0) ∧
        (∀ l1 a l2, l = l1 ++ a :: l2 → s.mem.prev a = l1.getLast? ∧ s.mem.next a = l2.head?) ∧
        (s.mem.elements root).toNat = l.length % 2 ^ 32 ∧
        (s.mem.weight root).toNat =
          (l.length + (l.map fun a => (s.mem.partWeight a).toNat).sum) % 2 ^ 32 := by
  obtain ⟨s, t, hrun, hs⟩ := run_inv (inv_start hproper mem part hnkp) hf hops
    (by simp only [start, length_singleton]; omega)
  refine ⟨s, hrun, t.toList, hs.members.symm, ?_, fun root hroot => ?_⟩
  · rw [hs.root, root_eq_none]
    exact ⟨fun h => by rw [h]; rfl, fun h => by cases t <;> simp_all [toList]⟩
  have hh := hs.holds root hroot
  obtain ⟨m, hbal⟩ := hh.balanced
  obtain ⟨p, hp⟩ := hh.rooted.parents
  have hroot' := hh.rooted.root
  have hparent : s.mem.heap.parent root = p := by
    cases t with
    | nil => simp [Tree.root] at hroot'
    | node c l a r =>
      obtain rfl : a = root := by simpa using hroot'
      exact hp.1
  have hnodup := hh.rooted.represents.nodup
  refine ⟨⟨m, ?_⟩, ?_, hh.sorted, fun l1 a l2 hl => ?_, ?_, ?_⟩
  · rw [hparent, ← hroot']
    exact testRbTree_spec hh.rooted.shape hp hnodup hbal le_rfl
  · rw [← hroot']
    exact hh.rooted.shape.inorder le_rfl
  · have hthread := hh.threaded
    rw [hl] at hthread
    exact hthread.at
  · rw [hh.elements, UInt32.toNat_ofNat']
  · rw [hh.weight, UInt32.toNat_ofNat']

def sampleField : Field ℤ := ⟨false, fun x y => x - y⟩

theorem sampleField_proper : sampleField.Proper where
  swap x y := by simp only [sampleField]; omega
  trans x y z := by simp only [sampleField]; omega

/-- The closed interval from `x` to `y`. -/
def sampleArg (x y : ℤ) : Interval ℤ :=
  ⟨⟨false, x⟩, ⟨false, y⟩, .zero, .zero, ⟨rfl, rfl⟩, ⟨rfl, rfl⟩⟩

def sampleMem : Mem ℤ where
  heap := ⟨⟨fun _ => none, fun _ => .black⟩, fun _ => none⟩
  next _ := none
  prev _ := none
  arg _ := sampleArg 0 0
  part _ := 0
  nextKeyPart _ := none
  elements _ := 1
  weight _ := 1

/-- Three intervals are inserted, one of them with a later key part, and one is deleted. -/
def sampleOps : List (Op ℤ) :=
  [.insert 1 (sampleArg 1 2) 0 none, .insert 2 (sampleArg 7 9) 0 (some 9),
    .insert 3 (sampleArg 3 4) 0 none, .delete 0]

theorem sampleOps_allowed :
    AllowedRun sampleField 6 (start sampleMem 0 (sampleArg 5 6) 0 none) sampleOps := by
  decide +kernel

theorem run_selArg_sampleOps :
    ∃ s root, run sampleField 6 (start sampleMem 0 (sampleArg 5 6) 0 none) sampleOps = some s ∧
      s.root = some root ∧ s.mem.heap.inorder 3 (some root) = some [1, 3, 2] ∧
      ([1, 3, 2].Pairwise fun a b =>
        (s.mem.arg a).cmpMinToMin sampleField (s.mem.arg b) < 0) ∧
      s.mem.next 1 = some 3 ∧ s.mem.prev 2 = some 3 ∧ (s.mem.elements root).toNat = 3 := by
  obtain ⟨s, hrun, l, hperm, -, htree⟩ := run_selArg sampleField_proper sampleMem 0 (sampleArg 5 6) 0
    none (by decide) (by decide) sampleOps 6 (by decide) sampleOps_allowed
  have hresult : (run sampleField 6 (start sampleMem 0 (sampleArg 5 6) 0 none) sampleOps).bind
      (fun s => s.root.bind fun root => (s.mem.heap.inorder 3 (some root)).map (s.members.length, ·))
        = some (3, [1, 3, 2]) := by decide +kernel
  rw [hrun, Option.bind_some] at hresult
  obtain ⟨root, hroot, hresult⟩ := Option.bind_eq_some_iff.1 hresult
  obtain ⟨l', hl', hresult⟩ := Option.map_eq_some_iff.1 hresult
  obtain ⟨hmembers, rfl⟩ := Prod.mk.inj hresult
  obtain ⟨-, hinorder, hsorted, hnext, helements, -⟩ := htree root hroot
  rw [hperm.length_eq, hmembers] at hinorder helements
  obtain rfl : l = [1, 3, 2] := Option.some.inj (hinorder.symm.trans hl')
  exact ⟨s, root, hrun, hroot, hl', hsorted, (hnext [] 1 [3, 2] rfl).2, (hnext [1, 3] 2 [] rfl).1,
    helements⟩

end SelArg
