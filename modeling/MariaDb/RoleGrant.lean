/-
**Granting and revoking roles.**

`mysql_grant_role` changes the arrays `role_grants` of the grantee and `parent_grantee` of the role
first, and the table and the hash of mappings afterwards.  If the roles would form a cycle or the
table cannot be written, the change of the arrays is undone.  But nothing was changed when the grant
exists already and only the ADMIN OPTION is granted or revoked.  The undo is done all the same: it
takes the last grants out of the arrays, or puts the grant into them twice.

Main definitions:

* `RoleGraph`: the arrays with the hash of mappings, which agree;
* `mysqlGrantRole`: one grantee of a GRANT or REVOKE;
* `NothingToUndo`: the grant exists already and stays.

Main results:

* `failed_same_iff`: **a grant that fails changes nothing**, unless the table could not be written
  and there was nothing to undo;
* `run_agrees`: up to such a failure **the arrays agree with the hash in every run**.
-/

import Mathlib.Tactic

set_option autoImplicit false

namespace RoleGrant

open Function List

variable {A : Type} [DecidableEq A]

/-! ### The code -/

/-- The arrays of the users and roles, and the hash `acl_roles_mappings` with `with_admin`. -/
structure Acl (A : Type) where
  roleGrants : A → List A
  parentGrantee : A → List A
  mappings : A → A → Option Bool

/-- Change the two arrays that have the grant. -/
def Acl.change (s : Acl A) (grantee role : A) (f : List A → A → List A) : Acl A :=
  { s with
    roleGrants := update s.roleGrants grantee (f (s.roleGrants grantee) role)
    parentGrantee := update s.parentGrantee role (f (s.parentGrantee role) grantee) }

def addRoleUserMapping (s : Acl A) (grantee role : A) : Acl A :=
  s.change grantee role fun l x => l ++ [x]

/-- `pop_dynamic` takes the last element out. -/
def undoAddRoleUserMapping (s : Acl A) (grantee role : A) : Acl A :=
  s.change grantee role fun l _ => l.dropLast

def removeRoleUserMapping (s : Acl A) (grantee role : A) : Acl A :=
  s.change grantee role fun l x => l.erase x

/-- GRANT or REVOKE of a role, for one grantee.  What `traverse_role_graph_down` finds and whether
`replace_roles_mapping_table` fails is arbitrary. -/
structure Command (A : Type) where
  grantee : A
  role : A
  revoke : Bool
  withAdminOption : Bool
  roleAsUser : Bool
  cycleFound : Acl A → Bool
  tableError : Bool

section

variable (c : Command A) (s : Acl A)

def updateRoleMapping : Acl A :=
  let existing := s.mappings c.grantee c.role
  let new :=
    if c.revoke then if c.withAdminOption then existing.map fun _ => false else none
    else some (existing.getD false || c.withAdminOption)
  { s with mappings := update s.mappings c.grantee (update (s.mappings c.grantee) c.role new) }

/-- The end of the loop: write to the table, and undo the change if that fails. -/
def writeMapping : Acl A × Bool :=
  if c.tableError then
    (if c.revoke then addRoleUserMapping s c.grantee c.role
      else undoAddRoleUserMapping s c.grantee c.role, true)
  else (updateRoleMapping c s, false)

/-- The body of the loop of `mysql_grant_role`; also returns whether it failed. -/
def mysqlGrantRole : Acl A × Bool :=
  let hashEntry := s.mappings c.grantee c.role
  if !c.revoke then
    if hashEntry.isSome then writeMapping c s
    else
      let s1 := addRoleUserMapping s c.grantee c.role
      if c.roleAsUser && c.cycleFound s1 then (undoAddRoleUserMapping s1 c.grantee c.role, true)
      else writeMapping c s1
  else if hashEntry.isNone then (s, true)
  else if c.withAdminOption then writeMapping c s
  else writeMapping c (removeRoleUserMapping s c.grantee c.role)

/-! ### Failures -/

/-- Every grant in the hash is in both arrays, once, and no other one. -/
def Acl.Consistent : Prop :=
  ∀ g r, (s.roleGrants g).count r = (if (s.mappings g r).isSome then 1 else 0) ∧
    (s.parentGrantee r).count g = if (s.mappings g r).isSome then 1 else 0

structure RoleGraph (A : Type) [DecidableEq A] extends Acl A where
  consistent : toAcl.Consistent

/-- The same grants with the same multiplicities. -/
def SameGrants (s' : Acl A) : Prop :=
  ∀ x, (s'.roleGrants x).Perm (s.roleGrants x) ∧ (s'.parentGrantee x).Perm (s.parentGrantee x)

/-- The grant exists already, and the command is about its ADMIN OPTION. -/
def NothingToUndo : Prop :=
  (s.mappings c.grantee c.role).isSome = true ∧ (c.revoke = false ∨ c.withAdminOption = true)

end

variable {c : Command A} {s : Acl A} {g r : A} {f : List A → A → List A}

theorem change_change (f' : List A → A → List A) :
    (s.change g r f).change g r f' = s.change g r fun l x => f' (f l x) x := by
  simp [Acl.change]

theorem sameGrants_change : SameGrants s (s.change g r f) ↔
    (f (s.roleGrants g) r).Perm (s.roleGrants g) ∧
      (f (s.parentGrantee r) g).Perm (s.parentGrantee r) := by
  constructor
  · intro h
    have hg := (h g).1
    have hr := (h r).2
    simp only [Acl.change, update_self] at hg hr
    exact ⟨hg, hr⟩
  · rintro ⟨hg, hr⟩ x
    simp only [Acl.change, update_apply]
    constructor <;> split <;> simp_all

theorem sameGrants_undo_add :
    SameGrants s (undoAddRoleUserMapping (addRoleUserMapping s g r) g r) := by
  rw [undoAddRoleUserMapping, addRoleUserMapping, change_change, sameGrants_change]
  simp

theorem sameGrants_add_remove (hr : r ∈ s.roleGrants g) (hg : g ∈ s.parentGrantee r) :
    SameGrants s (addRoleUserMapping (removeRoleUserMapping s g r) g r) := by
  rw [addRoleUserMapping, removeRoleUserMapping, change_change, sameGrants_change]
  exact ⟨(perm_append_singleton _ _).trans (perm_cons_erase hr).symm,
    (perm_append_singleton _ _).trans (perm_cons_erase hg).symm⟩

/-- One grant more or less is not the same. -/
theorem not_sameGrants_change (h : (f (s.roleGrants g) r).length ≠ (s.roleGrants g).length) :
    ¬ SameGrants s (s.change g r f) :=
  fun hsame => h (sameGrants_change.1 hsame).1.length_eq

theorem writeMapping_failed (h : (writeMapping c s).2 = true) :
    c.tableError = true ∧ (writeMapping c s).1 =
      if c.revoke then addRoleUserMapping s c.grantee c.role
      else undoAddRoleUserMapping s c.grantee c.role := by
  unfold writeMapping at *
  split at h <;> simp_all

/-- **A grant that fails changes nothing**, unless there was nothing to undo. -/
theorem failed_same_iff (c : Command A) (s : RoleGraph A)
    (hfail : (mysqlGrantRole c s.toAcl).2 = true) :
    SameGrants s.toAcl (mysqlGrantRole c s.toAcl).1 ↔
      ¬ (c.tableError = true ∧ NothingToUndo c s.toAcl) := by
  obtain ⟨s, hs⟩ := s
  have hcount := hs c.grantee c.role
  unfold NothingToUndo
  cases hentry : s.mappings c.grantee c.role with
  | none =>
    refine iff_of_true ?_ (by simp)
    cases hrevoke : c.revoke with
    | true =>
      simp only [mysqlGrantRole, hrevoke, hentry]
      exact fun x => ⟨.rfl, .rfl⟩
    | false =>
      -- the grant is new: what was added is taken out again
      simp only [mysqlGrantRole, hrevoke, hentry, Bool.not_false, ↓reduceIte, Option.isSome_none,
        Bool.false_eq_true] at hfail ⊢
      split_ifs at hfail ⊢
      · exact sameGrants_undo_add
      · rw [(writeMapping_failed hfail).2, hrevoke]
        exact sameGrants_undo_add
  | some w =>
    rw [hentry] at hcount
    have hr : c.role ∈ s.roleGrants c.grantee := count_pos_iff.1 (by simp [hcount.1])
    have hg : c.grantee ∈ s.parentGrantee c.role := count_pos_iff.1 (by simp [hcount.2])
    by_cases hundo : c.revoke = false ∨ c.withAdminOption = true
    · -- the undo takes another grant out, or puts the grant in twice
      have hcall : mysqlGrantRole c s = writeMapping c s := by
        rcases hundo with h | h <;> simp [mysqlGrantRole, hentry, h]
      rw [hcall] at hfail ⊢
      obtain ⟨htable, hres⟩ := writeMapping_failed hfail
      refine iff_of_false ?_ fun h => h ⟨htable, rfl, hundo⟩
      rw [hres]
      split
      · exact not_sameGrants_change (by simp)
      · have hpos := length_pos_of_mem hr
        exact not_sameGrants_change (by simp; omega)
    · refine iff_of_true ?_ fun h => hundo h.2.2
      simp only [not_or, Bool.not_eq_false, Bool.not_eq_true] at hundo
      simp only [mysqlGrantRole, hundo, hentry] at hfail ⊢
      have hres := (writeMapping_failed hfail).2
      rw [hundo.1] at hres
      exact hres ▸ sameGrants_add_remove hr hg

/-- A user `false` with the role `true`. -/
def oneGrant : RoleGraph Bool where
  roleGrants x := if x then [] else [true]
  parentGrantee x := if x then [false] else []
  mappings g r := if !g && r then some false else none
  consistent := by
    unfold Acl.Consistent
    decide

/-- A command for this grant when the table cannot be written. -/
def failing (revoke withAdminOption : Bool) : Command Bool :=
  ⟨false, true, revoke, withAdminOption, false, fun _ => false, true⟩

/-- A REVOKE that fails leaves the grant. -/
theorem failed_same_iff_revoke :
    SameGrants oneGrant.toAcl (mysqlGrantRole (failing true false) oneGrant.toAcl).1 :=
  (failed_same_iff (failing true false) oneGrant rfl).2 (by simp [NothingToUndo, failing])

/-- **Two failures that change the grants**: GRANT ... WITH ADMIN OPTION takes the role away, REVOKE
ADMIN OPTION grants it twice. -/
theorem failed_admin_option :
    (mysqlGrantRole (failing false true) oneGrant.toAcl).2 = true ∧
      (mysqlGrantRole (failing false true) oneGrant.toAcl).1.roleGrants false = [] ∧
      (mysqlGrantRole (failing true true) oneGrant.toAcl).2 = true ∧
      (mysqlGrantRole (failing true true) oneGrant.toAcl).1.roleGrants false = [true, true] := by
  decide

/-! ### Runs -/

/-- A command keeps the agreement, unless its table write fails when there is nothing to undo. -/
theorem Acl.Consistent.step (hs : s.Consistent)
    (hok : ¬ (c.tableError = true ∧ NothingToUndo c s)) : (mysqlGrantRole c s).1.Consistent := by
  have hentry := hs c.grantee c.role
  unfold NothingToUndo at hok
  unfold mysqlGrantRole writeMapping addRoleUserMapping undoAddRoleUserMapping removeRoleUserMapping
  simp only [change_change, ← Option.not_isSome]
  -- one case for each way through the code; only the entries of the command change
  split_ifs
  all_goals
    intro g r
    have hother := hs g r
    simp only [updateRoleMapping, Acl.change, update_apply] at *
    grind [update_apply]

def run (s : Acl A) (cs : List (Command A)) : Acl A :=
  cs.foldl (fun s c => (mysqlGrantRole c s).1) s

/-- No table write of a run fails when there is nothing to undo. -/
def RunOk : Acl A → List (Command A) → Prop
  | _, [] => True
  | s, c :: cs => ¬ (c.tableError = true ∧ NothingToUndo c s) ∧ RunOk (mysqlGrantRole c s).1 cs

/-- **The arrays and the hash agree after every run**, also after commands that fail. -/
theorem run_agrees (s : RoleGraph A) (cs : List (Command A)) (hcs : RunOk s.toAcl cs) :
    (run s.toAcl cs).Consistent := by
  obtain ⟨s, hs⟩ := s
  dsimp only at hcs ⊢
  induction cs generalizing s with
  | nil => exact hs
  | cons c cs ih => exact ih _ (hs.step hcs.1) hcs.2

/-- The role cannot be revoked, it is granted with the ADMIN OPTION, and the grant of `false` to the
role is refused as a cycle. -/
def sampleCommands : List (Command Bool) :=
  [failing true false, ⟨false, true, false, true, false, fun _ => false, false⟩,
    ⟨true, false, false, false, true, fun _ => true, false⟩]

theorem run_agrees_sampleCommands :
    (run oneGrant.toAcl sampleCommands).Consistent ∧
      (run oneGrant.toAcl sampleCommands).roleGrants = (fun g => if g then [] else [true]) ∧
      (run oneGrant.toAcl sampleCommands).mappings false true = some true :=
  ⟨run_agrees oneGrant sampleCommands ⟨by simp [NothingToUndo, failing], by simp, by simp, trivial⟩,
    by decide, by decide⟩

end RoleGrant
