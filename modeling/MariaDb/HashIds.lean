/-
**Hashes of ids.**

The states of replication are kept in hashes of `mysys/hash.c` whose records have an id of four
bytes as their key, with `HASH_UNIQUE`.  Since no two records have the same id, a record is named by
its id here, and the hash is a hash of ids: a structure that carries the invariant of the links, so
that the three operations are total.  What a caller sees of it is the list of the records in the
order of the links, which is the order in which `my_hash_element` enumerates them.

Main definitions:

* `IdHash`: a valid hash of ids without duplicates;
* `IdHash.toList`: the ids in the order of the links;
* `IdHash.search`, `IdHash.insert`, `IdHash.delete`: the operations.

Main results:

* `IdHash.search_eq`: a search finds an id exactly if it is in the list;
* `IdHash.insert_spec`, `IdHash.delete_spec`: the list after an insert or a delete, up to the order.
-/

import MariaDb.HashCalls

set_option autoImplicit false

namespace HashTable

open Chains Function Multiset

/-- What `my_hash_init` fixes for a hash of ids, with the hash function `f`. -/
def idConf (f : UInt32 → UInt32) : Conf UInt32 := ⟨f, fun k k' => k == k', true⟩

theorem idConf_proper (f : UInt32 → UInt32) : (idConf f).Proper := by
  intro k k' hsame
  have hk : k = k' := by simpa [idConf] using hsame
  rw [hk]

/-- A hash of ids: the links are valid, and no id is there twice. -/
structure IdHash (f : UInt32 → UInt32) where
  hash : Hash UInt32
  valid : hash.Valid
  synced : hash.Synced (idConf f) id
  nodup : hash.contents.Nodup

namespace IdHash

variable {f : UInt32 → UInt32}

variable (h : IdHash f) (x : UInt32)

/-- The ids in the order of the links. -/
def toList : List UInt32 :=
  (List.range h.hash.records).map fun j => (h.hash.array.cell j).val.data

theorem coe_toList : (h.toList : Multiset UInt32) = h.hash.contents := by
  rw [toList, Hash.contents, vals, map_map, ← map_coe]
  rfl

theorem mem_toList {h : IdHash f} {x : UInt32} :
    x ∈ h.toList ↔ ∃ j, j < h.hash.records ∧ (h.hash.array.cell j).val.data = x := by
  rw [← mem_coe, coe_toList, Hash.mem_contents]

theorem nodup_toList : h.toList.Nodup := by
  rw [← coe_nodup, coe_toList]
  exact h.nodup

/-! ### The operations -/

variable (f) in
theorem inv_init : Inv (idConf f) (start (fun _ => ⟨none, 0, 0⟩) id) := inv_start _ id

/-- `my_hash_init` -/
def empty : IdHash f where
  hash := myHashInit fun _ => ⟨none, 0, 0⟩
  valid := (inv_init f).valid
  synced := (inv_init f).synced
  nodup := nodup_zero

@[simp] theorem toList_empty : (empty : IdHash f).toList = [] := rfl

/-- `my_hash_search`: the record with the id. -/
def search (x : UInt32) : Option UInt32 :=
  match myHashFirst (idConf f) id h.hash x with
  | some (some idx) => some (h.hash.array.cell idx).val.data
  | _ => none

/-- A link that `my_hash_first` has found has the key. -/
theorem found_eq {h : IdHash f} {x : UInt32} {idx : ℕ}
    (hfound : myHashFirst (idConf f) id h.hash x = some (some idx)) :
    (h.hash.array.cell idx).val.data = x := by
  have hne : h.hash.records ≠ 0 := by
    intro h0
    simp [myHashFirst, myHashFirstFromHashValue, h0] at hfound
  obtain ⟨ch, ht⟩ := h.valid.table
  rw [myHashFirst, myHashFirst_spec h.valid hne ht, Option.some.injEq] at hfound
  have hkey : hasKey (idConf f) id h.hash x idx = true := by
    split at hfound
    case isTrue =>
      split at hfound
      case isTrue hkey => rwa [Option.some.inj hfound] at hkey
      case isFalse => cases hfound
    case isFalse => exact List.find?_some hfound
  simpa [hasKey, idConf] using hkey

/-- **A search finds exactly what is in the list.** -/
theorem search_eq : h.search x = if x ∈ h.toList then some x else none := by
  obtain ⟨found, hfound, hiff⟩ := insert_search h.valid h.synced (idConf_proper f) x
  have hcall : myHashFirst (idConf f) id h.hash x = some found := by
    rw [← hfound]
    rfl
  have hmem : found.isSome = true ↔ x ∈ h.toList := by
    rw [hiff, mem_toList]
    simp [idConf]
  cases found with
  | none =>
    rw [if_neg (by rw [← hmem]; simp), search, hcall]
  | some idx =>
    rw [if_pos (hmem.1 rfl), search, hcall]
    show some (h.hash.array.cell idx).val.data = some x
    rw [found_eq hcall]

/-- `my_hash_insert`: returns whether there was an error. -/
def insert (x : UInt32) (memory : Bool) : IdHash f × Bool :=
  match hcall : myHashInsert (idConf f) id h.hash x memory with
  | some (h', false) =>
    have hnew : h'.Valid ∧ h'.Synced (idConf f) id ∧ h'.contents.Nodup := by
      obtain ⟨h'', err, hcall', -, herr, hok⟩ :=
        insert_call h.valid h.synced (idConf_proper f) x memory
      rw [hcall, Option.some.injEq, Prod.mk.injEq] at hcall'
      obtain ⟨rfl, rfl⟩ := hcall'
      obtain ⟨hv', hs', hc⟩ := hok rfl
      refine ⟨hv', hs', ?_⟩
      rw [hc, nodup_cons]
      refine ⟨fun hx => ?_, h.nodup⟩
      obtain ⟨j, hj, hdata⟩ := Hash.mem_contents.1 hx
      exact absurd (herr.2 (.inr ⟨rfl, j, hj, by simp [idConf, hdata]⟩)) (by simp)
    (⟨h', hnew.1, hnew.2.1, hnew.2.2⟩, false)
  | _ => (h, true)

/-- **An insert** adds the id, unless it is there already or there is no memory. -/
theorem insert_spec (memory : Bool) :
    (memory = false ∨ x ∈ h.toList) ∧ h.insert x memory = (h, true) ∨
    memory = true ∧ x ∉ h.toList ∧ ∃ h', h.insert x memory = (h', false) ∧
      h'.toList.Perm (x :: h.toList) := by
  obtain ⟨h', err, hcall, -, herr, hok⟩ :=
    insert_call h.valid h.synced (idConf_proper f) x memory
  have hmem : (∃ j, j < h.hash.records ∧
      (idConf f).same (id (h.hash.array.cell j).val.data) (id x) = true) ↔ x ∈ h.toList := by
    rw [mem_toList]
    simp [idConf]
  have hunique : (idConf f).unique = true := rfl
  rw [hmem] at herr
  simp only [hunique, true_and] at herr
  cases err with
  | true =>
    refine .inl ⟨herr.1 rfl, ?_⟩
    rw [insert]
    split
    case h_1 heq => rw [hcall] at heq; cases heq
    case h_2 => rfl
  | false =>
    have hnot : ¬ (memory = false ∨ x ∈ h.toList) := fun hor => by cases herr.2 hor
    rw [not_or, Bool.not_eq_false] at hnot
    refine .inr ⟨hnot.1, hnot.2, ?_⟩
    obtain ⟨hv', hs', hc⟩ := hok rfl
    have hnodup : h'.contents.Nodup := by
      rw [hc, nodup_cons, ← coe_toList, mem_coe]
      exact ⟨hnot.2, h.nodup_toList⟩
    refine ⟨⟨h', hv', hs', hnodup⟩, ?_, ?_⟩
    · rw [insert]
      split
      case h_1 heq =>
        rw [hcall, Option.some.injEq, Prod.mk.injEq] at heq
        obtain ⟨rfl, -⟩ := heq
        rfl
      case h_2 hno => exact absurd hcall (hno h')
    · rw [← coe_eq_coe, coe_toList, ← cons_coe, coe_toList]
      exact hc

theorem perm_of_insert {h h' : IdHash f} {x : UInt32} {memory : Bool}
    (hins : h.insert x memory = (h', false)) : x ∉ h.toList ∧ h'.toList.Perm (x :: h.toList) := by
  rcases h.insert_spec x memory with ⟨-, herr⟩ | ⟨-, hnot, h'', hok, hperm⟩
  · rw [herr] at hins
    cases hins
  · rw [hok, Prod.mk.injEq] at hins
    exact ⟨hnot, hins.1 ▸ hperm⟩

theorem insert_fails {h h' : IdHash f} {x : UInt32} {memory : Bool}
    (hins : h.insert x memory = (h', true)) : memory = false ∨ x ∈ h.toList := by
  rcases h.insert_spec x memory with ⟨hor, -⟩ | ⟨-, -, h'', hok, -⟩
  · exact hor
  · rw [hok] at hins
    cases hins

/-- `my_hash_delete`: returns whether there was an error. -/
def delete (x : UInt32) : IdHash f × Bool :=
  match hcall : myHashDelete (idConf f) id h.hash x with
  | some (h', false) =>
    have hnew : h'.Valid ∧ h'.Synced (idConf f) id ∧ h'.contents.Nodup := by
      obtain ⟨h'', err, hcall', -, -, hok⟩ := delete_call h.valid h.synced x
      rw [hcall, Option.some.injEq, Prod.mk.injEq] at hcall'
      obtain ⟨rfl, rfl⟩ := hcall'
      obtain ⟨hv', hs', hc⟩ := hok rfl
      have hnodup := h.nodup
      rw [hc, nodup_cons] at hnodup
      exact ⟨hv', hs', hnodup.2⟩
    (⟨h', hnew.1, hnew.2.1, hnew.2.2⟩, false)
  | _ => (h, true)

/-- **A delete** takes the id out, if it is there. -/
theorem delete_spec {h : IdHash f} {x : UInt32} (hx : x ∈ h.toList) :
    ∃ h', h.delete x = (h', false) ∧ h.toList.Perm (x :: h'.toList) := by
  obtain ⟨h', err, hcall, -, herr, hok⟩ := delete_call h.valid h.synced x
  have hno : err = false := by
    rw [← Bool.not_eq_true, herr, not_not, ← coe_toList]
    exact hx
  subst hno
  obtain ⟨hv', hs', hc⟩ := hok rfl
  have hnodup := h.nodup
  rw [hc, nodup_cons] at hnodup
  refine ⟨⟨h', hv', hs', hnodup.2⟩, ?_, ?_⟩
  · rw [delete]
    split
    case h_1 heq =>
      rw [hcall, Option.some.injEq, Prod.mk.injEq] at heq
      obtain ⟨rfl, -⟩ := heq
      rfl
    case h_2 hno => exact absurd hcall (hno h')
  · rw [← coe_eq_coe, coe_toList, ← cons_coe, coe_toList]
    exact hc

end IdHash

end HashTable
