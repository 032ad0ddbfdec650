/-
**Doubly linked lists.**

The nodes of a list have pointers to the next node and to the previous one.  A node is put between
two others, or taken out, by writing the pointers of its neighbours.

Main definitions:

* `Threaded`: the pointers are those of a list, between two given neighbours;
* `set`: a pointer of a node is written, if there is one.

Main results:

* `threaded_append`: the two parts of a list.
-/

import Mathlib.Data.List.Basic
import Mathlib.Logic.Function.Basic

set_option autoImplicit false

namespace ThreadedList

open Function List Option

variable {next prev next' prev' : ℕ → Option ℕ} {p q p' q' : Option ℕ} {l r : List ℕ} {a : ℕ}

/-- The pointers of the nodes of a list, with `p` before it and `q` behind it. -/
def Threaded (next prev : ℕ → Option ℕ) (p q : Option ℕ) : List ℕ → Prop
  | [] => True
  | a :: l => prev a = p ∧ next a = l.head?.or q ∧ Threaded next prev (some a) q l

/-- The pointer of a node is written, if it is there. -/
def set (f : ℕ → Option ℕ) (x v : Option ℕ) : ℕ → Option ℕ :=
  match x with
  | none => f
  | some a => update f a v

theorem set_apply (f : ℕ → Option ℕ) (x v : Option ℕ) (b : ℕ) :
    set f x v b = if x = some b then v else f b := by
  cases x with
  | none => rfl
  | some a =>
    by_cases hb : a = b
    · subst hb
      simp [set]
    · simp [set, hb, update_of_ne (Ne.symm hb)]

theorem Threaded.congr (h : Threaded next prev p q l)
    (hsame : ∀ x ∈ l, next' x = next x ∧ prev' x = prev x) : Threaded next' prev' p q l := by
  induction l generalizing p with
  | nil => trivial
  | cons a l ih =>
    obtain ⟨hp, hn, hl⟩ := h
    obtain ⟨hna, hpa⟩ := hsame a mem_cons_self
    exact ⟨hpa.trans hp, hna.trans hn, ih hl fun x hx => hsame x (mem_cons_of_mem _ hx)⟩

theorem threaded_append : Threaded next prev p q (l ++ r) ↔
    Threaded next prev p (r.head?.or q) l ∧ Threaded next prev (l.getLast?.or p) q r := by
  induction l generalizing p with
  | nil => simp [Threaded]
  | cons a l ih =>
    have hlast : (a :: l).getLast?.or p = l.getLast?.or (some a) := by
      rw [getLast?_cons]
      cases l.getLast? <;> rfl
    have hhead : (l ++ r).head?.or q = l.head?.or (r.head?.or q) := by
      cases l <;> simp
    simp only [cons_append, Threaded, ih, hlast, hhead]
    tauto

theorem Threaded.at (h : Threaded next prev none none (l ++ a :: r)) :
    prev a = l.getLast? ∧ next a = r.head? := by
  obtain ⟨-, hp, hn, -⟩ := threaded_append.1 h
  rw [or_none] at hp hn
  exact ⟨hp, hn⟩

/-- A list gets another node behind it. -/
theorem Threaded.set_next (h : Threaded next prev p q l) (hnodup : l.Nodup)
    (hlast : ∀ x, l.getLast? = some x → next' x = q')
    (hsame : ∀ x ∈ l, prev' x = prev x ∧ (l.getLast? ≠ some x → next' x = next x)) :
    Threaded next' prev' p q' l := by
  induction l generalizing p with
  | nil => trivial
  | cons a l ih =>
    obtain ⟨hp, hn, hl⟩ := h
    obtain ⟨hal, hnodup⟩ := nodup_cons.1 hnodup
    obtain ⟨hpa, hna⟩ := hsame a mem_cons_self
    refine ⟨hpa.trans hp, ?_, ih hl hnodup (fun x hx => hlast x ?_) fun x hx => ?_⟩
    · cases l with
      | nil => exact hlast a rfl
      | cons b l =>
        rw [hna, hn]
        · rfl
        · intro h
          exact hal (mem_of_getLast? h)
    · cases l with
      | nil => cases hx
      | cons b l => rwa [getLast?_cons_cons]
    · obtain ⟨hpx, hnx⟩ := hsame x (mem_cons_of_mem _ hx)
      refine ⟨hpx, fun hne => hnx ?_⟩
      cases l with
      | nil => cases hx
      | cons b l => rwa [getLast?_cons_cons]

/-- A list gets another node before it. -/
theorem Threaded.set_prev (h : Threaded next prev p q l) (hnodup : l.Nodup)
    (hhead : ∀ x, l.head? = some x → prev' x = p')
    (hsame : ∀ x ∈ l, next' x = next x ∧ (l.head? ≠ some x → prev' x = prev x)) :
    Threaded next' prev' p' q l := by
  cases l with
  | nil => trivial
  | cons a l =>
    obtain ⟨-, hn, hl⟩ := h
    obtain ⟨hal, -⟩ := nodup_cons.1 hnodup
    refine ⟨hhead a rfl, (hsame a mem_cons_self).1.trans hn, hl.congr fun x hx => ?_⟩
    obtain ⟨hnx, hpx⟩ := hsame x (mem_cons_of_mem _ hx)
    refine ⟨hnx, hpx ?_⟩
    rw [head?_cons, ne_eq, Option.some.injEq]
    rintro rfl
    exact hal hx

theorem getLast_mem_left (hdisj : ∀ x ∈ l, x ∉ r) {x : ℕ} (hx : x ∈ r) : l.getLast? ≠ some x :=
  fun h => hdisj x (mem_of_getLast? h) hx

theorem head_mem_right (hdisj : ∀ x ∈ l, x ∉ r) {x : ℕ} (hx : x ∈ l) : r.head? ≠ some x :=
  fun h => hdisj x hx (mem_of_mem_head? h)

/-- **A node is put in** between the two parts of a list. -/
theorem Threaded.link (h : Threaded next prev none none (l ++ r)) (hnodup : (l ++ r).Nodup)
    (ha : a ∉ l ++ r) :
    Threaded (update (set next l.getLast? (some a)) a r.head?)
      (update (set prev r.head? (some a)) a l.getLast?) none none (l ++ a :: r) := by
  obtain ⟨hl, hr⟩ := threaded_append.1 h
  obtain ⟨hnl, hnr, hdisj⟩ := nodup_append.1 hnodup
  have hdisj' : ∀ x ∈ l, x ∉ r := fun x hx hx' => hdisj x hx x hx' rfl
  rw [mem_append, not_or] at ha
  have hne : ∀ {x}, x ∈ l ∨ x ∈ r → x ≠ a := by
    rintro x hx rfl
    tauto
  refine threaded_append.2 ⟨hl.set_next hnl (fun x hx => ?_) fun x hx => ⟨?_, fun hlast => ?_⟩,
    ?_, ?_, hr.set_prev hnr (fun x hx => ?_) fun x hx => ⟨?_, fun hhead => ?_⟩⟩
  · rw [update_of_ne (hne (.inl (mem_of_getLast? hx))), set_apply, if_pos hx]
    rfl
  · rw [update_of_ne (hne (.inl hx)), set_apply, if_neg (head_mem_right hdisj' hx)]
  · rw [update_of_ne (hne (.inl hx)), set_apply, if_neg hlast]
  · rw [update_self, or_none]
  · rw [update_self, or_none]
  · rw [update_of_ne (hne (.inr (mem_of_mem_head? hx))), set_apply, if_pos hx]
  · rw [update_of_ne (hne (.inr hx)), set_apply, if_neg (getLast_mem_left hdisj' hx)]
  · rw [update_of_ne (hne (.inr hx)), set_apply, if_neg hhead]

/-- **A node is taken out** of a list. -/
theorem Threaded.unlink (h : Threaded next prev none none (l ++ a :: r))
    (hnodup : (l ++ a :: r).Nodup) :
    Threaded (set next l.getLast? r.head?) (set prev r.head? l.getLast?) none none (l ++ r) := by
  obtain ⟨hl, -, -, hr⟩ := threaded_append.1 h
  have hnodup' : (l ++ r).Nodup :=
    hnodup.sublist ((sublist_cons_self a r).append_left l)
  obtain ⟨hnl, hnr, hdisj⟩ := nodup_append.1 hnodup'
  have hdisj' : ∀ x ∈ l, x ∉ r := fun x hx hx' => hdisj x hx x hx' rfl
  refine threaded_append.2 ⟨hl.set_next hnl (fun x hx => ?_) fun x hx => ⟨?_, fun hlast => ?_⟩,
    hr.set_prev hnr (fun x hx => ?_) fun x hx => ⟨?_, fun hhead => ?_⟩⟩
  · rw [set_apply, if_pos hx, or_none]
  · rw [set_apply, if_neg (head_mem_right hdisj' hx)]
  · rw [set_apply, if_neg hlast]
  · rw [set_apply, if_pos hx, or_none]
  · rw [set_apply, if_neg (getLast_mem_left hdisj' hx)]
  · rw [set_apply, if_neg hhead]

end ThreadedList
