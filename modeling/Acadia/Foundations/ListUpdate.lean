import Mathlib.Data.List.Perm.Basic

/-! # Lists with one element replaced

What `map` and `flatMap` see of an update at one position. -/

namespace ListUpdate

open List

variable {α β : Type*}

theorem map_set_of_eq {f : α → β} {l : List α} {i : Nat} {a a' : α} (h : l[i]? = some a)
    (heq : f a' = f a) : (l.set i a').map f = l.map f := by
  rw [map_set, heq]
  refine ext_getElem? fun k => ?_
  by_cases hk : i = k
  · subst hk
    rw [getElem?_set_self', getElem?_map, h]
    rfl
  · rw [getElem?_set_ne hk]

/-- **An update exchanges the parts** that belong to the old and the new element. -/
theorem flatMap_set_perm {f : α → List β} {l : List α} {i : Nat} {a : α} (a' : α) (h : l[i]? = some a) :
    f a ++ (l.set i a').flatMap f ~ f a' ++ l.flatMap f := by
  classical
  induction l generalizing i with
  | nil => simp at h
  | cons b l ih =>
    cases i with
    | zero =>
      obtain rfl : b = a := by simpa using h
      rw [set_cons_zero, flatMap_cons, flatMap_cons, ← append_assoc, ← append_assoc]
      exact perm_append_comm.append_right _
    | succ i =>
      have hperm := ih (i := i) (by simpa using h)
      rw [perm_iff_count] at hperm ⊢
      intro g
      have hcount := hperm g
      simp only [set_cons_succ, flatMap_cons, count_append] at hcount ⊢
      omega

/-- **A change of one part of a list of lists.** -/
theorem flatten_modify_perm {l : List (List α)} {i : Nat} {a : List α} (g : List α → List α)
    (h : l[i]? = some a) : a ++ (l.modify i g).flatten ~ g a ++ l.flatten := by
  rw [modify_eq_set_getElem?, h, ← flatMap_id, ← flatMap_id]
  exact flatMap_set_perm (f := id) (g a) h

theorem flatMap_modify_of_eq {f : α → List β} {g : α → α} {l : List α} {i : Nat}
    (h : ∀ a, l[i]? = some a → f (g a) = f a) : (l.modify i g).flatMap f = l.flatMap f := by
  induction l generalizing i with
  | nil => simp
  | cons b l ih =>
    cases i with
    | zero =>
      rw [modify_zero_cons, flatMap_cons, flatMap_cons, h b rfl]
    | succ i =>
      rw [modify_succ_cons, flatMap_cons, flatMap_cons, ih]
      exact fun a ha => h a (by simpa using ha)

end ListUpdate
