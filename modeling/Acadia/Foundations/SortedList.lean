import Mathlib.Data.List.Pairwise

/-! # Cutting sorted lists

In a list that is sorted by a relation `R`, a predicate that is closed downwards along `R` holds on a
prefix of the list and fails on the rest: taking or dropping while it holds is filtering by it. -/

namespace SortedList

open List

variable {α : Type*} {R : α → α → Prop} {p : α → Bool} {l : List α}

theorem filter_eq_nil_of_cons {a : α} (h : (a :: l).Pairwise R)
    (hp : ∀ x y, R x y → p y = true → p x = true) (ha : ¬ p a = true) : l.filter p = [] := by
  rw [filter_eq_nil_iff]
  intro x hx hpx
  exact ha (hp a x ((pairwise_cons.mp h).1 x hx) hpx)

theorem takeWhile_eq_filter (h : l.Pairwise R) (hp : ∀ x y, R x y → p y = true → p x = true) :
    l.takeWhile p = l.filter p := by
  induction l with
  | nil => rfl
  | cons a l ih =>
    by_cases ha : p a = true
    · rw [takeWhile_cons_of_pos ha, filter_cons_of_pos ha, ih (pairwise_cons.mp h).2]
    · rw [takeWhile_cons_of_neg ha, filter_cons_of_neg ha, filter_eq_nil_of_cons h hp ha]

theorem dropWhile_eq_filter (h : l.Pairwise R) (hp : ∀ x y, R x y → p y = true → p x = true) :
    l.dropWhile p = l.filter fun x => !p x := by
  induction l with
  | nil => rfl
  | cons a l ih =>
    by_cases ha : p a = true
    · rw [dropWhile_cons_of_pos ha, filter_cons_of_neg (by simp [ha]), ih (pairwise_cons.mp h).2]
    · rw [dropWhile_cons_of_neg ha, filter_cons_of_pos (by simp [ha])]
      congr 1
      refine (filter_eq_self.mpr fun x hx => ?_).symm
      have hnil := filter_eq_nil_iff.mp (filter_eq_nil_of_cons h hp ha) x hx
      simpa using hnil

theorem filter_append_filter_not (h : l.Pairwise R) (hp : ∀ x y, R x y → p y = true → p x = true) :
    l.filter p ++ l.filter (fun x => !p x) = l := by
  rw [← takeWhile_eq_filter h hp, ← dropWhile_eq_filter h hp]
  exact takeWhile_append_dropWhile

end SortedList
