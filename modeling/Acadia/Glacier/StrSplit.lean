import Mathlib.Data.List.Basic

/-! # `glcr::StrSplit`

The loop of `glacier/string/str_split.cpp` over the positions of a delimiter. A `StringView` is the list of its
characters, and `none` is `npos`. -/

namespace Acadia.Glacier

open List

namespace StringView

variable {α : Type}

/-- `StringView::substr`. -/
def substr (str : List α) (start count : Nat) : List α :=
  if start ≥ str.length then []
  else (str.drop start).take (if start + count > str.length then str.length - start else count)

theorem substr_eq (str : List α) (start count : Nat) : substr str start count = (str.drop start).take count := by
  unfold substr
  split_ifs with hstart hcount
  · rw [drop_of_length_le hstart, take_nil]
  · rw [← length_drop, take_length, take_of_length_le (by rw [length_drop]; omega)]
  · rfl

variable [DecidableEq α] {str : List α} {c : α} {pos n : Nat}

/-- `StringView::find`. -/
def find (str : List α) (c : α) (pos : Nat) : Option Nat :=
  if h : pos < str.length then if str[pos] = c then some pos else find str c (pos + 1) else none
termination_by str.length - pos

/-- `find` returns the first position of the character from `pos` on. -/
theorem find_eq_some (h : find str c pos = some n) :
    pos ≤ n ∧ str.drop n = c :: str.drop (n + 1) ∧ c ∉ (str.drop pos).take (n - pos) := by
  fun_induction find str c pos with
  | case1 pos hlt heq =>
    cases h
    refine ⟨Nat.le_refl _, heq ▸ drop_eq_getElem_cons hlt, ?_⟩
    rw [Nat.sub_self]
    exact not_mem_nil
  | case2 pos hlt hne ih =>
    obtain ⟨hle, hdrop, hnot⟩ := ih h
    refine ⟨Nat.le_of_lt hle, hdrop, ?_⟩
    rw [drop_eq_getElem_cons hlt, show n - pos = n - (pos + 1) + 1 by omega, take_succ_cons, mem_cons, not_or]
    exact ⟨Ne.symm hne, hnot⟩
  | case3 => cases h

theorem find_eq_none (h : find str c pos = none) : c ∉ str.drop pos := by
  fun_induction find str c pos with
  | case1 => cases h
  | case2 pos hlt hne ih =>
    rw [drop_eq_getElem_cons hlt, mem_cons, not_or]
    exact ⟨Ne.symm hne, ih h⟩
  | case3 pos hge =>
    rw [drop_of_length_le (Nat.le_of_not_lt hge)]
    exact not_mem_nil

theorem lt_length_of_find (h : find str c pos = some n) : str.length - (n + 1) < str.length - pos := by
  obtain ⟨hle, hdrop, -⟩ := find_eq_some h
  have hlength := congrArg length hdrop
  rw [length_cons, length_drop, length_drop] at hlength
  omega

end StringView

open StringView

variable {α : Type} [DecidableEq α]

theorem not_mem_of_mem_splitOn (x : α) (s : List α) : ∀ piece ∈ s.splitOn x, x ∉ piece := by
  induction s with
  | nil => simp
  | cons y s ih =>
    rw [splitOn_cons_eq_if_modifyHead]
    split
    · simpa using ih
    · rename_i hne
      cases hs : s.splitOn x with
      | nil => exact absurd hs (splitOn_ne_nil _ _)
      | cons first rest =>
        rw [hs, forall_mem_cons] at ih
        rw [modifyHead_cons, forall_mem_cons, mem_cons, not_or]
        exact ⟨⟨fun heq => hne (beq_iff_eq.mpr heq.symm), ih.1⟩, ih.2⟩

/-- The loop of `StrSplit`. -/
def splitLoop (str : List α) (delimiter : α) (curPos : Nat) : List (List α) :=
  match h : find str delimiter curPos with
  | some nextPos => substr str curPos (nextPos - curPos) :: splitLoop str delimiter (nextPos + 1)
  | none => [substr str curPos (str.length - curPos)]
termination_by str.length - curPos
decreasing_by exact lt_length_of_find h

/-- `StrSplit`. -/
def strSplit (str : List α) (delimiter : α) : List (List α) := splitLoop str delimiter 0

/-- **`StrSplit` splits at every delimiter.** -/
theorem splitLoop_eq_splitOn (str : List α) (delimiter : α) (curPos : Nat) :
    splitLoop str delimiter curPos = (str.drop curPos).splitOn delimiter := by
  fun_induction splitLoop str delimiter curPos with
  | case1 curPos nextPos h ih =>
    obtain ⟨hle, hdrop, hnot⟩ := find_eq_some h
    have hrest : (str.drop curPos).drop (nextPos - curPos) = delimiter :: str.drop (nextPos + 1) := by
      rw [drop_drop, Nat.add_sub_cancel' hle, hdrop]
    rw [ih, substr_eq, ← splitOn_append_cons_self_of_not_mem hnot, ← hrest, take_append_drop]
  | case2 curPos h =>
    rw [splitOn_eq_singleton (find_eq_none h), substr_eq, ← length_drop, take_length]

/-- **What `StrSplit` returns**: the pieces between the delimiters, from which the string can be read back. -/
theorem strSplit_spec (str : List α) (delimiter : α) :
    strSplit str delimiter ≠ [] ∧ (∀ piece ∈ strSplit str delimiter, delimiter ∉ piece) ∧
      [delimiter].intercalate (strSplit str delimiter) = str ∧
      (∀ str', strSplit (str ++ delimiter :: str') delimiter = strSplit str delimiter ++ strSplit str' delimiter) ∧
      ∀ str', strSplit str' delimiter = strSplit str delimiter → str' = str := by
  have hsplit : ∀ s : List α, strSplit s delimiter = s.splitOn delimiter :=
    fun s => splitLoop_eq_splitOn s delimiter 0
  simp only [hsplit]
  refine ⟨splitOn_ne_nil _ _, not_mem_of_mem_splitOn _ _, intercalate_splitOn _,
    splitOn_append_cons_self str, fun str' h => ?_⟩
  have hjoin := congrArg [delimiter].intercalate h
  rwa [intercalate_splitOn, intercalate_splitOn] at hjoin

end Acadia.Glacier
