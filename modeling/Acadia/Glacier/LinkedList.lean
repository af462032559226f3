import Mathlib.Data.List.Nodup
import Mathlib.Data.List.Perm.Subperm

/-! # `glcr::LinkedList`

`glacier/container/linked_list.h` on a heap of its own: the cells that the list has made, by number, where
`none` is a deleted cell. A function without a result follows a null or dangling pointer. `Represents l xs`
says that the cells from `front_` on hold the elements of `xs`, and that no cell is used twice. -/

namespace Acadia.Glacier

open List

/-- A `ListItem`. -/
structure ListItem (T : Type) where
  item : T
  next : Option Nat

/-- A `LinkedList`. -/
structure LinkedList (T : Type) where
  /-- The cells, by number. -/
  items : List (Option (ListItem T)) := []
  front : Option Nat := none
  size : Nat := 0

namespace LinkedList

variable {T : Type}

/-- A cell that was not deleted. -/
def read (items : List (Option (ListItem T))) (p : Nat) : Option (ListItem T) := (items[p]?).join

/-- `empty`. -/
def empty (l : LinkedList T) : Bool := l.size = 0

/-- `PeekFront`. -/
def peekFront (l : LinkedList T) : Option T := do
  let p ← l.front
  let cell ← read l.items p
  return cell.item

/-- The loop of `PushBackInternal`: the last cell. -/
def lastItem (items : List (Option (ListItem T))) : Nat → Nat → Option Nat
  | fuel, p =>
    match read items p with
    | none => none
    | some ⟨_, none⟩ => some p
    | some ⟨_, some q⟩ =>
      match fuel with
      | 0 => none
      | fuel + 1 => lastItem items fuel q

/-- `PushBack`. -/
def pushBack (l : LinkedList T) (item : T) : Option (LinkedList T) :=
  let newItem := l.items.length
  let items := l.items ++ [some ⟨item, none⟩]
  match l.front with
  | none => some { items, front := some newItem, size := l.size + 1 }
  | some front => do
    let last ← lastItem items items.length front
    let cell ← read items last
    return { l with
      items := items.set last (some { cell with next := some newItem })
      size := l.size + 1 }

/-- `PopFront`. -/
def popFront (l : LinkedList T) : Option (T × LinkedList T) := do
  let oldFront ← l.front
  let cell ← read l.items oldFront
  return (cell.item,
    { items := l.items.set oldFront none, front := cell.next, size := l.size - 1 })

/-! ## The elements of a list -/

/-- The cells `ps` are linked in this order from `front` on, and hold `xs`. -/
def Linked (items : List (Option (ListItem T))) : Option Nat → List Nat → List T → Prop
  | front, [], [] => front = none
  | front, p :: ps, x :: xs => front = some p ∧
    ∃ next, read items p = some ⟨x, next⟩ ∧ Linked items next ps xs
  | _, _, _ => False

/-- **The list has the elements `xs`.** -/
def Represents (l : LinkedList T) (xs : List T) : Prop :=
  l.size = xs.length ∧ ∃ ps, ps.Nodup ∧ Linked l.items l.front ps xs

theorem represents_nil : Represents ({} : LinkedList T) [] :=
  ⟨rfl, [], nodup_nil, rfl⟩

variable {items : List (Option (ListItem T))}

theorem lt_length_of_read {p : Nat} {cell : ListItem T} (h : read items p = some cell) : p < items.length := by
  by_contra hge
  rw [read, getElem?_eq_none (Nat.le_of_not_lt hge)] at h
  cases h

theorem read_set_of_ne {p q : Nat} (h : p ≠ q) (cell : Option (ListItem T)) :
    read (items.set q cell) p = read items p := by
  rw [read, read, getElem?_set_ne h.symm]

theorem read_set_self {p : Nat} (h : p < items.length) (cell : Option (ListItem T)) :
    read (items.set p cell) p = cell := by
  rw [read, getElem?_set_self h]
  rfl

variable {front : Option Nat} {ps : List Nat} {xs : List T}

theorem Linked.congr {items' : List (Option (ListItem T))} (h : Linked items front ps xs)
    (hsame : ∀ p ∈ ps, read items' p = read items p) : Linked items' front ps xs := by
  induction ps generalizing front xs with
  | nil =>
    cases xs with
    | nil | cons => exact h
  | cons p _ ih =>
    cases xs with
    | nil => exact h
    | cons =>
      obtain ⟨hfront, next, hread, hrest⟩ := h
      rw [forall_mem_cons] at hsame
      exact ⟨hfront, next, by rw [hsame.1, hread], ih hrest hsame.2⟩

theorem Linked.lt_length (h : Linked items front ps xs) : ∀ p ∈ ps, p < items.length := by
  induction ps generalizing front xs with
  | nil => simp
  | cons p _ ih =>
    cases xs with
    | nil => exact absurd h id
    | cons =>
      obtain ⟨-, next, hread, hrest⟩ := h
      rw [forall_mem_cons]
      exact ⟨lt_length_of_read hread, ih hrest⟩

theorem Linked.length_le (h : Linked items front ps xs) (hnodup : ps.Nodup) : ps.length ≤ items.length := by
  have hsub : ps ⊆ List.range items.length := fun p hp => mem_range.mpr (h.lt_length p hp)
  simpa using (subperm_of_subset hnodup hsub).length_le

/-- The loop of `PushBackInternal` finds the last cell, and one more cell can be linked to it. -/
theorem Linked.lastItem {p : Nat} (h : Linked items (some p) (p :: ps) xs) (hnodup : (p :: ps).Nodup) {fuel : Nat}
    (hfuel : ps.length ≤ fuel) {q : Nat} {y : T} (hq : q ∉ p :: ps) (hy : read items q = some ⟨y, none⟩) :
    ∃ last cell, LinkedList.lastItem items fuel p = some last ∧ last ∈ p :: ps ∧ read items last = some cell ∧
      Linked (items.set last (some { cell with next := some q })) (some p) (p :: ps ++ [q]) (xs ++ [y]) := by
  induction ps generalizing p xs fuel with
  | nil =>
    obtain - | ⟨x, xs⟩ := xs
    · exact absurd h id
    obtain ⟨-, next, hread, hrest⟩ := h
    obtain - | ⟨x', xs⟩ := xs
    case cons => exact absurd hrest id
    have hnext : next = none := hrest
    subst hnext
    have hqp : q ≠ p := fun heq => hq (by simp [heq])
    refine ⟨p, ⟨x, none⟩, ?_, by simp, hread, rfl, some q, ?_, rfl, none, ?_, rfl⟩
    · rw [LinkedList.lastItem, hread]
    · rw [read_set_self (lt_length_of_read hread)]
    · rw [read_set_of_ne hqp, hy]
  | cons p' _ ih =>
    obtain - | ⟨x, xs⟩ := xs
    · exact absurd h id
    obtain ⟨-, next, hread, hrest⟩ := h
    have hnext : next = some p' := by
      obtain - | ⟨x', xs⟩ := xs
      · exact absurd hrest id
      · exact hrest.1
    subst hnext
    obtain - | fuel := fuel
    · exact absurd hfuel (by simp)
    rw [nodup_cons] at hnodup
    rw [mem_cons, not_or] at hq
    obtain ⟨last, cell, hlast, hmem, hcell, hlinked⟩ :=
      ih hrest hnodup.2 (by simpa using hfuel) hq.2
    refine ⟨last, cell, ?_, mem_cons_of_mem _ hmem, hcell, rfl, some p', ?_, hlinked⟩
    · rw [LinkedList.lastItem, hread]
      exact hlast
    · rw [read_set_of_ne (fun heq : p = last => hnodup.1 (heq ▸ hmem)), hread]

/-! ## The operations -/

variable {l : LinkedList T}

theorem Represents.empty_iff (h : Represents l xs) : l.empty = true ↔ xs = [] := by
  rw [empty, decide_eq_true_eq, h.1, length_eq_zero_iff]

/-- **`PushBack` adds an element at the end.** -/
theorem Represents.pushBack (h : Represents l xs) (y : T) :
    ∃ l', l.pushBack y = some l' ∧ Represents l' (xs ++ [y]) := by
  obtain ⟨hsize, ps, hnodup, hlinked⟩ := h
  have hold : ∀ p ∈ ps, read (l.items ++ [some ⟨y, none⟩]) p = read l.items p := fun p hp => by
    rw [read, read, getElem?_append_left (hlinked.lt_length p hp)]
  have hnew : read (l.items ++ [some ⟨y, none⟩]) l.items.length = some ⟨y, none⟩ := by
    rw [read, getElem?_concat_length]
    rfl
  have hfresh : l.items.length ∉ ps := fun hmem => Nat.lt_irrefl _ (hlinked.lt_length _ hmem)
  rw [LinkedList.pushBack]
  obtain - | ⟨p, ps⟩ := ps
  · -- the list was empty
    obtain - | ⟨x, xs⟩ := xs
    case cons => exact absurd hlinked id
    have hfront : l.front = none := hlinked
    simp only [hfront]
    refine ⟨_, rfl, ?_, [l.items.length], nodup_singleton _, rfl, none, hnew, rfl⟩
    rw [hsize]
    rfl
  have hfront : l.front = some p := by
    obtain - | ⟨x, xs⟩ := xs
    · exact absurd hlinked id
    · exact hlinked.1
  rw [hfront] at hlinked
  have hlinked' := hlinked.congr hold
  have hfuel : ps.length ≤ (l.items ++ [some (⟨y, none⟩ : ListItem T)]).length :=
    Nat.le_of_succ_le (hlinked'.length_le hnodup)
  obtain ⟨last, cell, hlast, -, hcell, hnext⟩ := hlinked'.lastItem hnodup hfuel hfresh hnew
  simp only [hfront, hlast, hcell, Option.bind_eq_bind, Option.bind_some]
  refine ⟨_, rfl, ?_, p :: ps ++ [l.items.length], ?_, hnext⟩
  · rw [length_append, ← hsize]
    rfl
  · rw [← concat_eq_append]
    exact hnodup.concat hfresh

/-- **`PopFront` takes the first element.** -/
theorem Represents.popFront {x : T} (h : Represents l (x :: xs)) :
    l.peekFront = some x ∧ ∃ l', l.popFront = some (x, l') ∧ Represents l' xs := by
  obtain ⟨hsize, ps, hnodup, hlinked⟩ := h
  obtain - | ⟨p, ps⟩ := ps
  · exact absurd hlinked id
  obtain ⟨hfront, next, hread, hrest⟩ := hlinked
  rw [nodup_cons] at hnodup
  refine ⟨?_, ⟨l.items.set p none, next, l.size - 1⟩, ?_, ?_, ps, hnodup.2, ?_⟩
  · rw [peekFront, hfront]
    simp only [Option.bind_eq_bind, Option.bind_some, hread]
    rfl
  · rw [LinkedList.popFront, hfront]
    simp only [Option.bind_eq_bind, Option.bind_some, hread]
    rfl
  · show l.size - 1 = xs.length
    rw [hsize]
    rfl
  · exact hrest.congr fun p' hp' => read_set_of_ne (fun heq : p' = p => hnodup.1 (heq ▸ hp')) none

/-- **`PeekFront` and `PopFront` of an empty list follow a null pointer.** -/
theorem Represents.popFront_nil (h : Represents l []) : l.peekFront = none ∧ l.popFront = none := by
  obtain ⟨-, ps, -, hlinked⟩ := h
  obtain - | ⟨p, ps⟩ := ps
  · have hfront : l.front = none := hlinked
    rw [peekFront, LinkedList.popFront, hfront]
    exact ⟨rfl, rfl⟩
  · exact absurd hlinked id

end LinkedList

end Acadia.Glacier
