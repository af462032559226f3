import Mathlib.Data.Tree.Basic
import Mathlib.Order.Lattice

/-! # Ordered binary trees and their zippers

A binary tree over labels `α` with a key function `key : α → K` into a linear order. It is *ordered* when its
in-order traversal `toList` is strictly increasing in the keys, and a *zipper* (a list of `Frame`s together with
the subtree in the hole) splits the traversal into the part `before` the hole, the subtree, and the part `after`
it. -/

namespace SearchTree

open List

variable {α : Type*} {K : Type*}

/-- The binary trees of this file: labels at the nodes, nothing at the leaves. -/
abbrev LabelTree (α : Type*) := BinaryTree α

/-- The in-order traversal of a tree. -/
def toList : BinaryTree α → List α
  | .nil => []
  | .node a l r => toList l ++ a :: toList r

@[simp] theorem toList_nil : toList (.nil : BinaryTree α) = [] := rfl

@[simp] theorem toList_node (a : α) (l r : BinaryTree α) : toList (.node a l r) = toList l ++ a :: toList r := rfl

/-- The label at the root, if there is one. -/
def rootLabel : BinaryTree α → Option α
  | .nil => none
  | .node a _ _ => some a

@[simp] theorem rootLabel_nil : rootLabel (.nil : BinaryTree α) = none := rfl

@[simp] theorem rootLabel_node (a : α) (l r : BinaryTree α) : rootLabel (.node a l r) = some a := rfl

variable {a : α}

theorem mem_toList_of_rootLabel {t : BinaryTree α} (h : rootLabel t = some a) : a ∈ toList t := by
  cases t with
  | nil => simp at h
  | node =>
    rw [rootLabel_node, Option.some.injEq] at h
    simp [h]

/-! ## Zippers -/

/-- Which child of its parent a subtree hangs from. -/
inductive Side where
  | left
  | right
  deriving DecidableEq

/-- One step of the path from a hole up to the root: the label of the node passed, the side on
which the hole hangs, and the subtree on the other side. -/
structure Frame (α : Type*) where
  /-- The side of the node on which the hole is. -/
  side : Side
  label : α
  /-- The subtree on the other side. -/
  sibling : BinaryTree α

/-- Put a subtree into the hole of one frame. -/
def Frame.fill (f : Frame α) (t : BinaryTree α) : BinaryTree α :=
  match f.side with
  | .left => .node f.label t f.sibling
  | .right => .node f.label f.sibling t

/-- Put a subtree into the hole of a path; the frame next to the hole comes first. -/
def plug : List (Frame α) → BinaryTree α → BinaryTree α
  | [], t => t
  | f :: fs, t => plug fs (f.fill t)

@[simp] theorem plug_nil (t : BinaryTree α) : plug [] t = t := rfl

@[simp] theorem plug_cons (f : Frame α) (fs : List (Frame α)) (t : BinaryTree α) :
    plug (f :: fs) t = plug fs (f.fill t) := rfl

/-- The labels that a frame contributes before its hole. -/
def Frame.before (f : Frame α) : List α :=
  match f.side with
  | .left => []
  | .right => toList f.sibling ++ [f.label]

/-- The labels that a frame contributes after its hole. -/
def Frame.after (f : Frame α) : List α :=
  match f.side with
  | .left => f.label :: toList f.sibling
  | .right => []

/-- The labels before the hole of a path, in order. -/
def before : List (Frame α) → List α
  | [] => []
  | f :: fs => before fs ++ f.before

/-- The labels after the hole of a path, in order. -/
def after : List (Frame α) → List α
  | [] => []
  | f :: fs => f.after ++ after fs

@[simp] theorem before_nil : before ([] : List (Frame α)) = [] := rfl

@[simp] theorem after_nil : after ([] : List (Frame α)) = [] := rfl

@[simp] theorem before_cons (f : Frame α) (fs : List (Frame α)) : before (f :: fs) = before fs ++ f.before := rfl

@[simp] theorem after_cons (f : Frame α) (fs : List (Frame α)) : after (f :: fs) = f.after ++ after fs := rfl

theorem toList_fill (f : Frame α) (t : BinaryTree α) : toList (f.fill t) = f.before ++ toList t ++ f.after := by
  obtain ⟨side, label, sibling⟩ := f
  cases side <;> simp [Frame.fill, Frame.before, Frame.after]

/-- **The zipper splits the traversal**: what comes before the hole, the subtree in it, and what
comes after. -/
theorem toList_plug (fs : List (Frame α)) (t : BinaryTree α) :
    toList (plug fs t) = before fs ++ toList t ++ after fs := by
  induction fs generalizing t with
  | nil => simp
  | cons f _ ih =>
    rw [plug_cons, ih, toList_fill, before_cons, after_cons]
    simp only [append_assoc]

/-- The nearest label above the hole, if the hole is not at the root. -/
def topLabel : List (Frame α) → Option α
  | [] => none
  | f :: _ => some f.label

@[simp] theorem topLabel_nil : topLabel ([] : List (Frame α)) = none := rfl

theorem length_le_length_toList_plug (fs : List (Frame α)) (t : BinaryTree α) :
    fs.length + (toList t).length ≤ (toList (plug fs t)).length := by
  induction fs generalizing t with
  | nil => simp
  | cons f _ ih =>
    have hfill : (toList t).length + 1 ≤ (toList (f.fill t)).length := by
      obtain ⟨side, label, sibling⟩ := f
      cases side <;> simp [Frame.fill]
    have hrest := ih (f.fill t)
    rw [plug_cons, length_cons]
    omega

/-! ## The leftmost node -/

/-- The subtree at the leftmost node: that node with its right subtree and no left one. -/
def minNode : BinaryTree α → BinaryTree α
  | .nil => .nil
  | .node a .nil r => .node a .nil r
  | .node _ (.node b l r) _ => minNode (.node b l r)

theorem toList_minNode_isPrefix (t : BinaryTree α) : toList (minNode t) <+: toList t := by
  fun_induction minNode t with
  | case1 | case2 => exact prefix_refl _
  | case3 a b l r _ ih => exact ih.trans (prefix_append _ _)

/-! ## Ordered trees and the search path -/

variable [LinearOrder K] (key : α → K)

/-- A tree is ordered when its traversal is strictly increasing in the keys. -/
def Ordered (t : BinaryTree α) : Prop := (toList t).Pairwise fun a b => key a < key b

/-- The search path for `k`: walk down from a hole with path `fs`, stopping at the node with key
`k` or at the empty subtree where it would be. -/
def descend (k : K) : BinaryTree α → List (Frame α) → List (Frame α) × BinaryTree α
  | .nil, fs => (fs, .nil)
  | .node a l r, fs =>
    if k = key a then (fs, .node a l r)
    else if k < key a then descend k l (⟨.left, a, r⟩ :: fs)
    else descend k r (⟨.right, a, l⟩ :: fs)

theorem plug_descend (k : K) (t : BinaryTree α) (fs : List (Frame α)) :
    plug (descend key k t fs).1 (descend key k t fs).2 = plug fs t := by
  fun_induction descend key k t fs with
  | case1 | case2 => rfl
  | case3 a l r _ h _ ih => rw [ih]; rfl
  | case4 a l r _ h _ ih => rw [ih]; rfl

theorem descend_snd (k : K) (t : BinaryTree α) (fs : List (Frame α)) :
    (descend key k t fs).2 = .nil ∨ ∃ a l r, (descend key k t fs).2 = .node a l r ∧ key a = k := by
  fun_induction descend key k t fs with
  | case1 => exact Or.inl rfl
  | case2 a l r _ h => exact Or.inr ⟨a, l, r, rfl, h.symm⟩
  | case3 a l r _ h _ ih => exact ih
  | case4 a l r _ h _ ih => exact ih

variable {key} {k : K}

theorem ordered_node {l r : BinaryTree α} : Ordered key (.node a l r) ↔
      Ordered key l ∧ Ordered key r ∧ (∀ x ∈ toList l, key x < key a) ∧ ∀ x ∈ toList r, key a < key x := by
  rw [Ordered, toList_node, pairwise_append, pairwise_cons]
  constructor
  · rintro ⟨hl, ⟨har, hr⟩, hlr⟩
    exact ⟨hl, hr, fun x hx => hlr x hx a (mem_cons_self ..), har⟩
  · rintro ⟨hl, hr, hla, har⟩
    refine ⟨hl, ⟨har, hr⟩, fun x hx y hy => ?_⟩
    rcases mem_cons.mp hy with rfl | hy
    · exact hla x hx
    · exact (hla x hx).trans (har y hy)

/-- **The search path separates the keys**: in an ordered tree every label before the hole lies
below `k` and every label after it lies above. -/
theorem descend_separates {t : BinaryTree α} {fs : List (Frame α)} (ht : Ordered key t)
    (hb : ∀ x ∈ before fs, key x < k) (ha : ∀ x ∈ after fs, k < key x) :
    (∀ x ∈ before (descend key k t fs).1, key x < k) ∧ ∀ x ∈ after (descend key k t fs).1, k < key x := by
  fun_induction descend key k t fs with
  | case1 | case2 => exact ⟨hb, ha⟩
  | case3 a l r _ h hlt ih =>
    obtain ⟨hl, -, -, har⟩ := ordered_node.mp ht
    refine ih hl (by simpa [Frame.before] using hb) fun x hx => ?_
    rw [after_cons, mem_append] at hx
    rcases hx with hx | hx
    · rcases mem_cons.mp hx with rfl | hx
      · exact hlt
      · exact hlt.trans (har x hx)
    · exact ha x hx
  | case4 a l r _ h hlt ih =>
    obtain ⟨-, hr, hla, -⟩ := ordered_node.mp ht
    have hgt : key a < k := lt_of_le_of_ne (not_lt.mp hlt) (Ne.symm h)
    refine ih hr (fun x hx => ?_) (by simpa [Frame.after] using ha)
    rw [before_cons, mem_append] at hx
    rcases hx with hx | hx
    · exact hb x hx
    · rcases mem_append.mp hx with hx | hx
      · exact (hla x hx).trans hgt
      · rw [mem_singleton.mp hx]; exact hgt

/-! ## Lookup in a separated list -/

variable {pre post : List α}

theorem find?_of_separated (hpre : ∀ x ∈ pre, key x ≠ k)
    (ha : key a = k) : (pre ++ a :: post).find? (fun x => key x = k) = some a := by
  have hnone : pre.find? (fun x => key x = k) = none :=
    List.find?_eq_none.mpr fun x hx => by simpa using hpre x hx
  rw [List.find?_append, hnone, Option.none_or, List.find?_cons_of_pos (by simpa using ha)]

/-- A list without the key `k` has nothing to look up. -/
theorem find?_eq_none_of_ne {xs : List α} (h : ∀ x ∈ xs, key x ≠ k) : xs.find? (fun x => key x = k) = none :=
  List.find?_eq_none.mpr fun x hx => by simpa using h x hx

/-- The labels below and above `k` in a list that `k` splits. -/
theorem filter_of_separated {mid : List α} (hpre : ∀ x ∈ pre, key x < k) (hmid : ∀ x ∈ mid, key x = k)
    (hpost : ∀ x ∈ post, k < key x) : (pre ++ mid ++ post).filter (fun x => key x < k) = pre ∧
      (pre ++ mid ++ post).filter (fun x => k < key x) = post := by
  have hnone : ∀ {xs : List α} {p : α → Bool}, (∀ x ∈ xs, p x = false) → xs.filter p = [] := fun h =>
    filter_eq_nil_iff.mpr fun x hx => by simp [h x hx]
  rw [filter_append, filter_append, filter_append, filter_append]
  constructor
  · rw [filter_eq_self.mpr (by simpa using hpre), hnone fun x hx => by simp [hmid x hx],
      hnone fun x hx => by simp [(hpost x hx).le], append_nil, append_nil]
  · rw [hnone fun x hx => by simp [(hpre x hx).le], hnone fun x hx => by simp [hmid x hx],
      filter_eq_self.mpr (by simpa using hpost), nil_append, nil_append]

end SearchTree
