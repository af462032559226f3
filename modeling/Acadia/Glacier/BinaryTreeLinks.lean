import Acadia.Glacier.BinaryTree
import Mathlib.Data.List.Perm.Subperm

/-! # The shape held by a linked tree

`Links nodes parent s` says that the cells of `nodes` at the pointers of the shape `s` are exactly the nodes of
`s`, with their child and parent links. `Represents t s` adds that `t.root` points at `s`, that no cell occurs
twice, and that `s` is ordered. The loops of `BinaryTree` are then walks in the shape: down along the search
path (`findLoop_eq`), to the ends of a subtree (`leftmost_eq`, `rightmost_eq`) and up along the path
(`climb_eq`). -/

namespace Acadia.Glacier

open SearchTree List

open scoped List

variable {K V : Type}

/-- A node of the shape: where it is allocated, and what it stores. -/
structure Slot (K V : Type) where
  ptr : Nat
  key : K
  value : V
  deriving DecidableEq

/-- The shape of a linked tree: which node hangs where. -/
abbrev Shape (K V : Type) := LabelTree (Slot K V)

/-- The path from a hole of a shape up to its root. -/
abbrev Path (K V : Type) := List (Frame (Slot K V))

namespace BinaryTree

/-- The pointers of a shape, in order. -/
def ptrs (s : Shape K V) : List Nat := (toList s).map Slot.ptr

/-- The pointer to the root of a shape. -/
def rootPtr (s : Shape K V) : Option Nat := (rootLabel s).map Slot.ptr

/-- The pointer to the node above a hole. -/
def topPtr (fs : Path K V) : Option Nat := (topLabel fs).map Slot.ptr

/-- The pointers along a path and in the subtrees that hang off it. -/
def pathPtrs (fs : Path K V) : List Nat := (before fs ++ after fs).map Slot.ptr

@[simp] theorem rootPtr_nil : rootPtr (.nil : Shape K V) = none := rfl

@[simp] theorem rootPtr_node (a : Slot K V) (l r : Shape K V) : rootPtr (.node a l r) = some a.ptr := rfl

@[simp] theorem topPtr_nil : topPtr ([] : Path K V) = none := rfl

@[simp] theorem topPtr_cons (f : Frame (Slot K V)) (fs : Path K V) : topPtr (f :: fs) = some f.label.ptr := rfl

@[simp] theorem ptrs_nil : ptrs (.nil : Shape K V) = [] := rfl

@[simp] theorem ptrs_node (a : Slot K V) (l r : Shape K V) : ptrs (.node a l r) = ptrs l ++ a.ptr :: ptrs r := by
  simp [ptrs]

@[simp] theorem pathPtrs_nil : pathPtrs ([] : Path K V) = [] := rfl

variable {s : Shape K V} {p fuel : Nat}

theorem mem_ptrs_of_rootPtr (h : rootPtr s = some p) : p ∈ ptrs s := by
  obtain ⟨a, ha, rfl⟩ := Option.map_eq_some_iff.mp h
  exact mem_map_of_mem (mem_toList_of_rootLabel ha)

theorem pathPtrs_cons_perm (f : Frame (Slot K V)) (fs : Path K V) :
    (pathPtrs (f :: fs)).Perm (f.label.ptr :: (ptrs f.sibling ++ pathPtrs fs)) := by
  obtain ⟨side, label, sibling⟩ := f
  cases side <;> simp only [pathPtrs, before_cons, after_cons, Frame.before, Frame.after, ptrs,
    map_append, map_cons, append_nil, nil_append, append_assoc,
    cons_append]
  · refine perm_middle.trans (List.Perm.cons _ ?_)
    exact perm_append_comm_assoc _ _ _
  · calc (before fs).map Slot.ptr ++ ((toList sibling).map Slot.ptr ++ label.ptr :: (after fs).map Slot.ptr)
        ~ (toList sibling).map Slot.ptr ++ ((before fs).map Slot.ptr ++ label.ptr ::
          (after fs).map Slot.ptr) := perm_append_comm_assoc _ _ _
      _ ~ (toList sibling).map Slot.ptr ++ label.ptr :: ((before fs).map Slot.ptr ++
          (after fs).map Slot.ptr) := List.Perm.append_left _ perm_middle
      _ ~ _ := perm_middle

theorem ptrs_plug_perm (fs : Path K V) (s : Shape K V) : (ptrs (plug fs s)).Perm (pathPtrs fs ++ ptrs s) := by
  rw [ptrs, toList_plug, pathPtrs, ptrs, ← map_append]
  refine List.Perm.map _ ?_
  simp only [append_assoc]
  exact List.Perm.append_left _ perm_append_comm

/-! ## Shapes in the heap -/

/-- The heap cells at the pointers of a shape are its nodes; `parent` is the parent link of its
root. -/
def Links (nodes : List (BinaryNode K V)) : Option Nat → Shape K V → Prop
  | _, .nil => True
  | parent, .node a l r =>
    nodes[a.ptr]? = some ⟨a.key, a.value, rootPtr l, rootPtr r, parent⟩ ∧
      Links nodes (some a.ptr) l ∧ Links nodes (some a.ptr) r

/-- The node of a frame when `hole` points at what hangs in its hole. -/
def frameNode (f : Frame (Slot K V)) (hole parent : Option Nat) : BinaryNode K V :=
  match f.side with
  | .left => ⟨f.label.key, f.label.value, hole, rootPtr f.sibling, parent⟩
  | .right => ⟨f.label.key, f.label.value, rootPtr f.sibling, hole, parent⟩

/-- The heap cells along a path are its nodes; `hole` points at what hangs in the hole. -/
def PathLinks (nodes : List (BinaryNode K V)) : Path K V → Option Nat → Prop
  | [], _ => True
  | f :: fs, hole =>
    nodes[f.label.ptr]? = some (frameNode f hole (topPtr fs)) ∧
      Links nodes (some f.label.ptr) f.sibling ∧ PathLinks nodes fs (some f.label.ptr)

variable {nodes nodes' : List (BinaryNode K V)} {parent hole : Option Nat}

theorem links_node {a : Slot K V} {l r : Shape K V} : Links nodes parent (.node a l r) ↔
      nodes[a.ptr]? = some ⟨a.key, a.value, rootPtr l, rootPtr r, parent⟩ ∧
        Links nodes (some a.ptr) l ∧ Links nodes (some a.ptr) r := Iff.rfl

theorem rootPtr_fill (f : Frame (Slot K V)) (s : Shape K V) : rootPtr (f.fill s) = some f.label.ptr := by
  obtain ⟨side, label, sibling⟩ := f
  cases side <;> rfl

variable {f : Frame (Slot K V)}

theorem links_fill : Links nodes parent (f.fill s) ↔ nodes[f.label.ptr]? = some (frameNode f (rootPtr s) parent) ∧
        Links nodes (some f.label.ptr) f.sibling ∧ Links nodes (some f.label.ptr) s := by
  obtain ⟨side, label, sibling⟩ := f
  cases side
  · exact links_node.trans (and_congr_right fun _ => and_comm)
  · exact links_node

variable {fs : Path K V}

/-- **The zipper splits the heap**: a shape is linked when the path to a hole is, and the subtree
in the hole is linked below it. -/
theorem links_plug : Links nodes none (plug fs s) ↔ PathLinks nodes fs (rootPtr s) ∧ Links nodes (topPtr fs) s := by
  induction fs generalizing s with
  | nil => simp [PathLinks]
  | cons f _ ih =>
    rw [plug_cons, ih, rootPtr_fill, links_fill, PathLinks, topPtr_cons]
    tauto

theorem rootPtr_plug_cons (f : Frame (Slot K V)) (fs : Path K V) :
    ∃ p, p ∈ pathPtrs (f :: fs) ∧ ∀ s : Shape K V, rootPtr (plug (f :: fs) s) = some p := by
  induction fs generalizing f with
  | nil => exact ⟨f.label.ptr, (pathPtrs_cons_perm f []).mem_iff.mpr (by simp), rootPtr_fill f⟩
  | cons g fs ih =>
    obtain ⟨p, hp, hroot⟩ := ih g
    exact ⟨p, (pathPtrs_cons_perm f (g :: fs)).mem_iff.mpr (by simp [hp]), fun s => hroot (f.fill s)⟩

/-- A shape only depends on the cells at its own pointers. -/
theorem Links.congr (h : Links nodes parent s) (heq : ∀ p ∈ ptrs s, nodes'[p]? = nodes[p]?) :
    Links nodes' parent s := by
  induction s generalizing parent with
  | nil => trivial
  | node a l r ihl ihr =>
    obtain ⟨hnode, hl, hr⟩ := links_node.mp h
    refine links_node.mpr ⟨?_, ihl hl fun p hp => heq p (by simp [hp]), ihr hr fun p hp => heq p (by simp [hp])⟩
    rw [heq a.ptr (by simp), hnode]

/-- A path only depends on the cells at its own pointers. -/
theorem PathLinks.congr (h : PathLinks nodes fs hole)
    (heq : ∀ p ∈ pathPtrs fs, nodes'[p]? = nodes[p]?) : PathLinks nodes' fs hole := by
  induction fs generalizing hole with
  | nil => trivial
  | cons f fs ih =>
    obtain ⟨hnode, hsib, hrest⟩ := h
    have hmem : ∀ p, p ∈ f.label.ptr :: (ptrs f.sibling ++ pathPtrs fs) → nodes'[p]? = nodes[p]? :=
      fun p hp => heq p ((pathPtrs_cons_perm f fs).mem_iff.mpr hp)
    refine ⟨?_, hsib.congr fun p hp => hmem p (by simp [hp]), ih hrest fun p hp => hmem p (by simp [hp])⟩
    rw [hmem f.label.ptr (by simp), hnode]

theorem Links.ptr_lt (h : Links nodes parent s) (hp : p ∈ ptrs s) : p < nodes.length := by
  induction s generalizing parent with
  | nil => simp at hp
  | node a l r ihl ihr =>
    obtain ⟨hnode, hl, hr⟩ := links_node.mp h
    simp only [ptrs_node, mem_append, mem_cons] at hp
    rcases hp with hp | rfl | hp
    · exact ihl hl hp
    · exact (List.getElem?_eq_some_iff.mp hnode).1
    · exact ihr hr hp

theorem Links.length_le (h : Links nodes parent s) (hnd : (ptrs s).Nodup) : (toList s).length ≤ nodes.length := by
  have hsub : ptrs s ⊆ List.range nodes.length :=
    fun p hp => mem_range.mpr (h.ptr_lt hp)
  simpa [ptrs] using (subperm_of_subset hnd hsub).length_le

/-! ## Storing links -/

/-- Store a child link. -/
def setChild (side : Side) (child : Option Nat) (n : BinaryNode K V) : BinaryNode K V :=
  match side with
  | .left => { n with left := child }
  | .right => { n with right := child }

theorem getElem?_modify_self {n : BinaryNode K V} (f : BinaryNode K V → BinaryNode K V)
    (h : nodes[p]? = some n) : (nodes.modify p f)[p]? = some (f n) := by
  rw [getElem?_modify, h]
  simp

theorem getElem?_modify_ne {q : Nat}
    (f : BinaryNode K V → BinaryNode K V) (h : q ≠ p) : (nodes.modify p f)[q]? = nodes[q]? := by
  simp [Ne.symm h]

theorem PathLinks.setChild (h : PathLinks nodes (f :: fs) hole) (hnd : (pathPtrs (f :: fs)).Nodup)
    (child : Option Nat) : PathLinks (nodes.modify f.label.ptr (setChild f.side child)) (f :: fs) child := by
  obtain ⟨hnode, hsib, hrest⟩ := h
  have hnd' := nodup_cons.mp ((pathPtrs_cons_perm f fs).nodup_iff.mp hnd)
  have hne : ∀ q ∈ ptrs f.sibling ++ pathPtrs fs, q ≠ f.label.ptr :=
    fun q hq heq => hnd'.1 (heq ▸ hq)
  refine ⟨?_, hsib.congr fun q hq => getElem?_modify_ne _ (hne q (by simp [hq])),
    hrest.congr fun q hq => getElem?_modify_ne _ (hne q (by simp [hq]))⟩
  rw [getElem?_modify_self _ hnode]
  obtain ⟨side, label, sibling⟩ := f
  cases side <;> rfl

theorem Links.setParent {q : Option Nat} (h : Links nodes q s) (hnd : (ptrs s).Nodup) (hp : rootPtr s = some p)
    (parent : Option Nat) : Links (nodes.modify p fun n => { n with parent := parent }) parent s := by
  cases s with
  | nil => trivial
  | node a l r =>
    obtain ⟨hnode, hl, hr⟩ := links_node.mp h
    obtain rfl : a.ptr = p := by simpa using hp
    rw [ptrs_node, perm_middle.nodup_iff, nodup_cons] at hnd
    have hne : ∀ q ∈ ptrs l ++ ptrs r, q ≠ a.ptr := fun q hq heq => hnd.1 (heq ▸ hq)
    refine links_node.mpr ⟨?_, hl.congr fun q hq => getElem?_modify_ne _ (hne q (by simp [hq])),
      hr.congr fun q hq => getElem?_modify_ne _ (hne q (by simp [hq]))⟩
    rw [getElem?_modify_self _ hnode]

/-! ## The loops as walks -/

theorem rootPtr_sibling_ne (hp : p ∉ pathPtrs (f :: fs)) : rootPtr f.sibling ≠ some p := by
  intro h
  refine hp ((pathPtrs_cons_perm f fs).mem_iff.mpr ?_)
  simp [mem_ptrs_of_rootPtr h]

theorem rightmost_eq (h : Links nodes parent s) (hp : rootPtr s = some p) (hfuel : (toList s).length ≤ fuel) :
    ∃ a n, (toList s).getLast? = some a ∧ rightmost nodes fuel p = some a.ptr ∧
      nodes[a.ptr]? = some n ∧ n.value = a.value := by
  induction s generalizing parent p fuel with
  | nil => simp at hp
  | node a l r _ ihr =>
    obtain ⟨hnode, -, hr⟩ := links_node.mp h
    obtain rfl : a.ptr = p := by simpa using hp
    rcases fuel with - | fuel
    · simp at hfuel
    cases r with
    | nil =>
      refine ⟨a, _, by simp, ?_, hnode, rfl⟩
      simp [rightmost, hnode]
    | node b l' r' =>
      have hlen : (toList (.node b l' r' : Shape K V)).length ≤ fuel := by
        simp only [toList_node, length_append, length_cons] at hfuel ⊢
        omega
      obtain ⟨c, n, hlast, hloop, hcell, hval⟩ := ihr hr rfl hlen
      refine ⟨c, n, ?_, ?_, hcell, hval⟩
      · rw [toList_node, List.getLast?_append, List.getLast?_cons, hlast]
        simp
      · rw [rightmost, hnode]
        exact hloop

/-- The loop to the leftmost node ends at the root of `minNode`. Its parent link is that of the
whole subtree when the root itself is leftmost, and else points at a node outside `minNode`. -/
theorem leftmost_eq (h : Links nodes parent s) (hnd : (ptrs s).Nodup) (hp : rootPtr s = some p)
    (hfuel : (toList s).length ≤ fuel) :
    ∃ m r q, minNode s = .node m .nil r ∧ leftmost nodes fuel p = some m.ptr ∧
      nodes[m.ptr]? = some ⟨m.key, m.value, none, rootPtr r, q⟩ ∧ Links nodes (some m.ptr) r ∧
      ((m.ptr = p ∧ minNode s = s ∧ q = parent) ∨
        m.ptr ≠ p ∧ ∃ q', q = some q' ∧ q' ∈ ptrs s ∧ q' ∉ ptrs (minNode s)) := by
  induction s generalizing parent p fuel with
  | nil => simp at hp
  | node a l r ihl _ =>
    obtain ⟨hnode, hl, hr⟩ := links_node.mp h
    obtain rfl : a.ptr = p := by simpa using hp
    rcases fuel with - | fuel
    · simp at hfuel
    cases l with
    | nil =>
      refine ⟨a, r, parent, rfl, ?_, hnode, hr, Or.inl ⟨rfl, rfl, rfl⟩⟩
      simp [leftmost, hnode]
    | node b l' r' =>
      have hlen : (toList (.node b l' r' : Shape K V)).length ≤ fuel := by
        simp only [toList_node, length_append, length_cons] at hfuel ⊢
        omega
      rw [ptrs_node, nodup_append] at hnd
      obtain ⟨hndl, -, hdisj⟩ := hnd
      obtain ⟨m, mr, q, hmin, hloop, hcell, hlinks, hcase⟩ := ihl hl hndl rfl hlen
      have hmem : m.ptr ∈ ptrs (.node b l' r') := by
        have hsub := (toList_minNode_isPrefix (.node b l' r' : Shape K V)).subset
        rw [hmin] at hsub
        exact mem_map_of_mem (hsub (by simp))
      have hne : m.ptr ≠ a.ptr := hdisj _ hmem _ (by simp)
      refine ⟨m, mr, q, hmin, ?_, hcell, hlinks, Or.inr ⟨hne, ?_⟩⟩
      · rw [leftmost, hnode]
        exact hloop
      · rcases hcase with ⟨-, hself, rfl⟩ | ⟨-, q', rfl, hq', hnot⟩
        · refine ⟨a.ptr, rfl, by simp, fun hin => ?_⟩
          rw [minNode, hself] at hin
          exact hdisj _ hin _ (by simp) rfl
        · exact ⟨q', rfl, by rw [ptrs_node]; exact mem_append_left _ hq', hnot⟩

theorem climb_eq (h : PathLinks nodes fs (some p)) (hnd : (p :: pathPtrs fs).Nodup) (hfuel : fs.length < fuel) :
    climbLeft nodes fuel p (topPtr fs) = some ((before fs).getLast?.map Slot.value) ∧
      climbRight nodes fuel p (topPtr fs) = some ((after fs).head?.map Slot.value) := by
  induction fs generalizing p fuel with
  | nil =>
    obtain ⟨fuel, rfl⟩ : ∃ n, fuel = n + 1 := ⟨fuel - 1, by simp at hfuel; omega⟩
    exact ⟨rfl, rfl⟩
  | cons f fs ih =>
    obtain ⟨fuel, rfl⟩ : ∃ n, fuel = n + 1 := ⟨fuel - 1, by simp at hfuel; omega⟩
    obtain ⟨hnode, -, hrest⟩ := h
    obtain ⟨hp, hnd⟩ := nodup_cons.mp hnd
    have hnd' : (f.label.ptr :: pathPtrs fs).Nodup :=
      ((pathPtrs_cons_perm f fs).nodup_iff.mp hnd).sublist ((sublist_append_right _ _).cons_cons _)
    have hsib := rootPtr_sibling_ne hp
    obtain ⟨hleft, hright⟩ := ih hrest hnd' (by simp at hfuel; omega)
    rw [topPtr_cons, climbLeft, climbRight, hnode]
    obtain ⟨side, label, sibling⟩ := f
    cases side with
    | left => simp only [frameNode, hsib, ↓reduceIte]; simp [hleft, Frame.before, Frame.after]
    | right => simp only [frameNode, hsib, ↓reduceIte]; simp [hright, Frame.before, Frame.after]

variable [LinearOrder K]

/-- The pointer that a search returns: the node found, or else the node above the hole. -/
def foundPtr (z : Path K V × Shape K V) : Option Nat := (rootPtr z.2).or (topPtr z.1)

/-- The loop of `FindOrInsertionParent` walks the search path. -/
theorem findLoop_eq {k : K} (fs : Path K V) (h : Links nodes parent s) (hp : rootPtr s = some p)
    (hfuel : (toList s).length ≤ fuel) : findLoop nodes k fuel p = foundPtr (descend Slot.key k s fs) := by
  induction s generalizing parent p fuel fs with
  | nil => simp at hp
  | node a l r ihl ihr =>
    obtain ⟨hnode, hl, hr⟩ := links_node.mp h
    obtain rfl : a.ptr = p := by simpa using hp
    rcases fuel with - | fuel
    · simp at hfuel
    simp only [toList_node, length_append, length_cons] at hfuel
    rw [findLoop, hnode, descend]
    by_cases heq : k = a.key
    · simp [heq, foundPtr]
    by_cases hlt : k < a.key
    · simp only [heq, hlt, ↓reduceIte]
      cases l with
      | nil => simp [descend, foundPtr]
      | node => exact ihl _ hl rfl (by omega)
    · simp only [heq, hlt, ↓reduceIte]
      cases r with
      | nil => simp [descend, foundPtr]
      | node => exact ihr _ hr rfl (by omega)

end BinaryTree

end Acadia.Glacier
