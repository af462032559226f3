import Acadia.Foundations.Runs
import Acadia.Glacier.BinaryTreeSpec

/-! # Runs of `Insert` and `Delete` against a finite map

A run is compared with the partial map obtained from the same operations. The heap always holds a search tree
with consistent parent links, and the two agree as long as no deletion hits a node with two children; such a
deletion cuts the left subtree off (`agrees_at_every_moment_iff`). -/

namespace Acadia.Glacier.BinaryTree

open SearchTree Runs List Option Function

variable {K V : Type} [LinearOrder K]

/-- The operations that change a tree. -/
inductive Op (K V : Type) where
  | insert (key : K) (value : V)
  | delete (key : K)
  deriving DecidableEq

/-- One operation on the tree. -/
def step (t : BinaryTree K V) : Op K V → Option (BinaryTree K V)
  | .insert k v => t.insert k v
  | .delete k => t.delete k

/-- The same operation on a finite map. -/
def mapStep (m : K → Option V) : Op K V → K → Option V
  | .insert k v => Function.update m k (some v)
  | .delete k => Function.update m k none

/-- The finite map after a sequence of operations, starting from the empty one. -/
def mapAfter (ops : List (Op K V)) : K → Option V := ops.foldl mapStep fun _ => none

/-- **The tree agrees with a map**: `Find` returns what the map holds, and the reachable nodes form
a search tree whose parent links are the inverse of the child links. -/
def Agrees (t : BinaryTree K V) (m : K → Option V) : Prop :=
  (∀ k, t.find k = some (m k)) ∧ ∃ s, Represents t s

/-- After these operations, starting from the empty tree, tree and map agree. -/
def AgreesAfter (ops : List (Op K V)) : Prop :=
  ∃ t, run step ({} : BinaryTree K V) ops = some t ∧ Agrees t (mapAfter ops)

/-- `Delete(key)` would find a node with two children. -/
def hasTwoChildren (t : BinaryTree K V) (key : K) : Bool :=
  match t.findOrInsertionParent key with
  | some (some current) =>
    match t.nodes[current]? with
    | some node => node.key = key && node.left.isSome && node.right.isSome
    | none => false
  | _ => false

/-- The operation does not delete a node with two children. -/
def Splices (t : BinaryTree K V) : Op K V → Prop
  | .insert _ _ => True
  | .delete k => t.hasTwoChildren k = false

/-! ## One operation -/

variable {t : BinaryTree K V} {s : Shape K V}

/-- `hasTwoChildren` reads the shape. -/
theorem hasTwoChildren_iff (h : Represents t s) (k : K) : t.hasTwoChildren k = true ↔
      ∃ fs a l r, descend Slot.key k s [] = (fs, .node a l r) ∧ l ≠ .nil ∧ r ≠ .nil := by
  obtain ⟨fs, hdesc, rfl, hloc⟩ | ⟨fs, a, l, r, hdesc, rfl, hk, hloc⟩ := h.search k
  · simp only [hdesc, Prod.mk.injEq]
    rw [hasTwoChildren, hloc.found]
    cases fs with
    | nil => simp [foundPtr]
    | cons f =>
      have hnode := hloc.path.1
      obtain ⟨side, label, sibling⟩ := f
      cases side <;> simp_all [foundPtr, frameNode]
  · have hnode := (links_node.mp hloc.sub).1
    simp only [hdesc, Prod.mk.injEq]
    rw [hasTwoChildren, hloc.found]
    cases l <;> cases r <;> simp [foundPtr, hnode, hk]

/-- Insertion changes the map at its key only. -/
theorem toMap_insertShape (h : Represents t s) (k : K) (v : V) (p : Nat) :
    toMap (insertShape k v p s) = Function.update (toMap s) k (some v) := by
  funext k'
  obtain ⟨fs, hdesc, rfl, hloc⟩ | ⟨fs, a, l, r, hdesc, rfl, hk, hloc⟩ := h.search k
  · rw [insertShape, hdesc]
    by_cases hkk : k' = k
    · subst hkk
      simp only [toMap, toList_plug, toList_node, toList_nil, nil_append, append_assoc, singleton_append, update_self]
      rw [find?_of_separated (fun x hx => (hloc.below x hx).ne) rfl]
      rfl
    · rw [update_of_ne hkk]
      simp [toMap, toList_plug, List.find?_append, Ne.symm hkk]
  rw [insertShape, hdesc]
  by_cases hkk : k' = k
  · subst hkk
    have hpre : ∀ x ∈ before fs ++ toList l, x.key ≠ k' := by
      intro x hx
      rcases mem_append.mp hx with hx | hx
      exacts [(hloc.below x hx).ne, ((hloc.node_separates hk).1 x hx).ne]
    have hfind : (before fs ++ toList l ++ { a with value := v } :: (toList r ++ after fs)).find?
        (fun x => x.key = k') = some { a with value := v } := find?_of_separated hpre hk
    simp only [toMap, toList_plug, toList_node, append_assoc, cons_append, update_self]
    rw [← append_assoc, hfind, map_some]
  · rw [update_of_ne hkk]
    simp [toMap, toList_plug, List.find?_append, hk, Ne.symm hkk]

/-- A deletion leaves the other entries, or finds a node and puts the replacement in its place. -/
theorem toList_deleteShape_or (h : Represents t s) (k : K) :
    toList (deleteShape k s) = ((toList s).filter fun a => a.key ≠ k) ∨
      ∃ fs a l r, descend Slot.key k s [] = (fs, .node a l r) ∧
        toList (deleteShape k s) = before fs ++ toList (replacement l r) ++ after fs ∧
        ((toList s).filter fun a => a.key ≠ k) = before fs ++ (toList l ++ toList r) ++ after fs := by
  have keep : ∀ {xs : List (Slot K V)}, (∀ x ∈ xs, x.key ≠ k) → xs.filter (fun a => a.key ≠ k) = xs :=
    fun hxs => filter_eq_self.mpr fun x hx => by simpa using hxs x hx
  obtain ⟨fs, hdesc, rfl, hloc⟩ | ⟨fs, a, l, r, hdesc, rfl, hk, hloc⟩ := h.search k
  · left
    rw [deleteShape, hdesc, toList_plug, filter_append, filter_append,
      keep fun x hx => (hloc.below x hx).ne, keep fun x hx => (hloc.above x hx).ne']
    simp
  obtain ⟨hl, hr⟩ := hloc.node_separates hk
  refine Or.inr ⟨fs, a, l, r, hdesc, by rw [deleteShape, hdesc, toList_plug], ?_⟩
  rw [toList_plug, toList_node, filter_append, filter_append, filter_append, filter_cons_of_neg (by simp [hk]),
    keep fun x hx => (hloc.below x hx).ne, keep fun x hx => (hloc.above x hx).ne',
    keep fun x hx => (hl x hx).ne, keep fun x hx => (hr x hx).ne']

theorem toList_deleteShape (h : Represents t s) {k : K} (hone : t.hasTwoChildren k = false) :
    toList (deleteShape k s) = (toList s).filter fun a => a.key ≠ k := by
  have htwo := hasTwoChildren_iff h k
  rw [hone] at htwo
  obtain heq | ⟨fs, a, l, r, hdesc, hdelete, hfilter⟩ := toList_deleteShape_or h k
  · exact heq
  rw [hdelete, hfilter]
  cases l with
  | nil => rfl
  | node =>
    cases r with
    | nil => simp [replacement]
    | node => exact absurd (htwo.mpr ⟨fs, a, _, _, hdesc, by simp, by simp⟩) (by simp)

theorem toList_deleteShape_sublist (h : Represents t s) (k : K) :
    toList (deleteShape k s) <+ ((toList s).filter fun a => a.key ≠ k) := by
  obtain heq | ⟨fs, a, l, r, -, hdelete, hfilter⟩ := toList_deleteShape_or h k
  · rw [heq]
  rw [hdelete, hfilter]
  exact ((toList_replacement_sublist l r).append_left _).append_right _

/-- A deletion that finds at most one child changes the map at its key only. -/
theorem toMap_deleteShape (h : Represents t s) {k : K} (hone : t.hasTwoChildren k = false) :
    toMap (deleteShape k s) = Function.update (toMap s) k none := by
  funext k'
  rw [toMap, toList_deleteShape h hone, List.find?_filter]
  by_cases hkk : k' = k
  · subst hkk
    simp
  · rw [update_of_ne hkk, toMap]
    congr 2
    funext a
    by_cases ha : a.key = k'
    · simp [ha, hkk]
    · simp [ha]

/-- **A deletion at a node with two children loses a key**: the root of the left subtree was in the
map and is not found any more. -/
theorem toMap_deleteShape_of_two (h : Represents t s) {k : K} (htwo : t.hasTwoChildren k = true) :
    ∃ k' v, k' ≠ k ∧ toMap s k' = some v ∧ toMap (deleteShape k s) k' = none := by
  obtain ⟨fs, a, l, r, hdesc, hl, hr⟩ := (hasTwoChildren_iff h k).mp htwo
  obtain ⟨fs', hdesc', rfl, hloc⟩ | ⟨fs', a', l', r', hdesc', rfl, hk, hloc⟩ := h.search k
  · simp [hdesc] at hdesc'
  obtain ⟨rfl, rfl, rfl, rfl⟩ : fs = fs' ∧ a = a' ∧ l = l' ∧ r = r' := by
    simpa [hdesc] using hdesc'
  obtain ⟨hbelow, habove⟩ := hloc.node_separates hk
  cases l with
  | nil => exact absurd rfl hl
  | node b =>
    cases r with
    | nil => exact absurd rfl hr
    | node c l'' r'' =>
      have hbk : b.key < k := hbelow b (by simp)
      refine ⟨b.key, b.value, hbk.ne, ?_, ?_⟩
      · exact (toMap_eq_some_iff h.ordered).mpr ⟨b, by rw [toList_plug]; simp, rfl, rfl⟩
      -- what is left lies before the node, in its right subtree, or after it
      rw [deleteShape, hdesc, toMap, toList_plug, find?_eq_none_of_ne, map_none]
      intro x hx
      simp only [mem_append] at hx
      rcases hx with (hx | hx) | hx
      · have hord := hloc.ordered
        rw [pairwise_append, pairwise_append] at hord
        exact (hord.1.2.2 x hx b (by simp)).ne
      · have hin := (toList_minNode_isPrefix (.node c l'' r'' : Shape K V)).subset hx
        exact (hbk.trans (habove x hin)).ne'
      · exact (hbk.trans (hloc.above x hx)).ne'

/-! ## Whole runs -/

theorem agrees_iff (h : Represents t s) {m : K → Option V} : Agrees t m ↔ toMap s = m := by
  constructor
  · rintro ⟨hfind, -⟩
    funext k
    exact some.inj ((find_eq h k).symm.trans (hfind k))
  · rintro rfl
    exact ⟨find_eq h, s, h⟩

/-- **Every operation has a result and keeps a search tree.** -/
theorem step_represents (h : Represents t s) (op : Op K V) :
    ∃ t' s', step t op = some t' ∧ Represents t' s' ∧ (toMap s' = mapStep (toMap s) op ↔ Splices t op) := by
  cases op with
  | insert k v =>
    obtain ⟨t', hstep, hrep⟩ := insert_eq h k v
    exact ⟨t', _, hstep, hrep, iff_of_true (toMap_insertShape h k v _) trivial⟩
  | delete k =>
    obtain ⟨t', hstep, hrep⟩ := delete_eq h k
    refine ⟨t', _, hstep, hrep, ?_⟩
    rw [Splices]
    cases htwo : t.hasTwoChildren k with
    | false => exact iff_of_true (toMap_deleteShape h htwo) rfl
    | true =>
      refine iff_of_false (fun heq => ?_) (by simp)
      obtain ⟨k', v, hne, hin, hout⟩ := toMap_deleteShape_of_two h htwo
      rw [heq, mapStep, update_of_ne hne, hin] at hout
      simp at hout

/-- **`Predecessor`, `Successor` and `Insert` of a search tree**, for every key: the first two return
the value of the next smaller and the next greater key, if there is one, and the third changes the map at
its key only and leaves a search tree. -/
theorem neighbours_and_insert {t : BinaryTree K V} {s : Shape K V} (h : Represents t s) (k : K) (v : V) :
    ((t.predecessor k = some none ∧ ∀ k' v', t.find k' = some (some v') → k ≤ k') ∨
      ∃ k₁ v₁, t.predecessor k = some (some v₁) ∧ t.find k₁ = some (some v₁) ∧ k₁ < k ∧
        ∀ k' v', t.find k' = some (some v') → k' < k → k' ≤ k₁) ∧
    ((t.successor k = some none ∧ ∀ k' v', t.find k' = some (some v') → k' ≤ k) ∨
      ∃ k₁ v₁, t.successor k = some (some v₁) ∧ t.find k₁ = some (some v₁) ∧ k < k₁ ∧
        ∀ k' v', t.find k' = some (some v') → k < k' → k₁ ≤ k') ∧
    ∃ t' s', t.insert k v = some t' ∧ Represents t' s' ∧
      ∀ k', t'.find k' = if k' = k then some (some v) else t.find k' := by
  obtain ⟨t', s', hinsert, hrep, hmap⟩ := step_represents h (.insert k v)
  simp only [find_eq h, some.injEq]
  refine ⟨predecessor_spec h k, successor_spec h k, t', s', hinsert, hrep, fun k' => ?_⟩
  rw [find_eq hrep, hmap.mpr trivial, mapStep, update_apply, apply_ite some]

/-- The key 4 above the key 2, with the key 3 to the right of that. -/
def zigzag : BinaryTree Nat Nat :=
  ⟨[⟨4, 40, some 1, none, none⟩, ⟨2, 20, none, some 2, some 0⟩, ⟨3, 30, none, none, some 1⟩], some 0⟩

/-- The search for the key after 3 climbs past 2, and the value of 3 is replaced. -/
theorem neighbours_and_insert_zigzag :
    (∃ k₁ v₁, zigzag.predecessor 3 = some (some v₁) ∧ zigzag.find k₁ = some (some v₁) ∧ k₁ < 3 ∧
        ∀ k' v', zigzag.find k' = some (some v') → k' < 3 → k' ≤ k₁) ∧
      (∃ k₁ v₁, zigzag.successor 3 = some (some v₁) ∧ zigzag.find k₁ = some (some v₁) ∧ 3 < k₁ ∧
        ∀ k' v', zigzag.find k' = some (some v') → 3 < k' → k₁ ≤ k') ∧
      ∃ t', zigzag.insert 3 35 = some t' ∧ t'.find 3 = some (some 35) ∧ t'.find 4 = some (some 40) := by
  have hrep : Represents zigzag
      (.node ⟨0, 4, 40⟩ (.node ⟨1, 2, 20⟩ .nil (.node ⟨2, 3, 30⟩ .nil .nil)) .nil) :=
    ⟨rfl, ⟨rfl, ⟨rfl, trivial, rfl, trivial, trivial⟩, trivial⟩, by decide, by unfold SearchTree.Ordered; decide⟩
  obtain ⟨hpre, hsucc, t', -, hinsert, -, hfind⟩ := neighbours_and_insert hrep 3 35
  refine ⟨hpre.resolve_left fun h => ?_, hsucc.resolve_left fun h => ?_, t', hinsert, hfind 3,
    (hfind 4).trans (by decide)⟩
  · exact absurd (h.2 2 20 (by decide)) (by decide)
  · exact absurd (h.2 4 40 (by decide)) (by decide)

/-- **Tree and map agree at every moment of a run exactly when no deletion of the run hits a node
with two children.** -/
theorem agrees_at_every_moment_iff (ops : List (Op K V)) :
    (∀ pre, pre <+: ops → AgreesAfter pre) ↔ Meets step Splices ({} : BinaryTree K V) ops := by
  induction ops using reverseRecOn with
  | nil =>
    refine iff_of_true (fun pre hpre => ?_) trivial
    rw [prefix_nil.mp hpre]
    exact ⟨{}, rfl, (agrees_iff represents_empty).mpr rfl⟩
  | append_singleton ops op ih =>
    rw [meets_concat, ← ih]
    have hmap : mapAfter (ops ++ [op]) = mapStep (mapAfter ops) op := by simp [mapAfter]
    constructor
    · intro h
      refine ⟨fun pre hpre => h pre (hpre.trans (prefix_append _ _)), fun t ht => ?_⟩
      -- the tree before the last operation agrees, so the operation decides
      obtain ⟨t₁, ht₁, hagree⟩ := h ops (prefix_append _ _)
      obtain rfl : t₁ = t := some.inj (ht₁.symm.trans ht)
      obtain ⟨s, hs⟩ := hagree.2
      obtain ⟨t', s', hstep, hrep, hiff⟩ := step_represents hs op
      obtain ⟨t₂, ht₂, hagree'⟩ := h (ops ++ [op]) (prefix_refl _)
      obtain rfl : t₂ = t' := by
        rw [run_append, ht, bind_some, run_singleton, hstep] at ht₂
        exact (some.inj ht₂).symm
      rw [agrees_iff hrep, hmap, ← (agrees_iff hs).mp hagree] at hagree'
      exact hiff.mp hagree'
    · rintro ⟨h, hlast⟩ pre hpre
      rcases prefix_concat_iff.mp hpre with rfl | hpre
      · obtain ⟨t, ht, hagree⟩ := h ops (prefix_refl _)
        obtain ⟨s, hs⟩ := hagree.2
        obtain ⟨t', s', hstep, hrep, hiff⟩ := step_represents hs op
        refine ⟨t', run_concat_eq_some.mpr ⟨t, ht, hstep⟩, ?_⟩
        rw [agrees_iff hrep, hmap, ← (agrees_iff hs).mp hagree]
        exact hiff.mpr (hlast t ht)
      · exact h pre hpre

/-- Deleting the root of a three-node tree loses the left child: `Find(1)` misses although `1` was
inserted and never deleted. -/
theorem delete_root_loses_left_child :
    ¬ AgreesAfter ([.insert 2 20, .insert 1 10, .insert 3 30, .delete 2] : List (Op Nat Nat)) := by
  rintro ⟨t, ht, hfind, -⟩
  have hmap : mapAfter ([.insert 2 20, .insert 1 10, .insert 3 30, .delete 2] : List (Op Nat Nat)) 1
      = some 10 := by decide
  have hlost : (run step ({} : BinaryTree Nat Nat)
      [.insert 2 20, .insert 1 10, .insert 3 30, .delete 2]).bind (find · 1) = some none := by
    decide
  rw [ht, bind_some, hfind 1, hmap] at hlost
  simp at hlost

end Acadia.Glacier.BinaryTree
