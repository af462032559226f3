import Acadia.Glacier.BinaryTreeRuns

/-! # Deleting a range of keys

Deleting all keys of a range `[lo, hi)` in ascending order is a sequence of deletions. `rangeSplices lo hi s`
says, about the shape before the first, that none of them will find a node with two children: a node of the
range either has no right subtree, or its left subtree lies in the range too and is gone when the node's own
turn comes. -/

namespace Acadia.Glacier.BinaryTree

open SearchTree Runs List

variable {K V : Type} [LinearOrder K]

/-! ## Reading the shape back from the heap -/

/-- The reachable nodes below a pointer. -/
def shapeFrom (nodes : List (BinaryNode K V)) : Nat → Option Nat → Shape K V
  | 0, _ => .nil
  | _ + 1, none => .nil
  | fuel + 1, some p =>
    match nodes[p]? with
    | none => .nil
    | some n => .node ⟨p, n.key, n.value⟩ (shapeFrom nodes fuel n.left)
      (shapeFrom nodes fuel n.right)

/-- The reachable nodes of a tree. -/
def shape (t : BinaryTree K V) : Shape K V := shapeFrom t.nodes t.nodes.length t.root

variable {s s' : Shape K V}

omit [LinearOrder K] in
theorem shapeFrom_eq {nodes : List (BinaryNode K V)} {parent : Option Nat} {fuel : Nat}
    (h : Links nodes parent s) (hfuel : (toList s).length ≤ fuel) : shapeFrom nodes fuel (rootPtr s) = s := by
  induction s generalizing parent fuel with
  | nil => cases fuel <;> rfl
  | node a l r ihl ihr =>
    obtain ⟨hnode, hl, hr⟩ := links_node.mp h
    rw [toList_node, length_append, length_cons] at hfuel
    obtain ⟨fuel, rfl⟩ : ∃ n, fuel = n + 1 := ⟨fuel - 1, by omega⟩
    rw [rootPtr_node, shapeFrom, hnode]
    simp only
    rw [ihl hl (by omega), ihr hr (by omega)]

variable {t : BinaryTree K V}

theorem Represents.shape_eq (h : Represents t s) : t.shape = s := by
  rw [shape, h.root]
  exact shapeFrom_eq h.links (by simpa [ptrs] using h.links.length_le h.nodup)

/-! ## Ranges that can be deleted -/

/-- Every node of the range `[lo, hi)` lacks a right subtree, or its left subtree has nothing below
the range. -/
def rangeSplices (lo hi : K) : Shape K V → Bool
  | .nil => true
  | .node a l r =>
    (!(decide (lo ≤ a.key) && decide (a.key < hi)) || (toList r).isEmpty ||
      (toList l).all fun x => lo ≤ x.key) && rangeSplices lo hi l && rangeSplices lo hi r

variable {lo hi k : K}

theorem rangeSplices_node {a : Slot K V} {l r : Shape K V} : rangeSplices lo hi (.node a l r) = true ↔
      (lo ≤ a.key → a.key < hi → toList r = [] ∨ ∀ x ∈ toList l, lo ≤ x.key) ∧
        rangeSplices lo hi l = true ∧ rangeSplices lo hi r = true := by
  simp only [rangeSplices, Bool.and_eq_true, Bool.or_eq_true, Bool.not_eq_true',
    Bool.and_eq_false_iff, decide_eq_false_iff_not, List.isEmpty_iff, List.all_eq_true,
    decide_eq_true_eq, and_assoc]
  refine and_congr_left fun _ => ?_
  constructor
  · rintro ((h | h) | h) hlo hhi
    · rcases h with h | h
      exacts [absurd hlo h, absurd hhi h]
    · exact Or.inl h
    · exact Or.inr h
  · intro h
    by_cases hlo : lo ≤ a.key
    · by_cases hhi : a.key < hi
      · rcases h hlo hhi with h | h
        exacts [Or.inl (Or.inr h), Or.inr h]
      · exact Or.inl (Or.inl (Or.inr hhi))
    · exact Or.inl (Or.inl (Or.inl hlo))

theorem rangeSplices_of_plug {fs : Path K V} (h : rangeSplices lo hi (plug fs s) = true) :
    rangeSplices lo hi s = true := by
  induction fs generalizing s with
  | nil => exact h
  | cons f _ ih =>
    have hfill := ih h
    obtain ⟨side, label, sibling⟩ := f
    cases side with
    | left => exact (rangeSplices_node.mp hfill).2.1
    | right => exact (rangeSplices_node.mp hfill).2.2

/-- Another subtree in the hole of a path keeps `rangeSplices`, if each of its entries was there, or is
not below the range while everything before the hole is. -/
theorem rangeSplices_plug {fs : Path K V} (h : rangeSplices lo hi (plug fs s) = true)
    (hs' : rangeSplices lo hi s' = true)
    (hsub : ∀ x ∈ toList s', x ∈ toList s ∨ lo ≤ x.key ∧ ∀ y ∈ before fs, y.key < lo) :
    rangeSplices lo hi (plug fs s') = true := by
  induction fs generalizing s s' with
  | nil => exact hs'
  | cons f fs ih =>
    have hfill := rangeSplices_of_plug (show rangeSplices lo hi (plug fs (f.fill s)) = true from h)
    have hfs : ∀ x ∈ toList s', x ∈ toList s ∨ lo ≤ x.key ∧ ∀ y ∈ before fs, y.key < lo := fun x hx =>
      (hsub x hx).imp_right fun hx => ⟨hx.1, fun y hy => hx.2 y (mem_append_left _ hy)⟩
    refine ih (s := f.fill s) h ?_ fun x hx => ?_
    · obtain ⟨side, label, sibling⟩ := f
      cases side with
      | left =>
        obtain ⟨hnode, -, hr⟩ := rangeSplices_node.mp hfill
        refine rangeSplices_node.mpr ⟨fun hlo hhi => (hnode hlo hhi).imp_right fun h x hx => ?_, hs', hr⟩
        exact (hsub x hx).elim (h x) And.left
      | right =>
        -- the label comes before the hole
        obtain ⟨hnode, hl, -⟩ := rangeSplices_node.mp hfill
        refine rangeSplices_node.mpr ⟨fun hlo hhi => (hnode hlo hhi).imp_left fun h => ?_, hl, hs'⟩
        refine eq_nil_iff_forall_not_mem.mpr fun x hx => ?_
        rcases hsub x hx with hx | hx
        · exact not_mem_nil (h ▸ hx)
        · exact (hx.2 label (by simp [Frame.before])).not_ge hlo
    · rw [toList_fill, mem_append, mem_append] at hx ⊢
      rcases hx with (hx | hx) | hx
      · exact Or.inl (Or.inl (Or.inl hx))
      · exact (hfs x hx).imp_left fun hx => Or.inl (Or.inr hx)
      · exact Or.inl (Or.inr hx)

/-- **The least entry of the range has at most one child**, if the range can be spliced. -/
theorem hasTwoChildren_of_rangeSplices (h : Represents t s) (hs : rangeSplices lo hi s = true) (hlo : lo ≤ k)
    (hhi : k < hi) (hleast : ∀ x ∈ toList s, lo ≤ x.key → k ≤ x.key) : t.hasTwoChildren k = false := by
  rw [Bool.eq_false_iff]
  intro htwo
  obtain ⟨fs, a, l, r, hdesc, hl, hr⟩ := (hasTwoChildren_iff h k).mp htwo
  obtain ⟨fs', hdesc', rfl, hloc⟩ | ⟨fs', a', l', r', hdesc', rfl, hk, hloc⟩ := h.search k
  · simp [hdesc] at hdesc'
  obtain ⟨rfl, rfl, rfl, rfl⟩ : fs = fs' ∧ a = a' ∧ l = l' ∧ r = r' := by
    simpa [hdesc] using hdesc'
  rcases (rangeSplices_node.mp (rangeSplices_of_plug hs)).1 (hk ▸ hlo) (hk ▸ hhi) with hnil | hall
  · cases r with
    | nil => exact hr rfl
    | node => simp at hnil
  · -- an entry of the left subtree would be a smaller one of the range
    cases l with
    | nil => exact hl rfl
    | node b l' r' =>
      have hb : b ∈ toList (.node b l' r' : Shape K V) := by simp
      have hlt := (hloc.node_separates hk).1 b hb
      exact (hleast b (by rw [toList_plug]; simp) (hall b hb)).not_gt hlt

/-- Deletion keeps `rangeSplices` where it finds at most one child. -/
theorem rangeSplices_deleteShape (h : Represents t s) (hs : rangeSplices lo hi s = true)
    (hone : t.hasTwoChildren k = false) : rangeSplices lo hi (deleteShape k s) = true := by
  obtain ⟨fs, hdesc, rfl, hloc⟩ | ⟨fs, a, l, r, hdesc, rfl, hk, hloc⟩ := h.search k
  · rw [deleteShape, hdesc]
    exact hs
  rw [deleteShape, hdesc]
  obtain ⟨-, hl, hr⟩ := rangeSplices_node.mp (rangeSplices_of_plug hs)
  refine rangeSplices_plug hs ?_ fun x hx => Or.inl ?_
  · cases l with
    | nil => exact hr
    | node =>
      cases r with
      | nil => exact hl
      | node =>
        refine absurd ((hasTwoChildren_iff h k).mpr ⟨fs, a, _, _, hdesc, ?_, ?_⟩) ?_
        all_goals simp [hone]
  · have hin := (toList_replacement_sublist l r).subset hx
    rw [toList_node]
    rcases mem_append.mp hin with hin | hin
    exacts [mem_append_left _ hin, mem_append_right _ (mem_cons_of_mem _ hin)]

/-! ## Ranges that cannot be deleted -/

theorem rangeSplices_of_forall (h : ∀ x ∈ toList s, lo ≤ x.key → hi ≤ x.key) : rangeSplices lo hi s = true := by
  induction s with
  | nil => rfl
  | node a l r ihl ihr =>
    refine rangeSplices_node.mpr ⟨fun hlo hhi => ?_, ihl fun x hx => h x ?_, ihr fun x hx => h x ?_⟩
    · exact absurd hhi (h a (by simp) hlo).not_gt
    all_goals simp [hx]

/-- **A deletion that leads to a shape that can be spliced** and keeps all entries below the range was
made in such a shape. -/
theorem rangeSplices_of_deleteShape (h : Represents t s) (hlo : lo ≤ k)
    (hleast : ∀ x ∈ toList s, lo ≤ x.key → k ≤ x.key)
    (hkept : ∀ x ∈ toList s, x.key < lo → x ∈ toList (deleteShape k s))
    (hs : rangeSplices lo hi (deleteShape k s) = true) : rangeSplices lo hi s = true := by
  obtain ⟨fs, hdesc, rfl, hloc⟩ | ⟨fs, a, l, r, hdesc, rfl, hk, hloc⟩ := h.search k
  · rwa [deleteShape, hdesc] at hs
  rw [deleteShape, hdesc] at hs hkept
  have hbelow : ∀ x ∈ toList (plug fs (.node a l r)), x.key < k → x.key < lo := fun x hx hlt =>
    lt_of_not_ge fun hge => (hleast x hx hge).not_gt hlt
  have hbefore : ∀ x ∈ before fs, x.key < lo := fun x hx =>
    hbelow x (by rw [toList_plug]; simp [hx]) (hloc.below x hx)
  obtain ⟨hl, hr⟩ := hloc.node_separates hk
  cases l with
  | nil =>
    refine rangeSplices_plug hs ?_ ?_
    · refine rangeSplices_node.mpr ⟨fun _ _ => Or.inr (by simp), rfl, ?_⟩
      exact rangeSplices_of_plug hs
    · intro x hx
      rw [toList_node, toList_nil, nil_append, mem_cons] at hx
      rcases hx with rfl | hx
      exacts [Or.inr ⟨hk ▸ hlo, hbefore⟩, Or.inl hx]
  | node b l' r' =>
    cases r with
    | nil =>
      refine rangeSplices_plug hs ?_ ?_
      · exact rangeSplices_node.mpr ⟨fun _ _ => Or.inl rfl, rangeSplices_of_plug hs, rfl⟩
      · intro x hx
        rw [toList_node, toList_nil, mem_append, mem_singleton] at hx
        rcases hx with hx | rfl
        exacts [Or.inl hx, Or.inr ⟨hk ▸ hlo, hbefore⟩]
    | node =>
      -- the root of the left subtree is below the range and gets lost
      have hb : b ∈ toList (.node b l' r' : Shape K V) := by simp
      have hbk := hl b hb
      have hin := hkept b (by rw [toList_plug]; simp) (hbelow b (by rw [toList_plug]; simp) hbk)
      rw [toList_plug, mem_append, mem_append] at hin
      rcases hin with (hin | hin) | hin
      · -- the traversal has no entry twice
        have hord := h.ordered
        rw [SearchTree.Ordered, toList_plug, append_assoc, pairwise_append] at hord
        exact absurd (hord.2.2 b hin b (by simp)) (lt_irrefl _)
      · have hmem := (toList_minNode_isPrefix _).subset hin
        exact absurd (hr b hmem) hbk.asymm
      · exact absurd (hloc.above b hin) hbk.asymm

end Acadia.Glacier.BinaryTree
