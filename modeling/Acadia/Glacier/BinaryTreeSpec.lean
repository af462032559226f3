import Acadia.Glacier.BinaryTreeLinks
import Mathlib.Data.List.Nodup

/-! # What the operations of `BinaryTree` do to the shape

`find`, `predecessor` and `successor` read the traversal of the shape, `insert` fills the hole of the search
path (`insertShape`), and `delete` puts `replacement l r` in the place of a node with subtrees `l` and `r`
(`deleteShape`). With one subtree missing, `replacement` is the other one; with both present it is only the
leftmost node of `r` with its own right subtree, so `l` and the rest of `r` are cut off. -/

namespace Acadia.Glacier.BinaryTree

open SearchTree List Option

open scoped List

variable {K V : Type} [LinearOrder K]

/-- **The heap `t` holds the shape `s`**: `root_` points at it, its cells are linked both ways, no
cell occurs twice, and the keys are in order. -/
structure Represents (t : BinaryTree K V) (s : Shape K V) : Prop where
  /-- `root_` points at the root of the shape. -/
  root : t.root = rootPtr s
  /-- Child links follow the shape, and parent links are their inverse. -/
  links : Links t.nodes none s
  nodup : (ptrs s).Nodup
  /-- The traversal is strictly increasing in the keys. -/
  ordered : Ordered Slot.key s

theorem represents_empty : Represents ({} : BinaryTree K V) .nil :=
  ⟨rfl, trivial, nodup_nil, List.Pairwise.nil⟩

/-- The partial map that a shape stands for. -/
def toMap (s : Shape K V) (k : K) : Option V :=
  ((toList s).find? fun a => a.key = k).map Slot.value

/-- A shape at a search path for `k`, as the heap holds it. -/
structure Located (t : BinaryTree K V) (k : K) (fs : Path K V) (hole : Shape K V) : Prop where
  /-- `root_` points at the root of the whole shape. -/
  root : t.root = rootPtr (plug fs hole)
  /-- The nodes along the path. -/
  path : PathLinks t.nodes fs (rootPtr hole)
  /-- The nodes below it. -/
  sub : Links t.nodes (topPtr fs) hole
  nodup : (pathPtrs fs ++ ptrs hole).Nodup
  /-- The whole traversal is ordered. -/
  ordered : (before fs ++ toList hole ++ after fs).Pairwise fun a b => a.key < b.key
  /-- What lies left of the path is below `k`. -/
  below : ∀ x ∈ before fs, x.key < k
  /-- What lies right of the path is above `k`. -/
  above : ∀ x ∈ after fs, k < x.key
  /-- The search of the source ends here. -/
  found : t.findOrInsertionParent k = some (foundPtr (fs, hole))

variable {t : BinaryTree K V} {s hole l r : Shape K V}

theorem Represents.located (h : Represents t s) (k : K) :
    Located t k (descend Slot.key k s []).1 (descend Slot.key k s []).2 := by
  have hplug : plug (descend Slot.key k s []).1 (descend Slot.key k s []).2 = s :=
    plug_descend Slot.key k s []
  have hlinks := h.links
  rw [← hplug, links_plug] at hlinks
  have hperm := ptrs_plug_perm (descend Slot.key k s []).1 (descend Slot.key k s []).2
  rw [hplug] at hperm
  obtain ⟨hbelow, habove⟩ :=
    descend_separates h.ordered (by simp : ∀ x ∈ before ([] : Path K V), Slot.key x < k) (by simp)
  refine ⟨by rw [hplug]; exact h.root, hlinks.1, hlinks.2, hperm.nodup_iff.mp h.nodup, ?_, hbelow, habove, ?_⟩
  · rw [← toList_plug, hplug]; exact h.ordered
  rw [findOrInsertionParent, h.root]
  cases s with
  | nil => rfl
  | node a l r =>
    have hlen := h.links.length_le h.nodup
    have hloop := findLoop_eq (k := k) [] h.links rfl hlen
    simp only [rootPtr_node, hloop]
    -- the search from a node never returns null
    rcases descend_snd Slot.key k (.node a l r : Shape K V) [] with hnil | hnode
    · cases hfs : (descend Slot.key k (.node a l r : Shape K V) []).1 with
      | nil => rw [hnil, hfs] at hplug; simp at hplug
      | cons => simp [foundPtr, hnil, hfs]
    · obtain ⟨b, l', r', hnode, -⟩ := hnode
      simp [foundPtr, hnode]

/-- **A search either misses or hits**: it ends at an empty hole, or at a node with the key. -/
theorem Represents.search (h : Represents t s) (k : K) :
    (∃ fs, descend Slot.key k s [] = (fs, .nil) ∧ s = plug fs .nil ∧ Located t k fs .nil) ∨
      ∃ fs a l r, descend Slot.key k s [] = (fs, .node a l r) ∧ s = plug fs (.node a l r) ∧
        a.key = k ∧ Located t k fs (.node a l r) := by
  have hloc := h.located k
  have hplug := plug_descend Slot.key k s []
  rcases descend_snd Slot.key k s [] with hnil | ⟨a, l, r, hnode, hk⟩
  · rw [hnil] at hloc hplug
    exact Or.inl ⟨_, Prod.ext rfl hnil, hplug.symm, hloc⟩
  · rw [hnode] at hloc hplug
    exact Or.inr ⟨_, a, l, r, Prod.ext rfl hnode, hplug.symm, hk, hloc⟩

variable {k : K} {fs : Path K V}

theorem Located.represents (h : Located t k fs hole) : Represents t (plug fs hole) where
  root := h.root
  links := links_plug.mpr ⟨h.path, h.sub⟩
  nodup := (ptrs_plug_perm fs hole).nodup_iff.mpr h.nodup
  ordered := by rw [Ordered, toList_plug]; exact h.ordered

/-! ## Lookup -/

theorem mem_of_toMap {v : V} (h : toMap s k = some v) : ∃ a ∈ toList s, a.key = k ∧ a.value = v := by
  obtain ⟨a, hfind, hv⟩ := map_eq_some_iff.mp h
  exact ⟨a, mem_of_find?_eq_some hfind, by simpa using List.find?_some hfind, hv⟩

/-- In an ordered shape, `toMap` relates exactly the keys and values of its nodes. -/
theorem toMap_eq_some_iff (h : Ordered Slot.key s) {v : V} :
    toMap s k = some v ↔ ∃ a ∈ toList s, a.key = k ∧ a.value = v := by
  constructor
  · exact mem_of_toMap
  · rintro ⟨a, ha, hk, hv⟩
    obtain ⟨pre, post, hsplit⟩ := append_of_mem ha
    rw [Ordered, hsplit, pairwise_append] at h
    have hfind : (toList s).find? (fun x => x.key = k) = some a := by
      rw [hsplit]
      exact find?_of_separated (fun x hx => (hk ▸ h.2.2 x hx a (by simp)).ne) hk
    rw [toMap, hfind, map_some, hv]

variable {a : Slot K V}

/-- `toMap` at the key of a search path with a node in its hole. -/
theorem Located.toMap_node (h : Located t k fs (.node a l r)) (hk : a.key = k) :
    toMap (plug fs (.node a l r)) k = some a.value := by
  refine (toMap_eq_some_iff h.represents.ordered).mpr ⟨a, ?_, hk, rfl⟩
  rw [toList_plug]
  simp

/-- `toMap` at the key of a search path with an empty hole. -/
theorem Located.toMap_nil (h : Located t k fs .nil) : toMap (plug fs .nil) k = none := by
  rw [toMap, toList_plug, find?_eq_none_of_ne, map_none]
  intro x hx
  simp only [toList_nil, append_nil, mem_append] at hx
  rcases hx with hx | hx
  · exact (h.below x hx).ne
  · exact (h.above x hx).ne'

variable {f : Frame (Slot K V)}

theorem Located.label_ne (h : Located t k (f :: fs) hole) : f.label.key ≠ k := by
  obtain ⟨side, label, sibling⟩ := f
  cases side with
  | left => exact (h.above label (by simp [Frame.after])).ne'
  | right => exact (h.below label (by simp [Frame.before])).ne

/-- **`Find` is lookup** in the partial map of the shape. -/
theorem find_eq (h : Represents t s) (k : K) : t.find k = some (toMap s k) := by
  obtain ⟨fs, -, rfl, hloc⟩ | ⟨fs, a, l, r, -, rfl, hk, hloc⟩ := h.search k
  · rw [find, hloc.found, hloc.toMap_nil]
    cases fs with
    | nil => rfl
    | cons f =>
      have hne := hloc.label_ne
      have hnode := hloc.path.1
      obtain ⟨side, label, sibling⟩ := f
      cases side <;> simp_all [foundPtr, frameNode]
  · have hnode := (links_node.mp hloc.sub).1
    rw [find, hloc.found, hloc.toMap_node hk]
    simp [foundPtr, hnode, hk]

/-! ## Insertion -/

/-- What `Insert` does to the shape: a new node in an empty hole, or a new value in the node
found. -/
def insertShape (k : K) (v : V) (ptr : Nat) (s : Shape K V) : Shape K V :=
  match descend Slot.key k s [] with
  | (fs, .nil) => plug fs (.node ⟨ptr, k, v⟩ .nil .nil)
  | (fs, .node a l r) => plug fs (.node ⟨a.ptr, a.key, v⟩ l r)

theorem Located.lt_length (h : Located t k fs hole) {p : Nat} (hp : p ∈ pathPtrs fs ++ ptrs hole) :
    p < t.nodes.length :=
  h.represents.links.ptr_lt ((ptrs_plug_perm fs hole).mem_iff.mpr hp)

/-- The node above an empty hole lies on the side of `k` that the hole says. -/
theorem Located.label_lt (h : Located t k (f :: fs) hole) :
    match f.side with | .left => k < f.label.key | .right => f.label.key < k := by
  obtain ⟨side, label, sibling⟩ := f
  cases side with
  | left => exact h.above label (by simp [Frame.after])
  | right => exact h.below label (by simp [Frame.before])

/-- `Insert` below an insertion parent: one new cell and one link. -/
theorem insert_of_miss (h : Located t k (f :: fs) .nil) (v : V) : t.insert k v = some
      ⟨(t.nodes ++ [(⟨k, v, none, none, some f.label.ptr⟩ : BinaryNode K V)]).modify f.label.ptr
        (setChild f.side (some t.nodes.length)), t.root⟩ := by
  have hlt := h.label_lt
  have hnode := h.path.1
  rw [insert, h.found]
  obtain ⟨side, label, sibling⟩ := f
  cases side with
  | left =>
    simp only at hlt
    simp only [foundPtr, rootPtr_nil, none_or, topPtr_cons, hnode, frameNode, bind_eq_bind, bind_some, hlt, ↓reduceIte]
    rfl
  | right =>
    simp only at hlt
    simp only [foundPtr, rootPtr_nil, none_or, topPtr_cons, hnode, frameNode,
      bind_eq_bind, bind_some, hlt, hlt.not_gt, ↓reduceIte]
    rfl

theorem represents_insert_of_miss (h : Located t k (f :: fs) .nil) (v : V) : Represents
      ⟨(t.nodes ++ [(⟨k, v, none, none, some f.label.ptr⟩ : BinaryNode K V)]).modify f.label.ptr
        (setChild f.side (some t.nodes.length)), t.root⟩
      (plug (f :: fs) (.node ⟨t.nodes.length, k, v⟩ .nil .nil)) := by
  have hnd : (pathPtrs (f :: fs)).Nodup := by simpa using h.nodup
  have hlt : ∀ p ∈ pathPtrs (f :: fs), p < t.nodes.length := fun p hp => h.lt_length (by simp [hp])
  have hfresh : t.nodes.length ∉ pathPtrs (f :: fs) := fun hin => Nat.lt_irrefl _ (hlt _ hin)
  have hlabel : f.label.ptr < t.nodes.length :=
    hlt _ ((pathPtrs_cons_perm f fs).mem_iff.mpr (by simp))
  -- the new cell is beyond all others, so the path is as before until its link is stored
  have hcells : PathLinks (t.nodes ++ [⟨k, v, none, none, some f.label.ptr⟩]) (f :: fs) none :=
    h.path.congr fun p hp => getElem?_append_left (hlt p hp)
  refine ⟨?_, links_plug.mpr ⟨hcells.setChild hnd _, links_node.mpr ⟨?_, trivial, trivial⟩⟩, ?_, ?_⟩
  · obtain ⟨p, hp⟩ := rootPtr_plug_cons f fs
    rw [show t.root = _ from h.root, hp.2, hp.2]
  · rw [getElem?_modify_ne _ (Nat.ne_of_gt hlabel), getElem?_concat_length]
    rfl
  · rw [(ptrs_plug_perm _ _).nodup_iff, ptrs_node, ptrs_nil]
    exact nodup_append.mpr ⟨hnd, nodup_singleton _,
      fun p hp q hq heq => hfresh (by rwa [heq, mem_singleton.mp hq] at hp)⟩
  have hord := h.ordered
  rw [toList_nil, append_nil, pairwise_append] at hord
  rw [Ordered, toList_plug, toList_node, toList_nil, nil_append, append_assoc,
    singleton_append, pairwise_append, pairwise_cons]
  refine ⟨hord.1, ⟨h.above, hord.2.1⟩, fun x hx y hy => ?_⟩
  rcases mem_cons.mp hy with rfl | hy
  · exact h.below x hx
  · exact hord.2.2 x hx y hy

/-- **`Insert` fills the hole of the search path.** -/
theorem insert_eq (h : Represents t s) (k : K) (v : V) :
    ∃ t', t.insert k v = some t' ∧ Represents t' (insertShape k v t.nodes.length s) := by
  obtain ⟨fs, hdesc, rfl, hloc⟩ | ⟨fs, a, l, r, hdesc, rfl, hk, hloc⟩ := h.search k
  · rw [insertShape, hdesc]
    cases fs with
    | nil =>
      refine ⟨⟨t.nodes ++ [⟨k, v, none, none, none⟩], some t.nodes.length⟩, ?_, ?_⟩
      · rw [insert, hloc.found]
        rfl
      · refine ⟨rfl, links_node.mpr ⟨getElem?_concat_length, trivial, trivial⟩,
          nodup_singleton _, pairwise_singleton _ _⟩
    | cons => exact ⟨_, insert_of_miss hloc v, represents_insert_of_miss hloc v⟩
  rw [insertShape, hdesc]
  obtain ⟨hnode, hl, hr⟩ := links_node.mp hloc.sub
  have hnd := hloc.nodup
  rw [ptrs_node, (List.Perm.append_left _ perm_middle).nodup_iff, perm_middle.nodup_iff, nodup_cons] at hnd
  have hne : ∀ p ∈ pathPtrs fs ++ (ptrs l ++ ptrs r), p ≠ a.ptr :=
    fun p hp heq => hnd.1 (heq ▸ hp)
  refine ⟨⟨t.nodes.modify a.ptr fun n => { n with value := v }, t.root⟩, ?_, ?_, ?_, ?_, ?_⟩
  · rw [insert, hloc.found]
    simp [foundPtr, hnode, hk]
  · rw [show t.root = _ from hloc.root]
    cases fs with
    | nil => rfl
    | cons f fs =>
      obtain ⟨p, hp⟩ := rootPtr_plug_cons f fs
      rw [hp.2, hp.2]
  · refine links_plug.mpr ⟨hloc.path.congr fun p hp => getElem?_modify_ne _ (hne p (by simp [hp])),
      links_node.mpr ⟨?_, hl.congr fun p hp => getElem?_modify_ne _ (hne p (by simp [hp])),
        hr.congr fun p hp => getElem?_modify_ne _ (hne p (by simp [hp]))⟩⟩
    rw [getElem?_modify_self _ hnode]
  · have hnodup := hloc.nodup
    rw [(ptrs_plug_perm _ _).nodup_iff]
    rw [ptrs_node] at hnodup ⊢
    exact hnodup
  · have hord := hloc.ordered
    rw [Ordered, toList_plug]
    simp only [toList_node, pairwise_append, pairwise_cons, mem_append, mem_cons] at hord ⊢
    grind

theorem toList_insertShape (h : Represents t s) (hk : toMap s k = none) (v : V) (ptr : Nat) :
    ∃ pre post, toList s = pre ++ post ∧ toList (insertShape k v ptr s) = pre ++ ⟨ptr, k, v⟩ :: post := by
  obtain ⟨fs, hdesc, rfl, hloc⟩ | ⟨fs, a, l, r, hdesc, rfl, ha, hloc⟩ := h.search k
  · refine ⟨before fs, after fs, by simp [toList_plug], ?_⟩
    rw [insertShape, hdesc, toList_plug]
    simp
  · rw [hloc.toMap_node ha] at hk
    simp at hk

/-! ## Deletion -/

/-- What `Delete` puts in the place of a node with subtrees `l` and `r`. With both present it is
the leftmost node of `r`, which keeps its own links: nothing else of `l` and `r` is linked to it. -/
def replacement (l r : Shape K V) : Shape K V :=
  match l, r with
  | .nil, r => r
  | .node a l' r', .nil => .node a l' r'
  | .node .., .node b l' r' => minNode (.node b l' r')

/-- What `Delete` does to the shape. -/
def deleteShape (k : K) (s : Shape K V) : Shape K V :=
  match descend Slot.key k s [] with
  | (_, .nil) => s
  | (fs, .node _ l r) => plug fs (replacement l r)

omit [LinearOrder K] in
theorem toList_replacement_sublist (l r : Shape K V) : toList (replacement l r) <+ toList l ++ toList r := by
  cases l with
  | nil => simp [replacement]
  | node =>
    cases r with
    | nil => simp [replacement]
    | node =>
      exact (toList_minNode_isPrefix _).sublist.trans (sublist_append_right _ _)

omit [LinearOrder K] in
/-- **The first half of `Delete`**: the replacement is found, linked below some parent, and no cell
outside the right subtree has changed. -/
theorem newChild_eq {p : Nat} (k : K) (v : V) (parent : Option Nat) (hl : Links t.nodes (some p) l)
    (hr : Links t.nodes (some p) r) (hnd : (ptrs r).Nodup) :
    ∃ nodes q, t.newChild ⟨k, v, rootPtr l, rootPtr r, parent⟩ = some (rootPtr (replacement l r), nodes) ∧
      Links nodes q (replacement l r) ∧ ∀ p ∉ ptrs r, nodes[p]? = t.nodes[p]? := by
  cases l with
  | nil => exact ⟨t.nodes, some p, rfl, hr, fun _ _ => rfl⟩
  | node =>
    cases r with
    | nil => exact ⟨t.nodes, some p, rfl, hl, fun _ _ => rfl⟩
    | node b l'' r'' =>
      obtain ⟨m, mr, q, hmin, hloop, hcell, hlinks, hcase⟩ :=
        leftmost_eq hr hnd rfl (hr.length_le hnd)
      have hsub : Links t.nodes q (minNode (.node b l'' r'' : Shape K V)) := by
        rw [hmin]
        exact links_node.mpr ⟨hcell, trivial, hlinks⟩
      rcases hcase with ⟨heq, -, -⟩ | ⟨hne, q', rfl, hq', hnot⟩
      · -- the right child is its own leftmost node
        refine ⟨t.nodes, q, ?_, hsub, fun _ _ => rfl⟩
        simp [newChild, replacement, hloop, heq, hmin]
      · refine ⟨t.nodes.modify q' fun n => { n with left := rootPtr mr }, some q', ?_, ?_, ?_⟩
        · simp [newChild, replacement, hloop, hne, hcell, hmin]
        · exact hsub.congr fun p hp =>
            getElem?_modify_ne _ fun heq => hnot (heq ▸ hp)
        · exact fun p hp => getElem?_modify_ne _ fun heq => hp (heq ▸ hq')

omit [LinearOrder K] in
/-- The links that the second half of `Delete` stores when the node has a parent. -/
theorem replaceNode_cons {nodes : List (BinaryNode K V)} {p : Nat} {root : Option Nat}
    {n : BinaryNode K V} (hpath : PathLinks nodes (f :: fs) (some p)) (hp : p ∉ pathPtrs (f :: fs))
    (hroot : root ≠ some p) (hn : n.parent = some f.label.ptr) (child : Option Nat) :
    replaceNode root nodes p n child = some (match child with
      | none => ⟨nodes.modify f.label.ptr (setChild f.side none), root⟩
      | some c => ⟨(nodes.modify f.label.ptr (setChild f.side (some c))).modify c
        fun m => { m with parent := some f.label.ptr }, root⟩) := by
  have hsib := rootPtr_sibling_ne hp
  have hnode := hpath.1
  obtain ⟨side, label, sibling⟩ := f
  cases side with
  | left =>
    simp only [replaceNode, hroot, ↓reduceIte, hn, hnode, frameNode, hsib, bind_eq_bind, bind_some]
    cases child <;> rfl
  | right =>
    simp only [replaceNode, hroot, ↓reduceIte, hn, hnode, frameNode, bind_eq_bind, bind_some]
    cases child <;> rfl

omit [LinearOrder K] in
/-- **The second half of `Delete`**: the child is linked into the hole that the node leaves. -/
theorem replaceNode_eq {nodes : List (BinaryNode K V)} {q : Option Nat} {n : BinaryNode K V}
    (hpath : PathLinks nodes fs (some a.ptr)) (hs : Links nodes q s)
    (hnd : (pathPtrs fs ++ ptrs s).Nodup) (ha : a.ptr ∉ pathPtrs fs) (hn : n.parent = topPtr fs) :
    ∃ t', replaceNode (rootPtr (plug fs (.node a l r))) nodes a.ptr n (rootPtr s) = some t' ∧
      t'.root = rootPtr (plug fs s) ∧ Links t'.nodes none (plug fs s) := by
  obtain ⟨hndp, hnds, hdisj⟩ := nodup_append.mp hnd
  cases fs with
  | nil =>
    cases s with
    | nil => exact ⟨⟨nodes, none⟩, by simp [replaceNode], rfl, trivial⟩
    | node b =>
      refine ⟨⟨nodes.modify b.ptr fun m => { m with parent := none }, some b.ptr⟩, ?_, rfl, ?_⟩
      · simp [replaceNode, hn]
      · exact hs.setParent hnds rfl none
  | cons f fs =>
    obtain ⟨p, hp, hroot⟩ := rootPtr_plug_cons f fs
    have hne : ∀ x ∈ ptrs s, x ≠ f.label.ptr := fun x hx h =>
      hdisj f.label.ptr ((pathPtrs_cons_perm f fs).mem_iff.mpr (by simp)) x hx h.symm
    have hset := hpath.setChild hndp (rootPtr s)
    have hs' : Links (nodes.modify f.label.ptr (setChild f.side (rootPtr s))) q s :=
      hs.congr fun x hx => getElem?_modify_ne _ (hne x hx)
    refine ⟨_, replaceNode_cons hpath ha ?_ hn _, ?_, ?_⟩
    · rw [hroot]
      exact fun h => ha (some.inj h ▸ hp)
    · rw [hroot, hroot]
      cases rootPtr s <;> rfl
    cases hchild : rootPtr s with
    | none =>
      cases s with
      | nil => exact links_plug.mpr ⟨hset, trivial⟩
      | node => simp at hchild
    | some c =>
      rw [hchild] at hset hs'
      refine links_plug.mpr ⟨?_, hs'.setParent hnds hchild _⟩
      rw [hchild]
      exact hset.congr fun x hx =>
        getElem?_modify_ne _ (hdisj x hx c (mem_ptrs_of_rootPtr hchild))

/-- **`Delete` puts the replacement in the place of the node found.** -/
theorem delete_eq (h : Represents t s) (k : K) : ∃ t', t.delete k = some t' ∧ Represents t' (deleteShape k s) := by
  obtain ⟨fs, hdesc, rfl, hloc⟩ | ⟨fs, a, l, r, hdesc, rfl, hk, hloc⟩ := h.search k
  · refine ⟨t, ?_, by rw [deleteShape, hdesc]; exact h⟩
    rw [delete, hloc.found]
    cases fs with
    | nil => rfl
    | cons f =>
      have hne := hloc.label_ne
      have hnode := hloc.path.1
      obtain ⟨side, label, sibling⟩ := f
      cases side <;> simp_all [foundPtr, frameNode]
  obtain ⟨hnode, hl, hr⟩ := links_node.mp hloc.sub
  have hsub := toList_replacement_sublist l r
  have hptrs : ptrs (replacement l r) <+ ptrs l ++ ptrs r := by
    simpa [ptrs] using hsub.map Slot.ptr
  have hnd := hloc.nodup
  rw [ptrs_node, (List.Perm.append_left _ perm_middle).nodup_iff, perm_middle.nodup_iff, nodup_cons] at hnd
  obtain ⟨ha, hnd⟩ := hnd
  have hndr : (ptrs r).Nodup := hnd.sublist ((sublist_append_right _ _).trans (sublist_append_right _ _))
  obtain ⟨nodes, q, hnew, hlinks, hframe⟩ := newChild_eq a.key a.value (topPtr fs) hl hr hndr
  -- the cells of the path lie outside the right subtree
  have hpath : PathLinks nodes fs (some a.ptr) := hloc.path.congr fun p hp => hframe p fun hin =>
    (nodup_append.mp hnd).2.2 p hp p (mem_append_right _ hin) rfl
  obtain ⟨t', hrep, hroot, hlinks'⟩ := replaceNode_eq (l := l) (r := r)
    (n := ⟨a.key, a.value, rootPtr l, rootPtr r, topPtr fs⟩) hpath hlinks
    (hnd.sublist (hptrs.append_left _)) (fun hin => ha (mem_append_left _ hin)) rfl
  refine ⟨t', ?_, ?_⟩
  · rw [delete, hloc.found]
    simp only [foundPtr, rootPtr_node, some_or, hnode, hk, bind_eq_bind,
      bind_some, ne_eq, not_true_eq_false, ↓reduceIte]
    rw [hk] at hnew hrep
    rw [hnew, show t.root = _ from hloc.root]
    exact hrep
  · rw [deleteShape, hdesc]
    refine ⟨hroot, hlinks', ?_, ?_⟩
    · exact (ptrs_plug_perm _ _).nodup_iff.mpr (hnd.sublist (hptrs.append_left _))
    · have hord := hloc.ordered
      rw [Ordered, toList_plug]
      refine hord.sublist (List.Sublist.append (List.Sublist.append_left ?_ _) (List.Sublist.refl _))
      exact hsub.trans (List.Sublist.append_left (sublist_cons_self _ _) _)

/-! ## Neighbours -/

/-- The entry with the greatest key strictly below `k`. -/
def below (k : K) (s : Shape K V) : Option (Slot K V) :=
  ((toList s).filter fun a => a.key < k).getLast?

/-- The entry with the least key strictly above `k`. -/
def above (k : K) (s : Shape K V) : Option (Slot K V) :=
  ((toList s).filter fun a => k < a.key).head?

/-- The entries around `k`, read off a search path with an empty hole. -/
theorem Located.neighbours_nil (h : Located t k fs .nil) : BinaryTree.below k (plug fs .nil) = (before fs).getLast? ∧
      BinaryTree.above k (plug fs .nil) = (after fs).head? := by
  obtain ⟨hbelow, habove⟩ := filter_of_separated h.below (by simp : ∀ x ∈ ([] : List (Slot K V)), x.key = k) h.above
  rw [BinaryTree.below, BinaryTree.above, toList_plug, toList_nil, hbelow, habove]
  exact ⟨rfl, rfl⟩

theorem Located.node_separates (h : Located t k fs (.node a l r)) (hk : a.key = k) :
    (∀ x ∈ toList l, x.key < k) ∧ ∀ x ∈ toList r, k < x.key := by
  have hord := h.ordered
  rw [pairwise_append, pairwise_append] at hord
  obtain ⟨-, -, hl, hr⟩ := ordered_node.mp hord.1.2.1
  rw [hk] at hl hr
  exact ⟨hl, hr⟩

/-- The entries around `k`, read off a search path that ends at a node. -/
theorem Located.neighbours_node (h : Located t k fs (.node a l r)) (hk : a.key = k) :
    BinaryTree.below k (plug fs (.node a l r)) = (before fs ++ toList l).getLast? ∧
      BinaryTree.above k (plug fs (.node a l r)) = (toList r ++ after fs).head? := by
  obtain ⟨hl, hr⟩ := h.node_separates hk
  have hsplit : toList (plug fs (.node a l r)) = (before fs ++ toList l) ++ [a] ++ (toList r ++ after fs) := by
    rw [toList_plug, toList_node]
    simp
  obtain ⟨hbelow, habove⟩ := filter_of_separated (forall_mem_append.mpr ⟨h.below, hl⟩)
    (by simp [hk] : ∀ x ∈ [a], x.key = k) (forall_mem_append.mpr ⟨hr, h.above⟩)
  rw [BinaryTree.below, BinaryTree.above, hsplit, hbelow, habove]
  exact ⟨rfl, rfl⟩

theorem Located.climb {p : Nat} (h : Located t k fs hole) (hp : rootPtr hole = some p) :
    PathLinks t.nodes fs (some p) ∧ (p :: pathPtrs fs).Nodup ∧ fs.length < t.nodes.length + 1 := by
  refine ⟨hp ▸ h.path, ?_, ?_⟩
  · obtain ⟨hnd, -, hdisj⟩ := nodup_append.mp h.nodup
    exact nodup_cons.mpr ⟨fun hin => hdisj p hin p (mem_ptrs_of_rootPtr hp) rfl, hnd⟩
  · have hlen := length_le_length_toList_plug fs hole
    have hcells := h.represents.links.length_le h.represents.nodup
    omega

theorem Located.climb_label (h : Located t k (f :: fs) hole) :
    PathLinks t.nodes fs (some f.label.ptr) ∧ (f.label.ptr :: pathPtrs fs).Nodup ∧ fs.length < t.nodes.length + 1 := by
  refine ⟨h.path.2.2, ?_, ?_⟩
  · exact ((pathPtrs_cons_perm f fs).nodup_iff.mp (nodup_append.mp h.nodup).1).sublist
      ((sublist_append_right _ _).cons_cons _)
  · have hlen := length_le_length_toList_plug (f :: fs) hole
    have hcells := h.represents.links.length_le h.represents.nodup
    rw [length_cons] at hlen
    omega

/-- **`Predecessor` is the greatest key strictly below, `Successor` the least strictly above.** -/
theorem neighbours_eq (h : Represents t s) (k : K) : t.predecessor k = some ((below k s).map Slot.value) ∧
    t.successor k = some ((above k s).map Slot.value) := by
  obtain ⟨fs, -, rfl, hloc⟩ | ⟨fs, a, l, r, -, rfl, hk, hloc⟩ := h.search k
  · obtain ⟨hbelow, habove⟩ := hloc.neighbours_nil
    rw [predecessor, successor, hloc.found, hbelow, habove]
    cases fs with
    | nil => exact ⟨rfl, rfl⟩
    | cons f =>
      have hlt := hloc.label_lt
      have hnode := hloc.path.1
      obtain ⟨hrest, hnd, hfuel⟩ := hloc.climb_label
      obtain ⟨hleft, hright⟩ := climb_eq hrest hnd hfuel
      obtain ⟨side, label, sibling⟩ := f
      -- on the side where the key would hang, it shares its neighbour with `label`
      cases side <;>
      · simp only at hlt hleft hright
        simp [foundPtr, hnode, frameNode, hlt, hlt.not_gt, hleft, hright, Frame.before, Frame.after]
  obtain ⟨hnode, hl, hr⟩ := links_node.mp hloc.sub
  obtain ⟨hpath, hnd, hfuel⟩ := hloc.climb rfl
  obtain ⟨hleft, hright⟩ := climb_eq hpath hnd hfuel
  obtain ⟨hbelow, habove⟩ := hloc.neighbours_node hk
  have hall := (nodup_append.mp hloc.nodup).2.1
  rw [ptrs_node, nodup_append, nodup_cons] at hall
  rw [predecessor, successor, hloc.found, hbelow, habove]
  simp only [foundPtr, rootPtr_node, some_or, hnode, bind_eq_bind, bind_some, hk, lt_irrefl, ↓reduceIte]
  constructor
  · cases l with
    | nil =>
      rw [rootPtr_nil, hleft]
      simp
    | node b l' r' =>
      obtain ⟨c, n, hlast, hloop, hcell, hval⟩ := rightmost_eq hl rfl (hl.length_le hall.1)
      simp only [rootPtr_node, hloop, hcell, bind_some]
      rw [List.getLast?_append, hlast]
      simp [hval]
  cases r with
  | nil =>
    rw [rootPtr_nil, hright]
    simp
  | node b l' r' =>
    obtain ⟨m, mr, q, hmin, hloop, hcell, -, -⟩ := leftmost_eq hr hall.2.1.2 rfl (hr.length_le hall.2.1.2)
    -- the leftmost node heads the traversal
    obtain ⟨rest, hrest⟩ := toList_minNode_isPrefix (.node b l' r' : Shape K V)
    rw [hmin] at hrest
    simp only [rootPtr_node, hloop, hcell, bind_some]
    rw [← hrest]
    simp

/-- **`Predecessor` in the map**: nothing lies below the key, or the answer is the value of the
greatest key that does. -/
theorem predecessor_spec (h : Represents t s) (k : K) :
    (t.predecessor k = some none ∧ ∀ k' v, toMap s k' = some v → k ≤ k') ∨
      ∃ k1 v1, t.predecessor k = some (some v1) ∧ toMap s k1 = some v1 ∧ k1 < k ∧
        ∀ k' v, toMap s k' = some v → k' < k → k' ≤ k1 := by
  rw [(neighbours_eq h k).1]
  cases hbelow : below k s with
  | none =>
    refine Or.inl ⟨rfl, fun k' v hv => ?_⟩
    obtain ⟨a, ha, rfl, -⟩ := mem_of_toMap hv
    have hnil := List.getLast?_eq_none_iff.mp hbelow
    simpa using filter_eq_nil_iff.mp hnil a ha
  | some a =>
    have hmem := mem_filter.mp (mem_of_getLast? hbelow)
    refine Or.inr ⟨a.key, a.value, rfl, ?_, by simpa using hmem.2, fun k' v hv hlt => ?_⟩
    · exact (toMap_eq_some_iff h.ordered).mpr ⟨a, hmem.1, rfl, rfl⟩
    -- the filtered traversal is increasing, and `a` is its last entry
    obtain ⟨x, hx, rfl, -⟩ := mem_of_toMap hv
    obtain ⟨init, hinit⟩ := List.getLast?_eq_some_iff.mp hbelow
    have hin : x ∈ (toList s).filter fun a => a.key < k := by simp [hx, hlt]
    have hord := h.ordered.filter fun a => decide (a.key < k)
    rw [hinit] at hin hord
    rcases mem_append.mp hin with hin | hin
    · exact ((pairwise_append.mp hord).2.2 x hin a (by simp)).le
    · rw [mem_singleton.mp hin]

/-- **`Successor` in the map**: nothing lies above the key, or the answer is the value of the least
key that does. -/
theorem successor_spec (h : Represents t s) (k : K) :
    (t.successor k = some none ∧ ∀ k' v, toMap s k' = some v → k' ≤ k) ∨
      ∃ k1 v1, t.successor k = some (some v1) ∧ toMap s k1 = some v1 ∧ k < k1 ∧
        ∀ k' v, toMap s k' = some v → k < k' → k1 ≤ k' := by
  rw [(neighbours_eq h k).2]
  cases habove : above k s with
  | none =>
    refine Or.inl ⟨rfl, fun k' v hv => ?_⟩
    obtain ⟨a, ha, rfl, -⟩ := mem_of_toMap hv
    have hnil := List.head?_eq_none_iff.mp habove
    simpa using filter_eq_nil_iff.mp hnil a ha
  | some a =>
    have hmem := mem_filter.mp (mem_of_head? habove)
    refine Or.inr ⟨a.key, a.value, rfl, ?_, by simpa using hmem.2, fun k' v hv hlt => ?_⟩
    · exact (toMap_eq_some_iff h.ordered).mpr ⟨a, hmem.1, rfl, rfl⟩
    obtain ⟨x, hx, rfl, -⟩ := mem_of_toMap hv
    obtain ⟨rest, hrest⟩ := List.head?_eq_some_iff.mp habove
    have hin : x ∈ (toList s).filter fun a => k < a.key := by simp [hx, hlt]
    have hord := h.ordered.filter fun a => decide (k < a.key)
    rw [hrest] at hin hord
    rcases mem_cons.mp hin with rfl | hin
    · exact le_rfl
    · exact ((pairwise_cons.mp hord).1 x hin).le

end Acadia.Glacier.BinaryTree
