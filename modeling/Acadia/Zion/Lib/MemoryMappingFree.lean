import Acadia.Zion.Lib.MemoryMappingRuns

/-! # Which ranges can be freed

`FreeMemoryRange` looks at the two mappings before the ends of its range, deletes a mapping at the base and then
one successor after the other. On disjoint mappings the checks find every mapping that straddles an end. Exactly
the mappings outside of the range are left if no deletion meets a node with two children
(`freeMemoryRange_frees_iff`). -/

namespace Acadia.Zion.MemoryMappingTree

open Glacier Glacier.BinaryTree SearchTree Option UInt64 List

open scoped Word

/-- The address is inside the mapping, and not its first one. -/
def Straddles (x : MemoryMapping) (k : UInt64) : Prop := x.vaddrBase < k ∧ k < x.vaddrLimit

/-- The mapping lies inside the range. -/
def inside (vaddrBase vaddrLimit : UInt64) (x : MemoryMapping) : Bool :=
  vaddrBase ≤ x.vaddrBase && x.vaddrLimit ≤ vaddrLimit

/-- The range is not empty, and no mapping straddles one of its ends. -/
def Freeable (ms : List MemoryMapping) (vaddrBase vaddrLimit : UInt64) : Prop :=
  vaddrBase < vaddrLimit ∧ ∀ x ∈ ms, ¬ Straddles x vaddrBase ∧ ¬ Straddles x vaddrLimit

/-- **What `FreeMemoryRange` is for**: it comes to its end, returns `OK` exactly for ranges that can be
freed, takes away the mappings inside the range and no others, and changes nothing if it fails. -/
def FreesRange (m : MemoryMappingTree) (ms : List MemoryMapping) (vaddrBase vaddrLimit : UInt64) :
    Prop :=
  ∃ code m' destroyed, m.freeMemoryRange vaddrBase vaddrLimit = some (code, m', destroyed) ∧
    (code = .ok ↔ Freeable ms vaddrBase vaddrLimit) ∧
    (code = .ok → Holds m' (ms.filter fun x => !inside vaddrBase vaddrLimit x)) ∧
    (code ≠ .ok → m' = m)

/-- **A state of the tree**: the mappings are not empty, end inside the address space and have no address
in common. -/
structure Proper (m : MemoryMappingTree) (ms : List MemoryMapping) : Prop where
  holds : Holds m ms
  nonempty : ∀ x ∈ ms, x.memObject.size ≠ 0
  /-- No mapping reaches the end of the address space. -/
  noWrap : ∀ x ∈ ms, NoWrap x
  /-- No address belongs to two mappings. -/
  disjoint : ∀ x ∈ ms, ∀ y ∈ ms, x ≠ y → ∀ addr, ¬ (covers x addr ∧ covers y addr)

variable {m : MemoryMappingTree} {ms : List MemoryMapping} {lo hi : UInt64}

namespace Proper

variable {x : MemoryMapping}

theorem toNat_limit (h : Proper m ms) (hx : x ∈ ms) :
    x.vaddrLimit.toNat = x.vaddrBase.toNat + x.memObject.size.toNat := by
  rw [h.holds.limit x hx, Word.toNat_add_of_lt (h.noWrap x hx)]

theorem base_lt_limit (h : Proper m ms) (hx : x ∈ ms) : x.vaddrBase < x.vaddrLimit := by
  have hlimit := h.toNat_limit hx
  have hsize : x.memObject.size.toNat ≠ 0 := fun hzero =>
    h.nonempty x hx (UInt64.toNat_inj.mp hzero)
  rw [lt_iff_toNat_lt]
  omega

theorem spaced (h : Proper m ms) : Spaced ms := by
  intro x hx y hy hlt _
  by_contra hle
  -- the base of the upper mapping would belong to both
  refine h.disjoint x hx y hy (fun heq => hlt.ne (congrArg MemoryMapping.vaddrBase heq)) y.vaddrBase ⟨?_, ?_⟩
  · have hlimit := h.toNat_limit hx
    rw [not_le, lt_iff_toNat_lt] at hle
    rw [lt_iff_toNat_lt] at hlt
    rw [covers, UInt64.lt_iff_toNat_lt, UInt64.toNat_sub_of_le _ _ (UInt64.le_iff_toNat_le.mpr hlt.le)]
    omega
  · rw [covers, UInt64.sub_self, UInt64.lt_iff_toNat_lt, UInt64.toNat_zero]
    have hsize : y.memObject.size.toNat ≠ 0 := fun hzero =>
      h.nonempty y hy (UInt64.toNat_inj.mp hzero)
    omega

/-- **The check of one neighbour finds every mapping that straddles the address.** -/
theorem endsBy_iff (h : Proper m ms) (k : UInt64) : EndsBy ms k ↔ ∀ x ∈ ms, ¬ Straddles x k := by
  constructor
  · intro hends x hx hstraddles
    obtain ⟨p, -, hsome, hnone⟩ := h.holds.predecessor k
    cases p with
    | none => exact (hnone rfl x hx).not_gt hstraddles.1
    | some y =>
      obtain ⟨hy, hyk, hmax⟩ := hsome y rfl
      have hylimit := hends y hy hyk hmax
      rcases (hmax x hx hstraddles.1).lt_or_eq with hlt | heq
      · -- the mapping ends before the neighbour starts
        have hxlimit := h.spaced x hx y hy hlt (h.noWrap x hx)
        exact hstraddles.2.not_ge (hxlimit.trans hyk.le)
      · rw [h.holds.eq_of_base hx hy heq] at hstraddles
        exact hstraddles.2.not_ge hylimit
  · intro hall x hx hlt _
    exact not_lt.mp fun hlimit => hall x hx ⟨hlt, hlimit⟩

theorem freeable_iff (h : Proper m ms) : Freeable ms lo hi ↔ lo < hi ∧ EndsBy ms lo ∧ EndsBy ms hi := by
  rw [h.endsBy_iff, h.endsBy_iff, Freeable]
  refine and_congr_right fun _ => ⟨fun hall => ⟨fun x hx => (hall x hx).1, fun x hx => (hall x hx).2⟩, ?_⟩
  intro hall x hx
  exact ⟨hall.1 x hx, hall.2 x hx⟩

theorem startsIn_eq_inside (h : Proper m ms) (hfree : Freeable ms lo hi)
    (hx : x ∈ ms) : startsIn lo hi x = inside lo hi x := by
  have hbase := h.base_lt_limit hx
  have hstraddles := (hfree.2 x hx).2
  rw [Bool.eq_iff_iff, startsIn, inside, Bool.and_eq_true, Bool.and_eq_true, decide_eq_true_eq,
    decide_eq_true_eq, decide_eq_true_eq]
  refine and_congr_right fun _ => ⟨fun hlt => not_lt.mp fun hlimit => hstraddles ⟨hlt, hlimit⟩, ?_⟩
  exact fun hle => hbase.trans_le hle

end Proper

theorem proper_of_spaced (hholds : Holds m ms) (hnonempty : ∀ x ∈ ms, x.memObject.size ≠ 0)
    (hwrap : ∀ x ∈ ms, NoWrap x) (hspaced : Spaced ms) : Proper m ms := by
  refine ⟨hholds, hnonempty, hwrap, fun x hx y hy hne addr hboth => ?_⟩
  rcases lt_trichotomy x.vaddrBase y.vaddrBase with hlt | heq | hlt
  · exact not_covers_both (hwrap x hx) (hwrap y hy) (hholds.limit x hx) hlt
      (hspaced x hx y hy hlt (hwrap x hx)) addr hboth
  · exact hne (hholds.eq_of_base hx hy heq)
  · exact not_covers_both (hwrap y hy) (hwrap x hx) (hholds.limit y hy) hlt
      (hspaced y hy x hx hlt (hwrap y hy)) addr hboth.symm

/-! ## Mappings that get lost -/

/-- The mappings below an address. -/
def Keeps (ms ms' : List MemoryMapping) (k : UInt64) : Prop := ∀ x ∈ ms, x.vaddrBase < k → x ∈ ms'

variable {ms' destroyed : List MemoryMapping}

/-- A deletion after which the range can be spliced and nothing below it got lost was made in a tree where
the range could be spliced. -/
theorem rangeSplices_of_deleteMapping {tree tree' : BinaryTree UInt64 MemoryMapping} (h : Holds ⟨tree⟩ ms)
    {x : MemoryMapping} (hdel : deleteMapping tree x.vaddrBase = some (tree', destroyed)) (h' : Holds ⟨tree'⟩ ms')
    (hlo : lo ≤ x.vaddrBase) (hleast : ∀ y ∈ ms, lo ≤ y.vaddrBase → x.vaddrBase ≤ y.vaddrBase) (hkept : Keeps ms ms' lo)
    (hs : rangeSplices lo hi tree'.shape = true) : rangeSplices lo hi tree.shape = true := by
  obtain ⟨tree1, hdelete, hrep⟩ := delete_eq h.tree x.vaddrBase
  have htree : tree1 = tree' := by
    unfold deleteMapping at hdel
    simp only [bind_eq_bind, bind_eq_some_iff] at hdel
    obtain ⟨found, -, rest, hrest, hpure⟩ := hdel
    cases hpure
    exact some.inj (hdelete.symm.trans hrest)
  subst htree
  rw [hrep.shape_eq] at hs
  refine rangeSplices_of_deleteShape h.tree hlo ?_ ?_ hs
  · intro a ha hle
    obtain ⟨hkey, hmem⟩ := h.key_eq ha
    rw [← hkey] at hle ⊢
    exact hleast a.value hmem hle
  -- an entry below the range is still there, in the same cell
  intro a ha hlt
  obtain ⟨hkey, hmem⟩ := h.key_eq ha
  rw [← hkey] at hlt
  obtain ⟨b, hb, hbkey, hbvalue⟩ := h'.slot (hkept a.value hmem hlt)
  rw [hrep.shape_eq] at hb
  have hb0 := mem_of_mem_filter ((toList_deleteShape_sublist h.tree x.vaddrBase).subset hb)
  have hab : a = b := inj_on_of_nodup_map (f := Slot.key)
    (pairwise_map.mpr (h.tree.ordered.imp ne_of_lt)) ha hb0 (by rw [hbkey, hkey])
  rw [hab]
  exact hb

/-- **A loop that keeps everything below its range** ran in a tree where the range could be spliced. -/
theorem rangeSplices_of_freeLoop {tree tree' : BinaryTree UInt64 MemoryMapping} {fuel : Nat} (h : Holds ⟨tree⟩ ms)
    (hloop : freeLoop lo hi fuel tree = some (tree', destroyed)) (h' : Holds ⟨tree'⟩ ms') (hfuel : ms.length < fuel)
    (hne : ∀ x ∈ ms, x.vaddrBase ≠ lo) (hkept : Keeps ms ms' lo) : rangeSplices lo hi tree.shape = true := by
  induction fuel generalizing tree ms destroyed with
  | zero => exact absurd hfuel (Nat.not_lt_zero _)
  | succ fuel ih =>
    obtain ⟨q, hq, hqsome, hqnone⟩ := h.successor lo
    have hsucc : tree.successor lo = some q := hq
    have hempty : (∀ x ∈ ms, lo < x.vaddrBase → hi ≤ x.vaddrBase) → rangeSplices lo hi tree.shape = true := by
      intro hall
      refine rangeSplices_of_forall fun a ha hle => ?_
      obtain ⟨hkey, hmem⟩ := h.key_eq ha
      rw [← hkey] at hle ⊢
      exact hall a.value hmem (lt_of_le_of_ne hle (hne a.value hmem).symm)
    cases q with
    | none => exact hempty fun x hx hlt => absurd hlt (hqnone rfl x hx).not_gt
    | some b =>
      obtain ⟨hb, hlo, hleast⟩ := hqsome b rfl
      by_cases hhi : b.vaddrBase < hi
      · obtain ⟨tree1, ms1, destroyed1, hdel, h1, hsub1, -⟩ := deleteMapping_sublist h hb
        have hlen : ms1.length < ms.length := by
          have hle := hsub1.length_le
          have hall := (h.perm_cons hb).length_eq
          rw [length_cons] at hall
          omega
        obtain ⟨tree2, ms2, destroyed2, hloop2, h2, hsub2, -⟩ :=
          freeLoop_sublist h1 (show ms1.length < fuel by omega) lo hi
        have heq : tree2 = tree' := by
          simp only [freeLoop, hsucc, hhi.not_ge, hdel, hloop2, bind_eq_bind, bind_some, if_false] at hloop
          cases hloop
          rfl
        subst heq
        have hms : ms' = ms2 := by rw [← h'.values, ← h2.values]
        subst hms
        have hsub : ∀ x ∈ ms1, x ∈ ms := fun x hx => mem_of_mem_filter (hsub1.subset hx)
        have hs1 := ih h1 hloop2 (by omega) (fun x hx => hne x (hsub x hx)) fun x hx hlt => hkept x (hsub x hx) hlt
        refine rangeSplices_of_deleteMapping h hdel h1 hlo.le (fun y hy hle => ?_)
          (fun x hx hlt => hsub2.subset (hkept x hx hlt)) hs1
        exact hleast y hy (lt_of_le_of_ne hle (hne y hy).symm)
      · exact hempty fun x hx hlt => (not_lt.mp hhi).trans (hleast x hx hlt)

/-- **A call that keeps everything below its range** was made in a tree where the range could be
spliced. -/
theorem rangeSplices_of_freeMemoryRange {m' : MemoryMappingTree} (h : Holds m ms)
    (hfree : m.freeMemoryRange lo hi = some (.ok, m', destroyed)) (h' : Holds m' ms')
    (hkept : Keeps ms ms' lo) : rangeSplices lo hi m.mappingTree.shape = true := by
  obtain ⟨tree, ms1, destroyed1, hfirst, h1, hsub1, -, hne⟩ := freeFirst_sublist h lo
  have hfuel : ms1.length < tree.nodes.length + 1 := Nat.lt_succ_of_le h1.length_le
  obtain ⟨tree2, ms2, destroyed2, hloop, h2, hsub2, -⟩ := freeLoop_sublist h1 hfuel lo hi
  have heq : m' = ⟨tree2⟩ := by
    unfold freeMemoryRange at hfree
    by_cases hlt : hi ≤ lo
    · rw [if_pos hlt] at hfree
      cases hfree
    rw [if_neg hlt] at hfree
    simp only [bind_eq_bind, bind_eq_some_iff] at hfree
    obtain ⟨p, -, hfree⟩ := hfree
    by_cases hlow : p.any (fun p => p.vaddrLimit > lo) = true
    · rw [if_pos hlow] at hfree
      cases hfree
    rw [if_neg hlow, bind_eq_some_iff] at hfree
    obtain ⟨q, -, hfree⟩ := hfree
    by_cases hhigh : q.any (fun p => p.vaddrLimit > hi) = true
    · rw [if_pos hhigh] at hfree
      cases hfree
    rw [if_neg hhigh] at hfree
    simp only [hfirst, hloop, bind_some] at hfree
    cases hfree
    rfl
  subst heq
  have hms : ms' = ms2 := by rw [← h'.values, ← h2.values]
  subst hms
  have hs1 := rangeSplices_of_freeLoop h1 hloop h' hfuel hne fun x hx hlt =>
    hkept x (hsub1.subset hx) hlt
  -- the first deletion, if there is a mapping at the base
  have hfound : m.mappingTree.find lo = some (toMap m.mappingTree.shape lo) := find_eq h.tree lo
  cases hmap : toMap m.mappingTree.shape lo with
  | none =>
    rw [hmap] at hfound
    simp only [freeFirst, hfound, bind_eq_bind, bind_some] at hfirst
    cases hfirst
    exact hs1
  | some x =>
    rw [hmap] at hfound
    obtain ⟨hx, rfl⟩ := h.toMap_iff.mp hmap
    simp only [freeFirst, hfound, bind_eq_bind, bind_some, isSome_some, if_true] at hfirst
    exact rangeSplices_of_deleteMapping h hfirst h1 le_rfl (fun _ _ hle => hle)
      (fun y hy hlt => hsub2.subset (hkept y hy hlt)) hs1

/-- **`FreeMemoryRange` does what it is for exactly where it can splice**: on every tree of disjoint
mappings and for every range, it takes away the mappings inside the range and keeps the others, if and
only if no node of the range has a right subtree and a left subtree that reaches below the range. -/
theorem freeMemoryRange_frees_iff (m : MemoryMappingTree) (ms : List MemoryMapping) (h : Proper m ms)
    (vaddrBase vaddrLimit : UInt64) : FreesRange m ms vaddrBase vaddrLimit ↔
      (Freeable ms vaddrBase vaddrLimit → rangeSplices vaddrBase vaddrLimit m.mappingTree.shape = true) := by
  constructor
  · rintro ⟨code, m', destroyed, hfree, hcode, hok, -⟩ hfreeable
    obtain rfl := hcode.mpr hfreeable
    refine rangeSplices_of_freeMemoryRange h.holds hfree (hok rfl) fun x hx hlt => ?_
    -- what starts below the range is not inside of it
    refine mem_filter.mpr ⟨hx, ?_⟩
    rw [inside, decide_eq_false (not_le.mpr hlt)]
    rfl
  intro hs
  rcases freeMemoryRange_sublist h.holds vaddrBase vaddrLimit with
    ⟨code, hcode, hfree, hnot⟩ | ⟨m', ms', destroyed, hfree, -, -, -, -, hcan⟩
  · refine ⟨code, m, [], hfree, ⟨fun heq => absurd heq hcode, fun hfreeable => ?_⟩,
      fun heq => absurd heq hcode, fun _ => rfl⟩
    exact absurd (h.freeable_iff.mp hfreeable) hnot
  have hfreeable := h.freeable_iff.mpr hcan
  refine ⟨.ok, m', destroyed, hfree, ⟨fun _ => hfreeable, fun _ => rfl⟩, fun _ => ?_, fun hne => absurd rfl hne⟩
  rcases freeMemoryRange_spec h.holds (hs hfreeable) with
    ⟨code, hcode, hfree'⟩ | ⟨m'', hfree', hholds, -⟩
  · rw [hfree, some.injEq, Prod.mk.injEq] at hfree'
    exact absurd hfree'.1.symm hcode
  · rw [hfree, some.injEq, Prod.mk.injEq, Prod.mk.injEq] at hfree'
    rw [hfree'.2.1]
    have hfilter : (ms.filter fun x => !startsIn vaddrBase vaddrLimit x) =
        ms.filter fun x => !inside vaddrBase vaddrLimit x :=
      filter_congr fun x hx => by rw [h.startsIn_eq_inside hfreeable hx]
    rw [← hfilter]
    exact hholds

/-! ## Three mappings -/

/-- A mapping of one page with mappings of one page below and above it in the tree. -/
def threeMappings : List MemoryMapping :=
  [⟨0x2000, 0x3000, ⟨1, .variable, 0x1000⟩⟩, ⟨0x5000, 0x6000, ⟨0, .variable, 0x1000⟩⟩,
    ⟨0x8000, 0x9000, ⟨2, .variable, 0x1000⟩⟩]

/-- The tree after the mappings were added, that in the middle first. -/
def threeMappingsTree : MemoryMappingTree where
  mappingTree :=
    { nodes := [⟨0x5000, ⟨0x5000, 0x6000, ⟨0, .variable, 0x1000⟩⟩, some 1, some 2, none⟩,
        ⟨0x2000, ⟨0x2000, 0x3000, ⟨1, .variable, 0x1000⟩⟩, none, none, some 0⟩,
        ⟨0x8000, ⟨0x8000, 0x9000, ⟨2, .variable, 0x1000⟩⟩, none, none, some 0⟩]
      root := some 0 }

theorem proper_threeMappings : Proper threeMappingsTree threeMappings := by
  have hshape : threeMappingsTree.mappingTree.shape = .node ⟨0, 0x5000, ⟨0x5000, 0x6000, 0, .variable, 0x1000⟩⟩
        (.node ⟨1, 0x2000, ⟨0x2000, 0x3000, 1, .variable, 0x1000⟩⟩ .nil .nil)
        (.node ⟨2, 0x8000, ⟨0x8000, 0x9000, 2, .variable, 0x1000⟩⟩ .nil .nil) := rfl
  refine proper_of_spaced ⟨?_, rfl, by decide⟩ (by decide) ?_ ?_
  · rw [hshape]
    exact ⟨rfl, ⟨rfl, ⟨rfl, trivial, trivial⟩, rfl, trivial, trivial⟩, by decide, by
      show List.Pairwise _ _
      decide⟩
  · unfold NoWrap
    decide
  · unfold Spaced NoWrap
    decide

/-- The lowest mapping has no children, and is freed alone. -/
theorem freeMemoryRange_frees_iff_threeMappings : FreesRange threeMappingsTree threeMappings 0x2000 0x3000 :=
  (freeMemoryRange_frees_iff threeMappingsTree threeMappings proper_threeMappings 0x2000 0x3000).mpr fun _ => by decide

/-- **Freeing one mapping loses another**: after `FreeMemoryRange` of the one in the middle, which has two
children, the mapping at `0x2000` is not found any more. -/
theorem freeMemoryRange_loses_mapping : Proper threeMappingsTree threeMappings ∧ Freeable threeMappings 0x5000 0x6000 ∧
    threeMappingsTree.getMemoryMappingForAddr 0x2800 = some (some ⟨0x2000, 0x3000, ⟨1, .variable, 0x1000⟩⟩) ∧
    ∃ m' destroyed, threeMappingsTree.freeMemoryRange 0x5000 0x6000 = some (.ok, m', destroyed) ∧
      m'.getMemoryMappingForAddr 0x2800 = some none := by
  refine ⟨proper_threeMappings, ?_, by decide, _, _, rfl, by decide⟩
  unfold Freeable Straddles
  decide

end Acadia.Zion.MemoryMappingTree
