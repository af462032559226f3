import Acadia.Foundations.SortedList
import Acadia.Zion.Lib.MemoryMappingTree

/-! # The mapping tree as a sorted list of mappings

`Holds m ms` says that the tree of `m` holds exactly the mappings `ms`, in ascending order of their bases.
`AddInMemoryObject` is then an insertion, guarded by a check against the two neighbours, and `FreeMemoryRange`
removes the mappings that start in the range, provided that the tree can splice each of them out
(`rangeSplices`). -/

namespace Acadia.Zion.MemoryMappingTree

open Glacier Glacier.BinaryTree SearchTree List Option

open scoped Word

/-- The entry of the tree that a mapping is stored under, without its cell. -/
def entry (a : Slot UInt64 MemoryMapping) : UInt64 × MemoryMapping := (a.key, a.value)

/-- **The tree holds the mappings `ms`**, each under its base, in ascending order. -/
structure Holds (m : MemoryMappingTree) (ms : List MemoryMapping) : Prop where
  /-- The heap of the tree is a search tree. -/
  tree : Represents m.mappingTree m.mappingTree.shape
  /-- Its entries are the mappings under their bases. -/
  entries : (toList m.mappingTree.shape).map entry = ms.map fun x => (x.vaddrBase, x)
  /-- A limit is the base plus the size of the object, modulo `2 ^ 64`. -/
  limit : ∀ x ∈ ms, x.vaddrLimit = x.vaddrBase + x.memObject.size

theorem holds_empty : Holds {} [] := ⟨represents_empty, rfl, by simp⟩

variable {tree : BinaryTree UInt64 MemoryMapping} {ms : List MemoryMapping}

theorem holds_of_represents {s : Shape UInt64 MemoryMapping} (h : Represents tree s)
    (hentries : (toList s).map entry = ms.map fun x => (x.vaddrBase, x))
    (hlimit : ∀ x ∈ ms, x.vaddrLimit = x.vaddrBase + x.memObject.size) : Holds ⟨tree⟩ ms := by
  have hs : tree.shape = s := h.shape_eq
  refine ⟨?_, ?_, hlimit⟩
  · rw [hs]
    exact h
  · rw [hs]
    exact hentries

namespace Holds

variable {m : MemoryMappingTree} {ms : List MemoryMapping}

theorem sorted (h : Holds m ms) : ms.Pairwise fun x y => x.vaddrBase < y.vaddrBase := by
  have hord : ((toList m.mappingTree.shape).map entry).Pairwise fun p q => p.1 < q.1 :=
    pairwise_map.mpr h.tree.ordered
  rw [h.entries, pairwise_map] at hord
  exact hord

variable {x : MemoryMapping}

theorem eq_of_base (h : Holds m ms) {y : MemoryMapping} (hx : x ∈ ms) (hy : y ∈ ms)
    (hbase : x.vaddrBase = y.vaddrBase) : x = y := by
  have hnodup : (ms.map MemoryMapping.vaddrBase).Nodup :=
    pairwise_map.mpr (h.sorted.imp ne_of_lt)
  exact inj_on_of_nodup_map hnodup hx hy hbase

theorem values (h : Holds m ms) : (toList m.mappingTree.shape).map Slot.value = ms := by
  have hmap := congrArg (List.map Prod.snd) h.entries
  simpa [Function.comp_def, entry] using hmap

theorem length_le (h : Holds m ms) : ms.length ≤ m.mappingTree.nodes.length := by
  rw [← h.values, length_map]
  exact h.tree.links.length_le h.tree.nodup

theorem key_eq (h : Holds m ms) {a : Slot UInt64 MemoryMapping}
    (ha : a ∈ toList m.mappingTree.shape) : a.value.vaddrBase = a.key ∧ a.value ∈ ms := by
  have hin : entry a ∈ ms.map fun x => (x.vaddrBase, x) := h.entries ▸ mem_map_of_mem ha
  obtain ⟨x, hx, heq⟩ := mem_map.mp hin
  obtain ⟨hkey, hval⟩ := Prod.mk.inj heq
  exact ⟨hval ▸ hkey, hval ▸ hx⟩

theorem slot (h : Holds m ms) (hx : x ∈ ms) : ∃ a ∈ toList m.mappingTree.shape, a.key = x.vaddrBase ∧ a.value = x := by
  have hin : (x.vaddrBase, x) ∈ (toList m.mappingTree.shape).map entry :=
    h.entries ▸ mem_map_of_mem hx
  obtain ⟨a, ha, heq⟩ := mem_map.mp hin
  obtain ⟨hkey, hval⟩ := Prod.mk.inj heq
  exact ⟨a, ha, hkey, hval⟩

theorem toMap_iff (h : Holds m ms) {k : UInt64} : toMap m.mappingTree.shape k = some x ↔ x ∈ ms ∧ x.vaddrBase = k := by
  rw [toMap_eq_some_iff h.tree.ordered]
  constructor
  · rintro ⟨a, ha, rfl, rfl⟩
    exact ⟨(h.key_eq ha).2, (h.key_eq ha).1⟩
  · rintro ⟨hx, rfl⟩
    exact h.slot hx

/-- `Find` on the mapping tree. -/
theorem find_eq_some_iff (h : Holds m ms) {k : UInt64} :
    m.mappingTree.find k = some (some x) ↔ x ∈ ms ∧ x.vaddrBase = k := by
  rw [find_eq h.tree, some.injEq, h.toMap_iff]

/-- `Find` misses when no mapping has the base. -/
theorem find_eq_none_iff (h : Holds m ms) {k : UInt64} :
    m.mappingTree.find k = some none ↔ ∀ x ∈ ms, x.vaddrBase ≠ k := by
  rw [find_eq h.tree, some.injEq, eq_none_iff_forall_ne_some]
  constructor
  · intro hnone x hx hk
    exact hnone x (h.toMap_iff.mpr ⟨hx, hk⟩)
  · intro hne x hx
    obtain ⟨hx, hk⟩ := h.toMap_iff.mp hx
    exact hne x hx hk

/-- `Predecessor` on the mapping tree: the mapping with the greatest base below `k`, if any. -/
theorem predecessor (h : Holds m ms) (k : UInt64) : ∃ p, m.mappingTree.predecessor k = some p ∧
      (∀ x, p = some x → x ∈ ms ∧ x.vaddrBase < k ∧ ∀ y ∈ ms, y.vaddrBase < k → y.vaddrBase ≤ x.vaddrBase) ∧
      (p = none → ∀ y ∈ ms, k ≤ y.vaddrBase) := by
  rcases predecessor_spec h.tree k with ⟨hp, hnone⟩ | ⟨k1, x, hp, hx, hlt, hmax⟩
  · refine ⟨none, hp, by simp, fun _ y hy => ?_⟩
    exact hnone _ y (h.toMap_iff.mpr ⟨hy, rfl⟩)
  · obtain ⟨hmem, rfl⟩ := h.toMap_iff.mp hx
    refine ⟨some x, hp, fun z hz => ?_, by simp⟩
    obtain rfl := some.inj hz
    exact ⟨hmem, hlt, fun y hy => hmax _ y (h.toMap_iff.mpr ⟨hy, rfl⟩)⟩

/-- `Successor` on the mapping tree: the mapping with the least base above `k`, if any. -/
theorem successor (h : Holds m ms) (k : UInt64) : ∃ p, m.mappingTree.successor k = some p ∧
      (∀ x, p = some x → x ∈ ms ∧ k < x.vaddrBase ∧ ∀ y ∈ ms, k < y.vaddrBase → x.vaddrBase ≤ y.vaddrBase) ∧
      (p = none → ∀ y ∈ ms, y.vaddrBase ≤ k) := by
  rcases successor_spec h.tree k with ⟨hp, hnone⟩ | ⟨k1, x, hp, hx, hlt, hmin⟩
  · refine ⟨none, hp, by simp, fun _ y hy => ?_⟩
    exact hnone _ y (h.toMap_iff.mpr ⟨hy, rfl⟩)
  · obtain ⟨hmem, rfl⟩ := h.toMap_iff.mp hx
    refine ⟨some x, hp, fun z hz => ?_, by simp⟩
    obtain rfl := some.inj hz
    exact ⟨hmem, hlt, fun y hy => hmin _ y (h.toMap_iff.mpr ⟨hy, rfl⟩)⟩

theorem insert (h : Holds m ms) (hfresh : ∀ y ∈ ms, y.vaddrBase ≠ x.vaddrBase)
    (hlimit : x.vaddrLimit = x.vaddrBase + x.memObject.size) :
    ∃ tree ms', m.mappingTree.insert x.vaddrBase x = some tree ∧ Holds ⟨tree⟩ ms' ∧ ms' ~ (x :: ms) := by
  obtain ⟨tree, htree, hrep⟩ := insert_eq h.tree x.vaddrBase x
  have hmiss : toMap m.mappingTree.shape x.vaddrBase = none := by
    rw [eq_none_iff_forall_ne_some]
    intro y hy
    obtain ⟨hy, hbase⟩ := h.toMap_iff.mp hy
    exact hfresh y hy hbase
  obtain ⟨pre, post, hsplit, hins⟩ := toList_insertShape h.tree hmiss x m.mappingTree.nodes.length
  have hentries := h.entries
  rw [hsplit, map_append] at hentries
  obtain ⟨ms1, ms2, rfl, hpre, hpost⟩ := map_eq_append_iff.mp hentries.symm
  refine ⟨tree, ms1 ++ x :: ms2, htree, holds_of_represents hrep ?_ ?_, perm_middle⟩
  · rw [hins, map_append, map_cons, map_append, map_cons, hpre, hpost]
    rfl
  · intro y hy
    rcases mem_append.mp hy with hy | hy
    · exact h.limit y (mem_append_left _ hy)
    · rcases mem_cons.mp hy with rfl | hy
      exacts [hlimit, h.limit y (mem_append_right _ hy)]

end Holds

/-- The greatest mapping that starts below `k` does not reach beyond it. -/
def EndsBy (ms : List MemoryMapping) (k : UInt64) : Prop :=
  ∀ x ∈ ms, x.vaddrBase < k → (∀ y ∈ ms, y.vaddrBase < k → y.vaddrBase ≤ x.vaddrBase) →
    x.vaddrLimit ≤ k

variable {m : MemoryMappingTree} {k lo hi : UInt64}

theorem Holds.endsBy_iff (h : Holds m ms) {p : Option MemoryMapping} (hp : m.mappingTree.predecessor k = some p) :
    EndsBy ms k ↔ ¬ p.any (fun p => p.vaddrLimit > k) = true := by
  obtain ⟨p', hp', hsome, hnone⟩ := h.predecessor k
  obtain rfl : p' = p := some.inj (hp'.symm.trans hp)
  cases p' with
  | none => exact iff_of_true (fun x hx hlt => absurd hlt (hnone rfl x hx).not_gt) nofun
  | some y =>
    obtain ⟨hmem, hylt, hymax⟩ := hsome y rfl
    refine ⟨fun hends => by simpa using hends y hmem hylt hymax, fun hcheck x hx hlt hmax => ?_⟩
    obtain rfl := h.eq_of_base hx hmem (le_antisymm (hymax x hx hlt) (hmax y hmem hylt))
    simpa using hcheck

/-- The least mapping that starts above `k` starts at `l` or later. -/
def StartsFrom (ms : List MemoryMapping) (k l : UInt64) : Prop :=
  ∀ x ∈ ms, k < x.vaddrBase → (∀ y ∈ ms, k < y.vaddrBase → x.vaddrBase ≤ y.vaddrBase) →
    l ≤ x.vaddrBase

theorem Holds.startsFrom (h : Holds m ms) {l : UInt64} {q : Option MemoryMapping}
    (hq : m.mappingTree.successor k = some q) (hcheck : ¬ q.any (fun q => q.vaddrBase < l) = true) :
    StartsFrom ms k l := by
  obtain ⟨q', hq', hsome, hnone⟩ := h.successor k
  obtain rfl : q' = q := some.inj (hq'.symm.trans hq)
  intro x hx hlt hmin
  cases q' with
  | none => exact absurd hlt (hnone rfl x hx).not_gt
  | some y =>
    obtain ⟨hmem, hylt, hymin⟩ := hsome y rfl
    obtain rfl := h.eq_of_base hx hmem (le_antisymm (hmin y hmem hylt) (hymin x hx hlt))
    simpa using hcheck

/-- **`AddInMemoryObject` either refuses or inserts**: it inserts when no mapping has the base, the
greatest mapping below ends in time, and the least mapping above starts after the new limit. -/
theorem addInMemoryObject_spec (h : Holds m ms) (vaddr : UInt64) (object : MemoryObject) :
    m.addInMemoryObject vaddr object = some (.alreadyExists, m) ∨
      ∃ m' ms', m.addInMemoryObject vaddr object = some (.ok, m') ∧ Holds m' ms' ∧
        ms' ~ (⟨vaddr, vaddr + object.size, object⟩ :: ms) ∧
        (∀ y ∈ ms, y.vaddrBase ≠ vaddr) ∧ EndsBy ms vaddr ∧
        StartsFrom ms vaddr (vaddr + object.size) := by
  obtain ⟨p, hp, -⟩ := h.predecessor vaddr
  obtain ⟨q, hq, -⟩ := h.successor vaddr
  have hfound : m.mappingTree.find vaddr = some (toMap m.mappingTree.shape vaddr) :=
    find_eq h.tree vaddr
  unfold addInMemoryObject
  simp only [hp, hq, hfound, bind_eq_bind, bind_some]
  by_cases hbelow : p.any (fun p => p.vaddrLimit > vaddr) = true
  · exact Or.inl (if_pos hbelow)
  rw [if_neg hbelow]
  cases hmap : toMap m.mappingTree.shape vaddr with
  | some x => exact Or.inl rfl
  | none =>
    have hfresh := h.find_eq_none_iff.mp (hmap ▸ hfound)
    by_cases habove : q.any (fun q => q.vaddrBase < vaddr + object.size) = true
    · refine Or.inl ?_
      simp [habove]
    · obtain ⟨tree, ms', hins, hholds, hperm⟩ :=
        h.insert (x := ⟨vaddr, vaddr + object.size, object⟩) hfresh rfl
      refine Or.inr ⟨⟨tree⟩, ms', ?_, hholds, hperm, hfresh, (h.endsBy_iff hp).mpr hbelow, h.startsFrom hq habove⟩
      simp [habove, hins]

/-! ## `FreeMemoryRange` -/

/-- The mapping starts in the range `[base, limit)`. -/
def startsIn (vaddrBase vaddrLimit : UInt64) (x : MemoryMapping) : Bool :=
  vaddrBase ≤ x.vaddrBase && x.vaddrBase < vaddrLimit

variable {x : MemoryMapping}

/-- **Deleting a mapping that the tree can splice out** removes it alone, and destroys it. -/
theorem deleteMapping_spec (h : Holds ⟨tree⟩ ms) (hx : x ∈ ms)
    (hone : tree.hasTwoChildren x.vaddrBase = false) (hs : rangeSplices lo hi tree.shape = true) :
    ∃ tree', deleteMapping tree x.vaddrBase = some (tree', [x]) ∧
      Holds ⟨tree'⟩ (ms.filter fun y => y.vaddrBase ≠ x.vaddrBase) ∧
      rangeSplices lo hi tree'.shape = true := by
  obtain ⟨tree', hdel, hrep⟩ := delete_eq h.tree x.vaddrBase
  have hfind : tree.find x.vaddrBase = some (some x) := h.find_eq_some_iff.mpr ⟨hx, rfl⟩
  refine ⟨tree', ?_, holds_of_represents hrep ?_ ?_, ?_⟩
  · unfold deleteMapping
    simp [hfind, show tree.delete x.vaddrBase = some tree' from hdel, hone]
  · rw [toList_deleteShape h.tree hone]
    -- the same filter on both sides of `entries`
    have hfilter := congrArg (List.filter fun p => decide (p.1 ≠ x.vaddrBase)) h.entries
    rw [List.filter_map, List.filter_map] at hfilter
    exact hfilter
  · intro y hy
    exact h.limit y (mem_of_mem_filter hy)
  · rw [hrep.shape_eq]
    exact rangeSplices_deleteShape h.tree hs hone

/-- The loop removes the mappings strictly above `vaddr_base` and below `vaddr_limit`. -/
theorem freeLoop_spec {pre post : List MemoryMapping} {fuel : Nat} (h : Holds ⟨tree⟩ (pre ++ post))
    (hpre : ∀ x ∈ pre, x.vaddrBase < lo) (hpost : ∀ x ∈ post, lo < x.vaddrBase)
    (hs : rangeSplices lo hi tree.shape = true) (hfuel : post.length < fuel) :
    ∃ tree', freeLoop lo hi fuel tree = some (tree', post.takeWhile fun x => x.vaddrBase < hi) ∧
      Holds ⟨tree'⟩ (pre ++ post.dropWhile fun x => x.vaddrBase < hi) := by
  -- the least mapping above `lo` heads `post`, and each round removes it
  induction post generalizing tree fuel with
  | nil =>
    obtain ⟨fuel, rfl⟩ : ∃ n, fuel = n + 1 := ⟨fuel - 1, by simp at hfuel; omega⟩
    obtain ⟨q, hq, hqsome, -⟩ := h.successor lo
    refine ⟨tree, ?_, by simpa using h⟩
    cases q with
    | none => simp [freeLoop, show tree.successor lo = _ from hq]
    | some x =>
      obtain ⟨hx, hlt, -⟩ := hqsome x rfl
      rw [append_nil] at hx
      exact absurd hlt (hpre x hx).not_gt
  | cons b post ih =>
    obtain ⟨fuel, rfl⟩ : ∃ n, fuel = n + 1 := ⟨fuel - 1, by simp at hfuel; omega⟩
    have hb : b ∈ pre ++ b :: post := by simp
    have hlo := hpost b (by simp)
    have hsorted := (pairwise_append.mp h.sorted).2.1
    have hleast : ∀ y ∈ pre ++ b :: post, lo < y.vaddrBase → b.vaddrBase ≤ y.vaddrBase := by
      intro y hy hlt
      rcases mem_append.mp hy with hy | hy
      · exact absurd hlt (hpre y hy).not_gt
      · rcases mem_cons.mp hy with rfl | hy
        exacts [le_rfl, ((pairwise_cons.mp hsorted).1 y hy).le]
    have hsucc : tree.successor lo = some (some b) := by
      obtain ⟨q, hq, hqsome, hqnone⟩ := h.successor lo
      rw [show tree.successor lo = _ from hq]
      cases q with
      | none => exact absurd hlo (hqnone rfl b hb).not_gt
      | some x =>
        obtain ⟨hx, hlt, hmin⟩ := hqsome x rfl
        rw [h.eq_of_base hx hb (le_antisymm (hmin b hb hlo) (hleast x hx hlt))]
    by_cases hhi : b.vaddrBase < hi
    · have hone : tree.hasTwoChildren b.vaddrBase = false := by
        refine hasTwoChildren_of_rangeSplices h.tree hs hlo.le hhi fun a ha hle => ?_
        obtain ⟨hkey, hmem⟩ := h.key_eq ha
        rw [← hkey] at hle ⊢
        refine hleast _ hmem (lt_of_le_of_ne hle fun heq => ?_)
        rcases mem_append.mp hmem with hin | hin
        exacts [(hpre _ hin).ne heq.symm, (hpost _ hin).ne heq]
      obtain ⟨tree1, hdel, hholds, hs1⟩ := deleteMapping_spec h hb hone hs
      have hrest : (pre ++ b :: post).filter (fun y => y.vaddrBase ≠ b.vaddrBase) = pre ++ post := by
        rw [filter_append, filter_cons_of_neg (by simp), filter_eq_self.mpr, filter_eq_self.mpr]
        · intro y hy
          simpa using ((pairwise_cons.mp hsorted).1 y hy).ne'
        · intro y hy
          simpa using ((hpre y hy).trans hlo).ne
      rw [hrest] at hholds
      obtain ⟨tree', hloop, hholds'⟩ := ih hholds (fun x hx => hpost x (by simp [hx])) hs1 (by simp at hfuel; omega)
      refine ⟨tree', ?_, ?_⟩
      · simp [freeLoop, hsucc, hhi.not_ge, hdel, hloop, hhi]
      · simpa [dropWhile_cons, hhi] using hholds'
    · refine ⟨tree, ?_, ?_⟩
      · simp [freeLoop, hsucc, not_lt.mp hhi, hhi]
      · simpa [dropWhile_cons, hhi] using h

theorem Holds.filter_eq_append (h : Holds m ms) {p a b : MemoryMapping → Bool} (q : MemoryMapping → Bool)
    (hdown : ∀ x y, x.vaddrBase < y.vaddrBase → q y = true → q x = true) (ha : ∀ x, (q x && p x) = a x)
    (hb : ∀ x, (!q x && p x) = b x) : ms.filter p = ms.filter a ++ ms.filter b := by
  have hsplit := SortedList.filter_append_filter_not (h.sorted.filter p) hdown
  rw [List.filter_filter, List.filter_filter] at hsplit
  rw [← hsplit, filter_congr fun x _ => ha x, filter_congr fun x _ => hb x]

theorem Holds.filter_ne (h : Holds m ms) (k : UInt64) : ms.filter (fun x => x.vaddrBase ≠ k) =
      ms.filter (fun x => x.vaddrBase < k) ++ ms.filter (fun x => k < x.vaddrBase) :=
  h.filter_eq_append (fun x => x.vaddrBase < k) (by grind) (by grind) (by grind)

theorem Holds.filter_base (h : Holds m ms) (hx : x ∈ ms) : ms.filter (fun y => y.vaddrBase = x.vaddrBase) = [x] := by
  have hsorted := h.sorted
  obtain ⟨pre, post, rfl⟩ := append_of_mem hx
  obtain ⟨-, hpost, hpre⟩ := pairwise_append.mp hsorted
  rw [filter_append, filter_cons_of_pos (by simp), filter_eq_nil_iff.mpr, filter_eq_nil_iff.mpr, nil_append]
  · intro y hy
    simpa using ((pairwise_cons.mp hpost).1 y hy).ne'
  · intro y hy
    simpa using (hpre y hy x (by simp)).ne

theorem Holds.filter_startsIn (h : Holds m ms) (hlt : lo < hi) : ms.filter (startsIn lo hi) =
      ms.filter (fun x => x.vaddrBase = lo) ++
        (ms.filter fun x => lo < x.vaddrBase).filter fun x => x.vaddrBase < hi := by
  rw [List.filter_filter]
  exact h.filter_eq_append (fun x => x.vaddrBase ≤ lo) (by grind) (by grind [startsIn]) (by grind [startsIn])

theorem Holds.filter_not_startsIn (h : Holds m ms) (hlt : lo < hi) : ms.filter (fun x => !startsIn lo hi x) =
      ms.filter (fun x => x.vaddrBase < lo) ++
        (ms.filter fun x => lo < x.vaddrBase).filter fun x => !decide (x.vaddrBase < hi) := by
  rw [List.filter_filter]
  exact h.filter_eq_append (fun x => x.vaddrBase < lo) (by grind) (by grind [startsIn]) (by grind [startsIn])

/-- The first deletion of `FreeMemoryRange`, of a mapping at `vaddr_base`. -/
theorem freeFirst_spec (h : Holds m ms) (hlt : lo < hi) (hs : rangeSplices lo hi m.mappingTree.shape = true) :
    ∃ tree, freeFirst m.mappingTree lo = some (tree, ms.filter fun x => x.vaddrBase = lo) ∧
      Holds ⟨tree⟩ (ms.filter fun x => x.vaddrBase ≠ lo) ∧
      rangeSplices lo hi tree.shape = true := by
  have hfound : m.mappingTree.find lo = some (toMap m.mappingTree.shape lo) := find_eq h.tree lo
  cases hmap : toMap m.mappingTree.shape lo with
  | none =>
    rw [hmap] at hfound
    have hfresh := h.find_eq_none_iff.mp hfound
    refine ⟨m.mappingTree, ?_, ?_, hs⟩
    · rw [filter_eq_nil_iff.mpr fun x hx => by simpa using hfresh x hx]
      simp [freeFirst, hfound]
    · rw [filter_eq_self.mpr fun x hx => by simpa using hfresh x hx]
      exact h
  | some x =>
    rw [hmap] at hfound
    obtain ⟨hx, rfl⟩ := h.toMap_iff.mp hmap
    -- nothing of the range lies below its own base
    have hone := hasTwoChildren_of_rangeSplices h.tree hs le_rfl hlt fun _ _ hle => hle
    obtain ⟨tree, hdel, hholds, hs'⟩ := deleteMapping_spec h hx hone hs
    refine ⟨tree, ?_, hholds, hs'⟩
    rw [h.filter_base hx]
    simp [freeFirst, hfound, hdel]

/-- **`FreeMemoryRange` either refuses or removes the mappings that start in the range**, if the
tree can splice each of them out. -/
theorem freeMemoryRange_spec (h : Holds m ms) (hs : rangeSplices lo hi m.mappingTree.shape = true) :
    (∃ code, code ≠ ErrorCode.ok ∧ m.freeMemoryRange lo hi = some (code, m, [])) ∨
      ∃ m', m.freeMemoryRange lo hi = some (.ok, m', ms.filter (startsIn lo hi)) ∧
        Holds m' (ms.filter fun x => !startsIn lo hi x) ∧ lo < hi ∧ EndsBy ms lo ∧ EndsBy ms hi := by
  obtain ⟨p, hp, -⟩ := h.predecessor lo
  obtain ⟨q, hq, -⟩ := h.predecessor hi
  unfold freeMemoryRange
  by_cases hlt : lo < hi
  · obtain ⟨tree, hfirst, hholds, hs'⟩ := freeFirst_spec h hlt hs
    rw [h.filter_ne] at hholds
    have hfuel : (ms.filter fun x => lo < x.vaddrBase).length < tree.nodes.length + 1 := by
      have hlen : _ ≤ tree.nodes.length := hholds.length_le
      rw [length_append] at hlen
      omega
    obtain ⟨tree', hloop, hholds'⟩ := freeLoop_spec hholds (fun x hx => by simpa using (mem_filter.mp hx).2)
      (fun x hx => by simpa using (mem_filter.mp hx).2) hs' hfuel
    have hpost : (ms.filter fun x => lo < x.vaddrBase).Pairwise fun x y => x.vaddrBase < y.vaddrBase :=
      h.sorted.filter _
    have hdown : ∀ x y : MemoryMapping, x.vaddrBase < y.vaddrBase →
        decide (y.vaddrBase < hi) = true → decide (x.vaddrBase < hi) = true :=
      fun x y hxy hy => by simpa using hxy.trans (by simpa using hy)
    rw [SortedList.takeWhile_eq_filter hpost hdown] at hloop
    rw [SortedList.dropWhile_eq_filter hpost hdown, ← h.filter_not_startsIn hlt] at hholds'
    simp only [if_neg hlt.not_ge, hp, hq, hfirst, hloop, bind_eq_bind, bind_some]
    by_cases hlow : p.any (fun p => p.vaddrLimit > lo) = true
    · exact Or.inl ⟨.failedPrecondition, by decide, if_pos hlow⟩
    by_cases hhigh : q.any (fun p => p.vaddrLimit > hi) = true
    · exact Or.inl ⟨.failedPrecondition, by decide, by rw [if_neg hlow, if_pos hhigh]; rfl⟩
    refine Or.inr ⟨⟨tree'⟩, ?_, hholds', hlt, (h.endsBy_iff hp).mpr hlow, (h.endsBy_iff hq).mpr hhigh⟩
    rw [if_neg hlow, if_neg hhigh, h.filter_startsIn hlt]
    rfl
  · exact Or.inl ⟨.invalidArgument, by decide, if_pos (not_lt.mp hlt)⟩

/-! ## Freeing any range

`Delete` may cut mappings off, so a range that the tree cannot splice out takes more mappings with it.
Still the call comes to its end, and no mapping that starts in the range is left. -/

theorem Holds.perm_cons (h : Holds m ms) (hx : x ∈ ms) : (x :: ms.filter fun y => y.vaddrBase ≠ x.vaddrBase) ~ ms := by
  have hsplit := filter_append_perm (fun y => decide (y.vaddrBase = x.vaddrBase)) ms
  rw [h.filter_base hx] at hsplit
  simpa using hsplit

/-- **Deleting a mapping** leaves some of the others, and destroys that mapping or none. -/
theorem deleteMapping_sublist (h : Holds ⟨tree⟩ ms) (hx : x ∈ ms) :
    ∃ tree' ms' destroyed, deleteMapping tree x.vaddrBase = some (tree', destroyed) ∧
      Holds ⟨tree'⟩ ms' ∧ ms' <+ (ms.filter fun y => y.vaddrBase ≠ x.vaddrBase) ∧
      List.Subperm (destroyed ++ ms') ms := by
  obtain ⟨tree', hdel, hrep⟩ := delete_eq h.tree x.vaddrBase
  have hfind : tree.find x.vaddrBase = some (some x) := h.find_eq_some_iff.mpr ⟨hx, rfl⟩
  have hslots := toList_deleteShape_sublist h.tree x.vaddrBase
  have hold : ∀ a ∈ toList (deleteShape x.vaddrBase tree.shape), a.value.vaddrBase = a.key ∧ a.value ∈ ms :=
    fun a ha => h.key_eq (mem_of_mem_filter (hslots.subset ha))
  have hsub : (toList (deleteShape x.vaddrBase tree.shape)).map Slot.value <+
      (ms.filter fun y => y.vaddrBase ≠ x.vaddrBase) := by
    have hvalues : (ms.filter fun y => y.vaddrBase ≠ x.vaddrBase) =
        ((toList tree.shape).filter fun a => a.key ≠ x.vaddrBase).map Slot.value := by
      rw [← h.values, List.filter_map]
      refine congrArg (List.map Slot.value) (filter_congr fun a ha => ?_)
      rw [Function.comp_apply, (h.key_eq ha).1]
    rw [hvalues]
    exact hslots.map Slot.value
  refine ⟨tree', (toList (deleteShape x.vaddrBase tree.shape)).map Slot.value,
    if tree.hasTwoChildren x.vaddrBase then [] else [x], ?_, holds_of_represents hrep ?_ ?_, hsub, ?_⟩
  · unfold deleteMapping
    simp [hfind, show tree.delete x.vaddrBase = some tree' from hdel]
  · rw [List.map_map]
    refine map_congr_left fun a ha => ?_
    rw [Function.comp_apply, entry, (hold a ha).1]
  · intro y hy
    obtain ⟨a, ha, rfl⟩ := mem_map.mp hy
    exact h.limit _ (hold a ha).2
  · have hone : (if tree.hasTwoChildren x.vaddrBase then [] else [x]) <+ [x] := by
      split
      · exact nil_sublist _
      · exact List.Sublist.refl _
    exact (hone.append hsub).subperm.trans (h.perm_cons hx).subperm

/-- **The loop comes to its end**, with no mapping left strictly between the two addresses. -/
theorem freeLoop_sublist {fuel : Nat} (h : Holds ⟨tree⟩ ms) (hfuel : ms.length < fuel) (lo hi : UInt64) :
    ∃ tree' ms' destroyed, freeLoop lo hi fuel tree = some (tree', destroyed) ∧
      Holds ⟨tree'⟩ ms' ∧ ms' <+ ms ∧ List.Subperm (destroyed ++ ms') ms ∧
      ∀ x ∈ ms', lo < x.vaddrBase → hi ≤ x.vaddrBase := by
  -- every round leaves at least one mapping less
  induction fuel generalizing tree ms with
  | zero => exact absurd hfuel (Nat.not_lt_zero _)
  | succ fuel ih =>
    obtain ⟨q, hq, hqsome, hqnone⟩ := h.successor lo
    have hsucc : tree.successor lo = some q := hq
    cases q with
    | none =>
      refine ⟨tree, ms, [], by simp [freeLoop, hsucc], h, List.Sublist.refl _, List.Subperm.refl _, fun x hx hlt => ?_⟩
      exact absurd hlt (hqnone rfl x hx).not_gt
    | some b =>
      obtain ⟨hb, hlo, hleast⟩ := hqsome b rfl
      by_cases hhi : b.vaddrBase < hi
      · obtain ⟨tree1, ms1, destroyed1, hdel, h1, hsub1, hperm1⟩ := deleteMapping_sublist h hb
        have hlen : ms1.length < ms.length := by
          have hle := hsub1.length_le
          have hall := (h.perm_cons hb).length_eq
          rw [length_cons] at hall
          omega
        obtain ⟨tree', ms', destroyed, hloop, h', hsub, hperm, hdone⟩ := ih h1 (by omega)
        refine ⟨tree', ms', destroyed1 ++ destroyed, ?_, h', hsub.trans (hsub1.trans filter_sublist), ?_, hdone⟩
        · simp [freeLoop, hsucc, hhi.not_ge, hdel, hloop]
        · rw [append_assoc]
          exact ((subperm_append_left _).mpr hperm).trans hperm1
      · refine ⟨tree, ms, [], by simp [freeLoop, hsucc, not_lt.mp hhi], h, List.Sublist.refl _,
          List.Subperm.refl _, fun x hx hlt => ?_⟩
        exact (not_lt.mp hhi).trans (hleast x hx hlt)

theorem freeFirst_sublist (h : Holds m ms) (lo : UInt64) :
    ∃ tree ms' destroyed, freeFirst m.mappingTree lo = some (tree, destroyed) ∧ Holds ⟨tree⟩ ms' ∧
      ms' <+ ms ∧ List.Subperm (destroyed ++ ms') ms ∧ ∀ x ∈ ms', x.vaddrBase ≠ lo := by
  have hfound : m.mappingTree.find lo = some (toMap m.mappingTree.shape lo) := find_eq h.tree lo
  cases hmap : toMap m.mappingTree.shape lo with
  | none =>
    rw [hmap] at hfound
    exact ⟨m.mappingTree, ms, [], by simp [freeFirst, hfound], h, List.Sublist.refl _,
      List.Subperm.refl _, h.find_eq_none_iff.mp hfound⟩
  | some x =>
    rw [hmap] at hfound
    obtain ⟨hx, rfl⟩ := h.toMap_iff.mp hmap
    obtain ⟨tree, ms', destroyed, hdel, h', hsub, hperm⟩ := deleteMapping_sublist h hx
    refine ⟨tree, ms', destroyed, by simp [freeFirst, hfound, hdel], h',
      hsub.trans filter_sublist, hperm, fun y hy => ?_⟩
    simpa using (mem_filter.mp (hsub.subset hy)).2

/-- **`FreeMemoryRange` comes to its end for every range**: it refuses, or no mapping that starts in the
range is left, and those that it destroys and those that are left were mappings of the tree. -/
theorem freeMemoryRange_sublist (h : Holds m ms) (lo hi : UInt64) :
    (∃ code, code ≠ ErrorCode.ok ∧ m.freeMemoryRange lo hi = some (code, m, []) ∧
        ¬ (lo < hi ∧ EndsBy ms lo ∧ EndsBy ms hi)) ∨
      ∃ m' ms' destroyed, m.freeMemoryRange lo hi = some (.ok, m', destroyed) ∧ Holds m' ms' ∧
        ms' <+ ms ∧ List.Subperm (destroyed ++ ms') ms ∧
        (∀ x ∈ ms', ¬ startsIn lo hi x = true) ∧ lo < hi ∧ EndsBy ms lo ∧ EndsBy ms hi := by
  obtain ⟨p, hp, -⟩ := h.predecessor lo
  obtain ⟨q, hq, -⟩ := h.predecessor hi
  unfold freeMemoryRange
  by_cases hlt : lo < hi
  · obtain ⟨tree, ms1, destroyed1, hfirst, h1, hsub1, hperm1, hne⟩ := freeFirst_sublist h lo
    have hfuel : ms1.length < tree.nodes.length + 1 := Nat.lt_succ_of_le h1.length_le
    obtain ⟨tree', ms', destroyed, hloop, h', hsub, hperm, hdone⟩ :=
      freeLoop_sublist h1 hfuel lo hi
    simp only [if_neg hlt.not_ge, hp, hq, hfirst, hloop, bind_eq_bind, bind_some]
    by_cases hlow : p.any (fun p => p.vaddrLimit > lo) = true
    · exact Or.inl ⟨.failedPrecondition, by decide, if_pos hlow, fun hall =>
        (h.endsBy_iff hp).mp hall.2.1 hlow⟩
    by_cases hhigh : q.any (fun p => p.vaddrLimit > hi) = true
    · exact Or.inl ⟨.failedPrecondition, by decide, by rw [if_neg hlow, if_pos hhigh]; rfl,
        fun hall => (h.endsBy_iff hq).mp hall.2.2 hhigh⟩
    refine Or.inr ⟨⟨tree'⟩, ms', destroyed1 ++ destroyed, ?_, h', hsub.trans hsub1, ?_, ?_, hlt,
      (h.endsBy_iff hp).mpr hlow, (h.endsBy_iff hq).mpr hhigh⟩
    · rw [if_neg hlow, if_neg hhigh]
      rfl
    · rw [append_assoc]
      exact ((subperm_append_left _).mpr hperm).trans hperm1
    · intro x hx hstarts
      rw [startsIn, Bool.and_eq_true, decide_eq_true_eq, decide_eq_true_eq] at hstarts
      have hlo : lo < x.vaddrBase := lt_of_le_of_ne hstarts.1 (hne x (hsub.subset hx)).symm
      exact absurd hstarts.2 (hdone x hx hlo).not_gt
  · exact Or.inl ⟨.invalidArgument, by decide, if_pos (not_lt.mp hlt), fun hall => hlt hall.1⟩

/-! ## Spacing -/

/-- The range of the mapping ends before the end of the address space. -/
def NoWrap (x : MemoryMapping) : Prop := x.vaddrBase.toNat + x.memObject.size.toNat < 2 ^ 64

/-- **A mapping that does not wrap ends before the next one starts.** -/
def Spaced (ms : List MemoryMapping) : Prop :=
  ∀ x ∈ ms, ∀ y ∈ ms, x.vaddrBase < y.vaddrBase → NoWrap x → x.vaddrLimit ≤ y.vaddrBase

theorem Spaced.subset {ms' : List MemoryMapping} (h : Spaced ms) (hsub : ms' ⊆ ms) : Spaced ms' :=
  fun x hx y hy => h x (hsub hx) y (hsub hy)

/-- **The checks against the two neighbours keep the mappings spaced**, whether or not the new range
wraps. -/
theorem Holds.spaced_cons (h : Holds m ms) (hs : Spaced ms) {vaddr : UInt64} {object : MemoryObject}
    (hends : EndsBy ms vaddr) (hstarts : StartsFrom ms vaddr (vaddr + object.size)) :
    Spaced (⟨vaddr, vaddr + object.size, object⟩ :: ms) := by
  intro x hx y hy hlt hwrap
  rcases mem_cons.mp hx with rfl | hx <;> rcases mem_cons.mp hy with rfl | hy
  · exact absurd hlt (lt_irrefl _)
  · -- the least mapping above starts after the new limit, and `y` not before it
    obtain ⟨q, -, hsome, hnone⟩ := h.successor vaddr
    cases q with
    | none => exact absurd hlt (hnone rfl y hy).not_gt
    | some z =>
      obtain ⟨hz, hlt', hmin⟩ := hsome z rfl
      exact (hstarts z hz hlt' hmin).trans (hmin y hy hlt)
  · -- `x` ends before the greatest mapping below, or is it
    obtain ⟨p, -, hsome, hnone⟩ := h.predecessor vaddr
    cases p with
    | none => exact absurd hlt (hnone rfl x hx).not_gt
    | some z =>
      obtain ⟨hz, hlt', hmax⟩ := hsome z rfl
      rcases (hmax x hx hlt).lt_or_eq with hxz | hxz
      · exact (hs x hx z hz hxz hwrap).trans hlt'.le
      · rw [h.eq_of_base hx hz hxz]
        exact hends z hz hlt' hmax
  · exact hs x hx y hy hlt hwrap

end Acadia.Zion.MemoryMappingTree
