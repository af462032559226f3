import Acadia.Zion.Lib.MemoryMappingSpec

/-! # Disjointness of the live mappings

The mappings that were accepted and not yet freed stay pairwise disjoint in every run that never adds a range up
to or beyond `2 ^ 64` and never frees a range whose mappings the tree cannot splice out (`live_disjoint`). Each of
the two exceptions leads to an overlap (`wrapped_or_cut_off_mappings_overlap`): a wrapped limit passes for a small
one, and a mapping that `Delete` cuts off is not seen by later checks. -/

namespace Acadia.Zion.MemoryMappingTree

open Glacier Glacier.BinaryTree Runs List

open scoped Word

/-- The address is `vaddr_base + i` for some `i` below the size of the object, modulo `2 ^ 64`. -/
def covers (x : MemoryMapping) (addr : UInt64) : Prop := addr - x.vaddrBase < x.memObject.size

instance (x : MemoryMapping) (addr : UInt64) : Decidable (covers x addr) :=
  inferInstanceAs (Decidable (_ < _))

/-- A mapping tree together with the mappings that were accepted and not yet freed. -/
structure Tracked where
  tree : MemoryMappingTree := {}
  /-- The live mappings, the latest first. -/
  live : List MemoryMapping := []
  deriving DecidableEq

/-- The calls that change a mapping tree. -/
inductive Call where
  | add (vaddr : UInt64) (object : MemoryObject)
  | free (vaddrBase vaddrLimit : UInt64)
  deriving DecidableEq

/-- One call. An accepted range becomes live; a successful free ends the life of the mappings that
start in its range. -/
def step (s : Tracked) : Call → Option Tracked
  | .add vaddr object => do
    let (code, tree) ← s.tree.addInMemoryObject vaddr object
    if code = .ok then return ⟨tree, ⟨vaddr, vaddr + object.size, object⟩ :: s.live⟩
    else return ⟨tree, s.live⟩
  | .free base limit => do
    let (code, tree, _) ← s.tree.freeMemoryRange base limit
    if code = .ok then return ⟨tree, s.live.filter fun x => !startsIn base limit x⟩
    else return ⟨tree, s.live⟩

/-- **No address belongs to two live mappings.** -/
def LiveDisjoint (s : Tracked) : Prop :=
  s.live.Pairwise fun x y => ∀ addr, ¬ (covers x addr ∧ covers y addr)

/-- The call adds a range that ends below `2 ^ 64`, or frees a range that can be spliced out. -/
def Safe (s : Tracked) : Call → Prop
  | .add vaddr object => vaddr.toNat + object.size.toNat < 2 ^ 64
  | .free base limit => rangeSplices base limit s.tree.mappingTree.shape = true

instance (s : Tracked) (c : Call) : Decidable (Safe s c) := by
  cases c <;> unfold Safe <;> infer_instance

/-! ## The invariant -/

/-- The live mappings are those of the tree, spaced, and none of them wraps. -/
structure Inv (s : Tracked) (ms : List MemoryMapping) : Prop where
  holds : Holds s.tree ms
  live : List.Perm s.live ms
  /-- Each ends before the next starts. -/
  spaced : Spaced ms
  /-- None of them reaches the end of the address space. -/
  noWrap : ∀ x ∈ ms, NoWrap x

theorem not_covers_both {x y : MemoryMapping} (hx : NoWrap x) (hy : NoWrap y)
    (hlimit : x.vaddrLimit = x.vaddrBase + x.memObject.size) (hlt : x.vaddrBase < y.vaddrBase)
    (hxy : x.vaddrLimit ≤ y.vaddrBase) (addr : UInt64) : ¬ (covers x addr ∧ covers y addr) := by
  rintro ⟨hcx, hcy⟩
  have hb := addr.toNat_lt
  rw [hlimit, UInt64.le_iff_toNat_le, Word.toNat_add_of_lt hx] at hxy
  rw [covers, UInt64.lt_iff_toNat_lt, UInt64.toNat_sub] at hcx hcy
  rw [UInt64.lt_iff_toNat_lt] at hlt
  unfold NoWrap at hx hy
  -- both differences are taken modulo `2 ^ 64`; decide each by whether it wraps
  omega

theorem Inv.liveDisjoint {s : Tracked} {ms : List MemoryMapping} (h : Inv s ms) : LiveDisjoint s := by
  have hms : ms.Pairwise fun x y => ∀ addr, ¬ (covers x addr ∧ covers y addr) := by
    refine List.Pairwise.imp_of_mem ?_ h.holds.sorted
    intro x y hx hy hlt
    exact not_covers_both (h.noWrap x hx) (h.noWrap y hy) (h.holds.limit x hx) hlt
      (h.spaced x hx y hy hlt (h.noWrap x hx))
  refine h.live.symm.pairwise hms fun {x y} hxy addr hboth => hxy addr ⟨hboth.2, hboth.1⟩

/-- **One safe call has a result and keeps the invariant.** -/
theorem step_inv {s : Tracked} {ms : List MemoryMapping} (h : Inv s ms) {c : Call}
    (hc : Safe s c) : ∃ s', step s c = some s' ∧ ∃ ms', Inv s' ms' := by
  cases c with
  | add vaddr object =>
    rcases addInMemoryObject_spec h.holds vaddr object with hadd | ⟨m', ms', hadd, hholds, hperm, -, hends, hstarts⟩
    · exact ⟨s, by simp [step, hadd], ms, h⟩
    · refine ⟨_, by simp only [step, hadd]; rfl, ms', hholds, ?_, ?_, ?_⟩
      · exact (h.live.cons _).trans hperm.symm
      · exact (h.holds.spaced_cons h.spaced hends hstarts).subset hperm.subset
      · intro x hx
        rcases mem_cons.mp (hperm.subset hx) with rfl | hx
        exacts [hc, h.noWrap x hx]
  | free base limit =>
    rcases freeMemoryRange_spec h.holds hc with ⟨code, hcode, hfree⟩ | ⟨m', hfree, hholds, -⟩
    · exact ⟨s, by simp [step, hfree, hcode], ms, h⟩
    · refine ⟨_, by simp only [step, hfree]; rfl, _, hholds, h.live.filter _, ?_, ?_⟩
      · exact h.spaced.subset (filter_subset_self ms)
      · intro x hx
        exact h.noWrap x (mem_of_mem_filter hx)

/-- **The live mappings are disjoint** in every run whose additions stay below `2 ^ 64` and whose
frees can be spliced out; such a run always has a result. -/
theorem live_disjoint (calls : List Call) (h : Meets step Safe {} calls) :
    ∃ s, run step {} calls = some s ∧ LiveDisjoint s := by
  have hstep : ∀ (s : Tracked) (c : Call), (∃ ms, Inv s ms) → Safe s c → ∃ s', step s c = some s' ∧ ∃ ms, Inv s' ms :=
    fun s c ⟨ms, hinv⟩ hc => step_inv hinv hc
  have hinit : ∃ ms, Inv ({} : Tracked) ms :=
    ⟨[], holds_empty, List.Perm.refl _, fun x hx => by simp at hx, by simp⟩
  obtain ⟨s, hrun, ms, hinv⟩ := run_total hstep hinit h
  exact ⟨s, hrun, hinv.liveDisjoint⟩

/-- Two neighbouring mappings, one of which is freed and mapped again. -/
theorem live_disjoint_two_mappings :
    ∃ s, run step {} [.add 0x2000 ⟨0, .variable, 0x1000⟩, .add 0x3000 ⟨1, .view 0, 0x800⟩,
      .free 0x2000 0x3000, .add 0x2000 ⟨0, .variable, 0x1000⟩] = some s ∧ LiveDisjoint s :=
  live_disjoint _ (by decide)

/-- **Two ways to an overlap.** A range that ends at `2 ^ 64` has the limit `0`, so a range inside
it is accepted; and freeing a mapping with two children in the tree cuts off the mapping at
`0x2000`, so a range inside that one is accepted. -/
theorem wrapped_or_cut_off_mappings_overlap : (∃ s, run step {} [.add 0xFFFFFFFFFFFFF000 ⟨0, .view 0, 0x1000⟩,
        .add 0xFFFFFFFFFFFFF800 ⟨1, .view 0, 0x8⟩] = some s ∧ ¬ LiveDisjoint s) ∧
      ∃ s, run step {} [.add 0x5000 ⟨0, .variable, 0x1000⟩, .add 0x2000 ⟨1, .variable, 0x2000⟩,
        .add 0x8000 ⟨2, .variable, 0x1000⟩, .free 0x5000 0x6000,
        .add 0x3000 ⟨3, .variable, 0x1000⟩] = some s ∧ ¬ LiveDisjoint s := by
  refine ⟨⟨_, rfl, fun h => ?_⟩, _, rfl, fun h => ?_⟩
  · have hpair := (pairwise_cons.mp h).1 _ (mem_singleton_self _)
    exact hpair 0xFFFFFFFFFFFFF800 (by decide)
  · have hpair := (pairwise_cons.mp h).1 ⟨0x2000, 0x4000, 1, .variable, 0x2000⟩ (by decide)
    exact hpair 0x3000 (by decide)

end Acadia.Zion.MemoryMappingTree
