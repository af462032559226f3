import Acadia.Zion.Lib.MemoryMappingRuns
import Acadia.Zion.Object.AddressSpaceSpec

/-! # The offsets that page faults ask for

`GetPhysicalPageAtVaddr` over any tree that `AddInMemoryObject` and `FreeMemoryRange` can make, with
mappings that wrap around and trees that have lost some. -/

namespace Acadia.Zion

open Glacier MemoryMappingTree Runs Option MemoryMappingTree

open scoped Word

/-- **Every run leaves a tree that holds some mappings**, whatever is mapped and freed. -/
theorem run_holds {calls : List MemoryMappingTree.Call} {t : Tracked}
    (hrun : run step {} calls = some t) : ∃ ms, Holds t.tree ms := by
  refine run_invariant' (P := fun t : Tracked => ∃ ms, Holds t.tree ms) ?_ ⟨[], holds_empty⟩ hrun
  rintro t c t' ⟨ms, h⟩ hstep
  cases c with
  | add vaddr object =>
    rcases addInMemoryObject_spec h vaddr object with hadd | ⟨m', ms', hadd, hholds, -⟩
    · simp only [step, hadd] at hstep
      cases hstep
      exact ⟨ms, h⟩
    · simp only [step, hadd] at hstep
      cases hstep
      exact ⟨ms', hholds⟩
  | free base limit =>
    rcases freeMemoryRange_sublist h base limit with ⟨code, hcode, hfree, -⟩ | ⟨m', ms', destroyed, hfree, hholds, -⟩
    · simp only [step, hfree, bind_eq_bind, bind_some, hcode] at hstep
      cases hstep
      exact ⟨ms, h⟩
    · simp only [step, hfree] at hstep
      cases hstep
      exact ⟨ms', hholds⟩

/-- The page list of a `VariableMemoryObject` is as its constructor made it. -/
def ObjectState.WellSized (o : ObjectState) : Prop :=
  o.object.kind = .variable → (∃ size, o.object.size = MemoryObject.variableSize size) ∧
    o.physPageList.length = (o.object.size / 0x1000).toNat

namespace System

variable {s s' : System} {i : Nat} {vaddr : UInt64}

/-- **The objects that `MemoryObjectCreate` makes** are of this kind. -/
theorem wellSized_createMemoryObject (hsized : ∀ o ∈ s.objects, o.WellSized) (size : UInt64) :
    ∀ o ∈ (s.createMemoryObject .variable (MemoryObject.variableSize size)
      (List.replicate (MemoryObject.variableSize size / 0x1000).toNat 0)).2.objects, o.WellSized := by
  intro o ho
  rcases List.mem_append.mp ho with ho | ho
  · exact hsized o ho
  · rw [List.mem_singleton.mp ho]
    exact fun _ => ⟨⟨size, rfl⟩, List.length_replicate⟩

/-- **The object of a user stack** is of this kind as well. -/
theorem wellSized_allocateUserStack {base : UInt64} (h : s.allocateUserStack i = some (.ok base, s')) :
    ∃ o, s'.objects[s.objects.length]? = some o ∧ o.WellSized := by
  unfold allocateUserStack mapInMemoryObject at h
  simp only [bind_eq_bind, bind_eq_some_iff, Prod.exists] at h
  obtain ⟨space, -, _, _, -, code, mapped, ⟨_, tree, -, hmap⟩, h⟩ := h
  split_ifs at hmap with hadd
  all_goals cases hmap
  · simp only [hadd, if_true] at h
    cases h
    refine ⟨stackObject s.objects.length, ?_, fun _ => ⟨⟨kUserStackSize, rfl⟩, List.length_replicate⟩⟩
    simp [release, acquire, stackObject]
  · rw [if_neg hadd] at h
    cases h

/-- **A fault keeps every object of this kind.** -/
theorem wellSized_handlePageFault {resolved : Bool} (h : s.handlePageFault i vaddr = some (resolved, s'))
    (hsized : ∀ o ∈ s.objects, o.WellSized) : ∀ o ∈ s'.objects, o.WellSized := by
  obtain ⟨space, -, rfl | ⟨x, page, s1, machine, -, -, ht, -, rfl⟩⟩ := handlePageFault_cases h
  · exact hsized
  · intro o ho
    obtain ⟨k, hk⟩ := List.mem_iff_getElem?.mp ho
    have hrefs := congrArg (·[k]?) ht.refs
    have hlengths := congrArg (·[k]?) ht.lengths
    simp only [refs, List.getElem?_map, hk, map_some] at hrefs hlengths
    obtain ⟨old, hold, heq⟩ := map_eq_some_iff.mp hrefs.symm
    rw [hold, map_some, some.injEq] at hlengths
    obtain ⟨hobject, -⟩ := Prod.mk.inj heq
    rw [ObjectState.WellSized, hlengths, ← hobject]
    exact hsized old (List.mem_of_getElem? hold)

end System

theorem dvd_variableSize (size : UInt64) : 4096 ∣ (MemoryObject.variableSize size).toNat := by
  have hlow : (size &&& 0xFFF).toNat = size.toNat % 4096 := by
    rw [UInt64.toNat_and]
    exact Nat.and_two_pow_sub_one_eq_mod size.toNat 12
  have hpage : (size &&& ~~~0xFFF).toNat = size.toNat / 4096 * 4096 := toNat_pageAlign size
  unfold MemoryObject.variableSize
  split_ifs with h
  · rw [UInt64.toNat_add, hpage, show (0x1000 : UInt64).toNat = 4096 from rfl]
    omega
  · rw [ne_eq, not_not, ← UInt64.toNat_inj, hlow] at h
    exact Nat.dvd_of_mod_eq_zero h

/-- **A fault never asks for a page outside its object.** After any calls on the tree,
`GetPhysicalPageAtVaddr` computes an offset below the size of the object, and if it has no result then
there was no page left for a `VariableMemoryObject`. -/
theorem getPhysicalPageAtVaddr_inside {calls : List MemoryMappingTree.Call} {t : Tracked}
    (hrun : run step {} calls = some t) {s : System} {space : AddressSpace}
    (htree : space.mappingTree = t.tree) (vaddr : UInt64)
    (hobjects : ∀ x, t.tree.getMemoryMappingForAddr vaddr = some (some x) →
      ∃ state, s.objects[x.memObject.id]? = some state ∧ state.object = x.memObject ∧ state.WellSized) :
    (∀ x, t.tree.getMemoryMappingForAddr vaddr = some (some x) → vaddr - x.vaddrBase < x.memObject.size) ∧
    (s.getPhysicalPageAtVaddr space vaddr = none → s.machine.allocator.allocatePage = none) := by
  obtain ⟨ms, hholds⟩ := run_holds hrun
  obtain ⟨r, hr, hresolves⟩ := getMemoryMappingForAddr_spec hholds vaddr
  have hoffset : ∀ x, r = some x → (vaddr - x.vaddrBase).toNat < x.memObject.size.toNat :=
    fun x hx => ((hresolves x).mp hx).offset_lt
  refine ⟨fun x hx => UInt64.lt_iff_toNat_lt.mpr (hoffset x (some.inj (hr.symm.trans hx))), fun hnone => ?_⟩
  simp only [System.getPhysicalPageAtVaddr, htree, hr, bind_eq_bind, bind_some] at hnone
  cases r with
  | none => cases hnone
  | some x =>
    obtain ⟨state, hstate, hobject, hsized⟩ := hobjects x hr
    have hlt := hoffset x rfl
    have hle : ¬vaddr - x.vaddrBase > x.memObject.size :=
      not_lt.mpr (UInt64.le_iff_toNat_le.mpr hlt.le)
    simp only [System.physicalPageAtOffset, if_neg hle] at hnone
    have hpage : s.pageNumberToPhysAddr x.memObject ((vaddr - x.vaddrBase) / 0x1000) = none := by
      cases hp : s.pageNumberToPhysAddr x.memObject ((vaddr - x.vaddrBase) / 0x1000) with
      | none => rfl
      | some =>
        rw [hp] at hnone
        cases hnone
    unfold System.pageNumberToPhysAddr at hpage
    cases hkind : x.memObject.kind with
    | fixed | view => simp [hkind] at hpage
    | «variable» =>
      obtain ⟨⟨size, hsize⟩, hlength⟩ := hsized (hobject ▸ hkind)
      have hdvd := dvd_variableSize size
      rw [← hsize, hobject] at hdvd
      have hindex : ((vaddr - x.vaddrBase) / 0x1000).toNat < state.physPageList.length := by
        rw [hlength, hobject, UInt64.toNat_div, UInt64.toNat_div,
          show (0x1000 : UInt64).toNat = 4096 from rfl]
        omega
      simp only [hkind, hstate, bind_eq_bind, bind_some, List.getElem?_eq_getElem hindex] at hpage
      split_ifs at hpage
      cases halloc : s.machine.allocator.allocatePage with
      | none => rfl
      | some =>
        rw [halloc] at hpage
        cases hpage

/-- A fault in a tree that has lost a mapping and has one that wraps: there is a page for it. -/
theorem getPhysicalPageAtVaddr_inside_third : ∃ t, run step {} [.add 0x5000 ⟨0, .view 0, 0x1000⟩,
        .add 0x2000 ⟨1, .view 0, 0x1000⟩, .add 0x8000 ⟨2, .variable, 0x2000⟩, .free 0x5000 0x6000,
        .add 0xFFFFFFFFFFFFF000 ⟨3, .view 0, 0x2000⟩] = some t ∧
      System.getPhysicalPageAtVaddr ⟨⟨{ memoryBlocks := [⟨0x100000, 1⟩] }, fun _ _ => 0⟩,
        [⟨⟨0, .view 0, 0x1000⟩, 1, []⟩, ⟨⟨1, .view 0, 0x1000⟩, 1, []⟩, ⟨⟨2, .variable, 0x2000⟩, 1, [0, 0]⟩], []⟩
        { cr3 := 0x1000, mappingTree := t.tree } 0x9FFF ≠ none := by
  have h : (run step {} [.add 0x5000 ⟨0, .view 0, 0x1000⟩,
      .add 0x2000 ⟨1, .view 0, 0x1000⟩, .add 0x8000 ⟨2, .variable, 0x2000⟩, .free 0x5000 0x6000,
      .add 0xFFFFFFFFFFFFF000 ⟨3, .view 0, 0x2000⟩]).map (fun t => t.tree.getMemoryMappingForAddr 0x9FFF) =
      some (some (some ⟨0x8000, 0xA000, ⟨2, .variable, 0x2000⟩⟩)) := by decide +kernel
  obtain ⟨t, hrun, hfound⟩ := map_eq_some_iff.mp h
  refine ⟨t, hrun, fun hnone => ?_⟩
  have halloc := (getPhysicalPageAtVaddr_inside hrun rfl 0x9FFF fun x hx => ?_).2 hnone
  · revert halloc
    decide
  · cases hfound.symm.trans hx
    exact ⟨_, rfl, rfl, fun _ => ⟨⟨0x2000, by decide⟩, by decide⟩⟩

end Acadia.Zion
