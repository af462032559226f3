import Acadia.Foundations.ListUpdate
import Acadia.Foundations.Runs

/-! # Owned memory regions

The objects of `OwnedMemoryRegion` in a process, with the mappings and the capabilities that it holds for
them. -/

namespace Acadia.Mammoth

open List Runs ListUpdate

/-- `OwnedMemoryRegion`. -/
structure OwnedMemoryRegion where
  vmmoCap : Nat := 0
  vaddr : Nat := 0
  size : Nat := 0
  deriving DecidableEq

/-- The addresses that are mapped. -/
def OwnedMemoryRegion.range (r : OwnedMemoryRegion) : Nat × Nat := (r.vaddr, r.vaddr + r.size)

/-- Ranges with no address in common. -/
abbrev Apart (x y : Nat × Nat) : Prop := x.2 ≤ y.1 ∨ y.2 ≤ x.1

/-- The objects, and what the process holds for them. -/
structure Regions where
  objects : List OwnedMemoryRegion := []
  mappings : List (Nat × Nat) := []
  caps : List Nat := []
  deriving DecidableEq

/-- What happens to the objects. -/
inductive Event where
  | construct
  /-- `FromCapability`, also of `Duplicate`, `ContiguousPhysical` or `DirectPhysical`, with what the
  kernel returns. -/
  | create (r : OwnedMemoryRegion)
  | moveConstruct (i : Nat)
  | moveAssign (i j : Nat)
  | destroy (i : Nat)
  deriving DecidableEq

namespace Regions

/-- `ZCapRelease`. -/
def capRelease (s : Regions) (cap : Nat) : Regions := { s with caps := s.caps.erase cap }

/-- `ZAddressSpaceUnmap`, of a range that cuts no mapping. -/
def addressSpaceUnmap (s : Regions) (lower upper : Nat) : Regions :=
  { s with mappings := s.mappings.filter fun m => Apart (lower, upper) m }

/-- **One step**; the kernel maps a range that was free, for a capability that no region owns yet. A destroyed
object is kept as an empty one. -/
def step (s : Regions) : Event → Option Regions
  | .construct => some { s with objects := s.objects ++ [{}] }
  | .create r =>
    if r.vmmoCap ≠ 0 ∧ r.vmmoCap ∉ s.caps ∧ 0 < r.size ∧ ∀ m ∈ s.mappings, Apart r.range m then
      some ⟨s.objects ++ [r], r.range :: s.mappings, r.vmmoCap :: s.caps⟩
    else none
  | .moveConstruct i => do
    let other ← s.objects[i]?
    return { s with objects := s.objects.set i {} ++ [other] }
  | .moveAssign i j => do
    let target ← s.objects[i]?
    let other ← s.objects[j]?
    let s := if target.vmmoCap ≠ 0 then s.capRelease target.vmmoCap else s
    return { s with objects := (s.objects.set i other).set j {} }
  | .destroy i => do
    let r ← s.objects[i]?
    let s := if r.vmmoCap ≠ 0 then
      (s.addressSpaceUnmap r.vaddr (r.vaddr + r.size)).capRelease r.vmmoCap else s
    return { s with objects := s.objects.set i {} }

/-- What an object owns. -/
def owned (r : OwnedMemoryRegion) : List OwnedMemoryRegion := if r.vmmoCap = 0 then [] else [r]

/-- **The process holds exactly what its regions own.** -/
structure Exact (s : Regions) : Prop where
  caps : s.caps ~ (s.objects.flatMap owned).map (·.vmmoCap)
  mappings : s.mappings ~ (s.objects.flatMap owned).map (·.range)

/-- An assignment is to an empty region. -/
def AssignsEmpty (s : Regions) : Event → Prop
  | .moveAssign i _ => ∀ r ∈ s.objects[i]?, r.vmmoCap = 0
  | _ => True

instance (s : Regions) (e : Event) : Decidable (s.AssignsEmpty e) := by
  cases e <;> unfold AssignsEmpty <;> infer_instance

/-- What every step keeps. -/
structure Inv (s : Regions) : Prop extends Exact s where
  apart : s.mappings.Pairwise Apart
  sizes : ∀ m ∈ s.mappings, m.1 < m.2

variable {s s' : Regions} {r : OwnedMemoryRegion} {i : Nat}

theorem Inv.of_perm (h : s.Inv) {objects : List OwnedMemoryRegion}
    (hp : objects.flatMap owned ~ s.objects.flatMap owned) : Inv { s with objects } :=
  ⟨⟨h.caps.trans (hp.map _).symm, h.mappings.trans (hp.map _).symm⟩, h.apart, h.sizes⟩

theorem Inv.destroy (h : s.Inv) (hr : s.objects[i]? = some r) (hcap : r.vmmoCap ≠ 0) :
    Inv ⟨s.objects.set i {}, s.mappings.filter fun m => Apart r.range m, s.caps.erase r.vmmoCap⟩ := by
  have hlive := flatMap_set_perm (f := owned) {} hr
  rw [owned, if_neg hcap] at hlive
  have hcaps := h.caps.trans (hlive.symm.map _)
  have hmappings := h.mappings.trans (hlive.symm.map _)
  have hapart := (hmappings.pairwise_iff fun h => Or.symm h).mp h.apart
  rw [singleton_append, map_cons] at hcaps hmappings hapart
  have hsize : r.range.1 < r.range.2 := h.sizes _ (hmappings.mem_iff.mpr mem_cons_self)
  have hself : ¬ Apart r.range r.range := by omega
  have hfilter := hmappings.filter fun m => Apart r.range m
  have herase := hcaps.erase r.vmmoCap
  rw [filter_cons_of_neg (by simpa using hself), filter_eq_self.mpr fun m hm =>
    decide_eq_true ((pairwise_cons.mp hapart).1 m hm)] at hfilter
  rw [erase_cons_head] at herase
  exact ⟨⟨herase, hfilter⟩, h.apart.filter _, fun m hm => h.sizes m (mem_of_mem_filter hm)⟩

/-- Moves pass on what an object owns, and the destructor gives it back. -/
theorem step_inv {e : Event} (h : s.Inv) (hok : s.AssignsEmpty e) (hstep : s.step e = some s') : s'.Inv := by
  cases e with
  | construct =>
    cases hstep
    exact h.of_perm (by simp [owned])
  | create r =>
    simp only [step, Option.ite_none_right_eq_some, Option.some.injEq] at hstep
    obtain ⟨⟨hcap, -, hsize, hfree⟩, rfl⟩ := hstep
    have hlive : (s.objects ++ [r]).flatMap owned ~ r :: s.objects.flatMap owned := by
      rw [flatMap_append, flatMap_singleton, owned, if_neg hcap]
      exact perm_append_singleton _ _
    refine ⟨⟨(h.caps.cons _).trans (hlive.map _).symm, (h.mappings.cons _).trans (hlive.map _).symm⟩,
      pairwise_cons.mpr ⟨hfree, h.apart⟩, forall_mem_cons.mpr ⟨?_, h.sizes⟩⟩
    exact Nat.lt_add_of_pos_right hsize
  | moveConstruct =>
    obtain ⟨r, hr, ⟨⟩⟩ := Option.bind_eq_some_iff.mp hstep
    refine h.of_perm ?_
    rw [flatMap_append, flatMap_singleton]
    exact perm_append_comm.trans (flatMap_set_perm {} hr)
  | moveAssign i j =>
    obtain ⟨target, htarget, hstep⟩ := Option.bind_eq_some_iff.mp hstep
    obtain ⟨other, hother, ⟨⟩⟩ := Option.bind_eq_some_iff.mp hstep
    have hempty : target.vmmoCap = 0 := hok target htarget
    rw [if_neg (not_not.mpr hempty)]
    refine h.of_perm ?_
    have htake := flatMap_set_perm (f := owned) other htarget
    rw [owned, if_pos hempty] at htake
    -- the other object is where it was, also if it is the target
    have hj : (s.objects.set i other)[j]? = some other := by
      rw [getElem?_set]
      split
      · rw [if_pos (List.getElem?_eq_some_iff.mp htarget).1]
      · exact hother
    exact (perm_append_left_iff _).mp ((flatMap_set_perm {} hj).trans htake)
  | destroy =>
    obtain ⟨r, hr, ⟨⟩⟩ := Option.bind_eq_some_iff.mp hstep
    by_cases hcap : r.vmmoCap = 0
    · rw [if_neg (not_not.mpr hcap)]
      have hlive := flatMap_set_perm (f := owned) {} hr
      rw [owned, if_pos hcap] at hlive
      exact h.of_perm hlive
    · rw [if_pos hcap]
      exact h.destroy hr hcap

/-- **Nothing is lost** in a run in which no region is assigned to that owns something. -/
theorem exact_of_run {events : List Event} (hok : Meets step AssignsEmpty {} events)
    (hrun : run step {} events = some s) : s.Exact := by
  have hinv : Inv {} := ⟨⟨.refl _, .refl _⟩, .nil, by rintro m ⟨⟩⟩
  exact (run_invariant (fun _ _ _ => step_inv) hinv hok hrun).toExact

/-- A region is moved to an empty one, which is destroyed. -/
theorem exact_of_run_moved :
    ∃ s, run step {} [.create ⟨1, 0x1000, 0x1000⟩, .construct, .moveAssign 1 0, .destroy 1] = some s ∧ s.Exact := by
  have hrun : run step {} [.create ⟨1, 0x1000, 0x1000⟩, .construct, .moveAssign 1 0, .destroy 1] =
    some ⟨[{}, {}], [], []⟩ := by decide
  exact ⟨_, hrun, exact_of_run (by decide) hrun⟩

/-- **A region that is overwritten stays mapped.** -/
theorem overwritten_stays_mapped :
    ∃ s, run step {} [.create ⟨1, 0x1000, 0x1000⟩, .create ⟨2, 0x3000, 0x1000⟩, .moveAssign 0 1] =
      some s ∧ (0x1000, 0x2000) ∈ s.mappings ∧ ¬ s.Exact := by
  refine ⟨_, rfl, by decide, fun h => ?_⟩
  exact absurd h.mappings.length_eq (by decide)

end Regions

end Acadia.Mammoth
