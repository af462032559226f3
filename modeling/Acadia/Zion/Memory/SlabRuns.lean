import Acadia.Zion.Memory.KernelHeapSpec

/-! # Runs of one slab

Elements are handed out and returned; the free list and the live elements share the elements that the
slab was created with. -/

namespace Acadia.Zion

open Runs List Slab

/-- A use of a slab. -/
inductive SlabRequest where
  | allocate
  | free (addr : UInt64)
  deriving DecidableEq

/-- A slab, with its field `num_allocated_` and the elements that are live. -/
structure TrackedSlab where
  slab : Slab
  numAllocated : UInt64 := 0
  live : List UInt64 := []

namespace TrackedSlab

/-- One use; `none` is a panic. -/
def step (t : TrackedSlab) : SlabRequest → Option TrackedSlab
  | .allocate => t.slab.allocate.map fun (entry, slab) => ⟨slab, t.numAllocated + 1, entry :: t.live⟩
  | .free addr => (t.slab.free addr).map fun slab => ⟨slab, t.numAllocated - 1, t.live.erase addr⟩

/-- Only live elements are freed. -/
def FreesLive (t : TrackedSlab) : SlabRequest → Prop
  | .allocate => True
  | .free addr => addr ∈ t.live

instance : (t : TrackedSlab) → (r : SlabRequest) → Decidable (t.FreesLive r)
  | _, .allocate => isTrue trivial
  | t, .free addr => inferInstanceAs (Decidable (addr ∈ t.live))

/-- **The free list and the live elements share the elements of the slab.** -/
structure Inv (e address : UInt64) (t : TrackedSlab) : Prop where
  shape : t.slab.shape = (address, e)
  elements : t.slab.firstFree ++ t.live ~ (create e address).firstFree
  count : t.numAllocated = UInt64.ofNat t.live.length

variable {e address : UInt64} {t t' : TrackedSlab}

theorem Inv.free (inv : Inv e address t) (he : e ∈ elemSizes) (h : Slab.Placed address) {addr : UInt64}
    (haddr : addr ∈ t.live) : addr &&& kSlabMask = address ∧
      t.slab.free addr = some { t.slab with firstFree := addr :: t.slab.firstFree } := by
  obtain ⟨rfl, rfl⟩ := Prod.mk.inj inv.shape
  exact free_of_mem he h (inv.elements.subset (mem_append_right _ haddr))

theorem step_inv (he : e ∈ elemSizes) (h : Slab.Placed address) {r : SlabRequest} (inv : Inv e address t)
    (hlive : t.FreesLive r) (hstep : t.step r = some t') : Inv e address t' := by
  cases r with
  | allocate =>
    obtain ⟨⟨entry, slab⟩, halloc, rfl⟩ := Option.map_eq_some_iff.mp hstep
    obtain ⟨hfree, hshape⟩ := allocate_spec halloc
    refine ⟨hshape.trans inv.shape, perm_middle.trans ?_, ?_⟩
    · simpa only [hfree, cons_append] using inv.elements
    · rw [length_cons, UInt64.ofNat_add, ← inv.count]
      rfl
  | free addr =>
    rw [step, (inv.free he h hlive).2] at hstep
    cases hstep
    have hperm := perm_cons_erase hlive
    refine ⟨inv.shape, (perm_middle.symm.trans (hperm.symm.append_left _)).trans inv.elements, ?_⟩
    dsimp only
    rw [inv.count, hperm.length_eq, length_cons, UInt64.ofNat_add]
    exact UInt64.add_sub_cancel ..

theorem length_entryLoop_le (e max : UInt64) (fuel : Nat) (entry : UInt64) :
    (entryLoop e max fuel entry).length ≤ fuel := by
  induction fuel generalizing entry with
  | zero => exact Nat.le_refl 0
  | succ fuel ih =>
    rw [entryLoop]
    split
    · exact Nat.succ_le_succ (ih _)
    · exact Nat.zero_le _

/-- **Every run of a slab**: its elements are free or live and never both, they lie after its fields at
multiples of their size and do not overlap, and each live one goes back to the slab. `AcquireSlabHeapRegion`
gives no page from `kKernelBuddyHeapEnd` on. -/
theorem slab_shares_elements (he : e ∈ elemSizes) (haligned : PageAligned address)
    (hbelow : address < kKernelBuddyHeapEnd) {requests : List SlabRequest}
    (hlive : Meets step FreesLive ⟨create e address, 0, []⟩ requests)
    (hrun : run step ⟨create e address, 0, []⟩ requests = some t) :
    t.slab.firstFree ++ t.live ~ (create e address).firstFree ∧ (∀ x ∈ t.slab.firstFree, x ∉ t.live) ∧
      (∀ x ∈ t.slab.firstFree ++ t.live, e.toNat ∣ x.toNat ∧
        address.toNat + sizeofSlab.toNat ≤ x.toNat ∧ x.toNat + e.toNat ≤ address.toNat + 4096) ∧
      (t.slab.firstFree ++ t.live).Pairwise (fun x y =>
        x.toNat + e.toNat ≤ y.toNat ∨ y.toNat + e.toNat ≤ x.toNat) ∧
      t.numAllocated.toNat = t.live.length ∧
      ∀ x ∈ t.live, x &&& kSlabMask = address ∧ (t.slab.free x).isSome := by
  have hplaced : Slab.Placed address := by
    have hbelow := UInt64.lt_iff_toNat_lt.mp hbelow
    rw [show kKernelBuddyHeapEnd.toNat = 0xFFFFFFFF80000000 from rfl] at hbelow
    exact ⟨haligned, by omega⟩
  have hfresh : Inv e address ⟨create e address, 0, []⟩ := ⟨rfl, by simp, rfl⟩
  have inv := run_invariant (fun _ _ _ => step_inv he hplaced) hfresh hlive hrun
  have hpos := (offset_bounds e he).2.2.2.2.1
  have hapart := (inv.elements.pairwise_iff fun h => Or.symm h).mpr ((pairwise_create he hplaced).imp Or.inl)
  refine ⟨inv.elements, fun x hx hx' => ?_, fun x hx => ?_, hapart, ?_, fun x hx => ?_⟩
  · have hself := (pairwise_append.mp hapart).2.2 x hx x hx'
    omega
  · obtain ⟨hlow, hhigh, hdvd⟩ := mem_create he hplaced (inv.elements.subset hx)
    exact ⟨hdvd, hlow, hhigh⟩
  · have hlength := inv.elements.length_eq
    have hmax := length_entryLoop_le e (address + kSlabSize) 512 (address + ((sizeofSlab - 1) / e + 1) * e + e)
    simp only [create, length_append, length_cons] at hlength
    rw [inv.count, UInt64.toNat_ofNat']
    exact Nat.mod_eq_of_lt (by omega)
  · obtain ⟨hmask, hfree⟩ := inv.free he hplaced hx
    exact ⟨hmask, by rw [hfree]; rfl⟩

/-- Two elements are handed out, and the first goes back. -/
theorem slab_shares_elements_page : ∃ t, run step ⟨create 128 0xFFFFFFFF40000000, 0, []⟩ [.allocate, .allocate,
      .free 0xFFFFFFFF40000080] = some t ∧ t.numAllocated.toNat = t.live.length := by
  have hresult : (run step ⟨create 128 0xFFFFFFFF40000000, 0, []⟩ [.allocate, .allocate,
      .free 0xFFFFFFFF40000080]).isSome := by decide +kernel
  obtain ⟨t, hrun⟩ := Option.isSome_iff_exists.mp hresult
  exact ⟨t, hrun, (slab_shares_elements (by decide) (by decide) (by decide) (by decide +kernel) hrun).2.2.2.2.1⟩

end TrackedSlab

end Acadia.Zion
