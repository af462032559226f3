import Acadia.Zion.Object.AddressSpaceSpec
import Mathlib.Algebra.Order.Floor.Div

/-! # Automatic placement

The ranges that `GetNextMemMapAddr` returns for a sequence of objects: where they lie, and that no two
of them overlap. -/

namespace Acadia.Zion.AddressSpace

open Runs Option UInt64
open scoped Word

/-- The alignment that is asked for: with `align` zero, any address. -/
def alignment (align : UInt64) : Nat := if align = 0 then 1 else align.toNat

/-- The first multiple of `a` from `n` on. -/
def alignUp (n a : Nat) : Nat := a * (n ⌈/⌉ a)

/-- The size in whole pages. -/
def roundUp (size : Nat) : Nat := (size - 1) / 4096 * 4096 + 4096

/-- The address after the object, as a number. -/
def placedEnd (space : AddressSpace) (size align : UInt64) : Nat :=
  alignUp space.nextMemmapAddr.toNat (alignment align) + roundUp size.toNat

/-- What callers ask for: a size that is not zero, and an alignment that is zero or a power of two. -/
def Placeable (size align : UInt64) : Prop := size ≠ 0 ∧ (align = 0 ∨ ∃ j, align.toNat = 2 ^ j)

/-- The address after the object is an address, or so far above all of them that it wraps to one above
the region. -/
def Unwrapped (space : AddressSpace) (size align : UInt64) : Prop :=
  space.placedEnd size align < 2 ^ 64 ∨ 2 ^ 64 + 0x3000000000 ≤ space.placedEnd size align

instance (size align : UInt64) : Decidable (Placeable size align) :=
  inferInstanceAs (Decidable (_ ∧ (_ ∨ Nat.isPowerOfTwo _)))

instance (space : AddressSpace) (size align : UInt64) : Decidable (space.Unwrapped size align) :=
  inferInstanceAs (Decidable (_ ∨ _))

/-! ## The loop -/

variable {a : Nat}

theorem alignLoop_eq_some {mask : UInt64} {k fuel : Nat} {addr : UInt64}
    (hmask : ∀ x : UInt64, x &&& mask = 0 ↔ a ∣ x.toNat) (hfit : addr.toNat + 4096 * k < 2 ^ 64)
    (hdvd : a ∣ addr.toNat + 4096 * k) (hbefore : ∀ i < k, ¬a ∣ addr.toNat + 4096 * i) (hfuel : k ≤ fuel) :
    alignLoop mask fuel addr = some (UInt64.ofNat (addr.toNat + 4096 * k)) := by
  induction k generalizing addr fuel with
  | zero =>
    unfold alignLoop
    rw [if_neg (not_not.mpr ((hmask addr).mpr hdvd)), Nat.mul_zero, Nat.add_zero, UInt64.ofNat_toNat]
  | succ k ih =>
    have hk : kPageSize.toNat = 4096 := rfl
    have hpage : (addr + kPageSize).toNat = addr.toNat + 4096 := by
      rw [Word.toNat_add_of_lt (by omega), hk]
    have hsum : ∀ i, addr.toNat + 4096 * (i + 1) = (addr + kPageSize).toNat + 4096 * i := by
      omega
    obtain ⟨fuel, rfl⟩ : ∃ n, fuel = n + 1 := ⟨fuel - 1, by omega⟩
    unfold alignLoop
    rw [if_pos fun h => hbefore 0 (Nat.succ_pos k) ((hmask addr).mp h), hsum]
    rw [hsum] at hfit hdvd
    refine ih hfit hdvd (fun i hi => ?_) (Nat.le_of_succ_le_succ hfuel)
    rw [← hsum]
    exact hbefore (i + 1) (Nat.succ_lt_succ hi)

theorem le_alignUp (n : Nat) (ha : 0 < a) : n ≤ alignUp n a := le_smul_ceilDiv ha

theorem alignUp_le {n m : Nat} (ha : 0 < a) (hn : n ≤ m) (hm : a ∣ m) : alignUp n a ≤ m := by
  obtain ⟨c, rfl⟩ := hm
  exact Nat.mul_le_mul_left a ((ceilDiv_le_iff_le_smul ha).mpr hn)

variable {align : UInt64}

/-- **The loop ends** at the first multiple of the alignment. -/
theorem alignLoop_alignUp {next : UInt64} {j : Nat} (halign : align.toNat = 2 ^ j)
    (hnext : PageAligned next) (hle : next.toNat ≤ 2 ^ 63) :
    alignUp next.toNat align.toNat ≤ 2 ^ 63 ∧ 4096 ∣ alignUp next.toNat align.toNat ∧
      alignLoop (align - 1) (2 ^ 52) next = some (UInt64.ofNat (alignUp next.toNat align.toNat)) := by
  have hpos : 0 < align.toNat := halign ▸ Nat.two_pow_pos j
  have hj : j ≤ 63 := by
    have := align.toNat_lt
    rw [halign] at this
    exact Nat.le_of_lt_succ ((Nat.pow_lt_pow_iff_right (by decide)).mp this)
  have hbound : alignUp next.toNat align.toNat ≤ 2 ^ 63 :=
    alignUp_le hpos hle (halign ▸ Nat.pow_dvd_pow 2 hj)
  have hge := le_alignUp next.toNat hpos
  have hpage : 4096 ∣ alignUp next.toNat align.toNat := by
    rcases Nat.le_total 12 j with h12 | h12
    · exact (halign ▸ Nat.pow_dvd_pow 2 h12 : 2 ^ 12 ∣ align.toNat).trans (Nat.dvd_mul_right _ _)
    · have hdvd : align.toNat ∣ next.toNat := (halign ▸ Nat.pow_dvd_pow 2 h12).trans hnext
      rw [Nat.le_antisymm (alignUp_le hpos (le_refl _) hdvd) hge]
      exact hnext
  refine ⟨hbound, hpage, ?_⟩
  obtain ⟨k, hk⟩ : ∃ k, alignUp next.toNat align.toNat = next.toNat + 4096 * k := by
    obtain ⟨c, hc⟩ := (Nat.dvd_sub hpage hnext)
    exact ⟨c, by omega⟩
  rw [hk] at hbound ⊢
  have hmask : ∀ x : UInt64, x &&& (align - 1) = 0 ↔ align.toNat ∣ x.toNat := by
    intro x
    have hsub : (align - 1).toNat = 2 ^ j - 1 := by
      rw [UInt64.toNat_sub_of_le _ _ (UInt64.le_iff_toNat_le.mpr (by rwa [UInt64.toNat_one])), halign]
      rfl
    rw [← UInt64.toNat_inj, UInt64.toNat_and, hsub, Nat.and_two_pow_sub_one_eq_mod, halign, Nat.dvd_iff_mod_eq_zero]
    rfl
  refine alignLoop_eq_some hmask (by omega) (hk ▸ Nat.dvd_mul_right _ _) (fun i hi hdvd => ?_) (by omega)
  have := alignUp_le hpos (Nat.le_add_right _ _) hdvd
  omega

/-! ## One object -/

/-- Where the next mapping starts: a page address inside the region. -/
def InRegion (space : AddressSpace) : Prop :=
  PageAligned space.nextMemmapAddr ∧ 0x2000000000 ≤ space.nextMemmapAddr.toNat ∧
    space.nextMemmapAddr.toNat < 0x3000000000

/-- **The address that is chosen** for an object. -/
structure Chosen (space : AddressSpace) (align addr : UInt64) : Prop where
  /-- It is the first multiple of the alignment. -/
  eq : addr.toNat = alignUp space.nextMemmapAddr.toNat (alignment align)
  /-- Nothing before has been placed there. -/
  le : space.nextMemmapAddr.toNat ≤ addr.toNat
  /-- The loop stops at `2 ^ 63`. -/
  bound : addr.toNat ≤ 2 ^ 63
  page : PageAligned addr
  /-- The loop ends with it. -/
  loop : align > 0 → alignLoop (align - 1) (2 ^ 52) space.nextMemmapAddr = some addr
  /-- Without an alignment there is no loop. -/
  same : ¬align > 0 → addr = space.nextMemmapAddr

variable {space : AddressSpace}

theorem exists_chosen (hregion : space.InRegion)
    (halign : align = 0 ∨ ∃ j, align.toNat = 2 ^ j) : ∃ addr, Chosen space align addr := by
  obtain ⟨hnext, -, hlt⟩ := hregion
  rcases halign with rfl | ⟨j, hj⟩
  · have hone : alignUp space.nextMemmapAddr.toNat 1 = space.nextMemmapAddr.toNat :=
      Nat.le_antisymm (alignUp_le Nat.one_pos (le_refl _) (Nat.one_dvd _)) (le_alignUp _ Nat.one_pos)
    exact ⟨space.nextMemmapAddr, hone.symm, le_refl _, by omega, hnext, nofun, fun _ => rfl⟩
  have hpos : 0 < align.toNat := hj ▸ Nat.two_pow_pos j
  have hne : align ≠ 0 := fun h => by simp [h] at hpos
  obtain ⟨hbound, hpage, hloop⟩ := alignLoop_alignUp hj hnext (by omega)
  have haddr : (UInt64.ofNat (alignUp space.nextMemmapAddr.toNat align.toNat)).toNat =
      alignUp space.nextMemmapAddr.toNat align.toNat := by
    rw [UInt64.toNat_ofNat', Nat.mod_eq_of_lt (by omega)]
  refine ⟨_, ?_, ?_, ?_, ?_, fun _ => hloop, fun h => absurd (UInt64.pos_iff_ne_zero.mpr hne) h⟩
  · rw [haddr, alignment, if_neg hne]
  · rw [haddr]
    exact le_alignUp _ hpos
  · rwa [haddr]
  · rwa [PageAligned, haddr]

variable {size : UInt64}

/-- The size in whole pages, modulo `2 ^ 64`. -/
theorem roundUp_eq (h : size ≠ 0) : ((size - 1) &&& ~~~0xFFF) + 0x1000 = UInt64.ofNat (roundUp size.toNat) := by
  have hpos : size.toNat ≠ 0 := fun heq => h (UInt64.toNat_inj.mp heq)
  have hsub : (size - 1).toNat = size.toNat - 1 :=
    UInt64.toNat_sub_of_le _ _ (UInt64.le_iff_toNat_le.mpr (by rw [UInt64.toNat_one]; omega))
  have hpage : ((size - 1) &&& ~~~0xFFF).toNat = (size.toNat - 1) / 4096 * 4096 := by
    rw [← hsub]
    exact toNat_pageAlign _
  rw [roundUp, UInt64.ofNat_add, ← hpage, UInt64.ofNat_toNat]
  rfl

/-- **What `GetNextMemMapAddr` computes.** -/
theorem getNextMemMapAddr_eq {addr : UInt64} (haddr : Chosen space align addr) (hsize : size ≠ 0) :
    space.getNextMemMapAddr size align =
      if 0x3000000000 ≤ space.placedEnd size align % 2 ^ 64 then none
      else some (addr, { space with nextMemmapAddr := UInt64.ofNat (space.placedEnd size align) }) := by
  have hend : addr + UInt64.ofNat (roundUp size.toNat) = UInt64.ofNat (space.placedEnd size align) := by
    rw [placedEnd, ← haddr.eq, UInt64.ofNat_add, UInt64.ofNat_toNat]
  have hge : UInt64.ofNat (space.placedEnd size align) ≥ 0x3000000000 ↔
      0x3000000000 ≤ space.placedEnd size align % 2 ^ 64 := by
    rfl
  unfold getNextMemMapAddr
  rw [if_neg hsize]
  by_cases hpos : align > 0
  · simp only [hpos, if_true, haddr.loop hpos, roundUp_eq hsize, bind_eq_bind, bind_some, hend, hge]
    rfl
  · simp only [hpos, if_false, ← haddr.same hpos, roundUp_eq hsize, bind_eq_bind, bind_some, hend, hge]
    rfl

/-- The outcome that is wanted for one object, when the ranges before are known: the loop ends, and
there is no room left, or the range is aligned, inside the region and apart from the others. -/
def PlacedRight (space : AddressSpace) (ranges : List (UInt64 × UInt64)) (size align : UInt64) : Prop :=
  (align > 0 → (alignLoop (align - 1) (2 ^ 52) space.nextMemmapAddr).isSome = true) ∧
  ((space.getNextMemMapAddr size align = none ∧ 0x3000000000 ≤ space.placedEnd size align) ∨
    ∃ addr space', space.getNextMemMapAddr size align = some (addr, space') ∧
      PageAligned addr ∧ alignment align ∣ addr.toNat ∧
      0x2000000000 ≤ addr.toNat ∧ addr.toNat + size.toNat ≤ 0x3000000000 ∧
      ∀ r ∈ ranges, r.1.toNat + r.2.toNat ≤ addr.toNat ∨ addr.toNat + size.toNat ≤ r.1.toNat)

/-- **An object is placed right if and only if its end does not wrap.** -/
theorem placedRight_iff (hregion : space.InRegion) {ranges : List (UInt64 × UInt64)}
    (hranges : ∀ r ∈ ranges, r.1.toNat + r.2.toNat ≤ space.nextMemmapAddr.toNat)
    (hrequest : Placeable size align) : PlacedRight space ranges size align ↔ space.Unwrapped size align := by
  obtain ⟨addr, haddr⟩ := exists_chosen hregion hrequest.2
  have hget := getNextMemMapAddr_eq haddr hrequest.1
  have hsize := size.toNat_lt
  have hend : space.placedEnd size align = addr.toNat + roundUp size.toNat := by
    rw [placedEnd, haddr.eq]
  have hbound := haddr.bound
  have hle := haddr.le
  obtain ⟨-, hlow, -⟩ := hregion
  unfold roundUp at hend
  unfold PlacedRight Unwrapped
  constructor
  · rintro ⟨-, ⟨hnone, -⟩ | ⟨addr', space', hsome, -, -, -, hin, -⟩⟩
    · rw [hget] at hnone
      split_ifs at hnone with hfull
      omega
    · rw [hget] at hsome
      split_ifs at hsome with hfull
      cases hsome
      omega
  intro hun
  refine ⟨fun h => by rw [haddr.loop h]; rfl, ?_⟩
  rw [hget]
  split_ifs with hfull
  · exact Or.inl ⟨rfl, by omega⟩
  · refine Or.inr ⟨addr, _, rfl, haddr.page, haddr.eq ▸ Nat.dvd_mul_right _ _, by omega, by omega, ?_⟩
    intro r hr
    have := hranges r hr
    exact Or.inl (by omega)

/-! ## Sequences of objects -/

/-- `MapInMemoryObject(mem_obj, align)`, with the ranges that `GetNextMemMapAddr` has returned. -/
def mapNext (s : AddressSpace × List (UInt64 × UInt64)) (request : MemoryObject × UInt64) :
    Option (AddressSpace × List (UInt64 × UInt64)) := do
  let (vaddr, space) ← s.1.getNextMemMapAddr request.1.size request.2
  let (_, mappingTree) ← space.mappingTree.addInMemoryObject vaddr request.1
  return ({ space with mappingTree }, (vaddr, request.1.size) :: s.2)

/-- What holds between two objects: the ranges lie before the next address. -/
def Placed (s : AddressSpace × List (UInt64 × UInt64)) : Prop :=
  s.1.InRegion ∧ ∀ r ∈ s.2, r.1.toNat + r.2.toNat ≤ s.1.nextMemmapAddr.toNat

theorem Placed.mapNext {s s' : AddressSpace × List (UInt64 × UInt64)} {request : MemoryObject × UInt64}
    (h : Placed s) (hrequest : Placeable request.1.size request.2 ∧ s.1.Unwrapped request.1.size request.2)
    (hstep : mapNext s request = some s') : Placed s' := by
  obtain ⟨⟨hsize, halign⟩, hun⟩ := hrequest
  obtain ⟨hregion, hranges⟩ := h
  obtain ⟨addr, haddr⟩ := exists_chosen hregion halign
  have hget := getNextMemMapAddr_eq haddr hsize
  simp only [AddressSpace.mapNext, bind_eq_bind, bind_eq_some_iff, Prod.exists, hget] at hstep
  obtain ⟨vaddr, space, hplaced, code, tree, -, heq⟩ := hstep
  split_ifs at hplaced with hfull
  cases hplaced
  cases heq
  have hmax := request.1.size.toNat_lt
  have hend : s.1.placedEnd request.1.size request.2 = addr.toNat + roundUp request.1.size.toNat := by
    rw [placedEnd, haddr.eq]
  have hle := haddr.le
  have hbound := haddr.bound
  have hpage := haddr.page
  obtain ⟨-, hlow, -⟩ := hregion
  unfold Unwrapped at hun
  unfold roundUp at hend
  unfold PageAligned at hpage
  have hnext : (UInt64.ofNat (s.1.placedEnd request.1.size request.2)).toNat =
      s.1.placedEnd request.1.size request.2 := by
    rw [toNat_ofNat', Nat.mod_eq_of_lt (by omega)]
  refine ⟨⟨?_, ?_, ?_⟩, List.forall_mem_cons.mpr ⟨?_, fun r hr => ?_⟩⟩
  · rw [PageAligned, hnext]
    omega
  · rw [hnext]
    omega
  · rw [hnext]
    omega
  · rw [hnext]
    show addr.toNat + request.1.size.toNat ≤ _
    omega
  · have := hranges r hr
    rw [hnext]
    omega

/-- **Automatic placement.** After any number of objects whose ends do not wrap, the next one is placed
right if and only if its end does not wrap. -/
theorem placements_right_iff {space : AddressSpace} (hregion : space.InRegion)
    {requests : List (MemoryObject × UInt64)} {s : AddressSpace × List (UInt64 × UInt64)}
    (hrequests : Meets mapNext (fun s request => Placeable request.1.size request.2 ∧
      s.1.Unwrapped request.1.size request.2) (space, []) requests)
    (hrun : run mapNext (space, []) requests = some s) {size align : UInt64}
    (hrequest : Placeable size align) :
    PlacedRight s.1 s.2 size align ↔ s.1.Unwrapped size align := by
  have hplaced : Placed s := run_invariant (fun _ _ _ h hr hstep => h.mapNext hr hstep)
    ⟨hregion, fun r hr => absurd hr List.not_mem_nil⟩ hrequests hrun
  exact placedRight_iff hplaced.1 hplaced.2 hrequest

/-- The third object of an address space, with more alignment than the two before it. -/
theorem placements_right_iff_third : ∃ s, run mapNext ({ cr3 := 0x1000 }, [])
        [(⟨0, .variable, 0x1800⟩, 0), (⟨1, .variable, 1⟩, 0x4000)] = some s ∧
      s.2 = [(0x2000004000, 1), (0x2000000000, 0x1800)] ∧ PlacedRight s.1 s.2 0x3000 0x10000 := by
  have hregion : InRegion { cr3 := 0x1000 } := ⟨by unfold PageAligned; decide, by decide, by decide⟩
  have hlast : (run mapNext ({ cr3 := 0x1000 }, [])
      [(⟨0, .variable, 0x1800⟩, 0), (⟨1, .variable, 1⟩, 0x4000)]).map
        (fun s => (s.2, decide (s.1.Unwrapped 0x3000 0x10000))) =
      some ([(0x2000004000, 1), (0x2000000000, 0x1800)], true) := by decide +kernel
  obtain ⟨s, hrun, hs⟩ := map_eq_some_iff.mp hlast
  rw [Prod.mk.injEq, decide_eq_true_eq] at hs
  exact ⟨s, hrun, hs.1, (placements_right_iff hregion (by decide +kernel) hrun (by decide)).mpr hs.2⟩

/-- **An object whose size rounds to zero** is placed at the next address, which does not move: it leaves
the region, and the object after it is placed at the same address. -/
theorem placement_wraps : getNextMemMapAddr { cr3 := 0x1000 } 0xFFFFFFFFFFFFF001 0 =
      some (0x2000000000, { cr3 := 0x1000 }) ∧
    ¬PlacedRight { cr3 := 0x1000 } [] 0xFFFFFFFFFFFFF001 0 := by
  have hregion : InRegion { cr3 := 0x1000 } := ⟨by unfold PageAligned; decide, by decide, by decide⟩
  refine ⟨by decide, fun h => ?_⟩
  have := (placedRight_iff hregion (by simp) ⟨by decide, Or.inl rfl⟩).mp h
  unfold Unwrapped at this
  revert this
  decide

end Acadia.Zion.AddressSpace
