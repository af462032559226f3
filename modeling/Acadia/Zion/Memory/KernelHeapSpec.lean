import Acadia.Foundations.ListUpdate
import Acadia.Zion.Memory.KernelHeap
import Acadia.Zion.Memory.KernelTables

/-! # Slabs as sets of cells

A cell is an element of a slab, by its address and size. Allocation and free move cells between the free lists
and the callers; only a new slab adds cells. -/

namespace Acadia.Zion

open List

open scoped Word

/-- The sizes of elements for which there are slab allocators. -/
def elemSizes : List UInt64 := [8, 16, 32, 64, 128]

theorem toNat_add_slabSize {x : UInt64} (h : x.toNat + 4096 < 2 ^ 64) : (x + kSlabSize).toNat = x.toNat + 4096 :=
  Word.toNat_add_of_lt h

namespace Slab

/-! ## The elements of a slab -/

variable {e : UInt64}

theorem mem_entryLoop {max : UInt64} (hmax : max.toNat + e.toNat ≤ 2 ^ 64) {fuel : Nat}
    {entry x : UInt64} (hx : x ∈ entryLoop e max fuel entry) :
    entry.toNat ≤ x.toNat ∧ x.toNat < max.toNat ∧ e.toNat ∣ x.toNat - entry.toNat := by
  induction fuel generalizing entry with
  | zero => simp [entryLoop] at hx
  | succ _ ih =>
    rw [entryLoop] at hx
    by_cases hlt : entry < max
    · rw [if_pos hlt, mem_cons] at hx
      have hlt := UInt64.lt_iff_toNat_lt.mp hlt
      rcases hx with rfl | hx
      · exact ⟨le_rfl, hlt, by simp⟩
      have hnext : (entry + e).toNat = entry.toNat + e.toNat :=
        Word.toNat_add_of_lt (by omega)
      obtain ⟨hle, hmax, hdvd⟩ := ih hx
      rw [hnext] at hle hdvd
      refine ⟨by omega, hmax, ?_⟩
      have hsplit : x.toNat - entry.toNat = x.toNat - (entry.toNat + e.toNat) + e.toNat := by
        omega
      rw [hsplit]
      exact (Nat.dvd_add_self_right).mpr hdvd
    · rw [if_neg hlt] at hx
      exact absurd hx not_mem_nil

theorem pairwise_entryLoop {max : UInt64} (hmax : max.toNat + e.toNat ≤ 2 ^ 64) (fuel : Nat)
    (entry : UInt64) : (entryLoop e max fuel entry).Pairwise fun x y => x.toNat + e.toNat ≤ y.toNat := by
  induction fuel generalizing entry with
  | zero => exact List.Pairwise.nil
  | succ _ ih =>
    rw [entryLoop]
    by_cases hlt : entry < max
    · rw [if_pos hlt, pairwise_cons]
      refine ⟨fun y hy => ?_, ih _⟩
      have hlt := UInt64.lt_iff_toNat_lt.mp hlt
      have hnext : (entry + e).toNat = entry.toNat + e.toNat := Word.toNat_add_of_lt (by omega)
      have hle := (mem_entryLoop hmax hy).1
      omega
    · rw [if_neg hlt]
      exact List.Pairwise.nil

/-- A slab lies at a page address that leaves room for it. -/
def Placed (address : UInt64) : Prop := PageAligned address ∧ address.toNat + 8192 ≤ 2 ^ 64

/-- Where the elements start in a slab, for each size: after the fields of the slab, at a multiple of
the size. -/
theorem offset_bounds : ∀ e ∈ elemSizes, 56 ≤ (((sizeofSlab - 1) / e + 1) * e).toNat ∧
    (((sizeofSlab - 1) / e + 1) * e).toNat + e.toNat ≤ 4096 ∧
    e.toNat ∣ (((sizeofSlab - 1) / e + 1) * e).toNat ∧ e.toNat ∣ 4096 ∧ 8 ≤ e.toNat ∧
    e.toNat ≤ 128 := by
  intro e he
  simp only [elemSizes, mem_cons, not_mem_nil, or_false] at he
  rcases he with rfl | rfl | rfl | rfl | rfl
  all_goals decide

theorem elemSizes_pow : ∀ e ∈ elemSizes, ∃ k ∈ List.range 8, (e - 1).toNat = 2 ^ k - 1 ∧ e.toNat = 2 ^ k := by
  intro e he
  simp only [elemSizes, mem_cons, not_mem_nil, or_false] at he
  rcases he with rfl | rfl | rfl | rfl | rfl
  all_goals decide

/-- **The elements of a new slab** lie in it after its fields, at multiples of their size. -/
theorem mem_create {address : UInt64} (he : e ∈ elemSizes) (h : Placed address) {x : UInt64}
    (hx : x ∈ (create e address).firstFree) :
    address.toNat + 56 ≤ x.toNat ∧ x.toNat + e.toNat ≤ address.toNat + 4096 ∧ e.toNat ∣ x.toNat := by
  obtain ⟨haligned, hfit⟩ := h
  obtain ⟨hlow, hhigh, hdvd, hpage, -, hmax⟩ := offset_bounds e he
  have haddress : e.toNat ∣ address.toNat := hpage.trans haligned
  have hfirst : (address + ((sizeofSlab - 1) / e + 1) * e).toNat =
      address.toNat + (((sizeofSlab - 1) / e + 1) * e).toNat := Word.toNat_add_of_lt (by omega)
  have hend := toNat_add_slabSize (x := address) (by omega)
  have hnext : (address + ((sizeofSlab - 1) / e + 1) * e + e).toNat =
      address.toNat + (((sizeofSlab - 1) / e + 1) * e).toNat + e.toNat := by
    rw [Word.toNat_add_of_lt (by omega), hfirst]
  generalize (((sizeofSlab - 1) / e + 1) * e).toNat = offset at *
  rcases mem_cons.mp hx with rfl | hx
  · rw [hfirst]
    exact ⟨by omega, by omega, Nat.dvd_add haddress hdvd⟩
  obtain ⟨hle, hlt, hsteps⟩ := mem_entryLoop (by omega) hx
  rw [hnext] at hle hsteps
  -- the address is a multiple of the size below the end of the slab, which is one too
  have hx : e.toNat ∣ x.toNat := by
    have hsum : x.toNat = x.toNat - (address.toNat + offset + e.toNat) + (address.toNat + offset + e.toNat) := by omega
    rw [hsum]
    exact Nat.dvd_add hsteps (Nat.dvd_add (Nat.dvd_add haddress hdvd) (dvd_refl _))
  refine ⟨by omega, ?_, hx⟩
  obtain ⟨k, hk⟩ := hx
  obtain ⟨n, hn⟩ := Nat.dvd_add haddress hpage
  have hkn : k < n := by
    by_contra hge
    have := Nat.mul_le_mul_left e.toNat (not_lt.mp hge)
    omega
  have := Nat.mul_le_mul_left e.toNat (Nat.succ_le_of_lt hkn)
  rw [Nat.mul_succ] at this
  omega

theorem pairwise_create {address : UInt64} (he : e ∈ elemSizes) (h : Placed address) :
    (create e address).firstFree.Pairwise fun x y => x.toNat + e.toNat ≤ y.toNat := by
  obtain ⟨haligned, hfit⟩ := h
  obtain ⟨hlow, hhigh, hdvd, hpage, -, hmax⟩ := offset_bounds e he
  have hfirst : (address + ((sizeofSlab - 1) / e + 1) * e).toNat =
      address.toNat + (((sizeofSlab - 1) / e + 1) * e).toNat := Word.toNat_add_of_lt (by omega)
  have hend := toNat_add_slabSize (x := address) (by omega)
  have hbound : (address + kSlabSize).toNat + e.toNat ≤ 2 ^ 64 := by omega
  refine pairwise_cons.mpr ⟨?_, pairwise_entryLoop hbound _ _⟩
  intro y hy
  have hle := (mem_entryLoop hbound hy).1
  rwa [Word.toNat_add_of_lt (by omega)] at hle

end Slab

/-! ## Cells -/

/-- An element by its address and size. -/
abbrev Cell := UInt64 × UInt64

/-- The cells in the free list of a slab. -/
def Slab.freeCells (s : Slab) : List Cell := s.firstFree.map (·, s.elemSize)

/-- All cells of a slab at an address. -/
def Slab.cellsAt (address elemSize : UInt64) : List Cell :=
  (Slab.create elemSize address).firstFree.map (·, elemSize)

/-- Where a slab is, and for which size. These do not change. -/
def Slab.shape (s : Slab) : UInt64 × UInt64 := (s.address, s.elemSize)

theorem Slab.allocate_spec {s s' : Slab} {entry : UInt64} (h : s.allocate = some (entry, s')) :
    s.firstFree = entry :: s'.firstFree ∧ s'.shape = s.shape := by
  unfold Slab.allocate at h
  cases hfree : s.firstFree with
  | nil =>
    rw [hfree] at h
    cases h
  | cons =>
    rw [hfree] at h
    cases h
    exact ⟨rfl, rfl⟩

namespace SlabAllocator

/-- The free cells of some slabs. -/
def freeCells (slabs : List Slab) : List Cell := slabs.flatMap Slab.freeCells

variable {slabs : List Slab}

/-- **The first slab that is not full gives one of its free cells.** -/
theorem allocateFirst_spec {slabs' : List Slab} {entry : UInt64} (h : allocateFirst slabs = some (entry, slabs')) :
    slabs'.map Slab.shape = slabs.map Slab.shape ∧
      ∃ slab ∈ slabs, List.Perm (freeCells slabs) ((entry, slab.elemSize) :: freeCells slabs') := by
  induction slabs generalizing slabs' with
  | nil => simp [allocateFirst] at h
  | cons slab _ ih =>
    unfold allocateFirst at h
    cases hfree : slab.firstFree with
    | nil =>
      simp only [Slab.allocate, hfree, Option.map_eq_some_iff, Prod.exists, Prod.mk.injEq] at h
      obtain ⟨entry, slabs1, hrest, rfl, rfl⟩ := h
      obtain ⟨hshape, slab', hslab', hperm⟩ := ih hrest
      refine ⟨by rw [map_cons, map_cons, hshape], slab', mem_cons_of_mem _ hslab', ?_⟩
      have hnone : slab.freeCells = [] := by rw [Slab.freeCells, hfree]; rfl
      simpa only [freeCells, flatMap_cons, hnone, nil_append] using hperm
    | cons =>
      simp only [Slab.allocate, hfree, Option.some.injEq, Prod.mk.injEq] at h
      obtain ⟨rfl, rfl⟩ := h
      refine ⟨rfl, slab, mem_cons_self, ?_⟩
      simp only [freeCells, flatMap_cons, Slab.freeCells, hfree, map_cons, cons_append]
      exact List.Perm.refl _

theorem all_isFull_of_allocateFirst_eq_none (h : allocateFirst slabs = none) : slabs.all Slab.isFull = true := by
  induction slabs with
  | nil => rfl
  | cons slab _ ih =>
    unfold allocateFirst at h
    cases hfree : slab.firstFree with
    | nil =>
      simp only [Slab.allocate, hfree, Option.map_eq_none_iff] at h
      rw [all_cons, Slab.isFull, hfree, ih h]
      rfl
    | cons => simp [Slab.allocate, hfree] at h

theorem freeCells_of_allocateFirst_eq_none (h : allocateFirst slabs = none) : freeCells slabs = [] := by
  rw [freeCells, flatMap_eq_nil_iff]
  intro slab hslab
  have hfull := all_eq_true.mp (all_isFull_of_allocateFirst_eq_none h) slab hslab
  rw [Slab.freeCells, isEmpty_iff.mp hfull, map_nil]

/-- **A cell is returned to the slab at its page**, whose checks it passes. -/
theorem freeIn_spec {addr e : UInt64} (hone : ∃ slab ∈ slabs, slab.address = addr &&& kSlabMask)
    (hfree : ∀ slab ∈ slabs, slab.address = addr &&& kSlabMask →
      slab.elemSize = e ∧ slab.free addr = some { slab with firstFree := addr :: slab.firstFree }) :
    ∃ slabs', freeIn addr slabs = some slabs' ∧ slabs'.map Slab.shape = slabs.map Slab.shape ∧
      List.Perm (freeCells slabs') ((addr, e) :: freeCells slabs) := by
  induction slabs with
  | nil => simp at hone
  | cons slab slabs ih =>
    unfold freeIn
    by_cases hhere : slab.address = addr &&& kSlabMask
    · obtain ⟨rfl, hslab⟩ := hfree slab mem_cons_self hhere
      refine ⟨{ slab with firstFree := addr :: slab.firstFree } :: slabs, by rw [if_pos hhere, hslab]; rfl, rfl, ?_⟩
      exact List.Perm.refl _
    have hone' : ∃ slab ∈ slabs, slab.address = addr &&& kSlabMask := by
      obtain ⟨slab', hslab', haddress⟩ := hone
      rcases mem_cons.mp hslab' with rfl | hslab'
      exacts [absurd haddress hhere, ⟨slab', hslab', haddress⟩]
    obtain ⟨slabs', hrest, hshape, hperm⟩ :=
      ih hone' fun s hs => hfree s (mem_cons_of_mem _ hs)
    refine ⟨slab :: slabs', by rw [if_neg hhere, hrest]; rfl, ?_, ?_⟩
    · rw [map_cons, map_cons, hshape]
    · simp only [freeCells, flatMap_cons] at hperm ⊢
      exact (hperm.append_left _).trans perm_middle

end SlabAllocator

/-- An element of a slab passes the checks of `Free`. -/
theorem Slab.free_of_mem {s : Slab} (he : s.elemSize ∈ elemSizes) (h : Slab.Placed s.address) {addr : UInt64}
    (haddr : addr ∈ (Slab.create s.elemSize s.address).firstFree) :
    addr &&& kSlabMask = s.address ∧ s.free addr = some { s with firstFree := addr :: s.firstFree } := by
  obtain ⟨hlow, hhigh, hdvd⟩ := Slab.mem_create he h haddr
  obtain ⟨haligned, hfit⟩ := h
  obtain ⟨-, -, -, -, hmin, hmax⟩ := Slab.offset_bounds _ he
  have hmask : (addr &&& kSlabMask).toNat = addr.toNat / 4096 * 4096 :=
    Word.toNat_and_not_low (k := 12) (by decide) rfl
  have hcontained : s.isContained addr = true := by
    simp only [Slab.isContained, Bool.and_eq_true, decide_eq_true_eq, gt_iff_lt, UInt64.lt_iff_toNat_lt,
      UInt64.toNat_add, kSlabSize, UInt64.reduceToNat]
    omega
  have helem : addr &&& ~~~(s.elemSize - 1) = addr := by
    obtain ⟨k, hk, hlow, hpow⟩ := Slab.elemSizes_pow _ he
    rw [mem_range] at hk
    rw [← UInt64.toNat_inj, Word.toNat_and_not_low (by omega) hlow, ← hpow]
    exact Nat.div_mul_cancel hdvd
  refine ⟨?_, ?_⟩
  · rw [← UInt64.toNat_inj, hmask]
    unfold PageAligned at haligned
    omega
  · rw [Slab.free, hcontained, if_neg (by decide), if_neg (by rw [helem]; simp)]

end Acadia.Zion
