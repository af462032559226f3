import Acadia.Zion.Memory.KernelHeapSpec

/-! # Runs of the kernel heap

The allocations of any run of `operator new` and `operator delete` are tracked with the allocator that handed them
out. The checks of the two regions do not hold them apart: the one for slabs compares with the end of the large
region, and the one for large allocations adds in 64 bits. In a run that stays away from these two (`Safe`), every
allocation is resident, in its region and apart from the others, and `IsSlab` tells which allocator it came
from. -/

namespace Acadia.Zion

open Runs RadixTable List UInt64 Option
open LawfulPageAllocator (available)

open scoped Word

/-- An allocation. -/
structure Block where
  addr : UInt64
  size : UInt64
  /-- The allocator that handed it out. -/
  origin : Origin
  deriving DecidableEq

/-- The cell of an allocation, if it is from a slab. -/
def Block.cell (b : Block) : Option Cell :=
  match b.origin with
  | .slab elemSize => some (b.addr, elemSize)
  | .large => none

/-- Two allocations do not overlap. -/
def Block.Disjoint (b c : Block) : Prop :=
  b.addr.toNat + b.size.toNat ≤ c.addr.toNat ∨ c.addr.toNat + c.size.toNat ≤ b.addr.toNat

/-- Two cells do not overlap. -/
def Apart (c d : Cell) : Prop :=
  c.1.toNat + c.2.toNat ≤ d.1.toNat ∨ d.1.toNat + d.2.toNat ≤ c.1.toNat

namespace KernelHeap

variable {A : Type}

/-- The places and sizes of all slabs. -/
def shapes (h : KernelHeap A) : List (UInt64 × UInt64) :=
  h.slabAllocators.flatMap fun a => a.slabs.map Slab.shape

/-- The free cells of all slabs. -/
def freeCells (h : KernelHeap A) : List Cell :=
  h.slabAllocators.flatMap fun a => SlabAllocator.freeCells a.slabs

/-- All cells of slabs at these places. -/
def cellsOf (shapes : List (UInt64 × UInt64)) : List Cell :=
  shapes.flatMap fun x => Slab.cellsAt x.1 x.2

/-- The slabs of one place each lie below a bound in the slab region. -/
structure Arranged (shapes : List (UInt64 × UInt64)) (bound : Nat) : Prop where
  nodup : (shapes.map Prod.fst).Nodup
  /-- Slabs are at page addresses of the slab region. -/
  placed : ∀ x ∈ shapes, PageAligned x.1 ∧ kKernelSlabHeapStart.toNat ≤ x.1.toNat ∧
    x.1.toNat + 4096 ≤ bound
  /-- Their elements have one of the sizes. -/
  elemSize : ∀ x ∈ shapes, x.2 ∈ elemSizes

/-- **The slabs and the live allocations from them.** -/
structure SlabInv (h : KernelHeap A) (live : List Block) : Prop where
  /-- There is one allocator for each size. -/
  sizes : h.slabAllocators.map SlabAllocator.elemSize = elemSizes
  /-- Its slabs are for its size. -/
  elems : ∀ a ∈ h.slabAllocators, ∀ s ∈ a.slabs, s.elemSize = a.elemSize
  /-- The slabs have places of their own. -/
  arranged : Arranged h.shapes h.nextSlabHeapPage.toNat
  /-- The next slab goes to a page address of the slab region, or to its end. -/
  next : PageAligned h.nextSlabHeapPage ∧ kKernelSlabHeapStart ≤ h.nextSlabHeapPage ∧
    h.nextSlabHeapPage ≤ kKernelSlabHeapEnd
  /-- Every cell is free or live. -/
  cells : h.freeCells ++ live.filterMap Block.cell ~ cellsOf h.shapes
  /-- An allocation fits its cell. -/
  small : ∀ b ∈ live, ∀ e, b.origin = .slab e → b.size ≤ e
  /-- The slabs are resident. -/
  resident : Resident h.machine.memory h.cr3 kKernelSlabHeapStart.toNat h.nextSlabHeapPage.toNat

/-- **The large region and the live allocations from it.** -/
structure LargeInv (h : KernelHeap A) (live : List Block) : Prop where
  /-- The next allocation goes to the region, or to its end. -/
  next : kKernelBuddyHeapStart ≤ h.nextAddr ∧ h.nextAddr ≤ kKernelBuddyHeapEnd
  /-- The allocations lie before the next one, and are resident. -/
  placed : ∀ b ∈ live, b.origin = .large → kKernelBuddyHeapStart.toNat ≤ b.addr.toNat ∧
    b.addr.toNat + b.size.toNat ≤ h.nextAddr.toNat ∧
    Resident h.machine.memory h.cr3 b.addr.toNat (b.addr.toNat + b.size.toNat)
  /-- They do not overlap. -/
  apart : live.Pairwise fun b c => b.origin = .large → c.origin = .large → b.Disjoint c

/-- **The invariant of the heap**, with the live allocations. -/
structure Inv [LawfulPageAllocator A] (h : KernelHeap A) (live : List Block) : Prop where
  tables : KernelTables [0xFE8] h.machine.memory h.cr3
    (available h.machine.allocator)
  slab : SlabInv h live
  large : LargeInv h live

/-! ## Cells do not overlap -/

theorem mem_cellsAt {x : UInt64 × UInt64} (he : x.2 ∈ elemSizes) (hx : Slab.Placed x.1) {c : Cell}
    (hc : c ∈ Slab.cellsAt x.1 x.2) : c.2 = x.2 ∧ c.1 ∈ (Slab.create x.2 x.1).firstFree ∧
      x.1.toNat + 56 ≤ c.1.toNat ∧ c.1.toNat + c.2.toNat ≤ x.1.toNat + 4096 := by
  obtain ⟨addr, haddr, rfl⟩ := mem_map.mp hc
  obtain ⟨hlow, hhigh, -⟩ := Slab.mem_create he hx haddr
  exact ⟨rfl, haddr, hlow, hhigh⟩

namespace Arranged

variable {shapes : List (UInt64 × UInt64)} {bound : Nat}

theorem slab_placed (h : Arranged shapes bound) (hbound : bound ≤ kKernelSlabHeapEnd.toNat)
    {x : UInt64 × UInt64} (hx : x ∈ shapes) : Slab.Placed x.1 := by
  obtain ⟨haligned, -, hend⟩ := h.placed x hx
  rw [show kKernelSlabHeapEnd.toNat = 0xFFFFFFFF60000000 from rfl] at hbound
  exact ⟨haligned, by omega⟩

/-- **The cells of all slabs do not overlap.** -/
theorem pairwise_cells (h : Arranged shapes bound) (hbound : bound ≤ kKernelSlabHeapEnd.toNat) :
    (cellsOf shapes).Pairwise Apart := by
  rw [cellsOf, pairwise_flatMap]
  refine ⟨fun x hx => ?_, ?_⟩
  · rw [Slab.cellsAt, pairwise_map]
    exact (Slab.pairwise_create (h.elemSize x hx) (h.slab_placed hbound hx)).imp Or.inl
  -- slabs at different page addresses are different pages
  have hpages := pairwise_map.mp h.nodup
  refine List.Pairwise.imp_of_mem ?_ hpages
  intro x y hx hy hne c hc d hd
  obtain ⟨-, -, hclow, hchigh⟩ := mem_cellsAt (h.elemSize x hx) (h.slab_placed hbound hx) hc
  obtain ⟨-, -, hdlow, hdhigh⟩ := mem_cellsAt (h.elemSize y hy) (h.slab_placed hbound hy) hd
  have hxa := (h.placed x hx).1
  have hya := (h.placed y hy).1
  have hnat : x.1.toNat ≠ y.1.toNat := fun heq => hne (UInt64.toNat_inj.mp heq)
  unfold PageAligned at hxa hya
  unfold Apart
  omega

end Arranged

/-! ## Pages of the heap -/

theorem inKernel_of_entry {pdp : List UInt64} {entry v : UInt64} (hmem : entry ∈ pdp)
    (hlow : 0xFFFFFF8000000000 ≤ v.toNat) (hentry : 8 * (v.toNat / 2 ^ 30 % 512) = entry.toNat) : InKernel pdp v := by
  refine ⟨le_iff_toNat_le.mpr hlow, ?_⟩
  have heq : shiftForEntryIndexing v 30 = entry :=
    UInt64.toNat_inj.mp ((toNat_shiftForEntryIndexing v (by decide)).trans hentry)
  rwa [heq]

theorem inKernel_heap {pdp : List UInt64} (hmem : 0xFE8 ∈ pdp) {v : UInt64}
    (hlow : kKernelSlabHeapStart ≤ v) (hhigh : v < kKernelBuddyHeapEnd) : InKernel pdp v := by
  simp only [kKernelSlabHeapStart, kKernelBuddyHeapEnd, le_iff_toNat_le, lt_iff_toNat_lt, UInt64.reduceToNat] at *
  refine inKernel_of_entry hmem (by omega) ?_
  simp only [UInt64.reduceToNat]
  omega

theorem resident_of_kept {memory memory' : Memory} {cr3 : UInt64} {page : UInt64 → Prop} {lo hi : Nat}
    (hkept : Kept [0xFE8] memory memory' cr3 page) (hlo : kKernelSlabHeapStart.toNat ≤ lo)
    (hhi : hi ≤ kKernelBuddyHeapEnd.toNat) (h : Resident memory cr3 lo hi) : Resident memory' cr3 lo hi := by
  intro v hvlo hvhi
  refine hkept.resident v (inKernel_heap mem_cons_self ?_ ?_) (h v hvlo hvhi)
  · exact le_iff_toNat_le.mpr (hlo.trans hvlo)
  · exact lt_iff_toNat_lt.mpr (hvhi.trans_le hhi)

section

variable [LawfulPageAllocator A]

/-- **`AcquireSlabHeapRegion`** makes the next page of the slab region resident. -/
theorem acquireSlabHeapRegion_spec {pdp : List UInt64} (hpdp : pdp.Nodup) (hmem : 0xFE8 ∈ pdp)
    {h h' : KernelHeap A} {page : UInt64}
    (htables : KernelTables pdp h.machine.memory h.cr3 (available h.machine.allocator))
    (haligned : PageAligned h.nextSlabHeapPage) (hlow : kKernelSlabHeapStart ≤ h.nextSlabHeapPage)
    (hroom : h.nextSlabHeapPage < kKernelSlabHeapEnd)
    (hacquire : h.acquireSlabHeapRegion kSlabSize = some (page, h')) :
    page = h.nextSlabHeapPage ∧ (page + kSlabSize).toNat = page.toNat + 4096 ∧ ∃ machine,
      h' = { h with machine, nextSlabHeapPage := page + kSlabSize } ∧
      h.machine.ensureResident h.cr3 page kSlabSize = some machine ∧
      KernelTables pdp machine.memory h.cr3 (available machine.allocator) ∧
      Resident machine.memory h.cr3 page.toNat (page.toNat + 4096) ∧
      Kept pdp h.machine.memory machine.memory h.cr3 fun p =>
        pageAlign page ≤ p ∧ p < page + kSlabSize := by
  have hroom' : _ < 0xFFFFFFFF60000000 := lt_iff_toNat_lt.mp hroom
  have hsum := toNat_add_slabSize (x := h.nextSlabHeapPage) (by omega)
  have hself := pageAlign_of_pageAligned haligned
  unfold acquireSlabHeapRegion at hacquire
  rw [if_neg (not_le.mpr (hroom.trans (by decide))), map_eq_some_iff] at hacquire
  obtain ⟨machine, hensure, hresult⟩ := hacquire
  cases hresult
  have hrange : ∀ v, pageAlign h.nextSlabHeapPage ≤ v → v < h.nextSlabHeapPage + kSlabSize → InKernel pdp v := by
    intro v hlo hhi
    rw [hself] at hlo
    refine inKernel_heap hmem (hlow.trans hlo) (hhi.trans_le ?_)
    rw [le_iff_toNat_le, hsum, show kKernelBuddyHeapEnd.toNat = 0xFFFFFFFF80000000 from rfl]
    omega
  obtain ⟨htables', hresident, hkept⟩ := ensureResident_spec hpdp htables hrange
    (by rw [show kSlabSize.toNat = 4096 from rfl]; omega) hensure
  exact ⟨rfl, hsum, machine, rfl, hensure, htables', hresident, hkept⟩

end

/-! ## The slab allocators -/

/-- The heap with other slabs in one of its allocators. -/
def withSlabs (h : KernelHeap A) (i : Nat) (a : SlabAllocator) (slabs : List Slab) : KernelHeap A :=
  { h with slabAllocators := h.slabAllocators.set i { a with slabs } }

theorem Arranged.perm {shapes shapes' : List (UInt64 × UInt64)} {bound : Nat}
    (h : Arranged shapes bound) (hperm : shapes' ~ shapes) : Arranged shapes' bound :=
  ⟨(hperm.map Prod.fst).nodup_iff.mpr h.nodup, fun x hx => h.placed x (hperm.subset hx),
    fun x hx => h.elemSize x (hperm.subset hx)⟩

variable {e : UInt64}

/-- **One more slab** at the bound. -/
theorem Arranged.cons {shapes : List (UInt64 × UInt64)} {page : UInt64} {bound : Nat} (h : Arranged shapes page.toNat)
    (he : e ∈ elemSizes) (haligned : PageAligned page) (hlow : kKernelSlabHeapStart ≤ page)
    (hbound : bound = page.toNat + 4096) : Arranged ((page, e) :: shapes) bound := by
  refine ⟨?_, ?_, ?_⟩
  · rw [map_cons, nodup_cons]
    refine ⟨fun hmem => ?_, h.nodup⟩
    -- the slabs there are lie below the new page
    obtain ⟨x, hx, heq⟩ := mem_map.mp hmem
    have hbelow := (h.placed x hx).2.2
    rw [heq] at hbelow
    exact absurd hbelow (by simp)
  · intro x hx
    rcases mem_cons.mp hx with rfl | hx
    · exact ⟨haligned, le_iff_toNat_le.mp hlow, by rw [hbound]⟩
    · obtain ⟨halign, hstart, hend⟩ := h.placed x hx
      exact ⟨halign, hstart, by omega⟩
  · intro x hx
    rcases mem_cons.mp hx with rfl | hx
    exacts [he, h.elemSize x hx]

namespace SlabInv

variable {h : KernelHeap A} {live live' : List Block} {i : Nat} {a : SlabAllocator}
  {slabs : List Slab}

theorem elemSize_mem (inv : SlabInv h live) (ha : a ∈ h.slabAllocators) : a.elemSize ∈ elemSizes := by
  rw [← inv.sizes]
  exact mem_map_of_mem ha

/-- **The slabs of one allocator change**: `new` are added to those that were there, and their cells
to the ones that are free or live. -/
theorem withSlabs (inv : SlabInv h live) (hi : h.slabAllocators[i]? = some a)
    (new : List (UInt64 × UInt64)) (hshape : slabs.map Slab.shape = new ++ a.slabs.map Slab.shape)
    (helems : ∀ x ∈ new, x.2 = a.elemSize) {machine : Machine A} {next : UInt64}
    (harranged : Arranged (new ++ h.shapes) next.toNat)
    (hnext : PageAligned next ∧ kKernelSlabHeapStart ≤ next ∧ next ≤ kKernelSlabHeapEnd)
    (hcells : SlabAllocator.freeCells slabs ++ live'.filterMap Block.cell ~
      SlabAllocator.freeCells a.slabs ++ (cellsOf new ++ live.filterMap Block.cell))
    (hsmall : ∀ b ∈ live', ∀ e, b.origin = .slab e → b.size ≤ e)
    (hresident : Resident machine.memory h.cr3 kKernelSlabHeapStart.toNat next.toNat) :
    SlabInv ({ h with machine, nextSlabHeapPage := next }.withSlabs i a slabs) live' := by
  have hshapes : List.Perm ({ h with machine, nextSlabHeapPage := next }.withSlabs i a slabs).shapes
      (new ++ h.shapes) := by
    have hset : a.slabs.map Slab.shape ++ _ ~ slabs.map Slab.shape ++ _ :=
      ListUpdate.flatMap_set_perm (f := fun a => a.slabs.map Slab.shape) { a with slabs } hi
    rw [hshape, append_assoc] at hset
    refine (perm_append_left_iff (a.slabs.map Slab.shape)).mp (hset.trans ?_)
    exact perm_append_comm_assoc _ _ _
  have hfree : SlabAllocator.freeCells a.slabs ++ _ ~ SlabAllocator.freeCells slabs ++ _ :=
    ListUpdate.flatMap_set_perm (f := fun a => SlabAllocator.freeCells a.slabs) { a with slabs } hi
  refine ⟨?_, ?_, harranged.perm hshapes, hnext, ?_, hsmall, hresident⟩
  · rw [← inv.sizes]
    exact ListUpdate.map_set_of_eq hi rfl
  · intro b hb s hs
    rcases mem_or_eq_of_mem_set hb with hb | rfl
    · exact inv.elems b hb s hs
    -- a slab of the changed allocator is a new one or has the shape of an old one
    have hmem : s.shape ∈ new ++ a.slabs.map Slab.shape := hshape ▸ mem_map_of_mem hs
    rcases mem_append.mp hmem with hmem | hmem
    · exact helems _ hmem
    · obtain ⟨s', hs', heq⟩ := mem_map.mp hmem
      have hsize : s'.elemSize = s.elemSize := congrArg Prod.snd heq
      rw [← hsize]
      exact inv.elems a (mem_of_getElem? hi) s' hs'
  · have hall : cellsOf _ ~ cellsOf (new ++ h.shapes) := hshapes.flatMap_right _
    refine List.Perm.trans ?_ hall.symm
    have hold := inv.cells
    rw [cellsOf, flatMap_append, perm_iff_count]
    rw [perm_iff_count] at hfree hcells hold
    intro c
    have h1 := hfree c
    have h2 := hcells c
    have h3 := hold c
    simp only [count_append, freeCells, KernelHeap.withSlabs, cellsOf] at h1 h2 h3 ⊢
    omega

/-- **A slab that is not full gives a cell.** -/
theorem allocateFirst (inv : SlabInv h live) (hi : h.slabAllocators[i]? = some a) {entry size : UInt64}
    (hsize : size ≤ a.elemSize) (hfirst : SlabAllocator.allocateFirst a.slabs = some (entry, slabs)) :
    SlabInv (h.withSlabs i a slabs) (⟨entry, size, .slab a.elemSize⟩ :: live) := by
  obtain ⟨hshape, slab, hslab, hperm⟩ := SlabAllocator.allocateFirst_spec hfirst
  rw [inv.elems a (mem_of_getElem? hi) slab hslab] at hperm
  refine inv.withSlabs hi [] hshape (fun x hx => absurd hx not_mem_nil) inv.arranged inv.next ?_ ?_ inv.resident
  · rw [filterMap_cons_some (show Block.cell _ = some (entry, a.elemSize) from rfl)]
    exact perm_middle.trans (hperm.append_right _).symm
  · intro b hb e he
    rcases mem_cons.mp hb with rfl | hb
    · cases he
      exact hsize
    · exact inv.small b hb e he

/-- **A new slab** gives its first cell. -/
theorem newSlab (inv : SlabInv h live) (hi : h.slabAllocators[i]? = some a) {entry size : UInt64}
    (hsize : size ≤ a.elemSize) {machine : Machine A} {slab : Slab}
    (hcreate : (Slab.create a.elemSize h.nextSlabHeapPage).allocate = some (entry, slab))
    (hroom : h.nextSlabHeapPage < kKernelSlabHeapEnd)
    (hsum : (h.nextSlabHeapPage + kSlabSize).toNat = h.nextSlabHeapPage.toNat + 4096)
    (hkept : Resident machine.memory h.cr3 kKernelSlabHeapStart.toNat h.nextSlabHeapPage.toNat)
    (hresident : Resident machine.memory h.cr3 h.nextSlabHeapPage.toNat (h.nextSlabHeapPage.toNat + 4096)) :
    SlabInv ({ h with machine, nextSlabHeapPage := h.nextSlabHeapPage + kSlabSize }.withSlabs i a
      (slab :: a.slabs)) (⟨entry, size, .slab a.elemSize⟩ :: live) := by
  obtain ⟨haligned, hlow, -⟩ := inv.next
  obtain ⟨hfree, hshape⟩ := Slab.allocate_spec hcreate
  have helem : slab.elemSize = a.elemSize := congrArg Prod.snd hshape
  have hnew : Slab.freeCells slab ++ [(entry, a.elemSize)] ~ cellsOf [(h.nextSlabHeapPage, a.elemSize)] := by
    rw [cellsOf, flatMap_cons, flatMap_nil, append_nil, Slab.cellsAt, hfree, map_cons, Slab.freeCells, helem]
    exact perm_append_singleton _ _
  have hmem := mem_of_getElem? hi
  refine inv.withSlabs hi [(h.nextSlabHeapPage, a.elemSize)] ?_ ?_
    (inv.arranged.cons (inv.elemSize_mem hmem) haligned hlow hsum) ?_ ?_ ?_ ?_
  · rw [map_cons, hshape]
    rfl
  · rintro x hx
    rw [mem_singleton.mp hx]
  · simp only [PageAligned, lt_iff_toNat_lt, le_iff_toNat_le, hsum, kKernelSlabHeapEnd, UInt64.reduceToNat] at *
    omega
  · rw [filterMap_cons_some (show Block.cell _ = some (entry, a.elemSize) from rfl), perm_iff_count]
    rw [perm_iff_count] at hnew
    intro c
    have hcount := hnew c
    simp only [SlabAllocator.freeCells, flatMap_cons, count_append, count_cons, count_nil] at hcount ⊢
    omega
  · intro b hb e he
    rcases mem_cons.mp hb with rfl | hb
    · cases he
      exact hsize
    · exact inv.small b hb e he
  · intro v hlo hhi
    rw [hsum] at hhi
    by_cases hold : v.toNat < h.nextSlabHeapPage.toNat
    · exact hkept v hlo hold
    · exact hresident v (not_lt.mp hold) hhi

theorem cons_large (inv : SlabInv h live) (addr size : UInt64) : SlabInv h (⟨addr, size, .large⟩ :: live) := by
  refine ⟨inv.sizes, inv.elems, inv.arranged, inv.next, ?_, ?_, inv.resident⟩
  · rw [filterMap_cons_none rfl]
    exact inv.cells
  · intro b hb e he
    rcases mem_cons.mp hb with rfl | hb
    · cases he
    · exact inv.small b hb e he

end SlabInv

/-! ## The large region -/

namespace LargeInv

variable {h h' : KernelHeap A} {live : List Block}

theorem of_kept (inv : LargeInv h live) (hcr3 : h'.cr3 = h.cr3) (hnext : h'.nextAddr = h.nextAddr)
    {page : UInt64 → Prop} (hkept : Kept [0xFE8] h.machine.memory h'.machine.memory h.cr3 page) : LargeInv h' live := by
  refine ⟨hnext ▸ inv.next, ?_, inv.apart⟩
  intro b hb hlarge
  obtain ⟨hlow, hhigh, hresident⟩ := inv.placed b hb hlarge
  rw [hnext, hcr3]
  refine ⟨hlow, hhigh, resident_of_kept hkept ?_ ?_ hresident⟩
  · exact le_trans (by decide) hlow
  · exact hhigh.trans (le_iff_toNat_le.mp inv.next.2)

theorem cons_slab (inv : LargeInv h live) (addr size e : UInt64) : LargeInv h (⟨addr, size, .slab e⟩ :: live) := by
  refine ⟨inv.next, ?_, ?_⟩
  · intro b hb hlarge
    rcases mem_cons.mp hb with rfl | hb
    · cases hlarge
    · exact inv.placed b hb hlarge
  · exact pairwise_cons.mpr ⟨(fun c _ hslab => by cases hslab), inv.apart⟩

theorem of_sublist {live' : List Block} (inv : LargeInv h live) (hsub : live' <+ live) : LargeInv h live' :=
  ⟨inv.next, fun b hb => inv.placed b (hsub.subset hb), inv.apart.sublist hsub⟩

theorem round_bounds {x : UInt64} (hx : x < kKernelBuddyHeapEnd) :
    x ≤ (if x &&& 0x7 ≠ 0 then (x &&& ~~~0x7) + 0x8 else x) ∧
      (if x &&& 0x7 ≠ 0 then (x &&& ~~~0x7) + 0x8 else x) ≤ kKernelBuddyHeapEnd := by
  by_cases hlow : x &&& 0x7 ≠ 0
  · rw [if_pos hlow]
    have hx := lt_iff_toNat_lt.mp hx
    have hend : kKernelBuddyHeapEnd.toNat = 0xFFFFFFFF80000000 := rfl
    have hmask : (x &&& ~~~0x7).toNat = x.toNat / 8 * 8 :=
      Word.toNat_and_not_low (k := 3) (by decide) rfl
    simp only [le_iff_toNat_le, UInt64.toNat_add, hmask, UInt64.reduceToNat]
    omega
  · rw [if_neg hlow]
    exact ⟨le_rfl, hx.le⟩

/-- **The large region gives what comes next**, if the end of it is not beyond the last address. -/
theorem allocateLarge [LawfulPageAllocator A] (inv : LargeInv h live) {addr size : UInt64}
    (htables : KernelTables [0xFE8] h.machine.memory h.cr3 (available h.machine.allocator))
    (hwrap : h.nextAddr.toNat + size.toNat < 2 ^ 64) (halloc : h.allocateLarge size = some (addr, h')) :
    LargeInv h' (⟨addr, size, .large⟩ :: live) ∧ ∃ machine nextAddr, h' = { h with machine, nextAddr } ∧
      KernelTables [0xFE8] machine.memory h.cr3 (available machine.allocator) ∧
      Kept [0xFE8] h.machine.memory machine.memory h.cr3 fun p =>
        pageAlign h.nextAddr ≤ p ∧ p < h.nextAddr + size := by
  unfold KernelHeap.allocateLarge at halloc
  split_ifs at halloc with hend
  rw [map_eq_some_iff] at halloc
  obtain ⟨machine, hensure, hresult⟩ := halloc
  cases hresult
  have hend := not_le.mp hend
  have hsum : (h.nextAddr + size).toNat = h.nextAddr.toNat + size.toNat :=
    Word.toNat_add_of_lt hwrap
  have hend' : _ < 0xFFFFFFFF80000000 := lt_iff_toNat_lt.mp hend
  have hlow : 0xFFFFFFFF60000000 ≤ _ := le_iff_toNat_le.mp inv.next.1
  have hrange : ∀ v, pageAlign h.nextAddr ≤ v → v < h.nextAddr + size → InKernel [0xFE8] v := by
    intro v hlo hhi
    refine inKernel_heap mem_cons_self ?_ (hhi.trans hend)
    simp only [le_iff_toNat_le, toNat_pageAlign, kKernelSlabHeapStart, UInt64.reduceToNat] at *
    omega
  obtain ⟨htables', hresident, hkept⟩ :=
    ensureResident_spec (by decide) htables hrange (by omega) hensure
  obtain ⟨hround, hmax⟩ := round_bounds hend
  have hround' := le_iff_toNat_le.mp hround
  rw [hsum] at hround'
  refine ⟨⟨⟨?_, hmax⟩, ?_, ?_⟩, machine, _, rfl, htables', hkept⟩
  · refine inv.next.1.trans (le_trans ?_ hround)
    rw [le_iff_toNat_le, hsum]
    exact Nat.le_add_right _ _
  · intro b hb hlarge
    rcases mem_cons.mp hb with rfl | hb
    · exact ⟨hlow, hround', hresident⟩
    · obtain ⟨hblow, hbhigh, hbres⟩ := inv.placed b hb hlarge
      refine ⟨hblow, ?_, resident_of_kept hkept (le_trans (by decide) hblow) ?_ hbres⟩
      · exact hbhigh.trans (le_trans (Nat.le_add_right _ _) hround')
      · exact hbhigh.trans (le_iff_toNat_le.mp inv.next.2)
  · refine pairwise_cons.mpr ⟨fun b hb _ hlarge => Or.inr ?_, inv.apart⟩
    exact (inv.placed b hb hlarge).2.1

end LargeInv

/-! ## Requests keep the invariant -/

/-- The slabs for this size are full. -/
def needsSlab (h : KernelHeap A) (size : UInt64) : Bool :=
  match h.slabAllocators.find? fun a => size ≤ a.elemSize with
  | some a => a.slabs.all Slab.isFull
  | none => false

namespace Inv

variable [LawfulPageAllocator A] {h h' : KernelHeap A} {live : List Block}

/-- **An allocation from a slab allocator keeps the invariant.** -/
theorem slabAllocate (inv : Inv h live) {i : Nat} {a : SlabAllocator} {addr size : UInt64}
    (hi : h.slabAllocators[i]? = some a) (hsize : size ≤ a.elemSize)
    (hroom : SlabAllocator.allocateFirst a.slabs = none → h.nextSlabHeapPage < kKernelSlabHeapEnd)
    (halloc : h.slabAllocate i a = some (addr, h')) : Inv h' (⟨addr, size, .slab a.elemSize⟩ :: live) := by
  unfold KernelHeap.slabAllocate at halloc
  cases hfirst : SlabAllocator.allocateFirst a.slabs with
  | some found =>
    rw [hfirst] at halloc
    cases halloc
    refine ⟨inv.tables, inv.slab.allocateFirst hi hsize hfirst, ?_⟩
    apply LargeInv.cons_slab
    exact inv.large.of_kept rfl rfl (Kept.refl : Kept _ _ _ _ fun _ => False)
  | none =>
    rw [hfirst] at halloc
    simp only [bind_eq_bind, bind_eq_some_iff, Prod.exists] at halloc
    obtain ⟨page, h1, hacquire, entry, slab, hcreate, hresult⟩ := halloc
    cases hresult
    obtain ⟨haligned, hlow, -⟩ := inv.slab.next
    obtain ⟨rfl, hsum, machine, rfl, -, htables, hresident, hkept⟩ :=
      acquireSlabHeapRegion_spec (by decide) mem_cons_self inv.tables haligned hlow (hroom hfirst) hacquire
    have hold := resident_of_kept hkept le_rfl (le_trans
      (lt_iff_toNat_lt.mp (hroom hfirst)).le (by decide)) inv.slab.resident
    refine ⟨htables, inv.slab.newSlab hi hsize hcreate (hroom hfirst) hsum hold hresident, ?_⟩
    apply LargeInv.cons_slab
    exact inv.large.of_kept rfl rfl hkept

/-- **An allocation from the large region keeps the invariant.** -/
theorem allocateLarge (inv : Inv h live) {addr size : UInt64} (hwrap : h.nextAddr.toNat + size.toNat < 2 ^ 64)
    (halloc : h.allocateLarge size = some (addr, h')) : Inv h' (⟨addr, size, .large⟩ :: live) := by
  obtain ⟨hlarge, machine, nextAddr, rfl, htables, hkept⟩ :=
    inv.large.allocateLarge inv.tables hwrap halloc
  obtain ⟨-, -, hmax⟩ := inv.slab.next
  have hslab : SlabInv { h with machine, nextAddr } live :=
    ⟨inv.slab.sizes, inv.slab.elems, inv.slab.arranged, inv.slab.next, inv.slab.cells,
      inv.slab.small, resident_of_kept hkept le_rfl (le_trans (le_iff_toNat_le.mp hmax) (by decide)) inv.slab.resident⟩
  exact ⟨htables, hslab.cons_large _ _, hlarge⟩

/-- **`Allocate` keeps the invariant**, except where a new slab does not fit the slab region or the
end of a large allocation is beyond the last address. -/
theorem allocate (inv : Inv h live) {origin : Origin} {addr size : UInt64}
    (hslab : h.needsSlab size → h.nextSlabHeapPage < kKernelSlabHeapEnd)
    (hlarge : 128 < size → h.nextAddr.toNat + size.toNat < 2 ^ 64)
    (halloc : h.allocate size = some (origin, addr, h')) : Inv h' (⟨addr, size, origin⟩ :: live) := by
  unfold KernelHeap.allocate at halloc
  cases hidx : h.slabAllocators.findIdx? fun a => size ≤ a.elemSize with
  | some i =>
    rw [hidx] at halloc
    simp only [bind_eq_bind, bind_eq_some_iff, Prod.exists] at halloc
    obtain ⟨a, hi, addr, h1, hstep, hresult⟩ := halloc
    cases hresult
    obtain ⟨hlt, hfits, hbefore⟩ := List.findIdx?_eq_some_iff_getElem.mp hidx
    have hget : h.slabAllocators[i] = a := by
      rw [getElem?_eq_getElem hlt] at hi
      exact some.inj hi
    have hfind : h.slabAllocators.find? (fun a => decide (size ≤ a.elemSize)) = some a := by
      rw [List.find?_eq_some_iff_getElem]
      exact ⟨hget ▸ hfits, i, hlt, hget, fun j hj => by simpa using hbefore j hj⟩
    rw [hget, decide_eq_true_eq] at hfits
    refine inv.slabAllocate hi hfits (fun hnone => hslab ?_) hstep
    rw [needsSlab, hfind]
    exact SlabAllocator.all_isFull_of_allocateFirst_eq_none hnone
  | none =>
    rw [hidx] at halloc
    simp only [bind_eq_bind, bind_eq_some_iff, Prod.exists] at halloc
    obtain ⟨addr, h1, hstep, hresult⟩ := halloc
    cases hresult
    -- the allocator for the largest elements does not take the size
    have hlast : (128 : UInt64) ∈ h.slabAllocators.map SlabAllocator.elemSize := by
      rw [inv.slab.sizes]
      decide
    obtain ⟨a, ha, hsize⟩ := mem_map.mp hlast
    have hno := List.findIdx?_eq_none_iff.mp hidx a ha
    rw [decide_eq_false_iff_not, hsize, not_le] at hno
    exact inv.allocateLarge (hlarge hno) hstep

/-! ## Deletes -/

variable {b : Block}

theorem slab_of_live (inv : Inv h live) (hb : b ∈ live) (horigin : b.origin = .slab e) : ∃ x ∈ h.shapes, x.2 = e ∧
      b.addr ∈ (Slab.create x.2 x.1).firstFree ∧ Slab.Placed x.1 ∧ x.2 ∈ elemSizes ∧
      kKernelSlabHeapStart.toNat ≤ b.addr.toNat ∧
      b.addr.toNat + e.toNat ≤ h.nextSlabHeapPage.toNat := by
  have hcell : (b.addr, e) ∈ live.filterMap Block.cell := by
    refine mem_filterMap.mpr ⟨b, hb, ?_⟩
    rw [Block.cell, horigin]
  have hall := inv.slab.cells.subset (mem_append_right _ hcell)
  obtain ⟨x, hx, hin⟩ := mem_flatMap.mp hall
  have hplaced := inv.slab.arranged.slab_placed (le_iff_toNat_le.mp inv.slab.next.2.2) hx
  have he := inv.slab.arranged.elemSize x hx
  obtain ⟨hsize, hmem, hlow, hhigh⟩ := mem_cellsAt he hplaced hin
  dsimp only at hsize hmem hlow hhigh
  obtain ⟨-, hstart, hbound⟩ := inv.slab.arranged.placed x hx
  exact ⟨x, hx, hsize.symm, hmem, hplaced, he, by omega, by omega⟩

theorem isSlab_iff (inv : Inv h live) (hb : b ∈ live) : isSlab b.addr = true ↔ b.origin ≠ .large := by
  have hend : kKernelSlabHeapEnd.toNat = 0xFFFFFFFF60000000 := rfl
  rw [isSlab, Bool.and_eq_true, decide_eq_true_eq, decide_eq_true_eq, ge_iff_le, le_iff_toNat_le, lt_iff_toNat_lt]
  match horigin : b.origin with
  | .slab e =>
    obtain ⟨x, -, rfl, -, -, he, hlow, hhigh⟩ := inv.slab_of_live hb horigin
    have hnext := le_iff_toNat_le.mp inv.slab.next.2.2
    have hsize := (Slab.offset_bounds _ he).2.2.2.2.1
    exact ⟨fun _ => by simp, fun _ => ⟨hlow, by omega⟩⟩
  | .large =>
    obtain ⟨hlow, -⟩ := inv.large.placed b hb horigin
    rw [show kKernelBuddyHeapStart.toNat = 0xFFFFFFFF60000000 from rfl] at hlow
    exact ⟨fun hbounds => by omega, fun hne => absurd rfl hne⟩

/-- **A live allocation from a slab goes back to it.** -/
theorem slabFree {l1 l2 : List Block} (inv : Inv h (l1 ++ b :: l2)) (horigin : b.origin = .slab e) :
    ∃ h', h.slabFree b.addr = some h' ∧ Inv h' (l1 ++ l2) := by
  have hb : b ∈ l1 ++ b :: l2 := mem_append_right _ mem_cons_self
  have hsub : l1 ++ l2 <+ (l1 ++ b :: l2) := (sublist_cons_self b l2).append_left l1
  obtain ⟨x, hx, rfl, hmem, hplaced, he, -⟩ := inv.slab_of_live hb horigin
  -- the only slab at the page of the address is the one that handed it out
  have hmask : b.addr &&& kSlabMask = x.1 :=
    (Slab.free_of_mem (s := ⟨x.1, x.2, []⟩) he hplaced hmem).1
  have hshape : ∀ a ∈ h.slabAllocators, ∀ s ∈ a.slabs, s.address = b.addr &&& kSlabMask → s.shape = x := by
    intro a ha s hs haddr
    refine inj_on_of_nodup_map inv.slab.arranged.nodup ?_ hx (haddr.trans hmask)
    exact mem_flatMap.mpr ⟨a, ha, mem_map_of_mem hs⟩
  obtain ⟨a0, ha0, hx0⟩ := mem_flatMap.mp hx
  obtain ⟨s0, hs0, hshape0⟩ := mem_map.mp hx0
  have hsome : (h.slabAllocators.findIdx? fun a =>
      a.slabs.any fun s => decide (s.address = b.addr &&& kSlabMask)).isSome := by
    rw [List.findIdx?_isSome, List.any_eq_true]
    refine ⟨a0, ha0, any_eq_true.mpr ⟨s0, hs0, ?_⟩⟩
    rw [decide_eq_true_eq, hmask, ← hshape0]
    rfl
  obtain ⟨i, hidx⟩ := isSome_iff_exists.mp hsome
  obtain ⟨hlt, hany, -⟩ := List.findIdx?_eq_some_iff_getElem.mp hidx
  have hi : h.slabAllocators[i]? = some h.slabAllocators[i] := getElem?_eq_getElem hlt
  generalize h.slabAllocators[i] = a at hany hi
  have ha := mem_of_getElem? hi
  obtain ⟨s, hs, hhere⟩ := any_eq_true.mp hany
  obtain ⟨slabs, hfree, hsame, hperm⟩ := SlabAllocator.freeIn_spec (e := x.2)
    ⟨s, hs, of_decide_eq_true hhere⟩ fun s hs haddr => by
      have hx := hshape a ha s hs haddr
      subst hx
      exact ⟨rfl, (Slab.free_of_mem he hplaced hmem).2⟩
  refine ⟨h.withSlabs i a slabs, ?_, inv.tables, ?_, ?_⟩
  · unfold KernelHeap.slabFree
    rw [hidx]
    simp only [bind_eq_bind, bind_some, hi, hfree]
    rfl
  · refine inv.slab.withSlabs hi [] hsame (fun y hy => absurd hy not_mem_nil)
      inv.slab.arranged inv.slab.next ?_ ?_ inv.slab.resident
    · have hcell : Block.cell b = some (b.addr, x.2) := by rw [Block.cell, horigin]
      rw [filterMap_append, filterMap_append, filterMap_cons_some hcell]
      refine (hperm.append_right _).trans ?_
      exact perm_middle.symm.trans ((perm_middle.symm).append_left _)
    · exact fun c hc => inv.slab.small c (hsub.subset hc)
  · exact (inv.large.of_sublist hsub).of_kept rfl rfl (Kept.refl : Kept _ _ _ _ fun _ => False)

/-- **`operator delete` keeps the invariant** for the live allocations that remain. -/
theorem delete {l1 l2 : List Block} (inv : Inv h (l1 ++ b :: l2)) :
    ∃ h', h.delete b.addr = some h' ∧ Inv h' (l1 ++ l2) := by
  have hb : b ∈ l1 ++ b :: l2 := mem_append_right _ mem_cons_self
  have hsub : l1 ++ l2 <+ (l1 ++ b :: l2) := (sublist_cons_self b l2).append_left l1
  unfold KernelHeap.delete
  match horigin : b.origin with
  | .slab e =>
    have hslab : isSlab b.addr = true := (inv.isSlab_iff hb).mpr (by rw [horigin]; simp)
    rw [if_pos hslab]
    exact inv.slabFree horigin
  | .large =>
    have hslab : ¬ isSlab b.addr = true := fun h => (inv.isSlab_iff hb).mp h horigin
    rw [if_neg hslab]
    refine ⟨h, rfl, inv.tables, ⟨inv.slab.sizes, inv.slab.elems, inv.slab.arranged, inv.slab.next,
      ?_, fun c hc => inv.slab.small c (hsub.subset hc), inv.slab.resident⟩,
      inv.large.of_sublist hsub⟩
    have hcells := inv.slab.cells
    have hcell : Block.cell b = none := by rw [Block.cell, horigin]
    rwa [filterMap_append, filterMap_cons_none hcell, ← filterMap_append] at hcells

end Inv

theorem inv_fresh [LawfulPageAllocator A] {machine : Machine A} {cr3 : UInt64}
    (htables : KernelTables [0xFE8] machine.memory cr3 (available machine.allocator)) : Inv { machine, cr3 } [] := by
  have hslab : SlabInv { machine, cr3 } [] := by
    refine ⟨rfl, by simp, ⟨nodup_nil, ?_, ?_⟩, ?_, List.Perm.refl _, by simp, ?_⟩
    · exact fun x hx => absurd hx not_mem_nil
    · exact fun x hx => absurd hx not_mem_nil
    · show PageAligned kKernelSlabHeapStart ∧ kKernelSlabHeapStart ≤ kKernelSlabHeapStart ∧
        kKernelSlabHeapStart ≤ kKernelSlabHeapEnd
      decide
    · exact fun v hlo hhi => absurd (hlo.trans_lt hhi) (lt_irrefl _)
  have hnext : kKernelBuddyHeapStart ≤ kKernelBuddyHeapStart ∧ kKernelBuddyHeapStart ≤ kKernelBuddyHeapEnd := by decide
  exact ⟨htables, hslab, hnext, by simp, List.Pairwise.nil⟩

end KernelHeap

/-! ## Runs -/

/-- The heap, with the allocations that are live. -/
structure TrackedHeap (A : Type) where
  heap : KernelHeap A
  /-- The allocations that were not deleted, the last one first. -/
  live : List Block := []

namespace TrackedHeap

/-- One use of the heap; `none` is a panic. -/
def step {A : Type} [PageAllocator A] (t : TrackedHeap A) : HeapRequest → Option (TrackedHeap A)
  | .new size => (t.heap.allocate size).map fun (origin, addr, heap) =>
    ⟨heap, ⟨addr, size, origin⟩ :: t.live⟩
  | .delete addr => (t.heap.delete addr).map fun heap =>
    ⟨heap, t.live.eraseP fun b => b.addr = addr⟩

/-- **Where the checks of the heap are enough**: a new slab is only needed while the slab region has
room, the end of a large allocation is not beyond the last address, and deletes are of live
pointers. -/
def Safe {A : Type} (t : TrackedHeap A) : HeapRequest → Prop
  | .new size => (t.heap.needsSlab size → t.heap.nextSlabHeapPage < kKernelSlabHeapEnd) ∧
    (128 < size → t.heap.nextAddr.toNat + size.toNat < 2 ^ 64)
  | .delete addr => ∃ b ∈ t.live, b.addr = addr

instance {A : Type} (t : TrackedHeap A) (r : HeapRequest) : Decidable (t.Safe r) := by
  cases r <;> unfold Safe <;> infer_instance

variable {A : Type} [LawfulPageAllocator A]

/-- **A safe use keeps the invariant.** -/
theorem step_inv {t t' : TrackedHeap A} {r : HeapRequest} (inv : t.heap.Inv t.live) (hsafe : t.Safe r)
    (hstep : t.step r = some t') : t'.heap.Inv t'.live := by
  cases r with
  | new size =>
    rw [step, map_eq_some_iff] at hstep
    obtain ⟨⟨origin, addr, heap⟩, halloc, rfl⟩ := hstep
    exact inv.allocate hsafe.1 hsafe.2 halloc
  | delete addr =>
    rw [step, map_eq_some_iff] at hstep
    obtain ⟨heap, hdelete, rfl⟩ := hstep
    obtain ⟨b0, hb0, haddr0⟩ := hsafe
    obtain ⟨b, l1, l2, -, haddr, hlive, herase⟩ :=
      exists_of_eraseP (p := fun b => decide (b.addr = addr)) hb0 (decide_eq_true haddr0)
    rw [decide_eq_true_eq] at haddr
    rw [hlive] at inv
    obtain ⟨heap', hdelete', inv'⟩ := inv.delete
    rw [haddr, hdelete, some.injEq] at hdelete'
    rw [hdelete', herase]
    exact inv'

/-- What the heap promises for an allocation. -/
structure Sound (h : KernelHeap A) (b : Block) : Prop where
  ends : b.addr.toNat + b.size.toNat < 2 ^ 64
  resident : Resident h.machine.memory h.cr3 b.addr.toNat (b.addr.toNat + b.size.toNat)
  /-- Slabs are in the slab region. -/
  slab : b.origin ≠ .large → kKernelSlabHeapStart.toNat ≤ b.addr.toNat ∧
    b.addr.toNat + b.size.toNat ≤ kKernelSlabHeapEnd.toNat
  /-- Large allocations are in the large region. -/
  large : b.origin = .large → kKernelBuddyHeapStart.toNat ≤ b.addr.toNat ∧
    b.addr.toNat + b.size.toNat ≤ kKernelBuddyHeapEnd.toNat
  /-- `operator delete` returns it to a slab exactly if it is from one. -/
  dispatch : isSlab b.addr = true ↔ b.origin ≠ .large

theorem sound_of_inv {h : KernelHeap A} {live : List Block} (inv : h.Inv live) {b : Block}
    (hb : b ∈ live) : Sound h b := by
  have hslabEnd : kKernelSlabHeapEnd.toNat = 0xFFFFFFFF60000000 := rfl
  have hend : kKernelBuddyHeapEnd.toNat = 0xFFFFFFFF80000000 := rfl
  match horigin : b.origin with
  | .slab e =>
    obtain ⟨x, -, -, -, -, -, hlow, hhigh⟩ := inv.slab_of_live hb horigin
    have hnext := le_iff_toNat_le.mp inv.slab.next.2.2
    have hsize := le_iff_toNat_le.mp (inv.slab.small b hb e horigin)
    have hresident : Resident h.machine.memory h.cr3 b.addr.toNat (b.addr.toNat + b.size.toNat) :=
      fun v hlo hhi => inv.slab.resident v (hlow.trans hlo) (by omega)
    have hnot : b.origin ≠ .large := by rw [horigin]; simp
    exact ⟨by omega, hresident, fun _ => ⟨hlow, by omega⟩, fun hlarge => absurd hlarge hnot, inv.isSlab_iff hb⟩
  | .large =>
    obtain ⟨hlow, hhigh, hresident⟩ := inv.large.placed b hb horigin
    have hnext := le_iff_toNat_le.mp inv.large.next.2
    exact ⟨by omega, hresident, fun hslab => absurd horigin hslab, fun _ => ⟨hlow, by omega⟩, inv.isSlab_iff hb⟩

theorem pairwise_of_inv {h : KernelHeap A} {live : List Block} (inv : h.Inv live) : live.Pairwise Block.Disjoint := by
  have hcells : (live.filterMap Block.cell).Pairwise Apart := by
    have hall := inv.slab.arranged.pairwise_cells (le_iff_toNat_le.mp inv.slab.next.2.2)
    have hsymm : ∀ {c d : Cell}, Apart c d → Apart d c := Or.symm
    exact (pairwise_append.mp ((inv.slab.cells.pairwise_iff hsymm).mpr hall)).2.1
  rw [pairwise_filterMap] at hcells
  refine List.Pairwise.imp_of_mem ?_ (hcells.and inv.large.apart)
  rintro b c hb hc ⟨hsmall, hlarge⟩
  have hbsound := sound_of_inv inv hb
  have hcsound := sound_of_inv inv hc
  have hborder : kKernelSlabHeapEnd.toNat = kKernelBuddyHeapStart.toNat := rfl
  unfold Block.Disjoint
  -- the regions are apart, and each holds its own allocations apart
  match hborigin : b.origin, hcorigin : c.origin with
  | .slab e, .slab e' =>
    have hapart := hsmall (b.addr, e) (by rw [Block.cell, hborigin]) (c.addr, e') (by rw [Block.cell, hcorigin])
    have hbsize := le_iff_toNat_le.mp (inv.slab.small b hb e hborigin)
    have hcsize := le_iff_toNat_le.mp (inv.slab.small c hc e' hcorigin)
    unfold Apart at hapart
    dsimp only at hapart
    omega
  | .slab e, .large =>
    have hbend := (hbsound.slab (by rw [hborigin]; simp)).2
    have hcstart := (hcsound.large hcorigin).1
    omega
  | .large, .slab e =>
    have hcend := (hcsound.slab (by rw [hcorigin]; simp)).2
    have hbstart := (hbsound.large hborigin).1
    omega
  | .large, .large => exact hlarge hborigin hcorigin

/-- **Allocations are sound in every run** that stays where the checks are enough. -/
theorem allocations_sound {machine : Machine A} {cr3 : UInt64} {requests : List HeapRequest}
    {t : TrackedHeap A} (htables : KernelTables [0xFE8] machine.memory cr3 (available machine.allocator))
    (hsafe : Meets step Safe ⟨{ machine, cr3 }, []⟩ requests)
    (hrun : run step ⟨{ machine, cr3 }, []⟩ requests = some t) :
    t.live.Pairwise Block.Disjoint ∧ ∀ b ∈ t.live, Sound t.heap b := by
  have inv : t.heap.Inv t.live := run_invariant (P := fun t : TrackedHeap A => t.heap.Inv t.live)
    (fun _ _ _ => step_inv) (KernelHeap.inv_fresh htables) hsafe hrun
  exact ⟨pairwise_of_inv inv, fun b hb => sound_of_inv inv hb⟩

/-- Page tables in which only the entry for the kernel is present. -/
def kernelOnlyMemory : Memory := fun page offset =>
  if page = 0x10000 ∧ offset = 0xFF8 then 0x81003 else 0

/-- A machine with sixteen free pages. -/
def sixteenPages : Machine PhysicalMemoryManager :=
  ⟨⟨[⟨0x100000, 16⟩], [], 0⟩, kernelOnlyMemory⟩

theorem kernelTables_sixteenPages : KernelTables [0xFE8] sixteenPages.memory 0x10000
    (available sixteenPages.allocator) := by
  exact ⟨by decide, by decide +kernel, all_iff_forall_prop.mp (by decide +kernel)⟩

/-- Two elements and a large allocation; one element is returned and handed out again. -/
theorem allocations_sound_sixteenPages :
    ∃ t, run step ⟨{ machine := sixteenPages, cr3 := 0x10000 }, []⟩ [.new 8, .new 24, .new 300,
        .delete 0xFFFFFFFF40001040, .new 32] = some t ∧
      t.live.map Block.addr = [0xFFFFFFFF40001040, 0xFFFFFFFF60000000, 0xFFFFFFFF40000038] ∧
      t.live.Pairwise Block.Disjoint ∧ ∀ b ∈ t.live, Sound t.heap b := by
  have hresult : (run step ⟨{ machine := sixteenPages, cr3 := 0x10000 }, []⟩ [.new 8, .new 24,
      .new 300, .delete 0xFFFFFFFF40001040, .new 32]).map (·.live.map Block.addr) =
      some [0xFFFFFFFF40001040, 0xFFFFFFFF60000000, 0xFFFFFFFF40000038] := by decide +kernel
  obtain ⟨t, hrun, hlive⟩ := map_eq_some_iff.mp hresult
  exact ⟨t, hrun, hlive, allocations_sound kernelTables_sixteenPages (by decide +kernel) hrun⟩

/-- **The checks of the heap do not hold its regions**. The end of a huge allocation wraps around, so
it passes the check and the next one gets the same address. A slab beyond the slab region is taken
from the large region, and its elements do not look like ones of a slab. -/
theorem checks_do_not_hold_regions :
    ((run step ⟨{ machine := sixteenPages, cr3 := 0x10000 }, []⟩ [.new 0xFFFFFFFFFFFFFFFF,
        .new 256]).map TrackedHeap.live =
      some [⟨0xFFFFFFFF60000000, 256, .large⟩, ⟨0xFFFFFFFF60000000, 0xFFFFFFFFFFFFFFFF, .large⟩]) ∧
    (({ machine := sixteenPages, cr3 := 0x10000, nextSlabHeapPage := kKernelSlabHeapEnd } :
        KernelHeap PhysicalMemoryManager).allocate 8).map (fun r => (r.1, r.2.1)) =
      some (.slab 8, 0xFFFFFFFF60000038) ∧
    isSlab 0xFFFFFFFF60000038 = false := by
  decide +kernel

end TrackedHeap

end Acadia.Zion
