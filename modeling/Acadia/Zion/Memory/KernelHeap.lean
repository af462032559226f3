import Acadia.Zion.Memory.Paging

/-! # The kernel heap

`memory/kernel_heap.cpp` and `memory/slab_allocator.cpp`, with `AcquireSlabHeapRegion` of `memory/kernel_vmm.cpp`.
A free list threaded through a slab is a `List`, first entry first; so is the list of the slabs of an allocator.
The heap is generic in the allocator of physical pages. A page allocator that keeps its own lists on the heap may
delete list nodes while it hands out a page; such a delete is one that comes right after the allocation. `none` is
a panic. -/

namespace Acadia.Zion

/-- `kSlabSize`. -/
def kSlabSize : UInt64 := 0x1000

/-- `kSlabMask`. -/
def kSlabMask : UInt64 := ~~~(kSlabSize - 1)

/-- `sizeof(Slab)`: the pointer to the virtual functions, the reference count, two list links, and
the three fields of the class. -/
def sizeofSlab : UInt64 := 56

/-- A `Slab`: a page that is divided into elements of one size. -/
structure Slab where
  /-- The address of the slab, `this`. -/
  address : UInt64
  elemSize : UInt64
  /-- The entries of the list at `first_free_`. -/
  firstFree : List UInt64
  deriving DecidableEq

namespace Slab

/-- The loop of the constructor: the entries from `entryAddr` up to `maxEntry`. There are at most
`kSlabSize / 8` of them. -/
def entryLoop (elemSize maxEntry : UInt64) : Nat → UInt64 → List UInt64
  | 0, _ => []
  | fuel + 1, entryAddr =>
    if entryAddr < maxEntry then entryAddr :: entryLoop elemSize maxEntry fuel (entryAddr + elemSize)
    else []

/-- The constructor `Slab(elem_size)` for a slab at `address`. -/
def create (elemSize address : UInt64) : Slab :=
  let firstElemOffset := (sizeofSlab - 1) / elemSize + 1
  let entryAddr := address + firstElemOffset * elemSize
  ⟨address, elemSize,
    entryAddr :: entryLoop elemSize (address + kSlabSize) 512 (entryAddr + elemSize)⟩

/-- `IsFull`. -/
def isFull (s : Slab) : Bool := s.firstFree.isEmpty

/-- `Allocate`. -/
def allocate (s : Slab) : Option (UInt64 × Slab) :=
  match s.firstFree with
  | [] => none
  | entry :: rest => some (entry, { s with firstFree := rest })

/-- `IsContained`; `sizeof(this)` is the size of a pointer. -/
def isContained (s : Slab) (addr : UInt64) : Bool :=
  addr > s.address + 8 && addr < s.address + kSlabSize

/-- `Free`. -/
def free (s : Slab) (addr : UInt64) : Option Slab :=
  if !s.isContained addr then none
  else if addr &&& ~~~(s.elemSize - 1) ≠ addr then none
  else some { s with firstFree := addr :: s.firstFree }

end Slab

/-- A `SlabAllocator`. -/
structure SlabAllocator where
  elemSize : UInt64
  slabs : List Slab := []
  deriving DecidableEq

namespace SlabAllocator

/-- The first part of `Allocate`: an element of the first slab that is not full. -/
def allocateFirst : List Slab → Option (UInt64 × List Slab)
  | [] => none
  | slab :: slabs =>
    match slab.allocate with
    | some (entry, slab) => some (entry, slab :: slabs)
    | none => (allocateFirst slabs).map fun (entry, slabs) => (entry, slab :: slabs)

/-- `SlabFree` on the slabs of one allocator, one of which is at the page of the address. -/
def freeIn (addr : UInt64) : List Slab → Option (List Slab)
  | [] => none
  | slab :: slabs =>
    if slab.address = addr &&& kSlabMask then (slab.free addr).map (· :: slabs)
    else (freeIn addr slabs).map (slab :: ·)

end SlabAllocator

/-- The `KernelHeap`, with the page tables that it makes resident and the field
`next_slab_heap_page_` of the `KernelVmm`. -/
structure KernelHeap (A : Type) where
  machine : Machine A
  /-- The root of the current page tables; all of them share the entry for the kernel. -/
  cr3 : UInt64
  nextSlabHeapPage : UInt64 := kKernelSlabHeapStart
  nextAddr : UInt64 := kKernelBuddyHeapStart
  /-- The fields `slab_8_` to `slab_128_`. -/
  slabAllocators : List SlabAllocator := [⟨8, []⟩, ⟨16, []⟩, ⟨32, []⟩, ⟨64, []⟩, ⟨128, []⟩]

/-- Which allocator handed out an address. -/
inductive Origin where
  /-- The slab allocator for this size of elements. -/
  | slab (elemSize : UInt64)
  /-- The region for large allocations. -/
  | large
  deriving DecidableEq

/-- `IsSlab`. -/
def isSlab (addr : UInt64) : Bool := addr ≥ kKernelSlabHeapStart && addr < kKernelSlabHeapEnd

namespace KernelHeap

variable {A : Type} [PageAllocator A]

/-- `AcquireSlabHeapRegion`. -/
def acquireSlabHeapRegion (h : KernelHeap A) (slabSizeBytes : UInt64) :
    Option (UInt64 × KernelHeap A) :=
  let nextSlab := h.nextSlabHeapPage
  if nextSlab ≥ kKernelBuddyHeapEnd then none
  else (h.machine.ensureResident h.cr3 nextSlab slabSizeBytes).map fun machine =>
    (nextSlab, { h with machine, nextSlabHeapPage := nextSlab + slabSizeBytes })

/-- `SlabAllocator::Allocate`, for the allocator at one position. -/
def slabAllocate (h : KernelHeap A) (i : Nat) (allocator : SlabAllocator) :
    Option (UInt64 × KernelHeap A) :=
  match SlabAllocator.allocateFirst allocator.slabs with
  | some (entry, slabs) => some (entry,
    { h with slabAllocators := h.slabAllocators.set i { allocator with slabs } })
  | none => do
    let (nextSlab, h) ← h.acquireSlabHeapRegion kSlabSize
    let (entry, slab) ← (Slab.create allocator.elemSize nextSlab).allocate
    return (entry, { h with
      slabAllocators := h.slabAllocators.set i { allocator with slabs := slab :: allocator.slabs } })

/-- The end of `Allocate`, for what no slab is for. -/
def allocateLarge (h : KernelHeap A) (size : UInt64) : Option (UInt64 × KernelHeap A) :=
  if h.nextAddr + size ≥ kKernelBuddyHeapEnd then none
  else (h.machine.ensureResident h.cr3 h.nextAddr size).map fun machine =>
    let next := h.nextAddr + size
    let next := if next &&& 0x7 ≠ 0 then (next &&& ~~~0x7) + 0x8 else next
    (h.nextAddr, { h with machine, nextAddr := next })

/-- `Allocate`, with the allocator that hands out the address: the first slab allocator whose
elements are large enough, which either has an element or panics, or the large region. -/
def allocate (h : KernelHeap A) (size : UInt64) : Option (Origin × UInt64 × KernelHeap A) :=
  match h.slabAllocators.findIdx? fun allocator => size ≤ allocator.elemSize with
  | some i => do
    let allocator ← h.slabAllocators[i]?
    let (addr, h) ← h.slabAllocate i allocator
    return (.slab allocator.elemSize, addr, h)
  | none => do
    let (addr, h) ← h.allocateLarge size
    return (.large, addr, h)

/-- `SlabFree`: the slab is the one at the page of the address; without one, what is there is no
slab. -/
def slabFree (h : KernelHeap A) (addr : UInt64) : Option (KernelHeap A) := do
  let i ← h.slabAllocators.findIdx? fun allocator =>
    allocator.slabs.any fun slab => slab.address = addr &&& kSlabMask
  let allocator ← h.slabAllocators[i]?
  let slabs ← SlabAllocator.freeIn addr allocator.slabs
  return { h with slabAllocators := h.slabAllocators.set i { allocator with slabs } }

/-- The `operator delete`. -/
def delete (h : KernelHeap A) (addr : UInt64) : Option (KernelHeap A) :=
  if isSlab addr then h.slabFree addr else some h

end KernelHeap

/-- A use of the heap. -/
inductive HeapRequest where
  | new (size : UInt64)
  | delete (addr : UInt64)
  deriving DecidableEq

end Acadia.Zion
