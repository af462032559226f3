import Acadia.Foundations.Runs
import Acadia.Zion.Memory.KernelHeap

/-! # Memory at boot

What `zion()` does until `InitPhysicalMemoryManager` returns: the bootstrap allocator, the `KernelVmm` with its
first kernel stack, and the `PhysicalMemoryManager`, whose constructor pushes one list node for each usable entry
of the memory map, on a heap that takes its pages from the bootstrap allocator. `none` is a panic. -/

namespace Acadia.Zion

/-- The states of the bootstrap allocator for a region that starts at `initPage`: some of its nine
pages were handed out. -/
def BootstrapPages (initPage : UInt64) : Type :=
  { b : BootstrapMemory // ∃ n ≤ 9, b = ⟨initPage, initPage + .ofNat n * kPageSize, initPage + 0x9000⟩ }

namespace BootstrapPages

variable {initPage : UInt64}

/-- Another page is handed out only if there is one. -/
theorem allocatePage_valid {b b' : BootstrapMemory} {page : UInt64}
    (hb : ∃ n ≤ 9, b = ⟨initPage, initPage + .ofNat n * kPageSize, initPage + 0x9000⟩)
    (h : b.allocatePage = some (page, b')) :
    ∃ n ≤ 9, b' = ⟨initPage, initPage + .ofNat n * kPageSize, initPage + 0x9000⟩ := by
  obtain ⟨n, hn, rfl⟩ := hb
  rw [BootstrapMemory.allocatePage] at h
  split_ifs at h with hmax
  cases h
  refine ⟨n + 1, ?_, ?_⟩
  · -- after nine pages the next page is the last one
    by_contra hlt
    obtain rfl : n = 9 := by omega
    exact hmax rfl
  · have hstep : UInt64.ofNat (n + 1) * kPageSize = .ofNat n * kPageSize + 0x1000 := by
      rw [UInt64.ofNat_add, UInt64.add_mul]
      rfl
    rw [hstep, UInt64.add_assoc]

/-- `phys_mem::AllocatePage` while there is no manager. -/
def allocatePage (b : BootstrapPages initPage) : Option (UInt64 × BootstrapPages initPage) :=
  match h : b.1.allocatePage with
  | none => none
  | some (page, b') => some (page, ⟨b', allocatePage_valid b.2 h⟩)

instance : PageAllocator (BootstrapPages initPage) := ⟨allocatePage⟩

/-- `InitBootstrapPageAllocation`. -/
def ofMemmap {memmap : List MemmapEntry} {b : BootstrapMemory}
    (h : BootstrapMemory.initBootstrapPageAllocation memmap = some b) : BootstrapPages b.initPage :=
  ⟨b, 0, by decide, by
    obtain ⟨entry, -, rfl⟩ := Option.map_eq_some_iff.mp h
    simp⟩

end BootstrapPages

/-- The `KernelStackManager`. -/
structure KernelStackManager where
  nextStackAddr : UInt64 := kKernelStackStart
  freeStacks : List UInt64 := []
  deriving DecidableEq

/-- `sizeof(KernelStackManager)`: an address and a list. -/
def sizeofKernelStackManager : UInt64 := 24

/-- `sizeof(PhysicalMemoryManager)`: two lists and a counter. -/
def sizeofPhysicalMemoryManager : UInt64 := 40

/-- The size of a list node for a `MemBlock`. -/
def sizeofMemBlockItem : UInt64 := 24

namespace KernelHeap

section

variable {A : Type} [PageAllocator A]

/-- `KernelStackManager::AllocateKernelStack`. -/
def allocateKernelStack (h : KernelHeap A) (stackManager : KernelStackManager) :
    Option (UInt64 × KernelStackManager × KernelHeap A) :=
  match stackManager.freeStacks with
  | stack :: freeStacks => some (stack, { stackManager with freeStacks }, h)
  | [] =>
    let nextStackAddr := stackManager.nextStackAddr + kKernelStackOffset
    if nextStackAddr ≥ kKernelStackEnd then none
    else (h.machine.ensureResident h.cr3 (nextStackAddr - kKernelStackSize) kKernelStackSize).map
      fun machine => (nextStackAddr - 8, { stackManager with nextStackAddr }, { h with machine })

/-- The constructor of `KernelVmm`: the stack manager is on the heap, and gives the stack for
interrupts. -/
def initKernelVmm (h : KernelHeap A) : Option (KernelHeap A) := do
  let (_, _, h) ← h.allocate sizeofKernelStackManager
  let (_, _, h) ← h.allocateKernelStack {}
  return h

end

variable {initPage : UInt64}

/-- One round of the constructor of `PhysicalMemoryManager`. It reads `gBootstrap` and then pushes the
block, which takes a list node from the heap. -/
def addEntry (s : KernelHeap (BootstrapPages initPage) × PhysicalMemoryManager) (entry : MemmapEntry) :
    Option (KernelHeap (BootstrapPages initPage) × PhysicalMemoryManager) :=
  if entry.type = 0 then
    (s.1.allocate sizeofMemBlockItem).map fun (_, _, h) =>
      (h, s.2.addEntry initPage s.1.machine.allocator.1.nextPage entry)
  else some s

/-- `InitPhysicalMemoryManager`. -/
def initPhysicalMemoryManager (h : KernelHeap (BootstrapPages initPage)) (memmap : List MemmapEntry) :
    Option (KernelHeap (BootstrapPages initPage) × PhysicalMemoryManager) := do
  let (_, _, h) ← h.allocate sizeofPhysicalMemoryManager
  Runs.run addEntry (h, {}) memmap

end KernelHeap

/-- **The part of `zion()` that sets up memory**, with the page tables of the boot loader. Without a
region for the bootstrap allocator, the first page that the heap asks for is a panic. -/
def bootMemory (memmap : List MemmapEntry) (memory : Memory) (cr3 : UInt64) :
    Option (BootstrapMemory × PhysicalMemoryManager) :=
  match hinit : BootstrapMemory.initBootstrapPageAllocation memmap with
  | none => none
  | some _ => do
    let machine := ⟨BootstrapPages.ofMemmap hinit, memory⟩
    let h ← KernelHeap.initKernelVmm { machine, cr3 }
    let (h, pmm) ← h.initPhysicalMemoryManager memmap
    return (h.machine.allocator.1, pmm)

end Acadia.Zion
