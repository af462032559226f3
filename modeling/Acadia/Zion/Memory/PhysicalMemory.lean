import Acadia.Zion.Memory.Constants
import Mathlib.Data.List.Defs

/-! # `phys_mem::PhysicalMemoryManager`

The allocator of physical pages, `memory/physical_memory.cpp`. A linked list is a `List`, front first. `none`
stands for a panic, and for following the null `front_` of an empty list. A `PushFront` may call back into
`AllocatePage` for a new slab, before it touches the list: such a call is an `AllocatePage` of its own just before
the operation. -/

namespace Acadia.Zion

/-- A usable, contiguous run of pages. -/
structure MemBlock where
  base : UInt64
  numPages : UInt64
  deriving DecidableEq

/-- The `PhysicalMemoryManager`. -/
structure PhysicalMemoryManager where
  memoryBlocks : List MemBlock := []
  singleMemoryPages : List UInt64 := []
  allocatedPages : UInt64 := 0
  deriving DecidableEq

/-- An entry of the memory map that the boot loader passes. -/
structure MemmapEntry where
  base : UInt64
  length : UInt64
  /-- The type; `0` is usable memory. -/
  type : UInt64
  deriving DecidableEq

/-- What hands out physical pages: `phys_mem::AllocatePage`, which has no result when it panics. -/
class PageAllocator (A : Type) where
  allocatePage : A → Option (UInt64 × A)

/-- The `BootstrapMemory` that hands out pages until the manager exists. -/
structure BootstrapMemory where
  initPage : UInt64 := 0
  nextPage : UInt64 := 0
  /-- The page after the last one. -/
  maxPage : UInt64 := 0
  deriving DecidableEq

namespace BootstrapMemory

/-- `InitBootstrapPageAllocation`: nine pages of the first usable entry that has them. `none` leaves
the bootstrap allocator disabled. -/
def initBootstrapPageAllocation (memmap : List MemmapEntry) : Option BootstrapMemory :=
  (memmap.find? fun entry => entry.type = 0 && entry.length ≥ 0x9000).map fun entry =>
    ⟨entry.base, entry.base, entry.base + 0x9000⟩

/-- `phys_mem::AllocatePage` while there is no manager. -/
def allocatePage (bootstrap : BootstrapMemory) : Option (UInt64 × BootstrapMemory) :=
  if bootstrap.nextPage = bootstrap.maxPage then none
  else some (bootstrap.nextPage, { bootstrap with nextPage := bootstrap.nextPage + 0x1000 })

instance : PageAllocator BootstrapMemory := ⟨allocatePage⟩

end BootstrapMemory

namespace PhysicalMemoryManager

/-- `AddMemoryRegion`. -/
def addMemoryRegion (pmm : PhysicalMemoryManager) (base numPages : UInt64) :
    PhysicalMemoryManager :=
  { pmm with memoryBlocks := ⟨base, numPages⟩ :: pmm.memoryBlocks }

/-- The constructor's loop body. The entry that the bootstrap allocator took its pages from starts
with those that it has not handed out. -/
def addEntry (initPage nextPage : UInt64) (pmm : PhysicalMemoryManager) (entry : MemmapEntry) :
    PhysicalMemoryManager :=
  if entry.type = 0 then
    if entry.base = initPage then
      pmm.addMemoryRegion nextPage ((entry.length - (nextPage - initPage)) / kPageSize)
    else pmm.addMemoryRegion entry.base (entry.length / kPageSize)
  else pmm

/-- The constructor, for the values that `gBootstrap` has when it reads them. -/
def ofMemmap (memmap : List MemmapEntry) (initPage nextPage : UInt64) : PhysicalMemoryManager :=
  memmap.foldl (addEntry initPage nextPage) {}

/-- The loop that drops empty blocks from the front. -/
def dropEmptyBlocks : List MemBlock → Option (List MemBlock)
  | [] => none
  | block :: blocks => if block.numPages = 0 then dropEmptyBlocks blocks else some (block :: blocks)

/-- `AllocatePage`. -/
def allocatePage (pmm : PhysicalMemoryManager) : Option (UInt64 × PhysicalMemoryManager) :=
  match pmm.singleMemoryPages with
  | page :: pages => some (page, { pmm with singleMemoryPages := pages })
  | [] =>
    match dropEmptyBlocks pmm.memoryBlocks with
    | some (block :: blocks) =>
      let rest := { base := block.base + kPageSize, numPages := block.numPages - 1 : MemBlock }
      some (block.base, { pmm with
        memoryBlocks := if rest.numPages = 0 then blocks else rest :: blocks
        allocatedPages := pmm.allocatedPages + 1 })
    | _ => none

instance : PageAllocator PhysicalMemoryManager := ⟨allocatePage⟩

/-- The search of `AllocateContinuous` for a block with enough pages, and what is left of it. -/
def carve (numPages : UInt64) : List MemBlock → Option (UInt64 × List MemBlock)
  | [] => none
  | block :: blocks =>
    if block.numPages < numPages then
      (carve numPages blocks).map fun (page, rest) => (page, block :: rest)
    else
      some (block.base,
        ⟨block.base + numPages * kPageSize, block.numPages - numPages⟩ :: blocks)

/-- `AllocateContinuous`. -/
def allocateContinuous (pmm : PhysicalMemoryManager) (numPages : UInt64) :
    Option (UInt64 × PhysicalMemoryManager) := do
  let blocks ← dropEmptyBlocks pmm.memoryBlocks
  let (page, rest) ← carve numPages blocks
  return (page, { pmm with
    memoryBlocks := rest
    allocatedPages := pmm.allocatedPages + numPages })

/-- `FreePage`. -/
def freePage (pmm : PhysicalMemoryManager) (page : UInt64) : PhysicalMemoryManager :=
  { pmm with
    singleMemoryPages := page :: pmm.singleMemoryPages
    allocatedPages := pmm.allocatedPages - 1 }

/-- `FreePages`. -/
def freePages (pmm : PhysicalMemoryManager) (page numPages : UInt64) : PhysicalMemoryManager :=
  let pmm := pmm.addMemoryRegion page numPages
  { pmm with allocatedPages := pmm.allocatedPages - numPages }

end PhysicalMemoryManager

end Acadia.Zion
