import Acadia.Foundations.RadixTable
import Acadia.Zion.Memory.PhysicalMemory

/-! # Page tables

`memory/paging_util.cpp`. Physical memory is a function from a page and the byte offset of an entry in it to the
entry; the offset of the direct map plays no role here. The functions are generic in the allocator of physical
pages. `none` is a panic: the allocator has no page left, or the page to be mapped is present. -/

namespace Acadia.Zion

open RadixTable

/-- The entries of physical memory, by page and byte offset. -/
abbrev Memory := UInt64 → UInt64 → UInt64

/-- Physical memory and the allocator of its pages. -/
structure Machine (A : Type) where
  allocator : A
  memory : Memory

/-- `PRESENT_BIT`. -/
def presentBit : UInt64 := 0x1

/-- `READ_WRITE_BIT`. -/
def readWriteBit : UInt64 := 0x2

/-- `USER_MODE_BIT`. -/
def userModeBit : UInt64 := 0x4

/-- The bit that makes an entry above the last level map a large page; the kernel never sets it. -/
def pageSizeBit : UInt64 := 0x80

/-- What the bits of an entry mean to the processor. -/
def entryFormat : Format UInt64 UInt64 where
  present e := e &&& presentBit ≠ 0
  large e := e &&& pageSizeBit ≠ 0
  target e := e &&& ~~~0xFFF

/-- `PageAlign`. -/
def pageAlign (addr : UInt64) : UInt64 := addr &&& ~~~0xFFF

/-- `ShiftForEntryIndexing`: the byte offset in a table of the entry for an address. -/
def shiftForEntryIndexing (addr offset : UInt64) : UInt64 :=
  ((addr &&& ~~~0xFFFF000000000000) >>> offset <<< 3) &&& 0xFF8

/-- The offsets of the four levels: `PML_OFFSET`, `PDP_OFFSET`, `PD_OFFSET` and `PT_OFFSET`. -/
def entryPath (addr : UInt64) : List UInt64 :=
  [39, 30, 21, 12].map (shiftForEntryIndexing addr)

/-- **The translation of an address** by the processor: the entry that maps its page. -/
def translation (memory : Memory) (cr3 addr : UInt64) : Option (UInt64 × List UInt64) :=
  translate entryFormat memory cr3 (entryPath addr)

variable {A : Type} [PageAllocator A]

namespace Machine

/-- `AllocateAndZeroPage`. -/
def allocateAndZeroPage (s : Machine A) : Option (UInt64 × Machine A) :=
  (PageAllocator.allocatePage s.allocator).map fun (page, allocator) =>
    (page, { allocator, memory := clear s.memory page 0 })

/-- One level of `MapPage`: the next table, which is allocated if its entry is not present. -/
def nextTable (s : Machine A) (table offset accessBits : UInt64) : Option (UInt64 × Machine A) :=
  if s.memory table offset &&& presentBit = 0 then do
    let (page, s) ← s.allocateAndZeroPage
    let entry := page ||| accessBits
    return (entry &&& ~~~0xFFF, { s with memory := write s.memory table offset entry })
  else some (s.memory table offset &&& ~~~0xFFF, s)

/-- The access bits that `MapPage` gives to the entries for an address. -/
def accessBits (vaddr : UInt64) : UInt64 :=
  let higherHalf := 0xFFFF800000000000
  if vaddr &&& higherHalf ≠ higherHalf then presentBit ||| readWriteBit ||| userModeBit
  else presentBit ||| readWriteBit

/-- `MapPage`. -/
def mapPage (s : Machine A) (cr3 vaddr paddr : UInt64) : Option (Machine A) := do
  let vaddr := pageAlign vaddr
  let paddr := pageAlign paddr
  let bits := accessBits vaddr
  let (pdp, s) ← s.nextTable cr3 (shiftForEntryIndexing vaddr 39) bits
  let (pd, s) ← s.nextTable pdp (shiftForEntryIndexing vaddr 30) bits
  let (pt, s) ← s.nextTable pd (shiftForEntryIndexing vaddr 21) bits
  let offset := shiftForEntryIndexing vaddr 12
  if s.memory pt offset &&& presentBit = 0 then
    return { s with memory := write s.memory pt offset (paddr ||| bits) }
  else none

end Machine

/-- `UnmapPage`. -/
def unmapPage (memory : Memory) (cr3 vaddr : UInt64) : Memory :=
  let pml4Entry := memory cr3 (shiftForEntryIndexing vaddr 39)
  if pml4Entry &&& presentBit = 0 then memory else
  let pdpEntry := memory (pml4Entry &&& ~~~0xFFF) (shiftForEntryIndexing vaddr 30)
  if pdpEntry &&& presentBit = 0 then memory else
  let pdEntry := memory (pdpEntry &&& ~~~0xFFF) (shiftForEntryIndexing vaddr 21)
  if pdEntry &&& presentBit = 0 then memory else
  let pt := pdEntry &&& ~~~0xFFF
  let offset := shiftForEntryIndexing vaddr 12
  if memory pt offset &&& presentBit = 0 then memory
  else write memory pt offset (memory pt offset &&& ~~~presentBit)

/-- `PagePhysIfResident`, which returns `0` for a page that is not resident. -/
def pagePhysIfResident (memory : Memory) (cr3 virt : UInt64) : UInt64 :=
  let pml4Entry := memory cr3 (shiftForEntryIndexing virt 39)
  if pml4Entry &&& presentBit = 0 then 0 else
  let pdpEntry := memory (pml4Entry &&& ~~~0xFFF) (shiftForEntryIndexing virt 30)
  if pdpEntry &&& presentBit = 0 then 0 else
  let pdEntry := memory (pdpEntry &&& ~~~0xFFF) (shiftForEntryIndexing virt 21)
  if pdEntry &&& presentBit = 0 then 0 else
  let ptEntry := memory (pdEntry &&& ~~~0xFFF) (shiftForEntryIndexing virt 12)
  if ptEntry &&& presentBit = 0 then 0 else ptEntry &&& ~~~0xFFF

/-- `InitializePml4`: the entries for the kernel and for the direct map are those of the current
tables. -/
def initializePml4 (memory : Memory) (currCr3 hhdm pml4 : UInt64) : Memory :=
  let kernelOffset := shiftForEntryIndexing 0xFFFFFFFF80000000 39
  let memory := write memory pml4 kernelOffset (memory currCr3 kernelOffset)
  let hhdmOffset := shiftForEntryIndexing hhdm 39
  write memory pml4 hhdmOffset (memory currCr3 hhdmOffset)

namespace Machine

/-- `AllocatePageIfNecessary`, for the tables at `cr3`. -/
def allocatePageIfNecessary (s : Machine A) (cr3 addr : UInt64) : Option (Machine A) :=
  if pagePhysIfResident s.memory cr3 addr ≠ 0 then some s
  else do
    let (phys, allocator) ← PageAllocator.allocatePage s.allocator
    mapPage { s with allocator } cr3 addr phys

/-- The loop of `EnsureResident`. -/
def ensureLoop (cr3 max : UInt64) : Nat → Machine A → UInt64 → Option (Machine A)
  | fuel, s, addr =>
    if addr < max then
      match fuel with
      | 0 => none
      | fuel + 1 => do
        let s ← s.allocatePageIfNecessary cr3 addr
        ensureLoop cr3 max fuel s (addr + 0x1000)
    else some s

/-- `EnsureResident`. Its loop ends after one round for each page up to `max`, unless `addr` steps
over `2 ^ 64`. -/
def ensureResident (s : Machine A) (cr3 addr size : UInt64) : Option (Machine A) :=
  let max := addr + size
  let addr := pageAlign addr
  ensureLoop cr3 max ((max.toNat - addr.toNat + 0xFFF) / 0x1000) s addr

end Machine

end Acadia.Zion
