import Acadia.Zion.Lib.MemoryMappingTree
import Acadia.Zion.Memory.Paging

/-! # `AddressSpace`

`object/address_space.cpp`, with the parts of `object/memory_object.cpp`, `memory/user_stack_manager.cpp` and
`syscall/address_space.cpp` that it rests on. The system is physical memory, the memory objects with their
reference counts, and the address spaces, each named by its position. An `ErrorOr` is an `Except`. `none` stands
for a panic, a read outside an array, or a loop that does not end. -/

namespace Acadia.Zion

open Glacier

/-- A memory object on the heap. -/
structure ObjectState where
  /-- What references to the object show. -/
  object : MemoryObject
  refCount : Nat
  /-- The field `phys_page_list_` of a `VariableMemoryObject`; `0` is a page not yet allocated. -/
  physPageList : List UInt64 := []
  deriving DecidableEq

/-- The `UserStackManager`. -/
structure UserStackManager where
  nextStack : UInt64 := kUserStackMax
  freedStacks : List UInt64 := []
  deriving DecidableEq

/-- An `AddressSpace`. -/
structure AddressSpace where
  cr3 : UInt64
  userStacks : UserStackManager := {}
  nextMemmapAddr : UInt64 := 0x2000000000
  mappingTree : MemoryMappingTree := {}
  deriving DecidableEq

/-- Physical memory, the memory objects and the address spaces. -/
structure System where
  machine : Machine PhysicalMemoryManager
  /-- The memory objects, by `id`. -/
  objects : List ObjectState
  spaces : List AddressSpace

namespace UserStackManager

/-- `NewUserStack`. -/
def newUserStack (m : UserStackManager) : Option (UInt64 × UserStackManager) :=
  match m.freedStacks with
  | stack :: rest => some (stack, { m with freedStacks := rest })
  | [] =>
    let stack := m.nextStack - kUserStackSize
    if stack ≤ kUserStackMin then none else some (stack, { m with nextStack := stack })

/-- `FreeUserStack`. -/
def freeUserStack (m : UserStackManager) (stackBase : UInt64) : UserStackManager :=
  { m with freedStacks := m.freedStacks ++ [stackBase] }

end UserStackManager

namespace AddressSpace

/-- The loop of `GetNextMemMapAddr` that looks for an aligned address. -/
def alignLoop (mask : UInt64) : Nat → UInt64 → Option UInt64
  | fuel, addr =>
    if addr &&& mask ≠ 0 then
      match fuel with
      | 0 => none
      | fuel + 1 => alignLoop mask fuel (addr + kPageSize)
    else some addr

/-- `GetNextMemMapAddr`. The loop meets the address `0` after at most `2 ^ 52` rounds. -/
def getNextMemMapAddr (space : AddressSpace) (size align : UInt64) :
    Option (UInt64 × AddressSpace) := do
  if size = 0 then none
  let size := ((size - 1) &&& ~~~0xFFF) + 0x1000
  let addr ← if align > 0 then alignLoop (align - 1) (2 ^ 52) space.nextMemmapAddr
    else some space.nextMemmapAddr
  let next := addr + size
  if next ≥ 0x3000000000 then none
  return (addr, { space with nextMemmapAddr := next })

end AddressSpace

namespace System

/-! ## Memory objects -/

/-- A reference to the object is copied. -/
def acquire (s : System) (id : Nat) : System :=
  { s with objects := s.objects.modify id fun o => { o with refCount := o.refCount + 1 } }

/-- What the destructor of an object gives back to the physical memory manager. -/
def destroy (pmm : PhysicalMemoryManager) (o : ObjectState) : PhysicalMemoryManager :=
  match o.object.kind with
  | .variable => (o.physPageList.filter (· ≠ 0)).foldl (·.freePage ·) pmm
  | .fixed physicalAddr => pmm.freePages physicalAddr o.object.numPages
  | .view _ => pmm

/-- A reference to the object is dropped; the last one destroys it. -/
def release (s : System) (id : Nat) : System :=
  match s.objects[id]? with
  | none => s
  | some o =>
    if o.refCount = 1 then
      { s with
        machine := { s.machine with allocator := destroy s.machine.allocator o }
        objects := s.objects.set id { o with refCount := 0, physPageList := [] } }
    else { s with objects := s.objects.set id { o with refCount := o.refCount - 1 } }

/-- `PageNumberToPhysAddr`. A `VariableMemoryObject` allocates a page when it is first asked for. -/
def pageNumberToPhysAddr (s : System) (o : MemoryObject) (pageNum : UInt64) :
    Option (UInt64 × System) :=
  match o.kind with
  | .fixed physicalAddr => some (physicalAddr + kPageSize * pageNum, s)
  | .view physicalAddr => some (physicalAddr + kPageSize * pageNum, s)
  | .variable => do
    let state ← s.objects[o.id]?
    let page ← state.physPageList[pageNum.toNat]?
    if page = 0 then
      let (page, allocator) ← s.machine.allocator.allocatePage
      return (page, { s with
        machine := { s.machine with allocator }
        objects := s.objects.set o.id
          { state with physPageList := state.physPageList.set pageNum.toNat page } })
    else return (page, s)

/-- `PhysicalPageAtOffset`. -/
def physicalPageAtOffset (s : System) (o : MemoryObject) (offset : UInt64) :
    Option (UInt64 × System) :=
  if offset > o.size then none else s.pageNumberToPhysAddr o (offset / 0x1000)

/-! ## Mapping and faults -/

/-- `GetPhysicalPageAtVaddr`; the inner `none` is `NOT_FOUND`. -/
def getPhysicalPageAtVaddr (s : System) (space : AddressSpace) (vaddr : UInt64) :
    Option (Option UInt64 × System) := do
  match ← space.mappingTree.getMemoryMappingForAddr vaddr with
  | none => return (none, s)
  | some mapping =>
    let (page, s) ← s.physicalPageAtOffset mapping.memObject (vaddr - mapping.vaddrBase)
    return (some page, s)

/-- `HandlePageFault`: whether the fault has been resolved. -/
def handlePageFault (s : System) (i : Nat) (vaddr : UInt64) : Option (Bool × System) := do
  let space ← s.spaces[i]?
  if vaddr < kPageSize then return (false, s)
  match ← s.getPhysicalPageAtVaddr space vaddr with
  | (none, s) => return (false, s)
  | (some page, s) =>
    let machine ← s.machine.mapPage space.cr3 vaddr page
    return (true, { s with machine })

/-- `MapInMemoryObject(vaddr, mem_obj)`. An accepted mapping holds a reference to its object. -/
def mapInMemoryObject (s : System) (i : Nat) (space : AddressSpace) (vaddr : UInt64)
    (object : MemoryObject) : Option (ErrorCode × System) := do
  let (code, mappingTree) ← space.mappingTree.addInMemoryObject vaddr object
  let s := { s with spaces := s.spaces.set i { space with mappingTree } }
  if code = .ok then return (code, s.acquire object.id) else return (code, s)

/-- `AddressSpaceMap`, after its capabilities were found valid: the object with this `id` is mapped at
`vmas_offset`, or at the next aligned address if that is `0`. -/
def addressSpaceMap (s : System) (i id : Nat) (vmasOffset align : UInt64) :
    Option (Except ErrorCode UInt64 × System) := do
  let space ← s.spaces[i]?
  let state ← s.objects[id]?
  if state.refCount = 0 then none
  let (vaddr, space) ← if vmasOffset ≠ 0 then some (vmasOffset, space)
    else space.getNextMemMapAddr state.object.size align
  let (code, s) ← s.mapInMemoryObject i space vaddr state.object
  if code = .ok then return (.ok vaddr, s) else return (.error code, s)

/-! ## Unmapping -/

/-- The loop of `FreeAddressRange` over the pages of the range. -/
def unmapLoop (cr3 vaddrLimit : UInt64) : Nat → Memory → UInt64 → Option Memory
  | fuel, memory, addr =>
    if addr < vaddrLimit then
      match fuel with
      | 0 => none
      | fuel + 1 => unmapLoop cr3 vaddrLimit fuel (unmapPage memory cr3 addr) (addr + kPageSize)
    else some memory

/-- `FreeAddressRange`. The loop over the pages ends after one round for each, unless the address
steps over `2 ^ 64`. -/
def freeAddressRange (s : System) (i : Nat) (vaddrBase vaddrLimit : UInt64) (isDyingProc : Bool) :
    Option (ErrorCode × System) := do
  let space ← s.spaces[i]?
  let (code, mappingTree, destroyed) ← space.mappingTree.freeMemoryRange vaddrBase vaddrLimit
  let s := { s with spaces := s.spaces.set i { space with mappingTree } }
  if code ≠ .ok then return (code, s)
  let s := destroyed.foldl (fun s x => s.release x.memObject.id) s
  if isDyingProc then return (.ok, s)
  let memory ← unmapLoop space.cr3 vaddrLimit
    ((vaddrLimit.toNat - vaddrBase.toNat + 0xFFF) / 0x1000) s.machine.memory vaddrBase
  let memory := unmapPage memory space.cr3 vaddrLimit
  return (.ok, { s with machine := { s.machine with memory } })

/-- `AddressSpaceUnmap`, after its capability was found valid. -/
def addressSpaceUnmap (s : System) (i : Nat) (lowerAddr upperAddr : UInt64) :
    Option (ErrorCode × System) :=
  s.freeAddressRange i lowerAddr upperAddr true

/-! ## User stacks -/

/-- The `VariableMemoryObject` of a new user stack, with the reference of a local pointer. -/
def stackObject (id : Nat) : ObjectState where
  object := ⟨id, .variable, MemoryObject.variableSize kUserStackSize⟩
  refCount := 1
  physPageList := List.replicate (MemoryObject.variableSize kUserStackSize / 0x1000).toNat 0

/-- `AllocateUserStack`. The local pointer to the new object goes away when the function returns. -/
def allocateUserStack (s : System) (i : Nat) : Option (Except ErrorCode UInt64 × System) := do
  let space ← s.spaces[i]?
  let (base, userStacks) ← space.userStacks.newUserStack
  let id := s.objects.length
  let created := { s with objects := s.objects ++ [stackObject id] }
  let (code, mapped) ← created.mapInMemoryObject i { space with userStacks } base
    (stackObject id).object
  if code = ErrorCode.ok then return (.ok base, mapped.release id)
  else return (.error code, mapped.release id)

/-- `FreeUserStack`. -/
def freeUserStack (s : System) (i : Nat) (base : UInt64) : Option (ErrorCode × System) := do
  let (code, s) ← s.freeAddressRange i base (base + kUserStackSize) false
  if code ≠ .ok then return (code, s)
  let space ← s.spaces[i]?
  let userStacks := space.userStacks.freeUserStack base
  return (.ok, { s with spaces := s.spaces.set i { space with userStacks } })

/-! ## New objects -/

/-- The constructor of `AddressSpace`. -/
def createAddressSpace (s : System) (currCr3 hhdm : UInt64) : Option (Nat × System) := do
  let (cr3, machine) ← s.machine.allocateAndZeroPage
  let memory := initializePml4 machine.memory currCr3 hhdm cr3
  return (s.spaces.length, { s with
    machine := { machine with memory }
    spaces := s.spaces ++ [{ cr3 }] })

/-- A new memory object, before the first capability points to it. -/
def createMemoryObject (s : System) (kind : MemoryObjectKind) (size : UInt64)
    (physPageList : List UInt64) : Nat × System :=
  let id := s.objects.length
  (id, { s with objects := s.objects ++ [⟨⟨id, kind, size⟩, 0, physPageList⟩] })

end System

end Acadia.Zion
