import Acadia.Zion.Syscall.Ipc

/-! # System calls for the other objects

`syscall/process.cpp`, `thread.cpp`, `address_space.cpp`, `memory_object.cpp`, `capability.cpp`, `synchronization.cpp` and
`debug.cpp`. The list of pages of a memory object is an array on the kernel heap; what else a call allocates there is
left out, also where it grows, as the hash map of a capability table does with its entries. So are the lists of
the scheduler: a call that waits for a thread only says so. -/

namespace Acadia.Zion.Syscall

open Glacier

/-! ## Capabilities -/

/-- `CapDuplicate`. -/
def capDuplicate (p : Nat) (capIn permMask : UInt64) : Syscall Response := do
  match ← getCapability p capIn with
  | none => fail .capNotFound
  | some cap =>
    if cap.permissions &&& kZionPermDuplicate = 0 then fail .capPermissionDenied
    else do
      let capOut ← addNewCapability p cap.obj (cap.permissions &&& permMask)
      return .word capOut

/-- `CapRelease`. -/
def capRelease (p : Nat) (cap : UInt64) : Syscall Response := do
  match ← releaseCapability p cap with
  | none => fail .capNotFound
  | some cap => do
    dropCapabilities [cap]
    return .done

/-! ## Memory -/

/-- The address space that an object is. -/
def addressSpace (o : Nat) : Syscall Nat := fun s =>
  match s.objects[o]? with
  | some (.addressSpace space) => (.ok space, s)
  | _ => (.error .panics, s)

/-- The memory object that an object is. -/
def memoryObject (o : Nat) : Syscall MemoryObject := fun s =>
  match s.objects[o]? with
  | some (.memoryObject id) =>
    match s.system.objects[id]? with
    | some state => (.ok state.object, s)
    | none => (.error .panics, s)
  | _ => (.error .panics, s)

/-- The result of a function that returns an error code. -/
def returnError (code : ErrorCode) : Syscall Unit := if code = .ok then return () else fail code

/-- `AddressSpaceMap`. -/
def addressSpaceMap (p : Nat) (vmasCap vmasOffset vmmoCap align : UInt64) : Syscall Response := do
  let vmasCap ← getCapability p vmasCap
  let vmmoCap ← getCapability p vmmoCap
  let vmasCap ← validateCapability .addressSpace vmasCap kZionPermWrite
  let vmmoCap ← validateCapability .memoryObject vmmoCap kZionPermWrite
  let vmas ← addressSpace vmasCap.obj
  let vmmo ← memoryObject vmmoCap.obj
  match ← onSystem fun s => s.addressSpaceMap vmas vmmo.id vmasOffset align with
  | .ok vaddr => return .word vaddr
  | .error code => fail code

/-- `AddressSpaceUnmap`. -/
def addressSpaceUnmap (p : Nat) (vmasCap lowerAddr upperAddr : UInt64) : Syscall Response := do
  let vmasCap ← getValidCapability p vmasCap .addressSpace kZionPermWrite
  let vmas ← addressSpace vmasCap.obj
  let code ← onSystem fun s => s.addressSpaceUnmap vmas lowerAddr upperAddr
  returnError code
  return .done

/-- The `operator new` of the kernel. -/
def heapAllocate (size : UInt64) : Syscall UInt64 := .updateSome .panics fun s => do
  let (_, addr, heap) ← { s.heap with machine := s.system.machine }.allocate size
  return (addr, { s with heap, system := { s.system with machine := heap.machine } })

/-- A new memory object, and the first capability for it. -/
def addMemoryObject (p : Nat) (kind : MemoryObjectKind) (size : UInt64) (physPageList : List UInt64)
    (permissions : UInt64) : Syscall UInt64 := do
  let id ← onSystem fun s => some (s.createMemoryObject kind size physPageList)
  let vmmo ← createObject (.memoryObject id)
  addNewCapability p vmmo permissions

/-- `MemoryObjectCreate`, with the constructor of `VariableMemoryObject`. -/
def memoryObjectCreate (p : Nat) (size : UInt64) : Syscall Response := do
  let size := MemoryObject.variableSize size
  let numPages := size / 0x1000
  let _ ← heapAllocate (numPages * 8)
  let vmmoCap ← addMemoryObject p .variable size (List.replicate numPages.toNat 0)
    ObjectType.memoryObject.defaultPermissions
  return .word vmmoCap

/-- `MemoryObjectCreatePhysical`. -/
def memoryObjectCreatePhysical (p : Nat) (paddr size : UInt64) : Syscall Response := do
  let vmmoCap ← addMemoryObject p (.view paddr) size [] ObjectType.memoryObject.defaultPermissions
  return .word vmmoCap

/-- `phys_mem::AllocateContinuous`. -/
def allocateContinuous (numPages : UInt64) : Syscall UInt64 := onSystem fun s =>
  (s.machine.allocator.allocateContinuous numPages).map fun (paddr, allocator) =>
    (paddr, { s with machine := { s.machine with allocator } })

/-- `MemoryObjectCreateContiguous`. -/
def memoryObjectCreateContiguous (p : Nat) (size : UInt64) : Syscall Response := do
  let numPages := (size - 1) / 0x1000 + 1
  let paddr ← allocateContinuous numPages
  let vmmoCap ← addMemoryObject p (.fixed paddr) size [] ObjectType.memoryObject.defaultPermissions
  return .words vmmoCap paddr

/-- `MemoryObjectDuplicate`, with the functions `Duplicate` of the subclasses. -/
def memoryObjectDuplicate (p : Nat) (vmmoCap baseOffset length : UInt64) : Syscall Response := do
  let cap ← getValidCapability p vmmoCap .memoryObject kZionPermDuplicate
  let vmmo ← memoryObject cap.obj
  match vmmo.kind with
  | .view physicalAddr =>
    if baseOffset + length > vmmo.size then fail .invalidArgument
    else do
      let newVmmoCap ← addMemoryObject p (.view (physicalAddr + baseOffset)) length []
        cap.permissions
      return .word newVmmoCap
  | _ => fail .unimplemented

/-- `MemoryObjectInspect`. -/
def memoryObjectInspect (p : Nat) (vmmoCap : UInt64) : Syscall Response := do
  let cap ← getValidCapability p vmmoCap .memoryObject kZionPermRead
  let vmmo ← memoryObject cap.obj
  return .word vmmo.size

/-! ## Processes and threads -/

/-- Another value for a process. -/
def setProcess (p : Nat) (x : Process) : Syscall Unit := .update fun s => s.setObject p (.process x)

/-- The address space of a process, unless it is gone. -/
def vmas (p : Nat) : Syscall Nat := do
  let x ← process p
  match x.vmas with
  | none => panic
  | some space => return space

/-- The constructor of `AddressSpace`, while this process runs. -/
def createAddressSpace (p : Nat) : Syscall Nat := do
  let current ← vmas p
  .updateSome .panics fun s => do
    let space ← s.system.spaces[current]?
    let (vmas, system) ← s.system.createAddressSpace space.cr3 s.hhdm
    return (vmas, { s with system })

/-- `Process::Create`, with the object for the new address space. -/
def createProcess (p : Nat) : Syscall (Nat × Nat) := do
  let space ← createAddressSpace p
  let vmas ← createObject (.addressSpace space)
  let id ← .gets Kernel.nextId
  .update fun s => { s with nextId := id + 1 }
  let proc ← createObject (.process { id, vmas := some space })
  return (proc, vmas)

/-- `ProcessSpawn`. -/
def processSpawn (p : Nat) (procCap bootstrapCap : UInt64) : Syscall Response := do
  let _ ← getValidCapability p procCap .process kZionPermSpawnProcess
  let (proc, vmas) ← createProcess p
  let newProcCap ← addNewCapability p proc ObjectType.process.defaultPermissions
  let newVmasCap ← addNewCapability p vmas ObjectType.addressSpace.defaultPermissions
  if bootstrapCap = 0 then return .spawned newProcCap newVmasCap none
  else
    match ← getCapability p bootstrapCap with
    | none => fail .capNotFound
    | some cap =>
      if !cap.hasPermissions kZionPermTransmit then fail .capPermissionDenied
      else
        match ← releaseCapability p bootstrapCap with
        | none => panic
        | some cap => do
          let newBootstrapCap ← addExistingCapability proc cap
          return .spawned newProcCap newVmasCap (some newBootstrapCap)

/-- The thread with this number; the kernel only follows pointers to threads. -/
def thread (t : Nat) : Syscall ThreadObject := fun s =>
  match s.objects[t]? with
  | some (.thread x) => (.ok x, s)
  | _ => (.error .panics, s)

/-- A plain write to `state_`. -/
def setThreadState (t : Nat) (state : ThreadState) : Syscall Unit := do
  let x ← thread t
  .update fun s => s.setObject t (.thread { x with state })

/-- `Thread::Wait`. -/
def waitThread (t : Nat) : Syscall Unit := do
  let x ← thread t
  if x.state.isDying then return () else .stop (.blocks .thread)

/-- The loop of `Process::Exit` over the threads. -/
def exitThread (t : Nat) : Syscall Unit := do
  let x ← thread t
  if x.state.isDying then return () else setThreadState t .cleanup

/-- `ProcessExit`. -/
def processExit (p : Nat) (code : UInt64) : Syscall Response := do
  let x ← process p
  setProcess p { x with state := .cleanup, exitCode := code }
  let _ ← Command.each exitThread x.threads
  .update fun s => { s with processList := s.processList ++ [p] }
  .stop .exits

/-- `ProcessWait`. -/
def processWait (p : Nat) (procCap : UInt64) : Syscall Response := do
  let cap ← getValidCapability p procCap .process kZionPermRead
  let curr ← process p
  let proc ← process cap.obj
  if proc.id = curr.id then fail .invalidArgument
  else
    match proc.threads with
    | [] => panic
    | t :: _ => do
      waitThread t
      return .word proc.exitCode

/-- `ThreadCreate`. The constructor of `Thread` uses the address space of the process. -/
def threadCreate (p : Nat) (procCap : UInt64) : Syscall Response := do
  let cap ← getValidCapability p procCap .process kZionPermSpawnThread
  let _ ← vmas cap.obj
  let parent ← process cap.obj
  let t ← createObject (.thread { process := cap.obj })
  setProcess cap.obj { parent with threads := parent.threads ++ [t] }
  let threadCap ← addNewCapability p t ObjectType.thread.defaultPermissions
  return .word threadCap

/-- `IsKernel`. -/
def isKernel (addr : UInt64) : Bool := addr &&& 0xFFFF800000000000 ≠ 0

/-- `ThreadStart`. -/
def threadStart (p : Nat) (threadCap entry arg1 arg2 : UInt64) : Syscall Response := do
  let cap ← getValidCapability p threadCap .thread kZionPermWrite
  if isKernel entry || isKernel arg1 || isKernel arg2 then fail .invalidArgument
  else do
    setThreadState cap.obj .runnable
    return .done

/-- `ThreadExit` of the current thread. -/
def threadExit (t : Nat) : Syscall Response := do
  setThreadState t .cleanup
  .stop .exits

/-- `ThreadWait`. -/
def threadWait (p : Nat) (threadCap : UInt64) : Syscall Response := do
  let cap ← getValidCapability p threadCap .thread kZionPermRead
  waitThread cap.obj
  return .done

/-- `ThreadSleep`. -/
def threadSleep (_millis : UInt64) : Syscall Response := .stop (.blocks .thread)

/-! ## Synchronization -/

/-- `MutexCreate`. -/
def mutexCreate (p : Nat) : Syscall Response := do
  let mutex ← createObject (.mutex false)
  let mutexCap ← addNewCapability p mutex ObjectType.mutex.defaultPermissions
  return .word mutexCap

/-- `Mutex::Lock`. -/
def lock (o : Nat) : Syscall Response := do
  match ← .gets fun s => s.objects[o]? with
  | some (.mutex true) => .stop (.blocks (.lock o))
  | some (.mutex false) => do
    .update fun s => s.setObject o (.mutex true)
    return .done
  | _ => panic

/-- `MutexLock`. -/
def mutexLock (p : Nat) (mutexCap : UInt64) : Syscall Response := do
  let cap ← getValidCapability p mutexCap .mutex kZionPermLock
  lock cap.obj

/-- `MutexRelease`. -/
def mutexRelease (p : Nat) (mutexCap : UInt64) : Syscall Response := do
  let cap ← getValidCapability p mutexCap .mutex kZionPermRelease
  .update fun s => s.setObject cap.obj (.mutex false)
  return .done

/-- `SemaphoreCreate`. -/
def semaphoreCreate (p : Nat) : Syscall Response := do
  let semaphore ← createObject (.semaphore 0)
  let semaphoreCap ← addNewCapability p semaphore ObjectType.semaphore.defaultPermissions
  return .word semaphoreCap

/-- `Semaphore::Wait`. -/
def wait (o : Nat) : Syscall Response := do
  match ← .gets fun s => s.objects[o]? with
  | some (.semaphore count) =>
    if count = 0 then .stop (.blocks (.semaphore o))
    else do
      .update fun s => s.setObject o (.semaphore (count - 1))
      return .done
  | _ => panic

/-- `SemaphoreWait`. -/
def semaphoreWait (p : Nat) (semaphoreCap : UInt64) : Syscall Response := do
  let cap ← getValidCapability p semaphoreCap .semaphore kZionPermWait
  wait cap.obj

/-- `SemaphoreSignal`. -/
def semaphoreSignal (p : Nat) (semaphoreCap : UInt64) : Syscall Response := do
  let cap ← getValidCapability p semaphoreCap .semaphore kZionPermSignal
  match ← .gets fun s => s.objects[cap.obj]? with
  | some (.semaphore count) => do
    .update fun s => s.setObject cap.obj (.semaphore (count + 1))
    return .done
  | _ => panic

end Acadia.Zion.Syscall
