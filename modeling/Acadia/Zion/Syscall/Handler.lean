import Acadia.Zion.Syscall.Objects

/-! # The system call handler

`SyscallHandler` of `syscall/syscall.cpp`, and the steps of the kernel: a thread makes a system call or goes on with one
in which it was blocked, an interrupt writes to its port, a page fault is handled or ends its process, and the cleanup
thread takes a process down. A panic has no next state. -/

namespace Acadia.Zion

open Glacier

/-- A system call, with the fields of its request that the kernel reads. -/
inductive Call where
  | processExit (code : UInt64)
  | processSpawn (procCap bootstrapCap : UInt64)
  | processWait (procCap : UInt64)
  | threadCreate (procCap : UInt64)
  | threadStart (threadCap entry arg1 arg2 : UInt64)
  | threadExit
  | threadWait (threadCap : UInt64)
  | threadSleep (millis : UInt64)
  | addressSpaceMap (vmasCap vmasOffset vmmoCap align : UInt64)
  | addressSpaceUnmap (vmasCap lowerAddr upperAddr : UInt64)
  | memoryObjectCreate (size : UInt64)
  | memoryObjectCreatePhysical (paddr size : UInt64)
  | memoryObjectCreateContiguous (size : UInt64)
  | memoryObjectDuplicate (vmmoCap baseOffset length : UInt64)
  | memoryObjectInspect (vmmoCap : UInt64)
  | channelCreate
  | channelSend (chanCap : UInt64) (data : List UInt8) (caps : List UInt64)
  | channelRecv (chanCap numBytes numCaps : UInt64)
  | portCreate
  | portSend (portCap : UInt64) (data : List UInt8) (caps : List UInt64)
  | portRecv (portCap numBytes numCaps : UInt64)
  | portPoll (portCap numBytes numCaps : UInt64)
  | irqRegister (irqNum : UInt64)
  | endpointCreate
  | endpointSend (endpointCap : UInt64) (data : List UInt8) (caps : List UInt64)
  | endpointRecv (endpointCap numBytes numCaps : UInt64)
  | replyPortSend (replyPortCap : UInt64) (data : List UInt8) (caps : List UInt64)
  | replyPortRecv (replyPortCap numBytes numCaps : UInt64)
  | capDuplicate (capIn permMask : UInt64)
  | capRelease (cap : UInt64)
  | mutexCreate
  | mutexLock (mutexCap : UInt64)
  | mutexRelease (mutexCap : UInt64)
  | semaphoreCreate
  | semaphoreWait (semaphoreCap : UInt64)
  | semaphoreSignal (semaphoreCap : UInt64)
  | debug (message : List UInt8)
  /-- A number that no system call has. -/
  | unhandled (callId : UInt64)
  deriving DecidableEq

/-- The calls that send: for what type of object, the capability for it, the data, and the ids. -/
def Call.sends : Call → Option (ObjectType × UInt64 × List UInt8 × List UInt64)
  | .channelSend cap data caps => some (.channel, cap, data, caps)
  | .portSend cap data caps => some (.port, cap, data, caps)
  | .endpointSend cap data caps => some (.endpoint, cap, data, caps)
  | .replyPortSend cap data caps => some (.replyPort, cap, data, caps)
  | _ => none

/-- The calls that receive, with the capability for the object. -/
def Call.receives : Call → Option UInt64
  | .channelRecv cap _ _ => some cap
  | .portRecv cap _ _ => some cap
  | .portPoll cap _ _ => some cap
  | .endpointRecv cap _ _ => some cap
  | .replyPortRecv cap _ _ => some cap
  | _ => none

open Syscall in
/-- `SyscallHandler`, for a call of the thread `t` of the process `p`. -/
def syscallHandler (t p : Nat) (call : Call) (seen : Option Reread := none) : Syscall Response :=
  match call with
  | .processExit code => processExit p code
  | .processSpawn procCap bootstrapCap => processSpawn p procCap bootstrapCap
  | .processWait procCap => processWait p procCap
  | .threadCreate procCap => threadCreate p procCap
  | .threadStart threadCap entry arg1 arg2 => threadStart p threadCap entry arg1 arg2
  | .threadExit => threadExit t
  | .threadWait threadCap => threadWait p threadCap
  | .threadSleep millis => threadSleep millis
  | .addressSpaceMap vmasCap vmasOffset vmmoCap align =>
    addressSpaceMap p vmasCap vmasOffset vmmoCap align
  | .addressSpaceUnmap vmasCap lowerAddr upperAddr =>
    addressSpaceUnmap p vmasCap lowerAddr upperAddr
  | .memoryObjectCreate size => memoryObjectCreate p size
  | .memoryObjectCreatePhysical paddr size => memoryObjectCreatePhysical p paddr size
  | .memoryObjectCreateContiguous size => memoryObjectCreateContiguous p size
  | .memoryObjectDuplicate vmmoCap baseOffset length =>
    memoryObjectDuplicate p vmmoCap baseOffset length
  | .memoryObjectInspect vmmoCap => memoryObjectInspect p vmmoCap
  | .channelCreate => channelCreate p
  | .channelSend chanCap data caps => channelSend p chanCap data caps
  | .channelRecv chanCap numBytes numCaps => channelRecv p chanCap numBytes numCaps seen
  | .portCreate => portCreate p
  | .portSend portCap data caps => portSend p portCap data caps
  | .portRecv portCap numBytes numCaps => portRecv p portCap numBytes numCaps seen
  | .portPoll portCap numBytes numCaps => portPoll p portCap numBytes numCaps seen
  | .irqRegister irqNum => irqRegister p irqNum
  | .endpointCreate => endpointCreate p
  | .endpointSend endpointCap data caps => endpointSend p endpointCap data caps
  | .endpointRecv endpointCap numBytes numCaps => endpointRecv p endpointCap numBytes numCaps seen
  | .replyPortSend replyPortCap data caps => replyPortSend p replyPortCap data caps
  | .replyPortRecv replyPortCap numBytes numCaps => replyPortRecv p replyPortCap numBytes numCaps seen
  | .capDuplicate capIn permMask => capDuplicate p capIn permMask
  | .capRelease cap => capRelease p cap
  | .mutexCreate => mutexCreate p
  | .mutexLock mutexCap => mutexLock p mutexCap
  | .mutexRelease mutexCap => mutexRelease p mutexCap
  | .semaphoreCreate => semaphoreCreate p
  | .semaphoreWait semaphoreCap => semaphoreWait p semaphoreCap
  | .semaphoreSignal semaphoreCap => semaphoreSignal p semaphoreCap
  | .debug _ => return .done
  | .unhandled _ => fail .unimplemented

namespace Syscall

/-- A thread that was blocked goes on; a queue or a lock is looked at again. -/
def goOn (waiting : Waiting) (seen : Option Reread := none) : Syscall Response :=
  match waiting with
  | .recv p o numBytes numCaps withReply => receive p o numBytes numCaps withReply seen
  | .lock o => lock o
  | .semaphore o => wait o
  | .thread => return .done

/-- `WriteMessage` of the driver manager, in an interrupt. -/
def writeMessage (irqNum : UInt64) (data : List UInt8) : Syscall Response := do
  match ← .gets fun s => s.drivers.driverMap.find irqNum with
  | none => return .done
  | some port => do
    let serial ← takeSerial
    send port ⟨serial, data, [], none⟩
    return .done

/-- `HandlePageFault`; a fault of user code that is not resolved ends the process. -/
def pageFault (p : Nat) (vaddr : UInt64) : Syscall Response := do
  let space ← vmas p
  if ← onSystem fun s => s.handlePageFault space vaddr then return .done
  else processExit p ErrorCode.internal.toUInt64

/-- `Process::Cleanup`; the cleanup of the threads is left out, as their stacks are. -/
def processCleanup (p : Nat) : Syscall Response := do
  let x ← process p
  match x.caps.releaseAll with
  | none => panic
  | some (released, caps) => do
    setProcess p { x with caps }
    dropCapabilities released
    let space ← vmas p
    let code ← onSystem fun s => s.freeAddressRange space 0 kUserSpaceMax true
    if code ≠ .ok then panic
    else do
      let x ← process p
      setProcess p { x with vmas := none, state := .finished }
      return .done

end Syscall

/-- What can happen next. -/
inductive KernelEvent where
  /-- A thread makes a system call. -/
  | call (t : Nat) (call : Call)
  /-- A thread that waits goes on, by its position among those that wait. -/
  | goOn (i : Nat)
  /-- A receive whose request another thread changes meanwhile. -/
  | callChanged (t : Nat) (call : Call) (seen : Reread)
  | goOnChanged (i : Nat) (seen : Reread)
  | irq (irqNum : UInt64) (data : List UInt8)
  /-- A page that is not present is used in user code of the process. -/
  | pageFault (p : Nat) (vaddr : UInt64)
  /-- Another exception in user code of the process, which ends it. -/
  | exception (p : Nat)
  /-- The cleanup thread takes the first process of its list. -/
  | cleanup
  deriving DecidableEq

namespace Kernel

/-- A system call, or the rest of one, comes to its end. -/
def finish : Except Stop Response × Kernel → Option Kernel
  | (.error .panics, _) => none
  | (.error (.blocks waiting), s) => some { s with waiting := s.waiting ++ [waiting] }
  | (_, s) => some s

/-- The process of a thread. -/
def processOf (s : Kernel) (t : Nat) : Option Nat :=
  match s.objects[t]? with
  | some (.thread x) => some x.process
  | _ => none

/-- What happens, and how it ends. -/
def execute (s : Kernel) : KernelEvent → Option (Except Stop Response × Kernel)
  | .call t call => (s.processOf t).map fun p => syscallHandler t p call none s
  | .goOn i => (s.waiting[i]?).map fun waiting =>
    Syscall.goOn waiting none { s with waiting := s.waiting.eraseIdx i }
  | .callChanged t call seen =>
    if call.receives.isSome then
      (s.processOf t).map fun p => syscallHandler t p call (some seen) s
    else none
  | .goOnChanged i seen => (s.waiting[i]?).map fun waiting =>
    Syscall.goOn waiting (some seen) { s with waiting := s.waiting.eraseIdx i }
  | .irq irqNum data => some (Syscall.writeMessage irqNum data s)
  | .pageFault p vaddr => some (Syscall.pageFault p vaddr s)
  | .exception p => some (Syscall.processExit p ErrorCode.internal.toUInt64 s)
  | .cleanup =>
    match s.processList with
    | [] => none
    | p :: rest => some (Syscall.processCleanup p { s with processList := rest })

/-- One step. -/
def step (s : Kernel) (e : KernelEvent) : Option Kernel := (s.execute e).bind finish

/-! ## The state after boot -/

/-- The message of `WriteKernel`: eight bytes that say what its capability is for. -/
def writeKernel (serial : Nat) (init : UInt64) (obj : Nat) (type : ObjectType) : IpcMessage :=
  ⟨serial, (List.range 8).map fun i => (init >>> (8 * i).toUInt64).toUInt8,
    [⟨serial + 1, obj, type.defaultPermissions⟩], none⟩

/-- What the messages of `LoadInitProgram` are for: the first process itself, its address space, and
memory objects. -/
def initObjects (vmmos : List (UInt64 × Nat)) : List (UInt64 × Nat × ObjectType) :=
  [(0x40000000, 5, .process), (0x40000001, 4, .addressSpace)] ++
    vmmos.mapIdx fun i vmmo => (vmmo.1, 8 + i, .memoryObject)

/-- The messages of `LoadInitProgram`. -/
def initMessages (vmmos : List (UInt64 × Nat)) : List IpcMessage :=
  (initObjects vmmos).mapIdx fun i (init, obj, type) => writeKernel (1 + 2 * i) init obj type

/-- The table of the first process, with the capability for its port. -/
def initCaps : CapabilityTable :=
  ((({} : CapabilityTable).addExistingCapability
    ⟨0, 6, ObjectType.port.defaultPermissions⟩).map Prod.snd).getD {}

/-- **The state after `LoadInitProgram`**, for the memory objects that it passes on, each with the
number that says what it is for. -/
def boot (system : System) (heap : KernelHeap PhysicalMemoryManager) (vmmos : List (UInt64 × Nat)) :
    Kernel where
  objects :=
    [.process { id := 0, vmas := some 0, threads := [1, 2] },
      .thread { process := 0, state := .running }, .thread { process := 0, state := .runnable },
      .addressSpace 0, .addressSpace 1,
      .process { id := 1, vmas := some 1, threads := [7], caps := initCaps },
      .port (initMessages vmmos), .thread { process := 5, state := .runnable }] ++
    vmmos.map fun vmmo => .memoryObject vmmo.2
  nextId := 2
  nextSerial := 1 + 2 * (initObjects vmmos).length
  system
  heap

end Kernel

end Acadia.Zion
