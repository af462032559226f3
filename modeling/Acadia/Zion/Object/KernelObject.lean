import Acadia.Zion.Lib.MessageQueue
import Acadia.Zion.Memory.KernelHeap
import Acadia.Zion.Object.Process
import Acadia.Zion.Object.AddressSpace

/-! # Kernel objects

The objects that capabilities are for, `object/*.h`, and the state of the kernel that system calls work on. Objects
are named by their number and never taken away: one that nothing points to any more stays in the list with its
queue. Kernel and user stacks, the run queue of the scheduler and the locks inside the kernel are left out: every
system call is one step, up to the point where it blocks. -/

namespace Acadia.Zion

open Glacier

/-- `KernelObject::ObjectType`. -/
inductive ObjectType where
  | process
  | thread
  | addressSpace
  | memoryObject
  | channel
  | port
  | endpoint
  | replyPort
  | mutex
  | semaphore
  deriving DecidableEq

/-- The function `DefaultPermissions` of each class; there is none for reply ports. -/
def ObjectType.defaultPermissions : ObjectType → UInt64
  | .process => kZionPermWrite ||| kZionPermRead ||| kZionPermSpawnThread |||
    kZionPermSpawnProcess ||| kZionPermDuplicate ||| kZionPermTransmit
  | .thread => kZionPermRead ||| kZionPermWrite
  | .addressSpace => kZionPermWrite ||| kZionPermTransmit
  | .memoryObject => kZionPermWrite ||| kZionPermRead ||| kZionPermDuplicate ||| kZionPermTransmit
  | .channel => kZionPermRead ||| kZionPermWrite ||| kZionPermDuplicate ||| kZionPermTransmit
  | .port => kZionPermWrite ||| kZionPermRead ||| kZionPermDuplicate ||| kZionPermTransmit
  | .endpoint => kZionPermRead ||| kZionPermWrite ||| kZionPermDuplicate ||| kZionPermTransmit
  | .replyPort => 0
  | .mutex => kZionPermLock ||| kZionPermRelease
  | .semaphore => kZionPermWait ||| kZionPermSignal

/-- A `Thread`, as far as capabilities and messages depend on it. -/
structure ThreadObject where
  process : Nat
  state : ThreadState := .created
  deriving DecidableEq

/-- A `KernelObject`. -/
inductive KernelObject where
  | process (p : Process)
  | thread (t : ThreadObject)
  /-- An `AddressSpace`, by its position among the address spaces. -/
  | addressSpace (space : Nat)
  | memoryObject (id : Nat)
  /-- A `Channel` with the other end and its own queue. -/
  | channel (peer : Nat) (queue : List IpcMessage)
  | port (queue : List IpcMessage)
  | endpoint (queue : List IpcMessage)
  | replyPort (queue : SingleMessageQueue)
  /-- A `Mutex`; whether it is locked. -/
  | mutex (lock : Bool)
  /-- A `Semaphore` with its counter. -/
  | semaphore (lock : UInt8)
  deriving DecidableEq

namespace KernelObject

/-- `TypeTag`. -/
def typeTag : KernelObject → ObjectType
  | .process _ => .process
  | .thread _ => .thread
  | .addressSpace _ => .addressSpace
  | .memoryObject _ => .memoryObject
  | .channel _ _ => .channel
  | .port _ => .port
  | .endpoint _ => .endpoint
  | .replyPort _ => .replyPort
  | .mutex _ => .mutex
  | .semaphore _ => .semaphore

/-- The messages that wait at an object. -/
def messages : KernelObject → List IpcMessage
  | .channel _ queue => queue
  | .port queue => queue
  | .endpoint queue => queue
  | .replyPort queue => queue.message.toList
  | _ => []

/-- The capabilities in the table of a process or in the messages that wait at an object. -/
def allCaps : KernelObject → List Capability
  | .process p => p.caps.caps
  | o => o.messages.flatMap IpcMessage.allCaps

end KernelObject

/-- The `DriverManager`. -/
structure DriverManager where
  driverMap : HashMap UInt64 Nat := {}
  wellFormed : driverMap.WellFormed := by exact HashMap.wellFormed_empty

/-- `RegisterListener`. -/
def DriverManager.registerListener (d : DriverManager) (irqNum : UInt64) (port : Nat) :
    ErrorCode × DriverManager :=
  if d.driverMap.contains irqNum then (.alreadyExists, d)
  else
    match h : d.driverMap.insert irqNum port with
    | (code, driverMap) => (code, ⟨driverMap, d.wellFormed.of_insert h⟩)

theorem DriverManager.registerListener_of_contains {d : DriverManager} {irqNum : UInt64}
    (h : d.driverMap.contains irqNum = true) (port : Nat) : d.registerListener irqNum port = (.alreadyExists, d) := by
  rw [registerListener, if_pos h]

theorem DriverManager.registerListener_of_not_contains {d : DriverManager} {irqNum : UInt64}
    (h : ¬ d.driverMap.contains irqNum = true) (port : Nat) :
    ∃ d', d.registerListener irqNum port = (.ok, d') ∧
      ∀ k o, d'.driverMap.find k = some o → k = irqNum ∧ o = port ∨ d.driverMap.find k = some o := by
  have hkey : irqNum ∉ d.driverMap.entries.map Prod.fst := fun hmem =>
    h (d.wellFormed.contains_iff.mpr hmem)
  obtain ⟨m, hm, hwf, hperm⟩ := d.wellFormed.insert hkey port
  refine ⟨⟨m, hwf⟩, ?_, fun k o hfind => ?_⟩
  · rw [registerListener, if_neg h]
    split
    rename_i code driverMap hinsert
    rw [hm] at hinsert
    cases hinsert
    rfl
  · have hmem := hperm.subset (hwf.find_eq_some_iff.mp hfind)
    rcases List.mem_cons.mp hmem with heq | hmem
    · cases heq
      exact Or.inl ⟨rfl, rfl⟩
    · exact Or.inr (d.wellFormed.find_eq_some_iff.mpr hmem)

/-- Where a thread waits inside a system call, with what it goes on with. -/
inductive Waiting where
  /-- `PopFront` on an empty queue; `withReply` in `EndpointRecv`. -/
  | recv (process object : Nat) (numBytes numCaps : UInt64) (withReply : Bool)
  /-- `Mutex::Lock`. -/
  | lock (mutex : Nat)
  /-- `Semaphore::Wait`. -/
  | semaphore (semaphore : Nat)
  /-- `Thread::Wait` and `Scheduler::Sleep`, which return when the thread runs again. -/
  | thread
  deriving DecidableEq

/-- The state of the kernel. -/
structure Kernel where
  objects : List KernelObject
  /-- The global `gNextId`. -/
  nextId : Nat := 1
  /-- The next number for a capability or a message. -/
  nextSerial : Nat := 0
  /-- The global `gDriverManager`. -/
  drivers : DriverManager := {}
  /-- The threads that wait inside a system call. -/
  waiting : List Waiting := []
  /-- The field `process_list_` of `ProcessCleanup`. -/
  processList : List Nat := []
  system : System
  /-- The kernel heap; its machine is that of `system`. -/
  heap : KernelHeap PhysicalMemoryManager
  /-- The start of the direct map of physical memory. -/
  hhdm : UInt64 := 0xFFFF800000000000

namespace Kernel

/-- The process with this number. -/
def process (s : Kernel) (p : Nat) : Option Process :=
  match s.objects[p]? with
  | some (.process x) => some x
  | _ => none

/-- What a process finds under an id in its table. -/
def capability (s : Kernel) (p : Nat) (id : UInt64) : Option Capability :=
  (s.process p).bind fun x => x.caps.getCapability id

/-- The messages that wait at an object. -/
def queue (s : Kernel) (o : Nat) : List IpcMessage := (s.objects[o]?).elim [] KernelObject.messages

/-- All capabilities, in tables and in messages that wait. -/
def allCaps (s : Kernel) : List Capability := s.objects.flatMap KernelObject.allCaps

/-- Another value for an object. -/
def setObject (s : Kernel) (o : Nat) (x : KernelObject) : Kernel :=
  { s with objects := s.objects.set o x }

end Kernel

end Acadia.Zion
