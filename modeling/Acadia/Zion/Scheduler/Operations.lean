import Acadia.Zion.Scheduler.Tasks

/-! # What threads do in the kernel

The functions that move threads between lists: those of `object/mutex.cpp`, `object/semaphore.cpp`,
`lib/message_queue.cpp`, `object/thread.cpp`, `object/process.cpp` and `scheduler/cleanup.cpp`, and the
events by which they are run. -/

namespace Acadia.Zion.Tasks

open Glacier Tasks

/-! ## Blocking and waking -/

/-- The current thread blocks on a list; `Yield` comes later. -/
def block (l : ThreadList) : Task Unit := do
  let current ← .gets current
  setState current .blocked
  .update fun s => s.push l current

/-- The current thread will go on with `k`. -/
def later (k : Continuation) : Task Unit := .update fun s => s.addTodo s.current k

/-- The current thread blocks on a list and yields; it goes on with `k` when it is woken. -/
def waitOn (l : ThreadList) (k : Continuation) : Task Unit := do
  block l
  later k
  yield

/-- The first thread of a list, if there is one, is woken; whether the thread that calls this was
switched away from. -/
def wake (l : ThreadList) : Task Bool := do
  match ← .gets fun s => s.lists l with
  | [] => return false
  | t :: rest =>
    .update fun s => s.setList l rest
    setState t .runnable
    enqueue t

/-- `Mutex::Lock` in a function that goes on with `k`; whether the thread has the lock. -/
def lock (m : MutexId) (k : Continuation) : Task Bool := do
  if (← .gets fun s => s.locked m) then
    waitOn (.mutex m) k
    return false
  else
    .update fun s => { s with locked := Function.update s.locked m true }
    return true

/-- `Mutex::Release`. -/
def release (m : MutexId) : Task Bool := do
  .update fun s => { s with locked := Function.update s.locked m false }
  wake (.mutex m)

/-- `Semaphore::Wait`. -/
def semaphoreWait (x : SemaphoreId) : Task Unit := do
  if (← .gets fun s => s.count x) = 0 then waitOn (.semaphore x) (.wait x)
  else .update fun s => { s with count := Function.update s.count x (s.count x - 1) }

/-- `Semaphore::Signal`. -/
def semaphoreSignal (x : SemaphoreId) : Task Bool := do
  .update fun s => { s with count := Function.update s.count x (s.count x + 1) }
  wake (.semaphore x)

/-! ## Message queues -/

/-- The end of `PushBack`. In an interrupt, `SignalEOI` follows; it comes first here, so that the
interrupt can occur again before `Release` has returned. -/
def endPush (q : Nat) (interrupt : Bool) : Task Unit := do
  if interrupt then
    .update fun s => { s with inService := Function.update s.inService q false }
  let _ ← release (.queue q)

/-- `PushBack`. Only the sleep thread, in an interrupt, is switched away from before the end. -/
def pushBack (q : Nat) (interrupt : Bool) : Task Unit := do
  if (← lock (.queue q) (.pushBack q interrupt)) then
    if (← .gets fun s => s.single q && s.pending q ≠ 0) then endPush q interrupt
    else
      .update fun s => { s with pending := Function.update s.pending q (s.pending q + 1) }
      let current ← .gets current
      if (← wake (.queue q)) then .update fun s => s.addTodo current (.endPush q interrupt)
      else endPush q interrupt

/-- `PopFront`; `fits` says whether the message fits the buffers. The second critical section follows
in the same step. -/
def popFront (q : Nat) (fits : Bool) : Task Unit := do
  if (← lock (.queue q) (.popFront q fits)) then
    if (← .gets fun s => s.pending q) = 0 then
      block (.queue q)
      let _ ← release (.queue q)
      later (.popFront q fits)
      yield
    else
      let _ ← release (.queue q)
      .update fun s => { s with
        pending := Function.update s.pending q
          (if fits && !s.single q then s.pending q - 1 else s.pending q) }
      let _ ← release (.queue q)

/-! ## Threads -/

/-- The kernel heap is used, with the page tables of the current thread. -/
def useHeap : HeapRequest → Task Unit
  | .new size => .updateSome .outOfMemory fun s => do
    let heap := { s.heap with machine := s.system.machine, cr3 := (s.thread s.current).cr3 }
    let (_, _, heap) ← heap.allocate size
    return ((), { s with heap, system := { s.system with machine := heap.machine } })
  | .delete addr => .updateSome .undefined fun s => do
    let heap ← s.heap.delete addr
    return ((), { s with heap })

/-- `KernelStackManager::AllocateKernelStack`. -/
def allocateKernelStack : Task UInt64 := do
  let manager ← .gets stackManager
  match manager.freeStacks with
  | stack :: freeStacks =>
    .update fun s => { s with stackManager := { s.stackManager with freeStacks } }
    return stack
  | [] =>
    let nextStackAddr := manager.nextStackAddr + kKernelStackOffset
    if nextStackAddr ≥ kKernelStackEnd then .stop .outOfKernelStacks
    else
      .updateSome .outOfMemory fun s =>
        (s.system.machine.ensureResident (s.thread s.current).cr3
          (nextStackAddr - kKernelStackSize) kKernelStackSize).map fun machine =>
            (nextStackAddr - 8, { s with
              system := { s.system with machine }
              stackManager := { s.stackManager with nextStackAddr } })

/-- The address space of a process, which is read through a pointer. -/
def vmas (p : Nat) : Task Nat := do
  match ← .gets fun s => (s.process p).vmas with
  | some i => return i
  | none => .stop .nullVmas

/-- `Process::CreateThread`. The memory of the new thread holds `garbage` where no field is
initialised. -/
def createThread (p : Nat) (garbage : UInt64) : Task Nat := do
  let rsp0Start ← allocateKernelStack
  let i ← vmas p
  let t ← .gets threadCount
  .update fun s => { s with
    thread := Function.update s.thread t
      { process := p, userStackBase := garbage, rsp0Start,
        cr3 := (s.system.spaces[i]?).elim 0 AddressSpace.cr3 }
    threadCount := t + 1
    process := Function.update s.process p
      { s.process p with threads := (s.process p).threads ++ [t] } }
  return t

/-- `Thread::Start`. -/
def threadStart (t : Nat) : Task Unit := do
  .update fun s => s.writeState t .runnable
  let _ ← enqueue t

/-- `Thread::Init`. -/
def threadInit : Task Unit := do
  let t ← .gets current
  if (← .gets fun s => (s.thread t).isKernel) then return ()
  else
    let i ← vmas (← .gets fun s => (s.thread t).process)
    let base ← .updateSome .outOfMemory fun s =>
      (s.system.allocateUserStack i).map fun (base, system) => (base, { s with system })
    match base with
    | .error code => .stop (.panicOnError code)
    | .ok base => .update fun s => s.modifyThread t fun th => { th with userStackBase := base }

/-- `Thread::Wait`. -/
def threadWait (t : Nat) : Task Unit := do
  if (← .gets fun s => (s.state t).isDying) then return ()
  else
    block (.thread t)
    yield

/-- `Thread::Exit`, of the current thread. -/
def threadExit : Task Unit := do
  let current ← .gets current
  .update fun s => { s with threadList := s.threadList ++ [current] }
  let _ ← semaphoreSignal .cleanup
  .update fun s => s.writeState current .cleanup
  yield

/-- `AddressSpace::FreeUserStack`, under `PANIC_ON_ERR`. -/
def freeUserStack (i : Nat) (base : UInt64) : Task Unit := do
  let code ← .updateSome .undefined fun s =>
    (s.system.freeUserStack i base).map fun (code, system) => (code, { s with system })
  if code ≠ ErrorCode.ok then .stop (.panicOnError code)

/-- `Thread::Cleanup`. -/
def threadCleanup (t : Nat) : Task Unit := do
  if (← .gets current) = t then .stop .cleanupSelf
  else
    .update fun s => s.writeState t .cleanup
    let i ← vmas (← .gets fun s => (s.thread t).process)
    let base ← .gets fun s => (s.thread t).userStackBase
    freeUserStack i base
    .update fun s => { s with freedUserStacks := s.freedUserStacks ++ [(t, base)] }
    let _ ← Command.each (fun _ => wake (.thread t)) (← .gets fun s => s.lists (.thread t))
    .update fun s =>
      let stack := (s.thread t).rsp0Start
      { s with
        stackManager :=
          { s.stackManager with freeStacks := stack :: s.stackManager.freeStacks }
        freedStacks := s.freedStacks ++ [(t, stack)] }
    .update fun s => s.writeState t .finished

/-! ## Processes -/

/-- `Process::Create`. -/
def createProcess : Task Nat := do
  let p ← .gets processCount
  let i ← .updateSome .outOfMemory fun s =>
    (s.system.createAddressSpace (s.thread s.current).cr3 s.hhdm).map fun (i, system) =>
      (i, { s with system })
  .update fun s => { s with
    process := Function.update s.process p { id := p, vmas := some i }
    processCount := p + 1 }
  return p

/-- The syscall `ProcessWait`, after its capability was found valid. -/
def processWait (p : Nat) : Task Unit := do
  if (← .gets fun s => (s.thread s.current).process) = p then return ()
  else
    match ← .gets fun s => (s.process p).threads with
    | [] => .stop .badThreadAccess
    | t :: _ => threadWait t

/-- `Process::Exit`, of the process of the current thread. -/
def processExit (exitCode : UInt64) : Task Unit := do
  let p ← .gets fun s => (s.thread s.current).process
  .update fun s => s.modifyProcess p fun x => { x with state := .cleanup, exitCode }
  let threads ← .gets fun s => (s.process p).threads
  let _ ← Command.each (fun t => do
    if !(← .gets fun s => (s.state t).isDying) then setState t .cleanup) threads
  .update fun s => { s with processList := s.processList ++ [p] }
  let _ ← semaphoreSignal .cleanup
  yield

/-- `CapabilityTable::ReleaseAll`, of a process. -/
def releaseAll (p : Nat) : Task Unit :=
  .updateSome .undefined fun s =>
    ((s.process p).caps.releaseAll).map fun (_, caps) =>
      ((), s.modifyProcess p fun x => { x with caps })

/-- `Process::Cleanup`. -/
def processCleanup (p : Nat) : Task Unit := do
  if (← .gets fun s => (s.thread s.current).process) = p then .stop .cleanupSelf
  else
    .update fun s => s.modifyProcess p fun x => { x with state := .cleanup }
    let threads ← .gets fun s => (s.process p).threads
    let _ ← Command.each (fun t => do
      if (← .gets fun s => s.state t) = .cleanup then threadCleanup t) threads
    releaseAll p
    let i ← vmas p
    let code ← .updateSome .undefined fun s =>
      (s.system.freeAddressRange i 0 kUserSpaceMax true).map fun (code, system) =>
        (code, { s with system })
    if code ≠ ErrorCode.ok then .stop (.panicOnError code)
    else .update fun s => s.modifyProcess p fun x => { x with vmas := none, state := .finished }

/-- One round of `ProcessCleanup::CleanupLoop`. -/
def cleanupRound : Task Unit := do
  match ← .gets fun s => (s.inThreadLoop, s.processList, s.threadList) with
  | (true, _, t :: threadList) =>
    .update fun s => { s with threadList }
    threadCleanup t
  | (true, _, []) => .update fun s => { s with inThreadLoop := false }
  | (false, p :: processList, _) =>
    .update fun s => { s with processList }
    processCleanup p
  | (false, [], []) => semaphoreWait .cleanup
  | (false, [], _ :: _) => .update fun s => { s with inThreadLoop := true }

end Tasks

/-! ## Events -/

/-- What a thread of a process asks the kernel for, after its capabilities were found valid. -/
inductive Operation where
  | mutexLock (m : Nat)
  | mutexRelease (m : Nat)
  | semaphoreWait (x : Nat)
  | semaphoreSignal (x : Nat)
  /-- A send to a port, an endpoint, the other end of a channel, or a reply port. -/
  | send (q : Nat)
  /-- A receive. -/
  | receive (q : Nat) (fits : Bool)
  | threadSleep (millis : UInt64)
  | threadWait (t : Nat)
  | processWait (p : Nat)
  | threadExit
  /-- `ProcessExit`, or a fault that ends the process. -/
  | processExit (exitCode : UInt64)
  | processSpawn
  | threadCreate (p : Nat) (garbage : UInt64)
  | threadStart (t : Nat)
  deriving DecidableEq

/-- What happens next. -/
inductive Event where
  /-- The timer interrupt. -/
  | tick
  /-- An interrupt for which a driver listens on the port `q`. -/
  | interrupt (q : Nat)
  /-- The current thread calls the kernel. On the kernel heap the call first makes room for what it
  needs: objects, the `fx_data_` of a thread, the items of lists, the arrays of vectors and tables. -/
  | call (op : Operation) (uses : List HeapRequest := [])
  /-- The current thread goes on with what it was doing in the kernel. -/
  | resume
  /-- `CleanupLoop` runs one round. -/
  | cleanup
  deriving DecidableEq

/-- The thread that an event starts. -/
def Event.started : Event → Option Nat
  | .call (.threadStart t) _ => some t
  | _ => none

/-- The current thread exits. -/
def Event.exitsThread : Event → Bool
  | .call .threadExit _ => true
  | _ => false

/-- The event ends the process of the current thread. -/
def Event.exitsProcess : Event → Bool
  | .call (.processExit _) _ => true
  | _ => false

namespace Tasks

/-- An operation of the current thread. -/
def execute : Operation → Task Unit
  | .mutexLock m => do
    let _ ← lock (.object m) (.lock m)
  | .mutexRelease m => do
    let _ ← release (.object m)
  | .semaphoreWait x => semaphoreWait (.object x)
  | .semaphoreSignal x => do
    let _ ← semaphoreSignal (.object x)
  | .send q => pushBack q false
  | .receive q fits => popFront q fits
  | .threadSleep millis => sleep millis
  | .threadWait t => threadWait t
  | .processWait p => processWait p
  | .threadExit => threadExit
  | .processExit exitCode => processExit exitCode
  | .processSpawn => do
    let _ ← createProcess
  | .threadCreate p garbage => do
    let _ ← createThread p garbage
  | .threadStart t => threadStart t

/-- What is left to do of a function. -/
def continueWith : Continuation → Task Unit
  | .init => threadInit
  | .yield => yield
  | .lock m => do
    let _ ← lock (.object m) (.lock m)
  | .wait x => semaphoreWait x
  | .pushBack q interrupt => pushBack q interrupt
  | .popFront q fits => popFront q fits
  | .endPush q interrupt => endPush q interrupt

/-- What an event does. -/
def perform : Event → Task Unit
  | .tick => preempt
  | .interrupt q => do
    .update fun s => { s with inService := Function.update s.inService q true }
    pushBack q true
  | .call op uses => do
    let _ ← Command.each useHeap uses
    execute op
  | .resume => do
    let current ← .gets current
    match ← .gets fun s => (s.thread current).todo with
    | [] => return ()
    | k :: todo =>
      .update fun s => s.modifyThread current fun th => { th with todo }
      continueWith k
  | .cleanup => cleanupRound

/-- The objects that an operation names are those that capabilities can be for: threads that
`ThreadCreate` made, and processes other than the root process. -/
def Names (s : Tasks) : Operation → Prop
  | .threadWait t => 2 < t ∧ t < s.threadCount
  | .threadStart t => 2 < t ∧ t < s.threadCount
  | .processWait p => 0 < p ∧ p < s.processCount
  | .threadCreate p _ => 0 < p ∧ p < s.processCount
  | _ => True

instance (s : Tasks) (op : Operation) : Decidable (s.Names op) := by
  unfold Names
  split <;> infer_instance

/-- **When an event can happen.** The sleep thread only runs interrupts, the cleanup thread its loop;
an interrupt does not come again before it is acknowledged, and each port listens for one. -/
def Possible (s : Tasks) : Event → Prop
  | .tick => True
  | .interrupt q => s.inService q = false ∧ s.single q = false
  | .call op _ => s.current ≠ sleepThread ∧ s.current ≠ cleanupThread ∧
    (s.thread s.current).todo = [] ∧ s.Names op
  | .resume => (s.thread s.current).todo ≠ []
  | .cleanup => s.current = cleanupThread ∧ (s.thread s.current).todo = []

instance (s : Tasks) (e : Event) : Decidable (s.Possible e) := by
  cases e <;> unfold Possible <;> infer_instance

/-- One step. There is no next state if the event cannot happen or the kernel stops. -/
def step (s : Tasks) (e : Event) : Option Tasks :=
  if s.Possible e then
    match perform e s with
    | (.ok _, s') => some s'
    | (.error _, _) => none
  else none

/-- The fault with which an event stops the kernel. -/
def fault (s : Tasks) (e : Event) : Option Fault :=
  if s.Possible e then
    match perform e s with
    | (.ok _, _) => none
    | (.error f, _) => some f
  else none

/-- The threads at the end of `zion()`: the sleep thread, which runs, the cleanup thread, and the
thread of the first process, with the page tables of their processes. -/
def bootThread (spaces : List AddressSpace) : Nat → Thread
  | 0 =>
    { process := 0, isKernel := true, userStackBase := 0, rsp0Start := 0
      cr3 := (spaces[0]?).elim 0 AddressSpace.cr3, todo := [.yield] }
  | 1 =>
    { process := 0, isKernel := true, state := .runnable, userStackBase := 0
      cr3 := (spaces[0]?).elim 0 AddressSpace.cr3
      rsp0Start := kKernelStackStart + 2 * kKernelStackOffset - 8 }
  | _ =>
    { process := 1, state := .runnable, userStackBase := 0
      cr3 := (spaces[1]?).elim 0 AddressSpace.cr3
      rsp0Start := kKernelStackStart + 3 * kKernelStackOffset - 8 }

/-- **The state at the end of `zion()`**, when the scheduler has been enabled and the sleep thread is
about to yield. The root process and the first process have the first two address spaces. -/
def boot (system : System) (single : Nat → Bool) (caps : CapabilityTable)
    (heap : KernelHeap PhysicalMemoryManager) : Tasks where
  thread := bootThread system.spaces
  threadCount := 3
  process p := if p = 0 then { id := 0, vmas := some 0, threads := [0, 1] }
    else { id := p, vmas := some 1, threads := [2], caps }
  processCount := 2
  lists l := if l = .runnable then [1, 2] else []
  single
  current := sleepThread
  stackManager := { nextStackAddr := kKernelStackStart + 3 * kKernelStackOffset }
  system
  heap

end Acadia.Zion.Tasks
