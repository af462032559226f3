import Acadia.Foundations.Command
import Acadia.Zion.Memory.Boot
import Acadia.Zion.Object.AddressSpace
import Acadia.Zion.Object.Process

/-! # Threads and the scheduler

The state that `scheduler/scheduler.cpp` works on, with the lists of threads that wait elsewhere, and the functions of
the `Scheduler`. Threads, processes, mutexes, semaphores and queues are numbers, and intrusive lists are lists of
them. A command ends early with the `Fault` that stops the kernel.

A thread that is switched away from inside a kernel function goes on with it when it is switched to; what is left to
do is its `todo`. Every operation is one step up to its context switch, so the locks of processes and capability
tables, which are never held over one, are left out. -/

namespace Acadia.Zion

open Glacier

/-- What stops the kernel. -/
inductive Fault where
  /-- `panic("Swapping to non-runnable thread.")` -/
  | swappingNonRunnable
  /-- `panic("Cannot set state on dying thread.")` -/
  | dyingSetState
  /-- `panic("Sleep thread yielded without next.")` -/
  | sleepYielded
  /-- `panic("Bad thread access ...")` -/
  | badThreadAccess
  /-- An access through the null pointer that `vmas_` becomes. -/
  | nullVmas
  /-- `panic("Cannot cleanup thread from itself.")` -/
  | cleanupSelf
  /-- `panic("No more kernel stack space")` -/
  | outOfKernelStacks
  /-- A panic for want of physical memory, of room in the kernel heap, or of user stacks. -/
  | outOfMemory
  /-- A `PANIC_ON_ERR`. -/
  | panicOnError (code : ErrorCode)
  /-- A division by zero, or a loop over addresses that does not end. -/
  | undefined
  deriving DecidableEq

/-- A `Mutex`: one that a process made, or that of a message queue. -/
inductive MutexId where
  | object (m : Nat)
  | queue (q : Nat)
  deriving DecidableEq

/-- A `Semaphore`: one that a process made, or that of `ProcessCleanup`. -/
inductive SemaphoreId where
  | object (s : Nat)
  | cleanup
  deriving DecidableEq

/-- The lists of threads: those of the scheduler, and the `blocked_threads_` of an object. -/
inductive ThreadList where
  | runnable
  | sleeping
  | mutex (m : MutexId)
  | semaphore (s : SemaphoreId)
  | queue (q : Nat)
  | thread (t : Nat)
  deriving DecidableEq

/-- What a thread does next inside the kernel. -/
inductive Continuation where
  /-- `Thread::Init`, to which the first switch to a thread leads. -/
  | init
  /-- The call of `Yield` at the end of `zion()`. -/
  | yield
  /-- The loop of `Mutex::Lock`, of a mutex that processes share. -/
  | lock (m : Nat)
  /-- The loop of `Semaphore::Wait`. -/
  | wait (s : SemaphoreId)
  /-- `PushBack`, from its `MutexHolder` on; in an interrupt, or for a call. -/
  | pushBack (q : Nat) (interrupt : Bool)
  /-- `PopFront`, from a `Lock` on; whether the message fits the buffers. -/
  | popFront (q : Nat) (fits : Bool)
  /-- The end of `PushBack`, which releases the mutex. -/
  | endPush (q : Nat) (interrupt : Bool)
  deriving DecidableEq

/-- A `Thread`. -/
structure Thread where
  process : Nat
  state : ThreadState := .created
  isKernel : Bool := false
  /-- The field `user_stack_base_`, which only `Init` writes. -/
  userStackBase : UInt64
  sleepTicks : UInt64 := 0
  /-- The field `rsp0_start_`: the kernel stack. -/
  rsp0Start : UInt64
  /-- The page tables that are loaded while the thread runs. -/
  cr3 : UInt64
  /-- What the thread goes on with. -/
  todo : List Continuation := [.init]

/-- The threads, the processes, and what they wait for. -/
structure Tasks where
  /-- The threads, by number. -/
  thread : Nat → Thread
  threadCount : Nat
  /-- The processes, by number. -/
  process : Nat → Process
  processCount : Nat
  lists : ThreadList → List Nat
  /-- The field `lock_` of a `Mutex`. -/
  locked : MutexId → Bool := fun _ => false
  /-- The field `lock_` of a `Semaphore`. -/
  count : SemaphoreId → UInt8 := fun _ => 0
  /-- The number of messages in a queue; for a `SingleMessageQueue`, whether `has_written_`. -/
  pending : Nat → Nat := fun _ => 0
  /-- The queue is a `SingleMessageQueue`. -/
  single : Nat → Bool
  /-- The interrupt that writes to the queue is not acknowledged yet. -/
  inService : Nat → Bool := fun _ => false
  enabled : Bool := true
  /-- The field `current_thread_`. -/
  current : Nat
  processList : List Nat := []
  threadList : List Nat := []
  /-- `CleanupLoop` is in its inner loop over `thread_list_`. -/
  inThreadLoop : Bool := false
  /-- The calls of `FreeUserStack` so far that `Thread::Cleanup` made: thread and stack. -/
  freedUserStacks : List (Nat × UInt64) := []
  /-- The calls of `FreeKernelStack` so far: thread and stack. -/
  freedStacks : List (Nat × UInt64) := []
  stackManager : KernelStackManager
  system : System
  /-- The kernel heap; its machine is that of `system`. -/
  heap : KernelHeap PhysicalMemoryManager
  /-- The start of the direct map of physical memory. -/
  hhdm : UInt64 := 0xFFFF800000000000

/-- A function of the kernel. -/
abbrev Task := Command Tasks Fault

/-- The thread that `zion()` itself becomes, which runs when no other can: `sleep_thread_`. -/
def sleepThread : Nat := 0

/-- The thread of `CleanupLoop`, the second of the root process. -/
def cleanupThread : Nat := 1

namespace Tasks

/-! ## Small changes of the state -/

/-- The field `state_` of a thread. -/
def state (s : Tasks) (t : Nat) : ThreadState := (s.thread t).state

/-- A change of one thread. -/
def modifyThread (s : Tasks) (t : Nat) (f : Thread → Thread) : Tasks :=
  { s with thread := Function.update s.thread t (f (s.thread t)) }

/-- A change of one process. -/
def modifyProcess (s : Tasks) (p : Nat) (f : Process → Process) : Tasks :=
  { s with process := Function.update s.process p (f (s.process p)) }

/-- A plain write to `state_`. -/
def writeState (s : Tasks) (t : Nat) (x : ThreadState) : Tasks :=
  s.modifyThread t fun th => { th with state := x }

/-- Another value for a list. -/
def setList (s : Tasks) (l : ThreadList) (ts : List Nat) : Tasks :=
  { s with lists := Function.update s.lists l ts }

/-- `PushBack` on a list. -/
def push (s : Tasks) (l : ThreadList) (t : Nat) : Tasks := s.setList l (s.lists l ++ [t])

/-- The thread goes on with `k`. -/
def addTodo (s : Tasks) (t : Nat) (k : Continuation) : Tasks :=
  s.modifyThread t fun th => { th with todo := k :: th.todo }

/-! ## `Scheduler` -/

/-- `Thread::SetState`. -/
def setState (t : Nat) (x : ThreadState) : Task Unit := do
  if (← .gets fun s => (s.state t).isDying) then .stop .dyingSetState
  else .update fun s => s.writeState t x

/-- `SwapToCurrent`. -/
def swapToCurrent : Task Unit := do
  let current ← .gets Tasks.current
  if (← .gets fun s => s.state current) ≠ .runnable then .stop .swappingNonRunnable
  else setState current .running

/-- `ClearDeadThreadsFromFront`. -/
def clearDeadThreadsFromFront (s : Tasks) : Tasks :=
  s.setList .runnable ((s.lists .runnable).dropWhile fun t => (s.state t).isDying)

/-- `Yield`. -/
def yield : Task Unit := do
  if !(← .gets Tasks.enabled) then return ()
  else
    .update clearDeadThreadsFromFront
    let prev ← .gets Tasks.current
    match ← .gets fun s => s.lists .runnable with
    | [] =>
      if prev = sleepThread then .stop .sleepYielded
      else
        .update fun s => { s with current := sleepThread }
        swapToCurrent
    | next :: rest =>
      .update fun s => { s.setList .runnable rest with current := next }
      if prev = sleepThread ∧ !(← .gets fun s => (s.state prev).isDying) then
        setState prev .runnable
      swapToCurrent

/-- `Enqueue`; whether the thread that calls it was switched away from. -/
def enqueue (t : Nat) : Task Bool := do
  .update fun s => s.push .runnable t
  if (← .gets Tasks.current) = sleepThread then
    yield
    return true
  else return false

/-- One round of `DecrementSleepingThreads`. -/
def decrementThread (t : Nat) : Task Unit := do
  .update fun s => s.modifyThread t fun th => { th with sleepTicks := th.sleepTicks - 1 }
  if (← .gets fun s => (s.thread t).sleepTicks) = 0 then
    .update fun s => s.setList .sleeping ((s.lists .sleeping).erase t)
    setState t .runnable
    .update fun s => s.push .runnable t

/-- `DecrementSleepingThreads`. -/
def decrementSleepingThreads : Task Unit := do
  let sleeping ← .gets fun s => s.lists .sleeping
  let _ ← Command.each decrementThread sleeping

/-- `Preempt`. -/
def preempt : Task Unit := do
  if !(← .gets Tasks.enabled) then return ()
  else
    decrementSleepingThreads
    .update clearDeadThreadsFromFront
    match ← .gets fun s => s.lists .runnable with
    | [] => return ()
    | next :: rest =>
      let prev ← .gets Tasks.current
      setState prev .runnable
      .update fun s => { s.setList .runnable (rest ++ [prev]) with current := next }
      swapToCurrent

/-- `Sleep`. -/
def sleep (millis : UInt64) : Task Unit := do
  let current ← .gets Tasks.current
  .update fun s => s.modifyThread current fun th => { th with sleepTicks := millis / 50 + 1 }
  setState current .sleeping
  .update fun s => s.push .sleeping current
  yield

end Tasks

end Acadia.Zion
