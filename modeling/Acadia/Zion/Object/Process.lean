import Acadia.Zion.Capability.CapabilityTable

/-! # Processes and the states of threads

The fields of `object/process.h`, and the states of `object/process.h` and `object/thread.h`. -/

namespace Acadia.Zion

open Glacier

/-- `Process::State`, without the states that are not used. -/
inductive ProcessState where
  | running
  | cleanup
  | finished
  deriving DecidableEq

/-- A `Process`. -/
structure Process where
  id : Nat
  /-- The field `vmas_`, until it is set to null. -/
  vmas : Option Nat
  state : ProcessState := .running
  exitCode : UInt64 := 0xFFFFFFFFFFFFFFFF
  /-- The field `threads_`; a thread's id is its position. -/
  threads : List Nat := []
  caps : CapabilityTable := {}
  deriving DecidableEq

/-- `Thread::State`, without the value that is not used. -/
inductive ThreadState where
  | created
  | running
  | runnable
  | blocked
  | sleeping
  | cleanup
  | finished
  deriving DecidableEq

/-- `IsDying`. -/
def ThreadState.isDying (state : ThreadState) : Bool := state = .cleanup || state = .finished

end Acadia.Zion
