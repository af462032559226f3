import Acadia.Glacier.LinkedList
import Acadia.Zion.Capability.CapabilityTable

/-! # Message queues

`lib/message_queue.cpp`. The functions of an `UnboundedMessageQueue` are given by their critical
sections: `PushBack` has one, `PopFront` has one for each look at the empty list and one in which it
takes the message. `none` stands for a fault on a null pointer. -/

namespace Acadia.Zion

open Glacier

/-- An `IpcMessage`. -/
structure IpcMessage where
  /-- Which message this is; each one that is made gets a number of its own. -/
  serial : Nat
  data : List UInt8
  caps : List Capability
  replyCap : Option Capability
  deriving DecidableEq

/-- All capabilities of a message. -/
def IpcMessage.allCaps (m : IpcMessage) : List Capability := m.caps ++ m.replyCap.toList

/-- A `SingleMessageQueue`. -/
structure SingleMessageQueue where
  hasWritten : Bool := false
  hasRead : Bool := false
  /-- The field `message_`, from when a message is moved in to when it is moved out. -/
  message : Option IpcMessage := none
  deriving DecidableEq

/-- An `UnboundedMessageQueue`. -/
structure UnboundedMessageQueue where
  pendingMessages : LinkedList IpcMessage := {}
  blockedThreads : List Nat := []

namespace UnboundedMessageQueue

/-- `PushBack`; the first blocked thread is woken. -/
def pushBack (q : UnboundedMessageQueue) (message : IpcMessage) : Option UnboundedMessageQueue := do
  let pendingMessages ← q.pendingMessages.pushBack message
  return ⟨pendingMessages, q.blockedThreads.tail⟩

/-- The first critical section of `PopFront`, up to `Release`: whether the thread goes on. A thread
that does not blocks, and runs this section again when it is woken. -/
def checkPending (q : UnboundedMessageQueue) (thread : Nat) : Bool × UnboundedMessageQueue :=
  if q.pendingMessages.empty then (false, { q with blockedThreads := q.blockedThreads ++ [thread] })
  else (true, q)

/-- The second critical section of `PopFront`. -/
def takeFront (q : UnboundedMessageQueue) (dataBufSize capBufSize : UInt64) :
    Option (Except ErrorCode IpcMessage × UnboundedMessageQueue) := do
  let nextMsg ← q.pendingMessages.peekFront
  if nextMsg.data.length > dataBufSize.toNat then return (.error .bufferSize, q)
  else if nextMsg.caps.length > capBufSize.toNat then return (.error .bufferSize, q)
  else do
    let (message, pendingMessages) ← q.pendingMessages.popFront
    return (.ok message, { q with pendingMessages })

end UnboundedMessageQueue

end Acadia.Zion
