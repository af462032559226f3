import Acadia.Foundations.Command
import Acadia.Zion.Object.KernelObject

/-! # What system calls are made of

The functions of `Process`, `Capability` and the message queues that the system calls use, as commands on the
kernel. -/

namespace Acadia.Zion

open Glacier

/-- How a system call ends if it does not return `OK`. -/
inductive Stop where
  | error (code : ErrorCode)
  /-- Its thread blocks. -/
  | blocks (waiting : Waiting)
  /-- Its thread never returns. -/
  | exits
  | panics
  deriving DecidableEq

/-- A part of a system call. -/
abbrev Syscall := Command Kernel Stop

namespace Syscall

/-- An early return with an error. -/
def fail {α : Type} (code : ErrorCode) : Syscall α := .stop (.error code)

/-- `panic`. -/
def panic {α : Type} : Syscall α := .stop .panics

/-! ## Objects -/

/-- A new object; its number. -/
def createObject (x : KernelObject) : Syscall Nat := fun s =>
  (.ok s.objects.length, { s with objects := s.objects ++ [x] })

/-- The process with this number; the kernel only follows pointers to processes. -/
def process (p : Nat) : Syscall Process := fun s =>
  match s.process p with
  | some x => (.ok x, s)
  | none => (.error .panics, s)

/-- A change of the system below. -/
def onSystem {α : Type} (f : System → Option (α × System)) : Syscall α :=
  .updateSome .panics fun s => (f s.system).map fun (a, system) => (a, { s with system })

/-- The next number for a capability or a message. -/
def takeSerial : Syscall Nat := fun s => (.ok s.nextSerial, { s with nextSerial := s.nextSerial + 1 })

/-! ## Capabilities -/

/-- A capability is made for an object, which holds a memory object. -/
def acquireObject (obj : Nat) : Syscall Unit := .update fun s =>
  match s.objects[obj]? with
  | some (.memoryObject id) => { s with system := s.system.acquire id }
  | _ => s

/-- A capability goes away. -/
def dropCapability (s : Kernel) (c : Capability) : Kernel :=
  match s.objects[c.obj]? with
  | some (.memoryObject id) => { s with system := s.system.release id }
  | _ => s

/-- Capabilities go away. -/
def dropCapabilities (cs : List Capability) : Syscall Unit := .update (cs.foldl dropCapability)

/-- `Process::GetCapability`. -/
def getCapability (p : Nat) (id : UInt64) : Syscall (Option Capability) :=
  .gets fun s => s.capability p id

/-- `Process::ReleaseCapability`. -/
def releaseCapability (p : Nat) (id : UInt64) : Syscall (Option Capability) := do
  let x ← process p
  let (cap, caps) := x.caps.releaseCapability id
  .update fun s => s.setObject p (.process { x with caps })
  return cap

/-- `Process::AddExistingCapability`. -/
def addExistingCapability (p : Nat) (cap : Capability) : Syscall UInt64 := do
  let x ← process p
  match x.caps.addExistingCapability cap with
  | none => panic
  | some (id, caps) => do
    .update fun s => s.setObject p (.process { x with caps })
    return id

/-- `Process::AddNewCapability`. -/
def addNewCapability (p obj : Nat) (permissions : UInt64) : Syscall UInt64 := do
  let serial ← takeSerial
  acquireObject obj
  addExistingCapability p ⟨serial, obj, permissions⟩

/-- `ValidateCapability`, and then `obj`. -/
def validateCapability (type : ObjectType) (cap : Option Capability) (permissions : UInt64) :
    Syscall Capability :=
  match cap with
  | none => fail .capNotFound
  | some c => do
    let tag ← .gets fun s => (s.objects[c.obj]?).map KernelObject.typeTag
    if tag ≠ some type then fail .capWrongType
    else if !c.hasPermissions permissions then fail .capPermissionDenied
    else return c

/-- The lookup and check of a capability with which a call begins. -/
def getValidCapability (p : Nat) (id : UInt64) (type : ObjectType) (permissions : UInt64) :
    Syscall Capability := do
  let cap ← getCapability p id
  validateCapability type cap permissions

/-! ## Message queues -/

/-- `GetSendMessageQueue`: the object with the queue. -/
def sendQueue (o : Nat) : Syscall Nat := .gets fun s =>
  match s.objects[o]? with
  | some (.channel peer _) => peer
  | _ => o

/-- `SingleMessageQueue::PushBack`. -/
def pushSingle (o : Nat) (queue : SingleMessageQueue) (message : IpcMessage) : Syscall Unit :=
  if message.replyCap.isSome then do
    dropCapabilities message.allCaps
    fail .internal
  else if queue.hasWritten then do
    dropCapabilities message.allCaps
    fail .failedPrecondition
  else .update fun s =>
    s.setObject o (.replyPort { queue with hasWritten := true, message := some message })

/-- `PushBack` on the queue of an object. -/
def pushBack (o : Nat) (message : IpcMessage) : Syscall Unit := do
  match ← .gets fun s => s.objects[o]? with
  | some (.channel peer queue) =>
    .update fun s => s.setObject o (.channel peer (queue ++ [message]))
  | some (.port queue) => .update fun s => s.setObject o (.port (queue ++ [message]))
  | some (.endpoint queue) => .update fun s => s.setObject o (.endpoint (queue ++ [message]))
  | some (.replyPort queue) => pushSingle o queue message
  | _ => panic

/-- `IpcObject::Send`. -/
def send (o : Nat) (message : IpcMessage) : Syscall Unit := do
  let queue ← sendQueue o
  pushBack queue message

/-- The check of `PopFront` that a message fits the buffers. -/
def checkSize (message : IpcMessage) (numBytes numCaps : UInt64) : Syscall Unit :=
  if message.data.length > numBytes.toNat then fail .bufferSize
  else if message.caps.length > numCaps.toNat then fail .bufferSize
  else return ()

/-- `UnboundedMessageQueue::PopFront`; `rebuild` is the object with another queue. -/
def popUnbounded (o : Nat) (queue : List IpcMessage) (rebuild : List IpcMessage → KernelObject)
    (numBytes numCaps : UInt64) (waiting : Waiting) : Syscall IpcMessage :=
  match queue with
  | [] => .stop (.blocks waiting)
  | message :: rest => do
    checkSize message numBytes numCaps
    .update fun s => s.setObject o (rebuild rest)
    return message

/-- `SingleMessageQueue::PopFront`. -/
def popSingle (o : Nat) (queue : SingleMessageQueue) (numBytes numCaps : UInt64) (waiting : Waiting) :
    Syscall IpcMessage :=
  if !queue.hasWritten then .stop (.blocks waiting)
  else if queue.hasRead then fail .failedPrecondition
  else
    match queue.message with
    | none => panic
    | some message => do
      checkSize message numBytes numCaps
      .update fun s => s.setObject o (.replyPort { queue with hasRead := true, message := none })
      return message

/-- `IpcObject::Recv`; the queue is that of the object itself. -/
def recv (o : Nat) (numBytes numCaps : UInt64) (waiting : Waiting) : Syscall IpcMessage := do
  match ← .gets fun s => s.objects[o]? with
  | some (.channel peer queue) => popUnbounded o queue (.channel peer) numBytes numCaps waiting
  | some (.port queue) => popUnbounded o queue .port numBytes numCaps waiting
  | some (.endpoint queue) => popUnbounded o queue .endpoint numBytes numCaps waiting
  | some (.replyPort queue) => popSingle o queue numBytes numCaps waiting
  | _ => panic

end Syscall

end Acadia.Zion
