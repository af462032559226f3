import Acadia.Zion.Syscall.Primitives
import Mathlib.Data.List.ReduceOption

/-! # System calls for messages

`syscall/ipc.cpp`. The request of a send is a value, in which `num_bytes` and `num_caps` are the lengths
of the lists. A receive reads the numbers of its request twice, and another thread may have changed them
in between (`Reread`). What a call writes through the pointers of its request is its `Response`. A
message that is not passed on goes away with its capabilities. -/

namespace Acadia.Zion

open Glacier

/-- What a system call that returns `OK` writes through the pointers of its request. -/
inductive Response where
  | done
  /-- The id of a capability, or another word. -/
  | word (value : UInt64)
  | words (first second : UInt64)
  /-- The capabilities of `ProcessSpawn`. -/
  | spawned (newProcCap newVmasCap : UInt64) (newBootstrapCap : Option UInt64)
  /-- A message, with the ids of its capabilities. -/
  | message (data : List UInt8) (caps : List UInt64) (replyPortCap : Option UInt64)
  deriving DecidableEq

/-- Whether a message fits the buffers of a receiver. -/
def IpcMessage.fits (message : IpcMessage) (numBytes numCaps : UInt64) : Bool :=
  message.data.length ≤ numBytes.toNat && message.caps.length ≤ numCaps.toNat

/-- **What a receive reads again** after `Recv` has taken the message: `*num_bytes` and `*num_caps`
for the second check, and `*num_caps` in each round of the loop. Where the list ends, the rounds read
what the call has written there, the number of capabilities. -/
structure Reread where
  numBytes : UInt64
  numCaps : UInt64
  rounds : List UInt64 := []
  deriving DecidableEq

namespace Syscall

/-! ## Requests and messages -/

/-- The loop of `TranslateRequestToIpcMessage` in a send that is not preempted; `taken` are the
capabilities of the message so far. `Sending` has the places where another thread can come between. -/
def takeCapabilities (p : Nat) : List Capability → List UInt64 → Syscall (List Capability)
  | taken, [] => return taken
  | taken, id :: ids => do
    match ← getCapability p id with
    | none => do
      dropCapabilities taken
      fail .capNotFound
    | some cap =>
      if !cap.hasPermissions kZionPermTransmit then do
        dropCapabilities taken
        fail .capPermissionDenied
      else do
        let released ← releaseCapability p id
        takeCapabilities p (taken ++ released.toList) ids

/-- A thread in that loop, where it can be preempted: the ids that are left, whether the first of them
was looked up and checked, and what `ReleaseCapability` returned so far, which may be a null pointer. -/
structure Sending where
  process : Nat
  ids : List UInt64
  isChecked : Bool := false
  caps : List (Option Capability) := []
  deriving DecidableEq

/-- What the thread does next: it looks up and checks a capability, or releases one. -/
def Sending.next (x : Sending) : Syscall Sending :=
  match x.ids with
  | [] => return x
  | id :: ids =>
    if x.isChecked then do
      let released ← releaseCapability x.process id
      return { x with ids, isChecked := false, caps := x.caps ++ [released] }
    else do
      match ← getCapability x.process id with
      | none => do
        dropCapabilities x.caps.reduceOption
        fail .capNotFound
      | some cap =>
        if !cap.hasPermissions kZionPermTransmit then do
          dropCapabilities x.caps.reduceOption
          fail .capPermissionDenied
        else return { x with isChecked := true }

/-- The thread does this a number of times, without being preempted. -/
def Sending.loop : Nat → Sending → Syscall Sending
  | 0, x => return x
  | n + 1, x => do
    let x ← x.next
    loop n x

/-- **A send that is not preempted** makes its loop in one go. -/
theorem takeCapabilities_eq_loop (p : Nat) (caps : List (Option Capability)) (ids : List UInt64) :
    takeCapabilities p caps.reduceOption ids = (do
      let x ← Sending.loop (2 * ids.length) ⟨p, ids, false, caps⟩
      return x.caps.reduceOption) := by
  induction ids generalizing caps with
  | nil => rfl
  | cons id ids ih =>
    have hrounds : 2 * (id :: ids).length = 2 * ids.length + 1 + 1 := by
      rw [List.length_cons]
      omega
    have hnext : ∀ released : Option Capability,
        caps.reduceOption ++ released.toList = (caps ++ [released]).reduceOption := by
      rintro (_ | _) <;> simp [List.reduceOption_append]
    have hreleased : Sending.next ⟨p, id :: ids, true, caps⟩ = (do
        let released ← releaseCapability p id
        return ⟨p, ids, false, caps ++ [released]⟩) := rfl
    rw [hrounds, takeCapabilities, Sending.loop, Sending.next, bind_assoc]
    dsimp only
    rw [if_neg Bool.false_ne_true, bind_assoc]
    refine congrArg _ (funext fun found => ?_)
    cases found with
    | none =>
      simp only [bind_assoc]
      rfl
    | some cap =>
      dsimp only
      split
      · simp only [bind_assoc]
        rfl
      · simp only [pure_bind, bind_assoc, Sending.loop, hreleased, hnext, ih]

/-- `TranslateRequestToIpcMessage`. -/
def translateRequestToIpcMessage (p : Nat) (data : List UInt8) (caps : List UInt64) :
    Syscall IpcMessage := do
  if data.length > 0x1000 then fail .unimplemented
  else do
    let taken ← takeCapabilities p [] caps
    let serial ← takeSerial
    return ⟨serial, data, taken, none⟩

/-- The loop of `TranslateIpcMessageToResponse` from round `i` on. Capabilities that it does not come
to go away with the message; a round without one reads outside the vector. -/
def addCapabilities (p i : Nat) (rounds : List UInt64) : List Capability → Syscall (List UInt64)
  | [] => if i < rounds.head?.elim i UInt64.toNat then panic else return []
  | cap :: caps =>
    if i < rounds.head?.elim (i + caps.length + 1) UInt64.toNat then do
      let id ← addExistingCapability p cap
      let ids ← addCapabilities p (i + 1) rounds.tail caps
      return id :: ids
    else do
      dropCapabilities (cap :: caps)
      return []

/-- `TranslateIpcMessageToResponse`. -/
def translateIpcMessageToResponse (p : Nat) (message : IpcMessage) (seen : Reread) :
    Syscall Response := do
  if !message.fits seen.numBytes seen.numCaps then do
    dropCapabilities message.allCaps
    fail .bufferSize
  else do
    let ids ← addCapabilities p 0 seen.rounds message.caps
    dropCapabilities message.replyCap.toList
    return .message message.data ids none

/-- `TranslateIpcMessageToResponse` where nothing looks at its result, and the reply capability is
kept: what is written of the data and the ids. -/
def translateUnchecked (p : Nat) (message : IpcMessage) (seen : Reread) :
    Syscall (List UInt8 × List UInt64) := do
  if !message.fits seen.numBytes seen.numCaps then do
    dropCapabilities message.caps
    return ([], [])
  else do
    let ids ← addCapabilities p 0 seen.rounds message.caps
    return (message.data, ids)

/-- `TranslateIpcMessageToResponseWithReplyPort`. -/
def translateIpcMessageToResponseWithReplyPort (p : Nat) (message : IpcMessage) (seen : Reread) :
    Syscall Response := do
  let (data, ids) ← translateUnchecked p message seen
  match message.replyCap with
  | none => fail .internal
  | some cap => do
    let id ← addExistingCapability p cap
    return .message data ids (some id)

/-- Where nothing has changed the request, the loop adds all capabilities. -/
theorem addCapabilities_eq_each (p i : Nat) (caps : List Capability) :
    addCapabilities p i [] caps = Command.each (addExistingCapability p) caps := by
  induction caps generalizing i with
  | nil => exact if_neg (Nat.lt_irrefl i)
  | cons cap caps ih =>
    have hlt : i < i + caps.length + 1 := by omega
    rw [addCapabilities, Command.each]
    simp only [List.head?_nil, Option.elim_none, List.tail_nil, if_pos hlt, ih]

section Steady

variable {message : IpcMessage} {numBytes numCaps : UInt64} (h : message.fits numBytes numCaps = true)

include h

/-- A message that has fitted fits again where nothing has changed the request. -/
theorem translateIpcMessageToResponse_of_fits (p : Nat) :
    translateIpcMessageToResponse p message { numBytes, numCaps } = (do
      let ids ← Command.each (addExistingCapability p) message.caps
      dropCapabilities message.replyCap.toList
      return .message message.data ids none) := by
  rw [translateIpcMessageToResponse, if_neg (by simp [h]), addCapabilities_eq_each]

theorem translateUnchecked_of_fits (p : Nat) :
    translateUnchecked p message { numBytes, numCaps } = (do
      let ids ← Command.each (addExistingCapability p) message.caps
      return (message.data, ids)) := by
  rw [translateUnchecked, if_neg (by simp [h]), addCapabilities_eq_each]

end Steady

/-- The end of every receive: `Recv`, and the translation of the message. The request is as it was
unless something else is `seen`. -/
def receive (p o : Nat) (numBytes numCaps : UInt64) (withReply : Bool)
    (seen : Option Reread := none) : Syscall Response := do
  let message ← recv o numBytes numCaps (.recv p o numBytes numCaps withReply)
  let seen := seen.getD { numBytes, numCaps }
  if withReply then translateIpcMessageToResponseWithReplyPort p message seen
  else translateIpcMessageToResponse p message seen

/-! ## Channels and ports -/

/-- `ChannelCreate`. -/
def channelCreate (p : Nat) : Syscall Response := do
  let first ← .gets fun s => s.objects.length
  let first ← createObject (.channel (first + 1) [])
  let second ← createObject (.channel first [])
  let channel1 ← addNewCapability p first ObjectType.channel.defaultPermissions
  let channel2 ← addNewCapability p second ObjectType.channel.defaultPermissions
  return .words channel1 channel2

/-- A send without a reply: `ChannelSend`, `PortSend` and `ReplyPortSend`. -/
def sendMessage (type : ObjectType) (p : Nat) (cap : UInt64) (data : List UInt8)
    (caps : List UInt64) : Syscall Response := do
  let cap ← getValidCapability p cap type kZionPermWrite
  let message ← translateRequestToIpcMessage p data caps
  send cap.obj message
  return .done

/-- A receive: `ChannelRecv`, `PortRecv`, `EndpointRecv` and `ReplyPortRecv`. -/
def recvMessage (type : ObjectType) (withReply : Bool) (p : Nat) (cap numBytes numCaps : UInt64)
    (seen : Option Reread := none) : Syscall Response := do
  let cap ← getValidCapability p cap type kZionPermRead
  receive p cap.obj numBytes numCaps withReply seen

/-- `ChannelSend`. -/
def channelSend := sendMessage .channel

/-- `ChannelRecv`. -/
def channelRecv := @recvMessage .channel false

/-- `PortCreate`. -/
def portCreate (p : Nat) : Syscall Response := do
  let port ← createObject (.port [])
  let portCap ← addNewCapability p port ObjectType.port.defaultPermissions
  return .word portCap

/-- `PortSend`. -/
def portSend := sendMessage .port

/-- `PortRecv`. -/
def portRecv := @recvMessage .port false

/-- `PortPoll`, with `HasMessages`. -/
def portPoll (p : Nat) (portCap numBytes numCaps : UInt64) (seen : Option Reread := none) :
    Syscall Response := do
  let cap ← getValidCapability p portCap .port kZionPermRead
  if (← .gets fun s => s.queue cap.obj) = [] then fail .empty
  else receive p cap.obj numBytes numCaps false seen

/-- `RegisterListener` on the driver manager. -/
def registerListener (irqNum : UInt64) (port : Nat) : Syscall Unit := fun s =>
  match s.drivers.registerListener irqNum port with
  | (.ok, drivers) => (.ok (), { s with drivers })
  | (code, drivers) => (.error (.error code), { s with drivers })

/-- `IrqRegister`. -/
def irqRegister (p : Nat) (irqNum : UInt64) : Syscall Response := do
  let port ← createObject (.port [])
  let portCap ← addNewCapability p port ObjectType.port.defaultPermissions
  registerListener irqNum port
  return .word portCap

/-! ## Endpoints and reply ports -/

/-- `EndpointCreate`. -/
def endpointCreate (p : Nat) : Syscall Response := do
  let endpoint ← createObject (.endpoint [])
  let endpointCap ← addNewCapability p endpoint ObjectType.endpoint.defaultPermissions
  return .word endpointCap

/-- `EndpointSend`. -/
def endpointSend (p : Nat) (endpointCap : UInt64) (data : List UInt8) (caps : List UInt64) :
    Syscall Response := do
  let cap ← getValidCapability p endpointCap .endpoint kZionPermWrite
  let replyPort ← createObject (.replyPort {})
  let replyPortCap ← addNewCapability p replyPort kZionPermRead
  let message ← translateRequestToIpcMessage p data caps
  let serial ← takeSerial
  let replyCap := ⟨serial, replyPort, kZionPermWrite ||| kZionPermTransmit⟩
  send cap.obj { message with replyCap := some replyCap }
  return .word replyPortCap

/-- `EndpointRecv`. -/
def endpointRecv := @recvMessage .endpoint true

/-- `ReplyPortSend`. -/
def replyPortSend := sendMessage .replyPort

/-- `ReplyPortRecv`. -/
def replyPortRecv := @recvMessage .replyPort false

end Syscall

end Acadia.Zion
