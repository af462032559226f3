import Acadia.Zion.Syscall.Accounts

/-! # Calls that exchange no messages

Most system calls neither send nor receive. What such a call does to the kernel follows from what its parts do:
`KeptByParts` asks for a property of the parts only, and one rule for each call does the rest for every property. -/

namespace Acadia.Zion

open Glacier Command

/-- An object whose value plain calls change. -/
def KernelObject.isPlain : KernelObject → Bool
  | .process _ | .thread _ | .mutex _ | .semaphore _ => true
  | _ => false

/-- **A property that the parts of plain calls keep**, where `n` objects were there at first and `E` is
what holds when a call stops. -/
structure KeptByParts (n : Nat) (I : Kernel → Prop) (E : Stop → Kernel → Prop) : Prop where
  /-- A call stops, and does not wait for a message. -/
  stop : ∀ {s e}, I s → (∀ w, e = .blocks w → ∀ s, w.Typed s) → E e s
  objects : ∀ {s}, I s → n ≤ s.objects.length
  /-- Objects, drivers and waiting threads are as before. -/
  congr : ∀ {s s'}, I s → s'.objects = s.objects → s'.nextSerial = s.nextSerial →
    s'.drivers = s.drivers → s'.waiting = s.waiting → I s'
  /-- An object gets another state. -/
  setObject : ∀ {s o x y}, I s → s.objects[o]? = some x → x.isPlain = true →
    y.typeTag = x.typeTag → y.allCaps = x.allCaps → I (s.setObject o y)
  /-- An object is made that holds nothing. -/
  append : ∀ {s y}, I s → y.allCaps = [] → y.messages = [] → y.typeTag ≠ .channel →
    y.typeTag ≠ .replyPort → I { s with objects := s.objects ++ [y] }
  /-- A capability for an object that was not there at first. -/
  addNewCapability : ∀ {p o} permissions, n ≤ o → Stays I E (Syscall.addNewCapability p o permissions)
  /-- A capability leaves a table. -/
  releaseCapability : ∀ p id, Stays I E (Syscall.releaseCapability p id)
  /-- A capability goes from one table to another. -/
  moveCapability : ∀ {p q id} {f : UInt64 → Response}, Stays I E (do
    match ← Syscall.releaseCapability p id with
    | none => Syscall.panic
    | some cap => do
      let moved ← Syscall.addExistingCapability q cap
      return f moved)
  /-- A table is emptied. -/
  releaseAll : ∀ {s p x released caps}, I s → s.objects[p]? = some (.process x) →
    x.caps.releaseAll = some (released, caps) → I (s.setObject p (.process { x with caps }))

namespace KeptByParts

open Syscall

variable {α : Type} {n : Nat} {I : Kernel → Prop} {E : Stop → Kernel → Prop} {s : Kernel}
  {t p o : Nat}

section

variable (h : KeptByParts n I E)

include h

/-! ## Parts of calls -/

theorem stays_fail (code : ErrorCode) : Stays I E (fail code : Syscall α) := fun _ hs => h.stop hs nofun

theorem stays_panic : Stays I E (panic : Syscall α) := fun _ hs => h.stop hs nofun

theorem blocks (hs : I s) {w : Waiting} (hw : ∀ s, w.Typed s) : E (.blocks w) s := by
  refine h.stop hs ?_
  rintro _ ⟨⟩
  exact hw

theorem stays_process (p : Nat) : Stays I E (process p) := fun _ hs =>
  wp_process (fun _ _ => hs) (h.stop hs nofun)

theorem stays_thread (t : Nat) : Stays I E (thread t) := fun _ hs =>
  wp_thread (fun _ _ => hs) (h.stop hs nofun)

theorem stays_addressSpace (o : Nat) : Stays I E (addressSpace o) := fun _ hs =>
  wp_addressSpace (fun _ _ => hs) (h.stop hs nofun)

theorem stays_memoryObject (o : Nat) : Stays I E (memoryObject o) := fun _ hs =>
  wp_memoryObject (fun _ _ _ _ => hs) (h.stop hs nofun)

theorem stays_validateCapability (type : ObjectType) (cap : Option Capability) (permissions : UInt64) :
    Stays I E (validateCapability type cap permissions) := fun _ hs =>
  wp_validateCapability (fun _ _ _ _ => hs) fun _ _ _ => h.stop hs nofun

theorem stays_getValidCapability (p : Nat) (id : UInt64) (type : ObjectType) (permissions : UInt64) :
    Stays I E (getValidCapability p id type permissions) :=
  (stays_gets _).bind fun cap => h.stays_validateCapability type cap permissions

theorem stays_onSystem (f : System → Option (α × System)) : Stays I E (onSystem f) := fun _ hs =>
  wp_onSystem (fun _ _ _ => h.congr hs rfl rfl rfl rfl) (h.stop hs nofun)

theorem stays_dropCapabilities (cs : List Capability) : Stays I E (dropCapabilities cs) := by
  intro s hs
  rw [dropCapabilities, wp_update]
  obtain ⟨system, hsystem⟩ := foldl_dropCapability cs s
  rw [hsystem]
  exact h.congr hs rfl rfl rfl rfl

theorem stays_returnError (code : ErrorCode) : Stays I E (returnError code) :=
  stays_ite (stays_pure _) (h.stays_fail _)

theorem stays_withProcess {f : Process → Syscall α}
    (hf : ∀ x s, s.objects[p]? = some (.process x) → I s → wp (f x) (fun _ => I) E s) :
    Stays I E (process p >>= f) := by
  intro s hs
  rw [wp_bind]
  exact wp_process (fun x hx => hf x s hx hs) (h.stop hs nofun)

theorem stays_setThreadState (t : Nat) (state : ThreadState) : Stays I E (setThreadState t state) := by
  intro s hs
  rw [setThreadState, wp_bind]
  exact wp_thread (fun x hx => h.setObject hs hx rfl rfl rfl) (h.stop hs nofun)

theorem stays_create {y : KernelObject} {f : Nat → Syscall α} (hcaps : y.allCaps = [])
    (hmessages : y.messages = []) (hchannel : y.typeTag ≠ .channel) (hreply : y.typeTag ≠ .replyPort)
    (hf : ∀ o, n ≤ o → Stays I E (f o)) : Stays I E (createObject y >>= f) := by
  intro s hs
  rw [wp_bind, wp_createObject]
  exact hf _ (h.objects hs) _ (h.append hs hcaps hmessages hchannel hreply)

theorem stays_createWithCapability {y : KernelObject} (permissions : UInt64) (hcaps : y.allCaps = [])
    (hmessages : y.messages = []) (hchannel : y.typeTag ≠ .channel) (hreply : y.typeTag ≠ .replyPort) :
    Stays I E (do
      let o ← createObject y
      let id ← Syscall.addNewCapability p o permissions
      return Response.word id) := by
  refine h.stays_create hcaps hmessages hchannel hreply fun o ho => ?_
  exact (h.addNewCapability permissions ho).bind fun _ => stays_pure _

theorem stays_capRelease (cap : UInt64) : Stays I E (capRelease p cap) := by
  refine (h.releaseCapability p cap).bind fun released => ?_
  cases released with
  | none => exact h.stays_fail _
  | some => exact (h.stays_dropCapabilities _).bind fun _ => stays_pure _

/-! ## Memory -/

theorem stays_addressSpaceMap (vmasCap vmasOffset vmmoCap align : UInt64) :
    Stays I E (addressSpaceMap p vmasCap vmasOffset vmmoCap align) := by
  refine (stays_gets _).bind fun _ => (stays_gets _).bind fun _ => ?_
  refine (h.stays_validateCapability _ _ _).bind fun _ => ?_
  refine (h.stays_validateCapability _ _ _).bind fun _ => ?_
  refine (h.stays_addressSpace _).bind fun _ => (h.stays_memoryObject _).bind fun _ => ?_
  refine (h.stays_onSystem _).bind fun result => ?_
  cases result with
  | ok => exact stays_pure _
  | error => exact h.stays_fail _

theorem stays_addressSpaceUnmap (vmasCap lowerAddr upperAddr : UInt64) :
    Stays I E (addressSpaceUnmap p vmasCap lowerAddr upperAddr) := by
  refine (h.stays_getValidCapability _ _ _ _).bind fun _ => (h.stays_addressSpace _).bind fun _ => ?_
  refine (h.stays_onSystem _).bind fun code => ?_
  exact (h.stays_returnError code).bind fun _ => stays_pure _

theorem stays_heapAllocate (size : UInt64) : Stays I E (heapAllocate size) := by
  intro s hs
  refine wp_updateSome (fun addr s' hsome => ?_) fun _ => h.stop hs nofun
  obtain ⟨r, -, ⟨⟩⟩ := Option.bind_eq_some_iff.mp hsome
  exact h.congr hs rfl rfl rfl rfl

theorem stays_addMemoryObject (kind : MemoryObjectKind) (size : UInt64) (pages : List UInt64)
    (permissions : UInt64) : Stays I E (addMemoryObject p kind size pages permissions) := by
  refine (h.stays_onSystem _).bind fun id => h.stays_create rfl rfl nofun nofun fun o ho => ?_
  exact h.addNewCapability permissions ho

theorem stays_memoryObjectCreate (size : UInt64) : Stays I E (memoryObjectCreate p size) := by
  refine (h.stays_heapAllocate _).bind fun _ => ?_
  exact (h.stays_addMemoryObject _ _ _ _).bind fun _ => stays_pure _

theorem stays_memoryObjectCreatePhysical (paddr size : UInt64) : Stays I E (memoryObjectCreatePhysical p paddr size) :=
  (h.stays_addMemoryObject _ _ _ _).bind fun _ => stays_pure _

theorem stays_memoryObjectCreateContiguous (size : UInt64) : Stays I E (memoryObjectCreateContiguous p size) := by
  refine (h.stays_onSystem _).bind fun paddr => ?_
  exact (h.stays_addMemoryObject _ _ _ _).bind fun _ => stays_pure _

theorem stays_memoryObjectDuplicate (vmmoCap baseOffset length : UInt64) :
    Stays I E (memoryObjectDuplicate p vmmoCap baseOffset length) := by
  refine (h.stays_getValidCapability _ _ _ _).bind fun _ => (h.stays_memoryObject _).bind fun vmmo => ?_
  cases vmmo.kind with
  | view =>
    refine stays_ite (h.stays_fail _) ?_
    exact (h.stays_addMemoryObject _ _ _ _).bind fun _ => stays_pure _
  | _ => exact h.stays_fail _

theorem stays_memoryObjectInspect (vmmoCap : UInt64) : Stays I E (memoryObjectInspect p vmmoCap) := by
  refine (h.stays_getValidCapability _ _ _ _).bind fun _ => ?_
  exact (h.stays_memoryObject _).bind fun _ => stays_pure _

/-! ## Processes and threads -/

theorem stays_vmas (p : Nat) : Stays I E (vmas p) := by
  refine (h.stays_process p).bind fun x => ?_
  cases x.vmas with
  | none => exact h.stays_panic
  | some => exact stays_pure _

theorem stays_createAddressSpace (p : Nat) : Stays I E (createAddressSpace p) := fun _ hs =>
  wp_createAddressSpace (fun _ _ => h.congr hs rfl rfl rfl rfl) (h.stop hs nofun)

theorem stays_processSpawn (procCap bootstrapCap : UInt64) : Stays I E (processSpawn p procCap bootstrapCap) := by
  refine (h.stays_getValidCapability _ _ _ _).bind fun _ => ?_
  intro s hs
  rw [createProcess]
  refine wp_seq (R := fun r s' => I s' ∧ n ≤ r.1 ∧ n ≤ r.2) ?_ fun r s1 ⟨h1, hproc, hvmas⟩ => ?_
  · refine wp_seq (h.stays_createAddressSpace p s hs) fun space s1 h1 => ?_
    rw [wp_bind, wp_createObject, wp_bind, wp_gets, wp_bind, wp_update, wp_bind, wp_createObject]
    have h2 := h.append (y := .addressSpace space) h1 rfl rfl nofun nofun
    have h3 : I { s1 with
        objects := s1.objects ++ [.addressSpace space], nextId := s1.nextId + 1 } :=
      h.congr h2 rfl rfl rfl rfl
    exact ⟨h.append h3 rfl rfl nofun nofun, h.objects h3, h.objects h1⟩
  · refine wp_seq (h.addNewCapability _ hproc s1 h1) fun newProcCap s2 h2 => ?_
    refine wp_seq (h.addNewCapability _ hvmas s2 h2) fun newVmasCap s3 h3 => ?_
    refine stays_ite (stays_pure _) ?_ s3 h3
    refine (stays_gets _).bind fun cap => ?_
    cases cap with
    | none => exact h.stays_fail _
    | some => exact stays_ite (h.stays_fail _) h.moveCapability

theorem stays_waitThread (t : Nat) : Stays I E (waitThread t) :=
  (h.stays_thread t).bind fun _ => stays_ite (stays_pure _) fun _ hs => h.blocks hs fun _ => trivial

theorem stays_processExit (p : Nat) (code : UInt64) : Stays I E (processExit p code) := by
  refine h.stays_withProcess fun x s hx hs => ?_
  rw [wp_bind, setProcess, wp_update]
  -- what follows the new state of the process
  have hexit : ∀ t, Stays I E (exitThread t) := fun t =>
    (h.stays_thread t).bind fun _ => stays_ite (stays_pure _) (h.stays_setThreadState t _)
  refine ((stays_each hexit _).bind fun _ => ?_) _ (h.setObject hs hx rfl rfl rfl)
  intro s hs
  rw [wp_bind, wp_update, wp_stop]
  exact h.stop (h.congr hs rfl rfl rfl rfl) nofun

theorem stays_processWait (procCap : UInt64) : Stays I E (processWait p procCap) := by
  refine (h.stays_getValidCapability _ _ _ _).bind fun _ => (h.stays_process _).bind fun _ => ?_
  refine (h.stays_process _).bind fun proc => stays_ite (h.stays_fail _) ?_
  cases proc.threads with
  | nil => exact h.stays_panic
  | cons t => exact (h.stays_waitThread t).bind fun _ => stays_pure _

theorem stays_threadCreate (procCap : UInt64) : Stays I E (threadCreate p procCap) := by
  refine (h.stays_getValidCapability _ _ _ _).bind fun cap => (h.stays_vmas _).bind fun _ => ?_
  refine h.stays_withProcess fun parent s hparent hs => ?_
  rw [wp_bind, wp_createObject, wp_bind, setProcess, wp_update]
  have h1 := h.append (y := .thread { process := cap.obj }) hs rfl rfl nofun nofun
  refine ((h.addNewCapability _ (h.objects hs)).bind fun _ => stays_pure _) _ ?_
  exact h.setObject h1 (Kernel.getElem?_append hparent) rfl rfl rfl

theorem stays_threadStart (threadCap entry arg1 arg2 : UInt64) :
    Stays I E (threadStart p threadCap entry arg1 arg2) := by
  refine (h.stays_getValidCapability _ _ _ _).bind fun _ => stays_ite (h.stays_fail _) ?_
  exact (h.stays_setThreadState _ _).bind fun _ => stays_pure _

theorem stays_threadExit (t : Nat) : Stays I E (threadExit t) :=
  (h.stays_setThreadState t _).bind fun _ _ hs => h.stop hs nofun

theorem stays_threadWait (threadCap : UInt64) : Stays I E (threadWait p threadCap) := by
  refine (h.stays_getValidCapability _ _ _ _).bind fun _ => ?_
  exact (h.stays_waitThread _).bind fun _ => stays_pure _

/-! ## Synchronization -/

theorem stays_lock (o : Nat) : Stays I E (lock o) := by
  intro s hs
  rw [lock, wp_bind, wp_gets]
  split
  · exact h.blocks hs fun _ => trivial
  · rename_i ho
    exact h.setObject hs ho rfl rfl rfl
  · exact h.stop hs nofun

theorem stays_wait (o : Nat) : Stays I E (wait o) := by
  intro s hs
  rw [wait, wp_bind, wp_gets]
  split
  · rename_i count ho
    rw [wp_ite]
    split
    · exact h.blocks hs fun _ => trivial
    · exact h.setObject hs ho rfl rfl rfl
  · exact h.stop hs nofun

theorem stays_mutexRelease (mutexCap : UInt64) : Stays I E (mutexRelease p mutexCap) := by
  intro s hs
  rw [mutexRelease, wp_bind]
  refine wp_getValidCapability (fun c _ htag _ => ?_) fun _ _ _ => h.stop hs nofun
  obtain ⟨x, hx, hmutex⟩ := Kernel.exists_of_tag htag
  cases x <;> cases hmutex
  exact h.setObject hs hx rfl rfl rfl

theorem stays_semaphoreSignal (semaphoreCap : UInt64) : Stays I E (semaphoreSignal p semaphoreCap) := by
  refine (h.stays_getValidCapability _ _ _ _).bind fun cap s hs => ?_
  rw [wp_bind, wp_gets]
  split
  · rename_i count ho
    exact h.setObject hs ho rfl rfl rfl
  · exact h.stop hs nofun

/-! ## Faults and cleanup -/

theorem stays_pageFault (p : Nat) (vaddr : UInt64) : Stays I E (pageFault p vaddr) := by
  refine (h.stays_vmas p).bind fun space => (h.stays_onSystem _).bind fun handled => ?_
  exact stays_ite (stays_pure _) (h.stays_processExit p _)

theorem stays_processCleanup (p : Nat) : Stays I E (processCleanup p) := by
  refine h.stays_withProcess fun x s hx hs => ?_
  cases hrelease : x.caps.releaseAll with
  | none => exact h.stop hs nofun
  | some =>
    rw [wp_bind, setProcess, wp_update]
    refine ((h.stays_dropCapabilities _).bind fun _ => ?_) _ (h.releaseAll hs hx hrelease)
    refine (h.stays_vmas p).bind fun space => (h.stays_onSystem _).bind fun code => ?_
    refine stays_ite h.stays_panic ?_
    exact h.stays_withProcess fun y s hy hs => h.setObject hs hy rfl rfl rfl

end

end KeptByParts

/-! ## The handler -/

/-- A call that exchanges no messages and makes no capability for an object that is there already. -/
def Call.isPlain : Call → Bool
  | .channelCreate | .channelSend _ _ _ | .channelRecv _ _ _ | .portSend _ _ _ | .portRecv _ _ _
  | .portPoll _ _ _ | .irqRegister _ | .endpointSend _ _ _ | .endpointRecv _ _ _
  | .replyPortSend _ _ _ | .replyPortRecv _ _ _ | .capDuplicate _ _ => false
  | _ => true

open Syscall in
/-- **What the parts of plain calls keep, plain calls keep.** -/
theorem KeptByParts.stays_syscallHandler {n t p : Nat} {I : Kernel → Prop} {E : Stop → Kernel → Prop}
    (h : KeptByParts n I E) {call : Call} (hplain : call.isPlain = true) {seen : Option Reread} :
    Stays I E (syscallHandler t p call seen) := by
  cases call with
  | processExit => exact h.stays_processExit p _
  | processSpawn => exact h.stays_processSpawn _ _
  | processWait => exact h.stays_processWait _
  | threadCreate => exact h.stays_threadCreate _
  | threadStart => exact h.stays_threadStart _ _ _ _
  | threadExit => exact h.stays_threadExit t
  | threadWait => exact h.stays_threadWait _
  | threadSleep => exact fun _ hs => h.blocks hs fun _ => trivial
  | addressSpaceMap => exact h.stays_addressSpaceMap _ _ _ _
  | addressSpaceUnmap => exact h.stays_addressSpaceUnmap _ _ _
  | memoryObjectCreate => exact h.stays_memoryObjectCreate _
  | memoryObjectCreatePhysical => exact h.stays_memoryObjectCreatePhysical _ _
  | memoryObjectCreateContiguous => exact h.stays_memoryObjectCreateContiguous _
  | memoryObjectDuplicate => exact h.stays_memoryObjectDuplicate _ _ _
  | memoryObjectInspect => exact h.stays_memoryObjectInspect _
  | portCreate | endpointCreate | mutexCreate | semaphoreCreate =>
    exact h.stays_createWithCapability _ rfl rfl nofun nofun
  | capRelease => exact h.stays_capRelease _
  | mutexLock => exact (h.stays_getValidCapability _ _ _ _).bind fun _ => h.stays_lock _
  | mutexRelease => exact h.stays_mutexRelease _
  | semaphoreWait => exact (h.stays_getValidCapability _ _ _ _).bind fun _ => h.stays_wait _
  | semaphoreSignal => exact h.stays_semaphoreSignal _
  | debug => exact stays_pure _
  | unhandled => exact h.stays_fail _
  | _ => cases hplain

end Acadia.Zion
