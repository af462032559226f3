import Acadia.Zion.Syscall.Transfer

/-! # Calls that return an error

What a system call has done to tables and queues when it returns an error. Most calls check everything before they
change anything. A send takes capabilities one after the other while it checks them, and `EndpointSend`,
`ProcessSpawn` and `IrqRegister` add capabilities before their last check. -/

namespace Acadia.Zion

open Glacier Command List

namespace Syscall

open Kernel

variable {α β : Type} {s s' : Kernel} {t p o : Nat}

/-! ## Parts that return no error -/

/-- A part of a call that neither returns an error nor waits. -/
def Quiet (m : Syscall α) : Prop :=
  ∀ s, wp m (fun _ _ => True) (fun e _ => e = .panics ∨ e = .exits) s

theorem Quiet.bind {m : Syscall α} {f : α → Syscall β} (hm : Quiet m) (hf : ∀ a, Quiet (f a)) :
    Quiet (m >>= f) := fun s => wp_seq (hm s) fun a s' _ => hf a s'

theorem Quiet.clean {m : Syscall α} (h : Quiet m) (s s' : Kernel) :
    wp m (fun _ _ => True) (s.Cleanly True) s' := by
  refine wp_mono (h s') (fun _ _ htrue => htrue) fun e s'' he => ?_
  rcases he with rfl | rfl
  all_goals exact trivial

theorem Quiet.pure (a : α) : Quiet (pure a : Syscall α) := fun _ => trivial

theorem Quiet.gets (f : Kernel → α) : Quiet (.gets f : Syscall α) := fun _ => trivial

theorem Quiet.update (f : Kernel → Kernel) : Quiet (.update f : Syscall Unit) := fun _ => trivial

theorem Quiet.panic : Quiet (panic : Syscall α) := fun _ => Or.inl rfl

theorem Quiet.exits : Quiet (.stop .exits : Syscall α) := fun _ => Or.inr rfl

theorem Quiet.updateSome (f : Kernel → Option (α × Kernel)) : Quiet (.updateSome .panics f) :=
  fun _ => wp_updateSome (fun _ _ _ => trivial) fun _ => Or.inl rfl

theorem Quiet.ite {c : Prop} [Decidable c] {m n : Syscall α} (hm : Quiet m) (hn : Quiet n) :
    Quiet (if c then m else n) := by
  split
  · exact hm
  · exact hn

theorem Quiet.each {f : α → Syscall β} (hf : ∀ a, Quiet (f a)) (as : List α) : Quiet (each f as) := by
  induction as with
  | nil => exact .pure []
  | cons a _ ih => exact (hf a).bind fun b => ih.bind fun bs => .pure _

theorem Quiet.process (p : Nat) : Quiet (process p) := fun _ =>
  wp_process (fun _ _ => trivial) (Or.inl rfl)

theorem Quiet.thread (t : Nat) : Quiet (thread t) := fun _ =>
  wp_thread (fun _ _ => trivial) (Or.inl rfl)

theorem Quiet.createObject (x : KernelObject) : Quiet (createObject x) := fun _ => trivial

theorem Quiet.addNewCapability (p obj : Nat) (permissions : UInt64) :
    Quiet (addNewCapability p obj permissions) := fun _ =>
  wp_addNew (fun _ _ _ _ _ => trivial) fun _ => Or.inl rfl

theorem Quiet.create (p : Nat) (x : KernelObject) (permissions : UInt64) : Quiet (do
      let o ← Syscall.createObject x
      let id ← Syscall.addNewCapability p o permissions
      return Response.word id) :=
  .bind (.createObject x) fun _ => .bind (.addNewCapability p _ permissions) fun _ =>
    .pure _

theorem Quiet.channelCreate (p : Nat) : Quiet (channelCreate p) :=
  .bind (.gets _) fun _ => .bind (.createObject _) fun _ => .bind (.createObject _) fun _ =>
    .bind (.addNewCapability _ _ _) fun _ => .bind (.addNewCapability _ _ _) fun _ =>
      .pure _

theorem Quiet.addMemoryObject (p : Nat) (kind : MemoryObjectKind) (size : UInt64) (pages : List UInt64)
    (permissions : UInt64) : Quiet (addMemoryObject p kind size pages permissions) :=
  .bind (.updateSome _) fun _ => .bind (.createObject _) fun _ =>
    .addNewCapability _ _ _

theorem Quiet.memoryObjectCreate (p : Nat) (size : UInt64) : Quiet (memoryObjectCreate p size) :=
  .bind (.updateSome _) fun _ => .bind (.addMemoryObject _ _ _ _ _) fun _ => .pure _

theorem Quiet.memoryObjectCreatePhysical (p : Nat) (paddr size : UInt64) :
    Quiet (memoryObjectCreatePhysical p paddr size) :=
  .bind (.addMemoryObject _ _ _ _ _) fun _ => .pure _

theorem Quiet.memoryObjectCreateContiguous (p : Nat) (size : UInt64) : Quiet (memoryObjectCreateContiguous p size) :=
  .bind (.updateSome _) fun _ => .bind (.addMemoryObject _ _ _ _ _) fun _ => .pure _

theorem Quiet.setThreadState (t : Nat) (state : ThreadState) : Quiet (setThreadState t state) :=
  .bind (.thread t) fun _ => .update _

theorem Quiet.processExit (p : Nat) (code : UInt64) : Quiet (processExit p code) := by
  refine .bind (.process p) fun x => .bind (.update _) fun _ => ?_
  refine .bind (.each (fun t => ?_) _) fun _ => .bind (.update _) fun _ => .exits
  exact .bind (.thread t) fun _ => .ite (.pure _) (.setThreadState _ _)

/-! ## Calls that fail cleanly -/

/-- The errors of a call change nothing. -/
abbrev Clean (s : Kernel) (m : Syscall α) : Prop := wp m (fun _ _ => True) (s.Cleanly True) s

theorem clean_stop {Q : α → Kernel → Prop} {e : Stop} (h : s.Unchanged s') :
    wp (.stop e) Q (s.Cleanly True) s' := .of_unchanged h trivial

/-- A call that only needs a valid capability before it changes anything. -/
theorem clean_of_valid {id : UInt64} {type : ObjectType} {permissions : UInt64} {f : Capability → Syscall Response}
    (hf : ∀ c, s.tag c.obj = some type → Clean s (f c)) : Clean s (getValidCapability p id type permissions >>= f) := by
  rw [Clean, wp_bind]
  exact wp_getValidCapability (fun c _ htag _ => hf c htag) fun _ _ _ => .of_unchanged (.refl s) trivial

theorem clean_capDuplicate (capIn permMask : UInt64) : Clean s (capDuplicate p capIn permMask) := by
  rw [Clean, capDuplicate, wp_bind, getCapability, wp_gets]
  cases s.capability p capIn with
  | none => exact clean_stop (.refl s)
  | some =>
    rw [wp_ite]
    split
    · exact clean_stop (.refl s)
    · exact Quiet.clean (.bind (.addNewCapability _ _ _) fun _ => .pure _) s s

theorem clean_capRelease (cap : UInt64) : Clean s (capRelease p cap) := by
  rw [Clean, capRelease, wp_bind]
  cases hc : s.capability p cap with
  | some => exact wp_release hc fun _ _ _ _ => trivial
  | none =>
    rw [releaseCapability, wp_bind]
    refine wp_process (fun x hx => ?_) trivial
    rw [capability_eq hx] at hc
    rw [CapabilityTable.releaseCapability_of_none hc]
    have hset : (s.setObject p (.process x)).objects = s.objects := by
      obtain ⟨hlt, hget⟩ := List.getElem?_eq_some_iff.mp hx
      rw [setObject, ← hget]
      exact set_getElem_self hlt
    exact iff_of_true (.of_objects hset) trivial

theorem clean_addressSpaceMap (vmasCap vmasOffset vmmoCap align : UInt64) :
    Clean s (addressSpaceMap p vmasCap vmasOffset vmmoCap align) := by
  rw [Clean, addressSpaceMap, wp_bind, getCapability, wp_gets, wp_bind, getCapability, wp_gets, wp_bind]
  refine wp_validateCapability (fun c _ _ _ => ?_) fun _ _ _ => .of_unchanged (.refl s) trivial
  rw [wp_bind]
  refine wp_validateCapability (fun d _ _ _ => ?_) fun _ _ _ => .of_unchanged (.refl s) trivial
  rw [wp_bind]
  refine wp_addressSpace (fun space _ => ?_) trivial
  rw [wp_bind]
  refine wp_memoryObject (fun id state _ _ => ?_) trivial
  rw [wp_bind]
  refine wp_onSystem (fun r system _ => ?_) trivial
  cases r with
  | ok => trivial
  | error => exact clean_stop (.of_objects rfl)

theorem clean_addressSpaceUnmap (vmasCap lowerAddr upperAddr : UInt64) :
    Clean s (addressSpaceUnmap p vmasCap lowerAddr upperAddr) := by
  refine clean_of_valid fun c _ => ?_
  rw [Clean, wp_bind]
  refine wp_addressSpace (fun space _ => ?_) trivial
  rw [wp_bind]
  refine wp_onSystem (fun code system _ => ?_) trivial
  rw [wp_bind, returnError, wp_ite]
  split
  · trivial
  · exact clean_stop (.of_objects rfl)

theorem clean_memoryObjectDuplicate (vmmoCap baseOffset length : UInt64) :
    Clean s (memoryObjectDuplicate p vmmoCap baseOffset length) := by
  refine clean_of_valid fun c _ => ?_
  rw [Clean, wp_bind]
  refine wp_memoryObject (fun id state _ _ => ?_) trivial
  split
  · rw [wp_ite]
    split
    · exact clean_stop (.refl s)
    · exact Quiet.clean (.bind (.addMemoryObject _ _ _ _ _) fun _ => .pure _) s s
  · exact clean_stop (.refl s)

theorem clean_memoryObjectInspect (vmmoCap : UInt64) : Clean s (memoryObjectInspect p vmmoCap) := by
  refine clean_of_valid fun c _ => ?_
  rw [Clean, wp_bind]
  exact wp_memoryObject (fun _ _ _ _ => trivial) trivial

theorem clean_waitThread (r : Response) :
    wp (waitThread t) (fun _ => wp (pure r) (fun _ _ => True) (s.Cleanly True)) (s.Cleanly True) s := by
  rw [waitThread, wp_bind]
  refine wp_thread (fun x _ => ?_) trivial
  split
  · trivial
  · exact clean_stop (.refl s)

theorem clean_processWait (procCap : UInt64) : Clean s (processWait p procCap) := by
  refine clean_of_valid fun c _ => ?_
  rw [Clean, wp_bind]
  refine wp_process (fun curr _ => ?_) trivial
  rw [wp_bind]
  refine wp_process (fun proc _ => ?_) trivial
  split
  · exact clean_stop (.refl s)
  · cases proc.threads with
    | nil => trivial
    | cons =>
      rw [wp_bind]
      exact clean_waitThread _

theorem clean_threadCreate (procCap : UInt64) : Clean s (threadCreate p procCap) := by
  refine clean_of_valid fun c _ => ?_
  refine Quiet.clean (.bind (.bind (.process _) fun x => ?_) fun _ => ?_) s s
  · cases x.vmas with
    | none => exact .panic
    | some => exact .pure _
  · exact .bind (.process _) fun _ => .bind (.createObject _) fun _ =>
      .bind (.update _) fun _ => .bind (.addNewCapability _ _ _) fun _ => .pure _

theorem clean_threadStart (threadCap entry arg1 arg2 : UInt64) : Clean s (threadStart p threadCap entry arg1 arg2) := by
  refine clean_of_valid fun c _ => ?_
  split
  · exact clean_stop (.refl s)
  · exact Quiet.clean (.bind (.setThreadState _ _) fun _ => .pure _) s s

theorem clean_threadWait (threadCap : UInt64) : Clean s (threadWait p threadCap) := by
  refine clean_of_valid fun c _ => ?_
  rw [Clean, wp_bind]
  exact clean_waitThread _

theorem clean_lock : Clean s (lock o) := by
  rw [Clean, lock, wp_bind, wp_gets]
  split
  · exact clean_stop (.refl s)
  · trivial
  · trivial

theorem clean_wait : Clean s (wait o) := by
  rw [Clean, wait, wp_bind, wp_gets]
  split
  · rw [wp_ite]
    split
    · exact clean_stop (.refl s)
    · trivial
  · trivial

theorem clean_semaphoreSignal (semaphoreCap : UInt64) : Clean s (semaphoreSignal p semaphoreCap) := by
  refine clean_of_valid fun c _ => ?_
  rw [Clean, wp_bind, wp_gets]
  split
  · trivial
  · trivial

/-! ### Receives -/

theorem clean_of_nothingTaken {m : Syscall Response} {Q : Response → Kernel → Prop} (h : wp m Q s.NothingTaken s) :
    Clean s m := wp_mono h (fun _ _ _ => trivial) fun _ _ he => he.1

theorem clean_goOn (h : s.WellTyped) {w : Waiting} (hw : w.Typed s) : Clean s (goOn w) := by
  cases w with
  | recv q o numBytes numCaps =>
    obtain ⟨type, htag, hiff⟩ := hw
    refine clean_of_nothingTaken (wp_receive h q numBytes numCaps ?_)
    rw [hiff, htag, Option.some.injEq]
  | lock => exact clean_lock
  | semaphore => exact clean_wait
  | thread => trivial

end Syscall

/-! ## Calls that change something before their last check -/

namespace Kernel

/-- **When an error of a call changes no table and no queue.** -/
def FailsCleanly (s : Kernel) (p : Nat) : Call → Prop
  | .channelSend chanCap data caps => s.SendFailsCleanly .channel p chanCap data caps
  | .portSend portCap data caps => s.SendFailsCleanly .port p portCap data caps
  | .replyPortSend replyPortCap data caps => s.SendFailsCleanly .replyPort p replyPortCap data caps
  | .endpointSend endpointCap data caps => s.EndpointSendFailsCleanly p endpointCap data caps
  | .processSpawn procCap bootstrapCap =>
    ¬ s.HasValid p procCap .process kZionPermSpawnProcess ∨ bootstrapCap = 0 ∨
      s.Sendable p bootstrapCap ∨ ∃ id ∈ s.nextCapId p, bootstrapCap = id ∨ bootstrapCap = id + 1
  | .irqRegister irqNum => ¬ s.drivers.driverMap.contains irqNum = true
  | _ => True

end Kernel

namespace Syscall

open Kernel

variable {s : Kernel} {p : Nat} {E : Stop → Kernel → Prop}

theorem wp_createOther {x : KernelObject} (hx : x.typeTag ≠ .process) (hmessages : x.messages = [])
    {Q : Nat → Kernel → Prop}
    (hQ : ∀ s', s.Unchanged s' → s'.drivers = s.drivers →
      (∀ (k : Nat) y, s.objects[k]? = some y → s'.objects[k]? = some y) → Q s.objects.length s') :
    wp (createObject x) Q E s :=
  hQ _ ⟨capability_append hx, queue_append hmessages⟩ rfl fun _ _ hk => getElem?_append hk

/-- **`IrqRegister` leaves the capability for the port behind** when there is one for the interrupt. -/
theorem failsCleanly_irqRegister (irqNum : UInt64) :
    wp (irqRegister p irqNum) (fun _ _ => s.FailsCleanly p (.irqRegister irqNum))
      (s.Cleanly (s.FailsCleanly p (.irqRegister irqNum))) s := by
  rw [irqRegister, wp_bind]
  refine wp_createOther (x := .port []) (by rintro ⟨⟩) rfl fun s1 hsame hdrivers _ => ?_
  rw [wp_bind]
  refine wp_addNew (fun id s2 hwith _ hdrivers2 => ?_) fun _ => trivial
  rw [wp_bind]
  by_cases hcontains : s.drivers.driverMap.contains irqNum = true
  · have hrun : registerListener irqNum s.objects.length s2 = (.error (.error .alreadyExists), s2) := by
      rw [registerListener, hdrivers2, hdrivers, DriverManager.registerListener_of_contains hcontains,
        ← hdrivers, ← hdrivers2]
    rw [wp_of_error hrun]
    have hnone : s.capability p id = none := (hsame.capability p id).symm.trans hwith.fresh
    exact iff_of_false (not_unchanged_of_new hnone ((hwith.self id).trans (if_pos rfl))) fun hno => hno hcontains
  · obtain ⟨drivers, hregister, -⟩ :=
      DriverManager.registerListener_of_not_contains hcontains s.objects.length
    have hrun : registerListener irqNum s.objects.length s2 = (.ok (), { s2 with drivers }) := by
      rw [registerListener, hdrivers2, hdrivers, hregister]
    rw [wp_of_ok hrun]
    exact hcontains

/-! ### Spawning a process -/

theorem wp_createProcess {Q : Nat × Nat → Kernel → Prop} (hQ : ∀ r s', s.Unchanged s' →
      (∀ (k : Nat) y, s.objects[k]? = some y → s'.objects[k]? = some y) → Q r s')
    (hE : E .panics s) : wp (createProcess p) Q E s := by
  rw [createProcess, wp_bind]
  refine wp_createAddressSpace (fun space system => ?_) hE
  rw [wp_bind]
  refine wp_createOther (x := .addressSpace space) (by rintro ⟨⟩) rfl fun s1 hsame _ hold => ?_
  refine hQ _ _ ⟨fun k id => ?_, fun o => ?_⟩ fun k y hk => getElem?_append (hold k y hk)
  · exact (capability_append_process rfl k id).trans (hsame.capability k id)
  · exact (queue_append rfl o).trans (hsame.queue o)

/-- **`ProcessSpawn` leaves the capabilities for the new process behind** when its last argument cannot
be sent. -/
theorem failsCleanly_processSpawn (procCap bootstrapCap : UInt64) : wp (processSpawn p procCap bootstrapCap)
      (fun _ _ => s.FailsCleanly p (.processSpawn procCap bootstrapCap))
      (s.Cleanly (s.FailsCleanly p (.processSpawn procCap bootstrapCap))) s := by
  rw [processSpawn, wp_bind]
  refine wp_getValidCapability (fun c hc htag hperm => ?_) fun hno _ _ => .of_unchanged (.refl s) (Or.inl hno)
  rw [wp_bind]
  refine wp_createProcess (fun r s1 hsame hold => ?_) trivial
  rw [wp_bind]
  refine wp_addNew (fun id s2 hwith1 _ _ => ?_) fun _ => trivial
  rw [wp_bind]
  refine wp_addNew (fun id2 s3 hwith2 _ _ => ?_) fun _ => trivial
  obtain rfl : id2 = id + 1 := Option.some.inj (hwith2.next.symm.trans hwith1.after)
  have hnext : s.nextCapId p = some id := by
    obtain ⟨x, hx, -⟩ := exists_of_capability hc
    rw [← hwith1.next, nextCapId_eq hx, nextCapId_eq (hold p _ hx)]
  -- the two new capabilities can be sent, and the others as before
  have hsendable : s3.Sendable p bootstrapCap ↔
      s.Sendable p bootstrapCap ∨ ∃ id ∈ s.nextCapId p, bootstrapCap = id ∨ bootstrapCap = id + 1 := by
    have hsend : ∀ {n o permissions}, permissions &&& kZionPermTransmit = kZionPermTransmit →
        (⟨n, o, permissions⟩ : Capability).hasPermissions kZionPermTransmit = true :=
      fun hbits => decide_eq_true hbits
    rw [hwith2.sendable, hwith1.sendable, hsame.sendable, hnext, and_iff_left (hsend (by decide)),
      and_iff_left (hsend (by decide)), or_assoc]
    simp
  rw [wp_ite]
  split
  · exact Or.inr (Or.inl ‹_›)
  rename_i hzero
  have hfails : ¬ s3.Sendable p bootstrapCap →
      ∀ code, s.Cleanly (s.FailsCleanly p (.processSpawn procCap bootstrapCap)) (.error code) s3 := by
    intro hnot code
    have hnone : s.capability p id = none := (hsame.capability p id).symm.trans hwith1.fresh
    have hsome := (hwith2.self id).trans ((if_neg (by simp)).trans ((hwith1.self id).trans (if_pos rfl)))
    refine iff_of_false (not_unchanged_of_new hnone hsome) ?_
    rintro (hno | hno | hclean)
    · exact hno ⟨c, hc, htag, hperm⟩
    · exact hzero hno
    · exact hnot (hsendable.mpr hclean)
  rw [wp_bind, getCapability, wp_gets]
  cases hd : s3.capability p bootstrapCap with
  | none =>
    refine hfails ?_ .capNotFound
    rintro ⟨d, hd', -⟩
    cases hd.symm.trans hd'
  | some d =>
    dsimp only
    rw [wp_ite]
    split
    · rename_i hperm'
      refine hfails ?_ .capPermissionDenied
      rintro ⟨d', hd', hsend⟩
      cases hd.symm.trans hd'
      rw [hsend] at hperm'
      cases hperm'
    · rename_i hperm'
      have hclean := hsendable.mp ⟨d, hd, by simpa using hperm'⟩
      rw [wp_bind]
      refine wp_release hd fun s4 _ _ _ => ?_
      rw [wp_bind]
      exact wp_add (fun _ _ _ _ _ => Or.inr (Or.inr hclean)) trivial

theorem failsCleanly_syscallHandler (h : s.WellTyped) (t : Nat) (call : Call) : wp (syscallHandler t p call)
      (fun _ _ => s.FailsCleanly p call) (s.Cleanly (s.FailsCleanly p call)) s := by
  cases call with
  | processExit => exact Quiet.clean (.processExit p _) s s
  | processSpawn => exact failsCleanly_processSpawn _ _
  | processWait => exact clean_processWait _
  | threadCreate => exact clean_threadCreate _
  | threadStart => exact clean_threadStart _ _ _ _
  | threadExit => exact Quiet.clean (.bind (.setThreadState t _) fun _ => .exits) s s
  | threadWait => exact clean_threadWait _
  | threadSleep | unhandled => exact clean_stop (.refl s)
  | addressSpaceMap => exact clean_addressSpaceMap _ _ _ _
  | addressSpaceUnmap => exact clean_addressSpaceUnmap _ _ _
  | memoryObjectCreate => exact Quiet.clean (.memoryObjectCreate p _) s s
  | memoryObjectCreatePhysical => exact Quiet.clean (.memoryObjectCreatePhysical p _ _) s s
  | memoryObjectCreateContiguous => exact Quiet.clean (.memoryObjectCreateContiguous p _) s s
  | memoryObjectDuplicate => exact clean_memoryObjectDuplicate _ _ _
  | memoryObjectInspect => exact clean_memoryObjectInspect _
  | channelCreate => exact Quiet.clean (.channelCreate p) s s
  | channelSend | portSend | replyPortSend =>
    exact wp_mono (wp_sendMessage h (by simp) _ _ _) (fun _ _ hsent => hsent.2) fun _ _ he => he
  | channelRecv | portRecv | replyPortRecv | endpointRecv =>
    exact clean_of_nothingTaken (wp_recvMessage h (by simp) _ _ _)
  | portCreate => exact Quiet.clean (.create p (.port []) ObjectType.port.defaultPermissions) s s
  | portPoll => exact clean_of_nothingTaken (wp_portPoll h _ _ _)
  | irqRegister => exact failsCleanly_irqRegister _
  | endpointCreate => exact Quiet.clean (.create p (.endpoint []) ObjectType.endpoint.defaultPermissions) s s
  | endpointSend =>
    exact wp_mono (wp_endpointSend _ _ _) (fun _ _ hsent => hsent.2) fun _ _ he => he
  | capDuplicate => exact clean_capDuplicate _ _
  | capRelease => exact clean_capRelease _
  | mutexCreate => exact Quiet.clean (.create p (.mutex false) ObjectType.mutex.defaultPermissions) s s
  | mutexLock => exact clean_of_valid fun _ _ => clean_lock
  | mutexRelease =>
    exact clean_of_valid fun _ _ => Quiet.clean (.bind (.update _) fun _ => .pure _) s s
  | semaphoreCreate => exact Quiet.clean (.create p (.semaphore 0) ObjectType.semaphore.defaultPermissions) s s
  | semaphoreWait => exact clean_of_valid fun _ _ => clean_wait
  | semaphoreSignal => exact clean_semaphoreSignal _
  | debug => trivial

end Syscall

namespace Kernel

variable {s : Kernel}

/-! ## The calls of a run -/

/-- The errors of a call change nothing exactly if `clean` holds, or if there are none as it panics. -/
theorem errors_unchanged_iff {clean : Prop} {m : Syscall Response}
    (h : wp m (fun _ _ => clean) (s.Cleanly clean) s) :
    (∀ code s', m s = (.error (.error code), s') → s.Unchanged s') ↔ clean ∨ ∃ s', m s = (.error .panics, s') := by
  rcases hm : m s with ⟨r, s1⟩
  cases r with
  | ok => exact iff_of_true (by simp) (Or.inl (of_wp h hm))
  | error e =>
    have hcleanly := of_wp_error h hm
    cases e with
    | error code =>
      rw [or_iff_left (by simp)]
      refine Iff.trans ⟨fun hall => hall code s1 rfl, fun hs1 code' s' heq => ?_⟩ hcleanly
      cases heq
      exact hs1
    | blocks => exact iff_of_true (by simp) (Or.inl hcleanly.2)
    | exits => exact iff_of_true (by simp) (Or.inl hcleanly)
    | panics => exact iff_of_true (by simp) (Or.inr ⟨s1, rfl⟩)

/-- The error that a call returned. -/
def errorCode : Except Stop Response → Option ErrorCode
  | .error (.error code) => some code
  | _ => none

theorem errorCode_eq_some {r : Except Stop Response} {code : ErrorCode} (h : errorCode r = some code) :
    r = .error (.error code) := by
  rcases r with (_ | _ | _ | _) | _ <;> cases h
  rfl

/-- The first process makes a port, a second capability for it and an endpoint, takes an interrupt,
and sends a message to its port. -/
def busyProcess : List KernelEvent :=
  duplicatedPort ++ [.call 7 .endpointCreate, .call 7 (.irqRegister 1), .call 7 (.portSend 0x101 [1, 2] [])]

end Kernel

end Acadia.Zion
