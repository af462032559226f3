import Acadia.Zion.Syscall.Plain

/-! # Authority never grows

A system call makes new capabilities only for objects that it makes as well, or as a duplicate of one that lets itself
be duplicated. So a step of the kernel gives nobody a permission on an object that was there before, unless somebody
had it. -/

namespace Acadia.Zion

open Glacier Command List Option UInt64

namespace Accounted

open Syscall

variable {allowed : Capability → Prop} {s₀ s : Kernel} {carried : Multiset Capability} {o p t : Nat}

/-! ## Messages -/

theorem wp_sendMessage (h : Accounted allowed s₀ 0 s₀) {type : ObjectType} (htype : type ≠ .endpoint)
    (cap : UInt64) (data : List UInt8) (caps : List UInt64) :
    wp (sendMessage type p cap data caps) (fun _ => AccountedWith True allowed s₀ 0)
      (Stopped allowed s₀) s₀ := by
  rw [sendMessage, wp_bind]
  refine wp_getValidCapability (fun c _ htag _ => ?_) fun _ _ _ => h.stopped (by simp)
  refine wp_seq (h.wp_translateRequestToIpcMessage data caps) fun m s1 ⟨h1, hreply, hserial⟩ => ?_
  have hcaps : Accounted allowed s₀ (↑m.allCaps + 0) s1 := h1.drop (by simp [IpcMessage.allCaps, hreply])
  refine wp_seq (hcaps.wp_send hserial fun hendpoint => ?_) fun _ s2 h2 => h2
  -- the object has kept its type while capabilities were taken from the table
  rw [h1.tags _ _ htag, some.injEq] at hendpoint
  exact absurd hendpoint htype

theorem wp_recvMessage (h : Accounted allowed s₀ 0 s₀) {type : ObjectType} {withReply : Bool}
    (htype : withReply = true ↔ type = .endpoint) (cap numBytes numCaps : UInt64)
    (seen : Option Reread) :
    wp (recvMessage type withReply p cap numBytes numCaps seen) (fun _ => Accounted allowed s₀ 0)
      (Stopped allowed s₀) s₀ := by
  rw [recvMessage, wp_bind]
  refine wp_getValidCapability (fun c _ htag _ => ?_) fun _ _ _ => h.stopped (by simp)
  exact h.wp_receive ⟨type, htag, htype⟩ seen

theorem wp_portPoll (h : Accounted allowed s₀ 0 s₀) (cap numBytes numCaps : UInt64)
    (seen : Option Reread) :
    wp (portPoll p cap numBytes numCaps seen) (fun _ => Accounted allowed s₀ 0)
      (Stopped allowed s₀) s₀ := by
  rw [portPoll, wp_bind]
  refine wp_getValidCapability (fun c _ htag _ => ?_) fun _ _ _ => h.stopped (by simp)
  rw [wp_bind, wp_gets, wp_ite]
  split
  · exact h.wp_fail _
  · exact h.wp_receive ⟨.port, htag, by simp⟩ seen

/-! ## Capabilities -/

theorem wp_capDuplicate (h : Accounted allowed s₀ 0 s₀) {capIn permMask : UInt64}
    (hdup : ∀ c serial, s₀.capability p capIn = some c → c.permissions &&& kZionPermDuplicate ≠ 0 →
      allowed ⟨serial, c.obj, c.permissions &&& permMask⟩) :
    wp (capDuplicate p capIn permMask) (fun _ => Accounted allowed s₀ 0) (Stopped allowed s₀) s₀ := by
  rw [capDuplicate, wp_bind, getCapability, wp_gets]
  cases hcap : s₀.capability p capIn with
  | none => exact h.wp_fail _
  | some c =>
    rw [wp_ite]
    split_ifs with hperm
    · exact h.wp_fail _
    · exact wp_seq (h.wp_addNewCapability fun serial => hdup c serial hcap hperm) fun _ s1 h1 => h1

theorem wp_registerListener (h : Accounted allowed s₀ carried s) {irqNum : UInt64} {port : Nat}
    (hport : s.tag port = some .port) :
    wp (registerListener irqNum port) (fun _ => Accounted allowed s₀ carried) (Stopped allowed s₀) s := by
  by_cases hcontains : s.drivers.driverMap.contains irqNum = true
  · have hrun : registerListener irqNum port s = (.error (.error .alreadyExists), s) := by
      rw [registerListener, DriverManager.registerListener_of_contains hcontains]
    rw [wp_of_error hrun]
    exact h.stopped (by simp)
  obtain ⟨drivers, hdrivers, hfind⟩ :=
    DriverManager.registerListener_of_not_contains hcontains port
  have hrun : registerListener irqNum port s = (.ok (), { s with drivers }) := by
    rw [registerListener, hdrivers]
  rw [wp_of_ok hrun]
  have htags : s.TagsKept { s with drivers } := fun _ _ htag => htag
  refine ⟨h.caps, h.objects, h.tags, h.messages, h.marks, ?_, fun k o hk => ?_, ?_⟩
  · exact fun x hx => (h.typed.objects x hx).mono htags
  · rcases hfind k o hk with ⟨-, rfl⟩ | hold
    · exact hport
    · exact h.typed.drivers k o hold
  · exact fun w hw => (h.typed.waiting w hw).mono htags

theorem releaseAll (h : Accounted allowed s₀ 0 s) {x : Process} (hx : s.objects[p]? = some (.process x))
    {released : List Capability} {caps : CapabilityTable} (hrelease : x.caps.releaseAll = some (released, caps)) :
    Accounted allowed s₀ 0 (s.setObject p (.process { x with caps })) := by
  obtain ⟨-, -, hperm⟩ := CapabilityTable.releaseLoop_spec hrelease
  refine h.setObject hx rfl trivial (fun m hm => absurd hm not_mem_nil) le_rfl ?_
  show 0 + (↑caps.caps : Multiset Capability) ≤ 0 + ↑x.caps.caps
  rw [zero_add, zero_add, Multiset.coe_eq_coe.mpr hperm, ← Multiset.coe_add]
  exact Multiset.le_add_left _ _

/-! ## New objects -/

section Create

variable (hnew : ∀ c, s₀.objects.length ≤ c.obj → allowed c)

include hnew

theorem kept : KeptByParts s₀.objects.length (Accounted allowed s₀ 0) (Stopped allowed s₀) where
  stop h hw := ⟨h, fun w he => hw w he _⟩
  objects h := h.objects
  congr h hobjects hserial hdrivers hwaiting := h.congr hobjects hserial hdrivers (hwaiting ▸ List.Subset.refl _)
  setObject {s o x y} h hx hplain htag hcaps := by
    refine h.setObject hx htag ?_ (fun m hm => ?_) ?_ (by rw [hcaps])
    · cases x <;> cases hplain <;> cases y <;> cases htag <;> trivial
    · cases x <;> cases hplain <;> cases y <;> cases htag <;> cases hm
    · cases x <;> cases hplain <;> cases y <;> cases htag <;> exact le_rfl
  append {s y} h hcaps hmessages hchannel hreply := by
    refine h.append (by simpa using hcaps) (by simpa using hmessages) fun z hz => ?_
    rw [mem_singleton.mp hz]
    cases y with
    | channel => exact absurd rfl hchannel
    | replyPort => exact absurd rfl hreply
    | endpoint queue =>
      obtain rfl : queue = [] := hmessages
      exact nofun
    | _ => trivial
  addNewCapability permissions ho s h := h.wp_addNewCapability fun _ => hnew _ ho
  releaseCapability p id s h := wp_mono (h.wp_releaseCapability id)
    (fun _ _ h1 => h1.drop (Multiset.zero_le _)) fun _ _ he => he
  moveCapability s h := by
    refine wp_seq (h.wp_releaseCapability _) fun released s1 h1 => ?_
    cases released with
    | none => exact h1.wp_panic
    | some => exact wp_seq h1.wp_addExistingCapability fun _ s2 h2 => h2
  releaseAll h hx hrelease := h.releaseAll hx hrelease

theorem wp_channelCreate (h : Accounted allowed s₀ 0 s₀) :
    wp (channelCreate p) (fun _ => Accounted allowed s₀ 0) (Stopped allowed s₀) s₀ := by
  rw [channelCreate, wp_bind, wp_gets, wp_bind, wp_createObject, wp_bind, wp_createObject]
  dsimp only
  rw [append_assoc, singleton_append]
  -- each of the two is the peer of the other
  have h1 : Accounted allowed s₀ 0 { s₀ with objects := s₀.objects ++
      [.channel (s₀.objects.length + 1) [], .channel s₀.objects.length []] } := by
    refine h.append ?_ ?_ ?_
    · simp [KernelObject.allCaps, KernelObject.messages]
    · simp [KernelObject.messages]
    · simp [KernelObject.Typed, Kernel.tag, KernelObject.typeTag]
  refine wp_seq (h1.wp_addNewCapability fun _ => hnew _ le_rfl) fun id s2 h2 => ?_
  refine wp_seq (h2.wp_addNewCapability fun _ => hnew _ ?_) fun id' s3 h3 => h3
  simp

theorem wp_irqRegister (h : Accounted allowed s₀ 0 s₀) (irqNum : UInt64) :
    wp (irqRegister p irqNum) (fun _ => Accounted allowed s₀ 0) (Stopped allowed s₀) s₀ := by
  rw [irqRegister]
  refine wp_seq (h.wp_createEmpty rfl rfl fun _ => trivial) fun o s1 ⟨h1, ho, hport, _⟩ => ?_
  -- the new port is still a port when its capability has been added
  have hself : Accounted (fun _ => True) s1 0 s1 := .refl h1.typed
  have hadd : wp (addNewCapability p o ObjectType.port.defaultPermissions)
      (fun _ => Accounted allowed s₀ 0) (Stopped allowed s₀) s1 :=
    h1.wp_addNewCapability fun _ => hnew _ ho
  have hboth := wp_and hadd (hself.wp_addNewCapability fun _ => trivial)
  refine wp_seq (wp_mono hboth (fun _ _ h2 => h2) fun _ _ he => he.1) fun id s2 ⟨h2, h₂'⟩ => ?_
  exact wp_seq (h2.wp_registerListener (h₂'.tags _ _ (Kernel.tag_of_getElem? hport))) fun _ s3 h3 => h3

theorem wp_endpointSend (h : Accounted allowed s₀ 0 s₀) (cap : UInt64) (data : List UInt8) (caps : List UInt64) :
    wp (endpointSend p cap data caps) (fun _ => AccountedWith True allowed s₀ 0)
      (Stopped allowed s₀) s₀ := by
  rw [endpointSend, wp_bind]
  refine wp_getValidCapability (fun c _ htag _ => ?_) fun _ _ _ => h.stopped (by simp)
  refine wp_seq (h.wp_createEmpty rfl rfl fun _ => ⟨rfl, nofun⟩) fun o s1 ⟨h1, ho, _⟩ => ?_
  refine wp_seq (h1.wp_addNewCapability fun _ => hnew _ ho) fun id s2 h2 => ?_
  refine wp_seq (h2.wp_translateRequestToIpcMessage data caps) fun m s3 ⟨h3, hreply, hserial⟩ => ?_
  refine wp_seq h3.wp_takeSerial fun serial s4 ⟨_, hnext, _, h4⟩ => ?_
  have hcaps := h4 o (kZionPermWrite ||| kZionPermTransmit) (hnew _ ho)
  refine wp_seq ?_ fun _ s5 h5 => h5
  refine wp_send (hcaps.drop (le_of_eq ?_)) ⟨hserial.1, ?_⟩ fun _ => rfl
  · rw [IpcMessage.allCaps, ← Multiset.coe_add, add_zero, add_zero, toList_some,
      Multiset.coe_singleton, add_comm, Multiset.singleton_add]
  · rw [hnext]
    exact hserial.2.trans (Nat.lt_succ_self _)

/-! ## The handler -/

/-- **Every system call accounts for its capabilities**: new ones are for new objects, or duplicates. -/
theorem wp_syscallHandler (h : Accounted allowed s₀ 0 s₀) (call : Call) (seen : Option Reread)
    (hdup : ∀ capIn permMask c serial, call = .capDuplicate capIn permMask →
      s₀.capability p capIn = some c → c.permissions &&& kZionPermDuplicate ≠ 0 →
      allowed ⟨serial, c.obj, c.permissions &&& permMask⟩) :
    wp (syscallHandler t p call seen) (fun _ => AccountedWith (call.sends.isSome = true) allowed s₀ 0)
      (Stopped allowed s₀) s₀ := by
  have hquiet : ∀ {m : Syscall Response}, wp m (fun _ => Accounted allowed s₀ 0) (Stopped allowed s₀) s₀ →
      wp m (fun _ => AccountedWith (call.sends.isSome = true) allowed s₀ 0) (Stopped allowed s₀) s₀ :=
    fun hm => wp_mono hm (fun _ _ h1 => h1.mono False.elim) fun _ _ he => he
  by_cases hplain : call.isPlain = true
  · exact hquiet ((kept hnew).stays_syscallHandler hplain s₀ h)
  have hsend : ∀ {m : Syscall Response}, call.sends.isSome = true →
      wp m (fun _ => AccountedWith True allowed s₀ 0) (Stopped allowed s₀) s₀ →
      wp m (fun _ => AccountedWith (call.sends.isSome = true) allowed s₀ 0) (Stopped allowed s₀) s₀ :=
    fun hsome hm => wp_mono hm (fun _ _ h1 => h1.mono fun _ => hsome) fun _ _ he => he
  cases call with
  | channelCreate => exact hquiet (h.wp_channelCreate hnew)
  | channelSend | portSend | replyPortSend => exact hsend rfl (h.wp_sendMessage (by simp) _ _ _)
  | channelRecv | portRecv | endpointRecv | replyPortRecv =>
    exact hquiet (h.wp_recvMessage (by simp) _ _ _ seen)
  | portPoll portCap numBytes numCaps => exact hquiet (h.wp_portPoll _ _ _ seen)
  | irqRegister => exact hquiet (h.wp_irqRegister hnew _)
  | endpointSend => exact hsend rfl (h.wp_endpointSend hnew _ _ _)
  | capDuplicate capIn permMask =>
    exact hquiet (h.wp_capDuplicate fun c serial => hdup capIn permMask c serial rfl)
  | _ => exact absurd rfl hplain

/-! ## The other steps -/

theorem wp_goOn (h : Accounted allowed s₀ 0 s) {w : Waiting} (hw : w.Typed s) (seen : Option Reread) :
    wp (goOn w seen) (fun _ => Accounted allowed s₀ 0) (Stopped allowed s₀) s := by
  cases w with
  | recv => exact h.wp_receive hw seen
  | lock o => exact (kept hnew).stays_lock o s h
  | semaphore o => exact (kept hnew).stays_wait o s h
  | thread => exact h

end Create

theorem wp_writeMessage (h : Accounted allowed s₀ 0 s) (irqNum : UInt64) (data : List UInt8) :
    wp (writeMessage irqNum data) (fun _ => AccountedWith True allowed s₀ 0) (Stopped allowed s₀) s := by
  rw [writeMessage, wp_bind, wp_gets]
  cases hfind : s.drivers.driverMap.find irqNum with
  | none => exact h.mono False.elim
  | some port =>
    have htag := h.typed.drivers irqNum port hfind
    obtain ⟨-, -, h1, -⟩ := h.wp_takeSerial
    refine (wp_bind _ _).mpr ?_
    refine wp_seq (wp_send (m := ⟨s.nextSerial, data, [], none⟩) ?_ ?_ fun hendpoint => ?_) fun _ s2 h2 => h2
    · simpa [IpcMessage.allCaps] using h1
    · exact ⟨h.caps.le, Nat.lt_succ_self _⟩
    · rw [Kernel.tag] at htag hendpoint
      rw [htag] at hendpoint
      cases hendpoint

/-- At the end of a call, there is a new message only if the call returned `OK`. -/
theorem of_finish {m : Syscall Response} {s' : Kernel} {sends : Prop}
    (hm : wp m (fun _ => AccountedWith sends allowed s₀ 0) (Stopped allowed s₀) s)
    (h : Kernel.finish (m s) = some s') :
    AccountedWith (sends ∧ ∃ r, m s = (.ok r, s')) allowed s₀ 0 s' := by
  cases hs : m s with
  | mk r s1 =>
    rw [hs] at h
    cases r with
    | ok r =>
      cases h
      exact ((wp_of_ok hs).mp hm).mono fun hsends => ⟨hsends, r, rfl⟩
    | error e =>
      have hstopped := (wp_of_error hs).mp hm
      cases e with
      | panics => cases h
      | blocks w =>
        cases h
        -- the thread is put among those that wait
        have h1 := hstopped.accounted
        have htags : s1.TagsKept { s1 with waiting := s1.waiting ++ [w] } := fun _ _ htag => htag
        refine (?_ : AccountedWith False _ _ _ _).mono False.elim
        refine ⟨h1.caps, h1.objects, h1.tags, h1.messages, h1.marks, ?_, h1.typed.drivers, ?_⟩
        · exact fun x hx => (h1.typed.objects x hx).mono htags
        · intro w' hw'
          rcases mem_append.mp hw' with hw' | hw'
          · exact (h1.typed.waiting w' hw').mono htags
          · rw [mem_singleton.mp hw']
            exact (hstopped.waiting w rfl).mono htags
      | _ =>
        cases h
        exact hstopped.accounted.mono False.elim

end Accounted

/-! ## Steps of the kernel -/

namespace Kernel

/-- A capability that a step may make: one for a new object, or a duplicate of one that the caller
has and that carries `kZionPerm_Duplicate`. -/
def MayMake (s : Kernel) (e : KernelEvent) (c : Capability) : Prop :=
  s.objects.length ≤ c.obj ∨
    ∃ t p capIn permMask d, e = .call t (.capDuplicate capIn permMask) ∧ s.processOf t = some p ∧
      s.capability p capIn = some d ∧ d.hasPermissions kZionPermDuplicate = true ∧ c.obj = d.obj ∧
      c.permissions = d.permissions &&& permMask

/-- `CapDuplicate` checks for one bit. -/
theorem hasPermissions_duplicate {d : Capability} (h : d.permissions &&& kZionPermDuplicate ≠ 0) :
    d.hasPermissions kZionPermDuplicate = true := by
  have hand : (d.permissions &&& kZionPermDuplicate).toNat = (d.permissions.toNat.testBit 5).toNat * 2 ^ 5 := by
    rw [UInt64.toNat_and, show kZionPermDuplicate.toNat = 2 ^ 5 from rfl]
    exact Nat.and_two_pow _ 5
  rw [Capability.hasPermissions, decide_eq_true_eq, ← UInt64.toNat_inj, hand]
  cases hbit : d.permissions.toNat.testBit 5 with
  | true => rfl
  | false =>
    rw [hbit] at hand
    exact absurd (UInt64.toNat_inj.mp hand) h

/-- **When a step may send a message**: an interrupt or a send that returns `OK`. -/
def Delivers (s : Kernel) (e : KernelEvent) (s' : Kernel) : Prop :=
  ((∃ irqNum data, e = .irq irqNum data) ∨ ∃ t call, e = .call t call ∧ call.sends.isSome = true) ∧
    ∃ r, s.execute e = some (.ok r, s')

/-- **One step accounts for the capabilities.** -/
theorem step_accounted {s s' : Kernel} {e : KernelEvent} (h : s.WellTyped) (hstep : s.step e = some s') :
    AccountedWith (s.Delivers e s') (s.MayMake e) s 0 s' := by
  have h0 : Accounted (s.MayMake e) s 0 s := .refl h
  have hnew : ∀ c : Capability, s.objects.length ≤ c.obj → s.MayMake e c := fun c hc => Or.inl hc
  have hkept := Accounted.kept hnew
  -- a call that sends nothing
  have hquiet : ∀ {m : Syscall Response} {s1 : Kernel},
      wp m (fun _ => Accounted (s.MayMake e) s 0) (Stopped (s.MayMake e) s) s1 → finish (m s1) = some s' →
      AccountedWith (s.Delivers e s') (s.MayMake e) s 0 s' := fun hm hfinish =>
    (Accounted.of_finish hm hfinish).mono fun hno => hno.1.elim
  have hgoOn : ∀ {i : Nat} {w : Waiting} {seen : Option Reread}, s.waiting[i]? = some w →
      finish (Syscall.goOn w seen { s with waiting := s.waiting.eraseIdx i }) = some s' →
      AccountedWith (s.Delivers e s') (s.MayMake e) s 0 s' := by
    intro i w seen hw hfinish
    have h1 : Accounted (s.MayMake e) s 0 { s with waiting := s.waiting.eraseIdx i } :=
      h0.congr rfl rfl rfl (eraseIdx_subset ..)
    refine hquiet (h1.wp_goOn hnew ?_ seen) hfinish
    exact (h.waiting w (mem_of_getElem? hw)).mono fun _ _ htag => htag
  obtain ⟨r, hexecute, hfinish⟩ := bind_eq_some_iff.mp hstep
  cases e with
  | call t call =>
    obtain ⟨p, hp, rfl⟩ := map_eq_some_iff.mp hexecute
    refine (Accounted.of_finish (h0.wp_syscallHandler hnew call none ?_) hfinish).mono ?_
    · rintro capIn permMask d serial rfl hd hdup
      exact Or.inr ⟨t, p, capIn, permMask, d, rfl, hp, hd, hasPermissions_duplicate hdup, rfl, rfl⟩
    · rintro ⟨hsends, r, hr⟩
      exact ⟨Or.inr ⟨t, call, rfl, hsends⟩, r, by rw [hexecute, hr]⟩
  | callChanged t call seen =>
    rw [execute] at hexecute
    split at hexecute
    · rename_i hreceives
      obtain ⟨p, -, rfl⟩ := map_eq_some_iff.mp hexecute
      refine (Accounted.of_finish (h0.wp_syscallHandler hnew call (some seen) ?_) hfinish).mono ?_
      · rintro capIn permMask d serial rfl
        cases hreceives
      · rintro ⟨hsends, -⟩
        cases call <;> simp [Call.receives, Call.sends] at hreceives hsends
    · cases hexecute
  | goOn i =>
    obtain ⟨w, hw, rfl⟩ := map_eq_some_iff.mp hexecute
    exact hgoOn hw hfinish
  | goOnChanged i seen =>
    obtain ⟨w, hw, rfl⟩ := map_eq_some_iff.mp hexecute
    exact hgoOn hw hfinish
  | irq irqNum data =>
    cases hexecute
    refine (Accounted.of_finish (h0.wp_writeMessage irqNum data) hfinish).mono fun ⟨_, r, hr⟩ => ?_
    exact ⟨Or.inl ⟨_, _, rfl⟩, r, congrArg some hr⟩
  | pageFault p vaddr =>
    cases hexecute
    exact hquiet (hkept.stays_pageFault p vaddr s h0) hfinish
  | exception p =>
    cases hexecute
    exact hquiet (hkept.stays_processExit p _ s h0) hfinish
  | cleanup =>
    unfold execute at hexecute
    cases hlist : s.processList with
    | nil =>
      rw [hlist] at hexecute
      cases hexecute
    | cons p rest =>
      rw [hlist] at hexecute
      cases hexecute
      have h1 : Accounted (s.MayMake .cleanup) s 0 { s with processList := rest } :=
        h0.congr rfl rfl rfl (List.Subset.refl _)
      exact hquiet (hkept.stays_processCleanup p _ h1) hfinish

theorem run_wellTyped {s s' : Kernel} {events : List KernelEvent} (h : s.WellTyped)
    (hrun : Runs.run step s events = some s') : s'.WellTyped :=
  Runs.run_invariant' (fun _ _ _ h hstep => (step_accounted h hstep).typed) h hrun

theorem wellTyped_boot (system : System) (heap : KernelHeap PhysicalMemoryManager)
    (vmmos : List (UInt64 × Nat)) : (boot system heap vmmos).WellTyped := by
  refine ⟨fun x hx => ?_, fun irqNum o ho => ?_, nofun⟩
  · rcases mem_append.mp hx with hx | hx
    · simp only [mem_cons, not_mem_nil, or_false] at hx
      rcases hx with rfl | rfl | rfl | rfl | rfl | rfl | rfl | rfl <;> trivial
    · obtain ⟨vmmo, -, rfl⟩ := mem_map.mp hx
      trivial
  · cases ho

theorem mem_allCaps_of_capability {s : Kernel} {p : Nat} {id : UInt64} {c : Capability}
    (h : s.capability p id = some c) : c ∈ s.allCaps := by
  obtain ⟨x, hx, hc⟩ := bind_eq_some_iff.mp h
  unfold process at hx
  split at hx
  · rename_i y hy
    cases hx
    exact mem_flatMap.mpr ⟨_, mem_of_getElem? hy, CapabilityTable.mem_caps_of_getCapability hc⟩
  · cases hx

/-- A table or a message holds a capability for the object with one of these permissions. -/
def HoldsPermission (s : Kernel) (o : Nat) (permissions : UInt64) : Prop :=
  ∃ c ∈ s.allCaps, c.obj = o ∧ c.permissions &&& permissions ≠ 0

instance (s : Kernel) (o : Nat) (permissions : UInt64) :
    Decidable (s.HoldsPermission o permissions) :=
  inferInstanceAs (Decidable (∃ c ∈ s.allCaps, c.obj = o ∧ c.permissions &&& permissions ≠ 0))

/-- How many capabilities there are for the object. -/
def countCaps (s : Kernel) (o : Nat) : Nat := s.allCaps.countP fun c => c.obj = o

/-- **Authority never grows.** In every state that the kernel reaches, a step gives no permission on an
object that is there unless a table or a message held a capability for it with that permission; and
only `CapDuplicate`, on a capability that carries `kZionPerm_Duplicate`, makes more capabilities for
it. -/
theorem run_authority {s₀ s s' : Kernel} {events : List KernelEvent} {e : KernelEvent}
    (h₀ : s₀.WellTyped) (hrun : Runs.run step s₀ events = some s) (hstep : s.step e = some s') :
    (∀ o permissions, o < s.objects.length → s'.HoldsPermission o permissions → s.HoldsPermission o permissions) ∧
    ∀ o, o < s.objects.length → s.countCaps o < s'.countCaps o →
      ∃ t p capIn permMask d, e = .call t (.capDuplicate capIn permMask) ∧ s.processOf t = some p ∧
        s.capability p capIn = some d ∧ d.hasPermissions kZionPermDuplicate = true ∧ d.obj = o := by
  have haccounted := step_accounted (run_wellTyped h₀ hrun) hstep
  have hcaps := haccounted.caps
  rw [zero_add] at hcaps
  constructor
  · rintro o permissions ho ⟨c, hc, rfl, hperm⟩
    rcases hcaps.mem hc with hold | ⟨hnew | hdup, -⟩
    · exact ⟨c, hold, rfl, hperm⟩
    · omega
    · obtain ⟨t, p, capIn, permMask, d, -, -, hd, -, hobj, hmask⟩ := hdup
      refine ⟨d, mem_allCaps_of_capability hd, hobj.symm, fun hzero => hperm ?_⟩
      rw [hmask, UInt64.and_assoc, UInt64.and_comm permMask, ← UInt64.and_assoc, hzero, UInt64.zero_and]
  · intro o ho hlt
    by_contra hno
    refine absurd (hcaps.countP_le (P := fun c => c.obj = o) fun c hallowed hobj => ?_) (not_le.mpr hlt)
    rcases hallowed with hnew | ⟨t, p, capIn, permMask, d, he, hp, hd, hdup, hobj', -⟩
    · omega
    · exact hno ⟨t, p, capIn, permMask, d, he, hp, hd, hdup, hobj'.symm.trans hobj⟩

/-- A machine with sixty-four free pages after boot, without memory objects. -/
def smallKernel : Kernel :=
  boot ⟨⟨{ memoryBlocks := [⟨0x100000, 64⟩] }, fun _ _ => 0⟩, [], [{ cr3 := 0x1000 }, { cr3 := 0x2000 }]⟩
    { machine := ⟨{}, fun _ _ => 0⟩, cr3 := 0x1000 } []

/-- The first process duplicates the capability for its port. -/
theorem run_authority_duplicatedPort : ∃ s s', Runs.run step smallKernel [.call 7 .portCreate] = some s ∧
      s.step (.call 7 (.capDuplicate 0x100 kZionPermRead)) = some s' ∧ s.countCaps 6 < s'.countCaps 6 ∧
      ¬ s'.HoldsPermission 6 kZionPermLock := by
  have h : (Runs.run step smallKernel [.call 7 .portCreate]).map (fun s =>
      (s.objects.length, decide (s.HoldsPermission 6 kZionPermLock), s.countCaps 6,
        (s.step (.call 7 (.capDuplicate 0x100 kZionPermRead))).map fun s' => s'.countCaps 6)) =
      some (9, false, 1, some 2) := by decide +kernel
  obtain ⟨s, hrun, hs⟩ := map_eq_some_iff.mp h
  simp only [Prod.mk.injEq, map_eq_some_iff, decide_eq_false_iff_not] at hs
  obtain ⟨hlength, hnot, hone, s', hstep, htwo⟩ := hs
  refine ⟨s, s', hrun, hstep, by omega, fun hholds => hnot ?_⟩
  exact (run_authority (wellTyped_boot _ _ _) hrun hstep).1 6 _ (by omega) hholds

end Kernel

end Acadia.Zion
