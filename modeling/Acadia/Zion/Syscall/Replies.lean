import Acadia.Zion.Syscall.Failures

/-! # Requests and their replies

A request carries the capability with which its reply port can be written, and a reply port is written
once and read once. So a receive at a reply port returns what was sent to it, and a receive at an
endpoint returns the right to reply to the request that it returns. -/

namespace Acadia.Zion

open Glacier Command List Option

namespace Syscall

open Kernel

variable {s : Kernel}

/-- An interrupt puts its message into a port. -/
theorem wp_writeMessage_queue (h : s.WellTyped) (irqNum : UInt64) (data : List UInt8) :
    wp (writeMessage irqNum data) (fun _ s' => ∀ o, s.tag o ≠ some .port → s'.queue o = s.queue o)
      (fun _ _ => True) s := by
  rw [writeMessage, wp_bind, wp_gets]
  cases hfind : s.drivers.driverMap.find irqNum with
  | none => exact fun _ _ => rfl
  | some port =>
    have htag := h.drivers irqNum port hfind
    obtain ⟨x, hx, htype⟩ := exists_of_tag htag
    cases x <;> cases htype
    rw [wp_bind, wp_takeSerial, wp_bind, wp_send_iff]
    have htarget : ({ s with nextSerial := s.nextSerial + 1 } : Kernel).sendTarget port = port := by
      rw [sendTarget, hx]
    rw [htarget]
    refine wp_push (fun queue hqueue => ?_) (fun s2 hpushed _ _ => ?_) (fun _ => trivial)
      fun _ _ _ _ _ _ => trivial
    · cases hx.symm.trans hqueue
    · intro o ho
      exact queue_congr (hpushed.others o fun heq => ho (heq ▸ htag))

end Syscall

namespace Kernel

variable {s s' s₀ s₁ s₂ : Kernel} {e : KernelEvent} {p q o : Nat} {m : IpcMessage}
  {data : List UInt8} {ids : List UInt64} {r : Response} {type : ObjectType}
  {events before : List KernelEvent}

theorem NothingTaken.error {code : ErrorCode} (h : s.NothingTaken (.error code) s') :
    code ≠ .internal ∧ s.Unchanged s' :=
  ⟨fun heq => h.2 (congrArg Stop.error heq), h.1.mpr trivial⟩

/-- A receive does not return `INTERNAL`, and where it returns an error it has changed nothing. -/
theorem execute_recv_error (h : s.WellTyped) {t : Nat} {call : Call} (hcall : call.receives.isSome = true)
    {code : ErrorCode} (hexecute : s.execute (.call t call) = some (.error (.error code), s')) :
    code ≠ .internal ∧ s.Unchanged s' := by
  obtain ⟨p, -, hrun⟩ := map_eq_some_iff.mp hexecute
  cases call with
  | channelRecv | portRecv | endpointRecv | replyPortRecv =>
    exact (of_wp_error (Syscall.wp_recvMessage h (by simp) _ _ _) hrun).error
  | portPoll => exact (of_wp_error (Syscall.wp_portPoll h _ _ _) hrun).error
  | _ => cases hcall

theorem execute_goOn_error (h : s.WellTyped) {i : Nat} (hreceives : s.receives (.goOn i) = some (q, o))
    {code : ErrorCode} (hexecute : s.execute (.goOn i) = some (.error (.error code), s')) :
    code ≠ .internal ∧ s.Unchanged s' := by
  rw [receives] at hreceives
  split at hreceives
  · rename_i p k numBytes numCaps withReply hw
    cases hreceives
    rw [execute, hw, map_some, some.injEq] at hexecute
    obtain ⟨type, htag, hiff⟩ := h.waiting _ (mem_of_getElem? hw)
    obtain ⟨hne, hsame⟩ := (of_wp_error (Syscall.wp_receive (h.erase i) q numBytes numCaps
      (hiff.trans ⟨fun heq => htag.trans (congrArg some heq), fun htag' => some.inj (htag.symm.trans htag')⟩))
      hexecute).error
    exact ⟨hne, hsame.capability, hsame.queue⟩
  · cases hreceives

/-! ## Reply ports -/

/-- **A reply port** is not written yet, or holds its message, or was read. -/
theorem replyPort_cases (h : s.WellTyped) (htag : s.tag o = some .replyPort) :
    s.queue o = [] ∧ (s.marks o = (false, false) ∨ s.marks o = (true, true)) ∨
      (∃ m, s.queue o = [m]) ∧ s.marks o = (true, false) := by
  obtain ⟨x, hx, htype⟩ := exists_of_tag htag
  cases x <;> cases htype
  rename_i queue
  obtain ⟨hmessage, hread⟩ := h.objects _ (mem_of_getElem? hx)
  rw [queue_eq hx, marks_of_getElem? hx]
  obtain ⟨hasWritten, hasRead, message⟩ := queue
  cases hasWritten <;> cases hasRead <;> cases message <;>
    simp_all [KernelObject.messages, KernelObject.marks]

section Accounted

variable {sends : Prop} {allowed : Capability → Prop} (ha : AccountedWith sends allowed s 0 s')
  (hs : s.WellTyped) (htag : s.tag o = some .replyPort)

include ha hs htag

/-- A reply port to which a message is sent was not written before. -/
theorem Sent.marks (h : s.Sent p data ids r o m s') :
    s.marks o = (false, false) ∧ s'.marks o = (true, false) := by
  have hmarks := ha.marks o
  have hqueue := h.queue
  rcases replyPort_cases ha.typed (ha.tags o _ htag) with ⟨hnil, -⟩ | ⟨⟨m', hm'⟩, hafter⟩
  · rw [hnil] at hqueue
    simp at hqueue
  rw [hm'] at hqueue
  rcases replyPort_cases hs htag with ⟨-, hbefore | hbefore⟩ | ⟨⟨m'', hm''⟩, -⟩
  · exact ⟨hbefore, hafter⟩
  · rw [hbefore, hafter] at hmarks
    exact absurd hmarks (by decide)
  · rw [hm''] at hqueue
    simp at hqueue

/-- A reply port from which a message is received was not read before. -/
theorem Received.marks (h : s.Received q o r m ids s') :
    s.marks o = (true, false) ∧ s'.marks o = (true, true) := by
  have hmarks := ha.marks o
  have hfront := h.front
  rcases replyPort_cases hs htag with ⟨hnil, -⟩ | ⟨⟨m', hm'⟩, hbefore⟩
  · rw [hnil] at hfront
    cases hfront
  have hrest := h.rest
  rw [hm', tail_cons] at hrest
  rcases replyPort_cases ha.typed (ha.tags o _ htag) with ⟨-, hafter | hafter⟩ | ⟨⟨m'', hm''⟩, -⟩
  · rw [hbefore, hafter] at hmarks
    exact absurd hmarks (by decide)
  · exact ⟨hbefore, hafter⟩
  · rw [hm''] at hrest
    cases hrest

end Accounted

/-! ## Sends -/

/-- Which object an event sends to, in a call for objects of this type. -/
def sendsTo (s : Kernel) (type : ObjectType) : KernelEvent → Option Nat
  | .call t call => do
    let p ← s.processOf t
    let (callType, cap, _, _) ← call.sends
    let c ← s.capability p cap
    if callType = type then some c.obj else none
  | _ => none

theorem sendTarget_of_tag (h : s.tag o = some type) (htype : type ≠ .channel) : s.sendTarget o = o := by
  obtain ⟨x, hx, rfl⟩ := exists_of_tag h
  rw [sendTarget, hx]
  cases x <;> first | rfl | exact absurd rfl htype

/-- **What an event that sends to an object did** when it returned `OK`. -/
theorem sent_of_sendsTo (h : s.WellTyped) (htype : type ≠ .channel) (hto : s.sendsTo type e = some o)
    (hexecute : s.execute e = some (.ok r, s')) :
    s.tag o = some type ∧ ∃ p data ids m, s.Sent p data ids r o m s' := by
  cases e with
  | call t call =>
    simp only [sendsTo, Option.bind_eq_bind, Option.bind_eq_some_iff, Prod.exists] at hto
    obtain ⟨p, hp, callType, cap, data, ids, hsends, c, hc, hobj⟩ := hto
    split at hobj
    · rename_i heq
      cases hobj
      obtain ⟨d, m, hd, htag, hsent⟩ := execute_sends h hp hsends hexecute
      cases hc.symm.trans hd
      rw [heq] at htag
      rw [sendTarget_of_tag htag htype] at hsent
      exact ⟨htag, p, data, ids, m, hsent⟩
    · cases hobj
  | _ => cases hto

/-- **Where a message at an endpoint or a reply port comes from**: it was there before, or it was sent
there. -/
theorem queue_of_step (h : s.WellTyped) (hstep : s.step e = some s') (htag : s'.tag o = some type)
    (htype : type = .endpoint ∨ type = .replyPort) (hm : m ∈ s'.queue o) :
    m ∈ s.queue o ∨ s.sendsTo type e = some o ∧ ∃ r p data ids,
      s.execute e = some (.ok r, s') ∧ s.Sent p data ids r o m s' := by
  have ha := step_accounted h hstep
  rcases ha.messages o m hm with hold | ⟨⟨hevent, r, hexecute⟩, -⟩
  · exact Or.inl hold
  rcases hevent with ⟨irqNum, data, rfl⟩ | ⟨t, call, rfl, hsome⟩
  · -- the message of an interrupt is in a port
    have hqueue := of_wp (Syscall.wp_writeMessage_queue h irqNum data) (some.inj hexecute) o fun hport => ?_
    · exact Or.inl (hqueue ▸ hm)
    · have hkept := ha.tags o _ hport
      rw [htag] at hkept
      rcases htype with rfl | rfl <;> cases hkept
  · obtain ⟨⟨callType, cap, data, ids⟩, hsends⟩ := isSome_iff_exists.mp hsome
    obtain ⟨p, hp, -⟩ := map_eq_some_iff.mp hexecute
    obtain ⟨c, m', hc, hctag, hsent⟩ := execute_sends h hp hsends hexecute
    by_cases ho : o = s.sendTarget c.obj
    · subst ho
      rw [hsent.queue, mem_append, mem_singleton] at hm
      refine hm.imp_right fun heq => ?_
      subst heq
      -- the peer of a channel is a channel
      have hnot : callType ≠ .channel := by
        rintro rfl
        obtain ⟨x, hx, hxtag⟩ := exists_of_tag hctag
        cases x <;> cases hxtag
        have hpeer := ha.tags _ _ (h.objects _ (mem_of_getElem? hx))
        rw [sendTarget, hx] at htag
        rw [htag] at hpeer
        rcases htype with rfl | rfl <;> cases hpeer
      rw [sendTarget_of_tag hctag hnot] at htag hsent ⊢
      obtain rfl : type = callType := some.inj (htag.symm.trans (ha.tags _ _ hctag))
      refine ⟨?_, r, p, data, ids, hexecute, hsent⟩
      simp [sendsTo, hp, hsends, hc]
    · rw [hsent.queues o ho] at hm
      exact Or.inl hm

/-! ## Runs -/

/-- **The event `e` happens in the run of `events` from `s₀`**, after `before`, and returns `OK`: from
the state `s` it leads to `s'`. -/
structure Happens (s₀ : Kernel) (events before : List KernelEvent) (s : Kernel) (e : KernelEvent)
    (r : Response) (s' : Kernel) : Prop where
  split : ∃ after, events = before ++ e :: after
  run : Runs.run step s₀ before = some s
  execute : s.execute e = some (.ok r, s')

theorem Happens.step (h : s₀.Happens events before s₁ e r s₂) : s₁.step e = some s₂ := by
  rw [Kernel.step, h.execute]
  rfl

theorem Happens.run_after (h : s₀.Happens events before s₁ e r s₂) (hrun : Runs.run Kernel.step s₀ events = some s) :
    ∃ after, Runs.run Kernel.step s₂ after = some s := by
  obtain ⟨after, hsplit⟩ := h.split
  rw [hsplit, Runs.run_append, h.run, bind_some, Runs.run_cons, h.step, bind_some] at hrun
  exact ⟨after, hrun⟩

/-- What a run keeps: the types of objects, and what has happened to reply ports. -/
theorem run_kept (h : s.Valid) (hrun : Runs.run step s events = some s') :
    s.TagsKept s' ∧ (∀ o, s.marks o ≤ s'.marks o) ∧ s.nextSerial ≤ s'.nextSerial := by
  refine (Runs.run_invariant' (P := fun s' => s'.Valid ∧ s.TagsKept s' ∧ (∀ o, s.marks o ≤ s'.marks o) ∧
    s.nextSerial ≤ s'.nextSerial) ?_ ⟨h, fun _ _ htag => htag, fun _ => le_rfl, le_rfl⟩ hrun).2
  rintro s1 e s2 ⟨h1, htags, hmarks, hserial⟩ hstep
  have ha := step_accounted h1.typed hstep
  exact ⟨h1.step hstep, fun o type htag => ha.tags o _ (htags o _ htag),
    fun o => (hmarks o).trans (ha.marks o), hserial.trans ha.caps.le⟩

theorem exists_tag_of_mem (h : m ∈ s.queue o) : ∃ type, s.tag o = some type := by
  obtain ⟨x, hx, -⟩ := mem_queue_iff.mp h
  exact ⟨_, tag_of_getElem? hx⟩

/-- **A message that waits at an endpoint or a reply port was sent there** by an event of the run. -/
theorem exists_send {system : System} {heap : KernelHeap PhysicalMemoryManager} {vmmos : List (UInt64 × Nat)}
    (hrun : Runs.run step (boot system heap vmmos) events = some s) (htag : s.tag o = some type)
    (htype : type = .endpoint ∨ type = .replyPort) (hm : m ∈ s.queue o) :
    ∃ before s₁ e r s₂, (boot system heap vmmos).Happens events before s₁ e r s₂ ∧
      s₁.sendsTo type e = some o ∧ ∃ p data ids, s₁.Sent p data ids r o m s₂ := by
  have hboot := valid_boot system heap vmmos
  -- an object with a message has its type for good
  have hkept : ∀ {s₁ after}, s₁.Valid → Runs.run step s₁ after = some s → m ∈ s₁.queue o →
      s₁.tag o = some type := by
    intro s₁ after hs₁ hafter hm
    obtain ⟨type', htag'⟩ := exists_tag_of_mem hm
    rw [htag', ← htag, (run_kept hs₁ hafter).1 o _ htag']
  have hnot : m ∉ (boot system heap vmmos).queue o := by
    intro hm
    have hport := hkept hboot hrun hm
    obtain ⟨x, hx, hmx⟩ := mem_queue_iff.mp hm
    have hmem := mem_of_getElem? hx
    rw [tag_of_getElem? hx, some.injEq] at hport
    simp only [boot, mem_append, mem_cons, not_mem_nil, or_false, List.mem_map] at hmem
    rcases hmem with (rfl | rfl | rfl | rfl | rfl | rfl | rfl | rfl) | ⟨vmmo, -, rfl⟩ <;>
      rcases htype with rfl | rfl <;> cases hport
  obtain ⟨before, e, after, s₁, s₂, hsplit, hbefore, hstep, hafter, hmade, hnew⟩ :=
    Runs.exists_origin (I := Valid) (P := fun s => m ∈ s.queue o)
      (M := fun s _ s' => m ∈ s'.queue o ∧ m ∉ s.queue o) (fun _ _ _ h hstep => h.step hstep)
      (fun s1 _ s2 _ _ hm => by by_cases hold : m ∈ s1.queue o <;> simp [hold, hm]) hboot hnot hrun hm
  have hs₁ := hboot.run hbefore
  obtain ⟨hto, r, p, data, ids, hexecute, hsent⟩ := (queue_of_step hs₁.typed hstep
    (hkept (hs₁.step hstep) hafter hmade) htype hmade).resolve_left hnew
  exact ⟨before, s₁, e, r, s₂, ⟨⟨after, hsplit⟩, hbefore, hexecute⟩, hto, p, data, ids, hsent⟩

/-- **A message is sent by one event of a run at most**: the numbers of messages are given out once. -/
theorem Happens.before_eq {before' : List KernelEvent} {e' : KernelEvent} {s₁' s₂' : Kernel} {p' o' : Nat}
    {data' : List UInt8} {ids' : List UInt64} {r' : Response} (hvalid : s₀.Valid)
    (h : s₀.Happens events before s₁ e r s₂) (h' : s₀.Happens events before' s₁' e' r' s₂')
    (hm : s₁.Sent p data ids r o m s₂) (hm' : s₁'.Sent p' data' ids' r' o' m s₂') : before = before' := by
  obtain ⟨after, hsplit⟩ := h.split
  obtain ⟨after', hsplit'⟩ := h'.split
  -- the later of two events gives out higher numbers
  have hlater : ∀ {before before' : List KernelEvent} {e : KernelEvent} {r s₁ s₂ s₁' tail tail'},
      s₀.Happens events before s₁ e r s₂ → Runs.run Kernel.step s₀ before' = some s₁' →
      events = before ++ e :: tail → events = before' ++ tail' → before.length < before'.length →
      s₂.nextSerial ≤ s₁'.nextSerial := by
    intro before before' e r s₁ s₂ s₁' tail tail' h hrun' hsplit hsplit' hlt
    have hpre : before ++ [e] <+: before' := by
      refine prefix_of_prefix_length_le ⟨tail, ?_⟩ ⟨tail', hsplit'.symm⟩ ?_
      · rw [hsplit, append_assoc, singleton_append]
      · rw [length_append, length_singleton]
        exact hlt
    obtain ⟨between, rfl⟩ := hpre
    rw [append_assoc, Runs.run_append, h.run, bind_some, singleton_append, Runs.run_cons, h.step, bind_some] at hrun'
    exact (run_kept ((hvalid.run h.run).step h.step) hrun').2.2
  have hserial := hm.serial
  have hserial' := hm'.serial
  refine append_inj_left (hsplit.symm.trans hsplit') (le_antisymm (not_lt.mp fun hlt => ?_) (not_lt.mp fun hlt => ?_))
  · have hle := hlater h' h.run hsplit' hsplit hlt
    omega
  · have hle := hlater h h'.run hsplit hsplit' hlt
    omega

/-- The first process makes an endpoint, sends a request to itself, receives it and replies. -/
def answeredRequest : List KernelEvent :=
  [.call 7 .endpointCreate, .call 7 (.endpointSend 0x101 [1] []), .call 7 (.endpointRecv 0x101 8 0),
    .call 7 (.replyPortSend 0x103 [2, 3] [])]

end Kernel

end Acadia.Zion
