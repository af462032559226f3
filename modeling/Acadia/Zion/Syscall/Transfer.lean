import Acadia.Zion.Syscall.Authority
import Acadia.Zion.Syscall.Tables

/-! # Capabilities are moved

A send that returns `OK` moves the capabilities of its ids from the table of the sender into one message at the end of a
queue. While the message waits they are in no table; and the receive that takes the message puts the same capabilities,
in the same order, under new ids into the table of the receiver. -/

namespace Acadia.Zion

open Glacier Command List Option Capability

/-! ## Valid states -/

/-- What holds of every state that the kernel reaches. -/
structure Kernel.Valid (s : Kernel) : Prop where
  typed : s.WellTyped
  /-- Every capability is in one place. -/
  distinct : Custody.Distinct serial s.held s.nextSerial
  /-- The numbers of messages were given out. -/
  messages : ∀ m ∈ s.messages, m.serial < s.nextSerial

namespace Kernel

variable {s s' : Kernel} {e : KernelEvent}

theorem mem_messages_iff {m : IpcMessage} : m ∈ s.messages ↔ ∃ o, m ∈ s.queue o := by
  constructor
  · intro hm
    obtain ⟨x, hx, hmx⟩ := mem_flatMap.mp hm
    obtain ⟨o, ho⟩ := mem_iff_getElem?.mp hx
    exact ⟨o, mem_queue_iff.mpr ⟨x, ho, hmx⟩⟩
  · rintro ⟨o, hm⟩
    obtain ⟨x, hx, hmx⟩ := mem_queue_iff.mp hm
    exact mem_flatMap.mpr ⟨x, mem_of_getElem? hx, hmx⟩

theorem Valid.step (h : s.Valid) (hstep : s.step e = some s') : s'.Valid := by
  have haccounted := step_accounted h.typed hstep
  have hcaps := haccounted.caps
  refine ⟨haccounted.typed, hcaps.distinct h.distinct, fun m hm => ?_⟩
  obtain ⟨o, ho⟩ := mem_messages_iff.mp hm
  rcases haccounted.messages o m ho with hold | ⟨-, -, hlt⟩
  · exact (h.messages m (mem_messages_iff.mpr ⟨o, hold⟩)).trans_le hcaps.le
  · exact hlt

theorem Valid.run {events : List KernelEvent} (h : s.Valid)
    (hrun : Runs.run Kernel.step s events = some s') : s'.Valid :=
  Runs.run_invariant' (fun _ _ _ h hstep => h.step hstep) h hrun

theorem serials_initMessages (l : List (UInt64 × Nat × ObjectType)) :
    ((l.mapIdx fun i (init, obj, type) => writeKernel (1 + 2 * i) init obj type).flatMap
      IpcMessage.allCaps).map serial = (List.range l.length).map fun i => 2 * i + 2 := by
  induction l using reverseRecOn with
  | nil => rfl
  | append_singleton l a ih =>
    rw [mapIdx_concat, flatMap_append, map_append, ih, length_append, length_singleton, range_succ, map_append]
    simp [IpcMessage.allCaps, writeKernel]
    omega

theorem allCaps_boot (system : System) (heap : KernelHeap PhysicalMemoryManager)
    (vmmos : List (UInt64 × Nat)) : (boot system heap vmmos).allCaps =
      ⟨0, 6, ObjectType.port.defaultPermissions⟩ :: (initMessages vmmos).flatMap IpcMessage.allCaps := by
  have hmemory : (vmmos.map fun vmmo => KernelObject.memoryObject vmmo.2).flatMap KernelObject.allCaps = [] := by
    rw [flatMap_eq_nil_iff]
    intro x hx
    obtain ⟨vmmo, -, rfl⟩ := mem_map.mp hx
    rfl
  rw [allCaps, boot, flatMap_append, hmemory, append_nil]
  show [] ++ ([] ++ ([] ++ ([] ++ ([] ++ (initCaps.caps ++ (_ ++ ([] ++ []))))))) = _
  simp
  rfl

theorem valid_boot (system : System) (heap : KernelHeap PhysicalMemoryManager)
    (vmmos : List (UInt64 × Nat)) : (boot system heap vmmos).Valid := by
  have hserials : ((boot system heap vmmos).allCaps).map serial =
      0 :: (List.range (initObjects vmmos).length).map fun i => 2 * i + 2 := by
    rw [allCaps_boot, map_cons, initMessages, serials_initMessages]
  refine ⟨wellTyped_boot system heap vmmos, ⟨?_, fun c hc => ?_⟩, fun m hm => ?_⟩
  · rw [held, Multiset.map_coe, Multiset.coe_nodup, hserials, nodup_cons]
    refine ⟨by simp, List.Nodup.map (fun i j (hij : 2 * i + 2 = 2 * j + 2) => ?_) nodup_range⟩
    omega
  · have hmem : c.serial ∈ ((boot system heap vmmos).allCaps).map serial :=
      mem_map_of_mem hc
    rw [hserials, mem_cons, List.mem_map] at hmem
    show c.serial < 1 + 2 * (initObjects vmmos).length
    rcases hmem with hzero | ⟨i, hi, hserial⟩
    · omega
    · have hi := mem_range.mp hi
      omega
  · have hm : m ∈ initMessages vmmos := by
      obtain ⟨x, hx, hmx⟩ := mem_flatMap.mp hm
      rcases mem_append.mp hx with hx | hx
      · simp only [mem_cons, not_mem_nil, or_false] at hx
        rcases hx with rfl | rfl | rfl | rfl | rfl | rfl | rfl | rfl <;> first | exact hmx | cases hmx
      · obtain ⟨vmmo, -, rfl⟩ := mem_map.mp hx
        cases hmx
    obtain ⟨i, hi, rfl⟩ := mem_mapIdx.mp hm
    show 1 + 2 * i < 1 + 2 * (initObjects vmmos).length
    omega

/-- **A message that waits and a table have no capability in common.** -/
theorem Valid.not_mem_table (h : s.Valid) {m : IpcMessage} (hm : m ∈ s.messages) {c d : Capability}
    (hc : c ∈ m.allCaps) {q : Nat} {id : UInt64} (hd : s.capability q id = some d) : d.serial ≠ c.serial := by
  obtain ⟨x, hx, hget⟩ := exists_of_capability hd
  obtain ⟨y, hy, hmy⟩ := mem_flatMap.mp hm
  obtain ⟨o, ho, rfl⟩ := getElem_of_mem hy
  obtain ⟨hq, hqx⟩ := List.getElem?_eq_some_iff.mp hx
  have hdx : d.serial ∈ (s.objects[q].allCaps).map serial := by
    rw [hqx]
    exact mem_map_of_mem (CapabilityTable.mem_caps_of_getCapability hget)
  -- a process has no messages, so the two are different objects
  have hne : o ≠ q := by
    rintro rfl
    rw [hqx] at hmy
    cases hmy
  have hcy : c ∈ s.objects[o].allCaps := by
    have hflat : c ∈ s.objects[o].messages.flatMap IpcMessage.allCaps :=
      mem_flatMap.mpr ⟨m, hmy, hc⟩
    cases hobject : s.objects[o] with
    | process =>
      rw [hobject] at hmy
      cases hmy
    | _ =>
      rw [hobject] at hflat
      exact hflat
  have hnodup : (s.objects.flatMap fun x => x.allCaps.map serial).Nodup := by
    have hdistinct := h.distinct.nodup
    rw [held, Multiset.map_coe, Multiset.coe_nodup, allCaps, map_flatMap] at hdistinct
    exact hdistinct
  have hdisjoint := (nodup_flatMap.mp hnodup).2
  intro heq
  have hcx : d.serial ∈ (s.objects[o].allCaps).map serial :=
    heq ▸ mem_map_of_mem hcy
  rcases Nat.lt_or_gt_of_ne hne with hlt | hlt
  · exact pairwise_iff_getElem.mp hdisjoint o q ho hq hlt hcx hdx
  · exact pairwise_iff_getElem.mp hdisjoint q o hq ho hlt hdx hcx

end Kernel

/-! ## Sends -/

/-- **What a send of the process `p` did**: the capabilities of the ids are in the message `m`, which
is new and at the end of the queue of `o`, and no longer in the table of the sender; the only other
change of a table is the capability for the reply to an endpoint, under a new id. -/
structure Kernel.Sent (s : Kernel) (p : Nat) (data : List UInt8) (ids : List UInt64) (r : Response)
    (o : Nat) (m : IpcMessage) (s' : Kernel) : Prop where
  data : m.data = data
  caps : ids.map (s.capability p) = m.caps.map some
  /-- The message is a new one. -/
  serial : s.nextSerial ≤ m.serial ∧ m.serial < s'.nextSerial
  queue : s'.queue o = s.queue o ++ [m]
  queues : ∀ k, k ≠ o → s'.queue k = s.queue k
  /-- The ids are not in use any more. -/
  taken : ∀ id ∈ ids, s'.capability p id = none
  /-- All other entries of the sender's table. -/
  kept : ∀ id, id ∉ ids → r ≠ .word id → s'.capability p id = s.capability p id
  /-- The id of a new entry was not in use. -/
  fresh : ∀ id, r = .word id → s.capability p id = none
  others : ∀ q id, q ≠ p → s'.capability q id = s.capability q id
  /-- The capability for the reply is for writing to a reply port that was just created. -/
  reply : ∀ c, m.replyCap = some c → c.obj = s.objects.length ∧
    c.permissions = kZionPermWrite ||| kZionPermTransmit ∧ s'.objects[c.obj]? = some (.replyPort {})

/-- What a send did, for the capability under an id. -/
def Kernel.SentFor (s : Kernel) (p : Nat) (type : ObjectType) (cap : UInt64) (data : List UInt8)
    (ids : List UInt64) (r : Response) (s' : Kernel) : Prop :=
  ∃ c m, s.capability p cap = some c ∧ s.tag c.obj = some type ∧
    s.Sent p data ids r (s.sendTarget c.obj) m s'

namespace Kernel

variable {s s' : Kernel} {p : Nat}

/-- The reply port of a capability was written. -/
def Answered (s : Kernel) (p : Nat) (cap : UInt64) : Prop :=
  ∃ c queue, s.capability p cap = some c ∧ s.objects[c.obj]? = some (.replyPort queue) ∧
    queue.hasWritten = true

/-- **When an error of a send changes nothing**: the capability for the queue is not valid, the message
is too long, the first capability cannot be taken, or all can, and the queue takes the message. -/
def SendFailsCleanly (s : Kernel) (type : ObjectType) (p : Nat) (cap : UInt64) (data : List UInt8)
    (ids : List UInt64) : Prop :=
  ¬ s.HasValid p cap type kZionPermWrite ∨ 0x1000 < data.length ∨
    (¬ ∃ id ∈ ids.head?, s.Sendable p id) ∨ s.AllSendable p ids ∧ ¬ s.Answered p cap

/-- **When an error of `EndpointSend` changes nothing**: the capability for the reply is added before the
message is made. -/
def EndpointSendFailsCleanly (s : Kernel) (p : Nat) (cap : UInt64) (data : List UInt8) (ids : List UInt64) : Prop :=
  ¬ s.HasValid p cap .endpoint kZionPermWrite ∨ data.length ≤ 0x1000 ∧ s.AllSendable p ids

/-- **A send that stops loses the capabilities that it has taken**, at the first that it cannot take or
at a reply port that was written: it changes nothing if it has taken none. -/
theorem Without.unchanged_iff {type : ObjectType} {cap : UInt64} {data : List UInt8} {ids : List UInt64} {n : Nat}
    (h : s.Without p (ids.take n) s') (htaken : s.AllSendable p (ids.take n))
    (hvalid : s.HasValid p cap type kZionPermWrite) (hsize : data.length ≤ 0x1000)
    (hstop : ¬ s.AllSendable p (ids.take (n + 1)) ∨ ids.take n = ids ∧ s.Answered p cap) :
    s.Unchanged s' ↔ s.SendFailsCleanly type p cap data ids := by
  cases ids with
  | nil => exact iff_of_true (Without.unchanged (by simpa using h)) (Or.inr (Or.inr (Or.inl (by simp))))
  | cons id ids =>
    cases n with
    | zero =>
      refine iff_of_true h.unchanged (Or.inr (Or.inr (Or.inl ?_)))
      rintro ⟨_, ⟨⟩, hsend⟩
      rcases hstop with hstop | ⟨hnil, -⟩
      · exact hstop ⟨nodup_singleton id, by simpa using hsend⟩
      · cases hnil
    | succ n =>
      have hid : id ∈ (id :: ids).take (n + 1) := mem_cons_self
      obtain ⟨d, hd, hsend⟩ := htaken.2 id hid
      refine iff_of_false (fun hsame => ?_) ?_
      · have hgone := (h.self id).symm.trans (hsame.capability p id)
        rw [if_pos hid, hd] at hgone
        cases hgone
      rintro (hno | hlarge | hfirst | ⟨hall, hno⟩)
      · exact hno hvalid
      · omega
      · exact hfirst ⟨id, rfl, d, hd, hsend⟩
      · rcases hstop with hstop | ⟨-, hwritten⟩
        · exact hstop ⟨hall.1.sublist (take_sublist _ _), fun j hj => hall.2 j (mem_of_mem_take hj)⟩
        · exact hno hwritten

end Kernel

namespace Syscall

open Kernel

variable {s : Kernel} {p : Nat}

theorem ne_of_tag {id : UInt64} {c : Capability} {o : Nat} {type : ObjectType}
    (hc : s.capability p id = some c) (htag : s.tag o = some type) (htype : type ≠ .process) : o ≠ p := by
  rintro rfl
  obtain ⟨x, hx, -⟩ := exists_of_capability hc
  rw [tag_of_getElem? hx] at htag
  cases htag
  exact htype rfl

theorem sendTarget_ne (h : s.WellTyped) {id : UInt64} {c d : Capability} {type : ObjectType}
    (hc : s.capability p id = some c) (htag : s.tag d.obj = some type) (htype : type ≠ .process) :
    s.sendTarget d.obj ≠ p := by
  unfold sendTarget
  split
  · rename_i peer queue ho
    have hpeer : s.tag peer = some .channel := h.objects _ (mem_of_getElem? ho)
    exact ne_of_tag hc hpeer nofun
  · exact ne_of_tag hc htag htype

theorem message_eq_none (h : s.WellTyped) {o : Nat} {queue : SingleMessageQueue}
    (ho : s.objects[o]? = some (.replyPort queue)) (hwritten : queue.hasWritten = false) : queue.message = none := by
  simpa [hwritten] using (h.objects _ (mem_of_getElem? ho)).1

/-- **The rule for sends**, but for those to an endpoint. -/
theorem wp_sendMessage (h : s.WellTyped) {type : ObjectType} (htype : type ≠ .process) (cap : UInt64)
    (data : List UInt8) (ids : List UInt64) : wp (sendMessage type p cap data ids)
      (fun r s' => s.SentFor p type cap data ids r s' ∧ s.SendFailsCleanly type p cap data ids)
      (s.Cleanly (s.SendFailsCleanly type p cap data ids)) s := by
  rw [sendMessage, wp_bind]
  refine wp_getValidCapability (fun c hc htag hperm => ?_) fun hno _ _ => .of_unchanged (.refl s) (Or.inl hno)
  rw [wp_bind]
  refine wp_translate (fun caps s1 hsize hall hmap hwithout hserial => ?_)
    (fun hlarge => .of_unchanged (.refl s) (Or.inr (Or.inl hlarge))) fun code n s1 hsize hnot htaken hwithout =>
      hwithout.unchanged_iff htaken ⟨c, hc, htag, hperm⟩ hsize (Or.inl hnot)
  have ho : c.obj ≠ p := ne_of_tag hc htag htype
  have hp : s.sendTarget c.obj ≠ p := sendTarget_ne h hc htag htype
  have htarget : s1.sendTarget c.obj = s.sendTarget c.obj := by
    rw [sendTarget, sendTarget, hwithout.others _ ho]
  rw [wp_bind, wp_send_iff, htarget]
  refine wp_push (fun queue hqueue => ?_) (fun s2 hpushed hserial' hunwritten => ⟨?_, ?_⟩) (fun _ => trivial)
    fun queue code s2 hqueue hcase hobjects => ?_
  · rw [hwithout.others _ hp] at hqueue
    exact message_eq_none h hqueue
  · refine ⟨c, ⟨s.nextSerial, data, caps, none⟩, hc, htag, rfl, hmap, ⟨le_rfl, ?_⟩, ?_,
      fun k hk => ?_, fun id hid => ?_, fun id hid _ => ?_, ?_, fun q id hq => ?_, ?_⟩
    · show s.nextSerial < s2.nextSerial
      omega
    · rw [hpushed.queue, hwithout.queue_eq]
    · rw [queue_congr (hpushed.others k hk), hwithout.queue_eq]
    · rw [hpushed.capability, hwithout.self, if_pos hid]
    · rw [hpushed.capability, hwithout.self, if_neg hid]
    · rintro _ ⟨⟩
    · rw [hpushed.capability, capability_congr (hwithout.others q hq)]
    · rintro _ ⟨⟩
  · refine Or.inr (Or.inr (Or.inr ⟨hall, ?_⟩))
    rintro ⟨d, queue, hd, hqueue, hw⟩
    cases hc.symm.trans hd
    rw [hunwritten queue (by rw [hwithout.others _ hp, sendTarget, hqueue]; exact hqueue)] at hw
    cases hw
  · -- the reply port was written, and the capabilities go away with the message
    rw [hwithout.others _ hp] at hqueue
    have hself : s.sendTarget c.obj = c.obj := by
      unfold sendTarget
      split
      · rename_i peer queue' hchannel
        have hpeer : s.tag peer = some .channel := h.objects _ (mem_of_getElem? hchannel)
        rw [sendTarget, hchannel] at hqueue
        rw [tag_of_getElem? hqueue] at hpeer
        cases hpeer
      · rfl
    have hlost := hwithout.congr hobjects
    rw [← take_length (l := ids)] at hlost
    exact hlost.unchanged_iff (by rwa [take_length]) ⟨c, hc, htag, hperm⟩ hsize
      (Or.inr ⟨take_length, c, queue, hc, hself ▸ hqueue, hcase.resolve_left (by rintro ⟨⟩)⟩)

theorem wp_endpointSend (cap : UInt64) (data : List UInt8) (ids : List UInt64) : wp (endpointSend p cap data ids)
      (fun r s' => s.SentFor p .endpoint cap data ids r s' ∧ s.EndpointSendFailsCleanly p cap data ids)
      (s.Cleanly (s.EndpointSendFailsCleanly p cap data ids)) s := by
  rw [endpointSend, wp_bind]
  refine wp_getValidCapability (fun c hc htag hperm => ?_) fun hno _ _ => .of_unchanged (.refl s) (Or.inl hno)
  have hvalid : s.HasValid p cap .endpoint kZionPermWrite := ⟨c, hc, htag, hperm⟩
  -- the new reply port changes no table and no queue
  rw [wp_bind, wp_createObject]
  have hold : ∀ k x, s.objects[k]? = some x →
      ({ s with objects := s.objects ++ [.replyPort {}] } : Kernel).objects[k]? = some x :=
    fun k x hk => getElem?_append hk
  have hcap : ∀ k j, ({ s with objects := s.objects ++ [.replyPort {}] } : Kernel).capability k j =
      s.capability k j := capability_append (by rintro ⟨⟩)
  have hqueue : ∀ k, ({ s with objects := s.objects ++ [.replyPort {}] } : Kernel).queue k =
      s.queue k := queue_append rfl
  have hserial : ({ s with objects := s.objects ++ [.replyPort {}] } : Kernel).nextSerial = s.nextSerial := rfl
  have hport : ({ s with objects := s.objects ++ [.replyPort {}] } : Kernel).objects[s.objects.length]? =
      some (.replyPort {}) := getElem?_concat_length
  generalize ({ s with objects := s.objects ++ [.replyPort {}] } : Kernel) = s1 at *
  rw [wp_bind]
  refine wp_addNew (fun replyId s2 hwith hserial2 _ => ?_) fun _ => trivial
  have hnone : s.capability p replyId = none := (hcap p replyId).symm.trans hwith.fresh
  have hsome := (hwith.self replyId).trans (if_pos rfl)
  -- the new capability cannot be sent, and the others as before
  have hread : kZionPermRead &&& kZionPermTransmit ≠ kZionPermTransmit := by decide
  have hsendable : ∀ j, s2.Sendable p j ↔ s.Sendable p j := by
    intro j
    rw [hwith.sendable, or_iff_left (fun h => hread (of_decide_eq_true h.2)), Sendable, Sendable, hcap]
  have hkept : ∀ {js}, s2.AllSendable p js → replyId ∉ js := by
    intro js hall hmem
    obtain ⟨d, hd, -⟩ := (hsendable replyId).mp (hall.2 replyId hmem)
    rw [hnone] at hd
    cases hd
  rw [wp_bind]
  refine wp_translate (fun caps s3 hsize hall hmap hwithout hserial3 => ?_) (fun hlarge => ?_)
    fun code n s3 hsize hstop htaken hwithout => ?_
  rotate_left
  · refine iff_of_false (not_unchanged_of_new hnone hsome) ?_
    rintro (hno | ⟨hle, -⟩)
    · exact hno hvalid
    · omega
  · have hsome3 := (hwithout.self replyId).trans ((if_neg (hkept htaken)).trans hsome)
    refine iff_of_false (not_unchanged_of_new hnone hsome3) ?_
    rintro (hno | ⟨-, hnodup, hall⟩)
    · exact hno hvalid
    · exact hstop ⟨hnodup.sublist (take_sublist _ _), fun j hj => (hsendable j).mpr (hall j (mem_of_mem_take hj))⟩
  obtain ⟨x, hx, hendpoint⟩ := exists_of_tag htag
  have ho : c.obj ≠ p := ne_of_tag hc htag (by rintro ⟨⟩)
  have hx3 : s3.objects[c.obj]? = some x := by
    rw [hwithout.others _ ho, hwith.others _ ho, hold _ _ hx]
  cases x <;> cases hendpoint
  rw [wp_bind, wp_takeSerial, wp_bind, wp_send_iff]
  have htarget : ({ s3 with nextSerial := s3.nextSerial + 1 } : Kernel).sendTarget c.obj = c.obj := by
    rw [sendTarget, hx3]
  rw [htarget]
  -- an endpoint takes every message
  have hno : ∀ queue', s3.objects[c.obj]? ≠ some (.replyPort queue') := by simp [hx3]
  refine wp_push (fun queue' hqueue' => absurd hqueue' (hno queue')) (fun s4 hpushed hserial4 _ => ⟨?_, ?_⟩)
    (fun _ => trivial) fun queue' _ _ hqueue' => absurd hqueue' (hno queue')
  swap
  · exact Or.inr ⟨hsize, hall.1, fun j hj => (hsendable j).mp (hall.2 j hj)⟩
  have hsame : ∀ id ∈ ids, s2.capability p id = s.capability p id := by
    intro id hid
    have hne : id ≠ replyId := fun heq => hkept hall (heq ▸ hid)
    rw [hwith.self, if_neg hne, hcap]
  have hmap' : ids.map (s.capability p) = caps.map some :=
    (map_congr_left hsame).symm.trans hmap
  have htarget' : s.sendTarget c.obj = c.obj := by rw [sendTarget, hx]
  refine ⟨c, ⟨s2.nextSerial, data, caps, some ⟨s3.nextSerial, s.objects.length,
    kZionPermWrite ||| kZionPermTransmit⟩⟩, hc, htag, rfl, hmap', ⟨?_, ?_⟩, ?_, fun k hk => ?_, fun id hid => ?_,
    fun id hid hr => ?_, fun id hid => ?_, fun q id hq => ?_, fun d hd => ?_⟩
  · show s.nextSerial ≤ s2.nextSerial
    omega
  · show s2.nextSerial < s4.nextSerial
    rw [hserial4]
    show s2.nextSerial < s3.nextSerial + 1
    omega
  · rw [htarget', hpushed.queue]
    show s3.queue c.obj ++ _ = _
    rw [hwithout.queue_eq, hwith.queue_eq, hqueue]
  · rw [htarget'] at hk
    rw [queue_congr (hpushed.others k hk)]
    show s3.queue k = _
    rw [hwithout.queue_eq, hwith.queue_eq, hqueue]
  · rw [hpushed.capability]
    show s3.capability p id = none
    rw [hwithout.self, if_pos hid]
  · rw [hpushed.capability]
    show s3.capability p id = _
    rw [hwithout.self, if_neg hid, hwith.self, if_neg, hcap]
    exact fun heq => hr (by rw [heq])
  · cases hid
    rw [← hcap]
    exact hwith.fresh
  · rw [hpushed.capability]
    show s3.capability q id = _
    rw [capability_congr (hwithout.others q hq), capability_congr (hwith.others q hq), hcap]
  · cases hd
    have hp : s.objects.length ≠ p := by
      obtain ⟨y, hy, -⟩ := exists_of_capability hc
      exact ((List.getElem?_eq_some_iff.mp hy).1).ne'
    have hobj : s.objects.length ≠ c.obj := ((List.getElem?_eq_some_iff.mp hx).1).ne'
    refine ⟨rfl, rfl, ?_⟩
    rw [hpushed.others _ hobj, ← hport, ← hwith.others _ hp, ← hwithout.others _ hp]

end Syscall

/-! ## Receives -/

/-- Which process receives from which object: in a system call, or when it goes on with one. -/
def Kernel.receives (s : Kernel) : KernelEvent → Option (Nat × Nat)
  | .call t call => do
    let p ← s.processOf t
    let cap ← s.capability p (← call.receives)
    return (p, cap.obj)
  | .goOn i =>
    match s.waiting[i]? with
    | some (.recv p o _ _ _) => some (p, o)
    | _ => none
  | _ => none

/-- **What a receive of the process `q` from the object `o` did**: the front message is gone from the
queue, and its capabilities are in the table of the receiver under new ids, which were written in their
order. The only other change of a table is the capability for the reply. -/
structure Kernel.Received (s : Kernel) (q o : Nat) (r : Response) (m : IpcMessage) (ids : List UInt64)
    (s' : Kernel) : Prop where
  /-- The message was the front message. -/
  front : (s.queue o).head? = some m
  response : ∃ reply, r = .message m.data ids reply ∧
    (∀ id, reply = some id → s.capability q id = none ∧ id ∉ ids) ∧
    ∀ id, id ∉ ids → reply ≠ some id → s'.capability q id = s.capability q id
  caps : ids.map (s'.capability q) = m.caps.map some
  nodup : ids.Nodup
  fresh : ∀ id ∈ ids, s.capability q id = none
  others : ∀ k id, k ≠ q → s'.capability k id = s.capability k id
  rest : s'.queue o = (s.queue o).tail
  /-- From an endpoint comes the capability for the reply. -/
  reply : s.tag o = some .endpoint →
    ∃ id, r = .message m.data ids (some id) ∧ s'.capability q id = m.replyCap

/-- **A receive that does not return `OK` has taken nothing**, and the message was not one without the
capability for the reply. -/
def Kernel.NothingTaken (s : Kernel) (e : Stop) (s' : Kernel) : Prop :=
  s.Cleanly True e s' ∧ e ≠ .error .internal

namespace Syscall

open Kernel

variable {s : Kernel} {p o : Nat}

/-- **The rule for receives**: a message is checked before it is taken. -/
theorem wp_receive (h : s.WellTyped) (q : Nat) (numBytes numCaps : UInt64) {withReply : Bool}
    (hw : withReply = true ↔ s.tag o = some .endpoint) : wp (receive q o numBytes numCaps withReply)
      (fun r s' => ∃ m ids, s.Received q o r m ids s') s.NothingTaken s := by
  have hpanics : ∀ s', s.NothingTaken .panics s' := fun _ => ⟨trivial, by rintro ⟨⟩⟩
  rw [receive, wp_bind]
  refine wp_recvFront (fun m s1 hpopped hfits _ => ?_) fun _ he => ⟨.of_unchanged (.refl s) trivial, he⟩
  have hfront : (s.queue o).head? = some m := by rw [hpopped.queue, List.head?_cons]
  have hrest : s1.queue o = (s.queue o).tail := by rw [hpopped.queue, List.tail_cons]
  dsimp only [getD_none]
  split
  · rename_i hwith
    have hsome : m.replyCap.isSome = true := by
      obtain ⟨x, hx, htag⟩ := exists_of_tag (hw.mp hwith)
      cases x <;> cases htag
      have hmem := mem_of_head? hfront
      rw [queue_eq hx] at hmem
      exact h.objects _ (mem_of_getElem? hx) m hmem
    rw [translateIpcMessageToResponseWithReplyPort, wp_bind, translateUnchecked_of_fits hfits, wp_bind]
    refine wp_addAll (fun ids s2 hadded => ?_) hpanics
    rw [wp_pure]
    cases hcap : m.replyCap with
    | none =>
      rw [hcap] at hsome
      cases hsome
    | some =>
      rw [wp_bind]
      refine wp_add (fun id s3 hwith _ _ => ?_) (hpanics s2)
      have hnot : id ∉ ids := by
        intro hmem
        have hsome : s2.capability q id ∈ m.caps.map some := hadded.map ▸ mem_map_of_mem hmem
        rw [hwith.fresh] at hsome
        simp at hsome
      have hkept : ∀ j, j ≠ id → s3.capability q j = s2.capability q j := fun j hj => by
        rw [hwith.self, if_neg hj]
      refine ⟨m, ids, hfront, ⟨some id, rfl, ?_, ?_⟩, ?_, hadded.nodup, ?_, ?_, ?_, fun _ => ⟨id, rfl, ?_⟩⟩
      · intro j hj
        cases hj
        rw [← hpopped.capability, ← hadded.self id hnot]
        exact ⟨hwith.fresh, hnot⟩
      · intro j hj hne
        rw [hkept j fun heq => hne (by rw [heq]), hadded.self j hj, hpopped.capability]
      · rw [← hadded.map]
        exact map_congr_left fun j hj => hkept j fun heq => hnot (heq ▸ hj)
      · intro j hj
        rw [← hpopped.capability]
        exact hadded.fresh j hj
      · intro k j hk
        rw [capability_congr (hwith.others k hk), capability_congr (hadded.others k hk), hpopped.capability]
      · rw [hwith.queue_eq, hadded.queue_eq, hrest]
      · rw [hwith.self, if_pos rfl, hcap]
  · rename_i hno
    rw [translateIpcMessageToResponse_of_fits hfits, wp_bind]
    refine wp_addAll (fun ids s2 hadded => ?_) hpanics
    rw [wp_bind, dropCapabilities, wp_update]
    obtain ⟨system, hsystem⟩ := foldl_dropCapability ..
    rw [hsystem]
    refine ⟨m, ids, hfront, ⟨none, rfl, by rintro _ ⟨⟩, ?_⟩, hadded.map, hadded.nodup, ?_, ?_,
      (hadded.queue_eq o).trans hrest, fun htag => absurd (hw.mpr htag) hno⟩
    · intro j hj _
      exact (hadded.self j hj).trans (hpopped.capability q j)
    · intro j hj
      rw [← hpopped.capability]
      exact hadded.fresh j hj
    · intro k j hk
      exact (capability_congr (hadded.others k hk) j).trans (hpopped.capability k j)

/-- What a receive with a capability did. -/
theorem wp_recvMessage (h : s.WellTyped) {type : ObjectType} {withReply : Bool}
    (htype : withReply = true ↔ type = .endpoint) (cap numBytes numCaps : UInt64) :
    wp (recvMessage type withReply p cap numBytes numCaps)
      (fun r s' => ∃ c m ids, s.capability p cap = some c ∧ s.Received p c.obj r m ids s') s.NothingTaken s := by
  rw [recvMessage, wp_bind]
  refine wp_getValidCapability (fun c hc htag _ => ?_) fun _ _ he =>
    ⟨.of_unchanged (.refl s) trivial, fun heq => he (Stop.error.inj heq)⟩
  refine wp_mono (wp_receive h p numBytes numCaps ?_) ?_ fun _ _ he => he
  · rw [htype, htag, some.injEq]
  · rintro _ _ ⟨m, ids, hm⟩
    exact ⟨c, m, ids, hc, hm⟩

theorem wp_portPoll (h : s.WellTyped) (cap numBytes numCaps : UInt64) : wp (portPoll p cap numBytes numCaps)
      (fun r s' => ∃ c m ids, s.capability p cap = some c ∧ s.Received p c.obj r m ids s') s.NothingTaken s := by
  rw [portPoll, wp_bind]
  refine wp_getValidCapability (fun c hc htag _ => ?_) fun _ _ he =>
    ⟨.of_unchanged (.refl s) trivial, fun heq => he (Stop.error.inj heq)⟩
  rw [wp_bind, wp_gets, wp_ite]
  split
  · exact ⟨.of_unchanged (.refl s) trivial, by rintro ⟨⟩⟩
  · refine wp_mono (wp_receive h p numBytes numCaps ?_) ?_ fun _ _ he => he
    · simp [htag]
    · rintro _ _ ⟨m, ids, hm⟩
      exact ⟨c, m, ids, hc, hm⟩

end Syscall

namespace Kernel

variable {s s' : Kernel}

variable {r : Response}

/-- **Every receive that returns `OK`** takes the front message and puts its capabilities into the
table. -/
theorem execute_receives {e : KernelEvent} {q o : Nat} (h : s.WellTyped) (hreceives : s.receives e = some (q, o))
    (hexecute : s.execute e = some (.ok r, s')) : ∃ m ids, s.Received q o r m ids s' := by
  cases e with
  | call t call =>
    simp only [receives, Option.bind_eq_bind, Option.bind_eq_some_iff, Option.pure_def,
      some.injEq, Prod.mk.injEq] at hreceives
    obtain ⟨p, hp, cap, hcap, c, hc, rfl, rfl⟩ := hreceives
    rw [execute, hp, map_some, some.injEq] at hexecute
    -- the capability is the one that the receive found
    have hreceived : (∃ d m ids, s.capability p cap = some d ∧ s.Received p d.obj r m ids s') →
        ∃ m ids, s.Received p c.obj r m ids s' := by
      rintro ⟨d, m, ids, hd, hm⟩
      cases hc.symm.trans hd
      exact ⟨m, ids, hm⟩
    cases call with
    | channelRecv | portRecv | endpointRecv | replyPortRecv =>
      cases hcap
      exact hreceived (of_wp (Syscall.wp_recvMessage h (by simp) _ _ _) hexecute)
    | portPoll =>
      cases hcap
      exact hreceived (of_wp (Syscall.wp_portPoll h _ _ _) hexecute)
    | _ => cases hcap
  | goOn i =>
    rw [receives] at hreceives
    split at hreceives
    · rename_i p k numBytes numCaps withReply hw
      cases hreceives
      rw [execute, hw, Option.map_some, Option.some.injEq] at hexecute
      obtain ⟨type, htag, hiff⟩ := h.waiting _ (mem_of_getElem? hw)
      have hreply : withReply = true ↔ ({ s with waiting := s.waiting.eraseIdx i } : Kernel).tag o = some .endpoint :=
        hiff.trans ⟨fun heq => htag.trans (congrArg some heq), fun htag' => some.inj (htag.symm.trans htag')⟩
      obtain ⟨m, ids, h⟩ := of_wp (Syscall.wp_receive (h.erase i) q numBytes numCaps hreply) hexecute
      exact ⟨m, ids, h.front, h.response, h.caps, h.nodup, h.fresh, h.others, h.rest, h.reply⟩
    · cases hreceives
  | _ => cases hreceives

/-- **Every send that returns `OK`** moves capabilities from a table to a queue. -/
theorem execute_sends {t p : Nat} {call : Call} {type : ObjectType} {cap : UInt64} {data : List UInt8}
    {ids : List UInt64} (h : s.WellTyped) (hp : s.processOf t = some p)
    (hsends : call.sends = some (type, cap, data, ids))
    (hexecute : s.execute (.call t call) = some (.ok r, s')) : s.SentFor p type cap data ids r s' := by
  rw [execute, hp, map_some, some.injEq] at hexecute
  cases call with
  | channelSend | portSend | replyPortSend =>
    cases hsends
    exact (of_wp (Syscall.wp_sendMessage h (by simp) _ _ _) hexecute).1
  | endpointSend =>
    cases hsends
    exact (of_wp (Syscall.wp_endpointSend _ _ _) hexecute).1
  | _ => cases hsends

/-! ## From the send to the receive -/

/-- The message of a send is the only one with its number. -/
theorem Sent.unique {p o : Nat} {data : List UInt8} {ids : List UInt64} {m : IpcMessage}
    (h : s.Sent p data ids r o m s') (hvalid : s.Valid) : ∀ m' ∈ s'.messages, m'.serial = m.serial → m' = m := by
  intro m' hm' hserial
  -- messages that were there before have lower numbers
  have hold : ∀ k, m' ∉ s.queue k := by
    intro k hk
    have hlt := hvalid.messages m' (mem_messages_iff.mpr ⟨k, hk⟩)
    have hle := h.serial.1
    omega
  obtain ⟨k, hk⟩ := mem_messages_iff.mp hm'
  by_cases hko : k = o
  · rw [hko, h.queue, mem_append, mem_singleton] at hk
    exact hk.resolve_left (hold o)
  · rw [h.queues k hko] at hk
    exact absurd hk (hold k)

theorem unique_of_run {s1 s2 : Kernel} {m : IpcMessage} {events : List KernelEvent} (h1 : s1.Valid)
    (hserial : m.serial < s1.nextSerial) (hm : ∀ m' ∈ s1.messages, m'.serial = m.serial → m' = m)
    (hrun : Runs.run step s1 events = some s2) : ∀ m' ∈ s2.messages, m'.serial = m.serial → m' = m := by
  refine (Runs.run_invariant' (P := fun s => s.Valid ∧ m.serial < s.nextSerial ∧
    ∀ m' ∈ s.messages, m'.serial = m.serial → m' = m) ?_ ⟨h1, hserial, hm⟩ hrun).2.2
  rintro s e s' ⟨hvalid, hlt, hm⟩ hstep
  have haccounted := step_accounted hvalid.typed hstep
  refine ⟨hvalid.step hstep, hlt.trans_le haccounted.caps.le, fun m' hm' heq => ?_⟩
  obtain ⟨o, ho⟩ := mem_messages_iff.mp hm'
  rcases haccounted.messages o m' ho with hold | hnew
  · exact hm m' (mem_messages_iff.mpr ⟨o, hold⟩) heq
  · omega

/-- **Capabilities are moved, neither lost nor copied.** A send that returns `OK` has taken the capabilities of its ids
from the table of the sender into a message. In every later state they are in no table while the message waits; and the
receive that takes the message puts the very same capabilities, in the same order, under new ids into the table of the
receiver. Both leave all other entries of all tables as they are, but for the new capabilities of a reply. -/
theorem run_capabilities_move {s₀ s s₁ : Kernel} {events : List KernelEvent} {t p : Nat} {call : Call}
    {type : ObjectType} {cap : UInt64} {data : List UInt8} {ids : List UInt64} {r : Response} (h₀ : s₀.Valid)
    (hrun : Runs.run step s₀ events = some s) (hp : s.processOf t = some p)
    (hsends : call.sends = some (type, cap, data, ids)) (hsend : s.execute (.call t call) = some (.ok r, s₁)) :
    ∃ o m, s.Sent p data ids r o m s₁ ∧ ∀ later s₂, Runs.run step s₁ later = some s₂ →
        (∀ m' ∈ s₂.messages, m'.serial = m.serial → m' = m ∧
          ∀ c ∈ m.caps, ∀ q id d, s₂.capability q id = some d → d.serial ≠ c.serial) ∧
        ∀ e q o' r' s₃ m', s₂.receives e = some (q, o') → s₂.execute e = some (.ok r', s₃) →
          (s₂.queue o').head? = some m' → m'.serial = m.serial →
          ∃ ids', s₂.Received q o' r' m ids' s₃ ∧ ids'.map (s₃.capability q) = ids.map (s.capability p) := by
  have hvalid := h₀.run hrun
  obtain ⟨c, m, -, -, hsent⟩ := execute_sends hvalid.typed hp hsends hsend
  have hstep : s.step (.call t call) = some s₁ := by rw [step, hsend]; rfl
  have hvalid₁ := hvalid.step hstep
  refine ⟨_, m, hsent, fun later s₂ hlater => ?_⟩
  have hunique := unique_of_run hvalid₁ hsent.serial.2 (hsent.unique hvalid) hlater
  constructor
  · intro m' hm' hserial
    obtain rfl := hunique m' hm' hserial
    refine ⟨rfl, fun c hc q id d hd => ?_⟩
    exact (hvalid₁.run hlater).not_mem_table hm' (mem_append_left _ hc) hd
  intro e q o' r' s₃ m' hreceives hexecute hfront hserial
  obtain ⟨m'', ids', hreceived⟩ := execute_receives (hvalid₁.run hlater).typed hreceives hexecute
  rw [hreceived.front, some.injEq] at hfront
  subst hfront
  have hmem : m'' ∈ s₂.messages :=
    mem_messages_iff.mpr ⟨o', mem_of_head? hreceived.front⟩
  obtain rfl := hunique m'' hmem hserial
  exact ⟨ids', hreceived, hreceived.caps.trans hsent.caps.symm⟩

/-- The first process makes a port and a second capability for it. -/
def duplicatedPort : List KernelEvent :=
  [.call 7 .portCreate, .call 7 (.capDuplicate 0x101 kZionPermTransmit)]

/-- It sends the second capability to the port and receives it again. -/
theorem run_capabilities_move_duplicatedPort :
    ∃ s s₁ s₃ r, ∃ ids : List UInt64, Runs.run step smallKernel duplicatedPort = some s ∧
      s.execute (.call 7 (.portSend 0x101 [1] [0x102])) = some (.ok .done, s₁) ∧
      s₁.execute (.call 7 (.portRecv 0x101 8 1)) = some (.ok r, s₃) ∧
      s₁.capability 5 0x102 = none ∧ ids.map (s₃.capability 5) = [s.capability 5 0x102] := by
  have h : (Runs.run step smallKernel duplicatedPort).map (fun s =>
      (decide (s.processOf 7 = some 5 ∧ s.queue 8 = []),
        (s.execute (.call 7 (.portSend 0x101 [1] [0x102]))).map fun x =>
          (decide (x.1.toOption = some .done ∧ x.2.queue 8 ≠ [] ∧
            x.2.receives (.call 7 (.portRecv 0x101 8 1)) = some (5, 8)),
          (x.2.execute (.call 7 (.portRecv 0x101 8 1))).map fun y => y.1.toOption.isSome))) =
      some (true, some (true, some true)) := by
    decide +kernel
  obtain ⟨s, hrun, hs⟩ := map_eq_some_iff.mp h
  simp only [Prod.mk.injEq, map_eq_some_iff, Prod.exists, decide_eq_true_eq] at hs
  obtain ⟨⟨hp, hqueue⟩, x, s₁, hsend, ⟨hx, hne, hreceives⟩, y, s₃, hrecv, hy⟩ := hs
  cases x with
  | error => cases hx
  | ok r =>
    cases hx
    cases y with
    | error => cases hy
    | ok r =>
      obtain ⟨o, m, hsent, hlater⟩ := run_capabilities_move (valid_boot _ _ _) hrun hp rfl hsend
      obtain rfl : o = 8 := by
        by_contra hno
        exact hne ((hsent.queues 8 (Ne.symm hno)).trans hqueue)
      have hfront : (s₁.queue 8).head? = some m := by
        rw [hsent.queue, hqueue]
        rfl
      obtain ⟨ids, -, hids⟩ := (hlater [] s₁ rfl).2 _ _ _ _ _ m hreceives hrecv hfront rfl
      exact ⟨s, s₁, s₃, r, ids, hrun, hsend, hrecv, hsent.taken _ (by simp), hids⟩

/-- Threads that are in the loop of a send at once, and the turn of one of them. -/
def turn (x : List Syscall.Sending × Kernel) (i : Nat) : Option (List Syscall.Sending × Kernel) := do
  let sending ← x.1[i]?
  match sending.next x.2 with
  | (.ok sending, s) => some (x.1.set i sending, s)
  | (.error _, _) => none

/-- The first process then receives the capability for itself and starts a second thread. -/
def secondThread : List KernelEvent :=
  duplicatedPort ++ [.call 7 (.portRecv 0x100 8 1), .call 7 (.threadCreate 0x103),
    .call 7 (.threadStart 0x104 0x400000 0 0)]

/-- **A capability is sent twice**: both threads send it, each checks it before the other releases it,
and neither of them fails, but the second has a null pointer in its message. -/
theorem preempted_sends_take_one : ∃ s c s', Runs.run step smallKernel secondThread = some s ∧
      s.processOf 7 = some 5 ∧ s.processOf 9 = some 5 ∧ s.capability 5 0x102 = some c ∧
      Runs.run turn ([⟨5, [0x102], false, []⟩, ⟨5, [0x102], false, []⟩], s) [0, 1, 0, 1] =
        some ([⟨5, [], false, [some c]⟩, ⟨5, [], false, [none]⟩], s') := by
  have h : (Runs.run step smallKernel secondThread).map (fun s =>
      (decide (s.processOf 7 = some 5 ∧ s.processOf 9 = some 5), s.capability 5 0x102,
        (Runs.run turn ([⟨5, [0x102], false, []⟩, ⟨5, [0x102], false, []⟩], s) [0, 1, 0, 1]).map Prod.fst)) =
      some (true, some ⟨6, 8, kZionPermTransmit⟩,
        some [⟨5, [], false, [some ⟨6, 8, kZionPermTransmit⟩]⟩, ⟨5, [], false, [none]⟩]) := by
    decide +kernel
  obtain ⟨s, hrun, hs⟩ := map_eq_some_iff.mp h
  simp only [Prod.mk.injEq, map_eq_some_iff, Prod.exists, decide_eq_true_eq] at hs
  obtain ⟨⟨hp, hp'⟩, hc, _, s', hturns, rfl⟩ := hs
  exact ⟨s, _, s', hrun, hp, hp', hc, hturns⟩

end Kernel

end Acadia.Zion
