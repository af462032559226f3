import Acadia.Zion.Syscall.Accounts

/-! # Tables and queues

What the parts of calls do to tables and queues, exactly: a capability is released or added under one id, the loop of a
send takes the capabilities of a list of ids or stops at the first that it cannot take, and a message is put at the end
of a queue or taken from its front. -/

namespace Acadia.Zion

open Glacier Command List

namespace Kernel

variable {s s' s'' : Kernel} {k o p : Nat} {x y : KernelObject} {id j : UInt64}

/-! ## What an update of an object changes -/

theorem capability_eq {x : Process} (h : s.objects[p]? = some (.process x)) (id : UInt64) :
    s.capability p id = x.caps.getCapability id := by
  rw [capability, process, h]
  rfl

theorem capability_eq_none (h : s.objects[p]? = some x) (hx : x.typeTag ≠ .process) (id : UInt64) :
    s.capability p id = none := by
  rw [capability, process, h]
  cases x <;> first | rfl | exact absurd rfl hx

theorem process_eq_some {x : Process} (h : s.process p = some x) : s.objects[p]? = some (.process x) := by
  unfold process at h
  split at h
  · rename_i y hy
    cases h
    exact hy
  · cases h

theorem exists_of_capability {c : Capability} (h : s.capability p id = some c) :
    ∃ x, s.objects[p]? = some (.process x) ∧ x.caps.getCapability id = some c := by
  obtain ⟨x, hx, hc⟩ := Option.bind_eq_some_iff.mp h
  exact ⟨x, process_eq_some hx, hc⟩

theorem capability_congr (h : s'.objects[p]? = s.objects[p]?) (id : UInt64) :
    s'.capability p id = s.capability p id := by
  rw [capability, capability, process, process, h]

theorem queue_congr (h : s'.objects[o]? = s.objects[o]?) : s'.queue o = s.queue o := by
  rw [queue, queue, h]

theorem process_append (hy : y.typeTag ≠ .process) (p : Nat) :
    ({ s with objects := s.objects ++ [y] } : Kernel).process p = s.process p := by
  by_cases hlt : p < s.objects.length
  · rw [process, process, getElem?_append_left hlt]
  have hnone : s.process p = none := by
    rw [process, getElem?_eq_none (not_lt.mp hlt)]
  rw [hnone, process]
  by_cases heq : p = s.objects.length
  · have hget : (s.objects ++ [y])[p]? = some y := by simp [heq]
    rw [hget]
    cases y <;> first | rfl | exact absurd rfl hy
  · rw [getElem?_eq_none]
    simp
    omega

theorem capability_append (hy : y.typeTag ≠ .process) (p : Nat) (id : UInt64) :
    ({ s with objects := s.objects ++ [y] } : Kernel).capability p id = s.capability p id := by
  rw [capability, capability, process_append hy]

theorem capability_append_process {x : Process} (hx : x.caps = {}) (p : Nat) (id : UInt64) :
    ({ s with objects := s.objects ++ [.process x] } : Kernel).capability p id = s.capability p id := by
  by_cases hlt : p < s.objects.length
  · exact capability_congr (getElem?_append_left hlt) id
  have hnone : s.capability p id = none := by
    rw [capability, process, getElem?_eq_none (not_lt.mp hlt)]
    rfl
  rw [hnone]
  by_cases heq : p = s.objects.length
  · rw [capability_eq (x := x) (by simp [heq]), hx]
    rfl
  · rw [capability, process, getElem?_eq_none]
    · rfl
    · simp
      omega

theorem queue_append (hy : y.messages = []) (o : Nat) :
    ({ s with objects := s.objects ++ [y] } : Kernel).queue o = s.queue o := by
  by_cases hlt : o < s.objects.length
  · exact queue_congr (getElem?_append_left hlt)
  have hnil : s.queue o = [] := by
    rw [queue, getElem?_eq_none (not_lt.mp hlt)]
    rfl
  rw [hnil]
  by_cases heq : o = s.objects.length
  · rw [queue_eq (x := y) (by simp [heq]), hy]
  · rw [queue, getElem?_eq_none]
    · rfl
    · simp
      omega

/-- **Tables and queues are as before.** -/
structure Unchanged (s s' : Kernel) : Prop where
  capability : ∀ p id, s'.capability p id = s.capability p id
  queue : ∀ o, s'.queue o = s.queue o

theorem Unchanged.refl (s : Kernel) : s.Unchanged s := ⟨fun _ _ => rfl, fun _ => rfl⟩

theorem Unchanged.of_objects (h : s'.objects = s.objects) : s.Unchanged s' :=
  ⟨fun _ => capability_congr (by rw [h]), fun _ => queue_congr (by rw [h])⟩

theorem not_unchanged_of_new {c : Capability} (hnone : s.capability p id = none) (hsome : s'.capability p id = some c) :
    ¬ s.Unchanged s' := by
  intro hsame
  rw [hsame.capability p id, hnone] at hsome
  cases hsome

/-- **What is left behind by a call that does not return `OK`**, where `clean` tells whether an error
changes no table and no queue. A call that waits has changed nothing so far. -/
def Cleanly (s : Kernel) (clean : Prop) : Stop → Kernel → Prop
  | .error _, s' => s.Unchanged s' ↔ clean
  | .blocks _, s' => s.Unchanged s' ∧ clean
  | .exits, _ => clean
  | .panics, _ => True

theorem Cleanly.of_unchanged {clean : Prop} {e : Stop} (h : s.Unchanged s') (hclean : clean) :
    s.Cleanly clean e s' := by
  cases e with
  | error => exact iff_of_true h hclean
  | blocks => exact ⟨h, hclean⟩
  | exits => exact hclean
  | panics => trivial

/-- **Only the table of a process has changed.** -/
structure OnlyTable (s : Kernel) (p : Nat) (s' : Kernel) : Prop where
  others : ∀ k, k ≠ p → s'.objects[k]? = s.objects[k]?
  queue : s'.queue p = s.queue p

theorem OnlyTable.trans (h : s.OnlyTable p s') (h' : s'.OnlyTable p s'') : s.OnlyTable p s'' :=
  ⟨fun k hk => (h'.others k hk).trans (h.others k hk), h'.queue.trans h.queue⟩

theorem OnlyTable.of_objects (h : s'.objects = s.objects) : s.OnlyTable p s' :=
  ⟨fun _ _ => by rw [h], queue_congr (by rw [h])⟩

theorem OnlyTable.setObject {x : Process} (h : s.objects[p]? = some (.process x)) (caps : CapabilityTable) :
    s.OnlyTable p (s.setObject p (.process { x with caps })) := by
  refine ⟨fun k hk => getElem?_setObject_of_ne hk, ?_⟩
  rw [queue_eq (getElem?_setObject h), queue_eq h]
  rfl

theorem OnlyTable.queue_eq (h : s.OnlyTable p s') (o : Nat) : s'.queue o = s.queue o := by
  by_cases ho : o = p
  · rw [ho]
    exact h.queue
  · exact queue_congr (h.others o ho)

/-- **The capabilities of some ids are gone** from the table of a process. -/
structure Without (s : Kernel) (p : Nat) (ids : List UInt64) (s' : Kernel) : Prop extends OnlyTable s p s' where
  self : ∀ j, s'.capability p j = if j ∈ ids then none else s.capability p j

theorem Without.nil (h : s'.objects = s.objects) : s.Without p [] s' :=
  ⟨.of_objects h, fun j => by simpa using capability_congr (by rw [h]) j⟩

variable {ids : List UInt64}

theorem Without.cons (h : s.Without p [id] s') (h' : s'.Without p ids s'') : s.Without p (id :: ids) s'' := by
  refine ⟨h.toOnlyTable.trans h'.toOnlyTable, fun j => ?_⟩
  rw [h'.self j, h.self j]
  by_cases hj : j ∈ ids
  · rw [if_pos hj, if_pos (mem_cons_of_mem id hj)]
  · by_cases hid : j = id
    · rw [if_neg hj, if_pos (by simpa using hid), if_pos (by simp [hid])]
    · rw [if_neg hj, if_neg (by simpa using hid), if_neg (by simp [hid, hj])]

theorem Without.congr (h : s.Without p ids s') (hobjects : s''.objects = s'.objects) : s.Without p ids s'' :=
  ⟨h.toOnlyTable.trans (.of_objects hobjects), fun j => (capability_congr (by rw [hobjects]) j).trans (h.self j)⟩

theorem Without.unchanged (h : s.Without p [] s') : s.Unchanged s' := by
  refine ⟨fun k id => ?_, h.queue_eq⟩
  by_cases hk : k = p
  · rw [hk, h.self id]
    simp
  · exact capability_congr (h.others k hk) id

/-- The id under which a process gets its next capability. -/
def nextCapId (s : Kernel) (p : Nat) : Option UInt64 := (s.process p).map fun x => x.caps.nextCapId

theorem nextCapId_eq {x : Process} (h : s.objects[p]? = some (.process x)) : s.nextCapId p = some x.caps.nextCapId := by
  rw [nextCapId, process, h]
  rfl

/-- **A capability is new** in the table of a process, under the next id, which was not in use. -/
structure With (s : Kernel) (p : Nat) (id : UInt64) (c : Capability) (s' : Kernel) : Prop extends
    OnlyTable s p s' where
  next : s.nextCapId p = some id
  fresh : s.capability p id = none
  after : s'.nextCapId p = some (id + 1)
  self : ∀ j, s'.capability p j = if j = id then some c else s.capability p j

end Kernel

/-! ## Rules -/

namespace Syscall

open Kernel

variable {s : Kernel} {o p : Nat} {id : UInt64} {m : IpcMessage}

variable {E : Stop → Kernel → Prop}

theorem wp_release {c : Capability} (hc : s.capability p id = some c) {Q : Option Capability → Kernel → Prop}
    (hQ : ∀ s', s.Without p [id] s' → s'.nextSerial = s.nextSerial → s'.waiting = s.waiting → Q (some c) s') :
    wp (releaseCapability p id) Q E s := by
  obtain ⟨x, hx, hget⟩ := exists_of_capability hc
  obtain ⟨caps, hrelease, -, hgone, -⟩ := CapabilityTable.releaseCapability_of_some hget
  have hprocess : process p s = (.ok x, s) := by
    rw [process, Kernel.process, hx]
  rw [releaseCapability, wp_bind, wp_of_ok hprocess, hrelease]
  refine hQ _ ⟨.setObject hx caps, fun j => ?_⟩ rfl rfl
  rw [capability_eq (getElem?_setObject hx), capability_eq hx]
  simpa using hgone j

/-- A process gets a capability, unless its table has one under the next id. -/
theorem wp_add {c : Capability} {Q : UInt64 → Kernel → Prop}
    (hQ : ∀ id s', s.With p id c s' → s'.nextSerial = s.nextSerial → s'.drivers = s.drivers → Q id s')
    (hE : E .panics s) : wp (addExistingCapability p c) Q E s := by
  rw [addExistingCapability, wp_bind]
  refine wp_process (fun x hx => ?_) hE
  cases hadd : x.caps.addExistingCapability c with
  | none => exact hE
  | some r =>
    obtain ⟨id, caps⟩ := r
    obtain ⟨hid, hnext, hfresh, hget, -⟩ := CapabilityTable.addExistingCapability_spec hadd
    refine hQ id _ ⟨.setObject hx caps, ?_, ?_, ?_, fun j => ?_⟩ rfl rfl
    · rw [nextCapId_eq hx, hid]
    · rw [capability_eq hx]
      exact hfresh
    · rw [nextCapId_eq (getElem?_setObject hx), hid]
      exact congrArg some hnext
    · rw [capability_eq (getElem?_setObject hx), capability_eq hx]
      exact hget j

theorem wp_takeSerial {Q : Nat → Kernel → Prop} :
    wp takeSerial Q E s ↔ Q s.nextSerial { s with nextSerial := s.nextSerial + 1 } := Iff.rfl

theorem wp_addNew {obj : Nat} {permissions : UInt64} {Q : UInt64 → Kernel → Prop}
    (hQ : ∀ id s', s.With p id ⟨s.nextSerial, obj, permissions⟩ s' →
      s'.nextSerial = s.nextSerial + 1 → s'.drivers = s.drivers → Q id s')
    (hE : ∀ s', E .panics s') : wp (addNewCapability p obj permissions) Q E s := by
  rw [addNewCapability, wp_bind, wp_takeSerial, wp_bind, acquireObject, wp_update]
  -- memory apart, the state in which the capability is added
  have hadd : ∀ s1 : Kernel, s1.objects = s.objects → s1.nextSerial = s.nextSerial + 1 →
      s1.drivers = s.drivers → wp (addExistingCapability p ⟨s.nextSerial, obj, permissions⟩) Q E s1 := by
    intro s1 hobjects hserial hdrivers
    refine wp_add (fun id s' h hserial' hdrivers' =>
      hQ id s' ?_ (hserial'.trans hserial) (hdrivers'.trans hdrivers)) (hE _)
    have hcapability : ∀ j, s1.capability p j = s.capability p j := capability_congr (by rw [hobjects])
    refine ⟨.trans (.of_objects hobjects) h.toOnlyTable, ?_, (hcapability id).symm.trans h.fresh, h.after, fun j => ?_⟩
    · rw [← h.next, nextCapId, nextCapId, Kernel.process, Kernel.process, hobjects]
    · rw [h.self j, hcapability j]
  split
  all_goals exact hadd _ rfl rfl rfl

/-! ### Sending -/

end Syscall

namespace Kernel

variable {s s' : Kernel} {p : Nat} {id : UInt64} {ids : List UInt64}

/-- A capability that can be sent. -/
def Sendable (s : Kernel) (p : Nat) (id : UInt64) : Prop :=
  ∃ c, s.capability p id = some c ∧ c.hasPermissions kZionPermTransmit = true

instance : Decidable (s.Sendable p id) :=
  match h : s.capability p id with
  | none => isFalse (by rintro ⟨c, hc, -⟩; rw [h] at hc; cases hc)
  | some c => decidable_of_iff (c.hasPermissions kZionPermTransmit = true) (by simp [Sendable, h])

/-- A list of different capabilities that can be sent. -/
def AllSendable (s : Kernel) (p : Nat) (ids : List UInt64) : Prop :=
  ids.Nodup ∧ ∀ id ∈ ids, s.Sendable p id

instance : Decidable (s.AllSendable p ids) := inferInstanceAs (Decidable (_ ∧ _))

theorem Unchanged.sendable (h : s.Unchanged s') (j : UInt64) : s'.Sendable p j ↔ s.Sendable p j := by
  rw [Sendable, Sendable, h.capability]

theorem With.sendable {c : Capability} (h : s.With p id c s') (j : UInt64) :
    s'.Sendable p j ↔ s.Sendable p j ∨ j = id ∧ c.hasPermissions kZionPermTransmit = true := by
  rw [Sendable, Sendable, h.self]
  by_cases hj : j = id
  · subst hj
    rw [if_pos rfl, h.fresh]
    simp
  · rw [if_neg hj]
    simp [hj]

theorem allSendable_cons (h : s.Without p [id] s') (hid : s.Sendable p id) :
    s.AllSendable p (id :: ids) ↔ s'.AllSendable p ids := by
  have hother : ∀ j, j ≠ id → (s'.Sendable p j ↔ s.Sendable p j) := by
    intro j hj
    rw [Sendable, Sendable, h.self j, if_neg (by simpa using hj)]
  have hgone : ¬ s'.Sendable p id := by
    rintro ⟨c, hc, -⟩
    rw [h.self id, if_pos mem_cons_self] at hc
    cases hc
  rw [AllSendable, AllSendable, nodup_cons, forall_mem_cons]
  constructor
  · rintro ⟨⟨hnot, hnodup⟩, -, hall⟩
    refine ⟨hnodup, fun j hj => (hother j fun heq => hnot (heq ▸ hj)).mpr (hall j hj)⟩
  · rintro ⟨hnodup, hall⟩
    have hnot : id ∉ ids := fun hmem => hgone (hall id hmem)
    refine ⟨⟨hnot, hnodup⟩, hid, fun j hj => ?_⟩
    exact (hother j fun heq => hnot (heq ▸ hj)).mp (hall j hj)

end Kernel

namespace Syscall

open Kernel

variable {s : Kernel} {o p : Nat} {id : UInt64} {m : IpcMessage}

/-- **The loop of a send**: it takes the capabilities of all ids, in order, if they are different and
can be sent; otherwise it returns an error when it has taken those before the first that it cannot
take. -/
theorem wp_takeCapabilities {ids : List UInt64} {taken : List Capability}
    {Q : List Capability → Kernel → Prop} {E : Stop → Kernel → Prop}
    (hQ : ∀ caps s', s.AllSendable p ids → ids.map (s.capability p) = caps.map some →
      s.Without p ids s' → s'.nextSerial = s.nextSerial → Q (taken ++ caps) s')
    (hE : ∀ code n s', ¬ s.AllSendable p (ids.take (n + 1)) → s.AllSendable p (ids.take n) →
      s.Without p (ids.take n) s' → E (.error code) s') :
    wp (takeCapabilities p taken ids) Q E s := by
  induction ids generalizing s taken with
  | nil =>
    have hnil := hQ [] s ⟨nodup_nil, by simp⟩ rfl (.nil rfl) rfl
    rwa [append_nil] at hnil
  | cons id ids ih =>
    -- the first id cannot be sent
    have hbad : ¬ s.Sendable p id → ∀ code, wp (do
        dropCapabilities taken
        fail code) Q E s := by
      intro hnot code
      rw [wp_bind, dropCapabilities, wp_update]
      obtain ⟨system, hsystem⟩ := foldl_dropCapability ..
      rw [hsystem]
      exact hE code 0 _ (fun hall => hnot (hall.2 id (by simp))) ⟨nodup_nil, by simp⟩ (.nil rfl)
    rw [takeCapabilities, wp_bind, getCapability, wp_gets]
    cases hc : s.capability p id with
    | none =>
      refine hbad ?_ _
      rintro ⟨c, hc', -⟩
      rw [hc] at hc'
      cases hc'
    | some c =>
      rw [wp_ite]
      by_cases hperm : (!c.hasPermissions kZionPermTransmit) = true
      · rw [if_pos hperm]
        refine hbad ?_ _
        rintro ⟨c', hc', hperm'⟩
        rw [hc] at hc'
        cases hc'
        rw [hperm'] at hperm
        cases hperm
      rw [if_neg hperm, wp_bind]
      have hid : s.Sendable p id := ⟨c, hc, by simpa using hperm⟩
      refine wp_release hc fun s1 h1 hserial _ => ?_
      refine ih (fun caps s' hall hmap hwithout hserial' => ?_) fun code n s' hall htaken hwithout => ?_
      · have hmap' : (id :: ids).map (s.capability p) = (c :: caps).map some := by
          have hnot : id ∉ ids := (nodup_cons.mp ((allSendable_cons h1 hid).mpr hall).1).1
          rw [map_cons, map_cons, hc, ← hmap]
          congr 1
          refine map_congr_left fun j hj => ?_
          rw [h1.self j, if_neg (by rintro hmem; simp at hmem; exact hnot (hmem ▸ hj))]
        have hdone := hQ (c :: caps) s' ((allSendable_cons h1 hid).mpr hall) hmap'
          (h1.cons hwithout) (hserial'.trans hserial)
        rwa [Option.toList_some, append_assoc, singleton_append]
      · refine hE code (n + 1) s' ?_ ?_ ?_
        all_goals rw [take_succ_cons]
        · exact fun hall' => hall ((allSendable_cons h1 hid).mp hall')
        · exact (allSendable_cons h1 hid).mpr htaken
        · exact h1.cons hwithout

theorem wp_translate {data : List UInt8} {ids : List UInt64} {Q : IpcMessage → Kernel → Prop} {E : Stop → Kernel → Prop}
    (hQ : ∀ caps s', data.length ≤ 0x1000 → s.AllSendable p ids →
      ids.map (s.capability p) = caps.map some → s.Without p ids s' →
      s'.nextSerial = s.nextSerial + 1 → Q ⟨s.nextSerial, data, caps, none⟩ s')
    (hlarge : 0x1000 < data.length → E (.error .unimplemented) s)
    (hE : ∀ code n s', data.length ≤ 0x1000 → ¬ s.AllSendable p (ids.take (n + 1)) →
      s.AllSendable p (ids.take n) → s.Without p (ids.take n) s' → E (.error code) s') :
    wp (translateRequestToIpcMessage p data ids) Q E s := by
  rw [translateRequestToIpcMessage, wp_ite]
  by_cases hlength : data.length > 0x1000
  · rw [if_pos hlength]
    exact hlarge hlength
  · have hlength' : data.length ≤ 0x1000 := not_lt.mp hlength
    rw [if_neg hlength, wp_bind]
    refine wp_takeCapabilities (fun caps s1 hall hmap hwithout hserial => ?_) fun code n s1 => hE code n s1 hlength'
    rw [nil_append, wp_bind, wp_takeSerial, hserial]
    exact hQ caps _ hlength' hall hmap (hwithout.congr rfl) rfl

end Syscall

namespace Kernel

variable {s s' : Kernel} {o p : Nat} {m : IpcMessage}

/-- **A message is at the end of a queue**; nothing else has changed. -/
structure Pushed (s : Kernel) (o : Nat) (m : IpcMessage) (s' : Kernel) : Prop where
  others : ∀ k, k ≠ o → s'.objects[k]? = s.objects[k]?
  queue : s'.queue o = s.queue o ++ [m]
  /-- An object with a queue has no table. -/
  self : ∀ j, s'.capability o j = s.capability o j

/-- **The front message is gone** from a queue; nothing else has changed. -/
structure Popped (s : Kernel) (o : Nat) (m : IpcMessage) (s' : Kernel) : Prop where
  others : ∀ k, k ≠ o → s'.objects[k]? = s.objects[k]?
  queue : s.queue o = m :: s'.queue o
  /-- An object with a queue has no table. -/
  self : ∀ j, s'.capability o j = s.capability o j

theorem Pushed.capability (h : s.Pushed o m s') (k : Nat) (j : UInt64) : s'.capability k j = s.capability k j := by
  by_cases hk : k = o
  · rw [hk]
    exact h.self j
  · exact capability_congr (h.others k hk) j

theorem Popped.capability (h : s.Popped o m s') (k : Nat) (j : UInt64) : s'.capability k j = s.capability k j := by
  by_cases hk : k = o
  · rw [hk]
    exact h.self j
  · exact capability_congr (h.others k hk) j

/-- The object whose queue a send uses. -/
def sendTarget (s : Kernel) (o : Nat) : Nat :=
  match s.objects[o]? with
  | some (.channel peer _) => peer
  | _ => o

theorem capability_setObject_self {x y : KernelObject} (ho : s.objects[o]? = some x) (hx : x.typeTag ≠ .process)
    (hy : y.typeTag = x.typeTag) (j : UInt64) : (s.setObject o y).capability o j = s.capability o j := by
  rw [capability_eq_none ho hx, capability_eq_none (getElem?_setObject ho) (hy ▸ hx)]

end Kernel

namespace Syscall

open Kernel

variable {s : Kernel} {o p : Nat} {m : IpcMessage}

variable {E : Stop → Kernel → Prop}

theorem wp_send_iff {Q : Unit → Kernel → Prop} : wp (send o m) Q E s ↔ wp (pushBack (s.sendTarget o) m) Q E s := by
  rfl

/-- **A message is put into a queue**, unless it is that of a reply port that was written. -/
theorem wp_push {Q : Unit → Kernel → Prop}
    (hempty : ∀ queue, s.objects[o]? = some (.replyPort queue) → queue.hasWritten = false → queue.message = none)
    (hQ : ∀ s', s.Pushed o m s' → s'.nextSerial = s.nextSerial →
      (∀ queue, s.objects[o]? = some (.replyPort queue) → queue.hasWritten = false) → Q () s')
    (hpanics : (∀ queue, s.objects[o]? ≠ some (.replyPort queue)) → E .panics s)
    (hwritten : ∀ queue code s', s.objects[o]? = some (.replyPort queue) →
      m.replyCap.isSome = true ∨ queue.hasWritten = true → s'.objects = s.objects →
      E (.error code) s') : wp (pushBack o m) Q E s := by
  have hqueue : ∀ {x y : KernelObject}, s.objects[o]? = some x → x.typeTag ≠ .process →
      x.typeTag ≠ .replyPort → y.typeTag = x.typeTag → y.messages = x.messages ++ [m] →
      Q () (s.setObject o y) := by
    intro x y ho hprocess hreply htag hmessages
    refine hQ _ ⟨fun k hk => getElem?_setObject_of_ne hk, ?_, ?_⟩ rfl fun queue hqueue => ?_
    · rw [Kernel.queue_eq (getElem?_setObject ho), Kernel.queue_eq ho, hmessages]
    · exact capability_setObject_self ho hprocess htag
    · rw [ho] at hqueue
      cases hqueue
      exact absurd rfl hreply
  rw [pushBack, wp_bind, wp_gets]
  cases ho : s.objects[o]? with
  | none => exact hpanics (by simp [ho])
  | some x =>
    cases x with
    | channel | port | endpoint => exact hqueue ho (by rintro ⟨⟩) (by rintro ⟨⟩) rfl rfl
    | replyPort queue =>
      show wp (pushSingle o queue m) _ _ s
      have hdrop : m.replyCap.isSome = true ∨ queue.hasWritten = true → ∀ code, wp (do
          dropCapabilities m.allCaps
          fail code) Q E s := by
        intro hcase code
        rw [wp_bind, dropCapabilities, wp_update]
        obtain ⟨system, hsystem⟩ := foldl_dropCapability ..
        rw [hsystem]
        exact hwritten queue code _ ho hcase rfl
      rw [pushSingle, wp_ite]
      by_cases hreply : m.replyCap.isSome = true
      · rw [if_pos hreply]
        exact hdrop (Or.inl hreply) _
      rw [if_neg hreply, wp_ite]
      by_cases hw : queue.hasWritten = true
      · rw [if_pos hw]
        exact hdrop (Or.inr hw) _
      rw [if_neg hw]
      have hw : queue.hasWritten = false := by simpa using hw
      have hnone := hempty queue ho hw
      refine hQ _ ⟨fun k hk => getElem?_setObject_of_ne hk, ?_, ?_⟩ rfl fun queue' hq => ?_
      · rw [Kernel.queue_eq (getElem?_setObject ho), Kernel.queue_eq ho]
        simp [KernelObject.messages, hnone]
      · exact capability_setObject_self ho (by rintro ⟨⟩) rfl
      · rw [ho] at hq
        cases hq
        exact hw
    | _ => exact hpanics (by simp [ho])

/-- **The front message is taken from a queue**, if it fits the buffers; otherwise nothing changes. -/
theorem wp_recvFront {numBytes numCaps : UInt64} {w : Waiting} {Q : IpcMessage → Kernel → Prop}
    (hQ : ∀ m s', s.Popped o m s' → m.fits numBytes numCaps = true → s'.nextSerial = s.nextSerial →
      Q m s') (hE : ∀ e, e ≠ .error .internal → E e s) : wp (recv o numBytes numCaps w) Q E s := by
  refine wp_recv_takenFrom (fun m x hx hfits => hQ m _ ?_ hfits rfl) fun e he => hE e ?_
  swap
  · rintro rfl
    simp at he
  have hpopped : ∀ {y : KernelObject}, s.objects[o]? = some y → y.typeTag ≠ .process →
      x.typeTag = y.typeTag → y.messages = m :: x.messages → s.Popped o m (s.setObject o x) := by
    intro y ho hprocess htag hmessages
    refine ⟨fun k hk => getElem?_setObject_of_ne hk, ?_, capability_setObject_self ho hprocess htag⟩
    rw [Kernel.queue_eq (getElem?_setObject ho), Kernel.queue_eq ho, hmessages]
  cases hx with
  | channel ho => exact hpopped ho nofun rfl rfl
  | port ho => exact hpopped ho nofun rfl rfl
  | endpoint ho => exact hpopped ho nofun rfl rfl
  | replyPort ho _ _ hm => exact hpopped ho nofun rfl (by simp [KernelObject.messages, hm])

end Syscall

namespace Kernel

/-- **Capabilities are new** in the table of a process, under ids that were not in use. -/
structure Added (s : Kernel) (p : Nat) (ids : List UInt64) (cs : List Capability) (s' : Kernel) :
    Prop extends OnlyTable s p s' where
  /-- The capabilities are found under the ids, in order. -/
  map : ids.map (s'.capability p) = cs.map some
  nodup : ids.Nodup
  fresh : ∀ id ∈ ids, s.capability p id = none
  /-- What else is in the table. -/
  self : ∀ j, j ∉ ids → s'.capability p j = s.capability p j

variable {s s' s'' : Kernel} {p : Nat} {id : UInt64} {c : Capability} {ids : List UInt64}
  {cs : List Capability}

theorem Added.nil (s : Kernel) (p : Nat) : s.Added p [] [] s :=
  ⟨.of_objects rfl, rfl, nodup_nil, nofun, fun _ _ => rfl⟩

theorem Added.concat (h : s.Added p ids cs s') (h' : s'.With p id c s'') : s.Added p (ids ++ [id]) (cs ++ [c]) s'' := by
  -- the new id is not one of those before, which are in use
  have hnot : id ∉ ids := by
    intro hmem
    have hsome : s'.capability p id ∈ cs.map some := h.map ▸ mem_map_of_mem hmem
    rw [h'.fresh] at hsome
    simp at hsome
  have hother : ∀ j, j ≠ id → s''.capability p j = s'.capability p j := fun j hj => by
    rw [h'.self j, if_neg hj]
  refine ⟨h.toOnlyTable.trans h'.toOnlyTable, ?_, ?_, ?_, ?_⟩
  · rw [map_append, map_append, ← h.map, map_singleton, map_singleton, h'.self id, if_pos rfl]
    congr 1
    exact map_congr_left fun j hj => hother j fun heq => hnot (heq ▸ hj)
  · rw [nodup_append]
    refine ⟨h.nodup, by simp, fun a ha b hb heq => hnot ?_⟩
    rw [mem_singleton] at hb
    exact hb ▸ heq ▸ ha
  · intro j hj
    rcases mem_append.mp hj with hj | hj
    · exact h.fresh j hj
    · rw [mem_singleton.mp hj, ← h.self id hnot]
      exact h'.fresh
  · intro j hj
    rw [mem_append, mem_singleton, not_or] at hj
    rw [hother j hj.2, h.self j hj.1]

end Kernel

namespace Syscall

open Kernel

variable {s : Kernel} {p : Nat} {cs : List Capability}

/-- **Capabilities are added one after the other**, or the kernel panics. -/
theorem wp_addAll {Q : List UInt64 → Kernel → Prop} {E : Stop → Kernel → Prop}
    (hQ : ∀ ids s', s.Added p ids cs s' → Q ids s') (hE : ∀ s', E .panics s') :
    wp (each (addExistingCapability p) cs) Q E s := by
  -- the capabilities that are left, and what those before them were added under
  let I : List UInt64 → List Capability → Kernel → Prop := fun ids rest s' =>
    ∃ done, cs = done ++ rest ∧ s.Added p ids done s'
  have hstart : I [] cs s := ⟨[], rfl, .nil s p⟩
  have hloop := wp_each (E := E) (I := I) (f := addExistingCapability p) (fun ids c rest s1 h => ?_) hstart
  · refine wp_mono hloop (fun ids s' h => ?_) fun _ _ he => he
    obtain ⟨done, hdone, hadded⟩ := h
    rw [append_nil] at hdone
    exact hQ ids s' (hdone ▸ hadded)
  · obtain ⟨done, hdone, hadded⟩ := h
    refine wp_add (fun id s2 hwith _ _ => ?_) (hE s1)
    exact ⟨done ++ [c], by rw [hdone, append_assoc]; rfl, hadded.concat hwith⟩

end Syscall

end Acadia.Zion
