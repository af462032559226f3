import Acadia.Foundations.Runs
import Acadia.Zion.Lib.MessageQueue

/-! # Senders and receivers of a message queue

Any number of threads send to and receive from one `UnboundedMessageQueue`; a step is one critical section. -/

namespace Acadia.Zion

open Glacier List Runs UnboundedMessageQueue

/-- A call of `PopFront`. -/
structure PopCall where
  thread : Nat
  dataBufSize : UInt64
  capBufSize : UInt64
  deriving DecidableEq

/-- A queue and the parties that use it. -/
structure QueueState where
  queue : UnboundedMessageQueue := {}
  /-- The receivers that found the list empty and have not looked again. -/
  waiting : List PopCall := []
  /-- The receivers that found a message and have not taken it. -/
  checked : List PopCall := []
  /-- The messages that were pushed. -/
  pushed : List IpcMessage := []
  /-- What calls of `PopFront` returned, in the order of their last critical sections. -/
  returned : List (PopCall × Except ErrorCode IpcMessage) := []

/-- A critical section. -/
inductive QueueSection where
  | pushBack (message : IpcMessage)
  /-- `PopFront` looks at the list for the first time. -/
  | popFront (call : PopCall)
  /-- A receiver that was woken looks again. -/
  | retry (call : PopCall)
  /-- `PopFront` takes the message. -/
  | finish (call : PopCall)

namespace QueueState

/-- The messages that calls of `PopFront` returned. -/
def delivered (s : QueueState) : List IpcMessage := s.returned.filterMap fun r => r.2.toOption

/-- A receiver runs the first critical section. -/
def check (s : QueueState) (call : PopCall) : QueueState :=
  match s.queue.checkPending call.thread with
  | (true, queue) => { s with queue, checked := s.checked ++ [call] }
  | (false, queue) => { s with queue, waiting := s.waiting ++ [call] }

/-- One critical section. There is no next state if its thread is elsewhere, or if it faults. -/
def step (s : QueueState) : QueueSection → Option QueueState
  | .pushBack message =>
    (s.queue.pushBack message).map fun queue => { s with queue, pushed := s.pushed ++ [message] }
  | .popFront call =>
    if call.thread ∈ (s.waiting ++ s.checked).map PopCall.thread then none else some (s.check call)
  | .retry call =>
    if call ∈ s.waiting ∧ call.thread ∉ s.queue.blockedThreads then
      some ({ s with waiting := s.waiting.erase call }.check call)
    else none
  | .finish call =>
    if call ∈ s.checked then
      (s.queue.takeFront call.dataBufSize call.capBufSize).map fun (result, queue) =>
        { s with
          queue
          checked := s.checked.erase call
          returned := s.returned ++ [(call, result)] }
    else none

/-! ## One step -/

/-- **What was pushed was returned or is pending**, in order. -/
def Ledger (s : QueueState) : Prop :=
  ∃ pending, s.queue.pendingMessages.Represents pending ∧ s.pushed = s.delivered ++ pending

theorem ledger_init : Ledger {} := ⟨[], LinkedList.represents_nil, rfl⟩

theorem check_fields (s : QueueState) (call : PopCall) :
    (s.check call).queue.pendingMessages = s.queue.pendingMessages ∧
      (s.check call).pushed = s.pushed ∧ (s.check call).returned = s.returned ∧
      (s.check call).checked =
        if s.queue.pendingMessages.empty then s.checked else s.checked ++ [call] := by
  unfold check checkPending
  by_cases hempty : s.queue.pendingMessages.empty = true
  · rw [if_pos hempty, if_pos hempty]
    exact ⟨rfl, rfl, rfl, rfl⟩
  · rw [if_neg hempty, if_neg hempty]
    exact ⟨rfl, rfl, rfl, rfl⟩

/-- **What the second critical section does**: it returns an error and changes nothing, or it takes
the first message. -/
theorem takeFront_cases {q q' : UnboundedMessageQueue} {dataBufSize capBufSize : UInt64}
    {result : Except ErrorCode IpcMessage} {pending : List IpcMessage}
    (hq : q.pendingMessages.Represents pending) (h : q.takeFront dataBufSize capBufSize = some (result, q')) :
    (result = .error .bufferSize ∧ q' = q) ∨ ∃ message rest, pending = message :: rest ∧ result = .ok message ∧
        q'.pendingMessages.Represents rest := by
  cases pending with
  | nil =>
    rw [takeFront, hq.popFront_nil.1] at h
    cases h
  | cons message rest =>
    obtain ⟨hpeek, l', hpop, hrest⟩ := hq.popFront
    rw [takeFront, hpeek] at h
    simp only [Option.bind_eq_bind, Option.bind_some, hpop] at h
    split at h
    · cases h
      exact Or.inl ⟨rfl, rfl⟩
    · split at h
      · cases h
        exact Or.inl ⟨rfl, rfl⟩
      · cases h
        exact Or.inr ⟨message, rest, rfl, rfl, hrest⟩

variable {s s' : QueueState} {e : QueueSection}

/-- **What a critical section does**, to a list with the elements `pending`: it adds a message, looks
at the list, returns an error, or returns the first message. -/
theorem step_cases {pending : List IpcMessage}
    (hpending : s.queue.pendingMessages.Represents pending) (hstep : s.step e = some s') :
    (∃ message, s'.queue.pendingMessages.Represents (pending ++ [message]) ∧
        s'.pushed = s.pushed ++ [message] ∧ s'.returned = s.returned ∧ s'.checked = s.checked) ∨
      (∃ call, s'.queue.pendingMessages.Represents pending ∧ s'.pushed = s.pushed ∧
        s'.returned = s.returned ∧ (s'.checked = s.checked ∨
          s.queue.pendingMessages.empty = false ∧ (e = .popFront call ∨ e = .retry call) ∧
            s'.checked = s.checked ++ [call])) ∨
      (∃ call, call ∈ s.checked ∧ s'.queue = s.queue ∧ s'.pushed = s.pushed ∧
        s'.returned = s.returned ++ [(call, .error .bufferSize)] ∧
        s'.checked = s.checked.erase call) ∨
      ∃ call message rest, call ∈ s.checked ∧ pending = message :: rest ∧
        s'.queue.pendingMessages.Represents rest ∧ s'.pushed = s.pushed ∧
        s'.returned = s.returned ++ [(call, .ok message)] ∧ s'.checked = s.checked.erase call := by
  cases e with
  | pushBack message =>
    obtain ⟨l', hl', hrep⟩ := hpending.pushBack message
    rw [step, pushBack, hl'] at hstep
    cases hstep
    exact Or.inl ⟨message, hrep, rfl, rfl, rfl⟩
  | popFront call =>
    rw [step] at hstep
    split at hstep
    · cases hstep
    · cases hstep
      obtain ⟨hm, hp, hr, hc⟩ := check_fields s call
      refine Or.inr (Or.inl ⟨call, by rwa [hm], hp, hr, ?_⟩)
      rw [hc]
      split_ifs with hempty
      · exact Or.inl rfl
      · exact Or.inr ⟨by simpa using hempty, Or.inl rfl, rfl⟩
  | retry call =>
    rw [step] at hstep
    split at hstep
    · cases hstep
      obtain ⟨hm, hp, hr, hc⟩ := check_fields { s with waiting := s.waiting.erase call } call
      refine Or.inr (Or.inl ⟨call, by rwa [hm], hp, hr, ?_⟩)
      rw [hc]
      split_ifs with hempty
      · exact Or.inl rfl
      · exact Or.inr ⟨by simpa using hempty, Or.inr rfl, rfl⟩
    · cases hstep
  | finish call =>
    rw [step] at hstep
    split at hstep
    case isFalse => cases hstep
    case isTrue hmem =>
      rw [Option.map_eq_some_iff] at hstep
      obtain ⟨⟨result, queue⟩, htake, rfl⟩ := hstep
      rcases takeFront_cases hpending htake with ⟨rfl, rfl⟩ | ⟨message, rest, rfl, rfl, hrest⟩
      · exact Or.inr (Or.inr (Or.inl ⟨call, hmem, rfl, rfl, rfl, rfl⟩))
      · exact Or.inr (Or.inr (Or.inr ⟨call, message, rest, hmem, rfl, hrest, rfl, rfl, rfl⟩))

/-- **One critical section keeps the ledger.** -/
theorem ledger_step (h : Ledger s) (hstep : s.step e = some s') : Ledger s' := by
  obtain ⟨pending, hpending, hledger⟩ := h
  rcases step_cases hpending hstep with ⟨message, hrep, hp, hr, -⟩ | ⟨call, hrep, hp, hr, -⟩ |
    ⟨call, -, hq, hp, hr, -⟩ | ⟨call, message, rest, -, rfl, hrep, hp, hr, -⟩
  · refine ⟨pending ++ [message], hrep, ?_⟩
    rw [hp, hledger, delivered, delivered, hr, append_assoc]
  · refine ⟨pending, hrep, ?_⟩
    rw [hp, hledger, delivered, delivered, hr]
  · refine ⟨pending, by rwa [hq], ?_⟩
    rw [hp, hledger, delivered, delivered, hr, filterMap_append]
    simp [Except.toOption]
  · refine ⟨rest, hrep, ?_⟩
    rw [hp, hledger, delivered, delivered, hr, filterMap_append]
    simp [Except.toOption]

/-! ## Whole runs -/

/-- **Messages are returned in the order in which they were pushed**, none lost and none twice, and a
call that returns `BUFFER_SIZE` leaves the queue as it was. -/
theorem delivered_isPrefix_pushed {events : List QueueSection} {s : QueueState} (hrun : run step {} events = some s) :
    s.delivered <+: s.pushed ∧ ∀ call s', s.step (.finish call) = some s' →
        s'.returned = s.returned ++ [(call, .error .bufferSize)] → s'.queue = s.queue := by
  have hledger : Ledger s :=
    run_invariant' (fun s e s' h hstep => ledger_step h hstep) ledger_init hrun
  obtain ⟨pending, hpending, hpushed⟩ := hledger
  refine ⟨⟨pending, hpushed.symm⟩, ?_⟩
  intro call s' hstep hreturned
  rcases step_cases hpending hstep with ⟨_, -, -, hr, -⟩ | ⟨_, -, -, hr, -⟩ | ⟨_, -, hq, -⟩ |
    ⟨_, message, _, -, -, -, -, hr, -⟩
  · rw [hr] at hreturned
    simp at hreturned
  · rw [hr] at hreturned
    simp at hreturned
  · exact hq
  · rw [hr] at hreturned
    simp at hreturned

/-- The first of two messages comes back; a second receiver with a small buffer gets nothing. -/
theorem delivered_isPrefix_pushed_two : ∃ s, run step {} [.popFront ⟨1, 8, 0⟩, .pushBack ⟨0, [1], [], none⟩,
        .pushBack ⟨1, [2, 3], [], none⟩, .retry ⟨1, 8, 0⟩, .finish ⟨1, 8, 0⟩, .popFront ⟨2, 1, 0⟩,
        .finish ⟨2, 1, 0⟩] = some s ∧
      s.delivered = [⟨0, [1], [], none⟩] ∧ s.delivered <+: s.pushed := by
  have hrun : (run step {} [.popFront ⟨1, 8, 0⟩, .pushBack ⟨0, [1], [], none⟩,
      .pushBack ⟨1, [2, 3], [], none⟩, .retry ⟨1, 8, 0⟩, .finish ⟨1, 8, 0⟩, .popFront ⟨2, 1, 0⟩,
      .finish ⟨2, 1, 0⟩]).map delivered = some [⟨0, [1], [], none⟩] := by decide +kernel
  obtain ⟨s, hs, hdelivered⟩ := Option.map_eq_some_iff.mp hrun
  exact ⟨s, hs, hdelivered, (delivered_isPrefix_pushed hs).1⟩

/-- A receiver only passes the check while there are more messages than receivers that have passed
it and not taken theirs. -/
def Admits (s : QueueState) : QueueSection → Prop
  | .popFront _ => s.queue.pendingMessages.empty = false →
    s.checked.length < s.queue.pendingMessages.size
  | .retry _ => s.queue.pendingMessages.empty = false →
    s.checked.length < s.queue.pendingMessages.size
  | _ => True

instance (s : QueueState) (e : QueueSection) : Decidable (s.Admits e) := by
  cases e <;> unfold Admits <;> infer_instance

/-- There is a message for each receiver that has passed the check. -/
def Provided (s : QueueState) : Prop :=
  ∃ pending, s.queue.pendingMessages.Represents pending ∧ s.checked.length ≤ pending.length

/-- **A critical section keeps a message for each receiver.** -/
theorem provided_step (h : Provided s) (hok : s.Admits e) (hstep : s.step e = some s') : Provided s' := by
  obtain ⟨pending, hpending, hle⟩ := h
  rcases step_cases hpending hstep with ⟨message, hrep, -, -, hc⟩ | ⟨call, hrep, -, -, hc⟩ |
    ⟨call, hmem, hq, -, -, hc⟩ | ⟨call, message, rest, hmem, rfl, hrep, -, -, hc⟩
  · refine ⟨pending ++ [message], hrep, ?_⟩
    rw [hc, length_append]
    exact Nat.le_succ_of_le hle
  · refine ⟨pending, hrep, ?_⟩
    rcases hc with hc | ⟨hempty, he, hc⟩
    · rwa [hc]
    · -- the receiver passes the check, so there is a message more
      have hlt : s.checked.length < s.queue.pendingMessages.size := by
        rcases he with rfl | rfl
        all_goals exact hok hempty
      rw [hc, length_append, ← hpending.1]
      exact hlt
  · refine ⟨pending, by rwa [hq], ?_⟩
    rw [hc, length_erase_of_mem hmem]
    omega
  · refine ⟨rest, hrep, ?_⟩
    rw [length_cons] at hle
    rw [hc, length_erase_of_mem hmem]
    omega

/-- **`PopFront` takes from a list with messages**, if receivers pass the check only while there are
messages enough. -/
theorem checked_finds_message {events : List QueueSection} {s : QueueState}
    (hmeets : Runs.Meets step Admits {} events) (hrun : run step {} events = some s) :
    ∀ call ∈ s.checked, s.queue.pendingMessages.empty = false ∧ s.queue.pendingMessages.peekFront ≠ none := by
  obtain ⟨pending, hpending, hle⟩ := run_invariant (fun s e s' h hok hstep => provided_step h hok hstep)
    (show Provided {} from ⟨[], LinkedList.represents_nil, Nat.le_refl 0⟩) hmeets hrun
  intro call hcall
  have hpos : 0 < s.checked.length := length_pos_of_mem hcall
  obtain - | ⟨message, rest⟩ := pending
  · exact absurd hle (Nat.not_le_of_lt hpos)
  constructor
  · rw [Bool.eq_false_iff]
    intro hempty
    cases hpending.empty_iff.mp hempty
  · rw [hpending.popFront.1]
    exact Option.some_ne_none _

/-- Two messages for two receivers. -/
theorem checked_finds_message_two : ∃ s, run step {} [.pushBack ⟨0, [1], [], none⟩, .pushBack ⟨1, [2], [], none⟩,
        .popFront ⟨1, 8, 0⟩, .popFront ⟨2, 8, 0⟩, .finish ⟨1, 8, 0⟩] = some s ∧
      s.checked = [⟨2, 8, 0⟩] ∧ s.queue.pendingMessages.peekFront ≠ none := by
  have hrun : (run step {} [.pushBack ⟨0, [1], [], none⟩, .pushBack ⟨1, [2], [], none⟩,
      .popFront ⟨1, 8, 0⟩, .popFront ⟨2, 8, 0⟩, .finish ⟨1, 8, 0⟩]).map checked =
      some [⟨2, 8, 0⟩] := by decide +kernel
  obtain ⟨s, hs, hchecked⟩ := Option.map_eq_some_iff.mp hrun
  refine ⟨s, hs, hchecked, (checked_finds_message ?_ hs ⟨2, 8, 0⟩ (by simp [hchecked])).2⟩
  decide +kernel

/-- **Two receivers pass the check on one message**; the second one follows a null pointer. -/
theorem second_receiver_faults : (run step {} [.pushBack ⟨0, [1], [], none⟩, .popFront ⟨1, 8, 0⟩, .popFront ⟨2, 8, 0⟩,
        .finish ⟨1, 8, 0⟩]).map (fun s =>
          (s.checked, s.queue.pendingMessages.empty, s.queue.pendingMessages.peekFront)) =
      some ([⟨2, 8, 0⟩], true, none) := by
  decide +kernel

end QueueState

end Acadia.Zion
