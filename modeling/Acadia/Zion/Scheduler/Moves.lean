import Acadia.Zion.Scheduler.Operations

/-! # The moves of the scheduler

Every function that moves threads is a sequence of a few kinds of moves: a thread is woken, the current thread
blocks, the processor is given to another thread. `Move` lists them, each with what the code has checked before it,
and `Cause` the states in which a function stops the kernel instead. A thread that has blocked or exited still runs
until it yields: the phase says so. -/

namespace Acadia.Zion

open Command Glacier Relation Function

/-- The state that threads have in a list. -/
def ThreadList.state : ThreadList → ThreadState
  | .runnable => .runnable
  | .sleeping => .sleeping
  | _ => .blocked

/-- What the sleep thread can be left with: the call at the end of `zion()`, or the end of an
interrupt. -/
def Continuation.IsIdle : Continuation → Prop
  | .yield => True
  | .endPush _ interrupt => interrupt = true
  | _ => False

namespace Tasks

variable {s s' : Tasks} {t u : Nat} {l l' : ThreadList}

/-! ## Small changes -/

theorem state_writeState (x : ThreadState) : (s.writeState t x).state u = if u = t then x else s.state u := by
  unfold state writeState modifyThread
  by_cases h : u = t
  · subst h
    simp
  · simp [h]

@[simp] theorem state_writeState_self (x : ThreadState) : (s.writeState t x).state t = x := by
  rw [state_writeState, if_pos rfl]

theorem state_writeState_of_ne (x : ThreadState) (h : u ≠ t) : (s.writeState t x).state u = s.state u := by
  rw [state_writeState, if_neg h]

@[simp] theorem process_modifyProcess_self (p : Nat) (f : Process → Process) :
    (s.modifyProcess p f).process p = f (s.process p) :=
  update_self ..

theorem process_modifyProcess {p : Nat} {f : Process → Process} (q : Nat) :
    (s.modifyProcess p f).process q = if q = p then f (s.process p) else s.process q :=
  update_apply ..

@[simp] theorem thread_modifyThread_self (f : Thread → Thread) : (s.modifyThread t f).thread t = f (s.thread t) :=
  update_self ..

variable {f : Thread → Thread}

theorem thread_modifyThread (u : Nat) : (s.modifyThread t f).thread u = if u = t then f (s.thread t) else s.thread u :=
  update_apply ..

@[simp] theorem system_modifyProcess (p : Nat) (f : Process → Process) : (s.modifyProcess p f).system = s.system := rfl

@[simp] theorem system_writeState (x : ThreadState) : (s.writeState t x).system = s.system := rfl

theorem state_modifyThread (h : (f (s.thread t)).state = (s.thread t).state) :
    (s.modifyThread t f).state u = s.state u := by
  by_cases hu : u = t
  · subst hu
    exact (congrArg Thread.state (thread_modifyThread_self f)).trans h
  · exact congrArg Thread.state (update_of_ne hu ..)

theorem lists_setList (ts : List Nat) : (s.setList l ts).lists l' = if l' = l then ts else s.lists l' := by
  unfold setList
  by_cases h : l' = l
  · subst h
    simp
  · simp [h]

theorem lists_push : (s.push l t).lists l' = if l' = l then s.lists l ++ [t] else s.lists l' :=
  lists_setList _

/-- The sleep thread, when it yields, can be run again. -/
def released (s : Tasks) : Tasks :=
  if s.current = sleepThread ∧ !(s.state s.current).isDying then s.writeState s.current .runnable
  else s

/-- The processor is given to `next`; `rest` are then the threads that can run. -/
def switchTo (s : Tasks) (next : Nat) (rest : List Nat) : Tasks :=
  ({ s.setList .runnable rest with current := next }).writeState next .running

/-! ## Moves -/

/-- Whether the current thread goes on, or has left for a list or for good and is about to yield. -/
inductive Phase where
  | running
  | leaving
  deriving DecidableEq

/-- **The moves.** -/
inductive Move : Phase × Tasks → Phase × Tasks → Prop where
  /-- Memory and the counters of semaphores and queues are changed. -/
  | aside {p : Phase} {s : Tasks} (count : SemaphoreId → UInt8) (pending : Nat → Nat)
      (inThreadLoop : Bool) (system : System) (heap : KernelHeap PhysicalMemoryManager) :
      Move (p, s) (p, { s with count, pending, inThreadLoop, system, heap })
  /-- A mutex is taken or released, an interrupt comes or is acknowledged. -/
  | locks {p : Phase} {s : Tasks} (locked : MutexId → Bool) (inService : Nat → Bool) :
      Move (p, s) (p, { s with locked, inService })
  /-- The ticks for which a thread sleeps are changed. -/
  | ticks {p : Phase} {s : Tasks} (t : Nat) (n : UInt64) :
      Move (p, s) (p, s.modifyThread t fun th => { th with sleepTicks := n })
  /-- A thread has something to do when it goes on. -/
  | later {p : Phase} {s : Tasks} (t : Nat) (k : Continuation) :
      (t = sleepThread → k.IsIdle) → k ≠ .init → (k = .wait .cleanup → t = cleanupThread) →
      Move (p, s) (p, s.addTodo t k)
  /-- The current thread goes on. -/
  | resumed {p : Phase} {s : Tasks} {k : Continuation} {todo : List Continuation} :
      (s.thread s.current).todo = k :: todo → k ≠ .init →
      Move (p, s) (p, s.modifyThread s.current fun th => { th with todo })
  /-- A thread is woken. -/
  | wake {p : Phase} {s : Tasks} {l : ThreadList} {t : Nat} : l ≠ .runnable → t ∈ s.lists l →
      (s.state t).isDying = false →
      Move (p, s)
        (p, ((s.setList l ((s.lists l).erase t)).writeState t .runnable).push .runnable t)
  /-- The current thread blocks, or goes to sleep; only the cleanup thread waits for exits. -/
  | block {s : Tasks} {l : ThreadList} : l ≠ .runnable → s.current ≠ sleepThread →
      (l = .semaphore .cleanup → s.current = cleanupThread) →
      (s.state s.current).isDying = false →
      Move (.running, s) (.leaving, (s.writeState s.current l.state).push l s.current)
  /-- Dying threads at the front of the runnable list are dropped. -/
  | clear {p : Phase} {s : Tasks} : Move (p, s) (p, s.clearDeadThreadsFromFront)
  /-- No thread can run, and the sleep thread is given the processor. -/
  | idle {p : Phase} {s : Tasks} : s.lists .runnable = [] → s.current ≠ sleepThread →
      s.state sleepThread = .runnable →
      Move (p, s) (.running, ({ s with current := sleepThread }).writeState sleepThread .running)
  /-- The next thread is given the processor by `Yield`. -/
  | switch {p : Phase} {s : Tasks} {next : Nat} {rest : List Nat} :
      s.lists .runnable = next :: rest → s.released.state next = .runnable →
      Move (p, s) (.running, s.released.switchTo next rest)
  /-- The next thread is given the processor by `Preempt`. -/
  | preempt {s : Tasks} {next : Nat} {rest : List Nat} :
      s.lists .runnable = next :: rest → (s.state s.current).isDying = false →
      (s.writeState s.current .runnable).state next = .runnable →
      Move (.running, s)
        (.running, (s.writeState s.current .runnable).switchTo next (rest ++ [s.current]))

/-- Several moves. -/
abbrev Moves : Phase × Tasks → Phase × Tasks → Prop := ReflTransGen Move

/-- **The states in which a function stops the kernel**, and with what. -/
inductive Cause : Phase × Tasks → Fault → Prop where
  /-- A thread that is to be woken is dying. -/
  | wake {p : Phase} {s : Tasks} {l : ThreadList} {t : Nat} : l ≠ .runnable → t ∈ s.lists l →
      (s.state t).isDying = true → Cause (p, s) .dyingSetState
  /-- The current thread, which is to block or to be preempted, is dying. -/
  | current {s : Tasks} : (s.state s.current).isDying = true → Cause (.running, s) .dyingSetState
  | idle {p : Phase} {s : Tasks} : s.lists .runnable = [] → s.current ≠ sleepThread →
      s.state sleepThread ≠ .runnable → Cause (p, s) .swappingNonRunnable
  | switch {p : Phase} {s : Tasks} {next : Nat} {rest : List Nat} :
      s.lists .runnable = next :: rest → (s.state next).isDying = false →
      s.released.state next ≠ .runnable → Cause (p, s) .swappingNonRunnable
  | preempt {s : Tasks} {next : Nat} {rest : List Nat} :
      s.lists .runnable = next :: rest → (s.state next).isDying = false →
      (s.writeState s.current .runnable).state next ≠ .runnable →
      Cause (.running, s) .swappingNonRunnable
  /-- The sleep thread yields and no thread can run. -/
  | sleep {p : Phase} {s : Tasks} : s.lists .runnable = [] → s.current = sleepThread →
      Cause (p, s) .sleepYielded

/-- A function stops the kernel after some moves. -/
def Stops (x : Phase × Tasks) (f : Fault) : Prop := ∃ y, Moves x y ∧ Cause y f

variable {x y : Phase × Tasks}

theorem Stops.of_moves {f : Fault} (hxy : Moves x y) (h : Stops y f) : Stops x f := by
  obtain ⟨z, hyz, hz⟩ := h
  exact ⟨z, hxy.trans hyz, hz⟩

theorem Cause.stops {f : Fault} (h : Cause x f) : Stops x f := ⟨x, .refl, h⟩

/-- The moves of the scheduler itself leave the mutexes, the interrupts and the switch that enables it
as they are. -/
structure Keeps (s s' : Tasks) : Prop where
  locked : s'.locked = s.locked
  inService : s'.inService = s.inService
  enabled : s'.enabled = s.enabled

theorem Keeps.refl (s : Tasks) : Keeps s s := ⟨rfl, rfl, rfl⟩

theorem Keeps.trans {s1 s2 s3 : Tasks} (h : Keeps s1 s2) (h' : Keeps s2 s3) : Keeps s1 s3 :=
  ⟨h'.locked.trans h.locked, h'.inService.trans h.inService, h'.enabled.trans h.enabled⟩

/-! ## What moves leave alone -/

/-- **Moves neither kill nor revive threads**, and what is known of threads and processes apart from
their states and lists stays. -/
structure Frame (s s' : Tasks) : Prop where
  threadCount : s'.threadCount = s.threadCount
  processCount : s'.processCount = s.processCount
  process : s'.process = s.process
  threadList : s'.threadList = s.threadList
  processList : s'.processList = s.processList
  freedUserStacks : s'.freedUserStacks = s.freedUserStacks
  freedStacks : s'.freedStacks = s.freedStacks
  stackManager : s'.stackManager = s.stackManager
  enabled : s'.enabled = s.enabled
  /-- The fields of threads that moves do not change. -/
  thread : ∀ t, (s'.thread t).process = (s.thread t).process ∧
    (s'.thread t).isKernel = (s.thread t).isKernel ∧
    (s'.thread t).userStackBase = (s.thread t).userStackBase ∧
    (s'.thread t).rsp0Start = (s.thread t).rsp0Start
  dying : ∀ t, (s'.state t).isDying = (s.state t).isDying
  dead : ∀ t, (s.state t).isDying = true → s'.state t = s.state t
  init : ∀ t, .init ∈ (s'.thread t).todo ↔ .init ∈ (s.thread t).todo
  idle : (∀ k ∈ (s.thread sleepThread).todo, k.IsIdle) →
    ∀ k ∈ (s'.thread sleepThread).todo, k.IsIdle
  waits : ∀ t, .wait .cleanup ∈ (s'.thread t).todo →
    t = cleanupThread ∨ .wait .cleanup ∈ (s.thread t).todo

theorem Frame.refl (s : Tasks) : Frame s s where
  threadCount := rfl
  processCount := rfl
  process := rfl
  threadList := rfl
  processList := rfl
  freedUserStacks := rfl
  freedStacks := rfl
  stackManager := rfl
  enabled := rfl
  thread _ := ⟨rfl, rfl, rfl, rfl⟩
  dying _ := rfl
  dead _ _ := rfl
  init _ := Iff.rfl
  idle h := h
  waits _ h := .inr h

theorem Frame.trans {s1 s2 s3 : Tasks} (h : Frame s1 s2) (h' : Frame s2 s3) : Frame s1 s3 where
  threadCount := h'.threadCount.trans h.threadCount
  processCount := h'.processCount.trans h.processCount
  process := h'.process.trans h.process
  threadList := h'.threadList.trans h.threadList
  processList := h'.processList.trans h.processList
  freedUserStacks := h'.freedUserStacks.trans h.freedUserStacks
  freedStacks := h'.freedStacks.trans h.freedStacks
  stackManager := h'.stackManager.trans h.stackManager
  enabled := h'.enabled.trans h.enabled
  thread t := ⟨(h'.thread t).1.trans (h.thread t).1, (h'.thread t).2.1.trans (h.thread t).2.1,
    (h'.thread t).2.2.1.trans (h.thread t).2.2.1, (h'.thread t).2.2.2.trans (h.thread t).2.2.2⟩
  dying t := (h'.dying t).trans (h.dying t)
  dead t hd := (h'.dead t ((h.dying t).trans hd)).trans (h.dead t hd)
  init t := (h'.init t).trans (h.init t)
  idle hi := h'.idle (h.idle hi)
  waits t ht := (h'.waits t ht).elim .inl (h.waits t)

theorem Frame.modifyThread (hf : (f (s.thread t)).process = (s.thread t).process ∧
      (f (s.thread t)).isKernel = (s.thread t).isKernel ∧
      (f (s.thread t)).userStackBase = (s.thread t).userStackBase ∧
      (f (s.thread t)).rsp0Start = (s.thread t).rsp0Start)
    (hstate : (f (s.thread t)).state = (s.thread t).state ∨
      (s.state t).isDying = false ∧ (f (s.thread t)).state.isDying = false)
    (hinit : .init ∈ (f (s.thread t)).todo ↔ .init ∈ (s.thread t).todo)
    (hidle : t = sleepThread → (∀ k ∈ (s.thread t).todo, k.IsIdle) →
      ∀ k ∈ (f (s.thread t)).todo, k.IsIdle) (hwait : .wait .cleanup ∈ (f (s.thread t)).todo →
      t = cleanupThread ∨ .wait .cleanup ∈ (s.thread t).todo) : Frame s (s.modifyThread t f) := by
  have hself : (s.modifyThread t f).thread t = f (s.thread t) := thread_modifyThread_self f
  have hother : ∀ u, u ≠ t → (s.modifyThread t f).thread u = s.thread u := fun u hu =>
    update_of_ne hu ..
  refine ⟨rfl, rfl, rfl, rfl, rfl, rfl, rfl, rfl, rfl, fun u => ?_, fun u => ?_, fun u hd => ?_,
    fun u => ?_, fun hi => ?_, fun u hu' => ?_⟩
  case refine_5 =>
    by_cases hu : sleepThread = t
    · subst hu
      exact hidle rfl hi
    · rwa [hother _ hu]
  all_goals
    by_cases hu : u = t
    · subst hu
      simp only [state, hself] at *
      grind
    · simp_all [state]

theorem Frame.writeState {x : ThreadState} (ht : (s.state t).isDying = false)
    (hx : x.isDying = false) : Frame s (s.writeState t x) :=
  .modifyThread ⟨rfl, rfl, rfl, rfl⟩ (.inr ⟨ht, hx⟩) Iff.rfl (fun _ h => h) .inr

theorem Frame.of_eq (hth : s'.thread = s.thread := by rfl)
    (hn : s'.threadCount = s.threadCount := by rfl) (hm : s'.processCount = s.processCount := by rfl)
    (hp : s'.process = s.process := by rfl) (hl : s'.threadList = s.threadList := by rfl)
    (hpl : s'.processList = s.processList := by rfl)
    (hu : s'.freedUserStacks = s.freedUserStacks := by rfl)
    (hf : s'.freedStacks = s.freedStacks := by rfl)
    (hsm : s'.stackManager = s.stackManager := by rfl) (he : s'.enabled = s.enabled := by rfl) :
    Frame s s' := by
  have hst : ∀ t, s'.state t = s.state t := fun t => congrArg (fun f => (f t).state) hth
  refine ⟨hn, hm, hp, hl, hpl, hu, hf, hsm, he, fun t => ?_, fun t => congrArg _ (hst t),
    fun t _ => hst t, fun t => ?_, fun hi => ?_, fun t ht => .inr ?_⟩
  · rw [hth]
    exact ⟨rfl, rfl, rfl, rfl⟩
  · rw [hth]
  · rwa [hth]
  · rwa [hth] at ht

theorem Frame.setList (ts : List Nat) : Frame s (s.setList l ts) :=
  .of_eq

theorem Frame.released (s : Tasks) : Frame s s.released := by
  unfold Tasks.released
  split_ifs with h
  · exact .writeState (by simpa using h.2) rfl
  · exact .refl s

theorem Frame.switchTo {next : Nat} {rest : List Nat} (h : s.state next = .runnable) :
    Frame s (s.switchTo next rest) := by
  refine .trans (.of_eq : Frame s { s.setList .runnable rest with current := next }) (.writeState ?_ rfl)
  show (s.state next).isDying = false
  rw [h]
  rfl

/-- **What one move leaves alone.** -/
theorem Move.frame (h : Move x y) : Frame x.2 y.2 := by
  cases h with
  | aside | locks => exact .of_eq
  | ticks =>
    dsimp only
    apply Frame.modifyThread
    · exact ⟨rfl, rfl, rfl, rfl⟩
    · exact .inl rfl
    · rfl
    · exact fun _ h => h
    · exact .inr
  | later t k hidle hk hwait =>
    dsimp only [addTodo]
    apply Frame.modifyThread
    · exact ⟨rfl, rfl, rfl, rfl⟩
    · exact .inl rfl
    · simp [hk.symm]
    · intro ht h k' hk'
      rcases List.mem_cons.mp hk' with rfl | hk'
      · exact hidle ht
      · exact h k' hk'
    · exact fun h => (List.mem_cons.mp h).imp (fun h => hwait h.symm) id
  | resumed htodo hk =>
    dsimp only
    apply Frame.modifyThread
    · exact ⟨rfl, rfl, rfl, rfl⟩
    · exact .inl rfl
    · rw [htodo]
      simp [hk.symm]
    · intro _ h k' hk'
      exact h k' (htodo ▸ List.mem_cons_of_mem _ hk')
    · exact fun h => .inr (htodo ▸ List.mem_cons_of_mem _ h)
  | wake hl ht hd =>
    exact .trans (.setList _) (.trans (.writeState hd rfl) (.setList _))
  | block hl hs hx hd =>
    refine .trans (.writeState hd ?_) (.setList _)
    rename_i l
    cases l <;> rfl
  | clear => exact .setList _
  | @idle _ s hr hs hi =>
    refine .trans (.of_eq : Frame s { s with current := sleepThread }) (.writeState ?_ rfl)
    show (s.state sleepThread).isDying = false
    rw [hi]
    rfl
  | switch hr hn => exact .trans (.released _) (.switchTo hn)
  | preempt hr hd hn => exact .trans (.writeState hd rfl) (.switchTo hn)

/-- **What moves leave alone.** -/
theorem frame_of_moves (h : Moves x y) : Frame x.2 y.2 := by
  induction h with
  | refl => exact .refl _
  | tail _ hm ih => exact ih.trans hm.frame

end Tasks

end Acadia.Zion
