import Acadia.Zion.Scheduler.Rules

/-! # What an event does

The rules for the life of threads and processes, up to their cleanup, and with them for every event:
`Effect` says what an event does to the state, `Failure` why it stops the kernel. -/

namespace Acadia.Zion.Tasks

open Command Glacier Relation List Function

variable {s s' : Tasks} {t u : Nat} {l l' : ThreadList}

/-! ## The life of threads and processes -/

/-- A thread is started. -/
def started (s : Tasks) (t : Nat) : Tasks := (s.writeState t .runnable).push .runnable t

/-- The current thread exits. -/
def exited (s : Tasks) : Tasks :=
  { s.writeState s.current .cleanup with threadList := s.threadList ++ [s.current] }

/-- The threads of a list that are not dying are marked for cleanup. -/
def markedThreads (thread : Nat → Thread) (ts : List Nat) (t : Nat) : Thread :=
  if t ∈ ts ∧ (thread t).state.isDying = false then { thread t with state := .cleanup } else thread t

/-- A process exits. -/
def processExited (s : Tasks) (p : Nat) (exitCode : UInt64) : Tasks :=
  { s.modifyProcess p fun x => { x with state := .cleanup, exitCode } with
    thread := markedThreads s.thread (s.process p).threads
    processList := s.processList ++ [p] }

/-- A process gets a new thread. -/
def created (s : Tasks) (p : Nat) (garbage rsp0Start cr3 : UInt64) : Tasks :=
  { s with
    thread := update s.thread s.threadCount
      { process := p, userStackBase := garbage, rsp0Start, cr3 }
    threadCount := s.threadCount + 1
    process := update s.process p
      { s.process p with threads := (s.process p).threads ++ [s.threadCount] } }

/-- There is a new process. -/
def spawned (s : Tasks) (i : Nat) (system : System) (heap : KernelHeap PhysicalMemoryManager) : Tasks :=
  { s with
    system
    heap
    process := update s.process s.processCount { id := s.processCount, vmas := some i }
    processCount := s.processCount + 1 }

/-- The current thread has its user stack. -/
def initialised (s : Tasks) (base : UInt64) (system : System) : Tasks :=
  ({ s with system }).modifyThread s.current fun th => { th with userStackBase := base }

/-- `Init` changes one thread, and memory. -/
theorem initialised_modifyThread (todo : List Continuation) (base : UInt64) (system : System) :
    (s.modifyThread s.current fun th => { th with todo }).initialised base system =
      ({ s with system } : Tasks).modifyThread s.current fun th =>
        { th with todo, userStackBase := base } := by
  simp [initialised, modifyThread]

/-- A thread has been cleaned up: its kernel stack is given back. -/
def cleaned (s : Tasks) (t : Nat) : Tasks :=
  ({ s with
    stackManager :=
      { s.stackManager with freeStacks := (s.thread t).rsp0Start :: s.stackManager.freeStacks }
    freedStacks := s.freedStacks ++ [(t, (s.thread t).rsp0Start)] }).writeState t .finished

theorem state_started : (s.started t).state u = if u = t then .runnable else s.state u :=
  state_writeState _

theorem state_exited : s.exited.state t = if t = s.current then .cleanup else s.state t :=
  state_writeState _

theorem state_cleaned : (s.cleaned t).state u = if u = t then .finished else s.state u :=
  state_writeState _

variable {system : System} {heap : KernelHeap PhysicalMemoryManager}

theorem state_initialised {base : UInt64} : (s.initialised base system).state t = s.state t :=
  state_modifyThread rfl

variable {p : Nat}

theorem state_processExited {exitCode : UInt64} : (s.processExited p exitCode).state t =
      if t ∈ (s.process p).threads ∧ (s.state t).isDying = false then .cleanup else s.state t := by
  show (markedThreads s.thread (s.process p).threads t).state = _
  unfold markedThreads
  split
  · rename_i h
    exact (if_pos h).symm
  · rename_i h
    exact (if_neg h).symm

theorem thread_processExited (exitCode : UInt64) (u : Nat) : (s.processExited p exitCode).thread u =
      { s.thread u with state := (s.processExited p exitCode).state u } := by
  show markedThreads s.thread (s.process p).threads u =
    { s.thread u with state := (markedThreads s.thread (s.process p).threads u).state }
  unfold markedThreads
  split <;> rfl

theorem process_processExited {exitCode : UInt64} (q : Nat) : (s.processExited p exitCode).process q =
      if q = p then { s.process p with state := .cleanup, exitCode } else s.process q :=
  process_modifyProcess (s := s) (p := p) (f := fun x => { x with state := .cleanup, exitCode }) q

section created

variable {p : Nat} {garbage rsp0Start cr3 : UInt64}

@[simp] theorem thread_created_self : (s.created p garbage rsp0Start cr3).thread s.threadCount =
      { process := p, userStackBase := garbage, rsp0Start, cr3 } :=
  update_self (f := s.thread) ..

theorem thread_created_of_ne (h : t ≠ s.threadCount) : (s.created p garbage rsp0Start cr3).thread t = s.thread t :=
  update_of_ne h ..

theorem threads_created (p' : Nat) : ((s.created p garbage rsp0Start cr3).process p').threads =
      if p' = p then (s.process p).threads ++ [s.threadCount] else (s.process p').threads := by
  show (update s.process p _ p').threads = _
  by_cases h : p' = p
  · subst h
    rw [update_self, if_pos rfl]
  · rw [update_of_ne h, if_neg h]

theorem process_created_self : (s.created p garbage rsp0Start cr3).process p =
    { s.process p with threads := (s.process p).threads ++ [s.threadCount] } :=
  update_self (f := s.process) ..

theorem process_created_of_ne {p' : Nat} (h : p' ≠ p) : (s.created p garbage rsp0Start cr3).process p' = s.process p' :=
  update_of_ne h ..

end created

theorem process_spawned {i : Nat} (p : Nat) : (s.spawned i system heap).process p =
      if p = s.processCount then { id := s.processCount, vmas := some i } else s.process p := by
  show update s.process s.processCount _ p = _
  by_cases h : p = s.processCount
  · subst h
    rw [update_self, if_pos rfl]
  · rw [update_of_ne h, if_neg h]

variable {E : Fault → Tasks → Prop}

/-- The rule for `Thread::Start`. -/
theorem wp_threadStart (hs : s.current ≠ sleepThread) {Q : Unit → Tasks → Prop} :
    wp (threadStart t) Q E s ↔ Q () (s.started t) := by
  simp only [threadStart, enqueue, wp_bind, wp_update, wp_gets, wp_ite, wp_pure]
  exact iff_of_eq (if_neg hs)

/-- The kernel heap was used. -/
def withHeap (s : Tasks) (machine : Machine PhysicalMemoryManager)
    (heap : KernelHeap PhysicalMemoryManager) : Tasks :=
  { s with system := { s.system with machine }, heap }

/-- The use of the heap is no matter of the scheduler. -/
theorem move_withHeap (p : Phase) (machine : Machine PhysicalMemoryManager) :
    Move (p, s) (p, s.withHeap machine heap) :=
  .aside s.count s.pending s.inThreadLoop _ heap

/-- The rule for the use of the kernel heap. -/
theorem wp_useHeap (uses : List HeapRequest) : wp (each useHeap uses)
      (fun _ s' => ∃ machine heap, s' = s.withHeap machine heap)
      (fun f _ => f = .outOfMemory ∨ f = .undefined) s := by
  refine wp_each_rest (I := fun _ s' => ∃ machine heap, s' = s.withHeap machine heap)
    (fun use _ s1 h1 => ?_) ⟨s.system.machine, s.heap, rfl⟩
  obtain ⟨machine, heap, rfl⟩ := h1
  cases use with
  | new size =>
    unfold useHeap
    cases hnew : KernelHeap.allocate { (s.withHeap machine heap).heap with
        machine, cr3 := (s.thread s.current).cr3 } size with
    | none => exact (wp_updateSome_none (by exact congrArg (· >>= _) hnew)).mpr (.inl rfl)
    | some x => exact (wp_updateSome_some (by exact congrArg (· >>= _) hnew)).mpr ⟨_, _, rfl⟩
  | delete addr =>
    unfold useHeap
    cases hdelete : heap.delete addr with
    | none => exact (wp_updateSome_none (by exact congrArg (· >>= _) hdelete)).mpr (.inr rfl)
    | some => exact (wp_updateSome_some (by exact congrArg (· >>= _) hdelete)).mpr ⟨machine, _, rfl⟩

/-- A kernel stack is taken: one that was given back, or the next one. -/
inductive TakesStack (s : Tasks) : UInt64 → Tasks → Prop where
  | freed {stack : UInt64} {freeStacks : List UInt64} :
      s.stackManager.freeStacks = stack :: freeStacks →
      TakesStack s stack { s with stackManager := { s.stackManager with freeStacks } }
  | fresh {machine : Machine PhysicalMemoryManager} : s.stackManager.freeStacks = [] →
      s.stackManager.nextStackAddr + kKernelStackOffset < kKernelStackEnd →
      TakesStack s (s.stackManager.nextStackAddr + kKernelStackOffset - 8)
        { s with
          system := { s.system with machine }
          stackManager :=
            { s.stackManager with nextStackAddr := s.stackManager.nextStackAddr + kKernelStackOffset } }

theorem TakesStack.eq {stack : UInt64} (h : TakesStack s stack s') :
    s' = { s with system := s'.system, stackManager := s'.stackManager } := by
  cases h <;> rfl

/-- There is a kernel stack for one more thread. -/
def StackAvailable (s : Tasks) : Prop :=
  s.stackManager.freeStacks ≠ [] ∨
    s.stackManager.nextStackAddr + kKernelStackOffset < kKernelStackEnd ∧
      (s.system.machine.ensureResident (s.thread s.current).cr3
        (s.stackManager.nextStackAddr + kKernelStackOffset - kKernelStackSize)
        kKernelStackSize).isSome

instance (s : Tasks) : Decidable s.StackAvailable := inferInstanceAs (Decidable (_ ∨ _ ∧ _))

/-- The rule for `AllocateKernelStack`. -/
theorem wp_allocateKernelStack : wp allocateKernelStack (TakesStack s)
      (fun f _ => ¬s.StackAvailable ∧ (f = .outOfKernelStacks ∨ f = .outOfMemory)) s := by
  unfold allocateKernelStack StackAvailable
  -- The sizes are not computed with.
  generalize hend : kKernelStackEnd = stackEnd
  generalize hoff : kKernelStackOffset = offset
  rw [wp_bind, wp_gets]
  cases hf : s.stackManager.freeStacks with
  | cons => exact .freed hf
  | nil =>
    dsimp only
    split_ifs with h
    · exact ⟨fun h' => h'.elim (fun h' => h' rfl) fun h' => absurd h'.1 (not_lt.mpr h), .inl rfl⟩
    cases hm : s.system.machine.ensureResident (s.thread s.current).cr3
        (s.stackManager.nextStackAddr + offset - kKernelStackSize) kKernelStackSize with
    | none =>
      rw [wp_updateSome_none (by rw [hm]; rfl)]
      exact ⟨fun h' => h'.elim (fun h' => h' rfl) fun h' => Bool.false_ne_true h'.2, .inr rfl⟩
    | some machine =>
      rw [wp_updateSome_some (by rw [hm]; rfl)]
      subst hend hoff
      exact .fresh hf (not_le.mp h)

theorem wp_vmas {Q : Nat → Tasks → Prop} (hsome : ∀ i, (s.process p).vmas = some i → Q i s)
    (hnone : (s.process p).vmas = none → E .nullVmas s) : wp (vmas p) Q E s := by
  rw [vmas, wp_bind, wp_gets]
  cases hv : (s.process p).vmas with
  | none => exact hnone hv
  | some i => exact hsome i hv

/-- The page tables that a thread of the process will use. -/
def cr3Of (s : Tasks) (i : Nat) : UInt64 := (s.system.spaces[i]?).elim 0 AddressSpace.cr3

/-- The rule for `Process::CreateThread`. -/
theorem wp_createThread {garbage : UInt64} : wp (createThread p garbage)
      (fun _ s' => ∃ i stack s1, (s.process p).vmas = some i ∧ TakesStack s stack s1 ∧
        s' = s1.created p garbage stack (s1.cr3Of i))
      (fun f _ => ¬s.StackAvailable ∧ (f = .outOfKernelStacks ∨ f = .outOfMemory) ∨
        (s.process p).vmas = none ∧ f = .nullVmas) s := by
  rw [createThread, wp_bind]
  refine wp_mono wp_allocateKernelStack (fun stack s1 h1 => ?_) fun f _ hf => .inl hf
  have hp : s1.process = s.process ∧ s1.threadCount = s.threadCount := by cases h1 <;> exact ⟨rfl, rfl⟩
  rw [wp_bind]
  refine wp_vmas (fun i hi => ?_) fun hi => .inr ⟨hp.1 ▸ hi, rfl⟩
  exact ⟨i, stack, s1, hp.1 ▸ hi, h1, rfl⟩

/-- The rule for `Process::Create`. -/
theorem wp_createProcess : wp createProcess
      (fun _ s' => ∃ i system, s.system.createAddressSpace (s.thread s.current).cr3 s.hhdm =
        some (i, system) ∧ s' = s.spawned i system s.heap)
      (fun f _ => s.system.createAddressSpace (s.thread s.current).cr3 s.hhdm = none ∧ f = .outOfMemory) s := by
  rw [createProcess, wp_bind, wp_gets, wp_bind]
  cases hi : s.system.createAddressSpace (s.thread s.current).cr3 s.hhdm with
  | none =>
    rw [wp_updateSome_none (by rw [hi]; rfl)]
    exact ⟨rfl, rfl⟩
  | some x =>
    rw [wp_updateSome_some (by rw [hi]; rfl)]
    exact ⟨x.1, x.2, rfl, rfl⟩

/-- The rule for `Thread::Init`. -/
theorem wp_threadInit : wp threadInit (fun _ s' => (s.thread s.current).isKernel = true ∧ s' = s ∨
        ∃ i base system, (s.process (s.thread s.current).process).vmas = some i ∧
          s.system.allocateUserStack i = some (.ok base, system) ∧ s' = s.initialised base system)
      (fun f _ => (s.thread s.current).isKernel = false ∧
        ((s.process (s.thread s.current).process).vmas = none ∧ f = .nullVmas ∨
        ∃ i, (s.process (s.thread s.current).process).vmas = some i ∧
          (s.system.allocateUserStack i = none ∧ f = .outOfMemory ∨
          ∃ code system, s.system.allocateUserStack i = some (.error code, system) ∧ f = .panicOnError code))) s := by
  simp only [threadInit, wp_bind, wp_gets, wp_ite]
  split_ifs with hk
  · exact .inl ⟨hk, rfl⟩
  replace hk := (Bool.not_eq_true _).mp hk
  refine wp_vmas (fun i hi => ?_) fun hi => ⟨hk, .inl ⟨hi, rfl⟩⟩
  cases hx : s.system.allocateUserStack i with
  | none =>
    rw [wp_bind, wp_updateSome_none (by rw [hx]; rfl)]
    exact ⟨hk, .inr ⟨i, hi, .inl ⟨hx, rfl⟩⟩⟩
  | some x =>
    obtain ⟨r, system⟩ := x
    rw [wp_bind, wp_updateSome_some (by rw [hx]; rfl)]
    cases r with
    | error code => exact ⟨hk, .inr ⟨i, hi, .inr ⟨code, system, hx, rfl⟩⟩⟩
    | ok base => exact .inr ⟨i, base, system, hi, hx, rfl⟩

/-- The rule for the syscall `ProcessWait`. -/
theorem wp_processWait (hs : s.current ≠ sleepThread) (he : s.enabled = true) :
    wp (processWait p) (fun _ => Yields .running s) (fun f _ => Stops (.running, s) f ∨
        (s.thread s.current).process ≠ p ∧ (s.process p).threads = [] ∧ f = .badThreadAccess) s := by
  simp only [processWait, wp_bind, wp_gets, wp_ite, wp_pure]
  split_ifs with hp
  · exact ⟨.refl, .refl s⟩
  · cases ht : (s.process p).threads with
    | nil => exact .inr ⟨hp, rfl, rfl⟩
    | cons => exact wp_mono (wp_threadWait hs he) (fun _ _ h => h) fun f _ hf => .inl hf

theorem writeState_push_comm (h : t ≠ u) (x y : ThreadState) :
    ((s.writeState t x).push l t).writeState u y = ((s.writeState u y).writeState t x).push l t := by
  unfold writeState modifyThread push setList
  simp only [update_of_ne h, update_of_ne h.symm]
  rw [update_comm h]

/-- **The rule for `Thread::Exit`.** -/
theorem wp_threadExit (hs : s.current ≠ sleepThread) (he : s.enabled = true)
    (hc : s.current ∉ s.lists (.semaphore .cleanup)) :
    wp threadExit (fun _ => Yields .leaving s.exited) (fun f _ => Stops (.leaving, s.exited) f) s := by
  simp only [threadExit, semaphoreSignal, wake, wp_bind, wp_gets, wp_update]
  have hst : Stays .leaving s.exited .leaving _ := ⟨.single (.aside
    (update s.count .cleanup (s.count .cleanup + 1)) s.pending s.inThreadLoop s.system s.heap),
    rfl, rfl, rfl, rfl⟩
  cases hr : s.lists (.semaphore .cleanup) with
  | nil => exact hst.wp_yield he
  | cons t rest =>
    simp only [enqueue, wp_bind, wp_gets, wp_update, wp_ite, wp_setState, wp_pure]
    -- The cleanup thread is woken before the state is written, but it is another thread.
    have htc : t ≠ s.current := by
      rintro rfl
      exact hc (hr ▸ mem_cons_self)
    have ht : t ∈ s.exited.lists (.semaphore .cleanup) := hr ▸ mem_cons_self
    have hd' : (s.exited.state t).isDying = (s.state t).isDying :=
      congrArg _ (state_writeState_of_ne _ htc)
    split
    · rename_i hd
      exact (Cause.wake (by simp) ht (hd'.trans hd)).stops
    rename_i hd
    have hw : Move (.leaving, _) (.leaving, _) :=
      .wake (by simp) ht (hd'.trans ((Bool.not_eq_true _).mp hd))
    have hw' : Stays .leaving s.exited .leaving _ := ⟨.tail (.single hw) (.aside
      (update s.count .cleanup (s.count .cleanup + 1)) s.pending s.inThreadLoop s.system s.heap),
      rfl, rfl, rfl, rfl⟩
    have he' : s.exited.lists (.semaphore .cleanup) = t :: rest := hr
    rw [he', erase_cons_head] at hw'
    rw [if_neg (by exact hs), writeState_push_comm htc]
    exact hw'.wp_yield he

theorem markedThreads_nil (thread : Nat → Thread) : markedThreads thread [] = thread := by
  funext t
  rw [markedThreads, if_neg (fun h => not_mem_nil h.1)]

/-- One more thread is marked, unless it is dying already. -/
theorem markedThreads_concat (thread : Nat → Thread) (ts : List Nat) (t : Nat) : markedThreads thread (ts ++ [t]) =
      if (markedThreads thread ts t).state.isDying then markedThreads thread ts
      else update (markedThreads thread ts) t { markedThreads thread ts t with state := .cleanup } := by
  funext u
  by_cases hu : u = t
  · subst hu
    by_cases hd : (thread u).state.isDying = true
    · simp [markedThreads, hd]
    · by_cases hm : u ∈ ts
      · simp [markedThreads, hd, hm, show ThreadState.cleanup.isDying = true from rfl]
      · simp [markedThreads, hd, hm]
  · have hmem : u ∈ ts ++ [t] ↔ u ∈ ts := by simp [hu]
    have hlhs : markedThreads thread (ts ++ [t]) u = markedThreads thread ts u := by
      simp only [markedThreads, hmem]
    split
    · exact hlhs
    · rw [update_of_ne hu, hlhs]

/-- The rule for the loop of `Process::Exit`. -/
theorem wp_markThreads (ts : List Nat) : wp (each (fun t => do
        if !(← gets fun s => (s.state t).isDying) then setState t .cleanup) ts)
      (fun _ s' => s' = { s with thread := markedThreads s.thread ts }) E s := by
  refine wp_mono (wp_each_rest (I := fun rest s' => ∃ done, ts = done ++ rest ∧
    s' = { s with thread := markedThreads s.thread done }) (fun t rest s1 h1 => ?_)
    ⟨[], rfl, by rw [markedThreads_nil]⟩) (fun _ s' h => ?_) fun f _ hf => hf
  · obtain ⟨done, hts, hs1⟩ := h1
    have hconcat := markedThreads_concat s.thread done t
    rw [show markedThreads s.thread done = s1.thread by rw [hs1]] at hconcat
    replace hts : ts = (done ++ [t]) ++ rest := by
      rw [hts, append_assoc, singleton_append]
    simp only [wp_bind, wp_gets, wp_ite, wp_setState, wp_pure]
    cases hd : (s1.state t).isDying with
    | true =>
      replace hconcat := hconcat.trans (if_pos hd)
      exact ⟨done ++ [t], hts, by rw [hconcat, hs1]⟩
    | false =>
      replace hconcat := hconcat.trans (if_neg (ne_true_of_eq_false hd))
      exact ⟨done ++ [t], hts, by rw [hconcat, hs1]; rfl⟩
  · obtain ⟨done, hts, rfl⟩ := h
    rw [hts, append_nil]

/-- **The rule for `Process::Exit`.** -/
theorem wp_processExit {exitCode : UInt64} (hs : s.current ≠ sleepThread) (he : s.enabled = true) :
    wp (processExit exitCode) (fun _ => Yields .leaving (s.processExited (s.thread s.current).process exitCode))
      (fun f _ => Stops (.leaving, s.processExited (s.thread s.current).process exitCode) f) s := by
  simp only [processExit, wp_bind, wp_gets, wp_update]
  rw [process_modifyProcess_self]
  refine wp_mono (wp_markThreads _) (fun _ s1 h1 => ?_) fun f _ hf => hf
  subst h1
  simp only [wp_bind, wp_update]
  refine wp_mono (wp_semaphoreSignal .leaving he) (fun _ s2 h2 => ?_) fun f _ hf => hf
  exact (h2.stays hs).wp_yield he

/-! ## Cleanup -/

/-- `Thread::Cleanup` has set the state of the thread and freed its user stack. -/
def cleaning (s : Tasks) (t : Nat) (system : System) : Tasks :=
  { s.writeState t .cleanup with
    system
    freedUserStacks := s.freedUserStacks ++ [(t, (s.thread t).userStackBase)] }

theorem state_cleaning : (s.cleaning t system).state u = if u = t then .cleanup else s.state u :=
  state_writeState _

/-- A thread is cleaned up: its user stack is freed in the address space of its process, the threads
that wait for it are woken, and its kernel stack is given back. -/
inductive Cleans (t : Nat) (s : Tasks) : Tasks → Prop where
  | clean {i : Nat} {system : System} {s₁ : Tasks} : s.current ≠ t →
      (s.process (s.thread t).process).vmas = some i →
      s.system.freeUserStack i (s.thread t).userStackBase = some (.ok, system) →
      Stays .running (s.cleaning t system) .running s₁ → Cleans t s (s₁.cleaned t)

/-- Why the cleanup of a thread stops the kernel. -/
inductive CleanFault (t : Nat) (s : Tasks) : Fault → Prop where
  | self : s.current = t → CleanFault t s .cleanupSelf
  | nullVmas : (s.process (s.thread t).process).vmas = none → CleanFault t s .nullVmas
  | undefined {i : Nat} : (s.process (s.thread t).process).vmas = some i →
      s.system.freeUserStack i (s.thread t).userStackBase = none → CleanFault t s .undefined
  | code {i : Nat} {code : ErrorCode} {system : System} :
      (s.process (s.thread t).process).vmas = some i →
      s.system.freeUserStack i (s.thread t).userStackBase = some (code, system) → code ≠ .ok →
      CleanFault t s (.panicOnError code)
  | stops {system : System} {f : Fault} : s.current ≠ t →
      Stops (.running, s.cleaning t system) f → CleanFault t s f

theorem Cleans.current (h : Cleans t s s') : s'.current = s.current := by
  obtain ⟨-, -, -, h⟩ := h
  exact h.current

theorem Cleans.keeps (h : Cleans t s s') : Keeps s s' := by
  obtain ⟨-, -, -, h⟩ := h
  exact ⟨h.keeps.locked, h.keeps.inService, h.keeps.enabled⟩

/-- **The rule for `Thread::Cleanup`.** -/
theorem wp_threadCleanup (hs : s.current ≠ sleepThread) (he : s.enabled = true) :
    wp (threadCleanup t) (fun _ => Cleans t s) (fun f _ => CleanFault t s f) s := by
  simp only [threadCleanup, wp_bind, wp_gets, wp_ite, wp_stop, wp_update]
  split_ifs with hc
  · exact .self hc
  have hproc : ((s.writeState t .cleanup).thread t).process = (s.thread t).process ∧
      ((s.writeState t .cleanup).thread t).userStackBase = (s.thread t).userStackBase := by
    rw [writeState, thread_modifyThread_self]
    exact ⟨rfl, rfl⟩
  rw [hproc.1]
  refine wp_vmas (fun i hi => ?_) fun hi => .nullVmas hi
  rw [wp_bind, wp_gets, hproc.2, wp_bind, freeUserStack, wp_bind]
  cases hf : s.system.freeUserStack i (s.thread t).userStackBase with
  | none =>
    rw [wp_updateSome_none (by rw [system_writeState, hf]; rfl)]
    exact .undefined hi hf
  | some x =>
    obtain ⟨code, system⟩ := x
    rw [wp_updateSome_some (by rw [system_writeState, hf]; rfl)]
    simp only [wp_ite, wp_stop, wp_pure]
    split_ifs with hcode
    · exact .code hi hf hcode
    rw [not_not] at hcode
    subst hcode
    simp only [wp_bind, wp_update, wp_gets]
    refine wp_mono (wp_each_rest (I := fun _ => Stays .running (s.cleaning t system) .running)
      (fun _ _ s1 h1 => ?_) (.refl _ _)) (fun _ s1 h1 => ?_)
      fun f _ (hf : Stops (.running, s.cleaning t system) f) => .stops hc hf
    · refine wp_mono (wp_wake .running (h1.keeps.enabled.trans he) (by simp))
        (fun r s2 h2 => h1.trans (h2.stays (h1.current ▸ hs))) fun f _ hf => ?_
      exact .of_moves h1.moves hf
    · exact .clean hc hi hf h1

/-- The threads of a list that are marked are cleaned up, one after another. -/
inductive CleansAll (s : Tasks) : List Nat → Tasks → Prop where
  | nil : CleansAll s [] s
  | skip {ts : List Nat} {t : Nat} {s₁ : Tasks} : CleansAll s ts s₁ → s₁.state t ≠ .cleanup →
      CleansAll s (ts ++ [t]) s₁
  | clean {ts : List Nat} {t : Nat} {s₁ s₂ : Tasks} : CleansAll s ts s₁ → s₁.state t = .cleanup →
      Cleans t s₁ s₂ → CleansAll s (ts ++ [t]) s₂

theorem CleansAll.current {ts : List Nat} (h : CleansAll s ts s') : s'.current = s.current := by
  induction h with
  | nil => rfl
  | skip _ _ ih => exact ih
  | clean _ _ hc ih => exact hc.current.trans ih

theorem CleansAll.keeps {ts : List Nat} (h : CleansAll s ts s') : Keeps s s' := by
  induction h with
  | nil => exact .refl s
  | skip _ _ ih => exact ih
  | clean _ _ hc ih => exact ih.trans hc.keeps

/-- The process no longer has capabilities, mappings or an address space. -/
def processFinished (s : Tasks) (p : Nat) (caps : CapabilityTable) (system : System) : Tasks :=
  ({ s.modifyProcess p fun x => { x with caps } with system }).modifyProcess p fun x =>
    { x with vmas := none, state := .finished }

theorem process_processFinished {caps : CapabilityTable} (q : Nat) : (s.processFinished p caps system).process q =
      if q = p then { s.process p with caps, vmas := none, state := .finished } else s.process q := by
  have hself := process_modifyProcess_self (s := s) p fun x => { x with caps }
  have hother := process_modifyProcess (s := s) (p := p) (f := fun x => { x with caps }) q
  by_cases hq : q = p
  · rw [if_pos hq, hq]
    refine (process_modifyProcess_self ..).trans ?_
    exact congrArg (fun x : Process => { x with vmas := none, state := .finished }) hself
  · rw [if_neg hq] at hother ⊢
    exact (process_modifyProcess (p := p) q).trans ((if_neg hq).trans hother)

/-- `Process::Cleanup` has set the state of the process. -/
def processCleaning (s : Tasks) (p : Nat) : Tasks :=
  s.modifyProcess p fun x => { x with state := .cleanup }

/-- A process is cleaned up. -/
inductive CleansProcess (p : Nat) (s : Tasks) : Tasks → Prop where
  | clean {s₁ : Tasks} {removed : List Capability} {caps : CapabilityTable} {i : Nat}
      {system : System} : (s.thread s.current).process ≠ p →
      CleansAll (s.processCleaning p) (s.process p).threads s₁ →
      (s₁.process p).caps.releaseAll = some (removed, caps) → (s₁.process p).vmas = some i →
      s₁.system.freeAddressRange i 0 kUserSpaceMax true = some (.ok, system) →
      CleansProcess p s (s₁.processFinished p caps system)

/-- Why the cleanup of a process stops the kernel. -/
inductive CleanProcessFault (p : Nat) (s : Tasks) : Fault → Prop where
  | self : (s.thread s.current).process = p → CleanProcessFault p s .cleanupSelf
  | thread {done rest : List Nat} {t : Nat} {s₁ : Tasks} {f : Fault} :
      (s.process p).threads = done ++ t :: rest → CleansAll (s.processCleaning p) done s₁ →
      s₁.state t = .cleanup → CleanFault t s₁ f → CleanProcessFault p s f
  | caps {s₁ : Tasks} : CleansAll (s.processCleaning p) (s.process p).threads s₁ →
      (s₁.process p).caps.releaseAll = none → CleanProcessFault p s .undefined
  | nullVmas {s₁ : Tasks} : CleansAll (s.processCleaning p) (s.process p).threads s₁ →
      (s₁.process p).vmas = none → CleanProcessFault p s .nullVmas
  | undefined {s₁ : Tasks} {i : Nat} : CleansAll (s.processCleaning p) (s.process p).threads s₁ →
      (s₁.process p).vmas = some i → s₁.system.freeAddressRange i 0 kUserSpaceMax true = none →
      CleanProcessFault p s .undefined
  | code {s₁ : Tasks} {i : Nat} {code : ErrorCode} {system : System} :
      CleansAll (s.processCleaning p) (s.process p).threads s₁ → (s₁.process p).vmas = some i →
      s₁.system.freeAddressRange i 0 kUserSpaceMax true = some (code, system) → code ≠ .ok →
      CleanProcessFault p s (.panicOnError code)

theorem CleansProcess.keeps (h : CleansProcess p s s') : Keeps s s' := by
  obtain ⟨-, h, -⟩ := h
  exact ⟨h.keeps.locked, h.keeps.inService, h.keeps.enabled⟩

/-- **The rule for `Process::Cleanup`.** -/
theorem wp_processCleanup (hs : s.current ≠ sleepThread) (he : s.enabled = true) :
    wp (processCleanup p) (fun _ => CleansProcess p s) (fun f _ => CleanProcessFault p s f) s := by
  simp only [processCleanup, wp_bind, wp_gets, wp_ite, wp_stop, wp_update]
  split_ifs with hp
  · exact .self hp
  rw [process_modifyProcess_self]
  refine wp_mono (wp_each_rest (I := fun rest s' => ∃ done, (s.process p).threads = done ++ rest ∧
    CleansAll (s.processCleaning p) done s') (fun t rest s1 h1 => ?_) ⟨[], rfl, .nil⟩)
    (fun _ s1 h1 => ?_) fun f _ hf => hf
  · obtain ⟨done, hts, h1⟩ := h1
    have hts' : (s.process p).threads = (done ++ [t]) ++ rest := by
      rw [hts, append_assoc, singleton_append]
    simp only [wp_bind, wp_gets, wp_ite, wp_pure]
    split_ifs with ht
    · refine wp_mono (wp_threadCleanup (h1.current.symm ▸ hs) (h1.keeps.enabled.trans he))
        (fun _ s2 h2 => ⟨done ++ [t], hts', .clean h1 ht h2⟩) fun f _ hf => ?_
      exact .thread hts h1 ht hf
    · exact ⟨done ++ [t], hts', .skip h1 ht⟩
  obtain ⟨done, hts, h1⟩ := h1
  rw [append_nil] at hts
  rw [← hts] at h1
  rw [releaseAll, wp_bind]
  cases hr : (s1.process p).caps.releaseAll with
  | none =>
    rw [wp_updateSome_none (by rw [hr]; rfl)]
    exact .caps h1 hr
  | some x =>
    rw [wp_updateSome_some (by rw [hr]; rfl), wp_bind]
    refine wp_vmas (fun i hi => ?_) fun hi => ?_
    · rw [process_modifyProcess_self] at hi
      rw [wp_bind]
      cases hf : s1.system.freeAddressRange i 0 kUserSpaceMax true with
      | none =>
        rw [wp_updateSome_none (by rw [system_modifyProcess, hf]; rfl)]
        exact .undefined h1 hi hf
      | some x =>
        obtain ⟨code, system⟩ := x
        rw [wp_updateSome_some (by rw [system_modifyProcess, hf]; rfl), wp_ite]
        split_ifs with hcode
        · exact .code h1 hi hf hcode
        · rw [not_not] at hcode
          subst hcode
          exact .clean hp h1 hr hi hf
    · rw [process_modifyProcess_self] at hi
      exact .nullVmas h1 hi

/-! ## Steps -/

/-- **What an event does** if it does not stop the kernel. -/
inductive Effect (s : Tasks) : Event → Tasks → Prop where
  | moves {e : Event} {s' : Tasks} : Moves (.running, s) (.running, s') → Effect s e s'
  | start {t : Nat} {uses : List HeapRequest} {machine : Machine PhysicalMemoryManager}
      {heap : KernelHeap PhysicalMemoryManager} :
      Effect s (.call (.threadStart t) uses) ((s.withHeap machine heap).started t)
  | create {p i : Nat} {garbage stack : UInt64} {uses : List HeapRequest}
      {machine : Machine PhysicalMemoryManager} {heap : KernelHeap PhysicalMemoryManager}
      {s₁ : Tasks} : (s.process p).vmas = some i → TakesStack (s.withHeap machine heap) stack s₁ →
      Effect s (.call (.threadCreate p garbage) uses) (s₁.created p garbage stack (s₁.cr3Of i))
  | spawn {i : Nat} {uses : List HeapRequest} {heap : KernelHeap PhysicalMemoryManager}
      {system : System} : Effect s (.call .processSpawn uses) (s.spawned i system heap)
  | init {todo : List Continuation} {i : Nat} {base : UInt64} {system : System} :
      (s.thread s.current).todo = .init :: todo →
      (s.process (s.thread s.current).process).vmas = some i →
      s.system.allocateUserStack i = some (.ok base, system) →
      Effect s .resume
        ((s.modifyThread s.current fun th => { th with todo }).initialised base system)
  | initKernel {todo : List Continuation} : (s.thread s.current).todo = .init :: todo →
      (s.thread s.current).isKernel = true →
      Effect s .resume (s.modifyThread s.current fun th => { th with todo })
  | exit {uses : List HeapRequest} {s' : Tasks} :
      Moves (.leaving, s.exited) (.running, s') → Effect s (.call .threadExit uses) s'
  | processExit {exitCode : UInt64} {uses : List HeapRequest} {s' : Tasks} :
      Moves (.leaving, s.processExited (s.thread s.current).process exitCode) (.running, s') →
      Effect s (.call (.processExit exitCode) uses) s'
  | cleanThread {t : Nat} {threadList : List Nat} {s' : Tasks} : s.inThreadLoop = true →
      s.threadList = t :: threadList → Cleans t { s with threadList } s' → Effect s .cleanup s'
  | cleanProcess {p : Nat} {processList : List Nat} {s' : Tasks} : s.inThreadLoop = false →
      s.processList = p :: processList → CleansProcess p { s with processList } s' →
      Effect s .cleanup s'

/-- **Why an event stops the kernel.** -/
inductive Failure (s : Tasks) : Event → Fault → Prop where
  | moves {e : Event} {f : Fault} : Stops (.running, s) f → Failure s e f
  /-- There is no memory for what a call needs, or it deletes what it must not. -/
  | memory {op : Operation} {uses : List HeapRequest} {f : Fault} :
      f ∈ [.outOfKernelStacks, .outOfMemory, .undefined] → Failure s (.call op uses) f
  | createNull {p : Nat} {garbage : UInt64} {uses : List HeapRequest} : (s.process p).vmas = none →
      Failure s (.call (.threadCreate p garbage) uses) .nullVmas
  | processWait {p : Nat} {uses : List HeapRequest} : (s.thread s.current).process ≠ p →
      (s.process p).threads = [] → Failure s (.call (.processWait p) uses) .badThreadAccess
  | initNull {todo : List Continuation} : (s.thread s.current).todo = .init :: todo →
      (s.thread s.current).isKernel = false →
      (s.process (s.thread s.current).process).vmas = none → Failure s .resume .nullVmas
  | init {todo : List Continuation} {f : Fault} : (s.thread s.current).todo = .init :: todo →
      f = .outOfMemory ∨ (∃ code, f = .panicOnError code) → Failure s .resume f
  | exit {uses : List HeapRequest} {f : Fault} :
      Stops (.leaving, s.exited) f → Failure s (.call .threadExit uses) f
  | processExit {exitCode : UInt64} {uses : List HeapRequest} {f : Fault} :
      Stops (.leaving, s.processExited (s.thread s.current).process exitCode) f →
      Failure s (.call (.processExit exitCode) uses) f
  | cleanThread {t : Nat} {threadList : List Nat} {f : Fault} : s.inThreadLoop = true →
      s.threadList = t :: threadList → CleanFault t { s with threadList } f → Failure s .cleanup f
  | cleanProcess {p : Nat} {processList : List Nat} {f : Fault} : s.inThreadLoop = false →
      s.processList = p :: processList → CleanProcessFault p { s with processList } f →
      Failure s .cleanup f

/-- What holds between events. -/
structure Steady (s : Tasks) : Prop where
  enabled : s.enabled = true
  /-- Only interrupts hold mutexes of queues. -/
  locks : s.QueueLocks
  /-- The sleep thread is not left in the middle of a function that blocks. -/
  idle : ∀ k ∈ (s.thread sleepThread).todo, k.IsIdle
  /-- The current thread is not in the list of those that wait for exits. -/
  current : s.current ∉ s.lists (.semaphore .cleanup)
  /-- Only the cleanup thread goes on to wait for exits. -/
  waits : ∀ t, .wait .cleanup ∈ (s.thread t).todo → t = cleanupThread

/-- The rule for one round of `CleanupLoop`. -/
theorem wp_cleanupRound (h : s.Steady) (hc : s.current = cleanupThread) :
    wp cleanupRound (fun _ s' => Effect s .cleanup s' ∧ s'.QueueLocks) (fun f _ => Failure s .cleanup f) s := by
  have hs : s.current ≠ sleepThread := by
    rw [hc]
    decide
  rw [cleanupRound, wp_bind, wp_gets]
  have haside := fun inThreadLoop =>
    Move.aside (p := .running) (s := s) s.count s.pending inThreadLoop s.system s.heap
  cases hl : s.inThreadLoop with
  | true =>
    cases ht : s.threadList with
    | nil => exact ⟨.moves (.single (haside false)), h.locks⟩
    | cons =>
      refine wp_mono (wp_threadCleanup hs h.enabled) (fun _ s' h' => ?_) fun f _ hf => ?_
      · exact ⟨.cleanThread hl ht h', h'.keeps.queueLocks h.locks⟩
      · exact .cleanThread hl ht hf
  | false =>
    cases hp : s.processList with
    | nil =>
      cases ht : s.threadList with
      | nil =>
        refine wp_mono (wp_semaphoreWait hs h.enabled fun _ => hc) (fun _ s' h' => ?_) fun f _ hf => ?_
        · exact ⟨.moves h'.moves, h'.keeps.queueLocks h.locks⟩
        · exact .moves hf
      | cons => exact ⟨.moves (.single (haside true)), h.locks⟩
    | cons =>
      refine wp_mono (wp_processCleanup hs h.enabled) (fun _ s' h' => ?_) fun f _ hf => ?_
      · exact ⟨.cleanProcess hl hp h', h'.keeps.queueLocks h.locks⟩
      · exact .cleanProcess hl hp hf

variable {e : Event}

/-- The rule for the functions that only make moves. -/
theorem wp_of_yields {m : Task Unit} (hm : Moves (.running, s) (.running, s')) (hq : s'.QueueLocks)
    (h : wp m (fun _ => Yields .running s') (fun f _ => Stops (.running, s') f) s') :
    wp m (fun _ s'' => Effect s e s'' ∧ s''.QueueLocks) (fun f _ => Failure s e f) s' := by
  refine wp_mono h (fun _ s'' h' => ?_) fun f _ hf => .moves (.of_moves hm hf)
  exact ⟨.moves (hm.trans h'.moves), h'.keeps.queueLocks hq⟩

theorem wp_of_completes {m : Task Unit} (hm : Moves (.running, s) (.running, s'))
    (h : wp m (fun _ => Completes s') (fun f _ => Stops (.running, s') f) s') :
    wp m (fun _ s'' => Effect s e s'' ∧ s''.QueueLocks) (fun f _ => Failure s e f) s' := by
  refine wp_mono h (fun _ s'' h' => ?_) fun f _ hf => .moves (.of_moves hm hf)
  exact ⟨.moves (hm.trans h'.moves), h'.locks⟩

/-- The rule for operations, after the kernel heap was used. -/
theorem wp_execute (h : s.Steady) (hs : s.current ≠ sleepThread) (op : Operation) (uses : List HeapRequest)
    (machine : Machine PhysicalMemoryManager) (heap : KernelHeap PhysicalMemoryManager) :
    wp (execute op) (fun _ s' => Effect s (.call op uses) s' ∧ s'.QueueLocks)
      (fun f _ => Failure s (.call op uses) f) (s.withHeap machine heap) := by
  have hm : Moves (.running, s) (.running, s.withHeap machine heap) := .single (move_withHeap ..)
  have hyields := fun (m : Task Unit) => wp_of_yields (m := m) (e := .call op uses) hm h.locks
  have hcompletes := fun (m : Task Unit) => wp_of_completes (m := m) (e := .call op uses) hm
  cases op with
  | mutexLock => exact hcompletes _ (wp_mutexLock hs h.enabled h.locks)
  | mutexRelease => exact hcompletes _ (wp_mutexRelease h.enabled h.locks)
  | semaphoreWait => exact hyields _ (wp_semaphoreWait hs h.enabled (by simp))
  | semaphoreSignal x =>
    refine hyields _ ?_
    show wp (do let _ ← semaphoreSignal (.object x)) _ _ _
    rw [wp_bind]
    refine wp_mono (wp_semaphoreSignal .running h.enabled) (fun r s' h' => ?_) fun f _ hf => hf
    exact ⟨h'.moves, h'.keeps⟩
  | send => exact hcompletes _ (wp_pushBack (.inl hs) h.enabled h.locks)
  | receive => exact hcompletes _ (wp_popFront hs h.enabled h.locks)
  | threadSleep => exact hyields _ (wp_sleep hs h.enabled)
  | threadWait => exact hyields _ (wp_threadWait hs h.enabled)
  | processWait =>
    refine wp_mono (wp_processWait hs h.enabled) (fun _ s' h' => ?_) fun f _ hf => ?_
    · exact ⟨.moves (hm.trans h'.moves), h'.keeps.queueLocks h.locks⟩
    · rcases hf with hf | ⟨hp, ht, rfl⟩
      · exact .moves (.of_moves hm hf)
      · exact .processWait hp ht
  | threadExit =>
    have hexit : Moves (.leaving, s.exited) (.leaving, (s.withHeap machine heap).exited) :=
      .single (move_withHeap ..)
    refine wp_mono (wp_threadExit hs h.enabled h.current) (fun _ s' h' => ?_) fun f _ hf => ?_
    · exact ⟨.exit (hexit.trans h'.moves), h'.keeps.queueLocks h.locks⟩
    · exact .exit (.of_moves hexit hf)
  | processExit exitCode =>
    have hexit : Moves (.leaving, s.processExited (s.thread s.current).process exitCode)
        (.leaving, (s.withHeap machine heap).processExited (s.thread s.current).process exitCode) :=
      .single (move_withHeap ..)
    refine wp_mono (wp_processExit hs h.enabled) (fun _ s' h' => ?_) fun f _ hf => ?_
    · exact ⟨.processExit (hexit.trans h'.moves), h'.keeps.queueLocks h.locks⟩
    · exact .processExit (.of_moves hexit hf)
  | processSpawn =>
    show wp (do let _ ← createProcess) _ _ _
    rw [wp_bind]
    refine wp_mono wp_createProcess (fun _ s' h' => ?_) fun f _ hf => ?_
    · obtain ⟨i, system, -, rfl⟩ := h'
      exact ⟨.spawn, h.locks⟩
    · exact .memory (by simp [hf.2])
  | threadCreate p garbage =>
    show wp (do let _ ← createThread p garbage) _ _ _
    rw [wp_bind]
    refine wp_mono wp_createThread (fun _ s' h' => ?_) fun f _ hf => ?_
    · obtain ⟨i, stack, s1, hi, hstack, rfl⟩ := h'
      refine ⟨.create hi hstack, ?_⟩
      cases hstack <;> exact h.locks
    · rcases hf with ⟨-, hf⟩ | ⟨hv, rfl⟩
      · exact .memory (by rcases hf with rfl | rfl <;> simp)
      · exact .createNull hv
  | threadStart t =>
    show wp (threadStart t) _ _ _
    rw [wp_threadStart (s := s.withHeap machine heap) hs]
    exact ⟨.start, h.locks⟩

theorem wp_continueWith (h : s.Steady) {k : Continuation} {todo : List Continuation}
    (htodo : (s.thread s.current).todo = k :: todo) :
    wp (continueWith k) (fun _ s' => Effect s .resume s' ∧ s'.QueueLocks)
      (fun f _ => Failure s .resume f) (s.modifyThread s.current fun th => { th with todo }) := by
  obtain ⟨s1, hs1⟩ : ∃ s1, s1 = s.modifyThread s.current fun th => { th with todo } := ⟨_, rfl⟩
  rw [← hs1]
  have he : s1.enabled = true := by
    rw [hs1]
    exact h.enabled
  have hq : s1.QueueLocks := by
    rw [hs1]
    exact h.locks
  -- Only two of them are left to the sleep thread.
  have hs : ¬k.IsIdle → s1.current ≠ sleepThread := by
    rw [hs1]
    intro hk hc
    replace hc : s.current = sleepThread := hc
    exact hk (h.idle k (by rw [← hc, htodo]; exact mem_cons_self))
  by_cases hk : k = .init
  · subst hk
    have hth : s1.thread s1.current = { s.thread s.current with todo } := by
      rw [hs1]
      exact thread_modifyThread_self _
    have hproc : s1.process = s.process ∧ s1.system = s.system := by
      rw [hs1]
      exact ⟨rfl, rfl⟩
    refine wp_mono wp_threadInit (fun _ s' h' => ?_) fun f _ hf => ?_
    · rw [hth, hproc.1, hproc.2] at h'
      rcases h' with ⟨hker, rfl⟩ | ⟨i, base, system, hi, hx, rfl⟩
      · rw [hs1] at hq ⊢
        exact ⟨.initKernel htodo hker, hq⟩
      · rw [hs1] at hq ⊢
        exact ⟨.init htodo hi hx, hq⟩
    · rw [hth, hproc.1, hproc.2] at hf
      rcases hf with ⟨hker, ⟨hv, rfl⟩ | ⟨i, hi, ⟨-, rfl⟩ | ⟨code, system, -, rfl⟩⟩⟩
      · exact .initNull htodo hker hv
      · exact .init htodo (.inl rfl)
      · exact .init htodo (.inr ⟨code, rfl⟩)
  · have hm : Moves (.running, s) (.running, s1) := by
      rw [hs1]
      exact .single (.resumed htodo hk)
    have hyields := fun (m : Task Unit) => wp_of_yields (m := m) (e := .resume) hm hq
    have hcompletes := fun (m : Task Unit) => wp_of_completes (m := m) (e := .resume) hm
    cases k with
    | init => exact absurd rfl hk
    | yield => exact hyields _ ((Stays.refl .running s1).wp_yield he)
    | lock => exact hcompletes _ (wp_mutexLock (hs id) he hq)
    | wait =>
      refine hyields _ (wp_semaphoreWait (hs id) he fun hx => ?_)
      rw [hs1]
      show s.current = cleanupThread
      exact h.waits _ (by rw [htodo, hx]; exact mem_cons_self)
    | pushBack => exact hcompletes _ (wp_pushBack (.inl (hs id)) he hq)
    | popFront => exact hcompletes _ (wp_popFront (hs id) he hq)
    | endPush q => exact hcompletes _ (wp_endPush he (hq.other q))

/-- **The rule for events.** -/
theorem wp_perform (h : s.Steady) (hp : s.Possible e) :
    wp (perform e) (fun _ s' => Effect s e s' ∧ s'.QueueLocks) (fun f _ => Failure s e f) s := by
  cases e with
  | tick => exact wp_of_yields .refl h.locks (wp_preempt h.enabled)
  | interrupt q =>
    rw [perform, wp_bind, wp_update]
    have hl : s.locked (.queue q) = false := by
      cases hl : s.locked (.queue q) with
      | false => rfl
      | true =>
        have hin := h.locks q hl
        rw [hp.1] at hin
        cases hin
    have hq : ({ s with inService := update s.inService q true }).QueueLocks := by
      intro q' hl'
      show update s.inService q true q' = true
      by_cases hqq : q' = q
      · rw [hqq, update_self]
      · rw [update_of_ne hqq]
        exact h.locks q' hl'
    exact wp_of_completes (.single (.locks s.locked _)) (wp_pushBack (.inr ⟨hl, rfl, update_self ..⟩) h.enabled hq)
  | call op uses =>
    rw [perform, wp_bind]
    refine wp_mono (wp_useHeap uses) (fun _ s' h' => ?_) fun f _ hf => ?_
    · obtain ⟨machine, heap, rfl⟩ := h'
      exact wp_execute h hp.1 op uses machine heap
    · exact .memory (by rcases hf with rfl | rfl <;> simp)
  | resume =>
    rw [perform, wp_bind, wp_gets, wp_bind, wp_gets]
    cases ht : (s.thread s.current).todo with
    | nil => exact absurd ht hp
    | cons =>
      exact wp_continueWith h ht
  | cleanup => exact wp_cleanupRound h hp.1

/-- A step makes the postconditions of its event hold. -/
theorem of_wp_perform {Q : Tasks → Prop} (hstep : s.step e = some s')
    (hw : s.Possible e → wp (perform e) (fun _ => Q) E s) : Q s' := by
  unfold step at hstep
  split at hstep
  · rename_i hp
    split at hstep
    · rename_i heq
      cases hstep
      exact (wp_run (hw hp) heq).1 _ rfl
    · cases hstep
  · cases hstep

/-- **What a step does.** -/
theorem step_effect (h : s.Steady) (hstep : s.step e = some s') : Effect s e s' ∧ s'.QueueLocks :=
  of_wp_perform hstep fun hp => wp_perform h hp

/-- **Why a step stops the kernel.** -/
theorem fault_failure (h : s.Steady) {f : Fault} (hf : s.fault e = some f) : Failure s e f := by
  unfold fault at hf
  split at hf
  · rename_i hp
    split at hf
    · cases hf
    · rename_i heq
      cases hf
      exact (wp_run (wp_perform h hp) heq).2 _ rfl
  · cases hf

end Acadia.Zion.Tasks
