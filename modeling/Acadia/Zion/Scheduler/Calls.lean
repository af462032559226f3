import Acadia.Zion.Memory.PhysicalMemoryOwnership
import Acadia.Zion.Scheduler.Processes

/-! # Calls on threads and processes

Each of the calls on threads and processes assumes a stage of their life, and nothing enforces it: `Callable` says
which, and in every run that keeps to it no such call stops the kernel, and no thread uses the address space of a
process after it was released. -/

namespace Acadia.Zion

open Command Glacier Relation List Runs

/-- The calls on threads and processes. -/
def Operation.onTasks : Operation → Bool
  | .threadWait _ => true
  | .processWait _ => true
  | .threadExit => true
  | .processExit _ => true
  | .processSpawn => true
  | .threadCreate _ _ => true
  | .threadStart _ => true
  | _ => false

namespace Tasks

variable {s s' : Tasks} {t : Nat} {waiting : List Nat}

/-! ## How the calls stop the kernel -/

/-- The function stops the kernel nowhere but in `SwapToCurrent`. -/
def OnlySwaps (m : Task Unit) (s : Tasks) : Prop :=
  wp m (fun _ _ => True) (fun f _ => f = .swappingNonRunnable) s

/-- `Yield`, called by a thread other than the sleep thread. -/
theorem onlySwaps_yield (hs : s.current ≠ sleepThread) : OnlySwaps yield s := by
  unfold OnlySwaps
  simp only [yield, wp_bind, wp_gets, wp_update, wp_ite, wp_pure]
  split
  · trivial
  cases s.clearDeadThreadsFromFront.lists .runnable with
  | nil =>
    simp only [wp_bind, wp_update, wp_ite, wp_stop, wp_swapToCurrent]
    rw [if_neg (by exact hs)]
    split <;> trivial
  | cons =>
    simp only [wp_bind, wp_update, wp_gets, wp_ite, wp_setState, wp_swapToCurrent]
    rw [if_neg (fun h => hs h.1)]
    split <;> trivial

/-- `Thread::Wait`. -/
theorem onlySwaps_threadWait (hs : s.current ≠ sleepThread)
    (hd : (s.state s.current).isDying = false) : OnlySwaps (threadWait t) s := by
  unfold OnlySwaps
  simp only [threadWait, block, wp_bind, wp_gets, wp_ite, wp_pure, wp_setState, wp_update]
  split
  · trivial
  · rw [if_neg (ne_true_of_eq_false hd)]
    exact onlySwaps_yield hs

theorem onlySwaps_signal {m : Task Unit} (hs : s.current ≠ sleepThread)
    (hw : ∀ t ∈ s.lists (.semaphore .cleanup), (s.state t).isDying = false)
    (hm : ∀ s', s'.current = s.current → OnlySwaps m s') : OnlySwaps (do let _ ← semaphoreSignal .cleanup; m) s := by
  unfold OnlySwaps
  simp only [semaphoreSignal, wake, wp_bind, wp_gets, wp_update]
  cases hr : s.lists (.semaphore .cleanup) with
  | nil => exact hm _ rfl
  | cons t =>
    simp only [enqueue, wp_bind, wp_gets, wp_update, wp_ite, wp_setState, wp_pure]
    have hd : (s.state t).isDying = false := hw t (hr ▸ mem_cons_self)
    rw [if_neg (ne_true_of_eq_false (by exact hd)), if_neg (by exact hs)]
    exact hm _ rfl

/-- `Thread::Exit`. -/
theorem onlySwaps_threadExit (hs : s.current ≠ sleepThread)
    (hw : ∀ t ∈ s.lists (.semaphore .cleanup), (s.state t).isDying = false) : OnlySwaps threadExit s := by
  refine onlySwaps_signal hs hw fun s1 h1 => ?_
  exact onlySwaps_yield (h1.symm ▸ hs)

/-- `Process::Exit`. -/
theorem onlySwaps_processExit {exitCode : UInt64} (hs : s.current ≠ sleepThread)
    (hw : ∀ t ∈ s.lists (.semaphore .cleanup), (s.state t).isDying = false ∧
      t ∉ (s.process (s.thread s.current).process).threads) : OnlySwaps (processExit exitCode) s := by
  unfold OnlySwaps
  simp only [processExit, wp_bind, wp_gets, wp_update]
  rw [process_modifyProcess_self]
  refine wp_mono (wp_markThreads _) (fun _ s1 h1 => ?_) fun f _ hf => hf
  subst h1
  simp only [wp_bind, wp_update]
  refine (wp_bind ..).mp (onlySwaps_signal hs (fun t ht => ?_) fun s2 h2 => ?_)
  · obtain ⟨hd, hmem⟩ := hw t ht
    show (markedThreads s.thread _ t).state.isDying = false
    rw [markedThreads, if_neg fun h => hmem h.1]
    exact hd
  · exact onlySwaps_yield (h2.symm ▸ hs)

/-- An event that stops the kernel nowhere but in `SwapToCurrent` does not stop it at all. -/
theorem Sound.fault_eq_none {e : Event} (h : Sound waiting s) (hw : OnlySwaps (perform e) s) :
    s.fault e = none := by
  have hne := h.not_swapping e
  unfold fault at hne ⊢
  split_ifs with hp
  · rw [if_pos hp] at hne
    unfold OnlySwaps wp at hw
    generalize perform e s = r at hw hne ⊢
    obtain ⟨x, s'⟩ := r
    cases x with
    | ok => rfl
    | error => exact absurd (congrArg some hw) hne
  · rfl

/-! ## Runs -/

/-- Only the cleanup thread waits for exits. -/
def CleanupWaits (s : Tasks) : Prop := ∀ t ∈ s.lists (.semaphore .cleanup), t = cleanupThread

theorem CleanupWaits.moves {x y : Phase × Tasks} (h : x.2.CleanupWaits) (hm : Moves x y) : y.2.CleanupWaits := by
  induction hm with
  | refl => exact h
  | tail _ hm ih =>
    intro t ht
    rcases hm.mem_lists (by simp) ht with ht | ⟨-, -, hc⟩
    · exact ih t ht
    · exact hc rfl

theorem CleanupWaits.cleans (h : s.CleanupWaits) (hc : Cleans t s s') : s'.CleanupWaits := by
  obtain ⟨-, -, -, hst⟩ := hc
  rename_i i system s1
  have h1 : (s.cleaning t system).CleanupWaits := h
  exact CleanupWaits.moves h1 hst.moves

theorem CleanupWaits.cleansAll {ts : List Nat} (h : s.CleanupWaits) (hc : CleansAll s ts s') : s'.CleanupWaits := by
  induction hc with
  | nil => exact h
  | skip _ _ ih => exact ih
  | clean _ _ hc ih => exact ih.cleans hc

theorem CleanupWaits.step {e : Event} (h : s.CleanupWaits) (hs : s.Steady)
    (hstep : s.step e = some s') : s'.CleanupWaits := by
  obtain ⟨heff, -⟩ := step_effect hs hstep
  cases heff with
  | moves hm => exact CleanupWaits.moves h hm
  | start =>
    intro u hu
    rcases mem_push.mp hu with hu | ⟨hl, -⟩
    · exact h u hu
    · cases hl
  | @create _ _ _ _ _ _ _ s1 hi hstack =>
    have h1 : s1.CleanupWaits := by
      rw [hstack.eq]
      exact h
    exact h1
  | spawn | init | initKernel => exact h
  | exit hm =>
    have h1 : s.exited.CleanupWaits := h
    exact CleanupWaits.moves h1 hm
  | @processExit exitCode _ _ hm =>
    have h1 : (s.processExited (s.thread s.current).process exitCode).CleanupWaits := h
    exact CleanupWaits.moves h1 hm
  | @cleanThread _ threadList _ hl ht hc =>
    have h1 : ({ s with threadList } : Tasks).CleanupWaits := h
    exact h1.cleans hc
  | @cleanProcess p processList _ hl hlist hc =>
    obtain ⟨-, hall, -, -, -⟩ := hc
    have h1 : (({ s with processList } : Tasks).processCleaning p).CleanupWaits := h
    have h2 := h1.cleansAll hall
    exact h2

/-- The state after the kernel heap was used, if all of its uses succeed. -/
def usingHeap (s : Tasks) (uses : List HeapRequest) : Option Tasks :=
  match each useHeap uses s with
  | (.ok _, s') => some s'
  | (.error _, _) => none

theorem usingHeap_spec {uses : List HeapRequest} (h : s.usingHeap uses = some s') :
    (∃ units, each useHeap uses s = (.ok units, s')) ∧ ∃ machine heap, s' = s.withHeap machine heap := by
  have hw := wp_useHeap (s := s) uses
  unfold usingHeap at h
  unfold wp at hw
  generalize each useHeap uses s = r at h hw
  obtain ⟨_ | units, s1⟩ := r
  · cases h
  · cases h
    exact ⟨⟨units, rfl⟩, hw⟩

/-- What the calls assume of threads, processes and memory. A thread is started while it is `CREATED`
and its process has not ended; a process that gets a thread has its address space, and there is a kernel
stack; there is a page for the page tables of a new process; a process that is waited for has a
thread. -/
def Allows (s : Tasks) : Operation → Prop
  | .threadStart t => s.state t = .created ∧ (s.process (s.thread t).process).state = .running
  | .threadCreate p _ => (s.process p).vmas ≠ none ∧ s.StackAvailable
  | .processSpawn => s.system.machine.allocator.available ≠ []
  | .processWait p => (s.thread s.current).process = p ∨ (s.process p).threads ≠ []
  | _ => True

instance (s : Tasks) : (op : Operation) → Decidable (s.Allows op)
  | .threadStart _ | .threadCreate .. => instDecidableAnd
  | .processSpawn => instDecidableNot
  | .processWait _ => instDecidableOr
  | .mutexLock _ | .mutexRelease _ | .semaphoreWait _ | .semaphoreSignal _ | .send _ | .receive ..
  | .threadSleep _ | .threadWait _ | .threadExit | .processExit _ => instDecidableTrue

/-- **What the calls assume**: the kernel heap has room for what they allocate, and then the rest. -/
def Callable (s : Tasks) : Event → Prop
  | .call op uses => op.onTasks = true → ∃ s' ∈ s.usingHeap uses, s'.Allows op
  | _ => True

instance (s : Tasks) : (e : Event) → Decidable (s.Callable e)
  | .call .. => instDecidableForall
  | .tick | .interrupt _ | .resume | .cleanup => instDecidableTrue

theorem Callable.startsRunning {e : Event} (h : s.Callable e) : s.StartsRunning e := by
  intro t ht
  cases e with
  | call op uses =>
    cases op with
    | threadStart =>
      cases ht
      obtain ⟨s', hs', hok⟩ := h rfl
      obtain ⟨-, machine, heap, rfl⟩ := usingHeap_spec hs'
      exact hok
    | _ => cases ht
  | _ => cases ht

/-- **No call on threads and processes stops the kernel.** -/
theorem Sound.call_returns {op : Operation} {uses : List HeapRequest} (h : Sound [] s) (hl : s.Lives)
    (hw : s.CleanupWaits) (hop : op.onTasks = true) (hok : s.Callable (.call op uses)) :
    s.fault (.call op uses) = none := by
  by_cases hp : s.Possible (.call op uses)
  · refine h.fault_eq_none ?_
    obtain ⟨s1, hs1, hok⟩ := hok hop
    obtain ⟨⟨units, huses⟩, machine, heap, rfl⟩ := usingHeap_spec hs1
    show wp (do let _ ← each useHeap uses; execute op) _ _ s
    rw [wp_bind, wp_of_ok huses]
    have hd := (h.placed.running rfl).2.1
    have halive : ∀ t ∈ s.lists (.semaphore .cleanup), (s.state t).isDying = false := by
      intro t ht
      rw [hw t ht]
      exact hl.alive
    cases op with
    | threadWait => exact onlySwaps_threadWait hp.1 hd
    | processWait p =>
      simp only [execute, processWait, wp_bind, wp_gets, wp_ite, wp_pure]
      split
      · trivial
      · rename_i hne
        cases ht : ((s.withHeap machine heap).process p).threads with
        | nil => exact absurd ht (hok.resolve_left hne)
        | cons => exact onlySwaps_threadWait hp.1 hd
    | threadExit => exact onlySwaps_threadExit hp.1 halive
    | processExit =>
      refine onlySwaps_processExit hp.1 fun t ht => ⟨halive t ht, fun hmem => ?_⟩
      have hfam := hl.families.member _ (one_lt_of_possible hp) h.placed.exist
      have h1 := hl.families.one_lt hfam.1 (h.stable.process_ne_zero hp.1 hp.2.1) hmem
      rw [hw t ht] at h1
      exact absurd h1 (lt_irrefl 1)
    | processSpawn =>
      show wp (do let _ ← createProcess) _ _ _
      rw [wp_bind]
      refine wp_mono wp_createProcess (fun _ _ _ => trivial) fun f _ hf => ?_
      obtain ⟨⟨page, allocator⟩, hpage⟩ := Option.isSome_iff_exists.mp (PhysicalMemoryManager.allocatePage_isSome hok)
      have hnone := hf.1
      rw [System.createAddressSpace, Machine.allocateAndZeroPage,
        show PageAllocator.allocatePage (s.withHeap machine heap).system.machine.allocator = _ from
          hpage] at hnone
      cases hnone
    | threadCreate p garbage =>
      show wp (do let _ ← createThread p garbage) _ _ _
      rw [wp_bind]
      refine wp_mono wp_createThread (fun _ _ _ => trivial) fun f _ hf => ?_
      rcases hf with ⟨hstack, -⟩ | ⟨hvmas, -⟩
      · exact absurd hok.2 hstack
      · exact absurd hvmas hok.1
    | threadStart => exact (wp_threadStart (s := s.withHeap machine heap) hp.1).mpr trivial
    | _ => cases hop
  · exact if_neg hp

/-- **No thread uses the address space of a process after it was released.** -/
theorem Sound.not_nullVmas {e : Event} (h : Sound [] s) (hl : s.Lives) (hok : s.Callable e)
    (he : e ≠ .cleanup) : s.fault e ≠ some .nullVmas := by
  intro hf
  have hfail := fault_failure h.steady hf
  cases hfail with
  | moves hstop =>
    obtain ⟨y, -, hc⟩ := hstop
    cases hc
  | memory hf => simp at hf
  | createNull hv =>
    obtain ⟨s1, hs1, hok⟩ := hok rfl
    obtain ⟨-, machine, heap, rfl⟩ := usingHeap_spec hs1
    exact hok.1 hv
  | initNull _ hk hv =>
    have h1 : 1 < s.current := by
      by_contra h1
      rw [(hl.families.kernel _ (not_lt.mp h1)).2] at hk
      cases hk
    exact hl.released _ hv (hl.current_running h.placed h1)
  | init _ hf => rcases hf with hf | ⟨_, hf⟩ <;> cases hf
  | exit hstop =>
    obtain ⟨y, -, hc⟩ := hstop
    cases hc
  | processExit hstop =>
    obtain ⟨y, -, hc⟩ := hstop
    cases hc
  | cleanThread | cleanProcess => exact he rfl

theorem lives_boot (system : System) (single : Nat → Bool) (caps : CapabilityTable)
    (heap : KernelHeap PhysicalMemoryManager) :
    (boot system single caps heap).Lives := by
  refine ⟨⟨fun t ht => ?_, fun t h1 ht => ?_, fun p hp t ht => ?_⟩, rfl, fun t ht => ?_, rfl,
    fun p hp => ?_, fun p hv => ?_, fun p _ hend => ?_⟩
  · match t, ht with
    | 0, _ => exact ⟨rfl, rfl⟩
    | 1, _ => exact ⟨rfl, rfl⟩
  · replace ht : t < 3 := ht
    obtain rfl : t = 2 := by omega
    exact ⟨(by decide : 1 < 2), mem_singleton_self 2⟩
  · match p, hp with
    | 0, _ =>
      replace ht : t ∈ [0, 1] := ht
      simp only [mem_cons, not_mem_nil, or_false] at ht
      rcases ht with rfl | rfl
      · exact ⟨(by decide : 0 < 3), rfl⟩
      · exact ⟨(by decide : 1 < 3), rfl⟩
    | 1, _ =>
      rw [mem_singleton.mp ht]
      exact ⟨(by decide : 2 < 3), rfl⟩
  · cases ht
  · cases hp
  · replace hv : (if p = 0 then _ else _ : Process).vmas = none := hv
    split at hv <;> cases hv
  · replace hend : (if p = 0 then _ else _ : Process).state ≠ .running := hend
    split at hend <;> exact absurd rfl hend

/-- The heap uses of `ThreadCreate`: the thread and its `fx_data_`. -/
def threadUses : List HeapRequest := [.new 144, .new 520]

/-- The first process starts a second thread, which goes to sleep. -/
def allocatedThread : List Event :=
  [.resume, .resume, .cleanup, .resume, .call (.threadCreate 1 0) threadUses, .call (.threadStart 3),
    .tick, .resume, .call (.threadSleep 100)]

/-- The first process spawns a second one. -/
def spawnedProcess : List Event :=
  [.resume, .resume, .cleanup, .resume, .call .processSpawn]

/-- `smallBoot`, but the first process holds a capability. -/
def smallBootHolding : Tasks :=
  boot smallBoot.system smallBoot.single
    (((({} : CapabilityTable).addExistingCapability ⟨0, 0, 0⟩).map Prod.snd).getD {}) smallBoot.heap

/-- `smallBoot`, but the kernel heap has less than 520 bytes left. -/
def smallBootFull : Tasks :=
  boot smallBoot.system smallBoot.single {} { smallBoot.heap with nextAddr := kKernelBuddyHeapEnd - 520 }

/-- The second process gets a thread, and the first process exits. -/
def orphanedProcess : List Event :=
  spawnedProcess ++ [.call (.threadCreate 2 0), .call (.threadStart 3), .call (.processExit 0), .resume]

/-- **A process that has ended does not run.** In every run in which a thread is only started while it is `CREATED` and
its process has not ended, whatever else happens: the threads of a process that has ended are dying or were never
started, and none of them has the processor. -/
theorem run_ended_not_current (system : System) (single : Nat → Bool) (caps : CapabilityTable)
    (heap : KernelHeap PhysicalMemoryManager) {events : List Event}
    (hok : Meets step StartsRunning (boot system single caps heap) events)
    (hrun : run step (boot system single caps heap) events = some s) {p t : Nat} (hp : p < s.processCount)
    (hend : (s.process p).state ≠ .running) (ht : t ∈ (s.process p).threads) :
    t ≠ s.current ∧ ((s.state t).isDying = true ∨ s.state t = .created) := by
  obtain ⟨hs, hl⟩ := run_invariant (P := fun s => Sound [] s ∧ s.Lives)
    (fun s₁ e s₂ h₁ hok hstep => ⟨h₁.1.step_created hok.created hstep, h₁.2.step h₁.1 hok hstep⟩)
    ⟨sound_boot system single caps heap [], lives_boot system single caps heap⟩ hok hrun
  refine ⟨?_, hl.ended p hp hend t ht⟩
  rintro rfl
  have hprocess := (hl.families.threads p hp _ ht).2
  by_cases h1 : 1 < s.current
  · exact hend (hprocess ▸ hl.current_running hs.placed h1)
  · -- the kernel's own process never ends
    rw [(hl.families.kernel _ (not_lt.mp h1)).1] at hprocess
    exact hend (hprocess ▸ hl.root)

/-- The first process exits. -/
theorem run_ended_not_current_processExit :
    ∃ s, run step smallBoot (spawnedProcess.dropLast ++ [.call (.processExit 0)]) = some s ∧
      (s.process 1).state ≠ .running ∧ 2 ≠ s.current := by
  have h : (run step smallBoot (spawnedProcess.dropLast ++ [.call (.processExit 0)])).map (fun s =>
      decide (1 < s.processCount ∧ (s.process 1).state ≠ .running ∧ 2 ∈ (s.process 1).threads)) = some true := by
    decide +kernel
  obtain ⟨s, hrun, hs⟩ := Option.map_eq_some_iff.mp h
  obtain ⟨hp, hend, ht⟩ := of_decide_eq_true hs
  exact ⟨s, hrun, hend, (run_ended_not_current _ _ _ _ (by decide +kernel) hrun hp hend ht).1⟩

end Tasks

end Acadia.Zion
