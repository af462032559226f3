import Acadia.Zion.Scheduler.Calls
import Acadia.Zion.Scheduler.Waiters

/-! # `ProcessWait`

`ProcessWait` waits for the first thread of a process and then reads the exit code of the process, which is the one
that a process starts with if the first thread ends before. If first threads end only with their processes, and
threads are started once, it returns the argument of the latest `Process::Exit`. -/

namespace Acadia.Zion

open Command Glacier Relation List Option Function List.Subset

namespace Tasks

variable {s s' : Tasks} {t p : Nat} {e : Event}

/-! ## Who is cleaned up in a step -/

/-- `GetThread(0)`, if the process has a thread. -/
def firstThread (s : Tasks) (p : Nat) : Option Nat := (s.process p).threads.head?

/-- The threads that the next round of `CleanupLoop` may clean up. -/
def nextCleaned (s : Tasks) : List Nat :=
  match s.inThreadLoop, s.processList, s.threadList with
  | true, _, t :: _ => [t]
  | false, p :: _, _ => (s.process p).threads
  | _, _, _ => []

theorem waitersKept_processCleanup (p : Nat) : wp (processCleanup p) (fun _ => WaitersKept (s.process p).threads s)
      (fun _ => WaitersKept (s.process p).threads s) s := by
  -- what follows the threads
  have hrest : KeepsWaiters (s.process p).threads (do
      releaseAll p
      let i ← vmas p
      let code ← .updateSome .undefined fun s =>
        (s.system.freeAddressRange i 0 kUserSpaceMax true).map fun x =>
          (x.1, { s with system := x.2 })
      if code ≠ ErrorCode.ok then .stop (.panicOnError code)
      else .update fun s => s.modifyProcess p fun x => { x with vmas := none, state := .finished }) := by
    refine .bind (.updateSome fun s a s' hf => ?_) fun _ => ?_
    · obtain ⟨⟨removed, caps⟩, -, heq⟩ := map_eq_some_iff.mp hf
      cases heq
      rfl
    · refine .bind (.vmas p) fun i => .bind (.updateSome fun s a s' hf => ?_) fun code => ?_
      · obtain ⟨⟨code, system⟩, -, heq⟩ := map_eq_some_iff.mp hf
        cases heq
        rfl
      · exact .ite (.stop _) (.update fun _ => rfl)
  rw [processCleanup, wp_bind, wp_gets, wp_ite]
  split
  · exact WaitersKept.refl s
  · rw [wp_bind, wp_update, wp_bind, wp_gets, process_modifyProcess_self]
    have hthreads : KeepsWaiters (s.process p).threads (Command.each (fun t => do
        if (← .gets fun s => s.state t) = .cleanup then threadCleanup t) (s.process p).threads) :=
      .each fun t ht => .bind (.gets _) fun _ =>
        .ite (.threadCleanup ht) (.pure _)
    exact KeepsWaiters.bind hthreads (fun _ => hrest) _

theorem waitersKept_cleanupRound :
    wp cleanupRound (fun _ => WaitersKept s.nextCleaned s) (fun _ => WaitersKept s.nextCleaned s) s := by
  rw [cleanupRound, wp_bind, wp_gets]
  unfold nextCleaned
  cases hl : s.inThreadLoop with
  | true =>
    cases ht : s.threadList with
    | nil => exact WaitersKept.of_lists rfl
    | cons => exact KeepsWaiters.threadCleanup (mem_singleton_self _) _
  | false =>
    cases hp : s.processList with
    | nil =>
      cases ht : s.threadList with
      | nil => exact KeepsWaiters.semaphoreWait _ s
      | cons => exact WaitersKept.of_lists rfl
    | cons => exact waitersKept_processCleanup _

/-- **Whoever waits for a thread still does after a step**, unless the thread was cleaned up. -/
theorem step_waiters (hstep : s.step e = some s') : WaitersKept (if e = .cleanup then s.nextCleaned else []) s s' := by
  by_cases he : e = .cleanup
  · subst he
    exact of_wp_perform hstep fun _ => waitersKept_cleanupRound
  · rw [if_neg he]
    exact of_wp_perform hstep fun _ => KeepsWaiters.perform he s

/-! ## Processes that have called `Process::Exit` -/

/-- The call of `Process::Exit` that an event makes: the process and the exit code. -/
def exitCall (s : Tasks) : Event → Option (Nat × UInt64)
  | .call (.processExit exitCode) _ => some ((s.thread s.current).process, exitCode)
  | _ => none

/-- **First threads die only after their process has exited**, where `exits` are the calls of
`Process::Exit` so far, the latest first. -/
structure Attested (exits : List (Nat × UInt64)) (s : Tasks) : Prop where
  families : s.Families
  listed : ∀ t ∈ s.threadList, t < s.threadCount
  dying : ∀ p < s.processCount, ∀ t ∈ s.firstThread p,
    (s.state t).isDying = true ∨ t ∈ s.threadList → (exits.lookup p).isSome = true
  processes : ∀ p ∈ s.processList, p < s.processCount ∧ (exits.lookup p).isSome = true
  /-- The exit code of a process is that of its latest call. -/
  codes : ∀ p code, exits.lookup p = some code → p < s.processCount ∧ (s.process p).exitCode = code

variable {exits : List (Nat × UInt64)}

/-- Nothing changes, except that threads leave the lists for cleanup and `ts` are cleaned up. -/
theorem Attested.congr (ts : List Nat) (h : Attested exits s) (hn : s'.threadCount = s.threadCount)
    (hm : s'.processCount = s.processCount)
    (hp : ∀ q, (s'.process q).threads = (s.process q).threads ∧ (s'.process q).exitCode = (s.process q).exitCode)
    (ht : ∀ u, (s'.thread u).process = (s.thread u).process ∧ (s'.thread u).isKernel = (s.thread u).isKernel)
    (hd : ∀ u, u ∉ ts → (s'.state u).isDying = true → (s.state u).isDying = true)
    (hl : s'.threadList ⊆ s.threadList) (hpl : s'.processList ⊆ s.processList)
    (hts : ∀ q < s.processCount, ∀ u ∈ s.firstThread q, u ∈ ts → (exits.lookup q).isSome = true) :
    Attested exits s' where
  families := h.families.congr hn hm (fun q => (hp q).1) ht
  listed u hu := by
    rw [hn]
    exact h.listed u (hl hu)
  dying q hq u hu hdying := by
    rw [hm] at hq
    rw [firstThread, (hp q).1] at hu
    by_cases hmem : u ∈ ts
    · exact hts q hq u hu hmem
    · exact h.dying q hq u hu (hdying.imp (hd u hmem) fun hu => hl hu)
  processes q hq := by
    rw [hm]
    exact h.processes q (hpl hq)
  codes q code hcode := by
    rw [hm, (hp q).2]
    exact h.codes q code hcode

theorem Attested.releases {ts : List Nat} (h : Attested exits s) (hr : Releases ts s s')
    (hts : ∀ q < s.processCount, ∀ u ∈ s.firstThread q, u ∈ ts → (exits.lookup q).isSome = true) :
    Attested exits s' := by
  refine h.congr ts hr.threadCount hr.processCount (fun q => ?_)
    (fun u => ⟨(hr.thread u).1, (hr.thread u).2.1⟩) (fun u hu hd => ?_) (hr.threadList ▸ refl _)
    (hr.processList ▸ refl _) hts
  · rw [hr.process]
    exact ⟨rfl, rfl⟩
  · rwa [hr.dying u hu] at hd

theorem Attested.same (h : Attested exits s) (hn : s'.threadCount = s.threadCount)
    (hm : s'.processCount = s.processCount)
    (hp : ∀ q, (s'.process q).threads = (s.process q).threads ∧ (s'.process q).exitCode = (s.process q).exitCode)
    (ht : ∀ u, (s'.thread u).process = (s.thread u).process ∧ (s'.thread u).isKernel = (s.thread u).isKernel)
    (hd : ∀ u, (s'.state u).isDying = true → (s.state u).isDying = true) (hl : s'.threadList ⊆ s.threadList)
    (hpl : s'.processList ⊆ s.processList) : Attested exits s' :=
  h.congr [] hn hm hp ht (fun u _ => hd u) hl hpl fun _ _ _ _ hmem => absurd hmem not_mem_nil

theorem Attested.modifyThread {f : Thread → Thread} (h : Attested exits s)
    (hf : ∀ th, (f th).process = th.process ∧ (f th).isKernel = th.isKernel ∧ (f th).state = th.state) :
    Attested exits (s.modifyThread t f) := by
  refine h.same rfl rfl (fun _ => ⟨rfl, rfl⟩) (fun u => ?_) (fun u hu => ?_) (refl _) (refl _)
  · rw [thread_modifyThread]
    split_ifs with hu
    · rw [hu]
      exact ⟨(hf _).1, (hf _).2.1⟩
    · exact ⟨rfl, rfl⟩
  · rwa [state_modifyThread (hf _).2.2] at hu

theorem Attested.started (h : Attested exits s) : Attested exits (s.started t) := by
  have hthread : ∀ u, (s.started t).thread u = { s.thread u with state := (s.started t).state u } :=
    thread_writeState _
  refine h.same rfl rfl (fun _ => ⟨rfl, rfl⟩) (fun u => ?_) (fun u hu => ?_) (refl _) (refl _)
  · rw [hthread]
    exact ⟨rfl, rfl⟩
  · rw [state_started] at hu
    split at hu
    · cases hu
    · exact hu

theorem Attested.created {garbage stack cr3 : UInt64} (h : Attested exits s) (hp : p < s.processCount)
    (hn : 1 < s.threadCount) : Attested exits (s.created p garbage stack cr3) where
  families := h.families.created hp hn
  listed u hu := Nat.lt_succ_of_lt (h.listed u hu)
  dying q hq u hu hdying := by
    -- the new thread is neither dying nor waits for its cleanup
    have hnew : u ≠ s.threadCount := by
      rintro rfl
      rcases hdying with hd | hmem
      · rw [state, thread_created_self] at hd
        cases hd
      · exact absurd (h.listed _ hmem) (lt_irrefl _)
    have hold : u ∈ s.firstThread q := by
      rw [firstThread, threads_created] at hu
      split_ifs at hu with hqp
      · rw [hqp, firstThread]
        cases hthreads : (s.process p).threads with
        | nil =>
          rw [hthreads] at hu
          exact absurd (mem_some.mp hu).symm hnew
        | cons =>
          rw [hthreads] at hu
          exact hu
      · exact hu
    rw [state, thread_created_of_ne hnew] at hdying
    exact h.dying q hq u hold hdying
  processes := h.processes
  codes q code hcode := by
    obtain ⟨hq, hexit⟩ := h.codes q code hcode
    refine ⟨hq, ?_⟩
    by_cases hqp : q = p
    · rw [hqp, process_created_self]
      rw [hqp] at hexit
      exact hexit
    · rw [process_created_of_ne hqp]
      exact hexit

theorem Attested.spawned {i : Nat} {system : System} {heap : KernelHeap PhysicalMemoryManager}
    (h : Attested exits s) : Attested exits (s.spawned i system heap) where
  families := h.families.spawned
  listed := h.listed
  dying q hq u hu hdying := by
    rw [firstThread, process_spawned] at hu
    split_ifs at hu with hne
    · cases hu
    · exact h.dying q (lt_of_le_of_ne (Nat.le_of_lt_succ hq) hne) u hu hdying
  processes q hq := ⟨Nat.lt_succ_of_lt (h.processes q hq).1, (h.processes q hq).2⟩
  codes q code hcode := by
    obtain ⟨hq, hexit⟩ := h.codes q code hcode
    refine ⟨Nat.lt_succ_of_lt hq, ?_⟩
    rw [process_spawned, if_neg hq.ne]
    exact hexit

theorem Attested.exited (h : Attested exits s) (hc : s.current < s.threadCount)
    (hfirst : s.firstThread (s.thread s.current).process ≠ some s.current) : Attested exits s.exited := by
  have hthread : ∀ u, s.exited.thread u = { s.thread u with state := s.exited.state u } :=
    thread_writeState _
  refine ⟨h.families.congr rfl rfl (fun _ => rfl) fun u => ?_, fun u hu => ?_, fun q hq u hu hdying => ?_,
    h.processes, h.codes⟩
  · rw [hthread]
    exact ⟨rfl, rfl⟩
  · rcases mem_append.mp hu with hu | hu
    · exact h.listed u hu
    · rw [mem_singleton.mp hu]
      exact hc
  -- the current thread is a first thread of no process
  have hne : u ≠ s.current := by
    rintro rfl
    replace hu : s.firstThread q = some s.current := hu
    have hmem : s.current ∈ (s.process q).threads := mem_of_mem_head? hu
    rw [(h.families.threads q hq _ hmem).2] at hfirst
    exact hfirst hu
  refine h.dying q hq u hu (hdying.imp (fun hd => ?_) fun hmem => ?_)
  · rwa [state_exited, if_neg hne] at hd
  · rcases mem_append.mp hmem with hmem | hmem
    · exact hmem
    · exact absurd (mem_singleton.mp hmem) hne

theorem Attested.processExited {exitCode : UInt64} (h : Attested exits s) (hp : p < s.processCount) :
    Attested ((p, exitCode) :: exits) (s.processExited p exitCode) := by
  have hself : ((p, exitCode) :: exits).lookup p = some exitCode := by
    rw [lookup_cons_self]
  have hother : ∀ q, q ≠ p → ((p, exitCode) :: exits).lookup q = exits.lookup q := by
    intro q hq
    rw [lookup_cons, beq_false_of_ne hq]
  have hprocess : ∀ q, ((s.processExited p exitCode).process q).threads = (s.process q).threads := by
    intro q
    rw [process_processExited]
    split_ifs with hq
    · rw [hq]
    · rfl
  refine ⟨h.families.congr rfl rfl hprocess fun u => ?_, h.listed, fun q hq u hu hdying => ?_,
    fun q hq => ?_, fun q code hcode => ?_⟩
  · rw [thread_processExited]
    exact ⟨rfl, rfl⟩
  · by_cases hqp : q = p
    · rw [hqp, hself]
      rfl
    rw [firstThread, hprocess] at hu
    rw [hother q hqp]
    refine h.dying q hq u hu (hdying.imp (fun hd => ?_) id)
    rw [state_processExited, if_neg] at hd
    · exact hd
    · -- a thread of another process
      rintro ⟨hmem, -⟩
      have hu' := (h.families.threads q hq u (mem_of_mem_head? hu)).2
      rw [(h.families.threads p hp u hmem).2] at hu'
      exact hqp hu'.symm
  · rcases mem_append.mp hq with hq | hq
    · obtain ⟨hlt, hsome⟩ := h.processes q hq
      refine ⟨hlt, ?_⟩
      by_cases hqp : q = p
      · rw [hqp, hself]
        rfl
      · rw [hother q hqp]
        exact hsome
    · rw [mem_singleton.mp hq, hself]
      exact ⟨hp, rfl⟩
  · rw [process_processExited]
    by_cases hqp : q = p
    · rw [hqp, hself] at hcode
      rw [hqp, if_pos rfl]
      exact ⟨hp, some.inj hcode⟩
    · rw [hother q hqp] at hcode
      rw [if_neg hqp]
      exact h.codes q code hcode

theorem Attested.cleansProcess {waiting : List Nat} (h : Attested exits s)
    (hpl : Placed waiting (.running, s)) (hp : p < s.processCount) (hexit : (exits.lookup p).isSome = true)
    (hc : CleansProcess p s s') : Attested exits s' := by
  obtain ⟨-, hall, -, -, -⟩ := hc
  rename_i s1 removed caps i system
  have hcleaning : ∀ q, ((s.processCleaning p).process q).threads = (s.process q).threads ∧
      ((s.processCleaning p).process q).exitCode = (s.process q).exitCode := by
    intro q
    rw [processCleaning, process_modifyProcess]
    split_ifs with hq
    · rw [hq]
      exact ⟨rfl, rfl⟩
    · exact ⟨rfl, rfl⟩
  have h1 : Attested exits (s.processCleaning p) :=
    h.same rfl rfl hcleaning (fun _ => ⟨rfl, rfl⟩) (fun _ => id) (refl _) (refl _)
  have hpl1 : Placed waiting (.running, s.processCleaning p) := hpl.congr
  obtain ⟨done, hr, hsub, -, -, -⟩ := hall.releases hpl1
  have h2 : Attested exits s1 := by
    refine h1.releases hr fun q hq u hu hmem => ?_
    -- a first thread among them is that of `p`
    have hfirst : u ∈ (s.process q).threads := by
      rw [firstThread, (hcleaning q).1] at hu
      exact mem_of_mem_head? hu
    have hq' := (h.families.threads q hq u hfirst).2
    rw [(h.families.threads p hp u (hsub hmem)).2] at hq'
    rw [← hq']
    exact hexit
  refine h2.same rfl rfl (fun q => ?_) (fun _ => ⟨rfl, rfl⟩) (fun _ => id) (refl _) (refl _)
  rw [process_processFinished]
  split_ifs with hq
  · rw [hq]
    exact ⟨rfl, rfl⟩
  · exact ⟨rfl, rfl⟩

/-- A thread that calls `ThreadExit` is not the first of its process. -/
def FirstStays (s : Tasks) (e : Event) : Prop :=
  e.exitsThread = true → s.firstThread (s.thread s.current).process ≠ some s.current

instance (s : Tasks) (e : Event) : Decidable (s.FirstStays e) :=
  inferInstanceAs (Decidable (_ → _))

theorem step_processExit {exitCode : UInt64} {uses : List HeapRequest} (hs : s.Steady)
    (hstep : s.step (.call (.processExit exitCode) uses) = some s') :
    Moves (.leaving, s.processExited (s.thread s.current).process exitCode) (.running, s') := by
  refine of_wp_perform (Q := fun s' => Moves (.leaving, _) (.running, s')) (E := fun _ _ => True) hstep
    fun hp => ?_
  rw [perform, wp_bind]
  refine wp_mono (wp_useHeap uses) (fun _ s1 h1 => ?_) fun _ _ _ => trivial
  obtain ⟨machine, heap, rfl⟩ := h1
  refine wp_mono (wp_processExit (s := s.withHeap machine heap) hp.1 hs.enabled) (fun _ _ h => ?_)
    fun _ _ _ => trivial
  exact .head (move_withHeap ..) h.moves

/-- **One step.** -/
theorem Attested.step (h : Attested exits s) (hs : Sound [] s) (hfirst : s.FirstStays e)
    (hstep : s.step e = some s') : Attested ((s.exitCall e).toList ++ exits) s' := by
  have hpossible := possible_of_step hstep
  have hpl := hs.placed
  by_cases hexit : ∃ exitCode uses, e = .call (.processExit exitCode) uses
  · obtain ⟨exitCode, uses, rfl⟩ := hexit
    have hp := (h.families.member _ (one_lt_of_possible hpossible) hpl.exist).1
    have hmoves := step_processExit hs.steady hstep
    have hr := (hs.placed_processExited hpossible.1 hpossible.2.1 exitCode).releases hmoves
    exact (h.processExited hp).releases hr fun _ _ _ _ hmem => absurd hmem not_mem_nil
  have hnone : s.exitCall e = none := by
    unfold exitCall
    split
    · rename_i exitCode uses
      exact absurd ⟨exitCode, uses, rfl⟩ hexit
    · rfl
  rw [hnone, toList_none, nil_append]
  obtain ⟨heff, -⟩ := step_effect hs.steady hstep
  cases heff with
  | moves hm => exact h.releases (hpl.releases hm) fun _ _ _ _ hmem => absurd hmem not_mem_nil
  | @start _ _ machine heap =>
    have h1 : Attested exits (s.withHeap machine heap) :=
      h.same rfl rfl (fun _ => ⟨rfl, rfl⟩) (fun _ => ⟨rfl, rfl⟩) (fun _ => id) (refl _) (refl _)
    exact h1.started
  | @create _ _ _ _ _ _ _ s1 hi hstack =>
    have h1 : Attested exits s1 := by
      rw [hstack.eq]
      exact h.same rfl rfl (fun _ => ⟨rfl, rfl⟩) (fun _ => ⟨rfl, rfl⟩) (fun _ => id)
        (refl _) (refl _)
    have hcount : s1.processCount = s.processCount ∧ s1.threadCount = s.threadCount := by
      rw [hstack.eq]
      exact ⟨rfl, rfl⟩
    refine h1.created (hcount.1 ▸ hpossible.2.2.2.2) ?_
    rw [hcount.2]
    exact Nat.lt_of_succ_lt hs.stable.count
  | spawn => exact h.spawned
  | @init _ _ _ system htodo hi hx =>
    have h1 : Attested exits { s with system } :=
      h.same rfl rfl (fun _ => ⟨rfl, rfl⟩) (fun _ => ⟨rfl, rfl⟩) (fun _ => id) (refl _) (refl _)
    rw [initialised_modifyThread]
    exact h1.modifyThread fun _ => ⟨rfl, rfl, rfl⟩
  | initKernel htodo hk => exact h.modifyThread fun _ => ⟨rfl, rfl, rfl⟩
  | exit hm =>
    have h1 := h.exited hpl.exist (hfirst rfl)
    exact h1.releases ((hpl.exited hpossible.1).releases hm) fun _ _ _ _ hmem =>
      absurd hmem not_mem_nil
  | processExit hm => exact absurd ⟨_, _, rfl⟩ hexit
  | @cleanThread u threadList _ hl ht hc =>
    obtain ⟨hmem, hr⟩ := hs.releases_thread ht hc
    have h1 : Attested exits { s with threadList } :=
      h.same rfl rfl (fun _ => ⟨rfl, rfl⟩) (fun _ => ⟨rfl, rfl⟩) (fun _ => id)
        (ht ▸ subset_cons_self _ _) (refl _)
    refine h1.releases hr fun q hq v hv hv' => ?_
    rw [mem_singleton.mp hv'] at hv
    exact h.dying q hq u hv (Or.inr hmem)
  | @cleanProcess q processList _ hl hlist hc =>
    have h1 : Attested exits { s with processList } :=
      h.same rfl rfl (fun _ => ⟨rfl, rfl⟩) (fun _ => ⟨rfl, rfl⟩) (fun _ => id)
        (refl _) (hlist ▸ subset_cons_self _ _)
    have hpl1 : Placed [] (.running, { s with processList }) := hpl.congr
    have hq := h.processes q (hlist ▸ mem_cons_self)
    exact h1.cleansProcess hpl1 hq.1 hq.2 hc

theorem Cleans.process_eq (h : Cleans t s s') : s'.process = s.process := by
  obtain ⟨-, -, -, hst⟩ := h
  exact (frame_of_moves hst.moves).process

theorem Cleans.processCount_eq (h : Cleans t s s') : s'.processCount = s.processCount := by
  obtain ⟨-, -, -, hst⟩ := h
  exact (frame_of_moves hst.moves).processCount

theorem CleansAll.process_eq {ts : List Nat} (h : CleansAll s ts s') : s'.process = s.process := by
  induction h with
  | nil => rfl
  | skip _ _ ih => exact ih
  | clean _ _ hc ih => exact hc.process_eq.trans ih

theorem CleansAll.processCount_eq {ts : List Nat} (h : CleansAll s ts s') : s'.processCount = s.processCount := by
  induction h with
  | nil => rfl
  | skip _ _ ih => exact ih
  | clean _ _ hc ih => exact hc.processCount_eq.trans ih

theorem processCount_step (hs : s.Steady) (hstep : s.step e = some s') : s.processCount ≤ s'.processCount := by
  obtain ⟨heff, -⟩ := step_effect hs hstep
  cases heff with
  | moves hm => exact (frame_of_moves hm).processCount.ge
  | start | init | initKernel => exact le_rfl
  | create _ hstack =>
    rw [hstack.eq]
    exact le_rfl
  | spawn => exact Nat.le_succ _
  | exit hm => exact (frame_of_moves hm).processCount.ge
  | processExit hm => exact (frame_of_moves hm).processCount.ge
  | cleanThread _ _ hc => exact hc.processCount_eq.ge
  | cleanProcess _ _ hc =>
    obtain ⟨-, hall, -⟩ := hc
    exact hall.processCount_eq.ge

theorem firstThread_step (hs : s.Steady) (hstep : s.step e = some s') (hp : p < s.processCount)
    (ht : s.firstThread p = some t) : s'.firstThread p = some t := by
  have hsame : ∀ {s1 : Tasks}, (s1.process p).threads = (s.process p).threads → s1.firstThread p = some t := by
    intro s1 heq
    rw [firstThread, heq]
    exact ht
  obtain ⟨heff, -⟩ := step_effect hs hstep
  cases heff with
  | moves hm => exact hsame (by rw [(frame_of_moves hm).process])
  | start | init | initKernel => exact ht
  | @create _ _ _ _ _ _ _ s1 hi hstack =>
    have hprocess : s1.process = s.process := by
      rw [hstack.eq]
      rfl
    rw [firstThread, threads_created, hprocess]
    split
    · rename_i hpq
      rw [← hpq, List.head?_append, show (s.process p).threads.head? = some t from ht]
      rfl
    · exact ht
  | spawn =>
    rw [firstThread, process_spawned, if_neg hp.ne]
    exact ht
  | exit hm => exact hsame (by rw [(frame_of_moves hm).process]; rfl)
  | processExit hm =>
    refine hsame ?_
    rw [(frame_of_moves hm).process, process_processExited]
    split
    · rename_i hq
      rw [← hq]
    · rfl
  | cleanThread hl hlist hc => exact hsame (by rw [hc.process_eq])
  | cleanProcess hl hlist hc =>
    obtain ⟨-, hall, -⟩ := hc
    refine hsame ?_
    rw [process_processFinished, hall.process_eq, processCleaning, process_modifyProcess, process_modifyProcess]
    split
    · rename_i hq
      rw [if_pos rfl, hq]
    · rfl

theorem Attested.of_nextCleaned (h : Attested exits s) (hp : p < s.processCount)
    (ht : s.firstThread p = some t) (hmem : t ∈ s.nextCleaned) : (exits.lookup p).isSome = true := by
  unfold nextCleaned at hmem
  split at hmem
  · rename_i u threadList hl _ hlist
    rw [mem_singleton] at hmem
    refine h.dying p hp t ht (Or.inr ?_)
    rw [hmem, hlist]
    exact mem_cons_self
  · rename_i q processList hl hlist
    obtain ⟨hq, hexit⟩ := h.processes q (hlist ▸ mem_cons_self)
    -- the thread belongs to both processes
    have hpq := (h.families.threads p hp t (mem_of_mem_head? ht)).2
    rw [(h.families.threads q hq t hmem).2] at hpq
    rw [← hpq]
    exact hexit
  · cases hmem

theorem attested_boot (system : System) (single : Nat → Bool) (caps : CapabilityTable)
    (heap : KernelHeap PhysicalMemoryManager) :
    Attested [] (boot system single caps heap) where
  families := (lives_boot system single caps heap).families
  listed t ht := by cases ht
  dying q hq t ht hd := by
    rcases hd with hd | hd
    · rw [show (boot system single caps heap).state t = (bootThread system.spaces t).state from rfl] at hd
      match t with
      | 0 => cases hd
      | 1 => cases hd
      | _ + 2 => cases hd
    · cases hd
  processes q hq := by cases hq
  codes q code hcode := by cases hcode

/-! ## The syscall -/

/-- The process that the current thread waits for after the event, if it is in `Thread::Wait` then. -/
def blocksFor (s : Tasks) : Event → Option Nat
  | .call (.processWait p) _ =>
    if (s.thread s.current).process = p then none
    else if (s.firstThread p).any fun t => !(s.state t).isDying then some p
    else none
  | _ => none

theorem eq_of_blocksFor (h : s.blocksFor e = some p) : (∃ uses, e = .call (.processWait p) uses) ∧
      (s.thread s.current).process ≠ p ∧ ∃ t, s.firstThread p = some t ∧ (s.state t).isDying = false := by
  unfold blocksFor at h
  split at h
  · rename_i q
    split at h
    · cases h
    · rename_i hne
      split at h
      · rename_i hany
        cases h
        obtain ⟨t, ht, halive⟩ := (Option.any_eq_true ..).mp hany
        exact ⟨⟨_, rfl⟩, hne, t, ht, by simpa using halive⟩
      · cases h
  · cases h

theorem mem_of_blocksFor (h : s.blocksFor e = some p) (ht : s.firstThread p = some t)
    (hstep : s.step e = some s') : s.current ∈ s'.lists (.thread t) := by
  obtain ⟨⟨uses, rfl⟩, hne, u, hu, halive⟩ := eq_of_blocksFor h
  rw [ht, some.injEq] at hu
  subst hu
  refine of_wp_perform (Q := fun s' => s.current ∈ s'.lists (.thread t)) (E := fun _ _ => True) hstep
    fun _ => ?_
  rw [perform, wp_bind]
  refine wp_mono (wp_useHeap uses) (fun _ s1 h1 => ?_) fun _ _ _ => trivial
  obtain ⟨machine, heap, rfl⟩ := h1
  show wp (processWait p) _ _ _
  rw [processWait, wp_bind, wp_gets, wp_ite, if_neg (by exact hne), wp_bind, wp_gets]
  cases hthreads : ((s.withHeap machine heap).process p).threads with
  | nil =>
    rw [firstThread, show (s.process p).threads = [] from hthreads] at ht
    cases ht
  | cons =>
    rw [firstThread, show (s.process p).threads = _ from hthreads] at ht
    cases ht
    show wp (threadWait t) _ _ _
    rw [threadWait, wp_bind, wp_gets, show ((s.withHeap machine heap).state t).isDying = _ from halive,
      wp_ite, if_neg Bool.false_ne_true, wp_bind, block, wp_bind, wp_gets, wp_bind, wp_setState]
    split
    · exact trivial
    · rw [wp_update]
      -- the thread is in the list, and stays there when it yields
      have hyield : KeepsWaiters [] yield := .yield
      refine wp_mono (hyield _) (fun _ s1 hkept => ?_) fun _ _ _ => trivial
      refine hkept t not_mem_nil ?_
      rw [lists_push, if_pos rfl]
      exact mem_append_right _ (mem_singleton_self _)

end Tasks

/-- The threads and processes, with what `ProcessWait` has on the stacks of threads that wait. -/
structure WaitingTasks where
  tasks : Tasks
  /-- The process whose exit code a thread reads when its `Thread::Wait` returns. -/
  waitsFor : Nat → Option Nat := fun _ => none
  /-- The calls of `Process::Exit` so far, the latest first: process and argument. -/
  exits : List (Nat × UInt64) := []

/-- What happens next. -/
inductive WaitEvent where
  | task (e : Event)
  /-- `Thread::Wait` returns to a `ProcessWait` that has blocked. -/
  | waitReturns
  deriving DecidableEq

/-- The current thread calls the kernel. -/
def Event.isCall : Event → Bool
  | .call _ _ => true
  | _ => false

namespace WaitingTasks

variable {s s' : WaitingTasks} {e : WaitEvent} {p w : Nat} {code : UInt64}

/-- One step. A thread that is in `ProcessWait` makes no other call. -/
def step (s : WaitingTasks) : WaitEvent → Option WaitingTasks
  | .task e =>
    if e.isCall ∧ (s.waitsFor s.tasks.current).isSome then none
    else (s.tasks.step e).map fun tasks =>
      { tasks
        waitsFor := (s.tasks.blocksFor e).elim s.waitsFor fun p =>
          update s.waitsFor s.tasks.current (some p)
        exits := (s.tasks.exitCall e).toList ++ s.exits }
  | .waitReturns =>
    (s.waitsFor s.tasks.current).map fun _ =>
      { s with waitsFor := update s.waitsFor s.tasks.current none }

/-- **The `ProcessWait` that returns `OK` in a step**: the process, and the exit code that is read. -/
def returned (s : WaitingTasks) : WaitEvent → Option (Nat × UInt64)
  | .task (.call (.processWait p) _) =>
    if (s.tasks.thread s.tasks.current).process = p then none
    else if (s.tasks.firstThread p).any fun t => (s.tasks.state t).isDying then
      some (p, (s.tasks.process p).exitCode)
    else none
  | .task _ => none
  | .waitReturns => (s.waitsFor s.tasks.current).map fun p => (p, (s.tasks.process p).exitCode)

/-- The state at the end of `zion()`. -/
def boot (system : System) (single : Nat → Bool) (caps : CapabilityTable)
    (heap : KernelHeap PhysicalMemoryManager) : WaitingTasks where
  tasks := Tasks.boot system single caps heap

/-- Threads are started while they are `CREATED`, and first threads do not call `ThreadExit`. -/
def FirstStays (s : WaitingTasks) : WaitEvent → Prop
  | .task e => s.tasks.StartsCreated e ∧ s.tasks.FirstStays e
  | .waitReturns => True

instance (s : WaitingTasks) (e : WaitEvent) : Decidable (s.FirstStays e) := by
  cases e <;> unfold FirstStays <;> infer_instance

/-- **What holds between events.** -/
structure Attested (s : WaitingTasks) : Prop where
  sound : Tasks.Sound [] s.tasks
  attested : Tasks.Attested s.exits s.tasks
  /-- A thread that waits for a process is in the list of its first thread, or the process has exited. -/
  waits : ∀ w p, s.waitsFor w = some p → p < s.tasks.processCount ∧ ∃ t, s.tasks.firstThread p = some t ∧
    (w ∈ s.tasks.lists (.thread t) ∨ (s.exits.lookup p).isSome = true)

theorem lookup_append_isSome {call : Option (Nat × UInt64)} {exits : List (Nat × UInt64)}
    (h : (exits.lookup p).isSome = true) : ((call.toList ++ exits).lookup p).isSome = true := by
  cases call with
  | none => exact h
  | some x =>
    obtain ⟨q, code⟩ := x
    show (((q, code) :: exits).lookup p).isSome = true
    rw [lookup_cons]
    split
    · rfl
    · exact h

/-- **One step** in which threads are started and exit as they should. -/
theorem Attested.step (h : s.Attested) (hok : s.FirstStays e) (hstep : s.step e = some s') : s'.Attested := by
  cases e with
  | waitReturns =>
    obtain ⟨q, -, rfl⟩ := map_eq_some_iff.mp hstep
    refine ⟨h.sound, h.attested, fun w p hw => ?_⟩
    change update s.waitsFor s.tasks.current none w = some p at hw
    by_cases hcur : w = s.tasks.current
    · subst hcur
      rw [update_self] at hw
      cases hw
    · rw [update_of_ne hcur] at hw
      exact h.waits w p hw
  | task e =>
    rw [WaitingTasks.step] at hstep
    split at hstep
    · cases hstep
    obtain ⟨tasks, htasks, rfl⟩ := map_eq_some_iff.mp hstep
    have hs := h.sound.steady
    refine ⟨h.sound.step_created hok.1 htasks, h.attested.step h.sound hok.2 htasks, fun w p hw => ?_⟩
    have hcount : s.tasks.processCount ≤ tasks.processCount := Tasks.processCount_step hs htasks
    -- a thread that was waiting before the step
    have hold : s.waitsFor w = some p → p < tasks.processCount ∧ ∃ t, tasks.firstThread p = some t ∧
        (w ∈ tasks.lists (.thread t) ∨ (((s.tasks.exitCall e).toList ++ s.exits).lookup p).isSome = true) := by
      intro hw
      obtain ⟨hp, t, ht, hwait⟩ := h.waits w p hw
      refine ⟨hp.trans_le hcount, t, Tasks.firstThread_step hs htasks hp ht, ?_⟩
      rcases hwait with hmem | hexit
      · have hkept := Tasks.step_waiters htasks
        by_cases hclean : t ∈ (if e = .cleanup then s.tasks.nextCleaned else [])
        · split at hclean
          · exact Or.inr (lookup_append_isSome (h.attested.of_nextCleaned hp ht hclean))
          · cases hclean
        · exact Or.inl (hkept t hclean hmem)
      · exact Or.inr (lookup_append_isSome hexit)
    cases hblocks : s.tasks.blocksFor e with
    | none =>
      rw [hblocks] at hw
      exact hold hw
    | some q =>
      rw [hblocks] at hw
      change update s.waitsFor s.tasks.current (some q) w = some p at hw
      by_cases hcur : w = s.tasks.current
      · -- the thread blocks now
        subst hcur
        rw [update_self] at hw
        cases hw
        obtain ⟨⟨uses, rfl⟩, -, t, ht, -⟩ := Tasks.eq_of_blocksFor hblocks
        have hp := (Tasks.possible_of_step htasks).2.2.2.2
        exact ⟨hp.trans_le hcount, t, Tasks.firstThread_step hs htasks hp ht,
          Or.inl (Tasks.mem_of_blocksFor hblocks ht htasks)⟩
      · rw [update_of_ne hcur] at hw
        exact hold hw

/-- What `ProcessWait` returns in such a state. -/
theorem Attested.returned (h : s.Attested) (hstep : s.step e = some s')
    (hreturned : s.returned e = some (p, code)) : s.exits.lookup p = some code := by
  have hcode : ∀ {q}, (s.exits.lookup q).isSome = true → s.exits.lookup q = some (s.tasks.process q).exitCode := by
    intro q hq
    obtain ⟨c, hc⟩ := isSome_iff_exists.mp hq
    rw [hc, (h.attested.codes q c hc).2]
  unfold WaitingTasks.returned at hreturned
  split at hreturned
  · rename_i q
    split at hreturned
    · cases hreturned
    split at hreturned
    · rename_i hany
      cases hreturned
      obtain ⟨t, ht, hd⟩ := (Option.any_eq_true ..).mp hany
      rw [WaitingTasks.step] at hstep
      split at hstep
      · cases hstep
      · obtain ⟨tasks, htasks, -⟩ := map_eq_some_iff.mp hstep
        have hp := (Tasks.possible_of_step htasks).2.2.2.2
        exact hcode (h.attested.dying p hp t ht (Or.inl hd))
    · cases hreturned
  · cases hreturned
  · obtain ⟨q, hq, heq⟩ := map_eq_some_iff.mp hreturned
    cases heq
    obtain ⟨-, t, -, hmem | hexit⟩ := h.waits _ _ hq
    · -- the current thread is in no list
      exact absurd hmem ((h.sound.placed.running rfl).1 _)
    · exact hcode hexit

/-- The first process spawns a second one with two threads, and the first of them runs. -/
def twoThreads : List WaitEvent :=
  List.map WaitEvent.task (Tasks.spawnedProcess ++ [.call (.threadCreate 2 0),
    .call (.threadCreate 2 0), .call (.threadStart 3), .call (.threadStart 4), .tick, .resume])

/-- The machine on which it does so. -/
def smallBoot : WaitingTasks where
  tasks := Tasks.smallBoot

end WaitingTasks

end Acadia.Zion
