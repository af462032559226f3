import Acadia.Zion.Scheduler.Lifecycle

/-! # Processes and their threads

A thread belongs to one process from its creation on, and a process that has left the state `RUNNING` has no thread
that runs or will run, provided that each thread is started while it is `CREATED` and its process is `RUNNING`.
`Releases` sums up what the cleanup of threads does, with the moves of the scheduler in between. -/

namespace Acadia.Zion.Tasks

open Command Glacier Relation List

variable {s s' : Tasks} {t : Nat} {waiting : List Nat}

/-! ## Cleanup as a whole -/

variable {x y : Phase × Tasks}

/-- A move leaves a thread that is `CREATED` in that state. -/
theorem Placed.created_of_move (h : Placed waiting x) (hm : Move x y) (h0 : t ≠ sleepThread)
    (ht : x.2.state t = .created) : y.2.state t = .created := by
  have hlist := h.listed.not_mem_of_created ht
  -- The threads whose state is written are in a list, or run.
  cases hm with
  | aside | locks | clear => exact ht
  | ticks | later | resumed =>
    rw [← ht]
    dsimp only [addTodo]
    exact state_modifyThread rfl
  | @wake _ _ l u hl hmem hd =>
    have hne : t ≠ u := by
      rintro rfl
      exact hlist l hmem
    exact (state_writeState_of_ne _ hne).trans ht
  | block hl hs hx hd => exact (state_writeState_of_ne _ (h.current_ne_of_created ht h0).symm).trans ht
  | idle hr hs hi => exact (state_writeState_of_ne _ h0).trans ht
  | @switch _ s next _ hr hn =>
    have hne : t ≠ next := by
      rintro rfl
      exact hlist .runnable (hr ▸ mem_cons_self)
    refine (state_writeState_of_ne _ hne).trans ?_
    show s.released.state t = .created
    unfold released
    split_ifs with hc
    · rw [hc.1, state_writeState_of_ne _ h0]
      exact ht
    · exact ht
  | @preempt _ next _ hr hd hn =>
    have hne : t ≠ next := by
      rintro rfl
      exact hlist .runnable (hr ▸ mem_cons_self)
    exact (state_writeState_of_ne _ hne).trans
      ((state_writeState_of_ne _ (h.current_ne_of_created ht h0).symm).trans ht)

theorem Placed.created_of_moves (h : Placed waiting x) (hm : Moves x y) (h0 : t ≠ sleepThread)
    (ht : x.2.state t = .created) : y.2.state t = .created := by
  induction hm with
  | refl => exact ht
  | tail hxy hm ih => exact (h.moves hxy).created_of_move hm h0 ih

/-- **The threads `ts` are cleaned up**, and no other thread starts to die; the threads and processes
are otherwise as before, up to moves of the scheduler. -/
structure Releases (ts : List Nat) (s s' : Tasks) : Prop where
  threadCount : s'.threadCount = s.threadCount
  processCount : s'.processCount = s.processCount
  process : s'.process = s.process
  threadList : s'.threadList = s.threadList
  processList : s'.processList = s.processList
  /-- The fields of threads that neither moves nor cleanup change. -/
  thread : ∀ t, (s'.thread t).process = (s.thread t).process ∧
    (s'.thread t).isKernel = (s.thread t).isKernel ∧
    (s'.thread t).userStackBase = (s.thread t).userStackBase ∧
    (s'.thread t).rsp0Start = (s.thread t).rsp0Start
  init : ∀ t, .init ∈ (s'.thread t).todo ↔ .init ∈ (s.thread t).todo
  finished : ∀ t ∈ ts, s'.state t = .finished
  dying : ∀ t, t ∉ ts → (s'.state t).isDying = (s.state t).isDying
  dead : ∀ t, t ∉ ts → (s.state t).isDying = true → s'.state t = s.state t
  created : ∀ t, t ∉ ts → t ≠ sleepThread → s.state t = .created → s'.state t = .created
  freedUserStacks : s'.freedUserStacks =
    s.freedUserStacks ++ ts.map fun t => (t, (s.thread t).userStackBase)
  /-- The kernel stacks of `ts` are given back. -/
  freedStacks : s'.freedStacks = s.freedStacks ++ ts.map fun t => (t, (s.thread t).rsp0Start)
  nextStackAddr : s'.stackManager.nextStackAddr = s.stackManager.nextStackAddr
  freeStacks : s'.stackManager.freeStacks =
    (ts.map fun t => (s.thread t).rsp0Start).reverse ++ s.stackManager.freeStacks

theorem Placed.releases (h : Placed waiting x) (hm : Moves x y) : Releases [] x.2 y.2 := by
  have hf := frame_of_moves hm
  exact ⟨hf.threadCount, hf.processCount, hf.process, hf.threadList, hf.processList, hf.thread,
    hf.init, fun _ ht => absurd ht not_mem_nil, fun t _ => hf.dying t, fun t _ => hf.dead t,
    fun t _ => h.created_of_moves hm, by rw [hf.freedUserStacks, map_nil, append_nil],
    by rw [hf.freedStacks, map_nil, append_nil],
    by rw [hf.stackManager], by rw [hf.stackManager]; rfl⟩

variable {ts : List Nat}

theorem Releases.trans {us : List Nat} {s1 s2 : Tasks} (h : Releases ts s s1)
    (h' : Releases us s1 s2) : Releases (ts ++ us) s s2 where
  threadCount := h'.threadCount.trans h.threadCount
  processCount := h'.processCount.trans h.processCount
  process := h'.process.trans h.process
  threadList := h'.threadList.trans h.threadList
  processList := h'.processList.trans h.processList
  thread t := ⟨(h'.thread t).1.trans (h.thread t).1, (h'.thread t).2.1.trans (h.thread t).2.1,
    (h'.thread t).2.2.1.trans (h.thread t).2.2.1, (h'.thread t).2.2.2.trans (h.thread t).2.2.2⟩
  init t := (h'.init t).trans (h.init t)
  finished t ht := by
    by_cases hu : t ∈ us
    · exact h'.finished t hu
    · have hfin := h.finished t ((mem_append.mp ht).resolve_right hu)
      rw [h'.dead t hu (by rw [hfin]; rfl), hfin]
  dying t ht := by
    rw [mem_append, not_or] at ht
    exact (h'.dying t ht.2).trans (h.dying t ht.1)
  dead t ht hd := by
    rw [mem_append, not_or] at ht
    exact (h'.dead t ht.2 ((h.dying t ht.1).trans hd)).trans (h.dead t ht.1 hd)
  created t ht h0 hc := by
    rw [mem_append, not_or] at ht
    exact h'.created t ht.2 h0 (h.created t ht.1 h0 hc)
  freedUserStacks := by
    rw [h'.freedUserStacks, h.freedUserStacks, map_append, append_assoc]
    simp only [(h.thread _).2.2.1]
  freedStacks := by
    rw [h'.freedStacks, h.freedStacks, map_append, append_assoc]
    simp only [(h.thread _).2.2.2]
  nextStackAddr := h'.nextStackAddr.trans h.nextStackAddr
  freeStacks := by
    rw [h'.freeStacks, h.freeStacks, map_append, reverse_append, append_assoc]
    simp only [(h.thread _).2.2.2]

/-- A write to the state of a thread is only that. -/
theorem thread_writeState (x : ThreadState) (u : Nat) :
    (s.writeState t x).thread u = { s.thread u with state := (s.writeState t x).state u } := by
  by_cases hu : u = t
  · subst hu
    rw [state_writeState_self, writeState, thread_modifyThread_self]
  · rw [state_writeState_of_ne x hu]
    exact Function.update_of_ne hu ..

theorem Cleans.releases (h : Cleans t s s') (hp : Placed waiting (.running, s))
    (h0 : t ≠ sleepThread) : Releases [t] s s' := by
  obtain ⟨hct, -, -, hst⟩ := h
  rename_i i system s1
  have hp1 := hp.cleaning system h0 hct
  have hr := hp1.releases hst.moves
  have hth : ∀ u, (s.cleaning t system).thread u =
      { s.thread u with state := (s.writeState t .cleanup).state u } := thread_writeState _
  have hth' : ∀ u, (s1.cleaned t).thread u = { s1.thread u with state := (s1.cleaned t).state u } := thread_writeState _
  -- Threads other than `t` are as the moves leave them.
  have hstate : ∀ u, u ∉ [t] → (s1.cleaned t).state u = s1.state u ∧ (s.cleaning t system).state u = s.state u := by
    intro u hu
    have hne : u ≠ t := fun h => hu (h ▸ mem_singleton_self t)
    rw [state_cleaned, state_cleaning, if_neg hne, if_neg hne]
    exact ⟨rfl, rfl⟩
  have hstack : (s1.thread t).rsp0Start = (s.thread t).rsp0Start := by
    rw [(hr.thread t).2.2.2, hth]
  refine ⟨hr.threadCount, hr.processCount, hr.process, hr.threadList, hr.processList, fun u => ?_,
    fun u => ?_, fun u hu => ?_, fun u hu => ?_, fun u hu hd => ?_, fun u hu hu0 hc => ?_, ?_, ?_,
    hr.nextStackAddr, ?_⟩
  · have hru := hr.thread u
    rw [hth] at hru
    rw [hth']
    exact hru
  · have hru := hr.init u
    rw [hth] at hru
    rw [hth']
    exact hru
  · rw [mem_singleton.mp hu, state_cleaned, if_pos rfl]
  · rw [(hstate u hu).1, hr.dying u not_mem_nil, (hstate u hu).2]
  · rw [← (hstate u hu).2] at hd ⊢
    rw [(hstate u hu).1]
    exact hr.dead u not_mem_nil hd
  · rw [← (hstate u hu).2] at hc
    rw [(hstate u hu).1]
    exact hr.created u not_mem_nil hu0 hc
  · exact hr.freedUserStacks.trans (append_nil _)
  · show s1.freedStacks ++ [(t, (s1.thread t).rsp0Start)] = _
    rw [hr.freedStacks, hstack, map_nil, append_nil]
    rfl
  · show (s1.thread t).rsp0Start :: s1.stackManager.freeStacks = _
    rw [hr.freeStacks, hstack]
    rfl

/-- A round of `CleanupLoop` cleans up the first thread that waits. -/
theorem Sound.releases_thread {threadList : List Nat} (hs : Sound [] s) (ht : s.threadList = t :: threadList)
    (hc : Cleans t { s with threadList } s') : t ∈ s.threadList ∧ Releases [t] { s with threadList } s' := by
  have hmem : t ∈ s.threadList := ht ▸ mem_cons_self
  have hpl : Placed [] (.running, { s with threadList }) := hs.placed.congr
  exact ⟨hmem, hc.releases hpl fun h0 => hs.stable.exits (h0 ▸ hmem)⟩

theorem CleansAll.releases (h : CleansAll s ts s') (hp : Placed waiting (.running, s)) :
    ∃ done, Releases done s s' ∧ done ⊆ ts ∧ done.Nodup ∧ (∀ t ∈ done, s.state t = .cleanup) ∧
      ∀ t ∈ ts, s'.state t ≠ .cleanup := by
  induction h with
  | nil => exact ⟨[], hp.releases .refl, List.Subset.refl _, nodup_nil, by simp, by simp⟩
  | skip _ ht ih =>
    obtain ⟨done, hr, hsub, hnd, hmarked, hnone⟩ := ih
    refine ⟨done, hr, List.Subset.trans hsub (subset_append_left _ _), hnd, hmarked, fun u hu => ?_⟩
    rcases mem_append.mp hu with hu | hu
    · exact hnone u hu
    · rw [mem_singleton.mp hu]
      exact ht
  | clean hall ht hc ih =>
    rename_i ts t s1 s2
    obtain ⟨done, hr, hsub, hnd, hmarked, hnone⟩ := ih
    have hp1 := hp.cleansAll hall
    have hr1 := hc.releases hp1 (hp1.ne_sleepThread ht)
    -- A thread that was cleaned up before is no longer marked.
    have hnot : t ∉ done := by
      intro hmem
      rw [hr.finished t hmem] at ht
      cases ht
    refine ⟨done ++ [t], hr.trans hr1, append_subset.mpr
      ⟨List.Subset.trans hsub (subset_append_left _ _), subset_append_right _ _⟩,
      hnd.append (nodup_singleton t) (disjoint_singleton.mpr hnot), fun u hu => ?_,
      fun u hu => ?_⟩
    · rcases mem_append.mp hu with hu | hu
      · exact hmarked u hu
      · rw [mem_singleton.mp hu]
        have hd : (s.state t).isDying = true := by
          rw [← hr.dying t hnot, ht]
          rfl
        rw [← hr.dead t hnot hd]
        exact ht
    by_cases hut : u = t
    · rw [hut, hr1.finished t (mem_singleton_self t)]
      exact fun h => by cases h
    have hu' : u ∈ ts := (mem_append.mp hu).resolve_right fun h =>
      hut (mem_singleton.mp h)
    intro hx
    have hn : u ∉ [t] := fun h => hut (mem_singleton.mp h)
    have hd : (s1.state u).isDying = true := by
      rw [← hr1.dying u hn, hx]
      rfl
    rw [hr1.dead u hn hd] at hx
    exact hnone u hu' hx

/-! ## Which threads belong to which process -/

/-- **Processes and their threads.** -/
structure Families (s : Tasks) : Prop where
  /-- The sleep thread and the cleanup thread belong to the kernel. -/
  kernel : ∀ t, t ≤ 1 → (s.thread t).process = 0 ∧ (s.thread t).isKernel = true
  /-- Every other thread is one of those that its process holds. -/
  member : ∀ t, 1 < t → t < s.threadCount →
    (s.thread t).process < s.processCount ∧ t ∈ (s.process (s.thread t).process).threads
  /-- A process holds its own threads. -/
  threads : ∀ p, p < s.processCount → ∀ t ∈ (s.process p).threads,
    t < s.threadCount ∧ (s.thread t).process = p

theorem Families.congr (h : s.Families) (hn : s'.threadCount = s.threadCount) (hm : s'.processCount = s.processCount)
    (hp : ∀ p, (s'.process p).threads = (s.process p).threads)
    (ht : ∀ t, (s'.thread t).process = (s.thread t).process ∧ (s'.thread t).isKernel = (s.thread t).isKernel) :
    s'.Families where
  kernel t h1 := by
    rw [(ht t).1, (ht t).2]
    exact h.kernel t h1
  member t h1 htn := by
    rw [(ht t).1, hm, hp]
    exact h.member t h1 (hn ▸ htn)
  threads p hpm t htp := by
    rw [(ht t).1, hn]
    exact h.threads p (hm ▸ hpm) t (hp p ▸ htp)

variable {p : Nat}

theorem Families.one_lt (h : s.Families) (hp : p < s.processCount) (h0 : p ≠ 0)
    (ht : t ∈ (s.process p).threads) : 1 < t := by
  by_contra h1
  have hker := (h.kernel t (not_lt.mp h1)).1
  rw [(h.threads p hp t ht).2] at hker
  exact h0 hker

theorem Families.created {garbage stack cr3 : UInt64} (h : s.Families) (hp : p < s.processCount)
    (hn : 1 < s.threadCount) : (s.created p garbage stack cr3).Families where
  kernel t h1 := by
    rw [thread_created_of_ne (h1.trans_lt hn).ne]
    exact h.kernel t h1
  member t h1 ht := by
    by_cases htc : t = s.threadCount
    · rw [htc, thread_created_self, threads_created, if_pos rfl]
      exact ⟨hp, mem_append_right _ (mem_singleton_self _)⟩
    · have hlt : t < s.threadCount := lt_of_le_of_ne (Nat.le_of_lt_succ ht) htc
      rw [thread_created_of_ne htc, threads_created]
      refine ⟨(h.member t h1 hlt).1, ?_⟩
      split_ifs with hpp
      · exact mem_append_left _ (hpp ▸ (h.member t h1 hlt).2)
      · exact (h.member t h1 hlt).2
  threads q hq t ht := by
    rw [threads_created] at ht
    have hold : t ∈ (s.process q).threads →
        t < s.threadCount + 1 ∧ ((s.created p garbage stack cr3).thread t).process = q := by
      intro ht
      have hlt := (h.threads q hq t ht).1
      rw [thread_created_of_ne hlt.ne]
      exact ⟨Nat.lt_succ_of_lt hlt, (h.threads q hq t ht).2⟩
    split_ifs at ht with hqp
    · rcases mem_append.mp ht with ht | ht
      · exact hold (hqp ▸ ht)
      · rw [mem_singleton.mp ht, thread_created_self]
        exact ⟨Nat.lt_succ_self _, hqp.symm⟩
    · exact hold ht

theorem Families.spawned {i : Nat} {system : System} {heap : KernelHeap PhysicalMemoryManager}
    (h : s.Families) : (s.spawned i system heap).Families where
  kernel := h.kernel
  member t h1 ht := by
    have hmem := h.member t h1 ht
    refine ⟨Nat.lt_succ_of_lt hmem.1, ?_⟩
    rw [process_spawned]
    show t ∈ (if (s.thread t).process = s.processCount then _ else _ : Process).threads
    rw [if_neg hmem.1.ne]
    exact hmem.2
  threads p hp t ht := by
    rw [process_spawned] at ht
    split_ifs at ht with hpc
    · cases ht
    · exact h.threads p (lt_of_le_of_ne (Nat.le_of_lt_succ hp) hpc) t ht

/-! ## Processes that have ended -/

/-- **The threads of a process that has ended do not run**, and the cleanup thread never dies. -/
structure Lives (s : Tasks) : Prop where
  families : s.Families
  alive : (s.state cleanupThread).isDying = false
  /-- The threads that wait for cleanup are dying. -/
  exits : ∀ t ∈ s.threadList, t < s.threadCount ∧ (s.state t).isDying = true
  root : (s.process 0).state = .running
  /-- The processes that wait for cleanup have ended. -/
  leaves : ∀ p ∈ s.processList, p < s.processCount ∧ (s.process p).state ≠ .running
  /-- The processes without an address space have ended. -/
  released : ∀ p, (s.process p).vmas = none → (s.process p).state ≠ .running
  /-- The threads of a process that has ended are dying, or were not started. -/
  ended : ∀ p, p < s.processCount → (s.process p).state ≠ .running →
    ∀ t ∈ (s.process p).threads, (s.state t).isDying = true ∨ s.state t = .created

theorem Lives.current_running (h : s.Lives) (hp : Placed waiting (.running, s))
    (h1 : 1 < s.current) : (s.process (s.thread s.current).process).state = .running := by
  have hmem := h.families.member _ h1 hp.exist
  have h0 : s.current ≠ sleepThread := (Nat.zero_lt_of_lt h1).ne'
  by_contra hend
  rcases h.ended _ hmem.1 hend _ hmem.2 with hd | hc
  · exact absurd hd (ne_true_of_eq_false (hp.running rfl).2.1)
  · exact hp.current_ne_of_created hc h0 rfl

theorem Lives.releases (h : s.Lives) (hr : Releases ts s s')
    (hts : ∀ t ∈ ts, (s.state t).isDying = true) : s'.Lives where
  families := h.families.congr hr.threadCount hr.processCount (fun p => by rw [hr.process])
    fun t => ⟨(hr.thread t).1, (hr.thread t).2.1⟩
  alive := by
    rw [hr.dying _ fun hc => absurd (hts _ hc) (ne_true_of_eq_false h.alive)]
    exact h.alive
  exits t ht := by
    obtain ⟨hn, hd⟩ := h.exits t (hr.threadList ▸ ht)
    refine ⟨hr.threadCount ▸ hn, ?_⟩
    by_cases hmem : t ∈ ts
    · rw [hr.finished t hmem]
      rfl
    · exact (hr.dying t hmem).trans hd
  root := hr.process ▸ h.root
  leaves := by
    rw [hr.processList, hr.processCount, hr.process]
    exact h.leaves
  released := hr.process ▸ h.released
  ended p hp hend t ht := by
    rw [hr.process] at hend ht
    rw [hr.processCount] at hp
    have hp0 : p ≠ 0 := by
      rintro rfl
      exact hend h.root
    have h1 := h.families.one_lt hp hp0 ht
    by_cases hmem : t ∈ ts
    · rw [hr.finished t hmem]
      exact .inl rfl
    · rcases h.ended p hp hend t ht with hd | hc
      · exact .inl ((hr.dying t hmem).trans hd)
      · exact .inr (hr.created t hmem (Nat.zero_lt_of_lt h1).ne' hc)

theorem Lives.congr (h : s.Lives) (hx : s'.threadList ⊆ s.threadList := by exact List.Subset.refl _)
    (hl : s'.processList ⊆ s.processList := by exact List.Subset.refl _)
    (ht : ∀ t, (s'.thread t).process = (s.thread t).process ∧
      (s'.thread t).isKernel = (s.thread t).isKernel := by exact fun _ => ⟨rfl, rfl⟩)
    (hst : ∀ t, s'.state t = s.state t := by intro; rfl) (hp : s'.process = s.process := by rfl)
    (hn : s'.threadCount = s.threadCount := by rfl)
    (hm : s'.processCount = s.processCount := by rfl) : s'.Lives where
  families := h.families.congr hn hm (fun p => by rw [hp]) ht
  alive := by
    rw [hst]
    exact h.alive
  exits t ht := by
    rw [hn, hst]
    exact h.exits t (hx ht)
  root := hp ▸ h.root
  leaves p hpl := by
    rw [hm, hp]
    exact h.leaves p (hl hpl)
  released := hp ▸ h.released
  ended := by
    rw [hm, hp]
    simp only [hst]
    exact h.ended

theorem Lives.modifyThread {f : Thread → Thread} (h : s.Lives)
    (hf : ∀ th, (f th).process = th.process ∧ (f th).isKernel = th.isKernel ∧ (f th).state = th.state) :
    (s.modifyThread t f).Lives := by
  refine h.congr (List.Subset.refl _) (List.Subset.refl _) (fun u => ?_) fun _ => state_modifyThread (hf _).2.2
  rw [thread_modifyThread]
  split_ifs with hu
  · rw [hu]
    exact ⟨(hf _).1, (hf _).2.1⟩
  · exact ⟨rfl, rfl⟩

theorem Lives.started (h : s.Lives) (h1 : 1 < t) (ht : s.state t = .created)
    (hp : (s.process (s.thread t).process).state = .running) : (s.started t).Lives where
  families := h.families.congr rfl rfl (fun _ => rfl) fun u => by
    rw [show (s.started t).thread u = _ from thread_writeState .runnable u]
    exact ⟨rfl, rfl⟩
  alive := by
    rw [state_started, if_neg (show cleanupThread ≠ t from h1.ne)]
    exact h.alive
  exits u hu := by
    obtain ⟨hn, hd⟩ := h.exits u hu
    have hut : u ≠ t := by
      rintro rfl
      rw [ht] at hd
      cases hd
    rw [state_started, if_neg hut]
    exact ⟨hn, hd⟩
  root := h.root
  leaves := h.leaves
  released := h.released
  ended p hpn hend u hu := by
    have hut : u ≠ t := by
      rintro rfl
      rw [(h.families.threads p hpn u hu).2] at hp
      exact hend hp
    rw [state_started, if_neg hut]
    exact h.ended p hpn hend u hu

theorem Lives.created {garbage stack cr3 : UInt64} (h : s.Lives) (hp : p < s.processCount)
    (hn : 1 < s.threadCount) : (s.created p garbage stack cr3).Lives := by
  have hproc : ∀ q, ((s.created p garbage stack cr3).process q).state = (s.process q).state ∧
      ((s.created p garbage stack cr3).process q).vmas = (s.process q).vmas := by
    intro q
    by_cases hq : q = p
    · rw [hq, process_created_self]
      exact ⟨rfl, rfl⟩
    · rw [process_created_of_ne hq]
      exact ⟨rfl, rfl⟩
  refine ⟨h.families.created hp hn, ?_, fun t ht => ?_, (hproc 0).1.trans h.root, fun q hq => ?_,
    fun q hq => ?_, fun q hq hend t ht => ?_⟩
  · rw [state, thread_created_of_ne (show cleanupThread ≠ _ from hn.ne)]
    exact h.alive
  · obtain ⟨hlt, hd⟩ := h.exits t ht
    rw [state, thread_created_of_ne hlt.ne]
    exact ⟨Nat.lt_succ_of_lt hlt, hd⟩
  · rw [(hproc q).1]
    exact h.leaves q hq
  · rw [(hproc q).1]
    exact h.released q ((hproc q).2 ▸ hq)
  rw [(hproc q).1] at hend
  by_cases htc : t = s.threadCount
  · rw [htc, state, thread_created_self]
    exact .inr rfl
  rw [state, thread_created_of_ne htc]
  refine h.ended q hq hend t ?_
  rw [threads_created] at ht
  split_ifs at ht with hqp
  · rcases mem_append.mp ht with ht | ht
    · exact hqp ▸ ht
    · exact absurd (mem_singleton.mp ht) htc
  · exact ht

theorem Lives.spawned {i : Nat} {system : System} {heap : KernelHeap PhysicalMemoryManager}
    (h : s.Lives) (hn : 0 < s.processCount) : (s.spawned i system heap).Lives := by
  refine ⟨h.families.spawned, h.alive, h.exits, ?_, fun p hp => ?_, fun p hp => ?_, fun p hp hend t ht => ?_⟩
  · rw [process_spawned, if_neg hn.ne]
    exact h.root
  · have hlt := (h.leaves p hp).1
    rw [process_spawned, if_neg hlt.ne]
    exact ⟨Nat.lt_succ_of_lt hlt, (h.leaves p hp).2⟩
  · rw [process_spawned] at hp ⊢
    split at hp
    · cases hp
    · rename_i hpc
      rw [if_neg hpc]
      exact h.released p hp
  · rw [process_spawned] at hend ht
    split at ht
    · cases ht
    · rename_i hpc
      rw [if_neg hpc] at hend
      exact h.ended p (lt_of_le_of_ne (Nat.le_of_lt_succ hp) hpc) hend t ht

theorem Lives.leave {x : Process} (h : s.Lives) (h0 : p ≠ 0) (hp : ∀ q, s'.process q = if q = p then x else s.process q)
    (hx : x.state ≠ .running) (hxt : x.threads = (s.process p).threads) (hn : s'.threadCount = s.threadCount)
    (hm : s'.processCount = s.processCount)
    (ht : ∀ t, (s'.thread t).process = (s.thread t).process ∧ (s'.thread t).isKernel = (s.thread t).isKernel)
    (hst : ∀ t, s'.state t = s.state t ∨ (s'.state t).isDying = true)
    (hend : ∀ t ∈ (s.process p).threads, (s'.state t).isDying = true ∨ s'.state t = .created)
    (hc : s'.state cleanupThread = s.state cleanupThread) (hl : s'.threadList = s.threadList)
    (hpl : ∀ q ∈ s'.processList, q ∈ s.processList ∨ q = p ∧ p < s.processCount) : s'.Lives where
  families := by
    refine h.families.congr hn hm (fun q => ?_) ht
    rw [hp]
    split_ifs with hq
    · rw [hxt, hq]
    · rfl
  alive := by
    rw [hc]
    exact h.alive
  exits t htl := by
    obtain ⟨hlt, hd⟩ := h.exits t (hl ▸ htl)
    refine ⟨hn ▸ hlt, ?_⟩
    rcases hst t with hst | hst
    · exact hst.symm ▸ hd
    · exact hst
  root := by
    rw [hp, if_neg h0.symm]
    exact h.root
  leaves q hq := by
    rw [hm, hp]
    rcases hpl q hq with hq | ⟨rfl, hlt⟩
    · refine ⟨(h.leaves q hq).1, ?_⟩
      split
      · exact hx
      · exact (h.leaves q hq).2
    · rw [if_pos rfl]
      exact ⟨hlt, hx⟩
  released q hq := by
    rw [hp] at hq ⊢
    split_ifs with hqp
    · exact hx
    · rw [if_neg hqp] at hq
      exact h.released q hq
  ended q hq hqe t htq := by
    rw [hp] at hqe htq
    rw [hm] at hq
    split_ifs at htq with hqp
    · exact hend t (hxt ▸ htq)
    rw [if_neg hqp] at hqe
    rcases h.ended q hq hqe t htq with hd | hcr
    · rcases hst t with hst | hst
      · exact .inl (hst.symm ▸ hd)
      · exact .inl hst
    · rcases hst t with hst | hst
      · exact .inr (hst.trans hcr)
      · exact .inl hst

theorem Lives.exited (h : s.Lives) (hc : s.current < s.threadCount) (h1 : s.current ≠ cleanupThread) :
    s.exited.Lives where
  families := h.families.congr rfl rfl (fun _ => rfl) fun u => by
    rw [show s.exited.thread u = _ from thread_writeState .cleanup u]
    exact ⟨rfl, rfl⟩
  alive := by
    rw [state_exited, if_neg h1.symm]
    exact h.alive
  exits t ht := by
    rw [state_exited]
    rcases mem_append.mp ht with ht | ht
    · refine ⟨(h.exits t ht).1, ?_⟩
      split
      · rfl
      · exact (h.exits t ht).2
    · rw [mem_singleton.mp ht, if_pos rfl]
      exact ⟨hc, rfl⟩
  root := h.root
  leaves := h.leaves
  released := h.released
  ended p hp hend t ht := by
    rw [state_exited]
    split
    · exact .inl rfl
    · exact h.ended p hp hend t ht

theorem Lives.processExited {exitCode : UInt64} (h : s.Lives) (hp : p < s.processCount)
    (h0 : p ≠ 0) : (s.processExited p exitCode).Lives := by
  refine h.leave (x := { s.process p with state := .cleanup, exitCode }) h0 process_processExited
    (by simp) rfl rfl rfl (fun t => ?_) (fun t => ?_) (fun t ht => .inl ?_) ?_ rfl fun q hq => ?_
  · show (markedThreads s.thread (s.process p).threads t).process = _ ∧
      (markedThreads s.thread (s.process p).threads t).isKernel = _
    unfold markedThreads
    split <;> exact ⟨rfl, rfl⟩
  · rw [state_processExited]
    split
    · exact .inr rfl
    · exact .inl rfl
  · rw [state_processExited]
    split_ifs with hd
    · rfl
    · rw [not_and] at hd
      exact (Bool.not_eq_false _).mp (hd ht)
  · rw [state_processExited, if_neg]
    rintro ⟨hc, -⟩
    exact absurd (h.families.one_lt hp h0 hc) (lt_irrefl 1)
  · rcases mem_append.mp hq with hq | hq
    · exact .inl hq
    · exact .inr ⟨mem_singleton.mp hq, hp⟩

theorem Lives.cleansProcess (h : s.Lives) (hpl : Placed waiting (.running, s)) (hp : p < s.processCount)
    (hend : (s.process p).state ≠ .running) (hc : CleansProcess p s s') : s'.Lives := by
  obtain ⟨-, hall, -, -, -⟩ := hc
  rename_i s1 removed caps i system
  have h0 : p ≠ 0 := by
    rintro rfl
    exact hend h.root
  have h1 : (s.processCleaning p).Lives := by
    refine h.leave (x := { s.process p with state := .cleanup }) h0 process_modifyProcess (by simp) rfl
      rfl rfl (fun _ => ⟨rfl, rfl⟩) (fun _ => .inl rfl) (h.ended p hp hend) rfl rfl fun _ => .inl
  have hpl1 : Placed waiting (.running, s.processCleaning p) := hpl.congr
  obtain ⟨done, hr, -, -, hmarked, -⟩ := hall.releases hpl1
  have h2 := h1.releases hr fun t ht => by rw [hmarked t ht]; rfl
  have hp2 : p < s1.processCount := hr.processCount ▸ hp
  have hend2 : (s1.process p).state ≠ .running := by
    rw [hr.process, processCleaning, process_modifyProcess_self]
    simp
  exact h2.leave h0 process_processFinished (by simp) rfl rfl rfl (fun _ => ⟨rfl, rfl⟩)
    (fun _ => .inl rfl) (h2.ended p hp2 hend2) rfl rfl fun _ => .inl

/-! ## Runs -/

/-- A thread is started only while it is `CREATED` and its process has not ended. -/
def StartsRunning (s : Tasks) (e : Event) : Prop :=
  ∀ t ∈ e.started, s.state t = .created ∧ (s.process (s.thread t).process).state = .running

instance (s : Tasks) (e : Event) : Decidable (s.StartsRunning e) :=
  inferInstanceAs (Decidable (∀ t ∈ e.started, _ ∧ _))

theorem StartsRunning.created {e : Event} (h : s.StartsRunning e) : s.StartsCreated e :=
  fun t ht => (h t ht).1

theorem one_lt_of_possible {op : Operation} {uses : List HeapRequest}
    (h : s.Possible (.call op uses)) : 1 < s.current := by
  have h0 : s.current ≠ 0 := h.1
  have h1 : s.current ≠ 1 := h.2.1
  omega

/-- **One step** in which a thread is started only while its process has not ended. -/
theorem Lives.step {e : Event} (h : s.Lives) (hs : Sound [] s) (hok : s.StartsRunning e)
    (hstep : s.step e = some s') : s'.Lives := by
  have hp := possible_of_step hstep
  have hpl := hs.placed
  obtain ⟨heff, -⟩ := step_effect hs.steady hstep
  cases heff with
  | moves hm => exact h.releases (hpl.releases hm) (by simp)
  | @start t _ machine heap =>
    have h1 : (s.withHeap machine heap).Lives := h.congr
    exact h1.started (Nat.lt_of_succ_lt hp.2.2.2.1) (hok t rfl).1 (hok t rfl).2
  | @create _ _ _ _ _ _ _ s1 hi hstack =>
    have h1 : s1.Lives := by
      rw [hstack.eq]
      exact h.congr
    have hcount : s1.processCount = s.processCount ∧ s1.threadCount = s.threadCount := by
      rw [hstack.eq]
      exact ⟨rfl, rfl⟩
    refine h1.created (hcount.1 ▸ hp.2.2.2.2) ?_
    rw [hcount.2]
    exact Nat.lt_of_succ_lt hs.stable.count
  | spawn =>
    exact h.spawned (Nat.zero_lt_of_lt (h.families.member _ (one_lt_of_possible hp) hpl.exist).1)
  | @init _ _ _ system htodo hi hx =>
    have h1 : ({ s with system } : Tasks).Lives :=
      h.congr
    rw [initialised_modifyThread]
    exact h1.modifyThread fun _ => ⟨rfl, rfl, rfl⟩
  | initKernel htodo hk => exact h.modifyThread fun _ => ⟨rfl, rfl, rfl⟩
  | exit hm =>
    have h1 := h.exited hpl.exist hp.2.1
    exact h1.releases ((hpl.exited hp.1).releases hm) (by simp)
  | @processExit exitCode _ _ hm =>
    have hmem := h.families.member _ (one_lt_of_possible hp) hpl.exist
    have h1 : (s.processExited (s.thread s.current).process exitCode).Lives :=
      h.processExited hmem.1 (hs.stable.process_ne_zero hp.1 hp.2.1)
    exact h1.releases ((hs.placed_processExited hp.1 hp.2.1 _).releases hm) (by simp)
  | @cleanThread t threadList _ hl ht hc =>
    obtain ⟨hmem, hr⟩ := hs.releases_thread ht hc
    have h1 : ({ s with threadList } : Tasks).Lives :=
      h.congr (ht ▸ subset_cons_self _ _)
    refine h1.releases hr fun u hu => ?_
    rw [mem_singleton.mp hu]
    exact (h.exits t hmem).2
  | @cleanProcess p processList _ hl hlist hc =>
    have h1 : ({ s with processList } : Tasks).Lives :=
      h.congr (List.Subset.refl _) (hlist ▸ subset_cons_self _ _)
    have hpl1 : Placed [] (.running, { s with processList }) := hpl.congr
    have hleaves := h.leaves p (hlist ▸ mem_cons_self)
    exact h1.cleansProcess hpl1 hleaves.1 hleaves.2 hc

end Acadia.Zion.Tasks
