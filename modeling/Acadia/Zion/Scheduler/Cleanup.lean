import Acadia.Zion.Scheduler.Calls

/-! # What cleanup releases

A thread that exits waits for cleanup on `thread_list_`, and the threads of a process that exits wait with it on
`process_list_`. `CleanupLoop` takes the processes first, so a thread that is reached through both is released once
more, through an address space that is gone. A thread that has not run `Init` when its process exits has no user
stack, and an arbitrary address is freed in its place. In the runs without these two, every thread is released once
(`run_released_once`). -/

namespace Acadia.Zion.Tasks

open Command Glacier Relation List

variable {s s' : Tasks} {t : Nat} {waiting : List Nat}

/-! ## Threads that wait for cleanup -/

/-- **Every thread is released at most once**, and those that are to be released are not forgotten. -/
structure Once (s : Tasks) : Prop where
  /-- The threads that wait are marked, and their processes have their address spaces. -/
  threads : s.threadList.Nodup ∧ ∀ t ∈ s.threadList, s.state t = .cleanup ∧
    (s.process (s.thread t).process).vmas ≠ none
  /-- So have the processes that wait. -/
  processes : s.processList.Nodup ∧ ∀ p ∈ s.processList, (s.process p).vmas ≠ none
  /-- A thread that is marked waits, or its process does. -/
  pending : ∀ t, t < s.threadCount → s.state t = .cleanup →
    t ∈ s.threadList ∨ (s.thread t).process ∈ s.processList
  /-- A thread that is dying has run `Init`. -/
  initialised : ∀ t, t < s.threadCount → (s.state t).isDying = true → .init ∉ (s.thread t).todo
  freed : (s.freedStacks.map Prod.fst).Nodup
  finished : ∀ t, t ∈ s.freedStacks.map Prod.fst ↔ t < s.threadCount ∧ s.state t = .finished
  /-- What was given back are the stacks of the threads. -/
  kernel : ∀ x ∈ s.freedStacks, x.2 = (s.thread x.1).rsp0Start
  user : s.freedUserStacks = s.freedStacks.map fun x => (x.1, (s.thread x.1).userStackBase)

variable {ts : List Nat}

theorem Releases.state_eq_iff (h : Releases ts s s') (ht : t ∉ ts) {x : ThreadState}
    (hx : x.isDying = true) : s'.state t = x ↔ s.state t = x := by
  constructor
  · intro hs
    have hd : (s.state t).isDying = true := by
      rw [← h.dying t ht, hs]
      exact hx
    exact (h.dead t ht hd).symm.trans hs
  · intro hs
    exact (h.dead t ht (hs.symm ▸ hx)).trans hs

theorem Once.releases {s0 : Tasks} (h : s.Once) (hr : Releases ts s0 s')
    (hn : s0.threadCount = s.threadCount) (hth : s0.thread = s.thread)
    (hv : ∀ p, (s0.process p).vmas = (s.process p).vmas)
    (hu : s0.freedUserStacks = s.freedUserStacks) (hf : s0.freedStacks = s.freedStacks)
    (hl : s0.threadList.Sublist s.threadList) (hpl : s0.processList.Sublist s.processList)
    (hnd : ts.Nodup) (hts : ∀ t ∈ ts, t < s.threadCount ∧ s.state t = .cleanup ∧ t ∉ s0.threadList)
    (hpend : ∀ t, t < s.threadCount → t ∉ ts → s.state t = .cleanup →
      t ∈ s0.threadList ∨ (s.thread t).process ∈ s0.processList) : s'.Once := by
  have hst : ∀ u, s0.state u = s.state u := fun u => by rw [state, hth]; rfl
  have hfields : ∀ u, (s'.thread u).process = (s.thread u).process ∧
      (s'.thread u).userStackBase = (s.thread u).userStackBase ∧
      (s'.thread u).rsp0Start = (s.thread u).rsp0Start := by
    intro u
    rw [← hth]
    exact ⟨(hr.thread u).1, (hr.thread u).2.2⟩
  have hiff : ∀ {u x}, u ∉ ts → x.isDying = true → (s'.state u = x ↔ s.state u = x) := by
    intro u x hu hx
    rw [hr.state_eq_iff hu hx, hst]
  have hmap : s'.freedStacks.map Prod.fst = s.freedStacks.map Prod.fst ++ ts := by
    rw [hr.freedStacks, hf, List.map_append, List.map_map]
    exact congrArg _ (map_id ts)
  refine ⟨⟨?_, fun u hu => ?_⟩, ⟨?_, fun p hp => ?_⟩, fun u hn' hc => ?_, fun u hn' hd => ?_, ?_,
    fun u => ?_, fun x hx => ?_, ?_⟩
  · rw [hr.threadList]
    exact h.threads.1.sublist hl
  · rw [hr.threadList] at hu
    have hold := h.threads.2 u (hl.subset hu)
    have hnot : u ∉ ts := fun hmem => (hts u hmem).2.2 hu
    rw [hiff hnot rfl, (hfields u).1, hr.process, hv]
    exact hold
  · rw [hr.processList]
    exact h.processes.1.sublist hpl
  · rw [hr.processList] at hp
    rw [hr.process, hv]
    exact h.processes.2 p (hpl.subset hp)
  · have hnot : u ∉ ts := by
      intro hmem
      rw [hr.finished u hmem] at hc
      cases hc
    rw [hr.threadCount, hn] at hn'
    rw [hr.threadList, hr.processList, (hfields u).1]
    exact hpend u hn' hnot ((hiff hnot rfl).mp hc)
  · rw [hr.threadCount, hn] at hn'
    rw [hr.init, hth]
    refine h.initialised u hn' ?_
    by_cases hmem : u ∈ ts
    · rw [(hts u hmem).2.1]
      rfl
    · rw [← hst, ← hr.dying u hmem]
      exact hd
  · rw [hmap]
    refine h.freed.append hnd fun u hu hmem => ?_
    have hfin := ((h.finished u).mp hu).2
    rw [(hts u hmem).2.1] at hfin
    cases hfin
  · rw [hmap, mem_append, h.finished, hr.threadCount, hn]
    by_cases hmem : u ∈ ts
    · exact iff_of_true (.inr hmem) ⟨(hts u hmem).1, hr.finished u hmem⟩
    · rw [hiff hmem rfl]
      exact or_iff_left hmem
  · rw [hr.freedStacks, hf] at hx
    rw [(hfields x.1).2.2]
    rcases mem_append.mp hx with hx | hx
    · exact h.kernel x hx
    · obtain ⟨u, -, rfl⟩ := mem_map.mp hx
      rw [hth]
  · rw [hr.freedUserStacks, hu, h.user, hr.freedStacks, hf, List.map_append, List.map_map]
    simp only [(hfields _).2.1, hth]
    rfl

theorem Once.moves {x y : Phase × Tasks} (h : x.2.Once) (hp : Placed waiting x) (hm : Moves x y) : y.2.Once :=
  h.releases (hp.releases hm) rfl rfl (fun _ => rfl) rfl rfl (List.Sublist.refl _)
    (List.Sublist.refl _) nodup_nil (by simp) fun t hn _ hc => h.pending t hn hc

theorem Once.congr (h : s.Once)
    (hv : ∀ p, (s.process p).vmas ≠ none → (s'.process p).vmas ≠ none := by exact fun _ => id)
    (hst : ∀ t, s'.state t = s.state t ∨
      (s.state t).isDying = false ∧ (s'.state t).isDying = false := by exact fun _ => .inl rfl)
    (hth : ∀ t, (s'.thread t).process = (s.thread t).process ∧
      (s'.thread t).rsp0Start = (s.thread t).rsp0Start := by exact fun _ => ⟨rfl, rfl⟩)
    (hdead : ∀ t, (s.state t).isDying = true → (s'.thread t).userStackBase = (s.thread t).userStackBase ∧
      (.init ∈ (s'.thread t).todo → .init ∈ (s.thread t).todo) := by exact fun _ _ => ⟨rfl, id⟩)
    (hn : s'.threadCount = s.threadCount := by rfl) (hl : s'.threadList = s.threadList := by rfl)
    (hpl : s'.processList = s.processList := by rfl)
    (hu : s'.freedUserStacks = s.freedUserStacks := by rfl)
    (hf : s'.freedStacks = s.freedStacks := by rfl) : s'.Once := by
  have hiff : ∀ {u x}, x.isDying = true → (s'.state u = x ↔ s.state u = x) := by
    intro u x hx
    rcases hst u with hu | ⟨hd, hd'⟩
    · rw [hu]
    · refine iff_of_false (fun h => ?_) fun h => ?_
      · rw [h, hx] at hd'
        cases hd'
      · rw [h, hx] at hd
        cases hd
  have hdy : ∀ u, (s'.state u).isDying = (s.state u).isDying := by
    intro u
    rcases hst u with hu | ⟨hd, hd'⟩
    · rw [hu]
    · rw [hd, hd']
  refine ⟨⟨hl ▸ h.threads.1, fun u hu' => ?_⟩, ⟨hpl ▸ h.processes.1, fun p hp => ?_⟩,
    fun u hn' hc => ?_, fun u hn' hd => ?_, hf ▸ h.freed, fun u => ?_, fun x hx => ?_, ?_⟩
  · rw [hl] at hu'
    rw [hiff rfl, (hth u).1]
    exact ⟨(h.threads.2 u hu').1, hv _ (h.threads.2 u hu').2⟩
  · exact hv p (h.processes.2 p (hpl ▸ hp))
  · rw [hl, hpl, (hth u).1]
    exact h.pending u (hn ▸ hn') ((hiff rfl).mp hc)
  · rw [hdy] at hd
    exact fun hi => h.initialised u (hn ▸ hn') hd ((hdead u hd).2 hi)
  · rw [hf, hn, hiff rfl]
    exact h.finished u
  · rw [(hth x.1).2]
    exact h.kernel x (hf ▸ hx)
  · rw [hu, hf, h.user]
    refine map_congr_left fun x hx => ?_
    have hfin := ((h.finished x.1).mp (mem_map_of_mem hx)).2
    rw [(hdead x.1 (by rw [hfin]; rfl)).1]

variable {p : Nat} {stack : UInt64}

theorem Once.created {garbage cr3 : UInt64} (h : s.Once) (hl : s.Lives) : (s.created p garbage stack cr3).Once := by
  have hold : ∀ {u}, u < s.threadCount →
      (s.created p garbage stack cr3).thread u = s.thread u := fun hu => thread_created_of_ne hu.ne
  have hnew : ∀ {u}, u < s.threadCount + 1 →
      ((s.created p garbage stack cr3).state u).isDying = true → u < s.threadCount := by
    intro u hu hd
    refine lt_of_le_of_ne (Nat.le_of_lt_succ hu) fun huc => ?_
    rw [huc, state, thread_created_self] at hd
    cases hd
  have hv : ∀ q, ((s.created p garbage stack cr3).process q).vmas = (s.process q).vmas := by
    intro q
    by_cases hq : q = p
    · rw [hq, process_created_self]
    · rw [process_created_of_ne hq]
  refine ⟨⟨h.threads.1, fun u hu => ?_⟩, ⟨h.processes.1, fun q hq => ?_⟩, fun u hn hc => ?_,
    fun u hn hd => ?_, h.freed, fun u => ?_, fun x hx => ?_, ?_⟩
  · rw [state, hold (hl.exits u hu).1, hv]
    exact h.threads.2 u hu
  · rw [hv]
    exact h.processes.2 q hq
  · have hlt := hnew hn (by rw [hc]; rfl)
    rw [state, hold hlt] at hc
    rw [hold hlt]
    exact h.pending u hlt hc
  · have hlt := hnew hn hd
    rw [state, hold hlt] at hd
    rw [hold hlt]
    exact h.initialised u hlt hd
  · refine (h.finished u).trans ⟨?_, ?_⟩
    · rintro ⟨hlt, hfin⟩
      rw [state, hold hlt]
      exact ⟨Nat.lt_succ_of_lt hlt, hfin⟩
    · rintro ⟨hn, hfin⟩
      have hlt := hnew hn (by rw [hfin]; rfl)
      rw [state, hold hlt] at hfin
      exact ⟨hlt, hfin⟩
  · rw [hold ((h.finished x.1).mp (mem_map_of_mem hx)).1]
    exact h.kernel x hx
  · refine h.user.trans (map_congr_left fun x hx => ?_)
    rw [hold ((h.finished x.1).mp (mem_map_of_mem hx)).1]

theorem Once.exited (h : s.Once) (hl : s.Lives) (hp : Placed waiting (.running, s))
    (h1 : 1 < s.current) (htodo : (s.thread s.current).todo = []) : s.exited.Once := by
  have halive := (hp.running rfl).2.1
  have hth : ∀ u, s.exited.thread u = { s.thread u with state := s.exited.state u } :=
    thread_writeState .cleanup
  have hvmas : (s.process (s.thread s.current).process).vmas ≠ none := fun hv =>
    hl.released _ hv (hl.current_running hp h1)
  have hnot : s.current ∉ s.threadList := by
    intro hmem
    have hd := (hl.exits _ hmem).2
    rw [halive] at hd
    cases hd
  refine ⟨⟨?_, fun u hu => ?_⟩, h.processes, fun u hn hc => ?_, fun u hn hd => ?_, h.freed, fun u => ?_,
    fun x hx => ?_, ?_⟩
  · exact h.threads.1.append (nodup_singleton _) (disjoint_singleton.mpr hnot)
  · rw [hth, state_exited]
    rcases mem_append.mp hu with hu | hu
    · refine ⟨?_, (h.threads.2 u hu).2⟩
      split
      · rfl
      · exact (h.threads.2 u hu).1
    · rw [mem_singleton.mp hu, if_pos rfl]
      exact ⟨rfl, hvmas⟩
  · rw [hth]
    by_cases hu : u = s.current
    · exact .inl (mem_append_right _ (mem_singleton.mpr hu))
    · rw [state_exited, if_neg hu] at hc
      exact (h.pending u hn hc).imp (mem_append_left _) id
  · rw [hth]
    by_cases hu : u = s.current
    · show .init ∉ (s.thread u).todo
      rw [hu, htodo]
      exact not_mem_nil
    · rw [state_exited, if_neg hu] at hd
      exact h.initialised u hn hd
  · rw [state_exited]
    split_ifs with hu
    · refine (h.finished u).trans (iff_of_false (fun hfin => ?_) fun hfin => ?_)
      · rw [hu] at hfin
        rw [show s.state s.current = .finished from hfin.2] at halive
        cases halive
      · cases hfin.2
    · exact h.finished u
  · rw [hth]
    exact h.kernel x hx
  · simp only [hth]
    exact h.user

theorem Once.processExited {exitCode : UInt64} (h : s.Once) (hl : s.Lives) (hp : p < s.processCount)
    (hrun : (s.process p).state = .running)
    (hinit : ∀ t ∈ (s.process p).threads, (s.state t).isDying = false → .init ∉ (s.thread t).todo) :
    (s.processExited p exitCode).Once := by
  have hth := thread_processExited (s := s) (p := p) exitCode
  have hv : ∀ q, ((s.processExited p exitCode).process q).vmas = (s.process q).vmas := by
    intro q
    rw [process_processExited]
    split_ifs with hq
    · rw [hq]
    · rfl
  -- The threads that were dying are as before.
  have hdead : ∀ u, (s.state u).isDying = true → (s.processExited p exitCode).state u = s.state u := by
    intro u hd
    rw [state_processExited, if_neg]
    rintro ⟨-, halive⟩
    rw [hd] at halive
    cases halive
  refine ⟨⟨h.threads.1, fun u hu => ?_⟩, ⟨?_, fun q hq => ?_⟩, fun u hn hc => ?_, fun u hn hd => ?_,
    h.freed, fun u => ?_, fun x hx => ?_, ?_⟩
  · obtain ⟨hc, hvmas⟩ := h.threads.2 u hu
    rw [hth, hdead u (by rw [hc]; rfl), hv]
    exact ⟨hc, hvmas⟩
  · refine h.processes.1.append (nodup_singleton _) (disjoint_singleton.mpr fun hmem => ?_)
    exact (hl.leaves p hmem).2 hrun
  · rw [hv]
    rcases mem_append.mp hq with hq | hq
    · exact h.processes.2 q hq
    · rw [mem_singleton.mp hq]
      exact fun hvmas => hl.released p hvmas hrun
  · rw [hth]
    rw [state_processExited] at hc
    split_ifs at hc with hm
    · refine .inr (mem_append_right _ (mem_singleton.mpr ?_))
      exact (hl.families.threads p hp u hm.1).2
    · exact (h.pending u hn hc).imp id (mem_append_left _)
  · rw [hth]
    rw [state_processExited] at hd
    split_ifs at hd with hm
    · exact hinit u hm.1 hm.2
    · exact h.initialised u hn hd
  · rw [state_processExited]
    split_ifs with hm
    · refine (h.finished u).trans (iff_of_false (fun hfin => ?_) fun hfin => ?_)
      · rw [hfin.2] at hm
        cases hm.2
      · cases hfin.2
    · exact h.finished u
  · rw [hth]
    exact h.kernel x hx
  · simp only [hth]
    exact h.user

/-- A process that does not wait any more, with none of its threads waiting, loses its address
space. -/
theorem Once.processFinished {caps : CapabilityTable} {system : System} (h : s.Once) (hp : p ∉ s.processList)
    (ht : ∀ t ∈ s.threadList, (s.thread t).process ≠ p) : (s.processFinished p caps system).Once := by
  have hv : ∀ q, q ≠ p → ((s.processFinished p caps system).process q).vmas = (s.process q).vmas := by
    intro q hq
    rw [process_processFinished, if_neg hq]
  refine ⟨⟨h.threads.1, fun u hu => ⟨(h.threads.2 u hu).1, ?_⟩⟩, ⟨h.processes.1, fun q hq => ?_⟩,
    h.pending, h.initialised, h.freed, h.finished, h.kernel, h.user⟩
  · show ((s.processFinished p caps system).process (s.thread u).process).vmas ≠ none
    rw [hv _ (ht u hu)]
    exact (h.threads.2 u hu).2
  · rw [hv q (by rintro rfl; exact hp hq)]
    exact h.processes.2 q hq

theorem Once.cleansProcess {processList : List Nat} (h : s.Once) (hl : s.Lives) (hpl : Placed waiting (.running, s))
    (hlist : s.processList = p :: processList) (ht : ∀ t ∈ (s.process p).threads, t ∉ s.threadList)
    (hc : CleansProcess p { s with processList } s') : s'.Once := by
  obtain ⟨-, hall, -, -, -⟩ := hc
  rename_i s1 removed caps i system
  have hmemp : p ∈ s.processList := hlist ▸ mem_cons_self
  obtain ⟨hp, hend⟩ := hl.leaves p hmemp
  have h0 : p ≠ 0 := by
    rintro rfl
    exact hend hl.root
  obtain ⟨s0, hs0⟩ : ∃ s0, s0 = ({ s with processList } : Tasks).processCleaning p := ⟨_, rfl⟩
  have hpl0 : Placed waiting (.running, s0) := by
    rw [hs0]
    exact hpl.congr
  have hv : ∀ q, (s0.process q).vmas = (s.process q).vmas := by
    intro q
    rw [hs0, processCleaning, process_modifyProcess]
    split_ifs with hq
    · rw [hq]
    · rfl
  have hth : s0.thread = s.thread ∧ s0.threadList = s.threadList ∧ s0.processList = processList ∧
      s0.threadCount = s.threadCount := by
    rw [hs0]
    exact ⟨rfl, rfl, rfl, rfl⟩
  rw [← hs0] at hall
  obtain ⟨done, hr, hsub, hnd, hmarked, hnone⟩ := hall.releases hpl0
  have hnot : p ∉ processList := by
    have hnd := h.processes.1
    rw [hlist] at hnd
    exact (nodup_cons.mp hnd).1
  have hst : ∀ u, s0.state u = s.state u := fun u => by rw [state, hth.1]; rfl
  have hmemt : ∀ u, u < s.threadCount → (s.thread u).process = p → u ∈ (s.process p).threads := by
    intro u hn hu
    have h1 : 1 < u := by
      by_contra h1
      exact h0 (hu.symm.trans (hl.families.kernel u (not_lt.mp h1)).1)
    exact hu ▸ (hl.families.member u h1 hn).2
  have h₁ : s1.Once := by
    refine h.releases hr hth.2.2.2 hth.1 hv (by rw [hs0]; rfl) (by rw [hs0]; rfl) ?_ ?_ hnd
      (fun u hu => ?_) fun u hn hu hc => ?_
    · rw [hth.2.1]
    · rw [hth.2.2.1, hlist]
      exact sublist_cons_self _ _
    · rw [hth.2.1, ← hst]
      exact ⟨(hl.families.threads p hp u (hsub hu)).1, hmarked u hu, ht u (hsub hu)⟩
    rw [hth.2.1, hth.2.2.1]
    rcases h.pending u hn hc with hmem | hmem
    · exact .inl hmem
    · rw [hlist] at hmem
      rcases mem_cons.mp hmem with hup | hmem
      · -- Every marked thread of the process has been cleaned up.
        refine absurd ?_ (hnone u (hmemt u hn hup))
        exact (hr.state_eq_iff hu rfl).mpr ((hst u).trans hc)
      · exact .inr hmem
  refine h₁.processFinished ?_ fun u hu hup => ?_
  · rw [hr.processList, hth.2.2.1]
    exact hnot
  · rw [hr.threadList, hth.2.1] at hu
    rw [(hr.thread u).1, hth.1] at hup
    exact ht u (hmemt u (hl.exits u hu).1 hup) hu

/-! ## Kernel stacks -/

/-- **No two threads that are not finished have one kernel stack**, and none of their stacks is free. -/
structure StacksHeld (s : Tasks) : Prop where
  bound : s.stackManager.nextStackAddr ≤ kKernelStackEnd
  free : s.stackManager.freeStacks.Nodup ∧
    ∀ a ∈ s.stackManager.freeStacks, a < s.stackManager.nextStackAddr
  held : ∀ t, t < s.threadCount → s.state t ≠ .finished →
    (s.thread t).rsp0Start < s.stackManager.nextStackAddr ∧
      (s.thread t).rsp0Start ∉ s.stackManager.freeStacks
  distinct : ∀ t u, t < s.threadCount → u < s.threadCount → s.state t ≠ .finished →
    s.state u ≠ .finished → (s.thread t).rsp0Start = (s.thread u).rsp0Start → t = u

theorem StacksHeld.congr (h : s.StacksHeld)
    (hth : ∀ t, (s'.thread t).rsp0Start = (s.thread t).rsp0Start := by intro; rfl)
    (hst : ∀ t, s.state t = .finished → s'.state t = .finished := by exact fun _ => id)
    (hm : s'.stackManager = s.stackManager := by rfl)
    (hn : s'.threadCount = s.threadCount := by rfl) : s'.StacksHeld where
  bound := hm ▸ h.bound
  free := hm ▸ h.free
  held t ht hlive := by
    rw [hm, hth]
    exact h.held t (hn ▸ ht) fun hf => hlive (hst t hf)
  distinct t u ht hu htl hul := by
    rw [hth, hth]
    exact h.distinct t u (hn ▸ ht) (hn ▸ hu) (fun hf => htl (hst t hf)) fun hf => hul (hst u hf)

theorem StacksHeld.releases (h : s.StacksHeld) (hr : Releases ts s s') (hnd : ts.Nodup)
    (hts : ∀ t ∈ ts, t < s.threadCount ∧ s.state t ≠ .finished) : s'.StacksHeld := by
  have hlive : ∀ {u}, s'.state u ≠ .finished → u ∉ ts ∧ s.state u ≠ .finished := by
    intro u hu
    have hnot : u ∉ ts := fun hmem => hu (hr.finished u hmem)
    exact ⟨hnot, fun hf => hu ((hr.state_eq_iff hnot rfl).mpr hf)⟩
  -- The stacks that are given back are those of different threads.
  have hinj : ∀ t ∈ ts, ∀ u ∈ ts, (s.thread t).rsp0Start = (s.thread u).rsp0Start → t = u :=
    fun t ht u hu => h.distinct t u (hts t ht).1 (hts u hu).1 (hts t ht).2 (hts u hu).2
  refine ⟨hr.nextStackAddr ▸ h.bound, ⟨?_, fun a ha => ?_⟩, fun u hn hu => ?_, fun u v hun hvn hu hv heq => ?_⟩
  · rw [hr.freeStacks]
    refine (nodup_reverse.mpr (hnd.map_on hinj)).append h.free.1 fun a ha => ?_
    rw [mem_reverse, mem_map] at ha
    obtain ⟨t, ht, rfl⟩ := ha
    exact (h.held t (hts t ht).1 (hts t ht).2).2
  · rw [hr.nextStackAddr]
    rw [hr.freeStacks, mem_append, mem_reverse, mem_map] at ha
    rcases ha with ⟨t, ht, rfl⟩ | ha
    · exact (h.held t (hts t ht).1 (hts t ht).2).1
    · exact h.free.2 a ha
  · rw [hr.threadCount] at hn
    have hold := h.held u hn (hlive hu).2
    rw [hr.nextStackAddr, (hr.thread u).2.2.2, hr.freeStacks, mem_append, mem_reverse, mem_map]
    refine ⟨hold.1, not_or.mpr ⟨fun ⟨t, ht, heq⟩ => ?_, hold.2⟩⟩
    have htu := h.distinct t u (hts t ht).1 hn (hts t ht).2 (hlive hu).2 heq
    exact (hlive hu).1 (htu ▸ ht)
  · rw [hr.threadCount] at hun hvn
    rw [(hr.thread u).2.2.2, (hr.thread v).2.2.2] at heq
    exact h.distinct u v hun hvn (hlive hu).2 (hlive hv).2 heq

theorem nextStack_spec {next : UInt64} (hend : next ≤ kKernelStackEnd) :
    next ≤ next + kKernelStackOffset - 8 ∧ next + kKernelStackOffset - 8 < next + kKernelStackOffset := by
  simp only [kKernelStackEnd, kKernelStackOffset, UInt64.lt_iff_toNat_lt, UInt64.le_iff_toNat_le, UInt64.toNat_add,
    UInt64.toNat_sub, UInt64.reduceToNat] at *
  omega

theorem StacksHeld.takes (h : s.StacksHeld) (htake : TakesStack s stack s') :
    s'.StacksHeld ∧ stack < s'.stackManager.nextStackAddr ∧ stack ∉ s'.stackManager.freeStacks ∧
      ∀ t, t < s'.threadCount → s'.state t ≠ .finished → (s'.thread t).rsp0Start ≠ stack := by
  cases htake with
  | freed hfree =>
    rename_i freeStacks
    obtain ⟨hnd, hlt⟩ := h.free
    have hmem : stack ∈ s.stackManager.freeStacks := hfree ▸ mem_cons_self
    have hsub : freeStacks ⊆ s.stackManager.freeStacks := hfree ▸ subset_cons_self _ _
    rw [hfree, nodup_cons] at hnd
    refine ⟨⟨h.bound, ⟨hnd.2, fun a ha => hlt a (hsub ha)⟩, fun t ht hlive => ?_, h.distinct⟩,
      hlt stack hmem, hnd.1, fun t ht hlive heq => ?_⟩
    · exact ⟨(h.held t ht hlive).1, fun hm => (h.held t ht hlive).2 (hsub hm)⟩
    · exact (h.held t ht hlive).2 (heq.symm ▸ hmem)
  | fresh hnil hend =>
    -- The addresses are not computed with.
    obtain ⟨hle, hlt⟩ := nextStack_spec h.bound
    generalize kKernelStackOffset = offset at hle hlt hend ⊢
    have habove : ∀ {a}, a < s.stackManager.nextStackAddr → a < s.stackManager.nextStackAddr + offset := fun ha =>
      (ha.trans_le hle).trans hlt
    refine ⟨⟨hend.le, ⟨h.free.1, fun a ha => habove (h.free.2 a ha)⟩, fun t ht hlive => ?_,
      h.distinct⟩, hlt, fun hmem => ?_, fun t ht hlive heq => ?_⟩
    · exact ⟨habove (h.held t ht hlive).1, (h.held t ht hlive).2⟩
    · replace hmem : _ ∈ s.stackManager.freeStacks := hmem
      rw [hnil] at hmem
      cases hmem
    · exact absurd (heq ▸ (h.held t ht hlive).1) (not_lt.mpr hle)

theorem StacksHeld.created {garbage cr3 : UInt64} (h : s.StacksHeld)
    (hlt : stack < s.stackManager.nextStackAddr) (hfree : stack ∉ s.stackManager.freeStacks)
    (hne : ∀ t, t < s.threadCount → s.state t ≠ .finished → (s.thread t).rsp0Start ≠ stack) :
    (s.created p garbage stack cr3).StacksHeld := by
  have hcases : ∀ t, t < s.threadCount + 1 → (s.created p garbage stack cr3).state t ≠ .finished →
      t = s.threadCount ∧ ((s.created p garbage stack cr3).thread t).rsp0Start = stack ∨
      t < s.threadCount ∧ s.state t ≠ .finished ∧ (s.created p garbage stack cr3).thread t = s.thread t := by
    intro t ht hlive
    by_cases htc : t = s.threadCount
    · exact .inl ⟨htc, by rw [htc, thread_created_self]⟩
    · have hth : (s.created p garbage stack cr3).thread t = s.thread t := thread_created_of_ne htc
      rw [state, hth] at hlive
      exact .inr ⟨lt_of_le_of_ne (Nat.le_of_lt_succ ht) htc, hlive, hth⟩
  refine ⟨h.bound, h.free, fun t ht hlive => ?_, fun t u ht hu htl hul heq => ?_⟩
  · rcases hcases t ht hlive with ⟨-, hstack⟩ | ⟨htn, hold, hth⟩
    · rw [hstack]
      exact ⟨hlt, hfree⟩
    · rw [hth]
      exact h.held t htn hold
  rcases hcases t ht htl with ⟨htc, hts⟩ | ⟨htn, htold, hth⟩
  · rcases hcases u hu hul with ⟨huc, -⟩ | ⟨hun, huold, huh⟩
    · rw [htc, huc]
    · rw [hts, huh] at heq
      exact absurd heq.symm (hne u hun huold)
  · rcases hcases u hu hul with ⟨-, hus⟩ | ⟨hun, huold, huh⟩
    · rw [hth, hus] at heq
      exact absurd heq (hne t htn htold)
    · rw [hth, huh] at heq
      exact h.distinct t u htn hun htold huold heq

/-! ## Runs -/

/-- **The order in which threads and processes may end.** A thread is started while it is `CREATED` and
its process has not ended; a process exits when all its threads that are not dying have run `Init`; and
a process is taken for cleanup when none of its threads waits on `thread_list_`. -/
def Orderly (s : Tasks) : Event → Prop
  | .call (.threadStart t) _ =>
    s.state t = .created ∧ (s.process (s.thread t).process).state = .running
  | .call (.processExit _) _ => ∀ t ∈ (s.process (s.thread s.current).process).threads,
    (s.state t).isDying = false → .init ∉ (s.thread t).todo
  | .cleanup => s.inThreadLoop = false → ∀ p ∈ s.processList.head?,
    ∀ t ∈ (s.process p).threads, t ∉ s.threadList
  | _ => True

instance (s : Tasks) (e : Event) : Decidable (s.Orderly e) := by
  unfold Orderly
  split <;> infer_instance

variable {e : Event}

theorem Orderly.startsRunning (h : s.Orderly e) : s.StartsRunning e := by
  intro t ht
  cases e with
  | call op =>
    cases op with
    | threadStart =>
      cases ht
      exact h
    | _ => cases ht
  | _ => cases ht

theorem Once.modifyThread {f : Thread → Thread} (h : s.Once) (hd : (s.state t).isDying = false)
    (hf : ∀ th, (f th).process = th.process ∧ (f th).rsp0Start = th.rsp0Start ∧
      (f th).state = th.state) : (s.modifyThread t f).Once := by
  refine h.congr (fun _ => id) (fun u => .inl (state_modifyThread (hf _).2.2)) (fun u => ?_) fun u hu => ?_
  · rw [thread_modifyThread]
    split_ifs with hut
    · rw [hut]
      exact ⟨(hf _).1, (hf _).2.1⟩
    · exact ⟨rfl, rfl⟩
  · have hut : u ≠ t := by
      rintro rfl
      rw [hd] at hu
      cases hu
    rw [thread_modifyThread, if_neg hut]
    exact ⟨rfl, id⟩

theorem StacksHeld.modifyThread {f : Thread → Thread} (h : s.StacksHeld)
    (hf : ∀ th, (f th).rsp0Start = th.rsp0Start ∧ (f th).state = th.state) : (s.modifyThread t f).StacksHeld := by
  refine h.congr (fun u => ?_) fun u hu => (state_modifyThread (hf _).2).trans hu
  rw [thread_modifyThread]
  split_ifs with hut
  · rw [hut]
    exact (hf _).1
  · rfl

/-- **One step** that keeps to the order. -/
theorem Once.step (h : s.Once) (hs : Sound [] s) (hl : s.Lives) (hok : s.Orderly e)
    (hstep : s.step e = some s') : s'.Once := by
  have hp := possible_of_step hstep
  have hpl := hs.placed
  have halive := (hpl.running rfl).2.1
  obtain ⟨heff, -⟩ := step_effect hs.steady hstep
  cases heff with
  | moves hm => exact Once.moves h hpl hm
  | @start t _ machine heap =>
    have hthread : ∀ u, ((s.withHeap machine heap).started t).thread u = _ := thread_writeState .runnable
    refine h.congr (fun _ => id) (fun u => ?_) (fun u => ?_) fun u _ => ?_
    · rw [state_started]
      split_ifs with hu
      · exact .inr ⟨by rw [hu, hok.1]; rfl, rfl⟩
      · exact .inl rfl
    · rw [hthread]
      exact ⟨rfl, rfl⟩
    · rw [hthread]
      exact ⟨rfl, id⟩
  | @create _ _ _ _ _ _ _ s1 hi hstack =>
    have h₁ : s1.Once ∧ s1.Lives := by
      rw [hstack.eq]
      exact ⟨h.congr, hl.congr⟩
    exact h₁.1.created h₁.2
  | spawn =>
    refine h.congr fun p hv => ?_
    rw [process_spawned]
    split
    · exact Option.some_ne_none _
    · exact hv
  | @init _ _ _ system htodo hi hx =>
    have h₁ : ({ s with system } : Tasks).Once := h.congr
    rw [initialised_modifyThread]
    exact h₁.modifyThread halive fun _ => ⟨rfl, rfl, rfl⟩
  | initKernel htodo hk =>
    exact h.modifyThread halive fun _ => ⟨rfl, rfl, rfl⟩
  | exit hm =>
    have h₁ := h.exited hl hpl (one_lt_of_possible hp) hp.2.2.1
    exact Once.moves h₁ (hpl.exited hp.1) hm
  | @processExit exitCode _ _ hm =>
    have h1 := one_lt_of_possible hp
    have hmem := hl.families.member _ h1 hpl.exist
    have h₁ : (s.processExited (s.thread s.current).process exitCode).Once :=
      h.processExited hl hmem.1 (hl.current_running hpl h1) hok
    exact Once.moves h₁ (hs.placed_processExited hp.1 hp.2.1 _) hm
  | @cleanThread t _ _ hloop ht hc =>
    obtain ⟨hmem, hr⟩ := hs.releases_thread ht hc
    have hnd := h.threads.1
    rw [ht, nodup_cons] at hnd
    refine h.releases hr rfl rfl (fun _ => rfl) rfl rfl
      (ht ▸ sublist_cons_self _ _) (List.Sublist.refl _) (nodup_singleton t)
      (fun u hu => ?_) fun u hn hu hcl => ?_
    · rw [mem_singleton.mp hu]
      exact ⟨(hl.exits t hmem).1, (h.threads.2 t hmem).1, hnd.1⟩
    · refine (h.pending u hn hcl).imp (fun hm => ?_) id
      rw [ht] at hm
      exact (mem_cons.mp hm).resolve_left fun hut => hu (hut ▸ mem_singleton_self _)
  | @cleanProcess p _ _ hloop hlist hc =>
    refine h.cleansProcess hl hpl hlist ?_ hc
    exact hok hloop p (by rw [hlist]; rfl)

theorem StacksHeld.step (h : s.StacksHeld) (hs : Sound [] s) (hl : s.Lives) (ho : s.Once)
    (hok : s.StartsRunning e) (hstep : s.step e = some s') : s'.StacksHeld := by
  have hp := possible_of_step hstep
  have hpl := hs.placed
  have halive := (hpl.running rfl).2.1
  have hmoves : ∀ {x y : Phase × Tasks}, x.2.StacksHeld → Placed [] x → Moves x y →
      y.2.StacksHeld := fun hx hpx hm => hx.releases (hpx.releases hm) nodup_nil (by simp)
  obtain ⟨heff, -⟩ := step_effect hs.steady hstep
  cases heff with
  | moves hm => exact hmoves h hpl hm
  | @start t _ machine heap =>
    refine h.congr (fun u => ?_) fun u hu => ?_
    · rw [show ((s.withHeap machine heap).started t).thread u = _ from thread_writeState .runnable u]
      rfl
    · have hut : u ≠ t := by
        rintro rfl
        rw [(hok u rfl).1] at hu
        cases hu
      rw [state_started, if_neg hut]
      exact hu
  | @create _ _ _ _ _ machine heap _ hi hstack =>
    have h0 : (s.withHeap machine heap).StacksHeld := h.congr
    obtain ⟨h1, hlt, hfree, hne⟩ := h0.takes hstack
    exact h1.created hlt hfree hne
  | spawn => exact h.congr
  | @init _ _ _ system htodo hi hx =>
    have h1 : ({ s with system } : Tasks).StacksHeld := h.congr
    rw [initialised_modifyThread]
    exact h1.modifyThread fun _ => ⟨rfl, rfl⟩
  | initKernel htodo hk => exact h.modifyThread fun _ => ⟨rfl, rfl⟩
  | exit hm =>
    have h1 : s.exited.StacksHeld := by
      refine h.congr (fun u => ?_) fun u hu => ?_
      · rw [show s.exited.thread u = _ from thread_writeState .cleanup u]
      · have huc : u ≠ s.current := by
          rintro rfl
          rw [show s.state s.current = .finished from hu] at halive
          cases halive
        rw [state_exited, if_neg huc]
        exact hu
    exact hmoves h1 (hpl.exited hp.1) hm
  | @processExit exitCode _ _ hm =>
    have h1 : (s.processExited (s.thread s.current).process exitCode).StacksHeld := by
      refine h.congr (fun u => ?_) fun u hu => ?_
      · rw [thread_processExited]
      · rw [state_processExited, if_neg]
        · exact hu
        · rintro ⟨-, hd⟩
          rw [hu] at hd
          cases hd
    exact hmoves h1 (hs.placed_processExited hp.1 hp.2.1 _) hm
  | @cleanThread t threadList _ hloop ht hc =>
    obtain ⟨hmem, hr⟩ := hs.releases_thread ht hc
    have h1 : ({ s with threadList } : Tasks).StacksHeld := h.congr
    refine h1.releases hr (nodup_singleton t) fun u hu => ?_
    rw [mem_singleton.mp hu]
    refine ⟨(hl.exits t hmem).1, fun hfin => ?_⟩
    rw [show ({ s with threadList } : Tasks).state t = .cleanup from (ho.threads.2 t hmem).1] at hfin
    cases hfin
  | @cleanProcess p processList _ hloop hlist hc =>
    obtain ⟨-, hall, -⟩ := hc
    have hpl1 : Placed [] (.running, ({ s with processList } : Tasks).processCleaning p) :=
      hpl.congr
    have h1 : (({ s with processList } : Tasks).processCleaning p).StacksHeld :=
      h.congr
    obtain ⟨done, hr, hsub, hnd, hmarked, -⟩ := hall.releases hpl1
    have hp := (hl.leaves p (hlist ▸ mem_cons_self)).1
    have h2 := h1.releases hr hnd fun u hu => ⟨(hl.families.threads p hp u (hsub hu)).1, fun hfin => by
      rw [hmarked u hu] at hfin
      cases hfin⟩
    exact h2.congr

theorem Once.not_nullVmas (h : s.Once) (hs : Sound [] s) (hl : s.Lives) : s.fault .cleanup ≠ some .nullVmas := by
  have hclean : ∀ {t : Nat} {s1 : Tasks}, (s1.process (s1.thread t).process).vmas ≠ none →
      ¬CleanFault t s1 .nullVmas := by
    intro t s1 hv hf
    cases hf with
    | nullVmas hv' => exact hv hv'
    | stops _ hstop =>
      obtain ⟨y, -, hc⟩ := hstop
      cases hc
  intro hf
  have hfail := fault_failure hs.steady hf
  cases hfail with
  | moves hstop =>
    obtain ⟨y, -, hc⟩ := hstop
    cases hc
  | cleanThread hloop ht hc =>
    refine hclean ?_ hc
    exact (h.threads.2 _ (ht ▸ mem_cons_self)).2
  | @cleanProcess p processList _ hloop hlist hc =>
    have hmemp : p ∈ s.processList := hlist ▸ mem_cons_self
    have hp := (hl.leaves p hmemp).1
    have hpl1 : Placed [] (.running, ({ s with processList } : Tasks).processCleaning p) :=
      hs.placed.congr
    -- The address space of the process is there until the end.
    have hvmas : ∀ {ts s1}, CleansAll (({ s with processList } : Tasks).processCleaning p) ts s1 →
        (s1.process p).vmas ≠ none := by
      intro ts s1 hall
      obtain ⟨done, hr, -⟩ := hall.releases hpl1
      rw [hr.process, processCleaning, process_modifyProcess_self]
      exact h.processes.2 p hmemp
    cases hc with
    | thread hts hall ht hf =>
      rename_i done rest t s1
      refine hclean ?_ hf
      obtain ⟨released, hr, -⟩ := hall.releases hpl1
      have htp : t ∈ (s.process p).threads := by
        rw [show (s.process p).threads = done ++ t :: rest from hts]
        exact mem_append_right _ mem_cons_self
      have hproc : (s1.thread t).process = p :=
        ((hr.thread t).1).trans (hl.families.threads p hp t htp).2
      rw [hproc]
      exact hvmas hall
    | nullVmas hall hv => exact hvmas hall hv

/-- No thread is dying at the end of `zion()`. -/
theorem isDying_bootThread (spaces : List AddressSpace) (t : Nat) :
    (bootThread spaces t).state.isDying = false := by
  match t with
  | 0 => rfl
  | 1 => rfl
  | t + 2 => rfl

theorem once_boot (system : System) (single : Nat → Bool) (caps : CapabilityTable)
    (heap : KernelHeap PhysicalMemoryManager) :
    (boot system single caps heap).Once := by
  have hne : ∀ {t x}, (boot system single caps heap).state t = x → x.isDying = true → False := by
    intro t x hx hd
    rw [← hx, show (boot system single caps heap).state t = (bootThread system.spaces t).state from rfl,
      isDying_bootThread] at hd
    cases hd
  refine ⟨⟨nodup_nil, fun t ht => ?_⟩, ⟨nodup_nil, fun p hp => ?_⟩, fun t _ hc => ?_,
    fun t _ hd => ?_, nodup_nil, fun t => ?_, fun x hx => ?_, rfl⟩
  · cases ht
  · cases hp
  · exact (hne hc rfl).elim
  · exact (hne rfl hd).elim
  · exact iff_of_false not_mem_nil fun h => hne h.2 rfl
  · cases hx

theorem stacksHeld_boot (system : System) (single : Nat → Bool) (caps : CapabilityTable)
    (heap : KernelHeap PhysicalMemoryManager) :
    (boot system single caps heap).StacksHeld := by
  -- The stacks do not depend on the address spaces.
  have hspaces : ∀ t, (bootThread system.spaces t).rsp0Start = (bootThread [] t).rsp0Start := by
    intro t
    match t with
    | 0 => rfl
    | 1 => rfl
    | t + 2 => rfl
  have hstack : ∀ t, t < 3 → (bootThread [] t).rsp0Start < kKernelStackStart + 3 * kKernelStackOffset := by
    decide
  have hinj : ∀ t, t < 3 → ∀ u, u < 3 → (bootThread [] t).rsp0Start = (bootThread [] u).rsp0Start → t = u := by
    decide
  simp only [← hspaces] at hstack hinj
  refine ⟨(by decide : kKernelStackStart + 3 * kKernelStackOffset ≤ kKernelStackEnd),
    ⟨nodup_nil, fun a ha => ?_⟩, fun t ht _ => ⟨hstack t ht, not_mem_nil⟩,
    fun t u ht hu _ _ => hinj t ht u hu⟩
  cases ha

/-- **What was released, and what is held.** -/
structure ReleasedOnce (s : Tasks) : Prop where
  /-- No kernel stack is given back twice for one thread. -/
  kernel : (s.freedStacks.map Prod.fst).Nodup
  /-- No user stack is freed twice for one thread. -/
  user : (s.freedUserStacks.map Prod.fst).Nodup
  /-- A thread's own stacks have been released exactly if it is `FINISHED`. -/
  finished : ∀ t, t < s.threadCount →
    (s.state t = .finished ↔ (t, (s.thread t).rsp0Start) ∈ s.freedStacks) ∧
      (s.state t = .finished ↔ (t, (s.thread t).userStackBase) ∈ s.freedUserStacks)
  /-- The user stacks that were freed are those that `Init` allocated. -/
  initialised : ∀ x ∈ s.freedUserStacks, .init ∉ (s.thread x.1).todo
  /-- A thread that is marked for cleanup is still to be released. -/
  pending : ∀ t, t < s.threadCount → s.state t = .cleanup →
    t ∈ s.threadList ∨ (s.thread t).process ∈ s.processList
  /-- No kernel stack is held by two threads that are not finished. -/
  distinct : ∀ t u, t < s.threadCount → u < s.threadCount → s.state t ≠ .finished →
    s.state u ≠ .finished → (s.thread t).rsp0Start = (s.thread u).rsp0Start → t = u
  /-- No kernel stack that is held can be given to another thread. -/
  held : ∀ t, t < s.threadCount → s.state t ≠ .finished →
    (s.thread t).rsp0Start ∉ s.stackManager.freeStacks

theorem Once.releasedOnce (h : s.Once) (hheld : s.StacksHeld) : s.ReleasedOnce := by
  have huser : s.freedUserStacks.map Prod.fst = s.freedStacks.map Prod.fst := by
    rw [h.user, List.map_map]
    rfl
  refine ⟨h.freed, huser ▸ h.freed, fun t ht => ⟨⟨fun hf => ?_, fun hm => ?_⟩, fun hf => ?_, fun hm => ?_⟩,
    fun x hx => ?_, h.pending, hheld.distinct, fun t ht hlive => (hheld.held t ht hlive).2⟩
  · obtain ⟨x, hx, rfl⟩ := mem_map.mp ((h.finished t).mpr ⟨ht, hf⟩)
    rw [← h.kernel x hx]
    exact hx
  · exact ((h.finished t).mp (mem_map_of_mem hm)).2
  · obtain ⟨x, hx, rfl⟩ := mem_map.mp ((h.finished t).mpr ⟨ht, hf⟩)
    rw [h.user]
    exact mem_map_of_mem hx
  · have hmem : t ∈ s.freedUserStacks.map Prod.fst := mem_map_of_mem hm
    rw [huser] at hmem
    exact ((h.finished t).mp hmem).2
  · have hmem : x.1 ∈ s.freedUserStacks.map Prod.fst := mem_map_of_mem hx
    rw [huser] at hmem
    obtain ⟨hlt, hfin⟩ := (h.finished x.1).mp hmem
    exact h.initialised x.1 hlt (by rw [hfin]; rfl)

end Acadia.Zion.Tasks
