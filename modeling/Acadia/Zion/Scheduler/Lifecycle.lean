import Acadia.Zion.Scheduler.Placement

/-! # The life of threads and processes

What holds of threads and processes from their creation to their cleanup. `Thread::Start` writes the state of the
thread without a look at it, so a thread must only be started while it is `CREATED`; `Process::Exit` marks threads
that sit in lists of other objects; and the calls on a process assume a stage of its life. -/

namespace Acadia.Zion.Tasks

open Command Glacier Relation List Option

variable {s s' : Tasks} {t : Nat} {l : ThreadList}

/-! ## Threads that are started once -/

/-- A thread is started only while it is `CREATED`. -/
def StartsCreated (s : Tasks) (e : Event) : Prop := ∀ t ∈ e.started, s.state t = .created

instance (s : Tasks) (e : Event) : Decidable (s.StartsCreated e) :=
  inferInstanceAs (Decidable (∀ t ∈ e.started, s.state t = .created))

variable {waiting ts : List Nat}

/-- A thread that is `CREATED` is in no list. -/
theorem Listed.not_mem_of_created (h : Listed waiting s) (ht : s.state t = .created)
    (l : ThreadList) : t ∉ s.lists l := by
  intro hl
  have hst := h.state l t hl (by rw [ht]; rfl)
  rw [ht] at hst
  cases l <;> cases hst

/-- A thread other than the sleep thread that is `CREATED` does not run. -/
theorem Placed.current_ne_of_created (h : Placed waiting (.running, s)) (ht : s.state t = .created)
    (h0 : t ≠ sleepThread) : s.current ≠ t := by
  rintro rfl
  have hst := (h.running rfl).2.2 h0
  rw [show s.state s.current = .created from ht] at hst
  cases hst

variable {e : Event}

theorem Sound.step_created (h : Sound [] s) (hok : s.StartsCreated e) (hstep : s.step e = some s') : Sound [] s' := by
  refine h.step (fun t he h2 => ?_) hstep
  have ht : s.state t = .created := hok t (by rw [he]; rfl)
  refine ⟨not_mem_nil, h.placed.current_ne_of_created ht ?_, h.placed.listed.not_mem_of_created ht⟩
  rintro rfl
  exact absurd h2 (by decide)

/-- Threads that are dying stay so. -/
structure Ages (s s' : Tasks) : Prop where
  count : s.threadCount ≤ s'.threadCount
  dying : ∀ t, t < s.threadCount → (s.state t).isDying = true → (s'.state t).isDying = true

theorem Ages.refl (s : Tasks) : Ages s s := ⟨le_rfl, fun _ _ h => h⟩

theorem Ages.trans {s1 s2 s3 : Tasks} (h : Ages s1 s2) (h' : Ages s2 s3) : Ages s1 s3 :=
  ⟨h.count.trans h'.count, fun t ht hd => h'.dying t (ht.trans_le h.count) (h.dying t ht hd)⟩

theorem Frame.ages (h : Frame s s') : Ages s s' :=
  ⟨h.threadCount.ge, fun t _ hd => (h.dying t).trans hd⟩

theorem Ages.kill (hn : s'.threadCount = s.threadCount)
    (h : ∀ t, s'.state t = s.state t ∨ (s'.state t).isDying = true) : Ages s s' := by
  refine ⟨hn.ge, fun t _ hd => ?_⟩
  rcases h t with h | h
  · rw [h]
    exact hd
  · exact h

theorem Cleans.ages (h : Cleans t s s') : Ages s s' := by
  obtain ⟨-, -, -, hst⟩ := h
  rename_i i system s1
  have h1 : Ages s (s.cleaning t system) := by
    refine .kill rfl fun u => ?_
    rw [state_cleaning]
    split
    · exact .inr rfl
    · exact .inl rfl
  refine (h1.trans (frame_of_moves hst.moves).ages).trans (.kill rfl fun u => ?_)
  rw [state_cleaned]
  split
  · exact .inr rfl
  · exact .inl rfl

theorem CleansAll.ages (h : CleansAll s ts s') : Ages s s' := by
  induction h with
  | nil => exact .refl s
  | skip _ _ ih => exact ih
  | clean _ _ hc ih => exact ih.trans hc.ages

variable {p : Nat}

theorem CleansProcess.ages (h : CleansProcess p s s') : Ages s s' := by
  obtain ⟨-, hall, -⟩ := h
  have h1 : Ages s (s.processCleaning p) := .kill rfl fun _ => .inl rfl
  exact (h1.trans hall.ages).trans (.kill rfl fun _ => .inl rfl)

theorem TakesStack.ages {stack : UInt64} {machine : Machine PhysicalMemoryManager}
    {heap : KernelHeap PhysicalMemoryManager} (h : TakesStack (s.withHeap machine heap) stack s') :
    Ages s s' := by
  rw [h.eq]
  exact .kill rfl fun _ => .inl rfl

theorem Ages.created {garbage stack cr3 : UInt64} : Ages s (s.created p garbage stack cr3) := by
  refine ⟨Nat.le_succ _, fun t ht hd => ?_⟩
  rw [state, thread_created_of_ne ht.ne]
  exact hd

/-- **One step** in which a thread is only started while it is `CREATED`. -/
theorem Sound.ages (h : Sound [] s) (hok : s.StartsCreated e) (hstep : s.step e = some s') : Ages s s' := by
  obtain ⟨heff, -⟩ := step_effect h.steady hstep
  cases heff with
  | moves hm => exact (frame_of_moves hm).ages
  | @start t _ _ _ =>
    refine ⟨le_rfl, fun u _ hd => ?_⟩
    -- A thread that is dying is not `CREATED`.
    have hut : u ≠ t := by
      rintro rfl
      rw [hok u rfl] at hd
      cases hd
    rw [state_started, if_neg hut]
    exact hd
  | create _ hstack => exact hstack.ages.trans .created
  | spawn => exact .kill rfl fun _ => .inl rfl
  | init =>
    exact .kill rfl fun _ => .inl (state_initialised.trans (state_modifyThread rfl))
  | initKernel => exact .kill rfl fun _ => .inl (state_modifyThread rfl)
  | exit hm =>
    have h1 : Ages s s.exited := by
      refine .kill rfl fun t => ?_
      rw [state_exited]
      split
      · exact .inr rfl
      · exact .inl rfl
    exact h1.trans (frame_of_moves hm).ages
  | @processExit exitCode _ _ hm =>
    have h1 : Ages s (s.processExited (s.thread s.current).process exitCode) := by
      refine .kill rfl fun t => ?_
      rw [state_processExited]
      split
      · exact .inr rfl
      · exact .inl rfl
    exact h1.trans (frame_of_moves hm).ages
  | cleanThread _ _ hc => exact ⟨hc.ages.count, hc.ages.dying⟩
  | cleanProcess _ _ hc => exact ⟨hc.ages.count, hc.ages.dying⟩

/-- Every run in which threads are only started while they are `CREATED`. -/
theorem Sound.run_created {events : List Event} (h : Sound [] s) (hok : Runs.Meets Tasks.step StartsCreated s events)
    (hrun : Runs.run Tasks.step s events = some s') : Sound [] s' :=
  Runs.run_invariant (fun _ _ _ h hok hstep => h.step_created hok hstep) h hok hrun

theorem Sound.run_ages {events : List Event} (h : Sound [] s) (hok : Runs.Meets Tasks.step StartsCreated s events)
    (hrun : Runs.run Tasks.step s events = some s') : Ages s s' := by
  have hinv : Sound [] s' ∧ Ages s s' := by
    refine Runs.run_invariant (P := fun s' => Sound [] s' ∧ Ages s s') (fun s1 e s2 h1 hok hstep => ?_)
      ⟨h, .refl s⟩ hok hrun
    exact ⟨h1.1.step_created hok hstep, h1.2.trans (h1.1.ages hok hstep)⟩
  exact hinv.2

/-- No thread that is dying at some moment of the run can run, or runs, at a later one. -/
def StaysDead (s : Tasks) (events : List Event) : Prop :=
  ∀ as bs s₁ s₂, as ++ bs <+: events → Runs.run step s as = some s₁ → Runs.run step s₁ bs = some s₂ →
    ∀ t, t < s₁.threadCount → (s₁.state t).isDying = true →
      s₂.state t ≠ .runnable ∧ s₂.state t ≠ .running

/-- `ThreadStart` enqueues no thread of the run that can run, runs, sleeps or is blocked. -/
def StartsOnce (s : Tasks) (events : List Event) : Prop :=
  ∀ as t uses s₁ s₂, as ++ [.call (.threadStart t) uses] <+: events → Runs.run step s as = some s₁ →
    s₁.step (.call (.threadStart t) uses) = some s₂ →
    s₁.state t ∈ [.runnable, .running, .sleeping, .blocked] →
    (s₂.lists .runnable).count t ≤ (s₁.lists .runnable).count t

/-- What `ThreadStart` does to a thread in any state. -/
theorem step_threadStart {uses : List HeapRequest} (h : s.step (.call (.threadStart t) uses) = some s') :
    ∃ machine heap, s' = (s.withHeap machine heap).started t := by
  refine of_wp_perform (Q := fun s' => ∃ machine heap, s' = (s.withHeap machine heap).started t)
    (E := fun _ _ => True) h fun hp => ?_
  rw [perform, wp_bind]
  refine wp_mono (wp_useHeap uses) (fun _ s1 h1 => ?_) fun _ _ _ => trivial
  obtain ⟨machine, heap, rfl⟩ := h1
  exact (wp_threadStart (s := s.withHeap machine heap) hp.1).mpr ⟨machine, heap, rfl⟩

/-- **Threads that are dying stay so, and none is enqueued twice by `ThreadStart`, exactly when each
thread of the run is started while it is `CREATED`.** -/
theorem staysDead_startsOnce_iff (system : System) (single : Nat → Bool) (caps : CapabilityTable)
    (heap : KernelHeap PhysicalMemoryManager)
    {events : List Event} (hrun : Runs.run step (boot system single caps heap) events = some s) :
    StaysDead (boot system single caps heap) events ∧ StartsOnce (boot system single caps heap) events ↔
      Runs.Meets step StartsCreated (boot system single caps heap) events := by
  constructor
  · rintro ⟨hdead, honce⟩
    rw [Runs.meets_iff_forall]
    intro as e hpre s₁ hs₁ t ht
    obtain ⟨uses, rfl⟩ : ∃ uses, e = .call (.threadStart t) uses := by
      cases e with
      | call op uses => cases op <;> cases ht; exact ⟨uses, rfl⟩
      | _ => cases ht
    -- The whole run succeeds, and so does this step.
    obtain ⟨s₂, hs₂⟩ : ∃ s₂, s₁.step (.call (.threadStart t) uses) = some s₂ := by
      obtain ⟨bs, hbs⟩ := hpre
      rw [← hbs, Runs.run_append, bind_eq_some_iff] at hrun
      obtain ⟨s₂, hs₂, -⟩ := hrun
      obtain ⟨s₁', hs₁', hs₂⟩ := Runs.run_concat_eq_some.mp hs₂
      rw [hs₁, some.injEq] at hs₁'
      exact ⟨s₂, hs₁' ▸ hs₂⟩
    obtain ⟨machine, heap, hst⟩ := step_threadStart hs₂
    have hdying : (s₁.state t).isDying = false := by
      by_contra hd
      have hrunnable := (hdead as _ s₁ s₂ hpre hs₁ ((Runs.run_singleton ..).trans hs₂) t
        (possible_of_step hs₂).2.2.2.2 ((Bool.not_eq_false _).mp hd)).1
      rw [hst, state_started, if_pos rfl] at hrunnable
      exact hrunnable rfl
    have hactive : s₁.state t ∉ [.runnable, .running, .sleeping, .blocked] := by
      intro hmem
      have hcount := honce as t uses s₁ s₂ hpre hs₁ hs₂ hmem
      rw [hst, started, lists_push, if_pos rfl, count_append, count_singleton_self] at hcount
      exact absurd hcount (Nat.not_succ_le_self _)
    -- One state is left.
    revert hdying hactive
    cases s₁.state t <;> decide
  · intro hok
    refine ⟨fun as bs s₁ s₂ hpre hs₁ hs₂ t ht hd => ?_, fun as t uses s₁ s₂ hpre hs₁ hs₂ hmem => ?_⟩
    · obtain ⟨has, hbs⟩ := Runs.meets_append.mp (hok.of_isPrefix hpre)
      have h₁ := (sound_boot system single caps heap []).run_created has hs₁
      have hd₂ := (h₁.run_ages (hbs s₁ hs₁) hs₂).dying t ht hd
      constructor <;> intro hx <;> rw [hx] at hd₂ <;> cases hd₂
    · have hx : s₁.state t = .created := Runs.meets_iff_forall.mp hok as _ hpre s₁ hs₁ t rfl
      rw [hx] at hmem
      simp at hmem

/-- A thread is started, and exits. -/
def exitedThread : List Event :=
  [.resume, .resume, .cleanup, .resume, .call (.threadCreate 1 0), .call (.threadStart 3), .tick,
    .resume, .call .threadExit]

theorem staysDead_startsOnce_exitedThread : StaysDead smallBoot exitedThread ∧ StartsOnce smallBoot exitedThread := by
  have h : (Runs.run step smallBoot exitedThread).isSome = true := by decide +kernel
  obtain ⟨s, hrun⟩ := isSome_iff_exists.mp h
  exact (staysDead_startsOnce_iff _ _ _ _ hrun).mpr (by decide +kernel)

/-- The cleanup thread cleans up what has exited, and the first process starts the thread again. -/
def restart : List Event :=
  [.tick, .resume, .cleanup, .cleanup, .cleanup, .cleanup, .call (.threadStart 3), .tick]

/-- **A thread that is `FINISHED` is started again** and runs, on a kernel stack that has been given
back; and a thread that is started twice is enqueued twice. -/
theorem threadStart_revives : ¬StaysDead smallBoot (exitedThread ++ restart) ∧
      ¬StartsOnce smallBoot (exitedThread.take 6 ++ [.call (.threadStart 3)]) := by
  constructor
  · intro hdead
    have h : (Runs.run step smallBoot (exitedThread ++ restart.take 5)).map
        (fun s => (s.threadCount, s.state 3, (Runs.run step s (restart.drop 5)).map (·.state 3))) =
        some (4, .finished, some .running) := by decide +kernel
    obtain ⟨s₁, hs₁, h₁⟩ := map_eq_some_iff.mp h
    simp only [Prod.mk.injEq, map_eq_some_iff] at h₁
    obtain ⟨hcount, hfinished, s₂, hs₂, hrunning⟩ := h₁
    have hne := (hdead (exitedThread ++ restart.take 5) (restart.drop 5) s₁ s₂ (by decide) hs₁ hs₂ 3
      (by rw [hcount]; decide) (by rw [hfinished]; rfl)).2
    exact hne hrunning
  intro honce
  have h : (Runs.run step smallBoot (exitedThread.take 6)).map (fun s => (s.state 3,
      (s.lists .runnable).count 3, (s.step (.call (.threadStart 3))).map fun s =>
        (s.lists .runnable).count 3)) = some (.runnable, 1, some 2) := by decide +kernel
  obtain ⟨s₁, hs₁, h₁⟩ := map_eq_some_iff.mp h
  simp only [Prod.mk.injEq, map_eq_some_iff] at h₁
  obtain ⟨hstate, hcount, s₂, hs₂, hcount₂⟩ := h₁
  have hle := honce (exitedThread.take 6) 3 [] s₁ s₂ (by decide) hs₁ hs₂ (by rw [hstate]; decide)
  rw [hcount, hcount₂] at hle
  exact absurd hle (by decide)

/-! ## Threads that wait -/

/-- The threads that sleep or are blocked are not dying, and those that have exited are. -/
structure Awake (s : Tasks) : Prop where
  lists : ∀ l, l ≠ .runnable → ∀ t ∈ s.lists l, (s.state t).isDying = false
  exits : ∀ t ∈ s.threadList, t < s.threadCount ∧ (s.state t).isDying = true

theorem Awake.congr (h : s.Awake) (hx : s'.threadList ⊆ s.threadList := by exact List.Subset.refl _)
    (hst : ∀ t, (s'.state t).isDying = (s.state t).isDying := by intro; rfl)
    (hl : s'.lists = s.lists := by rfl) (hn : s'.threadCount = s.threadCount := by rfl) :
    s'.Awake where
  lists l hl' t ht := by
    rw [hst]
    exact h.lists l hl' t (hl ▸ ht)
  exits t ht := by
    rw [hst, hn]
    exact h.exits t (hx ht)

variable {x y : Phase × Tasks}

/-- A thread that a move puts into a list other than the runnable one is the current one; only the
cleanup thread waits for exits. -/
theorem Move.mem_lists (hm : Move x y) (hl : l ≠ .runnable) (ht : t ∈ y.2.lists l) :
    t ∈ x.2.lists l ∨ t = x.2.current ∧ (x.2.state x.2.current).isDying = false ∧
      (l = .semaphore .cleanup → t = cleanupThread) := by
  cases hm with
  | @wake _ s l' t' hl' ht' hd =>
    rcases mem_push.mp ht with ht | ⟨rfl, -⟩
    · replace ht : t ∈ (s.setList l' ((s.lists l').erase t')).lists l := ht
      rw [lists_setList] at ht
      split_ifs at ht with hll
      · exact .inl (hll ▸ mem_of_mem_erase ht)
      · exact .inl ht
    · exact absurd rfl hl
  | block hl' hs hx hd =>
    rcases mem_push.mp ht with ht | ⟨rfl, rfl⟩
    · exact .inl ht
    · exact .inr ⟨rfl, hd, hx⟩
  | @clear _ s =>
    replace ht : t ∈ (s.setList .runnable _).lists l := ht
    rw [lists_setList, if_neg hl] at ht
    exact .inl ht
  | @switch _ s _ rest hr hn =>
    replace ht : t ∈ (s.released.setList .runnable rest).lists l := ht
    rw [lists_setList, if_neg hl] at ht
    unfold released at ht
    split at ht <;> exact .inl ht
  | @preempt s _ rest hr hd hn =>
    replace ht : t ∈ ((s.writeState s.current .runnable).setList .runnable (rest ++ [s.current])).lists l := ht
    rw [lists_setList, if_neg hl] at ht
    exact .inl ht
  | aside => exact .inl ht
  | locks => exact .inl ht
  | ticks => exact .inl ht
  | later => exact .inl ht
  | resumed => exact .inl ht
  | idle => exact .inl ht

theorem Awake.moves (h : x.2.Awake) (hm : Moves x y) : y.2.Awake := by
  induction hm with
  | refl => exact h
  | tail _ hm ih =>
    refine ⟨fun l hl t ht => ?_, fun t ht => ?_⟩
    · rw [hm.frame.dying]
      rcases hm.mem_lists hl ht with ht | ⟨rfl, hd, -⟩
      · exact ih.lists l hl t ht
      · exact hd
    · rw [hm.frame.dying, hm.frame.threadCount]
      exact ih.exits t (hm.frame.threadList ▸ ht)

/-- **The panic of `SetState` is not reached.** -/
theorem Awake.not_stops (h : x.2.Awake) (hp : Placed waiting x) : ¬Stops x .dyingSetState := by
  rintro ⟨y, hm, hc⟩
  have hy := h.moves hm
  have hpy := hp.moves hm
  cases hc with
  | wake hl ht hd =>
    rw [hy.lists _ hl _ ht] at hd
    cases hd
  | current hd =>
    have halive := (hpy.running rfl).2.1
    rw [show (state _ _).isDying = true from hd] at halive
    cases halive

/-- A process exits only while none of its threads sleeps or is blocked. -/
def ExitsAwake (s : Tasks) (e : Event) : Prop :=
  e.exitsProcess = true → ∀ t ∈ (s.process (s.thread s.current).process).threads,
    s.state t ≠ .sleeping ∧ s.state t ≠ .blocked

instance (s : Tasks) (e : Event) : Decidable (s.ExitsAwake e) :=
  inferInstanceAs (Decidable (_ = true → _))

theorem Awake.cleaning (h : s.Awake) (system : System) (ht : (s.state t).isDying = true) :
    (s.cleaning t system).Awake := by
  refine h.congr (List.Subset.refl _) fun u => ?_
  rw [state_cleaning]
  split_ifs with hu
  · rw [hu, ht]
    rfl
  · rfl

theorem Awake.cleans (h : s.Awake) (ht : (s.state t).isDying = true) (hc : Cleans t s s') : s'.Awake := by
  obtain ⟨-, -, -, hst⟩ := hc
  rename_i i system s1
  have h1 := (h.cleaning system ht).moves hst.moves
  have hd : (s1.state t).isDying = true := by
    refine ((frame_of_moves hst.moves).dying t).trans ?_
    rw [state_cleaning, if_pos rfl]
    rfl
  refine h1.congr (List.Subset.refl _) fun u => ?_
  rw [state_cleaned]
  split_ifs with hu
  · rw [hu]
    exact hd.symm
  · rfl

theorem Awake.cleansAll (h : s.Awake) (hc : CleansAll s ts s') : s'.Awake := by
  induction hc with
  | nil => exact h
  | skip _ _ ih => exact ih
  | clean _ ht hc ih => exact ih.cleans (by rw [ht]; rfl) hc

theorem Awake.cleansProcess (h : s.Awake) (hc : CleansProcess p s s') : s'.Awake := by
  obtain ⟨-, hall, -⟩ := hc
  have h1 : (s.processCleaning p).Awake := h.congr
  exact (h1.cleansAll hall).congr

theorem Awake.exited (h : s.Awake) (hp : Placed waiting (.running, s)) : s.exited.Awake where
  lists l hl t ht := by
    have hne : t ≠ s.current := by
      rintro rfl
      exact (hp.running rfl).1 l ht
    rw [state_exited, if_neg hne]
    exact h.lists l hl t ht
  exits t ht := by
    rw [state_exited]
    rcases mem_append.mp ht with ht | ht
    · refine ⟨(h.exits t ht).1, ?_⟩
      split
      · rfl
      · exact (h.exits t ht).2
    · rw [if_pos (mem_singleton.mp ht), mem_singleton.mp ht]
      exact ⟨hp.exist, rfl⟩

theorem Awake.processExited {exitCode : UInt64} (h : s.Awake) (hp : Listed waiting s)
    (hawake : ∀ t ∈ (s.process p).threads, s.state t ≠ .sleeping ∧ s.state t ≠ .blocked) :
    (s.processExited p exitCode).Awake where
  lists l hl t ht := by
    have hd := h.lists l hl t ht
    have hst := hp.state l t ht hd
    rw [state_processExited, if_neg]
    · exact hd
    · rintro ⟨hmem, -⟩
      have hne := hawake t hmem
      rw [hst] at hne
      cases l with
      | runnable => exact hl rfl
      | sleeping => exact hne.1 rfl
      | _ => exact hne.2 rfl
  exits t ht := by
    obtain ⟨hn, hd⟩ := h.exits t ht
    refine ⟨hn, ?_⟩
    rw [state_processExited, if_neg]
    · exact hd
    · rintro ⟨-, halive⟩
      rw [hd] at halive
      cases halive

/-- **One step** in which threads are started and processes exit as they should. -/
theorem Awake.step (h : s.Awake) (hs : Sound [] s) (hstart : s.StartsCreated e)
    (hexit : s.ExitsAwake e) (hstep : s.step e = some s') : s'.Awake := by
  obtain ⟨heff, -⟩ := step_effect hs.steady hstep
  cases heff with
  | moves hm => exact Awake.moves h hm
  | @start t _ _ _ =>
    have ht := hstart t rfl
    have hnot := hs.placed.listed.not_mem_of_created ht
    refine ⟨fun l hl u hu => ?_, fun u hu => ?_⟩
    · rcases mem_push.mp hu with hu | ⟨rfl, -⟩
      · have hut : u ≠ t := by
          rintro rfl
          exact hnot l hu
        rw [state_started, if_neg hut]
        exact h.lists l hl u hu
      · exact absurd rfl hl
    obtain ⟨hn, hd⟩ := h.exits u hu
    have hut : u ≠ t := by
      rintro rfl
      rw [ht] at hd
      cases hd
    refine ⟨hn, ?_⟩
    rw [state_started, if_neg hut]
    exact hd
  | @create _ _ _ _ _ _ _ s1 hi hstack =>
    have h1 : s1.Awake := by
      rw [hstack.eq]
      exact h.congr
    have hl1 : Listed [] s1 := by
      rw [hstack.eq]
      exact hs.placed.listed.sublist (fun _ => List.Sublist.refl _) (fun _ => rfl) rfl
    refine ⟨fun l hl t ht => ?_, fun t ht => ?_⟩
    · rw [state, thread_created_of_ne (hl1.exist l t ht).ne]
      exact h1.lists l hl t ht
    · rw [state, thread_created_of_ne (h1.exits t ht).1.ne]
      exact ⟨Nat.lt_succ_of_lt (h1.exits t ht).1, (h1.exits t ht).2⟩
  | spawn => exact h.congr
  | init htodo hi hx =>
    exact h.congr (List.Subset.refl _) fun _ =>
      congrArg _ (state_initialised.trans (state_modifyThread rfl))
  | initKernel htodo hk =>
    exact h.congr (List.Subset.refl _) fun _ => congrArg _ (state_modifyThread rfl)
  | exit hm => exact Awake.moves (h.exited hs.placed) hm
  | processExit hm => exact Awake.moves (h.processExited hs.placed.listed (hexit rfl)) hm
  | @cleanThread t threadList _ hl ht hc =>
    have h1 : ({ s with threadList } : Tasks).Awake :=
      h.congr (ht ▸ subset_cons_self _ _)
    exact h1.cleans (h.exits t (ht ▸ mem_cons_self)).2 hc
  | @cleanProcess _ processList _ hl hp hc =>
    have h1 : ({ s with processList } : Tasks).Awake :=
      h.congr
    exact h1.cleansProcess hc

/-- No thread that is cleaned up leads to the panic of `SetState`. -/
theorem Awake.not_cleanFault (h : s.Awake) (hp : Placed waiting (.running, s))
    (ht : t ≠ sleepThread) (hd : (s.state t).isDying = true) : ¬CleanFault t s .dyingSetState := by
  intro hf
  cases hf with
  | stops hc hstop => exact Awake.not_stops (h.cleaning _ hd) (hp.cleaning _ ht hc) hstop

/-- No event leads to the panic of `SetState`. -/
theorem Awake.not_dying (h : s.Awake) (hs : Sound [] s) (hexit : s.ExitsAwake e) : s.fault e ≠ some .dyingSetState := by
  intro hf
  have hp := possible_of_fault hf
  have hfail := fault_failure hs.steady hf
  cases hfail with
  | moves hstop => exact Awake.not_stops h hs.placed hstop
  | memory hf => simp at hf
  | init _ hf => rcases hf with hf | ⟨_, hf⟩ <;> cases hf
  | exit hstop => exact Awake.not_stops (h.exited hs.placed) (hs.placed.exited hp.1) hstop
  | processExit hstop =>
    exact Awake.not_stops (h.processExited hs.placed.listed (hexit rfl)) (hs.placed_processExited hp.1 hp.2.1 _) hstop
  | @cleanThread t threadList _ hl ht hc =>
    have h1 : ({ s with threadList } : Tasks).Awake :=
      h.congr (ht ▸ subset_cons_self _ _)
    have hp1 : Placed [] (.running, { s with threadList }) :=
      hs.placed.congr
    have hmem : t ∈ s.threadList := ht ▸ mem_cons_self
    refine h1.not_cleanFault hp1 (fun h0 => ?_) (h.exits t hmem).2 hc
    exact hs.stable.exits (h0 ▸ hmem)
  | @cleanProcess p processList _ hl hlist hc =>
    cases hc with
    | thread hts hall ht hf =>
      have h1 : (({ s with processList } : Tasks).processCleaning p).Awake :=
        h.congr
      have hp1 : Placed [] (.running, ({ s with processList } : Tasks).processCleaning p) :=
        hs.placed.congr
      have hp2 := hp1.cleansAll hall
      exact (h1.cleansAll hall).not_cleanFault hp2 (hp2.ne_sleepThread ht) (by rw [ht]; rfl) hf

theorem awake_boot (system : System) (single : Nat → Bool) (caps : CapabilityTable)
    (heap : KernelHeap PhysicalMemoryManager) :
    (boot system single caps heap).Awake := by
  refine ⟨fun l hl t ht => ?_, fun t ht => ?_⟩
  · simp [boot, hl] at ht
  · cases ht

/-- **`SetState` is never called on a dying thread** in a run in which every thread is started while
it is `CREATED`, and every process exits while none of its threads sleeps or is blocked. -/
theorem run_setState_alive (system : System) (single : Nat → Bool) (caps : CapabilityTable)
    (heap : KernelHeap PhysicalMemoryManager) {events : List Event}
    {e : Event}
    (hok : Runs.Meets step (fun s e => s.StartsCreated e ∧ s.ExitsAwake e) (boot system single caps heap) (events ++ [e]))
    (hrun : Runs.run step (boot system single caps heap) events = some s) : s.fault e ≠ some .dyingSetState := by
  obtain ⟨hok, hlast⟩ := Runs.meets_concat.mp hok
  have hinv : Sound [] s ∧ s.Awake := by
    refine Runs.run_invariant (P := fun s => Sound [] s ∧ s.Awake) (fun s₁ e s₂ h₁ hok hstep => ?_)
      ⟨sound_boot system single caps heap [], awake_boot system single caps heap⟩ hok hrun
    exact ⟨h₁.1.step_created hok.1 hstep, h₁.2.step h₁.1 hok.1 hok.2 hstep⟩
  exact hinv.2.not_dying hinv.1 (hlast s hrun).2

theorem run_setState_alive_sleepingThread :
    ∃ s, Runs.run step smallBoot (sleepingThread ++ [.tick, .tick]) = some s ∧ s.fault .tick ≠ some .dyingSetState := by
  have h : (Runs.run step smallBoot (sleepingThread ++ [.tick, .tick])).isSome = true := by
    decide +kernel
  obtain ⟨s, hrun⟩ := isSome_iff_exists.mp h
  exact ⟨s, hrun, run_setState_alive _ _ _ _ (by decide +kernel) hrun⟩

/-- **A process exits while one of its threads sleeps**: the tick on which the thread would wake stops
the kernel. -/
theorem processExit_wakes_dying_thread :
    (Runs.run step smallBoot (sleepingThread ++ [.call (.processExit 0), .tick, .tick])).map
      (fun s => s.fault .tick) = some (some .dyingSetState) := by
  decide +kernel

end Acadia.Zion.Tasks
