import Acadia.Zion.Scheduler.Moves

/-! # Which moves the functions make

For each function of the scheduler, of mutexes, semaphores and message queues, a rule that says which moves it makes,
and after which it stops the kernel. A queue is left locked only by the sleep thread, in an interrupt. -/

namespace Acadia.Zion.Tasks

open Command Glacier Relation List Function

variable {s s' : Tasks} {t u : Nat} {l l' : ThreadList}

/-! ## The functions of `Scheduler` -/

variable {E : Fault → Tasks → Prop}

@[simp] theorem wp_setState (x : ThreadState) {Q : Unit → Tasks → Prop} : wp (setState t x) Q E s ↔
      if (s.state t).isDying then E .dyingSetState s else Q () (s.writeState t x) := by
  simp only [setState, wp_bind, wp_gets, wp_ite, wp_stop, wp_update]

theorem wp_swapToCurrent {Q : Unit → Tasks → Prop} : wp swapToCurrent Q E s ↔
      if s.state s.current = .runnable then Q () (s.writeState s.current .running)
      else E .swappingNonRunnable s := by
  simp only [swapToCurrent, wp_bind, wp_gets, wp_ite, wp_stop, wp_setState]
  by_cases h : s.state s.current = .runnable
  · rw [if_neg (not_not.mpr h), if_pos h, h]
    rfl
  · rw [if_pos h, if_neg h]

theorem isDying_of_clearDeadThreadsFromFront {next : Nat} {rest : List Nat}
    (h : s.clearDeadThreadsFromFront.lists .runnable = next :: rest) :
    (s.clearDeadThreadsFromFront.state next).isDying = false := by
  have hd : (s.lists .runnable).dropWhile (fun t => (s.state t).isDying) = next :: rest := by
    exact h
  have hne : (s.lists .runnable).dropWhile (fun t => (s.state t).isDying) ≠ [] := by
    rw [hd]
    exact cons_ne_nil _ _
  have hhead := head_dropWhile_not (fun t => (s.state t).isDying) hne
  simp only [hd, head_cons] at hhead
  exact hhead

/-- The rule for `Yield`. -/
theorem wp_yield (p : Phase) (he : s.enabled = true) :
    wp yield (fun _ s' => Moves (p, s) (.running, s') ∧ Keeps s s') (fun f _ => Stops (p, s) f) s := by
  simp only [yield, wp_bind, wp_gets, wp_update, he, Bool.not_true, Bool.false_eq_true, if_false]
  have hc : Moves (p, s) (p, s.clearDeadThreadsFromFront) := .single .clear
  cases hr : s.clearDeadThreadsFromFront.lists .runnable with
  | nil =>
    simp only [wp_bind, wp_update, wp_ite, wp_stop, wp_swapToCurrent]
    split
    · rename_i hs
      exact .of_moves hc (Cause.sleep hr hs).stops
    · rename_i hs
      split
      · rename_i hi
        exact ⟨hc.tail (.idle hr hs hi), rfl, rfl, rfl⟩
      · rename_i hi
        exact .of_moves hc (Cause.idle hr hs hi).stops
  | cons =>
    have hnd := isDying_of_clearDeadThreadsFromFront hr
    simp only [wp_bind, wp_update, wp_gets, wp_ite, wp_setState, wp_swapToCurrent]
    -- `released` takes the same branch as the code.
    split
    · rename_i h
      have hrel : s.clearDeadThreadsFromFront.released =
          s.clearDeadThreadsFromFront.writeState s.current .runnable := if_pos h
      rw [if_neg (by simpa using h.2)]
      split
      · rename_i hn
        have hm : Move (p, s.clearDeadThreadsFromFront) _ := .switch hr (hrel ▸ hn)
        rw [hrel] at hm
        exact ⟨hc.tail hm, rfl, rfl, rfl⟩
      · rename_i hn
        exact .of_moves hc (Cause.switch hr hnd (hrel ▸ hn)).stops
    · rename_i h
      have hrel : s.clearDeadThreadsFromFront.released = s.clearDeadThreadsFromFront := if_neg h
      split
      · rename_i hn
        have hm : Move (p, s.clearDeadThreadsFromFront) _ := .switch hr (hrel.symm ▸ hn)
        rw [hrel] at hm
        exact ⟨hc.tail hm, rfl, rfl, rfl⟩
      · rename_i hn
        exact .of_moves hc (Cause.switch hr hnd (hrel.symm ▸ hn)).stops

/-- The current thread is still the same after some moves. -/
structure Stays (p : Phase) (s : Tasks) (p' : Phase) (s' : Tasks) : Prop where
  moves : Moves (p, s) (p', s')
  current : s'.current = s.current
  keeps : Keeps s s'

/-- The processor has been given away after some moves. -/
structure Yields (p : Phase) (s s' : Tasks) : Prop where
  moves : Moves (p, s) (.running, s')
  keeps : Keeps s s'

theorem Stays.refl (p : Phase) (s : Tasks) : Stays p s p s := ⟨.refl, rfl, .refl s⟩

theorem Stays.trans {p1 p2 p3 : Phase} {s1 s2 s3 : Tasks} (h : Stays p1 s1 p2 s2)
    (h' : Stays p2 s2 p3 s3) : Stays p1 s1 p3 s3 :=
  ⟨h.moves.trans h'.moves, h'.current.trans h.current, h.keeps.trans h'.keeps⟩

/-- The rule for `Yield` at the end of a function. -/
theorem Stays.wp_yield {p p' : Phase} (h : Stays p s p' s') (he : s.enabled = true) :
    wp yield (fun _ => Yields p s) (fun f _ => Stops (p, s) f) s' := by
  refine wp_mono (Tasks.wp_yield p' (h.keeps.enabled.trans he)) (fun _ s'' hy => ?_) fun f _ hc => ?_
  · exact ⟨h.moves.trans hy.1, h.keeps.trans hy.2⟩
  · exact .of_moves h.moves hc

/-- A function has woken a thread, or has found none to wake: the sleep thread is switched away from
when it wakes a thread, and no other thread is. -/
inductive Woken (p : Phase) (s : Tasks) : Bool → Tasks → Prop where
  | away {s' : Tasks} : s.current = sleepThread → Yields p s s' → Woken p s true s'
  | stayed {s' : Tasks} : Stays p s p s' → Woken p s false s'

variable {r interrupt : Bool}

theorem Woken.of_stays {p : Phase} {s'' : Tasks} (h : Stays p s p s') (h' : Woken p s' r s'') : Woken p s r s'' := by
  cases h' with
  | away hs hy => exact .away (h.current ▸ hs) ⟨h.moves.trans hy.moves, h.keeps.trans hy.keeps⟩
  | stayed hst => exact .stayed (h.trans hst)

theorem Woken.stays {p : Phase} (h : Woken p s r s') (hs : s.current ≠ sleepThread) : Stays p s p s' := by
  cases h with
  | away hs' => exact absurd hs' hs
  | stayed h => exact h

theorem Woken.moves (h : Woken .running s r s') : Moves (.running, s) (.running, s') := by
  cases h with
  | away _ hy => exact hy.moves
  | stayed h => exact h.moves

theorem Woken.keeps {p : Phase} (h : Woken p s r s') : Keeps s s' := by
  cases h with
  | away _ hy => exact hy.keeps
  | stayed h => exact h.keeps

/-- The rule for waking: the thread is taken from its list, and `Enqueue` is called. -/
theorem wp_wakeThread (p : Phase) (he : s.enabled = true) (hl : l ≠ .runnable) (ht : t ∈ s.lists l) :
    wp (do setState t .runnable; enqueue t) (Woken p s) (fun f _ => Stops (p, s) f)
      (s.setList l ((s.lists l).erase t)) := by
  simp only [enqueue, wp_bind, wp_setState, wp_update, wp_gets, wp_ite, wp_pure]
  split
  · rename_i hd
    exact (Cause.wake hl ht hd).stops
  · rename_i hd
    have hst : Stays p s p _ :=
      ⟨.single (.wake hl ht ((Bool.not_eq_true _).mp hd)), rfl, rfl, rfl, rfl⟩
    split
    · rename_i hs
      exact wp_mono (hst.wp_yield he) (fun _ s' hy => .away hs hy) fun f _ hf => hf
    · exact .stayed hst

theorem wp_wake (p : Phase) (he : s.enabled = true) (hl : l ≠ .runnable) :
    wp (wake l) (Woken p s) (fun f _ => Stops (p, s) f) s := by
  simp only [wake, wp_bind, wp_gets]
  cases hr : s.lists l with
  | nil => exact .stayed (.refl p s)
  | cons =>
    have h := wp_wakeThread p he hl (hr ▸ mem_cons_self)
    rwa [hr, erase_cons_head] at h

theorem wp_block (hs : s.current ≠ sleepThread) (hl : l.state = .blocked)
    (hx : l = .semaphore .cleanup → s.current = cleanupThread) :
    wp (block l) (fun _ => Stays .running s .leaving) (fun f _ => Stops (.running, s) f) s := by
  simp only [block, wp_bind, wp_gets, wp_setState, wp_update]
  split_ifs with hd
  · exact (Cause.current hd).stops
  · have hr : l ≠ .runnable := fun h => by
      rw [h] at hl
      cases hl
    have hm := Move.block hr hs hx ((Bool.not_eq_true _).mp hd)
    rw [hl] at hm
    exact ⟨.single hm, rfl, rfl, rfl, rfl⟩

variable {k : Continuation}

theorem wp_later (p : Phase) (hs : s.current ≠ sleepThread) (hk : k ≠ .init)
    (hx : k = .wait .cleanup → s.current = cleanupThread) : wp (later k) (fun _ => Stays p s p) E s :=
  ⟨.single (.later _ k (fun h => absurd h hs) hk hx), rfl, rfl, rfl, rfl⟩

/-- The rule for a thread that blocks and goes on with `k` when it is woken. -/
theorem wp_waitOn (hs : s.current ≠ sleepThread) (he : s.enabled = true) (hl : l.state = .blocked)
    (hk : k ≠ .init) (hx : l = .semaphore .cleanup ∨ k = .wait .cleanup → s.current = cleanupThread) :
    wp (waitOn l k) (fun _ => Yields .running s) (fun f _ => Stops (.running, s) f) s := by
  rw [waitOn, wp_bind]
  refine wp_mono (wp_block hs hl fun h => hx (.inl h)) (fun _ s1 h1 => ?_) fun f _ hf => hf
  rw [wp_bind]
  rw [← h1.current] at hs hx
  refine wp_mono (wp_later .leaving hs hk fun h => hx (.inr h)) (fun _ s2 h2 => ?_) fun f _ hf => hf
  exact (h1.trans h2).wp_yield he

theorem wp_decrementThread {ts : List Nat} (hts : (t :: ts).Subperm (s.lists .sleeping)) :
    wp (decrementThread t) (fun _ s' => Stays .running s .running s' ∧ ts.Subperm (s'.lists .sleeping))
      (fun f _ => Stops (.running, s) f) s := by
  simp only [decrementThread, wp_bind, wp_gets, wp_ite, wp_update, wp_setState, wp_pure]
  obtain ⟨s1, hs1⟩ : ∃ s1, s1 = s.modifyThread t fun th =>
    { th with sleepTicks := th.sleepTicks - 1 } := ⟨_, rfl⟩
  rw [← hs1]
  have hst : Stays .running s .running s1 := by
    rw [hs1]
    exact ⟨.single (.ticks t _), rfl, rfl, rfl, rfl⟩
  replace hts : (t :: ts).Subperm (s1.lists .sleeping) := by
    rw [hs1]
    exact hts
  have ht : t ∈ s1.lists .sleeping := hts.subset mem_cons_self
  split
  · split_ifs with hd
    · exact .of_moves hst.moves (Cause.wake (by decide) ht hd).stops
    · refine ⟨hst.trans ⟨.single (.wake (by decide) ht ((Bool.not_eq_true _).mp hd)), rfl, ⟨rfl, rfl, rfl⟩⟩, ?_⟩
      have h := hts.erase t
      rwa [erase_cons_head] at h
  · exact ⟨hst, (sublist_cons_self t ts).subperm.trans hts⟩

/-- The rule for `DecrementSleepingThreads`. -/
theorem wp_decrementSleepingThreads : wp decrementSleepingThreads (fun _ => Stays .running s .running)
      (fun f _ => Stops (.running, s) f) s := by
  rw [decrementSleepingThreads, wp_bind, wp_gets, wp_bind]
  refine wp_mono (wp_each_rest (I := fun ts s' => Stays .running s .running s' ∧
    ts.Subperm (s'.lists .sleeping)) (fun t ts s1 h1 => ?_) ⟨.refl _ _, List.Subperm.refl _⟩)
    (fun _ s' h => h.1) fun f _ hf => hf
  refine wp_mono (wp_decrementThread h1.2) (fun _ s2 h2 => ?_) fun f _ hf => ?_
  · exact ⟨h1.1.trans h2.1, h2.2⟩
  · exact .of_moves h1.1.moves hf

/-- **The rule for `Preempt`.** -/
theorem wp_preempt (he : s.enabled = true) :
    wp preempt (fun _ => Yields .running s) (fun f _ => Stops (.running, s) f) s := by
  simp only [preempt, wp_bind, wp_gets, he, Bool.not_true, Bool.false_eq_true, if_false]
  refine wp_mono wp_decrementSleepingThreads (fun _ s1 h1 => ?_) fun f _ hf => hf
  simp only [wp_bind, wp_update, wp_gets]
  have hc := h1.moves.tail .clear
  cases hr : s1.clearDeadThreadsFromFront.lists .runnable with
  | nil => exact ⟨hc, h1.keeps.trans ⟨rfl, rfl, rfl⟩⟩
  | cons =>
    simp only [wp_bind, wp_gets, wp_update, wp_setState, wp_swapToCurrent]
    split
    · rename_i hd
      exact .of_moves hc (Cause.current hd).stops
    · rename_i hd
      split_ifs with hn
      · exact ⟨hc.tail (.preempt hr ((Bool.not_eq_true _).mp hd) hn), h1.keeps.trans ⟨rfl, rfl, rfl⟩⟩
      · exact .of_moves hc (Cause.preempt hr (isDying_of_clearDeadThreadsFromFront hr) hn).stops

/-- The rule for `Sleep`. -/
theorem wp_sleep {millis : UInt64} (hs : s.current ≠ sleepThread) (he : s.enabled = true) :
    wp (sleep millis) (fun _ => Yields .running s) (fun f _ => Stops (.running, s) f) s := by
  simp only [sleep, wp_bind, wp_gets, wp_update, wp_setState]
  obtain ⟨s1, hs1⟩ : ∃ s1, s1 = s.modifyThread s.current fun th =>
    { th with sleepTicks := millis / 50 + 1 } := ⟨_, rfl⟩
  rw [← hs1]
  have hst : Stays .running s .running s1 := by
    rw [hs1]
    exact ⟨.single (.ticks _ _), rfl, rfl, rfl, rfl⟩
  rw [← hst.current] at hs ⊢
  split_ifs with hd
  · exact .of_moves hst.moves (Cause.current hd).stops
  · have hm := Move.block (l := .sleeping) (by decide) hs (by simp) ((Bool.not_eq_true _).mp hd)
    exact (hst.trans ⟨.single hm, rfl, rfl, rfl, rfl⟩).wp_yield he

/-! ## Mutexes, semaphores and message queues -/

/-- Only an interrupt that is not acknowledged yet holds the mutex of a queue while another thread
runs. -/
def QueueLocks (s : Tasks) : Prop := ∀ q, s.locked (.queue q) = true → s.inService q = true

theorem Keeps.queueLocks (h : Keeps s s') (hq : s.QueueLocks) : s'.QueueLocks := by
  intro q
  rw [h.locked, h.inService]
  exact hq q

/-- What a function that takes mutexes of queues does as a whole. -/
structure Completes (s s' : Tasks) : Prop where
  moves : Moves (.running, s) (.running, s')
  locks : s'.QueueLocks

theorem Yields.completes (h : Yields .running s s') (hq : s.QueueLocks) : Completes s s' :=
  ⟨h.moves, h.keeps.queueLocks hq⟩

theorem Completes.of_moves {s'' : Tasks} (h : Moves (.running, s) (.running, s'))
    (h' : Completes s' s'') : Completes s s'' :=
  ⟨h.trans h'.moves, h'.locks⟩

/-- A thread takes a mutex, or waits for it. -/
inductive Locks (m : MutexId) (s : Tasks) : Bool → Tasks → Prop where
  | taken : Locks m s true { s with locked := update s.locked m true }
  | waits {s' : Tasks} : Yields .running s s' → Locks m s false s'

/-- The rule for `Mutex::Lock`. -/
theorem wp_lock {m : MutexId} (hs : s.current ≠ sleepThread ∨ s.locked m = false) (he : s.enabled = true)
    (hk : k ≠ .init) (hx : k ≠ .wait .cleanup) : wp (lock m k) (Locks m s) (fun f _ => Stops (.running, s) f) s := by
  simp only [lock, wp_bind, wp_gets, wp_ite, wp_update, wp_pure]
  split_ifs with hm
  · have hs' : s.current ≠ sleepThread := hs.resolve_right (by simp [hm])
    exact wp_mono (wp_waitOn hs' he rfl hk (by simp [hx])) (fun _ _ h => .waits h) fun f _ hf => hf
  · exact .taken

/-- The rule for `Mutex::Release`. -/
theorem wp_release (p : Phase) {m : MutexId} (he : s.enabled = true) :
    wp (release m) (Woken p { s with locked := update s.locked m false }) (fun f _ => Stops (p, s) f) s := by
  refine wp_mono (wp_wake p he (fun h => by cases h)) (fun _ _ h => h) fun f _ hf => ?_
  exact .of_moves (.single (.locks _ s.inService)) hf

theorem QueueLocks.object (h : s.QueueLocks) (m : Nat) (b : Bool) :
    ({ s with locked := update s.locked (.object m) b }).QueueLocks := by
  intro q hl
  replace hl : update s.locked (.object m) b (.queue q) = true := hl
  exact h q hl

/-- The rule for the syscall `MutexLock`. -/
theorem wp_mutexLock {m : Nat} (hs : s.current ≠ sleepThread) (he : s.enabled = true) (hq : s.QueueLocks) :
    wp (do let _ ← lock (.object m) (.lock m)) (fun _ => Completes s) (fun f _ => Stops (.running, s) f) s := by
  rw [wp_bind]
  refine wp_mono (wp_lock (.inl hs) he (by simp) (by simp)) (fun r s' h => ?_) fun f _ hf => hf
  cases h with
  | taken => exact ⟨.single (.locks _ s.inService), hq.object m true⟩
  | waits hy => exact hy.completes hq

/-- The rule for the syscall `MutexRelease`. -/
theorem wp_mutexRelease {m : Nat} (he : s.enabled = true) (hq : s.QueueLocks) :
    wp (do let _ ← release (.object m)) (fun _ => Completes s) (fun f _ => Stops (.running, s) f) s := by
  rw [wp_bind]
  refine wp_mono (wp_release .running he) (fun r s' h => ?_) fun f _ hf => hf
  exact ⟨.head (.locks _ s.inService) h.moves, h.keeps.queueLocks (hq.object m false)⟩

/-- The rule for `Semaphore::Wait`. -/
theorem wp_semaphoreWait {x : SemaphoreId} (hs : s.current ≠ sleepThread) (he : s.enabled = true)
    (hx : x = .cleanup → s.current = cleanupThread) :
    wp (semaphoreWait x) (fun _ => Yields .running s) (fun f _ => Stops (.running, s) f) s := by
  simp only [semaphoreWait, wp_bind, wp_gets, wp_ite, wp_update]
  split
  · exact wp_waitOn hs he rfl (by simp) (by simpa using hx)
  · exact ⟨.single (.aside _ s.pending s.inThreadLoop s.system s.heap), rfl, rfl, rfl⟩

/-- The rule for `Semaphore::Signal`. -/
theorem wp_semaphoreSignal (p : Phase) {x : SemaphoreId} (he : s.enabled = true) :
    wp (semaphoreSignal x) (Woken p s) (fun f _ => Stops (p, s) f) s := by
  have hst : Stays p s p _ := ⟨.single (.aside (update s.count x (s.count x + 1)) s.pending
    s.inThreadLoop s.system s.heap), rfl, rfl, rfl, rfl⟩
  refine wp_mono (wp_wake p he (fun h => by cases h)) (fun _ _ h => .of_stays hst h) fun f _ hf => ?_
  exact .of_moves hst.moves hf

/-- The mutexes of the queues other than `q`. -/
def OtherQueueLocks (q : Nat) (s : Tasks) : Prop :=
  ∀ q', q' ≠ q → s.locked (.queue q') = true → s.inService q' = true

theorem QueueLocks.other (h : s.QueueLocks) (q : Nat) : s.OtherQueueLocks q := fun q' _ => h q'

theorem QueueLocks.lock (h : s.QueueLocks) (q : Nat) :
    ({ s with locked := update s.locked (.queue q) true }).OtherQueueLocks q := by
  intro q' hq' hl
  replace hl : update s.locked (.queue q) true (.queue q') = true := hl
  rw [update_of_ne (fun h => hq' (by cases h; rfl))] at hl
  exact h q' hl

variable {q : Nat}

theorem OtherQueueLocks.release (h : s.OtherQueueLocks q) :
    ({ s with locked := update s.locked (.queue q) false }).QueueLocks := by
  intro q' hl
  replace hl : update s.locked (.queue q) false (.queue q') = true := hl
  by_cases hq' : q' = q
  · rw [hq', update_self] at hl
    cases hl
  · rw [update_of_ne (fun h => hq' (by cases h; rfl))] at hl
    exact h q' hq' hl

theorem Keeps.otherQueueLocks (h : Keeps s s') (hq : s.OtherQueueLocks q) : s'.OtherQueueLocks q := by
  intro q'
  rw [h.locked, h.inService]
  exact hq q'

theorem wp_release_queue (p : Phase) (he : s.enabled = true) (hq : s.OtherQueueLocks q) :
    wp (release (.queue q)) (fun _ s' => (p = .running → Completes s s') ∧
        (s.current ≠ sleepThread → Moves (p, s) (p, s') ∧ s'.current = s.current ∧ s'.enabled = true ∧ s'.QueueLocks))
      (fun f _ => Stops (p, s) f) s := by
  refine wp_mono (wp_release p he) (fun r s' h => ⟨fun hp => ?_, fun hs => ?_⟩) fun f _ hf => hf
  · subst hp
    exact ⟨.head (.locks _ s.inService) h.moves, h.keeps.queueLocks hq.release⟩
  · have hst := h.stays hs
    exact ⟨.head (.locks _ s.inService) hst.moves, hst.current, hst.keeps.enabled.trans he,
      hst.keeps.queueLocks hq.release⟩

/-- The rule for the end of `PushBack`. -/
theorem wp_endPush (he : s.enabled = true) (hq : s.OtherQueueLocks q) :
    wp (endPush q interrupt) (fun _ => Completes s) (fun f _ => Stops (.running, s) f) s := by
  simp only [endPush, wp_bind, wp_ite, wp_update]
  split
  · -- The interrupt is acknowledged first.
    have hm : Moves (.running, s) (.running, _) :=
      .single (.locks s.locked (update s.inService q false))
    have hq1 : ({ s with inService := update s.inService q false }).OtherQueueLocks q := by
      intro q' hq' hl
      show update s.inService q false q' = true
      rw [update_of_ne hq']
      exact hq q' hq' hl
    refine wp_mono (wp_release_queue .running he hq1) (fun _ s' h => ?_) fun f _ hf => ?_
    · exact .of_moves hm (h.1 rfl)
    · exact .of_moves hm hf
  · exact wp_mono (wp_release_queue .running he hq) (fun _ s' h => h.1 rfl) fun f _ hf => hf

theorem wp_lock_queue {m : Task Unit} (hs : s.current ≠ sleepThread ∨ s.locked (.queue q) = false)
    (he : s.enabled = true) (hk : k ≠ .init) (hx : k ≠ .wait .cleanup) (hq : s.QueueLocks)
    (hm : ∀ s1 : Tasks, Moves (.running, s) (.running, s1) → s1.OtherQueueLocks q →
      s1.enabled = true → s1.current = s.current → s1.inService = s.inService →
      wp m (fun _ => Completes s) (fun f _ => Stops (.running, s) f) s1) :
    wp (do if ← lock (.queue q) k then m) (fun _ => Completes s) (fun f _ => Stops (.running, s) f) s := by
  rw [wp_bind]
  refine wp_mono (wp_lock hs he hk hx) (fun r s1 h1 => ?_) fun f _ hf => hf
  cases h1 with
  | waits hy => exact hy.completes hq
  | taken => exact hm _ (.single (.locks _ s.inService)) (hq.lock q) he rfl rfl

/-- **The rule for `PushBack`**, in a call or in an interrupt. -/
theorem wp_pushBack
    (hs : s.current ≠ sleepThread ∨ s.locked (.queue q) = false ∧ interrupt = true ∧ s.inService q = true)
    (he : s.enabled = true) (hq : s.QueueLocks) :
    wp (pushBack q interrupt) (fun _ => Completes s) (fun f _ => Stops (.running, s) f) s := by
  refine wp_lock_queue (hs.imp_right And.left) he (by simp) (by simp) hq fun s1 hm hq1 he1 hc1 hi1 => ?_
  simp only [wp_bind, wp_gets, wp_ite, wp_update]
  split
  · exact wp_mono (wp_endPush he1 hq1) (fun _ s' h => .of_moves hm h) fun f _ hf => .of_moves hm hf
  have hm2 := hm.tail (.aside s1.count (update s1.pending q (s1.pending q + 1)) s1.inThreadLoop s1.system
    s1.heap)
  refine wp_mono (wp_wake .running he1 (fun h => by cases h)) (fun r s3 h3 => ?_) fun f _ hf => .of_moves hm2 hf
  cases h3 with
  | away hc hy =>
    -- The sleep thread has the mutex until it goes on, but in an interrupt.
    obtain ⟨-, hi, hin⟩ := hs.resolve_left (not_not.mpr (hc1 ▸ hc))
    have hk : (Continuation.endPush q interrupt).IsIdle := hi
    refine ⟨(hm2.trans hy.moves).tail (.later _ _ (fun _ => hk) (by simp) (by simp)), ?_⟩
    refine hy.keeps.queueLocks fun q' hl => ?_
    by_cases hqq : q' = q
    · rw [hqq]
      exact hi1 ▸ hin
    · exact hq1 q' hqq hl
  | stayed hst =>
    have hm3 := hm2.trans hst.moves
    refine wp_mono (wp_endPush (hst.keeps.enabled.trans he1)
      (hst.keeps.otherQueueLocks hq1)) (fun _ s' h => .of_moves hm3 h) fun f _ hf => ?_
    exact .of_moves hm3 hf

/-- **The rule for `PopFront`.** -/
theorem wp_popFront {fits : Bool} (hs : s.current ≠ sleepThread) (he : s.enabled = true) (hq : s.QueueLocks) :
    wp (popFront q fits) (fun _ => Completes s) (fun f _ => Stops (.running, s) f) s := by
  refine wp_lock_queue (.inl hs) he (by simp) (by simp) hq fun s1 hm hq1 he1 hc1 _ => ?_
  rw [← hc1] at hs
  simp only [wp_bind, wp_gets, wp_ite]
  split
  · -- The thread blocks before it releases the mutex.
    refine wp_mono (wp_block hs rfl (by simp)) (fun _ s2 h2 => ?_) fun f _ hf => .of_moves hm hf
    have hm2 := hm.trans h2.moves
    rw [wp_bind]
    refine wp_mono (wp_release_queue .leaving (h2.keeps.enabled.trans he1)
      (h2.keeps.otherQueueLocks hq1)) (fun _ s3 h3 => ?_) fun f _ hf => .of_moves hm2 hf
    obtain ⟨hm3, hc3, he3, hq3⟩ := h3.2 (h2.current ▸ hs)
    replace hm3 := hm2.trans hm3
    rw [wp_bind]
    refine wp_mono (wp_later .leaving (hc3 ▸ h2.current ▸ hs) (by simp) (by simp)) (fun _ s4 h4 => ?_) fun f _ hf => hf
    refine wp_mono (h4.wp_yield he3) (fun _ s5 h5 => ?_) fun f _ hf => .of_moves hm3 hf
    exact ⟨hm3.trans h5.moves, h5.keeps.queueLocks hq3⟩
  · refine wp_mono (wp_release_queue .running he1 hq1) (fun _ s2 h2 => ?_) fun f _ hf => .of_moves hm hf
    obtain ⟨hm2, -, he2, hq2⟩ := h2.2 hs
    rw [wp_bind, wp_update, wp_bind]
    have hm3 := fun pending =>
      (hm.trans hm2).tail (.aside s2.count pending s2.inThreadLoop s2.system s2.heap)
    refine wp_mono (wp_release_queue .running he2 (hq2.other q)) (fun _ s' h => ?_) fun f _ hf => .of_moves (hm3 _) hf
    exact .of_moves (hm3 _) (h.1 rfl)

/-- The rule for `Thread::Wait`. -/
theorem wp_threadWait (hs : s.current ≠ sleepThread) (he : s.enabled = true) :
    wp (threadWait t) (fun _ => Yields .running s) (fun f _ => Stops (.running, s) f) s := by
  simp only [threadWait, wp_bind, wp_gets, wp_ite, wp_pure]
  split
  · exact ⟨.refl, .refl s⟩
  · exact wp_mono (wp_block hs rfl (by simp)) (fun _ s1 h1 => h1.wp_yield he) fun f _ hf => hf

end Acadia.Zion.Tasks
