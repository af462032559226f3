import Acadia.Foundations.Runs

/-! # `Mutex`

`object/mutex.cpp`: any number of threads run `Lock` and `Release`, interleaved between any two of their steps.
Those of `Lock` are the test-and-set of `lock_`, the marking and queueing of a thread that failed, and its yield;
those of `Release` clear `lock_` and wake the first thread in the queue. -/

namespace Acadia.Zion

open List Option Runs

/-- Where a thread is in the code of a mutex. -/
inductive MutexPlace where
  /-- In neither `Lock` nor `Release`, without the mutex. -/
  | outside
  /-- In `Lock`: the test-and-set found the mutex taken. -/
  | failed
  /-- In `Lock`: marked `BLOCKED` and appended to `blocked_threads_`. -/
  | queued
  /-- In `Lock`: it has yielded. -/
  | asleep
  /-- Past `Lock` and before `Release`. -/
  | holds
  /-- In `Release`: `lock_` is cleared. -/
  | releasing
  deriving DecidableEq

/-- A `Mutex` and the threads that use it. -/
structure Mutex where
  lock : UInt8 := 0
  blockedThreads : List Nat := []
  place : Nat → MutexPlace := fun _ => .outside

/-- A step of a thread. -/
inductive MutexStep where
  /-- `Lock` is called, and tests and sets `lock_`. -/
  | lock (t : Nat)
  /-- `Lock` marks the thread `BLOCKED` and appends it to `blocked_threads_`. -/
  | block (t : Nat)
  /-- `Lock` yields. -/
  | yield (t : Nat)
  /-- `Lock` goes on in a thread that was woken, and tests and sets `lock_` again. -/
  | retry (t : Nat)
  /-- `Release` clears `lock_`. -/
  | clear (t : Nat)
  /-- `Release` wakes the first thread in the queue, and returns. -/
  | wake (t : Nat)
  deriving DecidableEq

namespace Mutex

/-- Moves a thread. -/
def moveTo (s : Mutex) (t : Nat) (place : MutexPlace) : Mutex :=
  { s with place := Function.update s.place t place }

/-- `__atomic_fetch_or(&lock_, 0x1)`, and the test of the value that it returns. -/
def testAndSet (s : Mutex) (t : Nat) : Mutex :=
  { s.moveTo t (if s.lock = 1 then .failed else .holds) with lock := s.lock ||| 1 }

/-- A thread that was woken and has not looked at `lock_` again. -/
def Woken (s : Mutex) (t : Nat) : Prop :=
  (s.place t = .queued ∨ s.place t = .asleep) ∧ t ∉ s.blockedThreads

/-- One step. There is no next state if the thread is elsewhere; only the holder releases. -/
def step (s : Mutex) : MutexStep → Option Mutex
  | .lock t => if s.place t = .outside then some (s.testAndSet t) else none
  | .block t =>
    if s.place t = .failed then
      some { s.moveTo t .queued with blockedThreads := s.blockedThreads ++ [t] }
    else none
  | .yield t => if s.place t = .queued then some (s.moveTo t .asleep) else none
  | .retry t =>
    if s.place t = .asleep ∧ t ∉ s.blockedThreads then some (s.testAndSet t) else none
  | .clear t =>
    if s.place t = .holds then some { s.moveTo t .releasing with lock := 0 } else none
  | .wake t =>
    if s.place t = .releasing then
      some { s.moveTo t .outside with blockedThreads := s.blockedThreads.tail }
    else none

/-! ## Mutual exclusion -/

/-- **What holds in every state**, whatever the order of the steps. -/
structure Invariant (s : Mutex) : Prop where
  flag : s.lock = 0 ∨ s.lock = 1
  /-- The mutex is taken while a thread holds it. -/
  taken : ∀ t, s.place t = .holds → s.lock = 1
  /-- At most one thread holds it. -/
  unique : ∀ t u, s.place t = .holds → s.place u = .holds → t = u
  /-- The threads in the queue are in the loop of `Lock`. -/
  listed : ∀ t ∈ s.blockedThreads, s.place t = .queued ∨ s.place t = .asleep
  nodup : s.blockedThreads.Nodup

theorem invariant_init : Invariant {} where
  flag := Or.inl rfl
  taken _ h := nomatch h
  unique _ _ h := nomatch h
  listed _ h := nomatch h
  nodup := nodup_nil

theorem moveTo_place (s : Mutex) (t u : Nat) (p : MutexPlace) :
    (s.moveTo t p).place u = if u = t then p else s.place u := Function.update_apply s.place t p u

theorem moveTo_self (s : Mutex) (t : Nat) (p : MutexPlace) : (s.moveTo t p).place t = p := by
  rw [moveTo_place, if_pos rfl]

variable {t u : Nat}

theorem moveTo_of_ne (s : Mutex) (p : MutexPlace) (h : u ≠ t) : (s.moveTo t p).place u = s.place u := by
  rw [moveTo_place, if_neg h]

variable {s s' : Mutex}

theorem holds_of_moveTo {p : MutexPlace} (hp : p ≠ .holds) (h : (s.moveTo t p).place u = .holds) :
    u ≠ t ∧ s.place u = .holds := by
  by_cases hut : u = t
  · subst hut
    rw [moveTo_self] at h
    exact absurd h hp
  · rw [moveTo_of_ne s p hut] at h
    exact ⟨hut, h⟩

theorem Invariant.listed_moveTo (h : Invariant s) (ht : t ∉ s.blockedThreads) (p : MutexPlace) :
    ∀ u ∈ s.blockedThreads, (s.moveTo t p).place u = .queued ∨ (s.moveTo t p).place u = .asleep := by
  intro u hu
  rw [moveTo_of_ne s p (ne_of_mem_of_not_mem hu ht)]
  exact h.listed u hu

/-- A thread outside the loop of `Lock` is not in the queue. -/
theorem Invariant.not_listed (h : Invariant s) (hq : s.place t ≠ .queued) (ha : s.place t ≠ .asleep) :
    t ∉ s.blockedThreads := fun hmem =>
  (h.listed t hmem).elim hq ha

/-- A test-and-set lets a thread pass only if nobody holds the mutex. -/
theorem Invariant.testAndSet (h : Invariant s) (ht : t ∉ s.blockedThreads) : Invariant (s.testAndSet t) := by
  have hset : (s.testAndSet t).lock = 1 := by
    show s.lock ||| 1 = 1
    rcases h.flag with hlock | hlock
    all_goals
      rw [hlock]
      rfl
  have hplace : ∀ u, (s.testAndSet t).place u =
      (s.moveTo t (if s.lock = 1 then .failed else .holds)).place u := fun _ => rfl
  refine ⟨Or.inr hset, fun _ _ => hset, ?_, h.listed_moveTo ht _, h.nodup⟩
  intro u v hu hv
  rw [hplace] at hu hv
  by_cases hlock : s.lock = 1
  · have hfailed : MutexPlace.failed ≠ .holds := nofun
    rw [if_pos hlock] at hu hv
    exact h.unique u v (holds_of_moveTo hfailed hu).2 (holds_of_moveTo hfailed hv).2
  · -- nobody held the mutex, so both are the thread that took it
    have hnew : ∀ w, (s.moveTo t (if s.lock = 1 then .failed else .holds)).place w = .holds → w = t := by
      intro w hw
      by_contra hwt
      rw [moveTo_of_ne s _ hwt] at hw
      exact hlock (h.taken w hw)
    rw [hnew u hu, hnew v hv]

/-- Moving a thread to a place where it does not hold the mutex, with `lock_` unchanged. -/
theorem Invariant.taken_moveTo (h : Invariant s) (t : Nat) {p : MutexPlace} (hp : p ≠ .holds) :
    ∀ u, (s.moveTo t p).place u = .holds → s.lock = 1 := fun u hu =>
  h.taken u (holds_of_moveTo hp hu).2

theorem Invariant.unique_moveTo (h : Invariant s) (t : Nat) {p : MutexPlace} (hp : p ≠ .holds) :
    ∀ u v, (s.moveTo t p).place u = .holds → (s.moveTo t p).place v = .holds → u = v := fun u v hu hv =>
  h.unique u v (holds_of_moveTo hp hu).2 (holds_of_moveTo hp hv).2

/-- **One step keeps the invariant.** -/
theorem Invariant.step {e : MutexStep} (h : Invariant s) (hstep : s.step e = some s') : Invariant s' := by
  cases e with
  | lock t =>
    obtain ⟨ht, ⟨⟩⟩ := ite_none_right_eq_some.mp hstep
    exact h.testAndSet (h.not_listed (by rw [ht]; nofun) (by rw [ht]; nofun))
  | block t =>
    obtain ⟨ht, ⟨⟩⟩ := ite_none_right_eq_some.mp hstep
    have hnew : t ∉ s.blockedThreads := h.not_listed (by rw [ht]; nofun) (by rw [ht]; nofun)
    refine ⟨h.flag, h.taken_moveTo t nofun, h.unique_moveTo t nofun, ?_, ?_⟩
    · intro u hu
      rcases mem_append.mp hu with hu | hu
      · exact h.listed_moveTo hnew _ u hu
      · rw [mem_singleton.mp hu]
        exact Or.inl (moveTo_self s t _)
    · exact nodup_append.mpr ⟨h.nodup, pairwise_singleton _ t, fun u hu v hv huv =>
        hnew (mem_singleton.mp hv ▸ huv ▸ hu)⟩
  | yield t =>
    obtain ⟨ht, ⟨⟩⟩ := ite_none_right_eq_some.mp hstep
    refine ⟨h.flag, h.taken_moveTo t nofun, h.unique_moveTo t nofun, ?_, h.nodup⟩
    intro u hu
    by_cases hut : u = t
    · rw [hut]
      exact Or.inr (moveTo_self s t _)
    · rw [moveTo_of_ne s _ hut]
      exact h.listed u hu
  | retry t =>
    obtain ⟨⟨-, hnew⟩, ⟨⟩⟩ := ite_none_right_eq_some.mp hstep
    exact h.testAndSet hnew
  | clear t =>
    obtain ⟨ht, ⟨⟩⟩ := ite_none_right_eq_some.mp hstep
    have hnew : t ∉ s.blockedThreads := h.not_listed (by rw [ht]; nofun) (by rw [ht]; nofun)
    refine ⟨Or.inl rfl, ?_, h.unique_moveTo t nofun, h.listed_moveTo hnew _, h.nodup⟩
    -- the only holder has gone
    have hreleasing : MutexPlace.releasing ≠ .holds := nofun
    intro u hu
    obtain ⟨hut, hholds⟩ := holds_of_moveTo hreleasing hu
    exact absurd (h.unique u t hholds ht) hut
  | wake t =>
    obtain ⟨ht, ⟨⟩⟩ := ite_none_right_eq_some.mp hstep
    have hnew : t ∉ s.blockedThreads := h.not_listed (by rw [ht]; nofun) (by rw [ht]; nofun)
    refine ⟨h.flag, h.taken_moveTo t nofun, h.unique_moveTo t nofun, ?_, h.nodup.tail⟩
    exact fun u hu => h.listed_moveTo hnew _ u (mem_of_mem_tail hu)

/-! ## Lost wake-ups -/

/-- **A lost wake-up**: a thread is in the queue, the mutex is free, and nobody is on the way to
take it or to wake that thread. -/
structure LostWakeUp (s : Mutex) : Prop where
  free : s.lock = 0
  /-- No `Release` is in progress. -/
  released : ∀ t, s.place t ≠ .releasing
  blocked : s.blockedThreads ≠ []
  /-- No woken thread is on its way to retry. -/
  unwoken : ∀ t, ¬ s.Woken t

/-- Somebody will take the mutex or wake a thread: the mutex is taken, a `Release` is in progress or a
woken thread is on its way. -/
def Attended (s : Mutex) : Prop := s.lock ≠ 0 ∨ (∃ t, s.place t = .releasing) ∨ ∃ t, s.Woken t

/-- A thread is appended to the queue only while somebody will wake it. -/
def SleepsAttended (s : Mutex) : MutexStep → Prop
  | .block t => s.place t = .failed → s.Attended
  | _ => True

theorem not_lostWakeUp_iff : ¬ LostWakeUp s ↔ (s.blockedThreads ≠ [] → s.Attended) := by
  constructor
  · intro h hblocked
    by_contra hno
    obtain ⟨hfree, hreleased, hwoken⟩ : s.lock = 0 ∧ (∀ t, s.place t ≠ .releasing) ∧ ∀ t, ¬ s.Woken t := by
      simpa only [Attended, not_or, not_exists, not_not] using hno
    exact h ⟨hfree, hreleased, hblocked, hwoken⟩
  · rintro h ⟨hfree, hreleased, hblocked, hwoken⟩
    rcases h hblocked with hlock | ⟨t, ht⟩ | ⟨t, ht⟩
    · exact hlock hfree
    · exact hreleased t ht
    · exact hwoken t ht

theorem attended_block (ht : s.place t = .failed) :
    Attended { s.moveTo t .queued with blockedThreads := s.blockedThreads ++ [t] } ↔ s.Attended := by
  have hother : ∀ u, u ≠ t → (s.moveTo t .queued).place u = s.place u := fun u hu =>
    moveTo_of_ne s _ hu
  refine or_congr Iff.rfl (or_congr ⟨?_, ?_⟩ ⟨?_, ?_⟩)
  · rintro ⟨u, hu⟩
    have hut : u ≠ t := by
      rintro rfl
      exact nomatch hu.symm.trans (moveTo_self s u .queued)
    exact ⟨u, (hother u hut).symm.trans hu⟩
  · rintro ⟨u, hu⟩
    have hut : u ≠ t := by
      rintro rfl
      exact nomatch hu.symm.trans ht
    exact ⟨u, (hother u hut).trans hu⟩
  · rintro ⟨u, hplace, hmem⟩
    have hut : u ≠ t := fun hut => hmem (mem_append_right _ (mem_singleton.mpr hut))
    have hsame : (s.moveTo t .queued).place u = s.place u := hother u hut
    exact ⟨u, hsame ▸ hplace, fun h => hmem (mem_append_left _ h)⟩
  · rintro ⟨u, hplace, hmem⟩
    have hut : u ≠ t := by
      rintro rfl
      rw [ht] at hplace
      exact hplace.elim nofun nofun
    have hsame : (s.moveTo t .queued).place u = s.place u := hother u hut
    refine ⟨u, hsame.symm ▸ hplace, fun h => ?_⟩
    rcases mem_append.mp h with h | h
    · exact hmem h
    · exact hut (mem_singleton.mp h)

theorem testAndSet_lock_ne (s : Mutex) (h : Invariant s) (t : Nat) : (s.testAndSet t).lock ≠ 0 := by
  show s.lock ||| 1 ≠ 0
  rcases h.flag with hlock | hlock
  all_goals
    rw [hlock]
    decide

/-- **One step loses a wake-up** exactly if it appends a thread that nobody will wake. -/
theorem not_lostWakeUp_step_iff {e : MutexStep} (h : Invariant s) (hno : ¬ LostWakeUp s)
    (hstep : s.step e = some s') : ¬ LostWakeUp s' ↔ s.SleepsAttended e := by
  rw [not_lostWakeUp_iff] at hno ⊢
  cases e with
  | lock t =>
    obtain ⟨-, ⟨⟩⟩ := ite_none_right_eq_some.mp hstep
    exact iff_of_true (fun _ => Or.inl (testAndSet_lock_ne s h t)) trivial
  | block t =>
    obtain ⟨ht, ⟨⟩⟩ := ite_none_right_eq_some.mp hstep
    rw [attended_block ht]
    constructor
    · intro hall _
      exact hall (append_ne_nil_of_right_ne_nil _ (cons_ne_nil t []))
    · intro hall _
      exact hall ht
  | yield t =>
    obtain ⟨ht, ⟨⟩⟩ := ite_none_right_eq_some.mp hstep
    refine iff_of_true (fun hblocked => ?_) trivial
    rcases hno hblocked with hlock | ⟨u, hu⟩ | ⟨u, hplace, hmem⟩
    · exact Or.inl hlock
    · have hut : u ≠ t := by
        rintro rfl
        exact nomatch hu.symm.trans ht
      exact Or.inr (Or.inl ⟨u, (moveTo_of_ne s _ hut).trans hu⟩)
    · -- a woken thread that yields is still woken
      refine Or.inr (Or.inr ⟨u, ?_, hmem⟩)
      by_cases hut : u = t
      · rw [hut]
        exact Or.inr (moveTo_self s t _)
      · rw [moveTo_of_ne s _ hut]
        exact hplace
  | retry t =>
    obtain ⟨-, ⟨⟩⟩ := ite_none_right_eq_some.mp hstep
    exact iff_of_true (fun _ => Or.inl (testAndSet_lock_ne s h t)) trivial
  | clear t =>
    obtain ⟨-, ⟨⟩⟩ := ite_none_right_eq_some.mp hstep
    exact iff_of_true (fun _ => Or.inr (Or.inl ⟨t, moveTo_self s t _⟩)) trivial
  | wake t =>
    obtain ⟨ht, ⟨⟩⟩ := ite_none_right_eq_some.mp hstep
    refine iff_of_true (fun hblocked => ?_) trivial
    -- the queue was not empty, so its first thread is woken now
    obtain ⟨u, rest, hcons⟩ := exists_cons_of_ne_nil (l := s.blockedThreads) (by
      rintro hnil
      exact hblocked (congrArg List.tail hnil))
    have hmem : u ∈ s.blockedThreads := hcons ▸ mem_cons_self
    have hut : u ≠ t := by
      rintro rfl
      exact h.not_listed (by rw [ht]; nofun) (by rw [ht]; nofun) hmem
    refine Or.inr (Or.inr ⟨u, ?_, ?_⟩)
    · rw [moveTo_of_ne s _ hut]
      exact h.listed u hmem
    · have hnodup := h.nodup
      rw [hcons] at hnodup
      rw [hcons]
      exact (nodup_cons.mp hnodup).1

/-! ## Whole runs -/

/-- **What a mutex guarantees.** With any number of threads, at most one thread is past `Lock` and before
`Release`; and no wake-up is lost, exactly if no thread is appended to the queue after the mutex became free
and everyone who would wake it had gone. -/
theorem run_excludes (steps : List MutexStep) : (∀ s, run step {} steps = some s →
      ∀ t u, s.place t = .holds → s.place u = .holds → t = u) ∧
    ((∀ before s, before <+: steps → run step {} before = some s → ¬ LostWakeUp s) ↔
      Runs.Meets step SleepsAttended {} steps) := by
  have hinv : ∀ {before s}, run step {} before = some s → Invariant s := fun hrun =>
    run_invariant' (fun s e s' h hstep => h.step hstep) invariant_init hrun
  refine ⟨fun s hrun => (hinv hrun).unique, ?_, ?_⟩
  · intro hall
    rw [meets_iff_forall]
    intro before e hpre s hrun
    have hno := hall before s ((prefix_append _ _).trans hpre) hrun
    cases hstep : s.step e with
    | some s' =>
      have hrun' := run_concat_eq_some.mpr ⟨s, hrun, hstep⟩
      exact (not_lostWakeUp_step_iff (hinv hrun) hno hstep).mp (hall _ s' hpre hrun')
    | none =>
      -- a step that cannot be taken appends nobody
      cases e with
      | block t =>
        intro ht
        rw [step, if_pos ht] at hstep
        cases hstep
      | _ => trivial
  · intro hmeets before s hpre hrun
    have hkeeps : ∀ s e s', Invariant s ∧ ¬ LostWakeUp s → SleepsAttended s e →
        step s e = some s' → Invariant s' ∧ ¬ LostWakeUp s' := fun s e s' h hok hstep =>
      ⟨h.1.step hstep, (not_lostWakeUp_step_iff h.1 h.2 hstep).mpr hok⟩
    have hinit : Invariant {} ∧ ¬ LostWakeUp {} := ⟨invariant_init, fun h => h.blocked rfl⟩
    exact (run_invariant (P := fun s => Invariant s ∧ ¬ LostWakeUp s) hkeeps hinit (hmeets.of_isPrefix hpre) hrun).2

/-- **A wake-up is lost** if the holder releases the mutex between the test-and-set and the queueing of
another thread. -/
theorem loses_wakeUp : ∃ s, run step {} [.lock 0, .lock 1, .clear 0, .wake 0, .block 1] = some s ∧ LostWakeUp s := by
  refine ⟨_, rfl, rfl, ?_, nofun, ?_⟩
  · intro t ht
    simp [moveTo, testAndSet, Function.update_apply] at ht
    split_ifs at ht
  · rintro t ⟨hplace, hmem⟩
    have ht : t ≠ 1 := fun h => hmem (mem_singleton.mpr h)
    simp [moveTo, testAndSet, Function.update_apply, ht] at hplace
    split_ifs at hplace
    all_goals exact hplace.elim nofun nofun

end Mutex

end Acadia.Zion
