import Acadia.Foundations.Runs
import Acadia.Glacier.IntrusiveList
import Acadia.Zion.Object.Process

/-! # Sleeping threads

The timer interrupt and `Sleep`, of `scheduler/scheduler.cpp`, on the intrusive lists themselves: while
`DecrementSleepingThreads` goes over the list of sleeping threads, it moves its nodes to that of the runnable ones. A
function has no result where the source panics or follows a null pointer. -/

namespace Acadia.Zion

open Glacier Runs List Option UInt64 Function

/-- The fields of the `Scheduler`, and those of threads that it uses. -/
structure SchedulerLists where
  links : Links
  runnableThreads : IntrusiveList := {}
  sleepingThreads : IntrusiveList := {}
  sleepTicks : Nat → UInt64
  state : Nat → ThreadState
  currentThread : Nat

namespace SchedulerLists

/-- The field `sleep_thread_`. -/
def sleepThread : Nat := 0

/-- `Thread::SetState`. -/
def setState (s : SchedulerLists) (t : Nat) (x : ThreadState) : Option SchedulerLists :=
  if (s.state t).isDying then none else some { s with state := update s.state t x }

/-- `PushBack` on `runnable_threads_`. -/
def pushRunnable (s : SchedulerLists) (t : Nat) : Option SchedulerLists :=
  (s.runnableThreads.pushBack s.links t).map fun (runnableThreads, links) =>
    { s with runnableThreads, links }

/-- `PushBack` on `sleeping_threads_`. -/
def pushSleeping (s : SchedulerLists) (t : Nat) : Option SchedulerLists :=
  (s.sleepingThreads.pushBack s.links t).map fun (sleepingThreads, links) =>
    { s with sleepingThreads, links }

/-- `PopFront` on `runnable_threads_`, into `current_thread_`. -/
def popCurrent (s : SchedulerLists) : Option SchedulerLists :=
  (s.runnableThreads.popFront s.links).map fun (currentThread, runnableThreads, links) =>
    { s with currentThread, runnableThreads, links }

/-- What `DecrementSleepingThreads` does with a thread that has no ticks left. -/
def wakeThread (s : SchedulerLists) (thread : Nat) : Option SchedulerLists :=
  let removed := s.sleepingThreads.remove s.links thread
  ({ s with sleepingThreads := removed.1, links := removed.2 }.setState thread .runnable).bind
    fun s => s.pushRunnable thread

/-- The loop of `DecrementSleepingThreads`. -/
def decrementLoop : Nat → SchedulerLists → Option Nat → Option SchedulerLists
  | _, s, none => some s
  | 0, _, some _ => none
  | fuel + 1, s, some thread =>
    let ticks := s.sleepTicks thread - 1
    let s := { s with sleepTicks := update s.sleepTicks thread ticks }
    let threadNext := s.links.next thread
    if ticks = 0 then (s.wakeThread thread).bind fun s => decrementLoop fuel s threadNext
    else decrementLoop fuel s threadNext

/-- `DecrementSleepingThreads`: one round for each thread in the list. -/
def decrementSleepingThreads (s : SchedulerLists) : Option SchedulerLists :=
  decrementLoop s.sleepingThreads.size s s.sleepingThreads.front

/-- The loop of `ClearDeadThreadsFromFront`. -/
def clearLoop : Nat → SchedulerLists → Option SchedulerLists
  | 0, s => some s
  | fuel + 1, s =>
    s.runnableThreads.front.bind fun front =>
      if (s.state front).isDying then
        (s.runnableThreads.popFront s.links).bind fun (_, runnableThreads, links) =>
          clearLoop fuel { s with runnableThreads, links }
      else some s

/-- `ClearDeadThreadsFromFront`: at most one round for each thread in the list. -/
def clearDeadThreadsFromFront (s : SchedulerLists) : Option SchedulerLists :=
  clearLoop s.runnableThreads.size s

/-- `SwapToCurrent`. -/
def swapToCurrent (s : SchedulerLists) : Option SchedulerLists :=
  if s.state s.currentThread ≠ .runnable then none else s.setState s.currentThread .running

/-- `Preempt`. -/
def preempt (s : SchedulerLists) : Option SchedulerLists := do
  let s ← s.decrementSleepingThreads
  let s ← s.clearDeadThreadsFromFront
  if s.runnableThreads.size = 0 then return s
  else
    let prev := s.currentThread
    let s ← s.setState prev .runnable
    let s ← s.pushRunnable prev
    let s ← s.popCurrent
    s.swapToCurrent

/-- `Yield`. -/
def yield (s : SchedulerLists) : Option SchedulerLists := do
  let s ← s.clearDeadThreadsFromFront
  let prev := s.currentThread
  if prev = sleepThread then
    if s.runnableThreads.size = 0 then none
    else
      let s ← s.popCurrent
      let s ← if (s.state prev).isDying then some s else s.setState prev .runnable
      s.swapToCurrent
  else if s.runnableThreads.size = 0 then swapToCurrent { s with currentThread := sleepThread }
  else
    let s ← s.popCurrent
    s.swapToCurrent

/-- `Sleep`. -/
def sleep (s : SchedulerLists) (millis : UInt64) : Option SchedulerLists := do
  let s := { s with sleepTicks := update s.sleepTicks s.currentThread (millis / 50 + 1) }
  let s ← s.setState s.currentThread .sleeping
  let s ← s.pushSleeping s.currentThread
  s.yield

/-! ## The invariant -/

/-- **The two lists are lists of threads in the states that they stand for**, and the current thread is
in none of them. No thread is dying. -/
structure Holds (s : SchedulerLists) (sleeping runnable : List Nat) : Prop where
  sleepingThreads : s.sleepingThreads.Linked s.links sleeping
  runnableThreads : s.runnableThreads.Linked s.links runnable
  /-- No thread is in both lists, or in one and running. -/
  nodup : (s.currentThread :: (sleeping ++ runnable)).Nodup
  /-- Threads in the first list sleep. -/
  asleep : ∀ t ∈ sleeping, s.state t = .sleeping
  /-- Threads in the second list can run. -/
  awake : ∀ t ∈ runnable, s.state t = .runnable
  running : s.state s.currentThread = .running
  /-- The sleep thread never sleeps. -/
  idle : s.currentThread = sleepThread ∨ s.state sleepThread = .runnable

variable {s : SchedulerLists} {ts rs : List Nat} {t : Nat}

theorem setState_eq {x y : ThreadState} (h : s.state t = x) (hx : x.isDying = false) :
    s.setState t y = some { s with state := update s.state t y } := by
  rw [setState, h, hx]
  rfl

theorem wakeThread_spec {as bs : List Nat} (hsleeping : s.sleepingThreads.Linked s.links (as ++ t :: bs))
    (hrunnable : s.runnableThreads.Linked s.links rs) (hnodup : (as ++ t :: bs ++ rs).Nodup)
    (hasleep : s.state t = .sleeping) :
    ∃ s', s.wakeThread t = some s' ∧ s'.sleepingThreads.Linked s'.links (as ++ bs) ∧
      s'.runnableThreads.Linked s'.links (rs ++ [t]) ∧ s'.sleepTicks = s.sleepTicks ∧
      s'.state = update s.state t .runnable ∧ s'.currentThread = s.currentThread := by
  have hindex : (as ++ t :: bs)[as.length]? = some t := by simp
  obtain ⟨hremoved, hframe⟩ := hsleeping.remove hindex
  rw [eraseIdx_append_of_length_le (le_refl _), Nat.sub_self, eraseIdx_cons_zero] at hremoved
  have hother : ∀ u ∈ rs, u ∉ as ++ t :: bs := fun u hu hmem =>
    (nodup_append.mp hnodup).2.2 u hmem u hu rfl
  obtain ⟨l, links, hpush, hpushed, hframe'⟩ :=
    (hrunnable.congr (fun u hu => (hframe u (hother u hu)).1)
      (fun u hu => (hframe u (hother u hu)).2)).pushBack (t := t) (by grind)
  have hkept := hremoved.congr (fun u hu => (hframe' u (by grind) (by grind)).1)
    (fun u hu => (hframe' u (by grind) (by grind)).2)
  unfold wakeThread
  dsimp only
  rw [setState_eq (x := .sleeping) (by exact hasleep) rfl, bind_some, pushRunnable]
  rw [hpush]
  exact ⟨_, rfl, hkept, hpushed, rfl, rfl, rfl⟩

/-- **What `DecrementSleepingThreads` has done** when it has been over the threads `bs`, and `as` are
those before them that still sleep. -/
structure Decremented (s : SchedulerLists) (as bs rs : List Nat) (s' : SchedulerLists) : Prop where
  /-- Threads with more than one tick left stay. -/
  sleepingThreads : s'.sleepingThreads.Linked s'.links (as ++ bs.filter (s.sleepTicks · ≠ 1))
  /-- The others are runnable, in order. -/
  runnableThreads : s'.runnableThreads.Linked s'.links (rs ++ bs.filter (s.sleepTicks · = 1))
  /-- Every one has a tick less. -/
  sleepTicks : ∀ t, s'.sleepTicks t = if t ∈ bs then s.sleepTicks t - 1 else s.sleepTicks t
  /-- Those that woke up can run. -/
  state : ∀ t, s'.state t = if t ∈ bs ∧ s.sleepTicks t = 1 then .runnable else s.state t
  currentThread : s'.currentThread = s.currentThread

theorem decrementLoop_spec {bs as : List Nat} {fuel : Nat} (hsleeping : s.sleepingThreads.Linked s.links (as ++ bs))
    (hrunnable : s.runnableThreads.Linked s.links rs) (hnodup : (as ++ bs ++ rs).Nodup)
    (hasleep : ∀ t ∈ bs, s.state t = .sleeping) (hfuel : bs.length ≤ fuel) :
    ∃ s', decrementLoop fuel s bs.head? = some s' ∧ Decremented s as bs rs s' := by
  induction bs generalizing s as rs fuel with
  | nil =>
    refine ⟨s, ?_, by simpa using hsleeping, by simpa using hrunnable, by simp, by simp, rfl⟩
    cases fuel <;> rfl
  | cons t bs ih =>
    obtain ⟨fuel, rfl⟩ : ∃ n, fuel = n + 1 := ⟨fuel - 1, by rw [length_cons] at hfuel; omega⟩
    have hfuel := Nat.le_of_succ_le_succ hfuel
    rw [forall_mem_cons] at hasleep
    have hindex : (as ++ t :: bs)[as.length]? = some t := by simp
    have hnext : s.links.next t = bs.head? := by
      rw [hsleeping.next _ _ hindex, getElem?_append_right (Nat.le_add_right _ 1), Nat.add_sub_cancel_left,
        List.head?_eq_getElem?]
      rfl
    have hperm : (as ++ (t :: bs) ++ rs) ~ (t :: (as ++ bs ++ rs)) :=
      perm_middle.append_right rs
    obtain ⟨hfresh, hrest⟩ := nodup_cons.mp (hperm.nodup_iff.mp hnodup)
    have hne : ∀ u ∈ bs, u ≠ t := by
      rintro u hu rfl
      exact hfresh (by simp [hu])
    have hfilter : ∀ (p : UInt64 → Bool) x,
        bs.filter (fun u => p (update s.sleepTicks t x u)) = bs.filter (p <| s.sleepTicks ·) :=
      fun p x => filter_congr fun u hu => by rw [update_of_ne (hne u hu)]
    simp only [List.head?_cons, decrementLoop, hnext]
    by_cases hone : s.sleepTicks t = 1
    · -- the thread wakes up
      rw [if_pos (by rw [hone]; rfl)]
      obtain ⟨s1, hwake, hs, hr, hticks, hstate, hcurrent⟩ := @wakeThread_spec
        { s with sleepTicks := update s.sleepTicks t (s.sleepTicks t - 1) } rs t as bs hsleeping
        hrunnable hnodup hasleep.1
      rw [hwake, bind_some]
      have hasleep1 : ∀ u ∈ bs, s1.state u = .sleeping := by
        intro u hu
        rw [hstate, update_of_ne (hne u hu)]
        exact hasleep.2 u hu
      obtain ⟨s', hrun, h⟩ := ih hs hr (by grind) hasleep1 hfuel
      refine ⟨s', hrun, ?_, ?_, fun u => ?_, fun u => ?_, h.currentThread.trans hcurrent⟩
      · have hs := h.sleepingThreads
        rw [hticks, hfilter (fun x => decide (x ≠ 1))] at hs
        simpa [hone] using hs
      · have hr := h.runnableThreads
        rw [hticks, hfilter (fun x => decide (x = 1)), append_assoc] at hr
        simpa [hone] using hr
      · rw [h.sleepTicks, hticks]
        grind
      · rw [h.state, hticks, hstate]
        grind
    · rw [if_neg (by grind)]
      obtain ⟨s', hrun, h⟩ := @ih
        { s with sleepTicks := update s.sleepTicks t (s.sleepTicks t - 1) } rs (as ++ [t]) fuel
        (append_cons as t bs ▸ hsleeping) hrunnable (append_cons as t bs ▸ hnodup) hasleep.2
        hfuel
      refine ⟨s', hrun, ?_, ?_, fun u => ?_, fun u => ?_, h.currentThread⟩
      · have hs := h.sleepingThreads
        rw [hfilter (fun x => decide (x ≠ 1)), append_assoc] at hs
        simpa [hone] using hs
      · have hr := h.runnableThreads
        rw [hfilter (fun x => decide (x = 1))] at hr
        simpa [hone] using hr
      · rw [h.sleepTicks]
        grind
      · rw [h.state]
        grind

theorem clearDeadThreadsFromFront_eq (hrunnable : s.runnableThreads.Linked s.links rs)
    (hawake : ∀ t ∈ rs, s.state t = .runnable) : s.clearDeadThreadsFromFront = some s := by
  have hfront := hrunnable.front
  rw [clearDeadThreadsFromFront, hrunnable.size]
  cases rs with
  | nil => rfl
  | cons r rs =>
    rw [length_cons, clearLoop, hfront]
    simp [hawake r (by simp), ThreadState.isDying]

theorem popCurrent_swap {r : Nat} (hsleeping : s.sleepingThreads.Linked s.links ts)
    (hrunnable : s.runnableThreads.Linked s.links (r :: rs)) (hnodup : (r :: (ts ++ rs)).Nodup)
    (hasleep : ∀ t ∈ ts, s.state t = .sleeping) (hawake : ∀ t ∈ r :: rs, s.state t = .runnable)
    (hidle : s.state sleepThread = .runnable) :
    ∃ s', s.popCurrent.bind swapToCurrent = some s' ∧ Holds s' ts rs ∧ s'.sleepTicks = s.sleepTicks := by
  obtain ⟨l, links, hpop, hpopped, hframe⟩ := hrunnable.popFront
  have hr := hawake r (by simp)
  have hkept := hsleeping.congr (fun u hu => (hframe u (by grind)).1) (fun u hu => (hframe u (by grind)).2)
  rw [popCurrent, hpop, map_some, bind_some, swapToCurrent]
  rw [if_neg (not_not.mpr hr), setState_eq (x := .runnable) (by exact hr) rfl]
  refine ⟨_, rfl, ⟨hkept, hpopped, hnodup, fun t ht => ?_, fun t ht => ?_, update_self .., ?_⟩, rfl⟩
  · exact (update_of_ne (by grind) _ _).trans (hasleep t ht)
  · exact (update_of_ne (by grind) _ _).trans (hawake t (by simp [ht]))
  · dsimp only
    grind

namespace Holds

/-- **`DecrementSleepingThreads`** moves the threads with one tick left. -/
theorem decrementSleepingThreads (h : Holds s ts rs) : ∃ s', s.decrementSleepingThreads = some s' ∧
      Holds s' (ts.filter (s.sleepTicks · ≠ 1)) (rs ++ ts.filter (s.sleepTicks · = 1)) ∧
      ∀ t ∈ ts, s'.sleepTicks t = s.sleepTicks t - 1 := by
  obtain ⟨hcurrent, hnodup⟩ := nodup_cons.mp h.nodup
  obtain ⟨s', hrun, hdone⟩ := @decrementLoop_spec s rs ts [] s.sleepingThreads.size h.sleepingThreads
    h.runnableThreads hnodup h.asleep h.sleepingThreads.size.ge
  rw [SchedulerLists.decrementSleepingThreads, h.sleepingThreads.front, ← List.head?_eq_getElem?]
  refine ⟨s', hrun, ⟨hdone.sleepingThreads, hdone.runnableThreads, ?_, ?_, ?_, ?_, ?_⟩, ?_⟩
  · have hsplit := filter_append_perm (fun t => decide (s.sleepTicks t ≠ 1)) ts
    rw [hdone.currentThread]
    refine ((List.Perm.cons _ ?_).nodup_iff).mpr h.nodup
    refine (perm_append_comm.append_left _).trans ?_
    simpa using hsplit.append_right rs
  · intro t ht
    rw [hdone.state]
    have := h.asleep t
    grind
  · intro t ht
    rw [hdone.state]
    have := h.awake t
    grind
  · rw [hdone.state, hdone.currentThread, if_neg (by grind)]
    exact h.running
  · rw [hdone.state, hdone.currentThread]
    have := h.idle
    grind
  · intro t ht
    rw [hdone.sleepTicks, if_pos ht]

/-- **A tick** takes a tick from every sleeping thread, and wakes those that have none left. -/
theorem preempt (h : Holds s ts rs) : ∃ s' rs', s.preempt = some s' ∧ Holds s' (ts.filter (s.sleepTicks · ≠ 1)) rs' ∧
      ∀ t ∈ ts, s'.sleepTicks t = s.sleepTicks t - 1 := by
  obtain ⟨s1, hs1, h1, hticks⟩ := h.decrementSleepingThreads
  rw [SchedulerLists.preempt, hs1]
  simp only [bind_eq_bind, bind_some, clearDeadThreadsFromFront_eq h1.runnableThreads h1.awake, h1.runnableThreads.size]
  cases hrs : rs ++ ts.filter (s.sleepTicks · = 1) with
  | nil => exact ⟨s1, _, rfl, h1, hticks⟩
  | cons r rs' =>
    rw [hrs] at h1
    obtain ⟨hnotin, hnodup⟩ := nodup_cons.mp h1.nodup
    rw [if_neg (by simp), setState_eq h1.running rfl]
    obtain ⟨l, links, hpush, hpushed, hframe⟩ := h1.runnableThreads.pushBack (t := s1.currentThread) (by grind)
    have hkept := h1.sleepingThreads.congr (fun u hu => (hframe u (by grind) (by grind)).1)
      (fun u hu => (hframe u (by grind) (by grind)).2)
    simp only [pushRunnable, hpush, map_some, bind_some]
    have hasleep := h1.asleep
    have hawake := h1.awake
    have hidle := h1.idle
    obtain ⟨s', hs', h', hsame⟩ := @popCurrent_swap { s1 with
        state := update s1.state s1.currentThread .runnable, runnableThreads := l, links }
      (ts.filter (s.sleepTicks · ≠ 1)) (rs' ++ [s1.currentThread]) r hkept hpushed (by grind)
      (fun t ht => by dsimp only; grind) (fun t ht => by dsimp only; grind) (by dsimp only; grind)
    exact ⟨s', _, hs', h', fun t ht => (congrFun hsame t).trans (hticks t ht)⟩

/-- **`Sleep`** puts the current thread at the end of the list. -/
theorem sleep (h : Holds s ts rs) (hcurrent : s.currentThread ≠ sleepThread) (millis : UInt64) :
    ∃ s' rs', s.sleep millis = some s' ∧ Holds s' (ts ++ [s.currentThread]) rs' ∧
      s'.sleepTicks = update s.sleepTicks s.currentThread (millis / 50 + 1) := by
  obtain ⟨hnotin, hnodup⟩ := nodup_cons.mp h.nodup
  obtain ⟨l, links, hpush, hpushed, hframe⟩ := h.sleepingThreads.pushBack (t := s.currentThread) (by grind)
  have hkept := h.runnableThreads.congr (fun u hu => (hframe u (by grind) (by grind)).1)
    (fun u hu => (hframe u (by grind) (by grind)).2)
  have hidle : s.state sleepThread = .runnable := h.idle.resolve_left hcurrent
  have hasleep := h.asleep
  have hawake := h.awake
  rw [SchedulerLists.sleep]
  rw [setState_eq (x := .running) (by exact h.running) rfl]
  simp only [bind_eq_bind, bind_some, pushSleeping, hpush, map_some, yield]
  rw [clearDeadThreadsFromFront_eq (by exact hkept) (fun t ht => by dsimp only; grind)]
  simp only [bind_some, hkept.size, if_neg hcurrent]
  cases rs with
  | nil =>
    -- nothing can run: the sleep thread does
    have hready : update s.state s.currentThread .sleeping sleepThread = .runnable := by
      rwa [update_of_ne (Ne.symm hcurrent)]
    rw [length_nil, if_pos rfl, swapToCurrent]
    rw [if_neg (not_not.mpr hready), setState_eq (x := .runnable) (by exact hready) rfl]
    refine ⟨_, [], rfl, ⟨hpushed, hkept, by grind, fun t ht => ?_, by simp, ?_, .inl rfl⟩, rfl⟩ <;>
      dsimp only <;> grind
  | cons r rs =>
    obtain ⟨s', hs', h', hsame⟩ := @popCurrent_swap { s with
        sleepTicks := update s.sleepTicks s.currentThread (millis / 50 + 1)
        state := update s.state s.currentThread .sleeping, sleepingThreads := l, links }
      (ts ++ [s.currentThread]) rs r hpushed hkept (by grind) (fun t ht => by dsimp only; grind)
      (fun t ht => by dsimp only; grind) (by dsimp only; grind)
    exact ⟨s', rs, hs', h', hsame⟩

end Holds

/-! ## Ticks and calls of `Sleep` -/

/-- What happens to the scheduler. -/
inductive Event
  | /-- The timer interrupt. -/
    tick
  | /-- The current thread calls `Sleep`. -/
    sleep (millis : UInt64)

/-- The scheduler takes an event. -/
def step (s : SchedulerLists) : Event → Option SchedulerLists
  | .tick => s.preempt
  | .sleep millis => s.sleep millis

/-- The sleep thread only waits for interrupts. -/
def CanSleep (s : SchedulerLists) : Event → Prop
  | .tick => True
  | .sleep _ => s.currentThread ≠ sleepThread

/-- The thread `t` does not call `Sleep`. -/
def NotSlept (t : Nat) (s : SchedulerLists) : Event → Prop
  | .tick => True
  | .sleep _ => s.currentThread ≠ t

/-- The number of ticks among the events. -/
def ticks : List Event → Nat
  | [] => 0
  | .tick :: es => ticks es + 1
  | .sleep _ :: es => ticks es

/-- The thread `t` wakes up in `k` ticks, or is not asleep when `k = 0`. -/
def Due (s : SchedulerLists) (ts : List Nat) (t k : Nat) : Prop :=
  (t ∈ ts ↔ 0 < k) ∧ (0 < k → (s.sleepTicks t).toNat = k)

theorem Due.tick {s' : SchedulerLists} {k : Nat} (h : Due s ts t k)
    (hticks : ∀ t ∈ ts, s'.sleepTicks t = s.sleepTicks t - 1) : Due s' (ts.filter (s.sleepTicks · ≠ 1)) t (k - 1) := by
  obtain ⟨hmem, hcount⟩ := h
  by_cases hk : 0 < k
  · have ht := hmem.mpr hk
    have hone : s.sleepTicks t = 1 ↔ k = 1 := by
      rw [← UInt64.toNat_inj, hcount hk]
      rfl
    refine ⟨?_, fun hlt => ?_⟩
    · rw [mem_filter, decide_eq_true_eq, Ne, hone]
      grind
    · rw [hticks t ht, UInt64.toNat_sub_of_le, hcount hk]
      · rfl
      · rw [le_iff_toNat_le, hcount hk]
        exact hk
  · have ht : t ∉ ts := fun hm => hk (hmem.mp hm)
    exact ⟨by grind, by grind⟩

/-- **One event** is possible, and only a tick changes when a thread that has not called `Sleep` wakes
up. -/
theorem step_due {e : Event} (h : Holds s ts rs) (hok : CanSleep s e) :
    ∃ s' ts' rs', s.step e = some s' ∧ Holds s' ts' rs' ∧
      ∀ t k, Due s ts t k → 0 < k ∨ NotSlept t s e → Due s' ts' t (k - ticks [e]) := by
  cases e with
  | tick =>
    obtain ⟨s', rs', hs', h', hticks⟩ := h.preempt
    exact ⟨s', _, rs', hs', h', fun t k hdue _ => hdue.tick hticks⟩
  | sleep millis =>
    obtain ⟨s', rs', hs', h', hticks⟩ := h.sleep hok millis
    refine ⟨s', _, rs', hs', h', fun t k hdue hor => ?_⟩
    have hne : t ≠ s.currentThread := by
      rcases hor with hk | hnot
      · -- a thread that sleeps does not run
        rintro rfl
        exact (nodup_cons.mp h.nodup).1 (mem_append_left _ (hdue.1.mpr hk))
      · exact Ne.symm hnot
    rw [Due, hticks, update_of_ne hne, mem_append, mem_singleton, or_iff_left hne]
    exact hdue

/-- **Every sequence of events** is possible, and every tick counts for a thread until it wakes up. -/
theorem run_due {es : List Event} (h : Holds s ts rs) (hok : Meets step CanSleep s es) :
    ∃ s' ts' rs', run step s es = some s' ∧ Holds s' ts' rs' ∧
      ∀ t k, Due s ts t k → ticks es < k ∨ Meets step (NotSlept t) s es → Due s' ts' t (k - ticks es) := by
  induction es generalizing s ts rs with
  | nil => exact ⟨s, ts, rs, rfl, h, fun t k hdue _ => hdue⟩
  | cons e es ih =>
    obtain ⟨s1, ts1, rs1, hs1, h1, hdue1⟩ := step_due h hok.1
    obtain ⟨s', ts', rs', hrun, h', hdue'⟩ := ih h1 (hok.2 s1 hs1)
    have hsum : ticks (e :: es) = ticks [e] + ticks es := by
      cases e <;> simp [ticks, Nat.add_comm]
    refine ⟨s', ts', rs', by rw [run_cons, hs1]; exact hrun, h', fun t k hdue hor => ?_⟩
    rw [hsum, Nat.sub_add_eq]
    refine hdue' t _ (hdue1 t k hdue (hor.imp (by omega) And.left)) ?_
    exact hor.imp (by omega) fun hmeets => hmeets.2 s1 hs1

/-- **A thread that calls `Sleep` wakes up on the tick that it asked for.** After any further events the lists are
right; while fewer than `millis / 50 + 1` ticks have passed the thread is among those that sleep, and
`DecrementSleepingThreads` of the next tick puts it into the list of those that can run just when that is the tick in
question. Afterwards it does not sleep unless it called `Sleep` again. -/
theorem sleep_wakes_on_tick (h : Holds s ts rs) (hcurrent : s.currentThread ≠ sleepThread) (millis : UInt64) :
    ∃ s₁, s.sleep millis = some s₁ ∧ ∀ es, Meets step CanSleep s₁ es →
      ∃ s₂ ts₂ rs₂ s₃ ts₃ rs₃, run step s₁ es = some s₂ ∧ Holds s₂ ts₂ rs₂ ∧
        s₂.decrementSleepingThreads = some s₃ ∧ Holds s₃ ts₃ rs₃ ∧
        (ticks es < millis.toNat / 50 + 1 →
          s.currentThread ∈ ts₂ ∧ (s.currentThread ∈ rs₃ ↔ ticks es + 1 = millis.toNat / 50 + 1)) ∧
        (millis.toNat / 50 + 1 ≤ ticks es → Meets step (NotSlept s.currentThread) s₁ es → s.currentThread ∉ ts₂) := by
  obtain ⟨s₁, rs₁, hs₁, h₁, hticks⟩ := h.sleep hcurrent millis
  have hcount : (millis / 50 + 1).toNat = millis.toNat / 50 + 1 := by
    have := millis.toNat_lt
    rw [UInt64.toNat_add, UInt64.toNat_div]
    simp only [UInt64.reduceToNat]
    omega
  have hdue : Due s₁ (ts ++ [s.currentThread]) s.currentThread (millis.toNat / 50 + 1) := by
    rw [Due, hticks, update_self, hcount]
    simp
  refine ⟨s₁, hs₁, fun es hes => ?_⟩
  obtain ⟨s₂, ts₂, rs₂, hrun, h₂, hdue₂⟩ := run_due h₁ hes
  obtain ⟨s₃, hs₃, h₃, -⟩ := h₂.decrementSleepingThreads
  refine ⟨s₂, ts₂, rs₂, s₃, _, _, hrun, h₂, hs₃, h₃, fun hlt => ?_, fun hle hnot => ?_⟩
  · have hdue₂ := hdue₂ _ _ hdue (.inl hlt)
    have hmem := hdue₂.1.mpr (by omega)
    have hrs : s.currentThread ∉ rs₂ := fun hmem' =>
      (nodup_append.mp (nodup_cons.mp h₂.nodup).2).2.2 _ hmem _ hmem' rfl
    refine ⟨hmem, ?_⟩
    rw [mem_append, or_iff_right hrs, mem_filter, decide_eq_true_eq, and_iff_right hmem,
      ← UInt64.toNat_inj, hdue₂.2 (by omega), UInt64.toNat_one]
    omega
  · have hdue₂ := hdue₂ _ _ hdue (.inr hnot)
    exact fun hmem => absurd (hdue₂.1.mp hmem) (by omega)

/-- Two threads. The first runs. -/
def twoThreads : SchedulerLists where
  links := ⟨fun _ => none, fun _ => none⟩
  runnableThreads := ⟨some 2, some 2, 1⟩
  sleepTicks := fun _ => 0
  state := fun t => if t = 1 then .running else .runnable
  currentThread := 1

/-- Both threads sleep for 50 milliseconds, and wake up on the same tick. -/
theorem sleep_wakes_on_tick_twoThreads : ∃ s₁, twoThreads.sleep 50 = some s₁ ∧
    ∃ s₂ s₃ rs₃, run step s₁ [.sleep 50, .tick] = some s₂ ∧ s₂.decrementSleepingThreads = some s₃ ∧
      s₃.runnableThreads.Linked s₃.links rs₃ ∧ 1 ∈ rs₃ := by
  have hrunnable : twoThreads.runnableThreads.Linked twoThreads.links [2] := by
    refine ⟨by simp, rfl, rfl, rfl, fun i t ht => ?_, fun i t ht => ?_⟩ <;> simp only [twoThreads] <;> grind
  have h : Holds twoThreads [] [2] :=
    ⟨.empty _, hrunnable, by decide, by simp, by simp [twoThreads], rfl, .inr rfl⟩
  obtain ⟨s₁, hs₁, hall⟩ := sleep_wakes_on_tick h (by decide) 50
  have hcurrent : (twoThreads.sleep 50).map (·.currentThread) = some 2 := by decide +kernel
  rw [hs₁] at hcurrent
  have hmeets : Meets step CanSleep s₁ [.sleep 50, .tick] := by
    refine ⟨?_, fun _ _ => ⟨trivial, fun _ _ => trivial⟩⟩
    simp only [map_some, some.injEq] at hcurrent
    rw [CanSleep, hcurrent]
    decide
  obtain ⟨s₂, ts₂, rs₂, s₃, ts₃, rs₃, hrun, -, hs₃, h₃, hwakes, -⟩ := hall _ hmeets
  exact ⟨s₁, hs₁, s₂, s₃, rs₃, hrun, hs₃, h₃.runnableThreads, (hwakes (by decide)).2.mpr (by decide)⟩

end SchedulerLists

end Acadia.Zion
