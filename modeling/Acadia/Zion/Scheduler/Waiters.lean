import Acadia.Zion.Scheduler.Operations

/-! # Threads that wait for a thread

A thread that has blocked in `Thread::Wait` stays in the list of the thread that it waits for until that
thread is cleaned up. No other function takes threads from such a list. -/

namespace Acadia.Zion.Tasks

open Command Glacier

variable {s s' s'' : Tasks} {ts : List Nat} {α β : Type}

/-- **Whoever waits for a thread still does**, if it is none of `ts`. -/
def WaitersKept (ts : List Nat) (s s' : Tasks) : Prop :=
  ∀ t, t ∉ ts → s.lists (.thread t) ⊆ s'.lists (.thread t)

theorem WaitersKept.of_lists (h : s'.lists = s.lists) : WaitersKept ts s s' := by
  intro t _
  rw [h]
  exact List.Subset.refl _

theorem WaitersKept.refl (s : Tasks) : WaitersKept ts s s := .of_lists rfl

theorem WaitersKept.trans (h : WaitersKept ts s s') (h' : WaitersKept ts s' s'') : WaitersKept ts s s'' :=
  fun t ht => List.Subset.trans (h t ht) (h' t ht)

theorem WaitersKept.setList {l : ThreadList} (hl : ∀ t, l = .thread t → t ∈ ts) (us : List Nat) :
    WaitersKept ts s (s.setList l us) := by
  intro t ht
  have hne : ThreadList.thread t ≠ l := fun heq => ht (hl t heq.symm)
  show s.lists (.thread t) ⊆ Function.update s.lists l us (.thread t)
  rw [Function.update_of_ne hne]
  exact List.Subset.refl _

theorem WaitersKept.push (l : ThreadList) (u : Nat) : WaitersKept ts s (s.push l u) := by
  intro t ht
  show s.lists (.thread t) ⊆ Function.update s.lists l (s.lists l ++ [u]) (.thread t)
  by_cases heq : ThreadList.thread t = l
  · rw [← heq, Function.update_self]
    exact List.subset_append_left _ _
  · rw [Function.update_of_ne heq]
    exact List.Subset.refl _

/-- The function leaves those alone that wait for a thread, if it is none of `ts`. -/
abbrev KeepsWaiters (ts : List Nat) (m : Task α) : Prop := Command.Keeps (WaitersKept ts) m

theorem KeepsWaiters.bind {m : Task α} {f : α → Task β} (hm : KeepsWaiters ts m)
    (hf : ∀ a, KeepsWaiters ts (f a)) : KeepsWaiters ts (m >>= f) :=
  Command.Keeps.bind WaitersKept.trans hm hf

theorem KeepsWaiters.ite {c : Prop} [Decidable c] {m n : Task α} (hm : KeepsWaiters ts m)
    (hn : KeepsWaiters ts n) : KeepsWaiters ts (if c then m else n) :=
  keeps_ite hm hn

theorem KeepsWaiters.each {f : α → Task β} {as : List α} (h : ∀ a ∈ as, KeepsWaiters ts (f a)) :
    KeepsWaiters ts (Command.each f as) :=
  keeps_each WaitersKept.refl WaitersKept.trans h

theorem KeepsWaiters.of_same {m : Task α} (h : ∀ s, (m s).2 = s) : KeepsWaiters ts m :=
  keeps_of_same WaitersKept.refl h

theorem KeepsWaiters.pure (a : α) : KeepsWaiters ts (pure a : Task α) := .of_same fun _ => rfl

theorem KeepsWaiters.gets (f : Tasks → α) : KeepsWaiters ts (.gets f : Task α) :=
  .of_same fun _ => rfl

theorem KeepsWaiters.stop (f : Fault) : KeepsWaiters ts (.stop f : Task α) :=
  .of_same fun _ => rfl

theorem KeepsWaiters.update {f : Tasks → Tasks} (h : ∀ s, (f s).lists = s.lists) :
    KeepsWaiters ts (.update f) := keeps_update fun s => .of_lists (h s)

theorem KeepsWaiters.updateSome {e : Fault} {f : Tasks → Option (α × Tasks)}
    (h : ∀ s a s', f s = some (a, s') → s'.lists = s.lists) : KeepsWaiters ts (.updateSome e f) :=
  keeps_updateSome WaitersKept.refl fun s a s' hf => .of_lists (h s a s' hf)

/-! ## The scheduler -/

theorem KeepsWaiters.setState (t : Nat) (x : ThreadState) : KeepsWaiters ts (setState t x) :=
  .bind (.gets _) fun _ => .ite (.stop _) (.update fun _ => rfl)

theorem KeepsWaiters.swapToCurrent : KeepsWaiters ts swapToCurrent :=
  .bind (.gets _) fun _ => .bind (.gets _) fun _ => .ite (.stop _) (.setState _ _)

theorem KeepsWaiters.clear : KeepsWaiters ts (.update clearDeadThreadsFromFront) :=
  keeps_update fun _ => .setList (by nofun) _

theorem KeepsWaiters.yield : KeepsWaiters ts yield := by
  refine .bind (.gets _) fun _ => .ite (.pure _) ?_
  refine .bind .clear fun _ => .bind (.gets _) fun prev => ?_
  refine .bind (.gets _) fun runnable => ?_
  cases runnable with
  | nil =>
    refine .ite (.stop _) ?_
    exact .bind (.update fun _ => rfl) fun _ => .swapToCurrent
  | cons next rest =>
    have hswitch : KeepsWaiters ts (.update fun s => { s.setList .runnable rest with current := next }) :=
      keeps_update fun s => (WaitersKept.setList (by nofun) rest).trans (.of_lists rfl)
    refine hswitch.bind fun _ => .bind (.gets _) fun _ => ?_
    refine .ite ?_ .swapToCurrent
    exact .bind (.setState _ _) fun _ => .swapToCurrent

theorem KeepsWaiters.push (l : ThreadList) (t : Nat) : KeepsWaiters ts (.update fun s => s.push l t) :=
  keeps_update fun _ => .push l t

theorem KeepsWaiters.enqueue (t : Nat) : KeepsWaiters ts (enqueue t) := by
  refine .bind (.push _ t) fun _ => .bind (.gets _) fun _ => ?_
  refine .ite ?_ (.pure _)
  exact .bind .yield fun _ => .pure _

theorem KeepsWaiters.decrementThread (t : Nat) : KeepsWaiters ts (decrementThread t) := by
  refine .bind (.update fun _ => rfl) fun _ => .bind (.gets _) fun _ => ?_
  have herase : KeepsWaiters ts (.update fun s => s.setList .sleeping ((s.lists .sleeping).erase t)) :=
    keeps_update fun _ => .setList (by nofun) _
  refine .ite ?_ (.pure _)
  exact herase.bind fun _ => .bind (.setState _ _) fun _ => .push _ t

theorem KeepsWaiters.preempt : KeepsWaiters ts preempt := by
  have hsleeping : KeepsWaiters ts decrementSleepingThreads :=
    .bind (.gets _) fun _ => .bind (.each fun t _ => .decrementThread t) fun _ => .pure _
  refine .bind (.gets _) fun _ => .ite (.pure _) ?_
  refine hsleeping.bind fun _ => .bind .clear fun _ => .bind (.gets _) fun runnable => ?_
  cases runnable with
  | nil => exact .pure _
  | cons next rest =>
    refine .bind (.gets _) fun prev => .bind (.setState _ _) fun _ => ?_
    have hswitch : KeepsWaiters ts (.update fun s => { s.setList .runnable (rest ++ [prev]) with current := next }) :=
      keeps_update fun s => (WaitersKept.setList (by nofun) _).trans (.of_lists rfl)
    exact hswitch.bind fun _ => .swapToCurrent

theorem KeepsWaiters.sleep (millis : UInt64) : KeepsWaiters ts (sleep millis) := by
  refine .bind (.gets _) fun current => .bind (.update fun _ => rfl) fun _ => ?_
  refine .bind (.setState _ _) fun _ => .bind (.push _ _) fun _ => ?_
  exact .yield

/-! ## Blocking and waking -/

theorem KeepsWaiters.block (l : ThreadList) : KeepsWaiters ts (block l) :=
  .bind (.gets _) fun _ => .bind (.setState _ _) fun _ => .push l _

theorem KeepsWaiters.later (k : Continuation) : KeepsWaiters ts (later k) :=
  .update fun _ => rfl

theorem KeepsWaiters.waitOn (l : ThreadList) (k : Continuation) : KeepsWaiters ts (waitOn l k) :=
  .bind (.block l) fun _ => .bind (.later k) fun _ => .yield

/-- Those that wait for a thread are woken only if it is one of `ts`. -/
theorem KeepsWaiters.wake {l : ThreadList} (hl : ∀ t, l = .thread t → t ∈ ts) : KeepsWaiters ts (wake l) := by
  refine .bind (.gets _) fun waiting => ?_
  cases waiting with
  | nil => exact .pure _
  | cons t rest =>
    have hrest : KeepsWaiters ts (.update fun s => s.setList l rest) :=
      keeps_update fun _ => .setList hl rest
    refine hrest.bind fun _ => .bind (.setState _ _) fun _ => .enqueue t

theorem KeepsWaiters.lock (m : MutexId) (k : Continuation) : KeepsWaiters ts (lock m k) := by
  refine .bind (.gets _) fun _ => .ite ?_ ?_
  · exact .bind (.waitOn _ k) fun _ => .pure _
  · exact .bind (.update fun _ => rfl) fun _ => .pure _

theorem KeepsWaiters.release (m : MutexId) : KeepsWaiters ts (release m) :=
  .bind (.update fun _ => rfl) fun _ => .wake (by nofun)

theorem KeepsWaiters.semaphoreWait (x : SemaphoreId) : KeepsWaiters ts (semaphoreWait x) :=
  .bind (.gets _) fun _ => .ite (.waitOn _ _) (.update fun _ => rfl)

theorem KeepsWaiters.semaphoreSignal (x : SemaphoreId) : KeepsWaiters ts (semaphoreSignal x) :=
  .bind (.update fun _ => rfl) fun _ => .wake (by nofun)

theorem KeepsWaiters.endPush (q : Nat) (interrupt : Bool) : KeepsWaiters ts (endPush q interrupt) := by
  have hrelease : KeepsWaiters ts (do let _ ← Tasks.release (.queue q)) :=
    .bind (.release _) fun _ => .pure _
  refine .ite ?_ hrelease
  exact .bind (.update fun _ => rfl) fun _ => hrelease

theorem KeepsWaiters.pushBack (q : Nat) (interrupt : Bool) : KeepsWaiters ts (pushBack q interrupt) := by
  refine .bind (.lock _ _) fun _ => .ite ?_ (.pure _)
  refine .bind (.gets _) fun _ => .ite (.endPush q interrupt) ?_
  refine .bind (.update fun _ => rfl) fun _ => .bind (.gets _) fun current => ?_
  refine .bind (.wake (by nofun)) fun _ => .ite ?_ (.endPush q interrupt)
  exact .update fun _ => rfl

theorem KeepsWaiters.popFront (q : Nat) (fits : Bool) : KeepsWaiters ts (popFront q fits) := by
  refine .bind (.lock _ _) fun _ => .ite ?_ (.pure _)
  refine .bind (.gets _) fun _ => .ite ?_ ?_
  · refine .bind (.block _) fun _ => .bind (.release _) fun _ => ?_
    exact .bind (.later _) fun _ => .yield
  · refine .bind (.release _) fun _ => .bind (.update fun _ => rfl) fun _ => ?_
    exact .bind (.release _) fun _ => .pure _

/-! ## Threads and processes -/

theorem KeepsWaiters.allocateKernelStack : KeepsWaiters ts allocateKernelStack := by
  unfold Tasks.allocateKernelStack
  -- The sizes are not computed with.
  generalize kKernelStackEnd = stackEnd
  generalize kKernelStackOffset = offset
  refine .bind (.gets _) fun manager => ?_
  split
  · exact .bind (.update fun _ => rfl) fun _ => .pure _
  · refine .ite (.stop _) (.updateSome fun s a s' hf => ?_)
    obtain ⟨machine, -, heq⟩ := Option.map_eq_some_iff.mp hf
    cases heq
    rfl

theorem KeepsWaiters.vmas (p : Nat) : KeepsWaiters ts (vmas p) := by
  refine .bind (.gets _) fun vmas => ?_
  cases vmas with
  | none => exact .stop _
  | some i => exact .pure i

theorem KeepsWaiters.createThread (p : Nat) (garbage : UInt64) : KeepsWaiters ts (createThread p garbage) := by
  refine .bind .allocateKernelStack fun _ => .bind (.vmas p) fun _ => ?_
  refine .bind (.gets _) fun t => .bind (.update fun _ => rfl) fun _ => ?_
  exact .pure t

theorem KeepsWaiters.threadStart (t : Nat) : KeepsWaiters ts (threadStart t) :=
  .bind (.update fun _ => rfl) fun _ => .bind (.enqueue t) fun _ => .pure _

theorem KeepsWaiters.threadInit : KeepsWaiters ts threadInit := by
  refine .bind (.gets _) fun t => .bind (.gets _) fun _ => ?_
  refine .ite (.pure _) ?_
  refine .bind (.gets _) fun p => .bind (.vmas p) fun i => ?_
  refine .bind (.updateSome fun s a s' hf => ?_) fun base => ?_
  · obtain ⟨⟨base, system⟩, -, heq⟩ := Option.map_eq_some_iff.mp hf
    cases heq
    rfl
  · cases base with
    | error => exact .stop _
    | ok => exact .update fun _ => rfl

theorem KeepsWaiters.threadWait (t : Nat) : KeepsWaiters ts (threadWait t) := by
  refine .bind (.gets _) fun _ => .ite (.pure _) ?_
  exact .bind (.block _) fun _ => .yield

theorem KeepsWaiters.threadExit : KeepsWaiters ts threadExit := by
  refine .bind (.gets _) fun _ => .bind (.update fun _ => rfl) fun _ => ?_
  refine .bind (.semaphoreSignal _) fun _ => .bind (.update fun _ => rfl) fun _ => ?_
  exact .yield

theorem KeepsWaiters.freeUserStack (i : Nat) (base : UInt64) : KeepsWaiters ts (freeUserStack i base) := by
  refine .bind (.updateSome fun s a s' hf => ?_) fun _ => .ite (.stop _) (.pure _)
  obtain ⟨⟨code, system⟩, -, heq⟩ := Option.map_eq_some_iff.mp hf
  cases heq
  rfl

theorem KeepsWaiters.threadCleanup {t : Nat} (ht : t ∈ ts) : KeepsWaiters ts (threadCleanup t) := by
  have hwake : KeepsWaiters ts (Tasks.wake (.thread t)) := .wake fun u hu => by
    cases hu
    exact ht
  refine .bind (.gets _) fun _ => .ite (.stop _) ?_
  refine .bind (.update fun _ => rfl) fun _ => .bind (.gets _) fun p => ?_
  refine .bind (.vmas p) fun i => .bind (.gets _) fun base => ?_
  refine .bind (.freeUserStack i base) fun _ => .bind (.update fun _ => rfl) fun _ => .bind (.gets _) fun waiting => ?_
  refine .bind (.each fun _ _ => hwake) fun _ => ?_
  exact .bind (.update fun _ => rfl) fun _ => .update fun _ => rfl

theorem KeepsWaiters.createProcess : KeepsWaiters ts createProcess := by
  refine .bind (.gets _) fun p => .bind (.updateSome fun s a s' hf => ?_) fun i => ?_
  · obtain ⟨⟨i, system⟩, -, heq⟩ := Option.map_eq_some_iff.mp hf
    cases heq
    rfl
  · exact .bind (.update fun _ => rfl) fun _ => .pure p

theorem KeepsWaiters.processWait (p : Nat) : KeepsWaiters ts (processWait p) := by
  refine .bind (.gets _) fun _ => .ite (.pure _) ?_
  refine .bind (.gets _) fun threads => ?_
  cases threads with
  | nil => exact .stop _
  | cons t => exact .threadWait t

theorem KeepsWaiters.processExit (exitCode : UInt64) : KeepsWaiters ts (processExit exitCode) := by
  refine .bind (.gets _) fun p => .bind (.update fun _ => rfl) fun _ => ?_
  refine .bind (.gets _) fun threads => ?_
  refine .bind (.each fun t _ => ?_) fun _ => ?_
  · exact .bind (.gets _) fun _ => .ite (.setState _ _) (.pure _)
  · refine .bind (.update fun _ => rfl) fun _ => ?_
    exact .bind (.semaphoreSignal _) fun _ => .yield

/-! ## Events -/

theorem KeepsWaiters.execute (op : Operation) : KeepsWaiters ts (execute op) := by
  cases op with
  | mutexLock => exact .bind (.lock _ _) fun _ => .pure _
  | mutexRelease => exact .bind (.release _) fun _ => .pure _
  | semaphoreWait => exact .semaphoreWait _
  | semaphoreSignal => exact .bind (.semaphoreSignal _) fun _ => .pure _
  | send q => exact .pushBack q false
  | receive => exact .popFront _ _
  | threadSleep => exact .sleep _
  | threadWait t => exact .threadWait t
  | processWait p => exact .processWait p
  | threadExit => exact .threadExit
  | processExit => exact .processExit _
  | processSpawn => exact .bind .createProcess fun _ => .pure _
  | threadCreate p garbage => exact .bind (.createThread p garbage) fun _ => .pure _
  | threadStart t => exact .threadStart t

theorem KeepsWaiters.continueWith (k : Continuation) : KeepsWaiters ts (continueWith k) := by
  cases k with
  | init => exact .threadInit
  | yield => exact .yield
  | lock => exact .bind (.lock _ _) fun _ => .pure _
  | wait x => exact .semaphoreWait x
  | pushBack => exact .pushBack _ _
  | popFront => exact .popFront _ _
  | endPush => exact .endPush _ _

theorem KeepsWaiters.useHeap (use : HeapRequest) : KeepsWaiters ts (useHeap use) := by
  cases use with
  | new | delete =>
    refine .updateSome fun s a s' hf => ?_
    obtain ⟨_, -, heq⟩ := Option.bind_eq_some_iff.mp hf
    cases heq
    rfl

/-- **Only the cleanup thread wakes those that wait for a thread.** -/
theorem KeepsWaiters.perform {e : Event} (he : e ≠ .cleanup) : KeepsWaiters ts (perform e) := by
  cases e with
  | tick => exact .preempt
  | interrupt q => exact .bind (.update fun _ => rfl) fun _ => .pushBack q true
  | call op => exact .bind (.each fun use _ => .useHeap use) fun _ => .execute op
  | resume =>
    refine .bind (.gets _) fun current => .bind (.gets _) fun todo => ?_
    cases todo with
    | nil => exact .pure _
    | cons k => exact .bind (.update fun _ => rfl) fun _ => .continueWith k
  | cleanup => exact absurd rfl he

end Acadia.Zion.Tasks
