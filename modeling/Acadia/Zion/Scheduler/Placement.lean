import Acadia.Zion.Scheduler.Steps

/-! # Where threads are

All lists of threads share one pair of links in each thread, so a thread in two lists corrupts both. In every run in
which a thread is started at most once, each thread is in at most one list, and there in the state of the list unless
it is dying; the current thread is in none; and a thread that is given the processor can run. The sleep thread enters
the runnable list only through preemption, and must never block. -/

namespace Acadia.Zion.Tasks

open Command Glacier Relation List

variable {s s' : Tasks} {t : Nat} {l : ThreadList} {waiting : List Nat}

/-! ## Lists -/

/-- Each thread is at most once in at most one list. -/
structure Separate (lists : ThreadList → List Nat) : Prop where
  nodup : ∀ l, (lists l).Nodup
  disjoint : ∀ l l' t, t ∈ lists l → t ∈ lists l' → l = l'

theorem Separate.sublist {lists lists' : ThreadList → List Nat} (h : Separate lists)
    (hsub : ∀ l, (lists' l).Sublist (lists l)) : Separate lists' where
  nodup l := (h.nodup l).sublist (hsub l)
  disjoint l l' t ht ht' := h.disjoint l l' t ((hsub l).subset ht) ((hsub l').subset ht')

theorem mem_push {u : Nat} {l' : ThreadList} : u ∈ (s.push l t).lists l' ↔ u ∈ s.lists l' ∨ l' = l ∧ u = t := by
  rw [lists_push]
  by_cases hl : l' = l
  · subst hl
    simp
  · simp [hl]

theorem Separate.push (h : Separate s.lists) (ht : ∀ l, t ∉ s.lists l) :
    Separate (s.push l t).lists where
  nodup l' := by
    rw [lists_push]
    split
    · exact (h.nodup l).append (nodup_singleton t) (disjoint_singleton.mpr (ht l))
    · exact h.nodup l'
  disjoint l1 l2 u h1 h2 := by
    rw [mem_push] at h1 h2
    rcases h1 with h1 | ⟨rfl, rfl⟩
    · rcases h2 with h2 | ⟨rfl, rfl⟩
      · exact h.disjoint l1 l2 u h1 h2
      · exact absurd h1 (ht l1)
    · rcases h2 with h2 | ⟨rfl, -⟩
      · exact absurd h2 (ht l2)
      · rfl

/-- The lists and the states of the threads in them agree. The threads `waiting` to be started are in
none. -/
structure Listed (waiting : List Nat) (s : Tasks) : Prop where
  separate : Separate s.lists
  state : ∀ l, ∀ t ∈ s.lists l, (s.state t).isDying = false → s.state t = l.state
  exist : ∀ l, ∀ t ∈ s.lists l, t < s.threadCount
  fresh : ∀ l, ∀ t ∈ waiting, 2 < t → t ∉ s.lists l
  idle : ∀ l, sleepThread ∈ s.lists l → l = .runnable

theorem Listed.sublist (h : Listed waiting s) (hsub : ∀ l, (s'.lists l).Sublist (s.lists l))
    (hstate : ∀ t, s'.state t = s.state t) (hcount : s'.threadCount = s.threadCount) :
    Listed waiting s' where
  separate := h.separate.sublist hsub
  state l t ht hd := by
    rw [hstate] at hd ⊢
    exact h.state l t ((hsub l).subset ht) hd
  exist l t ht := hcount ▸ h.exist l t ((hsub l).subset ht)
  fresh l t ht h2 hl := h.fresh l t ht h2 ((hsub l).subset hl)
  idle l hl := h.idle l ((hsub l).subset hl)

theorem Listed.setList (h : Listed waiting s) (ts : List Nat) (hsub : ts.Sublist (s.lists l)) :
    Listed waiting (s.setList l ts) := by
  refine h.sublist (fun l' => ?_) (fun _ => rfl) rfl
  rw [lists_setList]
  split_ifs with hl
  · exact hl ▸ hsub
  · exact List.Sublist.refl _

theorem Listed.writeState {x : ThreadState} (h : Listed waiting s)
    (hx : ∀ l, t ∈ s.lists l → x.isDying = false → x = l.state) :
    Listed waiting (s.writeState t x) where
  separate := h.separate
  state l u hu hd := by
    by_cases hut : u = t
    · subst hut
      rw [state_writeState_self] at hd ⊢
      exact hx l hu hd
    · rw [state_writeState_of_ne x hut] at hd ⊢
      exact h.state l u hu hd
  exist := h.exist
  fresh := h.fresh
  idle := h.idle

theorem Listed.push (h : Listed waiting s) (ht : ∀ l, t ∉ s.lists l) (hst : s.state t = l.state)
    (hn : t < s.threadCount) (hw : t ∈ waiting → t ≤ 2) (hidle : t = sleepThread → l = .runnable) :
    Listed waiting (s.push l t) where
  separate := h.separate.push ht
  state l' u hu hd := by
    rcases mem_push.mp hu with hu | ⟨rfl, rfl⟩
    · exact h.state l' u hu hd
    · exact hst
  exist l' u hu := by
    rcases mem_push.mp hu with hu | ⟨rfl, rfl⟩
    · exact h.exist l' u hu
    · exact hn
  fresh l' u hu h2 hl := by
    rcases mem_push.mp hl with hl | ⟨rfl, rfl⟩
    · exact h.fresh l' u hu h2 hl
    · exact absurd (hw hu) (not_le.mpr h2)
  idle l' hl := by
    rcases mem_push.mp hl with hl | ⟨rfl, hu⟩
    · exact h.idle l' hl
    · exact hidle hu.symm

theorem Listed.place (h : Listed waiting s) (ht : ∀ l, t ∉ s.lists l) (hn : t < s.threadCount)
    (hw : t ∈ waiting → t ≤ 2) (hidle : t = sleepThread → l = .runnable) :
    Listed waiting ((s.writeState t l.state).push l t) :=
  (h.writeState fun l' hl => absurd hl (ht l')).push ht (state_writeState_self _) hn hw hidle

theorem Separate.not_mem_of_erase (h : Separate s.lists) (ht : t ∈ s.lists l) (l' : ThreadList) :
    t ∉ (s.setList l ((s.lists l).erase t)).lists l' := by
  rw [lists_setList]
  split_ifs with hl
  · exact (h.nodup l).not_mem_erase
  · exact fun ht' => hl (h.disjoint l' l t ht' ht)

/-! ## The current thread -/

/-- Where the current thread is while it runs, and while it leaves. -/
structure Placed (waiting : List Nat) (x : Phase × Tasks) : Prop where
  listed : Listed waiting x.2
  exist : x.2.current < x.2.threadCount
  fresh : x.2.current ∈ waiting → x.2.current ≤ 2
  running : x.1 = .running → (∀ l, x.2.current ∉ x.2.lists l) ∧
    (x.2.state x.2.current).isDying = false ∧
    (x.2.current ≠ sleepThread → x.2.state x.2.current = .running)
  leaving : x.1 = .leaving → x.2.current ≠ sleepThread
  /-- The sleep thread can be given the processor whenever another thread has it. -/
  idle : x.2.current ≠ sleepThread → x.2.state sleepThread = .runnable

variable {x y : Phase × Tasks}

theorem Placed.idle_alive (h : Placed waiting x) : (x.2.state sleepThread).isDying = false := by
  by_cases hc : x.2.current = sleepThread
  · cases hx : x.1 with
    | running => exact hc ▸ (h.running hx).2.1
    | leaving => exact absurd hc (h.leaving hx)
  · rw [h.idle hc]
    rfl

theorem Placed.kill {p p' : Phase} (h : Placed waiting (p, s))
    (hst : ∀ t, s'.state t = s.state t ∨ (s'.state t).isDying = true)
    (hidle : s'.state sleepThread = s.state sleepThread)
    (hrun : p' = .running → p = .running ∧ s'.state s.current = s.state s.current)
    (hleave : p' = .leaving → s.current ≠ sleepThread) (hl : s'.lists = s.lists := by rfl)
    (hn : s'.threadCount = s.threadCount := by rfl) (hc : s'.current = s.current := by rfl) :
    Placed waiting (p', s') := by
  have hlisted : Listed waiting s' := by
    refine ⟨hl ▸ h.listed.separate, fun l t ht hd => ?_, fun l t ht => ?_, fun l => ?_, fun l => ?_⟩
    · rcases hst t with hst | hst
      · rw [hst] at hd ⊢
        exact h.listed.state l t (hl ▸ ht) hd
      · rw [hst] at hd
        cases hd
    · exact hn ▸ h.listed.exist l t (hl ▸ ht)
    · rw [hl]
      exact h.listed.fresh l
    · rw [hl]
      exact h.listed.idle l
  refine ⟨hlisted, ?_, ?_, fun hp => ?_, fun hp => ?_, ?_⟩
  · show s'.current < s'.threadCount
    rw [hc, hn]
    exact h.exist
  · show s'.current ∈ waiting → s'.current ≤ 2
    rw [hc]
    exact h.fresh
  · show (∀ l, s'.current ∉ s'.lists l) ∧ (s'.state s'.current).isDying = false ∧
      (s'.current ≠ sleepThread → s'.state s'.current = .running)
    rw [hc, hl, (hrun hp).2]
    exact h.running (hrun hp).1
  · show s'.current ≠ sleepThread
    rw [hc]
    exact hleave hp
  · show s'.current ≠ sleepThread → s'.state sleepThread = .runnable
    rw [hc, hidle]
    exact h.idle

theorem Placed.congr {p : Phase} (h : Placed waiting (p, s))
    (hst : ∀ t, s'.state t = s.state t := by intro; rfl) (hl : s'.lists = s.lists := by rfl)
    (hn : s'.threadCount = s.threadCount := by rfl) (hc : s'.current = s.current := by rfl) :
    Placed waiting (p, s') :=
  h.kill (fun t => .inl (hst t)) (hst _) (fun hp => ⟨hp, hst _⟩) h.leaving hl hn hc

theorem Placed.wake {p : Phase} (h : Placed waiting (p, s)) (ht : t ∈ s.lists l) :
    Placed waiting (p, ((s.setList l ((s.lists l).erase t)).writeState t .runnable).push .runnable t) := by
  have herase : Listed waiting (s.setList l ((s.lists l).erase t)) :=
    h.listed.setList _ erase_sublist
  have hnot := h.listed.separate.not_mem_of_erase ht
  have hsub : ∀ u l', u ∈ (s.setList l ((s.lists l).erase t)).lists l' → u ∈ s.lists l' := by
    intro u l' hu
    rw [lists_setList] at hu
    split_ifs at hu with hl'
    · exact hl' ▸ mem_of_mem_erase hu
    · exact hu
  refine ⟨herase.place hnot (h.listed.exist l t ht) (fun hw => ?_) fun _ => rfl, h.exist, h.fresh,
    fun hp => ⟨fun l' hc => ?_, ?_⟩, h.leaving, fun hc => ?_⟩
  · by_contra h2
    exact h.listed.fresh l t hw (not_le.mp h2) ht
  · rcases mem_push.mp hc with hc | ⟨-, hct⟩
    · exact (h.running hp).1 l' (hsub _ _ hc)
    · exact (h.running hp).1 l (hct.symm ▸ ht)
  · have hne : s.current ≠ t := by
      rintro rfl
      exact (h.running hp).1 l ht
    have hst := state_writeState_of_ne (s := s.setList l ((s.lists l).erase t)) .runnable hne
    exact ⟨(congrArg _ hst).trans (h.running hp).2.1, fun hc => hst.trans ((h.running hp).2.2 hc)⟩
  · show ((s.setList l ((s.lists l).erase t)).writeState t .runnable).state sleepThread = _
    rw [state_writeState]
    split
    · rfl
    · exact h.idle hc

theorem Placed.block (h : Placed waiting (.running, s)) (hs : s.current ≠ sleepThread) :
    Placed waiting (.leaving, (s.writeState s.current l.state).push l s.current) := by
  refine ⟨h.listed.place (h.running rfl).1 h.exist h.fresh (fun hc => absurd hc hs), h.exist,
    h.fresh, fun hp => (by cases hp), fun _ => hs, fun hc => ?_⟩
  exact (state_writeState_of_ne _ hs.symm).trans (h.idle hc)

variable {p next : Nat} {rest ts : List Nat}

/-- A thread that is taken from the front of the runnable list is given the processor, and the list
is then `rest`, perhaps with the thread that had it. -/
theorem Listed.switchTo (h : Listed waiting (s.setList .runnable rest))
    (hnext : ∀ l, next ∉ (s.setList .runnable rest).lists l) : Listed waiting (s.switchTo next rest) := by
  refine Listed.writeState ?_ fun l hl => absurd hl (hnext l)
  exact h.sublist (fun _ => List.Sublist.refl _) (fun _ => rfl) rfl

theorem Listed.not_mem_of_cons (h : Listed waiting s) (hr : s.lists .runnable = next :: rest)
    (l : ThreadList) : next ∉ (s.setList .runnable rest).lists l := by
  rw [lists_setList]
  split_ifs with hl
  · have hnd := h.separate.nodup .runnable
    rw [hr] at hnd
    exact (nodup_cons.mp hnd).1
  · exact fun hn => hl (h.separate.disjoint l .runnable next hn (hr ▸ mem_cons_self))

theorem Placed.switchTo {p : Phase} (h : Placed waiting (p, s)) (hr : s.lists .runnable = next :: rest)
    {s1 : Tasks} {rest' : List Nat} (hl : Listed waiting (s1.switchTo next rest'))
    (hn : s1.threadCount = s.threadCount) (hmem : ∀ l, next ∉ (s1.setList .runnable rest').lists l)
    (hidle : s1.state sleepThread = .runnable) : Placed waiting (.running, s1.switchTo next rest') := by
  have hmemr : next ∈ s.lists .runnable := hr ▸ mem_cons_self
  refine ⟨hl, ?_, fun hw => ?_, fun _ => ⟨hmem, ?_⟩, fun hp => (by cases hp), fun hc => ?_⟩
  · show next < s1.threadCount
    rw [hn]
    exact h.listed.exist _ _ hmemr
  · by_contra h2
    exact h.listed.fresh _ next hw (not_le.mp h2) hmemr
  · exact ⟨congrArg _ (state_writeState_self _), fun _ => state_writeState_self _⟩
  · exact (state_writeState_of_ne _ (Ne.symm hc)).trans hidle

/-- **Every move keeps the threads in their places.** -/
theorem Placed.move (h : Placed waiting x) (hm : Move x y) : Placed waiting y := by
  cases hm with
  | aside | locks => exact h.congr
  | ticks | later | resumed => exact h.congr fun _ => state_modifyThread rfl
  | wake hl ht hd => exact h.wake ht
  | block hl hs hx hd => exact h.block hs
  | @clear _ s =>
    have hsub : ∀ u l', u ∈ s.clearDeadThreadsFromFront.lists l' → u ∈ s.lists l' := by
      intro u l' hu
      rw [clearDeadThreadsFromFront, lists_setList] at hu
      split_ifs at hu with hl'
      · exact hl' ▸ (dropWhile_sublist _).subset hu
      · exact hu
    exact ⟨h.listed.setList _ (dropWhile_sublist _), h.exist, h.fresh,
      fun hp => ⟨fun l hc => (h.running hp).1 l (hsub _ _ hc), (h.running hp).2⟩, h.leaving, h.idle⟩
  | @idle _ s hr hs hi =>
    have hnot : ∀ l, sleepThread ∉ s.lists l := by
      intro l hl
      rw [h.listed.idle l hl, hr] at hl
      cases hl
    refine ⟨Listed.writeState ?_ fun l hl => absurd hl (hnot l), ?_, fun _ => Nat.zero_le 2,
      fun _ => ⟨hnot, congrArg _ (state_writeState_self _), fun hc => absurd rfl hc⟩,
      fun hp => (by cases hp), fun hc => absurd rfl hc⟩
    · exact h.listed.sublist (fun _ => List.Sublist.refl _) (fun _ => rfl) rfl
    · exact Nat.zero_lt_of_lt h.exist
  | @switch _ s next rest hr hn =>
    have hrel : Listed waiting s.released := by
      unfold released
      split_ifs with hc
      · rw [hc.1]
        exact h.listed.writeState fun l hl _ => (h.listed.idle l hl) ▸ rfl
      · exact h.listed
    have hlr : s.released.lists = s.lists := by
      unfold released
      split <;> rfl
    have hr' : s.released.lists .runnable = next :: rest := hlr ▸ hr
    have hmem := hrel.not_mem_of_cons hr'
    have hrest := hrel.setList (l := .runnable) rest (hr' ▸ sublist_cons_self _ _)
    refine h.switchTo hr (hrest.switchTo hmem) (Frame.released s).threadCount hmem ?_
    unfold released
    split_ifs with hc
    · rw [hc.1, state_writeState_self]
    · refine h.idle fun hs => hc ⟨hs, ?_⟩
      have halive := h.idle_alive
      replace hs : s.current = sleepThread := hs
      rw [hs]
      simpa using halive
  | @preempt s next rest hr hd hn =>
    have hfree := (h.running rfl).1
    have hprev : Listed waiting (s.writeState s.current .runnable) :=
      h.listed.writeState fun l hl => absurd hl (hfree l)
    have hmem := hprev.not_mem_of_cons hr
    have hne : next ≠ s.current := by
      rintro rfl
      exact hfree .runnable (hr ▸ mem_cons_self)
    -- The thread that had the processor comes after the others.
    have hrest := hprev.setList (l := .runnable) rest (by
      exact hr ▸ sublist_cons_self _ _)
    have hpush := hrest.push (t := s.current) (l := .runnable) (fun l hl => ?_)
      (state_writeState_self _) h.exist h.fresh fun _ => rfl
    have hlists : ((s.writeState s.current .runnable).setList .runnable (rest ++ [s.current])).lists =
        (((s.writeState s.current .runnable).setList .runnable rest).push .runnable s.current).lists := by
      exact (Function.update_idem ..).symm
    replace hpush : Listed waiting ((s.writeState s.current .runnable).setList .runnable (rest ++ [s.current])) :=
      hpush.sublist (fun l => hlists ▸ List.Sublist.refl _) (fun _ => rfl) rfl
    have hmem' : ∀ l, next ∉ ((s.writeState s.current .runnable).setList .runnable (rest ++ [s.current])).lists l := by
      intro l hl
      rw [hlists] at hl
      rcases mem_push.mp hl with hl | ⟨-, rfl⟩
      · exact hmem l hl
      · exact hne rfl
    · refine h.switchTo hr (hpush.switchTo hmem') rfl hmem' ?_
      rw [state_writeState]
      split_ifs with hs
      · rfl
      · exact h.idle (Ne.symm hs)
    · rw [lists_setList] at hl
      split at hl
      · exact hfree .runnable (hr ▸ mem_cons_of_mem _ hl)
      · exact hfree l hl

/-- **The panic of `SwapToCurrent` is not reached.** -/
theorem Placed.not_swapping (h : Placed waiting x) : ¬Cause x .swappingNonRunnable := by
  intro hc
  cases hc with
  | idle _ hs hi => exact hi (h.idle hs)
  | @switch _ _ next _ hr hd hn =>
    have hst := h.listed.state .runnable next (hr ▸ mem_cons_self) hd
    refine hn ?_
    unfold released
    split
    · rw [state_writeState]
      split
      · rfl
      · exact hst
    · exact hst
  | @preempt _ next _ hr hd hn =>
    have hst := h.listed.state .runnable next (hr ▸ mem_cons_self) hd
    refine hn ?_
    rw [state_writeState]
    split
    · rfl
    · exact hst

theorem Placed.moves (h : Placed waiting x) (hm : Moves x y) : Placed waiting y := by
  induction hm with
  | refl => exact h
  | tail _ hm ih => exact ih.move hm

theorem Placed.not_stops (h : Placed waiting x) : ¬Stops x .swappingNonRunnable := by
  rintro ⟨y, hm, hc⟩
  exact (h.moves hm).not_swapping hc

/-! ## Threads and processes -/

theorem Placed.started (h : Placed waiting (.running, s)) (hw : t ∉ waiting) (h2 : 2 < t) (hn : t < s.threadCount)
    (hcur : s.current ≠ t) (hnot : ∀ l, t ∉ s.lists l) : Placed waiting (.running, s.started t) := by
  have hidle : sleepThread ≠ t := fun hc => absurd h2 (hc ▸ by decide)
  refine ⟨h.listed.place (l := .runnable) hnot hn (fun ht => absurd ht hw)
    (fun hc => absurd hc.symm hidle), h.exist, h.fresh, fun _ => ⟨fun l hc => ?_, ?_⟩,
    fun hp => (by cases hp), fun hc => ?_⟩
  · rcases mem_push.mp hc with hc | ⟨-, hc⟩
    · exact (h.running rfl).1 l hc
    · exact hcur hc
  · have hst := state_writeState_of_ne (s := s) .runnable hcur
    exact ⟨(congrArg _ hst).trans (h.running rfl).2.1, fun hc => hst.trans ((h.running rfl).2.2 hc)⟩
  · exact (state_writeState_of_ne _ hidle).trans (h.idle hc)

variable {garbage stack cr3 exitCode : UInt64}

theorem Placed.created (h : Placed waiting (.running, s)) :
    Placed waiting (.running, s.created p garbage stack cr3) := by
  have hstate : ∀ t, t < s.threadCount → (s.created p garbage stack cr3).state t = s.state t := by
    intro t ht
    exact congrArg Thread.state (Function.update_of_ne ht.ne ..)
  have hidle : sleepThread < s.threadCount := Nat.zero_lt_of_lt h.exist
  refine ⟨⟨h.listed.separate, fun l t ht hd => ?_, fun l t ht => ?_, h.listed.fresh, h.listed.idle⟩,
    Nat.lt_succ_of_lt h.exist, h.fresh, fun _ => ⟨(h.running rfl).1, ?_⟩, h.leaving, fun hc => ?_⟩
  · rw [hstate t (h.listed.exist l t ht)] at hd ⊢
    exact h.listed.state l t ht hd
  · exact Nat.lt_succ_of_lt (h.listed.exist l t ht)
  · have hst := hstate s.current h.exist
    exact ⟨(congrArg _ hst).trans (h.running rfl).2.1, fun hc => hst.trans ((h.running rfl).2.2 hc)⟩
  · exact (hstate _ hidle).trans (h.idle hc)

theorem Placed.exited (h : Placed waiting (.running, s)) (hs : s.current ≠ sleepThread) :
    Placed waiting (.leaving, s.exited) := by
  refine h.kill (fun t => ?_) (state_writeState_of_ne _ hs.symm) (fun hp => (by cases hp)) fun _ => hs
  rw [state_exited]
  split
  · exact .inr rfl
  · exact .inl rfl

theorem Placed.processExited (h : Placed waiting (.running, s)) (hs : s.current ≠ sleepThread)
    (hp : sleepThread ∉ (s.process p).threads) : Placed waiting (.leaving, s.processExited p exitCode) := by
  refine h.kill (fun t => ?_) ?_ (fun hp => (by cases hp)) fun _ => hs
  · rw [state_processExited]
    split
    · exact .inr rfl
    · exact .inl rfl
  · rw [state_processExited, if_neg (fun h => hp h.1)]

/-- What is known of the sleep thread and of the threads of processes. -/
structure Stable (s : Tasks) : Prop where
  enabled : s.enabled = true
  idle : ∀ k ∈ (s.thread sleepThread).todo, k.IsIdle
  count : 2 < s.threadCount
  /-- The sleep thread is a thread of the root process alone. -/
  threads : ∀ p, p ≠ 0 → sleepThread ∉ (s.process p).threads
  /-- Threads other than the sleep thread and the cleanup thread are those of other processes. -/
  users : ∀ t, 1 < t → (s.thread t).process ≠ 0
  exits : sleepThread ∉ s.threadList
  /-- Only the cleanup thread goes on to wait for exits. -/
  waits : ∀ t, .wait .cleanup ∈ (s.thread t).todo → t = cleanupThread

theorem Stable.frame (h : s.Stable) (hf : Frame s s') : s'.Stable where
  enabled := hf.enabled.trans h.enabled
  idle := hf.idle h.idle
  count := hf.threadCount ▸ h.count
  threads p hp := hf.process ▸ h.threads p hp
  users t ht := (hf.thread t).1 ▸ h.users t ht
  exits := hf.threadList ▸ h.exits
  waits t ht := (hf.waits t ht).elim id (h.waits t)

theorem Placed.writeDying {x : ThreadState} (h : Placed waiting (.running, s)) (ht : t ≠ sleepThread)
    (hc : s.current ≠ t) (hx : x.isDying = true) : Placed waiting (.running, s.writeState t x) := by
  refine h.kill (fun u => ?_) (state_writeState_of_ne _ ht.symm)
    (fun hp => ⟨hp, state_writeState_of_ne _ hc⟩) fun hp => (by cases hp)
  rw [state_writeState]
  split
  · exact .inr hx
  · exact .inl rfl

theorem Placed.cleaning (h : Placed waiting (.running, s)) (system : System) (ht : t ≠ sleepThread)
    (hc : s.current ≠ t) : Placed waiting (.running, s.cleaning t system) :=
  (h.writeDying ht hc rfl).congr

theorem Placed.cleans (h : Placed waiting (.running, s)) (ht : t ≠ sleepThread) (hc : Cleans t s s') :
    Placed waiting (.running, s') := by
  obtain ⟨hct, -, -, hst⟩ := hc
  rename_i i system s1
  have h1 := (h.cleaning system ht hct).moves hst.moves
  have hct' : s1.current ≠ t := hst.current ▸ hct
  exact (h1.writeDying (x := .finished) ht hct' rfl).congr

theorem Placed.ne_sleepThread (h : Placed waiting x) (ht : x.2.state t = .cleanup) : t ≠ sleepThread := by
  rintro rfl
  have halive := h.idle_alive
  rw [ht] at halive
  cases halive

theorem Placed.cleansAll (h : Placed waiting (.running, s)) (hc : CleansAll s ts s') :
    Placed waiting (.running, s') := by
  induction hc with
  | nil => exact h
  | skip _ _ ih => exact ih
  | clean _ ht hc ih => exact ih.cleans (ih.ne_sleepThread ht) hc

theorem Stable.congr (h : s.Stable) (hx : sleepThread ∈ s'.threadList → sleepThread ∈ s.threadList := by exact id)
    (hp : ∀ p, sleepThread ∈ (s'.process p).threads → sleepThread ∈ (s.process p).threads := by
      exact fun _ => id)
    (htodo : ∀ t, (s'.thread t).todo = (s.thread t).todo := by intro; rfl)
    (hu : ∀ t, (s'.thread t).process = (s.thread t).process := by intro; rfl)
    (hn : s'.threadCount = s.threadCount := by rfl) (he : s'.enabled = s.enabled := by rfl) :
    s'.Stable where
  enabled := he.trans h.enabled
  idle := htodo _ ▸ h.idle
  count := hn ▸ h.count
  threads p hp' hm := h.threads p hp' (hp p hm)
  users t ht := hu t ▸ h.users t ht
  exits hm := h.exits (hx hm)
  waits t ht := h.waits t (htodo t ▸ ht)

theorem Stable.modifyThread {f : Thread → Thread} (h : s.Stable) (hp : (f (s.thread t)).process = (s.thread t).process)
    (htodo : ∀ k ∈ (f (s.thread t)).todo, k ∈ (s.thread t).todo) : (s.modifyThread t f).Stable := by
  have hself : (s.modifyThread t f).thread t = f (s.thread t) := thread_modifyThread_self f
  have hother : ∀ u, u ≠ t → (s.modifyThread t f).thread u = s.thread u := fun u hu =>
    Function.update_of_ne hu ..
  refine ⟨h.enabled, fun k hk => ?_, h.count, h.threads, fun u hu => ?_, h.exits, fun u hu => ?_⟩
  · by_cases ht : sleepThread = t
    · subst ht
      exact h.idle k (htodo k hk)
    · rw [hother _ ht] at hk
      exact h.idle k hk
  · by_cases hut : u = t
    · rw [hut, hself, hp]
      exact h.users t (hut ▸ hu)
    · rw [hother u hut]
      exact h.users u hu
  · by_cases hut : u = t
    · rw [hut, hself] at hu
      exact hut ▸ h.waits t (htodo _ hu)
    · rw [hother u hut] at hu
      exact h.waits u hu

theorem Stable.writeState (h : s.Stable) (x : ThreadState) : (s.writeState t x).Stable :=
  h.modifyThread rfl fun _ hk => hk

theorem Stable.created (h : s.Stable) (hp : p ≠ 0) : (s.created p garbage stack cr3).Stable := by
  have hidle : sleepThread ≠ s.threadCount := (Nat.zero_lt_of_lt h.count).ne
  refine ⟨h.enabled, ?_, Nat.lt_succ_of_lt h.count, fun p' hp' hm => ?_, fun t ht => ?_, h.exits, fun t ht => ?_⟩
  · rw [thread_created_of_ne hidle]
    exact h.idle
  · rw [threads_created] at hm
    split_ifs at hm with hpp
    · rw [mem_append, mem_singleton] at hm
      exact hm.elim (hpp ▸ h.threads p' hp') hidle
    · exact h.threads p' hp' hm
  · by_cases htc : t = s.threadCount
    · rw [htc, thread_created_self]
      exact hp
    · rw [thread_created_of_ne htc]
      exact h.users t ht
  · by_cases htc : t = s.threadCount
    · rw [htc, thread_created_self] at ht
      simp at ht
    · rw [thread_created_of_ne htc] at ht
      exact h.waits t ht

theorem Stable.spawned {i : Nat} {system : System}
    {heap : KernelHeap PhysicalMemoryManager} (h : s.Stable) : (s.spawned i system heap).Stable := by
  refine h.congr id fun p hm => ?_
  rw [process_spawned] at hm
  split at hm
  · cases hm
  · exact hm

theorem Stable.modifyProcess {f : Process → Process} (h : s.Stable)
    (hf : ∀ x, (f x).threads = x.threads) : (s.modifyProcess p f).Stable := by
  refine h.congr id fun p' hm => ?_
  by_cases hp : p' = p
  · subst hp
    rw [process_modifyProcess_self, hf] at hm
    exact hm
  · have hother : (s.modifyProcess p f).process p' = s.process p' := Function.update_of_ne hp ..
    exact hother ▸ hm

theorem Stable.processExited (h : s.Stable) : (s.processExited p exitCode).Stable := by
  have hth : ∀ t, ((s.processExited p exitCode).thread t).todo = (s.thread t).todo ∧
      ((s.processExited p exitCode).thread t).process = (s.thread t).process := by
    intro t
    show (markedThreads s.thread (s.process p).threads t).todo = _ ∧
      (markedThreads s.thread (s.process p).threads t).process = _
    unfold markedThreads
    split <;> exact ⟨rfl, rfl⟩
  refine (h.modifyProcess (p := p) (f := fun x => { x with state := .cleanup, exitCode })
    fun _ => rfl).congr id (fun _ => id) (fun t => (hth t).1) fun t => (hth t).2

/-- **What holds between events.** -/
structure Sound (waiting : List Nat) (s : Tasks) : Prop where
  placed : Placed waiting (.running, s)
  stable : s.Stable
  locks : s.QueueLocks

theorem Sound.steady (h : Sound waiting s) : s.Steady where
  enabled := h.stable.enabled
  locks := h.locks
  idle := h.stable.idle
  current := (h.placed.running rfl).1 _
  waits := h.stable.waits

theorem Stable.cleans (h : s.Stable) (hc : Cleans t s s') : s'.Stable := by
  obtain ⟨-, -, -, hst⟩ := hc
  rename_i i system s1
  have h1 : (s.cleaning t system).Stable :=
    (h.writeState .cleanup).congr
  have h2 := h1.frame (frame_of_moves hst.moves)
  refine Stable.writeState ?_ .finished
  exact h2.congr

theorem Stable.cleansAll (h : s.Stable) (hc : CleansAll s ts s') : s'.Stable := by
  induction hc with
  | nil => exact h
  | skip _ _ ih => exact ih
  | clean _ _ hc ih => exact ih.cleans hc

theorem Stable.cleansProcess (h : s.Stable) (hc : CleansProcess p s s') : s'.Stable := by
  obtain ⟨-, hall, -, -, -⟩ := hc
  rename_i s1 removed caps i system
  have h1 := (h.modifyProcess (p := p) (f := fun x => { x with state := .cleanup }) fun _ => rfl).cleansAll hall
  have h2 := h1.modifyProcess (p := p) (f := fun x => { x with caps }) fun _ => rfl
  refine Stable.modifyProcess ?_ fun _ => rfl
  exact h2.congr

theorem Placed.cleansProcess (h : Placed waiting (.running, s)) (hc : CleansProcess p s s') :
    Placed waiting (.running, s') := by
  obtain ⟨-, hall, -, -, -⟩ := hc
  have h1 : Placed waiting (.running, s.processCleaning p) := h.congr
  exact (h1.cleansAll hall).congr

/-! ## Runs -/

/-- The threads that a sequence of events starts. -/
def starts (events : List Event) : List Nat := events.filterMap Event.started

theorem Placed.anti {waiting' : List Nat} (h : Placed waiting x) (hw : waiting' ⊆ waiting) : Placed waiting' x :=
  ⟨⟨h.listed.separate, h.listed.state, h.listed.exist, fun l t ht => h.listed.fresh l t (hw ht),
    h.listed.idle⟩, h.exist, fun hc => h.fresh (hw hc), h.running, h.leaving, h.idle⟩

theorem possible_of_step {e : Event} (h : s.step e = some s') : s.Possible e := by
  by_contra hp
  rw [step, if_neg hp] at h
  cases h

theorem Stable.process_ne_zero (h : s.Stable) (h0 : s.current ≠ sleepThread)
    (h1 : s.current ≠ cleanupThread) : (s.thread s.current).process ≠ 0 := by
  refine h.users s.current ?_
  unfold sleepThread at h0
  unfold cleanupThread at h1
  omega

theorem Sound.placed_processExited (h : Sound waiting s) (h0 : s.current ≠ sleepThread) (h1 : s.current ≠ cleanupThread)
    (exitCode : UInt64) : Placed waiting (.leaving, s.processExited (s.thread s.current).process exitCode) :=
  h.placed.processExited h0 (h.stable.threads _ (h.stable.process_ne_zero h0 h1))

/-- **One step**, in which a thread may be started that is not running and in no list. -/
theorem Sound.step {e : Event} (h : Sound waiting s)
    (hstart : ∀ t, e.started = some t → 2 < t → t ∉ waiting ∧ s.current ≠ t ∧ ∀ l, t ∉ s.lists l)
    (hstep : s.step e = some s') : Sound waiting s' := by
  have hp := possible_of_step hstep
  obtain ⟨heff, hlocks⟩ := step_effect h.steady hstep
  have hpl := h.placed
  suffices hps : Placed waiting (.running, s') ∧ s'.Stable from ⟨hps.1, hps.2, hlocks⟩
  have hresumed : ∀ {k : Continuation} {todo : List Continuation}, (s.thread s.current).todo = k :: todo →
      Placed waiting (.running, s.modifyThread s.current fun th => { th with todo }) ∧
        (s.modifyThread s.current fun th => { th with todo }).Stable := by
    intro k todo htodo
    refine ⟨hpl.congr fun _ => state_modifyThread rfl, ?_⟩
    exact h.stable.modifyThread rfl fun k' hk' => htodo ▸ mem_cons_of_mem k hk'
  cases heff with
  | moves hm => exact ⟨hpl.moves hm, h.stable.frame (frame_of_moves hm)⟩
  | @start t _ machine heap =>
    obtain ⟨hw, hcur, hnot⟩ := hstart t rfl hp.2.2.2.1
    have hpl1 : Placed waiting (.running, s.withHeap machine heap) := hpl.congr
    have hst1 : (s.withHeap machine heap).Stable := h.stable.congr
    refine ⟨hpl1.started hw hp.2.2.2.1 hp.2.2.2.2 hcur hnot, ?_⟩
    exact (hst1.writeState .runnable).frame (.setList _)
  | @create _ _ _ _ _ _ _ s1 hi hstack =>
    have hpl1 : Placed waiting (.running, s1) := by
      rw [hstack.eq]
      exact hpl.congr
    have hst1 : s1.Stable := by
      rw [hstack.eq]
      exact h.stable.congr
    exact ⟨hpl1.created, hst1.created hp.2.2.2.1.ne'⟩
  | spawn => exact ⟨hpl.congr, h.stable.spawned⟩
  | @init todo _ _ system htodo hi hx =>
    obtain ⟨hpl1, hst1⟩ := hresumed htodo
    have hst2 : ({ (s.modifyThread s.current fun th => { th with todo }) with
        system } : Tasks).Stable :=
      hst1.congr
    exact ⟨hpl1.congr fun _ => state_initialised, hst2.modifyThread rfl fun _ hk => hk⟩
  | initKernel htodo hk => exact hresumed htodo
  | exit hm =>
    have hex : s.exited.Stable := by
      refine (h.stable.writeState (t := s.current) .cleanup).congr fun hm => ?_
      rcases mem_append.mp hm with hm | hm
      · exact hm
      · exact absurd (mem_singleton.mp hm).symm hp.1
    exact ⟨(hpl.exited hp.1).moves hm, hex.frame (frame_of_moves hm)⟩
  | processExit hm =>
    exact ⟨(h.placed_processExited hp.1 hp.2.1 _).moves hm, h.stable.processExited.frame (frame_of_moves hm)⟩
  | @cleanThread t threadList _ hl ht hc =>
    have hpl1 : Placed waiting (.running, { s with threadList }) :=
      hpl.congr
    have hst1 : ({ s with threadList } : Tasks).Stable := by
      refine h.stable.congr fun hm => ?_
      rw [ht]
      exact mem_cons_of_mem t hm
    refine ⟨hpl1.cleans (fun hs => ?_) hc, hst1.cleans hc⟩
    exact h.stable.exits (ht ▸ hs ▸ mem_cons_self)
  | @cleanProcess _ processList _ hl hlist hc =>
    have hpl1 : Placed waiting (.running, { s with processList }) :=
      hpl.congr
    have hst1 : ({ s with processList } : Tasks).Stable :=
      h.stable.congr
    exact ⟨hpl1.cleansProcess hc, hst1.cleansProcess hc⟩

theorem possible_of_fault {e : Event} {f : Fault} (h : s.fault e = some f) : s.Possible e := by
  by_contra hp
  rw [fault, if_neg hp] at h
  cases h

/-- No thread that is cleaned up leads to the panic of `SwapToCurrent`. -/
theorem Placed.not_cleanFault (h : Placed waiting (.running, s)) (ht : t ≠ sleepThread) :
    ¬CleanFault t s .swappingNonRunnable := by
  intro hf
  cases hf with
  | stops hc hstop => exact (h.cleaning _ ht hc).not_stops hstop

/-- No event leads to the panic of `SwapToCurrent`. -/
theorem Sound.not_swapping (h : Sound waiting s) (e : Event) : s.fault e ≠ some .swappingNonRunnable := by
  intro hf
  have hp := possible_of_fault hf
  have hfail := fault_failure h.steady hf
  cases hfail with
  | moves hs => exact h.placed.not_stops hs
  | memory hf => simp at hf
  | init _ hf => rcases hf with hf | ⟨_, hf⟩ <;> cases hf
  | exit hs => exact (h.placed.exited hp.1).not_stops hs
  | processExit hs => exact (h.placed_processExited hp.1 hp.2.1 _).not_stops hs
  | @cleanThread _ threadList _ hl ht hc =>
    have hpl : Placed waiting (.running, { s with threadList }) :=
      h.placed.congr
    refine hpl.not_cleanFault (fun hs => ?_) hc
    exact h.stable.exits (ht ▸ hs ▸ mem_cons_self)
  | @cleanProcess p processList _ hl hlist hc =>
    cases hc with
    | thread hts hall ht hf =>
      have hpl : Placed waiting (.running, ({ s with processList } : Tasks).processCleaning p) :=
        h.placed.congr
      have h1 := hpl.cleansAll hall
      exact h1.not_cleanFault (h1.ne_sleepThread ht) hf

/-- **Every run** in which no thread is started twice. -/
theorem Sound.run {events : List Event} (h : Sound (starts events) s) (hw : (starts events).Nodup)
    (hrun : Runs.run Tasks.step s events = some s') : Sound [] s' := by
  induction events generalizing s with
  | nil =>
    rw [Runs.run_nil, Option.some.injEq] at hrun
    exact hrun ▸ h
  | cons e events ih =>
    rw [Runs.run_cons, Option.bind_eq_some_iff] at hrun
    obtain ⟨s1, hs1, hrun⟩ := hrun
    have hsub : (starts events).Sublist (starts (e :: events)) :=
      List.Sublist.filterMap _ (sublist_cons_self e events)
    have h' : Sound (starts events) s := ⟨h.placed.anti hsub.subset, h.stable, h.locks⟩
    refine ih (h'.step (fun t he h2 => ?_) hs1) (hw.sublist hsub) hrun
    have hst : starts (e :: events) = t :: starts events := filterMap_cons_some he
    rw [hst] at h hw
    refine ⟨(nodup_cons.mp hw).1, fun hc => ?_, fun l => ?_⟩
    · exact absurd (h.placed.fresh (hc ▸ mem_cons_self)) (not_le.mpr (hc ▸ h2))
    · exact h.placed.listed.fresh l t mem_cons_self h2

/-- The state at the end of `zion()`. -/
theorem sound_boot (system : System) (single : Nat → Bool) (caps : CapabilityTable)
    (heap : KernelHeap PhysicalMemoryManager)
    (waiting : List Nat) : Sound waiting (boot system single caps heap) := by
  have hlists : ∀ l, ∀ t ∈ (boot system single caps heap).lists l, l = .runnable ∧ (t = 1 ∨ t = 2) := by
    intro l t ht
    by_cases hl : l = .runnable
    · subst hl
      exact ⟨rfl, by simpa [boot] using ht⟩
    · simp [boot, hl] at ht
  have hsep : Separate (boot system single caps heap).lists := by
    refine ⟨fun l => ?_, fun l l' t ht ht' => ?_⟩
    · show (if l = .runnable then [1, 2] else []).Nodup
      split <;> decide
    · rw [(hlists l t ht).1, (hlists l' t ht').1]
  have hlisted : Listed waiting (boot system single caps heap) := by
    refine ⟨hsep, fun l t ht _ => ?_, fun l t ht => ?_, fun l t _ h2 ht => ?_, fun l hl => ?_⟩
    · obtain ⟨rfl, rfl | rfl⟩ := hlists l t ht <;> rfl
    · show t < 3
      have := (hlists l t ht).2
      omega
    · have := (hlists l t ht).2
      omega
    · exact (hlists l _ hl).1
  have hidle : ∀ l, sleepThread ∉ (boot system single caps heap).lists l := by
    intro l hl
    have := (hlists l _ hl).2
    simp [sleepThread] at this
  refine ⟨⟨hlisted, (by decide : 0 < 3), fun _ => (by decide : 0 ≤ 2),
    fun _ => ⟨hidle, rfl, fun hc => absurd rfl hc⟩, fun hp => (by cases hp),
    fun hc => absurd rfl hc⟩, ⟨rfl, fun k hk => ?_, (by decide : 2 < 3), fun p hp => ?_, fun t ht => ?_, ?_,
    fun t ht => ?_⟩, fun q hq => ?_⟩
  · rw [mem_singleton.mp hk]
    trivial
  · show sleepThread ∉ (if p = 0 then _ else _ : Process).threads
    rw [if_neg hp]
    exact (by decide : 0 ∉ [2])
  · rcases t with _ | _ | t
    · omega
    · omega
    · exact one_ne_zero
  · exact not_mem_nil
  · rcases t with _ | _ | t
    · simp [boot, bootThread] at ht
    · rfl
    · simp [boot, bootThread] at ht
  · cases hq

/-- **Where threads are.** In every run in which each thread is started at most once: every thread is
in at most one list and at most once in it, the current thread is in none, the threads in the lists are
in the state of the list unless they are dying, and no event leads to the panic in `SwapToCurrent`. -/
theorem run_threads_placed (system : System) (single : Nat → Bool) (caps : CapabilityTable)
    (heap : KernelHeap PhysicalMemoryManager) {events : List Event}
    (hstarts : (starts events).Nodup) (hrun : Runs.run step (boot system single caps heap) events = some s) :
    (∀ t, t ≠ s.current → (∀ l, (s.lists l).count t ≤ 1) ∧ ∀ l l', t ∈ s.lists l → t ∈ s.lists l' → l = l') ∧
    (∀ l, s.current ∉ s.lists l) ∧
    (∀ l, ∀ t ∈ s.lists l, (s.state t).isDying = false → s.state t = l.state) ∧
    ∀ e, s.fault e ≠ some .swappingNonRunnable := by
  have h := (sound_boot system single caps heap (starts events)).run hstarts hrun
  have hlisted := h.placed.listed
  refine ⟨fun t _ => ⟨fun l => ?_, fun l l' => ?_⟩, (h.placed.running rfl).1, hlisted.state, h.not_swapping⟩
  · exact nodup_iff_count_le_one.mp (hlisted.separate.nodup l) t
  · exact hlisted.separate.disjoint l l' t

/-- A machine with sixty-four free pages and the address spaces of the root process and of the first
process, at the end of `zion()`. -/
def smallBoot : Tasks :=
  boot ⟨⟨{ memoryBlocks := [⟨0x100000, 64⟩] }, fun _ _ => 0⟩, [], [{ cr3 := 0x1000 }, { cr3 := 0x2000 }]⟩
    (fun _ => false) {} { machine := ⟨{}, fun _ _ => 0⟩, cr3 := 0x1000 }

/-- The first process starts a second thread, which goes to sleep. -/
def sleepingThread : List Event :=
  [.resume, .resume, .cleanup, .resume, .call (.threadCreate 1 0), .call (.threadStart 3), .tick,
    .resume, .call (.threadSleep 100)]

theorem run_threads_placed_sleepingThread :
    ∃ s, Runs.run step smallBoot sleepingThread = some s ∧ (∀ l, s.current ∉ s.lists l) ∧
      s.lists .sleeping = [3] ∧ s.state 3 = .sleeping := by
  have h : (Runs.run step smallBoot sleepingThread).map
      (fun s => (s.lists .sleeping, (s.state 3).isDying)) = some ([3], false) := by decide +kernel
  obtain ⟨s, hrun, hs⟩ := Option.map_eq_some_iff.mp h
  rw [Prod.mk.injEq] at hs
  obtain ⟨-, hcurrent, hstate, -⟩ := run_threads_placed _ _ _ _ (by decide) hrun
  refine ⟨s, hrun, hcurrent, hs.1, ?_⟩
  exact hstate .sleeping 3 (hs.1 ▸ mem_singleton_self 3) hs.2

end Acadia.Zion.Tasks
