import Acadia.Foundations.Runs

/-! # `Semaphore`

`object/semaphore.cpp`: any number of threads signal and wait, where each `Signal` and each round of
the loop of `Wait` is one step. The counter is a byte. -/

namespace Acadia.Zion

open Runs

/-- A `Semaphore` and the threads that use it. -/
structure Semaphore where
  lock : UInt8 := 0
  blockedThreads : List Nat := []
  /-- The threads inside `Wait`, which have found the counter at `0`. -/
  waiting : Nat → Bool := fun _ => false
  /-- How many calls of `Signal` there were. -/
  signals : Nat := 0
  /-- How many calls of `Wait` have returned. -/
  returned : Nat := 0

/-- What a thread does with a semaphore. -/
inductive SemaphoreStep where
  | signal
  /-- `Wait`, up to the end of the first round of its loop. -/
  | wait (t : Nat)
  /-- A thread that was woken runs another round. -/
  | retry (t : Nat)
  deriving DecidableEq

namespace Semaphore

/-- `Signal`; the first blocked thread is woken. -/
def signal (s : Semaphore) : Semaphore :=
  { s with
    lock := s.lock + 1
    blockedThreads := s.blockedThreads.tail
    signals := s.signals + 1 }

/-- One round of the loop of `Wait`, and its end if the counter is not `0`. -/
def round (s : Semaphore) (t : Nat) : Semaphore :=
  if s.lock = 0 then
    { s with
      blockedThreads := s.blockedThreads ++ [t]
      waiting := Function.update s.waiting t true }
  else
    { s with
      lock := s.lock - 1
      waiting := Function.update s.waiting t false
      returned := s.returned + 1 }

/-- One step. A thread is in one call at a time, and goes on only when it was woken. -/
def step (s : Semaphore) : SemaphoreStep → Option Semaphore
  | .signal => some s.signal
  | .wait t => if s.waiting t then none else some (s.round t)
  | .retry t => if s.waiting t && !s.blockedThreads.contains t then some (s.round t) else none

/-! ## The counter -/

/-- **The counter counts modulo its size**, and no wait returns without a signal. -/
structure Counts (s : Semaphore) : Prop where
  le : s.returned ≤ s.signals
  lock : s.lock.toNat = (s.signals - s.returned) % 256

/-- The counter is the number of signals that no wait has used. -/
def Exact (s : Semaphore) : Prop := s.lock.toNat + s.returned = s.signals

/-- `Signal` does not find the counter at its greatest value. -/
def BelowMax (s : Semaphore) : SemaphoreStep → Prop
  | .signal => s.lock ≠ 255
  | _ => True

instance (s : Semaphore) (e : SemaphoreStep) : Decidable (s.BelowMax e) := by
  cases e <;> unfold BelowMax <;> infer_instance

theorem toNat_pos {x : UInt8} (h : x ≠ 0) : 0 < x.toNat := by
  rw [Nat.pos_iff_ne_zero]
  exact fun hzero => h (UInt8.toNat_inj.mp hzero)

theorem toNat_sub_one {x : UInt8} (h : x ≠ 0) : (x - 1).toNat = x.toNat - 1 := by
  have hone : (1 : UInt8) ≤ x := by
    rw [UInt8.le_iff_toNat_le]
    exact toNat_pos h
  rw [UInt8.toNat_sub_of_le _ _ hone]
  rfl

theorem toNat_add_one (x : UInt8) : (x + 1).toNat = (x.toNat + 1) % 256 := UInt8.toNat_add x 1

variable {s s' : Semaphore} {e : SemaphoreStep}

/-- What a step is: a signal, or a round of `Wait`. -/
theorem step_cases (hstep : s.step e = some s') :
    (e = .signal ∧ s' = s.signal) ∨ (e ≠ .signal ∧ ∃ t, s' = s.round t) := by
  cases e with
  | signal =>
    cases hstep
    exact Or.inl ⟨rfl, rfl⟩
  | wait t =>
    rw [step] at hstep
    split at hstep
    · cases hstep
    · cases hstep
      exact Or.inr ⟨nofun, t, rfl⟩
  | retry t =>
    rw [step] at hstep
    split at hstep
    · cases hstep
      exact Or.inr ⟨nofun, t, rfl⟩
    · cases hstep

theorem round_counts (s : Semaphore) (t : Nat) : (s.round t).signals = s.signals ∧
      (((s.round t).lock = s.lock ∧ (s.round t).returned = s.returned) ∨
        (s.lock ≠ 0 ∧ (s.round t).lock = s.lock - 1 ∧ (s.round t).returned = s.returned + 1)) := by
  unfold round
  by_cases hzero : s.lock = 0
  · rw [if_pos hzero]
    exact ⟨rfl, Or.inl ⟨rfl, rfl⟩⟩
  · rw [if_neg hzero]
    exact ⟨rfl, Or.inr ⟨hzero, rfl, rfl⟩⟩

/-- **One step keeps the count modulo 256.** -/
theorem Counts.step (h : Counts s) (hstep : s.step e = some s') : Counts s' := by
  obtain ⟨hle, hlock⟩ := h
  rcases step_cases hstep with ⟨-, rfl⟩ | ⟨-, t, rfl⟩
  · constructor
    · exact hle.trans (Nat.le_succ _)
    · show (s.lock + 1).toNat = (s.signals + 1 - s.returned) % 256
      rw [toNat_add_one, hlock]
      omega
  obtain ⟨hsignals, ⟨hsame, hreturned⟩ | ⟨hzero, hless, hreturned⟩⟩ := round_counts s t
  · constructor
    · rw [hreturned, hsignals]
      exact hle
    · rw [hsame, hsignals, hreturned]
      exact hlock
  -- the counter is not 0, so there is a signal that was not used
  have hpos := toNat_pos hzero
  constructor
  · rw [hreturned, hsignals]
    by_contra hlt
    have heq : s.signals - s.returned = 0 := by omega
    rw [hlock, heq] at hpos
    exact absurd hpos (lt_irrefl 0)
  · rw [hless, toNat_sub_one hzero, hsignals, hreturned, hlock]
    omega

/-- **One step keeps the count**, exactly if a signal does not find the counter at its greatest
value. -/
theorem exact_step_iff (h : Exact s) (hstep : s.step e = some s') : Exact s' ↔ s.BelowMax e := by
  unfold Exact at h
  rcases step_cases hstep with ⟨rfl, rfl⟩ | ⟨hne, t, rfl⟩
  · have hlt : s.lock.toNat < 256 := s.lock.toNat_lt
    have hmax : s.lock = 255 ↔ s.lock.toNat = 255 := UInt8.toNat_inj.symm
    show (s.lock + 1).toNat + s.returned = s.signals + 1 ↔ s.lock ≠ 255
    rw [toNat_add_one, Ne, hmax]
    omega
  have hok : s.BelowMax e := by
    cases e with
    | signal => exact absurd rfl hne
    | _ => trivial
  refine iff_of_true ?_ hok
  unfold Exact
  obtain ⟨hsignals, ⟨hsame, hreturned⟩ | ⟨hzero, hless, hreturned⟩⟩ := round_counts s t
  · rw [hsame, hreturned, hsignals]
    exact h
  · have hpos := toNat_pos hzero
    rw [hless, toNat_sub_one hzero, hreturned, hsignals]
    omega

/-! ## Whole runs -/

/-- **What the counter of a semaphore counts.** With any number of threads, no more waits have returned than
there were signals; and the counter is at every moment the number of signals minus that of returned waits,
exactly if no signal finds it at `255`. -/
theorem run_counts (steps : List SemaphoreStep) : (∀ s, run step {} steps = some s →
      s.returned ≤ s.signals ∧ s.lock.toNat = (s.signals - s.returned) % 256) ∧
    ((∀ before s, before <+: steps → run step {} before = some s →
      s.lock.toNat = s.signals - s.returned) ↔ Runs.Meets step BelowMax {} steps) := by
  have hcounts : ∀ {before s}, run step {} before = some s → Counts s := fun hrun =>
    run_invariant' (fun s e s' h hstep => h.step hstep) ⟨le_rfl, rfl⟩ hrun
  have hexact : ∀ {before s}, run step {} before = some s → (s.lock.toNat = s.signals - s.returned ↔ Exact s) := by
    intro before s hrun
    have hle := (hcounts hrun).le
    unfold Exact
    omega
  refine ⟨fun s hrun => ⟨(hcounts hrun).le, (hcounts hrun).lock⟩, ?_⟩
  constructor
  · intro hall
    rw [meets_iff_forall]
    intro before e hpre s hrun
    have h := (hexact hrun).mp (hall before s ((List.prefix_append _ _).trans hpre) hrun)
    cases e with
    | signal =>
      have hstep : s.step .signal = some s.signal := rfl
      have hrun' := run_concat_eq_some.mpr ⟨s, hrun, hstep⟩
      exact (exact_step_iff h hstep).mp ((hexact hrun').mp (hall _ _ hpre hrun'))
    | wait | retry => trivial
  · intro hmeets before s hpre hrun
    have hinit : Exact {} := rfl
    refine (hexact hrun).mpr ?_
    exact run_invariant (fun s e s' h hok hstep => (exact_step_iff h hstep).mpr hok) hinit
      (hmeets.of_isPrefix hpre) hrun

/-- **After 256 signals the counter is `0` again.** -/
theorem counter_wraps : (run step {} (List.replicate 256 .signal)).map (fun s => (s.lock, s.signals, s.returned)) =
      some (0, 256, 0) := by
  decide +kernel

end Semaphore

end Acadia.Zion
