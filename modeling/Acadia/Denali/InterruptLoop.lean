import Mathlib.Data.BitVec
import Acadia.Foundations.Runs

/-! # The interrupt loop of the AHCI controller

`AhciController::InterruptLoop`, one access of the controller's registers at a time; the device sets bits
of `interrupt_status` between any two of them, and a write clears the bits that are written as one. -/

namespace Acadia.Denali

open Runs

/-- Where the loop is, in the round for a port. -/
inductive LoopPoint where
  /-- At the condition. -/
  | test (i : Nat)
  /-- At the call of `HandleIrq`. -/
  | handle (i : Nat)
  /-- At the read for `&=`. -/
  | load (i : Nat)
  /-- At the write for `&=`. -/
  | store (i : Nat) (value : BitVec 32)
  deriving DecidableEq

/-- The controller and the loop. -/
structure InterruptState where
  interruptStatus : BitVec 32
  /-- The ports with an interrupt for which `HandleIrq` was not called yet. -/
  unserved : BitVec 32
  point : LoopPoint
  deriving DecidableEq

/-- What happens next. -/
inductive InterruptEvent where
  /-- Interrupts of these ports. -/
  | raise (ports : BitVec 32)
  | go
  deriving DecidableEq

namespace InterruptState

/-- `1 << i`. -/
def portBit (i : Nat) : BitVec 32 := 1 <<< i

variable {numPorts : Nat} {present : Nat → Bool} {s s' : InterruptState}

/-- **One step.** After the last port the loop waits for a message and begins again. -/
def step (numPorts : Nat) (present : Nat → Bool) (s : InterruptState) :
    InterruptEvent → Option InterruptState
  | .raise ports => some { s with
    interruptStatus := s.interruptStatus ||| ports
    unserved := s.unserved ||| ports }
  | .go => some <| match s.point with
    | .test i =>
      if i < numPorts then
        if present i && s.interruptStatus &&& portBit i ≠ 0 then { s with point := .handle i }
        else { s with point := .test (i + 1) }
      else { s with point := .test 0 }
    | .handle i => { s with unserved := s.unserved &&& ~~~portBit i, point := .load i }
    | .load i => { s with point := .store i (s.interruptStatus &&& ~~~portBit i) }
    | .store i value => { s with
      interruptStatus := s.interruptStatus &&& ~~~value
      point := .test (i + 1) }

/-- No interrupt is lost: each is served or still pending. -/
def NoneLost (s : InterruptState) : Prop := s.unserved &&& s.interruptStatus = s.unserved

/-- **Only served ports are written back**: when the status is read, the other pending ports are served,
and none of them interrupts again before the write. -/
def WritesServed (s : InterruptState) : InterruptEvent → Prop
  | .raise ports => ∀ i value, s.point = .store i value → value &&& ports = 0
  | .go => ∀ i, s.point = .load i → s.interruptStatus &&& ~~~portBit i &&& s.unserved = 0

/-- What every step keeps. -/
structure Inv (s : InterruptState) : Prop where
  noneLost : s.NoneLost
  /-- What is about to be written has no bit of a port that is not served. -/
  served : ∀ i value, s.point = .store i value → value &&& s.unserved = 0

theorem noneLost_iff : s.NoneLost ↔ ∀ k, s.unserved.getLsbD k = true → s.interruptStatus.getLsbD k = true := by
  unfold NoneLost
  constructor
  · intro h k hk
    rw [← h, BitVec.getLsbD_and, Bool.and_eq_true] at hk
    exact hk.2
  · intro h
    refine BitVec.eq_of_getLsbD_eq fun k _ => ?_
    rw [BitVec.getLsbD_and, Bool.and_eq_left_iff_imp]
    exact h k

/-- Of the accesses only the write changes the status. -/
theorem step_inv {e : InterruptEvent} (h : s.Inv) (hserved : s.WritesServed e)
    (hstep : s.step numPorts present e = some s') : s'.Inv := by
  obtain ⟨hnone, hstore⟩ := h
  obtain ⟨status, unserved, point⟩ := s
  cases e with
  | raise ports =>
    cases hstep
    refine ⟨noneLost_iff.mpr fun k => ?_, fun i value hpoint => ?_⟩
    · simp only [BitVec.getLsbD_or, Bool.or_eq_true]
      exact Or.imp_left (noneLost_iff.mp hnone k)
    · show value &&& (unserved ||| ports) = 0
      rw [BitVec.and_or_distrib_left, hstore i value hpoint, hserved i value hpoint, BitVec.or_self]
  | go =>
    cases point with
    | test i =>
      cases hstep
      dsimp only
      split_ifs <;> exact ⟨hnone, nofun⟩
    | handle i =>
      cases hstep
      refine ⟨noneLost_iff.mpr fun k hk => ?_, nofun⟩
      rw [BitVec.getLsbD_and, Bool.and_eq_true] at hk
      exact noneLost_iff.mp hnone k hk.1
    | load i =>
      cases hstep
      refine ⟨hnone, fun j value hpoint => ?_⟩
      cases hpoint
      exact hserved i rfl
    | store i value =>
      cases hstep
      refine ⟨noneLost_iff.mpr fun k (hk : unserved.getLsbD k = true) => ?_, nofun⟩
      show (status &&& ~~~value).getLsbD k = true
      -- a bit that is not served is not written
      have hbit := congrArg (BitVec.getLsbD · k) (hstore i value rfl)
      simp only [BitVec.getLsbD_and, hk, Bool.and_true] at hbit
      rw [BitVec.getLsbD_and, BitVec.getLsbD_not, hbit, noneLost_iff.mp hnone k hk]
      simpa using BitVec.lt_of_getLsbD hk

/-- **No interrupt is lost** in a run in which only bits of served ports are written back. -/
theorem interruptLoop_loses_none {pending : BitVec 32} {events : List InterruptEvent}
    (hserved : Meets (step numPorts present) WritesServed ⟨pending, pending, .test 0⟩ events)
    (hrun : run (step numPorts present) ⟨pending, pending, .test 0⟩ events = some s) : s.NoneLost := by
  have hstart : Inv ⟨pending, pending, .test 0⟩ := ⟨BitVec.and_self, nofun⟩
  exact (run_invariant (fun _ _ _ => step_inv) hstart hserved hrun).noneLost

/-- One port, which interrupts again while it is served. -/
theorem interruptLoop_loses_none_onePort :
    ∃ s, run (step 2 fun _ => true) ⟨1, 1, .test 0⟩ [.go, .go, .raise 1, .go, .go] = some s ∧ s.NoneLost := by
  have hserved : Meets (step 2 fun _ => true) WritesServed ⟨1, 1, .test 0⟩ [.go, .go, .raise 1, .go, .go] := by
    simp [Meets, step, WritesServed, portBit]
  exact ⟨_, rfl, interruptLoop_loses_none hserved rfl⟩

/-- **Two ports interrupt, and the interrupt of the second is lost** when the first is served. -/
theorem second_port_lost : run (step 2 fun _ => true) ⟨3, 3, .test 0⟩ [.go, .go, .go, .go] = some ⟨1, 2, .test 1⟩ ∧
      ¬ NoneLost ⟨1, 2, .test 1⟩ := by
  unfold NoneLost
  decide

end InterruptState

end Acadia.Denali
