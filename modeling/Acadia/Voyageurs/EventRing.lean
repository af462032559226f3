import Mathlib.Data.UInt
import Acadia.Foundations.Runs

/-! # The event ring

`TrbRingReader` with the controller that fills the ring: the events go to its 256 entries in order, with
a cycle bit that changes with every lap, and none goes to an entry that was not read yet. -/

namespace Acadia.Voyageurs

open Runs

/-- `XhciTrb`. -/
structure XhciTrb where
  parameter : UInt64 := 0
  status : UInt32 := 0
  typeAndCycle : UInt16 := 0
  control : UInt16 := 0
  deriving DecidableEq

/-- A `TrbRingReader`, and what was posted and returned so far. -/
structure EventRing where
  physAddress : UInt64
  trbList : Nat → XhciTrb
  dequeuePtr : Nat := 0
  posted : List XhciTrb := []
  returned : List XhciTrb := []

namespace EventRing

/-- The constructor; the last entry is `CreateLinkTrb`. -/
def new (physAddress : UInt64) : EventRing where
  physAddress := physAddress
  trbList i := if i = 255 then { parameter := physAddress, typeAndCycle := 0x1802 } else {}

/-- `HasNext`, in the ring; `cycle_bit_` stays 1. -/
def hasNext (r : EventRing) : Bool := (r.trbList r.dequeuePtr).typeAndCycle &&& 1 = 1

/-- `DequeuePtr`. -/
def dequeueAddress (r : EventRing) : UInt64 := r.physAddress + UInt64.ofNat r.dequeuePtr

/-- The event as it is written in a lap of the controller. -/
def withCycle (trb : XhciTrb) (lap : Nat) : XhciTrb :=
  { trb with typeAndCycle := trb.typeAndCycle &&& ~~~1 ||| if lap % 2 = 0 then 1 else 0 }

/-- What happens next. -/
inductive Event where
  /-- The controller posts an event. -/
  | post (trb : XhciTrb)
  /-- `HasNext`, and `Read` if there is an event. -/
  | read
  deriving DecidableEq

/-- **One step**; there is none if the ring is full or the reader is outside of it. -/
def step (r : EventRing) : Event → Option EventRing
  | .post trb =>
    if r.posted.length < r.returned.length + 256 then
      let written := withCycle trb (r.posted.length / 256)
      some { r with
        trbList := Function.update r.trbList (r.posted.length % 256) written
        posted := r.posted ++ [written] }
    else none
  | .read =>
    if r.dequeuePtr < 256 then
      if r.hasNext then some { r with
        dequeuePtr := r.dequeuePtr + 1
        returned := r.returned ++ [r.trbList r.dequeuePtr] }
      else some r
    else none

/-- **What is asked of the reader**: it returned the first events in their order, looks at the next one in
the ring, and gives its address. -/
structure Right (r : EventRing) : Prop where
  order : r.returned <+: r.posted
  inside : r.dequeuePtr < 256
  next : r.hasNext = true ↔ r.returned.length < r.posted.length
  address : r.dequeueAddress = r.physAddress + 16 * UInt64.ofNat (r.returned.length % 256)

/-- What holds until the first event is read. -/
structure Inv (r : EventRing) : Prop where
  count : r.dequeuePtr = r.returned.length
  unread : r.returned = [] → (r.hasNext = true ↔ 0 < r.posted.length)

theorem and_one_withCycle (trb : XhciTrb) : (withCycle trb 0).typeAndCycle &&& 1 = 1 := by
  show (trb.typeAndCycle &&& ~~~1 ||| 1) &&& 1 = 1
  rw [← UInt16.toBitVec_inj, UInt16.toBitVec_and, UInt16.toBitVec_or]
  exact BitVec.eq_of_getLsbD_eq fun i _ => by cases i <;> simp

/-- The controller does not write to the first entry again before it is read. -/
theorem step_inv {r r' : EventRing} {e : Event} (h : r.Inv) (hstep : r.step e = some r') : r'.Inv := by
  cases e with
  | post trb =>
    simp only [step, Option.ite_none_right_eq_some, Option.some.injEq] at hstep
    obtain ⟨hroom, rfl⟩ := hstep
    refine ⟨h.count, fun (hnil : r.returned = []) => ?_⟩
    have hzero : r.dequeuePtr = 0 := by rw [h.count, hnil]; rfl
    rw [hnil] at hroom
    refine iff_of_true ?_ (by simp)
    unfold hasNext
    by_cases hfirst : r.posted = []
    · simp [hfirst, hzero, and_one_withCycle]
    have hpos := List.length_pos_iff.mpr hfirst
    have hne : (0 : Nat) ≠ r.posted.length % 256 := by
      simp only [List.length_nil] at hroom
      omega
    have hnext := (h.unread hnil).mpr hpos
    rw [hasNext, hzero] at hnext
    simpa [hzero, Function.update_of_ne hne] using hnext
  | read =>
    simp only [step, Option.ite_none_right_eq_some] at hstep
    obtain ⟨-, hstep⟩ := hstep
    split at hstep
    · cases hstep
      exact ⟨by simp [h.count], fun hnil => absurd hnil (by simp)⟩
    · cases hstep
      exact h

theorem scaled_inj : ∀ k < 256, UInt64.ofNat k = 16 * UInt64.ofNat k → k = 0 := by decide +kernel

/-- When an event is there, the next read returns one. -/
theorem returned_eq_nil_iff {r r' : EventRing} {events : List Event} (h : r.Inv) (hposted : r.posted ≠ [])
    (hrun : run step r events = some r') : r'.returned = [] ↔ r.returned = [] ∧ .read ∉ events := by
  induction events generalizing r with
  | nil =>
    cases hrun
    simp
  | cons e events ih =>
    rw [run_cons, Option.bind_eq_some_iff] at hrun
    obtain ⟨r₁, hstep, hrun⟩ := hrun
    have h₁ := step_inv h hstep
    cases e with
    | post trb =>
      simp only [step, Option.ite_none_right_eq_some, Option.some.injEq] at hstep
      obtain ⟨-, rfl⟩ := hstep
      simp [ih h₁ (by simp) hrun]
    | read =>
      simp only [step, Option.ite_none_right_eq_some] at hstep
      obtain ⟨-, hstep⟩ := hstep
      split at hstep
      · cases hstep
        simp [ih h₁ hposted hrun]
      · rename_i hno
        cases hstep
        have hsome : r.returned ≠ [] := fun hnil =>
          hno ((h.unread hnil).mpr (List.length_pos_iff.mpr hposted))
        simp [ih h hposted hrun, hsome]

theorem inv_new (physAddress : UInt64) : (new physAddress).Inv := ⟨rfl, fun _ => by simp [new, hasNext]⟩

/-- Nothing was returned as long as reads come before the first event only. -/
theorem nothing_returned_iff {physAddress : UInt64} {events : List Event} {r : EventRing}
    (hrun : run step (new physAddress) events = some r) :
    r.returned = [] ↔ .read ∉ events.dropWhile (· = .read) := by
  induction events with
  | nil =>
    cases hrun
    simp [new]
  | cons e events ih =>
    rw [run_cons, Option.bind_eq_some_iff] at hrun
    obtain ⟨r₁, hstep, hrun⟩ := hrun
    cases e with
    | post trb =>
      have h₁ := step_inv (inv_new physAddress) hstep
      cases hstep
      simp [returned_eq_nil_iff h₁ (by simp) hrun, new]
    | read =>
      obtain rfl : new physAddress = r₁ := by simpa [step, new, hasNext] using hstep
      simpa using ih hrun

/-- **The reader is right until it has read an event**: then `DequeuePtr` counts in bytes what are
entries. So the reads come before the first event. -/
theorem right_iff_nothing_read {physAddress : UInt64} {events : List Event} {r : EventRing}
    (hrun : run step (new physAddress) events = some r) :
    r.Right ↔ .read ∉ events.dropWhile (· = .read) := by
  rw [← nothing_returned_iff hrun]
  have inv := run_invariant' (fun _ _ _ => step_inv) (inv_new physAddress) hrun
  constructor
  · intro h
    have haddress := h.address
    have hinside := h.inside
    rw [inv.count] at hinside
    rw [dequeueAddress, inv.count, UInt64.add_right_inj, Nat.mod_eq_of_lt hinside] at haddress
    exact List.eq_nil_of_length_eq_zero (scaled_inj _ hinside haddress)
  · intro hnil
    have hzero : r.dequeuePtr = 0 := by rw [inv.count, hnil]; rfl
    refine ⟨by rw [hnil]; exact List.nil_prefix, by omega, ?_, ?_⟩
    · rw [inv.unread hnil, hnil]
      rfl
    · rw [dequeueAddress, hzero, hnil]
      simp

/-- The reader looks before there are events, and two are posted. -/
theorem right_iff_nothing_read_two : ∃ r, run step (new 0x5000) [.read, .post {}, .post {}] = some r ∧ r.Right := by
  have hresult : (run step (new 0x5000) [.read, .post {}, .post {}]).isSome := by decide
  obtain ⟨r, hrun⟩ := Option.isSome_iff_exists.mp hresult
  exact ⟨r, hrun, (right_iff_nothing_read hrun).mpr (by decide)⟩

/-- **After one event the address is that of its second byte.** -/
theorem address_after_one_event :
    ∃ r, run step (new 0x5000) [.post {}, .read] = some r ∧ r.dequeueAddress = 0x5001 ∧ ¬ r.Right := by
  have hresult : (run step (new 0x5000) [.post {}, .read]).map (fun r => (r.dequeueAddress,
      r.physAddress + 16 * UInt64.ofNat (r.returned.length % 256))) = some (0x5001, 0x5010) := by decide
  obtain ⟨r, hrun, heq⟩ := Option.map_eq_some_iff.mp hresult
  rw [Prod.mk.injEq] at heq
  refine ⟨r, hrun, heq.1, fun h => ?_⟩
  exact absurd (heq.1.symm.trans (h.address.trans heq.2)) (by decide)

end EventRing

end Acadia.Voyageurs
