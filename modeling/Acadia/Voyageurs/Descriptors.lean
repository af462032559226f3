import Mathlib.Tactic.SplitIfs

/-! # The descriptors of a USB device

The walk of `configure_device` over the buffer of 4096 bytes that the device has filled. Addresses are counted from the
start of the buffer. -/

namespace Acadia.Voyageurs

/-- The variables of the two loops; `j` is `0` before an interface. -/
structure Walk where
  nextVaddr : Nat
  i : Nat
  j : Nat

/-- Why a walk has not returned: it takes more rounds, or has read beyond the buffer. -/
inductive WalkStop where
  | rounds
  | outside

variable (buffer : Nat → UInt8)

namespace Walk

/-- The field `length` of the next descriptor. -/
def length (w : Walk) : Nat := (buffer w.nextVaddr).toNat

/-- The descriptor is not one of an endpoint, and `j++` makes up for it. -/
def Skips (w : Walk) : Prop := w.j ≠ 0 ∧ buffer (w.nextVaddr + 1) ≠ 5

instance (w : Walk) : Decidable (w.Skips buffer) := inferInstanceAs (Decidable (_ ∧ _))

/-- The number of bytes up to the last field that is read of the descriptor. -/
def bytesRead (w : Walk) : Nat := if w.j = 0 then 8 else if w.Skips buffer then 2 else 4

/-- The next round of the inner loop, or of the outer one. -/
def step (w : Walk) : Option Walk :=
  if w.j = 0 then
    if w.i = 0 then none else some ⟨w.nextVaddr + w.length buffer, w.i - 1, (buffer (w.nextVaddr + 4)).toNat⟩
  else some ⟨w.nextVaddr + w.length buffer, w.i, if w.Skips buffer then w.j else w.j - 1⟩

/-- The loops, for a number of rounds. -/
def run : (rounds : Nat) → Walk → Except WalkStop Unit
  | 0, _ => .error .rounds
  | rounds + 1, w =>
    match w.step buffer with
    | none => .ok ()
    | some next => if w.nextVaddr + w.bytesRead buffer ≤ 0x1000 then run rounds next else .error .outside

end Walk

/-- **Descriptors one after another**, from an offset on: `i` interfaces, each followed by the endpoints
that it announces, and before them `j` endpoints that are left. Other descriptors may stand before an
endpoint. What is read of a descriptor is in the buffer, and its length says where the next one is. -/
inductive Layout : (offset i j : Nat) → Prop where
  | done (offset : Nat) : Layout offset 0 0
  | interface {offset i : Nat} : offset + 8 ≤ 0x1000 →
      Layout (offset + (buffer offset).toNat) i (buffer (offset + 4)).toNat → Layout offset (i + 1) 0
  | endpoint {offset i j : Nat} : offset + 4 ≤ 0x1000 → buffer (offset + 1) = 5 →
      Layout (offset + (buffer offset).toNat) i j → Layout offset i (j + 1)
  | other {offset i j : Nat} : offset + 2 ≤ 0x1000 → buffer (offset + 1) ≠ 5 →
      Layout (offset + (buffer offset).toNat) i (j + 1) → Layout offset i (j + 1)

variable {buffer}

/-- No descriptor that is skipped has length zero: it would be followed by itself. -/
theorem Layout.length_ne_zero {offset i j : Nat} (h : Layout buffer offset i (j + 1))
    (htype : buffer (offset + 1) ≠ 5) : buffer offset ≠ 0 := by
  intro hzero
  generalize hn : j + 1 = n at h
  induction h with
  | done | interface => cases hn
  | endpoint _ hfive => exact htype hfive
  | other _ _ _ ih =>
    have hsame : (buffer _).toNat = 0 := congrArg UInt8.toNat hzero
    rw [hsame, Nat.add_zero] at ih
    exact ih htype hzero hn

/-- **When the walk returns.** -/
theorem Walk.run_returns_iff {w : Walk} :
    (∃ rounds, run buffer rounds w = .ok ()) ↔ Layout buffer w.nextVaddr w.i w.j := by
  constructor
  · rintro ⟨rounds, hrun⟩
    induction rounds generalizing w with
    | zero => cases hrun
    | succ rounds ih =>
      obtain ⟨offset, i, j⟩ := w
      rcases j with - | j
      · rcases i with - | i
        · exact .done offset
        · simp only [run, step, bytesRead, if_true, Nat.succ_ne_zero, if_false] at hrun
          split_ifs at hrun with hin
          exact .interface hin (ih hrun)
      · simp only [run, step, bytesRead, Skips, Nat.succ_ne_zero, if_false, ne_eq, not_false_eq_true,
          true_and] at hrun
        by_cases hfive : buffer (offset + 1) = 5
        all_goals
          simp only [hfive, not_true_eq_false, not_false_eq_true, if_true, if_false] at hrun
          split_ifs at hrun with hin
        · exact .endpoint hin hfive (ih hrun)
        · exact .other hin hfive (ih hrun)
  · obtain ⟨offset, i, j⟩ := w
    intro (h : Layout buffer offset i j)
    induction h with
    | done => exact ⟨1, rfl⟩
    | interface hin _ ih =>
      obtain ⟨rounds, hrun⟩ := ih
      exact ⟨rounds + 1, by simpa [run, step, length, bytesRead, hin] using hrun⟩
    | endpoint hin htype _ ih | other hin htype _ ih =>
      obtain ⟨rounds, hrun⟩ := ih
      exact ⟨rounds + 1, by simpa [run, step, length, bytesRead, Skips, htype, hin] using hrun⟩

variable (buffer)

/-- The part of `configure_device` that walks over the descriptors. -/
def configureDevice (rounds : Nat) : Except WalkStop Unit :=
  Walk.run buffer rounds ⟨(buffer 0).toNat, (buffer 4).toNat, 0⟩

end Acadia.Voyageurs
