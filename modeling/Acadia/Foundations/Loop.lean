import Mathlib.Logic.Relation
import Acadia.Foundations.Command

/-! # While loops of commands

A loop `while more { body }` whose rounds each make the state smaller, in some measure, ends. So it is a total
function, by recursion on the measure, with the unfolding equation of the loop. The `Round`s of a loop that has
a result lead from its first state to one in which the condition no longer holds. -/

namespace Command

variable {σ ε α β : Type}

/-- A command that has a result leaves a smaller state. -/
def Shrinks (size : σ → Nat) (m : Command σ ε α) : Prop :=
  ∀ s a s', m s = (.ok a, s') → size s' < size s

/-- A command that has a result does not leave a larger state. -/
def NeverGrows (size : σ → Nat) (m : Command σ ε α) : Prop :=
  ∀ s a s', m s = (.ok a, s') → size s' ≤ size s

section Size

variable {size : σ → Nat} {m : Command σ ε α} {f : α → Command σ ε β}

theorem Shrinks.neverGrows (h : Shrinks size m) : NeverGrows size m :=
  fun s a s' hm => Nat.le_of_lt (h s a s' hm)

theorem neverGrows_pure (a : α) : NeverGrows size (pure a : Command σ ε α) := by
  intro s a' s' h
  rw [pure_apply, Prod.mk.injEq] at h
  exact Nat.le_of_eq (congrArg size h.2.symm)

theorem neverGrows_gets (f : σ → α) : NeverGrows size (gets f : Command σ ε α) := by
  intro s a s' h
  rw [gets_apply, Prod.mk.injEq] at h
  exact Nat.le_of_eq (congrArg size h.2.symm)

theorem shrinks_stop (e : ε) : Shrinks size (stop e : Command σ ε α) := by
  intro s a s' h
  simp at h

theorem NeverGrows.bind (hm : NeverGrows size m) (hf : ∀ a, NeverGrows size (f a)) : NeverGrows size (m >>= f) := by
  intro s b s'' h
  obtain ⟨a, s', ha, hb⟩ := bind_eq_ok_iff.mp h
  exact Nat.le_trans (hf a s' b s'' hb) (hm s a s' ha)

theorem Shrinks.bind (hm : Shrinks size m) (hf : ∀ a, NeverGrows size (f a)) : Shrinks size (m >>= f) := by
  intro s b s'' h
  obtain ⟨a, s', ha, hb⟩ := bind_eq_ok_iff.mp h
  exact Nat.lt_of_le_of_lt (hf a s' b s'' hb) (hm s a s' ha)

theorem NeverGrows.ite {c : Prop} [Decidable c] {m n : Command σ ε α} (hm : NeverGrows size m)
    (hn : NeverGrows size n) : NeverGrows size (if c then m else n) := by
  split
  · exact hm
  · exact hn

end Size

/-- The loop below, from a state. -/
def whileFrom (size : σ → Nat) (more : σ → Bool) (body : β → Command σ ε β)
    (h : ∀ b, Shrinks size (body b)) (b : β) (s : σ) : Except ε β × σ :=
  if more s then
    match _hs : body b s with
    | (.ok b', s') => whileFrom size more body h b' s'
    | (.error e, s') => (.error e, s')
  else (.ok b, s)
termination_by size s
decreasing_by exact h b s b' s' _hs

/-- **The loop `while more { b = body(b) }`**, which ends because each round makes the state smaller. -/
def whileLoop (size : σ → Nat) (more : σ → Bool) (body : β → Command σ ε β)
    (h : ∀ b, Shrinks size (body b)) (b : β) : Command σ ε β := whileFrom size more body h b

section Loop

variable {size : σ → Nat} {more : σ → Bool} {body : β → Command σ ε β}
  {h : ∀ b, Shrinks size (body b)} {b b' : β} {s s' : σ}

theorem whileLoop_of_not (hs : more s = false) : whileLoop size more body h b s = (.ok b, s) := by
  rw [whileLoop, whileFrom, hs]
  rfl

theorem whileLoop_of_ok (hs : more s = true) (hb : body b s = (.ok b', s')) :
    whileLoop size more body h b s = whileLoop size more body h b' s' := by
  rw [whileLoop, whileFrom, if_pos hs]
  split
  · rename_i b1 s1 h1
    rw [hb] at h1
    cases h1
    rfl
  · rename_i e s1 h1
    rw [hb] at h1
    cases h1

theorem whileLoop_of_error {e : ε} (hs : more s = true) (hb : body b s = (.error e, s')) :
    whileLoop size more body h b s = (.error e, s') := by
  rw [whileLoop, whileFrom, if_pos hs]
  split
  · rename_i b1 s1 h1
    rw [hb] at h1
    cases h1
  · rename_i e1 s1 h1
    rw [hb] at h1
    cases h1
    rfl

/-- One round of a loop, from one value of its variables and state to the next. -/
def Round (more : σ → Bool) (body : β → Command σ ε β) (x y : β × σ) : Prop :=
  more x.2 = true ∧ body x.1 x.2 = (.ok y.1, y.2)

/-- **The rule for loops**: what each round keeps holds at the end. -/
theorem wp_whileLoop {I : β → σ → Prop} {E : ε → σ → Prop} (hstep : ∀ b s, I b s → more s = true → wp (body b) I E s)
    (hI : I b s) : wp (whileLoop size more body h b) (fun b s => I b s ∧ more s = false) E s := by
  induction hn : size s using Nat.strongRecOn generalizing b s with
  | ind n ih =>
    cases hs : more s with
    | false =>
      rw [wp_of_ok (whileLoop_of_not hs)]
      exact ⟨hI, hs⟩
    | true =>
      have hround := hstep b s hI hs
      cases hb : body b s with
      | mk r s1 =>
        cases r with
        | error e =>
          rw [wp_of_error (whileLoop_of_error hs hb)]
          exact of_wp_error hround hb
        | ok b1 =>
          rw [wp, whileLoop_of_ok hs hb]
          exact ih (size s1) (hn ▸ h b s b1 s1 hb) (of_wp hround hb) rfl

/-- **A loop has the result that its rounds lead to.** -/
theorem whileLoop_eq_ok_iff : whileLoop size more body h b s = (.ok b', s') ↔
      Relation.ReflTransGen (Round more body) (b, s) (b', s') ∧ more s' = false := by
  constructor
  · intro hw
    have hrule : wp (whileLoop size more body h b)
        (fun c t => Relation.ReflTransGen (Round more body) (b, s) (c, t) ∧ more t = false)
        (fun _ _ => True) s := by
      refine wp_whileLoop (fun c t hc ht => ?_) Relation.ReflTransGen.refl
      cases hbody : body c t with
      | mk r t' =>
        cases r with
        | error e => exact (wp_of_error hbody).mpr trivial
        | ok c' => exact (wp_of_ok hbody).mpr (hc.tail ⟨ht, hbody⟩)
    exact (wp_of_ok hw).mp hrule
  · rintro ⟨hrounds, hs'⟩
    generalize hx : (b, s) = x at hrounds
    induction hrounds using Relation.ReflTransGen.head_induction_on generalizing b s with
    | refl =>
      cases hx
      exact whileLoop_of_not hs'
    | head hxy _ ih =>
      subst hx
      rw [whileLoop_of_ok hxy.1 hxy.2]
      exact ih rfl

theorem neverGrows_whileLoop : NeverGrows size (whileLoop size more body h b) := by
  have hrounds : ∀ x y, Relation.ReflTransGen (Round more body) x y → size y.2 ≤ size x.2 := by
    intro x y hxy
    induction hxy with
    | refl => exact Nat.le_refl _
    | tail _ hround ih => exact Nat.le_trans (Nat.le_of_lt (h _ _ _ _ hround.2)) ih
  intro s c s' hw
  exact hrounds (b, s) (c, s') (whileLoop_eq_ok_iff.mp hw).1

end Loop

end Command
