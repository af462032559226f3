import Mathlib.Data.Multiset.OrderedMonoid

/-! # Tokens that are moved, never copied

Tokens lie in places and are carried between them; each has a number, and a counter gives every new token a
number of its own. `Evolves` is what may become of all tokens together: some are gone, none is there twice, and
new ones satisfy `allowed` and have numbers that were not given out before. It is reflexive and transitive, and
keeps the numbers distinct. -/

namespace Custody

variable {τ : Type*} {number : τ → Nat} {allowed : τ → Prop}

/-- **No token is copied**: the tokens `T'`, with `n'` numbers given out, come from the tokens `T`,
with `n` numbers given out. -/
structure Evolves (number : τ → Nat) (allowed : τ → Prop) (T : Multiset τ) (n : Nat) (T' : Multiset τ)
    (n' : Nat) : Prop where
  /-- Numbers are only given out. -/
  le : n ≤ n'
  /-- The tokens are old ones, or new ones with new numbers. -/
  tokens : ∃ new : Multiset τ, T' ≤ T + new ∧ (new.map number).Nodup ∧
    ∀ a ∈ new, allowed a ∧ n ≤ number a ∧ number a < n'

/-- Every token has a number of its own, and it was given out. -/
structure Distinct (number : τ → Nat) (T : Multiset τ) (n : Nat) : Prop where
  nodup : (T.map number).Nodup
  bounded : ∀ a ∈ T, number a < n

namespace Evolves

variable {T T' T'' : Multiset τ} {n n' n'' : Nat}

theorem of_le (h : T' ≤ T) (hn : n ≤ n') : Evolves number allowed T n T' n' :=
  ⟨hn, 0, by rwa [add_zero], by simp, by simp⟩

theorem refl (T : Multiset τ) (n : Nat) : Evolves number allowed T n T n := of_le le_rfl le_rfl

theorem new {a : τ} (ha : allowed a) (hnumber : number a = n) : Evolves number allowed T n (a ::ₘ T) (n + 1) := by
  refine ⟨Nat.le_succ n, {a}, ?_, by simp, ?_⟩
  · rw [Multiset.add_comm, Multiset.singleton_add]
  · intro b hb
    obtain rfl := Multiset.mem_singleton.mp hb
    exact ⟨ha, hnumber.ge, by omega⟩

theorem trans (h : Evolves number allowed T n T' n') (h' : Evolves number allowed T' n' T'' n'') :
    Evolves number allowed T n T'' n'' := by
  obtain ⟨hn, new, hle, hnodup, hnew⟩ := h
  obtain ⟨hn', new', hle', hnodup', hnew'⟩ := h'
  refine ⟨hn.trans hn', new + new', ?_, ?_, ?_⟩
  · calc T'' ≤ T' + new' := hle'
      _ ≤ T + new + new' := by gcongr
      _ = T + (new + new') := add_assoc _ _ _
  · rw [Multiset.map_add]
    refine Multiset.nodup_add.mpr ⟨hnodup, hnodup', ?_⟩
    -- the numbers of the first step were given out before those of the second
    rw [Multiset.disjoint_left]
    intro k hk hk'
    obtain ⟨a, ha, rfl⟩ := Multiset.mem_map.mp hk
    obtain ⟨b, hb, hab⟩ := Multiset.mem_map.mp hk'
    have ha := (hnew a ha).2.2
    have hb := (hnew' b hb).2.1
    omega
  · intro a ha
    rcases Multiset.mem_add.mp ha with ha | ha
    · obtain ⟨hallowed, hlow, hhigh⟩ := hnew a ha
      exact ⟨hallowed, hlow, by omega⟩
    · obtain ⟨hallowed, hlow, hhigh⟩ := hnew' a ha
      exact ⟨hallowed, by omega, hhigh⟩

theorem mem (h : Evolves number allowed T n T' n') {a : τ} (ha : a ∈ T') : a ∈ T ∨ allowed a ∧ n ≤ number a := by
  obtain ⟨-, new, hle, -, hnew⟩ := h
  rcases Multiset.mem_add.mp (Multiset.mem_of_le hle ha) with hold | hadded
  · exact Or.inl hold
  · exact Or.inr ⟨(hnew a hadded).1, (hnew a hadded).2.1⟩

/-- **Tokens of a kind that is not allowed for new ones do not become more.** -/
theorem countP_le (h : Evolves number allowed T n T' n') {P : τ → Prop} [DecidablePred P]
    (hP : ∀ a, allowed a → ¬ P a) : T'.countP P ≤ T.countP P := by
  obtain ⟨-, new, hle, -, hnew⟩ := h
  have hzero : new.countP P = 0 :=
    Multiset.countP_eq_zero.mpr fun a ha => hP a (hnew a ha).1
  calc T'.countP P ≤ (T + new).countP P := Multiset.countP_le_of_le P hle
    _ = T.countP P := by rw [Multiset.countP_add, hzero, add_zero]

/-- **Tokens stay distinct.** -/
theorem distinct (h : Evolves number allowed T n T' n') (hT : Distinct number T n) : Distinct number T' n' := by
  obtain ⟨hn, new, hle, hnodup, hnew⟩ := h
  have hbounded : ∀ a ∈ T + new, number a < n' := by
    intro a ha
    rcases Multiset.mem_add.mp ha with ha | ha
    · exact (hT.bounded a ha).trans_le hn
    · exact (hnew a ha).2.2
  refine ⟨?_, fun a ha => hbounded a (Multiset.mem_of_le hle ha)⟩
  refine Multiset.nodup_of_le (Multiset.map_le_map hle) ?_
  rw [Multiset.map_add]
  refine Multiset.nodup_add.mpr ⟨hT.nodup, hnodup, ?_⟩
  rw [Multiset.disjoint_left]
  intro k hk hk'
  obtain ⟨a, ha, rfl⟩ := Multiset.mem_map.mp hk
  obtain ⟨b, hb, hab⟩ := Multiset.mem_map.mp hk'
  have ha := hT.bounded a ha
  have hb := (hnew b hb).2.1
  omega

end Evolves

end Custody
