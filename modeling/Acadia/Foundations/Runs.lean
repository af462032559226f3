import Mathlib.Data.List.Infix

/-! # Runs of a partial step function

A component is given by `step : σ → α → Option σ`: an operation leads from a state to a next one or has no
result. `run` folds it over a list of operations, and `Meets ok` says that each operation is applied in a state
where it satisfies `ok`. What one step keeps, every run keeps (`run_invariant`). -/

namespace Runs

open Option List

variable {σ α : Type*} (step : σ → α → Option σ)

/-- The state after a sequence of operations, if every one of them has a result. -/
def run : σ → List α → Option σ
  | s, [] => some s
  | s, a :: as => (step s a).bind fun s' => run s' as

/-- Every operation of the run is applied in a state where it satisfies `ok`. -/
def Meets (ok : σ → α → Prop) : σ → List α → Prop
  | _, [] => True
  | s, a :: as => ok s a ∧ ∀ s', step s a = some s' → Meets ok s' as

variable {step}

@[simp] theorem run_nil (s : σ) : run step s [] = some s := rfl

@[simp] theorem run_cons (s : σ) (a : α) (as : List α) :
    run step s (a :: as) = (step s a).bind fun s' => run step s' as := rfl

theorem run_append (s : σ) (as bs : List α) :
    run step s (as ++ bs) = (run step s as).bind fun s' => run step s' bs := by
  induction as generalizing s with
  | nil => rfl
  | cons a as ih =>
    rw [cons_append, run_cons, run_cons, bind_assoc]
    exact congrArg _ (funext ih)

theorem run_singleton (s : σ) (a : α) : run step s [a] = step s a := by
  rw [run_cons]
  cases step s a <;> rfl

variable {s : σ} {as : List α} {a : α}

theorem run_concat_eq_some {s'' : σ} :
    run step s (as ++ [a]) = some s'' ↔ ∃ s', run step s as = some s' ∧ step s' a = some s'' := by
  rw [run_append, bind_eq_some_iff]
  simp only [run_singleton]

variable {ok : σ → α → Prop}

theorem meets_cons : Meets step ok s (a :: as) ↔ ok s a ∧ ∀ s', step s a = some s' → Meets step ok s' as := Iff.rfl

/-- Whether a run meets a decidable condition can be computed by executing it. -/
instance decidableMeets {ok : σ → α → Prop} [∀ s a, Decidable (ok s a)] :
    (s : σ) → (as : List α) → Decidable (Meets step ok s as)
  | _, [] => isTrue trivial
  | s, a :: as =>
    match h : step s a with
    | none => decidable_of_iff (ok s a) (by simp [meets_cons, h])
    | some s' =>
      haveI : Decidable (Meets step ok s' as) := decidableMeets s' as
      decidable_of_iff (ok s a ∧ Meets step ok s' as) (by simp [meets_cons, h])

theorem meets_append {bs : List α} : Meets step ok s (as ++ bs) ↔
      Meets step ok s as ∧ ∀ s', run step s as = some s' → Meets step ok s' bs := by
  induction as generalizing s with
  | nil => simp [Meets]
  | cons a as ih =>
    simp only [cons_append, Meets, ih, run_cons, bind_eq_some_iff]
    constructor
    · rintro ⟨hok, h⟩
      exact ⟨⟨hok, fun s' hs' => (h s' hs').1⟩, fun s'' ⟨s', hs', hrun⟩ => (h s' hs').2 s'' hrun⟩
    · rintro ⟨⟨hok, h⟩, hrest⟩
      exact ⟨hok, fun s' hs' => ⟨h s' hs', fun s'' hrun => hrest s'' ⟨s', hs', hrun⟩⟩⟩

/-- A run with one more operation meets `ok` when the last state lets it. -/
theorem meets_concat : Meets step ok s (as ++ [a]) ↔ Meets step ok s as ∧ ∀ s', run step s as = some s' → ok s' a := by
  rw [meets_append]
  simp [Meets]

/-- A run meets `ok` when each operation does at its moment. -/
theorem meets_iff_forall : Meets step ok s as ↔ ∀ bs a, bs ++ [a] <+: as → ∀ s', run step s bs = some s' → ok s' a := by
  induction as generalizing s with
  | nil =>
    refine ⟨fun _ bs a h => ?_, fun _ => trivial⟩
    simp at h
  | cons b as ih =>
    rw [meets_cons]
    constructor
    · rintro ⟨hb, has⟩ bs a hpre s' hrun
      cases bs with
      | nil =>
        rw [nil_append, cons_prefix_cons] at hpre
        rw [run_nil, some.injEq] at hrun
        rw [hpre.1, ← hrun]
        exact hb
      | cons c bs =>
        rw [cons_append, cons_prefix_cons] at hpre
        rw [run_cons, bind_eq_some_iff] at hrun
        obtain ⟨s1, hs1, hrun⟩ := hrun
        exact ih.mp (has s1 (hpre.1 ▸ hs1)) bs a hpre.2 s' hrun
    · intro h
      refine ⟨h [] b (by simp) s rfl, fun s1 hs1 => ih.mpr fun bs a hpre s' hrun => ?_⟩
      refine h (b :: bs) a ?_ s' ?_
      · rw [cons_append]
        exact cons_prefix_cons.mpr ⟨rfl, hpre⟩
      · rw [run_cons, hs1]
        exact hrun

/-- Prefixes of a run that meets `ok` meet it. -/
theorem Meets.of_isPrefix {bs : List α} (h : Meets step ok s bs) (hpre : as <+: bs) : Meets step ok s as := by
  obtain ⟨cs, rfl⟩ := hpre
  exact (meets_append.mp h).1

theorem Meets.and_forall {Q : α → Prop} (h : Meets step ok s as) (hQ : ∀ a ∈ as, Q a) :
    Meets step (fun s a => Q a ∧ ok s a) s as := by
  induction as generalizing s with
  | nil => exact trivial
  | cons a as ih =>
    rw [forall_mem_cons] at hQ
    exact ⟨⟨hQ.1, h.1⟩, fun s' hs' => ih (h.2 s' hs') hQ.2⟩

/-- **What every step keeps, every run keeps.** -/
theorem run_invariant {ok : σ → α → Prop} {P : σ → Prop} (hstep : ∀ s a s', P s → ok s a → step s a = some s' → P s')
    {s s' : σ} {as : List α} (h0 : P s) (hok : Meets step ok s as) (hrun : run step s as = some s') : P s' := by
  induction as generalizing s with
  | nil =>
    rw [run_nil, some.injEq] at hrun
    exact hrun ▸ h0
  | cons a as ih =>
    rw [run_cons, bind_eq_some_iff] at hrun
    obtain ⟨s1, hs1, hrun⟩ := hrun
    exact ih (hstep s a s1 h0 hok.1 hs1) (hok.2 s1 hs1) hrun

theorem run_invariant' {P : σ → Prop} (hstep : ∀ s a s', P s → step s a = some s' → P s') {s s' : σ}
    {as : List α} (h0 : P s) (hrun : run step s as = some s') : P s' :=
  run_invariant (fun s a s' h (_ : True) => hstep s a s' h) h0 (meets_iff_forall.mpr fun _ _ _ _ _ => trivial) hrun

/-- **Where every step has a result, every run has one**, and what the steps keep holds at its end. -/
theorem run_total {ok : σ → α → Prop} {P : σ → Prop} (hstep : ∀ s a, P s → ok s a → ∃ s', step s a = some s' ∧ P s')
    {s : σ} {as : List α} (h0 : P s) (hok : Meets step ok s as) : ∃ s', run step s as = some s' ∧ P s' := by
  induction as generalizing s with
  | nil => exact ⟨s, rfl, h0⟩
  | cons a as ih =>
    obtain ⟨s1, hs1, h1⟩ := hstep s a h0 hok.1
    obtain ⟨s', hrun, h'⟩ := ih h1 (hok.2 s1 hs1)
    exact ⟨s', by rw [run_cons, hs1, bind_some, hrun], h'⟩

/-- **Two systems side by side**: where they are related before each operation and either both have a
result or none has, they are after the run. The relation may depend on the operations that are left. -/
theorem run_rel {τ : Type*} {step' : τ → α → Option τ} {R : List α → σ → τ → Prop}
    (hstep : ∀ s t a as, R (a :: as) s t → Option.Rel (R as) (step s a) (step' t a)) {t : τ}
    (h : R as s t) : Option.Rel (R []) (run step s as) (run step' t as) := by
  induction as generalizing s t with
  | nil => exact .some h
  | cons a as ih =>
    have hrel := hstep s t a as h
    rw [run_cons, run_cons]
    generalize step s a = r, step' t a = r' at hrel ⊢
    cases hrel with
    | some h1 => exact ih h1
    | none => exact .none

/-- **Where something comes from**: what does not hold at the start of a run and holds at its end was
brought about by one of its steps. `I` is an invariant that a step may rely on. -/
theorem exists_origin {I P : σ → Prop} {M : σ → α → σ → Prop} (hI : ∀ s a s', I s → step s a = some s' → I s')
    (hstep : ∀ s a s', I s → step s a = some s' → P s' → P s ∨ M s a s') {s s' : σ} {as : List α} (h0 : I s)
    (hnot : ¬ P s) (hrun : run step s as = some s') (h : P s') :
    ∃ before a after s1 s2, as = before ++ a :: after ∧ run step s before = some s1 ∧
      step s1 a = some s2 ∧ run step s2 after = some s' ∧ M s1 a s2 := by
  induction as generalizing s with
  | nil =>
    rw [run_nil, some.injEq] at hrun
    exact absurd (hrun ▸ h) hnot
  | cons a as ih =>
    rw [run_cons, bind_eq_some_iff] at hrun
    obtain ⟨s1, hs1, hrun⟩ := hrun
    by_cases h1 : P s1
    · -- the first step brought it about
      have hmade := (hstep s a s1 h0 hs1 h1).resolve_left hnot
      exact ⟨[], a, as, s, s1, rfl, rfl, hs1, hrun, hmade⟩
    · obtain ⟨before, b, after, s2, s3, rfl, hbefore, hb, hafter, hmade⟩ :=
        ih (hI s a s1 h0 hs1) h1 hrun
      refine ⟨a :: before, b, after, s2, s3, rfl, ?_, hb, hafter, hmade⟩
      rw [run_cons, hs1, bind_some, hbefore]

/-! ## Two computations side by side -/

section

variable {β γ δ : Type*} {x : Option α} {r : α → β → Prop} {q : γ → δ → Prop}

theorem rel_mono {r' : α → β → Prop} {y : Option β} (h : Option.Rel r x y) (hr : ∀ a b, r a b → r' a b) :
    Option.Rel r' x y := by
  cases h with
  | none => exact .none
  | some h => exact .some (hr _ _ h)

theorem rel_bind {y : Option β} {f : α → Option γ} {g : β → Option δ} (h : Option.Rel r x y)
    (hfg : ∀ a b, x = some a → r a b → Option.Rel q (f a) (g b)) : Option.Rel q (x.bind f) (y.bind g) := by
  cases h with
  | none => exact .none
  | some h => exact hfg _ _ rfl h

theorem rel_bind_same {f : α → Option γ} {g : α → Option δ} (hfg : ∀ a, x = some a → Option.Rel q (f a) (g a)) :
    Option.Rel q (x.bind f) (x.bind g) := by
  cases x with
  | none => exact .none
  | some => exact hfg _ rfl

end

end Runs
