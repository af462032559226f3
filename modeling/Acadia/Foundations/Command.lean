import Mathlib.Logic.Basic

/-! # Commands that change a state and may stop early

A command reads and changes a state, and either has a result or stops with a reason; what it changed before
stays changed. `wp` is its weakest precondition for a postcondition of each kind of end, with rules for the
parts of a command. -/

theorem except_bind_eq_ok_iff {ε α β : Type} {x : Except ε α} {f : α → Except ε β} {b : β} :
    (x >>= f) = .ok b ↔ ∃ a, x = .ok a ∧ f a = .ok b := by
  cases x with
  | error | ok => simp [bind, Except.bind]

theorem except_bind_ne_error {ε α β : Type} {x : Except ε α} {f : α → Except ε β} {e : ε}
    (hx : x ≠ .error e) (hf : ∀ a, x = .ok a → f a ≠ .error e) : (x >>= f) ≠ .error e := by
  cases x with
  | error => exact fun heq => hx (by cases heq; rfl)
  | ok a => exact hf a rfl

/-- A command on states `σ` that may stop with an `ε`. -/
def Command (σ ε α : Type) : Type := σ → Except ε α × σ

namespace Command

open List

variable {σ ε α β : Type}

instance : Monad (Command σ ε) where
  pure a := fun s => (.ok a, s)
  bind m f := fun s =>
    match m s with
    | (.ok a, s) => f a s
    | (.error e, s) => (.error e, s)

instance : LawfulMonad (Command σ ε) := by
  refine LawfulMonad.mk' _ ?_ ?_ ?_
  · intro α m
    funext s
    show (match m s with | (.ok a, s) => _ | (.error e, s) => _) = m s
    rcases m s with ⟨_ | _, s'⟩ <;> rfl
  · intro α β a f
    rfl
  · intro α β γ m f g
    funext s
    simp only [Bind.bind]
    rcases m s with ⟨_ | _, s'⟩ <;> rfl

/-- What is read off the state. -/
def gets (f : σ → α) : Command σ ε α := fun s => (.ok (f s), s)

/-- A change of the state. -/
def update (f : σ → σ) : Command σ ε Unit := fun s => (.ok (), f s)

/-- The end of a command. -/
def stop (e : ε) : Command σ ε α := fun s => (.error e, s)

/-- A change of the state that may be impossible. -/
def updateSome (e : ε) (f : σ → Option (α × σ)) : Command σ ε α := fun s =>
  match f s with
  | some (a, s) => (.ok a, s)
  | none => (.error e, s)

/-- A command for each element of a list, in turn. -/
def each (f : α → Command σ ε β) : List α → Command σ ε (List β)
  | [] => pure []
  | a :: as => do
    let b ← f a
    let bs ← each f as
    return b :: bs

/-! ## Execution -/

@[simp] theorem pure_apply (a : α) (s : σ) : (pure a : Command σ ε α) s = (.ok a, s) := rfl

@[simp] theorem gets_apply (f : σ → α) (s : σ) : (gets f : Command σ ε α) s = (.ok (f s), s) := rfl

@[simp] theorem stop_apply (e : ε) (s : σ) : (stop e : Command σ ε α) s = (.error e, s) := rfl

variable {m : Command σ ε α} {f : α → Command σ ε β} {s' : σ}

variable {s : σ} {a : α}

theorem bind_of_ok (h : m s = (.ok a, s')) : (m >>= f) s = f a s' := by
  show (match m s with | (.ok a, s) => f a s | (.error e, s) => (.error e, s)) = _
  rw [h]

theorem bind_of_error {e : ε} (h : m s = (.error e, s')) : (m >>= f) s = (.error e, s') := by
  show (match m s with | (.ok a, s) => f a s | (.error e, s) => (.error e, s)) = _
  rw [h]

theorem bind_eq_ok_iff {s'' : σ} {b : β} :
    (m >>= f) s = (.ok b, s'') ↔ ∃ a s', m s = (.ok a, s') ∧ f a s' = (.ok b, s'') := by
  cases hm : m s with
  | mk r =>
    cases r with
    | ok => simp [bind_of_ok hm, and_assoc]
    | error => simp [bind_of_error hm]

@[simp] theorem bind_gets (f : σ → α) (g : α → Command σ ε β) (s : σ) : (gets f >>= g) s = g (f s) s := rfl

/-! ## Weakest preconditions -/

/-- **The weakest precondition**: `Q` holds if the command has a result, and `E` if it stops. -/
def wp (m : Command σ ε α) (Q : α → σ → Prop) (E : ε → σ → Prop) (s : σ) : Prop :=
  match m s with
  | (.ok a, s) => Q a s
  | (.error e, s) => E e s

variable {Q Q' : α → σ → Prop} {E E' : ε → σ → Prop} {s : σ}

theorem wp_of_ok (h : m s = (.ok a, s')) : wp m Q E s ↔ Q a s' := by
  rw [wp, h]

theorem wp_of_error {e : ε} (h : m s = (.error e, s')) : wp m Q E s ↔ E e s' := by
  rw [wp, h]

theorem of_wp (hm : wp m Q E s) (h : m s = (.ok a, s')) : Q a s' :=
  (wp_of_ok h).mp hm

theorem of_wp_error {e : ε} (hm : wp m Q E s) (h : m s = (.error e, s')) : E e s' := (wp_of_error h).mp hm

theorem wp_run {r : Except ε α} (hm : wp m Q E s) (h : m s = (r, s')) :
    (∀ a, r = .ok a → Q a s') ∧ ∀ e, r = .error e → E e s' := by
  constructor
  · rintro a rfl
    exact of_wp hm h
  · rintro e rfl
    exact of_wp_error hm h

@[simp] theorem wp_pure (a : α) : wp (pure a : Command σ ε α) Q E s ↔ Q a s := Iff.rfl

@[simp] theorem wp_gets (f : σ → α) : wp (gets f : Command σ ε α) Q E s ↔ Q (f s) s := Iff.rfl

@[simp] theorem wp_update (f : σ → σ) {Q : Unit → σ → Prop} :
    wp (update f : Command σ ε Unit) Q E s ↔ Q () (f s) := Iff.rfl

@[simp] theorem wp_stop (e : ε) : wp (stop e : Command σ ε α) Q E s ↔ E e s := Iff.rfl

theorem wp_updateSome_some {e : ε} {f : σ → Option (α × σ)} (h : f s = some (a, s')) :
    wp (updateSome e f) Q E s ↔ Q a s' := by
  rw [wp_of_ok]
  rw [updateSome, h]

theorem wp_updateSome_none {e : ε} {f : σ → Option (α × σ)} (h : f s = none) : wp (updateSome e f) Q E s ↔ E e s := by
  rw [wp_of_error]
  rw [updateSome, h]

/-- Either way, for a change that may fail. -/
theorem wp_updateSome {e : ε} {f : σ → Option (α × σ)} (hQ : ∀ a s', f s = some (a, s') → Q a s')
    (hE : f s = none → E e s) : wp (updateSome e f) Q E s := by
  cases hf : f s with
  | none => exact (wp_updateSome_none hf).mpr (hE hf)
  | some r => exact (wp_updateSome_some hf).mpr (hQ r.1 r.2 hf)

@[simp] theorem wp_ite (c : Prop) [Decidable c] (m n : Command σ ε α) :
    wp (if c then m else n) Q E s ↔ if c then wp m Q E s else wp n Q E s := by
  split <;> rfl

@[simp] theorem wp_bind (m : Command σ ε α) (f : α → Command σ ε β) {Q : β → σ → Prop} :
    wp (m >>= f) Q E s ↔ wp m (fun a => wp (f a) Q E) E s := by
  cases hm : m s with
  | mk r =>
    cases r with
    | ok => rw [wp_of_ok hm, wp, bind_of_ok hm, wp]
    | error => rw [wp_of_error hm, wp_of_error (bind_of_error hm)]

theorem wp_mono (h : wp m Q E s) (hQ : ∀ a s', Q a s' → Q' a s') (hE : ∀ e s', E e s' → E' e s') : wp m Q' E' s := by
  unfold wp at h ⊢
  split at h
  · exact hQ _ _ h
  · exact hE _ _ h

theorem wp_seq {R : α → σ → Prop} {Q : β → σ → Prop} (hm : wp m R E s)
    (hf : ∀ a s', R a s' → wp (f a) Q E s') : wp (m >>= f) Q E s := by
  rw [wp_bind]
  exact wp_mono hm hf fun _ _ he => he

theorem wp_and (h : wp m Q E s) (h' : wp m Q' E' s) :
    wp m (fun a s => Q a s ∧ Q' a s) (fun e s => E e s ∧ E' e s) s := by
  cases hm : m s with
  | mk r =>
    cases r with
    | ok => exact (wp_of_ok hm).mpr ⟨(wp_of_ok hm).mp h, (wp_of_ok hm).mp h'⟩
    | error => exact (wp_of_error hm).mpr ⟨(wp_of_error hm).mp h, (wp_of_error hm).mp h'⟩

variable {f : α → Command σ ε β}

/-- **The rule for loops over a list**: what holds of the rest of the list and the results so far is
kept by each round. -/
theorem wp_each {I : List β → List α → σ → Prop}
    (hstep : ∀ bs a as s, I bs (a :: as) s → wp (f a) (fun b => I (bs ++ [b]) as) E s) {bs : List β}
    {as : List α} (h : I bs as s) : wp (each f as) (fun bs' => I (bs ++ bs') []) E s := by
  induction as generalizing bs s with
  | nil =>
    rw [each, wp_pure, append_nil]
    exact h
  | cons a as ih =>
    rw [each, wp_bind]
    refine wp_mono (hstep bs a as s h) (fun b s' hb => ?_) fun e s' he => he
    rw [wp_bind]
    refine wp_mono (ih hb) (fun bs' s'' hbs => ?_) fun e s' he => he
    rw [wp_pure]
    rwa [append_assoc, singleton_append] at hbs

theorem wp_each_rest {I : List α → σ → Prop} (hstep : ∀ a as s, I (a :: as) s → wp (f a) (fun _ => I as) E s)
    {as : List α} (h : I as s) : wp (each f as) (fun _ => I []) E s :=
  @wp_each σ ε α β E s f (fun _ => I) (fun _ => hstep) [] as h

/-! ## Relations that a command keeps to -/

/-- **The states before and after a command are related**, however it ends. -/
def Keeps (R : σ → σ → Prop) (m : Command σ ε α) : Prop := ∀ s, wp m (fun _ => R s) (fun _ => R s) s

section Keeps

variable {R : σ → σ → Prop} {m : Command σ ε α} {f : α → Command σ ε β}

theorem keeps_update {f : σ → σ} (h : ∀ s, R s (f s)) : Keeps R (update f : Command σ ε Unit) := h

theorem keeps_updateSome {e : ε} {f : σ → Option (α × σ)} (hrefl : ∀ s, R s s)
    (h : ∀ s a s', f s = some (a, s') → R s s') : Keeps R (updateSome e f) := by
  intro s
  exact wp_updateSome (h s) fun _ => hrefl s

theorem keeps_ite {c : Prop} [Decidable c] {m n : Command σ ε α} (hm : Keeps R m) (hn : Keeps R n) :
    Keeps R (if c then m else n) := by
  split
  · exact hm
  · exact hn

theorem keeps_of_same (hrefl : ∀ s, R s s) (h : ∀ s, (m s).2 = s) : Keeps R m := by
  intro s
  have hs := h s
  unfold wp
  split
  · rename_i a s' hm
    rw [hm] at hs
    exact hs ▸ hrefl s
  · rename_i e s' hm
    rw [hm] at hs
    exact hs ▸ hrefl s

theorem Keeps.bind (htrans : ∀ {a b c}, R a b → R b c → R a c) (hm : Keeps R m)
    (hf : ∀ a, Keeps R (f a)) : Keeps R (m >>= f) := by
  intro s
  rw [wp_bind]
  refine wp_mono (hm s) (fun a s1 h1 => ?_) fun e s1 h1 => h1
  exact wp_mono (hf a s1) (fun b s2 h2 => htrans h1 h2) fun e s2 h2 => htrans h1 h2

theorem keeps_each (hrefl : ∀ s, R s s) (htrans : ∀ {a b c}, R a b → R b c → R a c) {as : List α}
    (hf : ∀ a ∈ as, Keeps R (f a)) : Keeps R (each f as) := by
  induction as with
  | nil => exact keeps_of_same hrefl fun _ => rfl
  | cons a _ ih =>
    have has := ih fun b hb => hf b (mem_cons_of_mem _ hb)
    rw [each]
    refine (hf a mem_cons_self).bind htrans fun b => has.bind htrans fun bs => ?_
    exact keeps_of_same hrefl fun _ => rfl

end Keeps

/-! ## Properties that a command keeps -/

/-- **A property of states is kept by a command**, and `E` holds where it stops. -/
def Stays (I : σ → Prop) (E : ε → σ → Prop) (m : Command σ ε α) : Prop :=
  ∀ s, I s → wp m (fun _ => I) E s

section Stays

variable {I : σ → Prop}

theorem stays_pure (a : α) : Stays I E (pure a : Command σ ε α) := fun _ hs => hs

theorem stays_gets (f : σ → α) : Stays I E (gets f : Command σ ε α) := fun _ hs => hs

theorem stays_ite {c : Prop} [Decidable c] {m n : Command σ ε α} (hm : Stays I E m)
    (hn : Stays I E n) : Stays I E (if c then m else n) := by
  split
  · exact hm
  · exact hn

theorem Stays.bind {m : Command σ ε α} (hm : Stays I E m)
    (hf : ∀ a, Stays I E (f a)) : Stays I E (m >>= f) := fun s hs =>
  wp_seq (hm s hs) fun a s' hs' => hf a s' hs'

theorem stays_each (hf : ∀ a, Stays I E (f a)) (as : List α) : Stays I E (each f as) := fun _ hs =>
  @wp_each_rest σ ε α β E _ f (fun _ => I) (fun a _ s hs => hf a s hs) as hs

end Stays

end Command
