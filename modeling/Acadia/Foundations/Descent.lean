import Mathlib.Data.List.Basic
import Acadia.Foundations.Loop

/-! # Parsers by recursive descent

A parser is a command on the list of tokens that are left. What it accepts is a relation between the letters of
the tokens that it takes and its result: a rule of a grammar, over an alphabet `κ` for tokens of type `τ`.
`Chain` is the relation of a loop over the parts of a list, in which what a part may be depends on the parts
before it; in `Numbered` only on their number, and in `Many` on nothing. -/

namespace Command

open List

variable {τ κ ε α β : Type}

/-- **A parser reads a rule**: it has a result exactly on the token lists that begin with an instance
of the rule, and leaves what follows it. -/
def Reads (spell : τ → κ) (p : Command (List τ) ε α) (rule : List κ → α → Prop) : Prop :=
  ∀ ts a rest, p ts = (.ok a, rest) ↔ ∃ used, ts = used ++ rest ∧ rule (used.map spell) a

/-- Instances of a rule one after another. What the rule is depends on `b`, to which `push` adds the
result of each. -/
inductive Chain (rule : β → List κ → α → Prop) (push : β → α → β) : β → List κ → List α → Prop where
  | nil (b : β) : Chain rule push b [] []
  | cons {b : β} {u us : List κ} {a : α} {as : List α} (h : rule b u a)
      (t : Chain rule push (push b a) us as) : Chain rule push b (u ++ us) (a :: as)

/-- Instances of a rule one after another, numbered from `n` on. -/
inductive Numbered (rule : Nat → List κ → α → Prop) : Nat → List κ → List α → Prop where
  | nil (n : Nat) : Numbered rule n [] []
  | cons {n : Nat} {u us : List κ} {a : α} {as : List α} (h : rule n u a)
      (t : Numbered rule (n + 1) us as) : Numbered rule n (u ++ us) (a :: as)

/-- Instances of one rule one after another. -/
inductive Many (rule : List κ → α → Prop) : List κ → List α → Prop where
  | nil : Many rule [] []
  | cons {u us : List κ} {a : α} {as : List α} (h : rule u a) (t : Many rule us as) :
      Many rule (u ++ us) (a :: as)

theorem chain_iff_many (rule : List κ → α → Prop) (push : β → α → β) (b : β) (us : List κ)
    (as : List α) : Chain (fun _ => rule) push b us as ↔ Many rule us as := by
  constructor
  · intro h
    induction h with
    | nil b => exact Many.nil
    | cons h _ ih => exact Many.cons h ih
  · intro h
    induction h generalizing b with
    | nil => exact Chain.nil b
    | cons h _ ih => exact Chain.cons h (ih _)

/-- A chain whose rule depends on the number of parts only is a numbered one. -/
theorem chain_iff_numbered (rule : Nat → List κ → α → Prop) (push : β → α → β) (number : β → Nat)
    (hpush : ∀ b a, number (push b a) = number b + 1) (b : β) (us : List κ) (as : List α) :
    Chain (fun b => rule (number b)) push b us as ↔ Numbered rule (number b) us as := by
  constructor
  · intro h
    induction h with
    | nil b => exact Numbered.nil _
    | cons h _ ih =>
      rw [hpush] at ih
      exact Numbered.cons h ih
  · intro h
    generalize hn : number b = n at h
    induction h generalizing b with
    | nil n => exact Chain.nil b
    | cons h _ ih =>
      subst hn
      exact Chain.cons h (ih _ (hpush b _))

/-- **A loop that reads one part in each round reads a chain of parts**, up to the first token on which
it ends. -/
theorem whileLoop_reads {spell : τ → κ} {size : List τ → Nat} {more : List τ → Bool} {item : β → Command (List τ) ε α}
    {body : β → Command (List τ) ε β} {h : ∀ b, Shrinks size (body b)} (push : β → α → β) (rule : β → List κ → α → Prop)
    (hbody : ∀ b, body b = item b >>= fun a => pure (push b a)) (hitem : ∀ b, Reads spell (item b) (rule b))
    (hmore : ∀ b used rest a, rule b (used.map spell) a → more (used ++ rest) = true) (b b' : β) (ts rest : List τ) :
    whileLoop size more body h b ts = (.ok b', rest) ↔ more rest = false ∧ ∃ used as,
        ts = used ++ rest ∧ Chain rule push b (used.map spell) as ∧ b' = as.foldl push b := by
  have hround : ∀ c c' us us', body c us = (.ok c', us') ↔
      ∃ used a, us = used ++ us' ∧ rule c (used.map spell) a ∧ c' = push c a := by
    intro c c' us us'
    rw [hbody, bind_eq_ok_iff]
    constructor
    · rintro ⟨a, us1, ha, hp⟩
      obtain ⟨used, hus, hrule⟩ := (hitem c us a us1).mp ha
      simp only [pure_apply, Prod.mk.injEq, Except.ok.injEq] at hp
      exact ⟨used, a, hp.2 ▸ hus, hrule, hp.1.symm⟩
    · rintro ⟨used, a, hus, hrule, rfl⟩
      exact ⟨a, us', (hitem c us a us').mpr ⟨used, hus, hrule⟩, rfl⟩
  rw [whileLoop_eq_ok_iff, and_comm]
  refine and_congr_right fun _ => ⟨fun hrounds => ?_, ?_⟩
  · generalize hx : (b, ts) = x at hrounds
    induction hrounds using Relation.ReflTransGen.head_induction_on generalizing b ts with
    | refl =>
      cases hx
      exact ⟨[], [], rfl, Chain.nil _, rfl⟩
    | head hxy _ ih =>
      subst hx
      obtain ⟨used, a, hus, hrule, hpush⟩ := (hround _ _ _ _).mp hxy.2
      obtain ⟨used', as, hus', hchain, hfold⟩ := ih _ _ rfl
      refine ⟨used ++ used', a :: as, ?_, ?_, ?_⟩
      · rw [append_assoc, ← hus', ← hus]
      · rw [map_append]
        exact Chain.cons hrule (hpush ▸ hchain)
      · rw [foldl_cons, ← hpush, ← hfold]
  rintro ⟨used, as, hts, hchain, hfold⟩
  generalize hu : used.map spell = us at hchain
  induction hchain generalizing used ts with
  | nil b =>
    rw [map_eq_nil_iff] at hu
    subst hu hts hfold
    exact Relation.ReflTransGen.refl
  | cons hrule _ ih =>
    obtain ⟨used1, used2, rfl, rfl, rfl⟩ := map_eq_append_iff.mp hu
    refine Relation.ReflTransGen.head ⟨?_, ?_⟩ (ih (used2 ++ rest) used2 rfl hfold rfl)
    · rw [hts, append_assoc]
      exact hmore _ used1 _ _ hrule
    · rw [hround]
      exact ⟨used1, _, by rw [hts, append_assoc], hrule, rfl⟩

/-! ## Loops that collect a list -/

theorem foldl_concat (as as' : List α) : as'.foldl (fun bs a => bs ++ [a]) as = as ++ as' := by
  induction as' generalizing as with
  | nil => simp
  | cons a as' ih =>
    rw [foldl_cons, ih]
    simp

theorem foldl_concat_count (as as' : List α) (n : Nat) :
    as'.foldl (fun (b : List α × Nat) a => (b.1 ++ [a], b.2 + 1)) (as, n) = (as ++ as', n + as'.length) := by
  induction as' generalizing as n with
  | nil => simp
  | cons a as' ih =>
    rw [foldl_cons, ih]
    simp [Nat.add_assoc, Nat.add_comm 1]

section Collect

variable {spell : τ → κ} {size : List τ → Nat} {more : List τ → Bool} {ts rest : List τ}

/-- **A loop that appends what it reads.** -/
theorem whileLoop_reads_many {item : Command (List τ) ε α} {body : List α → Command (List τ) ε (List α)}
    {rule : List κ → α → Prop} {h : ∀ b, Shrinks size (body b)}
    (hbody : ∀ b, body b = item >>= fun a => pure (b ++ [a])) (hitem : Reads spell item rule)
    (hmore : ∀ used rest a, rule (used.map spell) a → more (used ++ rest) = true) {b b' : List α} :
    whileLoop size more body h b ts = (.ok b', rest) ↔ more rest = false ∧ ∃ used as,
        ts = used ++ rest ∧ Many rule (used.map spell) as ∧ b' = b ++ as := by
  rw [whileLoop_reads (fun b a => b ++ [a]) (fun _ => rule) hbody (fun _ => hitem) fun _ => hmore]
  simp only [chain_iff_many, foldl_concat]

/-- **A loop that appends what it reads and counts.** -/
theorem whileLoop_reads_numbered {item : Nat → Command (List τ) ε α}
    {body : List α × Nat → Command (List τ) ε (List α × Nat)} {rule : Nat → List κ → α → Prop}
    {h : ∀ b, Shrinks size (body b)} (hbody : ∀ b, body b = item b.2 >>= fun a => pure (b.1 ++ [a], b.2 + 1))
    (hitem : ∀ n, Reads spell (item n) (rule n))
    (hmore : ∀ n used rest a, rule n (used.map spell) a → more (used ++ rest) = true) {b : List α × Nat} :
    whileLoop size more body h ([], 0) ts = (.ok b, rest) ↔ more rest = false ∧ ∃ used, ts = used ++ rest ∧
        Numbered rule 0 (used.map spell) b.1 ∧ b.2 = b.1.length := by
  have hnumber : ∀ us as, Chain (fun (b : List α × Nat) => rule b.2)
      (fun b a => (b.1 ++ [a], b.2 + 1)) ([], 0) us as ↔ Numbered rule 0 us as :=
    chain_iff_numbered rule (fun (b : List α × Nat) a => (b.1 ++ [a], b.2 + 1)) Prod.snd (fun _ _ => rfl) ([], 0)
  rw [whileLoop_reads (fun b a => (b.1 ++ [a], b.2 + 1)) (fun b => rule b.2) hbody
    (fun b => hitem b.2) fun b => hmore b.2]
  simp only [hnumber, foldl_concat_count]
  refine and_congr_right fun _ => exists_congr fun used => ?_
  constructor
  · rintro ⟨as, hts, hn, rfl⟩
    exact ⟨hts, hn, by simp⟩
  · rintro ⟨hts, hn, hb⟩
    refine ⟨b.1, hts, hn, ?_⟩
    rw [Prod.ext_iff]
    simp [hb]

end Collect

end Command
