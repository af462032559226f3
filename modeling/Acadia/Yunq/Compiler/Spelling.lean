import Acadia.Yunq.Compiler.Grammar

/-! # How yunq files are spelled

The lexical rules of yunq files. A file is a sequence of blanks, comments, symbols and names, and it may end
within a comment or a name: there the lexers of the two compilers differ, from each other and from the rules. -/

namespace Acadia.Yunq.Compiler

open List

/-! ## Rules -/

/-- How a file ends. -/
inductive Ending where
  /-- After a blank, a symbol, or the newline of a comment. -/
  | plain
  /-- Within a comment. -/
  | comment
  /-- Within a name. -/
  | name
  deriving DecidableEq

/-- A piece of a file: the file from the piece on, the terminals of the piece, and what follows it. -/
inductive Piece : List Char → List Terminal → List Char → Prop where
  | blank {c : Char} (rest : List Char) (h : c = '\n' ∨ c = ' ' ∨ c = '\t' ∨ c = '\r') :
      Piece (c :: rest) [] rest
  | comment {body : List Char} (rest : List Char) (h : '\n' ∉ body) :
      Piece ('/' :: '/' :: (body ++ '\n' :: rest)) [] rest
  | symbol {c : Char} {t : TokenType} (rest : List Char) (h : punctuation c = some t) :
      Piece (c :: rest) [t.terminal ""] rest
  | arrow (rest : List Char) : Piece ('-' :: '>' :: rest) [.arrow] rest
  /-- A name goes on as long as it can. -/
  | name {c d : Char} {body : List Char} (rest : List Char) (hc : isNameStart c = true)
      (hbody : ∀ b ∈ body, isNameChar b = true) (hd : isNameChar d = false) :
      Piece (c :: (body ++ d :: rest)) [.name (String.ofList (c :: body))] (d :: rest)

/-- The last part of a file, which nothing follows. -/
inductive Tail : Ending → List Char → List Terminal → Prop where
  | nil : Tail .plain [] []
  | comment {body : List Char} (h : '\n' ∉ body) : Tail .comment ('/' :: '/' :: body) []
  | name {c : Char} {body : List Char} (hc : isNameStart c = true)
      (hbody : ∀ b ∈ body, isNameChar b = true) :
      Tail .name (c :: body) [.name (String.ofList (c :: body))]

/-- **How a file is spelled**: the terminals of the characters, and how they end. -/
inductive Spells : Ending → List Char → List Terminal → Prop where
  | tail {e : Ending} {cs : List Char} {us : List Terminal} (h : Tail e cs us) : Spells e cs us
  | piece {e : Ending} {cs rest : List Char} {us us' : List Terminal} (h : Piece cs us rest)
      (t : Spells e rest us') : Spells e cs (us ++ us')

variable {cs rest input : List Char} {us : List Terminal}

theorem Piece.length_lt (h : Piece cs us rest) : rest.length < cs.length := by
  cases h <;> grind

theorem punctuation_eq_some {c : Char} {t : TokenType} (h : punctuation c = some t) :
    c ∈ ['{', '}', '(', ')', ';', '.', '='] ∧ t ≠ .name ∧ t ≠ .endOfFile := by
  unfold punctuation at h
  split at h <;> cases h <;> decide

theorem isNameStart_ne {c d : Char} (hc : isNameStart c = true) (hd : isNameStart d = false) : c ≠ d := by
  rintro rfl
  rw [hc] at hd
  cases hd

theorem punctuation_of_isNameStart {c : Char} (hc : isNameStart c = true) : punctuation c = none := by
  cases hp : punctuation c with
  | none => rfl
  | some t =>
    have hmem := (punctuation_eq_some hp).1
    have hall : ['{', '}', '(', ')', ';', '.', '='].all (!isNameStart ·) = true := by decide
    have hstart := all_eq_true.mp hall c hmem
    rw [hc] at hstart
    cases hstart

theorem exists_name_append (cs : List Char) : ∃ body rest, cs = body ++ rest ∧
    (∀ b ∈ body, isNameChar b = true) ∧ ∀ d rest', rest = d :: rest' → isNameChar d = false := by
  induction cs with
  | nil => exact ⟨[], [], rfl, by simp, by simp⟩
  | cons c cs ih =>
    cases hc : isNameChar c with
    | true =>
      obtain ⟨body, rest, rfl, hbody, hrest⟩ := ih
      exact ⟨c :: body, rest, rfl, forall_mem_cons.mpr ⟨hc, hbody⟩, hrest⟩
    | false =>
      refine ⟨[], c :: cs, rfl, by simp, ?_⟩
      rintro d rest' ⟨⟩
      exact hc

theorem name_piece_or_tail {c : Char} (hc : isNameStart c = true) (cs : List Char) :
    (∃ us rest, Piece (c :: cs) us rest) ∨ ∃ us, Tail .name (c :: cs) us := by
  obtain ⟨body, rest, rfl, hbody, hrest⟩ := exists_name_append cs
  cases rest with
  | nil => exact Or.inr ⟨_, by rw [append_nil]; exact Tail.name hc hbody⟩
  | cons d rest => exact Or.inl ⟨_, _, Piece.name rest hc hbody (hrest d rest rfl)⟩

/-- A file that begins with `//` begins with a comment. -/
theorem comment_piece_or_tail (cs : List Char) :
    (∃ us rest, Piece ('/' :: '/' :: cs) us rest) ∨ ∃ us, Tail .comment ('/' :: '/' :: cs) us := by
  by_cases h : '\n' ∈ cs
  · obtain ⟨body, rest, rfl, hbody⟩ := eq_append_cons_of_mem h
    exact Or.inl ⟨_, _, Piece.comment rest hbody⟩
  · exact Or.inr ⟨_, Tail.comment h⟩

/-! ## The Rust lexer -/

section Rust

variable {input : List Char} {index position line : Nat} {tokens : List Token}

variable {c : Char} {cs body : List Char}

theorem skipComment_append (h : '\n' ∉ body) (rest : List Char) :
    skipComment (body ++ '\n' :: rest) index position line = ⟨rest, index + body.length + 1, 0, line + 1⟩ := by
  induction body generalizing index with
  | nil => simp [skipComment]
  | cons b body ih =>
    rw [mem_cons, not_or] at h
    rw [cons_append, skipComment, if_neg (Ne.symm h.1), ih h.2, length_cons]
    congr 1
    omega

theorem skipComment_of_notMem (h : '\n' ∉ body) :
    skipComment body index position line = ⟨[], index + body.length, position, line⟩ := by
  induction body generalizing index with
  | nil => rfl
  | cons b body ih =>
    rw [mem_cons, not_or] at h
    rw [skipComment, if_neg (Ne.symm h.1), ih h.2, length_cons]
    congr 1
    omega

theorem nameLoop_append {nameStart posStart : Nat} {body : List Char}
    (h : ∀ b ∈ body, isNameChar b = true) (rest : List Char) :
    nameLoop input nameStart posStart (body ++ rest) index position line =
      nameLoop input nameStart posStart rest (index + body.length) (position + body.length) line := by
  induction body generalizing index position with
  | nil => simp
  | cons b body ih =>
    rw [forall_mem_cons] at h
    rw [cons_append, nameLoop, if_pos h.1, ih h.2, length_cons]
    congr 1 <;> omega

theorem lexStep_blank (h : c = ' ' ∨ c = '\t' ∨ c = '\r') :
    lexStep input c ⟨cs, index, position, line⟩ = .ok (none, ⟨cs, index, position + 1, line⟩) := by
  have hn : c ≠ '\n' := by rcases h with rfl | rfl | rfl <;> decide
  simp [lexStep, hn, h]

theorem lexStep_newline : lexStep input '\n' ⟨cs, index, position, line⟩ = .ok (none, ⟨cs, index, 0, line + 1⟩) := by
  simp [lexStep]

theorem lexStep_symbol {t : TokenType} (h : punctuation c = some t) : lexStep input c ⟨cs, index, position, line⟩ =
      .ok (some ⟨t, line, position + 1, position + 1 + 1, slice input index (index + 1)⟩,
        ⟨cs, index, position + 1, line⟩) := by
  have hc := (punctuation_eq_some h).1
  have hne : ['{', '}', '(', ')', ';', '.', '='].all (fun d => d ≠ '\n' ∧
      ¬ (d = ' ' ∨ d = '\t' ∨ d = '\r') ∧ d ≠ '/' ∧ d ≠ '-') = true := by decide
  obtain ⟨h1, h2, h3, h4⟩ := of_decide_eq_true (all_eq_true.mp hne c hc)
  simp only [lexStep, if_neg h1, if_neg h2, if_neg h3, if_neg h4, h]

theorem lexStep_name (hc : isNameStart c = true) : lexStep input c ⟨cs, index, position, line⟩ =
      .ok (some (nameLoop input index (position + 1) cs index (position + 1) line).1,
        (nameLoop input index (position + 1) cs index (position + 1) line).2) := by
  have hblank : ¬ (c = ' ' ∨ c = '\t' ∨ c = '\r') := by
    rintro (h | h | h)
    all_goals exact isNameStart_ne hc (by decide) h
  simp only [lexStep, if_neg (isNameStart_ne hc (by decide : isNameStart '\n' = false)), if_neg hblank,
    if_neg (isNameStart_ne hc (by decide : isNameStart '/' = false)),
    if_neg (isNameStart_ne hc (by decide : isNameStart '-' = false)), punctuation_of_isNameStart hc,
    if_pos hc]

theorem piece_or_tail_of_lexStep {r : Option Token × Scan} (h : lexStep input c ⟨cs, index, position, line⟩ = .ok r) :
    (∃ us rest, Piece (c :: cs) us rest) ∨ ∃ e us, Tail e (c :: cs) us := by
  simp only [lexStep] at h
  split at h
  · rename_i hn
    exact Or.inl ⟨_, _, Piece.blank cs (Or.inl hn)⟩
  split at h
  · rename_i hb
    exact Or.inl ⟨_, _, Piece.blank cs (Or.inr hb)⟩
  split at h
  · rename_i hs
    subst hs
    split at h
    · rename_i cs'
      exact (comment_piece_or_tail cs').imp_right fun htail => ⟨_, htail⟩
    · cases h
  split at h
  · rename_i hm
    subst hm
    split at h
    · exact Or.inl ⟨_, _, Piece.arrow _⟩
    all_goals cases h
  · split at h
    · rename_i t ht
      exact Or.inl ⟨_, _, Piece.symbol cs ht⟩
    · split at h
      · rename_i hc
        exact (name_piece_or_tail hc cs).imp_right fun htail => ⟨_, htail⟩
      · cases h

end Rust

end Acadia.Yunq.Compiler
