import Acadia.Yunq.Compiler.Spelling

/-! # Bytes and characters in the lexer of the Rust yunq compiler

`lex_input` counts characters in `index`, and takes the texts of tokens between the bytes with these numbers.
After a character of several bytes, which can only be in a comment, the text is another one, or the slice
panics. -/

namespace Acadia.Yunq.Compiler

open List Token

/-! ## Slices of bytes -/

/-- How `lex_input` ends without tokens. -/
inductive LexFailure where
  /-- A slice panics. -/
  | panic
  /-- It returns an error. -/
  | error (message : String)
  deriving DecidableEq

/-- The number of characters before the byte `n`, if no character goes over it. -/
def charsBefore : List Char → Nat → Option Nat
  | _, 0 => some 0
  | [], _ + 1 => none
  | c :: cs, n + 1 =>
    if c.utf8Size ≤ n + 1 then (charsBefore cs (n + 1 - c.utf8Size)).map (· + 1) else none

/-- The text `input[first..last]`, between bytes. -/
def sliceBytes (input : List Char) (first last : Nat) : Except LexFailure String :=
  match charsBefore input first, charsBefore input last with
  | some i, some j => if first ≤ last then .ok (slice input i j) else .error .panic
  | _, _ => .error .panic

variable {input : List Char}

theorem charsBefore_le {m n i j : Nat} (hm : charsBefore input m = some i)
    (hn : charsBefore input n = some j) (hle : m ≤ n) : j ≤ i + (n - m) := by
  induction input generalizing m n i j with
  | nil =>
    cases n with
    | zero =>
      cases hn
      exact Nat.zero_le _
    | succ => cases hn
  | cons c cs ih =>
    have hc : 0 < c.utf8Size := c.utf8Size_pos
    cases n with
    | zero =>
      cases hn
      exact Nat.zero_le _
    | succ =>
      rw [charsBefore, Option.ite_none_right_eq_some, Option.map_eq_some_iff] at hn
      obtain ⟨hn, j, hj, rfl⟩ := hn
      cases m with
      | zero =>
        have := ih (m := 0) (i := 0) (by cases cs <;> rfl) hj (Nat.zero_le _)
        omega
      | succ =>
        rw [charsBefore, Option.ite_none_right_eq_some, Option.map_eq_some_iff] at hm
        obtain ⟨hm, i, hi, rfl⟩ := hm
        have := ih hi hj (by omega)
        omega

theorem length_le_of_sliceBytes {first last : Nat} {text : String}
    (h : sliceBytes input first last = .ok text) : text.length ≤ last - first := by
  rw [sliceBytes] at h
  split at h
  · rename_i i j hi hj
    split at h
    · rename_i hle
      cases h
      have := charsBefore_le hi hj hle
      rw [slice, String.length_ofList, length_take]
      omega
    · cases h
  · cases h

/-- A slice fails with a panic only. -/
theorem eq_panic_of_sliceBytes {first last : Nat} {e : LexFailure}
    (h : sliceBytes input first last = .error e) : e = .panic := by
  rw [sliceBytes] at h
  split at h
  · split at h <;> cases h
    rfl
  · cases h
    rfl

/-! ## The loop -/

/-- Where the slice of a name ends of which these characters follow the first: after the name, but one
character earlier at the end of the file. -/
def nameEnd : List Char → (index : Nat) → Nat
  | [], index => index
  | c :: cs, index => if isNameChar c then nameEnd cs (index + 1) else index + 1

/-- Where the slice of a token ends that begins with `c`. -/
def sliceEnd (c : Char) (s : Scan) : Nat :=
  if isNameStart c then nameEnd s.chars s.index else s.index + 1

theorem nameLoop_chars (input : List Char) (nameStart posStart : Nat) (cs : List Char) (index position line : Nat) :
    (nameLoop input nameStart posStart cs index position line).1.chars = slice input nameStart (nameEnd cs index) := by
  induction cs generalizing index position with
  | nil => rfl
  | cons c _ ih =>
    rw [nameLoop, nameEnd]
    split
    · exact ih (index + 1) (position + 1)
    · split <;> rfl

variable {c : Char} {s' : Scan}

/-- The slice is the one that `lexStep` takes. -/
theorem chars_of_lexStep {s : Scan} {token : Token} (h : lexStep input c s = .ok (some token, s')) :
    token.chars = slice input s.index (sliceEnd c s) := by
  by_cases hc : isNameStart c = true
  · rw [lexStep_name hc] at h
    cases h
    rw [sliceEnd, if_pos hc]
    exact nameLoop_chars ..
  · rw [sliceEnd, if_neg hc]
    simp only [lexStep, if_neg hc] at h
    grind

/-- The token with another text. -/
def Token.withChars (token : Token) (chars : String) : Token := { token with chars }

/-- The body of `lex_input`'s loop, with slices of bytes. -/
def lexStepBytes (input : List Char) (c : Char) (s : Scan) : Except LexFailure (Option Token × Scan) :=
  match lexStep input c s with
  | .error e => .error (.error e)
  | .ok (none, s') => .ok (none, s')
  | .ok (some token, s') =>
    (sliceBytes input s.index (sliceEnd c s)).map fun chars => (some (token.withChars chars), s')

theorem length_lexStepBytes {s : Scan} {token : Option Token}
    (h : lexStepBytes input c s = .ok (token, s')) : s'.chars.length ≤ s.chars.length := by
  rw [lexStepBytes] at h
  split at h
  · cases h
  · rename_i hs
    cases h
    exact length_lexStep hs
  rename_i hs
  cases hslice : sliceBytes input s.index (sliceEnd c s) with
  | error =>
    rw [hslice] at h
    cases h
  | ok =>
    rw [hslice] at h
    cases h
    exact length_lexStep hs

/-- The loop of `lex_input`, with slices of bytes. -/
def lexLoopBytes (input : List Char) (s : Scan) (tokens : List Token) :
    Except LexFailure (List Token) :=
  match s with
  | ⟨[], _, position, line⟩ => .ok (tokens ++ [⟨.endOfFile, line, position, position, "EOF"⟩])
  | ⟨c :: cs, index, position, line⟩ =>
    match _h : lexStepBytes input c ⟨cs, index, position, line⟩ with
    | .error e => .error e
    | .ok (token, s') => lexLoopBytes input { s' with index := s'.index + 1 } (tokens ++ token.toList)
termination_by s.chars.length
decreasing_by exact Nat.lt_succ_of_le (length_lexStepBytes _h)

/-- **The tokens of a file**, or how the lexer fails. -/
def lexInputBytes (input : List Char) : Except LexFailure (List Token) :=
  lexLoopBytes input ⟨input, 0, 0, 1⟩ []

section Loop

variable {input cs rest : List Char} {index position line : Nat} {tokens : List Token}

theorem lexLoopBytes_cons : lexLoopBytes input ⟨c :: cs, index, position, line⟩ tokens =
    (lexStepBytes input c ⟨cs, index, position, line⟩).bind fun r =>
      lexLoopBytes input { r.2 with index := r.2.index + 1 } (tokens ++ r.1.toList) := by
  rw [lexLoopBytes]
  split
  · rename_i e he
    rw [he]
    rfl
  · rename_i token s' hs
    rw [hs]
    rfl

theorem lexLoopBytes_skip (h : lexStep input c ⟨cs, index, position, line⟩ = .ok (none, s')) :
    lexLoopBytes input ⟨c :: cs, index, position, line⟩ tokens =
      lexLoopBytes input { s' with index := s'.index + 1 } tokens := by
  rw [lexLoopBytes_cons, lexStepBytes, h]
  simp [Except.bind]

theorem lexLoopBytes_push {token : Token} (h : lexStep input c ⟨cs, index, position, line⟩ = .ok (some token, s')) :
    lexLoopBytes input ⟨c :: cs, index, position, line⟩ tokens =
      (sliceBytes input index (sliceEnd c ⟨cs, index, position, line⟩)).bind fun chars =>
        lexLoopBytes input { s' with index := s'.index + 1 } (tokens ++ [token.withChars chars]) := by
  rw [lexLoopBytes_cons, lexStepBytes, h]
  cases sliceBytes input index (sliceEnd c ⟨cs, index, position, line⟩) <;> rfl

theorem nameEnd_append {body : List Char} (h : ∀ b ∈ body, isNameChar b = true) :
    nameEnd (body ++ rest) index = nameEnd rest (index + body.length) := by
  induction body generalizing index with
  | nil => rfl
  | cons b _ ih =>
    rw [forall_mem_cons] at h
    rw [cons_append, nameEnd, if_pos h.1, ih h.2, length_cons]
    congr 1
    omega

/-! ## One piece -/

/-- The number of characters of a token that `lex_input` means to take as its text. -/
def Terminal.textLength : Terminal → Nat
  | .name s => s.length
  | _ => 1

/-- The terminal of a token with this text. -/
def Terminal.withText (text : String) : Terminal → Terminal
  | .name _ => .name text
  | u => u

/-- The text that a token gets which begins where the characters `cs` of the file are left. -/
def byteText (input cs : List Char) (u : Terminal) : Except LexFailure String :=
  sliceBytes input (input.length - cs.length) (input.length - cs.length + u.textLength)

/-- **Blanks and comments** have no tokens. -/
theorem lexLoopBytes_blank (h : Piece cs [] rest) (hindex : index + cs.length = input.length) :
    ∃ index' position' line', index' + rest.length = input.length ∧
      lexLoopBytes input ⟨cs, index, position, line⟩ tokens =
        lexLoopBytes input ⟨rest, index', position', line'⟩ tokens := by
  generalize hus : ([] : List Terminal) = us at h
  cases h with
  | blank _ h =>
    rw [length_cons] at hindex
    rcases h with rfl | h
    · exact ⟨index + 1, _, _, by omega, lexLoopBytes_skip lexStep_newline⟩
    · exact ⟨index + 1, _, _, by omega, lexLoopBytes_skip (lexStep_blank h)⟩
  | comment _ h =>
    rename_i body
    have hstep : lexStep input '/' ⟨'/' :: (body ++ '\n' :: rest), index, position, line⟩ =
        .ok (none, ⟨rest, index + 1 + body.length + 1, 0, line + 1⟩) := by
      simp [lexStep, skipComment_append h]
    refine ⟨index + 1 + body.length + 1 + 1, _, _, ?_, lexLoopBytes_skip hstep⟩
    simp only [length_cons, length_append] at hindex
    omega
  | symbol | arrow | name => cases hus

/-- **Symbols and names** have a token with the text between bytes. -/
theorem lexLoopBytes_token {u : Terminal} (h : Piece cs [u] rest) (hindex : index + cs.length = input.length) :
    ∃ (token : Token) (index' position' line' : Nat), index' + rest.length = input.length ∧
      (∀ chars, (token.withChars chars).terminal = u.withText chars) ∧
      lexLoopBytes input ⟨cs, index, position, line⟩ tokens = (byteText input cs u).bind fun chars =>
        lexLoopBytes input ⟨rest, index', position', line'⟩ (tokens ++ [token.withChars chars]) := by
  have hoff : input.length - cs.length = index := by omega
  rw [byteText, hoff]
  generalize hus : [u] = us at h
  cases h with
  | blank | comment => cases hus
  | symbol _ h =>
    rename_i c t
    cases hus
    have ht := (punctuation_eq_some h).2.1
    have hc : isNameStart c = false := by
      by_contra hc
      rw [punctuation_of_isNameStart (by simpa using hc)] at h
      cases h
    have hlen : (t.terminal "").textLength = 1 := by
      cases t <;> simp_all [TokenType.terminal, Terminal.textLength]
    rw [hlen]
    rw [length_cons] at hindex
    refine ⟨⟨t, line, position + 1, position + 1 + 1, ""⟩, index + 1, position + 1, line, by omega, fun chars => ?_, ?_⟩
    · cases t <;> simp_all [TokenType.terminal, Terminal.withText, terminal, withChars]
    · rw [lexLoopBytes_push (lexStep_symbol h), sliceEnd, hc]
      rfl
  | arrow =>
    cases hus
    have hstep : lexStep input '-' ⟨'>' :: rest, index, position, line⟩ =
        .ok (some ⟨.arrow, line, position + 1 + 1 - 1, position + 1 + 1 + 1,
          slice input index (index + 1)⟩, ⟨rest, index + 1, position + 1 + 1, line⟩) := by
      simp [lexStep]
    simp only [length_cons] at hindex
    exact ⟨⟨.arrow, line, position + 1 + 1 - 1, position + 1 + 1 + 1, ""⟩, index + 1 + 1,
      position + 1 + 1, line, by omega, fun _ => rfl, lexLoopBytes_push hstep⟩
  | name rest' hc hbody hd =>
    rename_i c d body
    cases hus
    have hend : sliceEnd c ⟨body ++ d :: rest', index, position, line⟩ = index + body.length + 1 := by
      rw [sliceEnd, if_pos hc, nameEnd_append hbody, nameEnd, hd]
      rfl
    have hlen : (Terminal.name (String.ofList (c :: body))).textLength = body.length + 1 := by
      rw [Terminal.textLength, String.length_ofList, length_cons]
    simp only [length_cons, length_append] at hindex
    rw [hlen, lexLoopBytes_push (lexStep_name hc), hend, nameLoop_append hbody, nameLoop, hd]
    refine ⟨⟨.name, line, position + 1, position + 1 + body.length + 1, ""⟩, index + body.length + 1,
      position + 1 + body.length, line, by rw [length_cons]; omega, fun _ => rfl, ?_⟩
    by_cases hn : d = '\n'
    · subst hn
      simp only [lexLoopBytes_skip lexStep_newline]
      rfl
    · simp only [if_neg hn]
      rfl

variable {us : List Terminal}

theorem Piece.eq_nil_or_singleton (h : Piece cs us rest) : us = [] ∨ ∃ u, us = [u] := by
  cases h <;> simp

/-- **The lexer goes over one piece.** It panics where the text of its token does not exist; otherwise
the token is that of the rules, unless it is a name whose text is another one. -/
theorem lexLoopBytes_piece (h : Piece cs us rest) (hindex : index + cs.length = input.length) :
    (∃ u, us = [u] ∧ byteText input cs u = .error .panic) ∧
        lexLoopBytes input ⟨cs, index, position, line⟩ tokens = .error .panic ∨
      ∃ index' position' line' tokens', index' + rest.length = input.length ∧
        lexLoopBytes input ⟨cs, index, position, line⟩ tokens =
          lexLoopBytes input ⟨rest, index', position', line'⟩ (tokens ++ tokens') ∧
        tokens'.length = us.length ∧ (∀ u, us = [u] → ∃ text, byteText input cs u = .ok text) ∧
        (tokens'.map terminal = us ↔ ∀ s, us = [.name s] → byteText input cs (.name s) = .ok s) := by
  obtain rfl | ⟨u, rfl⟩ := h.eq_nil_or_singleton
  · obtain ⟨index', position', line', hindex', hloop⟩ := lexLoopBytes_blank h hindex
    exact .inr ⟨index', position', line', [], hindex', by rw [hloop, append_nil], rfl, by simp⟩
  obtain ⟨token, index', position', line', hindex', hterminal, hloop⟩ := lexLoopBytes_token h hindex
  rw [hloop]
  cases htext : byteText input cs u with
  | error =>
    obtain rfl := eq_panic_of_sliceBytes htext
    exact .inl ⟨⟨u, rfl, htext⟩, rfl⟩
  | ok text =>
    refine .inr ⟨index', position', line', [token.withChars text], hindex', rfl, rfl, ?_, ?_⟩
    · rintro u ⟨⟩
      exact ⟨text, htext⟩
    · rw [map_singleton, hterminal]
      cases u with
      | name =>
        simp only [Terminal.withText, List.cons.injEq, and_true, Terminal.name.injEq, forall_eq',
          htext, Except.ok.injEq]
      | _ => simp [Terminal.withText]

/-- **The last part of a file.** A name gets a text that is too short. -/
theorem lexLoopBytes_tail {e : Ending} (h : Tail e cs us) :
    lexLoopBytes input ⟨cs, index, position, line⟩ tokens = .error .panic ∧ e = .name ∨
      ∃ tokens', lexLoopBytes input ⟨cs, index, position, line⟩ tokens = .ok (tokens ++ tokens') ∧
        (tokens'.map terminal = us ++ [.endOfFile] ↔ e ≠ .name) := by
  cases h with
  | nil =>
    rw [lexLoopBytes]
    exact .inr ⟨_, rfl, by simp [terminal, TokenType.terminal]⟩
  | comment h =>
    rename_i body
    have hstep : lexStep input '/' ⟨'/' :: body, index, position, line⟩ =
        .ok (none, ⟨[], index + 1 + body.length, position + 1, line⟩) := by
      simp [lexStep, skipComment_of_notMem h]
    rw [lexLoopBytes_skip hstep, lexLoopBytes]
    exact .inr ⟨_, rfl, by simp [terminal, TokenType.terminal]⟩
  | name hc hbody =>
    rename_i c body
    have hname := @nameLoop_append input index (position + 1) line index (position + 1) _ hbody []
    have hend := @nameEnd_append [] index _ hbody
    rw [append_nil] at hname hend
    rw [lexLoopBytes_push (lexStep_name hc), hname, nameLoop, sliceEnd, if_pos hc, hend, nameEnd]
    cases hslice : sliceBytes input index (index + body.length) with
    | error =>
      rw [eq_panic_of_sliceBytes hslice]
      exact .inl ⟨rfl, rfl⟩
    | ok text =>
      have hlen := length_le_of_sliceBytes hslice
      rw [Except.bind, lexLoopBytes]
      refine .inr ⟨_, congrArg _ (append_assoc ..), ?_⟩
      refine iff_of_false (fun hmap => ?_) (by simp)
      have htext := Terminal.name.inj (List.cons.inj hmap).1
      rw [show text = _ from htext, String.length_ofList, length_cons] at hlen
      omega

end Loop

/-! ## Whole files -/

/-- The terminals before a place in a file, and the file from there on. -/
inductive Reads : List Char → List Terminal → List Char → Prop where
  | refl (cs : List Char) : Reads cs [] cs
  | head {cs mid rest : List Char} {us us' : List Terminal} (h : Piece cs us mid)
      (t : Reads mid us' rest) : Reads cs (us ++ us') rest

/-- Every slice that the lexer takes from `cs` on exists. -/
def Sliceable (input cs : List Char) : Prop :=
  ∀ us mid u rest, Reads cs us mid → Piece mid [u] rest → ∃ text, byteText input mid u = .ok text

/-- Where the file is spelled by the rules to its end, every name from `cs` on is the text that is taken for it. -/
def NamesRight (input cs : List Char) : Prop :=
  ∀ us mid s rest e us', Reads cs us mid → Piece mid [.name s] rest → Spells e rest us' →
    byteText input mid (.name s) = .ok s

/-- **What the tokens of a file should be.** There is no panic; a file that is lexed is spelled by the
rules, and the tokens are those of the rules, with the names' texts, and one for the end of the file. -/
def Right (input : List Char) : Except LexFailure (List Token) → Prop
  | .error .panic => False
  | .error (.error _) => True
  | .ok tokens => (∃ e us, Spells e input us) ∧
    ∀ e us, Spells e input us → tokens.map terminal = us ++ [.endOfFile]

section Files

variable {input cs mid rest : List Char} {us : List Terminal} {index position line : Nat}
  {tokens : List Token} {e : Ending}

theorem Reads.spells {us' : List Terminal} (h : Reads cs us rest) (t : Spells e rest us') :
    Spells e cs (us ++ us') := by
  induction h with
  | refl => exact t
  | head h _ ih =>
    rw [append_assoc]
    exact .piece h (ih t)

theorem Spells.exists_reads (h : Spells e cs us) :
    ∃ us1 rest us2, Reads cs us1 rest ∧ Tail e rest us2 ∧ us = us1 ++ us2 := by
  induction h with
  | tail h => exact ⟨[], _, _, .refl _, h, rfl⟩
  | piece h _ ih =>
    obtain ⟨us1, rest, us2, hreads, htail, rfl⟩ := ih
    exact ⟨_, rest, us2, .head h hreads, htail, (append_assoc ..).symm⟩

theorem Sliceable.tail (h : Sliceable input cs) (hpiece : Piece cs us rest) : Sliceable input rest :=
  fun _ _ _ _ hreads => h _ _ _ _ (.head hpiece hreads)

theorem NamesRight.tail (h : NamesRight input cs) (hpiece : Piece cs us rest) : NamesRight input rest :=
  fun _ _ _ _ _ _ hreads => h _ _ _ _ _ _ (.head hpiece hreads)

/-- **The lexer goes over pieces**, with a token for each terminal, or panics. -/
theorem lexLoopBytes_reads (h : Reads cs us rest) (hindex : index + cs.length = input.length) :
    lexLoopBytes input ⟨cs, index, position, line⟩ tokens = .error .panic ∨
      ∃ index' position' line' tokens', index' + rest.length = input.length ∧
        tokens'.length = us.length ∧ lexLoopBytes input ⟨cs, index, position, line⟩ tokens =
          lexLoopBytes input ⟨rest, index', position', line'⟩ (tokens ++ tokens') := by
  induction h generalizing index position line tokens with
  | refl => exact .inr ⟨index, position, line, [], hindex, rfl, by rw [append_nil]⟩
  | head hpiece _ ih =>
    rcases lexLoopBytes_piece hpiece hindex with
      ⟨-, h⟩ | ⟨index1, position1, line1, tokens1, hindex1, hloop1, hlen1, -⟩
    · exact .inl h
    · rw [hloop1]
      refine (ih hindex1).imp_right ?_
      rintro ⟨index2, position2, line2, tokens2, hindex2, hlen2, hloop2⟩
      refine ⟨index2, position2, line2, tokens1 ++ tokens2, hindex2, ?_, ?_⟩
      · rw [length_append, length_append, hlen1, hlen2]
      · rw [hloop2, append_assoc]

/-- **A file that is spelled by the rules** is lexed unless a slice panics. A name at its end is not right. -/
theorem lexLoopBytes_spells (h : Spells e cs us) (hindex : index + cs.length = input.length) :
    lexLoopBytes input ⟨cs, index, position, line⟩ tokens = .error .panic ∨
      ∃ tokens', lexLoopBytes input ⟨cs, index, position, line⟩ tokens = .ok (tokens ++ tokens') ∧
        (e = .name → tokens'.map terminal ≠ us ++ [.endOfFile]) := by
  obtain ⟨us1, rest, us2, hreads, htail, rfl⟩ := h.exists_reads
  rcases @lexLoopBytes_reads _ _ _ _ _ position line tokens hreads hindex with
    hpanic | ⟨index', position', line', tokens1, -, hlen, hloop⟩
  · exact .inl hpanic
  rw [hloop]
  rcases @lexLoopBytes_tail input _ index' position' line' (tokens ++ tokens1) _ _ htail with
    ⟨hpanic, -⟩ | ⟨tokens2, hok, hiff⟩
  · exact .inl hpanic
  refine .inr ⟨tokens1 ++ tokens2, by rw [hok, append_assoc], fun he hmap => ?_⟩
  rw [map_append, append_assoc] at hmap
  exact hiff.mp (append_inj hmap (by rw [length_map, hlen])).2 he

/-- **A file whose slices are right** has the tokens of the rules. -/
theorem lexLoopBytes_right (h : Spells e cs us) (he : e ≠ .name) (hslices : Sliceable input cs)
    (hnames : NamesRight input cs) (hindex : index + cs.length = input.length) :
    ∃ tokens', lexLoopBytes input ⟨cs, index, position, line⟩ tokens = .ok (tokens ++ tokens') ∧
      tokens'.map terminal = us ++ [.endOfFile] := by
  induction h generalizing index position line tokens with
  | tail h =>
    rcases @lexLoopBytes_tail input _ index position line tokens _ _ h with ⟨-, hname⟩ | ⟨tokens', hok, hiff⟩
    · exact absurd hname he
    · exact ⟨tokens', hok, hiff.mpr he⟩
  | @piece cs rest us us' hpiece hrest ih =>
    rcases lexLoopBytes_piece hpiece hindex with
      ⟨⟨u, rfl, hpanic⟩, -⟩ | ⟨index1, position1, line1, tokens1, hindex1, hloop1, -, -, hterminals⟩
    · obtain ⟨text, htext⟩ := hslices _ _ _ _ (.refl _) hpiece
      rw [hpanic] at htext
      cases htext
    · obtain ⟨tokens2, hok, hmap⟩ := ih (hslices.tail hpiece) (hnames.tail hpiece) hindex1
      have hname : ∀ s, us = [.name s] → byteText input cs (.name s) = .ok s := by
        rintro s rfl
        exact hnames _ _ _ _ _ _ (.refl _) hpiece hrest
      refine ⟨tokens1 ++ tokens2, by rw [hloop1, hok, append_assoc], ?_⟩
      rw [map_append, hmap, hterminals.mpr hname, append_assoc]

theorem lexLoopBytes_error_or_spells (h : Sliceable input cs) (hindex : index + cs.length = input.length) :
    (∃ message, lexLoopBytes input ⟨cs, index, position, line⟩ tokens = .error (.error message)) ∨
      ∃ e us, Spells e cs us := by
  induction hn : cs.length using Nat.strongRecOn generalizing cs index position line tokens with
  | ind n ih =>
    cases cs with
    | nil => exact .inr ⟨.plain, [], .tail .nil⟩
    | cons c cs =>
      cases hstep : lexStep input c ⟨cs, index, position, line⟩ with
      | error message =>
        refine .inl ⟨message, ?_⟩
        rw [lexLoopBytes_cons, lexStepBytes, hstep]
        rfl
      | ok =>
        rcases piece_or_tail_of_lexStep hstep with ⟨us, rest, hpiece⟩ | ⟨e, us, htail⟩
        · rcases lexLoopBytes_piece hpiece hindex with ⟨⟨u, rfl, hpanic⟩, -⟩ |
            ⟨index', position', line', tokens', hindex', hloop, -⟩
          · obtain ⟨text, htext⟩ := h _ _ _ _ (.refl _) hpiece
            rw [hpanic] at htext
            cases htext
          · rw [hloop]
            refine (ih rest.length (hn ▸ hpiece.length_lt) (h.tail hpiece) hindex' rfl).imp_right ?_
            rintro ⟨e, us', hspells⟩
            exact ⟨e, us ++ us', .piece hpiece hspells⟩
        · exact .inr ⟨e, us, .tail htail⟩

end Files

/-- **When the lexer is right**: just when every slice that it takes exists, the file does not end within a
name, and in a file that it lexes to the end each name is the text between the bytes whose numbers are
those of its characters. -/
theorem lexInputBytes_right_iff (input : List Char) : Right input (lexInputBytes input) ↔
    Sliceable input input ∧ (∀ us, ¬ Spells .name input us) ∧ NamesRight input input := by
  have hindex : 0 + input.length = input.length := Nat.zero_add _
  constructor
  · intro hright
    have hpanic : lexInputBytes input ≠ .error .panic := fun h => by
      rw [h] at hright
      exact hright
    -- at every place that the lexer gets to it goes over the piece that is there
    have hstep : ∀ {us us' mid rest}, Reads input us mid → Piece mid us' rest →
        ∃ index position line tokens tokens', index + rest.length = input.length ∧
          lexInputBytes input = lexLoopBytes input ⟨rest, index, position, line⟩ (tokens ++ tokens') ∧
          tokens.length = us.length ∧ tokens'.length = us'.length ∧
          (∀ u, us' = [u] → ∃ text, byteText input mid u = .ok text) ∧
          (tokens'.map terminal = us' ↔ ∀ s, us' = [.name s] → byteText input mid (.name s) = .ok s) := by
      intro us us' mid rest hreads hpiece
      rcases lexLoopBytes_reads hreads hindex with h | ⟨index₁, position₁, line₁, tokens, hindex₁, hlen, hloop⟩
      · exact absurd h hpanic
      rcases lexLoopBytes_piece hpiece hindex₁ with
        ⟨-, h⟩ | ⟨index₂, position₂, line₂, tokens', hindex₂, hloop₂, hrest⟩
      · exact absurd (hloop.trans h) hpanic
      · exact ⟨index₂, position₂, line₂, tokens, tokens', hindex₂, hloop.trans hloop₂, hlen, hrest⟩
    have hok : ∀ {tokens}, lexInputBytes input = .ok tokens → ∀ e us, Spells e input us →
        tokens.map terminal = us ++ [.endOfFile] := fun h => by
      rw [h] at hright
      exact hright.2
    refine ⟨fun us mid u rest hreads hpiece => ?_, fun us hname => ?_,
      fun us mid s rest e us' hreads hpiece hspells => ?_⟩
    · obtain ⟨_, _, _, _, _, -, -, -, -, htext, -⟩ := hstep hreads hpiece
      exact htext u rfl
    · rcases lexLoopBytes_spells hname hindex with h | ⟨tokens, h, hne⟩
      · exact hpanic h
      · exact hne rfl (hok h _ _ hname)
    obtain ⟨index, position, line, tokens, tokens', hindex', hloop, hlen, hlen', -, hiff⟩ :=
      hstep hreads hpiece
    rcases lexLoopBytes_spells hspells hindex' with h | ⟨tokens₂, h, -⟩
    · exact absurd (hloop.trans h) hpanic
    have hmap := hok (hloop.trans h) _ _ (hreads.spells (.piece hpiece hspells))
    simp only [append_assoc, map_append] at hmap
    have hmap := (append_inj hmap (by rw [length_map, hlen])).2
    exact hiff.mp (append_inj hmap (by rw [length_map, hlen'])).1 s rfl
  · rintro ⟨hslices, hname, hnames⟩
    rcases lexLoopBytes_error_or_spells hslices hindex with ⟨message, h⟩ | ⟨e, us, hspells⟩
    · rw [lexInputBytes, h]
      trivial
    have hall : ∀ e us, Spells e input us → ∃ tokens, lexInputBytes input = .ok tokens ∧
        tokens.map terminal = us ++ [.endOfFile] := fun e us h =>
      lexLoopBytes_right h (fun he => hname us (he ▸ h)) hslices hnames hindex
    obtain ⟨tokens, h, -⟩ := hall e us hspells
    rw [h]
    refine ⟨⟨e, us, hspells⟩, fun e' us' h' => ?_⟩
    obtain ⟨tokens', hok, hmap⟩ := hall e' us' h'
    cases hok.symm.trans h
    exact hmap

/-- A name at the end of a file loses its last character, and after a comment with characters of two bytes
the slice of a symbol panics. -/
theorem lexInputBytes_wrong : lexInputBytes "ab".toList = .ok [⟨.name, 1, 1, 3, "a"⟩, ⟨.endOfFile, 1, 2, 2, "EOF"⟩] ∧
      Spells .name "ab".toList [.name "ab"] ∧ ¬ Right "ab".toList (lexInputBytes "ab".toList) ∧
      lexInputBytes "//éé\n;".toList = .error .panic ∧
      ¬ Right "//éé\n;".toList (lexInputBytes "//éé\n;".toList) := by
  have hname : lexInputBytes "ab".toList = .ok [⟨.name, 1, 1, 3, "a"⟩, ⟨.endOfFile, 1, 2, 2, "EOF"⟩] := by
    decide +kernel
  have hpanic : lexInputBytes "//éé\n;".toList = .error .panic := by decide +kernel
  have hspells : Spells .name "ab".toList [.name "ab"] :=
    .tail (@Tail.name 'a' ['b'] (by decide) (forall_mem_singleton.mpr (by decide)))
  refine ⟨hname, hspells, fun h => ?_, hpanic, fun h => ?_⟩
  · rw [hname] at h
    exact absurd (h.2 _ _ hspells) (by decide)
  · rw [hpanic] at h
    exact h

end Acadia.Yunq.Compiler
