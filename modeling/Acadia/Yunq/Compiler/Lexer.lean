import Mathlib.Data.List.Basic

/-! # The lexer of the Rust yunq compiler

`yunq/rust/src/lexer.rs`. The lexer goes over the characters of a file with three counters: `index`, the number
of characters before the current one, `position`, the place in the current line, and `line`. A token's text is a
slice of the input between two values of `index`: here between characters, in Rust between bytes (`LexerBytes`),
which is the same in an ASCII file. -/

namespace Acadia.Yunq.Compiler

/-- The kinds of tokens. -/
inductive TokenType where
  | endOfFile
  | name
  | leftBrace
  | rightBrace
  | leftParen
  | rightParen
  | arrow
  | semicolon
  | dot
  | equals
  deriving DecidableEq

/-- A kind of tokens, as `Debug` prints it. -/
def TokenType.debug : TokenType → String
  | .endOfFile => "EndOfFile"
  | .name => "Name"
  | .leftBrace => "LeftBrace"
  | .rightBrace => "RightBrace"
  | .leftParen => "LeftParen"
  | .rightParen => "RightParen"
  | .arrow => "Arrow"
  | .semicolon => "Semicolon"
  | .dot => "Dot"
  | .equals => "Equals"

/-- A token, and where it stands in the file. -/
structure Token where
  tokenType : TokenType
  line : Nat
  start : Nat
  stop : Nat
  chars : String
  deriving DecidableEq

/-- A token, as `Display` prints it. -/
def Token.display (token : Token) : String :=
  "'" ++ token.chars ++ "' at line " ++ toString token.line ++ " position " ++
    toString token.start ++ " "

/-! ## Characters -/

/-- The letters `a..z` and `A..Z`, with which a name starts. -/
def isNameStart (c : Char) : Bool := c.isAlpha

/-- The characters with which a name goes on. -/
def isNameChar (c : Char) : Bool := c.isAlphanum || c = '_'

/-- The tokens that are one character. -/
def punctuation : Char → Option TokenType
  | '{' => some .leftBrace
  | '}' => some .rightBrace
  | '(' => some .leftParen
  | ')' => some .rightParen
  | ';' => some .semicolon
  | '.' => some .dot
  | '=' => some .equals
  | _ => none

/-! ## The loops -/

/-- The text `input[first..last]`. -/
def slice (input : List Char) (first last : Nat) : String :=
  String.ofList ((input.drop first).take (last - first))

/-- The variables of `lex_input`: what is left of the characters, and the counters. -/
structure Scan where
  chars : List Char
  index : Nat
  position : Nat
  line : Nat
  deriving DecidableEq

/-- The loop over the characters of a comment, up to the end of its line or of the file. -/
def skipComment : List Char → (index position line : Nat) → Scan
  | [], index, position, line => ⟨[], index, position, line⟩
  | c :: cs, index, position, line =>
    if c = '\n' then ⟨cs, index + 1, 0, line + 1⟩
    else skipComment cs (index + 1) position line

/-- The loop over the further characters of a name, and the token for it. A name at the end of the file
is cut off before its last character. -/
def nameLoop (input : List Char) (nameStart posStart : Nat) :
    List Char → (index position line : Nat) → Token × Scan
  | [], index, position, line =>
    (⟨.name, line, posStart, position + 1, slice input nameStart index⟩,
      ⟨[], index, position, line⟩)
  | c :: cs, index, position, line =>
    if isNameChar c then nameLoop input nameStart posStart cs (index + 1) (position + 1) line
    else
      let token : Token :=
        ⟨.name, line, posStart, position + 1, slice input nameStart (index + 1)⟩
      -- A newline is taken along with the name.
      if c = '\n' then (token, ⟨cs, index + 1, 0, line + 1⟩)
      else (token, ⟨c :: cs, index, position, line⟩)

/-- The body of `lex_input`'s loop, from after `chars.next()` gave `c`: the token that it pushes, if
any, and the variables before the final `index += 1`. -/
def lexStep (input : List Char) (c : Char) : Scan → Except String (Option Token × Scan)
  | ⟨cs, index, position, line⟩ =>
    let position := position + 1
    if c = '\n' then .ok (none, ⟨cs, index, 0, line + 1⟩)
    else if c = ' ' ∨ c = '\t' ∨ c = '\r' then .ok (none, ⟨cs, index, position, line⟩)
    else if c = '/' then
      match cs with
      | '/' :: cs => .ok (none, skipComment cs (index + 1) position line)
      | _ => .error ("Unexpected token '/' at line " ++ toString line ++ " position " ++
        toString position)
    else if c = '-' then
      match cs with
      | '>' :: cs =>
        .ok (some ⟨.arrow, line, position + 1 - 1, position + 1 + 1, slice input index (index + 1)⟩,
          ⟨cs, index + 1, position + 1, line⟩)
      | d :: _ => .error ("Expected > to follow - (to form arrow '->') on line " ++ toString line ++
        " at position " ++ toString (position + 1) ++ ". But got '" ++ d.toString ++ "'")
      | [] => .error ("Expected > to follow - but got end of input instead on line " ++
        toString line ++ " position " ++ toString position)
    else
      match punctuation c with
      | some type =>
        .ok (some ⟨type, line, position, position + 1, slice input index (index + 1)⟩,
          ⟨cs, index, position, line⟩)
      | none =>
        if isNameStart c then
          let (token, scan) := nameLoop input index position cs index position line
          .ok (some token, scan)
        else .error ("Unexpected token on line " ++ toString line ++ " character " ++
          toString position ++ ": " ++ c.toString)

theorem length_skipComment (cs : List Char) (index position line : Nat) :
    (skipComment cs index position line).chars.length ≤ cs.length := by
  induction cs generalizing index with
  | nil => simp [skipComment]
  | cons c cs ih =>
    rw [skipComment]
    split
    · simp
    · exact Nat.le_succ_of_le (ih (index + 1))

theorem length_nameLoop (input : List Char) (nameStart posStart : Nat) (cs : List Char) (index position line : Nat) :
    (nameLoop input nameStart posStart cs index position line).2.chars.length ≤ cs.length := by
  induction cs generalizing index position with
  | nil => simp [nameLoop]
  | cons c cs ih =>
    rw [nameLoop]
    split
    · exact Nat.le_succ_of_le (ih (index + 1) (position + 1))
    · split <;> simp

theorem length_lexStep {input : List Char} {c : Char} {s s' : Scan} {token : Option Token}
    (h : lexStep input c s = .ok (token, s')) : s'.chars.length ≤ s.chars.length := by
  obtain ⟨cs, index, position, line⟩ := s
  simp only [lexStep] at h
  split at h
  · cases h
    exact Nat.le_refl _
  split at h
  · cases h
    exact Nat.le_refl _
  split at h
  · split at h
    · rename_i cs'
      cases h
      exact Nat.le_succ_of_le (length_skipComment cs' _ _ _)
    · cases h
  split at h
  · split at h
    · cases h
      exact Nat.le_succ _
    all_goals cases h
  · split at h
    · cases h
      exact Nat.le_refl _
    · split at h
      · cases h
        exact length_nameLoop input _ _ cs _ _ _
      · cases h

end Acadia.Yunq.Compiler
