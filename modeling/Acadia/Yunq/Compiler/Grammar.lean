import Acadia.Foundations.Descent
import Acadia.Yunq.Compiler.Parser

/-! # The grammar of yunq files

The rules of the language of yunq files, as relations between lists of terminals and syntax trees. The Rust
parser reads exactly this language: it never goes past the end of the tokens, accepts a token list if and only
if the list has a derivation, and returns the tree of that derivation. -/

namespace Acadia.Yunq.Compiler

open Command List Token

/-! ## Rules -/

/-- The terminals of the grammar. -/
inductive Terminal where
  | endOfFile
  | name (chars : String)
  | leftBrace
  | rightBrace
  | leftParen
  | rightParen
  | arrow
  | semicolon
  | dot
  | equals
  deriving DecidableEq

/-- The terminal of a kind of tokens with a text. -/
def TokenType.terminal (chars : String) : TokenType → Terminal
  | .endOfFile => .endOfFile
  | .name => .name chars
  | .leftBrace => .leftBrace
  | .rightBrace => .rightBrace
  | .leftParen => .leftParen
  | .rightParen => .rightParen
  | .arrow => .arrow
  | .semicolon => .semicolon
  | .dot => .dot
  | .equals => .equals

/-- The terminal that a token stands for. Only the text of a name matters. -/
def Token.terminal (token : Token) : Terminal := token.tokenType.terminal token.chars

/-- `field := [repeated] NAME NAME ;`, where a first name `repeated` is always the modifier. -/
inductive FieldRule (number : Nat) : List Terminal → Field → Prop where
  | plain (type name : String) (h : type ≠ "repeated") :
      FieldRule number [.name type, .name name, .semicolon]
        ⟨⟨false, innerTypeOf type⟩, name, number⟩
  | repeated (type name : String) :
      FieldRule number [.name "repeated", .name type, .name name, .semicolon]
        ⟨⟨true, innerTypeOf type⟩, name, number⟩

/-- `[NAME]` -/
def optionalName : Option String → List Terminal
  | none => []
  | some name => [.name name]

/-- `method := method NAME ( [NAME] ) -> ( [NAME] ) ;` -/
inductive MethodRule (number : Nat) : List Terminal → Method → Prop where
  | method (name : String) (request response : Option String) :
      MethodRule number
        ([.name "method", .name name, .leftParen] ++ (optionalName request ++
          ([.rightParen, .arrow, .leftParen] ++ (optionalName response ++ [.rightParen, .semicolon]))))
        ⟨name, number, request, response⟩

/-- `. NAME` -/
def DottedName (us : List Terminal) (name : String) : Prop := us = [.dot, .name name]

/-- `decl := package NAME (. NAME)* ; | message NAME { field* } | interface NAME { method* }`, with the
fields and the methods numbered from `0` on. -/
inductive DeclRule : List Terminal → Decl → Prop where
  | package {us : List Terminal} {names : List String} (first : String)
      (h : Many DottedName us names) :
      DeclRule ([.name "package", .name first] ++ (us ++ [.semicolon])) (.package (first :: names))
  | message {us : List Terminal} {fields : List Field} (name : String)
      (h : Numbered FieldRule 0 us fields) :
      DeclRule ([.name "message", .name name, .leftBrace] ++ (us ++ [.rightBrace]))
        (.message ⟨name, fields⟩)
  | interface {us : List Terminal} {methods : List Method} (name : String)
      (h : Numbered MethodRule 0 us methods) :
      DeclRule ([.name "interface", .name name, .leftBrace] ++ (us ++ [.rightBrace]))
        (.interface ⟨name, methods⟩)

/-- `file := decl*` -/
def FileRule (us : List Terminal) (decls : List Decl) : Prop := Many DeclRule us decls

/-! ## Tokens -/

variable {token : Token}

theorem terminal_eq_name_iff {s : String} : token.terminal = .name s ↔ token.tokenType = .name ∧ token.chars = s := by
  unfold terminal
  cases token.tokenType <;> simp [TokenType.terminal]

variable {t : TokenType}

theorem terminal_eq_iff (ht : t ≠ .name) : token.terminal = t.terminal "" ↔ token.tokenType = t := by
  unfold terminal
  cases token.tokenType <;> cases t <;> simp_all [TokenType.terminal]

variable {ts rest used : List Token}

theorem consumeTokenType_eq_ok_iff :
    consumeTokenType t ts = (.ok token, rest) ↔ ts = token :: rest ∧ token.tokenType = t := by
  unfold consumeTokenType
  rw [bind_eq_ok_iff]
  cases ts with
  | nil => simp [consumeToken]
  | cons t' ts =>
    simp only [consumeToken, Prod.mk.injEq, Except.ok.injEq, List.cons.injEq]
    constructor
    · rintro ⟨a, s', ⟨rfl, rfl⟩, h⟩
      split_ifs at h with ht
      · simp only [pure_apply, Prod.mk.injEq, Except.ok.injEq] at h
        obtain ⟨rfl, rfl⟩ := h
        exact ⟨⟨rfl, rfl⟩, ht⟩
      · simp at h
    · rintro ⟨⟨rfl, rfl⟩, rfl⟩
      exact ⟨t', ts, ⟨rfl, rfl⟩, by simp⟩

theorem consumeIdentifier_eq_ok_iff :
    consumeIdentifier ts = (.ok token, rest) ↔ ts = token :: rest ∧ token.tokenType = .name :=
  consumeTokenType_eq_ok_iff

theorem consumeKeyword_eq_ok_iff {keyword : String} : consumeKeyword keyword ts = (.ok token, rest) ↔
      ts = token :: rest ∧ token.tokenType = .name ∧ token.chars = keyword := by
  unfold consumeKeyword
  simp only [bind_eq_ok_iff, consumeTokenType_eq_ok_iff]
  constructor
  · rintro ⟨a, s', ⟨rfl, hname⟩, h⟩
    split_ifs at h with hkey
    · simp at h
    · simp only [pure_apply, Prod.mk.injEq, Except.ok.injEq] at h
      obtain ⟨rfl, rfl⟩ := h
      exact ⟨rfl, hname, not_not.mp hkey⟩
  · rintro ⟨rfl, hname, rfl⟩
    exact ⟨token, rest, ⟨rfl, hname⟩, by simp⟩

/-! ## Fields -/

theorem fieldTypeFrom_eq_ok_iff {first : Token} {r : Bool × Token} : fieldTypeFrom first ts = (.ok r, rest) ↔
      (first.chars = "repeated" ∧ r.1 = true ∧ ts = r.2 :: rest ∧ r.2.tokenType = .name) ∨
        (first.chars ≠ "repeated" ∧ r = (false, first) ∧ ts = rest) := by
  unfold fieldTypeFrom
  split_ifs with h
  · simp only [bind_eq_ok_iff, consumeIdentifier_eq_ok_iff, pure_apply]
    constructor
    · rintro ⟨a, s', ⟨rfl, hname⟩, hr⟩
      cases hr
      exact Or.inl ⟨h, rfl, rfl, hname⟩
    · rintro (⟨_, hr, rfl, hname⟩ | ⟨hne, _⟩)
      · exact ⟨r.2, rest, ⟨rfl, hname⟩, by rw [← hr]⟩
      · exact absurd h hne
  · constructor
    · intro hr
      cases hr
      exact Or.inr ⟨h, rfl, rfl⟩
    · rintro (⟨hrep, _⟩ | ⟨_, rfl, rfl⟩)
      · exact absurd hrep h
      · rfl

/-- **The parser of a field reads the rule of fields.** -/
theorem field_reads (number : Nat) : Reads terminal (field number) (FieldRule number) := by
  intro ts f rest
  simp only [field, bind_eq_ok_iff, consumeIdentifier_eq_ok_iff, consumeTokenType_eq_ok_iff,
    fieldTypeFrom_eq_ok_iff, pure_apply, Prod.mk.injEq, Except.ok.injEq]
  constructor
  · rintro ⟨first, ts1, ⟨rfl, hfirst⟩, r, ts2, hr, name, ts3, ⟨rfl, hname⟩, semi, ts4, ⟨rfl, hsemi⟩,
      rfl, rfl⟩
    have hn := terminal_eq_name_iff.mpr ⟨hname, rfl⟩
    have hs := (terminal_eq_iff (by decide)).mpr hsemi
    rcases hr with ⟨hrep, hr, rfl, htype⟩ | ⟨hrep, rfl, rfl⟩
    · have ht := terminal_eq_name_iff.mpr ⟨htype, rfl⟩
      refine ⟨[first, r.2, name, semi], rfl, ?_⟩
      simp only [map_cons, map_nil, terminal_eq_name_iff.mpr ⟨hfirst, hrep⟩, ht, hn, hs, hr]
      exact FieldRule.repeated ..
    · refine ⟨[first, name, semi], rfl, ?_⟩
      simp only [map_cons, map_nil, terminal_eq_name_iff.mpr ⟨hfirst, rfl⟩, hn, hs]
      exact FieldRule.plain first.chars name.chars hrep
  rintro ⟨used, rfl, hrule⟩
  generalize hu : used.map terminal = us at hrule
  cases hrule with
  | plain _ _ h =>
    simp only [map_eq_cons_iff, map_eq_nil_iff, terminal_eq_name_iff] at hu
    obtain ⟨t1, _, rfl, ⟨h1, rfl⟩, t2, _, rfl, ⟨h2, rfl⟩, t3, _, rfl, h3, rfl⟩ := hu
    exact ⟨t1, _, ⟨rfl, h1⟩, (false, t1), _, Or.inr ⟨h, rfl, rfl⟩, t2, _, ⟨rfl, h2⟩, t3, _,
      ⟨rfl, (terminal_eq_iff (by decide)).mp h3⟩, rfl, rfl⟩
  | repeated =>
    simp only [map_eq_cons_iff, map_eq_nil_iff, terminal_eq_name_iff] at hu
    obtain ⟨t0, _, rfl, ⟨h0, hrep⟩, t1, _, rfl, ⟨h1, rfl⟩, t2, _, rfl, ⟨h2, rfl⟩, t3, _, rfl, h3,
      rfl⟩ := hu
    exact ⟨t0, _, ⟨rfl, h0⟩, (true, t1), _, Or.inl ⟨hrep, rfl, rfl, h1⟩, t2, _, ⟨rfl, h2⟩, t3, _,
      ⟨rfl, (terminal_eq_iff (by decide)).mp h3⟩, rfl, rfl⟩

/-! ## Methods -/

theorem optionalIdentifier_eq_ok_iff {r : Option String} : optionalIdentifier ts = (.ok r, rest) ↔
      (∃ token, ts = token :: rest ∧ token.tokenType = .name ∧ r = some token.chars) ∨
        (nextTypeIs .name ts = false ∧ r = none ∧ ts = rest) := by
  unfold optionalIdentifier
  rw [bind_gets]
  cases hname : nextTypeIs .name ts with
  | true =>
    simp only [if_true, bind_eq_ok_iff, consumeIdentifier_eq_ok_iff, pure_apply]
    constructor
    · rintro ⟨a, s', ⟨rfl, ha⟩, hr⟩
      cases hr
      exact Or.inl ⟨a, rfl, ha, rfl⟩
    · rintro (⟨token, rfl, ht, rfl⟩ | ⟨hne, _⟩)
      · exact ⟨token, rest, ⟨rfl, ht⟩, rfl⟩
      · cases hne
  | false =>
    simp only [Bool.false_eq_true, if_false, pure_apply, Prod.mk.injEq, Except.ok.injEq]
    constructor
    · rintro ⟨rfl, rfl⟩
      exact Or.inr ⟨trivial, rfl, rfl⟩
    · rintro (⟨token, rfl, ht, _⟩ | ⟨_, rfl, rfl⟩)
      · simp [nextTypeIs, ht] at hname
      · exact ⟨rfl, rfl⟩

/-- A request or a response, and the parenthesis after it: what follows an optional name decides
whether there is one. -/
theorem optionalIdentifier_then_rightParen {r : Option String} {p : Token} :
    (∃ ts1, optionalIdentifier ts = (.ok r, ts1) ∧ ts1 = p :: rest ∧ p.tokenType = .rightParen) ↔
      ∃ used, ts = used ++ p :: rest ∧ used.map terminal = optionalName r ∧ p.tokenType = .rightParen := by
  constructor
  · rintro ⟨ts1, hr, rfl, hp⟩
    rcases optionalIdentifier_eq_ok_iff.mp hr with ⟨token, rfl, ht, rfl⟩ | ⟨_, rfl, rfl⟩
    · refine ⟨[token], rfl, ?_, hp⟩
      simp only [map_cons, map_nil, optionalName, terminal_eq_name_iff.mpr ⟨ht, rfl⟩]
    · exact ⟨[], rfl, rfl, hp⟩
  rintro ⟨used, rfl, hused, hp⟩
  refine ⟨p :: rest, optionalIdentifier_eq_ok_iff.mpr ?_, rfl, hp⟩
  cases r with
  | none =>
    rw [optionalName, map_eq_nil_iff] at hused
    subst hused
    refine Or.inr ⟨?_, rfl, rfl⟩
    simp [nextTypeIs, hp]
  | some =>
    simp only [optionalName, map_eq_cons_iff, map_eq_nil_iff, terminal_eq_name_iff] at hused
    obtain ⟨token, _, rfl, ⟨ht, rfl⟩, rfl⟩ := hused
    exact Or.inl ⟨token, rfl, ht, rfl⟩

/-- **The parser of a method reads the rule of methods.** -/
theorem method_reads (number : Nat) : Reads terminal (method number) (MethodRule number) := by
  intro ts m rest
  simp only [method, bind_eq_ok_iff, consumeIdentifier_eq_ok_iff, consumeTokenType_eq_ok_iff,
    consumeKeyword_eq_ok_iff, pure_apply, Prod.mk.injEq, Except.ok.injEq]
  constructor
  · rintro ⟨key, _, ⟨rfl, hkey, hmethod⟩, name, _, ⟨rfl, hname⟩, left, _, ⟨rfl, hleft⟩, request, ts1,
      hreq, right, ts2, ⟨hts1, hright⟩, arrow, ts3, ⟨rfl, harrow⟩, left', ts4, ⟨rfl, hleft'⟩, response,
      ts5, hresp, right', ts6, ⟨hts5, hright'⟩, semi, ts7, ⟨rfl, hsemi⟩, rfl, rfl⟩
    obtain ⟨used, rfl, hused, -⟩ := optionalIdentifier_then_rightParen.mp ⟨ts1, hreq, hts1, hright⟩
    obtain ⟨used', rfl, hused', -⟩ :=
      optionalIdentifier_then_rightParen.mp ⟨ts5, hresp, hts5, hright'⟩
    refine ⟨[key, name, left] ++ (used ++ ([right, arrow, left'] ++ (used' ++ [right', semi]))), ?_, ?_⟩
    · simp
    have h1 := (terminal_eq_iff (by decide)).mpr hleft
    have h2 := (terminal_eq_iff (by decide)).mpr hright
    have h3 := (terminal_eq_iff (by decide)).mpr harrow
    have h4 := (terminal_eq_iff (by decide)).mpr hleft'
    have h5 := (terminal_eq_iff (by decide)).mpr hright'
    have h6 := (terminal_eq_iff (by decide)).mpr hsemi
    simp only [map_append, map_cons, map_nil,
      terminal_eq_name_iff.mpr ⟨hkey, hmethod⟩, terminal_eq_name_iff.mpr ⟨hname, rfl⟩, h1, h2, h3, h4,
      h5, h6, hused, hused']
    exact MethodRule.method ..
  rintro ⟨used, rfl, hrule⟩
  generalize hu : used.map terminal = us at hrule
  cases hrule with
  | method _ request response =>
    simp only [map_eq_append_iff, map_eq_cons_iff, map_eq_nil_iff, terminal_eq_name_iff] at hu
    obtain ⟨_, _, rfl, ⟨t1, _, rfl, ⟨h1, hmethod⟩, t2, _, rfl, ⟨h2, rfl⟩, t3, _, rfl, h3, rfl⟩, req,
      _, rfl, hreq, _, _, rfl, ⟨t4, _, rfl, h4, t5, _, rfl, h5, t6, _, rfl, h6, rfl⟩, resp, _, rfl,
      hresp, t7, _, rfl, h7, t8, _, rfl, h8, rfl⟩ := hu
    have h₃' := (terminal_eq_iff (t := .leftParen) (by decide)).mp h3
    have h₄' := (terminal_eq_iff (t := .rightParen) (by decide)).mp h4
    have h₅' := (terminal_eq_iff (t := .arrow) (by decide)).mp h5
    have h₆' := (terminal_eq_iff (t := .leftParen) (by decide)).mp h6
    have h₇' := (terminal_eq_iff (t := .rightParen) (by decide)).mp h7
    have h₈' := (terminal_eq_iff (t := .semicolon) (by decide)).mp h8
    obtain ⟨_, hresp', rfl, -⟩ := optionalIdentifier_then_rightParen.mpr
      ⟨resp, (rfl : resp ++ t7 :: t8 :: rest = _), hresp, h₇'⟩
    obtain ⟨_, hreq', rfl, -⟩ := optionalIdentifier_then_rightParen.mpr
      ⟨req, (rfl : req ++ t4 :: t5 :: t6 :: (resp ++ t7 :: t8 :: rest) = _), hreq, h₄'⟩
    simp only [append_assoc, cons_append, nil_append]
    exact ⟨t1, _, ⟨rfl, h1, hmethod⟩, t2, _, ⟨rfl, h2⟩, t3, _, ⟨rfl, h₃'⟩, request, _, hreq', t4, _,
      ⟨rfl, h₄'⟩, t5, _, ⟨rfl, h₅'⟩, t6, _, ⟨rfl, h₆'⟩, response, _, hresp', t7, _, ⟨rfl, h₇'⟩, t8, _,
      ⟨rfl, h₈'⟩, rfl, rfl⟩

/-! ## Loops -/

variable {us : List Terminal}

theorem nextTypeIs_append_of_name {s : String} (ht : t ≠ .name)
    (h : used.map terminal = .name s :: us) : nextTypeIs t (used ++ rest) = false := by
  obtain ⟨token, used', rfl, htoken, -⟩ := map_eq_cons_iff.mp h
  have hname := (terminal_eq_name_iff.mp htoken).1
  simp [nextTypeIs, hname, ht.symm]

theorem FieldRule.exists_name {number : Nat} {f : Field} (h : FieldRule number us f) :
    ∃ s us', us = .name s :: us' := by
  cases h with
  | plain type _ _ => exact ⟨type, _, rfl⟩
  | repeated => exact ⟨"repeated", _, rfl⟩

theorem MethodRule.exists_name {number : Nat} {m : Method} (h : MethodRule number us m) :
    ∃ s us', us = .name s :: us' := by
  cases h with
  | method => exact ⟨"method", _, rfl⟩

variable {d : Decl}

theorem DeclRule.exists_name (h : DeclRule us d) : ∃ s us', us = .name s :: us' := by
  cases h with
  | package => exact ⟨"package", _, rfl⟩
  | message => exact ⟨"message", _, rfl⟩
  | interface => exact ⟨"interface", _, rfl⟩

/-! ## Declarations -/

theorem DottedName.nextTypeIs {name : String} (h : DottedName (used.map terminal) name) :
    nextTypeIs .dot (used ++ rest) = true := by
  obtain ⟨token, used', rfl, htoken, -⟩ := map_eq_cons_iff.mp h
  simpa [Compiler.nextTypeIs] using (terminal_eq_iff (t := .dot) (by decide)).mp htoken

theorem dottedName_reads : Reads terminal dottedName DottedName := by
  intro ts name rest
  simp only [dottedName, bind_eq_ok_iff, consumeIdentifier_eq_ok_iff, consumeTokenType_eq_ok_iff,
    pure_apply, Prod.mk.injEq, Except.ok.injEq, DottedName]
  constructor
  · rintro ⟨dot, _, ⟨rfl, hdot⟩, token, _, ⟨rfl, htoken⟩, rfl, rfl⟩
    refine ⟨[dot, token], rfl, ?_⟩
    simp only [map_cons, map_nil, terminal_eq_name_iff.mpr ⟨htoken, rfl⟩,
      (terminal_eq_iff (t := .dot) (by decide)).mpr hdot]
    rfl
  · rintro ⟨used, rfl, hu⟩
    simp only [map_eq_cons_iff, map_eq_nil_iff, terminal_eq_name_iff] at hu
    obtain ⟨t1, _, rfl, h1, t2, _, rfl, ⟨h2, rfl⟩, rfl⟩ := hu
    exact ⟨t1, _, ⟨rfl, (terminal_eq_iff (t := .dot) (by decide)).mp h1⟩, t2, _, ⟨rfl, h2⟩, rfl, rfl⟩

theorem packageLoop_eq_ok_iff {first : String} {names : List String} :
    whileLoop List.length (nextTypeIs .dot) packageRound shrinks_packageRound [first] ts = (.ok names, rest) ↔
      nextTypeIs .dot rest = false ∧ ∃ used names', ts = used ++ rest ∧
        Many DottedName (used.map terminal) names' ∧ names = [first] ++ names' :=
  whileLoop_reads_many (fun _ => rfl) dottedName_reads fun _ _ _ h => h.nextTypeIs

theorem package_eq_ok_iff : package ts = (.ok d, rest) ↔ ∃ used, ts = used ++ rest ∧
      DeclRule (.name "package" :: used.map terminal) d := by
  simp only [package, bind_eq_ok_iff, consumeIdentifier_eq_ok_iff, consumeTokenType_eq_ok_iff,
    packageLoop_eq_ok_iff, pure_apply, Prod.mk.injEq, Except.ok.injEq]
  constructor
  · rintro ⟨first, _, ⟨rfl, hfirst⟩, names, _, ⟨_, used, names', rfl, hmany, rfl⟩, semi, _, ⟨rfl, hsemi⟩, rfl, rfl⟩
    refine ⟨[first] ++ (used ++ [semi]), by simp, ?_⟩
    simp only [map_append, map_cons, map_nil, terminal_eq_name_iff.mpr ⟨hfirst, rfl⟩,
      (terminal_eq_iff (t := .semicolon) (by decide)).mpr hsemi]
    exact DeclRule.package first.chars hmany
  rintro ⟨used, rfl, hrule⟩
  generalize hu : Terminal.name "package" :: used.map terminal = us at hrule
  cases hrule with
  | package _ h =>
    simp only [cons_append, nil_append, List.cons.injEq, true_and, map_eq_append_iff, map_eq_cons_iff, map_eq_nil_iff,
      terminal_eq_name_iff] at hu
    obtain ⟨t1, _, rfl, ⟨h1, rfl⟩, used, _, rfl, rfl, t2, _, rfl, h2, rfl⟩ := hu
    have h₂' := (terminal_eq_iff (t := .semicolon) (by decide)).mp h2
    refine ⟨t1, _, ⟨rfl, h1⟩, _, t2 :: rest, ⟨?_, used, _, ?_, h, rfl⟩, t2, _, ⟨rfl, h₂'⟩, rfl, rfl⟩
    · simp [nextTypeIs, h₂']
    · simp
  | message | interface => simp at hu

variable {α : Type}

theorem braced_eq_ok_iff {item : Nat → Parser α} {h : ∀ n, Shrinks List.length (item n)} {make : String → List α → Decl}
    {rule : Nat → List Terminal → α → Prop} (hitem : ∀ n, Reads terminal (item n) (rule n))
    (hname : ∀ n us a, rule n us a → ∃ s us', us = .name s :: us') :
    braced item h make ts = (.ok d, rest) ↔ ∃ used us name items, ts = used ++ rest ∧
      used.map terminal = [.name name, .leftBrace] ++ (us ++ [.rightBrace]) ∧
        Numbered rule 0 us items ∧ d = make name items := by
  have hloop : ∀ b ts rest, whileLoop List.length (fun ts => !nextTypeIs .rightBrace ts)
      (numberedRound item) (shrinks_numberedRound h) ([], 0) ts = (.ok b, rest) ↔
        (!nextTypeIs .rightBrace rest) = false ∧ ∃ used, ts = used ++ rest ∧
          Numbered rule 0 (used.map terminal) b.1 ∧ b.2 = b.1.length := by
    intro b ts rest
    refine whileLoop_reads_numbered (fun _ => rfl) hitem fun n used rest a ha => ?_
    obtain ⟨s, us, hus⟩ := hname n _ a ha
    simp [nextTypeIs_append_of_name (t := .rightBrace) (by decide) hus]
  simp only [braced, bind_eq_ok_iff, consumeIdentifier_eq_ok_iff, consumeTokenType_eq_ok_iff, hloop,
    pure_apply, Prod.mk.injEq, Except.ok.injEq]
  constructor
  · rintro ⟨name, _, ⟨rfl, hn⟩, left, _, ⟨rfl, hleft⟩, b, _, ⟨_, used, rfl, hitems, _⟩, right, _,
      ⟨rfl, hright⟩, rfl, rfl⟩
    refine ⟨[name, left] ++ (used ++ [right]), used.map terminal, name.chars, b.1, by simp, ?_, hitems, rfl⟩
    simp only [map_append, map_cons, map_nil, terminal_eq_name_iff.mpr ⟨hn, rfl⟩,
      (terminal_eq_iff (t := .leftBrace) (by decide)).mpr hleft,
      (terminal_eq_iff (t := .rightBrace) (by decide)).mpr hright]
    rfl
  rintro ⟨used, us, name, items, rfl, hu, hitems, rfl⟩
  simp only [map_eq_append_iff, map_eq_cons_iff, map_eq_nil_iff, terminal_eq_name_iff] at hu
  obtain ⟨_, _, rfl, ⟨t1, _, rfl, ⟨h1, rfl⟩, t2, _, rfl, h2, rfl⟩, used, _, rfl, rfl, t3, _, rfl, h3,
    rfl⟩ := hu
  have h₂' := (terminal_eq_iff (t := .leftBrace) (by decide)).mp h2
  have h₃' := (terminal_eq_iff (t := .rightBrace) (by decide)).mp h3
  refine ⟨t1, _, ⟨rfl, h1⟩, t2, _, ⟨rfl, h₂'⟩, (items, items.length), t3 :: rest,
    ⟨?_, used, ?_, hitems, rfl⟩, t3, _, ⟨rfl, h₃'⟩, rfl, rfl⟩
  · simp [nextTypeIs, h₃']
  · simp

theorem message_eq_ok_iff : message ts = (.ok d, rest) ↔ ∃ used, ts = used ++ rest ∧
      DeclRule (.name "message" :: used.map terminal) d := by
  rw [message, braced_eq_ok_iff field_reads fun _ _ _ => FieldRule.exists_name]
  constructor
  · rintro ⟨used, us, name, fields, rfl, hu, hfields, rfl⟩
    refine ⟨used, rfl, ?_⟩
    rw [hu]
    exact DeclRule.message name hfields
  · rintro ⟨used, rfl, hrule⟩
    generalize hu : Terminal.name "message" :: used.map terminal = us at hrule
    cases hrule with
    | message name h => exact ⟨used, _, name, _, rfl, (List.cons.inj hu).2, h, rfl⟩
    | package | interface => simp at hu

theorem interface_eq_ok_iff : interface ts = (.ok d, rest) ↔ ∃ used, ts = used ++ rest ∧
      DeclRule (.name "interface" :: used.map terminal) d := by
  rw [interface, braced_eq_ok_iff method_reads fun _ _ _ => MethodRule.exists_name]
  constructor
  · rintro ⟨used, us, name, methods, rfl, hu, hmethods, rfl⟩
    refine ⟨used, rfl, ?_⟩
    rw [hu]
    exact DeclRule.interface name hmethods
  · rintro ⟨used, rfl, hrule⟩
    generalize hu : Terminal.name "interface" :: used.map terminal = us at hrule
    cases hrule with
    | interface name h => exact ⟨used, _, name, _, rfl, (List.cons.inj hu).2, h, rfl⟩
    | package | message => simp at hu

/-- **The parser of a declaration reads the rule of declarations.** -/
theorem decl_reads : Reads terminal decl DeclRule := by
  intro ts d rest
  simp only [decl, bind_eq_ok_iff, consumeIdentifier_eq_ok_iff]
  constructor
  · rintro ⟨token, ts', ⟨rfl, hname⟩, h⟩
    have hused : ∀ used, (token :: used).map terminal = .name token.chars :: used.map terminal := by
      intro used
      rw [map_cons, terminal_eq_name_iff.mpr ⟨hname, rfl⟩]
    split_ifs at h with hp hm hi
    · obtain ⟨used, rfl, hrule⟩ := package_eq_ok_iff.mp h
      exact ⟨token :: used, rfl, by rwa [hused, hp]⟩
    · obtain ⟨used, rfl, hrule⟩ := message_eq_ok_iff.mp h
      exact ⟨token :: used, rfl, by rwa [hused, hm]⟩
    · obtain ⟨used, rfl, hrule⟩ := interface_eq_ok_iff.mp h
      exact ⟨token :: used, rfl, by rwa [hused, hi]⟩
    · simp at h
  rintro ⟨used, rfl, hrule⟩
  obtain ⟨s, us, hus⟩ := hrule.exists_name
  obtain ⟨token, used, rfl, htoken, rfl⟩ := map_eq_cons_iff.mp hus
  obtain ⟨hname, rfl⟩ := terminal_eq_name_iff.mp htoken
  refine ⟨token, used ++ rest, ⟨rfl, hname⟩, ?_⟩
  rw [hus] at hrule
  split_ifs with hp hm hi
  · rw [hp] at hrule
    exact package_eq_ok_iff.mpr ⟨used, rfl, hrule⟩
  · rw [hm] at hrule
    exact message_eq_ok_iff.mpr ⟨used, rfl, hrule⟩
  · rw [hi] at hrule
    exact interface_eq_ok_iff.mpr ⟨used, rfl, hrule⟩
  · generalize hu : Terminal.name token.chars :: used.map terminal = us at hrule
    cases hrule <;> simp_all

/-! ## The end of the tokens -/

/-- A token list ends with its only `EndOfFile` token, as the lexer's lists do. -/
def EndsInEof (ts : List Token) : Prop :=
  ∃ body last, ts = body ++ [last] ∧ last.tokenType = .endOfFile ∧
    ∀ token ∈ body, token.tokenType ≠ .endOfFile

/-- **A function of the parser does not panic**: as long as the `EndOfFile` token is left before it, it
is left after it, unless the function returns an error. -/
def Safe {α : Type} (p : Parser α) : Prop :=
  ∀ ts, EndsInEof ts → wp p (fun _ => EndsInEof) (fun e _ => ∃ m, e = .err m) ts

section Safe

variable {α β : Type} {p q : Parser α} {f : α → Parser β}

theorem safe_pure (a : α) : Safe (pure a : Parser α) := fun _ h => h

theorem safe_stop (m : String) : Safe (stop (.err m) : Parser α) := fun _ _ => ⟨m, rfl⟩

theorem safe_gets (g : List Token → α) : Safe (gets g : Parser α) := fun _ h => h

theorem Safe.bind (hp : Safe p) (hf : ∀ a, Safe (f a)) : Safe (p >>= f) :=
  fun ts h => wp_seq (hp ts h) fun a rest hrest => hf a rest hrest

theorem Safe.ite {c : Prop} [Decidable c] (hp : Safe p) (hq : Safe q) : Safe (if c then p else q) := by
  split
  · exact hp
  · exact hq

theorem safe_whileLoop {more : List Token → Bool} {body : β → Parser β} {h : ∀ b, Shrinks List.length (body b)}
    (hbody : ∀ b, Safe (body b)) (b : β) : Safe (whileLoop List.length more body h b) := by
  intro ts hts
  refine wp_mono (wp_whileLoop (fun b s hs _ => hbody b s hs) hts) ?_ fun e _ he => he
  exact fun b s hs => hs.1

/-- A token that is asked for is never the last one: the `EndOfFile` token is of another type. -/
theorem safe_consumeTokenType (ht : t ≠ .endOfFile) : Safe (consumeTokenType t) := by
  rintro ts ⟨body, last, rfl, hlast, hbody⟩
  unfold consumeTokenType
  rw [wp_bind]
  cases body with
  | nil =>
    rw [nil_append, wp_of_ok (rfl : consumeToken [last] = (.ok last, []))]
    rw [if_neg fun h => ht (h.symm.trans hlast)]
    exact ⟨_, rfl⟩
  | cons token body =>
    have hrest : EndsInEof (body ++ [last]) :=
      ⟨body, last, rfl, hlast, fun u hu => hbody u (mem_cons_of_mem _ hu)⟩
    rw [cons_append, wp_of_ok (rfl : consumeToken (token :: (body ++ [last])) = (.ok token, body ++ [last]))]
    split
    · exact hrest
    · exact ⟨_, rfl⟩

theorem safe_consumeIdentifier : Safe consumeIdentifier := safe_consumeTokenType (by decide)

theorem safe_consumeKeyword (keyword : String) : Safe (consumeKeyword keyword) :=
  (safe_consumeTokenType (by decide)).bind fun _ => (safe_stop _).ite (safe_pure _)

end Safe

theorem safe_package : Safe package :=
  safe_consumeIdentifier.bind fun _ =>
    (safe_whileLoop (fun _ => Safe.bind ((safe_consumeTokenType (by decide)).bind fun _ =>
      safe_consumeIdentifier.bind fun _ => safe_pure _) fun _ => safe_pure _) _).bind fun _ =>
      (safe_consumeTokenType (by decide)).bind fun _ => safe_pure _

theorem safe_field (number : Nat) : Safe (field number) := by
  refine safe_consumeIdentifier.bind fun _ => Safe.bind ?_ fun _ =>
    safe_consumeIdentifier.bind fun _ =>
      (safe_consumeTokenType (by decide)).bind fun _ => safe_pure _
  exact (safe_consumeIdentifier.bind fun _ => safe_pure _).ite (safe_pure _)

theorem safe_optionalIdentifier : Safe optionalIdentifier :=
  (safe_gets _).bind fun _ =>
    (safe_consumeIdentifier.bind fun _ => safe_pure _).ite (safe_pure _)

theorem safe_method (number : Nat) : Safe (method number) :=
  (safe_consumeKeyword _).bind fun _ => safe_consumeIdentifier.bind fun _ =>
    (safe_consumeTokenType (by decide)).bind fun _ => safe_optionalIdentifier.bind fun _ =>
      (safe_consumeTokenType (by decide)).bind fun _ =>
        (safe_consumeTokenType (by decide)).bind fun _ =>
          (safe_consumeTokenType (by decide)).bind fun _ => safe_optionalIdentifier.bind fun _ =>
            (safe_consumeTokenType (by decide)).bind fun _ =>
              (safe_consumeTokenType (by decide)).bind fun _ => safe_pure _

theorem safe_braced {item : Nat → Parser α} {h : ∀ n, Shrinks List.length (item n)}
    {make : String → List α → Decl} (hitem : ∀ n, Safe (item n)) : Safe (braced item h make) :=
  safe_consumeIdentifier.bind fun _ => (safe_consumeTokenType (by decide)).bind fun _ =>
    (safe_whileLoop (fun (b : List α × Nat) => (hitem b.2).bind fun _ => safe_pure _) _).bind fun _ =>
      (safe_consumeTokenType (by decide)).bind fun _ => safe_pure _

theorem safe_decl : Safe decl :=
  safe_consumeIdentifier.bind fun _ => safe_package.ite
    ((safe_braced safe_field).ite ((safe_braced safe_method).ite (safe_stop _)))

theorem safe_parseAst : Safe parseAst :=
  safe_whileLoop (fun _ => safe_decl.bind fun _ => safe_pure _) _

/-! ## Files -/

variable {decls : List Decl}

theorem parseAst_eq_ok_iff : parseAst ts = (.ok decls, rest) ↔ nextTypeIs .endOfFile rest = true ∧
      ∃ used, ts = used ++ rest ∧ FileRule (used.map terminal) decls := by
  have hloop : parseAst ts = (.ok decls, rest) ↔ (!nextTypeIs .endOfFile rest) = false ∧
      ∃ used decls', ts = used ++ rest ∧ Many DeclRule (used.map terminal) decls' ∧ decls = [] ++ decls' := by
    refine whileLoop_reads_many (fun _ => rfl) decl_reads fun used rest d hd => ?_
    obtain ⟨s, us, hus⟩ := hd.exists_name
    simp [nextTypeIs_append_of_name (t := .endOfFile) (by decide) hus]
  simp only [hloop, Bool.not_eq_false', nil_append, exists_eq_right', ← and_assoc, FileRule]

theorem numbers_of_numbered {rule : Nat → List Terminal → α → Prop} {number : α → Nat}
    (h : ∀ n us a, rule n us a → number a = n) {n : Nat} {as : List α} (has : Numbered rule n us as) :
    as.map number = List.range' n as.length := by
  induction has with
  | nil => rfl
  | cons ha _ ih => rw [map_cons, ih, h _ _ _ ha, length_cons, List.range'_succ]

/-- The fields of a message, or the methods of an interface, are numbered `0, 1, 2, ...`. -/
def Decl.NumberedInOrder : Decl → Prop
  | .message m => m.fields.map Field.number = List.range m.fields.length
  | .interface i => i.methods.map Method.number = List.range i.methods.length
  | .package _ => True

theorem DeclRule.numberedInOrder (h : DeclRule us d) : d.NumberedInOrder := by
  cases h with
  | package => trivial
  | message _ h =>
    rw [Decl.NumberedInOrder, range_eq_range']
    refine numbers_of_numbered (fun n us f hf => ?_) h
    cases hf <;> rfl
  | interface _ h =>
    rw [Decl.NumberedInOrder, range_eq_range']
    refine numbers_of_numbered (fun n us m hm => ?_) h
    cases hm
    rfl

theorem FileRule.numberedInOrder (h : FileRule us decls) : ∀ d ∈ decls, d.NumberedInOrder := by
  induction h with
  | nil => simp
  | cons hd _ ih =>
    rintro d (_ | ⟨_, hmem⟩)
    · exact hd.numberedInOrder
    · exact ih d hmem

/-- A token list that is accepted is the tokens of a file and the `EndOfFile` token. -/
theorem parseAst_fst_eq_ok_iff (h : EndsInEof ts) :
    (parseAst ts).1 = .ok decls ↔ ∃ us, ts.map terminal = us ++ [.endOfFile] ∧ FileRule us decls := by
  constructor
  · intro hok
    obtain ⟨rest, hp⟩ : ∃ rest, parseAst ts = (.ok decls, rest) := ⟨_, Prod.ext hok rfl⟩
    obtain ⟨hnext, used, rfl, hfile⟩ := parseAst_eq_ok_iff.mp hp
    obtain ⟨body, last, rfl, hlast, hbody⟩ := of_wp (safe_parseAst _ h) hp
    -- The loop ended on an `EndOfFile` token, which is the last one.
    cases body with
    | nil =>
      refine ⟨used.map terminal, ?_, hfile⟩
      simp [(terminal_eq_iff (t := .endOfFile) (by decide)).mpr hlast, TokenType.terminal]
    | cons token =>
      have htoken : token.tokenType = .endOfFile := by simpa [nextTypeIs] using hnext
      exact absurd htoken (hbody token mem_cons_self)
  · rintro ⟨us, hus, hfile⟩
    obtain ⟨used, _, rfl, rfl, hlast⟩ := map_eq_append_iff.mp hus
    obtain ⟨last, rfl, hl⟩ := map_eq_singleton_iff.mp hlast
    have hlast' := (terminal_eq_iff (t := .endOfFile) (by decide)).mp hl
    have hp : parseAst (used ++ [last]) = (.ok decls, [last]) :=
      parseAst_eq_ok_iff.mpr ⟨by simp [nextTypeIs, hlast'], used, rfl, hfile⟩
    rw [hp]

/-- **The parser reads the grammar.** On a token list that ends with its only `EndOfFile` token the parser ends
without going past the last token; it accepts the list exactly if what is before the `EndOfFile` token derives
from the grammar, with the syntax trees of the derivation; and their fields and methods are numbered in the order
of the source. -/
theorem parseAst_reads_grammar (ts : List Token) (h : EndsInEof ts) :
    (∀ m, (parseAst ts).1 ≠ .error (.panicked m)) ∧ (∀ decls, (parseAst ts).1 = .ok decls ↔
        ∃ us, ts.map terminal = us ++ [.endOfFile] ∧ FileRule us decls) ∧
      ∀ decls, (parseAst ts).1 = .ok decls → ∀ d ∈ decls, d.NumberedInOrder := by
  refine ⟨fun m hm => ?_, fun decls => parseAst_fst_eq_ok_iff h, fun decls hok => ?_⟩
  · obtain ⟨m', hm'⟩ := of_wp_error (safe_parseAst ts h) (Prod.ext hm rfl)
    cases hm'
  · obtain ⟨us, -, hfile⟩ := (parseAst_fst_eq_ok_iff h).mp hok
    exact hfile.numberedInOrder

/-- The theorem holds of the tokens of `message A { u64 x; }`. -/
theorem parseAst_reads_grammar_oneField :
    let name (s : String) : Token := ⟨.name, 1, 1, 1, s⟩
    let ts : List Token := [name "message", name "A", ⟨.leftBrace, 1, 1, 1, ""⟩, name "u64", name "x",
      ⟨.semicolon, 1, 1, 1, ""⟩, ⟨.rightBrace, 1, 1, 1, ""⟩, ⟨.endOfFile, 1, 1, 1, "EOF"⟩]
    EndsInEof ts ∧ (parseAst ts).1 = .ok [.message ⟨"A", [⟨⟨false, .u64⟩, "x", 0⟩]⟩] ∧
      ∀ m, (parseAst ts).1 ≠ .error (.panicked m) := by
  intro name ts
  have h : EndsInEof ts := ⟨ts.dropLast, ⟨.endOfFile, 1, 1, 1, "EOF"⟩, rfl, rfl, by decide⟩
  refine ⟨h, ((parseAst_reads_grammar ts h).2.1 _).mpr ?_, (parseAst_reads_grammar ts h).1⟩
  refine ⟨[.name "message", .name "A", .leftBrace, .name "u64", .name "x", .semicolon, .rightBrace],
    rfl, ?_⟩
  have hfields : Numbered FieldRule 0 [.name "u64", .name "x", .semicolon] [⟨⟨false, .u64⟩, "x", 0⟩] :=
    Numbered.cons (FieldRule.plain "u64" "x" (by decide)) (Numbered.nil 1)
  exact Many.cons (DeclRule.message "A" hfields) Many.nil

end Acadia.Yunq.Compiler
