import Acadia.Foundations.Loop
import Acadia.Yunq.Schema
import Acadia.Yunq.Compiler.Lexer

/-! # The parser and the type checker of the Rust yunq compiler

`yunq/rust/src/parser.rs`. The parser's state is the list of the tokens from `current_index` on. A function of it
has a result, returns an error, or panics when it would go past the last token. The loops consume a token in each
round. The numbers of fields and methods are natural numbers: there are fewer of them than tokens in memory. -/

namespace Acadia.Yunq.Compiler

open Command

/-! ## Syntax trees -/

/-- The type that a type name stands for. -/
def innerTypeOf (value : String) : InnerType :=
  if value = "u64" then .u64
  else if value = "i64" then .i64
  else if value = "string" then .string
  else if value = "bytes" then .bytes
  else if value = "capability" then .capability
  else .message value

/-- A field of a message. -/
structure Field where
  fieldType : FieldType
  name : String
  number : Nat
  deriving DecidableEq

/-- A message declaration. -/
structure Message where
  name : String
  fields : List Field
  deriving DecidableEq

/-- A method of an interface. -/
structure Method where
  name : String
  number : Nat
  request : Option String
  response : Option String
  deriving DecidableEq

/-- An interface declaration. -/
structure Interface where
  name : String
  methods : List Method
  deriving DecidableEq

/-- A declaration. -/
inductive Decl where
  | message (m : Message)
  | interface (i : Interface)
  | package (names : List String)
  deriving DecidableEq

/-! ## Tokens -/

/-- The ways in which the parser stops without a result. -/
inductive Halt where
  /-- The function returned `Err`. -/
  | err (message : String)
  /-- The process was aborted. -/
  | panicked (message : String)
  deriving DecidableEq

/-- A function of the parser. -/
abbrev Parser (α : Type) := Command (List Token) Halt α

/-- The next token is one of type `t`. -/
def nextTypeIs (t : TokenType) : List Token → Bool
  | [] => false
  | token :: _ => token.tokenType = t

def consumeToken : Parser Token := fun tokens =>
  match tokens with
  | [] => (.error (.panicked "Consumed tokens past end of input."), [])
  | token :: rest => (.ok token, rest)

def consumeTokenType (t : TokenType) : Parser Token := do
  let token ← consumeToken
  if token.tokenType = t then return token
  else stop (.err ("Expected " ++ t.debug ++ " but found " ++ token.display))

def consumeIdentifier : Parser Token := consumeTokenType .name

def consumeKeyword (keyword : String) : Parser Token := do
  let token ← consumeTokenType .name
  if token.chars ≠ keyword then
    stop (.err ("Expected '" ++ keyword ++ "' but got " ++ token.display))
  else return token

theorem shrinks_consumeToken : Shrinks List.length consumeToken := by
  intro ts token rest h
  cases ts with
  | nil => simp [consumeToken] at h
  | cons t ts =>
    simp only [consumeToken, Prod.mk.injEq] at h
    simp [h.2]

theorem shrinks_consumeTokenType (t : TokenType) : Shrinks List.length (consumeTokenType t) :=
  shrinks_consumeToken.bind fun token =>
    NeverGrows.ite (neverGrows_pure token) (shrinks_stop _).neverGrows

theorem shrinks_consumeIdentifier : Shrinks List.length consumeIdentifier :=
  shrinks_consumeTokenType .name

theorem shrinks_consumeKeyword (keyword : String) : Shrinks List.length (consumeKeyword keyword) :=
  (shrinks_consumeTokenType .name).bind fun token =>
    NeverGrows.ite (shrinks_stop _).neverGrows (neverGrows_pure token)

/-! ## Packages -/

/-- A further name of a package. -/
def dottedName : Parser String := do
  let _ ← consumeTokenType .dot
  let name ← consumeIdentifier
  return name.chars

/-- A round of the loop over the names of a package. -/
def packageRound (packageNames : List String) : Parser (List String) := do
  let name ← dottedName
  return packageNames ++ [name]

theorem shrinks_dottedName : Shrinks List.length dottedName :=
  (shrinks_consumeTokenType .dot).bind fun _ =>
    shrinks_consumeIdentifier.neverGrows.bind fun _ => neverGrows_pure _

theorem shrinks_packageRound (packageNames : List String) : Shrinks List.length (packageRound packageNames) :=
  shrinks_dottedName.bind fun _ => neverGrows_pure _

/-- A package declaration. The keyword was consumed by `decl`. -/
def package : Parser Decl := do
  let first ← consumeIdentifier
  let packageNames ←
    whileLoop List.length (nextTypeIs .dot) packageRound shrinks_packageRound [first.chars]
  let _ ← consumeTokenType .semicolon
  return .package packageNames

/-! ## Bodies in braces -/

/-- A round of the loop over the fields or methods of a declaration, with those so far and the next
number. -/
def numberedRound {α : Type} (item : Nat → Parser α) : List α × Nat → Parser (List α × Nat)
  | (items, nextNumber) => do
    let a ← item nextNumber
    return (items ++ [a], nextNumber + 1)

theorem shrinks_numberedRound {α : Type} {item : Nat → Parser α} (h : ∀ n, Shrinks List.length (item n))
    (b : List α × Nat) : Shrinks List.length (numberedRound item b) :=
  (h b.2).bind fun _ => neverGrows_pure _

/-- The declaration of a name, with a list of fields or methods in braces. The keyword was consumed by
`decl`. -/
def braced {α : Type} (item : Nat → Parser α) (h : ∀ n, Shrinks List.length (item n))
    (make : String → List α → Decl) : Parser Decl := do
  let name ← consumeIdentifier
  let _ ← consumeTokenType .leftBrace
  let (items, _) ← whileLoop List.length (fun ts => !nextTypeIs .rightBrace ts) (numberedRound item)
    (shrinks_numberedRound h) ([], 0)
  let _ ← consumeTokenType .rightBrace
  return make name.chars items

theorem neverGrows_braced {α : Type} {item : Nat → Parser α} {h : ∀ n, Shrinks List.length (item n)}
    {make : String → List α → Decl} : NeverGrows List.length (braced item h make) :=
  shrinks_consumeIdentifier.neverGrows.bind fun _ =>
    (shrinks_consumeTokenType _).neverGrows.bind fun _ =>
      neverGrows_whileLoop.bind fun _ =>
        (shrinks_consumeTokenType _).neverGrows.bind fun _ => neverGrows_pure _

/-! ## Messages -/

/-- The type of a field and whether the field is repeated, from the first name of its declaration. -/
def fieldTypeFrom (typeIdentifier : Token) : Parser (Bool × Token) :=
  if typeIdentifier.chars = "repeated" then do
    let typeIdentifier ← consumeIdentifier
    return (true, typeIdentifier)
  else return (false, typeIdentifier)

def field (number : Nat) : Parser Field := do
  let typeIdentifier ← consumeIdentifier
  let (repeated, typeIdentifier) ← fieldTypeFrom typeIdentifier
  let nameIdentifier ← consumeIdentifier
  let _ ← consumeTokenType .semicolon
  return ⟨⟨repeated, innerTypeOf typeIdentifier.chars⟩, nameIdentifier.chars, number⟩

theorem neverGrows_fieldTypeFrom (typeIdentifier : Token) : NeverGrows List.length (fieldTypeFrom typeIdentifier) :=
  NeverGrows.ite (shrinks_consumeIdentifier.neverGrows.bind fun _ => neverGrows_pure _) (neverGrows_pure _)

theorem shrinks_field (number : Nat) : Shrinks List.length (field number) :=
  shrinks_consumeIdentifier.bind fun _ =>
    (neverGrows_fieldTypeFrom _).bind fun _ =>
      shrinks_consumeIdentifier.neverGrows.bind fun _ =>
        (shrinks_consumeTokenType _).neverGrows.bind fun _ => neverGrows_pure _

def message : Parser Decl := braced field shrinks_field fun name fields => .message ⟨name, fields⟩

/-! ## Interfaces -/

/-- The request or the response of a method, which may be left out. -/
def optionalIdentifier : Parser (Option String) := do
  let isName ← gets (nextTypeIs .name)
  if isName then
    let token ← consumeIdentifier
    return some token.chars
  else return none

def method (number : Nat) : Parser Method := do
  let _ ← consumeKeyword "method"
  let name ← consumeIdentifier
  let _ ← consumeTokenType .leftParen
  let request ← optionalIdentifier
  let _ ← consumeTokenType .rightParen
  let _ ← consumeTokenType .arrow
  let _ ← consumeTokenType .leftParen
  let response ← optionalIdentifier
  let _ ← consumeTokenType .rightParen
  let _ ← consumeTokenType .semicolon
  return ⟨name.chars, number, request, response⟩

theorem neverGrows_optionalIdentifier : NeverGrows List.length optionalIdentifier :=
  (neverGrows_gets _).bind fun _ =>
    NeverGrows.ite (shrinks_consumeIdentifier.neverGrows.bind fun _ => neverGrows_pure _) (neverGrows_pure _)

theorem shrinks_method (number : Nat) : Shrinks List.length (method number) :=
  (shrinks_consumeKeyword "method").bind fun _ =>
    shrinks_consumeIdentifier.neverGrows.bind fun _ =>
      (shrinks_consumeTokenType _).neverGrows.bind fun _ =>
        neverGrows_optionalIdentifier.bind fun _ =>
          (shrinks_consumeTokenType _).neverGrows.bind fun _ =>
            (shrinks_consumeTokenType _).neverGrows.bind fun _ =>
              (shrinks_consumeTokenType _).neverGrows.bind fun _ =>
                neverGrows_optionalIdentifier.bind fun _ =>
                  (shrinks_consumeTokenType _).neverGrows.bind fun _ =>
                    (shrinks_consumeTokenType _).neverGrows.bind fun _ => neverGrows_pure _

def interface : Parser Decl :=
  braced method shrinks_method fun name methods => .interface ⟨name, methods⟩

/-! ## Files -/

def decl : Parser Decl := do
  let token ← consumeIdentifier
  if token.chars = "package" then package
  else if token.chars = "message" then message
  else if token.chars = "interface" then interface
  else stop (.err
    ("Expected one of 'package', 'message', or 'interface' but got " ++ token.display))

theorem neverGrows_package : NeverGrows List.length package :=
  shrinks_consumeIdentifier.neverGrows.bind fun _ =>
    neverGrows_whileLoop.bind fun _ =>
      (shrinks_consumeTokenType _).neverGrows.bind fun _ => neverGrows_pure _

theorem shrinks_decl : Shrinks List.length decl :=
  shrinks_consumeIdentifier.bind fun _ =>
    neverGrows_package.ite (neverGrows_braced.ite (neverGrows_braced.ite (shrinks_stop _).neverGrows))

/-- A round of the loop over the declarations of a file. -/
def astRound (ast : List Decl) : Parser (List Decl) := do
  let d ← decl
  return ast ++ [d]

theorem shrinks_astRound (ast : List Decl) : Shrinks List.length (astRound ast) :=
  shrinks_decl.bind fun _ => neverGrows_pure _

/-- **The declarations of a file**, which the parser keeps as its `ast`. -/
def parseAst : Parser (List Decl) :=
  whileLoop List.length (fun ts => !nextTypeIs .endOfFile ts) astRound shrinks_astRound []

/-! ## The type checker -/

/-- The messages of a file, by their names. -/
abbrev TypeMap := List (String × Message)

/-- `type_map.contains_key(name)`. -/
def TypeMap.containsKey (typeMap : TypeMap) (name : String) : Bool := typeMap.any (·.1 = name)

/-- The loop over the declarations, with the names so far. -/
def ensureMessageAndInterfaceNamesUnique :
    List Decl → (names : List String) → TypeMap → Except String TypeMap
  | [], _, typeMap => .ok typeMap
  | .message m :: ast, names, typeMap =>
    if m.name ∈ names then .error ("Duplicate name " ++ m.name)
    else ensureMessageAndInterfaceNamesUnique ast (m.name :: names) ((m.name, m) :: typeMap)
  | .interface i :: ast, names, typeMap =>
    if i.name ∈ names then .error ("Duplicate name " ++ i.name)
    else ensureMessageAndInterfaceNamesUnique ast (i.name :: names) typeMap
  | .package _ :: ast, names, typeMap => ensureMessageAndInterfaceNamesUnique ast names typeMap

/-- The loop over the fields of a message, with the field names so far. -/
def typeCheckFields (typeMap : TypeMap) (message : Message) :
    List Field → (fieldNames : List String) → Except String Unit
  | [], _ => .ok ()
  | f :: fields, fieldNames =>
    if f.name ∈ fieldNames then
      .error ("Field name '" ++ f.name ++ "' used twice in message '" ++ message.name ++ "'")
    else
      match f.fieldType.innerType with
      | .message name =>
        if !typeMap.containsKey name then
          .error ("Unknown type '" ++ name ++ "' on field '" ++ f.name ++ "' in message '" ++
            message.name ++ "'")
        else typeCheckFields typeMap message fields (f.name :: fieldNames)
      | _ => typeCheckFields typeMap message fields (f.name :: fieldNames)

def typeCheckMessage (typeMap : TypeMap) (message : Message) : Except String Unit :=
  typeCheckFields typeMap message message.fields []

/-- The check of a method's request or response type. -/
def checkMethodType (typeMap : TypeMap) (interface : Interface) (m : Method) (kind : String) :
    Option String → Except String Unit
  | none => .ok ()
  | some name =>
    if !typeMap.containsKey name then
      .error ("Unknown " ++ kind ++ " type '" ++ name ++ "' on method '" ++ m.name ++
        "' in interface '" ++ interface.name ++ "'")
    else .ok ()

/-- The loop over the methods of an interface, with the method names so far. -/
def typeCheckMethods (typeMap : TypeMap) (interface : Interface) :
    List Method → (methodNames : List String) → Except String Unit
  | [], _ => .ok ()
  | m :: methods, methodNames =>
    if m.name ∈ methodNames then
      .error ("Method name '" ++ m.name ++ "' used twice in interface '" ++ interface.name ++ "'")
    else do
      checkMethodType typeMap interface m "request" m.request
      checkMethodType typeMap interface m "response" m.response
      typeCheckMethods typeMap interface methods (m.name :: methodNames)

def typeCheckInterface (typeMap : TypeMap) (interface : Interface) : Except String Unit :=
  typeCheckMethods typeMap interface interface.methods []

/-- The loop of `type_check`. -/
def typeCheckDecls (typeMap : TypeMap) : List Decl → Except String Unit
  | [] => .ok ()
  | .message m :: ast => do
    typeCheckMessage typeMap m
    typeCheckDecls typeMap ast
  | .interface i :: ast => do
    typeCheckInterface typeMap i
    typeCheckDecls typeMap ast
  | .package _ :: ast => typeCheckDecls typeMap ast

/-- **The type check of a file.** -/
def typeCheck (ast : List Decl) : Except String Unit := do
  let typeMap ← ensureMessageAndInterfaceNamesUnique ast [] []
  typeCheckDecls typeMap ast

end Acadia.Yunq.Compiler
