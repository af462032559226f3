import Acadia.Yunq.Compiler.Parser

/-! # The code generator of the Rust yunq compiler

`yunq/rust/src/codegen.rs`, up to the token stream that is handed to the pretty printer. A `quote!` template is
a constructor, with the values that are put into it. The generator panics in an `unimplemented!()` or
`unreachable!()` arm, and in `Ident::new` if Rust does not allow a name. What names those are, and the snake case
of a name, is up to two libraries: the results hold for whatever they say. -/

namespace Acadia.Yunq.Compiler

/-- The panics of the generator. -/
inductive Fault where
  | unimplemented
  | unreachable
  | invalidIdent (s : String)
  deriving DecidableEq

/-! ## Generated code -/

/-- The templates of `serialize_field`. -/
inductive SerializeCode where
  | repeated (ind : Nat) (name : String)
  | repeatedMessage (ind : Nat) (name : String)
  | string (ind : Nat) (name : String)
  | capability (ind : Nat) (name : String)
  | value (ind : Nat) (name : String)
  | message (ind : Nat) (name : String)
  deriving DecidableEq

/-- The templates of `parse_field`. -/
inductive ParseCode where
  | repeated (ind : Nat) (name : String)
  | repeatedMessage (ind : Nat) (name : String)
  | string (ind : Nat) (name : String)
  | capability (ind : Nat) (name : String)
  | u64 (ind : Nat) (name : String)
  | i64 (ind : Nat) (name : String)
  | message (ind : Nat) (name : String) (type : String)
  deriving DecidableEq

/-- The type of a field in the generated `struct`. -/
inductive PathCode where
  | vec (rustType : String)
  | plain (rustType : String)
  deriving DecidableEq

/-- The code for a message. -/
structure MessageCode where
  name : String
  fields : List (String × PathCode)
  numFields : Nat
  serializers : List SerializeCode
  parsers : List ParseCode
  fieldNames : List String
  deriving DecidableEq

/-- The templates of the three functions for a method: with a request and a response, without a
response, and without a request. -/
inductive MethodCode where
  | both (id : Nat) (name request response : String)
  | onlyRequest (id : Nat) (name request : String)
  | onlyResponse (id : Nat) (name response : String)
  deriving DecidableEq

/-- The declaration of a method in the trait of a server's handler. -/
inductive HandlerCode where
  | both (name request response : String)
  | onlyRequest (name request : String)
  | onlyResponse (name response : String)
  deriving DecidableEq

/-- The case of a method in a server. Its response type is not put in. -/
inductive CaseCode where
  | both (id : Nat) (name request : String)
  | onlyRequest (id : Nat) (name request : String)
  | onlyResponse (id : Nat) (name : String)
  deriving DecidableEq

/-- The code for an interface. -/
structure InterfaceCode where
  clientName : String
  clientMethods : List MethodCode
  serverName : String
  serverTrait : String
  serverTraitMethods : List HandlerCode
  serverMatchCases : List CaseCode
  deriving DecidableEq

/-- The code for a file. -/
structure FileCode where
  strImports : Bool
  interfaceImports : Bool
  messageDecls : List MessageCode
  interfaceDecls : List InterfaceCode
  deriving DecidableEq

/-! ## The generator -/

/-- The Rust type of an element of a field. -/
def rustType : InnerType → String
  | .u64 => "u64"
  | .i64 => "i64"
  | .string => "String"
  | .bytes => "Vec<u8>"
  | .capability => "z_cap_t"
  | .message s => s

section Generator

/- `legal s`: `Ident::new` takes `s`. `toSnake s`: the snake case of `s`. -/
variable (legal : String → Bool) (toSnake : String → String)

def ident (s : String) : Except Fault String :=
  if legal s then .ok s else .error (.invalidIdent s)

/-- `maybe.map(|r| ident(&r))` -/
def identOption : Option String → Except Fault (Option String)
  | none => .ok none
  | some s => do
    let i ← ident legal s
    return some i

def toPath (fieldType : FieldType) : Except Fault PathCode := do
  let rustType ← ident legal (rustType fieldType.innerType)
  return if fieldType.repeated then .vec rustType else .plain rustType

def serializeField (f : Field) : Except Fault SerializeCode := do
  let ind := f.number
  let name ← ident legal f.name
  if f.fieldType.repeated then
    match f.fieldType.innerType with
    | .string => .error .unimplemented
    | .capability => .error .unimplemented
    | .u64 => return .repeated ind name
    | .i64 => .error .unimplemented
    | .bytes => .error .unimplemented
    | .message _ => return .repeatedMessage ind name
  else
    match f.fieldType.innerType with
    | .string => return .string ind name
    | .capability => return .capability ind name
    | .u64 => return .value ind name
    | .i64 => return .value ind name
    | .message _ => return .message ind name
    | .bytes => .error .unimplemented

def parseField (f : Field) : Except Fault ParseCode := do
  let ind := f.number
  let name ← ident legal f.name
  if f.fieldType.repeated then
    match f.fieldType.innerType with
    | .string => .error .unimplemented
    | .capability => .error .unimplemented
    | .u64 => return .repeated ind name
    | .i64 => .error .unimplemented
    | .bytes => .error .unimplemented
    | .message _ => return .repeatedMessage ind name
  else
    match f.fieldType.innerType with
    | .string => return .string ind name
    | .capability => return .capability ind name
    | .u64 => return .u64 ind name
    | .i64 => return .i64 ind name
    | .bytes => .error .unimplemented
    | .message s => do
      let type ← ident legal s
      return .message ind name type

/-- A field of the generated `struct`. -/
def structField (f : Field) : Except Fault (String × PathCode) := do
  let name ← ident legal f.name
  let path ← toPath legal f.fieldType
  return (name, path)

/-- `generate_serialize` and `generate_parse` are evaluated before the `struct` is. -/
def generateMessage (message : Message) : Except Fault MessageCode := do
  let name ← ident legal message.name
  let serializers ← message.fields.mapM (serializeField legal)
  let parsers ← message.fields.mapM (parseField legal)
  let fieldNames ← message.fields.mapM fun f => ident legal f.name
  let fields ← message.fields.mapM (structField legal)
  return ⟨name, fields, message.fields.length, serializers, parsers, fieldNames⟩

/-- What the three functions for a method have in common: a template for each way in which a method may
have a request and a response, but for the way in which it has neither. -/
def methodCode {α : Type} (m : Method) (both : String → String → String → α)
    (onlyRequest onlyResponse : String → String → α) : Except Fault α := do
  let name ← ident legal (toSnake m.name)
  let maybeReq ← identOption legal m.request
  let maybeResp ← identOption legal m.response
  match maybeReq, maybeResp with
  | some req, some resp => return both name req resp
  | some req, none => return onlyRequest name req
  | none, some resp => return onlyResponse name resp
  | none, none => .error .unreachable

def generateMethod (m : Method) : Except Fault MethodCode :=
  methodCode legal toSnake m (.both m.number) (.onlyRequest m.number) (.onlyResponse m.number)

def generateServerCase (m : Method) : Except Fault CaseCode :=
  methodCode legal toSnake m (fun name req _ => .both m.number name req) (.onlyRequest m.number)
    fun name _ => .onlyResponse m.number name

def generateServerMethod (m : Method) : Except Fault HandlerCode :=
  methodCode legal toSnake m .both .onlyRequest .onlyResponse

/-- The client of an interface, and then its server. -/
def generateInterface (interface : Interface) : Except Fault InterfaceCode := do
  let clientName ← ident legal (interface.name ++ "Client")
  let clientMethods ← interface.methods.mapM (generateMethod legal toSnake)
  let serverName ← ident legal (interface.name ++ "Server")
  let serverTrait ← ident legal (interface.name ++ "ServerHandler")
  let serverTraitMethods ← interface.methods.mapM (generateServerMethod legal toSnake)
  let serverMatchCases ← interface.methods.mapM (generateServerCase legal toSnake)
  return ⟨clientName, clientMethods, serverName, serverTrait, serverTraitMethods, serverMatchCases⟩

/-- The messages of a file. -/
def messagesOf (ast : List Decl) : List Message := ast.filterMap fun
  | .message m => some m
  | _ => none

/-- The interfaces of a file. -/
def interfacesOf (ast : List Decl) : List Interface := ast.filterMap fun
  | .interface i => some i
  | _ => none

def anyStrings (ast : List Decl) : Bool :=
  ((messagesOf ast).flatMap Message.fields).any fun f => f.fieldType.innerType = .string

def anyInterfaces (ast : List Decl) : Bool := ast.any fun
  | .interface _ => true
  | _ => false

/-- **The code of a file**, as the token stream that is parsed and printed in the end. -/
def generateCode (ast : List Decl) : Except Fault FileCode := do
  let messageDecls ← (messagesOf ast).mapM (generateMessage legal)
  let interfaceDecls ← (interfacesOf ast).mapM (generateInterface legal toSnake)
  return ⟨anyStrings ast, anyInterfaces ast, messageDecls, interfaceDecls⟩

end Generator

/-! ## What the generator supports -/

/-- The field types for which both functions for fields have a template. -/
def supportedType (fieldType : FieldType) : Bool :=
  match fieldType.innerType with
  | .u64 => true
  | .message _ => true
  | .bytes => false
  | _ => !fieldType.repeated

section Arms

variable (legal : String → Bool) (toSnake : String → String)

/-- A field comes to a template, unless its name is not one. -/
def SupportedField (f : Field) : Prop := legal f.name = true → supportedType f.fieldType = true

/-- A method comes to a template, unless its name is not one. -/
def SupportedMethod (m : Method) : Prop :=
  legal (toSnake m.name) = true → m.request ≠ none ∨ m.response ≠ none

/-- **The condition**: the type of every field is one that the generator has templates for, and every
method has a request or a response. -/
def Supported (ast : List Decl) : Prop :=
  (∀ m ∈ messagesOf ast, ∀ f ∈ m.fields, SupportedField legal f) ∧
    ∀ i ∈ interfacesOf ast, ∀ m ∈ i.methods, SupportedMethod legal toSnake m

/-- **No function of the generator reaches an unfinished arm** on the fields and methods of a file. -/
def NoUnfinishedArm (ast : List Decl) : Prop :=
  (∀ m ∈ messagesOf ast, ∀ f ∈ m.fields,
    serializeField legal f ≠ .error .unimplemented ∧ parseField legal f ≠ .error .unimplemented) ∧
  ∀ i ∈ interfacesOf ast, ∀ m ∈ i.methods,
    generateMethod legal toSnake m ≠ .error .unreachable ∧
      generateServerCase legal toSnake m ≠ .error .unreachable ∧
      generateServerMethod legal toSnake m ≠ .error .unreachable

variable {legal toSnake}

theorem ident_of_legal {s : String} (h : legal s = true) : ident legal s = .ok s := by
  rw [ident, if_pos h]

theorem ident_of_not_legal {s : String} (h : legal s = false) : ident legal s = .error (.invalidIdent s) := by
  rw [ident, h]
  rfl

theorem serializeField_ne_iff {f : Field} :
    serializeField legal f ≠ .error .unimplemented ↔ SupportedField legal f := by
  obtain ⟨⟨repeated, innerType⟩, name, number⟩ := f
  cases hl : legal name with
  | false => simp [serializeField, SupportedField, ident_of_not_legal hl, hl, bind, Except.bind]
  | true =>
    cases repeated <;> cases innerType <;>
      simp [serializeField, SupportedField, ident_of_legal hl, hl, bind, Except.bind, supportedType, pure, Except.pure]

theorem parseField_ne_iff {f : Field} : parseField legal f ≠ .error .unimplemented ↔ SupportedField legal f := by
  obtain ⟨⟨repeated, innerType⟩, name, number⟩ := f
  cases hl : legal name with
  | false => simp [parseField, SupportedField, ident_of_not_legal hl, hl, bind, Except.bind]
  | true =>
    cases repeated <;> cases innerType <;>
      simp [parseField, SupportedField, ident_of_legal hl, hl, bind, Except.bind, supportedType, pure, Except.pure]
    -- A plain message, whose type is put in as well.
    rename_i type
    cases ht : legal type with
    | false => simp [ident_of_not_legal ht]
    | true => simp [ident_of_legal ht]

theorem identOption_eq (legal : String → Bool) (r : Option String) :
    identOption legal r = .ok r ∨ ∃ s, identOption legal r = .error (.invalidIdent s) := by
  cases r with
  | none => exact Or.inl rfl
  | some s =>
    cases hs : legal s with
    | true =>
      refine Or.inl ?_
      simp [identOption, ident_of_legal hs, bind, Except.bind, pure, Except.pure]
    | false =>
      refine Or.inr ⟨s, ?_⟩
      simp [identOption, ident_of_not_legal hs, bind, Except.bind]

theorem methodCode_ne_iff {α : Type} {m : Method} {both : String → String → String → α}
    {onlyRequest onlyResponse : String → String → α} :
    methodCode legal toSnake m both onlyRequest onlyResponse ≠ .error .unreachable ↔
      SupportedMethod legal toSnake m := by
  obtain ⟨name, number, request, response⟩ := m
  cases hl : legal (toSnake name) with
  | false => simp [methodCode, SupportedMethod, ident_of_not_legal hl, hl, bind, Except.bind]
  | true =>
    rcases identOption_eq legal request with hreq | ⟨s, hreq⟩
    · rcases identOption_eq legal response with hresp | ⟨s, hresp⟩
      · cases request <;> cases response <;>
          simp [methodCode, SupportedMethod, ident_of_legal hl, hl, hreq, hresp, bind, Except.bind, pure, Except.pure]
      · cases response with
        | none => cases hresp
        | some r =>
          simp [methodCode, SupportedMethod, ident_of_legal hl, hreq, hresp, bind, Except.bind]
    · cases request with
      | none => cases hreq
      | some r => simp [methodCode, SupportedMethod, ident_of_legal hl, hreq, bind, Except.bind]

theorem noUnfinishedArm_iff {ast : List Decl} : NoUnfinishedArm legal toSnake ast ↔ Supported legal toSnake ast := by
  simp only [NoUnfinishedArm, Supported, serializeField_ne_iff, parseField_ne_iff, generateMethod,
    generateServerCase, generateServerMethod, methodCode_ne_iff, and_self]

end Arms

/-! ## Whole files -/

/-- A computation has a result. -/
def Succeeds {ε α : Type} (x : Except ε α) : Prop := ∃ a, x = .ok a

theorem succeeds_ok {ε α : Type} (a : α) : Succeeds (.ok a : Except ε α) := ⟨a, rfl⟩

theorem succeeds_pure {ε α : Type} (a : α) : Succeeds (pure a : Except ε α) := ⟨a, rfl⟩

theorem not_succeeds_error {ε α : Type} (e : ε) : ¬ Succeeds (.error e : Except ε α) := by
  rintro ⟨a, h⟩
  cases h

/-- Whether one computation after another has a result, if that of the second does not depend on the
first one's. -/
theorem succeeds_bind {ε α β : Type} {x : Except ε α} {f : α → Except ε β} {Q : Prop}
    (h : ∀ a, x = .ok a → (Succeeds (f a) ↔ Q)) : Succeeds (x >>= f) ↔ Succeeds x ∧ Q := by
  cases x with
  | error e => simp [bind, Except.bind, not_succeeds_error]
  | ok a =>
    rw [and_iff_right (succeeds_ok a)]
    exact h a rfl

theorem succeeds_mapM {ε α β : Type} {f : α → Except ε β} {l : List α} :
    Succeeds (l.mapM f) ↔ ∀ a ∈ l, Succeeds (f a) := by
  induction l with
  | nil => simp [succeeds_pure]
  | cons a l ih =>
    rw [List.mapM_cons, succeeds_bind fun b _ => succeeds_bind fun bs _ => ⟨fun _ => trivial,
      fun _ => succeeds_pure _⟩, ih]
    simp

section Files

variable {legal : String → Bool} {toSnake : String → String}

theorem succeeds_ident {s : String} : Succeeds (ident legal s) ↔ legal s = true := by
  cases h : legal s with
  | true => simp [ident_of_legal h, succeeds_ok]
  | false => simp [ident_of_not_legal h, not_succeeds_error]

theorem succeeds_serializeField {f : Field} : Succeeds (serializeField legal f) ↔
    legal f.name = true ∧ supportedType f.fieldType = true := by
  obtain ⟨⟨repeated, innerType⟩, name, number⟩ := f
  unfold serializeField
  rw [succeeds_bind, succeeds_ident]
  intro a _
  cases repeated <;> cases innerType <;> simp [supportedType, not_succeeds_error, succeeds_pure]

theorem succeeds_parseField {f : Field} (hname : legal f.name = true)
    (htype : supportedType f.fieldType = true → legal (rustType f.fieldType.innerType) = true) :
    Succeeds (parseField legal f) ↔ supportedType f.fieldType = true := by
  obtain ⟨⟨repeated, innerType⟩, name, number⟩ := f
  unfold parseField
  rw [succeeds_bind, succeeds_ident, and_iff_right hname]
  intro a _
  cases repeated <;> cases innerType <;> simp [supportedType, not_succeeds_error, succeeds_pure]
  -- A plain message, whose type is put in as well.
  have htype' := htype rfl
  simp only [rustType] at htype'
  rw [ident_of_legal htype']
  exact succeeds_ok _

theorem succeeds_structField {f : Field} : Succeeds (structField legal f) ↔
    legal f.name = true ∧ legal (rustType f.fieldType.innerType) = true := by
  unfold structField toPath
  rw [succeeds_bind fun name _ => succeeds_bind fun path _ => iff_true_intro (succeeds_pure _),
    succeeds_bind fun type _ => iff_true_intro (succeeds_pure _), succeeds_ident, succeeds_ident]
  simp

theorem succeeds_methodCode {α : Type} {m : Method} {both : String → String → String → α}
    {onlyRequest onlyResponse : String → String → α} (hname : legal (toSnake m.name) = true)
    (htypes : ∀ s, m.request = some s ∨ m.response = some s → legal s = true) :
    Succeeds (methodCode legal toSnake m both onlyRequest onlyResponse) ↔ m.request ≠ none ∨ m.response ≠ none := by
  obtain ⟨name, number, request, response⟩ := m
  have hoption : ∀ r : Option String, (∀ s, r = some s → legal s = true) → identOption legal r = .ok r := by
    intro r hr
    cases r with
    | none => rfl
    | some s => simp [identOption, ident_of_legal (hr s rfl), bind, Except.bind, pure, Except.pure]
  have hreq := hoption request fun s hs => htypes s (Or.inl hs)
  have hresp := hoption response fun s hs => htypes s (Or.inr hs)
  cases request <;> cases response <;>
    simp [methodCode, ident_of_legal hname, hreq, hresp, bind, Except.bind, Succeeds, pure, Except.pure]

/-- The names that are put into the code of a message. The type of a field that is not supported is not
put in. -/
def LegalMessage (legal : String → Bool) (m : Message) : Prop :=
  legal m.name = true ∧ ∀ f ∈ m.fields, legal f.name = true ∧
    (supportedType f.fieldType = true → legal (rustType f.fieldType.innerType) = true)

/-- The names that are put into the code of an interface. -/
def LegalInterface (legal : String → Bool) (toSnake : String → String) (i : Interface) : Prop :=
  (∀ suffix ∈ ["Client", "Server", "ServerHandler"], legal (i.name ++ suffix) = true) ∧
    ∀ m ∈ i.methods, legal (toSnake m.name) = true ∧
      ∀ s, m.request = some s ∨ m.response = some s → legal s = true

/-- All names that are put into the code of a file are names that Rust allows. -/
def LegalNames (legal : String → Bool) (toSnake : String → String) (ast : List Decl) : Prop :=
  (∀ m ∈ messagesOf ast, LegalMessage legal m) ∧
    ∀ i ∈ interfacesOf ast, LegalInterface legal toSnake i

theorem succeeds_generateMessage {m : Message} (h : LegalMessage legal m) :
    Succeeds (generateMessage legal m) ↔ ∀ f ∈ m.fields, SupportedField legal f := by
  unfold generateMessage
  rw [succeeds_bind fun _ _ => succeeds_bind fun _ _ => succeeds_bind fun _ _ =>
    succeeds_bind fun _ _ => succeeds_bind fun _ _ => iff_true_intro (succeeds_pure _)]
  simp only [succeeds_mapM, succeeds_ident, succeeds_serializeField, succeeds_structField, and_true]
  constructor
  · rintro ⟨_, hserialize, _⟩ f hf _
    exact (hserialize f hf).2
  · intro hsupported
    have htype : ∀ f ∈ m.fields, supportedType f.fieldType = true :=
      fun f hf => hsupported f hf (h.2 f hf).1
    refine ⟨h.1, fun f hf => ⟨(h.2 f hf).1, htype f hf⟩, fun f hf => ?_, fun f hf => (h.2 f hf).1,
      fun f hf => ⟨(h.2 f hf).1, (h.2 f hf).2 (htype f hf)⟩⟩
    exact (succeeds_parseField (h.2 f hf).1 (h.2 f hf).2).mpr (htype f hf)

theorem succeeds_generateInterface {i : Interface} (h : LegalInterface legal toSnake i) :
    Succeeds (generateInterface legal toSnake i) ↔ ∀ m ∈ i.methods, SupportedMethod legal toSnake m := by
  have hmethod : ∀ m ∈ i.methods, ∀ {α : Type} {both : String → String → String → α}
      {onlyRequest onlyResponse : String → String → α},
      Succeeds (methodCode legal toSnake m both onlyRequest onlyResponse) ↔ SupportedMethod legal toSnake m := by
    intro m hm α both onlyRequest onlyResponse
    obtain ⟨hname, htypes⟩ := h.2 m hm
    rw [succeeds_methodCode hname htypes, SupportedMethod, hname]
    simp
  unfold generateInterface
  rw [succeeds_bind fun _ _ => succeeds_bind fun _ _ => succeeds_bind fun _ _ =>
    succeeds_bind fun _ _ => succeeds_bind fun _ _ => succeeds_bind fun _ _ =>
      iff_true_intro (succeeds_pure _)]
  simp only [succeeds_mapM, succeeds_ident, generateMethod, generateServerCase, generateServerMethod, and_true]
  constructor
  · rintro ⟨_, hmethods, _⟩ m hm
    exact (hmethod m hm).mp (hmethods m hm)
  · intro hsupported
    refine ⟨h.1 _ (by simp), fun m hm => ?_, h.1 _ (by simp), h.1 _ (by simp), fun m hm => ?_, fun m hm => ?_⟩
    all_goals exact (hmethod m hm).mpr (hsupported m hm)

/-- A file whose names are all ones that Rust allows has code if and only if it is supported. -/
theorem succeeds_generateCode_iff {ast : List Decl} (h : LegalNames legal toSnake ast) :
    Succeeds (generateCode legal toSnake ast) ↔ Supported legal toSnake ast := by
  unfold generateCode
  rw [succeeds_bind fun _ _ => succeeds_bind fun _ _ => iff_true_intro (succeeds_pure _)]
  simp only [succeeds_mapM, and_true]
  refine and_congr (forall₂_congr fun m hm => ?_) (forall₂_congr fun i hi => ?_)
  · exact succeeds_generateMessage (h.1 m hm)
  · exact succeeds_generateInterface (h.2 i hi)

end Files

/-! ## What the type checker accepts -/

section Names

open List

/-- The name that a declaration takes. -/
def Decl.names : Decl → List String
  | .message m => [m.name]
  | .interface i => [i.name]
  | .package _ => []

variable {ast : List Decl} {names : List String} {typeMap typeMap' : TypeMap}

theorem ensureMessageAndInterfaceNamesUnique_eq_ok_iff (h : names.Nodup) :
    ensureMessageAndInterfaceNamesUnique ast names typeMap = .ok typeMap' ↔ (ast.flatMap Decl.names ++ names).Nodup ∧
      typeMap' = ((messagesOf ast).map fun m => (m.name, m)).reverse ++ typeMap := by
  fun_induction ensureMessageAndInterfaceNamesUnique ast names typeMap with
  | case1 => simp [h, messagesOf, eq_comm]
  | case2 | case4 => simp_all [Decl.names]
  | case3 _ _ _ _ hnew ih | case5 _ _ _ _ hnew ih =>
    rw [ih (nodup_cons.mpr ⟨hnew, h⟩), perm_middle.nodup_iff]
    simp [Decl.names, messagesOf]
  | case6 _ _ _ _ ih => simpa [Decl.names, messagesOf] using ih h

theorem typeCheckFields_eq_ok_iff {m : Message} {fields : List Field} (h : names.Nodup) :
    typeCheckFields typeMap m fields names = .ok () ↔ (fields.map Field.name ++ names).Nodup ∧
      ∀ f ∈ fields, ∀ name, f.fieldType.innerType = .message name → typeMap.containsKey name = true := by
  fun_induction typeCheckFields typeMap m fields names with
  | case1 => simp [h]
  | case2 | case3 => simp_all
  | case4 _ _ _ hnew _ _ _ ih | case5 _ _ _ hnew _ ih =>
    rw [ih (nodup_cons.mpr ⟨hnew, h⟩), perm_middle.nodup_iff]
    simp_all

theorem typeCheckMethods_eq_ok_iff {i : Interface} {methods : List Method} (h : names.Nodup) :
    typeCheckMethods typeMap i methods names = .ok () ↔ (methods.map Method.name ++ names).Nodup ∧
      ∀ m ∈ methods, ∀ name, m.request = some name ∨ m.response = some name → typeMap.containsKey name = true := by
  -- a method without a request or a response passes that check
  have hcheck : ∀ m kind r, checkMethodType typeMap i m kind r = .ok () ↔
      ∀ name, r = some name → typeMap.containsKey name = true := by
    intro m kind r
    cases r <;> simp [checkMethodType]
  fun_induction typeCheckMethods typeMap i methods names with
  | case1 => simp [h]
  | case2 => simp_all
  | case3 m _ _ hnew ih =>
    simp only [except_bind_eq_ok_iff, hcheck, exists_const, ih (nodup_cons.mpr ⟨hnew, h⟩), perm_middle.nodup_iff]
    grind

theorem typeCheckDecls_eq_ok_iff : typeCheckDecls typeMap ast = .ok () ↔
    (∀ m ∈ messagesOf ast, typeCheckMessage typeMap m = .ok ()) ∧
      ∀ i ∈ interfacesOf ast, typeCheckInterface typeMap i = .ok () := by
  fun_induction typeCheckDecls typeMap ast <;> simp_all [except_bind_eq_ok_iff, messagesOf, interfacesOf]
  all_goals grind

/-- **What the type checker accepts**: messages and interfaces have different names, so have the fields of each message
and the methods of each interface, and every type that is mentioned is a message of the file. -/
theorem typeCheck_eq_ok_iff (ast : List Decl) : typeCheck ast = .ok () ↔ (ast.flatMap Decl.names).Nodup ∧
    (∀ m ∈ messagesOf ast, (m.fields.map Field.name).Nodup ∧ ∀ f ∈ m.fields, ∀ name,
      f.fieldType.innerType = .message name → ∃ d ∈ messagesOf ast, d.name = name) ∧
    ∀ i ∈ interfacesOf ast, (i.methods.map Method.name).Nodup ∧ ∀ m ∈ i.methods, ∀ name,
      m.request = some name ∨ m.response = some name → ∃ d ∈ messagesOf ast, d.name = name := by
  simp [typeCheck, except_bind_eq_ok_iff, ensureMessageAndInterfaceNamesUnique_eq_ok_iff nodup_nil,
    typeCheckDecls_eq_ok_iff, typeCheckMessage, typeCheckInterface, typeCheckFields_eq_ok_iff nodup_nil,
    typeCheckMethods_eq_ok_iff nodup_nil, TypeMap.containsKey, and_assoc]

end Names

/-- The compiler's parser and type checker accept a token list, with these declarations. -/
def Accepts (ts : List Token) (ast : List Decl) : Prop :=
  (parseAst ts).1 = .ok ast ∧ typeCheck ast = .ok ()

/-- **When code generation is total.** For every token list that the parser and the type checker accept, the
functions for fields and methods reach no `unimplemented!()` or `unreachable!()` arm exactly if every field is of
a supported type and every method has a request or a response; and then the file has code if and only if Rust
allows its names. -/
theorem codegen_total_iff (legal : String → Bool) (toSnake : String → String) (ts : List Token) :
    ((∀ ast, Accepts ts ast → NoUnfinishedArm legal toSnake ast) ↔
      ∀ ast, Accepts ts ast → Supported legal toSnake ast) ∧
    ∀ ast, Accepts ts ast → LegalNames legal toSnake ast →
      (Succeeds (generateCode legal toSnake ast) ↔ Supported legal toSnake ast) := by
  constructor
  · exact forall₂_congr fun ast _ => noUnfinishedArm_iff
  · exact fun ast _ h => succeeds_generateCode_iff h

/-- The tokens of `message A { bytes b; }`. -/
def bytesMessage : List Token :=
  [⟨.name, 1, 1, 8, "message"⟩, ⟨.name, 1, 9, 10, "A"⟩, ⟨.leftBrace, 1, 11, 12, "\x7b"⟩,
    ⟨.name, 1, 13, 18, "bytes"⟩, ⟨.name, 1, 19, 20, "b"⟩, ⟨.semicolon, 1, 20, 21, ";"⟩,
    ⟨.rightBrace, 1, 22, 23, "\x7d"⟩, ⟨.endOfFile, 1, 22, 22, "EOF"⟩]

/-- The type checker lets `message A { bytes b; }` through, and the generator has no template for its
field. -/
theorem codegen_reaches_unimplemented : ∃ ast, Accepts bytesMessage ast ∧
      generateCode (fun s => s.toList.all isNameChar) id ast = .error .unimplemented := by
  refine ⟨[.message ⟨"A", [⟨⟨false, .bytes⟩, "b", 0⟩]⟩], ⟨?_, ?_⟩, ?_⟩
  all_goals decide +kernel

end Acadia.Yunq.Compiler
