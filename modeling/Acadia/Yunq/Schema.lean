import Mathlib.Data.List.Basic

/-! # yunq schemas and message values

The types of `yunq/parser.py` and `yunq/rust/src/parser.rs`, and the values of messages. Both parsers number the
fields from `0` in the order of their declaration, so a message is the list of its field types, and a value the
list of its fields' values. -/

namespace Acadia.Yunq

/-- The type of a field, or of its elements if the field is repeated. -/
inductive InnerType where
  | u64
  | i64
  | string
  | bytes
  | capability
  | message (name : String)
  deriving DecidableEq

/-- The type of a field. -/
structure FieldType where
  repeated : Bool
  innerType : InnerType
  deriving DecidableEq

/-- The field types of the messages that a file declares, by the message's name. -/
abbrev Schema := String → Option (List FieldType)

mutual

/-- The value of a field. -/
inductive Value where
  | u64 (v : UInt64)
  | i64 (v : Int64)
  /-- The bytes of a string. -/
  | string (s : List UInt8)
  | capability (c : UInt64)
  | message (m : Message)
  | repeatedU64 (vs : List UInt64)
  | repeatedMessage (ms : List Message)
  /-- A repeated message field whose `glcr::Vector` has no element but has storage: after `Resize`, or
  after the last element was popped. The storage begins with `first`. -/
  | emptied (first : Message)

/-- The value of a message: the values of its fields. A message that the generated C++ code has just
constructed has none yet. -/
inductive Message where
  | mk (fields : List Value)

end

/-- The values of a message's fields. -/
def Message.fields : Message → List Value
  | ⟨fields⟩ => fields

/-! ## Types of values -/

mutual

/-- A value is one of a field type that both generators support. -/
def Value.HasType (schema : Schema) : Value → FieldType → Prop
  | .u64 _, type => type = ⟨false, .u64⟩
  | .i64 _, type => type = ⟨false, .i64⟩
  | .string _, type => type = ⟨false, .string⟩
  | .capability _, type => type = ⟨false, .capability⟩
  | .message m, type => ∃ name, type = ⟨false, .message name⟩ ∧ m.HasType schema name
  | .repeatedU64 _, type => type = ⟨true, .u64⟩
  | .repeatedMessage ms, type =>
    ∃ name, type = ⟨true, .message name⟩ ∧ messagesHaveType schema ms name
  | .emptied first, type => ∃ name, type = ⟨true, .message name⟩ ∧ first.HasType schema name

/-- A message is one of those that a name stands for. -/
def Message.HasType (schema : Schema) : Message → String → Prop
  | ⟨fields⟩, name => ∃ types, schema name = some types ∧ fieldsHaveTypes schema fields types

/-- Each field has its type. -/
def fieldsHaveTypes (schema : Schema) : List Value → List FieldType → Prop
  | [], types => types = []
  | v :: vs, types => ∃ type rest, types = type :: rest ∧ v.HasType schema type ∧
    fieldsHaveTypes schema vs rest

/-- Each message has the type. -/
def messagesHaveType (schema : Schema) : List Message → String → Prop
  | [], _ => True
  | m :: ms, name => m.HasType schema name ∧ messagesHaveType schema ms name

end

/-! ## What a C++ object stands for -/

mutual

/-- The value that a field of a C++ object stands for: a vector without elements is the empty list,
with or without storage. -/
def Value.value : Value → Value
  | .u64 v => .u64 v
  | .i64 v => .i64 v
  | .string s => .string s
  | .capability c => .capability c
  | .message m => .message m.value
  | .repeatedU64 vs => .repeatedU64 vs
  | .repeatedMessage ms => .repeatedMessage (messagesValue ms)
  | .emptied _ => .repeatedMessage []

/-- The value that a C++ message object stands for. -/
def Message.value : Message → Message
  | ⟨fields⟩ => ⟨fieldsValue fields⟩

/-- The values of all fields. -/
def fieldsValue : List Value → List Value
  | [] => []
  | v :: vs => v.value :: fieldsValue vs

/-- The values of all messages. -/
def messagesValue : List Message → List Message
  | [] => []
  | m :: ms => m.value :: messagesValue ms

end

mutual

/-- No repeated message field is empty but has storage, here or in a message inside. -/
def Value.Settled : Value → Prop
  | .message m => m.Settled
  | .repeatedMessage ms => messagesSettled ms
  | .emptied _ => False
  | _ => True

/-- No repeated message field is empty but has storage. -/
def Message.Settled : Message → Prop
  | ⟨fields⟩ => fieldsSettled fields

/-- All fields are settled. -/
def fieldsSettled : List Value → Prop
  | [] => True
  | v :: vs => v.Settled ∧ fieldsSettled vs

/-- All messages are settled. -/
def messagesSettled : List Message → Prop
  | [] => True
  | m :: ms => m.Settled ∧ messagesSettled ms

end

mutual

theorem Value.value_of_settled : (v : Value) → v.Settled → v.value = v
  | .message m, h => by
    rw [Value.value, m.value_of_settled h]
  | .repeatedMessage ms, h => by
    rw [Value.value, messagesValue_of_settled ms h]
  | .emptied _, h => by
    exact h.elim
  | .u64 _, _ | .i64 _, _ | .string _, _ | .capability _, _ | .repeatedU64 _, _ => by rw [Value.value]

theorem Message.value_of_settled : (m : Message) → m.Settled → m.value = m
  | ⟨fields⟩, h => by
    rw [Message.value, fieldsValue_of_settled fields h]

theorem fieldsValue_of_settled : (vs : List Value) → fieldsSettled vs → fieldsValue vs = vs
  | [], _ => by rw [fieldsValue]
  | v :: vs, h => by
    rw [fieldsValue, v.value_of_settled h.1, fieldsValue_of_settled vs h.2]

theorem messagesValue_of_settled : (ms : List Message) → messagesSettled ms → messagesValue ms = ms
  | [], _ => by rw [messagesValue]
  | m :: ms, h => by
    rw [messagesValue, m.value_of_settled h.1, messagesValue_of_settled ms h.2]

end

end Acadia.Yunq
