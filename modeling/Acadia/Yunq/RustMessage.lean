import Acadia.Glacier.ErrorCode
import Acadia.Yunq.Serializer

/-! # The generated Rust code

`yunq/rust/src/codegen.rs`, `rust/lib/yunq/src/message.rs` and `buffer.rs`. A `ByteBuffer` checks its bounds; sums
wrap as in a release build. The offset of a repeated field counts from the start of the buffer, not of the
message, and its length is the number of its elements. -/

namespace Acadia.Yunq

open ByteMemory Glacier

/-- Why there is no `Ok`. -/
inductive RustFault where
  | error (code : ErrorCode)
  | panic
  /-- The generator stops at `unimplemented!()` for a type. -/
  | unsupported
  /-- The given number of steps did not suffice. -/
  | fuel
  deriving DecidableEq

/-! ## `ByteBuffer` -/

/-- `write_at` and `write_str_at`. -/
def writeAt (buf : ByteMemory) (offset : Nat) (bytes : List UInt8) : Except RustFault ByteMemory :=
  if buf.size < wrap64 (bytes.length + offset) then .error (.error .bufferSize)
  else if buf.size < offset then .error .panic
  else .ok (buf.store offset bytes)

/-- The bytes that `at` and `str_at` take. -/
def sliceAt (buf : ByteMemory) (width offset : Nat) : Except RustFault (List UInt8) :=
  if buf.size < wrap64 (width + offset) then .error (.error .bufferSize)
  else if buf.size < offset then .error .panic
  else .ok (buf.slice offset width)

/-- `at` for a number. -/
def numberAt (buf : ByteMemory) (width offset : Nat) : Except RustFault Nat := do
  let bytes ← sliceAt buf width offset
  return ofLittleEndian bytes

/-- Whether `from_utf8` accepts bytes. -/
def isUtf8 (bytes : List UInt8) : Bool := (ByteArray.mk bytes.toArray).validateUTF8

/-- `str_at`. -/
def strAt (buf : ByteMemory) (offset len : Nat) : Except RustFault (List UInt8) := do
  let bytes ← sliceAt buf len offset
  if isUtf8 bytes then return bytes else .error (.error .invalidArgument)

/-- `field_offset`. -/
def fieldOffset (offset fieldIndex : Nat) : Nat := wrap64 (offset + kHeaderSize + 8 * fieldIndex)

/-! ## Serializing -/

/-- The variables of a generated `serialize` that change. -/
structure RustWriter where
  buf : ByteMemory
  caps : List UInt64
  nextExtension : Nat

/-- The offset and the length of a field. -/
def writePointer (buf : ByteMemory) (offset fieldIndex extOffset length : Nat) :
    Except RustFault ByteMemory := do
  let buf ← writeAt buf (fieldOffset offset fieldIndex) (littleEndian 4 extOffset)
  writeAt buf (wrap64 (fieldOffset offset fieldIndex + 4)) (littleEndian 4 length)

/-- The header of a message. -/
def writeHeader (buf : ByteMemory) (offset coreSize length : Nat) : Except RustFault ByteMemory := do
  let buf ← writeAt buf offset (littleEndian 4 kIdentByte)
  let buf ← writeAt buf (wrap64 (offset + 4)) (littleEndian 4 coreSize)
  let buf ← writeAt buf (wrap64 (offset + 8)) (littleEndian 4 length)
  writeAt buf (wrap64 (offset + 12)) (littleEndian 4 0)

/-- The loop of `serialize_repeated`. -/
def serializeWords (buf : ByteMemory) (offset : Nat) : List UInt64 → Except RustFault ByteMemory
  | [] => .ok buf
  | v :: vs => do
    let buf ← writeAt buf (wrap64 offset) (littleEndian 8 v.toNat)
    serializeWords buf (offset + 8) vs

/-- `serialize_repeated`: where the data ends, and the buffer. -/
def serializeRepeated (buf : ByteMemory) (offset : Nat) (data : List UInt64) :
    Except RustFault (Nat × ByteMemory) := do
  let buf ← serializeWords buf offset data
  return (wrap64 (offset + 8 * data.length), buf)

mutual

/-- What `serialize_field` generates for a field. -/
def RustWriter.writeValue (w : RustWriter) (offset fieldIndex : Nat) :
    Value → Except RustFault RustWriter
  | .u64 v => do
    let buf ← writeAt w.buf (fieldOffset offset fieldIndex) (littleEndian 8 v.toNat)
    return { w with buf }
  | .i64 v => do
    let buf ← writeAt w.buf (fieldOffset offset fieldIndex) (littleEndian 8 v.toUInt64.toNat)
    return { w with buf }
  | .capability c => do
    let buf ← writeAt w.buf (fieldOffset offset fieldIndex) (littleEndian 8 w.caps.length)
    return { w with buf, caps := w.caps ++ [c] }
  | .string s => do
    let length := wrap32 s.length
    let buf ← writeAt w.buf (wrap64 (offset + w.nextExtension)) s
    let buf ← writePointer buf offset fieldIndex w.nextExtension length
    return { w with buf, nextExtension := wrap32 (w.nextExtension + length) }
  | .message m => do
    let (length, buf, caps) ← m.serialize w.buf (wrap64 (offset + w.nextExtension)) w.caps
    let buf ← writePointer buf offset fieldIndex w.nextExtension length
    return ⟨buf, caps, wrap32 (w.nextExtension + wrap32 length)⟩
  | .repeatedU64 vs => do
    let (stop, buf) ← serializeRepeated w.buf w.nextExtension vs
    let buf ← writePointer buf offset fieldIndex w.nextExtension vs.length
    return { w with buf, nextExtension := wrap32 stop }
  | .repeatedMessage ms => do
    let (stop, buf, caps) ← serializeRepeatedMessage w.buf w.nextExtension w.caps ms
    let buf ← writePointer buf offset fieldIndex w.nextExtension ms.length
    return ⟨buf, caps, wrap32 stop⟩
  -- a `Vec` without elements is iterated like any other
  | .emptied _ => do
    let buf ← writePointer w.buf offset fieldIndex w.nextExtension 0
    return { w with buf }

/-- The generated `serialize`: the number of bytes, the buffer and the capabilities. -/
def Message.serialize (buf : ByteMemory) (offset : Nat) (caps : List UInt64) :
    Message → Except RustFault (Nat × ByteMemory × List UInt64)
  | ⟨fields⟩ => do
    let coreSize := wrap32 (kHeaderSize + 8 * fields.length)
    let w ← rustFields ⟨buf, caps, coreSize⟩ offset 0 fields
    let buf ← writeHeader w.buf offset coreSize w.nextExtension
    return (w.nextExtension, buf, w.caps)

/-- The fields, from the one with the given number on. -/
def rustFields (w : RustWriter) (offset fieldIndex : Nat) : List Value → Except RustFault RustWriter
  | [] => .ok w
  | v :: vs => do
    let w ← w.writeValue offset fieldIndex v
    rustFields w offset (fieldIndex + 1) vs

/-- `serialize_repeated_message`: where the data ends, the buffer and the capabilities. -/
def serializeRepeatedMessage (buf : ByteMemory) (offset : Nat) (caps : List UInt64) :
    List Message → Except RustFault (Nat × ByteMemory × List UInt64)
  | [] => .ok (offset, buf, caps)
  | m :: ms => do
    let (length, buf, caps) ← m.serialize buf offset caps
    serializeRepeatedMessage buf (wrap64 (offset + length)) caps ms

end

/-- `SENTINEL`. -/
def sentinel : Nat := 0xBEEFDEAD

/-- `serialize_as_request`. -/
def Message.serializeAsRequest (m : Message) (requestId : UInt64) (buf : ByteMemory)
    (caps : List UInt64) : Except RustFault (Nat × ByteMemory × List UInt64) := do
  let buf ← writeAt buf 0 (littleEndian 4 sentinel)
  let buf ← writeAt buf 8 (littleEndian 8 requestId.toNat)
  let (length, buf, caps) ← m.serialize buf 16 caps
  let buf ← writeAt buf 4 (littleEndian 4 (16 + length))
  return (length + 16, buf, caps)

/-! ## Parsing -/

/-- `parse_repeated`, for numbers. -/
def parseRepeated (buf : ByteMemory) (offset : Nat) : (len : Nat) → Except RustFault (List UInt64)
  | 0 => .ok []
  | len + 1 => do
    let value ← numberAt buf 8 (wrap64 offset)
    let values ← parseRepeated buf (offset + 8) len
    return UInt64.ofNat value :: values

/-- `parse_repeated_message`. -/
def parseRepeatedMessage (parse : Nat → Except RustFault Message) (buf : ByteMemory) (offset : Nat) :
    (len : Nat) → Except RustFault (List Message)
  | 0 => .ok []
  | len + 1 => do
    let msgLen ← numberAt buf 4 (wrap64 (offset + 8))
    let message ← parse offset
    let messages ← parseRepeatedMessage parse buf (wrap64 (offset + msgLen)) len
    return message :: messages

/-- The offset and the length of a field. -/
def pointerAt (buf : ByteMemory) (offset fieldIndex : Nat) : Except RustFault (Nat × Nat) := do
  let extOffset ← numberAt buf 4 (fieldOffset offset fieldIndex)
  let length ← numberAt buf 4 (wrap64 (fieldOffset offset fieldIndex + 4))
  return (extOffset, length)

/-- What `parse_field` generates for a field. -/
def parseField (parse : String → Nat → Except RustFault Message) (buf : ByteMemory)
    (caps : List UInt64) (offset fieldIndex : Nat) : FieldType → Except RustFault Value
  | ⟨false, .u64⟩ =>
    return .u64 (UInt64.ofNat (← numberAt buf 8 (fieldOffset offset fieldIndex)))
  | ⟨false, .i64⟩ =>
    return .i64 (UInt64.ofNat (← numberAt buf 8 (fieldOffset offset fieldIndex))).toInt64
  | ⟨false, .capability⟩ => do
    let capInd ← numberAt buf 8 (fieldOffset offset fieldIndex)
    match caps[capInd]? with
    | some cap => return .capability cap
    | none => .error .panic
  | ⟨false, .string⟩ => do
    let (strOffset, strLength) ← pointerAt buf offset fieldIndex
    return .string (← strAt buf (wrap64 (offset + strOffset)) strLength)
  | ⟨false, .message name⟩ => do
    let msgOffset ← numberAt buf 4 (fieldOffset offset fieldIndex)
    return .message (← parse name (wrap64 (offset + msgOffset)))
  | ⟨true, .u64⟩ => do
    let (repOffset, repLen) ← pointerAt buf offset fieldIndex
    return .repeatedU64 (← parseRepeated buf repOffset repLen)
  | ⟨true, .message name⟩ => do
    let (repOffset, repLen) ← pointerAt buf offset fieldIndex
    return .repeatedMessage (← parseRepeatedMessage (parse name) buf repOffset repLen)
  | _ => .error .unsupported

/-- The fields, from the one with the given number on. -/
def parseFields (parse : Nat → FieldType → Except RustFault Value) :
    (fieldIndex : Nat) → List FieldType → Except RustFault (List Value)
  | _, [] => .ok []
  | fieldIndex, type :: types => do
    let value ← parse fieldIndex type
    let values ← parseFields parse (fieldIndex + 1) types
    return value :: values

/-- The generated `parse`. -/
def parse (schema : Schema) (buf : ByteMemory) (caps : List UInt64) :
    (fuel : Nat) → String → Nat → Except RustFault Message
  | 0, _, _ => .error .fuel
  | fuel + 1, name, offset =>
    match schema name with
    | none => .error .unsupported
    | some types => do
      let ident ← numberAt buf 4 offset
      if ident ≠ kIdentByte then .error (.error .invalidArgument)
      else do
        let fields ← parseFields
          (parseField (parse schema buf caps fuel) buf caps offset) 0 types
        return ⟨fields⟩

/-- `parse_from_request`. -/
def parseFromRequest (schema : Schema) (buf : ByteMemory) (caps : List UInt64) (fuel : Nat)
    (name : String) : Except RustFault Message := do
  let word ← numberAt buf 4 0
  if word ≠ sentinel then .error (.error .invalidResponse)
  else parse schema buf caps fuel name 16

/-! ## Values of Rust messages -/

mutual

/-- A field value that the generated Rust type has. -/
def Value.IsRust : Value → Prop
  | .string s => isUtf8 s = true
  | .message m => m.IsRust
  | .repeatedMessage ms => messagesAreRust ms
  | .emptied _ => False
  | .u64 _ | .i64 _ | .capability _ | .repeatedU64 _ => True

/-- A message value that the generated Rust type has: its strings are UTF-8. -/
def Message.IsRust : Message → Prop
  | ⟨fields⟩ => fieldsAreRust fields

/-- Field values that generated Rust types have. -/
def fieldsAreRust : List Value → Prop
  | [] => True
  | v :: vs => v.IsRust ∧ fieldsAreRust vs

/-- Message values that the generated Rust type has. -/
def messagesAreRust : List Message → Prop
  | [] => True
  | m :: ms => m.IsRust ∧ messagesAreRust ms

end

mutual

/-- No repeated field has elements, here or in a message inside. -/
def Value.NoElements : Value → Prop
  | .message m => m.NoElements
  | .repeatedU64 vs => vs = []
  | .repeatedMessage ms => ms = []
  | .u64 _ | .i64 _ | .string _ | .capability _ | .emptied _ => True

/-- No repeated field has elements. -/
def Message.NoElements : Message → Prop
  | ⟨fields⟩ => fieldsNoElements fields

/-- No repeated field among the fields has elements. -/
def fieldsNoElements : List Value → Prop
  | [] => True
  | v :: vs => v.NoElements ∧ fieldsNoElements vs

end

mutual

/-- The capabilities in a field, in the order in which they are serialized. -/
def Value.capabilities : Value → List UInt64
  | .capability c => [c]
  | .message m => m.capabilities
  | .repeatedMessage ms => messagesCapabilities ms
  | .u64 _ | .i64 _ | .string _ | .repeatedU64 _ | .emptied _ => []

/-- The capabilities in a message. -/
def Message.capabilities : Message → List UInt64
  | ⟨fields⟩ => fieldsCapabilities fields

/-- The capabilities in fields. -/
def fieldsCapabilities : List Value → List UInt64
  | [] => []
  | v :: vs => v.capabilities ++ fieldsCapabilities vs

/-- The capabilities in messages. -/
def messagesCapabilities : List Message → List UInt64
  | [] => []
  | m :: ms => m.capabilities ++ messagesCapabilities ms

end

mutual

/-- The value whose encoding is written for a field without elements: the capabilities are numbered on
from `next`. -/
def Value.numberedFrom (next : Nat) : Value → Value
  | .u64 v => .u64 v
  | .i64 v => .i64 v
  | .string s => .string s
  | .capability _ => .capability (UInt64.ofNat next)
  | .message m => .message (m.numberedFrom next)
  | .repeatedU64 vs => .repeatedU64 vs
  | .repeatedMessage ms => .repeatedMessage ms
  | .emptied _ => .repeatedMessage []

/-- The message whose encoding is written for a message without elements. -/
def Message.numberedFrom (next : Nat) : Message → Message
  | ⟨fields⟩ => ⟨fieldsNumberedFrom next fields⟩

/-- The values whose encodings are written for fields without elements. -/
def fieldsNumberedFrom (next : Nat) : List Value → List Value
  | [] => []
  | v :: vs => v.numberedFrom next :: fieldsNumberedFrom (next + v.capabilities.length) vs

end

end Acadia.Yunq
