import Acadia.Yunq.Wire

/-! # `Serializer` and the generated `SerializeToBytes`

`lib/yunq/serialize.h`, `serialize.cpp` and the serializing half of `yunq/message.cpp.jinja`. The buffers do not
check their bounds: there is no result if something is written outside. A 32-bit number is the low part of what
is written as one. -/

namespace Acadia.Yunq

open ByteMemory Value

/-- A sum of `uint64_t`. -/
def wrap64 (n : Nat) : Nat := n % 2 ^ 64

/-- A conversion to `uint32_t`. -/
def wrap32 (n : Nat) : Nat := n % 2 ^ 32

theorem wrap64_of_lt {n : Nat} (h : n < 2 ^ 64) : wrap64 n = n := Nat.mod_eq_of_lt h

theorem wrap32_of_lt {n : Nat} (h : n < 2 ^ 32) : wrap32 n = n := Nat.mod_eq_of_lt h

/-! ## Capabilities -/

/-- `glcr::CapBuffer`. -/
structure CapBuffer where
  size : Nat
  /-- The field `buffer_`. -/
  slot : Nat → UInt64
  usedSlots : Nat := 0
  /-- The slots of all calls of `WriteAt`, in their order; not part of the source. -/
  written : List Nat := []

namespace CapBuffer

/-- What `WriteAt` does inside the buffer. -/
def put (c : CapBuffer) (offset : Nat) (cap : UInt64) : CapBuffer :=
  { c with
    slot := Function.update c.slot offset cap
    usedSlots := if c.usedSlots < offset + 1 then offset + 1 else c.usedSlots
    written := c.written ++ [offset] }

/-- `WriteAt`. -/
def writeAt (c : CapBuffer) (offset : Nat) (cap : UInt64) : Option CapBuffer :=
  if offset < c.size then some (c.put offset cap) else none

/-- `At`. -/
def at? (c : CapBuffer) (offset : Nat) : Option UInt64 :=
  if offset < c.size then some (c.slot offset) else none

/-- Calls of `WriteAt`, one after the other. -/
def putAll (c : CapBuffer) (slots : List (Nat × UInt64)) : CapBuffer :=
  slots.foldl (fun c p => c.put p.1 p.2) c

@[simp] theorem putAll_nil (c : CapBuffer) : c.putAll [] = c := rfl

theorem putAll_append (c : CapBuffer) (slots more : List (Nat × UInt64)) :
    c.putAll (slots ++ more) = (c.putAll slots).putAll more := List.foldl_append

@[simp] theorem size_putAll (c : CapBuffer) (slots : List (Nat × UInt64)) : (c.putAll slots).size = c.size := by
  induction slots generalizing c with
  | nil => rfl
  | cons p slots ih => exact ih (c.put p.1 p.2)

end CapBuffer

/-! ## `Serializer` -/

/-- The class `Serializer`. -/
structure Serializer where
  buffer : ByteMemory
  offset : Nat
  nextExtension : Nat
  coreSize : Nat
  nextCap : Nat
  caps : Option CapBuffer

namespace Serializer

/-- The constructors. -/
def new (bytes : ByteMemory) (offset numFields : Nat) (caps : Option CapBuffer) : Serializer where
  buffer := bytes
  offset := offset
  nextExtension := wrap64 (kHeaderSize + 8 * numFields)
  coreSize := wrap64 (kHeaderSize + 8 * numFields)
  nextCap := 0
  caps := caps

/-- `field_offset`. -/
def fieldOffset (s : Serializer) (fieldIndex : Nat) : Nat :=
  wrap64 (s.offset + kHeaderSize + 8 * fieldIndex)

/-- `WriteField<uint64_t>` and `WriteField<int64_t>`. -/
def writeWord (s : Serializer) (fieldIndex value : Nat) : Option Serializer := do
  let buffer ← s.buffer.write (s.fieldOffset fieldIndex) (littleEndian 8 value)
  return { s with buffer }

/-- `ByteBuffer::WriteStringAt`. -/
def writeStringAt (buffer : ByteMemory) (offset : Nat) (string : List UInt8) : Option ByteMemory :=
  if string = [] then some buffer else buffer.write offset string

/-- `WriteField<glcr::String>`. -/
def writeString (s : Serializer) (fieldIndex : Nat) (value : List UInt8) : Option Serializer := do
  let length := wrap32 value.length
  let buffer ← writeStringAt s.buffer (wrap64 (s.offset + s.nextExtension)) value
  let buffer ← buffer.write (s.fieldOffset fieldIndex) (pointerBytes s.nextExtension length)
  return { s with buffer, nextExtension := wrap64 (s.nextExtension + length) }

/-- The loop of `WriteRepeated<uint64_t>`; `ext_offset` is a `uint32_t`. -/
def writeWords (buffer : ByteMemory) (extOffset : Nat) : List UInt64 → Option ByteMemory
  | [] => some buffer
  | v :: vs => do
    let buffer ← buffer.write (wrap32 extOffset) (littleEndian 8 v.toNat)
    writeWords buffer (extOffset + 8) vs

/-- `WriteRepeated<uint64_t>`. -/
def writeRepeated (s : Serializer) (fieldIndex : Nat) (value : List UInt64) : Option Serializer := do
  let length := wrap32 (8 * value.length)
  let buffer ← s.buffer.write (s.fieldOffset fieldIndex) (pointerBytes s.nextExtension length)
  let buffer ← writeWords buffer (s.offset + wrap32 s.nextExtension) value
  return { s with buffer, nextExtension := wrap64 (s.nextExtension + length) }

/-- `WriteCapability`. -/
def writeCapability (s : Serializer) (fieldIndex : Nat) (value : UInt64) : Option Serializer :=
  match s.caps with
  | some caps => do
    let buffer ← s.buffer.write (s.fieldOffset fieldIndex) (littleEndian 8 s.nextCap)
    let caps ← caps.writeAt s.nextCap value
    return { s with buffer, caps := some caps, nextCap := s.nextCap + 1 }
  | none => s.writeWord fieldIndex value.toNat

/-- The end of `WriteMessage` and of `WriteRepeatedMessage`. -/
def writeExtension (s : Serializer) (fieldIndex length : Nat) : Option Serializer := do
  let buffer ← s.buffer.write (s.fieldOffset fieldIndex) (pointerBytes s.nextExtension length)
  return { s with buffer, nextExtension := wrap64 (s.nextExtension + length) }

/-- `WriteHeader`, whose four words are next to each other. -/
def writeHeader (s : Serializer) : Option Serializer := do
  let buffer ← s.buffer.write s.offset (headerBytes s.coreSize s.nextExtension)
  return { s with buffer }

end Serializer

/-! ## `SerializeToBytes` -/

mutual

/-- What `SerializeInternal` does for one field. -/
def Serializer.writeValue (s : Serializer) (fieldIndex : Nat) : Value → Option Serializer
  | .u64 v => s.writeWord fieldIndex v.toNat
  | .i64 v => s.writeWord fieldIndex v.toUInt64.toNat
  | .string v => s.writeString fieldIndex v
  | .capability c => s.writeCapability fieldIndex c
  | .repeatedU64 vs => s.writeRepeated fieldIndex vs
  | .message m => do
    let (length, buffer, caps) ←
      m.serializeToBytes s.buffer (wrap64 (s.offset + s.nextExtension)) s.caps
    { s with buffer, caps }.writeExtension fieldIndex length
  | .repeatedMessage ms => do
    let (length, buffer, caps) ← serializeMessages s.buffer s.offset s.nextExtension s.caps ms
    { s with buffer, caps }.writeExtension fieldIndex length
  -- An iterator is at the end if its pointer is null, and `begin()` of a vector without elements points
  -- to its storage: the loop runs once, for what the storage begins with.
  | .emptied first => do
    let (length, buffer, caps) ←
      first.serializeToBytes s.buffer (wrap64 (s.offset + s.nextExtension)) s.caps
    { s with buffer, caps }.writeExtension fieldIndex length

/-- `SerializeToBytes`: the number of bytes, and the buffers. -/
def Message.serializeToBytes (bytes : ByteMemory) (offset : Nat) (caps : Option CapBuffer) :
    Message → Option (Nat × ByteMemory × Option CapBuffer)
  | ⟨fields⟩ => do
    let s ← serializeFields (.new bytes offset fields.length caps) 0 fields
    let s ← s.writeHeader
    return (s.nextExtension, s.buffer, s.caps)

/-- The fields, from the one with the given number on. -/
def serializeFields (s : Serializer) (fieldIndex : Nat) : List Value → Option Serializer
  | [] => some s
  | v :: vs => do
    let s ← s.writeValue fieldIndex v
    serializeFields s (fieldIndex + 1) vs

/-- The loop of `WriteRepeatedMessage`: the sum of the lengths, and the buffers. -/
def serializeMessages (buffer : ByteMemory) (offset nextOffset : Nat) (caps : Option CapBuffer) :
    List Message → Option (Nat × ByteMemory × Option CapBuffer)
  | [] => some (0, buffer, caps)
  | m :: ms => do
    let (msgLength, buffer, caps) ← m.serializeToBytes buffer (wrap64 (offset + nextOffset)) caps
    let (length, buffer, caps) ←
      serializeMessages buffer offset (wrap64 (nextOffset + msgLength)) caps ms
    return (wrap64 (msgLength + length), buffer, caps)

end

/-! ## What is written -/

/-- How many capabilities a field has itself. -/
def Value.ownCapabilities : Value → Nat
  | .capability _ => 1
  | _ => 0

/-- How many of the fields are capabilities. -/
def fieldsOwnCapabilities : List Value → Nat
  | [] => 0
  | v :: vs => v.ownCapabilities + fieldsOwnCapabilities vs

mutual

/-- The value whose encoding is written for a field. With a `CapBuffer` the capabilities of each message
are `numbered` from `0`. -/
def Value.wire (numbered : Bool) (next : Nat) : Value → Value
  | .u64 v => .u64 v
  | .i64 v => .i64 v
  | .string s => .string s
  | .capability c => .capability (if numbered then UInt64.ofNat next else c)
  | .message m => .message (m.wire numbered)
  | .repeatedU64 vs => .repeatedU64 vs
  | .repeatedMessage ms => .repeatedMessage (messagesWire numbered ms)
  | .emptied first => .repeatedMessage [first.wire numbered]

/-- The message whose encoding is written for a message. -/
def Message.wire (numbered : Bool) : Message → Message
  | ⟨fields⟩ => ⟨fieldsWire numbered 0 fields⟩

/-- The values whose encodings are written for fields. -/
def fieldsWire (numbered : Bool) (next : Nat) : List Value → List Value
  | [] => []
  | v :: vs => v.wire numbered next :: fieldsWire numbered (next + v.ownCapabilities) vs

/-- The messages whose encodings are written for messages. -/
def messagesWire (numbered : Bool) : List Message → List Message
  | [] => []
  | m :: ms => m.wire numbered :: messagesWire numbered ms

end

mutual

/-- What is written to a `CapBuffer` for a field: the slots and the capabilities, in order. -/
def Value.slots (next : Nat) : Value → List (Nat × UInt64)
  | .capability c => [(next, c)]
  | .message m => m.slots
  | .repeatedMessage ms => messagesSlots ms
  | .emptied first => first.slots
  | .u64 _ | .i64 _ | .string _ | .repeatedU64 _ => []

/-- What is written to a `CapBuffer` for a message. -/
def Message.slots : Message → List (Nat × UInt64)
  | ⟨fields⟩ => fieldsSlots 0 fields

/-- What is written to a `CapBuffer` for fields. -/
def fieldsSlots (next : Nat) : List Value → List (Nat × UInt64)
  | [] => []
  | v :: vs => v.slots next ++ fieldsSlots (next + v.ownCapabilities) vs

/-- What is written to a `CapBuffer` for messages. -/
def messagesSlots : List Message → List (Nat × UInt64)
  | [] => []
  | m :: ms => m.slots ++ messagesSlots ms

end

@[simp] theorem length_fieldsWire (numbered : Bool) (next : Nat) (vs : List Value) :
    (fieldsWire numbered next vs).length = vs.length := by
  induction vs generalizing next with
  | nil => rw [fieldsWire]
  | cons v vs ih => rw [fieldsWire, List.length_cons, List.length_cons, ih]

/-- Without a `CapBuffer` the capabilities are not numbered. -/
theorem fieldsWire_false (vs : List Value) (next next' : Nat) :
    fieldsWire false next vs = fieldsWire false next' vs := by
  induction vs generalizing next next' with
  | nil => rw [fieldsWire, fieldsWire]
  | cons v vs ih =>
    have hv : v.wire false next = v.wire false next' := by
      cases v <;> simp [wire]
    rw [fieldsWire, fieldsWire, hv, ih]

mutual

theorem Value.extension_wire (numbered : Bool) (next : Nat) (v : Value) :
    (v.wire numbered next).extension = v.extension := by
  cases v with
  | message m => rw [wire, extension, extension, m.length_wire numbered]
  | repeatedMessage ms =>
    rw [wire, extension, extension, messagesLength_wire numbered ms]
  | emptied first =>
    rw [wire, extension, extension, messagesLength, messagesLength,
      first.length_wire numbered, Nat.add_zero]
  | u64 | i64 | string | capability | repeatedU64 => simp only [wire, extension]

theorem Message.length_wire (numbered : Bool) (m : Message) : (m.wire numbered).length = m.length := by
  obtain ⟨fields⟩ := m
  rw [Message.wire, Message.length, Message.length, length_fieldsWire,
    extensions_wire numbered 0 fields]

theorem extensions_wire (numbered : Bool) (next : Nat) :
    (vs : List Value) → extensions (fieldsWire numbered next vs) = extensions vs
  | [] => by rw [fieldsWire]
  | v :: vs => by
    rw [fieldsWire, extensions, extensions, v.extension_wire numbered next,
      extensions_wire numbered _ vs]

theorem messagesLength_wire (numbered : Bool) :
    (ms : List Message) → messagesLength (messagesWire numbered ms) = messagesLength ms
  | [] => by rw [messagesWire]
  | m :: ms => by
    rw [messagesWire, messagesLength, messagesLength, m.length_wire numbered, messagesLength_wire numbered ms]

end

variable {schema : Schema}

mutual

theorem Value.hasType_wire {type : FieldType} (numbered : Bool) (next : Nat) (v : Value)
    (h : v.HasType schema type) : (v.wire numbered next).HasType schema type := by
  cases v with
  | message m =>
    obtain ⟨name, htype, hm⟩ := h
    exact ⟨name, htype, m.hasType_wire numbered hm⟩
  | repeatedMessage ms =>
    obtain ⟨name, htype, hms⟩ := h
    exact ⟨name, htype, messagesHaveType_wire numbered ms hms⟩
  | emptied first =>
    obtain ⟨name, htype, hfirst⟩ := h
    refine ⟨name, htype, ?_⟩
    exact ⟨first.hasType_wire numbered hfirst, trivial⟩
  | u64 | i64 | string | capability | repeatedU64 => exact h

theorem Message.hasType_wire {name : String} (numbered : Bool) :
    (m : Message) → m.HasType schema name → (m.wire numbered).HasType schema name
  | ⟨fields⟩, h => by
    obtain ⟨types, hname, hfields⟩ := h
    exact ⟨types, hname, fieldsHaveTypes_wire numbered 0 fields hfields⟩

theorem fieldsHaveTypes_wire {types : List FieldType} (numbered : Bool) (next : Nat) :
    (vs : List Value) → fieldsHaveTypes schema vs types →
    fieldsHaveTypes schema (fieldsWire numbered next vs) types
  | [], h => by
    exact h
  | v :: vs, h => by
    obtain ⟨type, rest, htypes, hv, hvs⟩ := h
    exact ⟨type, rest, htypes, v.hasType_wire numbered next hv, fieldsHaveTypes_wire numbered _ vs hvs⟩

theorem messagesHaveType_wire {name : String} (numbered : Bool) :
    (ms : List Message) → messagesHaveType schema ms name →
    messagesHaveType schema (messagesWire numbered ms) name
  | [], _ => by
    trivial
  | m :: ms, h => by
    exact ⟨m.hasType_wire numbered h.1, messagesHaveType_wire numbered ms h.2⟩

end

end Acadia.Yunq
