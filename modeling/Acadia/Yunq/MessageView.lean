import Acadia.Glacier.ErrorCode
import Acadia.Yunq.Serializer

/-! # `MessageView` and the generated `ParseFromBytes`

`lib/yunq/message_view.h`, `message_view.cpp` and the parsing half of `yunq/message.cpp.jinja`. A `ByteBuffer`
does not check its bounds, and the loops follow lengths that they read. -/

namespace Acadia.Yunq

open ByteMemory Glacier List

/-- Why there is no result. -/
inductive ViewFault where
  /-- Something outside a buffer was read. -/
  | outside
  /-- There is no generated code that compiles for a type. -/
  | unsupported
  /-- The given number of steps did not suffice. -/
  | fuel
  deriving DecidableEq

/-- `glcr::Status`. -/
structure Status where
  code : ErrorCode
  message : String
  deriving DecidableEq

/-- `Status::Ok`. -/
def Status.ok : Status := ⟨.ok, ""⟩

/-- The bytes that `ByteBuffer::At` refers to. -/
def bytesAt (buffer : ByteMemory) (width offset : Nat) : Except ViewFault (List UInt8) :=
  match buffer.read offset width with
  | some bytes => .ok bytes
  | none => .error .outside

/-- `ByteBuffer::At` for a number. -/
def valueAt (buffer : ByteMemory) (width offset : Nat) : Except ViewFault Nat := do
  let bytes ← bytesAt buffer width offset
  return ofLittleEndian bytes

/-- `CapBuffer::At`. -/
def capAt (caps : CapBuffer) (offset : Nat) : Except ViewFault UInt64 :=
  match caps.at? offset with
  | some cap => .ok cap
  | none => .error .outside

/-- The class `MessageView`. -/
structure MessageView where
  buffer : ByteMemory
  offset : Nat

namespace MessageView

/-- `field_offset`. -/
def fieldOffset (view : MessageView) (fieldIndex : Nat) : Nat :=
  wrap64 (view.offset + kHeaderSize + 8 * fieldIndex)

/-- `CheckHeader`. -/
def checkHeader (view : MessageView) : Except ViewFault Status := do
  let ident ← valueAt view.buffer 4 view.offset
  if ident ≠ kIdentByte then
    return ⟨.invalidArgument, "Trying to parse an invalid yunq message."⟩
  return .ok

/-- `MessageLength`. -/
def messageLength (view : MessageView) : Except ViewFault Nat :=
  valueAt view.buffer 4 (wrap64 (view.offset + 8))

/-- `ReadField<uint64_t>` and `ReadField<int64_t>`. -/
def readWord (view : MessageView) (fieldIndex : Nat) : Except ViewFault UInt64 := do
  let value ← valueAt view.buffer 8 (view.fieldOffset fieldIndex)
  return UInt64.ofNat value

/-- The `ExtensionPointer` of a field: its offset and its length. -/
def readPointer (view : MessageView) (fieldIndex : Nat) : Except ViewFault (Nat × Nat) := do
  let bytes ← bytesAt view.buffer 8 (view.fieldOffset fieldIndex)
  return (ofLittleEndian (bytes.take 4), ofLittleEndian (bytes.drop 4))

/-- `ReadField<glcr::String>`. -/
def readString (view : MessageView) (fieldIndex : Nat) : Except ViewFault (List UInt8) := do
  let (offset, length) ← view.readPointer fieldIndex
  if length = 0 then return []
  bytesAt view.buffer length (wrap64 (view.offset + offset))

/-- The loop of `ReadRepeated<uint64_t>`, with the number of its rounds. -/
def readWords (buffer : ByteMemory) (i : Nat) : (rounds : Nat) → Except ViewFault (List UInt64)
  | 0 => .ok []
  | rounds + 1 => do
    let value ← valueAt buffer 8 i
    let values ← readWords buffer (i + 8) rounds
    return UInt64.ofNat value :: values

/-- `ReadRepeated<uint64_t>`: eight bytes at a time, from the start until the end is reached. -/
def readRepeated (view : MessageView) (fieldIndex : Nat) : Except ViewFault (List UInt64) := do
  let (offset, length) ← view.readPointer fieldIndex
  let start := wrap64 (view.offset + offset)
  let stop := wrap64 (start + length)
  readWords view.buffer start ((stop - start + 7) / 8)

/-- `ReadCapability`, with and without a `CapBuffer`. -/
def readCapability (view : MessageView) (caps : Option CapBuffer) (fieldIndex : Nat) :
    Except ViewFault UInt64 := do
  let word ← view.readWord fieldIndex
  match caps with
  | some caps => capAt caps word.toNat
  | none => return word

/-- `ReadMessage`; the status of the message inside is dropped by the generated code. -/
def readMessage (parse : Nat → Except ViewFault (Status × Message)) (view : MessageView)
    (fieldIndex : Nat) : Except ViewFault Message := do
  let (offset, _) ← view.readPointer fieldIndex
  let (_, message) ← parse (wrap64 (view.offset + offset))
  return message

/-- The loop of `ReadRepeatedMessage`. It ends early if a message cannot be parsed; this message is
then the last one, as it was constructed. -/
def readMessages (parse : Nat → Except ViewFault (Status × Message)) (view : MessageView) (stop : Nat) :
    (fuel extOffset : Nat) → Except ViewFault (List Message)
  | 0, extOffset => if extOffset < stop then .error .fuel else .ok []
  | fuel + 1, extOffset =>
    if extOffset < stop then do
      let subview : MessageView := ⟨view.buffer, wrap64 (view.offset + extOffset)⟩
      let (status, message) ← parse subview.offset
      if status.code ≠ .ok then return [message]
      let length ← subview.messageLength
      let messages ← readMessages parse view stop fuel (wrap64 (extOffset + length))
      return message :: messages
    else .ok []

/-- `ReadRepeatedMessage`; its status is dropped by the generated code. The end is a sum of two
`uint32_t`. -/
def readRepeatedMessage (parse : Nat → Except ViewFault (Status × Message)) (fuel : Nat)
    (view : MessageView) (fieldIndex : Nat) : Except ViewFault (List Message) := do
  let (offset, length) ← view.readPointer fieldIndex
  view.readMessages parse (wrap32 (offset + length)) fuel offset

/-- What the generated code reads for one field. -/
def readValue (parse : String → Nat → Except ViewFault (Status × Message)) (fuel : Nat)
    (caps : Option CapBuffer) (view : MessageView) (fieldIndex : Nat) :
    FieldType → Except ViewFault Value
  | ⟨false, .u64⟩ => return .u64 (← view.readWord fieldIndex)
  | ⟨false, .i64⟩ => return .i64 (← view.readWord fieldIndex).toInt64
  | ⟨false, .string⟩ => return .string (← view.readString fieldIndex)
  | ⟨false, .capability⟩ => return .capability (← view.readCapability caps fieldIndex)
  | ⟨false, .message name⟩ => return .message (← view.readMessage (parse name) fieldIndex)
  | ⟨true, .u64⟩ => return .repeatedU64 (← view.readRepeated fieldIndex)
  | ⟨true, .message name⟩ =>
    return .repeatedMessage (← view.readRepeatedMessage (parse name) fuel fieldIndex)
  | _ => .error .unsupported

/-- The fields, from the one with the given number on. -/
def readFields (read : Nat → FieldType → Except ViewFault Value) :
    (fieldIndex : Nat) → List FieldType → Except ViewFault (List Value)
  | _, [] => .ok []
  | fieldIndex, type :: types => do
    let value ← read fieldIndex type
    let values ← readFields read (fieldIndex + 1) types
    return value :: values

end MessageView

/-- `ParseFromBytes` into a message that was just constructed, with and without a `CapBuffer`: the
status, and the message. Capabilities are read where they stand among the fields, not after all other
fields: reading changes nothing. A message inside is parsed without the `CapBuffer`. -/
def parseFromBytes (schema : Schema) (buffer : ByteMemory) :
    (fuel : Nat) → String → Nat → Option CapBuffer → Except ViewFault (Status × Message)
  | 0, _, _, _ => .error .fuel
  | fuel + 1, name, offset, caps =>
    match schema name with
    | none => .error .unsupported
    | some types => do
      let view : MessageView := ⟨buffer, offset⟩
      let status ← view.checkHeader
      if status.code ≠ .ok then return (status, ⟨[]⟩)
      let fields ← MessageView.readFields
        (view.readValue (fun name offset => parseFromBytes schema buffer fuel name offset none)
          fuel caps) 0 types
      return (.ok, ⟨fields⟩)

/-! ## Reading what is held -/

section Reading

variable {buffer : ByteMemory} {view : MessageView} {a i : Nat}

theorem bytesAt_of_holds {bytes : List UInt8} {width : Nat} (h : buffer.Holds a bytes)
    (hwidth : bytes.length = width) (hsize : a + width ≤ buffer.size) : bytesAt buffer width a = .ok bytes := by
  rw [bytesAt, h.read hwidth hsize]

theorem valueAt_of_holds {width v : Nat} (h : buffer.Holds a (littleEndian width v))
    (hv : v < 256 ^ width) (hsize : a + width ≤ buffer.size) : valueAt buffer width a = .ok v := by
  rw [valueAt, bytesAt_of_holds h (length_littleEndian width v) hsize]
  show Except.ok (ofLittleEndian (littleEndian width v)) = _
  rw [ofLittleEndian_of_lt hv]

/-- The word of a field is inside the buffer and below `2 ^ 64`. -/
structure MessageView.WordInside (view : MessageView) (i : Nat) : Prop where
  inside : view.offset + kHeaderSize + 8 * i + 8 ≤ view.buffer.size
  small : view.offset + kHeaderSize + 8 * i < 2 ^ 64

theorem MessageView.WordInside.fieldOffset_eq (h : view.WordInside i) :
    view.fieldOffset i = view.offset + kHeaderSize + 8 * i := Nat.mod_eq_of_lt h.small

theorem readWord_of_holds {v : UInt64} (hin : view.WordInside i)
    (h : view.buffer.Holds (view.offset + kHeaderSize + 8 * i) (littleEndian 8 v.toNat)) : view.readWord i = .ok v := by
  have hv : v.toNat < 256 ^ 8 := v.toNat_lt
  rw [MessageView.readWord, hin.fieldOffset_eq, valueAt_of_holds h hv hin.inside]
  show Except.ok (UInt64.ofNat v.toNat) = _
  rw [UInt64.ofNat_toNat]

theorem readPointer_of_holds {offset length : Nat} (hin : view.WordInside i)
    (h : view.buffer.Holds (view.offset + kHeaderSize + 8 * i) (pointerBytes offset length))
    (hoffset : offset < 2 ^ 32) (hlength : length < 2 ^ 32) : view.readPointer i = .ok (offset, length) := by
  rw [MessageView.readPointer, hin.fieldOffset_eq, bytesAt_of_holds h (length_pointerBytes offset length) hin.inside]
  show Except.ok (ofLittleEndian ((pointerBytes offset length).take 4),
    ofLittleEndian ((pointerBytes offset length).drop 4)) = _
  have h4 : (littleEndian 4 offset).length = 4 := length_littleEndian 4 offset
  rw [pointerBytes, take_left' h4, drop_left' h4, ofLittleEndian_of_lt hoffset, ofLittleEndian_of_lt hlength]

theorem readWords_of_holds (vs : List UInt64) (buffer : ByteMemory) (a : Nat) (h : buffer.Holds a (wordsBytes vs))
    (hsize : a + 8 * vs.length ≤ buffer.size) : MessageView.readWords buffer a vs.length = .ok vs := by
  induction vs generalizing a with
  | nil => rfl
  | cons v vs ih =>
    rw [wordsBytes, holds_append, length_littleEndian] at h
    rw [length_cons] at hsize ⊢
    have hv : v.toNat < 256 ^ 8 := v.toNat_lt
    rw [MessageView.readWords, valueAt_of_holds h.1 hv (by omega), ih (a + 8) h.2 (by omega)]
    show Except.ok (UInt64.ofNat v.toNat :: vs) = _
    rw [UInt64.ofNat_toNat]

theorem Message.Encoded.header {m : Message} {start : Nat} (h : m.Encoded buffer start) :
    buffer.Holds start (littleEndian 4 kIdentByte) ∧ buffer.Holds (start + 8) (littleEndian 4 m.length) := by
  cases m with
  | mk =>
    rw [Message.Encoded, headerBytes, holds_append, holds_append, holds_append] at h
    simp only [length_littleEndian, Nat.add_assoc] at h
    rw [Message.length, Nat.add_assoc]
    exact ⟨h.1.1, h.1.2.2.1⟩

end Reading

/-! ## Parsing an encoding -/

/-- What is returned for a field whose word was read: a capability is looked up in a `CapBuffer`. -/
def Value.resolve (caps : Option CapBuffer) : Value → Except ViewFault Value
  | .capability word =>
    match caps with
    | some caps => return .capability (← capAt caps word.toNat)
    | none => .ok (.capability word)
  | v => .ok v

/-- What is returned for fields. -/
def resolveFields (caps : Option CapBuffer) : List Value → Except ViewFault (List Value)
  | [] => .ok []
  | v :: vs => do
    let value ← v.resolve caps
    let values ← resolveFields caps vs
    return value :: values

@[simp] theorem resolveFields_none (vs : List Value) : resolveFields none vs = .ok vs := by
  induction vs with
  | nil => rfl
  | cons v _ ih =>
    have hv : v.resolve none = .ok v := by
      cases v <;> rfl
    rw [resolveFields, hv, ih]
    rfl

/-- What is returned for a message whose header is right. -/
def Message.resolve (caps : Option CapBuffer) : Message → Except ViewFault (Status × Message)
  | ⟨fields⟩ => do
    let fields ← resolveFields caps fields
    return (.ok, ⟨fields⟩)

theorem Message.resolve_none (m : Message) : m.resolve none = .ok (.ok, m) := by
  cases m with
  | mk =>
    rw [Message.resolve, resolveFields_none]
    rfl

mutual

theorem Value.readValue_spec (schema : Schema) (v : Value) (view : MessageView)
    (caps : Option CapBuffer) (fuel i ext : Nat) (type : FieldType) (htype : v.HasType schema type)
    (henc : v.EncodedAt view.buffer view.offset (view.offset + kHeaderSize + 8 * i) ext)
    (hin : view.WordInside i) (hsize : view.offset + ext + v.extension ≤ view.buffer.size)
    (hsmall : view.offset + ext + v.extension < 2 ^ 32) (hfuel : v.extension ≤ fuel) :
    view.readValue (fun name offset => parseFromBytes schema view.buffer fuel name offset none) fuel caps i type =
      v.resolve caps := by
  cases v with
  | u64 | i64 =>
    subst htype
    rw [MessageView.readValue, readWord_of_holds hin henc]
    rfl
  | string s =>
    rw [Value.extension] at hsize hsmall
    subst htype
    have haddr : wrap64 (view.offset + ext) = _ := wrap64_of_lt (by omega)
    have hstring : view.readString i = .ok s := by
      rw [MessageView.readString, readPointer_of_holds hin henc.1 (by omega) (by omega)]
      show (if s.length = 0 then _ else _) = _
      by_cases hnil : s.length = 0
      · rw [if_pos hnil, length_eq_zero_iff.mp hnil]
        rfl
      · rw [if_neg hnil, haddr]
        exact bytesAt_of_holds henc.2 rfl hsize
    rw [MessageView.readValue, hstring]
    rfl
  | capability c =>
    subst htype
    rw [MessageView.readValue, MessageView.readCapability, readWord_of_holds hin henc]
    cases caps <;> rfl
  | repeatedU64 vs =>
    rw [Value.extension] at hsize hsmall
    subst htype
    have haddr : wrap64 (view.offset + ext) = _ := wrap64_of_lt (by omega)
    have hstop : wrap64 (view.offset + ext + 8 * vs.length) = _ := wrap64_of_lt (by omega)
    have hrounds : (view.offset + ext + 8 * vs.length - (view.offset + ext) + 7) / 8 = vs.length := by
      omega
    have hrepeated : view.readRepeated i = .ok vs := by
      rw [MessageView.readRepeated, readPointer_of_holds hin henc.1 (by omega) (by omega)]
      show MessageView.readWords _ (wrap64 (view.offset + ext)) _ = _
      rw [haddr, hstop, hrounds]
      exact readWords_of_holds vs _ _ henc.2 hsize
    rw [MessageView.readValue, hrepeated]
    rfl
  | message m =>
    rw [Value.extension] at hsize hsmall hfuel
    obtain ⟨name, rfl, hm⟩ := htype
    have haddr : wrap64 (view.offset + ext) = _ := wrap64_of_lt (by omega)
    have hparse := m.parseFromBytes_spec schema view.buffer (view.offset + ext) fuel name none hm
      henc.2 hsize hsmall hfuel
    rw [m.resolve_none] at hparse
    rw [MessageView.readValue, MessageView.readMessage, readPointer_of_holds hin henc.1 (by omega) (by omega)]
    simp only [bind, Except.bind, pure, Except.pure, haddr, hparse]
    rfl
  | repeatedMessage ms =>
    rw [Value.extension] at hsize hsmall hfuel
    obtain ⟨name, rfl, hms⟩ := htype
    have hstop : wrap32 (ext + messagesLength ms) = _ := wrap32_of_lt (by omega)
    have hlength := length_le_messagesLength ms
    have hmessages := readMessages_spec schema ms view fuel fuel name ext hms henc.2 hsize hsmall hfuel (by omega)
    rw [MessageView.readValue, MessageView.readRepeatedMessage, readPointer_of_holds hin henc.1 (by omega) (by omega)]
    simp only [bind, Except.bind, pure, Except.pure, hstop, hmessages]
    rfl
  | emptied => exact henc.elim

/-- **`ParseFromBytes` reads an encoding back**, with the capabilities of the message itself looked up in
the `CapBuffer`, if there is one. -/
theorem Message.parseFromBytes_spec (schema : Schema) (m : Message) (buffer : ByteMemory) (offset fuel : Nat)
    (name : String) (caps : Option CapBuffer) (htype : m.HasType schema name) (henc : m.Encoded buffer offset)
    (hsize : offset + m.length ≤ buffer.size) (hsmall : offset + m.length < 2 ^ 32)
    (hfuel : m.length ≤ fuel) : parseFromBytes schema buffer fuel name offset caps = m.resolve caps := by
  obtain ⟨fields⟩ := m
  have hident := henc.header.1
  rw [Message.length] at hsize hsmall hfuel
  obtain ⟨types, hname, hfields⟩ := htype
  have hheader : kHeaderSize = 24 := rfl
  cases fuel with
  | zero => omega
  | succ fuel =>
    have hvalue : valueAt buffer 4 offset = .ok kIdentByte :=
      valueAt_of_holds hident (by decide) (by omega)
    have hwords : kHeaderSize + 8 * (0 + fields.length) ≤ kHeaderSize + 8 * fields.length := by
      omega
    have hread := readFields_spec schema fields ⟨buffer, offset⟩ caps fuel 0
      (kHeaderSize + 8 * fields.length) types hfields henc.2 hwords
      (by simp only; omega) (by simp only; omega) (by omega)
    rw [parseFromBytes, hname]
    simp only [MessageView.checkHeader, hvalue, bind, Except.bind, pure, Except.pure, ne_eq,
      not_true_eq_false, if_false, Status.ok, hread, Message.resolve]

theorem readFields_spec (schema : Schema) (vs : List Value) (view : MessageView) (caps : Option CapBuffer)
    (fuel i ext : Nat) (types : List FieldType) (htypes : fieldsHaveTypes schema vs types)
    (henc : fieldsEncoded view.buffer view.offset i ext vs) (hwords : kHeaderSize + 8 * (i + vs.length) ≤ ext)
    (hsize : view.offset + ext + extensions vs ≤ view.buffer.size)
    (hsmall : view.offset + ext + extensions vs < 2 ^ 32) (hfuel : extensions vs ≤ fuel) :
    MessageView.readFields (view.readValue
      (fun name offset => parseFromBytes schema view.buffer fuel name offset none) fuel caps) i types =
      resolveFields caps vs := by
  cases vs with
  | nil =>
    rw [htypes]
    rfl
  | cons v vs =>
    rw [extensions] at hsize hsmall hfuel
    rw [length_cons] at hwords
    obtain ⟨type, rest, rfl, hv, hvs⟩ := htypes
    have hfirst := v.readValue_spec schema view caps fuel i ext type hv henc.1
      ⟨by omega, by omega⟩ (by omega) (by omega) (by omega)
    have hrest := readFields_spec schema vs view caps fuel (i + 1) (ext + v.extension) rest hvs henc.2
      (by omega) (by omega) (by omega) (by omega)
    rw [MessageView.readFields, hfirst, hrest, resolveFields]

theorem readMessages_spec (schema : Schema) (ms : List Message) (view : MessageView)
    (fuel rounds : Nat) (name : String) (extOffset : Nat) (htypes : messagesHaveType schema ms name)
    (henc : messagesEncoded view.buffer (view.offset + extOffset) ms)
    (hsize : view.offset + extOffset + messagesLength ms ≤ view.buffer.size)
    (hsmall : view.offset + extOffset + messagesLength ms < 2 ^ 32) (hfuel : messagesLength ms ≤ fuel)
    (hrounds : ms.length ≤ rounds) :
    view.readMessages (fun offset => parseFromBytes schema view.buffer fuel name offset none)
      (extOffset + messagesLength ms) rounds extOffset = .ok ms := by
  cases ms with
  | nil =>
    have hno : ¬ extOffset < extOffset + 0 := by omega
    rw [messagesLength]
    cases rounds with
    | zero | succ => rw [MessageView.readMessages, if_neg hno]
  | cons m ms =>
    rw [messagesLength] at hsize hsmall hfuel ⊢
    rw [length_cons] at hrounds
    have hm : 24 ≤ m.length := kHeaderSize_le_length m
    have haddr : wrap64 (view.offset + extOffset) = _ := wrap64_of_lt (by omega)
    have haddr8 : wrap64 (view.offset + extOffset + 8) = _ := wrap64_of_lt (by omega)
    have hnext : wrap64 (extOffset + m.length) = _ := wrap64_of_lt (by omega)
    have hparse := m.parseFromBytes_spec schema view.buffer (view.offset + extOffset) fuel name none
      htypes.1 henc.1 (by omega) (by omega) (by omega)
    rw [m.resolve_none] at hparse
    have hlength : valueAt view.buffer 4 (view.offset + extOffset + 8) = .ok m.length :=
      valueAt_of_holds henc.1.header.2 (by omega) (by omega)
    cases rounds with
    | zero => omega
    | succ rounds =>
      have hrest := readMessages_spec schema ms view fuel rounds name (extOffset + m.length)
        htypes.2 (by rw [← Nat.add_assoc]; exact henc.2) (by omega) (by omega) (by omega) (by omega)
      have hlt : extOffset < extOffset + (m.length + messagesLength ms) := by omega
      rw [MessageView.readMessages, if_pos hlt, ← Nat.add_assoc]
      simp only [MessageView.messageLength, haddr, haddr8, hnext, hparse, hlength, hrest, bind,
        Except.bind, pure, Except.pure, Status.ok, ne_eq, not_true_eq_false, if_false]

end

end Acadia.Yunq
