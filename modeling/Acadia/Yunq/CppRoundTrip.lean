import Acadia.Yunq.MessageView
import Acadia.Yunq.SerializerSpec

/-! # Round trips of the generated C++ code

A message object is serialized and parsed again, without and with a `CapBuffer`. What is parsed is always the
message whose encoding was written (`Message.wire`). -/

namespace Acadia.Yunq

open ByteMemory Value

/-! ## When the encoding is that of the value -/

mutual

/-- The capabilities of a field are the numbers that they get: `next` for a capability, and from `0` on in
each message inside. -/
def Value.Numbered (next : Nat) : Value → Prop
  | .capability c => c = UInt64.ofNat next
  | .message m => m.Numbered
  | .repeatedMessage ms => messagesNumbered ms
  | .emptied first => first.Numbered
  | .u64 _ | .i64 _ | .string _ | .repeatedU64 _ => True

/-- The capabilities of a message are their own numbers, in it and in each message inside. -/
def Message.Numbered : Message → Prop
  | ⟨fields⟩ => fieldsNumbered 0 fields

/-- The capabilities of fields are their own numbers. -/
def fieldsNumbered (next : Nat) : List Value → Prop
  | [] => True
  | v :: vs => v.Numbered next ∧ fieldsNumbered (next + v.ownCapabilities) vs

/-- The capabilities of messages are their own numbers. -/
def messagesNumbered : List Message → Prop
  | [] => True
  | m :: ms => m.Numbered ∧ messagesNumbered ms

end

mutual

theorem Value.wire_eq_value_iff (numbered : Bool) (v : Value) (next : Nat) :
    v.wire numbered next = v.value ↔ v.Settled ∧ (numbered = true → v.Numbered next) := by
  cases v with
  | u64 v | i64 v | string v | repeatedU64 v =>
    simp [wire, value, Value.Settled, Value.Numbered]
  | capability c =>
    cases numbered with
    | false => simp [wire, value, Value.Settled]
    | true => simp [wire, value, Value.Settled, Value.Numbered, eq_comm]
  | message m =>
    rw [wire, value, Value.Settled, Value.Numbered, message.injEq]
    exact m.wire_eq_value_iff ..
  | repeatedMessage ms =>
    rw [wire, value, Value.Settled, Value.Numbered, repeatedMessage.injEq]
    exact messagesWire_eq_value_iff ..
  | emptied first => simp [wire, value, Value.Settled]

/-- **What is written for a message is its value**, exactly if the message is settled and, with a
`CapBuffer`, the capabilities are their own numbers. -/
theorem Message.wire_eq_value_iff (numbered : Bool) : (m : Message) →
    (m.wire numbered = m.value ↔ m.Settled ∧ (numbered = true → m.Numbered))
  | ⟨fields⟩ => by
    rw [Message.wire, Message.value, Message.Settled, Message.Numbered, Message.mk.injEq]
    exact fieldsWire_eq_value_iff ..

theorem fieldsWire_eq_value_iff (numbered : Bool) : (vs : List Value) → (next : Nat) →
    (fieldsWire numbered next vs = fieldsValue vs ↔ fieldsSettled vs ∧ (numbered = true → fieldsNumbered next vs))
  | [], next => by simp [fieldsWire, fieldsValue, fieldsSettled, fieldsNumbered]
  | v :: vs, next => by
    rw [fieldsWire, fieldsValue, fieldsSettled, fieldsNumbered, List.cons.injEq,
      v.wire_eq_value_iff numbered next, fieldsWire_eq_value_iff numbered vs]
    tauto

theorem messagesWire_eq_value_iff (numbered : Bool) : (ms : List Message) →
    (messagesWire numbered ms = messagesValue ms ↔ messagesSettled ms ∧ (numbered = true → messagesNumbered ms))
  | [] => by simp [messagesWire, messagesValue, messagesSettled, messagesNumbered]
  | m :: ms => by
    rw [messagesWire, messagesValue, messagesSettled, messagesNumbered, List.cons.injEq,
      m.wire_eq_value_iff numbered, messagesWire_eq_value_iff numbered ms]
    tauto

end

/-! ## Without a `CapBuffer` -/

/-- **Serializing and parsing without a `CapBuffer`.** For every schema, message and offset with enough room,
`SerializeToBytes` writes only inside the bytes whose number it returns, and `ParseFromBytes` returns `Ok` with
the message again, exactly if no vector of messages in it is empty but has storage. -/
theorem serialize_parse_iff {schema : Schema} {name : String} {m : Message} (htype : m.HasType schema name)
    (bytes : ByteMemory) (offset : Nat) (hroom : offset + m.length ≤ bytes.size) (hsmall : offset + m.length < 2 ^ 32) :
    ∃ bytes', m.serializeToBytes bytes offset none = some (m.length, bytes', none) ∧ bytes'.size = bytes.size ∧
      (∀ i, i < offset ∨ offset + m.length ≤ i → bytes'.byte i = bytes.byte i) ∧
      ((∀ fuel, m.length ≤ fuel →
        parseFromBytes schema bytes' fuel name offset none = .ok (.ok, m.value)) ↔ m.Settled) := by
  obtain ⟨bytes', hwrite, hw, henc⟩ := m.serializeToBytes_spec bytes offset none hroom hsmall nofun
  refine ⟨bytes', hwrite, hw.size, ?_, ?_⟩
  · intro i hi
    refine hw.outside i ?_
    omega
  have hparse : ∀ fuel, m.length ≤ fuel →
      parseFromBytes schema bytes' fuel name offset none = .ok (.ok, m.wire false) := by
    intro fuel hfuel
    rw [← m.length_wire false] at hroom hsmall hfuel
    rw [(m.wire false).parseFromBytes_spec schema bytes' offset fuel name none
      (m.hasType_wire false htype) henc (by rw [hw.size]; exact hroom) hsmall hfuel,
      Message.resolve_none]
  have hiff : m.wire false = m.value ↔ m.Settled := by
    rw [m.wire_eq_value_iff false]
    simp
  rw [← hiff]
  constructor
  · intro hall
    have hsame := (hparse m.length (Nat.le_refl _)).symm.trans (hall m.length (Nat.le_refl _))
    simpa using hsame
  · intro hsame fuel hfuel
    rw [hparse fuel hfuel, hsame]

/-- A file with a message that has a number, and one that has many of them. -/
def numbersSchema : Schema
  | "Number" => some [⟨false, .u64⟩]
  | "Numbers" => some [⟨true, .message "Number"⟩]
  | _ => none

/-- A buffer of zeros. -/
def zeros (size : Nat) : ByteMemory := ⟨size, fun _ => 0⟩

theorem serialize_parse_iff_numbers :
    ∃ bytes', (Message.mk [.repeatedMessage [⟨[.u64 1]⟩, ⟨[.u64 2]⟩]]).serializeToBytes (zeros 256) 16
      none = some (96, bytes', none) ∧
      ∀ fuel, 96 ≤ fuel → parseFromBytes numbersSchema bytes' fuel "Numbers" 16 none =
        .ok (.ok, ⟨[.repeatedMessage [⟨[.u64 1]⟩, ⟨[.u64 2]⟩]]⟩) := by
  have hnumber : ∀ v, (Message.mk [.u64 v]).HasType numbersSchema "Number" := by
    intro v
    rw [Message.HasType]
    refine ⟨_, rfl, ?_⟩
    simp [fieldsHaveTypes, Value.HasType]
  have htype : (Message.mk [.repeatedMessage [⟨[.u64 1]⟩, ⟨[.u64 2]⟩]]).HasType numbersSchema "Numbers" := by
    rw [Message.HasType]
    refine ⟨_, rfl, ?_⟩
    simp [fieldsHaveTypes, Value.HasType, messagesHaveType, hnumber]
  have hsettled : (Message.mk [.repeatedMessage [⟨[.u64 1]⟩, ⟨[.u64 2]⟩]]).Settled := by
    simp [Message.Settled, fieldsSettled, Value.Settled, messagesSettled]
  obtain ⟨bytes', hwrite, -, -, hiff⟩ := serialize_parse_iff htype (zeros 256) 16 (by decide) (by decide)
  have hvalue := Message.value_of_settled _ hsettled
  rw [hvalue] at hiff
  exact ⟨bytes', hwrite, hiff.mpr hsettled⟩

/-- **A vector of messages that was emptied is not read back**: the element that its storage begins with is
serialized. -/
theorem emptied_comes_back : ∃ bytes', (Message.mk [.emptied ⟨[.u64 7]⟩]).serializeToBytes (zeros 256) 0 none =
      some (64, bytes', none) ∧
      parseFromBytes numbersSchema bytes' 64 "Numbers" 0 none = .ok (.ok, ⟨[.repeatedMessage [⟨[.u64 7]⟩]]⟩) ∧
      (Message.mk [.emptied ⟨[.u64 7]⟩]).value = ⟨[.repeatedMessage []]⟩ := by
  exact ⟨_, rfl, rfl, rfl⟩

end Acadia.Yunq
