import Acadia.Yunq.CapabilitySlots
import Acadia.Yunq.RustRoundTrip

/-! # The two implementations of the wire format

A message that one generated implementation serializes and the other one parses. They differ in what the length
of a repeated field counts, bytes in C++ and elements in Rust, and in how the capabilities are numbered: for
each message from `0` in C++, for all messages together in Rust. -/

namespace Acadia.Yunq

open ByteMemory List Option CapBuffer

/-! ## Capabilities on both sides -/

/-- A `CapBuffer` with the capabilities of a `Vec`. -/
def CapBuffer.ofVec (caps : List UInt64) : CapBuffer where
  size := caps.length
  slot i := caps.getD i 0
  usedSlots := caps.length

/-- The used slots of a `CapBuffer`, as a `Vec`. -/
def CapBuffer.toVec (c : CapBuffer) : List UInt64 := (List.range c.usedSlots).map c.slot

theorem CapBuffer.at?_ofVec {caps : List UInt64} {k : Nat} {cap : UInt64} (h : caps[k]? = some cap) :
    (ofVec caps).at? k = some cap := by
  obtain ⟨hk, -⟩ := List.getElem?_eq_some_iff.mp h
  have hget : caps.getD k 0 = cap := by rw [getD_eq_getElem?_getD, h, getD_some]
  show (if k < caps.length then some (caps.getD k 0) else none) = some cap
  rw [if_pos hk, hget]

theorem CapBuffer.getElem?_toVec (c : CapBuffer) {k : Nat} (h : k < c.usedSlots) : c.toVec[k]? = some (c.slot k) := by
  rw [toVec, getElem?_map, getElem?_range h, map_some]

theorem CapBuffer.usedSlots_le_putAll (c : CapBuffer) (slots : List (Nat × UInt64)) :
    c.usedSlots ≤ (c.putAll slots).usedSlots := by
  induction slots generalizing c with
  | nil => exact Nat.le_refl _
  | cons p _ ih =>
    have hput : c.usedSlots ≤ (c.put p.1 p.2).usedSlots := by
      show c.usedSlots ≤ if c.usedSlots < p.1 + 1 then p.1 + 1 else c.usedSlots
      split <;> omega
    exact Nat.le_trans hput (ih _)

theorem CapBuffer.lt_usedSlots_putAll (c : CapBuffer) {slots : List (Nat × UInt64)}
    {p : Nat × UInt64} (hp : p ∈ slots) : p.1 < (c.putAll slots).usedSlots := by
  induction slots generalizing c with
  | nil => cases hp
  | cons q _ ih =>
    rcases mem_cons.mp hp with rfl | hp
    · have hput : p.1 < (c.put p.1 p.2).usedSlots := by
        show p.1 < if c.usedSlots < p.1 + 1 then p.1 + 1 else c.usedSlots
        split <;> omega
      exact Nat.lt_of_lt_of_le hput (usedSlots_le_putAll _ _)
    · exact ih _ hp

theorem CapBuffer.exists_slot_putAll (c : CapBuffer) {slots : List (Nat × UInt64)} {p : Nat × UInt64}
    (hp : p ∈ slots) : ∃ q ∈ slots, q.1 = p.1 ∧ (c.putAll slots).slot p.1 = q.2 := by
  induction slots generalizing c p with
  | nil => cases hp
  | cons r slots ih =>
    by_cases hlater : p.1 ∈ slots.map Prod.fst
    · obtain ⟨q, hq, hqp⟩ := mem_map.mp hlater
      obtain ⟨q', hq', hfst, hslot⟩ := ih (c.put r.1 r.2) hq
      rw [hqp] at hfst hslot
      exact ⟨q', mem_cons_of_mem _ hq', hfst, hslot⟩
    -- the first write is the last one to this slot
    have hpr : p = r := by
      rcases mem_cons.mp hp with hpr | hp
      · exact hpr
      · exact absurd (mem_map_of_mem hp) hlater
    subst hpr
    refine ⟨p, mem_cons_self, rfl, ?_⟩
    show ((c.put p.1 p.2).putAll slots).slot p.1 = p.2
    rw [slot_putAll_of_not_mem _ hlater]
    exact Function.update_self _ _ _

/-- Capabilities that are written to the same slot are equal. -/
def Message.SlotsAgree (m : Message) : Prop := ∀ p ∈ m.slots, ∀ q ∈ m.slots, p.1 = q.1 → p.2 = q.2

/-- **Every capability is found in its slot** exactly if those that share a slot are equal. -/
theorem Message.slotsAgree_iff (m : Message) (c : CapBuffer) :
    m.SlotsAgree ↔ ∀ p ∈ m.slots, (c.putAll m.slots).toVec[p.1]? = some p.2 := by
  constructor
  · intro h p hp
    obtain ⟨q, hq, hfst, hslot⟩ := c.exists_slot_putAll hp
    rw [getElem?_toVec _ (c.lt_usedSlots_putAll hp), hslot, h q hq p hp hfst]
  · intro h p hp q hq hfst
    have hsame := h p hp
    rw [hfst, h q hq] at hsame
    exact (some.inj hsame).symm

/-! ## From Rust to C++ -/

/-- The numbers that capabilities get, from `next` on. -/
def numbers (next n : Nat) : List UInt64 := (List.range' next n).map UInt64.ofNat

theorem length_numbers (next n : Nat) : (numbers next n).length = n := by
  rw [numbers, length_map, length_range']

theorem numbers_add (next n k : Nat) : numbers next (n + k) = numbers next n ++ numbers (next + n) k := by
  rw [numbers, numbers, numbers, ← map_append, List.range'_append_1]

mutual

theorem Value.numberedFrom_eq_iff (v : Value) (next : Nat) (hsettled : v.Settled) (hnone : v.NoElements) :
    v.numberedFrom next = v ↔ v.capabilities = numbers next v.capabilities.length := by
  cases v with
  | capability c =>
    rw [Value.numberedFrom, Value.capabilities, Value.capability.injEq, length_singleton, numbers,
      List.range'_one, map_singleton, List.cons.injEq]
    constructor
    · exact fun h => ⟨h.symm, rfl⟩
    · exact fun h => h.1.symm
  | message m =>
    rw [Value.numberedFrom, Value.capabilities, Value.message.injEq]
    exact m.numberedFrom_eq_iff next hsettled hnone
  | repeatedMessage ms =>
    subst hnone
    exact ⟨fun _ => rfl, fun _ => rfl⟩
  | emptied => exact hsettled.elim
  | u64 | i64 | string | repeatedU64 => exact ⟨fun _ => rfl, fun _ => rfl⟩

theorem Message.numberedFrom_eq_iff (m : Message) (next : Nat) (hsettled : m.Settled) (hnone : m.NoElements) :
    m.numberedFrom next = m ↔ m.capabilities = numbers next m.capabilities.length := by
  obtain ⟨fields⟩ := m
  rw [Message.numberedFrom, Message.capabilities, Message.mk.injEq]
  exact fieldsNumberedFrom_eq_iff fields next hsettled hnone

theorem fieldsNumberedFrom_eq_iff (vs : List Value) (next : Nat) (hsettled : fieldsSettled vs)
    (hnone : fieldsNoElements vs) :
    fieldsNumberedFrom next vs = vs ↔ fieldsCapabilities vs = numbers next (fieldsCapabilities vs).length := by
  cases vs with
  | nil => exact ⟨fun _ => rfl, fun _ => rfl⟩
  | cons v vs =>
    have hv := v.numberedFrom_eq_iff next hsettled.1 hnone.1
    have hvs := fieldsNumberedFrom_eq_iff vs (next + v.capabilities.length) hsettled.2 hnone.2
    rw [fieldsNumberedFrom, fieldsCapabilities, List.cons.injEq, hv, hvs, length_append, numbers_add]
    constructor
    · intro h
      rw [← h.1, ← h.2]
    · intro h
      exact append_inj h (length_numbers _ _).symm

end

/-- The capabilities in a message inside are their numbers, among all capabilities from `next` on. -/
def Value.InnerInOrder (next : Nat) : Value → Prop
  | .message m => m.capabilities = numbers next m.capabilities.length
  | _ => True

/-- The capabilities in messages inside fields are their numbers. -/
def fieldsInnerInOrder (next : Nat) : List Value → Prop
  | [] => True
  | v :: vs => v.InnerInOrder next ∧ fieldsInnerInOrder (next + v.capabilities.length) vs

/-- Each capability in a message inside a message is its own number among all capabilities. -/
def Message.InnerInOrder (m : Message) : Prop := fieldsInnerInOrder 0 m.fields

variable {caps : CapBuffer}

theorem Value.resolve_numberedFrom (v : Value) (next : Nat) (hrust : v.IsRust) (hnone : v.NoElements)
    (hcaps : ∀ c, v = .capability c → next < 2 ^ 64 ∧ caps.at? next = some c) :
    ∃ w, (v.numberedFrom next).resolve (some caps) = .ok w ∧ (w = v ↔ v.InnerInOrder next) := by
  have hiff := v.numberedFrom_eq_iff next hrust.settled hnone
  cases v with
  | capability c =>
    obtain ⟨hsmall, hat⟩ := hcaps c rfl
    have hnext : (UInt64.ofNat next).toNat = next := by
      exact Nat.mod_eq_of_lt hsmall
    refine ⟨.capability c, ?_, by simp [Value.InnerInOrder]⟩
    rw [Value.numberedFrom, Value.resolve]
    simp only [capAt, hnext, hat, bind, Except.bind, pure, Except.pure]
  | message m =>
    refine ⟨(Value.message m).numberedFrom next, by rw [Value.numberedFrom]; rfl, ?_⟩
    rw [hiff, Value.InnerInOrder, Value.capabilities]
  | emptied =>
    exact hrust.elim
  | _ => exact ⟨_, by rw [Value.numberedFrom]; rfl, by simp [Value.InnerInOrder]⟩

/-- What C++ returns for the bytes that Rust wrote: the message again, exactly if the capabilities inside
are their numbers. -/
theorem resolveFields_numberedFrom (vs : List Value) (next : Nat) (hrust : fieldsAreRust vs)
    (hnone : fieldsNoElements vs) (hcaps : ∀ k c, (fieldsCapabilities vs)[k]? = some c →
      next + k < 2 ^ 64 ∧ caps.at? (next + k) = some c) :
    resolveFields (some caps) (fieldsNumberedFrom next vs) = .ok vs ↔ fieldsInnerInOrder next vs := by
  induction vs generalizing next with
  | nil => simp [fieldsNumberedFrom, resolveFields, fieldsInnerInOrder]
  | cons v vs ih =>
    rw [fieldsCapabilities] at hcaps
    have hown : ∀ c, v = .capability c → next < 2 ^ 64 ∧ caps.at? next = some c := by
      rintro c rfl
      refine hcaps 0 c ?_
      rfl
    have hlater : ∀ k c, (fieldsCapabilities vs)[k]? = some c →
        next + v.capabilities.length + k < 2 ^ 64 ∧ caps.at? (next + v.capabilities.length + k) = some c := by
      intro k c hk
      rw [Nat.add_assoc]
      refine hcaps _ c ?_
      rw [getElem?_append_right (Nat.le_add_right _ _), Nat.add_sub_cancel_left]
      exact hk
    obtain ⟨w, hw, hwiff⟩ := v.resolve_numberedFrom next hrust.1 hnone.1 hown
    have hrest := ih (next + v.capabilities.length) hrust.2 hnone.2 hlater
    rw [fieldsNumberedFrom, resolveFields, hw, fieldsInnerInOrder, ← hwiff, ← hrest]
    cases resolveFields (some caps) (fieldsNumberedFrom (next + v.capabilities.length) vs) with
    | error => simp [bind, Except.bind]
    | ok => simp [bind, Except.bind, pure, Except.pure]

/-- C++ parses the bytes and the capabilities that Rust serialized to the same message. -/
def Message.RustToCpp (m : Message) (schema : Schema) (name : String) (bytes : ByteMemory)
    (offset : Nat) : Prop :=
  ∃ bytes' caps', m.serialize bytes offset [] = .ok (m.length, bytes', caps') ∧
    ∀ fuel, m.length ≤ fuel →
      parseFromBytes schema bytes' fuel name offset (some (ofVec caps')) = .ok (.ok, m)

variable {schema : Schema} {name : String} {offset : Nat}

theorem Message.rustToCpp_iff {m : Message} (htype : m.HasType schema name) (hrust : m.IsRust) (hnone : m.NoElements)
    {bytes : ByteMemory} (hsize : bytes.size < 2 ^ 64) (hroom : offset + m.length ≤ bytes.size)
    (hsmall : offset + m.length < 2 ^ 32) : m.RustToCpp schema name bytes offset ↔ m.InnerInOrder := by
  obtain ⟨bytes', hserialize, hsame, -, hencoded, -⟩ := m.serialize_spec bytes offset [] hrust.settled hroom
    hsize (by omega)
  have hcaps := m.capabilities_le
  have hparse : ∀ fuel, m.length ≤ fuel →
      parseFromBytes schema bytes' fuel name offset (some (ofVec m.capabilities)) =
        (m.numberedFrom 0).resolve (some (ofVec m.capabilities)) := by
    intro fuel hfuel
    rw [← m.length_numberedFrom 0 hrust.settled] at hroom hsmall hfuel
    exact (m.numberedFrom 0).parseFromBytes_spec schema bytes' offset fuel name _
      (m.hasType_numberedFrom 0 htype) (hencoded hnone).2 (by rw [hsame]; exact hroom) hsmall hfuel
  have hresolve : (m.numberedFrom 0).resolve (some (ofVec m.capabilities)) = .ok (.ok, m) ↔
      m.InnerInOrder := by
    cases m with
    | mk fields =>
      rw [Message.capabilities] at hcaps
      have hfound : ∀ k c, (fieldsCapabilities fields)[k]? = some c →
          0 + k < 2 ^ 64 ∧ (ofVec (fieldsCapabilities fields)).at? (0 + k) = some c := by
        intro k c hk
        obtain ⟨hlt, -⟩ := List.getElem?_eq_some_iff.mp hk
        rw [Nat.zero_add]
        exact ⟨by omega, at?_ofVec hk⟩
      have hiff := resolveFields_numberedFrom fields 0 hrust hnone hfound
      rw [Message.numberedFrom, Message.resolve, Message.capabilities, Message.InnerInOrder, Message.fields, ← hiff]
      cases resolveFields (some (ofVec (fieldsCapabilities fields))) (fieldsNumberedFrom 0 fields) with
      | error fault => simp [bind, Except.bind]
      | ok values => simp [bind, Except.bind, pure, Except.pure]
  rw [← hresolve, Message.RustToCpp]
  constructor
  · rintro ⟨bytes'', caps', hserialize', hall⟩
    rw [hserialize, Except.ok.injEq, Prod.mk.injEq, Prod.mk.injEq] at hserialize'
    obtain ⟨-, rfl, rfl⟩ := hserialize'
    exact (hparse _ (Nat.le_refl _)).symm.trans (hall _ (Nat.le_refl _))
  · intro h
    exact ⟨bytes', m.capabilities, hserialize, fun fuel hfuel => (hparse fuel hfuel).trans h⟩

/-! ## From C++ to Rust -/

variable {buf : ByteMemory}

theorem length_of_parseRepeated {len : Nat} {vs : List UInt64}
    (h : parseRepeated buf offset len = .ok vs) : vs.length = len := by
  induction len generalizing offset vs with
  | zero =>
    rw [parseRepeated, Except.ok.injEq] at h
    rw [← h, length_nil]
  | succ _ ih =>
    obtain ⟨number, rest, -, hrest, rfl⟩ := parseRepeated_succ_eq_ok h
    rw [length_cons, ih hrest]

theorem length_of_parseRepeatedMessage {parse : Nat → Except RustFault Message} {len : Nat}
    {ms : List Message} (h : parseRepeatedMessage parse buf offset len = .ok ms) : ms.length = len := by
  induction len generalizing offset ms with
  | zero =>
    rw [parseRepeatedMessage, Except.ok.injEq] at h
    rw [← h, length_nil]
  | succ _ ih =>
    obtain ⟨length, m, rest, -, hrest, rfl⟩ := parseRepeatedMessage_succ_eq_ok h
    rw [length_cons, ih hrest]

theorem length_messagesWire (numbered : Bool) (ms : List Message) : (messagesWire numbered ms).length = ms.length := by
  induction ms with
  | nil => rw [messagesWire]
  | cons m _ ih => rw [messagesWire, length_cons, length_cons, ih]

theorem length_messagesValue (ms : List Message) : (messagesValue ms).length = ms.length := by
  induction ms with
  | nil => rw [messagesValue]
  | cons m _ ih => rw [messagesValue, length_cons, length_cons, ih]

theorem length_of_parseField_messages {caps : List UInt64} {fuel i ext : Nat}
    {ms values : List Message} (hin : WordInside buf offset i)
    (henc : (Value.repeatedMessage ms).EncodedAt buf offset (offset + kHeaderSize + 8 * i) ext)
    (hsmall : ext + messagesLength ms < 2 ^ 32)
    (hparse : parseField (parse schema buf caps fuel) buf caps offset i ⟨true, .message name⟩ =
      .ok (.repeatedMessage values)) : values.length = messagesLength ms := by
  rw [parseField, (pointerAt_of_holds hin henc.1 (by omega) (by omega)).2] at hparse
  obtain ⟨_, ⟨⟩, hparse⟩ := except_bind_eq_ok_iff.mp hparse
  obtain ⟨messages, hread, heq⟩ := except_bind_eq_ok_iff.mp hparse
  cases heq
  exact length_of_parseRepeatedMessage hread

mutual

theorem Value.noElements_of_parseField (schema : Schema) (buf : ByteMemory) (caps : List UInt64) (v : Value)
    (next fuel offset i ext : Nat) (type : FieldType) (htype : v.HasType schema type)
    (henc : (v.wire true next).EncodedAt buf offset (offset + kHeaderSize + 8 * i) ext) (hin : WordInside buf offset i)
    (hroom : offset + ext + v.extension ≤ buf.size) (hsmall : ext + v.extension < 2 ^ 32)
    (hparse : parseField (parse schema buf caps fuel) buf caps offset i type = .ok v.value) :
    v.Settled ∧ v.NoElements := by
  cases v with
  | repeatedU64 vs =>
    rw [Value.extension] at hsmall
    subst htype
    rw [parseField, (pointerAt_of_holds hin henc.1 (by omega) (by omega)).2, Value.value] at hparse
    obtain ⟨_, ⟨⟩, hparse⟩ := except_bind_eq_ok_iff.mp hparse
    obtain ⟨values, hread, heq⟩ := except_bind_eq_ok_iff.mp hparse
    cases heq
    -- the number of elements is their number of bytes
    have hlength := length_of_parseRepeated hread
    have hnil : vs = [] := eq_nil_of_length_eq_zero (by omega)
    subst hnil
    simp [Value.Settled, Value.NoElements]
  | repeatedMessage ms =>
    obtain ⟨name, rfl, -⟩ := htype
    rw [Value.extension, ← messagesLength_wire true] at hsmall
    have hlength := length_of_parseField_messages hin henc hsmall hparse
    have hle := length_le_messagesLength (messagesWire true ms)
    rw [length_messagesWire] at hle
    rw [length_messagesValue] at hlength
    have hnil : ms = [] := eq_nil_of_length_eq_zero (by omega)
    subst hnil
    simp [Value.Settled, messagesSettled, Value.NoElements]
  | emptied first =>
    obtain ⟨name, rfl, -⟩ := htype
    rw [← (Value.emptied first).extension_wire true next, Value.wire, Value.extension] at hsmall
    have hlength := length_of_parseField_messages hin henc hsmall hparse
    have hle := length_le_messagesLength [first.wire true]
    rw [length_singleton] at hle
    rw [length_nil] at hlength
    omega
  | message m =>
    rw [Value.wire, Value.EncodedAt, m.length_wire true] at henc
    rw [Value.extension] at hroom hsmall
    obtain ⟨name, rfl, hm⟩ := htype
    have hsize := hin.size
    have haddr : wrap64 (offset + ext) = _ := wrap64_of_lt (by omega)
    rw [parseField, (pointerAt_of_holds hin henc.1 (by omega) (by omega)).1, Value.value] at hparse
    obtain ⟨_, ⟨⟩, hparse⟩ := except_bind_eq_ok_iff.mp hparse
    obtain ⟨message, hread, heq⟩ := except_bind_eq_ok_iff.mp hparse
    cases heq
    rw [haddr] at hread
    exact m.noElements_of_parse schema buf caps fuel (offset + ext) name hm henc.2 hroom hsize (by omega) hread
  | u64 | i64 | string | capability => simp [Value.Settled, Value.NoElements]

/-- **A message from C++ that Rust reads back has no elements.** -/
theorem Message.noElements_of_parse (schema : Schema) (buf : ByteMemory) (caps : List UInt64) (m : Message)
    (fuel offset : Nat) (name : String) (htype : m.HasType schema name) (henc : (m.wire true).Encoded buf offset)
    (hroom : offset + m.length ≤ buf.size) (hsize : buf.size < 2 ^ 64) (hsmall : m.length < 2 ^ 32)
    (hparse : parse schema buf caps fuel name offset = .ok m.value) : m.Settled ∧ m.NoElements := by
  obtain ⟨fields⟩ := m
  rw [Message.wire, Message.Encoded, length_fieldsWire] at henc
  rw [Message.length] at hroom hsmall
  obtain ⟨types, hname, htypes⟩ := htype
  obtain ⟨-, fuel, types', rfl, hname', hread⟩ := parse_eq_ok hparse
  obtain rfl : types' = types := some.inj (hname'.symm.trans hname)
  exact fieldsNoElements_of_parseFields schema buf caps fields 0 fuel offset 0
    (kHeaderSize + 8 * fields.length) types' htypes henc.2 (by omega) hsize (by omega) (by omega) hread

theorem fieldsNoElements_of_parseFields (schema : Schema) (buf : ByteMemory) (caps : List UInt64) (vs : List Value)
    (next fuel offset i ext : Nat) (types : List FieldType) (htypes : fieldsHaveTypes schema vs types)
    (henc : fieldsEncoded buf offset i ext (fieldsWire true next vs))
    (hwords : kHeaderSize + 8 * (i + vs.length) ≤ ext) (hsize : buf.size < 2 ^ 64)
    (hroom : offset + ext + extensions vs ≤ buf.size) (hsmall : ext + extensions vs < 2 ^ 32)
    (hparse : parseFields (parseField (parse schema buf caps fuel) buf caps offset) i types = .ok (fieldsValue vs)) :
    fieldsSettled vs ∧ fieldsNoElements vs := by
  cases vs with
  | nil => exact ⟨trivial, trivial⟩
  | cons v vs =>
    rw [fieldsWire, fieldsEncoded, v.extension_wire true next] at henc
    rw [extensions] at hroom hsmall
    rw [length_cons] at hwords
    obtain ⟨type, rest, rfl, hv, hvs⟩ := htypes
    obtain ⟨hvalue, hvalues⟩ := parseFields_cons_eq_ok hparse
    have hfirst := v.noElements_of_parseField schema buf caps next fuel offset i ext type hv henc.1
      ⟨hsize, by omega⟩ (by omega) (by omega) hvalue
    have hrest := fieldsNoElements_of_parseFields schema buf caps vs _ fuel offset (i + 1)
      (ext + v.extension) rest hvs henc.2 (by omega) hsize (by omega) (by omega) hvalues
    exact ⟨⟨hfirst.1, hrest.1⟩, hfirst.2, hrest.2⟩

end

mutual

theorem Value.noElements_wire (numbered : Bool) (v : Value) (next : Nat) (hsettled : v.Settled)
    (hnone : v.NoElements) : (v.wire numbered next).NoElements := by
  cases v with
  | message m => exact m.noElements_wire numbered hsettled hnone
  | repeatedU64 vs => exact hnone
  | repeatedMessage ms => rw [Value.wire, Value.NoElements, hnone, messagesWire]
  | emptied => exact hsettled.elim
  | u64 | i64 | string | capability => simp [Value.wire, Value.NoElements]

theorem Message.noElements_wire (numbered : Bool) : (m : Message) → m.Settled → m.NoElements →
    (m.wire numbered).NoElements
  | ⟨fields⟩, hsettled, hnone => by
    exact fieldsNoElements_wire numbered fields 0 hsettled hnone

theorem fieldsNoElements_wire (numbered : Bool) (vs : List Value) (next : Nat) (hsettled : fieldsSettled vs)
    (hnone : fieldsNoElements vs) : fieldsNoElements (fieldsWire numbered next vs) := by
  cases vs with
  | nil => exact hnone
  | cons v vs =>
    exact ⟨v.noElements_wire numbered next hsettled.1 hnone.1, fieldsNoElements_wire numbered vs _ hsettled.2 hnone.2⟩

end

mutual

theorem Value.lookup_wire_iff (caps : List UInt64) (v : Value) (next : Nat) (hsettled : v.Settled)
    (hnone : v.NoElements) (hsmall : ∀ p ∈ v.slots next, p.1 < 2 ^ 64) :
    (v.wire true next).lookup caps = .ok v.value ↔ v.IsRust ∧ ∀ p ∈ v.slots next, caps[p.1]? = some p.2 := by
  cases v with
  | capability c =>
    have hnext : (UInt64.ofNat next).toNat = next := by
      exact Nat.mod_eq_of_lt (hsmall (next, c) mem_cons_self)
    rw [Value.wire, if_pos rfl, Value.lookup, Value.value, Value.IsRust, Value.slots, hnext]
    cases hcap : caps[next]? with
    | none | some => simp [hcap]
  | string s =>
    rw [Value.wire, Value.lookup, Value.value, Value.IsRust, Value.slots]
    by_cases hutf8 : isUtf8 s = true
    all_goals simp [hutf8]
  | message m =>
    have hiff := m.lookup_wire_iff caps hsettled hnone hsmall
    rw [Value.wire, Value.lookup, Value.value, Value.IsRust, Value.slots, ← hiff]
    cases (m.wire true).lookup caps with
    | error => simp [bind, Except.bind]
    | ok => simp [bind, Except.bind, pure, Except.pure]
  | repeatedMessage ms =>
    rw [Value.NoElements] at hnone
    simp [hnone, Value.wire, Value.lookup, Value.value, Value.IsRust, Value.slots, messagesWire,
      messagesValue, messagesAreRust, messagesSlots]
  | emptied => exact hsettled.elim
  | u64 | i64 | repeatedU64 =>
    simp [Value.wire, Value.lookup, Value.value, Value.IsRust, Value.slots]

/-- What Rust returns for the bytes that C++ wrote: the message again, exactly if its strings are UTF-8
and its capabilities are found under their numbers. -/
theorem Message.lookup_wire_iff (caps : List UInt64) (m : Message) (hsettled : m.Settled)
    (hnone : m.NoElements) (hsmall : ∀ p ∈ m.slots, p.1 < 2 ^ 64) :
    (m.wire true).lookup caps = .ok m.value ↔ m.IsRust ∧ ∀ p ∈ m.slots, caps[p.1]? = some p.2 := by
  obtain ⟨fields⟩ := m
  have hiff := fieldsLookup_wire_iff caps fields 0 hsettled hnone hsmall
  rw [Message.wire, Message.lookup, Message.value, Message.IsRust, Message.slots, ← hiff]
  cases fieldsLookup caps (fieldsWire true 0 fields) with
  | error => simp [bind, Except.bind]
  | ok => simp [bind, Except.bind, pure, Except.pure]

theorem fieldsLookup_wire_iff (caps : List UInt64) (vs : List Value) (next : Nat) (hsettled : fieldsSettled vs)
    (hnone : fieldsNoElements vs) (hsmall : ∀ p ∈ fieldsSlots next vs, p.1 < 2 ^ 64) :
    fieldsLookup caps (fieldsWire true next vs) = .ok (fieldsValue vs) ↔
      fieldsAreRust vs ∧ ∀ p ∈ fieldsSlots next vs, caps[p.1]? = some p.2 := by
  cases vs with
  | nil => simp [fieldsWire, fieldsLookup, fieldsValue, fieldsAreRust, fieldsSlots]
  | cons v vs =>
    have hv := v.lookup_wire_iff caps next hsettled.1 hnone.1 fun p hp => hsmall p (mem_append_left _ hp)
    have hvs := fieldsLookup_wire_iff caps vs (next + v.ownCapabilities) hsettled.2 hnone.2
      fun p hp => hsmall p (mem_append_right _ hp)
    have hcons : fieldsLookup caps (fieldsWire true next (v :: vs)) = .ok (fieldsValue (v :: vs)) ↔
        (v.wire true next).lookup caps = .ok v.value ∧
          fieldsLookup caps (fieldsWire true (next + v.ownCapabilities) vs) = .ok (fieldsValue vs) := by
      rw [fieldsWire, fieldsLookup, fieldsValue]
      cases (v.wire true next).lookup caps with
      | error => simp [bind, Except.bind]
      | ok =>
        cases fieldsLookup caps (fieldsWire true (next + v.ownCapabilities) vs) with
        | error => simp [bind, Except.bind]
        | ok => simp [bind, Except.bind, pure, Except.pure]
    rw [hcons, hv, hvs, fieldsAreRust, fieldsSlots, forall_mem_append]
    tauto

end

/-- Rust parses the bytes and the capabilities that C++ serialized to the same message. -/
def Message.CppToRust (m : Message) (schema : Schema) (name : String) (bytes : ByteMemory)
    (offset : Nat) (caps : CapBuffer) : Prop :=
  ∃ bytes' caps', m.serializeToBytes bytes offset (some caps) = some (m.length, bytes', some caps') ∧
    ∀ fuel, m.length ≤ fuel → parse schema bytes' caps'.toVec fuel name offset = .ok m.value

theorem Message.cppToRust_iff {m : Message} (htype : m.HasType schema name) {bytes : ByteMemory}
    (hsize : bytes.size < 2 ^ 64) (hroom : offset + m.length ≤ bytes.size)
    (hsmall : offset + m.length < 2 ^ 32) (hslots : m.slots.length ≤ caps.size) :
    m.CppToRust schema name bytes offset caps ↔ m.IsRust ∧ m.NoElements ∧ m.SlotsAgree := by
  have hfits : ∀ c, some caps = some c → ∀ p ∈ m.slots, p.1 < c.size := by
    rintro c ⟨⟩ p hp
    exact Nat.lt_of_lt_of_le (m.slot_lt p hp) hslots
  obtain ⟨bytes', hwrite, hw, henc⟩ :=
    m.serializeToBytes_spec bytes offset (some caps) hroom hsmall hfits
  rw [← hw.size] at hsize hroom
  have hnumbers : ∀ p ∈ m.slots, p.1 < 2 ^ 64 := by
    intro p hp
    have hlt := m.slot_lt p hp
    have hle := m.length_slots_le
    omega
  -- without elements, `parse` looks the capabilities up
  have hparse : m.Settled → m.NoElements → ∀ fuel, m.length ≤ fuel →
      (parse schema bytes' (caps.putAll m.slots).toVec fuel name offset = .ok m.value ↔ m.IsRust ∧ m.SlotsAgree) := by
    intro hsettled hnone fuel hfuel
    have hlength : m.length < 2 ^ 32 := by omega
    rw [← m.length_wire true] at hroom hlength hfuel
    rw [(m.wire true).parse_spec schema _ bytes' fuel offset name (m.hasType_wire true htype)
      (m.noElements_wire true hsettled hnone) henc hroom hsize hlength hfuel,
      m.lookup_wire_iff _ hsettled hnone hnumbers, m.slotsAgree_iff caps]
  constructor
  · rintro ⟨bytes'', caps', hwrite', hall⟩
    rw [hwrite, some.injEq, Prod.mk.injEq, Prod.mk.injEq] at hwrite'
    obtain ⟨-, rfl, hcaps⟩ := hwrite'
    rw [map_some, some.injEq] at hcaps
    subst hcaps
    have hback := hall m.length (Nat.le_refl _)
    obtain ⟨hsettled, hnone⟩ := m.noElements_of_parse schema bytes' _ m.length offset name htype henc
      hroom hsize (by omega) hback
    obtain ⟨hrust, hagree⟩ := (hparse hsettled hnone _ (Nat.le_refl _)).mp hback
    exact ⟨hrust, hnone, hagree⟩
  · rintro ⟨hrust, hnone, hagree⟩
    refine ⟨bytes', caps.putAll m.slots, hwrite, fun fuel hfuel => ?_⟩
    exact (hparse hrust.settled hnone fuel hfuel).mpr ⟨hrust, hagree⟩

/-! ## Agreement -/

/-- **Agreement of the two implementations.** For every schema, message and offset with enough room: C++ parses
what Rust serialized, if Rust has the message, and Rust parses what C++ serialized, both to the same message,
exactly if Rust has the message (its strings are UTF-8), no repeated field has elements, each capability in a
message inside is its own number among all capabilities, and capabilities with the same number in their messages
are equal. -/
theorem rust_cpp_agree_iff {schema : Schema} {name : String} {m : Message} (htype : m.HasType schema name)
    (bytes : ByteMemory) (hsize : bytes.size < 2 ^ 64) (offset : Nat) (hroom : offset + m.length ≤ bytes.size)
    (hsmall : offset + m.length < 2 ^ 32) (caps : CapBuffer) (hslots : m.slots.length ≤ caps.size) :
    ((m.IsRust → m.RustToCpp schema name bytes offset) ∧ m.CppToRust schema name bytes offset caps) ↔
      m.IsRust ∧ m.NoElements ∧ m.InnerInOrder ∧ m.SlotsAgree := by
  rw [Message.cppToRust_iff htype hsize hroom hsmall hslots]
  constructor
  · rintro ⟨hcpp, hrust, hnone, hagree⟩
    have horder := (Message.rustToCpp_iff htype hrust hnone hsize hroom hsmall).mp (hcpp hrust)
    exact ⟨hrust, hnone, horder, hagree⟩
  · rintro ⟨hrust, hnone, horder, hagree⟩
    refine ⟨fun _ => ?_, hrust, hnone, hagree⟩
    exact (Message.rustToCpp_iff htype hrust hnone hsize hroom hsmall).mpr horder

theorem rust_cpp_agree_iff_open : openRequest.RustToCpp requestSchema "Open" (zeros 256) 16 ∧
      openRequest.CppToRust requestSchema "Open" (zeros 256) 16 (emptyCaps 4) := by
  have horder : openRequest.InnerInOrder := by
    simp [openRequest, Message.InnerInOrder, Message.fields, fieldsInnerInOrder, Value.InnerInOrder,
      Message.capabilities, fieldsCapabilities, Value.capabilities, numbers]
  have hagree : openRequest.SlotsAgree := by
    simp [openRequest, Message.SlotsAgree, Message.slots, fieldsSlots, Value.slots]
  obtain ⟨hcpp, hback⟩ := (rust_cpp_agree_iff openRequest_hasType (zeros 256) (by decide) 16 (by decide)
    (by decide) (emptyCaps 4) (by decide)).mpr
    ⟨openRequest_isRust, openRequest_noElements, horder, hagree⟩
  exact ⟨hcpp openRequest_isRust, hback⟩

/-- **The length of a repeated field differs**: for eight numbers Rust writes the length 8, which C++ takes for
one number, and for one number C++ writes the length 8, which Rust takes for eight numbers. -/
theorem repeated_lengths_differ :
    (∃ bytes' caps', (Message.mk [.repeatedU64 [1, 2, 3, 4, 5, 6, 7, 8]]).serialize (zeros 256) 0 [] =
        .ok (96, bytes', caps') ∧
      parseFromBytes requestSchema bytes' 96 "Words" 0 (some (ofVec caps')) =
        .ok (.ok, ⟨[.repeatedU64 [1]]⟩)) ∧
    ∃ bytes' caps', (Message.mk [.repeatedU64 [1]]).serializeToBytes (zeros 256) 0
        (some (emptyCaps 4)) = some (40, bytes', some caps') ∧
      parse requestSchema bytes' caps'.toVec 40 "Words" 0 = .ok ⟨[.repeatedU64 [1, 0, 0, 0, 0, 0, 0, 0]]⟩ := by
  exact ⟨⟨_, _, rfl, rfl⟩, _, _, rfl, rfl⟩

end Acadia.Yunq
