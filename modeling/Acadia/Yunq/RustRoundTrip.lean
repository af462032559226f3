import Acadia.Yunq.CppRoundTrip
import Acadia.Yunq.RustSpec

/-! # Round trips of the generated Rust code

A message without elements in its repeated fields is read back at every offset. With elements, which are written
to an offset from the start of the buffer, there is one at which the header of the message is written over
them. -/

namespace Acadia.Yunq

open ByteMemory List RustWriter

/-! ## Messages without elements -/

mutual

theorem Value.noElements_numberedFrom : (v : Value) → (next : Nat) → v.NoElements → (v.numberedFrom next).NoElements
  | .message m, next, h => by
    exact m.noElements_numberedFrom next h
  | .repeatedU64 _, _, h | .repeatedMessage _, _, h => by
    exact h
  | .emptied _, _, _ => by rw [Value.numberedFrom, Value.NoElements]
  | .u64 _, _, _ | .i64 _, _, _ | .string _, _, _ | .capability _, _, _ => by
    trivial

theorem Message.noElements_numberedFrom (m : Message) (next : Nat) (h : m.NoElements) :
    (m.numberedFrom next).NoElements := by
  obtain ⟨fields⟩ := m
  exact fieldsNoElements_numberedFrom fields next h

theorem fieldsNoElements_numberedFrom (vs : List Value) (next : Nat) (h : fieldsNoElements vs) :
    fieldsNoElements (fieldsNumberedFrom next vs) := by
  cases vs with
  | nil => trivial
  | cons v vs => exact ⟨v.noElements_numberedFrom next h.1, fieldsNoElements_numberedFrom vs _ h.2⟩

end

mutual

theorem Value.IsRust.settled : {v : Value} → v.IsRust → v.Settled
  | .message m, h => by
    rw [Value.IsRust] at h
    exact h.settled
  | .repeatedMessage ms, h => by
    rw [Value.IsRust] at h
    exact messagesSettled_of_rust h
  | .emptied _, h => by
    exact h.elim
  | .u64 _, _ | .i64 _, _ | .string _, _ | .capability _, _ | .repeatedU64 _, _ => by
    trivial

theorem Message.IsRust.settled : {m : Message} → m.IsRust → m.Settled
  | ⟨fields⟩, h => by
    rw [Message.IsRust] at h
    exact fieldsSettled_of_rust h

theorem fieldsSettled_of_rust : {vs : List Value} → fieldsAreRust vs → fieldsSettled vs
  | [], _ => by
    trivial
  | v :: vs, h => by
    rw [fieldsAreRust] at h
    exact ⟨h.1.settled, fieldsSettled_of_rust h.2⟩

theorem messagesSettled_of_rust : {ms : List Message} → messagesAreRust ms → messagesSettled ms
  | [], _ => by
    trivial
  | m :: ms, h => by
    rw [messagesAreRust] at h
    exact ⟨h.1.settled, messagesSettled_of_rust h.2⟩

end

mutual

theorem Value.lookup_numberedFrom (v : Value) (before after : List UInt64) (hrust : v.IsRust)
    (hnone : v.NoElements) (hsmall : before.length + v.capabilities.length < 2 ^ 64) :
    (v.numberedFrom before.length).lookup (before ++ (v.capabilities ++ after)) = .ok v := by
  cases v with
  | capability c =>
    have hnumber : (UInt64.ofNat before.length).toNat = before.length := by
      exact Nat.mod_eq_of_lt (by omega)
    rw [Value.numberedFrom, Value.lookup, hnumber, getElem?_append_right (Nat.le_refl _), Nat.sub_self]
    rfl
  | string s =>
    rw [Value.IsRust] at hrust
    rw [Value.numberedFrom, Value.lookup, if_pos hrust]
  | message m =>
    rw [Value.capabilities] at hsmall ⊢
    rw [Value.numberedFrom, Value.lookup, m.lookup_numberedFrom before after hrust hnone hsmall]
    rfl
  | emptied => exact hrust.elim
  | u64 | i64 | repeatedU64 | repeatedMessage => rw [Value.numberedFrom, Value.lookup]

theorem Message.lookup_numberedFrom (m : Message) (before after : List UInt64) (hrust : m.IsRust)
    (hnone : m.NoElements) (hsmall : before.length + m.capabilities.length < 2 ^ 64) :
    (m.numberedFrom before.length).lookup (before ++ (m.capabilities ++ after)) = .ok m := by
  obtain ⟨fields⟩ := m
  rw [Message.capabilities] at hsmall ⊢
  rw [Message.numberedFrom, Message.lookup, fieldsLookup_numberedFrom fields before after hrust hnone hsmall]
  rfl

theorem fieldsLookup_numberedFrom : (vs : List Value) → (before after : List UInt64) →
    fieldsAreRust vs → fieldsNoElements vs →
    before.length + (fieldsCapabilities vs).length < 2 ^ 64 →
    fieldsLookup (before ++ (fieldsCapabilities vs ++ after)) (fieldsNumberedFrom before.length vs) = .ok vs
  | [], before, after, _, _, _ => by rw [fieldsNumberedFrom, fieldsLookup]
  | v :: vs, before, after, hrust, hnone, hsmall => by
    rw [fieldsCapabilities, length_append] at hsmall
    have hfirst := v.lookup_numberedFrom before (fieldsCapabilities vs ++ after) hrust.1 hnone.1 (by omega)
    have hrest := fieldsLookup_numberedFrom vs (before ++ v.capabilities) after hrust.2 hnone.2
      (by rw [length_append]; omega)
    rw [length_append, append_assoc] at hrest
    rw [fieldsCapabilities, append_assoc, fieldsNumberedFrom, fieldsLookup, hfirst, hrest]
    rfl

end

/-! ## What `parse` reads there -/

/-- What a way to elements makes `parse` read: the number, or the first word of a header. -/
def FirstRead (buf : ByteMemory) (d : Nat) : Option UInt64 → Prop
  | some v => ∃ number, numberAt buf 8 d = .ok number ∧ UInt64.ofNat number = v
  | none => numberAt buf 4 d = .ok kIdentByte

variable {buf : ByteMemory} {offset len coreSize length : Nat}

theorem firstRead_of_parseRepeated {v : UInt64} {vs : List UInt64} (hoffset : offset < 2 ^ 32)
    (h : parseRepeated buf offset (len + 1) = .ok (v :: vs)) : FirstRead buf offset (some v) := by
  have haddr : wrap64 offset = _ := wrap64_of_lt (by omega)
  obtain ⟨number, rest, hnumber, -, heq⟩ := parseRepeated_succ_eq_ok h
  rw [haddr] at hnumber
  exact ⟨number, hnumber, (List.cons.inj heq).1.symm⟩

variable {schema : Schema} {name : String}

theorem firstRead_of_parseRepeatedMessage {caps : List UInt64} {fuel : Nat} {ms : List Message}
    (h : parseRepeatedMessage (parse schema buf caps fuel name) buf offset (len + 1) = .ok ms) :
    FirstRead buf offset none := by
  obtain ⟨-, m, -, hm, -, -⟩ := parseRepeatedMessage_succ_eq_ok h
  exact (parse_eq_ok hm).1

mutual

theorem Value.firstRead (schema : Schema) (buf : ByteMemory) (caps : List UInt64) (v : Value)
    (fuel offset i ext d : Nat) (first : Option UInt64) (type : FieldType) (htype : v.HasType schema type)
    (hleads : v.LeadsTo buf offset (offset + kHeaderSize + 8 * i) ext d first) (hin : WordInside buf offset i)
    (hroom : offset + ext + v.extension ≤ buf.size) (hsmall : ext + v.extension < 2 ^ 32)
    (hparse : parseField (parse schema buf caps fuel) buf caps offset i type = .ok v) : FirstRead buf d first := by
  cases v with
  | repeatedU64 vs =>
    rcases vs with _ | ⟨v, vs⟩
    · exact hleads.elim
    rw [Value.extension, length_cons] at hsmall
    obtain ⟨hholds, rfl, rfl⟩ := hleads
    subst htype
    rw [parseField, (pointerAt_of_holds hin hholds (by omega) (by omega)).2] at hparse
    obtain ⟨_, ⟨⟩, hparse⟩ := except_bind_eq_ok_iff.mp hparse
    obtain ⟨values, hread, heq⟩ := except_bind_eq_ok_iff.mp hparse
    cases heq
    exact firstRead_of_parseRepeated (by omega) hread
  | repeatedMessage ms =>
    rcases ms with _ | ⟨m, ms⟩
    · exact hleads.elim
    obtain ⟨name, rfl, -⟩ := htype
    obtain ⟨hholds, rfl, rfl⟩ := hleads
    have hlength := length_le_messagesLength (m :: ms)
    rw [Value.extension] at hsmall
    rw [length_cons] at hlength
    rw [parseField, (pointerAt_of_holds hin hholds (by omega) (by omega)).2] at hparse
    obtain ⟨_, ⟨⟩, hparse⟩ := except_bind_eq_ok_iff.mp hparse
    obtain ⟨messages, hread, -⟩ := except_bind_eq_ok_iff.mp hparse
    exact firstRead_of_parseRepeatedMessage hread
  | message m =>
    rw [Value.extension] at hroom hsmall
    obtain ⟨name, rfl, hm⟩ := htype
    have hsize := hin.size
    have haddr : wrap64 (offset + ext) = _ := wrap64_of_lt (by omega)
    rw [parseField, (pointerAt_of_holds hin hleads.1 (by omega) (by omega)).1] at hparse
    obtain ⟨_, ⟨⟩, hparse⟩ := except_bind_eq_ok_iff.mp hparse
    obtain ⟨message, hread, heq⟩ := except_bind_eq_ok_iff.mp hparse
    cases heq
    rw [haddr] at hread
    exact m.firstRead schema buf caps fuel (offset + ext) d first name hm hleads.2 hroom hsize (by omega) hread
  | u64 | i64 | string | capability | emptied => exact hleads.elim

/-- **A message that is read back has its elements where it leads to.** -/
theorem Message.firstRead (schema : Schema) (buf : ByteMemory) (caps : List UInt64) (m : Message) (fuel offset d : Nat)
    (first : Option UInt64) (name : String) (htype : m.HasType schema name) (hleads : m.LeadsTo buf offset d first)
    (hroom : offset + m.length ≤ buf.size) (hsize : buf.size < 2 ^ 64) (hsmall : m.length < 2 ^ 32)
    (hparse : parse schema buf caps fuel name offset = .ok m) : FirstRead buf d first := by
  obtain ⟨fields⟩ := m
  rw [Message.length] at hroom hsmall
  obtain ⟨types, hname, htypes⟩ := htype
  obtain ⟨-, fuel, types', rfl, hname', hread⟩ := parse_eq_ok hparse
  obtain rfl : types' = types := Option.some.inj (hname'.symm.trans hname)
  exact fieldsFirstRead schema buf caps fields fuel offset 0 (kHeaderSize + 8 * fields.length) d first
    types' htypes hleads (by omega) hsize (by omega) (by omega) hread

theorem fieldsFirstRead (schema : Schema) (buf : ByteMemory) (caps : List UInt64) (vs : List Value)
    (fuel offset i ext d : Nat) (first : Option UInt64) (types : List FieldType)
    (htypes : fieldsHaveTypes schema vs types) (hleads : fieldsLeadTo buf offset i ext d first vs)
    (hwords : kHeaderSize + 8 * (i + vs.length) ≤ ext) (hsize : buf.size < 2 ^ 64)
    (hroom : offset + ext + extensions vs ≤ buf.size) (hsmall : ext + extensions vs < 2 ^ 32)
    (hparse : parseFields (parseField (parse schema buf caps fuel) buf caps offset) i types = .ok vs) :
    FirstRead buf d first := by
  cases vs with
  | nil => exact hleads.elim
  | cons v vs =>
    rw [extensions] at hroom hsmall
    rw [length_cons] at hwords
    obtain ⟨type, rest, rfl, hv, hvs⟩ := htypes
    obtain ⟨hvalue, hvalues⟩ := parseFields_cons_eq_ok hparse
    rcases hleads with hleads | hleads
    · exact v.firstRead schema buf caps fuel offset i ext d first type hv hleads
        ⟨hsize, by omega⟩ (by omega) (by omega) hvalue
    · exact fieldsFirstRead schema buf caps vs fuel offset (i + 1) (ext + v.extension) d first
        rest hvs hleads (by omega) hsize (by omega) (by omega) hvalues

end

/-! ## Round trips -/

/-- `parse` returns a message that `serialize` wrote, in every buffer and at every offset with room. -/
def Message.RoundTrips (m : Message) (schema : Schema) (name : String) : Prop :=
  ∀ (buf : ByteMemory) (offset : Nat) (caps : List UInt64), buf.size < 2 ^ 64 →
    offset + m.length ≤ buf.size → caps.length + m.capabilities.length < 2 ^ 64 →
    ∃ buf' caps', m.serialize buf offset caps = .ok (m.length, buf', caps') ∧
      ∀ fuel, m.length ≤ fuel → parse schema buf' caps' fuel name offset = .ok m

/-- `parse_from_request` returns a message that `serialize_as_request` wrote, in every buffer with room,
and the request has its number and its length. -/
def Message.RequestsRoundTrip (m : Message) (schema : Schema) (name : String) : Prop :=
  ∀ (buf : ByteMemory) (requestId : UInt64) (caps : List UInt64), buf.size < 2 ^ 64 →
    16 + m.length ≤ buf.size → caps.length + m.capabilities.length < 2 ^ 64 →
    ∃ buf' caps', m.serializeAsRequest requestId buf caps = .ok (m.length + 16, buf', caps') ∧
      numberAt buf' 8 8 = .ok requestId.toNat ∧ numberAt buf' 4 4 = .ok (16 + m.length) ∧
      ∀ fuel, m.length ≤ fuel → parseFromRequest schema buf' caps' fuel name = .ok m

variable {m : Message}

theorem Message.parse_numberedFrom (htype : m.HasType schema name) (hrust : m.IsRust) (hnone : m.NoElements)
    {caps : List UInt64} (henc : (m.numberedFrom caps.length).Encoded buf offset) (hsize : buf.size < 2 ^ 64)
    (hroom : offset + m.length ≤ buf.size) (hsmall : m.length < 2 ^ 32)
    (hcaps : caps.length + m.capabilities.length < 2 ^ 64) (fuel : Nat) (hfuel : m.length ≤ fuel) :
    parse schema buf (caps ++ m.capabilities) fuel name offset = .ok m := by
  rw [← m.length_numberedFrom caps.length hrust.settled] at hroom hsmall hfuel
  have hparse := (m.numberedFrom caps.length).parse_spec schema (caps ++ m.capabilities) buf fuel offset
    name (m.hasType_numberedFrom caps.length htype)
    (m.noElements_numberedFrom caps.length hnone) henc hroom hsize hsmall hfuel
  have hlookup := m.lookup_numberedFrom caps [] hrust hnone hcaps
  rw [append_nil] at hlookup
  rw [hparse, hlookup]

theorem Message.roundTrips_of_noElements (htype : m.HasType schema name) (hrust : m.IsRust)
    (hsmall : m.length < 2 ^ 32) (hnone : m.NoElements) : m.RoundTrips schema name := by
  intro buf offset caps hsize hroom hcaps
  obtain ⟨buf', hserialize, hsame, -, hencoded, -⟩ := m.serialize_spec buf offset caps hrust.settled hroom hsize hsmall
  rw [← hsame] at hsize hroom
  exact ⟨buf', _, hserialize, Message.parse_numberedFrom htype hrust hnone (hencoded hnone).2 hsize hroom hsmall hcaps⟩

theorem requestHeader_spec (hsize : buf.size < 2 ^ 64) (hroom : 16 ≤ buf.size) (requestId : UInt64) :
    ∃ buf1 buf2, writeAt buf 0 (littleEndian 4 sentinel) = .ok buf1 ∧
      writeAt buf1 8 (littleEndian 8 requestId.toNat) = .ok buf2 ∧ buf2.size = buf.size ∧
      buf2.Holds 0 (littleEndian 4 sentinel) ∧ buf2.Holds 8 (littleEndian 8 requestId.toNat) := by
  refine ⟨buf.store 0 (littleEndian 4 sentinel),
    (buf.store 0 (littleEndian 4 sentinel)).store 8 (littleEndian 8 requestId.toNat), ?_, ?_, rfl, ?_,
    holds_store _ _ _⟩
  · exact writeAt_eq_ok hsize (by rw [length_littleEndian]; omega)
  · exact writeAt_eq_ok hsize (by rw [length_littleEndian]; exact hroom)
  · refine (holds_store buf 0 _).of_writes (writes_store _ _ _) ?_
    simp only [length_littleEndian]
    omega

theorem Message.requestsRoundTrip_of_noElements (htype : m.HasType schema name) (hrust : m.IsRust)
    (hsmall : m.length + 16 < 2 ^ 32) (hnone : m.NoElements) : m.RequestsRoundTrip schema name := by
  intro buf requestId caps hsize hroom hcaps
  obtain ⟨buf1, buf2, hfirst, hsecond, hsame2, hsentinel, hid⟩ := requestHeader_spec hsize (by omega) requestId
  rw [← hsame2] at hsize hroom
  obtain ⟨buf3, hserialize, hsame3, -, hencoded, -⟩ := m.serialize_spec buf2 16 caps hrust.settled hroom hsize (by omega)
  obtain ⟨hw3, henc⟩ := hencoded hnone
  rw [← hsame3] at hsize hroom
  have hlast : writeAt buf3 4 (littleEndian 4 (16 + m.length)) = .ok _ :=
    writeAt_eq_ok hsize (by rw [length_littleEndian]; omega)
  -- the message is behind the first 16 bytes, and the length is between the two other words
  have hw4 := writes_store buf3 4 (littleEndian 4 (16 + m.length))
  have hlength := holds_store buf3 4 (littleEndian 4 (16 + m.length))
  have hsentinel4 := (hsentinel.of_writes hw3 (by rw [length_littleEndian]; intros; omega)).of_writes
    hw4 (by simp only [length_littleEndian]; intros; omega)
  have hid4 := (hid.of_writes hw3 (by rw [length_littleEndian]; intros; omega)).of_writes
    hw4 (by simp only [length_littleEndian]; intros; omega)
  have henc4 := henc.of_writes hw4 (by simp only [length_littleEndian]; intros; omega)
  refine ⟨_, caps ++ m.capabilities, ?_, numberAt_of_holds hid4 requestId.toNat_lt hsize ?_,
    numberAt_of_holds hlength ?_ hsize ?_, ?_⟩
  · simp only [Message.serializeAsRequest, hfirst, hsecond, hserialize, hlast, bind, Except.bind, pure, Except.pure]
  · show 8 + 8 ≤ buf3.size
    omega
  · show 16 + m.length < 2 ^ 32
    omega
  · show 4 + 4 ≤ buf3.size
    omega
  · intro fuel hfuel
    have hword := numberAt_of_holds hsentinel4 (by decide) hsize (Nat.le_trans (by omega) hroom)
    have hparse := Message.parse_numberedFrom htype hrust hnone henc4 hsize hroom (by omega) hcaps fuel hfuel
    rw [parseFromRequest, hword]
    exact hparse

/-! ## Elements under the header -/

mutual

theorem Value.capabilities_le : (v : Value) → 8 * v.capabilities.length ≤ 8 + v.extension
  | .capability c => by simp [Value.capabilities]
  | .message m => by
    exact Nat.le_trans m.capabilities_le (Nat.le_add_left _ _)
  | .repeatedMessage ms => by
    exact Nat.le_trans (messagesCapabilities_le ms) (Nat.le_add_left _ _)
  | .u64 _ | .i64 _ | .string _ | .repeatedU64 _ | .emptied _ => by simp [Value.capabilities]

theorem Message.capabilities_le : (m : Message) → 8 * m.capabilities.length ≤ m.length
  | ⟨fields⟩ => by
    have hfields := fieldsCapabilities_le fields
    rw [Message.capabilities, Message.length]
    omega

theorem fieldsCapabilities_le : (vs : List Value) → 8 * (fieldsCapabilities vs).length ≤ 8 * vs.length + extensions vs
  | [] => by simp [fieldsCapabilities]
  | v :: vs => by
    have hv := v.capabilities_le
    have hvs := fieldsCapabilities_le vs
    rw [fieldsCapabilities, extensions, length_append, length_cons]
    omega

theorem messagesCapabilities_le : (ms : List Message) → 8 * (messagesCapabilities ms).length ≤ messagesLength ms
  | [] => by simp [messagesCapabilities]
  | m :: ms => by
    have hm := m.capabilities_le
    have hms := messagesCapabilities_le ms
    rw [messagesCapabilities, messagesLength, length_append]
    omega

end

/-- The words of the header at `offset` are read from inside it. -/
theorem numberAt_header (h : buf.Holds offset (headerBytes coreSize length)) (hsize : buf.size < 2 ^ 64)
    (hroom : offset + 16 ≤ buf.size) (hcore : coreSize < 2 ^ 32) (hlength : length < 2 ^ 32) :
    numberAt buf 4 (offset + 4) = .ok coreSize ∧ numberAt buf 8 (offset + 4) = .ok (coreSize + 2 ^ 32 * length) ∧
      numberAt buf 8 (offset + 8) = .ok length := by
  rw [headerBytes, holds_append, length_littleEndian] at h
  obtain ⟨-, h⟩ := h
  have hafter := holds_append.mp h
  have hboth : buf.Holds (offset + 4) (littleEndian 4 coreSize ++ littleEndian 4 length) := by
    rw [holds_append, length_littleEndian]
    exact ⟨hafter.1, (holds_append.mp hafter.2).1⟩
  have hwide := numberAt_of_bytes hboth hsize (by simp only [length_append, length_littleEndian]; omega)
  have hlast := numberAt_of_bytes hafter.2 hsize (by simp only [length_append, length_littleEndian]; omega)
  simp only [length_append, length_littleEndian, ofLittleEndian_append,
    ofLittleEndian_of_lt (show coreSize < 256 ^ 4 from hcore),
    ofLittleEndian_of_lt (show length < 256 ^ 4 from hlength),
    ofLittleEndian_of_lt (show 0 < 256 ^ 4 by decide), Nat.mul_zero, Nat.add_zero] at hwide hlast
  exact ⟨numberAt_of_holds hafter.1 hcore hsize (by omega), hwide, hlast⟩

theorem header_words_ne (hcore : coreSize < 2 ^ 32) (hlength : length < 2 ^ 32) (hpos : 0 < length) :
    UInt64.ofNat (coreSize + 2 ^ 32 * length) ≠ UInt64.ofNat length := by
  intro h
  have hwide : coreSize + 2 ^ 32 * length < 2 ^ 64 := by omega
  have hnarrow : length < 2 ^ 64 := by omega
  have hsame := congrArg UInt64.toNat h
  rw [UInt64.toNat_ofNat', UInt64.toNat_ofNat', Nat.mod_eq_of_lt hwide, Nat.mod_eq_of_lt hnarrow] at hsame
  omega

/-- **A message that is read back at every offset has no elements.** At two offsets the header of the
message is written over the first of them, with different bytes. -/
theorem Message.noElements_of_roundTrips (htype : m.HasType schema name) (hrust : m.IsRust)
    (hsmall : m.length < 2 ^ 32) (h : m.RoundTrips schema name) : m.NoElements := by
  by_contra helements
  obtain ⟨⟨d, first⟩, hx⟩ := Option.ne_none_iff_exists'.mp (mt m.elementsAt_eq_none_iff.mp helements)
  obtain ⟨hd, hdlt⟩ : 32 ≤ d ∧ d < 2 ^ 32 := by
    obtain ⟨_, _, _, _, _, hleads⟩ := m.serialize_spec (zeros m.length) 0 [] hrust.settled
      (Nat.le_of_eq (Nat.zero_add _)) (by show m.length < 2 ^ 64; omega) hsmall
    exact ⟨(hleads _ hx).1, (hleads _ hx).2.1⟩
  have hcaps := m.capabilities_le
  have hcore : kHeaderSize + 8 * m.fields.length ≤ m.length := by
    cases m with
    | mk fields =>
      exact Nat.le_add_right _ _
  have hheader : kHeaderSize = 24 := rfl
  -- what is read if the message is at an offset
  have hread : ∀ offset, offset ≤ d → ∃ buf : ByteMemory, FirstRead buf d first ∧
      numberAt buf 4 (offset + 4) = .ok (kHeaderSize + 8 * m.fields.length) ∧
      numberAt buf 8 (offset + 4) = .ok (kHeaderSize + 8 * m.fields.length + 2 ^ 32 * m.length) ∧
      numberAt buf 8 (offset + 8) = .ok m.length := by
    intro offset hoffset
    have hsize : (zeros (offset + m.length)).size < 2 ^ 64 := by
      show offset + m.length < 2 ^ 64
      omega
    obtain ⟨buf, caps, hserialize, hparse⟩ := h (zeros (offset + m.length)) offset [] hsize
      (Nat.le_refl _) (by rw [length_nil]; omega)
    obtain ⟨buf', hserialize', hsame, hholds, -, hleads⟩ := m.serialize_spec (zeros (offset + m.length)) offset
      [] hrust.settled (Nat.le_refl _) hsize hsmall
    rw [hserialize, Except.ok.injEq, Prod.mk.injEq, Prod.mk.injEq] at hserialize'
    obtain ⟨-, rfl, -⟩ := hserialize'
    have hroom : offset + m.length ≤ buf.size := by
      rw [hsame]
      exact Nat.le_refl _
    rw [← hsame] at hsize
    exact ⟨buf, m.firstRead schema buf caps m.length offset d first name htype (hleads _ hx).2.2 hroom hsize hsmall
      (hparse _ (Nat.le_refl _)), numberAt_header hholds hsize (by omega) (by omega) hsmall⟩
  obtain ⟨buf1, hfirst1, hshort1, hwide1, -⟩ := hread (d - 4) (by omega)
  obtain ⟨buf2, hfirst2, -, -, hwide2⟩ := hread (d - 8) (by omega)
  rw [show d - 4 + 4 = d by omega] at hshort1 hwide1
  rw [show d - 8 + 8 = d by omega] at hwide2
  cases first with
  | none =>
    -- the size of the fields is a multiple of eight
    rw [FirstRead, hshort1, Except.ok.injEq] at hfirst1
    have hident : kIdentByte = 0x33441122 := rfl
    omega
  | some v =>
    obtain ⟨number1, hnumber1, hv1⟩ := hfirst1
    obtain ⟨number2, hnumber2, hv2⟩ := hfirst2
    rw [hwide1, Except.ok.injEq] at hnumber1
    rw [hwide2, Except.ok.injEq] at hnumber2
    rw [← hnumber1] at hv1
    rw [← hnumber2] at hv2
    exact header_words_ne (by omega) hsmall (by omega) (hv1.trans hv2.symm)

/-! ## The result -/

theorem numberAt_lt {width number : Nat} (h : numberAt buf width offset = .ok number) : number < 256 ^ width := by
  rw [numberAt, sliceAt] at h
  split at h
  · simp [bind, Except.bind] at h
  split at h
  · simp [bind, Except.bind] at h
  have hlt := ofLittleEndian_lt (buf.slice offset width)
  rw [length_slice] at hlt
  simp only [bind, Except.bind, pure, Except.pure, Except.ok.injEq] at h
  rw [← h]
  exact hlt

theorem Message.length_of_requestsRoundTrip (hfits : 16 + m.length < 2 ^ 64)
    (h : m.RequestsRoundTrip schema name) : m.length + 16 < 2 ^ 32 := by
  have hcaps := m.capabilities_le
  obtain ⟨buf, caps, -, -, hlength, -⟩ := h (zeros (16 + m.length)) 0 [] hfits (Nat.le_refl _)
    (by rw [length_nil]; omega)
  have hlt := numberAt_lt hlength
  omega

/-- **Round trips of the generated Rust code.** For every schema and every message for which there is a buffer:
the message is read back at every offset, and from every request, exactly if a request with it is shorter than
2^32 bytes and no repeated field has elements, here or in a message inside. -/
theorem serialize_parse_rust_iff {schema : Schema} {name : String} {m : Message} (htype : m.HasType schema name)
    (hrust : m.IsRust) (hfits : 16 + m.length < 2 ^ 64) :
    (m.RoundTrips schema name ∧ m.RequestsRoundTrip schema name) ↔ (m.length + 16 < 2 ^ 32 ∧ m.NoElements) := by
  constructor
  · intro h
    have hsmall := Message.length_of_requestsRoundTrip hfits h.2
    exact ⟨hsmall, Message.noElements_of_roundTrips htype hrust (by omega) h.1⟩
  · intro h
    exact ⟨Message.roundTrips_of_noElements htype hrust (by omega) h.2,
      Message.requestsRoundTrip_of_noElements htype hrust h.1 h.2⟩

/-- A file with a message that has words, and one that has a name, a message and a capability. -/
def requestSchema : Schema
  | "Words" => some [⟨true, .u64⟩]
  | "Open" => some [⟨false, .string⟩, ⟨false, .message "Words"⟩, ⟨false, .capability⟩]
  | _ => none

/-- A message without elements. -/
def openRequest : Message := ⟨[.string [104, 105], .message ⟨[.repeatedU64 []]⟩, .capability 7]⟩

theorem openRequest_hasType : openRequest.HasType requestSchema "Open" := by
  have hwords : (Message.mk [.repeatedU64 []]).HasType requestSchema "Words" := by
    refine ⟨_, rfl, ?_⟩
    simp [fieldsHaveTypes, Value.HasType]
  refine ⟨_, rfl, ?_⟩
  simp [fieldsHaveTypes, Value.HasType, hwords]

theorem openRequest_isRust : openRequest.IsRust := by
  have hutf8 : isUtf8 [104, 105] = true := by decide
  simp [openRequest, Message.IsRust, fieldsAreRust, Value.IsRust, hutf8]

theorem openRequest_noElements : openRequest.NoElements := by
  simp [openRequest, Message.NoElements, fieldsNoElements, Value.NoElements]

theorem serialize_parse_rust_iff_open :
    openRequest.RoundTrips requestSchema "Open" ∧ openRequest.RequestsRoundTrip requestSchema "Open" := by
  exact (serialize_parse_rust_iff openRequest_hasType openRequest_isRust (by decide)).mpr
    ⟨by decide, openRequest_noElements⟩

/-- **A request with elements is not read back**: the second of two numbers is under the word of its own
field. -/
theorem request_loses_element :
    ∃ buf' caps', (Message.mk [.repeatedU64 [1, 2]]).serializeAsRequest 9 (zeros 256) [] = .ok (64, buf', caps') ∧
      parseFromRequest requestSchema buf' caps' 48 "Words" = .ok ⟨[.repeatedU64 [1, 0x200000020]]⟩ := by
  exact ⟨_, _, rfl, rfl⟩

end Acadia.Yunq
