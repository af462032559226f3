import Acadia.Foundations.Command
import Acadia.Yunq.RustMessage

/-! # What the generated Rust code writes and reads

A message whose repeated fields have no elements is written in the wire format, with its capabilities numbered on
from those that are there, and read back from it. With elements, `serialize` still succeeds and returns the same
length. -/

namespace Acadia.Yunq

open ByteMemory List RustWriter

/-! ## Writing bytes -/

section Writing

variable {buf : ByteMemory} {a offset i : Nat} {bytes : List UInt8}

theorem writeAt_eq_ok (hsize : buf.size < 2 ^ 64) (h : a + bytes.length ≤ buf.size) :
    writeAt buf a bytes = .ok (buf.store a bytes) := by
  have hsum : wrap64 (bytes.length + a) = _ := wrap64_of_lt (by omega)
  rw [writeAt, hsum, if_neg (by omega), if_neg (by omega)]

theorem writeAt_behind (cs : List UInt8) {buf' : ByteMemory}
    (hw : buf.Writes buf' fun j => a ≤ j ∧ j < a + bytes.length) (hholds : buf'.Holds a bytes)
    (hsize : buf.size < 2 ^ 64) (h : a + bytes.length + cs.length ≤ buf.size) :
    ∃ buf'', writeAt buf' (wrap64 (a + bytes.length)) cs = .ok buf'' ∧
      (buf.Writes buf'' fun j => a ≤ j ∧ j < a + (bytes ++ cs).length) ∧
      buf''.Holds a (bytes ++ cs) := by
  have haddr : wrap64 (a + bytes.length) = _ := wrap64_of_lt (by omega)
  have hstore := writes_store buf' (a + bytes.length) cs
  rw [← hw.size] at hsize h
  rw [haddr]
  refine ⟨_, writeAt_eq_ok hsize h, (hw.mono ?_).trans (hstore.mono ?_), ?_⟩
  · intro j hj
    rw [length_append]
    omega
  · intro j hj
    rw [length_append]
    omega
  · rw [holds_append]
    refine ⟨hholds.of_writes hstore ?_, holds_store _ _ _⟩
    omega

theorem writePointer_spec (hsize : buf.size < 2 ^ 64)
    (h : offset + kHeaderSize + 8 * i + 8 ≤ buf.size) (extOffset length : Nat) :
    ∃ buf', writePointer buf offset i extOffset length = .ok buf' ∧ (buf.Writes buf' fun j =>
        offset + kHeaderSize + 8 * i ≤ j ∧ j < offset + kHeaderSize + 8 * i + 8) ∧
      buf'.Holds (offset + kHeaderSize + 8 * i) (pointerBytes extOffset length) := by
  have hoffset : fieldOffset offset i = offset + kHeaderSize + 8 * i := by
    rw [fieldOffset, wrap64, Nat.mod_eq_of_lt]
    omega
  have hfirst : writeAt buf (offset + kHeaderSize + 8 * i) (littleEndian 4 extOffset) = .ok _ :=
    writeAt_eq_ok hsize (by rw [length_littleEndian]; omega)
  obtain ⟨buf', hsecond, hw, hholds⟩ := writeAt_behind (littleEndian 4 length)
    (writes_store buf (offset + kHeaderSize + 8 * i) (littleEndian 4 extOffset))
    (holds_store buf _ _) hsize (by simp only [length_littleEndian]; exact h)
  refine ⟨buf', ?_, ?_, hholds⟩
  · rw [writePointer, hoffset, hfirst]
    exact hsecond
  · simpa only [length_append, length_littleEndian] using hw

theorem writeHeader_spec (hsize : buf.size < 2 ^ 64) (h : offset + 16 ≤ buf.size) (coreSize length : Nat) :
    ∃ buf', writeHeader buf offset coreSize length = .ok buf' ∧
      (buf.Writes buf' fun j => offset ≤ j ∧ j < offset + 16) ∧
      buf'.Holds offset (headerBytes coreSize length) := by
  have hfirst : writeAt buf offset (littleEndian 4 kIdentByte) = .ok _ :=
    writeAt_eq_ok hsize (by rw [length_littleEndian]; omega)
  -- three more words, each behind the one before
  obtain ⟨buf2, hsecond, hw2, hholds2⟩ := writeAt_behind (littleEndian 4 coreSize)
    (writes_store buf offset (littleEndian 4 kIdentByte)) (holds_store buf _ _) hsize
    (by simp only [length_littleEndian]; omega)
  obtain ⟨buf3, hthird, hw3, hholds3⟩ := writeAt_behind (littleEndian 4 length) hw2 hholds2 hsize
    (by simp only [length_append, length_littleEndian]; omega)
  obtain ⟨buf4, hfourth, hw4, hholds4⟩ := writeAt_behind (littleEndian 4 0) hw3 hholds3 hsize
    (by simp only [length_append, length_littleEndian]; omega)
  simp only [length_append, length_littleEndian, Nat.reduceAdd] at hsecond hthird hfourth hw4
  refine ⟨buf4, ?_, hw4, ?_⟩
  · simp only [writeHeader, hfirst, hsecond, hthird, hfourth, bind, Except.bind]
  · simpa only [headerBytes, append_assoc] using hholds4

theorem serializeWords_spec (vs : List UInt64) (buf : ByteMemory) (a : Nat) (hsize : buf.size < 2 ^ 64)
    (h : a + 8 * vs.length ≤ buf.size) : ∃ buf', serializeWords buf a vs = .ok buf' ∧ buf'.size = buf.size := by
  induction vs generalizing buf a with
  | nil => exact ⟨buf, rfl, rfl⟩
  | cons v vs ih =>
    rw [length_cons] at h
    have haddr : wrap64 a = _ := wrap64_of_lt (by omega)
    have hstore := writes_store buf a (littleEndian 8 v.toNat)
    obtain ⟨buf', hrest, hsame⟩ := ih (buf.store a (littleEndian 8 v.toNat)) (a + 8) hsize (by rw [hstore.size]; omega)
    refine ⟨buf', ?_, hsame⟩
    rw [serializeWords, haddr, writeAt_eq_ok hsize (by rw [length_littleEndian]; omega)]
    exact hrest

end Writing

/-! ## Values that are written -/

@[simp] theorem length_fieldsNumberedFrom (next : Nat) (vs : List Value) :
    (fieldsNumberedFrom next vs).length = vs.length := by
  induction vs generalizing next with
  | nil => rw [fieldsNumberedFrom]
  | cons v vs ih => rw [fieldsNumberedFrom, length_cons, length_cons, ih]

mutual

theorem Value.extension_numberedFrom (v : Value) (next : Nat) (h : v.Settled) :
    (v.numberedFrom next).extension = v.extension := by
  cases v with
  | message m =>
    rw [Value.numberedFrom, Value.extension, Value.extension, m.length_numberedFrom next h]
  | emptied => exact h.elim
  | u64 | i64 | string | capability | repeatedU64 | repeatedMessage =>
    simp only [Value.numberedFrom, Value.extension]

theorem Message.length_numberedFrom (m : Message) (next : Nat) (h : m.Settled) :
    (m.numberedFrom next).length = m.length := by
  obtain ⟨fields⟩ := m
  rw [Message.numberedFrom, Message.length, Message.length, length_fieldsNumberedFrom,
    extensions_numberedFrom fields next h]

theorem extensions_numberedFrom : (vs : List Value) → (next : Nat) → fieldsSettled vs →
    extensions (fieldsNumberedFrom next vs) = extensions vs
  | [], next, _ => by rw [fieldsNumberedFrom]
  | v :: vs, next, h => by
    rw [fieldsNumberedFrom, extensions, extensions, v.extension_numberedFrom next h.1,
      extensions_numberedFrom vs _ h.2]

end

mutual

theorem Value.hasType_numberedFrom {schema : Schema} {type : FieldType} (v : Value) (next : Nat)
    (h : v.HasType schema type) : (v.numberedFrom next).HasType schema type := by
  cases v with
  | message m =>
    obtain ⟨name, htype, hm⟩ := h
    exact ⟨name, htype, m.hasType_numberedFrom next hm⟩
  | emptied first =>
    obtain ⟨name, htype, -⟩ := h
    refine ⟨name, htype, ?_⟩
    trivial
  | u64 | i64 | string | capability | repeatedU64 | repeatedMessage => exact h

theorem Message.hasType_numberedFrom {schema : Schema} {name : String} (m : Message) (next : Nat)
    (h : m.HasType schema name) : (m.numberedFrom next).HasType schema name := by
  obtain ⟨fields⟩ := m
  obtain ⟨types, hname, hfields⟩ := h
  exact ⟨types, hname, fieldsHaveTypes_numberedFrom fields next hfields⟩

theorem fieldsHaveTypes_numberedFrom {schema : Schema} {types : List FieldType} (vs : List Value) (next : Nat)
    (h : fieldsHaveTypes schema vs types) : fieldsHaveTypes schema (fieldsNumberedFrom next vs) types := by
  cases vs with
  | nil => exact h
  | cons v vs =>
    obtain ⟨type, rest, htypes, hv, hvs⟩ := h
    exact ⟨type, rest, htypes, v.hasType_numberedFrom next hv, fieldsHaveTypes_numberedFrom vs _ hvs⟩

end

/-! ## Where elements are -/

mutual

/-- A field leads to elements: its word, or a word in a message inside, says that the elements of a
repeated field are at `d`. The first of them is the number `first`, or a message. -/
def Value.LeadsTo (b : ByteMemory) (start slot ext d : Nat) (first : Option UInt64) : Value → Prop
  | .repeatedU64 (v :: vs) =>
    b.Holds slot (pointerBytes ext (vs.length + 1)) ∧ d = ext ∧ first = some v
  | .repeatedMessage (_ :: ms) =>
    b.Holds slot (pointerBytes ext (ms.length + 1)) ∧ d = ext ∧ first = none
  | .message m => b.Holds slot (pointerBytes ext m.length) ∧ m.LeadsTo b (start + ext) d first
  | _ => False

/-- A message leads to elements. -/
def Message.LeadsTo (b : ByteMemory) (start d : Nat) (first : Option UInt64) : Message → Prop
  | ⟨fields⟩ => fieldsLeadTo b start 0 (kHeaderSize + 8 * fields.length) d first fields

/-- One of the fields leads to elements. -/
def fieldsLeadTo (b : ByteMemory) (start i ext d : Nat) (first : Option UInt64) : List Value → Prop
  | [] => False
  | v :: vs => v.LeadsTo b start (start + kHeaderSize + 8 * i) ext d first ∨
    fieldsLeadTo b start (i + 1) (ext + v.extension) d first vs

end

section Elements

variable {b b' : ByteMemory} {d : Nat} {first : Option UInt64}

mutual

theorem Value.LeadsTo.congr {start slot ext : Nat} : {v : Value} → v.LeadsTo b start slot ext d first →
    (∀ i, slot ≤ i → i < slot + 8 → b'.byte i = b.byte i) →
    (∀ i, start + ext ≤ i → i < start + ext + v.extension → b'.byte i = b.byte i) →
    v.LeadsTo b' start slot ext d first
  | .repeatedU64 (v :: vs), h, hslot, _ => by
    exact ⟨h.1.congr (by rw [length_pointerBytes]; exact hslot), h.2⟩
  | .repeatedMessage (m :: ms), h, hslot, _ => by
    exact ⟨h.1.congr (by rw [length_pointerBytes]; exact hslot), h.2⟩
  | .message m, h, hslot, hext => by
    exact ⟨h.1.congr (by rw [length_pointerBytes]; exact hslot), h.2.congr hext⟩
  | .repeatedU64 [], h, _, _ | .repeatedMessage [], h, _, _ | .u64 _, h, _, _ | .i64 _, h, _, _
  | .string _, h, _, _ | .capability _, h, _, _ | .emptied _, h, _, _ => by
    simp only [Value.LeadsTo] at h

theorem Message.LeadsTo.congr {start : Nat} : {m : Message} → m.LeadsTo b start d first →
    (∀ i, start ≤ i → i < start + m.length → b'.byte i = b.byte i) → m.LeadsTo b' start d first
  | ⟨fields⟩, h, hsame => by
    rw [Message.length] at hsame
    refine fieldsLeadTo_congr h ?_ ?_
    all_goals exact fun i hle hlt => hsame i (by omega) (by omega)

theorem fieldsLeadTo_congr {start i ext : Nat} : {vs : List Value} → fieldsLeadTo b start i ext d first vs →
    (∀ j, start + kHeaderSize + 8 * i ≤ j → j < start + kHeaderSize + 8 * (i + vs.length) → b'.byte j = b.byte j) →
    (∀ j, start + ext ≤ j → j < start + ext + extensions vs → b'.byte j = b.byte j) →
    fieldsLeadTo b' start i ext d first vs
  | [], h, _, _ => by
    exact h.elim
  | v :: vs, h, hslots, hext => by
    rw [length_cons] at hslots
    rw [extensions] at hext
    rcases h with h | h
    · refine Or.inl (h.congr ?_ ?_)
      · exact fun j hle hlt => hslots j hle (by omega)
      · exact fun j hle hlt => hext j hle (by omega)
    · refine Or.inr (fieldsLeadTo_congr h ?_ ?_)
      · exact fun j hle hlt => hslots j (by omega) (by omega)
      · exact fun j hle hlt => hext j (by omega) (by omega)

end

end Elements

mutual

/-- Where the elements of a repeated field are written that no later field with elements follows, and
the first of them. -/
def Value.elementsAt (ext : Nat) : Value → Option (Nat × Option UInt64)
  | .repeatedU64 (v :: _) => some (ext, some v)
  | .repeatedMessage (_ :: _) => some (ext, none)
  | .message m => m.elementsAt
  | _ => none

/-- Where the elements of a message are written. -/
def Message.elementsAt : Message → Option (Nat × Option UInt64)
  | ⟨fields⟩ => fieldsElementsAt (kHeaderSize + 8 * fields.length) fields

/-- Where the elements of fields are written. -/
def fieldsElementsAt (ext : Nat) : List Value → Option (Nat × Option UInt64)
  | [] => none
  | v :: vs => (fieldsElementsAt (ext + v.extension) vs).or (v.elementsAt ext)

end

mutual

theorem Value.elementsAt_eq_none_iff : (v : Value) → (ext : Nat) → (v.elementsAt ext = none ↔ v.NoElements)
  | .message m, _ => by rw [Value.elementsAt, Value.NoElements, m.elementsAt_eq_none_iff]
  | .repeatedU64 [], _ | .repeatedU64 (_ :: _), _ | .repeatedMessage [], _ | .repeatedMessage (_ :: _), _
  | .u64 _, _ | .i64 _, _ | .string _, _ | .capability _, _ | .emptied _, _ => by
    simp [Value.elementsAt, Value.NoElements]

theorem Message.elementsAt_eq_none_iff : (m : Message) → (m.elementsAt = none ↔ m.NoElements)
  | ⟨fields⟩ => by rw [Message.elementsAt, Message.NoElements, fieldsElementsAt_eq_none_iff]

theorem fieldsElementsAt_eq_none_iff : (vs : List Value) → (ext : Nat) →
    (fieldsElementsAt ext vs = none ↔ fieldsNoElements vs)
  | [], _ => by simp [fieldsElementsAt, fieldsNoElements]
  | v :: vs, ext => by
    rw [fieldsElementsAt, fieldsNoElements, Option.or_eq_none_iff, fieldsElementsAt_eq_none_iff vs,
      v.elementsAt_eq_none_iff, and_comm]

end

/-! ## `serialize` -/

namespace RustWriter

variable {w w' w'' : RustWriter} {offset i n ext : Nat} {caps more : List UInt64}

/-- There is room for `n` fields from number `i` on, and `ext` bytes behind the words. -/
structure HasRoom (w : RustWriter) (offset i n ext : Nat) : Prop where
  room : offset + w.nextExtension + ext ≤ w.buf.size
  size : w.buf.size < 2 ^ 64
  /-- Offsets inside the message fit in 32 bits. -/
  small : w.nextExtension + ext < 2 ^ 32
  /-- The words of the fields are before what follows the words. -/
  words : kHeaderSize + 8 * (i + n) ≤ w.nextExtension

/-- What writing fields changes in any case. -/
structure Wrote (w w' : RustWriter) (ext : Nat) (caps : List UInt64) : Prop where
  nextExtension : w'.nextExtension = w.nextExtension + ext
  caps : w'.caps = w.caps ++ caps
  size : w'.buf.size = w.buf.size

/-- Only the words of `n` fields and `ext` bytes behind the words change. -/
def Within (w w' : RustWriter) (offset i n ext : Nat) : Prop :=
  w.buf.Writes w'.buf fun j =>
    (offset + kHeaderSize + 8 * i ≤ j ∧ j < offset + kHeaderSize + 8 * (i + n)) ∨
      (offset + w.nextExtension ≤ j ∧ j < offset + w.nextExtension + ext)

theorem HasRoom.word_le (h : w.HasRoom offset i 1 ext) : offset + kHeaderSize + 8 * i + 8 ≤ w.buf.size := by
  have hroom := h.room
  have hwords := h.words
  omega

theorem HasRoom.le_nextExtension (h : w.HasRoom offset i 1 ext) : 32 ≤ w.nextExtension := by
  have hwords := h.words
  have hheader : kHeaderSize = 24 := rfl
  omega

theorem HasRoom.fieldOffset_eq (h : w.HasRoom offset i 1 ext) :
    fieldOffset offset i = offset + kHeaderSize + 8 * i := by
  have hle := h.word_le
  have hsize := h.size
  rw [fieldOffset, wrap64, Nat.mod_eq_of_lt]
  omega

theorem HasRoom.wraps (h : w.HasRoom offset i 1 ext) :
    wrap64 (offset + w.nextExtension) = offset + w.nextExtension ∧ wrap32 ext = ext ∧
      wrap32 (w.nextExtension + ext) = w.nextExtension + ext ∧
      wrap64 (w.nextExtension + ext) = w.nextExtension + ext := by
  have hroom := h.room
  have hsmall := h.small
  have hsize := h.size
  exact ⟨wrap64_of_lt (by omega), wrap32_of_lt (by omega), wrap32_of_lt hsmall, wrap64_of_lt (by omega)⟩

/-- A field leaves the room for the others. -/
theorem HasRoom.rest {ext' : Nat} (h : w.HasRoom offset i (n + 1) (ext + ext'))
    (hw : w.Wrote w' ext caps) : w'.HasRoom offset (i + 1) n ext' := by
  obtain ⟨hroom, hsize, hsmall, hwords⟩ := h
  refine ⟨?_, by rwa [hw.size], ?_, ?_⟩
  · rw [hw.nextExtension, hw.size]
    omega
  all_goals
    rw [hw.nextExtension]
    omega

theorem HasRoom.first {ext' : Nat} (h : w.HasRoom offset i (n + 1) (ext + ext')) : w.HasRoom offset i 1 ext := by
  obtain ⟨hroom, hsize, hsmall, hwords⟩ := h
  exact ⟨by omega, hsize, by omega, by omega⟩

/-- The room of a message is that of its fields. -/
theorem hasRoom_fields {buf : ByteMemory} (hsize : buf.size < 2 ^ 64)
    (hroom : offset + (kHeaderSize + 8 * n + ext) ≤ buf.size) (hsmall : kHeaderSize + 8 * n + ext < 2 ^ 32) :
    HasRoom ⟨buf, caps, kHeaderSize + 8 * n⟩ offset 0 n ext :=
  ⟨by rwa [Nat.add_assoc], hsize, hsmall, Nat.le_of_eq (by rw [Nat.zero_add])⟩

/-- A field is written that is only a word. -/
theorem writeWord_spec (h : w.HasRoom offset i 1 0) (value : Nat) (caps : List UInt64) :
    ∃ buf', writeAt w.buf (fieldOffset offset i) (littleEndian 8 value) = .ok buf' ∧
      w.Wrote ⟨buf', w.caps ++ caps, w.nextExtension⟩ 0 caps ∧
      w.Within ⟨buf', w.caps ++ caps, w.nextExtension⟩ offset i 1 0 ∧
      buf'.Holds (offset + kHeaderSize + 8 * i) (littleEndian 8 value) := by
  have hle := h.word_le
  rw [h.fieldOffset_eq]
  have hstore := writes_store w.buf (offset + kHeaderSize + 8 * i) (littleEndian 8 value)
  refine ⟨_, writeAt_eq_ok h.size (by rw [length_littleEndian]; exact hle), ⟨rfl, rfl, hstore.size⟩, ?_,
    holds_store _ _ _⟩
  refine hstore.mono fun j hj => Or.inl ?_
  rw [length_littleEndian] at hj
  omega

theorem writePointer_field (h : w.HasRoom offset i 1 ext) {buf1 : ByteMemory}
    (hsame : buf1.size = w.buf.size) (length : Nat) (caps : List UInt64) :
    ∃ buf', writePointer buf1 offset i w.nextExtension length = .ok buf' ∧
      w.Wrote ⟨buf', w.caps ++ caps, w.nextExtension + ext⟩ ext caps ∧
      buf'.Holds (offset + kHeaderSize + 8 * i) (pointerBytes w.nextExtension length) ∧
      (buf1.Writes buf' fun j =>
        offset + kHeaderSize + 8 * i ≤ j ∧ j < offset + kHeaderSize + 8 * i + 8) ∧
      ((w.buf.Writes buf1 fun j =>
          offset + w.nextExtension ≤ j ∧ j < offset + w.nextExtension + ext) →
        w.Within ⟨buf', w.caps ++ caps, w.nextExtension + ext⟩ offset i 1 ext) := by
  obtain ⟨buf', hpointer, hw, hholds⟩ := writePointer_spec (by rw [hsame]; exact h.size)
    (by rw [hsame]; exact h.word_le) w.nextExtension length
  refine ⟨buf', hpointer, ⟨rfl, rfl, hw.size.trans hsame⟩, hholds, hw, fun hbefore => ?_⟩
  refine (hbefore.mono fun j hj => Or.inr hj).trans (hw.mono fun j hj => ?_)
  omega

end RustWriter

mutual

theorem Value.rustWrite_spec (v : Value) (w : RustWriter) (offset i : Nat) (hsettled : v.Settled)
    (h : w.HasRoom offset i 1 v.extension) :
    ∃ w', w.writeValue offset i v = .ok w' ∧ w.Wrote w' v.extension v.capabilities ∧
      (v.NoElements → w.Within w' offset i 1 v.extension ∧
        (v.numberedFrom w.caps.length).EncodedAt w'.buf offset (offset + kHeaderSize + 8 * i) w.nextExtension) ∧
      ∀ x ∈ v.elementsAt w.nextExtension, 32 ≤ x.1 ∧ x.1 < 2 ^ 32 ∧
        v.LeadsTo w'.buf offset (offset + kHeaderSize + 8 * i) w.nextExtension x.1 x.2 := by
  cases v with
  | u64 v =>
    obtain ⟨buf, hwrite, hwrote, hwithin, hholds⟩ := writeWord_spec h v.toNat []
    rw [append_nil] at hwrote hwithin
    refine ⟨{ w with buf }, ?_, by rwa [Value.capabilities], fun _ => ⟨hwithin, ?_⟩, by simp [Value.elementsAt]⟩
    · rw [writeValue, hwrite]
      rfl
    · rwa [Value.numberedFrom, Value.EncodedAt]
  | i64 v =>
    obtain ⟨buf, hwrite, hwrote, hwithin, hholds⟩ := writeWord_spec h v.toUInt64.toNat []
    rw [append_nil] at hwrote hwithin
    refine ⟨{ w with buf }, ?_, by rwa [Value.capabilities], fun _ => ⟨hwithin, ?_⟩, by simp [Value.elementsAt]⟩
    · rw [writeValue, hwrite]
      rfl
    · rwa [Value.numberedFrom, Value.EncodedAt]
  | capability c =>
    obtain ⟨buf, hwrite, hwrote, hwithin, hholds⟩ := writeWord_spec h w.caps.length [c]
    refine ⟨_, ?_, by rwa [Value.capabilities], fun _ => ⟨hwithin, ?_⟩, by simp [Value.elementsAt]⟩
    · rw [writeValue, hwrite]
      rfl
    · rw [Value.numberedFrom, Value.EncodedAt, UInt64.toNat_ofNat', ← Nat.pow_mul 256 1 8]
      exact (littleEndian_mod 8 w.caps.length).symm ▸ hholds
  | string s =>
    rw [Value.extension] at h ⊢
    obtain ⟨haddr, hlength, hnext, -⟩ := h.wraps
    have hwords := h.words
    obtain ⟨buf, hpointer, hwrote, hholds, hw, hwithin⟩ := writePointer_field h
      (writes_store w.buf (offset + w.nextExtension) s).size s.length []
    rw [append_nil] at hwrote hwithin
    refine ⟨_, ?_, by rwa [Value.capabilities], fun _ => ⟨hwithin (writes_store _ _ _), ?_⟩,
      by simp [Value.elementsAt]⟩
    · rw [writeValue]
      simp only [haddr, hlength, hnext, writeAt_eq_ok h.size h.room, hpointer, bind, Except.bind, pure, Except.pure]
    · rw [Value.numberedFrom, Value.EncodedAt]
      refine ⟨hholds, (holds_store _ _ _).of_writes hw fun j hle hlt hj => ?_⟩
      omega
  | message m =>
    rw [Value.extension] at h ⊢
    obtain ⟨haddr, hlength, hnext, -⟩ := h.wraps
    have hwords := h.words
    have hsmall := h.small
    obtain ⟨buf1, hserialize, hsame, -, henc, hleads⟩ := m.serialize_spec w.buf (offset + w.nextExtension)
      w.caps hsettled h.room h.size (by omega)
    obtain ⟨buf, hpointer, hwrote, hholds, hw, hwithin⟩ := writePointer_field h hsame m.length m.capabilities
    refine ⟨_, ?_, by rwa [Value.capabilities], ?_, ?_⟩
    · rw [writeValue]
      simp only [haddr, hlength, hnext, hserialize, hpointer, bind, Except.bind, pure, Except.pure]
    · rw [Value.NoElements, Value.numberedFrom, Value.EncodedAt, m.length_numberedFrom _ hsettled]
      intro hnone
      obtain ⟨hinside, hencoded⟩ := henc hnone
      refine ⟨hwithin hinside, hholds, hencoded.of_writes hw fun j hle hlt hj => ?_⟩
      omega
    · intro x hx
      obtain ⟨hle, hlt, hinner⟩ := hleads x hx
      -- the pointer is written before the message inside
      refine ⟨hle, hlt, hholds, hinner.congr fun j hjle hjlt => hw.outside j ?_⟩
      omega
  | repeatedU64 vs =>
    rw [Value.extension] at h ⊢
    obtain ⟨-, -, hnext, hstop⟩ := h.wraps
    have hroom := h.room
    have hsmall := h.small
    obtain ⟨buf1, hserialize, hsame⟩ := serializeWords_spec vs w.buf w.nextExtension h.size (by omega)
    obtain ⟨buf, hpointer, hwrote, hholds, -, hwithin⟩ := writePointer_field h hsame vs.length []
    rw [append_nil] at hwrote hwithin
    refine ⟨_, ?_, by rwa [Value.capabilities], ?_, ?_⟩
    · rw [writeValue, serializeRepeated]
      simp only [hserialize, hstop, hnext, hpointer, bind, Except.bind, pure, Except.pure]
    · rw [Value.NoElements, Value.numberedFrom, Value.EncodedAt]
      rintro rfl
      -- nothing is written for no elements
      cases hserialize
      exact ⟨hwithin (Writes.refl _ _), hholds, trivial⟩
    · cases vs with
      | nil => simp [Value.elementsAt]
      | cons v vs =>
        rintro x ⟨⟩
        exact ⟨h.le_nextExtension, by omega, hholds, rfl, rfl⟩
  | repeatedMessage ms =>
    rw [Value.extension] at h ⊢
    obtain ⟨-, -, hnext, -⟩ := h.wraps
    have hroom := h.room
    have hsmall := h.small
    obtain ⟨buf1, hserialize, hsame⟩ := serializeRepeatedMessage_spec ms w.buf w.nextExtension w.caps
      hsettled (by omega) h.size hsmall
    obtain ⟨buf, hpointer, hwrote, hholds, -, hwithin⟩ := writePointer_field h hsame
      ms.length (messagesCapabilities ms)
    refine ⟨_, ?_, by rwa [Value.capabilities], ?_, ?_⟩
    · rw [writeValue]
      simp only [hserialize, hnext, hpointer, bind, Except.bind, pure, Except.pure]
    · rw [Value.NoElements, Value.numberedFrom, Value.EncodedAt]
      rintro rfl
      rw [serializeRepeatedMessage, Except.ok.injEq, Prod.mk.injEq, Prod.mk.injEq] at hserialize
      obtain ⟨-, rfl, -⟩ := hserialize
      exact ⟨hwithin (Writes.refl _ _), hholds, trivial⟩
    · cases ms with
      | nil => simp [Value.elementsAt]
      | cons m ms =>
        rintro x ⟨⟩
        exact ⟨h.le_nextExtension, by omega, hholds, rfl, rfl⟩
  | emptied => exact hsettled.elim

/-- **What `serialize` does** with enough room: it returns the length of the message, appends its
capabilities and leaves its header; and if no repeated field has elements it changes nothing outside the
message and leaves its encoding there, with the capabilities numbered. If one has, there is a way to
elements, at a place that does not depend on where the message is. -/
theorem Message.serialize_spec (m : Message) (buf : ByteMemory) (offset : Nat) (caps : List UInt64)
    (hsettled : m.Settled) (hroom : offset + m.length ≤ buf.size) (hsize : buf.size < 2 ^ 64)
    (hsmall : m.length < 2 ^ 32) :
    ∃ buf', m.serialize buf offset caps = .ok (m.length, buf', caps ++ m.capabilities) ∧ buf'.size = buf.size ∧
      buf'.Holds offset (headerBytes (kHeaderSize + 8 * m.fields.length) m.length) ∧
      (m.NoElements → (buf.Writes buf' fun j => offset ≤ j ∧ j < offset + m.length) ∧
        (m.numberedFrom caps.length).Encoded buf' offset) ∧
      ∀ x ∈ m.elementsAt, 32 ≤ x.1 ∧ x.1 < 2 ^ 32 ∧ m.LeadsTo buf' offset x.1 x.2 := by
  obtain ⟨fields⟩ := m
  rw [Message.length] at hroom hsmall
  have hheader : kHeaderSize = 24 := rfl
  have hcore : wrap32 (kHeaderSize + 8 * fields.length) = _ := wrap32_of_lt (by omega)
  obtain ⟨w, hfields, hwrote, henc, hleads⟩ := rustFields_spec fields
    ⟨buf, caps, kHeaderSize + 8 * fields.length⟩ offset 0 hsettled
    (hasRoom_fields hsize hroom hsmall)
  have hbuf : w.buf.size = buf.size := hwrote.size
  have hnext : w.nextExtension = kHeaderSize + 8 * fields.length + extensions fields :=
    hwrote.nextExtension
  have hroomHeader : offset + 16 ≤ w.buf.size := by
    omega
  obtain ⟨buf', hwrite, hw, hholds⟩ := writeHeader_spec (by rw [hbuf]; exact hsize) hroomHeader
    (kHeaderSize + 8 * fields.length) (kHeaderSize + 8 * fields.length + extensions fields)
  refine ⟨buf', ?_, hw.size.trans hbuf, by rw [Message.length]; exact hholds, ?_, ?_⟩
  · rw [Message.serialize, Message.length, Message.capabilities]
    simp only [hcore, hfields, hnext, hwrite, bind, Except.bind, pure, Except.pure, hwrote.caps]
  · rw [Message.NoElements, Message.length, Message.numberedFrom, Message.Encoded,
      length_fieldsNumberedFrom, extensions_numberedFrom fields _ hsettled]
    intro hnone
    obtain ⟨hwithin, hencoded⟩ := henc hnone
    refine ⟨(hwithin.mono ?_).trans (hw.mono ?_), hholds, fieldsEncoded_of_writes hencoded hw ?_ ?_⟩
    · intro j hj
      simp only [hheader] at hj ⊢
      omega
    · intro j hj
      omega
    all_goals
      intro j hle hlt hj
      omega
  · intro x hx
    obtain ⟨hle, hlt, hinner⟩ := hleads x hx
    -- the header is written before the words of the fields
    refine ⟨hle, hlt, fieldsLeadTo_congr hinner ?_ ?_⟩
    all_goals exact fun j hjle hjlt => hw.outside j (by omega)

theorem rustFields_spec (vs : List Value) (w : RustWriter) (offset i : Nat)
    (hsettled : fieldsSettled vs) (h : w.HasRoom offset i vs.length (extensions vs)) :
    ∃ w', rustFields w offset i vs = .ok w' ∧ w.Wrote w' (extensions vs) (fieldsCapabilities vs) ∧
      (fieldsNoElements vs → w.Within w' offset i vs.length (extensions vs) ∧
        fieldsEncoded w'.buf offset i w.nextExtension (fieldsNumberedFrom w.caps.length vs)) ∧
      ∀ x ∈ fieldsElementsAt w.nextExtension vs, 32 ≤ x.1 ∧ x.1 < 2 ^ 32 ∧
        fieldsLeadTo w'.buf offset i w.nextExtension x.1 x.2 vs := by
  cases vs with
  | nil =>
    refine ⟨w, by rw [rustFields], ?_, ?_, by simp [fieldsElementsAt]⟩
    · rw [extensions, fieldsCapabilities]
      exact ⟨rfl, (append_nil _).symm, rfl⟩
    · rw [fieldsNumberedFrom, fieldsEncoded]
      exact fun _ => ⟨Writes.refl _ _, trivial⟩
  | cons v vs =>
    rw [extensions, length_cons] at h
    have hwords := h.words
    obtain ⟨w1, hfirst, hwrote1, henc1, hleads1⟩ := v.rustWrite_spec w offset i hsettled.1 h.first
    obtain ⟨w2, hrest, hwrote2, henc2, hleads2⟩ := rustFields_spec vs w1 offset (i + 1) hsettled.2
      (h.rest hwrote1)
    rw [RustWriter.Within, hwrote1.nextExtension] at henc2
    refine ⟨w2, ?_, ?_, ?_, ?_⟩
    · rw [rustFields]
      simp only [hfirst, bind, Except.bind]
      exact hrest
    · rw [extensions, fieldsCapabilities]
      refine ⟨?_, ?_, hwrote2.size.trans hwrote1.size⟩
      · rw [hwrote2.nextExtension, hwrote1.nextExtension, Nat.add_assoc]
      · rw [hwrote2.caps, hwrote1.caps, append_assoc]
    · rw [fieldsNoElements, extensions, fieldsNumberedFrom, fieldsEncoded,
        v.extension_numberedFrom _ hsettled.1, length_cons]
      intro hnone
      obtain ⟨hwithin1, hencoded1⟩ := henc1 hnone.1
      obtain ⟨hwithin2, hencoded2⟩ := henc2 hnone.2
      rw [hwrote1.caps, length_append] at hencoded2
      refine ⟨(hwithin1.mono ?_).trans (hwithin2.mono ?_), hencoded1.of_writes hwithin2 ?_ ?_, hencoded2⟩
      · intro j hj
        omega
      · intro j hj
        omega
      · intro j hle hlt hj
        omega
      · intro j hle hlt hj
        rw [v.extension_numberedFrom _ hsettled.1] at hlt
        omega
    · intro x hx
      rw [hwrote1.nextExtension] at hleads2
      rcases Option.or_eq_some_iff.mp hx with hx | ⟨hvs, hx⟩
      · obtain ⟨hle, hlt, hinner⟩ := hleads2 x hx
        exact ⟨hle, hlt, Or.inr hinner⟩
      · obtain ⟨hle, hlt, hinner⟩ := hleads1 x hx
        obtain ⟨hw, -⟩ := henc2 ((fieldsElementsAt_eq_none_iff vs _).mp hvs)
        -- the fields that follow have no elements, and are written elsewhere
        refine ⟨hle, hlt, Or.inl (hinner.congr ?_ ?_)⟩
        all_goals exact fun j hjle hjlt => hw.outside j (by omega)

theorem serializeRepeatedMessage_spec (ms : List Message) (buf : ByteMemory) (offset : Nat)
    (caps : List UInt64) (hsettled : messagesSettled ms) (hroom : offset + messagesLength ms ≤ buf.size)
    (hsize : buf.size < 2 ^ 64) (hsmall : offset + messagesLength ms < 2 ^ 32) :
    ∃ buf', serializeRepeatedMessage buf offset caps ms =
        .ok (offset + messagesLength ms, buf', caps ++ messagesCapabilities ms) ∧
      buf'.size = buf.size := by
  cases ms with
  | nil =>
    refine ⟨buf, ?_, rfl⟩
    rw [serializeRepeatedMessage, messagesLength, messagesCapabilities, append_nil, Nat.add_zero]
  | cons m ms =>
    rw [messagesLength] at hroom hsmall
    have hnext : wrap64 (offset + m.length) = _ := wrap64_of_lt (by omega)
    obtain ⟨buf1, hfirst, hsame1, -⟩ := m.serialize_spec buf offset caps hsettled.1 (by omega) hsize (by omega)
    obtain ⟨buf2, hrest, hsame2⟩ := serializeRepeatedMessage_spec ms buf1 (offset + m.length)
      (caps ++ m.capabilities) hsettled.2 (by rw [hsame1]; omega) (by rw [hsame1]; exact hsize)
      (by omega)
    refine ⟨buf2, ?_, hsame2.trans hsame1⟩
    rw [serializeRepeatedMessage, messagesLength, messagesCapabilities, ← Nat.add_assoc, ← append_assoc]
    simp only [hfirst, hnext, bind, Except.bind]
    exact hrest

end

/-! ## `parse` -/

section Reading

variable {buf : ByteMemory} {a offset i : Nat}

theorem numberAt_of_bytes {bytes : List UInt8} (h : buf.Holds a bytes) (hsize : buf.size < 2 ^ 64)
    (hin : a + bytes.length ≤ buf.size) : numberAt buf bytes.length a = .ok (ofLittleEndian bytes) := by
  have hsum : wrap64 (bytes.length + a) = _ := wrap64_of_lt (by omega)
  rw [numberAt, sliceAt, hsum, if_neg (by omega), if_neg (by omega), h.slice]
  rfl

theorem numberAt_of_holds {width v : Nat} (h : buf.Holds a (littleEndian width v)) (hv : v < 256 ^ width)
    (hsize : buf.size < 2 ^ 64) (hin : a + width ≤ buf.size) : numberAt buf width a = .ok v := by
  have hnumber := numberAt_of_bytes h hsize (by rw [length_littleEndian]; exact hin)
  rw [length_littleEndian, ofLittleEndian_of_lt hv] at hnumber
  exact hnumber

/-- The word of a field is inside the buffer. -/
structure WordInside (buf : ByteMemory) (offset i : Nat) : Prop where
  size : buf.size < 2 ^ 64
  inside : offset + kHeaderSize + 8 * i + 8 ≤ buf.size

theorem WordInside.fieldOffset_eq (h : WordInside buf offset i) :
    fieldOffset offset i = offset + kHeaderSize + 8 * i := by
  have hsize := h.size
  have hin := h.inside
  rw [fieldOffset, wrap64, Nat.mod_eq_of_lt]
  omega

theorem wordAt_of_holds {v : Nat} (hin : WordInside buf offset i)
    (h : buf.Holds (offset + kHeaderSize + 8 * i) (littleEndian 8 v)) (hv : v < 2 ^ 64) :
    numberAt buf 8 (fieldOffset offset i) = .ok v := by
  rw [hin.fieldOffset_eq]
  exact numberAt_of_holds h hv hin.size hin.inside

theorem pointerAt_of_holds {extOffset length : Nat} (hin : WordInside buf offset i)
    (h : buf.Holds (offset + kHeaderSize + 8 * i) (pointerBytes extOffset length)) (hoffset : extOffset < 2 ^ 32)
    (hlength : length < 2 ^ 32) :
    numberAt buf 4 (fieldOffset offset i) = .ok extOffset ∧ pointerAt buf offset i = .ok (extOffset, length) := by
  have hinside := hin.inside
  have hsize := hin.size
  rw [pointerBytes, holds_append, length_littleEndian] at h
  have haddr : wrap64 (offset + kHeaderSize + 8 * i + 4) = _ := wrap64_of_lt (by omega)
  have hfirst := numberAt_of_holds h.1 hoffset hsize (by omega)
  have hsecond := numberAt_of_holds h.2 hlength hsize (by omega)
  rw [pointerAt, hin.fieldOffset_eq, haddr, hfirst, hsecond]
  exact ⟨rfl, rfl⟩

variable {schema : Schema} {caps : List UInt64} {fuel len : Nat} {name : String}

/-- A message is only returned where a header is, with the fields that are read there. -/
theorem parse_eq_ok {m : Message} (h : parse schema buf caps fuel name offset = .ok m) :
    numberAt buf 4 offset = .ok kIdentByte ∧ ∃ fuel' types, fuel = fuel' + 1 ∧ schema name = some types ∧
      parseFields (parseField (parse schema buf caps fuel') buf caps offset) 0 types = .ok m.fields := by
  cases fuel with
  | zero => simp [parse] at h
  | succ fuel =>
    rw [parse] at h
    cases hname : schema name with
    | none => simp [hname] at h
    | some types =>
      rw [hname] at h
      obtain ⟨ident, hident, h⟩ := except_bind_eq_ok_iff.mp h
      split at h
      · cases h
      · rename_i heq
        obtain ⟨fields, hfields, h⟩ := except_bind_eq_ok_iff.mp h
        cases h
        exact ⟨by rw [hident, not_not.mp heq], fuel, types, rfl, rfl, hfields⟩

theorem parseFields_cons_eq_ok {read : Nat → FieldType → Except RustFault Value} {type : FieldType}
    {types : List FieldType} {v : Value} {vs : List Value} (h : parseFields read i (type :: types) = .ok (v :: vs)) :
    read i type = .ok v ∧ parseFields read (i + 1) types = .ok vs := by
  obtain ⟨value, hvalue, h⟩ := except_bind_eq_ok_iff.mp h
  obtain ⟨values, hvalues, h⟩ := except_bind_eq_ok_iff.mp h
  cases h
  exact ⟨hvalue, hvalues⟩

theorem parseRepeated_succ_eq_ok {vs : List UInt64} (h : parseRepeated buf offset (len + 1) = .ok vs) :
    ∃ number rest, numberAt buf 8 (wrap64 offset) = .ok number ∧
      parseRepeated buf (offset + 8) len = .ok rest ∧ vs = UInt64.ofNat number :: rest := by
  obtain ⟨number, hnumber, h⟩ := except_bind_eq_ok_iff.mp h
  obtain ⟨rest, hrest, h⟩ := except_bind_eq_ok_iff.mp h
  cases h
  exact ⟨number, rest, hnumber, hrest, rfl⟩

theorem parseRepeatedMessage_succ_eq_ok {read : Nat → Except RustFault Message} {ms : List Message}
    (h : parseRepeatedMessage read buf offset (len + 1) = .ok ms) :
    ∃ length m rest, read offset = .ok m ∧
      parseRepeatedMessage read buf (wrap64 (offset + length)) len = .ok rest ∧ ms = m :: rest := by
  obtain ⟨length, -, h⟩ := except_bind_eq_ok_iff.mp h
  obtain ⟨m, hm, h⟩ := except_bind_eq_ok_iff.mp h
  obtain ⟨rest, hrest, h⟩ := except_bind_eq_ok_iff.mp h
  cases h
  exact ⟨length, m, rest, hm, hrest, rfl⟩

end Reading

mutual

/-- What is returned for a field whose word was read: strings are checked and capabilities looked up. -/
def Value.lookup (caps : List UInt64) : Value → Except RustFault Value
  | .capability word =>
    match caps[word.toNat]? with
    | some cap => .ok (.capability cap)
    | none => .error .panic
  | .string s => if isUtf8 s then .ok (.string s) else .error (.error .invalidArgument)
  | .message m => do return .message (← m.lookup caps)
  | .u64 v => .ok (.u64 v)
  | .i64 v => .ok (.i64 v)
  | .repeatedU64 vs => .ok (.repeatedU64 vs)
  | .repeatedMessage ms => .ok (.repeatedMessage ms)
  | .emptied first => .ok (.emptied first)

/-- What is returned for a message without elements whose header is right. -/
def Message.lookup (caps : List UInt64) : Message → Except RustFault Message
  | ⟨fields⟩ => do return ⟨← fieldsLookup caps fields⟩

/-- What is returned for fields. -/
def fieldsLookup (caps : List UInt64) : List Value → Except RustFault (List Value)
  | [] => .ok []
  | v :: vs => do
    let value ← v.lookup caps
    let values ← fieldsLookup caps vs
    return value :: values

end

mutual

theorem Value.parseField_spec (schema : Schema) (caps : List UInt64) (v : Value) (buf : ByteMemory)
    (fuel offset i ext : Nat) (type : FieldType) (htype : v.HasType schema type) (hnone : v.NoElements)
    (henc : v.EncodedAt buf offset (offset + kHeaderSize + 8 * i) ext) (hin : WordInside buf offset i)
    (hroom : offset + ext + v.extension ≤ buf.size) (hsmall : ext + v.extension < 2 ^ 32) (hfuel : v.extension ≤ fuel) :
    parseField (parse schema buf caps fuel) buf caps offset i type = v.lookup caps := by
  cases v with
  | u64 v =>
    subst htype
    rw [parseField, wordAt_of_holds hin henc v.toNat_lt, Value.lookup]
    show Except.ok (Value.u64 (UInt64.ofNat v.toNat)) = _
    rw [UInt64.ofNat_toNat]
  | i64 v =>
    subst htype
    rw [parseField, wordAt_of_holds hin henc v.toUInt64.toNat_lt, Value.lookup]
    show Except.ok (Value.i64 (UInt64.ofNat v.toUInt64.toNat).toInt64) = _
    rw [UInt64.ofNat_toNat, Int64.toInt64_toUInt64]
  | capability c =>
    subst htype
    rw [parseField, wordAt_of_holds hin henc c.toNat_lt, Value.lookup]
    cases hcap : caps[c.toNat]? with
    | none => simp only [bind, Except.bind, hcap]
    | some => simp only [bind, Except.bind, pure, Except.pure, hcap]
  | string s =>
    rw [Value.extension] at hroom hsmall
    subst htype
    have hsize := hin.size
    have haddr : wrap64 (offset + ext) = _ := wrap64_of_lt (by omega)
    have hsum : wrap64 (s.length + (offset + ext)) = _ := wrap64_of_lt (by omega)
    have hslice : sliceAt buf s.length (offset + ext) = .ok s := by
      rw [sliceAt, hsum, if_neg (by omega), if_neg (by omega), henc.2.slice]
    rw [parseField, (pointerAt_of_holds hin henc.1 (by omega) (by omega)).2, Value.lookup]
    by_cases hutf8 : isUtf8 s = true
    · simp only [bind, Except.bind, pure, Except.pure, haddr, strAt, hslice, hutf8, if_true]
    · simp only [bind, Except.bind, pure, Except.pure, haddr, strAt, hslice, hutf8, if_false, Bool.false_eq_true]
  | message m =>
    rw [Value.extension] at hroom hsmall hfuel
    obtain ⟨name, rfl, hm⟩ := htype
    have hsize := hin.size
    have haddr : wrap64 (offset + ext) = _ := wrap64_of_lt (by omega)
    have hparse := m.parse_spec schema caps buf fuel (offset + ext) name hm hnone henc.2 hroom hsize (by omega) hfuel
    rw [parseField, (pointerAt_of_holds hin henc.1 (by omega) (by omega)).1, Value.lookup]
    simp only [bind, Except.bind, pure, Except.pure, haddr, hparse]
  | repeatedU64 vs =>
    subst htype hnone
    rw [parseField, (pointerAt_of_holds hin henc.1 (by omega) (by decide)).2, Value.lookup]
    rfl
  | repeatedMessage ms =>
    obtain ⟨name, rfl, -⟩ := htype
    subst hnone
    rw [parseField, (pointerAt_of_holds hin henc.1 (by omega) (by decide)).2, Value.lookup]
    rfl
  | emptied => exact henc.elim

/-- **`parse` reads an encoding back** if no repeated field has elements: strings are checked, and the
capabilities are looked up by their numbers. -/
theorem Message.parse_spec (schema : Schema) (caps : List UInt64) (m : Message) (buf : ByteMemory) (fuel offset : Nat)
    (name : String) (htype : m.HasType schema name) (hnone : m.NoElements) (henc : m.Encoded buf offset)
    (hroom : offset + m.length ≤ buf.size) (hsize : buf.size < 2 ^ 64) (hsmall : m.length < 2 ^ 32)
    (hfuel : m.length ≤ fuel) : parse schema buf caps fuel name offset = m.lookup caps := by
  obtain ⟨fields⟩ := m
  rw [Message.Encoded, headerBytes, holds_append] at henc
  rw [Message.length] at hroom hsmall hfuel
  obtain ⟨types, hname, hfields⟩ := htype
  have hheader : kHeaderSize = 24 := rfl
  cases fuel with
  | zero => omega
  | succ fuel =>
    have hident : numberAt buf 4 offset = .ok kIdentByte :=
      numberAt_of_holds henc.1.1 (by decide) hsize (by omega)
    have hread := parseFields_spec schema caps fields buf fuel offset 0
      (kHeaderSize + 8 * fields.length) types hfields hnone henc.2 (by omega) hsize (by omega)
      (by omega) (by omega)
    rw [parse, hname, Message.lookup]
    simp only [hident, bind, Except.bind, pure, Except.pure, ne_eq, not_true_eq_false, if_false, hread]

theorem parseFields_spec (schema : Schema) (caps : List UInt64) (vs : List Value) (buf : ByteMemory)
    (fuel offset i ext : Nat) (types : List FieldType) (htypes : fieldsHaveTypes schema vs types)
    (hnone : fieldsNoElements vs) (henc : fieldsEncoded buf offset i ext vs)
    (hwords : kHeaderSize + 8 * (i + vs.length) ≤ ext) (hsize : buf.size < 2 ^ 64)
    (hroom : offset + ext + extensions vs ≤ buf.size) (hsmall : ext + extensions vs < 2 ^ 32)
    (hfuel : extensions vs ≤ fuel) :
    parseFields (parseField (parse schema buf caps fuel) buf caps offset) i types = fieldsLookup caps vs := by
  cases vs with
  | nil => rw [htypes, parseFields, fieldsLookup]
  | cons v vs =>
    rw [extensions] at hroom hsmall hfuel
    rw [length_cons] at hwords
    obtain ⟨type, rest, rfl, hv, hvs⟩ := htypes
    have hfirst := v.parseField_spec schema caps buf fuel offset i ext type hv hnone.1 henc.1
      ⟨hsize, by omega⟩ (by omega) (by omega) (by omega)
    have hrest := parseFields_spec schema caps vs buf fuel offset (i + 1) (ext + v.extension) rest hvs
      hnone.2 henc.2 (by omega) hsize (by omega) (by omega) (by omega)
    rw [parseFields, hfirst, hrest, fieldsLookup]

end

end Acadia.Yunq
