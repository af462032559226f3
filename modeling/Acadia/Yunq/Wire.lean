import Acadia.Foundations.ByteMemory
import Acadia.Yunq.Schema

/-! # The yunq wire format

What the bytes of a message are, independently of the code. A message begins with a header and one word for each
field; strings, repeated fields and messages inside follow, and are found through an offset, relative to the
message, and a length in their field's word. -/

namespace Acadia.Yunq

open ByteMemory

/-- `kHeaderSize`: four 32-bit words and one 64-bit word. -/
def kHeaderSize : Nat := 24

/-- `kIdentByte`. -/
def kIdentByte : Nat := 0x33441122

/-- The bytes of an `ExtensionPointer`. -/
def pointerBytes (offset length : Nat) : List UInt8 := littleEndian 4 offset ++ littleEndian 4 length

/-- The first four words of a header. -/
def headerBytes (coreSize length : Nat) : List UInt8 :=
  littleEndian 4 kIdentByte ++ (littleEndian 4 coreSize ++ (littleEndian 4 length ++ littleEndian 4 0))

/-- The bytes of 64-bit words. -/
def wordsBytes : List UInt64 → List UInt8
  | [] => []
  | v :: vs => littleEndian 8 v.toNat ++ wordsBytes vs

@[simp] theorem length_pointerBytes (offset length : Nat) : (pointerBytes offset length).length = 8 := by
  simp [pointerBytes]

@[simp] theorem length_headerBytes (coreSize length : Nat) : (headerBytes coreSize length).length = 16 := by
  simp [headerBytes]

@[simp] theorem length_wordsBytes (vs : List UInt64) : (wordsBytes vs).length = 8 * vs.length := by
  induction vs with
  | nil => rfl
  | cons v vs ih =>
    rw [wordsBytes, List.length_append, ih, length_littleEndian, List.length_cons]
    omega

/-! ## Lengths -/

mutual

/-- How many bytes a field takes up behind the words of the fields. -/
def Value.extension : Value → Nat
  | .string s => s.length
  | .message m => m.length
  | .repeatedU64 vs => 8 * vs.length
  | .repeatedMessage ms => messagesLength ms
  | .emptied first => first.length
  | .u64 _ | .i64 _ | .capability _ => 0

/-- How many bytes a message takes up. -/
def Message.length : Message → Nat
  | ⟨fields⟩ => kHeaderSize + 8 * fields.length + extensions fields

/-- How many bytes fields take up behind their words. -/
def extensions : List Value → Nat
  | [] => 0
  | v :: vs => v.extension + extensions vs

/-- How many bytes messages take up, one behind the other. -/
def messagesLength : List Message → Nat
  | [] => 0
  | m :: ms => m.length + messagesLength ms

end

theorem kHeaderSize_le_length (m : Message) : kHeaderSize ≤ m.length := by
  cases m with
  | mk fields =>
    rw [Message.length]
    omega

theorem length_le_messagesLength (ms : List Message) : 24 * ms.length ≤ messagesLength ms := by
  induction ms with
  | nil => simp [messagesLength]
  | cons m ms ih =>
    have hm : 24 ≤ m.length := kHeaderSize_le_length m
    rw [messagesLength, List.length_cons]
    omega

/-! ## Encodings -/

mutual

/-- The bytes of a field, in a message at `start`: its word is at `slot`, and what follows the words is
at `ext` from the start of the message. -/
def Value.EncodedAt (b : ByteMemory) (start slot ext : Nat) : Value → Prop
  | .u64 v => b.Holds slot (littleEndian 8 v.toNat)
  | .i64 v => b.Holds slot (littleEndian 8 v.toUInt64.toNat)
  | .capability c => b.Holds slot (littleEndian 8 c.toNat)
  | .string s => b.Holds slot (pointerBytes ext s.length) ∧ b.Holds (start + ext) s
  | .message m => b.Holds slot (pointerBytes ext m.length) ∧ m.Encoded b (start + ext)
  | .repeatedU64 vs =>
    b.Holds slot (pointerBytes ext (8 * vs.length)) ∧ b.Holds (start + ext) (wordsBytes vs)
  | .repeatedMessage ms =>
    b.Holds slot (pointerBytes ext (messagesLength ms)) ∧ messagesEncoded b (start + ext) ms
  | .emptied _ => False

/-- **The bytes of a message** that begins at `start`. -/
def Message.Encoded (b : ByteMemory) (start : Nat) : Message → Prop
  | ⟨fields⟩ =>
    b.Holds start (headerBytes (kHeaderSize + 8 * fields.length)
      (kHeaderSize + 8 * fields.length + extensions fields)) ∧
    fieldsEncoded b start 0 (kHeaderSize + 8 * fields.length) fields

/-- The bytes of fields, the first of which has the number `i` and what follows the words at `ext`. -/
def fieldsEncoded (b : ByteMemory) (start i ext : Nat) : List Value → Prop
  | [] => True
  | v :: vs => v.EncodedAt b start (start + kHeaderSize + 8 * i) ext ∧
    fieldsEncoded b start (i + 1) (ext + v.extension) vs

/-- The bytes of messages, one behind the other. -/
def messagesEncoded (b : ByteMemory) (start : Nat) : List Message → Prop
  | [] => True
  | m :: ms => m.Encoded b start ∧ messagesEncoded b (start + m.length) ms

end

/-! ## An encoding depends on its own bytes -/

variable {b b' : ByteMemory}

mutual

theorem Value.EncodedAt.congr {start slot ext : Nat} : {v : Value} → v.EncodedAt b start slot ext →
    (∀ i, slot ≤ i → i < slot + 8 → b'.byte i = b.byte i) →
    (∀ i, start + ext ≤ i → i < start + ext + v.extension → b'.byte i = b.byte i) →
    v.EncodedAt b' start slot ext
  | .u64 v, h, hslot, _ | .i64 v, h, hslot, _ | .capability v, h, hslot, _ => by
    rw [Value.EncodedAt] at h ⊢
    exact h.congr (by rw [length_littleEndian]; exact hslot)
  | .string s, h, hslot, hext => by
    exact ⟨h.1.congr (by rw [length_pointerBytes]; exact hslot), h.2.congr hext⟩
  | .message m, h, hslot, hext => by
    exact ⟨h.1.congr (by rw [length_pointerBytes]; exact hslot), h.2.congr hext⟩
  | .repeatedU64 vs, h, hslot, hext => by
    exact ⟨h.1.congr (by rw [length_pointerBytes]; exact hslot), h.2.congr (by rw [length_wordsBytes]; exact hext)⟩
  | .repeatedMessage ms, h, hslot, hext => by
    exact ⟨h.1.congr (by rw [length_pointerBytes]; exact hslot), messagesEncoded_congr h.2 hext⟩
  | .emptied _, h, _, _ => by
    exact h.elim

/-- **An encoding depends on its own bytes.** -/
theorem Message.Encoded.congr {start : Nat} : {m : Message} →
    m.Encoded b start → (∀ i, start ≤ i → i < start + m.length → b'.byte i = b.byte i) →
    m.Encoded b' start
  | ⟨fields⟩, h, hsame => by
    rw [Message.length, kHeaderSize] at hsame
    refine ⟨h.1.congr ?_, fieldsEncoded_congr h.2 ?_ ?_⟩
    · intro i hle hlt
      rw [length_headerBytes] at hlt
      exact hsame i hle (by omega)
    all_goals
      intro i hle hlt
      rw [kHeaderSize] at hle hlt
      exact hsame i (by omega) (by omega)

theorem fieldsEncoded_congr {start i ext : Nat} : {vs : List Value} → fieldsEncoded b start i ext vs →
    (∀ j, start + kHeaderSize + 8 * i ≤ j → j < start + kHeaderSize + 8 * (i + vs.length) → b'.byte j = b.byte j) →
    (∀ j, start + ext ≤ j → j < start + ext + extensions vs → b'.byte j = b.byte j) →
    fieldsEncoded b' start i ext vs
  | [], _, _, _ => by
    trivial
  | v :: vs, h, hslots, hext => by
    rw [extensions] at hext
    rw [List.length_cons] at hslots
    refine ⟨h.1.congr ?_ ?_, fieldsEncoded_congr h.2 ?_ ?_⟩
    · exact fun j hle hlt => hslots j hle (by omega)
    · exact fun j hle hlt => hext j hle (by omega)
    · exact fun j hle hlt => hslots j (by omega) (by omega)
    · exact fun j hle hlt => hext j (by omega) (by omega)

theorem messagesEncoded_congr {start : Nat} : {ms : List Message} → messagesEncoded b start ms →
    (∀ i, start ≤ i → i < start + messagesLength ms → b'.byte i = b.byte i) →
    messagesEncoded b' start ms
  | [], _, _ => by
    trivial
  | m :: ms, h, hsame => by
    rw [messagesLength] at hsame
    refine ⟨h.1.congr ?_, messagesEncoded_congr h.2 ?_⟩
    · exact fun i hle hlt => hsame i hle (by omega)
    · exact fun i hle hlt => hsame i (by omega) (by omega)

end

variable {P : Nat → Prop}

theorem Value.EncodedAt.of_writes {start slot ext : Nat} {v : Value} (h : v.EncodedAt b start slot ext)
    (hw : b.Writes b' P) (hslot : ∀ i, slot ≤ i → i < slot + 8 → ¬ P i)
    (hext : ∀ i, start + ext ≤ i → i < start + ext + v.extension → ¬ P i) : v.EncodedAt b' start slot ext :=
  h.congr (fun i hle hlt => hw.outside i (hslot i hle hlt)) (fun i hle hlt => hw.outside i (hext i hle hlt))

theorem fieldsEncoded_of_writes {start i ext : Nat} {vs : List Value} (h : fieldsEncoded b start i ext vs)
    (hw : b.Writes b' P)
    (hslots : ∀ j, start + kHeaderSize + 8 * i ≤ j → j < start + kHeaderSize + 8 * (i + vs.length) → ¬ P j)
    (hext : ∀ j, start + ext ≤ j → j < start + ext + extensions vs → ¬ P j) : fieldsEncoded b' start i ext vs :=
  fieldsEncoded_congr h (fun j hle hlt => hw.outside j (hslots j hle hlt))
    (fun j hle hlt => hw.outside j (hext j hle hlt))

theorem Message.Encoded.of_writes {start : Nat} {m : Message} (h : m.Encoded b start)
    (hw : b.Writes b' P) (hfar : ∀ i, start ≤ i → i < start + m.length → ¬ P i) : m.Encoded b' start :=
  h.congr fun i hle hlt => hw.outside i (hfar i hle hlt)

end Acadia.Yunq
