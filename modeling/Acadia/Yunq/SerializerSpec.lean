import Acadia.Yunq.Serializer

/-! # What `SerializeToBytes` writes

Each function of the serializer is described once: it succeeds if there is room, changes only the words
of its fields and what follows the words, and leaves the encoding of what it was given there. -/

namespace Acadia.Yunq

open ByteMemory Option Serializer CapBuffer

namespace Serializer

variable {s s' s'' : Serializer} {i n ext count : Nat} {slots more : List (Nat × UInt64)}

/-- There is room for `n` fields from number `i` on, and `ext` bytes behind the words. -/
structure HasRoom (s : Serializer) (i n ext : Nat) : Prop where
  room : s.offset + s.nextExtension + ext ≤ s.buffer.size
  small : s.offset + s.nextExtension + ext < 2 ^ 32
  /-- The words of the fields are before what follows the words. -/
  words : kHeaderSize + 8 * (i + n) ≤ s.nextExtension

/-- **What writing `n` fields changes.** -/
structure Wrote (s s' : Serializer) (i n ext count : Nat) (slots : List (Nat × UInt64)) : Prop where
  offset : s'.offset = s.offset
  coreSize : s'.coreSize = s.coreSize
  nextExtension : s'.nextExtension = s.nextExtension + ext
  /-- The capabilities among the fields are numbered. -/
  nextCap : s.caps.isSome → s'.nextCap = s.nextCap + count
  caps : s'.caps = s.caps.map (putAll · slots)
  /-- Only the words of the fields and the bytes behind the words change. -/
  buffer : s.buffer.Writes s'.buffer fun j =>
    (s.offset + kHeaderSize + 8 * i ≤ j ∧ j < s.offset + kHeaderSize + 8 * (i + n)) ∨
      (s.offset + s.nextExtension ≤ j ∧ j < s.offset + s.nextExtension + ext)

theorem Wrote.refl (s : Serializer) (i : Nat) : s.Wrote s i 0 0 0 [] where
  offset := rfl
  coreSize := rfl
  nextExtension := rfl
  nextCap _ := rfl
  caps := by cases s.caps <;> rfl
  buffer := Writes.refl _ _

theorem Wrote.trans {n' ext' count' : Nat} (h : s.Wrote s' i n ext count slots)
    (h' : s'.Wrote s'' (i + n) n' ext' count' more) :
    s.Wrote s'' i (n + n') (ext + ext') (count + count') (slots ++ more) where
  offset := h'.offset.trans h.offset
  coreSize := h'.coreSize.trans h.coreSize
  nextExtension := by rw [h'.nextExtension, h.nextExtension, Nat.add_assoc]
  nextCap hcaps := by
    rw [h'.nextCap (by rw [h.caps, isSome_map]; exact hcaps), h.nextCap hcaps, Nat.add_assoc]
  caps := by
    rw [h'.caps, h.caps, map_map]
    congr 1
    funext c
    exact (c.putAll_append slots more).symm
  buffer := by
    refine Writes.trans (h.buffer.mono ?_) (h'.buffer.mono ?_)
    · intro j hj
      omega
    · intro j hj
      rw [h.offset, h.nextExtension] at hj
      omega

theorem HasRoom.fieldOffset_eq (h : s.HasRoom i (n + 1) ext) : s.fieldOffset i = s.offset + kHeaderSize + 8 * i := by
  have hsmall := h.small
  have hwords := h.words
  rw [fieldOffset, wrap64, Nat.mod_eq_of_lt]
  omega

theorem HasRoom.word_le (h : s.HasRoom i (n + 1) ext) : s.offset + kHeaderSize + 8 * i + 8 ≤ s.buffer.size := by
  have hroom := h.room
  have hwords := h.words
  omega

theorem writeWord_spec (h : s.HasRoom i 1 0) (value : Nat) :
    ∃ s', s.writeWord i value = some s' ∧ s.Wrote s' i 1 0 0 [] ∧
      s'.buffer.Holds (s.offset + kHeaderSize + 8 * i) (littleEndian 8 value) := by
  have hle : s.fieldOffset i + (littleEndian 8 value).length ≤ s.buffer.size := by
    rw [h.fieldOffset_eq, length_littleEndian]
    exact h.word_le
  refine ⟨_, by rw [writeWord, write_eq_some hle]; rfl, ?_, ?_⟩
  · refine ⟨rfl, rfl, rfl, fun _ => rfl, by cases s.caps <;> rfl, ?_⟩
    refine (writes_store _ _ _).mono fun j hj => Or.inl ?_
    rw [h.fieldOffset_eq, length_littleEndian] at hj
    omega
  · rw [← h.fieldOffset_eq]
    exact holds_store _ _ _

theorem writeExtension_spec {buffer : ByteMemory} {caps : Option CapBuffer} (h : s.HasRoom i 1 ext)
    (hw : s.buffer.Writes buffer fun j => s.offset + s.nextExtension ≤ j ∧ j < s.offset + s.nextExtension + ext)
    (hcaps : caps = s.caps.map (putAll · slots)) :
    ∃ s', writeExtension { s with buffer, caps } i ext = some s' ∧ s.Wrote s' i 1 ext 0 slots ∧
      s'.buffer.Holds (s.offset + kHeaderSize + 8 * i) (pointerBytes s.nextExtension ext) ∧
      buffer.Writes s'.buffer fun j =>
        s.offset + kHeaderSize + 8 * i ≤ j ∧ j < s.offset + kHeaderSize + 8 * i + 8 := by
  have hoffset : fieldOffset { s with buffer, caps } i = s.offset + kHeaderSize + 8 * i := h.fieldOffset_eq
  have hle : s.offset + kHeaderSize + 8 * i + (pointerBytes s.nextExtension ext).length ≤ buffer.size := by
    rw [length_pointerBytes, hw.size]
    exact h.word_le
  have hsmall := h.small
  have hnext : wrap64 (s.nextExtension + ext) = _ := wrap64_of_lt (by omega)
  have hstore := writes_store buffer (s.offset + kHeaderSize + 8 * i) (pointerBytes s.nextExtension ext)
  rw [length_pointerBytes] at hstore
  refine ⟨_, by rw [writeExtension, hoffset, write_eq_some hle]; rfl, ?_, holds_store _ _ _, hstore⟩
  refine ⟨rfl, rfl, hnext, fun _ => rfl, hcaps, ?_⟩
  refine (hw.mono ?_).trans (hstore.mono ?_)
  · exact fun j hj => Or.inr hj
  · intro j hj
    omega

theorem writeString_spec {value : List UInt8} (h : s.HasRoom i 1 value.length) :
    ∃ s', s.writeString i value = some s' ∧ s.Wrote s' i 1 value.length 0 [] ∧
      s'.buffer.Holds (s.offset + kHeaderSize + 8 * i) (pointerBytes s.nextExtension value.length) ∧
      s'.buffer.Holds (s.offset + s.nextExtension) value := by
  have hsmall := h.small
  have hwords := h.words
  have hlength : wrap32 value.length = _ := wrap32_of_lt (by omega)
  have haddr : wrap64 (s.offset + s.nextExtension) = _ := wrap64_of_lt (by omega)
  -- an empty string is not written, which is the same as writing nothing
  have hstring : ∃ buffer, writeStringAt s.buffer (s.offset + s.nextExtension) value = some buffer ∧
      (s.buffer.Writes buffer fun j =>
        s.offset + s.nextExtension ≤ j ∧ j < s.offset + s.nextExtension + value.length) ∧
      buffer.Holds (s.offset + s.nextExtension) value := by
    by_cases hnil : value = []
    · subst hnil
      exact ⟨s.buffer, if_pos rfl, Writes.refl _ _, trivial⟩
    · refine ⟨_, (if_neg hnil).trans (write_eq_some h.room), writes_store _ _ _, holds_store _ _ _⟩
  obtain ⟨buffer, hwrite, hw, hholds⟩ := hstring
  have hcaps : s.caps = s.caps.map (putAll · []) := by cases s.caps <;> rfl
  obtain ⟨s', hext, hwrote, hpointer, hslot⟩ := writeExtension_spec h hw hcaps
  refine ⟨s', ?_, hwrote, hpointer, hholds.of_writes hslot ?_⟩
  · simp only [writeString, hlength, haddr, hwrite, bind_eq_bind, bind_some]
    exact hext
  · intro j hle hlt hj
    omega

theorem writeWords_spec (vs : List UInt64) (b : ByteMemory) (a : Nat)
    (hroom : a + 8 * vs.length ≤ b.size) (hsmall : a + 8 * vs.length < 2 ^ 32) :
    ∃ b', writeWords b a vs = some b' ∧
      (b.Writes b' fun j => a ≤ j ∧ j < a + 8 * vs.length) ∧ b'.Holds a (wordsBytes vs) := by
  induction vs generalizing a b with
  | nil => exact ⟨b, rfl, Writes.refl _ _, trivial⟩
  | cons v vs ih =>
    rw [List.length_cons] at hroom hsmall
    have haddr : wrap32 a = _ := wrap32_of_lt (by omega)
    have hle : a + (littleEndian 8 v.toNat).length ≤ b.size := by
      rw [length_littleEndian]
      omega
    have hstore := writes_store b a (littleEndian 8 v.toNat)
    rw [length_littleEndian] at hstore
    have hroom' : a + 8 + 8 * vs.length ≤ (b.store a (littleEndian 8 v.toNat)).size := by
      rw [hstore.size]
      omega
    obtain ⟨b', hrest, hw, hholds⟩ := ih _ _ hroom' (by omega)
    refine ⟨b', ?_, ?_, ?_⟩
    · simp only [writeWords, haddr, write_eq_some hle, bind_eq_bind, bind_some]
      exact hrest
    · rw [List.length_cons]
      refine (hstore.mono ?_).trans (hw.mono ?_)
      all_goals
        intro j hj
        omega
    · rw [wordsBytes, holds_append, length_littleEndian]
      refine ⟨(holds_store b a _).of_writes hw ?_, hholds⟩
      intro j _ hlt hj
      rw [length_littleEndian] at hlt
      omega

theorem writeRepeated_spec {value : List UInt64} (h : s.HasRoom i 1 (8 * value.length)) :
    ∃ s', s.writeRepeated i value = some s' ∧ s.Wrote s' i 1 (8 * value.length) 0 [] ∧
      s'.buffer.Holds (s.offset + kHeaderSize + 8 * i) (pointerBytes s.nextExtension (8 * value.length)) ∧
      s'.buffer.Holds (s.offset + s.nextExtension) (wordsBytes value) := by
  have hsmall := h.small
  have hwords := h.words
  have hlength : wrap32 (8 * value.length) = _ := wrap32_of_lt (by omega)
  have hnextWord : wrap32 s.nextExtension = _ := wrap32_of_lt (by omega)
  have hnext : wrap64 (s.nextExtension + 8 * value.length) = _ := wrap64_of_lt (by omega)
  have hle : s.fieldOffset i + (pointerBytes s.nextExtension (8 * value.length)).length ≤ s.buffer.size := by
    rw [h.fieldOffset_eq, length_pointerBytes]
    exact h.word_le
  have hstore := writes_store s.buffer (s.fieldOffset i) (pointerBytes s.nextExtension (8 * value.length))
  have hholds := holds_store s.buffer (s.fieldOffset i) (pointerBytes s.nextExtension (8 * value.length))
  rw [h.fieldOffset_eq] at hle hstore hholds
  rw [length_pointerBytes] at hstore
  obtain ⟨buffer, hwrite, hw, hvalue⟩ :=
    writeWords_spec value (s.buffer.store (s.offset + kHeaderSize + 8 * i)
        (pointerBytes s.nextExtension (8 * value.length))) (s.offset + s.nextExtension)
      (by rw [hstore.size]; exact h.room) hsmall
  refine ⟨{ s with buffer, nextExtension := s.nextExtension + 8 * value.length }, ?_, ?_, ?_, hvalue⟩
  · simp only [writeRepeated, hlength, hnextWord, hnext, h.fieldOffset_eq, write_eq_some hle, hwrite,
      bind_eq_bind, bind_some]
    rfl
  · refine ⟨rfl, rfl, rfl, fun _ => rfl, by cases s.caps <;> rfl, ?_⟩
    refine (hstore.mono ?_).trans (hw.mono ?_)
    all_goals
      intro j hj
      omega
  · refine hholds.of_writes hw ?_
    intro j _ hlt hj
    rw [length_pointerBytes] at hlt
    omega

theorem writeCapability_spec {c : UInt64} (h : s.HasRoom i 1 0)
    (hcaps : ∀ caps, s.caps = some caps → s.nextCap < caps.size) :
    ∃ s', s.writeCapability i c = some s' ∧ s.Wrote s' i 1 0 1 [(s.nextCap, c)] ∧
      s'.buffer.Holds (s.offset + kHeaderSize + 8 * i)
        (littleEndian 8 (if s.caps.isSome then UInt64.ofNat s.nextCap else c).toNat) := by
  cases hs : s.caps with
  | none =>
    obtain ⟨s', hwrite, hwrote, hholds⟩ := writeWord_spec h c.toNat
    refine ⟨s', ?_, ?_, hholds⟩
    · rw [writeCapability, hs]
      exact hwrite
    · refine ⟨hwrote.offset, hwrote.coreSize, hwrote.nextExtension, ?_, ?_, hwrote.buffer⟩
      · rw [hs]
        intro hno
        cases hno
      · rw [hwrote.caps, hs]
        rfl
  | some caps =>
    obtain ⟨s', hwrite, hwrote, hholds⟩ := writeWord_spec h s.nextCap
    obtain ⟨buffer, hbuffer, rfl⟩ : ∃ buffer,
        s.buffer.write (s.fieldOffset i) (littleEndian 8 s.nextCap) = some buffer ∧ { s with buffer } = s' := by
      obtain ⟨buffer, hbuffer, hs'⟩ := bind_eq_some_iff.mp hwrite
      exact ⟨buffer, hbuffer, some.inj hs'⟩
    have hslot : caps.writeAt s.nextCap c = some (caps.put s.nextCap c) := if_pos (hcaps caps hs)
    refine ⟨{ s with buffer, caps := some (caps.put s.nextCap c), nextCap := s.nextCap + 1 }, ?_, ?_, ?_⟩
    · simp only [writeCapability, hs, hbuffer, hslot, bind_eq_bind, bind_some]
      rfl
    · refine ⟨rfl, rfl, rfl, fun _ => rfl, ?_, hwrote.buffer⟩
      rw [hs]
      rfl
    · -- a number in 64 bits is written as its low eight bytes
      have hnumber : littleEndian 8 (UInt64.ofNat s.nextCap).toNat = littleEndian 8 s.nextCap := by
        exact littleEndian_mod 8 s.nextCap
      rw [isSome_some, if_pos rfl, hnumber]
      exact hholds

end Serializer

/-! ## Messages -/

mutual

theorem Value.writeValue_spec (v : Value) (s : Serializer) (i : Nat) (h : s.HasRoom i 1 v.extension)
    (hcaps : ∀ caps, s.caps = some caps → ∀ p ∈ v.slots s.nextCap, p.1 < caps.size) :
    ∃ s', s.writeValue i v = some s' ∧ s.Wrote s' i 1 v.extension v.ownCapabilities (v.slots s.nextCap) ∧
      (v.wire s.caps.isSome s.nextCap).EncodedAt s'.buffer s.offset
        (s.offset + kHeaderSize + 8 * i) s.nextExtension := by
  cases v with
  | u64 v => exact writeWord_spec h v.toNat
  | i64 v => exact writeWord_spec h v.toUInt64.toNat
  | string v => exact writeString_spec h
  | capability c =>
    exact writeCapability_spec h fun caps hs => hcaps caps hs _ List.mem_cons_self
  | repeatedU64 vs => exact writeRepeated_spec h
  | message m =>
    rw [Value.extension, Value.slots, Value.wire, writeValue]
    simp only [Value.EncodedAt, m.length_wire]
    have hsmall := h.small
    have haddr : wrap64 (s.offset + s.nextExtension) = _ := wrap64_of_lt (by omega)
    obtain ⟨buffer, hwrite, hw, henc⟩ := m.serializeToBytes_spec _ _ _ h.room h.small hcaps
    obtain ⟨s', hext, hwrote, hpointer, hslot⟩ := writeExtension_spec h hw rfl
    refine ⟨s', ?_, hwrote, hpointer, henc.of_writes hslot ?_⟩
    · simp only [haddr, hwrite, bind_eq_bind, bind_some]
      exact hext
    · have hwords := h.words
      omega
  | repeatedMessage ms =>
    rw [Value.extension, Value.slots, Value.wire, writeValue]
    simp only [Value.EncodedAt, messagesLength_wire]
    obtain ⟨buffer, hwrite, hw, henc⟩ := serializeMessages_spec ms _ _ _ _ h.room h.small hcaps
    obtain ⟨s', hext, hwrote, hpointer, hslot⟩ := writeExtension_spec h hw rfl
    refine ⟨s', ?_, hwrote, hpointer, messagesEncoded_congr henc ?_⟩
    · simp only [hwrite, bind_eq_bind, bind_some]
      exact hext
    · have hwords := h.words
      intro j hle hlt
      refine hslot.outside j ?_
      omega
  | emptied first =>
    rw [Value.extension, Value.slots, Value.wire, writeValue]
    simp only [Value.EncodedAt, messagesLength, first.length_wire, Nat.add_zero, messagesEncoded]
    have hsmall := h.small
    have haddr : wrap64 (s.offset + s.nextExtension) = _ := wrap64_of_lt (by omega)
    obtain ⟨buffer, hwrite, hw, henc⟩ := first.serializeToBytes_spec _ _ _ h.room h.small hcaps
    obtain ⟨s', hext, hwrote, hpointer, hslot⟩ := writeExtension_spec h hw rfl
    refine ⟨s', ?_, hwrote, hpointer, henc.of_writes hslot ?_, trivial⟩
    · simp only [haddr, hwrite, bind_eq_bind, bind_some]
      exact hext
    · have hwords := h.words
      omega

/-- **What `SerializeToBytes` does** with enough room: it returns the length of the message, changes
nothing outside it and leaves its encoding there. -/
theorem Message.serializeToBytes_spec (m : Message) (bytes : ByteMemory) (offset : Nat)
    (caps : Option CapBuffer) (hroom : offset + m.length ≤ bytes.size)
    (hsmall : offset + m.length < 2 ^ 32) (hcaps : ∀ c, caps = some c → ∀ p ∈ m.slots, p.1 < c.size) :
    ∃ bytes', m.serializeToBytes bytes offset caps = some (m.length, bytes', caps.map (putAll · m.slots)) ∧
      (bytes.Writes bytes' fun j => offset ≤ j ∧ j < offset + m.length) ∧
      (m.wire caps.isSome).Encoded bytes' offset := by
  obtain ⟨fields⟩ := m
  rw [Message.length] at hroom hsmall
  rw [Message.length, Message.slots, Message.wire, Message.serializeToBytes]
  simp only [Message.Encoded, length_fieldsWire, extensions_wire]
  have hcore : wrap64 (kHeaderSize + 8 * fields.length) = _ := wrap64_of_lt (by omega)
  have hnew : new bytes offset fields.length caps =
      ⟨bytes, offset, kHeaderSize + 8 * fields.length, kHeaderSize + 8 * fields.length, 0, caps⟩ := by
    rw [new, hcore]
  rw [hnew]
  obtain ⟨s, hwrite, hwrote, henc⟩ := serializeFields_spec fields
    ⟨bytes, offset, kHeaderSize + 8 * fields.length, kHeaderSize + 8 * fields.length, 0, caps⟩ 0
    ⟨by rw [Nat.add_assoc]; exact hroom, by rw [Nat.add_assoc]; exact hsmall, Nat.le_of_eq (by rw [Nat.zero_add])⟩ hcaps
  have hoffset : s.offset = offset := hwrote.offset
  have hcoreSize : s.coreSize = kHeaderSize + 8 * fields.length := hwrote.coreSize
  have hnext : s.nextExtension = kHeaderSize + 8 * fields.length + extensions fields :=
    hwrote.nextExtension
  have hbuffer := hwrote.buffer
  have hheader : kHeaderSize = 24 := rfl
  -- the header is written last, before the words of the fields
  have hle : offset + (headerBytes (kHeaderSize + 8 * fields.length)
      (kHeaderSize + 8 * fields.length + extensions fields)).length ≤ s.buffer.size := by
    rw [length_headerBytes, hbuffer.size]
    show offset + 16 ≤ bytes.size
    omega
  have hstore := writes_store s.buffer offset (headerBytes (kHeaderSize + 8 * fields.length)
    (kHeaderSize + 8 * fields.length + extensions fields))
  rw [length_headerBytes] at hstore
  refine ⟨_, ?_, ?_, holds_store _ _ _, fieldsEncoded_of_writes henc hstore ?_ ?_⟩
  · simp only [hwrite, Serializer.writeHeader, hoffset, hcoreSize, hnext, write_eq_some hle,
      bind_eq_bind, bind_some, hwrote.caps]
    rfl
  · refine (hbuffer.mono ?_).trans (hstore.mono ?_)
    · intro j hj
      simp only [hheader] at hj ⊢
      omega
    · intro j hj
      omega
  all_goals
    intro j hle hlt hj
    omega

theorem serializeFields_spec (vs : List Value) (s : Serializer) (i : Nat) (h : s.HasRoom i vs.length (extensions vs))
    (hcaps : ∀ caps, s.caps = some caps → ∀ p ∈ fieldsSlots s.nextCap vs, p.1 < caps.size) :
    ∃ s', serializeFields s i vs = some s' ∧
      s.Wrote s' i vs.length (extensions vs) (fieldsOwnCapabilities vs) (fieldsSlots s.nextCap vs) ∧
      fieldsEncoded s'.buffer s.offset i s.nextExtension (fieldsWire s.caps.isSome s.nextCap vs) := by
  cases vs with
  | nil => exact ⟨s, rfl, Serializer.Wrote.refl s i, trivial⟩
  | cons v vs =>
    rw [extensions, List.length_cons] at h
    have hroom := h.room
    have hsmall := h.small
    have hwords := h.words
    have hroomFirst : s.HasRoom i 1 v.extension := ⟨by omega, by omega, by omega⟩
    obtain ⟨s1, hfirst, hwrote1, henc1⟩ := v.writeValue_spec s i hroomFirst
      (fun caps hs p hp => hcaps caps hs p (List.mem_append_left _ hp))
    have hroomRest : s1.HasRoom (i + 1) vs.length (extensions vs) := by
      refine ⟨?_, ?_, ?_⟩
      · rw [hwrote1.offset, hwrote1.nextExtension, hwrote1.buffer.size]
        omega
      · rw [hwrote1.offset, hwrote1.nextExtension]
        omega
      · rw [hwrote1.nextExtension]
        omega
    -- without a `CapBuffer` the number of the next slot does not matter
    have hslots : fieldsSlots s1.nextCap vs = fieldsSlots (s.nextCap + v.ownCapabilities) vs ∨ s.caps = none := by
      cases hs : s.caps with
      | none => exact Or.inr rfl
      | some caps => exact Or.inl (by rw [hwrote1.nextCap (by rw [hs]; rfl)])
    have hwire : fieldsWire s1.caps.isSome s1.nextCap vs =
        fieldsWire s.caps.isSome (s.nextCap + v.ownCapabilities) vs := by
      have hsome : s1.caps.isSome = s.caps.isSome := by rw [hwrote1.caps, isSome_map]
      rw [hsome]
      cases hs : s.caps with
      | none => exact fieldsWire_false vs _ _
      | some caps => rw [hwrote1.nextCap (by rw [hs]; rfl)]
    have hcapsRest : ∀ caps, s1.caps = some caps → ∀ p ∈ fieldsSlots s1.nextCap vs, p.1 < caps.size := by
      intro caps hs1 p hp
      rw [hwrote1.caps] at hs1
      obtain ⟨caps0, hs, rfl⟩ := map_eq_some_iff.mp hs1
      rw [size_putAll]
      rw [hwrote1.nextCap (by rw [hs]; rfl)] at hp
      exact hcaps caps0 hs p (List.mem_append_right _ hp)
    obtain ⟨s2, hrest, hwrote2, henc2⟩ := serializeFields_spec vs s1 (i + 1) hroomRest hcapsRest
    refine ⟨s2, ?_, ?_, ?_⟩
    · rw [serializeFields]
      simp only [hfirst, bind_eq_bind, bind_some]
      exact hrest
    · rw [extensions, fieldsOwnCapabilities, fieldsSlots, List.length_cons, Nat.add_comm vs.length 1]
      have hboth := hwrote1.trans hwrote2
      refine ⟨hboth.offset, hboth.coreSize, hboth.nextExtension, hboth.nextCap, ?_, hboth.buffer⟩
      rw [hboth.caps]
      rcases hslots with hslots | hnone
      · rw [hslots]
      · rw [hnone]
        rfl
    · rw [hwire, hwrote1.offset, hwrote1.nextExtension] at henc2
      rw [fieldsWire, fieldsEncoded, v.extension_wire]
      refine ⟨henc1.of_writes hwrote2.buffer ?_ ?_, henc2⟩
      · intro j hle hlt hj
        rw [hwrote1.offset, hwrote1.nextExtension] at hj
        omega
      · intro j hle hlt hj
        rw [v.extension_wire] at hlt
        rw [hwrote1.offset, hwrote1.nextExtension] at hj
        omega

theorem serializeMessages_spec (ms : List Message) (buffer : ByteMemory) (offset nextOffset : Nat)
    (caps : Option CapBuffer) (hroom : offset + nextOffset + messagesLength ms ≤ buffer.size)
    (hsmall : offset + nextOffset + messagesLength ms < 2 ^ 32)
    (hcaps : ∀ c, caps = some c → ∀ p ∈ messagesSlots ms, p.1 < c.size) :
    ∃ buffer', serializeMessages buffer offset nextOffset caps ms =
        some (messagesLength ms, buffer', caps.map (putAll · (messagesSlots ms))) ∧
      (buffer.Writes buffer' fun j =>
        offset + nextOffset ≤ j ∧ j < offset + nextOffset + messagesLength ms) ∧
      messagesEncoded buffer' (offset + nextOffset) (messagesWire caps.isSome ms) := by
  cases ms with
  | nil =>
    refine ⟨buffer, ?_, Writes.refl _ _, trivial⟩
    cases caps <;> rfl
  | cons m ms =>
    rw [messagesLength] at hroom hsmall
    rw [messagesLength, messagesSlots, messagesWire, serializeMessages]
    simp only [messagesEncoded, m.length_wire]
    have haddr : wrap64 (offset + nextOffset) = _ := wrap64_of_lt (by omega)
    have hnext : wrap64 (nextOffset + m.length) = _ := wrap64_of_lt (by omega)
    have hsum : wrap64 (m.length + messagesLength ms) = _ := wrap64_of_lt (by omega)
    obtain ⟨buffer1, hfirst, hw1, henc1⟩ := m.serializeToBytes_spec buffer (offset + nextOffset)
      caps (by omega) (by omega)
      (fun c hc p hp => hcaps c hc p (List.mem_append_left _ hp))
    have hcapsRest : ∀ c, caps.map (putAll · m.slots) = some c → ∀ p ∈ messagesSlots ms, p.1 < c.size := by
      intro c hc p hp
      obtain ⟨c0, hs, rfl⟩ := map_eq_some_iff.mp hc
      rw [size_putAll]
      exact hcaps c0 hs p (List.mem_append_right _ hp)
    obtain ⟨buffer2, hrest, hw2, henc2⟩ := serializeMessages_spec ms buffer1 offset
      (nextOffset + m.length) _ (by rw [hw1.size]; omega) (by omega) hcapsRest
    refine ⟨buffer2, ?_, (hw1.mono ?_).trans (hw2.mono ?_), henc1.of_writes hw2 ?_, ?_⟩
    · simp only [haddr, hfirst, hnext, hrest, hsum, bind_eq_bind, bind_some, map_map]
      have hboth : (putAll · (messagesSlots ms)) ∘ (putAll · m.slots) =
          (putAll · (m.slots ++ messagesSlots ms)) := by
        funext c
        exact (c.putAll_append m.slots (messagesSlots ms)).symm
      rw [hboth]
      rfl
    · intro j hj
      omega
    · intro j hj
      omega
    · rw [m.length_wire]
      omega
    · rw [isSome_map, ← Nat.add_assoc] at henc2
      exact henc2

end

end Acadia.Yunq
