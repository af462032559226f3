import Acadia.Yunq.CppRoundTrip
import Mathlib.Data.List.Nodup

/-! # Capabilities in a `CapBuffer`

The generated C++ code numbers the capabilities of each message from `0`, also in a message inside
another one, and parses a message inside another one without the `CapBuffer`. -/

namespace Acadia.Yunq

open ByteMemory List Value

/-! ## Which messages have capabilities -/

mutual

/-- How many messages inside a field have capabilities. -/
def Value.holders : Value → Nat
  | .message m => m.holders
  | .repeatedMessage ms => messagesHolders ms
  | .emptied first => first.holders
  | .u64 _ | .i64 _ | .string _ | .capability _ | .repeatedU64 _ => 0

/-- How many messages have capabilities, a message and those inside it. -/
def Message.holders : Message → Nat
  | ⟨fields⟩ => (if fieldsOwnCapabilities fields = 0 then 0 else 1) + fieldsHolders fields

/-- How many messages inside fields have capabilities. -/
def fieldsHolders : List Value → Nat
  | [] => 0
  | v :: vs => v.holders + fieldsHolders vs

/-- How many of the messages have capabilities, and of those inside them. -/
def messagesHolders : List Message → Nat
  | [] => 0
  | m :: ms => m.holders + messagesHolders ms

end

mutual

/-- Each message with capabilities writes to slot `0` once. -/
theorem Value.count_slots (v : Value) (next : Nat) :
    ((v.slots next).map Prod.fst).count 0 = (if next = 0 then v.ownCapabilities else 0) + v.holders := by
  cases v with
  | u64 | i64 | string | repeatedU64 => simp [slots, ownCapabilities, holders]
  | capability c => simp [slots, ownCapabilities, holders, count_cons]
  | message m =>
    rw [slots, holders, m.count_slots]
    simp [ownCapabilities]
  | repeatedMessage ms =>
    rw [slots, holders, messages_count_slots ms]
    simp [ownCapabilities]
  | emptied first =>
    rw [slots, holders, first.count_slots]
    simp [ownCapabilities]

/-- **How often slot `0` is written to**: once for each message with capabilities. -/
theorem Message.count_slots : (m : Message) → (m.slots.map Prod.fst).count 0 = m.holders
  | ⟨fields⟩ => by
    rw [Message.slots, Message.holders, fields_count_slots fields 0]
    simp

theorem fields_count_slots : (vs : List Value) → (next : Nat) → ((fieldsSlots next vs).map Prod.fst).count 0 =
      (if next ≠ 0 ∨ fieldsOwnCapabilities vs = 0 then 0 else 1) + fieldsHolders vs
  | [], next => by simp [fieldsSlots, fieldsOwnCapabilities, fieldsHolders]
  | v :: vs, next => by
    rw [fieldsSlots, fieldsOwnCapabilities, fieldsHolders, map_append, count_append,
      v.count_slots next, fields_count_slots vs]
    have hone : v.ownCapabilities = 0 ∨ v.ownCapabilities = 1 := by
      cases v <;> simp [ownCapabilities]
    rcases hone with hown | hown
    · simp [hown]
      omega
    · by_cases hnext : next = 0
      · simp [hown, hnext]
        omega
      · simp [hown, hnext]

theorem messages_count_slots : (ms : List Message) → ((messagesSlots ms).map Prod.fst).count 0 = messagesHolders ms
  | [] => by simp [messagesSlots, messagesHolders]
  | m :: ms => by
    rw [messagesSlots, messagesHolders, map_append, count_append, m.count_slots, messages_count_slots ms]

end

/-! ## Slots of their own -/

/-- Slots that are written to in order, from `start` on. -/
def InOrder (start : Nat) (slots : List (Nat × UInt64)) : Prop :=
  slots.map Prod.fst = List.range' start slots.length

theorem inOrder_nil (start : Nat) : InOrder start [] := rfl

variable {slots : List (Nat × UInt64)}

theorem InOrder.nodup {start : Nat} (h : InOrder start slots) : (slots.map Prod.fst).Nodup := by
  rw [h]
  exact nodup_range'

mutual

theorem Value.slots_eq_nil (v : Value) (next : Nat) (h : v.holders = 0) (hown : v.ownCapabilities = 0) :
    v.slots next = [] := by
  cases v with
  | u64 | i64 | string | repeatedU64 => rw [slots]
  | capability c =>
    rw [ownCapabilities] at hown
    omega
  | message m => rw [slots, m.slots_eq_nil h]
  | repeatedMessage ms => rw [slots, messagesSlots_eq_nil ms h]
  | emptied first => rw [slots, first.slots_eq_nil h]

theorem Message.slots_eq_nil (m : Message) (h : m.holders = 0) : m.slots = [] := by
  obtain ⟨fields⟩ := m
  rw [Message.holders] at h
  have hown : fieldsOwnCapabilities fields = 0 := by
    by_contra hne
    rw [if_neg hne] at h
    omega
  exact fieldsSlots_eq_nil fields 0 (by omega) hown

theorem fieldsSlots_eq_nil : (vs : List Value) → (next : Nat) → fieldsHolders vs = 0 →
    fieldsOwnCapabilities vs = 0 → fieldsSlots next vs = []
  | [], next, _, _ => by rw [fieldsSlots]
  | v :: vs, next, h, hown => by
    rw [fieldsHolders] at h
    rw [fieldsOwnCapabilities] at hown
    rw [fieldsSlots, v.slots_eq_nil next (by omega) (by omega),
      fieldsSlots_eq_nil vs _ (by omega) (by omega), append_nil]

theorem messagesSlots_eq_nil : (ms : List Message) → messagesHolders ms = 0 → messagesSlots ms = []
  | [], _ => by rw [messagesSlots]
  | m :: ms, h => by
    rw [messagesHolders] at h
    rw [messagesSlots, m.slots_eq_nil (by omega), messagesSlots_eq_nil ms (by omega), append_nil]

end

theorem fieldsSlots_inOrder_own (vs : List Value) (next : Nat) (h : fieldsHolders vs = 0) :
    InOrder next (fieldsSlots next vs) := by
  induction vs generalizing next with
  | nil =>
    exact inOrder_nil next
  | cons v _ ih =>
    rw [fieldsHolders] at h
    rw [fieldsSlots]
    by_cases hown : v.ownCapabilities = 0
    · rw [v.slots_eq_nil next (by omega) hown, hown]
      exact ih next (by omega)
    · -- the field is a capability
      cases v with
      | capability =>
        have hrest := ih (next + 1) (by omega)
        rw [InOrder] at hrest ⊢
        rw [slots, ownCapabilities, singleton_append, map_cons, hrest, length_cons, List.range'_succ]
      | _ => exact absurd rfl hown

mutual

theorem Value.slots_inOrder (v : Value) (next : Nat) (h : v.holders ≤ 1) (hown : v.ownCapabilities = 0) :
    InOrder 0 (v.slots next) := by
  cases v with
  | u64 | i64 | string | repeatedU64 => exact inOrder_nil 0
  | capability c =>
    rw [ownCapabilities] at hown
    omega
  | message m => exact m.slots_inOrder h
  | repeatedMessage ms => exact messagesSlots_inOrder ms h
  | emptied first => exact first.slots_inOrder h

/-- **The slots of a message are in order** if only one message in it has capabilities. -/
theorem Message.slots_inOrder (m : Message) (h : m.holders ≤ 1) : InOrder 0 m.slots := by
  obtain ⟨fields⟩ := m
  rw [Message.holders] at h
  by_cases hown : fieldsOwnCapabilities fields = 0
  · rw [if_pos hown] at h
    exact fieldsSlots_inOrder fields 0 (by omega) hown
  · rw [if_neg hown] at h
    exact fieldsSlots_inOrder_own fields 0 (by omega)

theorem fieldsSlots_inOrder (vs : List Value) (next : Nat) (h : fieldsHolders vs ≤ 1)
    (hown : fieldsOwnCapabilities vs = 0) : InOrder 0 (fieldsSlots next vs) := by
  cases vs with
  | nil => exact inOrder_nil 0
  | cons v vs =>
    rw [fieldsHolders] at h
    rw [fieldsOwnCapabilities] at hown
    rw [fieldsSlots]
    -- only one side has capabilities
    by_cases hv : v.holders = 0
    · rw [v.slots_eq_nil next hv (by omega), nil_append]
      exact fieldsSlots_inOrder vs _ (by omega) (by omega)
    · rw [fieldsSlots_eq_nil vs _ (by omega) (by omega), append_nil]
      exact v.slots_inOrder next (by omega) (by omega)

theorem messagesSlots_inOrder : (ms : List Message) → messagesHolders ms ≤ 1 → InOrder 0 (messagesSlots ms)
  | [], _ => by
    exact inOrder_nil 0
  | m :: ms, h => by
    rw [messagesHolders] at h
    rw [messagesSlots]
    by_cases hm : m.holders = 0
    · rw [m.slots_eq_nil hm, nil_append]
      exact messagesSlots_inOrder ms (by omega)
    · rw [messagesSlots_eq_nil ms (by omega), append_nil]
      exact m.slots_inOrder (by omega)

end

/-- **Every capability has a slot of its own** exactly if only one message has capabilities. -/
theorem Message.slots_nodup_iff (m : Message) : (m.slots.map Prod.fst).Nodup ↔ m.holders ≤ 1 := by
  constructor
  · intro h
    rw [← m.count_slots]
    exact nodup_iff_count_le_one.mp h 0
  · exact fun h => (m.slots_inOrder h).nodup

/-! ## What the `CapBuffer` holds -/

theorem CapBuffer.written_putAll (c : CapBuffer) (slots : List (Nat × UInt64)) :
    (c.putAll slots).written = c.written ++ slots.map Prod.fst := by
  induction slots generalizing c with
  | nil => rw [CapBuffer.putAll_nil, map_nil, append_nil]
  | cons p slots ih =>
    show ((c.put p.1 p.2).putAll slots).written = _
    rw [ih, map_cons]
    show c.written ++ [p.1] ++ _ = _
    rw [append_assoc]
    rfl

theorem CapBuffer.slot_putAll_of_not_mem (c : CapBuffer) {k : Nat}
    (h : k ∉ slots.map Prod.fst) : (c.putAll slots).slot k = c.slot k := by
  induction slots generalizing c with
  | nil => rfl
  | cons p slots ih =>
    rw [map_cons, mem_cons, not_or] at h
    show ((c.put p.1 p.2).putAll slots).slot k = _
    rw [ih _ h.2]
    exact Function.update_of_ne h.1 _ _

theorem CapBuffer.slot_putAll (c : CapBuffer) (hnodup : (slots.map Prod.fst).Nodup) {p : Nat × UInt64}
    (hp : p ∈ slots) : (c.putAll slots).slot p.1 = p.2 := by
  induction slots generalizing c with
  | nil => cases hp
  | cons q slots ih =>
    rw [map_cons, nodup_cons] at hnodup
    show ((c.put q.1 q.2).putAll slots).slot p.1 = _
    rcases mem_cons.mp hp with rfl | hp
    · rw [CapBuffer.slot_putAll_of_not_mem _ hnodup.1]
      exact Function.update_self _ _ _
    · exact ih _ hnodup.2 hp

theorem CapBuffer.usedSlots_putAll (c : CapBuffer)
    (h : InOrder c.usedSlots slots) : (c.putAll slots).usedSlots = c.usedSlots + slots.length := by
  induction slots generalizing c with
  | nil => rfl
  | cons p slots ih =>
    rw [InOrder, map_cons, length_cons, List.range'_succ, List.cons.injEq] at h
    have hused : (c.put p.1 p.2).usedSlots = c.usedSlots + 1 := by
      show (if c.usedSlots < p.1 + 1 then p.1 + 1 else c.usedSlots) = _
      rw [h.1, if_pos (Nat.lt_succ_self _)]
    show ((c.put p.1 p.2).putAll slots).usedSlots = _
    rw [ih (c.put p.1 p.2) (by rw [InOrder, hused]; exact h.2), hused, length_cons]
    omega

/-! ## Parsing with the `CapBuffer` -/

/-- The capabilities in messages inside a field are their own numbers. -/
def Value.InnerNumbered : Value → Prop
  | .message m => m.Numbered
  | .repeatedMessage ms => messagesNumbered ms
  | .emptied first => first.Numbered
  | .u64 _ | .i64 _ | .string _ | .capability _ | .repeatedU64 _ => True

/-- The `i`-th capability in each message inside a message is the number `i`. -/
def Message.InnerNumbered (m : Message) : Prop := ∀ v ∈ m.fields, v.InnerNumbered

/-- If the capabilities of the message itself are found in their slots, it is read back exactly if it is
settled and the capabilities inside are their own numbers. -/
theorem resolveFields_eq_value_iff {caps : CapBuffer} (vs : List Value) (next : Nat)
    (hslots : ∀ p ∈ fieldsSlots next vs, p.1 < 2 ^ 64 ∧ caps.at? p.1 = some p.2) :
    resolveFields (some caps) (fieldsWire true next vs) = .ok (fieldsValue vs) ↔
      fieldsSettled vs ∧ ∀ v ∈ vs, v.InnerNumbered := by
  induction vs generalizing next with
  | nil => simp [fieldsWire, resolveFields, fieldsValue, fieldsSettled]
  | cons v vs ih =>
    have hrest := ih (next + v.ownCapabilities) fun p hp => hslots p (mem_append_right _ hp)
    have hfirst : ∃ w, (v.wire true next).resolve (some caps) = .ok w ∧
        (w = v.value ↔ v.Settled ∧ v.InnerNumbered) := by
      have hiff := v.wire_eq_value_iff true next
      cases v with
      | capability c =>
        obtain ⟨hsmall, hat⟩ := hslots (next, c) (mem_append_left _ (by
          exact mem_cons_self))
        have hnext : (UInt64.ofNat next).toNat = next := by
          exact Nat.mod_eq_of_lt hsmall
        refine ⟨.capability c, ?_, ?_⟩
        · rw [wire, if_pos rfl, resolve]
          simp only [capAt, hnext, hat, bind, Except.bind, pure, Except.pure]
        · simp [value, Value.Settled, Value.InnerNumbered]
      | message m =>
        rw [Value.Numbered, eq_self, true_imp_iff] at hiff
        exact ⟨(message m).wire true next, by rw [wire]; rfl, hiff⟩
      | repeatedMessage ms =>
        rw [Value.Numbered, eq_self, true_imp_iff] at hiff
        exact ⟨(repeatedMessage ms).wire true next, by rw [wire]; rfl, hiff⟩
      | emptied first =>
        rw [Value.Numbered, eq_self, true_imp_iff] at hiff
        exact ⟨(emptied first).wire true next, by rw [wire]; rfl, hiff⟩
      | _ =>
        refine ⟨_, by rw [wire]; rfl, ?_⟩
        simp [value, Value.Settled, Value.InnerNumbered]
    obtain ⟨w, hw, hwiff⟩ := hfirst
    rw [fieldsWire, resolveFields, hw, fieldsValue, fieldsSettled, forall_mem_cons]
    have hcons : (do
        let value ← Except.ok w
        let values ← resolveFields (some caps) (fieldsWire true (next + v.ownCapabilities) vs)
        return value :: values) = Except.ok (v.value :: fieldsValue vs) ↔
        w = v.value ∧ resolveFields (some caps) (fieldsWire true (next + v.ownCapabilities) vs) =
          .ok (fieldsValue vs) := by
      cases resolveFields (some caps) (fieldsWire true (next + v.ownCapabilities) vs) with
      | error => simp [bind, Except.bind]
      | ok => simp [bind, Except.bind, pure, Except.pure]
    tauto

mutual

theorem Value.slot_lt : (v : Value) → (next : Nat) → ∀ p ∈ v.slots next, p.1 < next + (v.slots next).length
  | .u64 _, next | .i64 _, next | .string _, next | .repeatedU64 _, next => by simp [slots]
  | .capability c, next => by simp [slots]
  | .message m, next => by
    intro p hp
    exact Nat.lt_add_left next (m.slot_lt p hp)
  | .repeatedMessage ms, next => by
    intro p hp
    exact Nat.lt_add_left next (messagesSlot_lt ms p hp)
  | .emptied first, next => by
    intro p hp
    exact Nat.lt_add_left next (first.slot_lt p hp)

theorem Message.slot_lt (m : Message) : ∀ p ∈ m.slots, p.1 < m.slots.length := by
  obtain ⟨fields⟩ := m
  intro p hp
  rw [Message.slots] at hp ⊢
  have hlt := fieldsSlot_lt fields 0 p hp
  omega

theorem fieldsSlot_lt : (vs : List Value) → (next : Nat) → ∀ p ∈ fieldsSlots next vs,
    p.1 < next + (fieldsSlots next vs).length
  | [], next => by simp [fieldsSlots]
  | v :: vs, next => by
    intro p hp
    rw [fieldsSlots] at hp ⊢
    rw [length_append]
    rcases mem_append.mp hp with hp | hp
    · have hlt := v.slot_lt next p hp
      omega
    · have hlt := fieldsSlot_lt vs (next + v.ownCapabilities) p hp
      have hown : v.ownCapabilities ≤ (v.slots next).length := by
        cases v <;> simp [ownCapabilities, slots]
      omega

theorem messagesSlot_lt : (ms : List Message) → ∀ p ∈ messagesSlots ms, p.1 < (messagesSlots ms).length
  | [] => by simp [messagesSlots]
  | m :: ms => by
    intro p hp
    rw [messagesSlots] at hp ⊢
    rw [length_append]
    rcases mem_append.mp hp with hp | hp
    · have hlt := m.slot_lt p hp
      omega
    · have hlt := messagesSlot_lt ms p hp
      omega

end

mutual

theorem Value.length_slots_le (v : Value) (next : Nat) : (v.slots next).length ≤ 1 + v.extension := by
  cases v with
  | u64 | i64 | string | repeatedU64 | capability => simp [slots]
  | message m => exact Nat.le_trans m.length_slots_le (Nat.le_add_left _ _)
  | repeatedMessage ms => exact Nat.le_trans (length_messagesSlots_le ms) (Nat.le_add_left _ _)
  | emptied first => exact Nat.le_trans first.length_slots_le (Nat.le_add_left _ _)

theorem Message.length_slots_le : (m : Message) → m.slots.length ≤ m.length
  | ⟨fields⟩ => by
    have hle := length_fieldsSlots_le fields 0
    rw [Message.slots, Message.length]
    omega

theorem length_fieldsSlots_le : (vs : List Value) → (next : Nat) →
    (fieldsSlots next vs).length ≤ vs.length + extensions vs
  | [], next => by simp [fieldsSlots]
  | v :: vs, next => by
    have hv := v.length_slots_le next
    have hvs := length_fieldsSlots_le vs (next + v.ownCapabilities)
    rw [fieldsSlots, extensions, length_append, length_cons]
    omega

theorem length_messagesSlots_le : (ms : List Message) → (messagesSlots ms).length ≤ messagesLength ms
  | [] => by simp [messagesSlots]
  | m :: ms => by
    have hm := m.length_slots_le
    have hms := length_messagesSlots_le ms
    rw [messagesSlots, messagesLength, length_append]
    omega

end

/-! ## Round trips -/

/-- **Serializing and parsing with a `CapBuffer`.** For every schema and message, with enough room in both
buffers, `SerializeToBytes` succeeds; parsing gives the message again, every capability has a slot of its own and
`UsedSlots` is the number of capabilities written, exactly if the message is settled, only one message in it has
capabilities, and the `i`-th capability in a message inside it is the number `i`. -/
theorem serialize_parse_caps_iff {schema : Schema} {name : String} {m : Message} (htype : m.HasType schema name)
    (bytes : ByteMemory) (offset : Nat) (hroom : offset + m.length ≤ bytes.size) (hsmall : offset + m.length < 2 ^ 32)
    (caps : CapBuffer) (hslots : m.slots.length ≤ caps.size) (hreset : caps.usedSlots = 0 ∧ caps.written = []) :
    ∃ bytes' caps', m.serializeToBytes bytes offset (some caps) = some (m.length, bytes', some caps') ∧
      ((∀ fuel, m.length ≤ fuel → parseFromBytes schema bytes' fuel name offset (some caps') = .ok (.ok, m.value)) ∧
        caps'.written.Nodup ∧ caps'.usedSlots = caps'.written.length ↔
      m.Settled ∧ m.holders ≤ 1 ∧ m.InnerNumbered) := by
  have hfits : ∀ c, some caps = some c → ∀ p ∈ m.slots, p.1 < c.size := by
    rintro c ⟨⟩ p hp
    exact Nat.lt_of_lt_of_le (m.slot_lt p hp) hslots
  obtain ⟨bytes', hwrite, hw, henc⟩ :=
    m.serializeToBytes_spec bytes offset (some caps) hroom hsmall hfits
  refine ⟨bytes', caps.putAll m.slots, hwrite, ?_⟩
  have hwritten : (caps.putAll m.slots).written = m.slots.map Prod.fst := by
    rw [CapBuffer.written_putAll, hreset.2, nil_append]
  have hparse : ∀ fuel, m.length ≤ fuel → parseFromBytes schema bytes' fuel name offset (some (caps.putAll m.slots)) =
        (m.wire true).resolve (some (caps.putAll m.slots)) := by
    intro fuel hfuel
    rw [← m.length_wire true] at hroom hsmall hfuel
    exact (m.wire true).parseFromBytes_spec schema bytes' offset fuel name _
      (m.hasType_wire true htype) henc (by rw [hw.size]; exact hroom) hsmall hfuel
  -- with slots of their own, the capabilities of the message itself are found
  have hresolve : m.holders ≤ 1 → ((m.wire true).resolve (some (caps.putAll m.slots)) = .ok (.ok, m.value) ↔
        m.Settled ∧ m.InnerNumbered) := by
    intro hholders
    have hnodup := m.slots_nodup_iff.mpr hholders
    cases m with
    | mk fields =>
      have hfound : ∀ p ∈ fieldsSlots 0 fields, p.1 < 2 ^ 64 ∧
          (caps.putAll (fieldsSlots 0 fields)).at? p.1 = some p.2 := by
        intro p hp
        rw [Message.slots] at hnodup
        have hlt := (Message.mk fields).slot_lt p (by rw [Message.slots]; exact hp)
        have hle := (Message.mk fields).length_slots_le
        refine ⟨by omega, ?_⟩
        rw [CapBuffer.at?, CapBuffer.size_putAll, if_pos (Nat.lt_of_lt_of_le hlt hslots),
          CapBuffer.slot_putAll caps hnodup hp]
      have hiff := resolveFields_eq_value_iff fields 0 hfound
      rw [Message.wire, Message.resolve, Message.value, Message.Settled, Message.InnerNumbered,
        Message.slots, Message.fields, ← hiff]
      cases resolveFields (some (caps.putAll (fieldsSlots 0 fields))) (fieldsWire true 0 fields) with
      | error => simp [bind, Except.bind]
      | ok => simp [bind, Except.bind, pure, Except.pure]
  rw [hwritten, m.slots_nodup_iff]
  constructor
  · rintro ⟨hall, hholders, -⟩
    have hback := (hparse m.length (Nat.le_refl _)).symm.trans (hall m.length (Nat.le_refl _))
    obtain ⟨hsettled, hnumbered⟩ := (hresolve hholders).mp hback
    exact ⟨hsettled, hholders, hnumbered⟩
  · rintro ⟨hsettled, hholders, hnumbered⟩
    refine ⟨?_, hholders, ?_⟩
    · intro fuel hfuel
      rw [hparse fuel hfuel]
      exact (hresolve hholders).mpr ⟨hsettled, hnumbered⟩
    · have horder := m.slots_inOrder hholders
      rw [CapBuffer.usedSlots_putAll caps (by rw [hreset.1]; exact horder), hreset.1, Nat.zero_add, length_map]

/-- Messages with capabilities: one, two around a message with a number, and one before such a message. -/
def capsSchema : Schema
  | "Number" => some [⟨false, .u64⟩]
  | "Pair" => some [⟨false, .capability⟩, ⟨false, .message "Number"⟩, ⟨false, .capability⟩]
  | "Cap" => some [⟨false, .capability⟩]
  | "Caps" => some [⟨false, .capability⟩, ⟨false, .message "Cap"⟩]
  | _ => none

/-- A `CapBuffer` that was just constructed. -/
def emptyCaps (size : Nat) : CapBuffer := ⟨size, fun _ => 0, 0, []⟩

/-- Two capabilities around a message. -/
def pair : Message := ⟨[.capability 1234, .message ⟨[.u64 7]⟩, .capability 5678]⟩

theorem serialize_parse_caps_iff_pair :
    ∃ bytes' caps', pair.serializeToBytes (zeros 128) 0 (some (emptyCaps 4)) = some (80, bytes', some caps') ∧
      (∀ fuel, 80 ≤ fuel → parseFromBytes capsSchema bytes' fuel "Pair" 0 (some caps') = .ok (.ok, pair)) ∧
      caps'.written.Nodup ∧ caps'.usedSlots = caps'.written.length := by
  have htype : pair.HasType capsSchema "Pair" := by
    refine ⟨_, rfl, ?_⟩
    simp [fieldsHaveTypes, Value.HasType, Message.HasType, capsSchema]
  have hcond : pair.Settled ∧ pair.holders ≤ 1 ∧ pair.InnerNumbered := by
    refine ⟨?_, by decide, ?_⟩
    · simp [pair, Message.Settled, fieldsSettled, Value.Settled]
    · simp [pair, Message.InnerNumbered, Message.fields, Value.InnerNumbered, Message.Numbered, fieldsNumbered, Value.Numbered]
  obtain ⟨bytes', caps', hwrite, hiff⟩ := serialize_parse_caps_iff htype (zeros 128) 0 (by decide)
    (by decide) (emptyCaps 4) (by decide) ⟨rfl, rfl⟩
  exact ⟨bytes', caps', hwrite, hiff.mpr hcond⟩

/-- **Capabilities of different messages share a slot**, and a capability in a message inside another one is
read back as the number of its slot. -/
theorem capabilities_collide :
    ∃ bytes' caps', (Message.mk [.capability 37, .message ⟨[.capability 39]⟩]).serializeToBytes
        (zeros 256) 0 (some (emptyCaps 8)) = some (72, bytes', some caps') ∧
      caps'.written = [0, 0] ∧ caps'.usedSlots = 1 ∧
      parseFromBytes capsSchema bytes' 72 "Caps" 0 (some caps') =
        .ok (.ok, ⟨[.capability 39, .message ⟨[.capability 0]⟩]⟩) := by
  exact ⟨_, _, rfl, rfl, rfl, rfl⟩

end Acadia.Yunq
