import Acadia.Foundations.Command
import Acadia.Yunq.MessageView
import Mathlib.Order.Filter.AtTopBot.Basic
import Mathlib.Order.Filter.Finite

/-! # What `ParseFromBytes` does not check

The header of a message is checked, but the generated code drops what the check of a message inside
says, and the loop over repeated messages follows lengths that nobody checks. -/

namespace Acadia.Yunq

open ByteMemory MessageView Relation
open Filter (atTop)

/-- `CheckHeader` succeeds for a message at an offset. -/
def ValidHeader (buffer : ByteMemory) (offset : Nat) : Prop :=
  checkHeader ⟨buffer, offset⟩ = .ok .ok

namespace MessageView

/-- **Where the loop of `ReadRepeatedMessage` comes to**, from one offset to another before the end,
over `good` messages. -/
inductive Comes (view : MessageView) (stop : Nat) (good : Nat → Prop) : Nat → Nat → Prop
  /-- The offset itself. -/
  | here {ext : Nat} : ext < stop → Comes view stop good ext ext
  /-- An offset behind the message that is there. -/
  | next {ext length p : Nat} : ext < stop → good (wrap64 (view.offset + ext)) →
      messageLength ⟨view.buffer, wrap64 (view.offset + ext)⟩ = .ok length →
      Comes view stop good (wrap64 (ext + length)) p → Comes view stop good ext p

/-- The message at an offset is parsed, and its status is fine. -/
def Parses (parse : Nat → Except ViewFault (Status × Message)) (offset : Nat) : Prop :=
  ∃ status m, parse offset = .ok (status, m) ∧ status.code = .ok

/-- **Every good message that the loop comes to has a length.** -/
def Advances (good : Nat → Prop) (view : MessageView) (stop ext : Nat) : Prop :=
  ∀ p, view.Comes stop good ext p → good (wrap64 (view.offset + p)) →
    messageLength ⟨view.buffer, wrap64 (view.offset + p)⟩ ≠ .ok 0

/-! ## The loop over repeated messages -/

variable {view : MessageView} {stop ext fuel : Nat} {good : Nat → Prop}
  {parse : Nat → Except ViewFault (Status × Message)}

theorem valueAt_cases (buffer : ByteMemory) (width offset : Nat) :
    valueAt buffer width offset = .error .outside ∨
      ∃ v < 256 ^ width, valueAt buffer width offset = .ok v := by
  rw [valueAt, bytesAt, ByteMemory.read]
  by_cases hin : offset + width ≤ buffer.size
  · have hlt := ofLittleEndian_lt (buffer.slice offset width)
    rw [length_slice] at hlt
    rw [if_pos hin]
    exact Or.inr ⟨_, hlt, rfl⟩
  · rw [if_neg hin]
    exact Or.inl rfl

/-- The loop ends if every message that it comes to is parsed and has a length. -/
theorem readMessages_ne_fuel (hgood : ∀ o, Parses parse o → good o)
    (hparse : ∀ p, view.Comes stop good ext p → parse (wrap64 (view.offset + p)) ≠ .error .fuel)
    (hstop : stop < 2 ^ 32) (hfuel : stop ≤ ext + fuel) (h : view.Advances good stop ext) :
    view.readMessages parse stop fuel ext ≠ .error .fuel := by
  induction fuel generalizing ext with
  | zero =>
    rw [readMessages, if_neg (by omega)]
    simp
  | succ fuel ih =>
    rw [readMessages]
    split_ifs with hlt
    · refine except_bind_ne_error (hparse ext (.here hlt)) ?_
      rintro ⟨status, message⟩ hok
      dsimp only
      split_ifs with hstatus
      · exact nofun
      have hthis := hgood _ ⟨status, message, hok, not_not.mp hstatus⟩
      rw [messageLength]
      rcases valueAt_cases view.buffer 4 (wrap64 (wrap64 (view.offset + ext) + 8)) with
        hout | ⟨length, hsmall, hlength⟩
      · rw [hout]
        exact nofun
      · have hpos : length ≠ 0 := fun hzero => h ext (.here hlt) hthis (hzero ▸ hlength)
        have hnext : wrap64 (ext + length) = _ := wrap64_of_lt (by omega)
        have hbehind : ∀ p, view.Comes stop good (wrap64 (ext + length)) p →
            view.Comes stop good ext p := fun p hp => .next hlt hthis hlength hp
        rw [hlength]
        show (view.readMessages parse stop fuel (wrap64 (ext + length)) >>= _) ≠ _
        refine except_bind_ne_error (ih ?_ (by omega) ?_) fun _ _ heq => by cases heq
        · exact fun p hp => hparse p (hbehind p hp)
        · exact fun p hp => h p (hbehind p hp)
    · simp

/-- **The loop does not end** at a message of length zero. -/
theorem readMessages_eq_fuel (hstop : stop < 2 ^ 32) (hlt : ext < stop)
    (hparses : Parses parse (wrap64 (view.offset + ext)))
    (hzero : messageLength ⟨view.buffer, wrap64 (view.offset + ext)⟩ = .ok 0) (fuel : Nat) :
    view.readMessages parse stop fuel ext = .error .fuel := by
  obtain ⟨status, m, hok, hstatus⟩ := hparses
  have hsame : wrap64 (ext + 0) = ext := wrap64_of_lt (by omega)
  induction fuel with
  | zero => rw [readMessages, if_pos hlt]
  | succ fuel ih =>
    rw [readMessages, if_pos hlt]
    simp only [hok, hstatus, hzero, hsame, ih, bind, Except.bind, ne_eq, not_true_eq_false, if_false]

end MessageView

/-! ## Messages inside -/

/-- **The messages inside a message**, by name and offset. -/
inductive SubMessage (schema : Schema) (buffer : ByteMemory) : String × Nat → String × Nat → Prop
  /-- The message of a field. -/
  | message {name inner : String} {types : List FieldType} {offset i ext length : Nat} :
      schema name = some types → types[i]? = some ⟨false, .message inner⟩ →
      readPointer ⟨buffer, offset⟩ i = .ok (ext, length) →
      SubMessage schema buffer (name, offset) (inner, wrap64 (offset + ext))
  /-- A message of a field of repeated ones, behind others with valid headers. -/
  | repeated {name inner : String} {types : List FieldType} {offset i ext length p : Nat} :
      schema name = some types → types[i]? = some ⟨true, .message inner⟩ →
      readPointer ⟨buffer, offset⟩ i = .ok (ext, length) →
      Comes ⟨buffer, offset⟩ (wrap32 (ext + length)) (ValidHeader buffer) ext p →
      SubMessage schema buffer (name, offset) (inner, wrap64 (offset + p))

/-- The headers of a message and of all messages inside are valid. -/
def AllValid (schema : Schema) (buffer : ByteMemory) (name : String) (offset : Nat) : Prop :=
  ∀ sub, ReflTransGen (SubMessage schema buffer) (name, offset) sub → ValidHeader buffer sub.2

/-- A message that is parsed for another one: it is inside, and the other one has a valid header. -/
def ParsedFor (schema : Schema) (buffer : ByteMemory) (sub node : String × Nat) : Prop :=
  ValidHeader buffer node.2 ∧ SubMessage schema buffer node sub

/-- The messages with valid headers that the loops over the repeated fields of a message come to have
lengths. -/
def HasLengths (schema : Schema) (buffer : ByteMemory) (node : String × Nat) : Prop :=
  ∀ types i inner ext length, schema node.1 = some types →
    types[i]? = some ⟨true, .message inner⟩ →
    readPointer ⟨buffer, node.2⟩ i = .ok (ext, length) →
    Advances (ValidHeader buffer) ⟨buffer, node.2⟩ (wrap32 (ext + length)) ext

section Parsing

variable {schema : Schema} {buffer : ByteMemory} {name : String} {offset : Nat}

/-- What `CheckHeader` says. -/
theorem checkHeader_cases (view : MessageView) : view.checkHeader = .error .outside ∨
    view.checkHeader = .ok .ok ∨ ∃ text, view.checkHeader = .ok ⟨.invalidArgument, text⟩ := by
  rw [checkHeader]
  rcases valueAt_cases view.buffer 4 view.offset with hout | ⟨ident, -, hident⟩
  · exact Or.inl (by rw [hout]; rfl)
  · rw [hident]
    by_cases hright : ident = kIdentByte
    · exact Or.inr (Or.inl (if_neg (not_not.mpr hright)))
    · exact Or.inr (Or.inr ⟨_, if_pos hright⟩)

/-- With a valid header, the fields are read. -/
theorem parseFromBytes_of_valid {types : List FieldType} (hname : schema name = some types)
    (hvalid : ValidHeader buffer offset) (fuel : Nat) (caps : Option CapBuffer) :
    parseFromBytes schema buffer (fuel + 1) name offset caps = (do
      let fields ← readFields (readValue
        (parseFromBytes schema buffer fuel · · none) fuel caps ⟨buffer, offset⟩) 0 types
      return (.ok, ⟨fields⟩)) := by
  rw [ValidHeader] at hvalid
  simp only [parseFromBytes, hname, hvalid]
  rfl

/-- The status of `ParseFromBytes` is that of the message's own header. -/
theorem status_ok_iff {fuel : Nat} {caps : Option CapBuffer} {status : Status} {m : Message}
    (h : parseFromBytes schema buffer fuel name offset caps = .ok (status, m)) :
    status.code = .ok ↔ ValidHeader buffer offset := by
  cases fuel with
  | zero => cases h
  | succ fuel =>
    cases hname : schema name with
    | none =>
      rw [parseFromBytes, hname] at h
      cases h
    | some types =>
      rcases checkHeader_cases ⟨buffer, offset⟩ with hown | hown | ⟨text, hown⟩
      case inr.inl =>
        rw [parseFromBytes_of_valid hname hown] at h
        obtain ⟨fields, -, heq⟩ := except_bind_eq_ok_iff.mp h
        cases heq
        exact ⟨fun _ => hown, fun _ => rfl⟩
      all_goals
        simp only [parseFromBytes, hname, hown] at h
        cases h
      rw [ValidHeader, hown]
      simp [Status.ok]

/-! ## Where parsing ends -/

/-- In a schema in which no message contains one of its own type, at no depth, messages are not
inside one another without end, whatever the bytes are. -/
theorem acc_of_rank (rank : String → Nat)
    (h : ∀ name types, schema name = some types → ∀ type ∈ types, ∀ inner,
      type.innerType = .message inner → rank inner < rank name) (node : String × Nat) :
    Acc (ParsedFor schema buffer) node := by
  have hless : Subrelation (ParsedFor schema buffer) (InvImage (· < ·) fun node => rank node.1) := by
    rintro sub node ⟨-, hsub⟩
    cases hsub with
    | message hname htype | repeated hname htype =>
      exact h _ _ hname _ (List.mem_of_getElem? htype) _ rfl
  exact hless.accessible ((InvImage.wf _ Nat.lt_wfRel.wf).apply node)

theorem bytesAt_ne_fuel (width a : Nat) : bytesAt buffer width a ≠ .error .fuel := by
  rw [bytesAt]
  split <;> rintro ⟨⟩

theorem valueAt_ne_fuel (width a : Nat) : valueAt buffer width a ≠ .error .fuel :=
  except_bind_ne_error (bytesAt_ne_fuel width a) fun _ _ heq => by cases heq

theorem readWord_ne_fuel (view : MessageView) (i : Nat) : view.readWord i ≠ .error .fuel :=
  except_bind_ne_error (valueAt_ne_fuel _ _) fun _ _ heq => by cases heq

theorem readPointer_ne_fuel (view : MessageView) (i : Nat) : view.readPointer i ≠ .error .fuel :=
  except_bind_ne_error (bytesAt_ne_fuel _ _) fun _ _ heq => by cases heq

theorem readWords_ne_fuel (a rounds : Nat) :
    readWords buffer a rounds ≠ .error .fuel := by
  induction rounds generalizing a with
  | zero => exact nofun
  | succ rounds ih =>
    refine except_bind_ne_error (valueAt_ne_fuel _ _) fun _ _ => ?_
    exact except_bind_ne_error (ih _) fun _ _ heq => by cases heq

/-- Fields without messages are read in a fixed number of steps. -/
theorem readValue_ne_fuel {parse : String → Nat → Except ViewFault (Status × Message)} {fuel : Nat}
    {type : FieldType} (htype : ∀ inner, type.innerType ≠ .message inner) (caps : Option CapBuffer)
    (view : MessageView) (i : Nat) : view.readValue parse fuel caps i type ≠ .error .fuel := by
  have hreturn : ∀ {α : Type} {x : Except ViewFault α} {f : α → Value}, x ≠ .error .fuel →
      (do return f (← x)) ≠ Except.error ViewFault.fuel :=
    fun hx => except_bind_ne_error hx fun _ _ heq => by cases heq
  obtain ⟨repeated, inner⟩ := type
  cases inner with
  | message inner => exact absurd rfl (htype inner)
  | u64 =>
    cases repeated with
    | false => exact hreturn (readWord_ne_fuel view i)
    | true =>
      refine hreturn (except_bind_ne_error (readPointer_ne_fuel view i) fun _ _ => ?_)
      exact readWords_ne_fuel _ _
  | i64 =>
    cases repeated with
    | false => exact hreturn (f := fun word => .i64 word.toInt64) (readWord_ne_fuel view i)
    | true => rintro ⟨⟩
  | string =>
    cases repeated with
    | false =>
      refine hreturn (except_bind_ne_error (readPointer_ne_fuel view i) fun _ _ => ?_)
      dsimp only
      split
      · rintro ⟨⟩
      · exact bytesAt_ne_fuel _ _
    | true => rintro ⟨⟩
  | capability =>
    cases repeated with
    | false =>
      refine hreturn (except_bind_ne_error (readWord_ne_fuel view i) fun word _ => ?_)
      cases caps with
      | none => rintro ⟨⟩
      | some caps =>
        dsimp only [capAt]
        split <;> rintro ⟨⟩
    | true => rintro ⟨⟩
  | bytes => cases repeated <;> rintro ⟨⟩

theorem readFields_ne_fuel {read : Nat → FieldType → Except ViewFault Value} {types : List FieldType}
    {k : Nat} (h : ∀ i type, types[i]? = some type → read (k + i) type ≠ .error .fuel) :
    readFields read k types ≠ .error .fuel := by
  induction types generalizing k with
  | nil => exact nofun
  | cons type types ih =>
    refine except_bind_ne_error (h 0 type rfl) fun _ _ => ?_
    refine except_bind_ne_error (ih fun i type' htype => ?_) fun _ _ heq => by cases heq
    have hrest := h (i + 1) type' htype
    rwa [← Nat.add_assoc, Nat.add_right_comm] at hrest

/-- **`ReadRepeatedMessage` ends** after at most as many messages as the length of its field says, if
the messages that it comes to are parsed and have lengths. -/
theorem readRepeatedMessage_ends {inner : String} {i ext length : Nat}
    (hpointer : readPointer ⟨buffer, offset⟩ i = .ok (ext, length))
    (hparse : ∀ p, Comes ⟨buffer, offset⟩ (wrap32 (ext + length)) (ValidHeader buffer) ext p →
      ∀ᶠ fuel in atTop, parseFromBytes schema buffer fuel inner (wrap64 (offset + p)) none ≠ .error .fuel)
    (h : Advances (ValidHeader buffer) ⟨buffer, offset⟩ (wrap32 (ext + length)) ext) :
    ∀ᶠ fuel in atTop, ∀ rounds, length ≤ rounds →
      readRepeatedMessage (parseFromBytes schema buffer fuel inner · none) rounds
        ⟨buffer, offset⟩ i ≠ .error .fuel := by
  have hstop : wrap32 (ext + length) < 2 ^ 32 := Nat.mod_lt _ (by decide)
  -- the loop stays below its end, so there are finitely many messages to parse
  have hbelow : ∀ {a p}, Comes ⟨buffer, offset⟩ (wrap32 (ext + length))
      (ValidHeader buffer) a p → p < wrap32 (ext + length) := by
    intro a p hcomes
    induction hcomes with
    | here hlt => exact hlt
    | next _ _ _ _ ih => exact ih
  have hall := (Filter.eventually_all_finite (Set.finite_lt_nat (wrap32 (ext + length)))).mpr fun p _ =>
    Filter.eventually_imp_distrib_left.mpr (hparse p)
  filter_upwards [hall] with fuel hfuel rounds hrounds
  have hle : wrap32 (ext + length) ≤ ext + rounds := (Nat.mod_le _ _).trans (by omega)
  rw [readRepeatedMessage, hpointer]
  refine readMessages_ne_fuel ?_ (fun p hp => hfuel p (hbelow hp) hp) hstop hle h
  rintro o ⟨status, m, hok, hstatus⟩
  exact (status_ok_iff hok).mp hstatus

/-- A field is read if the messages inside are parsed and have lengths. -/
theorem readValue_ends {types : List FieldType} {type : FieldType} {i : Nat}
    (hsub : ∀ sub, SubMessage schema buffer (name, offset) sub →
      ∀ᶠ fuel in atTop, parseFromBytes schema buffer fuel sub.1 sub.2 none ≠ .error .fuel)
    (hlengths : HasLengths schema buffer (name, offset)) (hname : schema name = some types)
    (htype : types[i]? = some type) :
    ∀ᶠ fuel in atTop, ∀ caps, readValue (parseFromBytes schema buffer fuel · · none)
      fuel caps ⟨buffer, offset⟩ i type ≠ .error .fuel := by
  obtain ⟨repeated, inner⟩ := type
  cases inner with
  | u64 | i64 | string | bytes | capability =>
    filter_upwards with fuel caps using readValue_ne_fuel (fun _ heq => by cases heq) caps _ i
  | message inner =>
    cases hpointer : readPointer ⟨buffer, offset⟩ i with
    | error e =>
      have he : (Except.error e : Except ViewFault (Nat × Nat)) ≠ .error .fuel :=
        hpointer ▸ readPointer_ne_fuel _ i
      filter_upwards with fuel caps heq
      cases repeated with
      | false | true =>
        rw [readValue] at heq
        first
        | rw [readMessage, hpointer] at heq
        | rw [readRepeatedMessage, hpointer] at heq
        cases heq
        exact he rfl
    | ok pointer =>
      obtain ⟨ext, length⟩ := pointer
      cases repeated with
      | false =>
        filter_upwards [hsub _ (.message hname htype hpointer)] with fuel hfuel caps
        rw [readValue, readMessage, hpointer]
        have hmessage := except_bind_ne_error hfuel (f := fun r => pure r.2) fun _ _ heq => by
          cases heq
        exact except_bind_ne_error hmessage fun _ _ heq => by cases heq
      | true =>
        have hloop := readRepeatedMessage_ends hpointer
          (fun p hp => hsub _ (.repeated hname htype hpointer hp))
          (hlengths types i inner ext length hname htype hpointer)
        filter_upwards [hloop, Filter.eventually_ge_atTop length] with fuel hfuel hlength caps
        exact except_bind_ne_error (hfuel fuel hlength) fun _ _ heq => by cases heq

/-- A message is parsed if its header is invalid, or the messages inside are parsed and have lengths. -/
theorem parseFromBytes_ends_of_sub (h : ValidHeader buffer offset →
      HasLengths schema buffer (name, offset) ∧ ∀ sub, SubMessage schema buffer (name, offset) sub →
        ∀ᶠ fuel in atTop, parseFromBytes schema buffer fuel sub.1 sub.2 none ≠ .error .fuel) :
    ∀ᶠ fuel in atTop, ∀ caps, parseFromBytes schema buffer fuel name offset caps ≠ .error .fuel := by
  rw [← Filter.map_add_atTop_eq_nat 1, Filter.eventually_map]
  cases hname : schema name with
  | none =>
    filter_upwards with fuel caps
    rw [parseFromBytes, hname]
    exact nofun
  | some types =>
    rcases checkHeader_cases ⟨buffer, offset⟩ with hown | hown | ⟨text, hown⟩
    case inr.inl =>
      obtain ⟨hlengths, hsub⟩ := h hown
      have hfields : ∀ᶠ fuel in atTop, ∀ i ∈ {i | i < types.length}, ∀ type caps,
          types[i]? = some type → readValue (parseFromBytes schema buffer fuel · · none)
            fuel caps ⟨buffer, offset⟩ i type ≠ .error .fuel := by
        refine (Filter.eventually_all_finite (Set.finite_lt_nat _)).mpr fun i hi => ?_
        have hi' : types[i]? = some types[i] := List.getElem?_eq_getElem hi
        filter_upwards [readValue_ends hsub hlengths hname hi'] with fuel hfuel type caps htype
        cases hi'.symm.trans htype
        exact hfuel caps
      filter_upwards [hfields] with fuel hfuel caps
      rw [parseFromBytes_of_valid hname hown]
      refine except_bind_ne_error (readFields_ne_fuel fun i type htype => ?_) fun _ _ heq => by
        cases heq
      rw [Nat.zero_add]
      exact hfuel i (List.getElem?_eq_some_iff.mp htype).1 type caps htype
    all_goals
      filter_upwards with fuel caps
      simp only [parseFromBytes, hname, hown]
      exact nofun

end Parsing

/-- A list of items, each a number. -/
def itemSchema : Schema
  | "Item" => some [⟨false, .u64⟩]
  | "List" => some [⟨true, .message "Item"⟩]
  | _ => none

/-- A list of one item; the identifier and the length of the item are given. -/
def oneItem (ident length : Nat) : ByteMemory := ofWords 8 fun j =>
  [kIdentByte + 32 * 2 ^ 32, 64, 0, 32 + 32 * 2 ^ 32, ident + 32 * 2 ^ 32, length, 0, 7].getD j 0

/-- A tree of nodes. -/
def nodeSchema : Schema
  | "Node" => some [⟨true, .message "Node"⟩]
  | _ => none

/-- A node that is its own child. -/
def ownChild : ByteMemory := ofWords 4 fun j =>
  [kIdentByte + 32 * 2 ^ 32, 32, 0, 32 * 2 ^ 32].getD j 0

/-- There is generated code that reads fields of a type. -/
def FieldType.isSupported (schema : Schema) : FieldType → Bool
  | ⟨_, .message name⟩ => (schema name).isSome
  | ⟨_, .u64⟩ => true
  | ⟨true, _⟩ | ⟨false, .bytes⟩ => false
  | ⟨false, _⟩ => true

/-- A message of `n` fields, each of which refers to the eight zeros in the message's header. -/
def pointsToZeros (n : Nat) : ByteMemory := ofWords (3 + n) fun j =>
  if j = 0 then kIdentByte else if j < 3 then 0 else 8 + 8 * 2 ^ 32

section Zeros

variable {n i : Nat}

theorem valueAt_pointsToZeros : valueAt (pointsToZeros n) 4 0 = .ok kIdentByte ∧
    valueAt (pointsToZeros n) 4 8 = .ok 0 := by
  have hfirst : (pointsToZeros n).Holds 0 (littleEndian 4 kIdentByte ++ littleEndian 4 0) :=
    holds_ofWords _ _ 0
  have hsecond : (pointsToZeros n).Holds 8 (littleEndian 4 0 ++ littleEndian 4 0) :=
    holds_ofWords _ _ 1
  have hsize : 8 + 4 ≤ (pointsToZeros n).size := by
    show 8 + 4 ≤ 8 * (3 + n)
    omega
  exact ⟨valueAt_of_holds (holds_append.mp hfirst).1 (by decide) (by omega),
    valueAt_of_holds (holds_append.mp hsecond).1 (by decide) hsize⟩

theorem readPointer_pointsToZeros (hi : i < n) (hsize : kHeaderSize + 8 * n < 2 ^ 64) :
    readPointer ⟨pointsToZeros n, 0⟩ i = .ok (8, 8) := by
  rw [kHeaderSize] at hsize
  refine readPointer_of_holds ⟨?_, ?_⟩ ?_ (by decide) (by decide)
  · show 0 + 24 + 8 * i + 8 ≤ 8 * (3 + n)
    omega
  · show 0 + 24 + 8 * i < 2 ^ 64
    omega
  · have hword := holds_ofWords (3 + n)
      (fun j => if j = 0 then kIdentByte else if j < 3 then 0 else 8 + 8 * 2 ^ 32) (3 + i)
    rw [if_neg (by omega), if_neg (by omega)] at hword
    have haddr : 0 + 24 + 8 * i = 8 * (3 + i) := by omega
    show (pointsToZeros n).Holds (0 + 24 + 8 * i) _
    rw [haddr]
    exact hword

theorem validHeader_pointsToZeros : ValidHeader (pointsToZeros n) 0 := by
  rw [ValidHeader, checkHeader, valueAt_pointsToZeros.1]
  rfl

/-- The message at the zeros has no valid header. -/
theorem parseFromBytes_zeros {schema : Schema} {inner : String} (hinner : (schema inner).isSome) :
    parseFromBytes schema (pointsToZeros n) 1 inner 8 none =
      .ok (⟨.invalidArgument, "Trying to parse an invalid yunq message."⟩, ⟨[]⟩) := by
  obtain ⟨types, hname⟩ := Option.isSome_iff_exists.mp hinner
  simp only [parseFromBytes, hname, checkHeader, valueAt_pointsToZeros.2]
  rfl

theorem not_validHeader_zeros : ¬ ValidHeader (pointsToZeros n) 8 := by
  rw [ValidHeader, checkHeader, valueAt_pointsToZeros.2]
  decide

theorem bytesAt_pointsToZeros {a : Nat} (ha : a + 8 ≤ 8 * (3 + n)) :
    ∃ bytes, bytesAt (pointsToZeros n) 8 a = .ok bytes := by
  have hread : (pointsToZeros n).read a 8 = some _ := if_pos ha
  exact ⟨_, by rw [bytesAt, hread]⟩

/-- Each field of a supported type is read, whatever is inside. -/
theorem readValue_pointsToZeros {schema : Schema} {type : FieldType} (htype : type.isSupported schema)
    (hi : i < n) (hsize : kHeaderSize + 8 * n < 2 ^ 64) :
    ∃ value, readValue (parseFromBytes schema (pointsToZeros n) 1 · · none) 1 none
      ⟨pointsToZeros n, 0⟩ i type = .ok value := by
  have hpointer := readPointer_pointsToZeros hi hsize
  obtain ⟨zeros, hzeros⟩ := bytesAt_pointsToZeros (n := n) (a := 8) (by omega)
  obtain ⟨word, hword⟩ : ∃ word, readWord ⟨pointsToZeros n, 0⟩ i = .ok word := by
    have hfield : MessageView.fieldOffset ⟨pointsToZeros n, 0⟩ i = 0 + kHeaderSize + 8 * i :=
      wrap64_of_lt (by simp only; omega)
    obtain ⟨bytes, hbytes⟩ := bytesAt_pointsToZeros (n := n) (a := 0 + kHeaderSize + 8 * i)
      (by rw [kHeaderSize]; omega)
    refine ⟨UInt64.ofNat (ofLittleEndian bytes), ?_⟩
    rw [readWord, valueAt, hfield, hbytes]
    rfl
  obtain ⟨repeated, inner⟩ := type
  cases inner with
  | message inner =>
    have hparse := parseFromBytes_zeros (n := n) htype
    cases repeated with
    | false =>
      refine ⟨.message ⟨[]⟩, ?_⟩
      rw [readValue, readMessage, hpointer]
      show (parseFromBytes schema (pointsToZeros n) 1 inner 8 none >>= _) >>= _ = _
      rw [hparse]
      rfl
    | true =>
      refine ⟨.repeatedMessage [⟨[]⟩], ?_⟩
      rw [readValue, readRepeatedMessage, hpointer]
      show (parseFromBytes schema (pointsToZeros n) 1 inner 8 none >>= _) >>= _ = _
      rw [hparse]
      rfl
  | u64 =>
    cases repeated with
    | false => exact ⟨.u64 word, by rw [readValue, hword]; rfl⟩
    | true =>
      refine ⟨.repeatedU64 [UInt64.ofNat (ofLittleEndian zeros)], ?_⟩
      have hwords : readRepeated ⟨pointsToZeros n, 0⟩ i =
          readWords (pointsToZeros n) 8 1 := by
        have hstart : wrap64 (0 + 8) = 8 := rfl
        have hstop : wrap64 (8 + 8) = 16 := rfl
        rw [readRepeated, hpointer]
        show readWords _ (wrap64 (0 + 8)) _ = _
        rw [hstart, hstop]
      rw [readValue, hwords, readWords, valueAt, hzeros]
      rfl
  | i64 =>
    cases repeated with
    | false => exact ⟨.i64 word.toInt64, by rw [readValue, hword]; rfl⟩
    | true => cases htype
  | string =>
    cases repeated with
    | false =>
      refine ⟨.string zeros, ?_⟩
      rw [readValue, readString, hpointer]
      show bytesAt (pointsToZeros n) 8 8 >>= _ = _
      rw [hzeros]
      rfl
    | true => cases htype
  | capability =>
    cases repeated with
    | false =>
      exact ⟨.capability word, by rw [readValue, readCapability, hword]; rfl⟩
    | true => cases htype
  | bytes => cases repeated <;> cases htype

theorem readFields_eq_ok {read : Nat → FieldType → Except ViewFault Value} {types : List FieldType}
    {k : Nat} (h : ∀ i type, types[i]? = some type → ∃ value, read (k + i) type = .ok value) :
    ∃ values, readFields read k types = .ok values := by
  induction types generalizing k with
  | nil => exact ⟨[], rfl⟩
  | cons type types ih =>
    obtain ⟨value, hvalue⟩ := h 0 type rfl
    obtain ⟨values, hvalues⟩ := ih (k := k + 1) fun i type' htype => by
      rw [Nat.add_right_comm]
      exact h (i + 1) type' htype
    refine ⟨value :: values, ?_⟩
    rw [readFields, ← Nat.add_zero k, hvalue, Nat.add_zero, hvalues]
    rfl

end Zeros

/-- **For which types `ParseFromBytes` checks all headers**: exactly for those without messages inside.
For any other type there are bytes that are parsed with status `Ok` though a header inside is
invalid. -/
theorem parseFromBytes_checks_iff {schema : Schema} {name : String} {types : List FieldType}
    (hname : schema name = some types) (htypes : ∀ type ∈ types, type.isSupported schema)
    (hsize : kHeaderSize + 8 * types.length < 2 ^ 64) :
    (∀ buffer fuel offset caps status m,
      parseFromBytes schema buffer fuel name offset caps = .ok (status, m) → status.code = .ok →
        AllValid schema buffer name offset) ↔
      ∀ type ∈ types, ∀ inner, type.innerType ≠ .message inner := by
  constructor
  · intro hchecks type htype inner hinner
    obtain ⟨i, hi, hget⟩ := List.mem_iff_getElem.mp htype
    have hpointer := readPointer_pointsToZeros hi hsize
    obtain ⟨values, hvalues⟩ := readFields_eq_ok (k := 0) fun j type' htype' => by
      obtain ⟨hj, rfl⟩ := List.getElem?_eq_some_iff.mp htype'
      rw [Nat.zero_add]
      exact readValue_pointsToZeros (htypes _ (List.getElem_mem hj)) hj hsize
    have hparse : parseFromBytes schema (pointsToZeros types.length) 2 name 0 none =
        .ok (.ok, ⟨values⟩) := by
      rw [parseFromBytes_of_valid hname validHeader_pointsToZeros, hvalues]
      rfl
    have hsub : SubMessage schema (pointsToZeros types.length) (name, 0) (inner, 8) := by
      have htype' : types[i]? = some type := List.getElem?_eq_some_iff.mpr ⟨hi, hget⟩
      obtain ⟨repeated, innerType⟩ := type
      cases hinner
      cases repeated with
      | false => exact .message hname htype' hpointer
      | true => exact .repeated (p := 8) hname htype' hpointer (.here (by decide))
    exact not_validHeader_zeros (hchecks _ _ _ _ _ _ hparse rfl _ (.single hsub))
  · intro hplain buffer fuel offset caps status m hparse hstatus sub hsub
    cases hsub.cases_head with
    | inl heq => exact heq ▸ (status_ok_iff hparse).mp hstatus
    | inr hinside =>
      obtain ⟨first, hfirst, -⟩ := hinside
      cases hfirst with
      | message hname' htype | repeated hname' htype =>
        cases hname.symm.trans hname'
        exact absurd rfl (hplain _ (List.mem_of_getElem? htype) _)

theorem parseFromBytes_checks_iff_oneItem :
    parseFromBytes itemSchema (oneItem kIdentByte 32) 3 "Item" 32 none = .ok (.ok, ⟨[.u64 7]⟩) ∧
      AllValid itemSchema (oneItem kIdentByte 32) "Item" 32 := by
  have hplain : ∀ type ∈ [(⟨false, .u64⟩ : FieldType)], ∀ inner, type.innerType ≠ .message inner := by
    rintro type htype inner
    rw [List.mem_singleton.mp htype]
    exact nofun
  have hparse : parseFromBytes itemSchema (oneItem kIdentByte 32) 3 "Item" 32 none = .ok (.ok, ⟨[.u64 7]⟩) := rfl
  exact ⟨hparse, (parseFromBytes_checks_iff rfl (by decide) (by decide)).mpr hplain _ _ _ _ _ _ hparse rfl⟩

/-- **A list whose item has no valid header is parsed with status `Ok`.** -/
theorem invalid_item_parsed : (∃ m, parseFromBytes itemSchema (oneItem 0 32) 3 "List" 0 none = .ok (.ok, m)) ∧
      SubMessage itemSchema (oneItem 0 32) ("List", 0) ("Item", 32) ∧
      ¬ ValidHeader (oneItem 0 32) 32 := by
  refine ⟨⟨_, rfl⟩, ?_, by unfold ValidHeader; decide⟩
  exact .repeated (i := 0) (p := 32) rfl rfl rfl (.here (by decide))

end Acadia.Yunq
