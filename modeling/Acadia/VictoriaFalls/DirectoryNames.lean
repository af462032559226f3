import Acadia.Glacier.StrSplit
import Acadia.Yunq.RustSpec
import Acadia.Yunq.SerializerSpec

/-! # Listing a directory from Rust

`HandleGetDirectory` joins the names of a directory, and `ls` of `rust/lib/victoriafalls` splits what the
response holds. -/

namespace Acadia.VictoriaFalls

open ByteMemory List Yunq

/-- `','`. -/
def comma : UInt8 := 0x2C

/-- `filelist`, after the last comma was removed. -/
def filelist (names : List (List UInt8)) : List UInt8 := (names.flatMap (· ++ [comma])).dropLast

/-- The message `Directory`. -/
def directorySchema : Schema := fun name => if name = "Directory" then some [⟨false, .string⟩] else none

/-- The response of `HandleGetDirectory`. -/
def directory (names : List (List UInt8)) : Message := ⟨[.string (filelist names)]⟩

/-- The end of `ls`. -/
def ls (response : Except RustFault Message) : Except RustFault (List (List UInt8)) :=
  response.map fun m =>
    match m.fields with
    | [.string filenames] => filenames.splitOn comma
    | _ => []

/-- **`ls` returns the names**: the server serializes the response to its buffer, and the client parses
it with the capabilities `vec`. -/
def Lists (content : Nat → UInt8) (caps : CapBuffer) (vec : List UInt64) (names : List (List UInt8)) :
    Prop :=
  ∃ length bytes caps', (directory names).serializeToBytes ⟨0x1000, content⟩ 16 (some caps) =
      some (length, bytes, caps') ∧
    ∀ fuel, length ≤ fuel → ls (parse directorySchema bytes vec fuel "Directory" 16) = .ok names

/-! ## Splitting -/

theorem filelist_eq_intercalate (names : List (List UInt8)) : filelist names = [comma].intercalate names := by
  induction names with
  | nil => rfl
  | cons name names ih =>
    cases names with
    | nil => simp [filelist]
    | cons next names =>
      have hne : (next :: names).flatMap (· ++ [comma]) ≠ [] := by simp
      rw [intercalate_cons_cons, ← ih, filelist, flatMap_cons, dropLast_append_of_ne_nil hne, filelist]

/-- **Splitting undoes joining** where there are names and none has a comma. -/
theorem splitOn_filelist_iff (names : List (List UInt8)) :
    (filelist names).splitOn comma = names ↔ names ≠ [] ∧ ∀ name ∈ names, comma ∉ name := by
  constructor
  · intro h
    refine ⟨fun hnil => splitOn_ne_nil comma (filelist names) (h.trans hnil), ?_⟩
    rw [← h]
    exact Glacier.not_mem_of_mem_splitOn comma _
  · rintro ⟨hne, hcomma⟩
    rw [filelist_eq_intercalate]
    exact splitOn_intercalate comma hcomma hne

/-! ## The response -/

variable (content : Nat → UInt8) (caps : CapBuffer) (vec : List UInt64) {names : List (List UInt8)}

theorem directory_of_room (hroom : 48 + (filelist names).length ≤ 0x1000) :
    ∃ bytes caps', (directory names).serializeToBytes ⟨0x1000, content⟩ 16 (some caps) =
        some ((directory names).length, bytes, caps') ∧
      ∀ fuel, (directory names).length ≤ fuel →
        parse directorySchema bytes vec fuel "Directory" 16 = (directory names).lookup vec := by
  have hlength : (directory names).length = 32 + (filelist names).length := rfl
  have htype : (directory names).HasType directorySchema "Directory" :=
    ⟨_, rfl, _, _, rfl, rfl, rfl⟩
  obtain ⟨bytes, hwrite, hwrites, henc⟩ := (directory names).serializeToBytes_spec ⟨0x1000, content⟩
    16 (some caps) (show 16 + (directory names).length ≤ 0x1000 by omega) (by omega) (by rintro c - p ⟨⟩)
  refine ⟨bytes, _, hwrite, fun fuel hfuel => ?_⟩
  have hsize : bytes.size = 0x1000 := hwrites.size
  exact (directory names).parse_spec directorySchema vec bytes fuel 16 "Directory" htype
    ⟨trivial, trivial⟩ henc (by omega) (by omega) (by omega) hfuel

theorem lists_iff_of_room (hroom : 48 + (filelist names).length ≤ 0x1000) : Lists content caps vec names ↔
      (filelist names).splitOn comma = names ∧ isUtf8 (filelist names) = true := by
  obtain ⟨bytes, caps', hwrite, hparse⟩ := directory_of_room content caps vec hroom
  have hls : ls ((directory names).lookup vec) = .ok names ↔
      (filelist names).splitOn comma = names ∧ isUtf8 (filelist names) = true := by
    simp only [directory, Message.lookup, fieldsLookup, Value.lookup]
    cases isUtf8 (filelist names) with
    | false => exact iff_of_false nofun (by simp)
    | true =>
      show Except.ok ((filelist names).splitOn comma) = Except.ok names ↔ _
      simp
  rw [← hls]
  constructor
  · rintro ⟨length, bytes', caps'', hwrite', hall⟩
    rw [hwrite] at hwrite'
    cases hwrite'
    rw [← hparse _ (Nat.le_refl _)]
    exact hall _ (Nat.le_refl _)
  · exact fun h => ⟨_, bytes, caps', hwrite, fun fuel hfuel => (congrArg ls (hparse fuel hfuel)).trans h⟩

/-- **`ls` returns the names of a directory** exactly if there are some, none has a comma, all of them are
UTF-8 and the response fits its buffer. -/
theorem lists_iff (content : Nat → UInt8) (caps : CapBuffer) (vec : List UInt64) (names : List (List UInt8)) :
    Lists content caps vec names ↔ names ≠ [] ∧ (∀ name ∈ names, comma ∉ name) ∧
      isUtf8 (filelist names) = true ∧ 48 + (filelist names).length ≤ 0x1000 := by
  rw [← and_assoc, ← splitOn_filelist_iff, ← and_assoc]
  by_cases hroom : 48 + (filelist names).length ≤ 0x1000
  · rw [and_iff_left hroom, lists_iff_of_room content caps vec hroom]
  refine iff_of_false ?_ fun h => hroom h.2
  -- the string does not fit behind the field
  rintro ⟨length, bytes, caps', hwrite, -⟩
  have hne : filelist names ≠ [] := fun h => hroom (by rw [h]; decide)
  have hstring : Serializer.writeStringAt ⟨0x1000, content⟩ 48 (filelist names) = none := by
    rw [Serializer.writeStringAt, if_neg hne, ByteMemory.write, if_neg hroom]
  simp [directory, Message.serializeToBytes, serializeFields, Serializer.writeValue,
    Serializer.writeString, Serializer.new, wrap64, kHeaderSize, hstring] at hwrite

/-- **A name with a comma is listed as two.** -/
theorem comma_splits_name : ¬ Lists (fun _ => 0) ⟨16, fun _ => 0, 0, []⟩ [] [[0x61, 0x2C, 0x62]] := by
  rw [lists_iff_of_room _ _ _ (by decide)]
  decide

end Acadia.VictoriaFalls
