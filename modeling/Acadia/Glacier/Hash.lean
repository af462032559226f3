import Acadia.Glacier.HashMap
import Mathlib.Data.List.Basic

/-! # `Hash<String>`

The hash of a string runs over its characters with a counter of eight bits, and compares it with a length of
64 bits. A `char` is signed, while the FNV hash is over bytes. -/

namespace Acadia.Glacier

open List

/-- A `char` as an operand of `^=`: it is signed. -/
def charValue (c : UInt8) : UInt64 := c.toInt8.toInt64.toUInt64

/-- One round of the loop of `Hash<String>`. -/
def hashChar (hash : UInt64) (c : UInt8) : UInt64 := hash * kFnvPrime ^^^ charValue c

/-- The loop of `Hash<String>`, with no result while it does not end. -/
def hashLoop (value : List UInt8) : Nat → UInt8 → UInt64 → Option UInt64
  | 0, _, _ => none
  | fuel + 1, i, hash =>
    if h : i.toNat < value.length then hashLoop value fuel (i + 1) (hashChar hash value[i.toNat])
    else some hash

/-- `Hash<String>`. -/
def hashString (fuel : Nat) (value : List UInt8) : Option UInt64 := hashLoop value fuel 0 kFnvOffset

/-- The FNV hash of bytes. -/
def fnvFold : List UInt8 → UInt64 := foldl (fun hash c => hash * kFnvPrime ^^^ c.toUInt64) kFnvOffset

/-- The keys that `Contains` hashes. -/
def HashMap.containsHashes {V : Type} (m : HashMap (List UInt8) V) (key : List UInt8) : List (List UInt8) :=
  if m.data.length = 0 then [] else [key]

/-- The keys that `Insert` hashes: those that a resize moves, and its own. -/
def HashMap.insertHashes {V : Type} (m : HashMap (List UInt8) V) (key : List UInt8) : List (List UInt8) :=
  (if m.load > 75 then m.entries.map Prod.fst else []) ++ [key]

variable {value : List UInt8}

/-- The loop from character `k` on. -/
theorem hashLoop_of_le (hvalue : value.length ≤ 255) {k fuel : Nat} (hk : k ≤ value.length)
    (hfuel : value.length < k + fuel) (hash : UInt64) :
    hashLoop value fuel (.ofNat k) hash = some ((value.drop k).foldl hashChar hash) := by
  have hi : (UInt8.ofNat k).toNat = k := UInt8.toNat_ofNat_of_lt' (by change k < 256; omega)
  induction fuel generalizing k hash with
  | zero => omega
  | succ fuel ih =>
    unfold hashLoop
    by_cases hlt : k < value.length
    · have hnext : UInt8.ofNat k + 1 = .ofNat (k + 1) := (UInt8.ofNat_add k 1).symm
      rw [dif_pos (by rwa [hi]), hnext, ih hlt (by omega), drop_eq_getElem_cons hlt, foldl_cons]
      · simp only [hi]
      · exact UInt8.toNat_ofNat_of_lt' (by change k + 1 < 256; omega)
    · rw [dif_neg (by rwa [hi]), drop_of_length_le (by omega)]
      rfl

/-- The counter never reaches a length of more than eight bits. -/
theorem hashLoop_of_lt (hvalue : 255 < value.length) (fuel : Nat) (i : UInt8) (hash : UInt64) :
    hashLoop value fuel i hash = none := by
  induction fuel generalizing i hash with
  | zero => rfl
  | succ fuel ih =>
    unfold hashLoop
    rw [dif_pos (Nat.lt_of_lt_of_le i.toNat_lt hvalue)]
    exact ih _ _

theorem hashString_of_le (hvalue : value.length ≤ 255) :
    hashString 256 value = some (value.foldl hashChar kFnvOffset) :=
  hashLoop_of_le hvalue (Nat.zero_le _) (by omega) kFnvOffset

theorem length_le_of_isSome {fuel : Nat} (h : (hashString fuel value).isSome) : value.length ≤ 255 := by
  refine Nat.le_of_not_lt fun hlong => ?_
  rw [hashString, hashLoop_of_lt hlong] at h
  cases h

/-- The hashes of several keys return exactly if no key has more than 255 characters. -/
theorem exists_forall_isSome_iff (keys : List (List UInt8)) :
    (∃ fuel, ∀ key ∈ keys, (hashString fuel key).isSome) ↔ ∀ key ∈ keys, key.length ≤ 255 := by
  refine ⟨fun ⟨fuel, h⟩ key hkey => length_le_of_isSome (h key hkey), fun h => ⟨256, fun key hkey => ?_⟩⟩
  rw [hashString_of_le (h key hkey)]
  rfl

/-- A `char` below 0x80 is the byte. -/
theorem charValue_of_lt {c : UInt8} (hc : c < 0x80) : charValue c = c.toUInt64 := by
  have hall : ∀ n < 128, charValue (.ofNat n) = (UInt8.ofNat n).toUInt64 := by decide
  rw [← UInt8.ofNat_toNat (x := c)]
  exact hall c.toNat (UInt8.lt_iff_toNat_lt.mp hc)

/-- The rounds of the loop over characters below 0x80 are those of the FNV hash. -/
theorem foldl_hashChar (hvalue : ∀ c ∈ value, c < 0x80) : value.foldl hashChar kFnvOffset = fnvFold value :=
  foldl_ext _ _ _ fun hash c hc => by rw [hashChar, charValue_of_lt (hvalue c hc)]

end Acadia.Glacier
