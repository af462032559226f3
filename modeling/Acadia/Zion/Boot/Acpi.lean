import Acadia.Foundations.ByteMemory

/-! # The checksum of ACPI tables

`checksum`, `ParseSdt` and `ProbeRsdt` of `boot/acpi.cpp`. The length of a table has 32 bits, the
parameter for it and the counter of the loop have 8. -/

namespace Acadia.Zion.Acpi

/-- The loop of `checksum`: `check_cnt` after `n` bytes. -/
def checkCnt (addr : ByteMemory) : Nat → UInt8
  | 0 => 0
  | n + 1 => checkCnt addr n + addr.byte n

/-- `checksum`. -/
def checksum (addr : ByteMemory) (numBytes : UInt8) : Bool := checkCnt addr numBytes.toNat == 0

/-- `rsdt->length`. -/
def tableLength (rsdt : ByteMemory) : Nat := ofLittleEndian (rsdt.slice 4 4)

/-- What `ParseSdt` does with a table that it accepts. -/
inductive Sdt where
  /-- `ParseMcfg`. -/
  | mcfg
  /-- `ParseMadt`. -/
  | madt
  | unhandled
  deriving DecidableEq

/-- `ParseSdt`; there is no result for a bad checksum. -/
def parseSdt (rsdt : ByteMemory) : Option Sdt :=
  if !checksum rsdt (UInt8.ofNat (tableLength rsdt)) then none
  else if rsdt.slice 0 4 = [0x4D, 0x43, 0x46, 0x47] then some .mcfg
  else if rsdt.slice 0 4 = [0x41, 0x50, 0x49, 0x43] then some .madt
  else some .unhandled

/-- `ProbeRsdt`: the addresses of the tables; there is no result for a bad checksum. -/
def probeRsdt (rsdt : ByteMemory) : Option (List Nat) :=
  if !checksum rsdt (UInt8.ofNat (tableLength rsdt)) then none
  else
    let size := (tableLength rsdt + 2 ^ 64 - 36) % 2 ^ 64 / 4 % 2 ^ 32
    some ((List.range size).map fun i => ofLittleEndian (rsdt.slice (36 + 4 * i) 4))

/-- **The sum of the first bytes of a table.** -/
def byteSum (rsdt : ByteMemory) : Nat → Nat
  | 0 => 0
  | n + 1 => byteSum rsdt n + (rsdt.byte n).toNat

/-- A table is accepted exactly if the sum of all its bytes is a multiple of 256. -/
def AcceptsBySum (rsdt : ByteMemory) : Prop :=
  ((parseSdt rsdt).isSome ↔ byteSum rsdt (tableLength rsdt) % 256 = 0) ∧
    ((probeRsdt rsdt).isSome ↔ byteSum rsdt (tableLength rsdt) % 256 = 0)

theorem toNat_checkCnt (addr : ByteMemory) (n : Nat) : (checkCnt addr n).toNat = byteSum addr n % 256 := by
  induction n with
  | zero => rfl
  | succ n ih =>
    rw [checkCnt, byteSum, UInt8.toNat_add, ih, Nat.mod_add_mod]

theorem acceptsBySum_iff (rsdt : ByteMemory) :
    AcceptsBySum rsdt ↔ (checkCnt rsdt (tableLength rsdt % 256) = 0 ↔ checkCnt rsdt (tableLength rsdt) = 0) := by
  have hparse : (parseSdt rsdt).isSome ↔ checkCnt rsdt (tableLength rsdt % 256) = 0 := by
    unfold parseSdt checksum
    split <;> [skip; split <;> [skip; split]] <;> simp_all
  have hprobe : (probeRsdt rsdt).isSome ↔ checkCnt rsdt (tableLength rsdt % 256) = 0 := by
    unfold probeRsdt checksum
    split <;> simp_all
  rw [AcceptsBySum, hparse, hprobe, ← toNat_checkCnt, and_self, ← UInt8.toNat_inj, ← UInt8.toNat_inj]
  rfl

theorem checkCnt_congr {a b : ByteMemory} {n : Nat} (h : ∀ i < n, a.byte i = b.byte i) :
    checkCnt a n = checkCnt b n := by
  induction n with
  | zero => rfl
  | succ n ih =>
    rw [checkCnt, checkCnt, ih fun i hi => h i (by omega), h n (by omega)]

/-- A table of zeros, but for its length and its last byte. -/
def zeroTable (length : Nat) (last : UInt8) : ByteMemory where
  size := length
  byte i := if i = length - 1 then last else if 4 ≤ i then (littleEndian 4 length).getD (i - 4) 0 else 0

theorem tableLength_zeroTable {length : Nat} (hlarge : 256 ≤ length) (hlt : length < 2 ^ 32)
    (last : UInt8) : tableLength (zeroTable length last) = length := by
  have hbyte : ∀ i, i < 255 → 4 ≤ i → (zeroTable length last).byte i = (littleEndian 4 length).getD (i - 4) 0 := by
    intro i hi hle
    show (if _ then _ else _) = _
    rw [if_neg (by omega), if_pos hle]
  rw [tableLength]
  simp only [ByteMemory.slice, hbyte 4 (by decide) (by decide), hbyte 5 (by decide) (by decide),
    hbyte 6 (by decide) (by decide), hbyte 7 (by decide) (by decide)]
  exact ofLittleEndian_of_lt (show length < 256 ^ 4 from hlt)

/-- **The lengths for which the checksum is right** are those that fit in 8 bits: a longer table is
accepted or not by the sum of its first bytes alone. -/
theorem acceptsBySum_iff_length {length : Nat} (hlt : length < 2 ^ 32) :
    (∀ rsdt, tableLength rsdt = length → AcceptsBySum rsdt) ↔ length < 256 := by
  constructor
  · intro h
    by_contra hlarge
    have hlength := tableLength_zeroTable (by omega : 256 ≤ length) hlt
    -- the last byte only counts for the sum of all bytes
    have hsame : ∀ last n, n < length → checkCnt (zeroTable length last) n = checkCnt (zeroTable length 0) n := by
      intro last n hn
      exact checkCnt_congr fun i hi => (if_neg (by omega)).trans (if_neg (by omega)).symm
    have hall : ∀ last, checkCnt (zeroTable length last) length =
        checkCnt (zeroTable length 0) (length - 1) + last := by
      intro last
      obtain ⟨n, rfl⟩ : ∃ n, length = n + 1 := ⟨length - 1, by omega⟩
      rw [checkCnt, hsame last n (by omega), Nat.add_sub_cancel]
      exact congrArg _ (if_pos rfl)
    have hiff : ∀ last, checkCnt (zeroTable length 0) (length % 256) = 0 ↔
        checkCnt (zeroTable length 0) (length - 1) + last = 0 := by
      intro last
      have hlast := (acceptsBySum_iff _).mp (h _ (hlength last))
      rw [hlength, hsame last _ (by omega), hall] at hlast
      exact hlast
    generalize checkCnt (zeroTable length 0) (length - 1) = sum at hiff
    have hzero := (hiff (0 - sum)).mpr (by grind)
    have hone := (hiff (1 - sum)).mp hzero
    exact absurd hone (by grind)
  · intro h rsdt hlength
    rw [acceptsBySum_iff, hlength, Nat.mod_eq_of_lt h]

/-- Of a table of 256 bytes no byte is added. -/
theorem long_table_accepted : ¬ AcceptsBySum (zeroTable 256 1) := by
  rw [acceptsBySum_iff, tableLength_zeroTable (by decide) (by decide)]
  decide +kernel

theorem acceptsBySum_iff_length_short : AcceptsBySum ⟨36, fun i => if i = 4 then 36 else 0⟩ :=
  (acceptsBySum_iff_length (by decide : 36 < 2 ^ 32)).mpr (by decide) _ rfl

end Acadia.Zion.Acpi
