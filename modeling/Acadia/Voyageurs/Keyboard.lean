import Mathlib.Data.BitVec

/-! # The keyboard driver

`ProcessInput` of `KeyboardDriver`: a report lists the keys that are held, and the keys of the last
report are kept in a bitmap. -/

namespace Acadia.Voyageurs

open List

/-- `1 << code`, an `int` that is widened; the processor shifts by the count modulo 32. -/
def keyBit (code : UInt8) : BitVec 64 := ((1 : BitVec 32) <<< (code.toNat % 32)).signExtend 64

/-- The bytes of a report from the third on. -/
def codes (input : UInt64) : List UInt8 :=
  [2, 3, 4, 5, 6, 7].map fun i : UInt64 => (input >>> (8 * i) &&& 0xFF).toUInt8

/-- `modifiers`. -/
def modifiers (input : UInt64) : UInt16 := (input &&& 0xFF).toUInt16 <<< 8

/-- The loop of `ProcessInput`: what is sent, and `new_bitmap`. -/
def inputLoop (bitmap : BitVec 64) (modifiers : UInt16) :
    List UInt8 → BitVec 64 → List UInt16 × BitVec 64
  | [], newBitmap => ([], newBitmap)
  | code :: codes, newBitmap =>
    if code = 0 then ([], newBitmap)
    else
      let r := inputLoop bitmap modifiers codes (newBitmap ||| keyBit code)
      (if bitmap &&& keyBit code ≠ keyBit code then (modifiers ||| code.toUInt16) :: r.1 else r.1, r.2)

/-- `ProcessInput`: what is sent, and `bitmap_`. -/
def processInput (bitmap : BitVec 64) (input : UInt64) : List UInt16 × BitVec 64 :=
  inputLoop bitmap (modifiers input) (codes input) 0

/-- What is sent for each of a sequence of reports. -/
def processInputs (bitmap : BitVec 64) : List UInt64 → List (List UInt16)
  | [] => []
  | input :: inputs =>
    (processInput bitmap input).1 :: processInputs (processInput bitmap input).2 inputs

/-! ## Key presses -/

/-- The keys that a report lists. -/
def keys (input : UInt64) : List UInt8 := (codes input).takeWhile (· ≠ 0)

/-- **What is to be sent**: the keys below 64 that the report before did not list. -/
def presses (before : UInt64) : List UInt64 → List (List UInt16)
  | [] => []
  | input :: inputs =>
    ((keys input).filter fun code => code < 64 ∧ code ∉ keys before).map
      (fun code => modifiers input ||| code.toUInt16) :: presses input inputs

/-- Two reports with keys that the bitmap tells apart: no new key below 64 is congruent to one before,
and each other key is. -/
def ToldApart (before input : UInt64) : Prop :=
  ∀ code ∈ keys input,
    (∃ old ∈ keys before, old.toNat % 32 = code.toNat % 32) ↔ 64 ≤ code ∨ code ∈ keys before

instance (before input : UInt64) : Decidable (ToldApart before input) :=
  inferInstanceAs (Decidable (∀ _ ∈ _, _))

/-- The bitmap of a report. -/
def bitmapOf (keys : List UInt8) (bitmap : BitVec 64) : BitVec 64 :=
  keys.foldl (fun bitmap code => bitmap ||| keyBit code) bitmap

theorem inputLoop_eq (bitmap : BitVec 64) (modifiers : UInt16) (codes : List UInt8) (newBitmap : BitVec 64) :
    inputLoop bitmap modifiers codes newBitmap =
      (((codes.takeWhile (· ≠ 0)).filter fun code => bitmap &&& keyBit code ≠ keyBit code).map
        (fun code => modifiers ||| code.toUInt16), bitmapOf (codes.takeWhile (· ≠ 0)) newBitmap) := by
  induction codes generalizing newBitmap with
  | nil => rfl
  | cons code codes ih =>
    rw [inputLoop]
    by_cases hzero : code = 0
    · simp [hzero, bitmapOf]
    · rw [if_neg hzero, takeWhile_cons_of_pos (by simpa using hzero)]
      dsimp only
      rw [ih]
      by_cases hbit : bitmap &&& keyBit code = keyBit code
      all_goals simp [hbit, bitmapOf]

theorem getLsbD_keyBit (code : UInt8) {k : Nat} (hk : k < 32) :
    (keyBit code).getLsbD k = decide (k = code.toNat % 32) := by
  have hbits : ∀ c k : Fin 32, (((1 : BitVec 32) <<< c.val).signExtend 64).getLsbD k =
      decide (k.val = c.val) := by decide +kernel
  exact hbits ⟨code.toNat % 32, Nat.mod_lt _ (by decide)⟩ ⟨k, hk⟩

theorem getLsbD_bitmapOf (keys : List UInt8) (bitmap : BitVec 64) {k : Nat} : (bitmapOf keys bitmap).getLsbD k = true ↔
      bitmap.getLsbD k = true ∨ ∃ code ∈ keys, (keyBit code).getLsbD k = true := by
  induction keys generalizing bitmap with
  | nil => simp [bitmapOf]
  | cons code keys ih =>
    rw [bitmapOf, foldl_cons, ← bitmapOf, ih]
    simp [or_assoc]

/-- A key is in the bitmap exactly if a key of the report is congruent to it. -/
theorem bitmapOf_and_keyBit (keys : List UInt8) (code : UInt8) :
    bitmapOf keys 0 &&& keyBit code = keyBit code ↔ ∃ old ∈ keys, old.toNat % 32 = code.toNat % 32 := by
  have hlt : code.toNat % 32 < 32 := Nat.mod_lt _ (by decide)
  constructor
  · intro heq
    have hbit := congrArg (BitVec.getLsbD · (code.toNat % 32)) heq
    simp only [BitVec.getLsbD_and, getLsbD_keyBit code hlt, decide_true, Bool.and_true] at hbit
    obtain hzero | ⟨old, hold, hbit⟩ := (getLsbD_bitmapOf _ _).mp hbit
    · simp at hzero
    · rw [getLsbD_keyBit old hlt, decide_eq_true_eq] at hbit
      exact ⟨old, hold, hbit.symm⟩
  rintro ⟨old, hold, hmod⟩
  refine BitVec.eq_of_getLsbD_eq fun k _ => ?_
  rw [BitVec.getLsbD_and]
  cases hbit : (keyBit code).getLsbD k with
  | false => exact Bool.and_false _
  | true =>
    rw [(getLsbD_bitmapOf keys 0).mpr (Or.inr ⟨old, hold, ?_⟩), Bool.true_and]
    rw [keyBit, hmod, ← keyBit, hbit]

theorem toUInt8_press (input : UInt64) (code : UInt8) : (modifiers input ||| code.toUInt16).toUInt8 = code := by
  rw [modifiers, UInt16.toUInt8_or, UInt8.toUInt8_toUInt16, ← UInt8.toBitVec_inj]
  refine BitVec.eq_of_getLsbD_eq fun i hi => ?_
  simp [hi]

/-- **Which reports give the right key presses**: the bitmap tells the keys of each two consecutive
reports apart. -/
theorem processInputs_eq_presses_iff (before : UInt64) (inputs : List UInt64) :
    processInputs (bitmapOf (keys before) 0) inputs = presses before inputs ↔ (before :: inputs).IsChain ToldApart := by
  induction inputs generalizing before with
  | nil => simp [processInputs, presses]
  | cons input inputs ih =>
    have hinj : Function.Injective fun code : UInt8 => modifiers input ||| code.toUInt16 :=
      Function.LeftInverse.injective (g := UInt16.toUInt8) (toUInt8_press input)
    rw [processInputs, presses, processInput, inputLoop_eq, ← keys, cons.injEq, ih,
      isChain_cons_cons, hinj.list_map.eq_iff]
    refine and_congr_left' ⟨fun heq code hcode => ?_, fun hapart => ?_⟩
    · have hmem := congrArg (code ∈ ·) heq
      simp only [mem_filter, hcode, true_and, decide_eq_true_eq, eq_iff_iff, ne_eq, bitmapOf_and_keyBit] at hmem
      rw [← not_iff_not, hmem, not_or, UInt8.not_le]
    · refine filter_congr fun code hcode => ?_
      rw [decide_eq_decide, ne_eq, bitmapOf_and_keyBit, hapart code hcode, not_or, UInt8.not_le]

/-- A key is pressed, and then another that shares its bit. -/
theorem shared_bit_lost :
    processInputs (bitmapOf (keys 0) 0) [0x040000, 0x240000] ≠ presses 0 [0x040000, 0x240000] := by
  decide

end Acadia.Voyageurs
