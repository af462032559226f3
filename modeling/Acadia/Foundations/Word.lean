import Mathlib.Data.Nat.Bitwise

/-! # 64-bit words

The linear order on `UInt64`, and the few facts that move a statement about words to natural
numbers, where `omega` decides it. -/

namespace Word

/-- Words are ordered by their value. -/
instance instLinearOrder : LinearOrder UInt64 where
  le_refl := UInt64.le_refl
  le_trans _ _ _ := UInt64.le_trans
  le_antisymm _ _ := UInt64.le_antisymm
  le_total := UInt64.le_total
  lt_iff_le_not_ge a b := by
    rw [UInt64.lt_iff_toNat_lt, UInt64.le_iff_toNat_le, UInt64.le_iff_toNat_le]
    omega
  toDecidableLE := inferInstance
  toDecidableLT := inferInstance
  toDecidableEq := inferInstance
  min_def _ _ := rfl
  max_def _ _ := rfl

theorem toNat_add_of_lt {a b : UInt64} (h : a.toNat + b.toNat < 2 ^ 64) : (a + b).toNat = a.toNat + b.toNat := by
  rw [UInt64.toNat_add, Nat.mod_eq_of_lt h]

/-! ## Masks -/

/-- Clearing the low `k` bits. -/
theorem toNat_and_not_low {x m : UInt64} {k : Nat} (hk : k ≤ 64) (hm : m.toNat = 2 ^ k - 1) :
    (x &&& ~~~m).toNat = x.toNat / 2 ^ k * 2 ^ k := by
  have hx := x.toNat_lt
  have hnot : (~~~m).toNat = (2 ^ (64 - k) - 1) <<< k := by
    rw [UInt64.toNat_not, hm, Nat.shiftLeft_eq, Nat.sub_mul, ← Nat.pow_add, Nat.sub_add_cancel hk]
    have : 2 ^ k ≤ UInt64.size := Nat.pow_le_pow_right (by decide) hk
    have : 0 < 2 ^ k := Nat.two_pow_pos k
    have : UInt64.size = 2 ^ 64 := rfl
    omega
  have hlt : x.toNat / 2 ^ k < 2 ^ (64 - k) := by
    rw [Nat.div_lt_iff_lt_mul (Nat.two_pow_pos k), ← Nat.pow_add, Nat.sub_add_cancel hk]
    exact hx
  rw [UInt64.toNat_and, hnot]
  have hand : x.toNat &&& (2 ^ (64 - k) - 1) <<< k = (x.toNat >>> k &&& (2 ^ (64 - k) - 1)) <<< k := by
    refine Nat.eq_of_testBit_eq fun i => ?_
    rw [Nat.testBit_and, Nat.testBit_shiftLeft, Nat.testBit_shiftLeft, Nat.testBit_and, Nat.testBit_shiftRight]
    by_cases hi : k ≤ i
    all_goals simp [hi]
  rw [hand, Nat.and_two_pow_sub_one_eq_mod, Nat.shiftRight_eq_div_pow, Nat.mod_eq_of_lt hlt, Nat.shiftLeft_eq]

/-- Setting bits below the low `k` bits of a multiple of `2 ^ k`. -/
theorem toNat_or_of_dvd {x b : UInt64} {k : Nat} (hx : 2 ^ k ∣ x.toNat) (hb : b.toNat < 2 ^ k) :
    (x ||| b).toNat = x.toNat + b.toNat := by
  obtain ⟨q, hq⟩ := hx
  rw [UInt64.toNat_or, hq, Nat.mul_comm, ← Nat.shiftLeft_eq, Nat.shiftLeft_add_eq_or_of_lt hb]

theorem and_two_pow_eq_zero_iff {x m : UInt64} {k : Nat} (hm : m.toNat = 2 ^ k) :
    x &&& m = 0 ↔ x.toNat / 2 ^ k % 2 = 0 := by
  rw [← UInt64.toNat_inj, UInt64.toNat_and, hm, Nat.and_two_pow, UInt64.toNat_zero, Nat.testBit_eq_decide_div_mod_eq]
  have : 0 < 2 ^ k := Nat.two_pow_pos k
  by_cases h : x.toNat / 2 ^ k % 2 = 1
  · simp [h]
  · simp [h]
    omega

end Word
