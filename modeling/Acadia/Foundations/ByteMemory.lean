import Mathlib.Algebra.Group.Nat.Defs
import Mathlib.Data.List.Basic
import Mathlib.Data.List.GetD

/-! # Memory of bytes

A block of bytes with checked reads and writes, numbers in little-endian order, and the two notions
that proofs about it use: what is stored at an address (`Holds`), and which bytes a computation may have
changed (`Writes`). -/

/-! ## Little-endian numbers -/

/-- The low `width` bytes of a number, the lowest first. -/
def littleEndian : (width : Nat) → Nat → List UInt8
  | 0, _ => []
  | width + 1, v => UInt8.ofNat v :: littleEndian width (v / 256)

/-- The number that bytes stand for, the lowest first. -/
def ofLittleEndian : List UInt8 → Nat
  | [] => 0
  | b :: bs => b.toNat + 256 * ofLittleEndian bs

@[simp] theorem length_littleEndian (width v : Nat) : (littleEndian width v).length = width := by
  induction width generalizing v with
  | zero => rfl
  | succ _ ih => rw [littleEndian, List.length_cons, ih]

theorem ofLittleEndian_littleEndian (width v : Nat) : ofLittleEndian (littleEndian width v) = v % 256 ^ width := by
  induction width generalizing v with
  | zero => rw [littleEndian, ofLittleEndian, Nat.pow_zero, Nat.mod_one]
  | succ width ih =>
    have hpow : 256 ^ (width + 1) = 256 * 256 ^ width := Nat.pow_succ'
    rw [littleEndian, ofLittleEndian, ih, UInt8.toNat_ofNat', hpow, Nat.mod_mul]

theorem ofLittleEndian_of_lt {width v : Nat} (h : v < 256 ^ width) : ofLittleEndian (littleEndian width v) = v := by
  rw [ofLittleEndian_littleEndian, Nat.mod_eq_of_lt h]

theorem ofLittleEndian_append (bs cs : List UInt8) :
    ofLittleEndian (bs ++ cs) = ofLittleEndian bs + 256 ^ bs.length * ofLittleEndian cs := by
  induction bs with
  | nil => rw [List.nil_append, ofLittleEndian, List.length_nil, Nat.pow_zero, Nat.one_mul, Nat.zero_add]
  | cons b _ ih =>
    rw [List.cons_append, ofLittleEndian, ofLittleEndian, ih, List.length_cons, Nat.pow_succ',
      Nat.mul_add, Nat.mul_assoc, Nat.add_assoc]

theorem ofLittleEndian_lt (bytes : List UInt8) : ofLittleEndian bytes < 256 ^ bytes.length := by
  induction bytes with
  | nil => exact Nat.one_pos
  | cons b =>
    have hb : b.toNat < 256 := b.toNat_lt
    rw [ofLittleEndian, List.length_cons, Nat.pow_succ']
    omega

theorem littleEndian_mod (width v : Nat) : littleEndian width (v % 256 ^ width) = littleEndian width v := by
  induction width generalizing v with
  | zero => rfl
  | succ width ih =>
    have hpow : 256 ^ (width + 1) = 256 * 256 ^ width := Nat.pow_succ'
    have hlow : UInt8.ofNat (v % (256 * 256 ^ width)) = UInt8.ofNat v := by
      apply UInt8.toNat_inj.mp
      rw [UInt8.toNat_ofNat', UInt8.toNat_ofNat', Nat.mod_mul_right_mod]
    have hhigh : v % (256 * 256 ^ width) / 256 = v / 256 % 256 ^ width := by
      rw [Nat.mod_mul_right_div_self]
    rw [littleEndian, littleEndian, hpow, hlow, hhigh, ih]

/-! ## Memory -/

/-- A block of bytes. -/
structure ByteMemory where
  size : Nat
  /-- The bytes; those from `size` on are never read or written. -/
  byte : Nat → UInt8

namespace ByteMemory

open List

variable {m m' m'' : ByteMemory} {a : Nat} {bs cs : List UInt8} {P Q : Nat → Prop}

/-- `n` bytes from an address on. -/
def slice (m : ByteMemory) (a : Nat) : (n : Nat) → List UInt8
  | 0 => []
  | n + 1 => m.byte a :: m.slice (a + 1) n

/-- Reads `n` bytes. There is no result if some are outside. -/
def read (m : ByteMemory) (a n : Nat) : Option (List UInt8) :=
  if a + n ≤ m.size then some (m.slice a n) else none

/-- Replaces the bytes from an address on. -/
def store (m : ByteMemory) (a : Nat) (bs : List UInt8) : ByteMemory :=
  { m with byte := fun i => if a ≤ i ∧ i < a + bs.length then bs.getD (i - a) 0 else m.byte i }

/-- Writes bytes. There is no result if some are outside. -/
def write (m : ByteMemory) (a : Nat) (bs : List UInt8) : Option ByteMemory :=
  if a + bs.length ≤ m.size then some (m.store a bs) else none

/-- The memory has these bytes from an address on. -/
def Holds (m : ByteMemory) : Nat → List UInt8 → Prop
  | _, [] => True
  | a, b :: bs => m.byte a = b ∧ m.Holds (a + 1) bs

instance decidableHolds (m : ByteMemory) : (a : Nat) → (bs : List UInt8) → Decidable (m.Holds a bs)
  | _, [] => isTrue trivial
  | a, _ :: bs => @instDecidableAnd _ _ _ (decidableHolds m (a + 1) bs)

/-- **What a computation may have changed**: bytes at addresses with a property, and nothing else. -/
structure Writes (m m' : ByteMemory) (P : Nat → Prop) : Prop where
  size : m'.size = m.size
  outside : ∀ i, ¬ P i → m'.byte i = m.byte i

/-! ## What memory holds -/

theorem holds_append : m.Holds a (bs ++ cs) ↔ m.Holds a bs ∧ m.Holds (a + bs.length) cs := by
  induction bs generalizing a with
  | nil => simp [Holds]
  | cons b _ ih =>
    rw [cons_append, Holds, Holds, ih, and_assoc, length_cons, Nat.add_right_comm, Nat.add_assoc a]

@[simp] theorem length_slice (m : ByteMemory) (a n : Nat) : (m.slice a n).length = n := by
  induction n generalizing a with
  | zero => rfl
  | succ n ih => rw [ByteMemory.slice, length_cons, ih]

theorem Holds.slice (h : m.Holds a bs) : m.slice a bs.length = bs := by
  induction bs generalizing a with
  | nil => rfl
  | cons b _ ih => rw [length_cons, ByteMemory.slice, h.1, ih h.2]

theorem Holds.read (h : m.Holds a bs) {n : Nat} (hn : bs.length = n) (hsize : a + n ≤ m.size) :
    m.read a n = some bs := by
  subst hn
  rw [ByteMemory.read, if_pos hsize, h.slice]

theorem Holds.congr (h : m.Holds a bs)
    (hsame : ∀ i, a ≤ i → i < a + bs.length → m'.byte i = m.byte i) : m'.Holds a bs := by
  induction bs generalizing a with
  | nil => trivial
  | cons b _ ih =>
    rw [length_cons] at hsame
    refine ⟨(hsame a (Nat.le_refl _) (by omega)).trans h.1, ih h.2 ?_⟩
    intro i hle hlt
    exact hsame i (by omega) (by omega)

/-! ## Writes -/

theorem holds_store (m : ByteMemory) (a : Nat) (bs : List UInt8) : (m.store a bs).Holds a bs := by
  -- the bytes of a part of what is written, from an address inside
  have hpart : ∀ (before after : List UInt8), bs = before ++ after →
      (m.store a bs).Holds (a + before.length) after := by
    intro before after
    induction after generalizing before with
    | nil => exact fun _ => trivial
    | cons b after ih =>
      intro hbs
      refine ⟨?_, ?_⟩
      · have hlength : bs.length = before.length + (after.length + 1) := by
          rw [hbs, length_append, length_cons]
        have hin : a ≤ a + before.length ∧ a + before.length < a + bs.length := by omega
        show (if _ then _ else _) = b
        rw [if_pos hin, Nat.add_sub_cancel_left, hbs, getD_append_right _ _ _ _ (Nat.le_refl _),
          Nat.sub_self, getD_cons_zero]
      · have hnext := ih (before ++ [b]) (by rw [append_assoc]; exact hbs)
        rw [length_append, length_singleton, ← Nat.add_assoc] at hnext
        exact hnext
  exact hpart [] bs rfl

theorem writes_store (m : ByteMemory) (a : Nat) (bs : List UInt8) :
    m.Writes (m.store a bs) (fun i => a ≤ i ∧ i < a + bs.length) where
  size := rfl
  outside _ hi := if_neg hi

theorem write_eq_some (h : a + bs.length ≤ m.size) : m.write a bs = some (m.store a bs) := if_pos h

theorem Writes.refl (m : ByteMemory) (P : Nat → Prop) : m.Writes m P := ⟨rfl, fun _ _ => rfl⟩

theorem Writes.trans (h : m.Writes m' P) (h' : m'.Writes m'' P) : m.Writes m'' P where
  size := h'.size.trans h.size
  outside i hi := (h'.outside i hi).trans (h.outside i hi)

theorem Writes.mono (h : m.Writes m' P) (hPQ : ∀ i, P i → Q i) : m.Writes m' Q where
  size := h.size
  outside i hi := h.outside i fun hp => hi (hPQ i hp)

theorem Holds.of_writes (h : m.Holds a bs) (hw : m.Writes m' P)
    (hfar : ∀ i, a ≤ i → i < a + bs.length → ¬ P i) : m'.Holds a bs :=
  h.congr fun i hle hlt => hw.outside i (hfar i hle hlt)

/-! ## Memory given by its words -/

/-- `n` words of eight bytes each. -/
def ofWords (n : Nat) (word : Nat → Nat) : ByteMemory :=
  ⟨8 * n, fun i => (littleEndian 8 (word (i / 8))).getD (i % 8) 0⟩

theorem holds_ofWords (n : Nat) (word : Nat → Nat) (j : Nat) :
    (ofWords n word).Holds (8 * j) (littleEndian 8 (word j)) := by
  have hbyte : ∀ k < 8, (ofWords n word).byte (8 * j + k) = (littleEndian 8 (word j)).getD k 0 := by
    intro k hk
    have hdiv : (8 * j + k) / 8 = j := by omega
    have hmod : (8 * j + k) % 8 = k := by omega
    show (littleEndian 8 (word ((8 * j + k) / 8))).getD ((8 * j + k) % 8) 0 = _
    rw [hdiv, hmod]
  exact ⟨hbyte 0 (by decide), hbyte 1 (by decide), hbyte 2 (by decide), hbyte 3 (by decide),
    hbyte 4 (by decide), hbyte 5 (by decide), hbyte 6 (by decide), hbyte 7 (by decide), trivial⟩

end ByteMemory
