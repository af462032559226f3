import Acadia.Denali.ReadCommands
import Mathlib.Data.List.SplitBy

/-! # The block reader of ext2

`ReadBlocks` of `Ext2BlockReader`, which asks the disk service for the blocks of a list: blocks that
follow each other in the list and on the disk are one request. Block numbers and sector numbers are
numbers of 64 bits. What `SectorsPerBlock` returns is a parameter: `1 << (log_block_size + 1)` shifts an
`int`, which is defined for small sizes only. -/

namespace Acadia.VictoriaFalls.BlockReader

open Denali List UInt64

/-- The sectors that a request asks for. -/
def sectors (request : DiskBlock) : List UInt64 :=
  (List.range request.size.toNat).map fun k => request.lba + UInt64.ofNat k

/-- The inner loop of `ReadBlocks`: the index of the last block of the run with the block at `i`. -/
def runEnd (blocks : List UInt64) (i : Nat) : Nat :=
  if i + 1 < blocks.length ∧ blocks[i + 1]? = blocks[i]?.map (· + 1) then runEnd blocks (i + 1) else i
termination_by blocks.length - i

theorem le_runEnd (blocks : List UInt64) (i : Nat) : i ≤ runEnd blocks i := by
  fun_induction runEnd blocks i with
  | case1 => omega
  | case2 i => exact Nat.le_refl i

variable (lbaOffset sectorsPerBlock : UInt64)

/-- The sectors of a block. -/
def blockSectors (block : UInt64) : List UInt64 :=
  (List.range sectorsPerBlock.toNat).map fun k =>
    lbaOffset + block * sectorsPerBlock + UInt64.ofNat k

/-- A request for `length` blocks from `first` on. -/
def run (first : UInt64) (length : Nat) : DiskBlock where
  lba := lbaOffset + first * sectorsPerBlock
  size := UInt64.ofNat length * sectorsPerBlock

/-- The loop of `ReadBlocks` from index `i` on: the requests. -/
def readBlocks (blocks : List UInt64) (i : Nat) : List DiskBlock :=
  if h : i < blocks.length then
    run lbaOffset sectorsPerBlock blocks[i] (runEnd blocks i - i + 1) ::
      readBlocks blocks (runEnd blocks i + 1)
  else []
termination_by blocks.length - i
decreasing_by
  have := le_runEnd blocks i
  omega

/-! ## Runs -/

/-- Whether a block is the next one on the disk. -/
def follows (a b : UInt64) : Bool := b == a + 1

/-- The blocks from an index on: those of the run, and those after it. -/
theorem exists_run {blocks : List UInt64} {i : Nat} (hi : i < blocks.length) :
    ∃ tail, blocks.drop i = (blocks[i] :: tail) ++ blocks.drop (runEnd blocks i + 1) ∧
      tail.length = runEnd blocks i - i ∧ (blocks[i] :: tail).IsChain (follows · ·) ∧
      ∀ x ∈ (blocks[i] :: tail).getLast?, ∀ y ∈ (blocks.drop (runEnd blocks i + 1)).head?, follows x y = false := by
  fun_induction runEnd blocks i with
  | case1 i hnext ih =>
    obtain ⟨tail, hdrop, hlength, hchain, hlast⟩ := ih hnext.1
    have hle := le_runEnd blocks (i + 1)
    have hfollows := hnext.2
    rw [getElem?_eq_getElem hi, Option.map_some, getElem?_eq_some_iff] at hfollows
    refine ⟨blocks[i + 1] :: tail, ?_, ?_, ?_, ?_⟩
    · rw [drop_eq_getElem_cons hi, hdrop]
      rfl
    · rw [length_cons, hlength]
      omega
    · exact isChain_cons_cons.mpr ⟨beq_iff_eq.mpr hfollows.2, hchain⟩
    · rw [List.getLast?_cons_cons]
      exact hlast
  | case2 i hno =>
    refine ⟨[], drop_eq_getElem_cons hi, (Nat.sub_self i).symm, isChain_singleton _, ?_⟩
    intro x hx y hy
    cases hx
    rw [List.head?_drop] at hy
    obtain ⟨hlt, hy⟩ := List.getElem?_eq_some_iff.mp hy
    refine beq_eq_false_iff_ne.mpr fun heq => hno ⟨hlt, ?_⟩
    rw [getElem?_eq_getElem hlt, getElem?_eq_getElem hi, hy, heq]
    rfl

/-- **The requests are the maximal runs of the list.** -/
theorem readBlocks_eq (blocks : List UInt64) (i : Nat) :
    readBlocks lbaOffset sectorsPerBlock blocks i = ((blocks.drop i).splitBy follows).map fun blocks =>
      run lbaOffset sectorsPerBlock (blocks.headD 0) blocks.length := by
  fun_induction readBlocks lbaOffset sectorsPerBlock blocks i with
  | case1 i hi ih =>
    obtain ⟨tail, hdrop, hlength, hchain, hlast⟩ := exists_run hi
    rw [hdrop, splitBy_append hlast, splitBy_of_isChain (cons_ne_nil _ _) hchain, ih,
      singleton_append, map_cons, length_cons, hlength]
    rfl
  | case2 => rw [drop_of_length_le (by omega), splitBy_nil, map_nil]

/-! ## Sectors -/

/-- The size of a run fits into a number of 64 bits. -/
theorem toNat_ofNat_mul {n : Nat} {x : UInt64} (h : n * x.toNat < 2 ^ 64) :
    (UInt64.ofNat n * x).toNat = n * x.toNat := by
  conv_lhs => rw [← UInt64.ofNat_toNat (x := x), ← ofNat_mul]
  rw [toNat_ofNat', Nat.mod_eq_of_lt h]

/-- The sectors of a run are those of its blocks. -/
theorem sectors_run {blocks : List UInt64} (hchain : blocks.IsChain (follows · ·))
    (hsize : blocks.length * sectorsPerBlock.toNat < 2 ^ 64) :
    sectors (run lbaOffset sectorsPerBlock (blocks.headD 0) blocks.length) =
      blocks.flatMap (blockSectors lbaOffset sectorsPerBlock) := by
  rw [sectors, run, toNat_ofNat_mul hsize]
  clear hsize
  induction blocks with
  | nil => simp
  | cons block blocks ih =>
    rw [flatMap_cons, ← ih hchain.tail, length_cons, Nat.succ_mul, Nat.add_comm (_ * _), range_add, map_append, map_map]
    refine congrArg₂ (· ++ ·) rfl ?_
    cases blocks with
    | nil => simp
    | cons next =>
      obtain rfl : next = block + 1 := beq_iff_eq.mp (isChain_cons_cons.mp hchain).1
      refine map_congr_left fun k _ => ?_
      show lbaOffset + block * _ + ofNat (_ + k) = lbaOffset + (block + 1) * _ + _
      rw [UInt64.ofNat_add, UInt64.ofNat_toNat, UInt64.add_mul, UInt64.one_mul]
      ac_rfl

/-- **Coalescing is faithful.** The requests ask, in order, for the sectors of the blocks of the list,
in order; they are the runs that the list is cut into, each has a block, and none could be longer. -/
theorem readBlocks_faithful (blocks : List UInt64) (hsize : blocks.length * sectorsPerBlock.toNat < 2 ^ 64)
    (hsectors : sectorsPerBlock ≠ 0) :
    (readBlocks lbaOffset sectorsPerBlock blocks 0).flatMap sectors =
        blocks.flatMap (blockSectors lbaOffset sectorsPerBlock) ∧
      (∀ request ∈ readBlocks lbaOffset sectorsPerBlock blocks 0, request.size ≠ 0) ∧
      ∃ runs : List (List UInt64), runs.flatten = blocks ∧ readBlocks lbaOffset sectorsPerBlock blocks 0 =
          runs.map (fun blocks => run lbaOffset sectorsPerBlock (blocks.headD 0) blocks.length) ∧
        (∀ blocks ∈ runs, blocks ≠ [] ∧ blocks.IsChain fun a b => b = a + 1) ∧
        runs.IsChain fun a b => ∃ ha hb, b.head hb ≠ a.getLast ha + 1 := by
  have hruns := flatten_splitBy follows blocks
  have hlength : ∀ part ∈ blocks.splitBy follows, part.length * sectorsPerBlock.toNat < 2 ^ 64 := by
    intro part hpart
    refine Nat.lt_of_le_of_lt (Nat.mul_le_mul_right _ ?_) hsize
    conv_rhs => rw [← hruns]
    exact (sublist_flatten_of_mem hpart).length_le
  rw [readBlocks_eq, drop_zero]
  refine ⟨?_, ?_, _, hruns, rfl, fun part hpart => ?_, ?_⟩
  · conv_rhs => rw [← hruns]
    rw [flatMap_map, flatten_eq_flatMap, flatMap_assoc]
    exact flatMap_congr fun part hpart =>
      sectors_run lbaOffset sectorsPerBlock (isChain_of_mem_splitBy hpart) (hlength part hpart)
  · intro request hrequest
    obtain ⟨part, hpart, rfl⟩ := mem_map.mp hrequest
    have hpos : 0 < part.length * sectorsPerBlock.toNat :=
      Nat.mul_pos (length_pos_of_ne_nil (ne_nil_of_mem_splitBy hpart))
        (Nat.pos_of_ne_zero (UInt64.toNat_inj.not.mpr hsectors))
    rw [← toNat_ofNat_mul (hlength part hpart)] at hpos
    exact UInt64.toNat_inj.not.mp (Nat.pos_iff_ne_zero.mp hpos)
  · exact ⟨ne_nil_of_mem_splitBy hpart, (isChain_of_mem_splitBy hpart).imp fun a b => beq_iff_eq.mp⟩
  · refine (isChain_getLast_head_splitBy follows blocks).imp ?_
    rintro a b ⟨ha, hb, hno⟩
    exact ⟨ha, hb, beq_eq_false_iff_ne.mp hno⟩

/-- A block twice, two runs of blocks of two sectors, and a block before them. -/
theorem readBlocks_faithful_small :
    (readBlocks 100 2 [7, 7, 8, 3] 0).flatMap sectors = [114, 115, 114, 115, 116, 117, 106, 107] :=
  (readBlocks_faithful 100 2 [7, 7, 8, 3] (by decide) (by decide)).1

end Acadia.VictoriaFalls.BlockReader
