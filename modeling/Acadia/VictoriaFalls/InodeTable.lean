import Acadia.VictoriaFalls.OpenFile

/-! # The inode table

`InodeTable::GetInode` and `GetRootOfInodeTable`, with the numbers that `Ext2BlockReader` takes from the
superblock. An entry of `inode_tables_` is a region with the blocks of the inode table of its group;
here it only matters whether it is there. `BlockSize` shifts an `int`: from 22 on, the logarithm of the block size is one
for which it is zero. -/

namespace Acadia.VictoriaFalls

open Glacier

/-- The fields of a `Superblock` that are read here. -/
structure Superblock where
  blocksCount : UInt32
  logBlockSize : UInt32
  blocksPerGroup : UInt32
  inodesPerGroup : UInt32
  revLevel : UInt32
  inodeSize : UInt16

namespace Superblock

variable (superblock : Superblock)

/-- `NumberOfBlockGroups`. -/
def numberOfBlockGroups : Nat :=
  ((superblock.blocksCount - 1) / superblock.blocksPerGroup + 1).toNat

/-- `InodeSize`; the first revision has no field for it. -/
def recordSize : Nat := if superblock.revLevel ≥ 1 then superblock.inodeSize.toNat else 0x80

/-- `BlockSize`: an `int` is shifted, by the count modulo 32, and then extended to 64 bits. -/
def blockSize : Nat := ((1024 : Int32) <<< superblock.logBlockSize.toInt32).toInt64.toUInt64.toNat

/-- `InodeTableBlockSize`, which divides by `BlockSize`. -/
def inodeTableBlockSize : Nat := superblock.recordSize * superblock.inodesPerGroup.toNat / superblock.blockSize

/-- `block_group_num`. -/
def blockGroupNum (inodeNum : UInt32) : Nat := (inodeNum - 1).toNat / superblock.inodesPerGroup.toNat

/-- `local_index`. -/
def localIndex (inodeNum : UInt32) : Nat := (inodeNum - 1).toNat % superblock.inodesPerGroup.toNat

end Superblock

variable {superblock : Superblock}

/-- An `InodeTable`. -/
structure InodeTable (superblock : Superblock) where
  /-- The fields `inode_table` of `bgdt_`. -/
  bgdt : Nat → Nat
  /-- Which entries of `inode_tables_` have a region. -/
  inodeTables : List Bool
  length_inodeTables : inodeTables.length = superblock.numberOfBlockGroups

/-- Why there is no inode. -/
inductive InodeFault where
  | error (code : ErrorCode)
  /-- An access outside `inode_tables_`. -/
  | outside
  /-- A division by a block size of zero. -/
  | division
  deriving DecidableEq

/-- A pointer into the region of a group. -/
structure InodePointer where
  group : Nat
  offset : Nat
  deriving DecidableEq

/-- `ReadBlocks`, from the first block and the number of blocks. -/
abbrev ReadBlocks := Nat → Nat → Except ErrorCode Unit

namespace InodeTable

variable (table : InodeTable superblock) (readBlocks : ReadBlocks) (inodeNum : UInt32)

/-- `GetRootOfInodeTable`. -/
def getRootOfInodeTable (group : Nat) : Except InodeFault (InodeTable superblock) :=
  if group > superblock.numberOfBlockGroups then .error (.error .invalidArgument)
  else
    match table.inodeTables[group]? with
    | none => .error .outside
    | some true => .ok table
    | some false =>
      if superblock.blockSize = 0 then .error .division
      else
        match readBlocks (table.bgdt group) superblock.inodeTableBlockSize with
        | .error code => .error (.error code)
        | .ok () => .ok
          { table with
            inodeTables := table.inodeTables.set group true
            length_inodeTables := by rw [List.length_set, table.length_inodeTables] }

/-- `GetInode`: a pointer, and the table with what was read. -/
def getInode : Except InodeFault (InodePointer × InodeTable superblock) := do
  let group := superblock.blockGroupNum inodeNum
  let table ← table.getRootOfInodeTable readBlocks group
  return (⟨group, superblock.localIndex inodeNum * superblock.recordSize⟩, table)

/-- **What the result has to be**: an error, or a pointer to a record inside the blocks of a group, and
an error if there is no such inode. -/
def Safe (result : Except InodeFault (InodePointer × InodeTable superblock)) : Prop :=
  (∃ code, result = .error (.error code)) ∨
    (inodeNum ≠ 0 ∧
      inodeNum.toNat ≤ superblock.inodesPerGroup.toNat * superblock.numberOfBlockGroups) ∧
    ∃ pointer table', result = .ok (pointer, table') ∧
      pointer.group < superblock.numberOfBlockGroups ∧
      pointer.offset + superblock.recordSize ≤ superblock.inodeTableBlockSize * superblock.blockSize

/-- The table of a group is still to be read. -/
def Unread (group : Nat) : Prop := table.inodeTables[group]? = some false

/-- The table of a group is still to be read, and the disk returns an error. -/
def ReadFails (group : Nat) : Prop :=
  table.Unread group ∧ ∃ code, readBlocks (table.bgdt group) superblock.inodeTableBlockSize = .error code

variable {group : Nat}

theorem getRootOfInodeTable_of_lt (h : group < superblock.numberOfBlockGroups)
    (hsize : table.Unread group → superblock.blockSize ≠ 0) :
    (∃ code, table.getRootOfInodeTable readBlocks group = .error (.error code)) ∧ table.ReadFails readBlocks group ∨
      (∃ table', table.getRootOfInodeTable readBlocks group = .ok table') ∧ ¬ table.ReadFails readBlocks group := by
  have hlt : group < table.inodeTables.length := table.length_inodeTables ▸ h
  have hsome := List.getElem?_eq_getElem hlt
  unfold Unread at hsize
  rw [getRootOfInodeTable, if_neg (by omega), ReadFails, Unread, hsome]
  rw [hsome] at hsize
  cases hunread : table.inodeTables[group] with
  | true => exact Or.inr ⟨⟨table, rfl⟩, by simp⟩
  | false =>
    rw [if_neg (hsize (by rw [hunread]))]
    cases hread : readBlocks (table.bgdt group) superblock.inodeTableBlockSize with
    | error code => exact Or.inl ⟨⟨code, rfl⟩, rfl, code, rfl⟩
    | ok => exact Or.inr ⟨⟨_, rfl⟩, by simp⟩

/-- Without a block size the table of a group cannot be read. -/
theorem getRootOfInodeTable_of_unread (h : group < superblock.numberOfBlockGroups) (hunread : table.Unread group)
    (hsize : superblock.blockSize = 0) : table.getRootOfInodeTable readBlocks group = .error .division := by
  rw [getRootOfInodeTable, if_neg (by omega), hunread]
  exact if_pos hsize

/-- The groups have exactly the inodes up to the number of all inodes. -/
theorem le_mul_of_blockGroupNum_lt (hcount : 0 < superblock.inodesPerGroup) (hzero : inodeNum ≠ 0)
    (h : superblock.blockGroupNum inodeNum < superblock.numberOfBlockGroups) :
    inodeNum.toNat ≤ superblock.inodesPerGroup.toNat * superblock.numberOfBlockGroups := by
  have hpos : 1 ≤ inodeNum.toNat := Nat.pos_iff_ne_zero.mpr (UInt32.toNat_inj.not.mpr hzero)
  have hsub : (inodeNum - 1).toNat = inodeNum.toNat - 1 :=
    UInt32.toNat_sub_of_le inodeNum 1 (UInt32.le_iff_toNat_le.mpr hpos)
  have hlt := (Nat.div_lt_iff_lt_mul (UInt32.lt_iff_toNat_lt.mp hcount)).mp h
  rw [hsub, Nat.mul_comm] at hlt
  omega

/-- A fault is not safe. -/
theorem not_safe_of_error {fault : InodeFault} (hfault : ∀ code, fault ≠ .error code) :
    ¬ Safe inodeNum (.error fault : Except InodeFault (InodePointer × InodeTable superblock)) := by
  rintro (⟨code, hcode⟩ | ⟨-, pointer, table', hok, -⟩)
  · exact hfault code (Except.error.inj hcode)
  · cases hok

/-- **When `GetInode` is safe.** The group is above the number of groups, which is an error, or below it, and there is a
block size if its table is still to be read; and either the disk returns an error, or the number is not zero and the
record ends inside the blocks that were read. A group that is the number of groups is looked up behind the last one. -/
theorem getInode_safe_iff (hcount : 0 < superblock.inodesPerGroup) :
    Safe inodeNum (table.getInode readBlocks inodeNum) ↔
      superblock.blockGroupNum inodeNum > superblock.numberOfBlockGroups ∨
      superblock.blockGroupNum inodeNum < superblock.numberOfBlockGroups ∧
        (table.Unread (superblock.blockGroupNum inodeNum) → superblock.blockSize ≠ 0) ∧
        (table.ReadFails readBlocks (superblock.blockGroupNum inodeNum) ∨
          inodeNum ≠ 0 ∧ (superblock.localIndex inodeNum + 1) * superblock.recordSize ≤
            superblock.inodeTableBlockSize * superblock.blockSize) := by
  rw [Nat.succ_mul]
  rcases Nat.lt_trichotomy (superblock.blockGroupNum inodeNum) superblock.numberOfBlockGroups with
    hlt | heq | hgt
  · rw [getInode]
    by_cases hsize : table.Unread (superblock.blockGroupNum inodeNum) → superblock.blockSize ≠ 0
    · rcases table.getRootOfInodeTable_of_lt readBlocks hlt hsize with
        ⟨⟨code, hroot⟩, hfails⟩ | ⟨⟨table', hroot⟩, hreads⟩
      · rw [hroot]
        exact iff_of_true (Or.inl ⟨code, rfl⟩) (Or.inr ⟨hlt, hsize, Or.inl hfails⟩)
      rw [hroot]
      constructor
      · rintro (⟨code, hcode⟩ | ⟨hnum, pointer, table'', hok, -, hend⟩)
        · cases hcode
        · cases hok
          exact Or.inr ⟨hlt, hsize, Or.inr ⟨hnum.1, hend⟩⟩
      · rintro (hgt | ⟨-, -, hfails | ⟨hzero, hend⟩⟩)
        · omega
        · exact absurd hfails hreads
        · exact Or.inr ⟨⟨hzero, le_mul_of_blockGroupNum_lt inodeNum hcount hzero hlt⟩, _, _, rfl, hlt, hend⟩
    · have hboth := Classical.not_imp.mp hsize
      rw [table.getRootOfInodeTable_of_unread readBlocks hlt hboth.1 (Classical.not_not.mp hboth.2)]
      refine iff_of_false (not_safe_of_error inodeNum nofun) ?_
      rintro (hgt | ⟨-, hsize', -⟩)
      · omega
      · exact hsize hsize'
  · have hnone : table.inodeTables[superblock.numberOfBlockGroups]? = none :=
      List.getElem?_eq_none (Nat.le_of_eq table.length_inodeTables)
    rw [getInode, getRootOfInodeTable, heq, if_neg (Nat.lt_irrefl _), hnone]
    exact iff_of_false (not_safe_of_error inodeNum nofun) (by omega)
  · rw [getInode, getRootOfInodeTable, if_pos hgt]
    exact iff_of_true (Or.inl ⟨.invalidArgument, rfl⟩) (Or.inl hgt)

end InodeTable

/-- One group of eight inodes. -/
def oneGroup (logBlockSize : UInt32) : Superblock := ⟨64, logBlockSize, 8192, 8, 0, 0⟩

/-- Nothing is read yet. -/
def oneGroupTable (logBlockSize : UInt32) : InodeTable (oneGroup logBlockSize) where
  bgdt _ := 5
  inodeTables := [false]
  length_inodeTables := (by decide : 1 = ((64 - 1 : UInt32) / 8192 + 1).toNat)

theorem getInode_safe_iff_root : InodeTable.Safe 2 ((oneGroupTable 0).getInode (fun _ _ => .ok ()) 2) :=
  ((oneGroupTable 0).getInode_safe_iff (fun _ _ => .ok ()) 2 (by decide)).mpr
    (Or.inr ⟨by decide, fun _ => by decide, Or.inr ⟨by decide, by decide⟩⟩)

/-- The first inode behind the group is looked for in the table of a second group; and with a logarithm of 22 there is
no block size to divide by. -/
theorem getInode_outside : ¬ InodeTable.Safe 9 ((oneGroupTable 0).getInode (fun _ _ => .ok ()) 9) ∧
    ¬ InodeTable.Safe 2 ((oneGroupTable 22).getInode (fun _ _ => .ok ()) 2) := by
  constructor
  · show ¬ InodeTable.Safe 9 (.error .outside)
    exact InodeTable.not_safe_of_error 9 nofun
  · show ¬ InodeTable.Safe 2 (.error .division)
    exact InodeTable.not_safe_of_error 2 nofun

end Acadia.VictoriaFalls
