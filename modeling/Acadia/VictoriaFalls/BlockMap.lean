import Acadia.VictoriaFalls.OpenFileRuns

/-! # The blocks of a file

When the list of blocks that `ReadInode` makes begins with the blocks of the file by the ext2 block
map. -/

namespace Acadia.VictoriaFalls.Image

open List

variable (image : Image)

/-- The list begins with the blocks of the file. -/
def ReadsBlockMap (inode : Inode) : Prop :=
  ∃ blocks, image.blocksToRead inode = .ok blocks ∧
    (List.range (image.fileBlocks inode)).map (image.fileBlock inode) <+: blocks

/-- The indirect blocks that are read for the number of blocks are there. -/
def HasIndirect (inode : Inode) : Prop :=
  (12 < image.realBlockCnt inode → inode.block 12 ≠ 0) ∧
    (268 < image.realBlockCnt inode → inode.block 13 ≠ 0)

theorem blocksToRead_eq_ok_iff {inode : Inode} (htriple : inode.block 14 = 0) {blocks : List Nat} :
    image.blocksToRead inode = .ok blocks ↔
      image.HasIndirect inode ∧ image.blockList inode (image.realBlockCnt inode) = blocks := by
  rw [blocksToRead, if_neg (not_not.mpr htriple), HasIndirect]
  split_ifs with hnull
  · simp only [false_iff]
    tauto
  · rw [Except.ok.injEq, iff_and_self]
    tauto

/-- There are no more blocks in the list than it is made for, and those behind the double indirect block
are not zero. -/
theorem of_blockList_isPrefix {inode : Inode} {f : Nat → Nat} {n count : Nat}
    (h : (List.range n).map f <+: image.blockList inode count) : n ≤ count ∧ ∀ k, 268 + k < n → f (268 + k) ≠ 0 := by
  rw [blockList_eq] at h
  have hlength := h.length_le
  have hfilter := length_filter_le (· ≠ 0) ((List.range (min 65536 (count - 268))).map fun k =>
    image.entry (image.entry (inode.block 13) (k / 256)) (k % 256))
  simp only [length_append, length_map, length_range] at hlength hfilter
  refine ⟨by omega, fun k hk => ?_⟩
  have hget := prefix_iff_getElem?.mp h (268 + k) (by simpa using hk)
  rw [getElem?_append_right (by simp; omega), getElem?_append_right (by simp; omega),
    getElem_map, getElem_range] at hget
  simpa using (mem_filter.mp (mem_of_getElem? hget)).2

/-- A disk of zeros. -/
def zeros (logBlockSize : Nat) : Image where
  logBlockSize := logBlockSize
  block _ := List.replicate (blockSizeOf logBlockSize) 0
  inode _ := .error .nullAccess
  entries _ := .ok []
  length_block _ := List.length_replicate

theorem entry_zeros (logBlockSize block i : Nat) : (zeros logBlockSize).entry block i = 0 := by
  have hzero : ∀ n, ofLittleEndian (List.replicate n 0) = 0 := by
    intro n
    induction n with
    | zero => rfl
    | succ n ih => rw [replicate_succ, ofLittleEndian, ih]; rfl
  rw [entry, zeros, drop_replicate, take_replicate, hzero]

/-- **When the block map is followed.** For blocks of 1024 bytes, and for files of at most 268 blocks, the list
begins with the blocks of the file exactly if the indirect blocks that are read are there, the number of blocks
by the sectors is at least that by the size, and no block behind the double indirect block is a hole. With
larger blocks, longer files are not followed on every disk. -/
theorem readsBlockMap_iff {inode : Inode} (htriple : inode.block 14 = 0) :
    (∀ image : Image, image.blockSize = 1024 ∨ image.fileBlocks inode ≤ 268 →
      (image.ReadsBlockMap inode ↔ image.HasIndirect inode ∧ image.fileBlocks inode ≤ image.realBlockCnt inode ∧
        ∀ k, 268 + k < image.fileBlocks inode → image.fileBlock inode (268 + k) ≠ 0)) ∧
    ∀ logBlockSize, 268 < (zeros logBlockSize).fileBlocks inode → ¬ (zeros logBlockSize).ReadsBlockMap inode := by
  refine ⟨fun image hsize => ⟨?_, ?_⟩, fun logBlockSize hlong => ?_⟩
  · rintro ⟨blocks, hread, hprefix⟩
    obtain ⟨hindirect, rfl⟩ := (image.blocksToRead_eq_ok_iff htriple).mp hread
    exact ⟨hindirect, image.of_blockList_isPrefix hprefix⟩
  · rintro ⟨hindirect, hcount, hwhole⟩
    have hread := (image.blocksToRead_eq_ok_iff htriple).mpr ⟨hindirect, rfl⟩
    exact ⟨_, hread, image.blocksToRead_isPrefix hsize hcount hwhole hread⟩
  · rintro ⟨blocks, hread, hprefix⟩
    obtain ⟨-, rfl⟩ := (blocksToRead_eq_ok_iff _ htriple).mp hread
    have hlength := hprefix.length_le
    rw [blockList_eq] at hlength
    simp [entry_zeros] at hlength
    omega

/-- A disk in which the entries of a block, if it has any, are the numbers of the blocks after it. -/
def counting : Image where
  logBlockSize := 0
  block n := (List.range 256).flatMap fun i => littleEndian 4 (n + i + 1)
  inode _ := .error .nullAccess
  entries _ := .ok []
  length_block n := by
    simp only [length_flatMap, length_littleEndian]
    decide +kernel

/-- A file of 270 blocks, two of them behind the double indirect block. -/
def longFile : Inode := ⟨0x8000, 270 * 1024, 546, fun i => if i < 14 then i + 1 else 0⟩

theorem readsBlockMap_iff_longFile : counting.ReadsBlockMap longFile := by
  refine ((@readsBlockMap_iff longFile rfl).1 counting (Or.inl rfl)).mpr
    ⟨⟨by decide, by decide⟩, by decide, fun k hk => ?_⟩
  rw [show counting.fileBlocks longFile = 270 by decide] at hk
  obtain rfl | rfl : k = 0 ∨ k = 1 := by omega
  all_goals decide +kernel

/-- A file of 268 blocks of 1024 bytes, whose indirect block is counted too. -/
def fullIndirect : Inode := ⟨0x8000, 268 * 1024, 538, fun i => if i < 13 then 1 else 0⟩

theorem fullIndirect_fails : ¬ (zeros 0).ReadsBlockMap fullIndirect := by
  rintro ⟨blocks, hread, -⟩
  cases hread

end Acadia.VictoriaFalls.Image
