import Acadia.Foundations.Runs
import Acadia.VictoriaFalls.OpenFile

/-! # What an opened file holds

The bytes of a file are those of its blocks by the ext2 block map. The blocks that `ReadInode` reads begin with
them if blocks have 1024 bytes and the file has no holes (`blocksToRead_take`). A server whose cache holds what
the disk holds finds the same files as a walk over the disk (`walk_spec`), and keeps such a cache; but a client
that writes into the memory it got writes into the cache. -/

namespace Acadia.VictoriaFalls

open Glacier Command List

namespace Image

variable (image : Image)

/-! ## The ext2 block map -/

/-- An entry of an indirect block; a block that is zero is a hole. -/
def pointer (block i : Nat) : Nat := if block = 0 then 0 else image.entry block i

theorem pointer_eq_entry {block i : Nat} (h : block ≠ 0) : image.pointer block i = image.entry block i :=
  if_neg h

theorem ne_zero_of_pointer {block i : Nat} (h : image.pointer block i ≠ 0) : block ≠ 0 :=
  fun h0 => h (if_pos h0)

/-- The block of the disk that a block of a file is. -/
def fileBlock (inode : Inode) (i : Nat) : Nat :=
  let per := image.blockSize / 4
  if i < 12 then inode.block i
  else if i < 12 + per then image.pointer (inode.block 12) (i - 12)
  else if i < 12 + per + per ^ 2 then
    let k := i - (12 + per)
    image.pointer (image.pointer (inode.block 13) (k / per)) (k % per)
  else
    let k := i - (12 + per + per ^ 2)
    image.pointer (image.pointer (image.pointer (inode.block 14) (k / per ^ 2)) (k / per % per)) (k % per)

/-- The number of blocks of a file. -/
def fileBlocks (inode : Inode) : Nat := (inode.size.toNat + image.blockSize - 1) / image.blockSize

/-- **The bytes of a file.** -/
def fileBytes (inode : Inode) : List UInt8 :=
  ((List.range (image.fileBlocks inode)).flatMap fun i =>
    if image.fileBlock inode i = 0 then List.replicate image.blockSize 0
    else image.block (image.fileBlock inode i)).take inode.size.toNat

/-- The files that are read as they are: blocks have 1024 bytes, the number of sectors is enough for
the size, and there is no hole. -/
structure Supported (inode : Inode) : Prop where
  blockSize : image.blockSize = 1024
  blocks : image.fileBlocks inode ≤ image.realBlockCnt inode
  whole : ∀ i < image.fileBlocks inode, image.fileBlock inode i ≠ 0

/-! ## The blocks that are read -/

theorem range_map_isPrefix {α : Type} (f : Nat → α) {m n : Nat} (h : m ≤ n) :
    (List.range m).map f <+: (List.range n).map f := by
  obtain ⟨r, rfl⟩ := Nat.exists_eq_add_of_le h
  rw [range_add, map_append]
  exact prefix_append _ _

theorem range_map_split {α : Type} (f : Nat → α) {m n : Nat} (h : m ≤ n) :
    (List.range n).map f = (List.range m).map f ++ (List.range (n - m)).map fun i => f (m + i) := by
  obtain ⟨r, rfl⟩ := Nat.exists_eq_add_of_le h
  rw [range_add, map_append, map_map, Nat.add_sub_cancel_left]
  rfl

theorem flatMap_range_map (f : Nat → Nat) (m a : Nat) : ((List.range a).flatMap fun i =>
      (List.range (min 256 (m - 256 * i))).map fun j => f (256 * i + j)) =
      (List.range (min (256 * a) m)).map f := by
  induction a with
  | zero => simp
  | succ a ih =>
    rw [range_succ, flatMap_append, ih, flatMap_singleton]
    rcases Nat.le_total m (256 * a) with h | h
    · rw [Nat.sub_eq_zero_of_le h, Nat.min_zero, range_zero, map_nil, append_nil,
        Nat.min_eq_right h, Nat.min_eq_right (by omega)]
    · rw [Nat.min_eq_left h, range_map_split f (m := 256 * a) (n := min (256 * (a + 1)) m) (by omega)]
      congr 3
      omega

theorem blockList_eq (inode : Inode) (count : Nat) : image.blockList inode count =
      (List.range (min 12 count)).map inode.block ++
        ((List.range (min 256 (count - 12))).map (image.entry (inode.block 12)) ++
          ((List.range (min 65536 (count - 268))).map fun k =>
            image.entry (image.entry (inode.block 13) (k / 256)) (k % 256)).filter (· ≠ 0)) := by
  rw [blockList, ← flatMap_range_map _ _ 256, filter_flatMap]
  rw [append_cancel_left_eq, append_cancel_left_eq]
  refine flatMap_congr fun i _ => ?_
  rw [Nat.sub_add_eq]
  refine congrArg _ (map_congr_left fun j hj => ?_)
  have hj : j < 256 := (mem_range.mp hj).trans_le (Nat.min_le_left _ _)
  rw [Nat.mul_add_div (by decide), Nat.div_eq_of_lt hj, Nat.add_zero, Nat.mul_add_mod, Nat.mod_eq_of_lt hj]

variable {inode : Inode}

theorem blockList_isPrefix {f : Nat → Nat} {n count : Nat} (hcount : n ≤ count) (hn : n ≤ 65804)
    (hwhole : ∀ k, 268 + k < n → f (268 + k) ≠ 0) (hdirect : ∀ i < 12, f i = inode.block i)
    (hindirect : ∀ i < 256, 12 + i < n → f (12 + i) = image.entry (inode.block 12) i)
    (hdouble : ∀ k, 268 + k < n → f (268 + k) = image.entry (image.entry (inode.block 13) (k / 256)) (k % 256)) :
    (List.range n).map f <+: image.blockList inode count := by
  rw [blockList_eq]
  rcases Nat.le_total n 12 with h12 | h12
  · rw [map_congr_left fun i hi => hdirect i ((mem_range.mp hi).trans_le h12)]
    exact (range_map_isPrefix _ (by omega)).trans (prefix_append _ _)
  rw [range_map_split f h12, Nat.min_eq_left (h12.trans hcount),
    map_congr_left fun i hi => hdirect i (mem_range.mp hi), prefix_append_right_inj]
  rcases Nat.le_total n 268 with h268 | h268
  · rw [map_congr_left fun i hi => hindirect i (by grind) (by grind)]
    exact (range_map_isPrefix _ (by omega)).trans (prefix_append _ _)
  rw [@range_map_split _ _ 256 (n - 12) (by omega), Nat.min_eq_left (by omega),
    map_congr_left fun i hi => hindirect i (mem_range.mp hi) (by grind),
    prefix_append_right_inj]
  -- the part behind the double indirect block loses no entry
  have hpart : (List.range (n - 12 - 256)).map (fun i => f (12 + (256 + i))) = ((List.range (n - 268)).map fun k =>
        image.entry (image.entry (inode.block 13) (k / 256)) (k % 256)).filter (· ≠ 0) := by
    rw [Nat.sub_sub, filter_eq_self.mpr]
    · refine map_congr_left fun k hk => ?_
      rw [← Nat.add_assoc]
      exact hdouble k (by grind)
    · intro b hb
      obtain ⟨k, hk, rfl⟩ := mem_map.mp hb
      have hk : 268 + k < n := by grind
      simpa [← hdouble k hk] using hwhole k hk
  rw [hpart]
  exact (range_map_isPrefix _ (by omega)).filter _

theorem le_blockSize_div : 256 ≤ image.blockSize / 4 := by
  have hpos := Nat.two_pow_pos image.logBlockSize
  rw [blockSize, blockSizeOf, Nat.shiftLeft_eq]
  omega

variable {blocks : List Nat}

/-- **The blocks that are read begin with the blocks of the file**, if none behind the double indirect
block is a hole. -/
theorem blocksToRead_isPrefix (hsize : image.blockSize = 1024 ∨ image.fileBlocks inode ≤ 268)
    (hcount : image.fileBlocks inode ≤ image.realBlockCnt inode)
    (hwhole : ∀ k, 268 + k < image.fileBlocks inode → image.fileBlock inode (268 + k) ≠ 0)
    (hread : image.blocksToRead inode = .ok blocks) :
    (List.range (image.fileBlocks inode)).map (image.fileBlock inode) <+: blocks := by
  have hle := image.le_blockSize_div
  unfold blocksToRead at hread
  split at hread
  · simp at hread
  split at hread
  · simp at hread
  rename_i htriple hnull
  rw [ne_eq, not_not] at htriple
  obtain rfl := Except.ok.inj hread
  have hper : 268 < image.fileBlocks inode → image.blockSize / 4 = 256 :=
    fun hlt => by rw [hsize.resolve_right (by omega)]
  have hn : image.fileBlocks inode ≤ 65804 := by
    by_contra hn
    refine hwhole 65536 (by omega) ?_
    simp [fileBlock, hper (by omega), pointer, htriple]
  refine image.blockList_isPrefix hcount hn hwhole ?_ ?_ ?_
  · intro i hi
    rw [fileBlock, if_pos hi]
  · intro i hi hlt
    have h12 : inode.block 12 ≠ 0 := fun h0 => hnull (.inl ⟨by omega, h0⟩)
    rw [fileBlock, if_neg (by omega), if_pos (by omega), image.pointer_eq_entry h12, Nat.add_sub_cancel_left]
  · intro k hk
    have h13 : inode.block 13 ≠ 0 := fun h0 => hnull (.inr ⟨by omega, h0⟩)
    have hkey := hwhole k hk
    rw [fileBlock, if_neg (by omega), hper (by omega), if_neg (by omega), if_pos (by omega)] at hkey ⊢
    rw [image.pointer_eq_entry (image.ne_zero_of_pointer hkey), image.pointer_eq_entry h13, Nat.add_sub_cancel_left]

/-- **What is read of a file begins with its bytes.** -/
theorem take_readBlocks (h : image.Supported inode) (hread : image.blocksToRead inode = .ok blocks) :
    (image.readBlocks blocks).take inode.size.toNat = image.fileBytes inode := by
  obtain ⟨rest, rfl⟩ := image.blocksToRead_isPrefix (.inl h.blockSize) h.blocks (fun k => h.whole (268 + k)) hread
  have hfile : (List.range (image.fileBlocks inode)).flatMap (fun i =>
      if image.fileBlock inode i = 0 then List.replicate image.blockSize 0
      else image.block (image.fileBlock inode i)) =
      image.readBlocks ((List.range (image.fileBlocks inode)).map (image.fileBlock inode)) := by
    rw [readBlocks, flatMap_map]
    exact flatMap_congr fun i hi => if_neg (h.whole i (mem_range.mp hi))
  have hlength : inode.size.toNat ≤
      (image.readBlocks ((List.range (image.fileBlocks inode)).map (image.fileBlock inode))).length := by
    have hsize := h.blockSize
    simp only [readBlocks, length_flatMap, image.length_block, map_const', sum_replicate_nat,
      length_map, length_range, fileBlocks, hsize]
    omega
  rw [fileBytes, hfile, readBlocks, flatMap_append]
  exact take_append_of_le_length hlength

/-! ## Files on the disk -/

/-- What `readChecked` reads, without a cache. -/
def readChecked (mask : UInt16) (inodeNum : Nat) : Except Fault (List UInt8) := do
  let inode ← image.inode inodeNum
  if inode.mode &&& mask = 0 then .error (.error .invalidArgument)
  else return image.readBlocks (← image.blocksToRead inode)

theorem readChecked_eq_ok {image : Image} {mask : UInt16} {inodeNum : Nat} (hinode : image.inode inodeNum = .ok inode)
    (hmode : inode.mode &&& mask ≠ 0) (hblocks : image.blocksToRead inode = .ok blocks) :
    image.readChecked mask inodeNum = .ok (image.readBlocks blocks) := by
  simp [readChecked, hinode, hmode, hblocks, bind, Except.bind, pure, Except.pure]

/-- A directory of the disk. -/
def readDirectory (inodeNum : Nat) : Except Fault Entries := do
  image.entries (← image.readChecked 0x4000 inodeNum)

/-- **The file of a path on the disk.** -/
def fileOf (path : List Char) : Except Fault (Option Nat) := do
  walk image.readDirectory (pathNames path) (← image.readDirectory 2)

end Image

namespace Server

variable {image : Image}

/-! ## The cache -/

/-- **The cache holds what the disk holds.** -/
def Clean (image : Image) (s : Server) : Prop :=
  ∀ inodeNum region, s.inodeCache.lookup inodeNum = some region → ∃ inode blocks,
    image.inode inodeNum = .ok inode ∧ image.blocksToRead inode = .ok blocks ∧
      s.memory[region]? = some (image.readBlocks blocks)

variable {s : Server}

theorem wp_lift {α : Type} {x : Except Fault α} {Q : α → Server → Prop} {E : Fault → Server → Prop}
    (hok : ∀ a, x = .ok a → Q a s) (herror : ∀ e, E e s) : wp (Request.lift x) Q E s := by
  cases x with
  | ok a => exact hok a rfl
  | error e => exact herror e

theorem Clean.insert (h : Clean image s) {inodeNum : Nat} {inode : Inode} {blocks : List Nat}
    (hinode : image.inode inodeNum = .ok inode) (hblocks : image.blocksToRead inode = .ok blocks) :
    Clean image { s with
      memory := s.memory ++ [image.readBlocks blocks]
      inodeCache := (inodeNum, s.memory.length) :: s.inodeCache } := by
  intro n region hlookup
  rw [lookup_cons] at hlookup
  split at hlookup
  · rename_i hn
    obtain rfl := Option.some.inj hlookup
    exact ⟨inode, blocks, eq_of_beq hn ▸ hinode, hblocks, by simp⟩
  · obtain ⟨inode', blocks', hi, hb, hm⟩ := h n region hlookup
    have hlt : region < s.memory.length := (List.getElem?_eq_some_iff.mp hm).1
    exact ⟨inode', blocks', hi, hb, by rw [getElem?_append_left hlt, hm]⟩

/-- **What is read is what the disk holds**, with the cache or without it. -/
theorem readChecked_spec (h : Clean image s) (mask : UInt16) (inodeNum : Nat) : wp (readChecked image mask inodeNum)
      (fun region s' => Clean image s' ∧ ∃ inode blocks, image.inode inodeNum = .ok inode ∧
        inode.mode &&& mask ≠ 0 ∧ image.blocksToRead inode = .ok blocks ∧
        s'.memory[region]? = some (image.readBlocks blocks))
      (fun _ => Clean image) s := by
  unfold readChecked
  rw [wp_bind]
  refine wp_lift (fun inode hinode => ?_) fun _ => h
  rw [wp_ite]
  split
  · exact h
  rename_i hmode
  unfold readInode
  rw [wp_bind, wp_gets]
  split
  · rename_i region hlookup
    obtain ⟨inode', blocks, hi, hb, hm⟩ := h inodeNum region hlookup
    exact ⟨h, inode', blocks, hi, by rw [hinode] at hi; exact Except.ok.inj hi ▸ hmode, hb, hm⟩
  · rw [wp_bind]
    refine wp_lift (fun blocks hblocks => ?_) fun _ => h
    refine ⟨h.insert hinode hblocks, inode, blocks, hinode, hmode, hblocks, ?_⟩
    simp

theorem readDirectory_spec (h : Clean image s) (inodeNum : Nat) : wp (readDirectory image inodeNum)
      (fun files s' => Clean image s' ∧ image.readDirectory inodeNum = .ok files)
      (fun _ => Clean image) s := by
  unfold readDirectory
  refine wp_seq (readChecked_spec h _ _) fun region s' ⟨h', inode, blocks, hi, hmode, hb, hm⟩ => ?_
  rw [wp_bind, wp_gets, hm]
  refine wp_lift (fun files hfiles => ⟨h', ?_⟩) fun _ => h'
  rw [Image.readDirectory, Image.readChecked_eq_ok hi hmode hb]
  exact hfiles

/-- **The walk over the directories finds what the walk over the disk finds.** -/
theorem walk_spec (h : Clean image s) (names : List (List Char)) (files : Entries) :
    wp (walk (readDirectory image) names files)
      (fun inodeNum s' => Clean image s' ∧ walk image.readDirectory names files = .ok inodeNum)
      (fun _ => Clean image) s := by
  induction names generalizing s files with
  | nil => exact ⟨h, rfl⟩
  | cons name names ih =>
    cases names with
    | nil => exact ⟨h, rfl⟩
    | cons next names =>
      unfold walk
      cases files.lookup name with
      | none => exact ⟨h, rfl⟩
      | some inodeNum =>
        refine wp_seq (readDirectory_spec h inodeNum) fun files' s' ⟨h', hfiles⟩ => ?_
        refine wp_mono (ih h' files') (fun r s'' ⟨h'', hr⟩ => ⟨h'', ?_⟩) fun _ _ he => he
        show (image.readDirectory inodeNum >>= fun files => walk _ (next :: names) files) = _
        rw [hfiles]
        exact hr

/-- **An opened file is the file of the path on the disk.** -/
theorem openFile_spec (h : Clean image s) (path : List Char) : wp (openFile image path)
      (fun r s' => Clean image s' ∧ ∃ inodeNum inode blocks, image.fileOf path = .ok (some inodeNum) ∧
        image.inode inodeNum = .ok inode ∧ image.blocksToRead inode = .ok blocks ∧
        s'.memory[r.1]? = some (image.readBlocks blocks) ∧ r.2 = inode.size)
      (fun _ => Clean image) s := by
  unfold openFile
  rw [wp_ite]
  split
  · exact h
  refine wp_seq (readDirectory_spec h 2) fun files s1 ⟨h1, hfiles⟩ => ?_
  refine wp_seq (walk_spec h1 _ files) fun found s2 ⟨h2, hfound⟩ => ?_
  cases found with
  | none => exact h2
  | some inodeNum =>
    refine wp_seq (readChecked_spec h2 _ _) fun region s3 ⟨h3, inode, blocks, hi, _, hb, hm⟩ => ?_
    rw [wp_bind, wp_update, wp_bind]
    refine wp_lift (fun inode' hi' => ?_) fun _ => h3
    obtain rfl : inode' = inode := Except.ok.inj (hi'.symm.trans hi)
    refine ⟨h3, inodeNum, inode', blocks, ?_, hi, hb, hm, rfl⟩
    rw [Image.fileOf, hfiles]
    exact hfound

/-! ## Runs -/

/-- The condition on an event: a file that is opened is one that is read as it is, and a write does not
change what it writes to. -/
def Allowed (image : Image) (s : Server) : Event → Prop
  | .openFile path => ∀ inodeNum inode, image.fileOf path = .ok (some inodeNum) →
    image.inode inodeNum = .ok inode → image.Supported inode
  | .write region offset byte => ∀ bytes, s.memory[region]? = some bytes → bytes.set offset byte = bytes

theorem Clean.of_step {s' : Server} (h : Clean image s) {e : Event} (hok : Allowed image s e)
    (hstep : step image s e = some s') : Clean image s' := by
  cases e with
  | openFile path =>
    rw [step] at hstep
    split at hstep
    · cases hstep
    rename_i r s'' _ hrun
    obtain rfl := Option.some.inj hstep
    obtain ⟨hresult, herror⟩ := wp_run (openFile_spec h path) hrun
    cases r with
    | ok a => exact (hresult a rfl).1
    | error e => exact herror e rfl
  | write region offset byte =>
    rw [step] at hstep
    split at hstep
    · obtain rfl := Option.some.inj hstep
      have hsame : s.memory.modify region (fun bytes => bytes.set offset byte) = s.memory := by
        refine ext_getElem? fun i => ?_
        rw [getElem?_modify]
        split_ifs with hi
        · subst hi
          cases hm : s.memory[region]? with
          | none => rfl
          | some bytes => exact congrArg some (hok bytes hm)
        · exact Option.map_id'
      rw [hsame]
      exact h
    · cases hstep

/-- **Every file that is opened holds the bytes of the file on the disk**, in every run in which clients
leave the memory they got as it is. -/
theorem run_openFile_returns_fileBytes (image : Image) {events : List Event} {s s' : Server} {path : List Char}
    {region : Nat} {size : UInt32} (hok : Runs.Meets (step image) (Allowed image) {} (events ++ [.openFile path]))
    (hrun : Runs.run (step image) {} events = some s) (hopen : openFile image path s = (.ok (region, size), s')) :
    ∃ inodeNum inode bytes, image.fileOf path = .ok (some inodeNum) ∧
      image.inode inodeNum = .ok inode ∧ size = inode.size ∧ s'.memory[region]? = some bytes ∧
      bytes.take size.toNat = image.fileBytes inode := by
  obtain ⟨hevents, hlast⟩ := Runs.meets_concat.mp hok
  have hclean : Clean image s := 
    Runs.run_invariant (fun _ _ _ h hok hstep => h.of_step hok hstep) (fun _ _ h => by cases h) hevents hrun
  obtain ⟨_, inodeNum, inode, blocks, hfile, hinode, hblocks, hm, rfl⟩ :=
    of_wp (openFile_spec hclean path) hopen
  have hsupported := hlast s hrun inodeNum inode hfile hinode
  exact ⟨inodeNum, inode, _, hfile, hinode, rfl, hm, image.take_readBlocks hsupported hblocks⟩

/-- The inode of a file of one byte. -/
def smallFile : Inode := ⟨0x8000, 1, 2, fun i => if i = 0 then 6 else 0⟩

/-- A disk whose root directory, in block 5, has the entry of one file, in block 6. -/
def smallDisk : Image where
  logBlockSize := 0
  block n :=
    if n = 5 then [3, 0, 0, 0, 0, 4, 1, 1, 97] ++ List.replicate 1015 0
    else if n = 6 then 7 :: List.replicate 1023 0
    else List.replicate 1024 0
  inode n :=
    if n = 2 then .ok ⟨0x4000, 1024, 2, fun i => if i = 0 then 5 else 0⟩ else .ok smallFile
  entries bytes := .ok [([Char.ofNat (bytes.getD 8 0).toNat], (bytes.getD 0 0).toNat)]
  length_block n := by split <;> [decide +kernel; split <;> decide +kernel]

/-- The server after the file was opened once. -/
def openedOnce : Server := ((step smallDisk {} (.openFile ['/', 'a'])).getD {})

/-- The file of the small disk is opened twice. -/
theorem run_openFile_returns_fileBytes_smallDisk :
    ∃ inodeNum inode bytes, smallDisk.fileOf ['/', 'a'] = .ok (some inodeNum) ∧
      smallDisk.inode inodeNum = .ok inode ∧ (1 : UInt32) = inode.size ∧
      (openFile smallDisk ['/', 'a'] openedOnce).2.memory[1]? = some bytes ∧
      bytes.take (1 : UInt32).toNat = smallDisk.fileBytes inode := by
  have hsupported : smallDisk.Supported smallFile :=
    ⟨by decide +kernel, by decide +kernel, by decide +kernel⟩
  have hallowed : ∀ s, Allowed smallDisk s (.openFile ['/', 'a']) := by
    intro s inodeNum inode hfile hinode
    have h3 : smallDisk.fileOf ['/', 'a'] = .ok (some 3) := by decide +kernel
    obtain rfl : 3 = inodeNum := Option.some.inj (Except.ok.inj (h3.symm.trans hfile))
    exact Except.ok.inj hinode ▸ hsupported
  exact @run_openFile_returns_fileBytes smallDisk [.openFile ['/', 'a']] openedOnce _ _ 1 1
    ⟨hallowed _, fun _ _ => ⟨hallowed _, fun _ _ => trivial⟩⟩ (by decide +kernel) (by decide +kernel)

/-- **A byte that a client wrote is returned as a byte of the file**: the client opens the file, writes
a byte, and opens it again. -/
theorem written_byte_returned : ((Runs.run (step smallDisk) {} [.openFile ['/', 'a'], .write 1 0 9]).map fun s =>
      let (r, s') := openFile smallDisk ['/', 'a'] s
      (r.toOption, s'.memory[1]?.map fun bytes => bytes.take 1)) = some (some (1, 1), some [9]) ∧
    (smallDisk.fileOf ['/', 'a']).toOption = some (some 3) ∧ smallDisk.fileBytes smallFile = [7] := by
  decide +kernel

end Server

end Acadia.VictoriaFalls
