import Acadia.Foundations.ByteMemory
import Acadia.Foundations.Command
import Acadia.Glacier.ErrorCode

/-! # Opening files

`VFSServer::HandleOpenFile` with `Ext2Driver::ReadDirectory`, `ReadFile` and `ReadInode`, of
`sys/victoriafalls`. A memory region is a capability for a memory object: `Duplicate` and `DuplicateCap`
duplicate it with all permissions, so that the cache, the server and the clients share the object, which is
named by its position in memory.

The disk service returns the blocks it is asked for, as it does in runs of less than 8192 sectors. The inode table, and the loop of `ReadDirectory` over the
bytes of a directory, are functions that belong to the image. -/

namespace Acadia.VictoriaFalls

open Glacier Command

/-- The fields of an `Inode` that are read here. -/
structure Inode where
  mode : UInt16
  size : UInt32
  blocks : UInt32
  /-- The 15 entries of `block`. -/
  block : Nat → Nat

/-- Why a request has no result. -/
inductive Fault where
  | error (code : ErrorCode)
  /-- An access through a null pointer. -/
  | nullAccess
  deriving DecidableEq

/-- The entries of a directory: names and inode numbers. -/
abbrev Entries := List (List Char × Nat)

/-- `BlockSize`, from `log_block_size`; the shift of an `int` is the same up to 20. -/
def blockSizeOf (logBlockSize : Nat) : Nat := 1024 <<< logBlockSize

/-- An ext2 disk image. -/
structure Image where
  logBlockSize : Nat
  /-- The contents of a block. -/
  block : Nat → List UInt8
  /-- `InodeTable::GetInode`. -/
  inode : Nat → Except Fault Inode
  /-- The entries in the bytes of a directory. -/
  entries : List UInt8 → Except Fault Entries
  length_block : ∀ n, (block n).length = blockSizeOf logBlockSize

namespace Image

variable (image : Image)

/-- `BlockSize`. -/
abbrev blockSize : Nat := blockSizeOf image.logBlockSize

/-- An entry of a block of block numbers. -/
def entry (block i : Nat) : Nat :=
  ofLittleEndian (((image.block block).drop (4 * i)).take 4)

/-- `real_block_cnt`, from the number of sectors of the file. -/
def realBlockCnt (inode : Inode) : Nat :=
  (inode.blocks - 1).toNat / (image.blockSize / 512) + 1

/-- The loops of `ReadInode`: the direct blocks, those of the indirect block, and those of the indirect
blocks of the double indirect block that are not zero. -/
def blockList (inode : Inode) (count : Nat) : List Nat :=
  (List.range (min 12 count)).map inode.block ++
    ((List.range (min 256 (count - 12))).map (image.entry (inode.block 12)) ++
      (List.range 256).flatMap fun i =>
        ((List.range (min 256 (count - (268 + 256 * i)))).map
          (image.entry (image.entry (inode.block 13) i))).filter (· ≠ 0))

/-- `blocks_to_read` of `ReadInode`; the array of an indirect block that is not there is a null
pointer. -/
def blocksToRead (inode : Inode) : Except Fault (List Nat) :=
  if inode.block 14 ≠ 0 then .error (.error .unimplemented)
  else if 12 < image.realBlockCnt inode ∧ inode.block 12 = 0 ∨
      268 < image.realBlockCnt inode ∧ inode.block 13 = 0 then .error .nullAccess
  else .ok (image.blockList inode (image.realBlockCnt inode))

/-- `ReadBlocks`. -/
def readBlocks (blocks : List Nat) : List UInt8 := blocks.flatMap image.block

end Image

/-- The server and the memory of the system. -/
structure Server where
  memory : List (List UInt8) := []
  inodeCache : List (Nat × Nat) := []
  /-- The memory objects that clients have capabilities for. -/
  shared : List Nat := []
  deriving DecidableEq

/-- A part of a request. -/
abbrev Request := Command Server Fault

/-- What a pure part returns. -/
def Request.lift {α : Type} (x : Except Fault α) : Request α := fun s => (x, s)

namespace Server

variable (image : Image)

/-- `ReadInode`. -/
def readInode (inodeNum : Nat) (inode : Inode) : Request Nat := do
  match ← gets fun s => s.inodeCache.lookup inodeNum with
  | some region => return region
  | none =>
    let blocks ← Request.lift (image.blocksToRead inode)
    let region ← gets fun s => s.memory.length
    update fun s =>
      { s with
        memory := s.memory ++ [image.readBlocks blocks]
        inodeCache := (inodeNum, region) :: s.inodeCache }
    return region

/-- The check of the mode, and `ReadInode`. -/
def readChecked (mask : UInt16) (inodeNum : Nat) : Request Nat := do
  let inode ← Request.lift (image.inode inodeNum)
  if inode.mode &&& mask = 0 then stop (.error .invalidArgument)
  else readInode image inodeNum inode

/-- `ReadFile`. -/
def readFile (inodeNum : Nat) : Request Nat := readChecked image 0x8000 inodeNum

/-- `ReadDirectory`. -/
def readDirectory (inodeNum : Nat) : Request Entries := do
  let dir ← readChecked image 0x4000 inodeNum
  let bytes ← gets fun s => s.memory[dir]?.getD []
  Request.lift (image.entries bytes)

end Server

/-- The two loops of `HandleOpenFile`: the directories of a path, and the file in the last one. -/
def walk {m : Type → Type} [Monad m] (readDirectory : Nat → m Entries) :
    List (List Char) → Entries → m (Option Nat)
  | [], _ => pure none
  | [name], files => pure (files.lookup name)
  | name :: next :: names, files =>
    match files.lookup name with
    | some inode => do walk readDirectory (next :: names) (← readDirectory inode)
    | none => pure none

/-- `path_tokens` after the first, which stands before the first `/`; a path without one is its own
last token. -/
def pathNames (path : List Char) : List (List Char) :=
  match path.splitOn '/' with
  | [token] => [token]
  | tokens => tokens.tail

/-- `HandleOpenFile`: the memory and the size of a file. -/
def Server.openFile (image : Image) (path : List Char) : Request (Nat × UInt32) := do
  if (path.splitOn '/').head? ≠ some [] then stop (.error .invalidArgument)
  else
    let files ← readDirectory image 2
    match ← walk (readDirectory image) (pathNames path) files with
    | none => stop (.error .notFound)
    | some inodeNum =>
      let region ← readFile image inodeNum
      update fun s => { s with shared := region :: s.shared }
      let inode ← Request.lift (image.inode inodeNum)
      return (region, inode.size)

/-- What clients do. -/
inductive Event where
  | openFile (path : List Char)
  /-- A write into memory that a client has a capability for. -/
  | write (region offset : Nat) (byte : UInt8)
  deriving DecidableEq

/-- One event; a request that accesses a null pointer is the end of the server. -/
def Server.step (image : Image) (s : Server) : Event → Option Server
  | .openFile path =>
    match openFile image path s with
    | (.error .nullAccess, _) => none
    | (_, s') => some s'
  | .write region offset byte =>
    if region ∈ s.shared then
      some { s with memory := s.memory.modify region fun bytes => bytes.set offset byte }
    else none

end Acadia.VictoriaFalls
