import Acadia.Foundations.ByteMemory
import Acadia.Glacier.ErrorCode

/-! # The commands of a read

`HandleRead` and `HandleReadMany` of `DenaliServer`, with `IssueRead` and `IssueCommand` of `AhciPort`:
which sectors a command asks for, and where they go. The client waits for each command before it issues
the next; other clients use the port too. -/

namespace Acadia.Denali

open Glacier List UInt64

/-- A `DiskBlock`: sectors that follow each other on the disk. -/
structure DiskBlock where
  lba : UInt64
  size : UInt64
  deriving DecidableEq

/-- `CommandInfo`. -/
structure CommandInfo where
  command : UInt8
  lba : UInt64
  sectors : UInt16
  paddr : UInt64

/-- `HostToDeviceRegisterFis`, without the fields that are the same for all commands. -/
structure HostToDeviceRegisterFis where
  command : UInt8
  lba0 : UInt8
  lba1 : UInt8
  lba2 : UInt8
  lba3 : UInt8
  lba4 : UInt8
  lba5 : UInt8
  count : UInt16

/-- What `IssueCommand` writes for the device. -/
structure IssuedCommand where
  fis : HostToDeviceRegisterFis
  regionAddress : UInt64
  byteCount : UInt32

/-- `IssueCommand`, with `commands_issued_`. -/
def issueCommand (commandsIssued : BitVec 32) (command : CommandInfo) :
    Except ErrorCode IssuedCommand :=
  match (List.range 32).find? fun slot => !commandsIssued.getLsbD slot with
  | none => .error .internal
  | some _ => .ok
    { fis :=
        { command := command.command
          lba0 := (command.lba &&& 0xFF).toUInt8
          lba1 := (command.lba >>> 8 &&& 0xFF).toUInt8
          lba2 := (command.lba >>> 16 &&& 0xFF).toUInt8
          lba3 := (command.lba >>> 24 &&& 0xFF).toUInt8
          lba4 := (command.lba >>> 32 &&& 0xFF).toUInt8
          lba5 := (command.lba >>> 40 &&& 0xFF).toUInt8
          count := command.sectors }
      regionAddress := command.paddr
      byteCount := 512 * command.sectors.toUInt32 }

/-- `kDmaReadExt`. -/
def kDmaReadExt : UInt8 := 0x25

/-- `IssueRead`; the number of sectors is a parameter of 16 bits. -/
def issueRead (commandsIssued : BitVec 32) (lba : UInt64) (sectorCnt : UInt16) (paddr : UInt64) :
    Except ErrorCode IssuedCommand :=
  issueCommand commandsIssued ⟨kDmaReadExt, lba, sectorCnt, paddr⟩

/-- The command of `HandleRead`, for a region at `paddr`. -/
def handleRead (commandsIssued : BitVec 32) (block : DiskBlock) (paddr : UInt64) :
    Except ErrorCode IssuedCommand :=
  issueRead commandsIssued block.lba block.size.toUInt16 paddr

/-- The commands of the loop of `HandleReadMany`; each finds `commands_issued_` as it is then. -/
def handleReadMany (commandsIssued : Nat → BitVec 32) (regionPaddr : UInt64) :
    List DiskBlock → Except ErrorCode (List IssuedCommand)
  | [] => .ok []
  | block :: blocks => do
    let command ← issueRead (commandsIssued blocks.length) block.lba block.size.toUInt16 regionPaddr
    let commands ← handleReadMany commandsIssued (regionPaddr + block.size * 512) blocks
    return command :: commands

/-! ## What a command transfers -/

namespace IssuedCommand

variable (command : IssuedCommand)

/-- The address of the first sector. -/
def lba : Nat :=
  ofLittleEndian [command.fis.lba0, command.fis.lba1, command.fis.lba2, command.fis.lba3,
    command.fis.lba4, command.fis.lba5]

/-- The number of sectors; zero stands for all that the field can count. -/
def sectorCount : Nat := if command.fis.count = 0 then 65536 else command.fis.count.toNat

/-- The number of bytes, which has the bits up to 21. -/
def bytes : Nat := command.byteCount.toNat % 2 ^ 22

/-- The command reads the sectors of a block to an address: all fields say so. -/
def Reads (block : DiskBlock) (paddr : UInt64) : Prop :=
  command.fis.command = kDmaReadExt ∧ command.lba = block.lba.toNat ∧
    command.sectorCount = block.size.toNat ∧ command.bytes = 512 * block.size.toNat ∧
    command.regionAddress = paddr

end IssuedCommand

/-- The commands read the sectors of the blocks, one after the other from an address on. -/
def ReadAll : UInt64 → List DiskBlock → List IssuedCommand → Prop
  | _, [], commands => commands = []
  | _, _ :: _, [] => False
  | paddr, block :: blocks, command :: commands =>
    command.Reads block paddr ∧
      ReadAll (paddr + UInt64.ofNat (512 * block.size.toNat)) blocks commands

/-- The number of sectors and the address fit in the fields of a command. -/
def DiskBlock.Fits (block : DiskBlock) : Prop :=
  0 < block.size.toNat ∧ block.size.toNat < 8192 ∧ block.lba.toNat < 2 ^ 48

theorem toNat_byte (x : UInt64) {k : UInt64} (hk : k < 64) :
    (x >>> k &&& 0xFF).toUInt8.toNat = x.toNat / 2 ^ k.toNat % 256 := by
  have hmod : k.toNat % 64 = k.toNat := Nat.mod_eq_of_lt (UInt64.lt_iff_toNat_lt.mp hk)
  have hand : x.toNat >>> k.toNat &&& 0xFF = x.toNat >>> k.toNat % 256 :=
    Nat.and_two_pow_sub_one_eq_mod _ 8
  rw [UInt64.toNat_toUInt8, UInt64.toNat_and, UInt64.toNat_shiftRight, hmod]
  show (x.toNat >>> k.toNat &&& 0xFF) % 256 = _
  rw [hand, Nat.mod_mod, Nat.shiftRight_eq_div_pow]

/-- A free slot is all that a command needs, and it reads a block that fits. -/
theorem issueRead_spec {commandsIssued : BitVec 32}
    (hfree : ∃ slot < 32, commandsIssued.getLsbD slot = false) (block : DiskBlock) (paddr : UInt64) :
    ∃ command, issueRead commandsIssued block.lba block.size.toUInt16 paddr = .ok command ∧
      (command.Reads block paddr ↔ block.Fits) := by
  obtain ⟨slot, hlt, hslot⟩ := hfree
  have hfind : ((range 32).find? fun slot => !commandsIssued.getLsbD slot).isSome :=
    find?_isSome.mpr ⟨slot, mem_range.mpr hlt, by rw [hslot]; rfl⟩
  obtain ⟨found, hfound⟩ := Option.isSome_iff_exists.mp hfind
  refine ⟨_, by rw [issueRead, issueCommand, hfound], ?_⟩
  have haddress : ofLittleEndian [(block.lba &&& 0xFF).toUInt8, (block.lba >>> 8 &&& 0xFF).toUInt8,
      (block.lba >>> 16 &&& 0xFF).toUInt8, (block.lba >>> 24 &&& 0xFF).toUInt8,
      (block.lba >>> 32 &&& 0xFF).toUInt8, (block.lba >>> 40 &&& 0xFF).toUInt8] =
      block.lba.toNat % 2 ^ 48 := by
    have hlow := toNat_byte block.lba (k := 0) (by decide)
    rw [shiftRight_zero] at hlow
    simp only [ofLittleEndian, hlow, toNat_byte block.lba (by decide : (8 : UInt64) < 64),
      toNat_byte block.lba (by decide : (16 : UInt64) < 64),
      toNat_byte block.lba (by decide : (24 : UInt64) < 64),
      toNat_byte block.lba (by decide : (32 : UInt64) < 64),
      toNat_byte block.lba (by decide : (40 : UInt64) < 64), reduceToNat]
    omega
  have hcount : block.size.toUInt16.toNat = block.size.toNat % 65536 := toNat_toUInt16 _
  have hzero : block.size.toUInt16 = 0 ↔ block.size.toNat % 65536 = 0 := by
    rw [← UInt16.toNat_inj, hcount]
    rfl
  have hbytes : (512 * block.size.toUInt16.toUInt32).toNat = 512 * (block.size.toNat % 65536) := by
    rw [UInt32.toNat_mul, UInt16.toNat_toUInt32, hcount]
    show 512 * (block.size.toNat % 65536) % 2 ^ 32 = _
    omega
  simp only [IssuedCommand.Reads, IssuedCommand.lba, haddress, IssuedCommand.sectorCount, hzero, hcount,
    IssuedCommand.bytes, hbytes, DiskBlock.Fits, true_and, and_true]
  split
  · omega
  · omega

theorem handleReadMany_spec {commandsIssued : Nat → BitVec 32}
    (hfree : ∀ k, ∃ slot < 32, (commandsIssued k).getLsbD slot = false) (blocks : List DiskBlock)
    (regionPaddr : UInt64) :
    ∃ commands, handleReadMany commandsIssued regionPaddr blocks = .ok commands ∧
      (ReadAll regionPaddr blocks commands ↔ ∀ block ∈ blocks, block.Fits) := by
  induction blocks generalizing regionPaddr with
  | nil => exact ⟨[], rfl, by simp [ReadAll]⟩
  | cons block blocks ih =>
    obtain ⟨command, hcommand, hreads⟩ := issueRead_spec (hfree blocks.length) block regionPaddr
    obtain ⟨commands, hcommands, hrest⟩ := ih (regionPaddr + block.size * 512)
    refine ⟨command :: commands, by simp [handleReadMany, hcommand, hcommands]; rfl, ?_⟩
    have hnext : ofNat (512 * block.size.toNat) = block.size * 512 := by
      rw [UInt64.ofNat_mul, UInt64.ofNat_toNat, UInt64.mul_comm]
      rfl
    rw [ReadAll, hnext, hreads, hrest, forall_mem_cons]

/-- **Which blocks are read as a whole.** While there are free slots, the commands of `HandleReadMany` read
exactly the sectors of the blocks, back to back, if and only if every block has at least one and less than 8192
sectors and an address of 48 bits; and so does that of `HandleRead`. -/
theorem commands_read_iff {commandsIssued : Nat → BitVec 32}
    (hfree : ∀ k, ∃ slot < 32, (commandsIssued k).getLsbD slot = false) (regionPaddr : UInt64) :
    (∀ blocks, ∃ commands, handleReadMany commandsIssued regionPaddr blocks = .ok commands ∧
      (ReadAll regionPaddr blocks commands ↔ ∀ block ∈ blocks, block.Fits)) ∧
    ∀ block, ∃ command, handleRead (commandsIssued 0) block regionPaddr = .ok command ∧
      (command.Reads block regionPaddr ↔ block.Fits) :=
  ⟨fun blocks => handleReadMany_spec hfree blocks regionPaddr, fun block => issueRead_spec (hfree 0) block regionPaddr⟩

theorem commands_read_iff_two : ∃ commands, handleReadMany (fun _ => 1) 0x1000 [⟨10, 8⟩, ⟨100, 2⟩] = .ok commands ∧
      ReadAll 0x1000 [⟨10, 8⟩, ⟨100, 2⟩] commands := by
  obtain ⟨commands, hcommands, hiff⟩ := (@commands_read_iff (fun _ => 1)
    (fun _ => ⟨1, by decide, rfl⟩) 0x1000).1 [⟨10, 8⟩, ⟨100, 2⟩]
  refine ⟨commands, hcommands, hiff.mpr ?_⟩
  simp [DiskBlock.Fits]

/-- Of 65537 sectors one is read, and the command for 8192 sectors has no room for any. -/
theorem large_blocks_truncated :
    ∃ c d, handleReadMany (fun _ => 0) 0x1000 [⟨0, 0x10001⟩, ⟨0x20000, 0x2000⟩] = .ok [c, d] ∧
      c.sectorCount = 1 ∧ d.bytes = 0 :=
  ⟨_, _, rfl, by decide, by decide⟩

end Acadia.Denali
