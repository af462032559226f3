import Acadia.Foundations.Runs

/-! # `AhciPort`

`IssueCommand` and `HandleIrq` of `sys/denali/ahci/ahci_port.cpp`, with the device. Each access to a
register, to a shared field or to a command table is one step; a program counter says which access a thread
makes next and holds what it has read. Of the operands of `&` the left one is read first. What only serves
debug output is left out.

Commands are numbered in the order in which they get a slot. The tables hold the number of the command that
wrote each part; ghost counters say how often a command was run and its semaphore signalled. -/

namespace Acadia.Denali

/-- The parts of a command table and of a command header, in the order in which they are written. -/
inductive TablePart where
  | commandFis
  | regionAddress
  | byteCount
  | prdTableLength
  | command
  /-- `command`, with the prefetch bit. -/
  | prefetch
  deriving DecidableEq

/-- All parts, first to last. -/
def tableParts : List TablePart :=
  [.commandFis, .regionAddress, .byteCount, .prdTableLength, .command, .prefetch]

/-- The kinds of FIS whose type `HandleIrq` checks, in its order. -/
inductive FisKind where
  /-- `kInterrupt_D2H_FIS`. -/
  | d2h
  /-- `kInterrupt_PIO_FIS`. -/
  | pio
  /-- `kInterrupt_DMA_FIS`. -/
  | dma
  /-- `kInterrupt_DeviceBits_FIS`. -/
  | deviceBits
  deriving DecidableEq

/-- The kinds in the order of the checks. -/
def fisKinds : List FisKind := [.d2h, .pio, .dma, .deviceBits]

/-- The next access of the client thread, in `IssueCommand`. -/
inductive Client where
  /-- It is not in a call. -/
  | idle
  /-- The loop looks at a slot. -/
  | scan (slot : Nat)
  /-- Parts of the table of the slot are still to be written. -/
  | fill (slot : Nat) (parts : List TablePart)
  /-- `commands_issued_ |=` writes. -/
  | setIssued (slot : Nat) (value : BitVec 32)
  /-- `command_issue |=` reads. -/
  | readIssue (slot : Nat)
  /-- `command_issue |=` writes. -/
  | setIssue (slot : Nat) (value : BitVec 32)
  deriving DecidableEq

/-- The next access of the interrupt thread, in `HandleIrq`. -/
inductive Irq where
  /-- It reads `interrupt_status`, or is not in a call. -/
  | idle
  /-- It writes back what it has read. -/
  | acknowledge (status : FisKind → Bool)
  /-- It checks the type of a FIS; after the last it reads `commands_issued_`. -/
  | check (status : FisKind → Bool) (kinds : List FisKind)
  /-- It reads `command_issue`. -/
  | readIssue (issued : BitVec 32)
  /-- The loop over `commands_finished`. -/
  | loop (finished : BitVec 32) (i : Nat)
  /-- `commands_issued_ &=` reads. -/
  | readIssued (finished : BitVec 32) (i : Nat)
  /-- `commands_issued_ &=` writes. -/
  | clearIssued (finished : BitVec 32) (i : Nat) (value : BitVec 32)

/-- An `AhciPort`, its registers, its two threads and the device. -/
structure AhciPort where
  commandsIssued : BitVec 32 := 0
  commandIssue : BitVec 32 := 0
  interruptStatus : FisKind → Bool := fun _ => false
  /-- Whether the area of a kind holds a FIS of that type. -/
  receivedFis : FisKind → Bool := fun _ => false
  /-- Which command wrote the parts of the tables. -/
  table : Nat → TablePart → Nat := fun _ _ => 0
  /-- The last command that got a slot. -/
  owner : Nat → Nat := fun _ => 0
  /-- How many commands have got a slot. -/
  count : Nat := 0
  /-- How often the device ran a command. -/
  runs : Nat → Nat := fun _ => 0
  /-- How often the semaphore was signalled for a command. -/
  signals : Nat → Nat := fun _ => 0
  client : Client := .idle
  irq : Irq := .idle

/-- One access of a thread or one act of the device. -/
inductive Event where
  /-- The client thread goes on; from `idle` it calls `IssueCommand`. -/
  | client
  /-- The interrupt thread goes on; from `idle` it calls `HandleIrq`. -/
  | irq
  /-- The device completes the command of a slot and sends a FIS. -/
  | complete (slot : Nat) (kind : FisKind)
  deriving DecidableEq

/-- `1 << slot`. -/
def bit (slot : Nat) : BitVec 32 := 1#32 <<< slot

namespace AhciPort

/-- One more for a command. -/
def tally (f : Nat → Nat) (c : Nat) : Nat → Nat := Function.update f c (f c + 1)

/-- `IssueCommand`, one access. -/
def clientStep (s : AhciPort) : AhciPort :=
  match s.client with
  | .idle => { s with client := .scan 0 }
  | .scan slot =>
    if slot = 32 then { s with client := .idle }
    else if s.commandsIssued &&& bit slot = 0 then
      { s with
        owner := Function.update s.owner slot s.count
        count := s.count + 1
        client := .fill slot tableParts }
    else { s with client := .scan (slot + 1) }
  | .fill slot (part :: parts) =>
    { s with
      table := Function.update s.table slot (Function.update (s.table slot) part (s.owner slot))
      client := .fill slot parts }
  | .fill slot [] => { s with client := .setIssued slot (s.commandsIssued ||| bit slot) }
  | .setIssued slot value => { s with commandsIssued := value, client := .readIssue slot }
  | .readIssue slot => { s with client := .setIssue slot (s.commandIssue ||| bit slot) }
  | .setIssue _ value => { s with commandIssue := s.commandIssue ||| value, client := .idle }

/-- `HandleIrq`, one access. -/
def irqStep (s : AhciPort) : AhciPort :=
  match s.irq with
  | .idle => { s with irq := .acknowledge s.interruptStatus }
  | .acknowledge status =>
    { s with
      interruptStatus := fun kind => s.interruptStatus kind && !status kind
      irq := .check status fisKinds }
  | .check status (kind :: kinds) =>
    if status kind && !s.receivedFis kind then { s with irq := .idle }
    else { s with irq := .check status kinds }
  | .check _ [] => { s with irq := .readIssue s.commandsIssued }
  | .readIssue issued => { s with irq := .loop (issued &&& ~~~s.commandIssue) 0 }
  | .loop finished i =>
    if i = 32 then { s with irq := .idle }
    else if finished &&& bit i = 0 then { s with irq := .loop finished (i + 1) }
    else { s with signals := tally s.signals (s.owner i), irq := .readIssued finished i }
  | .readIssued finished i => { s with irq := .clearIssued finished i (s.commandsIssued &&& ~~~bit i) }
  | .clearIssued finished i value =>
    { s with commandsIssued := value, irq := .loop finished (i + 1) }

/-- The device runs what stands in the table of a slot and clears its bit. A table whose parts are not
from one command is no command. -/
def completeStep (s : AhciPort) (slot : Nat) (kind : FisKind) : AhciPort :=
  { s with
    commandIssue := s.commandIssue &&& ~~~bit slot
    interruptStatus := Function.update s.interruptStatus kind true
    receivedFis := Function.update s.receivedFis kind true
    runs :=
      if ∀ part ∈ tableParts, s.table slot part = s.table slot .commandFis then
        tally s.runs (s.table slot .commandFis)
      else s.runs }

/-- One event. The device completes only commands that are issued. -/
def step (s : AhciPort) : Event → Option AhciPort
  | .client => some s.clientStep
  | .irq => some s.irqStep
  | .complete slot kind =>
    if slot < 32 ∧ s.commandIssue &&& bit slot ≠ 0 then some (s.completeStep slot kind) else none

end AhciPort

end Acadia.Denali
