import Acadia.Denali.AhciPort
import Mathlib.Data.BitVec

/-! # Commands of a port run once

The client and the handler each change two bitmaps in several accesses. In every run in which these do not
overlap, and the device completes nothing between the read and the write of `command_issue |=`, each slot says
how often its command was run and signalled (`View.Core`), and the handler finds every slot that is done
(`AhciPort.Inv`). -/

namespace Acadia.Denali

open Function List BitVec

/-! ## Bits -/

theorem getLsbD_bit (i j : Nat) : (bit i).getLsbD j = (decide (j < 32) && decide (j = i)) := by
  rw [bit, getLsbD_shiftLeft]
  by_cases hij : j = i
  · subst hij
    simp
  · by_cases hlt : j < i
    · simp [hlt, hij]
    · have hne : j - i ≠ 0 := by omega
      simp [hlt, hij, hne]

theorem and_bit_eq_zero_iff (x : BitVec 32) (i : Nat) : x &&& bit i = 0 ↔ x.getLsbD i = false := by
  constructor
  · intro h
    by_cases hi : i < 32
    · have hbit : (x &&& bit i).getLsbD i = false := by
        rw [h, ofNat_eq_ofNat, getLsbD_zero]
      rw [getLsbD_and, getLsbD_bit] at hbit
      simpa only [hi, decide_true, Bool.and_true] using hbit
    · exact getLsbD_of_ge x i (by omega)
  · intro h
    apply eq_of_getLsbD_eq
    intro j hj
    by_cases hij : j = i
    · subst hij
      simp [h]
    · simp [getLsbD_bit, hij]

@[simp] theorem getLsbD_or_bit (x : BitVec 32) {i : Nat} (hi : i < 32) (j : Nat) :
    (x ||| bit i).getLsbD j = (x.getLsbD j || decide (j = i)) := by
  rw [getLsbD_or, getLsbD_bit]
  by_cases hij : j = i
  · simp [hij, hi]
  · simp [hij]

@[simp] theorem getLsbD_and_not_bit (x : BitVec 32) (i j : Nat) :
    (x &&& ~~~bit i).getLsbD j = (x.getLsbD j && !decide (j = i)) := by
  by_cases hj : j < 32
  · simp only [getLsbD_and, getLsbD_not, getLsbD_bit, hj, decide_true, Bool.true_and]
  · rw [getLsbD_and, getLsbD_of_ge x j (by omega), Bool.false_and, Bool.false_and]


/-! ## Slots and commands -/

theorem AhciPort.tally_apply (f : Nat → Nat) (c d : Nat) : tally f c d = if d = c then f c + 1 else f d := by
  rw [tally, update_apply]

/-- What the slots are used for, apart from where the threads are. -/
structure View where
  issued : Nat → Bool
  pending : Nat → Bool
  /-- The slot that the client is issuing a command in, the parts of its table that are still to be
  written, and whether it is in `commands_issued_` already. -/
  slot : Option Nat
  parts : List TablePart
  marked : Bool
  /-- The slot that the handler has signalled and is about to clear. -/
  clearing : Option Nat
  table : Nat → TablePart → Nat
  owner : Nat → Nat
  count : Nat
  runs : Nat → Nat
  signals : Nat → Nat

namespace View

variable {v : View} {k : Nat} {bits : Nat → Bool}

/-- The slot has a command. -/
def used (v : View) (i : Nat) : Bool := v.issued i || v.slot == some i

/-- The device has run the command of the slot. -/
def done (v : View) (i : Nat) : Bool := v.issued i && !v.pending i && v.slot != some i

/-- **Each command was run and signalled as often as its slot says.** -/
structure Core (v : View) : Prop where
  lt : ∀ i, v.slot = some i → i < 32
  marked : ∀ i, v.slot = some i → v.issued i = v.marked
  pending : ∀ i, v.pending i = true → v.issued i = true ∧ v.slot ≠ some i
  clearing : ∀ i, v.clearing = some i → v.done i = true
  runs : ∀ i, v.used i = true → v.runs (v.owner i) = if v.done i = true then 1 else 0
  signals : ∀ i, v.used i = true → v.signals (v.owner i) = if v.clearing = some i then 1 else 0
  table : ∀ i, v.used i = true → ∀ part ∈ tableParts, (v.slot = some i → part ∉ v.parts) →
    v.table i part = v.owner i
  owner : ∀ i, v.used i = true → v.owner i < v.count
  distinct : ∀ i j, v.used i = true → v.used j = true → v.owner i = v.owner j → i = j
  past : ∀ c < v.count, (v.runs c = 1 ∧ v.signals c = 1) ∨ ∃ i, v.used i = true ∧ v.owner i = c
  fresh : ∀ c, v.count ≤ c → v.runs c = 0 ∧ v.signals c = 0

theorem Core.select (h : v.Core) (hslot : v.slot = none) (hk : k < 32) (hfree : v.issued k = false) : Core { v with
      slot := some k, parts := tableParts, marked := false
      owner := update v.owner k v.count, count := v.count + 1 } := by
  have hpast : ∀ c < v.count + 1, (v.runs c = 1 ∧ v.signals c = 1) ∨
      ∃ i, (v.issued i || some k == some i) = true ∧ update v.owner k v.count i = c := by
    intro c hc
    by_cases hnew : c = v.count
    · exact .inr ⟨k, by simp, by simp [hnew]⟩
    · refine (h.past c (by omega)).imp id fun ⟨i, hi, hci⟩ => ⟨i, ?_, ?_⟩ <;>
        grind [used]
  constructor <;> grind [Core, used, done]

theorem Core.fill {part : TablePart} {parts : List TablePart} (h : v.Core) (hslot : v.slot = some k)
    (hparts : v.parts = part :: parts) :
    Core { v with parts, table := update v.table k (update (v.table k) part (v.owner k)) } := by
  refine { h with table := fun i hi p hp hnot => ?_ }
  show update v.table k (update (v.table k) part (v.owner k)) i p = v.owner i
  by_cases hik : i = k
  · subst hik
    rw [update_self]
    by_cases hpart : p = part
    · rw [hpart, update_self]
    · rw [update_of_ne hpart]
      exact h.table i hi p hp fun _ => by simp [hparts, hpart, hnot hslot]
  · rw [update_of_ne hik]
    exact h.table i hi p hp fun heq => absurd (Option.some.inj (heq.symm.trans hslot)) hik

/-- The client writes `commands_issued_`. -/
theorem Core.mark (h : v.Core) (hslot : v.slot = some k) (hmarked : v.marked = false)
    (hbits : ∀ i, bits i = (v.issued i || decide (i = k))) : Core { v with issued := bits, marked := true } := by
  -- the slot was in use before, and is not done
  have hused : used { v with issued := bits, marked := true } = v.used := by
    funext i
    grind [used]
  have hdone : done { v with issued := bits, marked := true } = v.done := by
    funext i
    grind [done]
  refine ⟨h.lt, ?_, ?_, ?_, ?_, ?_, ?_, ?_, ?_, ?_, h.fresh⟩ <;> simp only [hused, hdone]
  · grind
  · grind [Core]
  · exact h.clearing
  · exact h.runs
  · exact h.signals
  · exact h.table
  · exact h.owner
  · exact h.distinct
  · exact h.past

/-- The client writes `command_issue`. -/
theorem Core.issue (h : v.Core) (hslot : v.slot = some k) (hmarked : v.marked = true)
    (hparts : v.parts = []) (hbits : ∀ i, bits i = (v.pending i || decide (i = k))) :
    Core { v with pending := bits, slot := none, parts := [], marked := false } := by
  have hpast : ∀ c < v.count, (v.runs c = 1 ∧ v.signals c = 1) ∨
      ∃ i, (v.issued i || (none : Option Nat) == some i) = true ∧ v.owner i = c := by
    intro c hc
    refine (h.past c hc).imp id fun ⟨i, hi, hci⟩ => ⟨i, ?_, hci⟩
    grind [Core, used]
  constructor <;> grind [Core, used, done]

theorem Core.signal (h : v.Core) (hnone : v.clearing = none) (hk : v.done k = true) :
    Core { v with signals := AhciPort.tally v.signals (v.owner k), clearing := some k } := by
  have hpast : ∀ c < v.count, (v.runs c = 1 ∧ AhciPort.tally v.signals (v.owner k) c = 1) ∨
      ∃ i, (v.issued i || v.slot == some i) = true ∧ v.owner i = c := by
    intro c hc
    by_cases hck : v.owner k = c
    · exact .inr ⟨k, by grind [done], hck⟩
    · refine (h.past c hc).imp (fun hboth => ?_) id
      grind [AhciPort.tally_apply]
  constructor <;> grind [Core, used, done, AhciPort.tally_apply]

/-- The handler writes `commands_issued_`. -/
theorem Core.clear (h : v.Core) (hk : v.clearing = some k) (hbits : ∀ i, bits i = (v.issued i && !decide (i = k))) :
    Core { v with issued := bits, clearing := none } := by
  have hdone := h.clearing k hk
  have hissued : v.issued k = true := by grind [done]
  have hslot : v.slot ≠ some k := by grind [done]
  have hused : ∀ i, used { v with issued := bits, clearing := none } i = true ↔
      v.used i = true ∧ i ≠ k := by grind [used]
  have hkept : ∀ i, i ≠ k → done { v with issued := bits, clearing := none } i = v.done i := by
    grind [done]
  have hpast : ∀ c < v.count, (v.runs c = 1 ∧ v.signals c = 1) ∨ ∃ i, (v.used i = true ∧ i ≠ k) ∧ v.owner i = c := by
    intro c hc
    by_cases hck : v.owner k = c
    · -- the command of the slot was run and signalled
      have hk' : v.used k = true := by grind [used]
      have hruns := h.runs k hk'
      have hsignals := h.signals k hk'
      rw [if_pos hdone, hck] at hruns
      rw [if_pos hk, hck] at hsignals
      exact .inl ⟨hruns, hsignals⟩
    · refine (h.past c hc).imp id fun ⟨i, hi, hci⟩ => ⟨i, ⟨hi, ?_⟩, hci⟩
      rintro rfl
      exact hck hci
  refine ⟨h.lt, ?_, ?_, ?_, ?_, ?_, ?_, ?_, ?_, ?_, h.fresh⟩ <;> simp only [hused]
  · grind [Core]
  · grind [Core, done]
  · simp
  · grind [Core]
  · grind [Core]
  · exact fun i hi => h.table i hi.1
  · exact fun i hi => h.owner i hi.1
  · exact fun i j hi hj => h.distinct i j hi.1 hj.1
  · exact hpast

theorem Core.complete (h : v.Core) (hk : v.pending k = true) (hbits : ∀ i, bits i = (v.pending i && !decide (i = k))) :
    Core { v with pending := bits, runs := AhciPort.tally v.runs (v.owner k) } := by
  have hpast : ∀ c < v.count, (AhciPort.tally v.runs (v.owner k) c = 1 ∧ v.signals c = 1) ∨
      ∃ i, (v.issued i || v.slot == some i) = true ∧ v.owner i = c := by
    intro c hc
    by_cases hck : v.owner k = c
    · exact .inr ⟨k, by grind [Core], hck⟩
    · refine (h.past c hc).imp (fun hboth => ?_) id
      grind [AhciPort.tally_apply]
  constructor <;> grind [Core, used, done, AhciPort.tally_apply]

end View

/-! ## Where the threads are -/

/-- The slot that a call of `IssueCommand` has found. -/
def Client.slot : Client → Option Nat
  | .fill slot _ | .setIssued slot _ | .readIssue slot | .setIssue slot _ => some slot
  | _ => none

/-- The parts of the table that are still to be written. -/
def Client.parts : Client → List TablePart
  | .fill _ parts => parts
  | _ => []

/-- The command is in `commands_issued_`, and not yet in `command_issue`. -/
def Client.marked : Client → Bool
  | .readIssue _ | .setIssue _ _ => true
  | _ => false

/-- The call is between its first access of the bitmaps and its last. -/
def Client.busy : Client → Bool
  | .setIssued _ _ | .readIssue _ | .setIssue _ _ => true
  | _ => false

/-- The next access is the first of the bitmaps that the call makes to change them. -/
def Client.entering : Client → Bool
  | .fill _ [] => true
  | _ => false

/-- The call is between the read and the write of `command_issue |=`. -/
def Client.issuing : Client → Bool
  | .setIssue _ _ => true
  | _ => false

/-- The values that the client has read are still there. -/
def Client.Current (issued pending : BitVec 32) : Client → Prop
  | .scan slot => slot ≤ 32
  | .setIssued slot value => value = issued ||| bit slot
  | .setIssue slot value => value = pending ||| bit slot
  | _ => True

/-- The slot that was signalled and is still in `commands_issued_`. -/
def Irq.clearing : Irq → Option Nat
  | .readIssued _ i | .clearIssued _ i _ => some i
  | _ => none

/-- The call of `HandleIrq` is between its first access of the bitmaps and its end. -/
def Irq.busy : Irq → Bool
  | .readIssue _ | .loop _ _ | .readIssued _ _ | .clearIssued _ _ _ => true
  | _ => false

/-- The next access is the first of the bitmaps. -/
def Irq.entering : Irq → Bool
  | .check _ [] => true
  | _ => false

/-- What the call has read of `interrupt_status`. -/
def Irq.status : Irq → FisKind → Bool
  | .acknowledge status | .check status _ => status
  | _ => fun _ => false

/-- The call has yet to look at a slot that is done. -/
def Irq.WillFind : Irq → Nat → Prop
  | .idle, _ => False
  | .loop finished j, i | .readIssued finished j, i | .clearIssued finished j _, i =>
    j ≤ i ∧ finished.getLsbD i = true
  | _, _ => True

/-- The values that the handler has read are still there, and the slots it has found are done. -/
def Irq.Current (issued : BitVec 32) (done : Nat → Bool) : Irq → Prop
  | .readIssue value => value = issued
  | .loop finished j => ∀ i, j ≤ i → finished.getLsbD i = true → done i = true
  | .readIssued finished j => ∀ i, j < i → finished.getLsbD i = true → done i = true
  | .clearIssued finished j value => value = issued &&& ~~~bit j ∧
    ∀ i, j < i → finished.getLsbD i = true → done i = true
  | _ => True

theorem Client.Current.of_not_busy {client : Client} {issued pending issued' pending' : BitVec 32}
    (h : client.Current issued pending) (hbusy : client.busy = false) : client.Current issued' pending' := by
  cases client <;> first | exact h | cases hbusy

theorem Irq.Current.of_not_busy {irq : Irq} {issued : BitVec 32} {done : Nat → Bool}
    (h : irq.busy = false) : irq.Current issued done := by
  cases irq <;> trivial

theorem Irq.Current.mono {irq : Irq} {issued : BitVec 32} {done done' : Nat → Bool} (h : irq.Current issued done)
    (hdone : ∀ i, done i = true → done' i = true) : irq.Current issued done' := by
  cases irq with
  | loop | readIssued => exact fun i hj hi => hdone i (h i hj hi)
  | clearIssued => exact ⟨h.1, fun i hj hi => hdone i (h.2 i hj hi)⟩
  | _ => exact h

namespace AhciPort

variable {s s' : AhciPort}

/-- The slots of a port. -/
def view (s : AhciPort) : View where
  issued i := s.commandsIssued.getLsbD i
  pending i := s.commandIssue.getLsbD i
  slot := s.client.slot
  parts := s.client.parts
  marked := s.client.marked
  clearing := s.irq.clearing
  table := s.table
  owner := s.owner
  count := s.count
  runs := s.runs
  signals := s.signals

/-- **The bitmaps, the threads and the commands agree.** -/
structure Inv (s : AhciPort) : Prop where
  core : s.view.Core
  /-- At most one thread is busy with the bitmaps. -/
  apart : s.client.busy = false ∨ s.irq.busy = false
  client : s.client.Current s.commandsIssued s.commandIssue
  irq : s.irq.Current s.commandsIssued s.view.done
  /-- The handler finds the slots that are done, in this call or after the next interrupt. -/
  noted : ∀ i, s.view.done i = true → s.irq.clearing ≠ some i →
    (∃ kind, s.interruptStatus kind = true) ∨ s.irq.WillFind i
  /-- An interrupt comes with its FIS. -/
  fis : ∀ kind, s.interruptStatus kind = true ∨ s.irq.status kind = true → s.receivedFis kind = true

/-- **Neither thread takes up the bitmaps while the other is busy with them**, and the device
completes no command between the read and the write of `command_issue |=`. -/
def Apart (s : AhciPort) : Event → Prop
  | .client => s.client.entering = true → s.irq.busy = false
  | .irq => s.irq.entering = true → s.client.busy = false
  | .complete _ _ => s.client.issuing = false

instance (s : AhciPort) : (e : Event) → Decidable (s.Apart e)
  | .client | .irq => inferInstanceAs (Decidable (_ → _))
  | .complete _ _ => inferInstanceAs (Decidable (_ = _))

theorem inv_default : Inv {} := by
  refine ⟨?_, .inl rfl, trivial, trivial, ?_, ?_⟩
  · constructor <;> grind [View.used, View.done, view, Client.slot, Irq.clearing]
  · simp [view, View.done]
  · simp [Irq.status]

/-- **An access of the client.** What it writes into the bitmaps is what they are, with one more
command. -/
theorem Inv.clientStep (h : s.Inv) (hok : s.Apart .client) : s.clientStep.Inv := by
  obtain ⟨issued, pending, status, received, table, owner, count, runs, signals, client, irq⟩ := s
  obtain ⟨hcore, hapart, hclient, hirq, hnoted, hfis⟩ := h
  cases client with
  | idle => exact ⟨hcore, .inl rfl, Nat.zero_le 32, hirq, hnoted, hfis⟩
  | scan slot =>
    have hle : slot ≤ 32 := hclient
    rw [AhciPort.clientStep]
    dsimp only
    split
    · exact ⟨hcore, .inl rfl, trivial, hirq, hnoted, hfis⟩
    split
    · rename_i hend hfree
      rw [and_bit_eq_zero_iff] at hfree
      -- the slot was not in use, and so it was not done
      have hdone : ∀ i, (issued.getLsbD i && !pending.getLsbD i && some slot != some i) =
          (issued.getLsbD i && !pending.getLsbD i && none != some i) := by
        grind
      exact ⟨hcore.select rfl (by omega) hfree, .inl rfl, trivial, hirq.mono fun i hi => (hdone i).trans hi,
        fun i hi => hnoted i ((hdone i).symm.trans hi), hfis⟩
    · rename_i hend _
      exact ⟨hcore, .inl rfl, Nat.lt_of_le_of_ne hle hend, hirq, hnoted, hfis⟩
  | fill _ parts =>
    cases parts with
    | nil => exact ⟨hcore, .inr (hok rfl), rfl, hirq, hnoted, hfis⟩
    | cons => exact ⟨hcore.fill rfl rfl, .inl rfl, trivial, hirq, hnoted, hfis⟩
  | setIssued slot value =>
    obtain rfl : value = issued ||| bit slot := hclient
    have hlt := hcore.lt slot rfl
    have hidle : irq.busy = false := hapart.resolve_left nofun
    refine ⟨hcore.mark rfl rfl (getLsbD_or_bit issued hlt), .inr hidle, trivial,
      .of_not_busy hidle, fun i hi => hnoted i ?_, hfis⟩
    replace hi : ((issued ||| bit slot).getLsbD i && !pending.getLsbD i && some slot != some i) = true := hi
    rw [getLsbD_or_bit issued hlt] at hi
    show (issued.getLsbD i && !pending.getLsbD i && some slot != some i) = true
    grind
  | readIssue => exact ⟨hcore, hapart, rfl, hirq, hnoted, hfis⟩
  | setIssue slot value =>
    obtain rfl : value = pending ||| bit slot := hclient
    have hlt := hcore.lt slot rfl
    have hidle : irq.busy = false := hapart.resolve_left nofun
    have hbits : ∀ i, (pending ||| (pending ||| bit slot)).getLsbD i = (pending.getLsbD i || decide (i = slot)) := by
      intro i
      rw [getLsbD_or, getLsbD_or_bit _ hlt, ← Bool.or_assoc, Bool.or_self]
    refine ⟨hcore.issue rfl rfl rfl hbits, .inl rfl, trivial, .of_not_busy hidle, fun i hi => hnoted i ?_, hfis⟩
    replace hi : (issued.getLsbD i && !(pending ||| (pending ||| bit slot)).getLsbD i && none != some i) = true := hi
    show (issued.getLsbD i && !pending.getLsbD i && some slot != some i) = true
    grind

/-- **An access of the handler.** -/
theorem Inv.irqStep (h : s.Inv) (hok : s.Apart .irq) : s.irqStep.Inv := by
  obtain ⟨issued, pending, status, received, table, owner, count, runs, signals, client, irq⟩ := s
  obtain ⟨hcore, hapart, hclient, hirq, hnoted, hfis⟩ := h
  cases irq with
  | idle =>
    exact ⟨hcore, .inr rfl, hclient, trivial, fun _ _ _ => .inr trivial,
      fun kind hk => hfis kind (.inl (or_self_iff.mp hk))⟩
  | acknowledge =>
    refine ⟨hcore, .inr rfl, hclient, trivial, fun _ _ _ => .inr trivial, fun kind hk => hfis kind ?_⟩
    exact hk.imp (fun hkind => (Bool.and_eq_true_iff.mp hkind).1) id
  | check read kinds =>
    cases kinds with
    | nil =>
      exact ⟨hcore, .inl (hok rfl), hclient, rfl, fun _ _ _ => .inr trivial,
        fun kind hk => hfis kind (.inl (hk.resolve_right nofun))⟩
    | cons kind =>
      have hread : read kind = true → received kind = true := fun hk => hfis kind (.inr hk)
      have hno : ¬ (read kind && !received kind) = true := by
        grind
      rw [AhciPort.irqStep]
      dsimp only
      rw [if_neg hno]
      exact ⟨hcore, .inr rfl, hclient, trivial, fun _ _ _ => .inr trivial, hfis⟩
  | readIssue value =>
    obtain rfl : value = issued := hirq
    have hidle : client.busy = false := hapart.resolve_right nofun
    -- a command that is being issued is not in the bitmap
    have hdone : ∀ i, (value.getLsbD i && !pending.getLsbD i) = true →
        (value.getLsbD i && !pending.getLsbD i && client.slot != some i) = true := by
      intro i hi
      have hmarked := hcore.marked i
      cases client <;> grind [view, Client.slot, Client.marked, Client.busy]
    have hfinished : ∀ i, (value &&& ~~~pending).getLsbD i = (value.getLsbD i && !pending.getLsbD i) := by
      intro i
      by_cases hi : i < 32
      · rw [getLsbD_and, getLsbD_not, decide_eq_true hi, Bool.true_and]
      · rw [getLsbD_and, getLsbD_of_ge value i (by omega), Bool.false_and, Bool.false_and]
    refine ⟨hcore, .inl hidle, hclient, fun i _ hi => hdone i ((hfinished i).symm.trans hi),
      fun i hi _ => .inr ⟨Nat.zero_le i, ?_⟩, hfis⟩
    rw [hfinished]
    exact (Bool.and_eq_true_iff.mp hi).1
  | loop finished j =>
    rw [AhciPort.irqStep]
    dsimp only
    split
    · rename_i hend
      refine ⟨hcore, .inr rfl, hclient, trivial, fun i hi hne => ?_, hfis⟩
      refine (hnoted i hi hne).imp id fun hfind => ?_
      rw [hend] at hfind
      exact absurd (hfind.2.symm.trans (getLsbD_of_ge finished i hfind.1)) nofun
    split
    · rename_i hzero
      rw [and_bit_eq_zero_iff] at hzero
      refine ⟨hcore, hapart, hclient, fun i hi => hirq i (Nat.le_of_succ_le hi),
        fun i hi hne => (hnoted i hi hne).imp id fun hfind => ⟨?_, hfind.2⟩, hfis⟩
      refine Nat.lt_of_le_of_ne hfind.1 ?_
      rintro rfl
      exact absurd (hfind.2.symm.trans hzero) nofun
    · rename_i hone
      rw [and_bit_eq_zero_iff, Bool.not_eq_false] at hone
      exact ⟨hcore.signal rfl (hirq j (le_refl j) hone), hapart, hclient,
        fun i hi => hirq i (Nat.le_of_lt hi), fun i hi _ => hnoted i hi nofun, hfis⟩
  | readIssued => exact ⟨hcore, hapart, hclient, ⟨rfl, hirq⟩, hnoted, hfis⟩
  | clearIssued _ j value =>
    obtain ⟨hvalue, hrest⟩ := hirq
    obtain rfl : value = issued &&& ~~~bit j := hvalue
    have hidle : client.busy = false := hapart.resolve_right nofun
    have hdone : ∀ i, ((issued &&& ~~~bit j).getLsbD i && !pending.getLsbD i && client.slot != some i) = true ↔
        (issued.getLsbD i && !pending.getLsbD i && client.slot != some i) = true ∧ i ≠ j := by
      intro i
      rw [getLsbD_and_not_bit]
      grind
    refine ⟨hcore.clear rfl (getLsbD_and_not_bit issued j), .inl hidle, hclient.of_not_busy hidle,
      fun i hi hf => (hdone i).mpr ⟨hrest i hi hf, by omega⟩, fun i hi _ => ?_, hfis⟩
    obtain ⟨hold, hne⟩ := (hdone i).mp hi
    refine (hnoted i hold fun heq => hne (Option.some.inj heq).symm).imp id fun hfind => ?_
    exact ⟨Nat.lt_of_le_of_ne hfind.1 (Ne.symm hne), hfind.2⟩

/-- **The device completes a command.** -/
theorem Inv.completeStep {slot : Nat} {kind : FisKind} (h : s.Inv) (hok : s.Apart (.complete slot kind))
    (hbit : s.commandIssue.getLsbD slot = true) : (s.completeStep slot kind).Inv := by
  obtain ⟨hcore, hapart, hclient, hirq, hnoted, hfis⟩ := h
  obtain ⟨hissued, hslot⟩ := hcore.pending slot hbit
  -- the whole table is from the command of the slot
  have hused : s.view.used slot = true := by
    rw [View.used, hissued, Bool.true_or]
  have htable : ∀ part ∈ tableParts, s.table slot part = s.owner slot := fun part hpart =>
    hcore.table slot hused part hpart fun heq => absurd heq hslot
  have hfis' : s.table slot .commandFis = s.owner slot := htable _ (by decide)
  have hruns : (s.completeStep slot kind).runs = tally s.runs (s.owner slot) := by
    rw [AhciPort.completeStep]
    rw [hfis', if_pos htable]
  have hbits := getLsbD_and_not_bit s.commandIssue slot
  refine ⟨?_, hapart, ?_, hirq.mono fun i hi => ?_, fun i _ _ => .inl ⟨kind, ?_⟩, ?_⟩
  · have hview : (s.completeStep slot kind).view = { s.view with
        pending := fun i => (s.commandIssue &&& ~~~bit slot).getLsbD i
        runs := tally s.runs (s.owner slot) } := by
      rw [← hruns]
      rfl
    rw [hview]
    exact hcore.complete hbit hbits
  · show s.client.Current s.commandsIssued (s.commandIssue &&& ~~~bit slot)
    cases hc : s.client with
    | setIssue => exact absurd (congrArg Client.issuing hc) (by rw [hok]; nofun)
    | _ =>
      rw [hc] at hclient
      exact hclient
  · show (s.commandsIssued.getLsbD i && !(s.commandIssue &&& ~~~bit slot).getLsbD i && s.client.slot != some i) = true
    replace hi : (s.commandsIssued.getLsbD i && !s.commandIssue.getLsbD i && s.client.slot != some i) = true := hi
    grind
  · exact update_self ..
  · intro k hk
    show update s.receivedFis kind true k = true
    by_cases heq : k = kind
    · rw [heq, update_self]
    · rw [update_of_ne heq]
      refine hfis k (hk.imp (fun hs => ?_) id)
      rwa [show (s.completeStep slot kind).interruptStatus k = s.interruptStatus k from
        update_of_ne heq _ _] at hs

/-- **One event.** -/
theorem Inv.step {e : Event} (h : s.Inv) (hok : s.Apart e) (hstep : s.step e = some s') : s'.Inv := by
  cases e with
  | client =>
    cases hstep
    exact h.clientStep hok
  | irq =>
    cases hstep
    exact h.irqStep hok
  | complete =>
    rw [AhciPort.step] at hstep
    split at hstep
    · rename_i hpending
      cases hstep
      rw [Ne, and_bit_eq_zero_iff, Bool.not_eq_false] at hpending
      exact h.completeStep hok hpending.2
    · cases hstep

/-- A command that `IssueCommand` has accepted: it got a slot, and its call has returned. -/
def Accepted (s : AhciPort) (c : Nat) : Prop :=
  c < s.count ∧ ∀ slot, s.client.slot = some slot → s.owner slot ≠ c

/-- The device has nothing to run, and there is no interrupt left to handle. -/
def Quiet (s : AhciPort) : Prop :=
  s.commandIssue = 0 ∧ (∀ kind, s.interruptStatus kind = false) ∧ s.irq = .idle

theorem Inv.once (h : s.Inv) {c : Nat} : s.runs c ≤ 1 ∧ s.signals c ≤ s.runs c := by
  rcases Nat.lt_or_ge c s.count with hlt | hge
  · rcases h.core.past c hlt with ⟨hruns, hsignals⟩ | ⟨i, hi, rfl⟩
    · exact ⟨Nat.le_of_eq hruns, Nat.le_of_eq (hsignals.trans hruns.symm)⟩
    · have hruns : s.runs (s.view.owner i) = _ := h.core.runs i hi
      have hsignals : s.signals (s.view.owner i) = _ := h.core.signals i hi
      have hclearing := h.core.clearing i
      rw [hruns, hsignals]
      split_ifs <;> simp_all
  · obtain ⟨hruns, hsignals⟩ := h.core.fresh c hge
    exact ⟨Nat.le_succ_of_le (Nat.le_of_eq hruns), Nat.le_of_eq (hsignals.trans hruns.symm)⟩

theorem Inv.quiet (h : s.Inv) (hquiet : s.Quiet) {c : Nat} (hc : s.Accepted c) : s.runs c = 1 ∧ s.signals c = 1 := by
  obtain ⟨hissue, hstatus, hidle⟩ := hquiet
  rcases h.core.past c hc.1 with hpast | ⟨i, hi, hci⟩
  · exact hpast
  have hslot : s.client.slot ≠ some i := fun heq => hc.2 i heq hci
  have hdone : s.view.done i = true := by
    have hzero : s.view.pending i = false := by
      show s.commandIssue.getLsbD i = false
      rw [hissue, ofNat_eq_ofNat, getLsbD_zero]
    have hslot' : s.view.slot ≠ some i := hslot
    grind [View.used, View.done]
  rcases h.noted i hdone (by rw [hidle]; nofun) with ⟨kind, hkind⟩ | hfind
  · exact absurd (hkind.symm.trans (hstatus kind)) nofun
  · rw [hidle] at hfind
    exact hfind.elim

/-- **Commands run and are signalled once** in every run in which the accesses of the bitmaps are apart: no
command is ever run twice, signalled twice, or signalled before it was run; and when the device and the handler
have nothing left to do, every accepted command was run and signalled. -/
theorem run_commands_once {events : List Event} {s : AhciPort} (hok : Runs.Meets step Apart {} events)
    (hrun : Runs.run step {} events = some s) :
    (∀ c, s.runs c ≤ 1 ∧ s.signals c ≤ s.runs c) ∧ (s.Quiet → ∀ c, s.Accepted c → s.runs c = 1 ∧ s.signals c = 1) := by
  have hinv : s.Inv :=
    Runs.run_invariant (fun _ _ _ h hok hstep => Inv.step h hok hstep) inv_default hok hrun
  exact ⟨fun _ => hinv.once, fun hquiet _ hc => hinv.quiet hquiet hc⟩

/-- Two commands: the first one completes while the second is written into its slot, and `HandleIrq` has
already begun when that is issued. -/
def twoCommands : List Event :=
  replicate 17 .client ++ .complete 0 .d2h :: replicate 6 .irq ++ replicate 8 .client ++
    replicate 37 .irq ++ .complete 1 .pio :: replicate 43 .irq

set_option maxRecDepth 2000 in
theorem run_commands_once_twoCommands : ∃ s, Runs.run step {} twoCommands = some s ∧
    ∀ c < 2, s.runs c = 1 ∧ s.signals c = 1 := by
  refine ⟨_, rfl, fun c hc => (@run_commands_once twoCommands _ (by decide +kernel) rfl).2 ?_ c ?_⟩
  · exact ⟨by decide +kernel, fun kind => by cases kind <;> rfl, rfl⟩
  · exact ⟨hc, nofun⟩

/-- **A command is signalled before the device runs it** when `HandleIrq` reads the bitmaps between the
two `|=` of `IssueCommand`. -/
theorem command_signalled_too_early : ∃ events s, Runs.run step {} events = some s ∧ s.Accepted 0 ∧
    s.signals 0 = 1 ∧ s.runs 0 = 0 :=
  ⟨replicate 10 .client ++ replicate 9 .irq ++ replicate 2 .client, _, rfl,
    ⟨by decide +kernel, nofun⟩, by decide +kernel, by decide +kernel⟩

end AhciPort

end Acadia.Denali
