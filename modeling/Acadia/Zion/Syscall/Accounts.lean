import Acadia.Foundations.Custody
import Acadia.Zion.Syscall.Handler

/-! # Where capabilities are

The capabilities in tables and waiting messages are tokens in the sense of `Custody`. A part of a system call
is `Accounted`: with those it carries, they come from the ones held when the call began, and new ones are of
an allowed kind. -/

namespace Acadia.Zion

open Glacier Command List Option

/-! ## Tokens, messages and types -/

namespace Kernel

/-- All capabilities in tables and messages, each as often as it is there. -/
def held (s : Kernel) : Multiset Capability := s.allCaps

/-- All messages that wait. -/
def messages (s : Kernel) : List IpcMessage := s.objects.flatMap KernelObject.messages

/-- The type of an object. -/
def tag (s : Kernel) (o : Nat) : Option ObjectType := (s.objects[o]?).map KernelObject.typeTag

/-- What `ValidateCapability` asks for: there is a capability under the id, for an object of the type
and with the permissions. -/
def HasValid (s : Kernel) (p : Nat) (id : UInt64) (type : ObjectType) (permissions : UInt64) : Prop :=
  ∃ c ∈ s.capability p id, s.tag c.obj = some type ∧ c.hasPermissions permissions = true

end Kernel

/-- An object refers to others of the right type, and its messages are as its class makes them. -/
def KernelObject.Typed (s : Kernel) : KernelObject → Prop
  | .channel peer _ => s.tag peer = some .channel
  | .endpoint queue => ∀ m ∈ queue, m.replyCap.isSome
  | .replyPort queue =>
    queue.message.isSome = (queue.hasWritten && !queue.hasRead) ∧
      (queue.hasRead = true → queue.hasWritten = true)
  | _ => True

/-- A thread only waits for the message of an endpoint to answer it. -/
def Waiting.Typed (s : Kernel) : Waiting → Prop
  | .recv _ o _ _ withReply => ∃ type, s.tag o = some type ∧ (withReply = true ↔ type = .endpoint)
  | _ => True

/-- Everything in the kernel has the right type. -/
structure Kernel.WellTyped (s : Kernel) : Prop where
  objects : ∀ x ∈ s.objects, x.Typed s
  /-- The driver manager holds ports. -/
  drivers : ∀ irqNum o, s.drivers.driverMap.find irqNum = some o → s.tag o = some .port
  waiting : ∀ w ∈ s.waiting, w.Typed s

/-- What has happened to a reply port: whether it was written, and whether it was read. -/
def KernelObject.marks : KernelObject → Bool × Bool
  | .replyPort queue => (queue.hasWritten, queue.hasRead)
  | _ => (false, false)

/-- What has happened to the reply port with a number. -/
def Kernel.marks (s : Kernel) (o : Nat) : Bool × Bool :=
  (s.objects[o]?).elim (false, false) KernelObject.marks

/-- The types of objects are kept. -/
def Kernel.TagsKept (s s' : Kernel) : Prop := ∀ o type, s.tag o = some type → s'.tag o = some type

theorem KernelObject.Typed.mono {s s' : Kernel} {x : KernelObject} (h : x.Typed s)
    (htags : s.TagsKept s') : x.Typed s' := by
  cases x with
  | channel peer => exact htags peer _ h
  | _ => exact h

variable {w : Waiting}

theorem Waiting.Typed.mono {s s' : Kernel} (h : w.Typed s) (htags : s.TagsKept s') : w.Typed s' := by
  cases w with
  | recv p o =>
    obtain ⟨type, htype, hiff⟩ := h
    exact ⟨type, htags o _ htype, hiff⟩
  | _ => exact h

namespace Kernel

variable {s s' : Kernel} {o : Nat} {x y : KernelObject}

/-- A thread no longer waits. -/
theorem WellTyped.erase (h : s.WellTyped) (i : Nat) :
    ({ s with waiting := s.waiting.eraseIdx i } : Kernel).WellTyped :=
  ⟨fun x hx => (h.objects x hx).mono fun _ _ htag => htag, h.drivers,
    fun w hw => (h.waiting w (List.mem_of_mem_eraseIdx hw)).mono fun _ _ htag => htag⟩

theorem tag_of_getElem? (h : s.objects[o]? = some x) : s.tag o = some x.typeTag := by
  rw [tag, h, map_some]

theorem exists_of_tag {type : ObjectType} (h : s.tag o = some type) :
    ∃ x, s.objects[o]? = some x ∧ x.typeTag = type := map_eq_some_iff.mp h

theorem tag_setObject (h : s.objects[o]? = some x) (htag : y.typeTag = x.typeTag) (k : Nat) :
    (s.setObject o y).tag k = s.tag k := by
  rw [tag, tag, setObject, getElem?_set]
  by_cases hk : o = k
  · subst hk
    obtain ⟨hlt, -⟩ := List.getElem?_eq_some_iff.mp h
    rw [if_pos rfl, if_pos hlt, h, map_some, map_some, htag]
  · rw [if_neg hk]

theorem getElem?_setObject (h : s.objects[o]? = some x) : (s.setObject o y).objects[o]? = some y := by
  obtain ⟨hlt, -⟩ := List.getElem?_eq_some_iff.mp h
  exact getElem?_set_self hlt

theorem getElem?_setObject_of_ne {k : Nat} (hk : k ≠ o) :
    (s.setObject o y).objects[k]? = s.objects[k]? := getElem?_set_ne (Ne.symm hk)

theorem getElem?_append {k : Nat} (h : s.objects[k]? = some x) :
    ({ s with objects := s.objects ++ [y] } : Kernel).objects[k]? = some x := by
  obtain ⟨hlt, -⟩ := List.getElem?_eq_some_iff.mp h
  exact (getElem?_append_left hlt).trans h

theorem held_setObject (h : s.objects[o]? = some x) : ↑x.allCaps + (s.setObject o y).held = ↑y.allCaps + s.held := by
  have hperm := ListUpdate.flatMap_set_perm (f := KernelObject.allCaps) y h
  exact Multiset.coe_eq_coe.mpr hperm

theorem marks_of_getElem? (h : s.objects[o]? = some x) : s.marks o = x.marks := by
  rw [marks, h, elim_some]

theorem marks_congr (h : s'.objects[o]? = s.objects[o]?) : s'.marks o = s.marks o := by
  rw [marks, marks, h]

theorem queue_eq (h : s.objects[o]? = some x) : s.queue o = x.messages := by
  rw [queue, h]
  rfl

theorem mem_queue_iff {m : IpcMessage} : m ∈ s.queue o ↔ ∃ x, s.objects[o]? = some x ∧ m ∈ x.messages := by
  rw [queue]
  cases s.objects[o]? <;> simp

end Kernel

/-! ## What a part of a call did -/

/-- **What became of the capabilities** since the state `s₀`: those that are carried and held come
from those that were held, besides new ones of an allowed kind. Where `sends` holds, there may be new
messages. -/
structure AccountedWith (sends : Prop) (allowed : Capability → Prop) (s₀ : Kernel)
    (carried : Multiset Capability) (s : Kernel) : Prop where
  /-- No capability was copied. -/
  caps : Custody.Evolves Capability.serial allowed s₀.held s₀.nextSerial (carried + s.held) s.nextSerial
  objects : s₀.objects.length ≤ s.objects.length
  tags : s₀.TagsKept s
  /-- A message was in its queue before or is a new one. -/
  messages : ∀ o, ∀ m ∈ s.queue o,
    m ∈ s₀.queue o ∨ sends ∧ s₀.nextSerial ≤ m.serial ∧ m.serial < s.nextSerial
  /-- A reply port that was written or read stays so. -/
  marks : ∀ o, s₀.marks o ≤ s.marks o
  typed : s.WellTyped

/-- What became of the capabilities while no message was sent. -/
abbrev Accounted := AccountedWith False

/-- What holds when a call stops early. -/
structure Stopped (allowed : Capability → Prop) (s₀ : Kernel) (e : Stop) (s : Kernel) : Prop where
  /-- What it carried is gone. -/
  accounted : Accounted allowed s₀ 0 s
  /-- A thread that blocks waits for the right thing. -/
  waiting : ∀ w, e = .blocks w → w.Typed s

namespace AccountedWith

variable {sends : Prop} {allowed : Capability → Prop} {s₀ s s' : Kernel}
  {carried carried' : Multiset Capability} {o p : Nat} {x y : KernelObject}

theorem refl (h : s.WellTyped) : AccountedWith sends allowed s 0 s where
  caps := by
    exact Custody.Evolves.refl _ _
  objects := le_rfl
  tags := fun _ _ htag => htag
  messages := fun _ _ hm => Or.inl hm
  marks := fun _ => le_rfl
  typed := h

theorem mono (h : AccountedWith sends allowed s₀ carried s) {sends' : Prop} (himp : sends → sends') :
    AccountedWith sends' allowed s₀ carried s :=
  { h with messages := fun o m hm => (h.messages o m hm).imp_right (And.imp_left himp) }

theorem drop (h : AccountedWith sends allowed s₀ carried s) (hle : carried' ≤ carried) :
    AccountedWith sends allowed s₀ carried' s :=
  { h with
    caps := h.caps.trans (Custody.Evolves.of_le (Multiset.add_le_add_right hle) le_rfl) }

theorem stopped (h : Accounted allowed s₀ carried s) {e : Stop} (he : ∀ w, e ≠ .blocks w) : Stopped allowed s₀ e s :=
  ⟨h.drop (Multiset.zero_le _), fun w hw => absurd hw (he w)⟩

theorem congr (h : AccountedWith sends allowed s₀ carried s) (hobjects : s'.objects = s.objects)
    (hserial : s'.nextSerial = s.nextSerial) (hdrivers : s'.drivers = s.drivers)
    (hwaiting : s'.waiting ⊆ s.waiting) : AccountedWith sends allowed s₀ carried s' := by
  have htag : ∀ k, s'.tag k = s.tag k := fun k => by rw [Kernel.tag, Kernel.tag, hobjects]
  have htags : s.TagsKept s' := fun k type hk => (htag k).trans hk
  constructor
  · have hheld : s'.held = s.held := by
      rw [Kernel.held, Kernel.held, Kernel.allCaps, Kernel.allCaps, hobjects]
    rw [hheld, hserial]
    exact h.caps
  · rw [hobjects]
    exact h.objects
  · exact fun k type hk => (htag k).trans (h.tags k type hk)
  · intro k
    rw [Kernel.queue, hobjects, hserial]
    exact h.messages k
  · intro k
    exact (h.marks k).trans_eq (Kernel.marks_congr (by rw [hobjects]))
  · refine ⟨fun x hx => ?_, fun irqNum k hk => ?_, fun w hw => ?_⟩
    · exact (h.typed.objects x (hobjects ▸ hx)).mono htags
    · rw [hdrivers] at hk
      exact (htag k).trans (h.typed.drivers irqNum k hk)
    · exact (h.typed.waiting w (hwaiting hw)).mono htags

/-- **An object gets another value**, with capabilities that it had or that were carried. -/
theorem setObject (h : AccountedWith sends allowed s₀ carried s) (ho : s.objects[o]? = some x)
    (htag : y.typeTag = x.typeTag) (htyped : y.Typed s)
    (hmessages : ∀ m ∈ y.messages,
      m ∈ x.messages ∨ sends ∧ s₀.nextSerial ≤ m.serial ∧ m.serial < s.nextSerial)
    (hmarks : x.marks ≤ y.marks) (hcaps : carried' + ↑y.allCaps ≤ carried + ↑x.allCaps) :
    AccountedWith sends allowed s₀ carried' (s.setObject o y) := by
  have hkept : s.TagsKept (s.setObject o y) := fun k type hk =>
    (Kernel.tag_setObject ho htag k).trans hk
  refine ⟨h.caps.trans (Custody.Evolves.of_le ?_ le_rfl), ?_, ?_, ?_, fun k => ?_, ?_, ?_, ?_⟩
  · have hheld := Kernel.held_setObject (y := y) ho
    refine le_of_add_le_add_left (a := (↑x.allCaps : Multiset Capability)) ?_
    calc ↑x.allCaps + (carried' + (s.setObject o y).held)
        = carried' + (↑x.allCaps + (s.setObject o y).held) := by rw [add_left_comm]
      _ = carried' + ↑y.allCaps + s.held := by rw [hheld, add_assoc]
      _ ≤ carried + ↑x.allCaps + s.held := by gcongr
      _ = ↑x.allCaps + (carried + s.held) := by rw [add_right_comm, add_comm]
  · rw [Kernel.setObject, length_set]
    exact h.objects
  · exact fun k type hk => hkept k type (h.tags k type hk)
  · intro k m hm
    by_cases hk : k = o
    · rw [hk, Kernel.queue_eq (Kernel.getElem?_setObject ho)] at hm
      rw [hk]
      refine (hmessages m hm).elim (fun hx => h.messages o m ?_) Or.inr
      rwa [Kernel.queue_eq ho]
    · rw [Kernel.queue, Kernel.getElem?_setObject_of_ne hk] at hm
      exact h.messages k m hm
  · by_cases hk : k = o
    · rw [hk, Kernel.marks_of_getElem? (Kernel.getElem?_setObject ho)]
      exact ((h.marks o).trans_eq (Kernel.marks_of_getElem? ho)).trans hmarks
    · exact (h.marks k).trans_eq (Kernel.marks_congr (Kernel.getElem?_setObject_of_ne hk).symm)
  · intro z hz
    rcases mem_or_eq_of_mem_set hz with hz | rfl
    · exact (h.typed.objects z hz).mono hkept
    · exact htyped.mono hkept
  · exact fun irqNum k hk => hkept k _ (h.typed.drivers irqNum k hk)
  · exact fun w hw => (h.typed.waiting w hw).mono hkept

/-- **New objects** that hold nothing. -/
theorem append (h : AccountedWith sends allowed s₀ carried s) {ys : List KernelObject}
    (hcaps : ∀ y ∈ ys, y.allCaps = []) (hmessages : ∀ y ∈ ys, y.messages = [])
    (htyped : ∀ y ∈ ys, y.Typed { s with objects := s.objects ++ ys }) :
    AccountedWith sends allowed s₀ carried { s with objects := s.objects ++ ys } := by
  have hkept : s.TagsKept { s with objects := s.objects ++ ys } := by
    intro k type hk
    obtain ⟨x, hx, htag⟩ := Kernel.exists_of_tag hk
    obtain ⟨hlt, -⟩ := List.getElem?_eq_some_iff.mp hx
    rw [← htag]
    refine Kernel.tag_of_getElem? (x := x) ?_
    exact (getElem?_append_left hlt).trans hx
  refine ⟨?_, ?_, ?_, fun k m hm => ?_, fun k => ?_, ?_, ?_, ?_⟩
  · have hheld : ({ s with objects := s.objects ++ ys } : Kernel).held = s.held := by
      rw [Kernel.held, Kernel.held, Kernel.allCaps, Kernel.allCaps, flatMap_append,
        flatMap_eq_nil_iff.mpr hcaps, append_nil]
    rw [hheld]
    exact h.caps
  · rw [length_append]
    exact h.objects.trans (Nat.le_add_right _ _)
  · exact fun k type hk => hkept k type (h.tags k type hk)
  · obtain ⟨x, hx, hmx⟩ := Kernel.mem_queue_iff.mp hm
    rcases lt_or_ge k s.objects.length with hlt | hge
    · rw [getElem?_append_left hlt] at hx
      exact h.messages k m (Kernel.mem_queue_iff.mpr ⟨x, hx, hmx⟩)
    · rw [getElem?_append_right hge] at hx
      rw [hmessages x (mem_of_getElem? hx)] at hmx
      cases hmx
  · rcases lt_or_ge k s.objects.length with hlt | hge
    · exact (h.marks k).trans_eq (Kernel.marks_congr (getElem?_append_left hlt).symm)
    · have hnone : s.marks k = (false, false) := by rw [Kernel.marks, getElem?_eq_none hge, elim_none]
      exact ((h.marks k).trans_eq hnone).trans ⟨bot_le, bot_le⟩
  · intro z hz
    rcases mem_append.mp hz with hz | hz
    · exact (h.typed.objects z hz).mono hkept
    · exact htyped z hz
  · exact fun irqNum k hk => hkept k _ (h.typed.drivers irqNum k hk)
  · exact fun w hw => (h.typed.waiting w hw).mono hkept

end AccountedWith

/-! ## Rules for the parts of calls -/

namespace Syscall

variable {α : Type} {s : Kernel} {p o : Nat}

variable {E : Stop → Kernel → Prop}

theorem wp_process {Q : Process → Kernel → Prop} (hQ : ∀ x, s.objects[p]? = some (.process x) → Q x s)
    (hE : E .panics s) : wp (process p) Q E s := by
  unfold process Kernel.process
  cases ho : s.objects[p]? with
  | none => simpa [wp, ho] using hE
  | some x =>
    cases x with
    | process x => simpa [wp, ho] using hQ x ho
    | _ => simpa [wp, ho] using hE

theorem wp_thread {Q : ThreadObject → Kernel → Prop} (hQ : ∀ x, s.objects[o]? = some (.thread x) → Q x s)
    (hE : E .panics s) : wp (thread o) Q E s := by
  unfold thread
  cases ho : s.objects[o]? with
  | none => simpa [wp, ho] using hE
  | some x =>
    cases x with
    | thread x => simpa [wp, ho] using hQ x ho
    | _ => simpa [wp, ho] using hE

theorem wp_addressSpace {Q : Nat → Kernel → Prop} (hQ : ∀ space, s.objects[o]? = some (.addressSpace space) → Q space s)
    (hE : E .panics s) : wp (addressSpace o) Q E s := by
  unfold addressSpace
  cases ho : s.objects[o]? with
  | none => simpa [wp, ho] using hE
  | some x =>
    cases x with
    | addressSpace space => simpa [wp, ho] using hQ space ho
    | _ => simpa [wp, ho] using hE

theorem wp_memoryObject {Q : MemoryObject → Kernel → Prop}
    (hQ : ∀ id state, s.objects[o]? = some (.memoryObject id) → s.system.objects[id]? = some state →
      Q state.object s) (hE : E .panics s) : wp (memoryObject o) Q E s := by
  unfold memoryObject
  cases ho : s.objects[o]? with
  | none => simpa [wp, ho] using hE
  | some x =>
    cases x with
    | memoryObject id =>
      cases hid : s.system.objects[id]? with
      | none => simpa [wp, ho, hid] using hE
      | some state => simpa [wp, ho, hid] using hQ id state ho hid
    | _ => simpa [wp, ho] using hE

theorem wp_validateCapability {type : ObjectType} {cap : Option Capability} {permissions : UInt64}
    {Q : Capability → Kernel → Prop}
    (hQ : ∀ c, cap = some c → s.tag c.obj = some type → c.hasPermissions permissions = true → Q c s)
    (hE : (¬ ∃ c ∈ cap, s.tag c.obj = some type ∧ c.hasPermissions permissions = true) →
      ∀ code, code ≠ .internal → E (.error code) s) : wp (validateCapability type cap permissions) Q E s := by
  unfold validateCapability
  cases cap with
  | none => exact hE (by simp) _ nofun
  | some c =>
    rw [wp_bind, wp_gets, wp_ite]
    by_cases htag : (s.objects[c.obj]?).map KernelObject.typeTag ≠ some type
    · rw [if_pos htag]
      refine hE ?_ _ nofun
      rintro ⟨d, hd, htag', -⟩
      rw [mem_some_iff] at hd
      exact htag (hd ▸ htag')
    rw [if_neg htag, wp_ite]
    by_cases hperm : (!c.hasPermissions permissions) = true
    · rw [if_pos hperm]
      refine hE ?_ _ nofun
      rintro ⟨d, hd, -, hperm'⟩
      rw [mem_some_iff] at hd
      rw [hd, hperm'] at hperm
      cases hperm
    · rw [if_neg hperm]
      exact hQ c rfl (not_not.mp htag) (by simpa using hperm)

theorem wp_getValidCapability {type : ObjectType} {id permissions : UInt64} {Q : Capability → Kernel → Prop}
    (hQ : ∀ c, s.capability p id = some c → s.tag c.obj = some type → c.hasPermissions permissions = true → Q c s)
    (hE : ¬ s.HasValid p id type permissions → ∀ code, code ≠ .internal → E (.error code) s) :
    wp (getValidCapability p id type permissions) Q E s := by
  exact wp_validateCapability hQ hE

theorem wp_createObject {y : KernelObject} {Q : Nat → Kernel → Prop} :
    wp (createObject y) Q E s ↔ Q s.objects.length { s with objects := s.objects ++ [y] } := Iff.rfl

theorem wp_onSystem {f : System → Option (α × System)} {Q : α → Kernel → Prop}
    (hQ : ∀ a system, f s.system = some (a, system) → Q a { s with system }) (hE : E .panics s) :
    wp (onSystem f) Q E s := by
  refine wp_updateSome (fun a s' h => ?_) fun _ => hE
  obtain ⟨r, hr, ⟨⟩⟩ := map_eq_some_iff.mp h
  exact hQ r.1 r.2 hr

theorem wp_createAddressSpace {Q : Nat → Kernel → Prop} (hQ : ∀ space system, Q space { s with system })
    (hE : E .panics s) : wp (createAddressSpace p) Q E s := by
  rw [createAddressSpace, vmas, wp_bind, wp_bind]
  refine wp_process (fun x _ => ?_) hE
  cases x.vmas with
  | none => exact hE
  | some current =>
    refine wp_updateSome (fun a s' h => ?_) fun _ => hE
    obtain ⟨space, -, h⟩ := Option.bind_eq_some_iff.mp h
    obtain ⟨r, -, ⟨⟩⟩ := Option.bind_eq_some_iff.mp h
    exact hQ r.1 r.2

/-- Capabilities that go away change memory only. -/
theorem foldl_dropCapability (cs : List Capability) (s : Kernel) :
    ∃ system, cs.foldl dropCapability s = { s with system } := by
  induction cs generalizing s with
  | nil => exact ⟨s.system, rfl⟩
  | cons c _ ih =>
    obtain ⟨system, hsystem⟩ : ∃ system, dropCapability s c = { s with system } := by
      unfold dropCapability
      split
      · exact ⟨_, rfl⟩
      · exact ⟨s.system, rfl⟩
    rw [foldl_cons, hsystem]
    exact ih _

/-- The first message of an object, and the object without it. -/
inductive TakenFrom (s : Kernel) (o : Nat) (m : IpcMessage) : KernelObject → Prop where
  | channel {peer : Nat} {rest : List IpcMessage} :
      s.objects[o]? = some (.channel peer (m :: rest)) → TakenFrom s o m (.channel peer rest)
  | port {rest : List IpcMessage} : s.objects[o]? = some (.port (m :: rest)) →
      TakenFrom s o m (.port rest)
  | endpoint {rest : List IpcMessage} : s.objects[o]? = some (.endpoint (m :: rest)) →
      TakenFrom s o m (.endpoint rest)
  | replyPort {queue : SingleMessageQueue} : s.objects[o]? = some (.replyPort queue) →
      queue.hasWritten = true → queue.hasRead = false → queue.message = some m →
      TakenFrom s o m (.replyPort { queue with hasRead := true, message := none })

/-- **The rule for `Recv`**: the first message is taken if it fits the buffers, and otherwise nothing
changes. -/
theorem wp_recv_takenFrom {numBytes numCaps : UInt64} {Q : IpcMessage → Kernel → Prop}
    (hQ : ∀ m x, TakenFrom s o m x → m.fits numBytes numCaps = true → Q m (s.setObject o x))
    (hE : ∀ e, e = .blocks w ∨ e = .panics ∨ e = .error .bufferSize ∨ e = .error .failedPrecondition →
      E e s) : wp (recv o numBytes numCaps w) Q E s := by
  have htake : ∀ {m : IpcMessage} {x : KernelObject}, TakenFrom s o m x → wp (do
      checkSize m numBytes numCaps
      .update fun s => s.setObject o x
      return m) Q E s := by
    intro m x hx
    rw [wp_bind, checkSize, wp_ite]
    split
    · exact hE _ (by simp)
    · rename_i hbytes
      split_ifs with hcaps
      · exact hE _ (by simp)
      · refine hQ m x hx ?_
        rw [IpcMessage.fits, Bool.and_eq_true, decide_eq_true_eq, decide_eq_true_eq]
        exact ⟨not_lt.mp hbytes, not_lt.mp hcaps⟩
  have hempty : ∀ {e : Stop}, e = .blocks w ∨ e = .panics → wp (.stop e) Q E s := fun he =>
    hE _ (he.imp_right Or.inl)
  rw [recv, wp_bind, wp_gets]
  cases ho : s.objects[o]? with
  | none => exact hempty (.inr rfl)
  | some x =>
    cases x with
    | channel _ queue =>
      cases queue with
      | nil => exact hempty (.inl rfl)
      | cons => exact htake (.channel ho)
    | port queue =>
      cases queue with
      | nil => exact hempty (.inl rfl)
      | cons => exact htake (.port ho)
    | endpoint queue =>
      cases queue with
      | nil => exact hempty (.inl rfl)
      | cons => exact htake (.endpoint ho)
    | replyPort queue =>
      show wp (popSingle o queue numBytes numCaps w) _ _ s
      rw [popSingle, wp_ite]
      split
      · exact hempty (.inl rfl)
      · rw [wp_ite]
        split
        · exact hE _ (by simp)
        · rename_i hwritten hread
          cases hm : queue.message with
          | none => exact hempty (.inr rfl)
          | some => exact htake (.replyPort ho (by simpa using hwritten) (by simpa using hread) hm)
    | _ => exact hempty (.inr rfl)

end Syscall

namespace Accounted

open Syscall

variable {α : Type} {allowed : Capability → Prop} {s₀ s : Kernel} {carried : Multiset Capability}
  {o p : Nat} {m : IpcMessage}

theorem wp_fail (h : Accounted allowed s₀ carried s) (code : ErrorCode) {Q : α → Kernel → Prop} :
    wp (fail code) Q (Stopped allowed s₀) s := h.stopped (by simp)

theorem wp_panic (h : Accounted allowed s₀ carried s) {Q : α → Kernel → Prop} :
    wp panic Q (Stopped allowed s₀) s := h.stopped (by simp)

theorem wp_dropCapabilities (h : Accounted allowed s₀ carried s) (cs : List Capability) :
    wp (dropCapabilities cs) (fun _ => Accounted allowed s₀ carried) (Stopped allowed s₀) s := by
  rw [dropCapabilities, wp_update]
  obtain ⟨system, hsystem⟩ := foldl_dropCapability cs s
  rw [hsystem]
  exact h.congr rfl rfl rfl (List.Subset.refl _)

theorem wp_takeSerial (h : Accounted allowed s₀ carried s) :
    wp takeSerial (fun serial s' => serial = s.nextSerial ∧ s'.nextSerial = s.nextSerial + 1 ∧
        Accounted allowed s₀ carried s' ∧
        ∀ obj permissions, allowed ⟨serial, obj, permissions⟩ →
          Accounted allowed s₀ (⟨serial, obj, permissions⟩ ::ₘ carried) s')
      (Stopped allowed s₀) s := by
  have hmessages : ∀ o, ∀ m ∈ s.queue o, m ∈ s₀.queue o ∨
      False ∧ s₀.nextSerial ≤ m.serial ∧ m.serial < s.nextSerial + 1 :=
    fun o m hm => (h.messages o m hm).imp_right fun hnew => hnew.1.elim
  have htyped : ({ s with nextSerial := s.nextSerial + 1 } : Kernel).WellTyped := by
    refine ⟨fun x hx => ?_, h.typed.drivers, fun w hw => ?_⟩
    · exact (h.typed.objects x hx).mono fun _ _ htag => htag
    · exact (h.typed.waiting w hw).mono fun _ _ htag => htag
  refine ⟨rfl, rfl, ?_, fun obj permissions hallowed => ?_⟩
  · refine ⟨?_, h.objects, h.tags, hmessages, h.marks, htyped⟩
    exact h.caps.trans (Custody.Evolves.of_le le_rfl (Nat.le_succ _))
  · refine ⟨?_, h.objects, h.tags, hmessages, h.marks, htyped⟩
    rw [Multiset.cons_add]
    exact h.caps.trans (Custody.Evolves.new hallowed rfl)

theorem wp_acquireObject (h : Accounted allowed s₀ carried s) :
    wp (acquireObject o) (fun _ => Accounted allowed s₀ carried) (Stopped allowed s₀) s := by
  rw [acquireObject, wp_update]
  split
  · exact h.congr rfl rfl rfl (List.Subset.refl _)
  · exact h

theorem wp_releaseCapability (h : Accounted allowed s₀ carried s) (id : UInt64) :
    wp (releaseCapability p id) (fun cap => Accounted allowed s₀ (↑cap.toList + carried)) (Stopped allowed s₀) s := by
  rw [releaseCapability, wp_bind]
  refine wp_process (fun x hx => ?_) (h.stopped (by simp))
  cases hget : x.caps.getCapability id with
  | none =>
    rw [CapabilityTable.releaseCapability_of_none hget]
    refine h.setObject hx rfl trivial (fun m hm => absurd hm not_mem_nil) le_rfl ?_
    simp [KernelObject.allCaps]
  | some c =>
    obtain ⟨caps, hrelease, -, -, hperm⟩ := CapabilityTable.releaseCapability_of_some hget
    rw [hrelease]
    refine h.setObject hx rfl trivial (fun m hm => absurd hm not_mem_nil) le_rfl ?_
    have heq : (↑x.caps.caps : Multiset Capability) = c ::ₘ ↑caps.caps := by
      exact Multiset.coe_eq_coe.mpr hperm
    show ↑[c] + carried + ↑caps.caps ≤ carried + ↑x.caps.caps
    rw [heq, Multiset.coe_singleton, Multiset.singleton_add, Multiset.cons_add, Multiset.add_cons]

theorem wp_addExistingCapability {c : Capability} (h : Accounted allowed s₀ (c ::ₘ carried) s) :
    wp (addExistingCapability p c) (fun _ => Accounted allowed s₀ carried) (Stopped allowed s₀) s := by
  rw [addExistingCapability, wp_bind]
  refine wp_process (fun x hx => ?_) (h.stopped (by simp))
  cases hadd : x.caps.addExistingCapability c with
  | none => exact h.wp_panic
  | some r =>
    obtain ⟨id, caps⟩ := r
    obtain ⟨-, -, -, -, hperm⟩ := CapabilityTable.addExistingCapability_spec hadd
    refine h.setObject hx rfl trivial (fun m hm => absurd hm not_mem_nil) le_rfl ?_
    have heq : (↑caps.caps : Multiset Capability) = c ::ₘ ↑x.caps.caps := by
      exact Multiset.coe_eq_coe.mpr hperm
    show carried + ↑caps.caps ≤ c ::ₘ carried + ↑x.caps.caps
    rw [heq, Multiset.cons_add, Multiset.add_cons]

theorem wp_addNewCapability (h : Accounted allowed s₀ carried s) {obj : Nat} {permissions : UInt64}
    (hallowed : ∀ serial, allowed ⟨serial, obj, permissions⟩) :
    wp (addNewCapability p obj permissions) (fun _ => Accounted allowed s₀ carried) (Stopped allowed s₀) s := by
  refine wp_seq h.wp_takeSerial fun serial s1 h1 => ?_
  refine wp_seq (h1.2.2.2 obj permissions (hallowed serial)).wp_acquireObject fun _ s2 h2 => ?_
  exact h2.wp_addExistingCapability

theorem wp_createEmpty (h : Accounted allowed s₀ carried s) {y : KernelObject}
    (hcaps : y.allCaps = []) (hmessages : y.messages = []) (htyped : ∀ s : Kernel, y.Typed s) :
    wp (createObject y) (fun o s' => Accounted allowed s₀ carried s' ∧ s₀.objects.length ≤ o ∧ s'.objects[o]? = some y ∧
        ∀ (k : Nat) x, s.objects[k]? = some x → s'.objects[k]? = some x)
      (Stopped allowed s₀) s := by
  refine ⟨h.append ?_ ?_ ?_, h.objects, ?_, fun k x hk => ?_⟩
  · simpa using hcaps
  · simpa using hmessages
  · simpa using htyped _
  · simp
  · obtain ⟨hlt, -⟩ := List.getElem?_eq_some_iff.mp hk
    exact (getElem?_append_left hlt).trans hk

/-! ### Messages -/

theorem wp_takeCapabilities {taken : List Capability} (h : Accounted allowed s₀ (↑taken + carried) s)
    (ids : List UInt64) :
    wp (takeCapabilities p taken ids) (fun taken' => Accounted allowed s₀ (↑taken' + carried))
      (Stopped allowed s₀) s := by
  induction ids generalizing taken s with
  | nil => exact h
  | cons id _ ih =>
    rw [takeCapabilities, wp_bind, getCapability, wp_gets]
    cases s.capability p id with
    | none => exact wp_seq (h.wp_dropCapabilities _) fun _ s1 h1 => h1.wp_fail _
    | some =>
      rw [wp_ite]
      split
      · exact wp_seq (h.wp_dropCapabilities _) fun _ s1 h1 => h1.wp_fail _
      · refine wp_seq (h.wp_releaseCapability id) fun cap s1 h1 => ?_
        refine ih (h1.drop (le_of_eq ?_))
        rw [← Multiset.coe_add, add_comm (↑taken : Multiset Capability), add_assoc]

theorem wp_translateRequestToIpcMessage (h : Accounted allowed s₀ carried s) (data : List UInt8) (caps : List UInt64) :
    wp (translateRequestToIpcMessage p data caps)
      (fun m s' => Accounted allowed s₀ (↑m.caps + carried) s' ∧ m.replyCap = none ∧
        s₀.nextSerial ≤ m.serial ∧ m.serial < s'.nextSerial) (Stopped allowed s₀) s := by
  rw [translateRequestToIpcMessage, wp_ite]
  split
  · exact h.wp_fail _
  · have h0 : Accounted allowed s₀ (↑([] : List Capability) + carried) s := by simpa using h
    refine wp_seq (h0.wp_takeCapabilities caps) fun taken s1 h1 => ?_
    refine wp_seq h1.wp_takeSerial fun serial s2 ⟨hserial, hnext, h2, _⟩ => ?_
    exact ⟨h2, rfl, hserial ▸ h1.caps.le, by rw [hnext, hserial]; exact Nat.lt_succ_self _⟩

theorem wp_pushBack (h : Accounted allowed s₀ (↑m.allCaps + carried) s)
    (hnew : s₀.nextSerial ≤ m.serial ∧ m.serial < s.nextSerial)
    (hreply : s.tag o = some .endpoint → m.replyCap.isSome = true) :
    wp (pushBack o m) (fun _ => AccountedWith True allowed s₀ carried) (Stopped allowed s₀) s := by
  have hsends : AccountedWith True allowed s₀ _ s := h.mono fun _ => trivial
  -- an unbounded queue with one more message
  have hqueue : ∀ {x y : KernelObject} {queue : List IpcMessage}, s.objects[o]? = some x →
      y.typeTag = x.typeTag → y.Typed s → x.messages = queue → y.messages = queue ++ [m] →
      x.marks = y.marks → x.allCaps = queue.flatMap IpcMessage.allCaps →
      y.allCaps = (queue ++ [m]).flatMap IpcMessage.allCaps →
      AccountedWith True allowed s₀ carried (s.setObject o y) := by
    intro x y queue hx htag htyped hmx hmy hmarks hcx hcy
    refine hsends.setObject hx htag htyped (fun m' hm' => ?_) hmarks.le (le_of_eq ?_)
    · rw [hmy, mem_append, mem_singleton] at hm'
      rcases hm' with hm' | rfl
      · exact Or.inl (hmx ▸ hm')
      · exact Or.inr ⟨trivial, hnew⟩
    · rw [hcx, hcy, flatMap_append, flatMap_singleton, ← Multiset.coe_add]
      rw [add_comm (↑m.allCaps : Multiset Capability) carried, add_assoc, add_comm (↑m.allCaps : Multiset Capability)]
  rw [pushBack, wp_bind, wp_gets]
  cases ho : s.objects[o]? with
  | none => exact h.wp_panic
  | some x =>
    have htyped := h.typed.objects x (mem_of_getElem? ho)
    cases x with
    | channel => exact hqueue ho rfl htyped rfl rfl rfl rfl rfl
    | port => exact hqueue ho rfl trivial rfl rfl rfl rfl rfl
    | endpoint =>
      refine hqueue ho rfl (fun m' hm' => ?_) rfl rfl rfl rfl rfl
      rcases mem_append.mp hm' with hm' | hm'
      · exact htyped m' hm'
      · obtain rfl := mem_singleton.mp hm'
        exact hreply (Kernel.tag_of_getElem? ho)
    | replyPort queue =>
      show wp (pushSingle o queue m) _ _ s
      rw [pushSingle, wp_ite]
      split
      · exact wp_seq (h.wp_dropCapabilities _) fun _ s1 h1 => h1.wp_fail _
      rw [wp_ite]
      split_ifs with hwritten
      · exact wp_seq (h.wp_dropCapabilities _) fun _ s1 h1 => h1.wp_fail _
      have hread : queue.hasRead = false := by
        cases hread : queue.hasRead with
        | false => rfl
        | true => exact absurd (htyped.2 hread) (by simp [hwritten])
      have hnone : queue.message = none := by simpa [hwritten] using htyped.1
      refine hsends.setObject ho rfl ?_ (fun m' hm' => ?_) ⟨le_top, le_rfl⟩ (le_of_eq ?_)
      · exact ⟨by simp [hread], fun _ => rfl⟩
      · obtain rfl : m' = m := by simpa [KernelObject.messages] using hm'
        exact Or.inr ⟨trivial, hnew⟩
      · simp [KernelObject.allCaps, KernelObject.messages, hnone, add_comm]
    | _ => exact h.wp_panic

theorem wp_send (h : Accounted allowed s₀ (↑m.allCaps + carried) s)
    (hnew : s₀.nextSerial ≤ m.serial ∧ m.serial < s.nextSerial)
    (hreply : s.tag o = some .endpoint → m.replyCap.isSome = true) :
    wp (send o m) (fun _ => AccountedWith True allowed s₀ carried) (Stopped allowed s₀) s := by
  rw [send, wp_bind, sendQueue, wp_gets]
  split
  · -- the peer of a channel is a channel
    rename_i peer queue ho
    refine h.wp_pushBack hnew fun hendpoint => ?_
    have hpeer : s.tag peer = some .channel := h.typed.objects _ (mem_of_getElem? ho)
    rw [hpeer] at hendpoint
    cases hendpoint
  · exact h.wp_pushBack hnew hreply

theorem wp_recv (h : Accounted allowed s₀ carried s) {numBytes numCaps : UInt64} (hw : w.Typed s) :
    wp (recv o numBytes numCaps w) (fun m s' => Accounted allowed s₀ (↑m.allCaps + carried) s' ∧
        (s.tag o = some .endpoint → m.replyCap.isSome = true)) (Stopped allowed s₀) s := by
  refine wp_recv_takenFrom (fun m x hx _ => ?_) fun e he => ?_
  · -- a queue without its first message
    have hqueue : ∀ {y : KernelObject} {rest : List IpcMessage}, s.objects[o]? = some y →
        x.typeTag = y.typeTag → x.Typed s → y.messages = m :: rest → x.messages = rest →
        y.marks = x.marks → y.allCaps = (m :: rest).flatMap IpcMessage.allCaps →
        x.allCaps = rest.flatMap IpcMessage.allCaps →
        Accounted allowed s₀ (↑m.allCaps + carried) (s.setObject o x) := by
      intro y rest ho htag htyped hmy hmx hmarks hcy hcx
      refine h.setObject ho htag htyped (fun m' hm' => ?_) hmarks.le (le_of_eq ?_)
      · rw [hmx] at hm'
        rw [hmy]
        exact Or.inl (mem_cons_of_mem m hm')
      · rw [hcy, hcx, flatMap_cons, ← Multiset.coe_add]
        rw [add_comm (↑m.allCaps : Multiset Capability) carried, add_assoc]
    have hother : ∀ {y : KernelObject}, s.objects[o]? = some y → y.typeTag ≠ .endpoint →
        s.tag o = some .endpoint → m.replyCap.isSome = true := by
      intro y ho hy hendpoint
      rw [Kernel.tag_of_getElem? ho] at hendpoint
      exact absurd (some.inj hendpoint) hy
    cases hx with
    | channel ho =>
      have htyped := h.typed.objects _ (mem_of_getElem? ho)
      exact ⟨hqueue ho rfl htyped rfl rfl rfl rfl rfl, hother ho nofun⟩
    | port ho => exact ⟨hqueue ho rfl trivial rfl rfl rfl rfl rfl, hother ho nofun⟩
    | endpoint ho =>
      have htyped := h.typed.objects _ (mem_of_getElem? ho)
      exact ⟨hqueue ho rfl (fun m' hm' => htyped m' (mem_cons_of_mem m hm')) rfl rfl rfl rfl rfl,
        fun _ => htyped m mem_cons_self⟩
    | replyPort ho hwritten _ hm =>
      refine ⟨h.setObject ho rfl ⟨by simp, fun _ => hwritten⟩ ?_ ⟨le_rfl, le_top⟩ (le_of_eq ?_),
        hother ho nofun⟩
      · intro m' hm'
        simp [KernelObject.messages] at hm'
      · simp [KernelObject.allCaps, KernelObject.messages, hm, add_comm]
  · refine ⟨h.drop (Multiset.zero_le _), fun w' hw' => ?_⟩
    subst hw'
    obtain rfl : w' = w := by simpa using he
    exact hw

theorem wp_addCapabilities {cs : List Capability} (h : Accounted allowed s₀ (↑cs + carried) s) (i : Nat)
    (rounds : List UInt64) :
    wp (addCapabilities p i rounds cs) (fun _ => Accounted allowed s₀ carried) (Stopped allowed s₀) s := by
  induction cs generalizing s i rounds with
  | nil =>
    rw [addCapabilities, wp_ite]
    split
    · exact h.wp_panic
    · exact h.drop (Multiset.le_add_left _ _)
  | cons c cs ih =>
    rw [addCapabilities, wp_ite]
    split
    · rw [← Multiset.cons_coe, Multiset.cons_add] at h
      refine wp_seq h.wp_addExistingCapability fun id s1 h1 => ?_
      exact wp_seq (ih h1 _ _) fun ids s2 h2 => h2
    · refine wp_seq (h.wp_dropCapabilities _) fun _ s1 h1 => ?_
      exact h1.drop (Multiset.le_add_left _ _)

theorem wp_receive (h : Accounted allowed s₀ carried s) {numBytes numCaps : UInt64} {withReply : Bool}
    (hw : (Waiting.recv p o numBytes numCaps withReply).Typed s) (seen : Option Reread) :
    wp (receive p o numBytes numCaps withReply seen) (fun _ => Accounted allowed s₀ carried)
      (Stopped allowed s₀) s := by
  refine wp_seq (h.wp_recv hw) fun m s1 ⟨h1, hreply⟩ => ?_
  have hsplit : (↑m.allCaps : Multiset Capability) = ↑m.caps + ↑m.replyCap.toList := rfl
  rw [hsplit, add_assoc] at h1
  dsimp only
  split
  · -- with the capability for the reply
    have hids : wp (translateUnchecked p m (seen.getD { numBytes, numCaps }))
        (fun _ => Accounted allowed s₀ (↑m.replyCap.toList + carried)) (Stopped allowed s₀) s1 := by
      rw [translateUnchecked, wp_ite]
      split
      · refine wp_seq (h1.wp_dropCapabilities _) fun _ s2 h2 => ?_
        exact h2.drop (Multiset.le_add_left _ _)
      · exact wp_seq (h1.wp_addCapabilities _ _) fun _ s2 h2 => h2
    refine wp_seq hids fun ids s2 h2 => ?_
    cases hcap : m.replyCap with
    | none => exact h2.wp_fail _
    | some =>
      rw [hcap] at h2
      exact wp_seq h2.wp_addExistingCapability fun id s3 h3 => h3
  · rw [translateIpcMessageToResponse, wp_ite]
    split
    · exact wp_seq (h1.wp_dropCapabilities _) fun _ s2 h2 => h2.wp_fail _
    · refine wp_seq (h1.wp_addCapabilities _ _) fun ids s2 h2 => ?_
      refine wp_seq (h2.wp_dropCapabilities _) fun _ s3 h3 => ?_
      exact h3.drop (Multiset.le_add_left _ _)

end Accounted

end Acadia.Zion
