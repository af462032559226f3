import Acadia.Zion.Memory.Boot
import Acadia.Zion.Memory.PagingSpec
import Acadia.Zion.Object.AddressSpace

/-! # Runs of the stack managers

Both managers make a stack beyond those they made before, and only when no stack is free. -/

namespace Acadia.Zion

open List Runs UInt64

/-- A stack is allocated, or the stack at a position among those in use is freed. -/
inductive StackEvent where
  | allocate
  | free (i : Nat)

/-- A manager, with the stacks in use. -/
structure Stacks (M : Type) where
  manager : M
  live : List UInt64 := []

section

variable {M : Type} (allocate : M → Option (UInt64 × M)) (free : M → UInt64 → M)

/-- What an event does, for a manager with these two functions. -/
def Stacks.step (s : Stacks M) : StackEvent → Option (Stacks M)
  | .allocate => (allocate s.manager).map fun r => ⟨r.2, r.1 :: s.live⟩
  | .free i => s.live[i]?.map fun stack => ⟨free s.manager stack, s.live.eraseIdx i⟩

variable (freed : M → List UInt64) (Inv : M → Prop) (Made : M → UInt64 → Prop)

/-- The stacks in use and the free ones are different stacks that the manager has made. -/
structure Stacks.Apart (s : Stacks M) : Prop where
  inv : Inv s.manager
  nodup : (s.live ++ freed s.manager).Nodup
  made : ∀ a ∈ s.live ++ freed s.manager, Made s.manager a

variable {allocate free freed Inv Made} {s s' : Stacks M}

/-- **Stacks stay apart**, if a stack that is handed out was free or is new. -/
theorem Stacks.Apart.run (h : s.Apart freed Inv Made) {events : List StackEvent}
    (hrun : run (step allocate free) s events = some s')
    (hallocate : ∀ m stack m', Inv m → allocate m = some (stack, m') → Inv m' ∧ (∀ a, Made m a → Made m' a) ∧
      (freed m = stack :: freed m' ∨ freed m' = freed m ∧ Made m' stack ∧ ¬ Made m stack))
    (hfree : ∀ m stack, Inv m → Inv (free m stack) ∧ Made (free m stack) = Made m ∧
      freed (free m stack) ~ stack :: freed m) : s'.Apart freed Inv Made := by
  refine run_invariant' (fun s e s' ⟨hinv, hnodup, hmade⟩ hstep => ?_) h hrun
  cases e with
  | allocate =>
    obtain ⟨⟨stack, m⟩, htake, rfl⟩ := Option.map_eq_some_iff.mp hstep
    obtain ⟨hinv', hmono, hfreed | ⟨hfreed, hstack, hnew⟩⟩ := hallocate _ stack m hinv htake
    · have hperm : s.live ++ freed s.manager ~ stack :: s.live ++ freed m := hfreed ▸ perm_middle
      exact ⟨hinv', hperm.nodup_iff.mp hnodup, fun a ha => hmono a (hmade a (hperm.mem_iff.mpr ha))⟩
    · refine ⟨hinv', ?_, ?_⟩
      · rw [hfreed, cons_append, nodup_cons]
        exact ⟨fun hmem => hnew (hmade _ hmem), hnodup⟩
      · rw [hfreed, cons_append, forall_mem_cons]
        exact ⟨hstack, fun a ha => hmono a (hmade a ha)⟩
  | free i =>
    obtain ⟨stack, hstack, rfl⟩ := Option.map_eq_some_iff.mp hstep
    obtain ⟨hi, rfl⟩ := List.getElem?_eq_some_iff.mp hstack
    obtain ⟨hinv', hsame, hfreed⟩ := hfree _ s.live[i] hinv
    have hperm : s.live.eraseIdx i ++ freed (free s.manager s.live[i]) ~ s.live ++ freed s.manager :=
      ((hfreed.append_left _).trans perm_middle).trans ((getElem_cons_eraseIdx_perm hi).append_right _)
    exact ⟨hinv', hperm.nodup_iff.mpr hnodup, fun a ha => hsame ▸ hmade a (hperm.mem_iff.mp ha)⟩

end

/-! ## Kernel stacks -/

namespace KernelStackManager

/-- A `KernelStackManager`, with the arguments of its calls of `EnsureResident`. -/
abbrev Logged := KernelStackManager × List (UInt64 × UInt64)

/-- `AllocateKernelStack`. -/
def allocate (m : Logged) : Option (UInt64 × Logged) :=
  match m.1.freeStacks with
  | stack :: freeStacks => some (stack, { m.1 with freeStacks }, m.2)
  | [] =>
    let nextStackAddr := m.1.nextStackAddr + kKernelStackOffset
    if nextStackAddr ≥ kKernelStackEnd then none
    else some (nextStackAddr - 8, { m.1 with nextStackAddr },
      (nextStackAddr - kKernelStackSize, kKernelStackSize) :: m.2)

/-- `FreeKernelStack`. -/
def free (m : Logged) (stackBase : UInt64) : Logged :=
  ({ m.1 with freeStacks := stackBase :: m.1.freeStacks }, m.2)

/-- The function on the heap makes resident what its calls of `EnsureResident` say. -/
theorem allocateKernelStack_eq {A : Type} [PageAllocator A] (h : KernelHeap A) (m : KernelStackManager) :
    h.allocateKernelStack m = (allocate (m, [])).bind fun (stack, m, calls) =>
      (calls.foldlM (fun s (addr, size) => Machine.ensureResident s h.cr3 addr size) h.machine).map fun machine =>
        (stack, m, { h with machine }) := by
  obtain ⟨next, _ | ⟨stack, freeStacks⟩⟩ := m
  · unfold KernelHeap.allocateKernelStack allocate
    dsimp only
    split
    · rfl
    · simp
  · rfl

/-- The next stack is in the region, and only stacks were made resident. -/
def Inv (m : Logged) : Prop :=
  m.1.nextStackAddr.toNat % 0x4000 = 0 ∧ kKernelStackStart ≤ m.1.nextStackAddr ∧ m.1.nextStackAddr < kKernelStackEnd ∧
    ∀ call ∈ m.2, call.1.toNat % 0x4000 = 0x1000 ∧ call.1 < kKernelStackEnd ∧ call.2 = 0x3000

/-- The manager has made a stack with this last word. -/
def Made (m : Logged) (top : UInt64) : Prop :=
  top.toNat % 0x4000 = 0x3FF8 ∧ kKernelStackStart ≤ top ∧ top < m.1.nextStackAddr

theorem Inv.allocate {m m' : Logged} {stack : UInt64} (h : Inv m) (hstep : allocate m = some (stack, m')) :
    Inv m' ∧ (∀ a, Made m a → Made m' a) ∧ (m.1.freeStacks = stack :: m'.1.freeStacks ∨
      m'.1.freeStacks = m.1.freeStacks ∧ Made m' stack ∧ ¬ Made m stack) := by
  obtain ⟨hnext, hstart, hlt, hcalls⟩ := h
  obtain ⟨⟨next, _ | ⟨top, freeStacks⟩⟩, calls⟩ := m
  · simp only [KernelStackManager.allocate, Option.ite_none_left_eq_some, Option.some.injEq, Prod.mk.injEq] at hstep
    obtain ⟨hend, rfl, rfl⟩ := hstep
    simp only [kKernelStackStart, kKernelStackEnd, kKernelStackOffset, kKernelStackSize, ge_iff_le, not_le,
      lt_iff_toNat_lt, le_iff_toNat_le, UInt64.toNat_add, UInt64.toNat_sub, reduceToNat, Inv, Made, forall_mem_cons] at *
    exact ⟨⟨by omega, by omega, hend, ⟨by omega, by omega, trivial⟩, hcalls⟩, fun a ha => by omega,
      Or.inr ⟨trivial, by omega, by omega⟩⟩
  · cases hstep
    exact ⟨⟨hnext, hstart, hlt, hcalls⟩, fun a ha => ha, Or.inl rfl⟩

end KernelStackManager

/-! ## User stacks -/

namespace UserStackManager

/-- The next stack is in the region. -/
def Inv (m : UserStackManager) : Prop :=
  m.nextStack.toNat % 0x100000 = 0 ∧ kUserStackMin < m.nextStack ∧ m.nextStack ≤ kUserStackMax

/-- The manager has made this stack. -/
def Made (m : UserStackManager) (base : UInt64) : Prop :=
  base.toNat % 0x100000 = 0 ∧ m.nextStack ≤ base ∧ base < kUserStackMax

theorem Inv.newUserStack {m m' : UserStackManager} {stack : UInt64} (h : Inv m)
    (hstep : newUserStack m = some (stack, m')) :
    Inv m' ∧ (∀ a, Made m a → Made m' a) ∧ (m.freedStacks = stack :: m'.freedStacks ∨
      m'.freedStacks = m.freedStacks ∧ Made m' stack ∧ ¬ Made m stack) := by
  obtain ⟨next, _ | ⟨base, freedStacks⟩⟩ := m
  · simp only [UserStackManager.newUserStack, Option.ite_none_left_eq_some, Option.some.injEq, Prod.mk.injEq] at hstep
    obtain ⟨hend, rfl, rfl⟩ := hstep
    simp only [kUserStackMin, kUserStackMax, kUserStackSize, not_le, lt_iff_toNat_lt, le_iff_toNat_le,
      UInt64.toNat_sub, reduceToNat, Inv, Made] at *
    exact ⟨by omega, fun a ha => by omega, Or.inr ⟨trivial, by omega, by omega⟩⟩
  · cases hstep
    exact ⟨h, fun a ha => ha, Or.inl rfl⟩

end UserStackManager

/-- **Stacks are apart.** After any allocations and frees, the kernel stacks that were handed out, of which `top` is the
last word, are disjoint and in their region, and no call of `EnsureResident` reaches the page below one; and the user
stacks that were handed out are disjoint and in their region. -/
theorem stacks_apart (events : List StackEvent) :
    (∀ s, run (Stacks.step KernelStackManager.allocate KernelStackManager.free) ⟨({}, []), []⟩ events = some s →
      (s.live ++ s.manager.1.freeStacks).Pairwise (fun top top' =>
        top.toNat + 0x3000 ≤ top'.toNat ∨ top'.toNat + 0x3000 ≤ top.toNat) ∧
      ∀ top ∈ s.live ++ s.manager.1.freeStacks, kKernelStackStart.toNat ≤ top.toNat + 8 - 0x4000 ∧
        top.toNat + 8 < kKernelStackEnd.toNat ∧ ∀ call ∈ s.manager.2, ∀ page : UInt64,
          pageAlign call.1 ≤ page → page < call.1 + call.2 →
            page.toNat < top.toNat + 8 - 0x4000 ∨ top.toNat + 8 - 0x3000 ≤ page.toNat) ∧
    ∀ s, run (Stacks.step UserStackManager.newUserStack UserStackManager.freeUserStack) ⟨{}, []⟩ events = some s →
      (s.live ++ s.manager.freedStacks).Pairwise (fun base base' =>
        base.toNat + 0x100000 ≤ base'.toNat ∨ base'.toNat + 0x100000 ≤ base.toNat) ∧
      ∀ base ∈ s.live ++ s.manager.freedStacks, kUserStackMin.toNat ≤ base.toNat ∧
        base.toNat + 0x100000 ≤ kUserStackMax.toNat := by
  constructor
  · intro s hrun
    have hstart : Stacks.Apart (fun m => m.1.freeStacks) KernelStackManager.Inv KernelStackManager.Made
        ⟨({}, []), []⟩ := ⟨⟨rfl, by decide, by decide, nofun⟩, nodup_nil, nofun⟩
    obtain ⟨⟨hnext, hlow, hhigh, hcalls⟩, hnodup, hmade⟩ := hstart.run hrun (fun m stack m' h => h.allocate)
      fun m stack h => ⟨h, rfl, .rfl⟩
    simp only [KernelStackManager.Made, kKernelStackStart, kKernelStackEnd, lt_iff_toNat_lt, le_iff_toNat_le,
      toNat_pageAlign, UInt64.toNat_add, reduceToNat] at *
    refine ⟨hnodup.pairwise_of_forall_ne fun a ha b hb hne => ?_, fun top htop => ?_⟩
    · have := hmade a ha
      have := hmade b hb
      have : a.toNat ≠ b.toNat := hne ∘ UInt64.toNat_inj.mp
      omega
    · have := hmade top htop
      refine ⟨by omega, by omega, fun call hmem page hle hlt => ?_⟩
      obtain ⟨hmod, hcall, hsize⟩ := hcalls call hmem
      simp only [hsize, reduceToNat] at hlt
      omega
  · intro s hrun
    have hstart : Stacks.Apart UserStackManager.freedStacks UserStackManager.Inv UserStackManager.Made
        ⟨{}, []⟩ := ⟨⟨rfl, by decide, by decide⟩, nodup_nil, nofun⟩
    obtain ⟨⟨hnext, hlow, hhigh⟩, hnodup, hmade⟩ := hstart.run hrun (fun m stack m' h => h.newUserStack)
      fun m stack h => ⟨h, rfl, perm_append_singleton _ _⟩
    simp only [UserStackManager.Made, kUserStackMin, kUserStackMax, lt_iff_toNat_lt, le_iff_toNat_le, reduceToNat] at *
    refine ⟨hnodup.pairwise_of_forall_ne fun a ha b hb hne => ?_, fun base hbase => ?_⟩
    · have := hmade a ha
      have := hmade b hb
      have : a.toNat ≠ b.toNat := hne ∘ UInt64.toNat_inj.mp
      omega
    · have := hmade base hbase
      omega

end Acadia.Zion
