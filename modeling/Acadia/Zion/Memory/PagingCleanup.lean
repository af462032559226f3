import Acadia.Zion.Memory.PagingSpec
import Mathlib.Data.List.Count

/-! # Taking an address space down

`CleanupPml4` of `memory/paging_util.cpp` gives the pages of the tables of a dying address space back. It walks the
part of user space that `cleanupLevels` describes: the first quarter of the top table and the first half of the two
levels below. The tables that `MapPage` can build are those of `userLevels`; the pages in between are never given
back. -/

namespace Acadia.Zion

open RadixTable List Option
open LawfulPageAllocator (available)

/-! ## The functions -/

/-- `CleanupPageStructure`: the pages that it hands to `FreePage`, in order. -/
def cleanupPageStructure (memory : Memory) : Nat → UInt64 → List UInt64
  | 0, structPhys => [structPhys]
  | level + 1, structPhys =>
    ((entryOffsets 256).flatMap fun i =>
      if memory structPhys i &&& presentBit ≠ 0 then
        cleanupPageStructure memory level (memory structPhys i &&& ~~~0xFFF)
      else []) ++ [structPhys]

/-- `CleanupPml4`: the pages that it hands to `FreePage`, in order. -/
def cleanupPml4 (memory : Memory) (pml4 : UInt64) : List UInt64 :=
  ((entryOffsets 128).flatMap fun i =>
    if memory pml4 i &&& presentBit ≠ 0 then
      cleanupPageStructure memory 2 (memory pml4 i &&& ~~~0xFFF)
    else []) ++ [pml4]

/-- The constructor of `AddressSpace`: a page for the top table, and `InitializePml4`. -/
def Machine.createPml4 {A : Type} [PageAllocator A] (s : Machine A) (currCr3 hhdm : UInt64) :
    Option (UInt64 × Machine A) := do
  let (pml4, s) ← s.allocateAndZeroPage
  return (pml4, { s with memory := initializePml4 s.memory currCr3 hhdm pml4 })

/-- `MapPage` in one address space, for a virtual and a physical address. -/
def mapPageIn {A : Type} [PageAllocator A] (cr3 : UInt64) (s : Machine A) (call : UInt64 × UInt64) :
    Option (Machine A) :=
  s.mapPage cr3 call.1 call.2

/-! ## What the walk covers -/

/-- The offsets, level by level, of the entries that `CleanupPml4` looks at. -/
def cleanupLevels : List (List UInt64) :=
  [entryOffsets 128, entryOffsets 256, entryOffsets 256, entryOffsets 512]

/-- The tables for an address are below entries that `CleanupPml4` looks at. -/
def CleanupReaches (vaddr : UInt64) : Prop :=
  vaddr.toNat / 2 ^ 39 % 512 < 128 ∧ vaddr.toNat / 2 ^ 30 % 512 < 256 ∧
    vaddr.toNat / 2 ^ 21 % 512 < 256

instance (vaddr : UInt64) : Decidable (CleanupReaches vaddr) :=
  inferInstanceAs (Decidable (_ ∧ _ ∧ _))

/-- `CleanupPageStructure` visits the frames of the table below it, each level's first half. -/
theorem cleanupPageStructure_perm (memory : Memory) (level : Nat) (f : UInt64) :
    List.Perm (cleanupPageStructure memory level f)
      (frames entryFormat memory (List.replicate level (entryOffsets 256) ++ [entryOffsets 512]) f) := by
  induction level generalizing f with
  | zero =>
    rw [cleanupPageStructure, replicate_zero, nil_append, frames, flatMap_eq_nil_iff.mpr]
    intro i _
    simp only [frames, ite_self]
  | succ level ih =>
    refine (perm_append_singleton _ _).trans ?_
    apply List.Perm.cons
    apply List.Perm.flatMap_left
    intro i _
    simp only [present_iff, ne_eq]
    split
    · exact ih _
    · exact List.Perm.refl _

/-- **`CleanupPml4` visits the frames of one part of the table**, each once. -/
theorem cleanupPml4_perm (memory : Memory) (pml4 : UInt64) :
    List.Perm (cleanupPml4 memory pml4) (frames entryFormat memory cleanupLevels pml4) := by
  refine (perm_append_singleton _ _).trans ?_
  apply List.Perm.cons
  apply List.Perm.flatMap_left
  intro i _
  simp only [present_iff, ne_eq]
  split
  · exact cleanupPageStructure_perm memory 2 _
  · exact List.Perm.refl _

theorem nodup_cleanupLevels : ∀ is ∈ cleanupLevels, is.Nodup := by
  simp only [cleanupLevels, forall_mem_cons, not_mem_nil, false_implies, implies_true, and_true]
  exact ⟨nodup_entryOffsets (by decide), nodup_entryOffsets (by decide),
    nodup_entryOffsets (by decide), nodup_entryOffsets (le_refl 512)⟩

theorem cleanupLevels_sublist : List.Forall₂ List.Sublist cleanupLevels userLevels := by
  have hle : ∀ {n k : Nat}, n ≤ k → (entryOffsets n).Sublist (entryOffsets k) := fun h =>
    (range_sublist.mpr h).map _
  exact .cons (hle (by decide)) (.cons (hle (by decide)) (.cons (hle (by decide)) (.cons (hle (le_refl 512)) .nil)))

theorem dropLast_entryPath_mem_iff {v : UInt64} :
    List.Forall₂ (· ∈ ·) (entryPath v).dropLast cleanupLevels.dropLast ↔ CleanupReaches v := by
  show List.Forall₂ (· ∈ ·) [shiftForEntryIndexing v 39, shiftForEntryIndexing v 30,
    shiftForEntryIndexing v 21] [entryOffsets 128, entryOffsets 256, entryOffsets 256] ↔ _
  simp only [forall₂_cons, List.Forall₂.nil, and_true]
  rw [shift_mem_entryOffsets (by decide) (by decide), shift_mem_entryOffsets (by decide) (by decide),
    shift_mem_entryOffsets (by decide) (by decide)]
  rfl

theorem entryPath_mem_cleanupLevels {v : UInt64} (h : CleanupReaches v) :
    List.Forall₂ (· ∈ ·) (entryPath v) cleanupLevels := by
  obtain ⟨h39, h30, h21⟩ := h
  simp only [entryPath, cleanupLevels, map_cons, map_nil, forall₂_cons, List.Forall₂.nil, and_true]
  refine ⟨(shift_mem_entryOffsets (by decide) (by decide)).mpr h39,
    (shift_mem_entryOffsets (by decide) (by decide)).mpr h30,
    (shift_mem_entryOffsets (by decide) (by decide)).mpr h21,
    (shift_mem_entryOffsets (by decide) (le_refl 512)).mpr (Nat.mod_lt _ (by decide))⟩

/-! ## The tables of one address space -/

section Tables

variable {A : Type} [LawfulPageAllocator A]

/-- The pages that were handed out between two states. -/
def allocatedPages (s s' : Machine A) : List UInt64 :=
  (available s.allocator).diff (available s'.allocator)

/-- **The tables below `levels` hold all pages that were handed out**, besides the top table. -/
structure TableHolds (levels : List (List UInt64)) (pml4 : UInt64) (free : List UInt64)
    (s : Machine A) : Prop where
  /-- The frames and the pages still available are the top table and what was available at first. -/
  perm : List.Perm
    (frames entryFormat s.memory levels pml4 ++ available s.allocator)
    (pml4 :: free)
  regular : Regular entryFormat s.memory levels pml4

theorem tableHolds_blank {is : List UInt64} {ix : List (List UInt64)} {pml4 : UInt64} {s : Machine A}
    (h : ∀ i ∈ is, entryFormat.present (s.memory pml4 i) = false) :
    TableHolds (is :: ix) pml4 (available s.allocator) s :=
  ⟨by rw [frames_blank h, singleton_append], regular_blank h⟩

namespace TableHolds

variable {levels : List (List UInt64)} {pml4 : UInt64} {free : List UInt64} {s s' : Machine A}

/-- **`MapPage` keeps the tables complete**, along a path below `levels`. -/
theorem mapPage (h : TableHolds levels pml4 free s) (hnodup : (pml4 :: free).Nodup)
    (haligned : ∀ g ∈ pml4 :: free, PageAligned g) (hlevels : ∀ is ∈ levels, is.Nodup) {vaddr paddr : UInt64}
    (hpath : List.Forall₂ (· ∈ ·) (entryPath vaddr) levels) (hmap : s.mapPage pml4 vaddr paddr = some s') :
    TableHolds levels pml4 free s' ∧ (∃ e, translation s'.memory pml4 vaddr = some (e, [])) ∧
      ∀ w, List.Forall₂ (· ∈ ·) (entryPath w) levels → translation s.memory pml4 w ≠ none →
        translation s'.memory pml4 w = translation s.memory pml4 w := by
  have hnone := append_nil (available s.allocator)
  have hmapped := mapped_of_mapPage [] hpath hlevels
    (hnone.symm ▸ h.perm.nodup_iff.mpr hnodup) h.regular
    (hnone.symm ▸ fun g hg => haligned g (h.perm.subset (mem_append_right _ hg))) hmap
  rw [append_nil, append_nil] at hmapped
  refine ⟨⟨hmapped.perm.trans h.perm, hmapped.regular⟩, ⟨_, hmapped.here⟩, ?_⟩
  intro w hw hsome
  refine hmapped.elsewhere _ hw fun heq => hsome ?_
  rw [translation, heq]
  exact hmapped.before

/-- **A run of `MapPage` keeps the tables complete**, and each of its pages stays mapped. -/
theorem run (h : TableHolds levels pml4 free s) (hnodup : (pml4 :: free).Nodup)
    (haligned : ∀ g ∈ pml4 :: free, PageAligned g) (hlevels : ∀ is ∈ levels, is.Nodup)
    {calls : List (UInt64 × UInt64)} (hpaths : ∀ c ∈ calls, List.Forall₂ (· ∈ ·) (entryPath c.1) levels)
    (hrun : Runs.run (mapPageIn pml4) s calls = some s') :
    TableHolds levels pml4 free s' ∧ (∀ c ∈ calls, ∃ e, translation s'.memory pml4 c.1 = some (e, [])) ∧
      ∀ w, List.Forall₂ (· ∈ ·) (entryPath w) levels → translation s.memory pml4 w ≠ none →
        translation s'.memory pml4 w = translation s.memory pml4 w := by
  induction calls generalizing s with
  | nil =>
    rw [Runs.run_nil, some.injEq] at hrun
    subst hrun
    exact ⟨h, fun c hc => absurd hc not_mem_nil, fun _ _ _ => rfl⟩
  | cons c calls ih =>
    rw [Runs.run_cons, bind_eq_some_iff] at hrun
    obtain ⟨s1, hs1, hrun⟩ := hrun
    rw [forall_mem_cons] at hpaths
    obtain ⟨h1, ⟨e, he⟩, hkeep1⟩ := h.mapPage hnodup haligned hlevels hpaths.1 hs1
    obtain ⟨h', hmapped, hkeep⟩ := ih h1 hpaths.2 hrun
    refine ⟨h', ?_, ?_⟩
    · rintro d hd
      rcases mem_cons.mp hd with rfl | hd
      · exact ⟨e, by rw [hkeep _ hpaths.1 (by rw [he]; simp), he]⟩
      · exact hmapped d hd
    · intro w hw hsome
      have hstep := hkeep1 w hw hsome
      rw [hkeep w hw (by rwa [hstep]), hstep]

theorem frames_perm {s1 : Machine A} (hne : levels ≠ []) (h : TableHolds levels pml4 (available s1.allocator) s) :
    List.Perm (frames entryFormat s.memory levels pml4) (pml4 :: allocatedPages s1 s) := by
  obtain ⟨is, ix, rfl⟩ := exists_cons_of_ne_nil hne
  have hperm := h.perm
  rw [frames_cons, cons_append, perm_cons] at hperm
  rw [frames_cons, perm_cons, allocatedPages]
  rw [perm_iff_count] at hperm ⊢
  intro g
  have hcount := hperm g
  rw [count_append] at hcount
  rw [count_diff]
  omega

end TableHolds

end Tables

/-! ## Creation, mapping and destruction -/

section Lifetime

variable {A : Type} [LawfulPageAllocator A]

theorem createPml4_spec {s s1 : Machine A} {currCr3 hhdm pml4 : UInt64} (hhdm_half : KernelHalf hhdm)
    (h : s.createPml4 currCr3 hhdm = some (pml4, s1)) :
    List.Perm (pml4 :: available s1.allocator) (available s.allocator) ∧
      ∀ i ∈ entryOffsets 256, entryFormat.present (s1.memory pml4 i) = false := by
  rw [Machine.createPml4, Machine.allocateAndZeroPage] at h
  simp only [bind_eq_bind, bind_eq_some_iff, map_eq_some_iff, Prod.exists,
    Prod.mk.injEq, Option.pure_def, Option.some.injEq] at h
  obtain ⟨_, _, ⟨page, allocator, halloc, rfl, rfl⟩, rfl, rfl⟩ := h
  refine ⟨LawfulPageAllocator.allocatePage_perm halloc, ?_⟩
  intro i hi
  -- the two entries that are written are in the upper half
  have hkernel : i ≠ shiftForEntryIndexing 0xFFFFFFFF80000000 39 := fun heq =>
    (shift_mem_user_iff _).mp (heq ▸ hi) (by decide)
  have hdirect : i ≠ shiftForEntryIndexing hhdm 39 := fun heq =>
    (shift_mem_user_iff _).mp (heq ▸ hi) hhdm_half
  show entryFormat.present (initializePml4 (clear s.memory page 0) currCr3 hhdm page page i) = false
  rw [initializePml4, write_index_ne hdirect, write_index_ne hkernel, clear_self]
  show entryFormat.present 0 = false
  decide

theorem not_kernelHalf_of_lt {v : UInt64} (h : v < kUserSpaceMax) : ¬ KernelHalf v := by
  rw [UInt64.lt_iff_toNat_lt, show kUserSpaceMax.toNat = 2 ^ 47 from rfl] at h
  rw [KernelHalf]
  omega

/-- **`CleanupPml4` frees exactly the tables of the address space** if and only if every page that
was mapped has its tables below entries that `CleanupPml4` looks at. -/
theorem cleanupPml4_frees_tables_iff {s s₁ s' : Machine A} {currCr3 hhdm pml4 : UInt64} {calls : List (UInt64 × UInt64)}
    (hfresh : (available s.allocator).Nodup) (haligned : ∀ page ∈ available s.allocator, PageAligned page)
    (hhdm_half : KernelHalf hhdm) (hcreate : s.createPml4 currCr3 hhdm = some (pml4, s₁))
    (huser : ∀ c ∈ calls, c.1 < kUserSpaceMax) (hmap : Runs.run (mapPageIn pml4) s₁ calls = some s') :
    List.Perm (cleanupPml4 s'.memory pml4) (pml4 :: allocatedPages s₁ s') ↔ ∀ c ∈ calls, CleanupReaches c.1 := by
  obtain ⟨hperm, hblank⟩ := createPml4_spec hhdm_half hcreate
  have hnodup := hperm.nodup_iff.mpr hfresh
  have haligned' : ∀ g ∈ pml4 :: available s₁.allocator, PageAligned g :=
    fun g hg => haligned g (hperm.subset hg)
  constructor
  · intro hexact c hc
    by_contra hnot
    -- all tables are frames of user space, and those of `c` are not all below `cleanupLevels`
    obtain ⟨h', hmapped, -⟩ := (tableHolds_blank hblank).run hnodup haligned' nodup_userLevels
      (fun d hd => entryPath_mem (not_kernelHalf_of_lt (huser d hd))) hmap
    obtain ⟨e, he⟩ := hmapped c hc
    have hlt := length_frames_lt cleanupLevels_sublist (entryPath_mem (not_kernelHalf_of_lt (huser c hc)))
      (fun hpath => hnot (dropLast_entryPath_mem_iff.mp hpath)) he
    have hsame : List.Perm (frames entryFormat s'.memory cleanupLevels pml4)
        (frames entryFormat s'.memory userLevels pml4) :=
      (cleanupPml4_perm _ _).symm.trans (hexact.trans (h'.frames_perm (cons_ne_nil _ _)).symm)
    exact absurd hsame.length_eq (Nat.ne_of_lt hlt)
  · intro hreach
    have hblank' : ∀ i ∈ entryOffsets 128, entryFormat.present (s₁.memory pml4 i) = false := fun i hi =>
      hblank i (((range_sublist.mpr (by decide)).map _).subset hi)
    obtain ⟨h', -, -⟩ := (tableHolds_blank hblank').run hnodup haligned' nodup_cleanupLevels
      (fun d hd => entryPath_mem_cleanupLevels (hreach d hd)) hmap
    exact (cleanupPml4_perm _ _).trans (h'.frames_perm (cons_ne_nil _ _))

/-- A machine with sixteen free pages, and nothing in memory. -/
def sixteenFreePages : Machine PhysicalMemoryManager :=
  ⟨{ memoryBlocks := [⟨0x100000, 16⟩] }, fun _ _ => 0⟩

/-- The address space that is made on it. -/
def freshSpace : Machine PhysicalMemoryManager :=
  ((sixteenFreePages.createPml4 0x1000 0xFFFF800000000000).map Prod.snd).getD sixteenFreePages

/-- Two pages of program text that share their tables are given back. -/
theorem cleanupPml4_frees_tables_iff_text :
    ∃ s', Runs.run (mapPageIn 0x100000) freshSpace [(0x400000, 0x9000), (0x401000, 0xA000)] = some s' ∧
      List.Perm (cleanupPml4 s'.memory 0x100000) (0x100000 :: allocatedPages freshSpace s') := by
  have hsome : (Runs.run (mapPageIn 0x100000) freshSpace
      [(0x400000, 0x9000), (0x401000, 0xA000)]).isSome = true := by decide +kernel
  have hcreate : sixteenFreePages.createPml4 0x1000 0xFFFF800000000000 = some (0x100000, freshSpace) := rfl
  obtain ⟨s', hs'⟩ := isSome_iff_exists.mp hsome
  exact ⟨s', hs', (cleanupPml4_frees_tables_iff (by decide +kernel)
    (all_iff_forall_prop.mp (by decide +kernel)) (by decide) hcreate
    (all_iff_forall_prop.mp (by decide)) hs').mpr (all_iff_forall_prop.mp (by decide))⟩

/-- **The tables of the first user stack are not given back.** The fault on the topmost page below
`kUserStackMax` builds three tables below entry 255 of the top table, which `CleanupPml4` does not
look at. -/
theorem cleanupPml4_leaks_stack_tables :
    (Runs.run (mapPageIn 0x100000) freshSpace [(kUserStackMax - kPageSize, 0x9000)]).map (fun s' =>
        (cleanupPml4 s'.memory 0x100000, allocatedPages freshSpace s')) =
      some ([0x100000], [0x101000, 0x102000, 0x103000]) := by
  decide +kernel

end Lifetime

end Acadia.Zion
