import Acadia.Zion.Memory.PhysicalMemoryOwnership

/-! # The counters of the manager, and how an allocation fails

What `AllocatedPages` and `AvailablePages` say about a run, and which of the two ways an allocation
ends that has no page: with a panic, or with `PeekFront` on a list that ran empty. -/

namespace Acadia.Zion.PhysicalMemoryManager

open scoped Word
open Runs List UInt64

/-! ## The counters -/

/-- `AvailablePages`. -/
def availablePages (pmm : PhysicalMemoryManager) : UInt64 :=
  pmm.memoryBlocks.foldl (fun available block => available + block.numPages) 0

theorem length_pageRun (base n : UInt64) : (pageRun base n).length = n.toNat := by
  rw [pageRun, length_map, length_range]

/-- `AvailablePages` counts the pages in the blocks, and no others. -/
theorem availablePages_eq (pmm : PhysicalMemoryManager) : pmm.availablePages = UInt64.ofNat pmm.blockPages.length := by
  have hfold : ∀ (blocks : List MemBlock) (n : UInt64),
      blocks.foldl (fun available block => available + block.numPages) n =
        n + ofNat (blocks.flatMap MemBlock.pages).length := by
    intro blocks
    induction blocks with
    | nil => simp
    | cons _ _ ih =>
      intro n
      rw [foldl_cons, ih, flatMap_cons, length_append, MemBlock.pages, length_pageRun,
        UInt64.ofNat_add, UInt64.ofNat_toNat, UInt64.add_assoc]
  rw [availablePages, hfold, blockPages, UInt64.zero_add]

theorem length_usablePages {memmap : List MemmapEntry} (h : DisjointUsable memmap) :
    (usablePages memmap).length ≤ 2 ^ 52 := by
  have hnodup : ((usablePages memmap).map (·.toNat / 4096)).Nodup := by
    rw [usablePages, map_flatMap]
    refine nodup_flatMap.mpr ⟨fun e he => ?_, ?_⟩
    · have hfit := (entryPages_fit e).trans (h.bounded e he)
      refine (nodup_pageRun hfit).map_on fun p hp q hq heq => ?_
      obtain ⟨i, hi, hpi⟩ := toNat_of_mem_pageRun hfit hp
      obtain ⟨j, hj, hqj⟩ := toNat_of_mem_pageRun hfit hq
      rw [← UInt64.toNat_inj]
      omega
    refine List.Pairwise.imp_of_mem ?_ h.disjoint
    intro x y hx hy hxy number hnx hny
    obtain ⟨p, hp, rfl⟩ := mem_map.mp hnx
    obtain ⟨q, hq, heq⟩ := mem_map.mp hny
    have hfx := entryPages_fit x
    have hfy := entryPages_fit y
    obtain ⟨i, hi, hpi⟩ := toNat_of_mem_pageRun (hfx.trans (h.bounded x hx)) hp
    obtain ⟨j, hj, hqj⟩ := toNat_of_mem_pageRun (hfy.trans (h.bounded y hy)) hq
    omega
  have hsubset : (usablePages memmap).map (·.toNat / 4096) ⊆ range (2 ^ 52) := by
    intro number hnumber
    obtain ⟨p, -, rfl⟩ := mem_map.mp hnumber
    have hp := p.toNat_lt
    rw [mem_range]
    omega
  have hle := (subperm_of_subset hnodup hsubset).length_le
  rwa [length_map, length_range] at hle

/-- The field `allocated_pages_` is the number of allocated pages, and no single page is free. -/
def Counted (s : Owned) : Prop :=
  s.pmm.singleMemoryPages = [] ∧ s.pmm.allocatedPages = UInt64.ofNat s.allocated.length

/-- **Every operation but `FreePage` keeps the count.** -/
theorem Counted.step {s s' : Owned} {c : Call} (h : Counted s) (hc : (∀ page, c ≠ .freePage page) ∧ FreesAllocated s c)
    (hstep : PhysicalMemoryManager.step s c = some s') : Counted s' := by
  obtain ⟨hsingle, hcount⟩ := h
  obtain ⟨hno, hc⟩ := hc
  cases c with
  | allocatePage =>
    obtain ⟨⟨page, pmm⟩, halloc, rfl⟩ := Option.map_eq_some_iff.mp hstep
    simp only [allocatePage, hsingle] at halloc
    split at halloc
    · cases halloc
      refine ⟨rfl, ?_⟩
      show s.pmm.allocatedPages + 1 = ofNat (s.allocated.length + 1)
      rw [ofNat_add, ← hcount]
      rfl
    · cases halloc
  | allocateContinuous =>
    obtain ⟨⟨page, pmm⟩, halloc, rfl⟩ := Option.map_eq_some_iff.mp hstep
    simp only [allocateContinuous, Option.bind_eq_bind, Option.bind_eq_some_iff] at halloc
    obtain ⟨blocks, -, ⟨p, rest⟩, -, heq⟩ := halloc
    cases heq
    refine ⟨hsingle, ?_⟩
    rw [length_append, length_pageRun, UInt64.ofNat_add, ← hcount, UInt64.ofNat_toNat, UInt64.add_comm]
  | freePage page => exact absurd rfl (hno page)
  | freePages _ n =>
    cases hstep
    refine ⟨hsingle, ?_⟩
    have hlength := (subperm_append_diff_self_of_count_le (subperm_ext_iff.mp hc)).length_eq
    rw [length_append, length_pageRun] at hlength
    show s.pmm.allocatedPages - n = _
    rw [hcount, ← hlength, UInt64.ofNat_add, UInt64.ofNat_toNat]
    grind

theorem Counted.add_availablePages {s : Owned} (h : Counted s) :
    s.pmm.allocatedPages + s.pmm.availablePages = UInt64.ofNat (everyPage s).length := by
  rw [h.2, availablePages_eq, everyPage, h.1, append_nil, length_append, ofNat_add, UInt64.add_comm]

/-- The manager when its constructor is done and `k` pages have gone to the bootstrap allocator. -/
def constructed (memmap : List MemmapEntry) (bootstrap : BootstrapMemory) (k : UInt64) : Owned :=
  ⟨ofMemmap memmap bootstrap.initPage (bootstrap.initPage + k * kPageSize), []⟩

theorem counted_constructed (memmap : List MemmapEntry) (bootstrap : BootstrapMemory) (k : UInt64) :
    Counted (constructed memmap bootstrap k) := by
  refine ⟨(memoryBlocks_ofMemmap _ _ _).2, ?_⟩
  refine foldlRecOn (motive := fun pmm : PhysicalMemoryManager => pmm.allocatedPages = 0) memmap _
    rfl fun pmm h e _ => ?_
  unfold addEntry addMemoryRegion
  split_ifs <;> exact h

/-- A call of `FreePage` changes the sum of the counters. -/
theorem freePage_counters (pmm : PhysicalMemoryManager) (page : UInt64) :
    (pmm.freePage page).allocatedPages + (pmm.freePage page).availablePages ≠
      pmm.allocatedPages + pmm.availablePages := by
  show pmm.allocatedPages - 1 + pmm.availablePages ≠ _
  grind

/-- **What the counters say.** In a run that frees only allocated pages, `AllocatedPages` is always the
number of allocated pages and the sum with `AvailablePages` never changes, if and only if `FreePage` is
never called. -/
theorem counters_right_iff (memmap : List MemmapEntry) (hmap : DisjointUsable memmap) (bootstrap : BootstrapMemory)
    (hboot : BootstrapMemory.initBootstrapPageAllocation memmap = some bootstrap) (k : UInt64) (hk : k.toNat ≤ 9)
    (calls : List Call) (s : Owned) (hcalls : Meets step FreesAllocated (constructed memmap bootstrap k) calls)
    (hrun : run step (constructed memmap bootstrap k) calls = some s) :
    (∀ before s', before <+: calls → run step (constructed memmap bootstrap k) before = some s' →
      s'.pmm.allocatedPages.toNat = s'.allocated.length ∧
      s'.pmm.allocatedPages + s'.pmm.availablePages = (constructed memmap bootstrap k).pmm.allocatedPages +
          (constructed memmap bootstrap k).pmm.availablePages) ↔
    ∀ page, Call.freePage page ∉ calls := by
  have hstart := counted_constructed memmap bootstrap k
  constructor
  · intro h page hmem
    obtain ⟨before, after, rfl⟩ := append_of_mem hmem
    rw [run_append, Option.bind_eq_some_iff] at hrun
    obtain ⟨s₁, hs₁, -⟩ := hrun
    have hfreed : run step (constructed memmap bootstrap k) (before ++ [.freePage page]) =
        some ⟨s₁.pmm.freePage page, s₁.allocated.erase page⟩ :=
      run_concat_eq_some.mpr ⟨s₁, hs₁, rfl⟩
    have hbefore := (h before s₁ (prefix_append _ _) hs₁).2
    have hafter := (h _ _ ⟨after, by rw [append_assoc]; rfl⟩ hfreed).2
    exact freePage_counters s₁.pmm page (hafter.trans hbefore.symm)
  intro hno before s' hpre hs'
  have hpages : List.Perm (everyPage s') (everyPage (constructed memmap bootstrap k)) :=
    run_invariant (P := fun s => List.Perm (everyPage s) (everyPage (constructed memmap bootstrap k)))
      (fun _ _ _ hs hc hstep => (everyPage_step hc hstep).trans hs) (List.Perm.refl _)
      (hcalls.of_isPrefix hpre) hs'
  have hcounted : Counted s' := by
    have hmeets := hcalls.and_forall (Q := fun c => ∀ page, c ≠ .freePage page) fun c hc page heq => hno page (heq ▸ hc)
    exact run_invariant (fun _ _ _ h hc hstep => h.step hc hstep) hstart (hmeets.of_isPrefix hpre) hs'
  refine ⟨?_, ?_⟩
  · have htotal := (available_ofMemmap hmap hboot hk).length_eq
    have hmax := length_usablePages hmap
    have hlength := hpages.length_eq
    rw [hcounted.2, toNat_ofNat', Nat.mod_eq_of_lt]
    simp only [everyPage, constructed, length_append, length_nil] at hlength
    simp only [available, length_append] at htotal
    omega
  · rw [hcounted.add_availablePages, hstart.add_availablePages, hpages.length_eq]

/-- A run that gives a run of pages back. -/
theorem counters_right_iff_freePages :
    let memmap := [⟨0x100000, 0x10000, 0⟩]
    let bootstrap : BootstrapMemory := ⟨0x100000, 0x100000, 0x109000⟩
    ∃ s, run step (constructed memmap bootstrap 3)
        [.allocatePage, .allocateContinuous 4, .freePages 0x104000 4] = some s ∧
      s.pmm.allocatedPages.toNat = s.allocated.length := by
  refine ⟨_, rfl, ((counters_right_iff [⟨0x100000, 0x10000, 0⟩] ⟨by decide, by decide, by decide⟩
    ⟨0x100000, 0x100000, 0x109000⟩ (by decide) 3 (by decide)
    [.allocatePage, .allocateContinuous 4, .freePages 0x104000 4] _ (by decide) rfl).mpr ?_ _ _
    (prefix_refl _) rfl).1⟩
  simp

/-- **A page that is freed twice in a row is counted wrong**: a single page is not counted when it is
allocated again, so the counter goes below zero. -/
theorem allocatedPages_wraps : ∃ s,
    Meets step FreesAllocated (constructed [⟨0x100000, 0x10000, 0⟩] ⟨0x100000, 0x100000, 0x109000⟩ 3)
      [.allocatePage, .freePage 0x103000, .allocatePage, .freePage 0x103000] ∧
    run step (constructed [⟨0x100000, 0x10000, 0⟩] ⟨0x100000, 0x100000, 0x109000⟩ 3)
      [.allocatePage, .freePage 0x103000, .allocatePage, .freePage 0x103000] = some s ∧
    s.allocated = [] ∧ s.pmm.allocatedPages = 0xFFFFFFFFFFFFFFFF :=
  ⟨_, by decide, rfl, by decide, by decide⟩

/-! ## How an allocation fails -/

/-- Why an allocation returns no page. -/
inductive AllocationFault where
  /-- `panic("No available memory regions.")` -/
  | noAvailableRegions
  /-- `panic("No memory regions to allocate")` -/
  | noRegionsToAllocate
  /-- `PeekFront` on a list without items. -/
  | emptyList
  deriving DecidableEq

/-- The check for blocks and the loop that drops empty ones, with which both functions start. -/
def frontBlocks (pmm : PhysicalMemoryManager) : Except AllocationFault (List MemBlock) :=
  if pmm.memoryBlocks.length = 0 then .error .noAvailableRegions
  else
    match dropEmptyBlocks pmm.memoryBlocks with
    | none => .error .emptyList
    | some blocks => .ok blocks

/-- `AllocatePage`, with the way it fails. -/
def allocatePageOrFault (pmm : PhysicalMemoryManager) :
    Except AllocationFault (UInt64 × PhysicalMemoryManager) :=
  match pmm.singleMemoryPages with
  | page :: pages => .ok (page, { pmm with singleMemoryPages := pages })
  | [] => do
    match ← pmm.frontBlocks with
    | [] => .error .emptyList
    | block :: blocks =>
      let rest := { base := block.base + kPageSize, numPages := block.numPages - 1 : MemBlock }
      .ok (block.base, { pmm with
        memoryBlocks := if rest.numPages = 0 then blocks else rest :: blocks
        allocatedPages := pmm.allocatedPages + 1 })

/-- `AllocateContinuous`, with the way it fails. -/
def allocateContinuousOrFault (pmm : PhysicalMemoryManager) (numPages : UInt64) :
    Except AllocationFault (UInt64 × PhysicalMemoryManager) := do
  let blocks ← pmm.frontBlocks
  match carve numPages blocks with
  | none => .error .noRegionsToAllocate
  | some (page, rest) => .ok (page, { pmm with
    memoryBlocks := rest
    allocatedPages := pmm.allocatedPages + numPages })

theorem allocatePageOrFault_toOption (pmm : PhysicalMemoryManager) :
    pmm.allocatePageOrFault.toOption = pmm.allocatePage := by
  unfold allocatePageOrFault allocatePage frontBlocks
  cases pmm.singleMemoryPages with
  | cons => rfl
  | nil =>
    cases pmm.memoryBlocks with
    | nil => rfl
    | cons block blocks =>
      rcases dropEmptyBlocks (block :: blocks) with _ | _ | _ <;> rfl

theorem allocateContinuousOrFault_toOption (pmm : PhysicalMemoryManager) (numPages : UInt64) :
    (pmm.allocateContinuousOrFault numPages).toOption = pmm.allocateContinuous numPages := by
  unfold allocateContinuousOrFault allocateContinuous frontBlocks
  cases pmm.memoryBlocks with
  | nil => rfl
  | cons block blocks =>
    cases dropEmptyBlocks (block :: blocks) with
    | none => rfl
    | some rest =>
      show Except.toOption (match carve numPages rest with
        | none => _
        | some (page, rest) => _) = (carve numPages rest).bind _
      rcases carve numPages rest with _ | ⟨page, rest⟩ <;> rfl

theorem dropEmptyBlocks_eq_none_iff (blocks : List MemBlock) :
    dropEmptyBlocks blocks = none ↔ ∀ block ∈ blocks, block.numPages = 0 := by
  induction blocks with
  | nil => simp [dropEmptyBlocks]
  | cons block _ ih =>
    rw [dropEmptyBlocks, forall_mem_cons]
    by_cases h0 : block.numPages = 0
    · rw [if_pos h0, ih]
      simp [h0]
    · simp [h0]

theorem frontBlocks_eq (pmm : PhysicalMemoryManager) :
    (pmm.memoryBlocks = [] ∧ pmm.frontBlocks = .error .noAvailableRegions) ∨
    (pmm.memoryBlocks ≠ [] ∧ (∀ block ∈ pmm.memoryBlocks, block.numPages = 0) ∧ pmm.frontBlocks = .error .emptyList) ∨
    ((∃ block ∈ pmm.memoryBlocks, block.numPages ≠ 0) ∧ ∃ block blocks, pmm.frontBlocks = .ok (block :: blocks)) := by
  unfold frontBlocks
  by_cases hnil : pmm.memoryBlocks = []
  · exact Or.inl ⟨hnil, if_pos (length_eq_zero_iff.mpr hnil)⟩
  rw [if_neg (mt length_eq_zero_iff.mp hnil)]
  by_cases hall : ∀ block ∈ pmm.memoryBlocks, block.numPages = 0
  · rw [(dropEmptyBlocks_eq_none_iff _).mpr hall]
    exact Or.inr (Or.inl ⟨hnil, hall, rfl⟩)
  simp only [not_forall, exists_prop] at hall
  obtain ⟨block, hmem, hne⟩ := hall
  have hpages : pmm.blockPages ≠ [] := by
    rw [blockPages, ne_eq, flatMap_eq_nil_iff]
    intro h
    have := h block hmem
    rw [MemBlock.pages, pageRun_succ _ hne] at this
    cases this
  obtain ⟨front, rest, hfront⟩ := exists_dropEmptyBlocks hpages
  rw [hfront]
  exact Or.inr (Or.inr ⟨⟨block, hmem, hne⟩, front, rest, rfl⟩)

/-- **No allocation runs past the last block, and `AllocatePage` finds a free page, if and only if there
are no blocks or one of them has a page.** -/
theorem allocations_safe_iff (pmm : PhysicalMemoryManager) : (pmm.allocatePageOrFault ≠ .error .emptyList ∧
      (∀ n, pmm.allocateContinuousOrFault n ≠ .error .emptyList) ∧
      (pmm.available ≠ [] → ∃ page pmm', pmm.allocatePageOrFault = .ok (page, pmm'))) ↔
    (pmm.memoryBlocks = [] ∨ ∃ block ∈ pmm.memoryBlocks, block.numPages ≠ 0) := by
  have hfound : pmm.available ≠ [] → ∃ page pmm', pmm.allocatePageOrFault = .ok (page, pmm') := by
    intro h
    have hsome := allocatePage_isSome h
    rw [← allocatePageOrFault_toOption] at hsome
    cases hok : pmm.allocatePageOrFault with
    | error => rw [hok] at hsome; cases hsome
    | ok r => exact ⟨r.1, r.2, rfl⟩
  unfold allocatePageOrFault allocateContinuousOrFault at *
  rcases pmm.frontBlocks_eq with ⟨hnil, hfront⟩ | ⟨hne, hall, hfront⟩ | ⟨hex, block, blocks, hfront⟩
  · refine iff_of_true ⟨?_, fun n => ?_, hfound⟩ (Or.inl hnil)
    · rw [hfront]
      split <;> nofun
    · rw [hfront]
      nofun
  · refine iff_of_false (fun h => h.2.1 0 ?_) ?_
    · rw [hfront]
      rfl
    · rintro (hnil | ⟨block, hmem, hpages⟩)
      exacts [hne hnil, hpages (hall block hmem)]
  · refine iff_of_true ⟨?_, fun n => ?_, hfound⟩ (Or.inr hex)
    · rw [hfront]
      split <;> nofun
    · rw [hfront]
      show (match carve n (block :: blocks) with
        | none => _
        | some (page, rest) => _) ≠ _
      split <;> nofun

/-- **The last block is used up exactly**, and the next `AllocatePage` runs past it. -/
theorem allocatePage_emptyList : ∃ s, run step (constructed [⟨0x100000, 0x10000, 0⟩] ⟨0x100000, 0x100000, 0x109000⟩ 9)
      [.allocateContinuous 7] = some s ∧
    s.pmm.allocatePageOrFault = .error .emptyList ∧
    s.pmm.allocateContinuousOrFault 1 = .error .emptyList :=
  ⟨_, rfl, by decide, by decide⟩

end Acadia.Zion.PhysicalMemoryManager
