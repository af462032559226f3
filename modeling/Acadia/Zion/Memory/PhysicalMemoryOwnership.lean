import Acadia.Foundations.Runs
import Acadia.Foundations.Word
import Acadia.Zion.Memory.PhysicalMemory
import Mathlib.Data.List.Nodup
import Mathlib.Data.List.Perm.Subperm

/-! # Ownership of physical pages

Every page of the usable memory is in exactly one place: in a block, in the list of single pages, or with the
caller that allocated it. Each operation permutes the list of all pages; so over any run nothing is handed out
twice and nothing is lost (`pages_partitioned`). -/

namespace Acadia.Zion

open Option UInt64 List MemBlock

open scoped Word

/-- The pages of a contiguous run. -/
def pageRun (base numPages : UInt64) : List UInt64 :=
  (List.range numPages.toNat).map fun i => base + UInt64.ofNat i * kPageSize

@[simp] theorem pageRun_zero (base : UInt64) : pageRun base 0 = [] := rfl

/-- A run is its first `k` pages followed by the others. -/
theorem pageRun_split (base : UInt64) {k n : UInt64} (h : k ≤ n) :
    pageRun base n = pageRun base k ++ pageRun (base + k * kPageSize) (n - k) := by
  have hn : n.toNat = k.toNat + (n - k).toNat := by
    rw [UInt64.toNat_sub_of_le _ _ h]
    have := UInt64.le_iff_toNat_le.mp h
    omega
  rw [pageRun, pageRun, pageRun, hn, List.range_add, List.map_append, List.map_map]
  congr 1
  refine List.map_congr_left fun i _ => ?_
  simp only [Function.comp_apply, UInt64.ofNat_add, UInt64.ofNat_toNat]
  grind

theorem pageRun_succ (base : UInt64) {n : UInt64} (h : n ≠ 0) :
    pageRun base n = base :: pageRun (base + kPageSize) (n - 1) := by
  have hle : 1 ≤ n := by
    rw [le_iff_toNat_le]
    have : n.toNat ≠ 0 := fun h0 => h (UInt64.toNat_inj.mp h0)
    simp only [toNat_one]
    omega
  rw [pageRun_split base hle]
  simp [pageRun]

/-- The pages of a block. -/
def MemBlock.pages (block : MemBlock) : List UInt64 := pageRun block.base block.numPages

namespace PhysicalMemoryManager

/-- The pages in `memory_blocks_`. -/
def blockPages (pmm : PhysicalMemoryManager) : List UInt64 :=
  pmm.memoryBlocks.flatMap pages

/-- The pages that the manager can hand out. -/
def available (pmm : PhysicalMemoryManager) : List UInt64 := pmm.blockPages ++ pmm.singleMemoryPages

variable {blocks blocks' : List MemBlock}

theorem dropEmptyBlocks_pages (h : dropEmptyBlocks blocks = some blocks') :
    blocks'.flatMap pages = blocks.flatMap pages := by
  induction blocks with
  | nil => simp [dropEmptyBlocks] at h
  | cons block _ ih =>
    rw [dropEmptyBlocks] at h
    by_cases h0 : block.numPages = 0
    · rw [if_pos h0] at h
      rw [ih h, flatMap_cons, pages, h0, pageRun_zero, nil_append]
    · rw [if_neg h0, some.injEq] at h
      rw [h]

theorem dropEmptyBlocks_head {block : MemBlock}
    (h : dropEmptyBlocks blocks = some (block :: blocks')) : block.numPages ≠ 0 := by
  induction blocks with
  | nil => simp [dropEmptyBlocks] at h
  | cons b _ ih =>
    rw [dropEmptyBlocks] at h
    by_cases h0 : b.numPages = 0
    · rw [if_pos h0] at h
      exact ih h
    · rw [if_neg h0, some.injEq, cons.injEq] at h
      exact h.1 ▸ h0

variable {pmm pmm' : PhysicalMemoryManager} {page n base k : UInt64}

/-- **`AllocatePage` takes one of the available pages.** -/
theorem allocatePage_perm (h : pmm.allocatePage = some (page, pmm')) :
    List.Perm (page :: pmm'.available) pmm.available := by
  unfold allocatePage at h
  cases hsingle : pmm.singleMemoryPages with
  | cons =>
    simp only [hsingle, some.injEq, Prod.mk.injEq] at h
    obtain ⟨rfl, rfl⟩ := h
    rw [available, available, hsingle]
    exact perm_middle.symm
  | nil =>
    cases hblocks : dropEmptyBlocks pmm.memoryBlocks with
    | none => simp [hsingle, hblocks] at h
    | some blocks =>
      cases blocks with
      | nil => simp [hsingle, hblocks] at h
      | cons block =>
        simp only [hsingle, hblocks, some.injEq, Prod.mk.injEq] at h
        obtain ⟨rfl, rfl⟩ := h
        have hpages := dropEmptyBlocks_pages hblocks
        have hne := dropEmptyBlocks_head hblocks
        rw [flatMap_cons, pages, pageRun_succ _ hne] at hpages
        simp only [available, blockPages, hsingle, append_nil]
        rw [← hpages, cons_append]
        by_cases hlast : block.numPages - 1 = 0
        · rw [if_pos hlast, hlast, pageRun_zero, nil_append]
        · rw [if_neg hlast, flatMap_cons, pages]

theorem exists_dropEmptyBlocks (h : blocks.flatMap pages ≠ []) :
    ∃ block blocks', dropEmptyBlocks blocks = some (block :: blocks') := by
  induction blocks with
  | nil => exact absurd rfl h
  | cons block blocks ih =>
    rw [dropEmptyBlocks]
    by_cases h0 : block.numPages = 0
    · rw [if_pos h0]
      rw [flatMap_cons, pages, h0, pageRun_zero, nil_append] at h
      exact ih h
    · exact ⟨block, blocks, if_neg h0⟩

/-- **`AllocatePage` succeeds while a page is available.** -/
theorem allocatePage_isSome (h : pmm.available ≠ []) : pmm.allocatePage.isSome = true := by
  unfold allocatePage
  cases hsingle : pmm.singleMemoryPages with
  | cons => rfl
  | nil =>
    rw [available, hsingle, append_nil] at h
    obtain ⟨block, blocks, hblocks⟩ := exists_dropEmptyBlocks h
    simp only [hblocks]
    rfl

theorem carve_perm {rest : List MemBlock} (h : carve n blocks = some (page, rest)) :
    List.Perm (pageRun page n ++ rest.flatMap pages) (blocks.flatMap pages) := by
  induction blocks generalizing rest with
  | nil => simp [carve] at h
  | cons block _ ih =>
    rw [carve] at h
    by_cases hlt : block.numPages < n
    · rw [if_pos hlt, map_eq_some_iff] at h
      obtain ⟨⟨p, rest'⟩, hcarve, heq⟩ := h
      obtain ⟨rfl, rfl⟩ := Prod.mk.inj heq
      rw [flatMap_cons, flatMap_cons]
      exact (perm_append_comm_assoc _ _ _).trans ((ih hcarve).append_left _)
    · rw [if_neg hlt, some.injEq, Prod.mk.injEq] at h
      obtain ⟨rfl, rfl⟩ := h
      rw [flatMap_cons, flatMap_cons, pages, pages,
        pageRun_split block.base (not_lt.mp hlt), append_assoc]

/-- **`AllocateContinuous` takes a run of available pages.** -/
theorem allocateContinuous_perm (h : pmm.allocateContinuous n = some (page, pmm')) :
    List.Perm (pageRun page n ++ pmm'.available) pmm.available := by
  unfold allocateContinuous at h
  simp only [bind_eq_bind, bind_eq_some_iff] at h
  obtain ⟨blocks, hblocks, ⟨p, rest⟩, hcarve, heq⟩ := h
  obtain ⟨rfl, rfl⟩ := Prod.mk.inj (some.inj heq)
  rw [available, available, blockPages, blockPages, ← dropEmptyBlocks_pages hblocks, ← append_assoc]
  exact (carve_perm hcarve).append_right _

/-- **`FreePage` gives one page back.** -/
theorem freePage_perm (pmm : PhysicalMemoryManager) (page : UInt64) :
    List.Perm (pmm.freePage page).available (page :: pmm.available) :=
  perm_middle

/-- **`FreePages` gives a run of pages back.** -/
theorem freePages_perm (pmm : PhysicalMemoryManager) (page n : UInt64) :
    List.Perm (pmm.freePages page n).available (pageRun page n ++ pmm.available) := by
  rw [available, available, blockPages, blockPages, ← append_assoc]
  exact List.Perm.refl _

/-! ## The usable pages of a memory map -/

/-- The usable entries of a memory map. -/
def usable (memmap : List MemmapEntry) : List MemmapEntry := memmap.filter fun e => e.type = 0

/-- The whole pages of an entry, counted from its base. -/
def entryPages (entry : MemmapEntry) : List UInt64 := pageRun entry.base (entry.length / kPageSize)

/-- The usable pages of a memory map. -/
def usablePages (memmap : List MemmapEntry) : List UInt64 := (usable memmap).flatMap entryPages

/-- **A memory map with pairwise disjoint usable regions**: each is a range of addresses, not empty
and inside the address space, and no two of them overlap. -/
structure DisjointUsable (memmap : List MemmapEntry) : Prop where
  /-- A region has at least one byte. -/
  nonempty : ∀ e ∈ usable memmap, 0 < e.length.toNat
  /-- A region ends inside the address space. -/
  bounded : ∀ e ∈ usable memmap, e.base.toNat + e.length.toNat ≤ 2 ^ 64
  /-- Of two regions one ends before the other starts. -/
  disjoint : (usable memmap).Pairwise fun x y =>
    x.base.toNat + x.length.toNat ≤ y.base.toNat ∨ y.base.toNat + y.length.toNat ≤ x.base.toNat

theorem toNat_of_mem_pageRun (hfit : base.toNat + n.toNat * 4096 ≤ 2 ^ 64)
    (h : page ∈ pageRun base n) : ∃ i, i < n.toNat ∧ page.toNat = base.toNat + i * 4096 := by
  obtain ⟨i, hi, rfl⟩ := mem_map.mp h
  rw [mem_range] at hi
  have hn := n.toNat_lt
  refine ⟨i, hi, ?_⟩
  have hk : kPageSize.toNat = 4096 := rfl
  rw [UInt64.toNat_add, UInt64.toNat_mul, UInt64.toNat_ofNat', hk]
  omega

theorem nodup_pageRun (hfit : base.toNat + n.toNat * 4096 ≤ 2 ^ 64) : (pageRun base n).Nodup := by
  refine List.Nodup.map_on ?_ nodup_range
  intro i hi j hj heq
  rw [mem_range] at hi hj
  have hn := n.toNat_lt
  have hk : kPageSize.toNat = 4096 := rfl
  have hnat := congrArg UInt64.toNat heq
  rw [UInt64.toNat_add, UInt64.toNat_mul, UInt64.toNat_ofNat', UInt64.toNat_add, UInt64.toNat_mul,
    UInt64.toNat_ofNat', hk] at hnat
  omega

theorem entryPages_fit (e : MemmapEntry) :
    e.base.toNat + (e.length / kPageSize).toNat * 4096 ≤ e.base.toNat + e.length.toNat := by
  have hk : kPageSize.toNat = 4096 := rfl
  rw [UInt64.toNat_div, hk]
  omega

variable {memmap : List MemmapEntry}

/-- **Disjoint regions have no page in common**, and no region has a page twice. -/
theorem nodup_usablePages (h : DisjointUsable memmap) : (usablePages memmap).Nodup := by
  refine nodup_flatMap.mpr ⟨fun e he => ?_, ?_⟩
  · exact nodup_pageRun ((entryPages_fit e).trans (h.bounded e he))
  · refine List.Pairwise.imp_of_mem ?_ h.disjoint
    intro x y hx hy hxy page hpx hpy
    have hfx := entryPages_fit x
    have hfy := entryPages_fit y
    obtain ⟨i, hi, hpi⟩ := toNat_of_mem_pageRun (hfx.trans (h.bounded x hx)) hpx
    obtain ⟨j, hj, hpj⟩ := toNat_of_mem_pageRun (hfy.trans (h.bounded y hy)) hpy
    omega

theorem DisjointUsable.eq_of_base (h : DisjointUsable memmap) {pre post : List MemmapEntry} {e : MemmapEntry}
    (hsplit : usable memmap = pre ++ e :: post) : ∀ x ∈ pre ++ post, x.base ≠ e.base := by
  intro x hx heq
  have hdisj := h.disjoint
  have he : e ∈ usable memmap := by simp [hsplit]
  have hpos := h.nonempty e he
  have hmem : x ∈ usable memmap := by
    rw [hsplit]
    rcases mem_append.mp hx with hx | hx
    exacts [mem_append_left _ hx, mem_append_right _ (mem_cons_of_mem _ hx)]
  have hposx := h.nonempty x hmem
  rw [hsplit, pairwise_append, pairwise_cons] at hdisj
  rcases mem_append.mp hx with hx | hx
  · have hxe := hdisj.2.2 x hx e (by simp)
    rw [heq] at hxe
    omega
  · have hex := hdisj.2.1.1 x hx
    rw [heq] at hex
    omega

/-! ## The constructor -/

/-- The block that the constructor adds for a usable entry. -/
def entryBlock (initPage nextPage : UInt64) (entry : MemmapEntry) : MemBlock :=
  if entry.base = initPage then ⟨nextPage, (entry.length - (nextPage - initPage)) / kPageSize⟩
  else ⟨entry.base, entry.length / kPageSize⟩

theorem memoryBlocks_ofMemmap (memmap : List MemmapEntry) (initPage nextPage : UInt64) :
    (ofMemmap memmap initPage nextPage).memoryBlocks = ((usable memmap).map (entryBlock initPage nextPage)).reverse ∧
    (ofMemmap memmap initPage nextPage).singleMemoryPages = [] := by
  induction memmap using reverseRecOn with
  | nil => exact ⟨rfl, rfl⟩
  | append_singleton es e ih =>
    have hfold : ofMemmap (es ++ [e]) initPage nextPage =
        addEntry initPage nextPage (ofMemmap es initPage nextPage) e := by
      simp [ofMemmap, foldl_append]
    rw [hfold, addEntry]
    by_cases htype : e.type = 0
    · by_cases hbase : e.base = initPage
      all_goals
        simp [htype, hbase, addMemoryRegion, usable, entryBlock] at ih ⊢
        exact ih
    · simp [htype, usable] at ih ⊢
      exact ih

/-- The block of the bootstrap entry, after the bootstrap allocator has handed out `k` pages. -/
theorem pages_entryBlock {e : MemmapEntry} (hk : k.toNat ≤ 9) (hlen : 0x9000 ≤ e.length.toNat) :
    List.Perm (pageRun e.base k ++ (entryBlock e.base (e.base + k * kPageSize) e).pages) (entryPages e) := by
  have hps : kPageSize.toNat = 4096 := rfl
  have hkle : k ≤ e.length / kPageSize := by
    rw [UInt64.le_iff_toNat_le, UInt64.toNat_div, hps]
    omega
  -- the pages handed out are whole pages of the entry
  have hleft : (e.length - (e.base + k * kPageSize - e.base)) / kPageSize = e.length / kPageSize - k := by
    have hlt := e.length.toNat_lt
    have hused : e.base + k * kPageSize - e.base = k * kPageSize := by grind
    rw [hused, ← UInt64.toNat_inj]
    simp only [UInt64.toNat_div, UInt64.toNat_sub, UInt64.toNat_mul, kPageSize, UInt64.reduceToNat]
    omega
  rw [entryBlock, if_pos rfl, pages, hleft, entryPages, pageRun_split e.base hkle]

/-- **The constructor takes over every usable page** that the bootstrap allocator has not handed
out by the time it reads `next_page`. -/
theorem available_ofMemmap (h : DisjointUsable memmap) {bootstrap : BootstrapMemory}
    (hboot : BootstrapMemory.initBootstrapPageAllocation memmap = some bootstrap) (hk : k.toNat ≤ 9) :
    List.Perm (pageRun bootstrap.initPage k ++
        (ofMemmap memmap bootstrap.initPage (bootstrap.initPage + k * kPageSize)).available)
      (usablePages memmap) := by
  obtain ⟨e, hfind, rfl⟩ := map_eq_some_iff.mp hboot
  have he := find?_some hfind
  simp only [Bool.and_eq_true, decide_eq_true_eq] at he
  have hlen : 0x9000 ≤ e.length.toNat := le_iff_toNat_le.mp he.2
  have hmem : e ∈ usable memmap :=
    mem_filter.mpr ⟨mem_of_find?_eq_some hfind, by simpa using he.1⟩
  obtain ⟨pre, post, hsplit⟩ := append_of_mem hmem
  have hother := h.eq_of_base hsplit
  obtain ⟨hblocks, hsingle⟩ :=
    memoryBlocks_ofMemmap memmap e.base (e.base + k * kPageSize)
  have hsame : ∀ es : List MemmapEntry, (∀ x ∈ es, x.base ≠ e.base) →
      (es.map (entryBlock e.base (e.base + k * kPageSize))).flatMap pages = es.flatMap entryPages := by
    intro es hes
    rw [flatMap_map]
    refine flatMap_congr fun x hx => ?_
    rw [entryBlock, if_neg (hes x hx), pages, entryPages]
  have hperm : List.Perm (ofMemmap memmap e.base (e.base + k * kPageSize)).available
      (((usable memmap).map (entryBlock e.base (e.base + k * kPageSize))).flatMap pages) := by
    rw [available, blockPages, hblocks, hsingle, append_nil]
    exact (reverse_perm _).flatMap_right _
  refine (hperm.append_left _).trans ?_
  rw [usablePages, hsplit, map_append, map_cons, flatMap_append, flatMap_cons,
    hsame pre fun x hx => hother x (mem_append_left _ hx),
    hsame post fun x hx => hother x (mem_append_right _ hx), flatMap_append,
    flatMap_cons]
  refine (perm_append_comm_assoc _ _ _).trans (List.Perm.append_left _ ?_)
  rw [← append_assoc]
  exact (pages_entryBlock hk hlen).append_right _

/-! ## Runs -/

/-- The manager together with the pages that are allocated. -/
structure Owned where
  pmm : PhysicalMemoryManager
  /-- The pages that were handed out and not given back. -/
  allocated : List UInt64
  deriving DecidableEq

/-- The operations of the manager. -/
inductive Call where
  | allocatePage
  | allocateContinuous (numPages : UInt64)
  | freePage (page : UInt64)
  | freePages (page numPages : UInt64)
  deriving DecidableEq

/-- One operation; there is no next state after a panic. -/
def step (s : Owned) : Call → Option Owned
  | .allocatePage => s.pmm.allocatePage.map fun (page, pmm) => ⟨pmm, page :: s.allocated⟩
  | .allocateContinuous n =>
    (s.pmm.allocateContinuous n).map fun (page, pmm) => ⟨pmm, pageRun page n ++ s.allocated⟩
  | .freePage page => some ⟨s.pmm.freePage page, s.allocated.erase page⟩
  | .freePages page n => some ⟨s.pmm.freePages page n, s.allocated.diff (pageRun page n)⟩

/-- Only allocated pages are freed, each once. -/
def FreesAllocated (s : Owned) : Call → Prop
  | .freePage page => page ∈ s.allocated
  | .freePages page n => List.Subperm (pageRun page n) s.allocated
  | _ => True

instance (s : Owned) (c : Call) : Decidable (FreesAllocated s c) := by
  cases c <;> unfold FreesAllocated <;> infer_instance

/-- Where the pages are: in blocks, in the list of single pages, and with their owners. -/
def everyPage (s : Owned) : List UInt64 :=
  s.pmm.blockPages ++ s.pmm.singleMemoryPages ++ s.allocated

/-- **One operation moves pages** between the three places and changes nothing else. -/
theorem everyPage_step {s s' : Owned} {c : Call} (hc : FreesAllocated s c)
    (h : step s c = some s') : List.Perm (everyPage s') (everyPage s) := by
  cases c with
  | allocatePage =>
    obtain ⟨⟨page, pmm⟩, halloc, rfl⟩ := map_eq_some_iff.mp h
    exact perm_middle.trans ((allocatePage_perm halloc).append_right s.allocated)
  | allocateContinuous =>
    obtain ⟨⟨page, pmm⟩, halloc, rfl⟩ := map_eq_some_iff.mp h
    refine (perm_append_comm_assoc _ _ _).trans ?_
    rw [← append_assoc]
    exact (allocateContinuous_perm halloc).append_right s.allocated
  | freePage page =>
    obtain rfl := some.inj h
    refine ((freePage_perm s.pmm page).append_right _).trans ?_
    exact perm_middle.symm.trans ((perm_cons_erase hc).symm.append_left _)
  | freePages page n =>
    obtain rfl := some.inj h
    refine ((freePages_perm s.pmm page n).append_right _).trans ?_
    rw [append_assoc]
    refine (perm_append_comm_assoc _ _ _).trans (List.Perm.append_left _ ?_)
    exact subperm_append_diff_self_of_count_le (subperm_ext_iff.mp hc)

/-- **Every usable page is in exactly one place at every moment**: blocks, single pages and
allocated pages are disjoint, and together they are the usable pages of the memory map. The pages
that the bootstrap allocator has handed out when they are read count as allocated from the start;
`hand_over_sound_iff` has those that it hands out later. -/
theorem pages_partitioned (memmap : List MemmapEntry) (hmap : DisjointUsable memmap) (bootstrap : BootstrapMemory)
    (hboot : BootstrapMemory.initBootstrapPageAllocation memmap = some bootstrap) (k : UInt64)
    (hk : k.toNat ≤ 9) (calls : List Call) (s : Owned)
    (hcalls : Runs.Meets step FreesAllocated ⟨ofMemmap memmap bootstrap.initPage
      (bootstrap.initPage + k * kPageSize), pageRun bootstrap.initPage k⟩ calls)
    (hrun : Runs.run step ⟨ofMemmap memmap bootstrap.initPage
      (bootstrap.initPage + k * kPageSize), pageRun bootstrap.initPage k⟩ calls = some s) :
    (everyPage s).Nodup ∧ List.Perm (everyPage s) (usablePages memmap) := by
  have hinit : List.Perm (everyPage ⟨ofMemmap memmap bootstrap.initPage
      (bootstrap.initPage + k * kPageSize), pageRun bootstrap.initPage k⟩) (usablePages memmap) :=
    perm_append_comm.trans (available_ofMemmap hmap hboot hk)
  have hperm : List.Perm (everyPage s) (usablePages memmap) :=
    Runs.run_invariant (P := fun s => List.Perm (everyPage s) (usablePages memmap))
      (fun _ _ _ hs hc hstep => (everyPage_step hc hstep).trans hs) hinit hcalls hrun
  exact ⟨hperm.nodup_iff.mpr (nodup_usablePages hmap), hperm⟩

/-- A run over a memory map with two usable regions, three pages of which went to the bootstrap
allocator. -/
theorem pages_partitioned_two_regions :
    let memmap := [⟨0x100000, 0x10000, 0⟩, ⟨0x200000, 0x1000, 1⟩, ⟨0x300000, 0x4000, 0⟩]
    ∃ s, Runs.run step ⟨ofMemmap memmap 0x100000 0x103000, pageRun 0x100000 3⟩
        [.allocatePage, .allocateContinuous 4, .freePage 0x300000, .allocatePage, .freePages 0x103000 4] = some s ∧
      (everyPage s).Nodup ∧ List.Perm (everyPage s) (usablePages memmap) :=
  ⟨_, rfl, pages_partitioned _ ⟨by decide, by decide, by decide⟩
    ⟨0x100000, 0x100000, 0x109000⟩ (by decide) 3 (by decide)
    [.allocatePage, .allocateContinuous 4, .freePage 0x300000, .allocatePage, .freePages 0x103000 4] _ (by decide) rfl⟩

end PhysicalMemoryManager

end Acadia.Zion
