import Acadia.Zion.Memory.Boot
import Acadia.Zion.Memory.KernelHeapRuns

/-! # The hand-over from the bootstrap allocator

While the constructor of the `PhysicalMemoryManager` runs, the heap takes a page from the bootstrap allocator
exactly when the slabs for list nodes are full. A slab holds 126 of them, and the first of all is for the stack
manager; so a page is taken at the pushes whose number is a multiple of 126. Where such a push comes with or after
the entry of the bootstrap region, the page is also in the block for that entry. -/

namespace Acadia.Zion

open Runs RadixTable List Option UInt64 BootstrapPages

open scoped Word

/-! ## The pages of the bootstrap region -/

namespace BootstrapPages

variable {initPage : UInt64}

/-- The pages that were not handed out. -/
def available (b : BootstrapPages initPage) : List UInt64 :=
  pageRun b.1.nextPage ((b.1.maxPage - b.1.nextPage) / kPageSize)

theorem left_table : ∀ n ≤ 9, (0x9000 - UInt64.ofNat n * kPageSize) / kPageSize = .ofNat (9 - n) ∧
    (UInt64.ofNat (9 - n)).toNat = 9 - n ∧
    (n ≠ 9 → UInt64.ofNat (9 - n) - 1 = .ofNat (9 - (n + 1))) := by
  decide

theorem left_eq (initPage : UInt64) {n : Nat} (hn : n ≤ 9) :
    (initPage + 0x9000 - (initPage + .ofNat n * kPageSize)) / kPageSize = .ofNat (9 - n) := by
  have hcancel : initPage + 0x9000 - (initPage + .ofNat n * kPageSize) = 0x9000 - .ofNat n * kPageSize := by grind
  rw [hcancel]
  exact (left_table n hn).1

theorem allocatePage_perm {b b' : BootstrapPages initPage} {page : UInt64}
    (h : b.allocatePage = some (page, b')) : (page :: b'.available) ~ b.available := by
  obtain ⟨b, n, hn, rfl⟩ := b
  unfold allocatePage at h
  split at h
  · cases h
  case h_2 page' b'' halloc =>
    cases h
    rw [BootstrapMemory.allocatePage] at halloc
    split_ifs at halloc with hmax
    cases halloc
    have hlt : n ≠ 9 := by
      rintro rfl
      exact hmax rfl
    have hnext : initPage + UInt64.ofNat n * kPageSize + 0x1000 = initPage + UInt64.ofNat (n + 1) * kPageSize := by
      rw [UInt64.ofNat_add, UInt64.add_mul, UInt64.add_assoc]
      rfl
    unfold available
    dsimp only
    rw [hnext, left_eq initPage hn, left_eq initPage (by omega : n + 1 ≤ 9), ← hnext]
    obtain ⟨-, hleft, hpred⟩ := left_table n hn
    have hpos : UInt64.ofNat (9 - n) ≠ 0 := by
      intro hzero
      rw [hzero] at hleft
      exact absurd hleft (by rw [show (0 : UInt64).toNat = 0 from rfl]; omega)
    rw [pageRun_succ _ hpos, hpred hlt]
    exact List.Perm.refl _

instance : LawfulPageAllocator (BootstrapPages initPage) where
  available := available
  allocatePage_perm := allocatePage_perm

theorem exists_used (b : BootstrapPages initPage) : ∃ n, n + b.available.length = 9 ∧
    b.1 = ⟨initPage, initPage + .ofNat n * kPageSize, initPage + 0x9000⟩ := by
  obtain ⟨b, n, hn, rfl⟩ := b
  refine ⟨n, ?_, rfl⟩
  unfold available
  rw [left_eq initPage hn, pageRun, length_map, length_range, (left_table n hn).2.1]
  omega

theorem available_ofMemmap {memmap : List MemmapEntry} {b : BootstrapMemory}
    (h : BootstrapMemory.initBootstrapPageAllocation memmap = some b) :
    (ofMemmap h).available = pageRun b.initPage 9 := by
  show pageRun b.nextPage ((b.maxPage - b.nextPage) / kPageSize) = _
  obtain ⟨entry, -, rfl⟩ := map_eq_some_iff.mp h
  have hleft : entry.base + 0x9000 - entry.base = 0x9000 := by grind
  rw [hleft]
  rfl

end BootstrapPages

/-- The pages that the bootstrap allocator has handed out. -/
def BootstrapMemory.handedOut (b : BootstrapMemory) : List UInt64 :=
  pageRun b.initPage ((b.nextPage - b.initPage) / kPageSize)

/-! ## The slab for list nodes -/

theorem Slab.length_entryLoop {e max : UInt64} (he : 0 < e.toNat) {n fuel : Nat} (hn : n ≤ fuel) {entry : UInt64}
    (hmax : max.toNat = entry.toNat + n * e.toNat) : (Slab.entryLoop e max fuel entry).length = n := by
  have hbound := max.toNat_lt
  induction n generalizing fuel entry with
  | zero =>
    have hlt : ¬ entry < max := by rw [lt_iff_toNat_lt]; omega
    cases fuel with
    | zero => rfl
    | succ fuel => rw [Slab.entryLoop, if_neg hlt]; rfl
  | succ n ih =>
    obtain ⟨fuel, rfl⟩ : ∃ f, fuel = f + 1 := Nat.exists_eq_add_one.mpr (by omega)
    rw [Nat.succ_mul] at hmax
    have hlt : entry < max := by rw [lt_iff_toNat_lt]; omega
    have hnext : (entry + e).toNat = entry.toNat + e.toNat := Word.toNat_add_of_lt (by omega)
    rw [Slab.entryLoop, if_pos hlt, length_cons, ih (by omega) (by rw [hnext]; omega)]

/-- **A slab has room for 126 list nodes.** -/
theorem Slab.length_create {address : UInt64} (h : address.toNat + 8192 ≤ 2 ^ 64) :
    (Slab.create 32 address).firstFree.length = 126 := by
  have hfirst : (address + ((sizeofSlab - 1) / 32 + 1) * 32 + 32).toNat = address.toNat + 96 := by
    rw [UInt64.add_assoc]
    exact Word.toNat_add_of_lt (by
      rw [show (((sizeofSlab - 1) / 32 + 1) * 32 + 32 : UInt64).toNat = 96 from rfl]
      omega)
  have hend := toNat_add_slabSize (x := address) (by omega)
  rw [Slab.create, length_cons, Slab.length_entryLoop (n := 125) (by decide) (by decide)]
  rw [hfirst, hend]
  rfl

/-! ## The heap during boot -/

namespace KernelHeap

/-- The entries of the second table for the heap and for kernel stacks. -/
def bootEntries : List UInt64 := [0xFE8, 0xFF0]

/-- **What holds of the heap during boot**, for any allocator of pages. -/
structure Ready {A : Type} [LawfulPageAllocator A] (h : KernelHeap A) : Prop where
  /-- The page tables for the heap and for stacks are well formed. -/
  tables : KernelTables bootEntries h.machine.memory h.cr3
    (LawfulPageAllocator.available h.machine.allocator)
  /-- Slabs go to pages. -/
  aligned : PageAligned h.nextSlabHeapPage
  /-- They go to the slab region. -/
  low : kKernelSlabHeapStart ≤ h.nextSlabHeapPage
  /-- The region is larger than the pages there are. -/
  room : h.nextSlabHeapPage.toNat + 4096 * pagesLeft h.machine ≤ kKernelSlabHeapEnd.toNat
  /-- There is nothing beyond the last slab. -/
  unmapped : ∀ v, h.nextSlabHeapPage ≤ v → v < kKernelBuddyHeapEnd →
    translation h.machine.memory h.cr3 v = none
  /-- There is one allocator for each size. -/
  sizes : h.slabAllocators.map SlabAllocator.elemSize = elemSizes

namespace Ready

variable {A : Type} [LawfulPageAllocator A] {h h' : KernelHeap A}

theorem acquireSlabHeapRegion (ready : Ready h) {page : UInt64}
    (hacquire : h.acquireSlabHeapRegion kSlabSize = some (page, h')) :
    page = h.nextSlabHeapPage ∧ page.toNat + 4096 ≤ kKernelSlabHeapEnd.toNat ∧ Ready h' ∧
      h'.slabAllocators = h.slabAllocators ∧ pagesLeft h'.machine < pagesLeft h.machine := by
  have hend : kKernelSlabHeapEnd.toNat = 0xFFFFFFFF60000000 := rfl
  have hslab : kSlabSize.toNat = 4096 := rfl
  have hroom := ready.room
  -- the page of the slab is not resident, so one is taken for it
  have htakes : ∀ machine, h.nextSlabHeapPage < kKernelBuddyHeapEnd →
      h.machine.ensureResident h.cr3 h.nextSlabHeapPage kSlabSize = some machine →
      pagesLeft machine < pagesLeft h.machine := by
    intro machine hbound hensure
    refine pagesLeft_ensureResident ready.aligned ?_ ?_ hensure
    · rw [lt_iff_toNat_lt, Word.toNat_add_of_lt (by omega)]
      omega
    · exact ready.tables.pagePhysIfResident_eq_zero
        (inKernel_heap (by decide) ready.low hbound) (ready.unmapped _ le_rfl hbound)
  have hcopy := hacquire
  unfold KernelHeap.acquireSlabHeapRegion at hcopy
  by_cases hbound : h.nextSlabHeapPage ≥ kKernelBuddyHeapEnd
  · rw [if_pos hbound] at hcopy
    cases hcopy
  rw [if_neg hbound, map_eq_some_iff] at hcopy
  obtain ⟨machine0, hensure0, -⟩ := hcopy
  have hlt0 := htakes machine0 (not_le.mp hbound) hensure0
  obtain ⟨rfl, hsum, machine, rfl, hensure, htables, -, hkept⟩ := acquireSlabHeapRegion_spec
    (by decide) (by decide) ready.tables ready.aligned ready.low
    (lt_iff_toNat_lt.mpr (by omega)) hacquire
  have hlt := htakes machine (not_le.mp hbound) hensure
  have haligned := ready.aligned
  refine ⟨rfl, by omega, ⟨htables, ?_, ?_, ?_, ?_, ready.sizes⟩, rfl, hlt⟩
  · show PageAligned (h.nextSlabHeapPage + kSlabSize)
    unfold PageAligned at haligned ⊢
    omega
  · refine ready.low.trans ?_
    rw [le_iff_toNat_le, hsum]
    omega
  · show (h.nextSlabHeapPage + kSlabSize).toNat + 4096 * pagesLeft machine ≤ _
    omega
  intro v hlo hhi
  have hle : h.nextSlabHeapPage ≤ v := by
    have hlo := le_iff_toNat_le.mp hlo
    rw [hsum] at hlo
    rw [le_iff_toNat_le]
    omega
  refine (hkept.elsewhere v (inKernel_heap (by decide) (ready.low.trans hle) hhi) ?_).trans (ready.unmapped v hle hhi)
  rintro ⟨-, hpage⟩
  have hpage := lt_iff_toNat_lt.mp hpage
  have hlo := le_iff_toNat_le.mp hlo
  rw [toNat_pageAlign, hsum] at hpage
  rw [hsum] at hlo
  unfold PageAligned at haligned
  omega

variable {i : Nat}

theorem withSlabs (ready : Ready h) {a : SlabAllocator} (hi : h.slabAllocators[i]? = some a)
    (slabs : List Slab) : Ready (h.withSlabs i a slabs) := by
  refine ⟨ready.tables, ready.aligned, ready.low, ready.room, ready.unmapped, ?_⟩
  rw [← ready.sizes]
  exact ListUpdate.map_set_of_eq hi rfl

/-- **A slab allocator takes a page exactly if its slabs are full.** -/
theorem slabAllocate (ready : Ready h) {a : SlabAllocator} {addr : UInt64}
    (hi : h.slabAllocators[i]? = some a) (halloc : h.slabAllocate i a = some (addr, h')) :
    Ready h' ∧ ∃ slabs, h'.slabAllocators = h.slabAllocators.set i { a with slabs } ∧ ((h'.machine = h.machine ∧
          (SlabAllocator.freeCells slabs).length + 1 = (SlabAllocator.freeCells a.slabs).length) ∨
        (pagesLeft h'.machine < pagesLeft h.machine ∧ SlabAllocator.freeCells a.slabs = [] ∧
          ∃ page : UInt64, page.toNat + 8192 ≤ 2 ^ 64 ∧ (SlabAllocator.freeCells slabs).length + 1 =
              (Slab.create a.elemSize page).firstFree.length)) := by
  unfold KernelHeap.slabAllocate at halloc
  cases hfirst : SlabAllocator.allocateFirst a.slabs with
  | some found =>
    obtain ⟨entry, slabs⟩ := found
    rw [hfirst] at halloc
    cases halloc
    obtain ⟨-, slab, -, hperm⟩ := SlabAllocator.allocateFirst_spec hfirst
    refine ⟨ready.withSlabs hi slabs, slabs, rfl, Or.inl ⟨rfl, ?_⟩⟩
    rw [hperm.length_eq, length_cons]
  | none =>
    rw [hfirst] at halloc
    simp only [bind_eq_bind, bind_eq_some_iff, Prod.exists] at halloc
    obtain ⟨page, h1, hacquire, entry, slab, hcreate, hresult⟩ := halloc
    cases hresult
    obtain ⟨-, hend, ready1, hsame, hlt⟩ := ready.acquireSlabHeapRegion hacquire
    have hfull := SlabAllocator.freeCells_of_allocateFirst_eq_none hfirst
    rw [show kKernelSlabHeapEnd.toNat = 0xFFFFFFFF60000000 from rfl] at hend
    refine ⟨ready1.withSlabs (hsame ▸ hi) _, slab :: a.slabs, by rw [hsame], Or.inr ⟨hlt, hfull, page, by omega, ?_⟩⟩
    have hrest := (Slab.allocate_spec hcreate).1
    rw [SlabAllocator.freeCells, flatMap_cons, ← SlabAllocator.freeCells, hfull,
      append_nil, Slab.freeCells, length_map, hrest, length_cons]

/-- `Allocate` for a size of a slab allocator. -/
theorem allocate (ready : Ready h) {origin : Origin} {addr size : UInt64}
    (hsize : elemSizes.findIdx? (fun e => size ≤ e) = some i) (halloc : h.allocate size = some (origin, addr, h')) :
    ∃ a, h.slabAllocators[i]? = some a ∧ h.slabAllocate i a = some (addr, h') := by
  rw [← ready.sizes, List.findIdx?_map] at hsize
  have hidx : h.slabAllocators.findIdx? (fun a => decide (size ≤ a.elemSize)) = some i := hsize
  unfold KernelHeap.allocate at halloc
  rw [hidx] at halloc
  simp only [bind_eq_bind, bind_eq_some_iff, Prod.exists] at halloc
  obtain ⟨a, hi, addr, h1, hstep, hresult⟩ := halloc
  cases hresult
  exact ⟨a, hi, hstep⟩

theorem allocateKernelStack (ready : Ready h) {stack : UInt64} {stackManager : KernelStackManager}
    (hstack : h.allocateKernelStack {} = some (stack, stackManager, h')) :
    Ready h' ∧ h'.slabAllocators = h.slabAllocators := by
  unfold KernelHeap.allocateKernelStack at hstack
  rw [if_neg (by decide), map_eq_some_iff] at hstack
  obtain ⟨machine, hensure, hresult⟩ := hstack
  cases hresult
  have hrange : ∀ v, pageAlign (kKernelStackStart + kKernelStackOffset - kKernelStackSize) ≤ v →
      v < kKernelStackStart + kKernelStackOffset - kKernelStackSize + kKernelStackSize →
      InKernel bootEntries v := by
    intro v hlo hhi
    have hlo : 0xFFFFFFFF90001000 ≤ v.toNat := le_iff_toNat_le.mp hlo
    have hhi : v.toNat < 0xFFFFFFFF90004000 := lt_iff_toNat_lt.mp hhi
    refine inKernel_of_entry (by decide : 0xFF0 ∈ bootEntries) (by omega) ?_
    simp only [UInt64.reduceToNat]
    omega
  obtain ⟨htables, -, hkept⟩ :=
    ensureResident_spec (by decide) ready.tables hrange (by decide) hensure
  have hle : pagesLeft machine ≤ pagesLeft h.machine := pagesLeft_ensureLoop hensure
  refine ⟨⟨htables, ready.aligned, ready.low, ?_, ?_, ready.sizes⟩, rfl⟩
  · have hroom := ready.room
    show h.nextSlabHeapPage.toNat + 4096 * pagesLeft machine ≤ _
    omega
  intro v hlo hhi
  refine (hkept.elsewhere v (inKernel_heap (by decide) (ready.low.trans hlo) hhi) ?_).trans (ready.unmapped v hlo hhi)
  rintro ⟨hpage, -⟩
  -- stacks are above the heap
  have hpage : 0xFFFFFFFF90001000 ≤ (pageAlign v).toNat := le_iff_toNat_le.mp hpage
  have hhi : v.toNat < 0xFFFFFFFF80000000 := lt_iff_toNat_lt.mp hhi
  rw [toNat_pageAlign] at hpage
  omega

end Ready

/-- The free elements for list nodes, after `n` of the nodes' size were handed out. -/
def NodesFree {A : Type} (h : KernelHeap A) (n : Nat) : Prop :=
  ∃ a, h.slabAllocators[2]? = some a ∧ a.elemSize = 32 ∧
    (SlabAllocator.freeCells a.slabs).length = (126 - n % 126) % 126

/-- **A list node takes a page at each multiple of 126.** -/
theorem Ready.allocateNode {A : Type} [LawfulPageAllocator A] {h h' : KernelHeap A} (ready : Ready h) {n : Nat}
    (hfree : NodesFree h n) {origin : Origin} {addr size : UInt64}
    (hsize : elemSizes.findIdx? (fun e => size ≤ e) = some 2) (halloc : h.allocate size = some (origin, addr, h')) :
    Ready h' ∧ NodesFree h' (n + 1) ∧ (¬ 126 ∣ n → h'.machine = h.machine) ∧
      (126 ∣ n → pagesLeft h'.machine < pagesLeft h.machine) := by
  obtain ⟨a, hi, hstep⟩ := ready.allocate hsize halloc
  obtain ⟨a', hi', helem, hlength⟩ := hfree
  obtain rfl : a = a' := some.inj (hi.symm.trans hi')
  obtain ⟨ready', slabs, hset, hcases⟩ := ready.slabAllocate hi hstep
  have hget : h'.slabAllocators[2]? = some { a with slabs } := by
    rw [hset, getElem?_set_self']
    rw [hi]
    rfl
  rcases hcases with ⟨hsame, hless⟩ | ⟨hlt, hfull, page, hpage, hnew⟩
  · have hnot : ¬ 126 ∣ n := by
      rintro ⟨k, rfl⟩
      omega
    exact ⟨ready', ⟨_, hget, helem, by dsimp only; omega⟩, fun _ => hsame, fun hdvd => absurd hdvd hnot⟩
  · rw [hfull, length_nil] at hlength
    rw [helem, Slab.length_create hpage] at hnew
    have hdvd : 126 ∣ n := by omega
    exact ⟨ready', ⟨_, hget, helem, by dsimp only; omega⟩, fun hnot => absurd hdvd hnot, fun _ => hlt⟩

theorem Ready.allocateOther {A : Type} [LawfulPageAllocator A] {h h' : KernelHeap A} (ready : Ready h)
    {n i : Nat} (hfree : NodesFree h n) {origin : Origin} {addr size : UInt64}
    (hsize : elemSizes.findIdx? (fun e => size ≤ e) = some i) (hne : i ≠ 2)
    (halloc : h.allocate size = some (origin, addr, h')) : Ready h' ∧ NodesFree h' n := by
  obtain ⟨a, hi, hstep⟩ := ready.allocate hsize halloc
  obtain ⟨ready', slabs, hset, -⟩ := ready.slabAllocate hi hstep
  refine ⟨ready', ?_⟩
  unfold NodesFree
  rw [hset, getElem?_set_ne hne]
  exact hfree

/-! ## The constructor of the manager -/

section

open PhysicalMemoryManager (usable usablePages DisjointUsable)

variable {initPage : UInt64} {h h' : KernelHeap (BootstrapPages initPage)}
  {pmm pmm' : PhysicalMemoryManager}

/-- **What the loop takes from the bootstrap allocator**: nothing, if no push has a number that is a
multiple of 126, and at least a page otherwise. -/
theorem Ready.run_addEntry {entries : List MemmapEntry} {n : Nat} (ready : Ready h)
    (hfree : NodesFree h n) (hrun : run addEntry (h, pmm) entries = some (h', pmm')) :
    Ready h' ∧ NodesFree h' (n + (usable entries).length) ∧ pagesLeft h'.machine ≤ pagesLeft h.machine ∧
      ((∀ m, n ≤ m → m < n + (usable entries).length → ¬ 126 ∣ m) → h'.machine = h.machine) ∧
      ((∃ m, n ≤ m ∧ m < n + (usable entries).length ∧ 126 ∣ m) → pagesLeft h'.machine < pagesLeft h.machine) := by
  induction entries generalizing h pmm n with
  | nil =>
    cases hrun
    refine ⟨ready, hfree, le_rfl, fun _ => rfl, ?_⟩
    rintro ⟨m, hle, hlt, -⟩
    exact absurd (hle.trans_lt hlt) (lt_irrefl n)
  | cons entry entries ih =>
    rw [run_cons, bind_eq_some_iff] at hrun
    obtain ⟨⟨h1, pmm1⟩, hstep, hrun⟩ := hrun
    unfold addEntry at hstep
    by_cases htype : entry.type = 0
    · rw [if_pos htype, map_eq_some_iff] at hstep
      obtain ⟨⟨origin, addr, h2⟩, halloc, hresult⟩ := hstep
      cases hresult
      obtain ⟨ready1, hfree1, hnone, hsome⟩ := ready.allocateNode hfree (by decide) halloc
      obtain ⟨ready', hfree', hle, hnone', hsome'⟩ := ih ready1 hfree1 hrun
      have hlength : (usable (entry :: entries)).length = (usable entries).length + 1 := by
        rw [usable, filter_cons_of_pos (by simpa using htype), length_cons]
        rfl
      have hle1 : pagesLeft h1.machine ≤ pagesLeft h.machine := by
        by_cases hdvd : 126 ∣ n
        · exact (hsome hdvd).le
        · rw [hnone hdvd]
      rw [hlength, ← Nat.add_assoc, Nat.add_right_comm]
      refine ⟨ready', hfree', hle.trans hle1, ?_, ?_⟩
      · intro hno
        rw [hnone' fun m hlo hhi => hno m (by omega) hhi, hnone (hno n le_rfl (by omega))]
      · rintro ⟨m, hlo, hhi, hdvd⟩
        -- the page is taken by this push or by a later one
        rcases Nat.eq_or_lt_of_le hlo with rfl | hlo
        · exact hle.trans_lt (hsome hdvd)
        · exact (hsome' ⟨m, hlo, hhi, hdvd⟩).trans_le hle1
    · rw [if_neg htype] at hstep
      cases hstep
      have hsame : usable (entry :: entries) = usable entries := by
        rw [usable, filter_cons_of_neg (by simpa using htype)]
        rfl
      rw [hsame]
      exact ih ready hfree hrun

theorem pmm_of_run_addEntry {entries : List MemmapEntry} (hbase : ∀ e ∈ usable entries, e.base ≠ initPage)
    (nextPage : UInt64) (hrun : run addEntry (h, pmm) entries = some (h', pmm')) :
    pmm' = entries.foldl (PhysicalMemoryManager.addEntry initPage nextPage) pmm := by
  induction entries generalizing h pmm with
  | nil =>
    cases hrun
    rfl
  | cons entry entries ih =>
    rw [run_cons, bind_eq_some_iff] at hrun
    obtain ⟨⟨h1, pmm1⟩, hstep, hrun⟩ := hrun
    have hrest : ∀ e ∈ usable entries, e.base ≠ initPage := by
      intro e he
      rw [usable, mem_filter] at he
      exact hbase e (mem_filter.mpr ⟨mem_cons_of_mem _ he.1, he.2⟩)
    rw [ih hrest hrun, foldl_cons]
    congr 1
    unfold addEntry at hstep
    by_cases htype : entry.type = 0
    · rw [if_pos htype, map_eq_some_iff] at hstep
      obtain ⟨⟨origin, addr, h2⟩, -, hresult⟩ := hstep
      cases hresult
      have hne : entry.base ≠ initPage :=
        hbase entry (mem_filter.mpr ⟨mem_cons_self, by simpa using htype⟩)
      rw [PhysicalMemoryManager.addEntry, PhysicalMemoryManager.addEntry, if_pos htype,
        if_neg hne, if_pos htype, if_neg hne]
    · rw [if_neg htype] at hstep
      cases hstep
      rw [PhysicalMemoryManager.addEntry, if_neg htype]

/-- **The constructor reads the bootstrap allocator once**, at the entry of its region, and goes on to
use the heap. -/
theorem Ready.pmm_of_run {pre post : List MemmapEntry} {e : MemmapEntry} (ready : Ready h)
    (hfree : NodesFree h 1) (htype : e.type = 0) (hother : ∀ x ∈ usable pre ++ usable post, x.base ≠ initPage)
    (hrun : run addEntry (h, {}) (pre ++ e :: post) = some (h', pmm)) :
    ∃ h1 : KernelHeap (BootstrapPages initPage),
      pmm = .ofMemmap (pre ++ e :: post) initPage h1.machine.allocator.1.nextPage ∧
      ((∀ m, (usable pre).length + 1 ≤ m → m ≤ (usable (pre ++ e :: post)).length → ¬ 126 ∣ m) →
        h'.machine = h1.machine) ∧
      ((∃ m, (usable pre).length + 1 ≤ m ∧ m ≤ (usable (pre ++ e :: post)).length ∧ 126 ∣ m) →
        pagesLeft h'.machine < pagesLeft h1.machine) := by
  rw [run_append, bind_eq_some_iff] at hrun
  obtain ⟨⟨h1, pmm1⟩, hpre, hrest⟩ := hrun
  obtain ⟨ready1, hfree1, -, -, -⟩ := ready.run_addEntry hfree hpre
  obtain ⟨-, -, -, hnone, hsome⟩ := ready1.run_addEntry hfree1 hrest
  have hlength : 1 + (usable pre).length + (usable (e :: post)).length = (usable (pre ++ e :: post)).length + 1 := by
    rw [usable, usable, usable, filter_append, length_append]
    omega
  rw [hlength, Nat.add_comm 1] at hnone hsome
  refine ⟨h1, ?_, ?_, ?_⟩
  · have hpmm1 := pmm_of_run_addEntry (fun x hx => hother x (mem_append_left _ hx)) h1.machine.allocator.1.nextPage hpre
    rw [run_cons, bind_eq_some_iff] at hrest
    obtain ⟨⟨h2, pmm2⟩, hstep, hpost⟩ := hrest
    unfold addEntry at hstep
    rw [if_pos htype, map_eq_some_iff] at hstep
    obtain ⟨⟨origin, addr, h3⟩, -, hresult⟩ := hstep
    cases hresult
    have hpmm := pmm_of_run_addEntry (fun x hx => hother x (mem_append_right _ hx))
      h1.machine.allocator.1.nextPage hpost
    rw [hpmm, hpmm1, PhysicalMemoryManager.ofMemmap, foldl_append, foldl_cons]
  · exact fun hno => hnone fun m hlo hhi => hno m hlo (Nat.le_of_lt_succ hhi)
  · rintro ⟨m, hlo, hhi, hdvd⟩
    exact hsome ⟨m, hlo, Nat.lt_succ_of_le hhi, hdvd⟩

end

end KernelHeap

/-! ## The hand-over -/

open PhysicalMemoryManager (usable usablePages DisjointUsable)

/-- **The page tables of the boot loader**: those for the heap and for kernel stacks are well formed
and apart from the nine pages of the bootstrap region, and map nothing in the heap. -/
structure BootTables (memory : Memory) (cr3 initPage : UInt64) : Prop where
  /-- The tables and the pages are apart. -/
  tables : KernelTables KernelHeap.bootEntries memory cr3 (pageRun initPage 9)
  /-- The heap is not mapped. -/
  unmapped : ∀ v, kKernelSlabHeapStart ≤ v → v < kKernelBuddyHeapEnd → translation memory cr3 v = none

/-- The number of the entry with the bootstrap region among the usable entries, counted from one. -/
def bootstrapPosition (memmap : List MemmapEntry) : Nat :=
  (usable memmap).findIdx (fun e => e.length ≥ 0x9000) + 1

theorem ready_of_boot {memmap : List MemmapEntry} {b0 b : BootstrapMemory} {pmm : PhysicalMemoryManager}
    {memory : Memory} {cr3 : UInt64} (hinit : BootstrapMemory.initBootstrapPageAllocation memmap = some b0)
    (htables : BootTables memory cr3 b0.initPage) (hboot : bootMemory memmap memory cr3 = some (b, pmm)) :
    ∃ h h' : KernelHeap (BootstrapPages b0.initPage), h.Ready ∧ h.NodesFree 1 ∧
      run KernelHeap.addEntry (h, {}) memmap = some (h', pmm) ∧ h'.machine.allocator.1 = b := by
  unfold bootMemory at hboot
  split at hboot
  · cases hboot
  case h_2 b1 hinit' =>
    obtain rfl : b1 = b0 := some.inj (hinit'.symm.trans hinit)
    simp only [bind_eq_bind, bind_eq_some_iff, Prod.exists,
      KernelHeap.initKernelVmm, KernelHeap.initPhysicalMemoryManager] at hboot
    obtain ⟨h3, ⟨_, _, h1, hstack, _, _, h2, hinterrupt, hresult⟩, h', pmm', ⟨_, _, h4, hpmm, hrun⟩, hlast⟩ := hboot
    cases hresult
    cases hlast
    have hready : KernelHeap.Ready { machine := ⟨ofMemmap hinit', memory⟩, cr3 } := by
      have hpages := available_ofMemmap hinit'
      have hleft : pagesLeft ⟨ofMemmap hinit', memory⟩ = 9 := by
        show (available _).length = 9
        rw [hpages, pageRun, length_map, length_range]
        rfl
      refine ⟨?_, (by decide : PageAligned kKernelSlabHeapStart), le_rfl, ?_, htables.unmapped, rfl⟩
      · show KernelTables _ memory cr3 (available _)
        rw [hpages]
        exact htables.tables
      · dsimp only
        rw [hleft]
        decide
    have hnone : KernelHeap.NodesFree
        { machine := ⟨ofMemmap hinit', memory⟩, cr3 } 0 := ⟨_, rfl, rfl, rfl⟩
    obtain ⟨ready1, hfree1, -, -⟩ := hready.allocateNode hnone (by decide) hstack
    obtain ⟨ready2, hsame⟩ := ready1.allocateKernelStack hinterrupt
    have hfree2 : h3.NodesFree 1 := by
      unfold KernelHeap.NodesFree
      rw [hsame]
      exact hfree1
    obtain ⟨ready4, hfree4⟩ := ready2.allocateOther hfree2
      (show elemSizes.findIdx? (fun e => sizeofPhysicalMemoryManager ≤ e) = some 3 by decide)
      (by decide) hpmm
    exact ⟨h4, h', ready4, hfree4, hrun, rfl⟩

theorem handedOut_eq (initPage maxPage : UInt64) {n : Nat} (hn : n ≤ 9) :
    BootstrapMemory.handedOut ⟨initPage, initPage + .ofNat n * kPageSize, maxPage⟩ = pageRun initPage (.ofNat n) := by
  have htable : ∀ n ≤ 9, UInt64.ofNat n * kPageSize / kPageSize = .ofNat n := by decide
  have hcancel : initPage + UInt64.ofNat n * kPageSize - initPage = .ofNat n * kPageSize := by grind
  unfold BootstrapMemory.handedOut
  rw [hcancel, htable n hn]

theorem exists_split_bootstrap {memmap : List MemmapEntry} {e : MemmapEntry}
    (hfind : memmap.find? (fun entry => entry.type = 0 && entry.length ≥ 0x9000) = some e) :
    ∃ pre post, memmap = pre ++ e :: post ∧ e.type = 0 ∧ 0x9000 ≤ e.length.toNat ∧
      usable memmap = usable pre ++ e :: usable post ∧
      bootstrapPosition memmap = (usable pre).length + 1 := by
  obtain ⟨hentry, pre, post, rfl, hbefore⟩ := List.find?_eq_some_iff_append.mp hfind
  rw [Bool.and_eq_true, decide_eq_true_eq, decide_eq_true_eq] at hentry
  have husable : usable (pre ++ e :: post) = usable pre ++ e :: usable post := by
    rw [usable, filter_append, filter_cons_of_pos (by simpa using hentry.1)]
    rfl
  refine ⟨pre, post, rfl, hentry.1, le_iff_toNat_le.mp hentry.2, husable, ?_⟩
  -- the usable entries before it are too short
  have hshort : ∀ x ∈ usable pre, decide (x.length ≥ 0x9000) = false := by
    intro x hx
    obtain ⟨hx, htype⟩ := mem_filter.mp hx
    have hnot := hbefore x hx
    rw [htype, Bool.true_and] at hnot
    simpa using hnot
  rw [bootstrapPosition, husable, findIdx_append]
  have hall : (usable pre).findIdx (fun e => decide (e.length ≥ 0x9000)) = (usable pre).length :=
    findIdx_eq_length_of_false hshort
  rw [hall, if_neg (lt_irrefl _), findIdx_cons, decide_eq_true hentry.2]
  simp

/-- **When the hand-over is sound**: no push from that for the bootstrap region on has a number that
is a multiple of 126. -/
theorem hand_over_sound_iff {memmap : List MemmapEntry} {memory : Memory} {cr3 : UInt64}
    {b₀ b : BootstrapMemory} {pmm : PhysicalMemoryManager} (hmap : DisjointUsable memmap)
    (hinit : BootstrapMemory.initBootstrapPageAllocation memmap = some b₀)
    (htables : BootTables memory cr3 b₀.initPage) (hboot : bootMemory memmap memory cr3 = some (b, pmm)) :
    (∀ page ∈ b.handedOut, page ∉ pmm.available) ↔
      ∀ n, bootstrapPosition memmap ≤ n → n ≤ (usable memmap).length → ¬ 126 ∣ n := by
  obtain ⟨h, h', ready, hfree, hrun, rfl⟩ := ready_of_boot hinit htables hboot
  obtain ⟨e, hfind, rfl⟩ := map_eq_some_iff.mp hinit
  obtain ⟨pre, post, rfl, htype, hlen, husable, hposition⟩ := exists_split_bootstrap hfind
  obtain ⟨h₁, rfl, hsame, hless⟩ := ready.pmm_of_run hfree htype (hmap.eq_of_base husable) hrun
  obtain ⟨n₁, hn₁, hb₁⟩ := h₁.machine.allocator.exists_used
  obtain ⟨n, hn, hb⟩ := h'.machine.allocator.exists_used
  have hsmall : ∀ m ≤ 9, (UInt64.ofNat m).toNat = m := by decide
  have htoNat₁ := hsmall n₁ (by omega)
  rw [hb₁, hposition]
  have hperm := PhysicalMemoryManager.available_ofMemmap hmap hinit (k := .ofNat n₁) (by rw [htoNat₁]; omega)
  dsimp only at hperm ⊢
  constructor
  · intro hsound m hlo hhi hdvd
    -- the first page that is handed out after the entry was read is in its block
    have hlt : n₁ < n := by
      have hlt : h'.machine.allocator.available.length < h₁.machine.allocator.available.length :=
        hless ⟨m, hlo, hhi, hdvd⟩
      omega
    have hbound := hmap.bounded e (by rw [husable]; simp)
    have hpage : (UInt64.ofNat n₁ * kPageSize).toNat = n₁ * 4096 := by
      rw [UInt64.toNat_mul, htoNat₁, show kPageSize.toNat = 4096 from rfl]
      omega
    have hmul : (e.base + UInt64.ofNat n₁ * kPageSize).toNat = e.base.toNat + n₁ * 4096 := by
      rw [Word.toNat_add_of_lt (by rw [hpage]; omega), hpage]
    refine hsound (e.base + .ofNat n₁ * kPageSize) ?_ ?_
    · rw [hb, handedOut_eq _ _ (by omega), pageRun, hsmall n (by omega)]
      exact mem_map.mpr ⟨n₁, mem_range.mpr hlt, rfl⟩
    have husable : e.base + UInt64.ofNat n₁ * kPageSize ∈ usablePages (pre ++ e :: post) := by
      refine mem_flatMap.mpr ⟨e, by rw [husable]; simp, mem_map.mpr ⟨n₁, ?_, rfl⟩⟩
      rw [mem_range, UInt64.toNat_div, show kPageSize.toNat = 4096 from rfl]
      omega
    refine (mem_append.mp (hperm.symm.subset husable)).resolve_left fun hbefore => ?_
    obtain ⟨i, hi, heq⟩ :=
      PhysicalMemoryManager.toNat_of_mem_pageRun (by rw [htoNat₁]; omega) hbefore
    omega
  · intro hno page hout
    have hnodup := hperm.nodup_iff.mpr (PhysicalMemoryManager.nodup_usablePages hmap)
    rw [hsame hno, hb₁, handedOut_eq _ _ (by omega)] at hout
    exact fun hfreePage => (disjoint_of_nodup_append hnodup) hout hfreePage

/-- Page tables of a boot loader: an entry for the kernel, and below it one for the kernel's code. -/
def loaderMemory : Memory := fun page offset =>
  if page = 0x10000 ∧ offset = 0xFF8 then 0x81003
  else if page = 0x81000 ∧ offset = 0xFF0 then 0x82003 else 0

theorem bootTables_loaderMemory : BootTables loaderMemory 0x10000 0x100000 := by
  refine ⟨⟨by decide +kernel, by decide +kernel, all_iff_forall_prop.mp (by decide +kernel)⟩, ?_⟩
  intro v hlow hhigh
  have hin : InKernel [0xFE8] v := KernelHeap.inKernel_heap mem_cons_self hlow hhigh
  have hpath := hin.entryPath_mem
  simp only [entryPath, kernelLevels, map_cons, map_nil, forall₂_cons, mem_singleton] at hpath
  have hroot : entryFormat.present (loaderMemory 0x10000 0xFF8) = true ∧
      entryFormat.large (loaderMemory 0x10000 0xFF8) = false ∧
      entryFormat.target (loaderMemory 0x10000 0xFF8) = 0x81000 ∧
      entryFormat.present (loaderMemory 0x81000 0xFE8) = false := by decide
  obtain ⟨hpresent, hsmall, htarget, habsent⟩ := hroot
  -- the walk ends at the entry for the heap in the second table
  unfold translation
  rw [entryPath, map_cons, map_cons, hpath.1, hpath.2.1]
  simp only [map_cons, map_nil, RadixTable.translate, hpresent, hsmall, htarget, habsent,
    if_true, Bool.false_eq_true, if_false]

/-- A map of `n` short entries, an entry with sixteen pages, and `m` more short entries. -/
def mapAround (n m : Nat) : List MemmapEntry :=
  (List.range n).map (fun i => ⟨0x1000000 + .ofNat i * 0x1000, 0x1000, 0⟩) ++
    ⟨0x100000, 0x10000, 0⟩ :: (List.range m).map (fun i => ⟨0x200000 + .ofNat i * 0x1000, 0x1000, 0⟩)

/-- Two usable entries after the one with the bootstrap region, which is the third. -/
theorem hand_over_sound_iff_mapAround : ∃ b pmm, bootMemory (mapAround 2 2) loaderMemory 0x10000 = some (b, pmm) ∧
      ((∀ page ∈ b.handedOut, page ∉ pmm.available) ↔
        ∀ n, bootstrapPosition (mapAround 2 2) ≤ n → n ≤ (usable (mapAround 2 2)).length → ¬ 126 ∣ n) := by
  have hsome : (bootMemory (mapAround 2 2) loaderMemory 0x10000).isSome = true := by decide +kernel
  obtain ⟨⟨b, pmm⟩, hboot⟩ := isSome_iff_exists.mp hsome
  have hinit : BootstrapMemory.initBootstrapPageAllocation (mapAround 2 2) =
      some ⟨0x100000, 0x100000, 0x109000⟩ := by decide +kernel
  exact ⟨b, pmm, hboot, hand_over_sound_iff ⟨by decide +kernel, by decide +kernel, by decide +kernel⟩
    hinit bootTables_loaderMemory hboot⟩

/-- **A page in use is handed over**: with 126 usable entries, the first of them with the bootstrap
region, the last push takes a page that is also the first one of a block. -/
theorem hand_over_includes_used_page : DisjointUsable (mapAround 0 125) ∧ BootTables loaderMemory 0x10000 0x100000 ∧
    ∃ b pmm, bootMemory (mapAround 0 125) loaderMemory 0x10000 = some (b, pmm) ∧
      0x108000 ∈ b.handedOut ∧ 0x108000 ∈ pmm.available := by
  have hresult : (bootMemory (mapAround 0 125) loaderMemory 0x10000).map
      (fun (b, pmm) => decide (0x108000 ∈ b.handedOut ∧ 0x108000 ∈ pmm.available)) = some true := by
    decide +kernel
  obtain ⟨⟨b, pmm⟩, hboot, hboth⟩ := map_eq_some_iff.mp hresult
  exact ⟨⟨by decide +kernel, by decide +kernel, by decide +kernel⟩, bootTables_loaderMemory, b, pmm,
    hboot, of_decide_eq_true hboth⟩

end Acadia.Zion
