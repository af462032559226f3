import Acadia.Zion.Memory.PagingSpec

/-! # Residency of kernel memory

`KernelTables` is the invariant of the tables that `EnsureResident` fills in: they are made of different frames,
none of which the allocator could hand out, and have no large pages. Under it, a page that is made resident stays
so, and no other page of the kernel changes. -/

namespace Acadia.Zion

open RadixTable List Option UInt64
open LawfulPageAllocator (available)

open scoped Word

/-- The offsets, level by level, of the entries for a part of the kernel: the last entry of the top
table, the entries `pdp` of the table below, and all entries of the tables below these. -/
def kernelLevels (pdp : List UInt64) : List (List UInt64) :=
  [[0xFF8], pdp, entryOffsets 512, entryOffsets 512]

/-- The address is in the last part of the address space, and in a part that `pdp` selects. -/
structure InKernel (pdp : List UInt64) (v : UInt64) : Prop where
  /-- The last entry of the top table is the one for the address. -/
  top : 0xFFFFFF8000000000 ≤ v
  /-- The entry below is one of `pdp`. -/
  second : shiftForEntryIndexing v 30 ∈ pdp

variable {pdp : List UInt64}

theorem InKernel.entryPath_mem {v : UInt64} (h : InKernel pdp v) :
    List.Forall₂ (· ∈ ·) (entryPath v) (kernelLevels pdp) := by
  have hv := v.toNat_lt
  have htop := le_iff_toNat_le.mp h.top
  rw [show (0xFFFFFF8000000000 : UInt64).toNat = 2 ^ 64 - 2 ^ 39 from rfl] at htop
  simp only [entryPath, kernelLevels, map_cons, map_nil, forall₂_cons, List.Forall₂.nil, and_true]
  refine ⟨?_, h.second, ?_, ?_⟩
  · rw [mem_singleton, ← UInt64.toNat_inj, toNat_shiftForEntryIndexing _ (by decide),
      show (39 : UInt64).toNat = 39 from rfl, show (0xFF8 : UInt64).toNat = 4088 from rfl]
    omega
  all_goals
    rw [shift_mem_entryOffsets (by decide) (by decide)]
    exact Nat.mod_lt _ (by decide)

theorem InKernel.entryPath_eq_iff {v w : UInt64} (hv : InKernel pdp v)
    (hw : InKernel pdp w) : entryPath v = entryPath w ↔ pageAlign v = pageAlign w := by
  have hv64 := v.toNat_lt
  have hw64 := w.toNat_lt
  have hvtop := le_iff_toNat_le.mp hv.top
  have hwtop := le_iff_toNat_le.mp hw.top
  rw [show (0xFFFFFF8000000000 : UInt64).toNat = 2 ^ 64 - 2 ^ 39 from rfl] at hvtop hwtop
  exact Zion.entryPath_eq_iff (by omega)

/-- **The kernel's tables are well formed**, and apart from the pages in `free`. -/
structure KernelTables (pdp : List UInt64) (memory : Memory) (cr3 : UInt64) (free : List UInt64) :
    Prop where
  /-- No frame occurs twice, or is in `free`. -/
  nodup : (frames entryFormat memory (kernelLevels pdp) cr3 ++ free).Nodup
  /-- There are no large pages. -/
  regular : Regular entryFormat memory (kernelLevels pdp) cr3
  /-- Free pages are whole pages. -/
  aligned : ∀ g ∈ free, PageAligned g

/-- What the allocation of a page or a mapping of one does not take away: the translation of the
other kernel pages. -/
structure Kept (pdp : List UInt64) (memory memory' : Memory) (cr3 : UInt64) (page : UInt64 → Prop) :
    Prop where
  /-- Resident pages stay resident. -/
  resident : ∀ w, InKernel pdp w → translation memory cr3 w ≠ none →
    translation memory' cr3 w ≠ none
  /-- Pages other than the given ones are translated as before. -/
  elsewhere : ∀ w, InKernel pdp w → ¬ page (pageAlign w) →
    translation memory' cr3 w = translation memory cr3 w

theorem kernelLevels_nodup (h : pdp.Nodup) : ∀ is ∈ kernelLevels pdp, is.Nodup := by
  have hall : (entryOffsets 512).Nodup := nodup_entryOffsets (le_refl 512)
  simp only [kernelLevels, forall_mem_cons, not_mem_nil, false_implies, implies_true, and_true]
  exact ⟨nodup_singleton _, h, hall, hall⟩

namespace KernelTables

variable {B : Type} [LawfulPageAllocator B] {pdp : List UInt64} {cr3 : UInt64}

variable {v paddr : UInt64}

variable {memory : Memory}

/-- `PagePhysIfResident` only finds pages that are translated. -/
theorem translation_ne_none {free : List UInt64} (h : KernelTables pdp memory cr3 free) (hv : InKernel pdp v)
    (hphys : pagePhysIfResident memory cr3 v ≠ 0) : translation memory cr3 v ≠ none := by
  rw [pagePhysIfResident_eq] at hphys
  rw [translation, ← translate_unsized h.regular hv.entryPath_mem]
  intro hnone
  rw [hnone] at hphys
  exact hphys rfl

/-- `PagePhysIfResident` finds nothing where nothing is translated. -/
theorem pagePhysIfResident_eq_zero {free : List UInt64} (h : KernelTables pdp memory cr3 free) (hv : InKernel pdp v)
    (hnone : translation memory cr3 v = none) : pagePhysIfResident memory cr3 v = 0 := by
  by_contra hphys
  exact h.translation_ne_none hv hphys hnone

variable {s : Machine B}

/-- What `MapPage` does to the kernel's tables. -/
theorem mapped {s' : Machine B} (hpdp : pdp.Nodup) (h : KernelTables pdp s.memory cr3 (available s.allocator))
    (hv : InKernel pdp v) (hmap : s.mapPage cr3 v paddr = some s') :
    Mapped entryFormat s.memory s'.memory (kernelLevels pdp) cr3 (entryPath v)
      (pageAlign paddr ||| Machine.accessBits (pageAlign v)) (available s.allocator) (available s'.allocator) := by
  have hnone := append_nil (available s.allocator)
  have hmapped := mapped_of_mapPage [] hv.entryPath_mem (kernelLevels_nodup hpdp)
    (hnone.symm ▸ h.nodup) h.regular (hnone.symm ▸ h.aligned) hmap
  rwa [append_nil, append_nil] at hmapped

/-- **`MapPage` makes one kernel page resident.** -/
theorem mapPage {s' : Machine B} (hpdp : pdp.Nodup) (h : KernelTables pdp s.memory cr3 (available s.allocator))
    (hv : InKernel pdp v) (hmap : s.mapPage cr3 v paddr = some s') :
    KernelTables pdp s'.memory cr3 (available s'.allocator) ∧
      translation s.memory cr3 v = none ∧ translation s'.memory cr3 v ≠ none ∧
      Kept pdp s.memory s'.memory cr3 (· = pageAlign v) := by
  have hmapped := mapped hpdp h hv hmap
  have hhere : translation s'.memory cr3 v ≠ none := by
    rw [translation, hmapped.here]
    exact some_ne_none _
  have helsewhere : ∀ w, InKernel pdp w → ¬ pageAlign w = pageAlign v →
      translation s'.memory cr3 w = translation s.memory cr3 w := by
    intro w hw hne
    exact hmapped.elsewhere _ hw.entryPath_mem fun heq => hne ((hw.entryPath_eq_iff hv).mp heq)
  refine ⟨⟨hmapped.perm.nodup_iff.mpr h.nodup, hmapped.regular,
    fun g hg => h.aligned g (hmapped.subset hg)⟩, hmapped.before, hhere, ?_, helsewhere⟩
  intro w hw hresident
  by_cases hsame : pageAlign w = pageAlign v
  · rw [translation, (hw.entryPath_eq_iff hv).mpr hsame]
    exact hhere
  · rw [helsewhere w hw hsame]
    exact hresident

theorem of_allocatePage {a a' : B} {page : UInt64} (h : KernelTables pdp memory cr3 (available a))
    (halloc : PageAllocator.allocatePage a = some (page, a')) : KernelTables pdp memory cr3 (available a') := by
  have hperm := LawfulPageAllocator.allocatePage_perm halloc
  have hsub : available a' <+ (page :: available a') := sublist_cons_self _ _
  refine ⟨?_, h.regular, fun g hg => h.aligned g (hperm.subset (hsub.subset hg))⟩
  have hnodup := (hperm.append_left _).nodup_iff.mpr h.nodup
  exact hnodup.sublist (hsub.append_left _)

/-- **`AllocatePageIfNecessary` makes one kernel page resident**, with a page of the allocator if it
was not. -/
theorem allocatePageIfNecessary {s' : Machine B} (hpdp : pdp.Nodup)
    (h : KernelTables pdp s.memory cr3 (available s.allocator))
    (hv : InKernel pdp v) (hstep : s.allocatePageIfNecessary cr3 v = some s') :
    KernelTables pdp s'.memory cr3 (available s'.allocator) ∧
      translation s'.memory cr3 v ≠ none ∧ Kept pdp s.memory s'.memory cr3 (· = pageAlign v) := by
  unfold Machine.allocatePageIfNecessary at hstep
  by_cases hphys : pagePhysIfResident s.memory cr3 v = 0
  · rw [if_neg (not_not.mpr hphys)] at hstep
    simp only [bind_eq_bind, bind_eq_some_iff, Prod.exists] at hstep
    obtain ⟨page, allocator, halloc, hmap⟩ := hstep
    have htaken : KernelTables pdp (Machine.mk allocator s.memory).memory cr3
        (available allocator) := h.of_allocatePage halloc
    obtain ⟨htables, -, hhere, hkept⟩ := mapPage hpdp htaken hv hmap
    exact ⟨htables, hhere, hkept⟩
  · rw [if_pos hphys] at hstep
    cases hstep
    exact ⟨h, h.translation_ne_none hv hphys, fun w _ hw => hw, fun w _ _ => rfl⟩

end KernelTables

namespace Kept

variable {pdp : List UInt64} {memory memory' memory'' : Memory} {cr3 : UInt64}
  {page page' : UInt64 → Prop}

theorem refl : Kept pdp memory memory cr3 page := ⟨fun _ _ hw => hw, fun _ _ _ => rfl⟩

theorem mono (h : Kept pdp memory memory' cr3 page) (hpage : ∀ v, page v → page' v) :
    Kept pdp memory memory' cr3 page' :=
  ⟨h.resident, fun w hw hnot => h.elsewhere w hw fun hin => hnot (hpage _ hin)⟩

theorem trans (h : Kept pdp memory memory' cr3 page) (h' : Kept pdp memory' memory'' cr3 page) :
    Kept pdp memory memory'' cr3 page :=
  ⟨fun w hw hres => h'.resident w hw (h.resident w hw hres),
    fun w hw hnot => (h'.elsewhere w hw hnot).trans (h.elsewhere w hw hnot)⟩

end Kept

/-- All addresses of the range are translated. -/
def Resident (memory : Memory) (cr3 : UInt64) (lo hi : Nat) : Prop :=
  ∀ v : UInt64, lo ≤ v.toNat → v.toNat < hi → translation memory cr3 v ≠ none

section

variable {B : Type} [LawfulPageAllocator B] {pdp : List UInt64} {cr3 : UInt64}

variable {max addr size v : UInt64} {s s' : Machine B}

/-- **The loop of `EnsureResident`** makes every page from `addr` to `max` resident and touches no
other. -/
theorem ensureLoop_spec (hpdp : pdp.Nodup) {fuel : Nat} (h : KernelTables pdp s.memory cr3 (available s.allocator))
    (haddr : PageAligned addr) (hrange : ∀ v, addr ≤ v → v < max → InKernel pdp v)
    (hmax : max.toNat + 4096 ≤ 2 ^ 64) (hloop : s.ensureLoop cr3 max fuel addr = some s') :
    KernelTables pdp s'.memory cr3 (available s'.allocator) ∧ Resident s'.memory cr3 addr.toNat max.toNat ∧
      Kept pdp s.memory s'.memory cr3 fun page => addr ≤ page ∧ page < max := by
  fun_induction Machine.ensureLoop cr3 max fuel s addr with
  | case1 => cases hloop
  | case2 s addr hlt fuel ih =>
    obtain ⟨s1, hpage, hloop⟩ := bind_eq_some_iff.mp hloop
    replace ih := @ih s1
    have hin := hrange addr le_rfl hlt
    obtain ⟨h1, hhere, hkept⟩ := h.allocatePageIfNecessary hpdp hin hpage
    have hlt' := lt_iff_toNat_lt.mp hlt
    have hself : (pageAlign addr).toNat = addr.toNat := by
      rw [toNat_pageAlign]
      unfold PageAligned at haddr
      omega
    have hnext : (addr + 0x1000).toNat = addr.toNat + 4096 := Word.toNat_add_of_lt (by
      rw [show (0x1000 : UInt64).toNat = 4096 from rfl]
      omega)
    have hle : addr ≤ addr + 0x1000 := by rw [le_iff_toNat_le]; omega
    obtain ⟨h', hres, hkept'⟩ := ih h1 (by unfold PageAligned at haddr ⊢; omega)
      (fun v hlo hhi => hrange v (hle.trans hlo) hhi) hloop
    refine ⟨h', ?_, ?_⟩
    · intro v hlo hhi
      have hv := hrange v (le_iff_toNat_le.mpr hlo) (lt_iff_toNat_lt.mpr hhi)
      by_cases hfirst : v.toNat < addr.toNat + 4096
      · -- the address is in the page that this round makes resident
        refine hkept'.resident v hv ?_
        have hpage : pageAlign v = pageAlign addr := by
          rw [← UInt64.toNat_inj, hself, toNat_pageAlign]
          unfold PageAligned at haddr
          omega
        rw [translation, (hv.entryPath_eq_iff hin).mpr hpage]
        exact hhere
      · exact hres v (by omega) hhi
    · refine (hkept.mono ?_).trans (hkept'.mono ?_)
      · rintro page rfl
        rw [UInt64.toNat_inj.mp hself]
        exact ⟨le_rfl, hlt⟩
      · rintro page ⟨hlo, hhi⟩
        exact ⟨hle.trans hlo, hhi⟩
  | case3 _ s addr hlt =>
    cases hloop
    exact ⟨h, fun v hlo hhi => absurd (lt_iff_toNat_lt.mpr (hlo.trans_lt hhi)) hlt, Kept.refl⟩

/-- **`EnsureResident` makes a range resident** that neither wraps nor reaches the last page. -/
theorem ensureResident_spec (hpdp : pdp.Nodup) (h : KernelTables pdp s.memory cr3 (available s.allocator))
    (hrange : ∀ v, pageAlign addr ≤ v → v < addr + size → InKernel pdp v)
    (hmax : addr.toNat + size.toNat + 4096 ≤ 2 ^ 64) (hstep : s.ensureResident cr3 addr size = some s') :
    KernelTables pdp s'.memory cr3 (available s'.allocator) ∧
      Resident s'.memory cr3 addr.toNat (addr.toNat + size.toNat) ∧
      Kept pdp s.memory s'.memory cr3 fun page => pageAlign addr ≤ page ∧ page < addr + size := by
  have hsum : (addr + size).toNat = addr.toNat + size.toNat := Word.toNat_add_of_lt (by omega)
  obtain ⟨h', hres, hkept⟩ := ensureLoop_spec hpdp h (pageAligned_pageAlign addr) hrange (by rw [hsum]; omega) hstep
  refine ⟨h', fun v hlo hhi => hres v ?_ (by rw [hsum]; exact hhi), hkept⟩
  rw [toNat_pageAlign]
  omega

/-! ## What it takes from the allocator -/

/-- The number of pages that the allocator can hand out. -/
def pagesLeft (s : Machine B) : Nat := (available s.allocator).length

theorem length_available_of_allocatePage {a a' : B} {page : UInt64}
    (h : PageAllocator.allocatePage a = some (page, a')) : (available a').length + 1 = (available a).length := by
  rw [← (LawfulPageAllocator.allocatePage_perm h).length_eq, length_cons]

/-- A level of `MapPage` takes no pages or one. -/
theorem pagesLeft_nextTable {table offset bits next : UInt64}
    (h : s.nextTable table offset bits = some (next, s')) : pagesLeft s' ≤ pagesLeft s := by
  unfold Machine.nextTable Machine.allocateAndZeroPage at h
  by_cases hpresent : s.memory table offset &&& presentBit = 0
  · rw [if_pos hpresent] at h
    simp only [bind_eq_bind, bind_eq_some_iff, map_eq_some_iff, Prod.exists] at h
    obtain ⟨page, s1, ⟨page', allocator, halloc, hs1⟩, hresult⟩ := h
    cases hs1
    cases hresult
    exact Nat.le_of_lt (Nat.lt_of_succ_le (length_available_of_allocatePage halloc).le)
  · rw [if_neg hpresent] at h
    cases h
    exact le_rfl

/-- `MapPage` gives no page back. -/
theorem pagesLeft_mapPage {paddr : UInt64} (h : s.mapPage cr3 v paddr = some s') : pagesLeft s' ≤ pagesLeft s := by
  unfold Machine.mapPage at h
  simp only [bind_eq_bind, bind_eq_some_iff, Prod.exists] at h
  obtain ⟨pdp, s1, h1, pd, s2, h2, pt, s3, h3, hlast⟩ := h
  split_ifs at hlast
  cases hlast
  exact (pagesLeft_nextTable h3).trans ((pagesLeft_nextTable h2).trans (pagesLeft_nextTable h1))

/-- `AllocatePageIfNecessary` gives no page back, and takes one if the page is not resident. -/
theorem pagesLeft_allocatePageIfNecessary (h : s.allocatePageIfNecessary cr3 v = some s') :
    pagesLeft s' ≤ pagesLeft s ∧ (pagePhysIfResident s.memory cr3 v = 0 → pagesLeft s' < pagesLeft s) := by
  unfold Machine.allocatePageIfNecessary at h
  by_cases hphys : pagePhysIfResident s.memory cr3 v = 0
  · rw [if_neg (not_not.mpr hphys)] at h
    simp only [bind_eq_bind, bind_eq_some_iff, Prod.exists] at h
    obtain ⟨page, allocator, halloc, hmap⟩ := h
    have hle := pagesLeft_mapPage hmap
    have hlength := length_available_of_allocatePage halloc
    have hlt : pagesLeft s' < pagesLeft s := lt_of_le_of_lt hle (Nat.lt_of_succ_le hlength.le)
    exact ⟨hlt.le, fun _ => hlt⟩
  · rw [if_pos hphys] at h
    cases h
    exact ⟨le_rfl, fun hzero => absurd hzero hphys⟩

/-- `EnsureResident` gives no page back. -/
theorem pagesLeft_ensureLoop {fuel : Nat} (h : s.ensureLoop cr3 max fuel addr = some s') :
    pagesLeft s' ≤ pagesLeft s := by
  fun_induction Machine.ensureLoop cr3 max fuel s addr with
  | case1 => cases h
  | case2 _ _ _ _ ih =>
    obtain ⟨s1, hpage, hloop⟩ := bind_eq_some_iff.mp h
    exact (ih s1 hloop).trans (pagesLeft_allocatePageIfNecessary hpage).1
  | case3 =>
    cases h
    exact le_rfl

/-- **`EnsureResident` takes a page** if the first one of the range is not resident. -/
theorem pagesLeft_ensureResident (haligned : PageAligned addr) (hsize : addr < addr + size)
    (hphys : pagePhysIfResident s.memory cr3 addr = 0)
    (h : s.ensureResident cr3 addr size = some s') : pagesLeft s' < pagesLeft s := by
  have hself := pageAlign_of_pageAligned haligned
  have hsize' := lt_iff_toNat_lt.mp hsize
  unfold Machine.ensureResident at h
  dsimp only at h
  rw [hself] at h
  -- there is at least one round
  obtain ⟨fuel, hfuel⟩ : ∃ fuel, ((addr + size).toNat - addr.toNat + 0xFFF) / 0x1000 = fuel + 1 :=
    Nat.exists_eq_add_one.mpr (by omega)
  rw [hfuel, Machine.ensureLoop, if_pos hsize] at h
  simp only [bind_eq_bind, bind_eq_some_iff] at h
  obtain ⟨s1, hpage, hloop⟩ := h
  exact (pagesLeft_ensureLoop hloop).trans_lt ((pagesLeft_allocatePageIfNecessary hpage).2 hphys)

end

end Acadia.Zion
