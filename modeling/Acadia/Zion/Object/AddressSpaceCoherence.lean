import Acadia.Zion.Object.AddressSpaceInvariant

/-! # The page tables follow the mapping tree

In every run whose requests meet `KeepsCoherent` the page tables agree with the tree (`Coherent`). The condition is
not met by itself: `AddressSpaceUnmap` never clears an entry, so the two part as soon as a page of the range has
been touched. -/

namespace Acadia.Zion

open Glacier MemoryMappingTree RadixTable Runs BinaryTree List Option UInt64

open scoped Word

namespace System

/-! ## Faults -/

variable {s s' : System} {pending : List Nat}

theorem Inv.touched {s1 : System} (h : Inv s pending) {o : MemoryObject} {pageNum page : UInt64}
    (ht : Touched s s1 o pageNum page) : Inv s1 pending := by
  have hvalid := valid_of_touched h.valid ht
  refine ⟨hvalid.tables, hvalid.ids, ?_, fun hin => h.nonzero (ht.pool.subset hin), ?_, ?_, ?_⟩
  · rw [ht.spaces]
    exact h.spaces
  · rw [allMappings, ht.spaces, ht.refs]
    exact h.recorded
  · rw [ht.spaces, ht.refs]
    exact h.counted
  · rw [ht.spaces]
    intro space hspace v hv hlt e rest htrans
    rw [ht.memory] at htrans
    obtain ⟨hrest, x, p, hx, hpage, he⟩ := h.backed space hspace v hv hlt e rest htrans
    exact ⟨hrest, x, p, hx, ht.kept _ _ _ hpage, he⟩

variable {space : AddressSpace}

theorem Inv.eq_of_cr3 (h : Inv s pending) {space' : AddressSpace} (hspace : space ∈ s.spaces)
    (hspace' : space' ∈ s.spaces) (hcr3 : space.cr3 = space'.cr3) : space = space' :=
  inj_on_of_nodup_map h.tables.nodup_roots hspace hspace' hcr3

variable {vaddr v lo hi cr3 addr base : UInt64}

/-- The page address of an address that resolves belongs to the same mapping, and to the same page of
its object. -/
theorem resolves_pageAlign (h : SpaceInv space) {x : MemoryMapping} (hx : Resolves space.mappings vaddr x) :
    Resolves space.mappings (pageAlign vaddr) x ∧
      (pageAlign vaddr - x.vaddrBase) / 0x1000 = (vaddr - x.vaddrBase) / 0x1000 := by
  have hbase := h.aligned x hx.mem
  have hle := UInt64.le_iff_toNat_le.mp hx.base_le
  have hpage := toNat_pageAlign vaddr
  unfold PageAligned at hbase
  have hlow : pageAlign vaddr ≤ vaddr := by rw [UInt64.le_iff_toNat_le]; omega
  have hbase_le : x.vaddrBase ≤ pageAlign vaddr := by rw [UInt64.le_iff_toNat_le]; omega
  refine ⟨⟨hx.mem, hbase_le, hlow.trans_lt hx.lt_limit, fun y hy hyv =>
    hx.greatest y hy (hyv.trans hlow)⟩, ?_⟩
  rw [← UInt64.toNat_inj, UInt64.toNat_div, UInt64.toNat_div, hx.toNat_sub,
    UInt64.toNat_sub_of_le _ _ hbase_le, hpage, show (0x1000 : UInt64).toNat = 4096 from rfl]
  omega

variable {i n : Nat}

/-- **A page fault keeps the invariant**: the entry it installs is backed. -/
theorem Inv.fault (h : Inv s pending) {resolved : Bool}
    (hstep : s.handlePageFault i vaddr = some (resolved, s')) : Inv s' pending := by
  obtain ⟨hvalid, -, -⟩ := fault_confined h.valid hstep
  obtain ⟨space, hspace, hcases⟩ := handlePageFault_cases hstep
  rcases hcases with rfl | ⟨x, page, s1, machine, hlow, hfind, ht, hmap, rfl⟩
  · exact h
  have h1 := h.touched ht
  have hmem : space ∈ s.spaces := mem_of_getElem? hspace
  have hmem1 : space ∈ s1.spaces := ht.spaces ▸ hmem
  have hcr3 : space.cr3 ∈ s1.roots := mem_map_of_mem hmem1
  obtain ⟨r, hr, hresolves⟩ := getMemoryMappingForAddr_spec (h.spaces space hmem).holds vaddr
  rw [hfind, some.injEq] at hr
  have hx := (hresolves x).mp hr.symm
  have huser := (h.spaces space hmem).lt_of_resolves hx
  obtain ⟨-, hmapped, hpool⟩ := UserTables.mapPage h1.tables hcr3 (not_kernelHalf huser) hmap
  refine ⟨hvalid.tables, hvalid.ids, h1.spaces, fun hin => h1.nonzero (hpool hin), h1.recorded, h1.counted, ?_⟩
  intro space' hspace' v hv hlt e rest htrans
  by_cases hpath : space'.cr3 = space.cr3 ∧ entryPath v = entryPath vaddr
  · -- the page of the fault
    obtain rfl := h1.eq_of_cr3 hspace' hmem1 hpath.1
    obtain ⟨hpageAlign, hnum⟩ := resolves_pageAlign (h.spaces space' hmem) hx
    have hsame : v = pageAlign vaddr := by
      rw [← (entryPath_inj (lt_iff_toNat_lt.mp hlt) (lt_iff_toNat_lt.mp huser)).mp hpath.2, pageAlign_of_pageAligned hv]
    have hentry : translation machine.memory space'.cr3 v =
        some (pageAlign page ||| Machine.accessBits (pageAlign vaddr), []) := by
      rw [← hmapped.here, translation, translation, hpath.2]
    rw [show translation machine.memory space'.cr3 v = some (e, rest) from htrans, some.injEq, Prod.mk.injEq] at hentry
    obtain ⟨hbits, hodd⟩ := accessBits_bounds (pageAlign vaddr)
    refine ⟨hentry.2, x, page, hsame ▸ hpageAlign, ?_, ?_⟩
    · rw [hsame, hnum]
      exact ht.here h.nonzero
    · rw [hentry.1]
      exact (entry_or (pageAligned_pageAlign page) hbits hodd).2.2
  · -- any other page
    have hold : translation machine.memory space'.cr3 v = translation s1.machine.memory space'.cr3 v := by
      by_cases hroot : space'.cr3 = space.cr3
      · rw [hroot]
        exact hmapped.elsewhere v (not_kernelHalf hlt) fun heq => hpath ⟨hroot, heq⟩
      · exact hmapped.others _ (mem_map_of_mem hspace') v (Or.inl hroot)
    exact h1.backed space' hspace' v hv hlt e rest (hold.symm.trans htrans)

/-! ## Mapping -/

variable {code : ErrorCode}

/-- **`MapInMemoryObject` keeps the invariant** for a mapping at a page address of user space. -/
theorem Inv.mapInMemoryObject (h : Inv s pending) {space1 : AddressSpace} (hspace : s.spaces[i]? = some space)
    (hinv : SpaceInv space1) (hcr3 : space1.cr3 = space.cr3) (hmappings : space1.mappings = space.mappings)
    {object : MemoryObject} (hobject : s.refs[object.id]? = some (object, n)) (hn : n ≠ 0)
    (hin : InUserSpace ⟨vaddr, vaddr + object.size, object⟩) (haligned : PageAligned vaddr)
    (hmap : s.mapInMemoryObject i space1 vaddr object = some (code, s')) : Inv s' pending := by
  rcases mapInMemoryObject_spec hinv.holds hmap with ⟨-, rfl⟩ | ⟨-, space', hins, rfl⟩
  · exact h.setFields hspace hcr3 hinv hmappings
  have hcount : ∀ o, s.objects[object.id]? = some o → o.refCount ≠ 0 := by
    intro o ho
    rw [refs, getElem?_map, ho, map_some, some.injEq, Prod.mk.injEq] at hobject
    exact hobject.2 ▸ hn
  -- the reference is taken first; then the mapping holds it
  have h1 := h.acquire hcount
  refine h1.setSpace hspace ?_ (hinv.inserted hins hin haligned) ?_ ?_ ?_
  · rw [hins.rest]
    exact hcr3
  · intro v x _ hx
    rw [← hmappings] at hx
    exact resolves_inserted hinv hins hx
  · intro x hx
    rcases mem_cons.mp (hins.perm.subset hx) with rfl | hx
    · exact ⟨n + 1, by rw [getElem?_refs_acquire, hobject]; simp⟩
    · rw [hmappings] at hx
      exact h1.recorded x (mem_flatMap.mpr ⟨space, mem_of_getElem? hspace, hx⟩)
  · have hids := hins.perm.map fun x => x.memObject.id
    rw [hmappings] at hids
    exact (hids.append_right pending).trans perm_middle.symm

/-- **`AddressSpaceMap` keeps the invariant** for a page address of user space. -/
theorem Inv.map (h : Inv s pending) {id : Nat} {vmasOffset align : UInt64}
    (hok : s.MapsUserSpace (.map i id vmasOffset align)) (haligned : PageAligned vmasOffset)
    {result : Except ErrorCode UInt64}
    (hstep : s.addressSpaceMap i id vmasOffset align = some (result, s')) : Inv s' pending := by
  obtain ⟨space, state, vaddr, space1, code, hspace, hstate, hcount, hplace, hmap⟩ :=
    addressSpaceMap_cases hstep
  have hinv := h.spaces space (mem_of_getElem? hspace)
  obtain ⟨hin, hvalid, hcr3⟩ := placed_inUserSpace hinv.toSpaceValid hstate hok hplace
  have hrefs : s.refs[id]? = some (state.object, state.refCount) := by
    rw [refs, getElem?_map, hstate]
    rfl
  have hid := h.ids id _ _ hrefs
  rw [← hid] at hrefs
  rcases hplace with ⟨-, rfl, rfl⟩ | ⟨hoffset, hnext⟩
  · exact h.mapInMemoryObject hspace hinv rfl rfl hrefs hcount hin haligned hmap
  · have hplaced := hok state hstate
    rw [if_pos hoffset] at hplaced
    obtain ⟨hvaddr, -, next, rfl, -⟩ := getNextMemMapAddr_spec hinv.memmap hplaced hnext
    exact h.mapInMemoryObject hspace ⟨hvalid, hinv.spaced, hinv.aligned, hinv.stackRange⟩ rfl rfl
      hrefs hcount hin hvaddr hmap

/-! ## Unmapping -/

/-- **All references in flight are released.** -/
theorem Inv.releaseAll {destroyed : List MemoryMapping}
    (h : Inv s (destroyed.map (fun x => x.memObject.id) ++ pending)) :
    Inv (destroyed.foldl (fun s x => s.release x.memObject.id) s) pending := by
  induction destroyed generalizing s with
  | nil => exact h
  | cons x _ ih => exact ih h.release

theorem lt_of_startsIn (h : SpaceInv space) (hends : EndsBy space.mappings hi) {x : MemoryMapping}
    (hx : Resolves space.mappings v x) (hstart : startsIn lo hi x = true) : lo ≤ v ∧ v < hi := by
  simp only [startsIn, Bool.and_eq_true, decide_eq_true_eq] at hstart
  refine ⟨hstart.1.trans hx.base_le, ?_⟩
  have hlimit := hx.lt_limit
  rw [← h.holds.limit x hx.mem] at hlimit
  -- either another mapping starts between this one and `hi`, or the check at `hi` was about it
  by_cases hlast : ∀ y ∈ space.mappings, y.vaddrBase < hi → y.vaddrBase ≤ x.vaddrBase
  · exact hlimit.trans_le (hends x hx.mem hstart.2 hlast)
  · simp only [not_forall, not_le] at hlast
    obtain ⟨y, hy, hyhi, hxy⟩ := hlast
    exact hlimit.trans_le ((h.spaced x hx.mem y hy hxy hx.noWrap).trans hyhi.le)

/-- **Freeing a range keeps the invariant**, if nothing in it is present. -/
theorem Inv.freeRange (h : Inv s pending) (hspace : s.spaces[i]? = some space)
    (hs : rangeSplices lo hi space.mappingTree.mappingTree.shape = true)
    (habsent : code = .ok → ∀ v, lo ≤ v → v < hi → translation s.machine.memory space.cr3 v = none)
    (hstep : s.freeAddressRange i lo hi true = some (code, s')) : Inv s' pending := by
  have hinv := h.spaces space (mem_of_getElem? hspace)
  unfold freeAddressRange at hstep
  rw [hspace] at hstep
  rcases freeMemoryRange_spec hinv.holds hs with ⟨error, herror, hfree⟩ | ⟨tree, hfree, hholds, -, -, hends⟩
  · simp only [bind_eq_bind, bind_some, hfree, if_pos herror] at hstep
    cases hstep
    exact h.setFields hspace rfl hinv rfl
  simp only [bind_eq_bind, bind_some, hfree, ne_eq, not_true, if_false, if_true] at hstep
  cases hstep
  have hmappings : AddressSpace.mappings { space with mappingTree := tree } =
      space.mappings.filter fun x => !startsIn lo hi x := hholds.values
  have hsub : (space.mappings.filter fun x => !startsIn lo hi x) ⊆ space.mappings :=
    filter_subset_self _
  rw [← hmappings] at hholds hsub
  have hinv' : SpaceInv { space with mappingTree := tree } :=
    ⟨⟨hholds, fun x hx => hinv.inUser x (hsub hx), hinv.memmap⟩, hinv.spaced.subset hsub,
      fun x hx => hinv.aligned x (hsub hx), hinv.stackRange⟩
  apply Inv.releaseAll
  refine h.setSpace hspace rfl hinv' ?_ ?_ ?_
  · intro v x htrans hx
    have hkeep : startsIn lo hi x = false := by
      by_contra hstart
      obtain ⟨hlo, hhi⟩ := lt_of_startsIn hinv hends hx (by simpa using hstart)
      exact htrans (habsent rfl v hlo hhi)
    refine ⟨?_, hx.base_le, hx.lt_limit, fun y hy => hx.greatest y (hsub hy)⟩
    rw [hmappings, mem_filter]
    exact ⟨hx.mem, by simp [hkeep]⟩
  · intro x hx
    exact h.recorded x (mem_flatMap.mpr ⟨space, mem_of_getElem? hspace, hsub hx⟩)
  · rw [mappedIds, mappedIds, hmappings, ← append_assoc, ← map_append]
    refine List.Perm.append_right pending (List.Perm.map _ ?_)
    exact perm_append_comm.trans (filter_append_perm (startsIn lo hi) space.mappings)

/-! ## Clearing page table entries -/

/-- The system with other contents of physical memory. -/
def withMemory (s : System) (memory : Memory) : System :=
  { s with machine := { s.machine with memory } }

theorem Inv.withMemory (h : Inv s pending) {memory : Memory} (htables : UserTables memory s.roots s.pool)
    (hless : ∀ cr3 ∈ s.roots, ∀ v, v < kUserSpaceMax → translation memory cr3 v = none ∨
      translation memory cr3 v = translation s.machine.memory cr3 v) :
    Inv (s.withMemory memory) pending := by
  refine ⟨htables, h.ids, h.spaces, h.nonzero, h.recorded, h.counted, ?_⟩
  intro space hspace v hv hlt e rest htrans
  rcases hless space.cr3 (mem_map_of_mem hspace) v hlt with hnone | hsame
  · exact absurd (hnone.symm.trans htrans) (some_ne_none _).symm
  · exact h.backed space hspace v hv hlt e rest (hsame.symm.trans htrans)

/-- **`UnmapPage` keeps the invariant**, up to the end of user space and at it. -/
theorem Inv.unmapPage (h : Inv s pending) (hcr3 : cr3 ∈ s.roots) (haddr : addr ≤ kUserSpaceMax) :
    Inv (s.withMemory (unmapPage s.machine.memory cr3 addr)) pending ∧
      (∀ v, v < kUserSpaceMax → translation s.machine.memory cr3 v = none →
        translation (Zion.unmapPage s.machine.memory cr3 addr) cr3 v = none) ∧
      (addr < kUserSpaceMax → ∀ v, v < kUserSpaceMax → pageAlign v = pageAlign addr →
        translation (Zion.unmapPage s.machine.memory cr3 addr) cr3 v = none) := by
  rcases lt_or_eq_of_le haddr with hlt | rfl
  · obtain ⟨htables, hhere, helsewhere, hothers⟩ :=
      h.tables.unmapPage hcr3 (not_kernelHalf hlt)
    have hpath : ∀ v, entryPath v = entryPath addr →
        translation (Zion.unmapPage s.machine.memory cr3 addr) cr3 v = none := by
      intro v hv
      rw [translation, hv]
      exact hhere
    refine ⟨h.withMemory htables ?_, ?_, ?_⟩
    · intro r hr v hv
      by_cases hne : r = cr3
      · subst hne
        by_cases hsame : entryPath v = entryPath addr
        · exact Or.inl (hpath v hsame)
        · exact Or.inr (helsewhere v (not_kernelHalf hv) hsame)
      · exact Or.inr (hothers r hr v (Or.inl hne))
    · intro v hv hnone
      by_cases hsame : entryPath v = entryPath addr
      · exact hpath v hsame
      · rw [helsewhere v (not_kernelHalf hv) hsame, hnone]
    · intro _ v hv hpage
      exact hpath v ((entryPath_inj (lt_iff_toNat_lt.mp hv) (lt_iff_toNat_lt.mp hlt)).mpr hpage)
  · obtain ⟨htables, hsame⟩ := h.tables.unmapPage_limit hcr3
    refine ⟨h.withMemory htables ?_, ?_, fun hlt => absurd hlt (lt_irrefl _)⟩
    · intro r hr v hv
      exact Or.inr (hsame r hr v (not_kernelHalf hv))
    · intro v hv hnone
      rw [hsame cr3 hcr3 v (not_kernelHalf hv), hnone]

/-- **The loop of `FreeAddressRange` keeps the invariant**, and leaves nothing of the range
present. -/
theorem unmapLoop_spec {limit : UInt64} (hcr3 : cr3 ∈ s.roots) (hlimit : limit ≤ kUserSpaceMax)
    {fuel : Nat} {memory memory' : Memory} (h : Inv (s.withMemory memory) pending)
    (haddr : PageAligned addr) (hloop : unmapLoop cr3 limit fuel memory addr = some memory') :
    Inv (s.withMemory memory') pending ∧ (∀ v, v < kUserSpaceMax → translation memory cr3 v = none →
        translation memory' cr3 v = none) ∧
      ∀ v, addr ≤ v → v < limit → translation memory' cr3 v = none := by
  fun_induction unmapLoop cr3 limit fuel memory addr with
  | case1 => cases hloop
  | case2 memory addr hlt _ ih =>
    obtain ⟨hinv, hstays, hpage⟩ := h.unmapPage hcr3 (hlt.le.trans hlimit)
    have hmax : addr.toNat < 2 ^ 47 := lt_iff_toNat_lt.mp (hlt.trans_le hlimit)
    have hnext : (addr + kPageSize).toNat = addr.toNat + 4096 :=
      Word.toNat_add_of_lt (by rw [show kPageSize.toNat = 4096 from rfl]; omega)
    unfold PageAligned at haddr
    obtain ⟨hinv', hstays', hrange⟩ := ih hinv (by unfold PageAligned; omega) hloop
    refine ⟨hinv', fun v hv hnone => hstays' v hv (hstays v hv hnone), ?_⟩
    intro v hle hv
    have hvmax := hv.trans_le hlimit
    by_cases hin : addr + kPageSize ≤ v
    · exact hrange v hin hv
    · refine hstays' v hvmax (hpage (hlt.trans_le hlimit) v hvmax ?_)
      rw [← UInt64.toNat_inj, toNat_pageAlign, toNat_pageAlign]
      rw [le_iff_toNat_le] at hle hin
      omega
  | case3 _ memory addr hlt =>
    cases hloop
    exact ⟨h, fun _ _ hv => hv, fun v hle hv => absurd (hle.trans_lt hv) hlt⟩

theorem release_withMemory (s : System) (memory : Memory) (id : Nat) :
    (s.withMemory memory).release id = (s.release id).withMemory memory := by
  unfold release
  rw [show (s.withMemory memory).objects = s.objects from rfl]
  cases s.objects[id]? with
  | none => rfl
  | some o =>
    by_cases hone : o.refCount = 1
    · simp only [if_pos hone]
      rfl
    · simp only [if_neg hone]
      rfl

theorem foldl_release_withMemory (s : System) (memory : Memory) (destroyed : List MemoryMapping) :
    destroyed.foldl (fun s x => s.release x.memObject.id) (s.withMemory memory) =
      (destroyed.foldl (fun s x => s.release x.memObject.id) s).withMemory memory := by
  induction destroyed generalizing s with
  | nil => rfl
  | cons x _ ih =>
    rw [foldl_cons, foldl_cons, release_withMemory]
    exact ih _

theorem foldl_release_frame (s : System) (destroyed : List MemoryMapping) :
    (destroyed.foldl (fun s x => s.release x.memObject.id) s).spaces = s.spaces ∧
      (destroyed.foldl (fun s x => s.release x.memObject.id) s).machine.memory = s.machine.memory := by
  induction destroyed generalizing s with
  | nil => exact ⟨rfl, rfl⟩
  | cons x _ ih =>
    obtain ⟨hspaces, hmemory⟩ := release_frame s x.memObject.id
    exact ⟨(ih _).1.trans hspaces, (ih _).2.trans hmemory⟩

/-- `FreeAddressRange` for a dying process writes no page table. -/
theorem freeAddressRange_dying (h : s.freeAddressRange i lo hi true = some (code, s')) :
    s'.machine.memory = s.machine.memory ∧ s'.roots = s.roots := by
  unfold freeAddressRange at h
  simp only [bind_eq_bind, bind_eq_some_iff, Prod.exists] at h
  obtain ⟨space, hspace, code', tree, destroyed, -, h⟩ := h
  have hroots : roots { s with spaces := s.spaces.set i { space with mappingTree := tree } } =
      s.roots := roots_setSpace hspace rfl
  by_cases hok : code' = .ok
  · simp only [hok, ne_eq, not_true, if_false, if_true] at h
    cases h
    obtain ⟨hspaces, hmemory⟩ := foldl_release_frame
      { s with spaces := s.spaces.set i { space with mappingTree := tree } } destroyed
    refine ⟨hmemory, ?_⟩
    rw [roots, hspaces]
    exact hroots
  · simp only [ne_eq, hok, not_false_iff, if_true] at h
    cases h
    exact ⟨rfl, hroots⟩

/-- **`FreeAddressRange` for a living process** is the clearing of the entries of the range followed
by what it does for a dying one. -/
theorem freeAddressRange_living (h : s.freeAddressRange i lo hi false = some (code, s')) :
    ∃ space, s.spaces[i]? = some space ∧ ((code ≠ .ok ∧ s.freeAddressRange i lo hi true = some (code, s')) ∨
        ∃ memory, unmapLoop space.cr3 hi ((hi.toNat - lo.toNat + 0xFFF) / 0x1000) s.machine.memory lo = some memory ∧
          (s.withMemory (Zion.unmapPage memory space.cr3 hi)).freeAddressRange i lo hi true = some (code, s')) := by
  unfold freeAddressRange at h
  simp only [bind_eq_bind, bind_eq_some_iff, Prod.exists] at h
  obtain ⟨space, hspace, code', tree, destroyed, hfree, h⟩ := h
  refine ⟨space, hspace, ?_⟩
  by_cases hok : code' = .ok
  · right
    simp only [hok, ne_eq, not_true, if_false, Bool.false_eq_true, bind_eq_some_iff] at h
    obtain ⟨memory, hloop, h⟩ := h
    rw [(foldl_release_frame _ _).2] at hloop
    refine ⟨memory, hloop, ?_⟩
    rw [← h]
    unfold freeAddressRange
    rw [show (s.withMemory (Zion.unmapPage memory space.cr3 hi)).spaces[i]? = some space from hspace]
    simp only [bind_eq_bind, bind_some, hfree, hok, ne_eq, not_true, if_false, if_true]
    have hcommute := foldl_release_withMemory { s with spaces := s.spaces.set i { space with mappingTree := tree } }
      (Zion.unmapPage memory space.cr3 hi) destroyed
    exact congrArg (fun s => some (ErrorCode.ok, s)) hcommute
  · left
    simp only [ne_eq, hok, not_false_iff, if_true] at h
    cases h
    refine ⟨hok, ?_⟩
    unfold freeAddressRange
    simp [hspace, hfree, hok]

/-! ## User stacks -/

theorem newUserStack_spec {m m' : UserStackManager} (h : StacksInRange m) (hnew : m.newUserStack = some (base, m')) :
    StacksInRange m' ∧ PageAligned base ∧ base.toNat + kUserStackSize.toNat ≤ kUserSpaceMax.toNat := by
  obtain ⟨hnext, hbounds, hfreed⟩ := h
  obtain ⟨next, _ | ⟨stack, freedStacks⟩⟩ := m
  · simp only [UserStackManager.newUserStack, Option.ite_none_left_eq_some, Option.some.injEq, Prod.mk.injEq] at hnew
    obtain ⟨hout, rfl, rfl⟩ := hnew
    have hsub : PageAligned (next - kUserStackSize) ∧ next - kUserStackSize ≤ kUserStackMax ∧
        (next - kUserStackSize).toNat + kUserStackSize.toNat ≤ kUserSpaceMax.toNat := by
      simp only [kUserStackMin, kUserStackMax, kUserStackSize, kUserSpaceMax, PageAligned, not_le, lt_iff_toNat_lt,
        le_iff_toNat_le, UInt64.toNat_sub, UInt64.reduceToNat] at *
      omega
    exact ⟨⟨hsub.1, ⟨not_le.mp hout, hsub.2.1⟩, fun b hb => absurd hb not_mem_nil⟩, hsub.1, hsub.2.2⟩
  · cases hnew
    rw [forall_mem_cons] at hfreed
    exact ⟨⟨hnext, hbounds, hfreed.2⟩, hfreed.1⟩

theorem freeUserStack_stacksInRange {m : UserStackManager} (h : StacksInRange m) (haligned : PageAligned base)
    (hbase : base.toNat + kUserStackSize.toNat ≤ kUserSpaceMax.toNat) : StacksInRange (m.freeUserStack base) := by
  refine ⟨h.next, h.bounds, ?_⟩
  intro b hb
  rcases mem_append.mp hb with hb | hb
  · exact h.freed b hb
  · obtain rfl := mem_singleton.mp hb
    exact ⟨haligned, hbase⟩

/-- **A new object** comes with one reference in flight. -/
theorem Inv.addObject (h : Inv s []) {o : ObjectState} (hid : o.object.id = s.objects.length) (hcount : o.refCount = 1)
    (hpages : o.pages = []) : Inv { s with objects := s.objects ++ [o] } [s.objects.length] := by
  have hpool : pool { s with objects := s.objects ++ [o] } = s.pool := by
    simp only [pool, flatMap_append, flatMap_singleton, hpages, append_nil]
  have hlength : s.refs.length = s.objects.length := length_map _
  have hrefs : refs { s with objects := s.objects ++ [o] } = s.refs ++ [(o.object, 1)] := by
    rw [refs, refs, map_append, ← hcount]
    rfl
  have hold : ∀ (k : Nat) (r : MemoryObject × Nat), s.refs[k]? = some r → (s.refs ++ [(o.object, 1)])[k]? = some r := by
    intro k r hk
    rw [List.getElem?_append_left (List.getElem?_eq_some_iff.mp hk).1, hk]
  -- a recorded object is an old one or the new one
  have hcases : ∀ (k : Nat) (x : MemoryObject) (n : Nat), (s.refs ++ [(o.object, 1)])[k]? = some (x, n) →
      s.refs[k]? = some (x, n) ∨ k = s.objects.length ∧ x = o.object ∧ n = 1 := by
    intro k x n hk
    by_cases hlt : k < s.refs.length
    · exact Or.inl (by rw [← hk, getElem?_append_left hlt])
    · rw [getElem?_append_right (not_lt.mp hlt)] at hk
      have hzero : k - s.refs.length = 0 := by
        have hlt := (List.getElem?_eq_some_iff.mp hk).1
        simpa using hlt
      rw [hzero, getElem?_cons_zero, some.injEq, Prod.mk.injEq] at hk
      exact Or.inr ⟨by omega, hk.1.symm, hk.2.symm⟩
  refine ⟨?_, ?_, h.spaces, ?_, ?_, ?_, ?_⟩
  · rw [hpool]
    exact h.tables
  · rw [hrefs]
    intro k x n hk
    rcases hcases k x n hk with hk | ⟨rfl, rfl, -⟩
    exacts [h.ids k x n hk, hid]
  · rw [hpool]
    exact h.nonzero
  · rw [hrefs]
    intro x hx
    obtain ⟨n, hn⟩ := h.recorded x hx
    exact ⟨n, hold _ _ hn⟩
  · rw [hrefs]
    intro k x n hk
    rw [count_append]
    rcases hcases k x n hk with hk | ⟨rfl, -, rfl⟩
    · have hle := h.counted k x n hk
      have hne : s.objects.length ≠ k := by
        have hlt := (List.getElem?_eq_some_iff.mp hk).1
        omega
      rw [append_nil] at hle
      rw [count_singleton, if_neg (by simpa using hne)]
      exact hle
    have hnone : (s.spaces.flatMap mappedIds).count s.objects.length = 0 := by
      rw [count_eq_zero]
      intro hin
      obtain ⟨space, hspace, hin⟩ := mem_flatMap.mp hin
      obtain ⟨x, hx, hid⟩ := mem_map.mp hin
      obtain ⟨n, hn⟩ := h.recorded x (mem_flatMap.mpr ⟨space, hspace, hx⟩)
      have hlt := (List.getElem?_eq_some_iff.mp hn).1
      omega
    rw [hnone, count_singleton_self]
  · intro space hspace v hv hlt e rest htrans
    obtain ⟨hrest, x, page, hx, hpage, he⟩ := h.backed space hspace v hv hlt e rest htrans
    refine ⟨hrest, x, page, hx, hpage.of_listed fun _ state hstate hpage => ⟨state, ?_, hpage⟩, he⟩
    rw [List.getElem?_append_left (List.getElem?_eq_some_iff.mp hstate).1, hstate]

theorem pages_of_replicate {o : ObjectState} (hkind : o.object.kind = .variable)
    (hlist : o.physPageList = List.replicate n 0) : o.pages = [] := by
  rw [ObjectState.pages, hkind]
  rw [hlist, filter_eq_nil_iff]
  intro g hg
  simp [eq_of_mem_replicate hg]

/-- **The object of a new stack** comes with one reference in flight. -/
theorem Inv.create (h : Inv s []) :
    Inv { s with objects := s.objects ++ [stackObject s.objects.length] } [s.objects.length] :=
  h.addObject rfl rfl (pages_of_replicate rfl rfl)

/-- **`AllocateUserStack` keeps the invariant.** -/
theorem Inv.allocateStack (h : Inv s []) {result : Except ErrorCode UInt64}
    (hstep : s.allocateUserStack i = some (result, s')) : Inv s' [] := by
  unfold allocateUserStack at hstep
  simp only [bind_eq_bind, bind_eq_some_iff, Prod.exists] at hstep
  obtain ⟨space, hspace, base, userStacks, hnew, code, mapped, hmap, hstep⟩ := hstep
  have hrelease : s' = mapped.release s.objects.length := by
    split at hstep
    all_goals
      cases hstep
      rfl
  rw [hrelease]
  have hinv := h.spaces space (mem_of_getElem? hspace)
  obtain ⟨hrange, haligned, hbase⟩ := newUserStack_spec hinv.stackRange hnew
  have hinv' : SpaceInv { space with userStacks } :=
    ⟨⟨hinv.holds, hinv.inUser, hinv.memmap⟩, hinv.spaced, hinv.aligned, hrange⟩
  have hin : InUserSpace ⟨base, base + (stackObject s.objects.length).object.size,
      (stackObject s.objects.length).object⟩ := fun _ => hbase
  apply Inv.release
  refine h.create.mapInMemoryObject hspace hinv' rfl rfl (n := 1) ?_ Nat.one_ne_zero hin haligned hmap
  rw [refs, map_append]
  show (_ ++ [((stackObject s.objects.length).object, 1)])[s.objects.length]? = _
  rw [getElem?_append_right (by rw [length_map]), length_map, Nat.sub_self]
  rfl

/-- **`FreeUserStack` keeps the invariant** for a stack at a page address of user space. -/
theorem Inv.freeStack (h : Inv s []) (haligned : PageAligned base)
    (hbase : base.toNat + kUserStackSize.toNat ≤ kUserSpaceMax.toNat)
    (hs : ∀ space ∈ s.spaces[i]?, rangeSplices base (base + kUserStackSize) space.mappingTree.mappingTree.shape = true)
    (hstep : s.freeUserStack i base = some (code, s')) : Inv s' [] := by
  unfold freeUserStack at hstep
  simp only [bind_eq_bind, bind_eq_some_iff, Prod.exists] at hstep
  obtain ⟨code1, s1, hfree, hstep⟩ := hstep
  obtain ⟨space, hspace, hliving⟩ := freeAddressRange_living hfree
  have hcr3 : space.cr3 ∈ s.roots := mem_map_of_mem (mem_of_getElem? hspace)
  have hsum : (base + kUserStackSize).toNat = base.toNat + kUserStackSize.toNat :=
    Word.toNat_add_of_lt (hbase.trans_lt (by decide))
  have hlimit : base + kUserStackSize ≤ kUserSpaceMax := by
    rw [le_iff_toNat_le, hsum]
    exact hbase
  have h1 : Inv s1 [] := by
    rcases hliving with ⟨herror, hdying⟩ | ⟨memory, hloop, hdying⟩
    · exact h.freeRange hspace (hs space hspace) (fun hok => absurd hok herror) hdying
    · -- the loop clears the pages of the stack, and then the page after it is cleared as well
      obtain ⟨hinv, -, hrange⟩ := unmapLoop_spec hcr3 hlimit (s := s) h haligned hloop
      obtain ⟨hinv', hstays, -⟩ := hinv.unmapPage hcr3 hlimit
      refine hinv'.freeRange hspace (hs space hspace) (fun _ v hlo hhi => ?_) hdying
      exact hstays v (hhi.trans_le hlimit) (hrange v hlo hhi)
  by_cases hok : code1 = .ok
  · simp only [hok, ne_eq, not_true, if_false, bind_eq_some_iff] at hstep
    obtain ⟨space1, hspace1, hstep⟩ := hstep
    cases hstep
    have hinv := h1.spaces space1 (mem_of_getElem? hspace1)
    exact h1.setFields hspace1 rfl ⟨⟨hinv.holds, hinv.inUser, hinv.memmap⟩, hinv.spaced,
      hinv.aligned, freeUserStack_stacksInRange hinv.stackRange haligned hbase⟩ rfl
  · simp only [ne_eq, hok, not_false_iff, if_true] at hstep
    cases hstep
    exact h1

/-! ## Runs -/

/-- **What a request has to meet for the two pictures to stay the same**: mappings are asked for at
page addresses of user space, nothing in an unmapped range has been touched, stacks are given back
where stacks can be, and the tree loses no mapping when a range is freed. -/
def KeepsCoherent (s : System) : Request → Prop
  | .map i id vmasOffset align =>
    s.MapsUserSpace (.map i id vmasOffset align) ∧ PageAligned vmasOffset
  | .unmap i lowerAddr upperAddr => ∀ space ∈ s.spaces[i]?,
    rangeSplices lowerAddr upperAddr space.mappingTree.mappingTree.shape = true ∧
      ∀ v, lowerAddr ≤ v → v < upperAddr → translation s.machine.memory space.cr3 v = none
  | .freeStack i base => PageAligned base ∧
    base.toNat + kUserStackSize.toNat ≤ kUserSpaceMax.toNat ∧ ∀ space ∈ s.spaces[i]?,
      rangeSplices base (base + kUserStackSize) space.mappingTree.mappingTree.shape = true
  | _ => True

/-- **One request keeps the invariant.** -/
theorem step_inv (h : Inv s []) {r : Request} (hok : s.KeepsCoherent r) (hstep : s.step r = some s') : Inv s' [] := by
  cases r with
  | map =>
    obtain ⟨⟨result, s1⟩, hmap, rfl⟩ := map_eq_some_iff.mp hstep
    exact h.map hok.1 hok.2 hmap
  | unmap i =>
    obtain ⟨⟨code, s1⟩, hfree, rfl⟩ := map_eq_some_iff.mp hstep
    cases hspace : s.spaces[i]? with
    | none =>
      rw [addressSpaceUnmap, freeAddressRange, hspace] at hfree
      cases hfree
    | some space =>
      obtain ⟨hs, habsent⟩ := hok space hspace
      exact h.freeRange hspace hs (fun _ => habsent) hfree
  | fault =>
    obtain ⟨⟨resolved, s1⟩, hfault, rfl⟩ := map_eq_some_iff.mp hstep
    exact h.fault hfault
  | allocateStack =>
    obtain ⟨⟨result, s1⟩, halloc, rfl⟩ := map_eq_some_iff.mp hstep
    exact h.allocateStack halloc
  | freeStack =>
    obtain ⟨⟨code, s1⟩, hfree, rfl⟩ := map_eq_some_iff.mp hstep
    exact h.freeStack hok.1 hok.2.1 hok.2.2 hfree

theorem Fresh.translation_eq_none (h : Fresh s) (hcr3 : cr3 ∈ s.roots) (hv : v < kUserSpaceMax) :
    translation s.machine.memory cr3 v = none := by
  have habsent := h.empty cr3 hcr3 (shiftForEntryIndexing v 39) ((shift_mem_user_iff v).mpr (not_kernelHalf hv))
  rw [translation, entryPath, map_cons, map_cons, RadixTable.translate, if_neg (by simp [habsent])]

theorem Fresh.inv (h : Fresh s) : Inv s [] := by
  have hmappings : ∀ space ∈ s.spaces, space.mappings = [] := by
    intro space hspace
    rw [h.spaces space hspace]
    rfl
  have hnone : s.allMappings = [] := flatMap_eq_nil_iff.mpr hmappings
  have hids : s.spaces.flatMap mappedIds = [] := by
    refine flatMap_eq_nil_iff.mpr fun space hspace => ?_
    rw [mappedIds, hmappings space hspace]
    rfl
  refine ⟨h.valid.tables, h.ids, ?_, h.nonzero, ?_, ?_, ?_⟩
  · intro space hspace
    have hvalid := h.valid.spaces space hspace
    have hempty := hmappings space hspace
    refine ⟨hvalid, ?_, ?_, ?_⟩
    · intro x hx
      rw [hempty] at hx
      exact absurd hx not_mem_nil
    · intro x hx
      rw [hempty] at hx
      exact absurd hx not_mem_nil
    · rw [h.spaces space hspace]
      refine ⟨?_, ?_, fun b hb => absurd hb not_mem_nil⟩
      · show PageAligned kUserStackMax
        decide
      · show kUserStackMin < kUserStackMax ∧ kUserStackMax ≤ kUserStackMax
        decide
  · rw [hnone]
    exact fun x hx => absurd hx not_mem_nil
  · rw [hids]
    exact fun id o n _ => Nat.zero_le n
  · intro space hspace v _ hlt e rest htrans
    rw [h.translation_eq_none (mem_map_of_mem hspace) hlt] at htrans
    cases htrans

/-- **The page tables agree with the tree**: every user page that is present is covered by a mapping
of the tree, and its entry holds the page that `GetPhysicalPageAtVaddr` gives for it. -/
def Coherent (s : System) : Prop :=
  ∀ space ∈ s.spaces, ∀ v, PageAligned v → v < kUserSpaceMax → ∀ e rest,
    translation s.machine.memory space.cr3 v = some (e, rest) →
      rest = [] ∧ ∃ x page, space.mappingTree.getMemoryMappingForAddr v = some (some x) ∧
        s.getPhysicalPageAtVaddr space v = some (some page, s) ∧ e &&& ~~~0xFFF = pageAlign page

/-- The invariant is what `GetPhysicalPageAtVaddr` sees. -/
theorem Inv.coherent (h : Inv s []) : Coherent s := by
  intro space hspace v hv hlt e rest htrans
  obtain ⟨hrest, x, page, hx, hpage, he⟩ := h.backed space hspace v hv hlt e rest htrans
  obtain ⟨r, hr, hresolves⟩ := getMemoryMappingForAddr_spec (h.spaces space hspace).holds v
  rw [(hresolves x).mpr hx] at hr
  refine ⟨hrest, x, page, hr, ?_, he⟩
  have hoffset : ¬ v - x.vaddrBase > x.memObject.size := by
    have hlt := hx.offset_lt
    rw [gt_iff_lt, lt_iff_toNat_lt]
    omega
  simp only [getPhysicalPageAtVaddr, hr, physicalPageAtOffset, if_neg hoffset,
    pageNumberToPhysAddr_of_pageOf hpage, bind_eq_bind, bind_some]
  rfl

/-- **The page tables follow the tree** in every run from a fresh system whose requests all keep them
coherent, and after an unmapping nothing of the range translates. -/
theorem page_tables_follow_tree {s s' : System} (requests : List Request) (h : Fresh s)
    (hok : Meets step KeepsCoherent s requests) (hrun : run step s requests = some s') :
    Coherent s' ∧ ∀ (i : Nat) (lowerAddr upperAddr : UInt64) (s'' : System),
      s'.KeepsCoherent (.unmap i lowerAddr upperAddr) →
      s'.addressSpaceUnmap i lowerAddr upperAddr = some (.ok, s'') →
      ∀ cr3, s''.roots[i]? = some cr3 → ∀ v, lowerAddr ≤ v → v < upperAddr →
        translation s''.machine.memory cr3 v = none := by
  have hinv : Inv s' [] := run_invariant (fun _ _ _ hinv hok => step_inv hinv hok) h.inv hok hrun
  refine ⟨hinv.coherent, ?_⟩
  intro i lowerAddr upperAddr s'' hkeeps hunmap cr3 hcr3 v hlo hhi
  obtain ⟨hmemory, hroots⟩ := freeAddressRange_dying hunmap
  rw [hroots, roots, getElem?_map, map_eq_some_iff] at hcr3
  obtain ⟨space, hspace, rfl⟩ := hcr3
  rw [hmemory]
  exact (hkeeps space hspace).2 v hlo hhi

/-- An object is mapped, unmapped untouched, mapped again and touched, and a stack is used. -/
theorem page_tables_follow_tree_twoProcesses :
    ∃ s', run step twoProcesses [.map 0 1 0x400000 0, .unmap 0 0x400000 0x402000,
        .map 0 1 0x400000 0, .fault 0 0x401008, .allocateStack 0, .fault 0 0x7FFFFFFFFFF0] = some s' ∧
      Coherent s' ∧ ∀ (i : Nat) (lowerAddr upperAddr : UInt64) (s'' : System),
        s'.KeepsCoherent (.unmap i lowerAddr upperAddr) →
        s'.addressSpaceUnmap i lowerAddr upperAddr = some (.ok, s'') →
        ∀ cr3, s''.roots[i]? = some cr3 → ∀ v, lowerAddr ≤ v → v < upperAddr →
          translation s''.machine.memory cr3 v = none := by
  refine ⟨_, rfl, page_tables_follow_tree [.map 0 1 0x400000 0, .unmap 0 0x400000 0x402000,
    .map 0 1 0x400000 0, .fault 0 0x401008, .allocateStack 0, .fault 0 0x7FFFFFFFFFF0] fresh_twoProcesses ?_ rfl⟩
  refine ⟨⟨by decide, by decide⟩, ?_⟩
  intro s₁ h₁
  cases h₁
  refine ⟨?_, ?_⟩
  · intro space hspace
    cases hspace
    refine ⟨by decide, ?_⟩
    intro v _ hv
    exact fresh_twoProcesses.translation_eq_none (by decide) (hv.trans (by decide))
  intro s₂ h₂
  cases h₂
  exact ⟨⟨by decide, by decide⟩, fun _ _ => ⟨trivial, fun _ _ => ⟨trivial, fun _ _ => ⟨trivial, fun _ _ => trivial⟩⟩⟩⟩

/-- **Unmapping leaves the entries**: a page that was touched is still present after its mapping is
gone. -/
theorem unmapped_page_still_present : Fresh twoProcesses ∧
    ∃ s' s'', run step twoProcesses [.map 0 1 0x400000 0, .fault 0 0x400000] = some s' ∧
      s'.addressSpaceUnmap 0 0x400000 0x402000 = some (.ok, s'') ∧
      translation s''.machine.memory 0x10000 0x400000 = some (0x100007, []) ∧ ¬ Coherent s'' := by
  refine ⟨fresh_twoProcesses, _, _, rfl, rfl, by decide, ?_⟩
  intro h
  obtain ⟨-, x, page, hx, -⟩ := h _ mem_cons_self 0x400000 (by decide) (by decide) 0x100007 [] (by decide)
  cases hx

end System

end Acadia.Zion
