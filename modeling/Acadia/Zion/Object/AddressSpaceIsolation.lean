import Acadia.Zion.Object.AddressSpaceSpec

/-! # What a process can do to translations

Mapping an object writes no page table; a page fault writes the tables of the process that faults. As long as every
mapping that resolves an address lies in user space (`Valid`), faults install entries for user addresses of that
process only. Nothing in `AddressSpaceMap` ensures this: the address comes from the request as it is, so the run
has to (`MapsUserSpace`). -/

namespace Acadia.Zion

open Glacier MemoryMappingTree RadixTable Runs List UInt64

open scoped Word

/-! ## Requests -/

/-- What happens to the address spaces: system calls, page faults, and stacks of threads. -/
inductive Request where
  | map (i id : Nat) (vmasOffset align : UInt64)
  | unmap (i : Nat) (lowerAddr upperAddr : UInt64)
  /-- A page fault of the process. -/
  | fault (i : Nat) (vaddr : UInt64)
  /-- A thread gets a stack. -/
  | allocateStack (i : Nat)
  /-- A thread gives its stack back. -/
  | freeStack (i : Nat) (base : UInt64)
  deriving DecidableEq

namespace System

/-- One request; `none` is a panic of the kernel. -/
def step (s : System) : Request → Option System
  | .map i id vmasOffset align => (s.addressSpaceMap i id vmasOffset align).map Prod.snd
  | .unmap i lowerAddr upperAddr => (s.addressSpaceUnmap i lowerAddr upperAddr).map Prod.snd
  | .fault i vaddr => (s.handlePageFault i vaddr).map Prod.snd
  | .allocateStack i => (s.allocateUserStack i).map Prod.snd
  | .freeStack i base => (s.freeUserStack i base).map Prod.snd

/-- The mapping that the request asks for ends in user space, or wraps and so resolves no address. -/
def MapsUserSpace (s : System) : Request → Prop
  | .map _ id vmasOffset align => ∀ state ∈ s.objects[id]?,
    if vmasOffset = 0 then PlacedInUserSpace state.object.size align
    else vmasOffset.toNat + state.object.size.toNat ≤ kUserSpaceMax.toNat ∨
      2 ^ 64 ≤ vmasOffset.toNat + state.object.size.toNat
  | _ => True

instance (s : System) (r : Request) : Decidable (s.MapsUserSpace r) := by
  cases r <;> unfold MapsUserSpace <;> infer_instance

/-! ## Valid systems -/

/-- A mapping that resolves an address lies in user space. -/
def InUserSpace (x : MemoryMapping) : Prop :=
  NoWrap x → x.vaddrBase.toNat + x.memObject.size.toNat ≤ kUserSpaceMax.toNat

/-- An address space with a well-formed tree of mappings in user space. -/
structure SpaceValid (space : AddressSpace) : Prop where
  holds : Holds space.mappingTree space.mappings
  /-- Its mappings lie in user space. -/
  inUser : ∀ x ∈ space.mappings, InUserSpace x
  /-- So does the place for the next one. -/
  memmap : MemmapRange space

/-- **The address spaces are apart from each other**, from the pages of the pool and from the tables
of the kernel, and their mappings lie in user space. -/
structure Valid (s : System) : Prop where
  tables : UserTables s.machine.memory s.roots s.pool
  /-- Objects are recorded under their identity. -/
  ids : ∀ (i : Nat) (o : MemoryObject) (n : Nat), s.refs[i]? = some (o, n) → o.id = i
  spaces : ∀ space ∈ s.spaces, SpaceValid space

/-- **A system before anything is mapped**: the constructor of `AddressSpace` has just made every
address space. -/
structure Fresh (s : System) : Prop where
  /-- The root tables and the pages of the pool are different pages. -/
  apart : (s.roots ++ s.pool).Nodup
  /-- The user half of every root table is empty. -/
  empty : ∀ cr3 ∈ s.roots, ∀ offset ∈ entryOffsets 256,
    entryFormat.present (s.machine.memory cr3 offset) = false
  /-- The kernel's own tables are neither root tables nor in the pool. -/
  kernel : ∀ cr3 ∈ s.roots, ∀ addr, KernelHalf addr →
    ∀ x ∈ visits entryFormat s.machine.memory cr3 (entryPath addr),
      x = (cr3, shiftForEntryIndexing addr 39) ∨ x.1 ∉ s.roots ++ s.pool
  /-- Nor is what `UnmapPage` takes for such tables at the first address after user space. -/
  limit : ∀ cr3 ∈ s.roots,
    ∀ x ∈ (visits entryFormat.unsized s.machine.memory cr3 (entryPath kUserSpaceMax)).tail,
      x.1 ∉ s.roots ++ s.pool
  /-- The pool has whole pages. -/
  aligned : ∀ g ∈ s.pool, PageAligned g
  /-- The first page of physical memory is never handed out. -/
  nonzero : 0 ∉ s.pool
  /-- Objects are recorded under their identity. -/
  ids : ∀ (i : Nat) (o : MemoryObject) (n : Nat), s.refs[i]? = some (o, n) → o.id = i
  /-- The other fields of an address space have their first values. -/
  spaces : ∀ space ∈ s.spaces, space = { cr3 := space.cr3 }

variable {s s' : System}

/-- A fresh system has the root tables only. -/
theorem Fresh.userFrames_eq (h : Fresh s) : userFrames s.machine.memory s.roots = s.roots := by
  have hframes : ∀ cr3 ∈ s.roots, frames entryFormat s.machine.memory userLevels cr3 = [cr3] :=
    fun cr3 hcr3 => frames_blank (h.empty cr3 hcr3)
  rw [userFrames, flatMap_congr hframes, flatMap_singleton']

/-- **A fresh system is valid.** -/
theorem Fresh.valid (h : Fresh s) : Valid s := by
  refine ⟨⟨?_, ?_, ?_, ?_, h.aligned⟩, h.ids, ?_⟩
  · rw [h.userFrames_eq]
    exact h.apart
  · intro cr3 hcr3
    exact regular_blank (h.empty cr3 hcr3)
  · rw [h.userFrames_eq]
    exact h.kernel
  · rw [h.userFrames_eq]
    exact h.limit
  · intro space hspace
    rw [h.spaces space hspace]
    refine ⟨holds_empty, fun x hx => absurd hx not_mem_nil, ?_, ?_⟩
    · show PageAligned 0x2000000000
      decide
    · show (0x2000000000 : UInt64) < 0x3000000000
      decide

/-- The processor accepts the address: its upper bits are all like bit 47. -/
def Canonical (addr : UInt64) : Prop := addr < kUserSpaceMax ∨ KernelHalf addr

/-- **A change of translations that is confined** to the user space of one root, without its first
page. -/
structure Confined (s s' : System) (cr3 : UInt64) : Prop where
  roots : s'.roots = s.roots
  /-- The kernel half and the other address spaces are translated as before. -/
  others : ∀ r ∈ s.roots, ∀ addr, r ≠ cr3 ∨ KernelHalf addr →
    translation s'.machine.memory r addr = translation s.machine.memory r addr
  /-- What else has changed is in user space. -/
  inside : ∀ addr, Canonical addr →
    translation s'.machine.memory cr3 addr ≠ translation s.machine.memory cr3 addr →
      kPageSize ≤ addr ∧ addr < kUserSpaceMax

variable {cr3 vaddr addr : UInt64}

theorem confined_of_memory (hroots : s'.roots = s.roots)
    (hmemory : s'.machine.memory = s.machine.memory) : Confined s s' cr3 :=
  ⟨hroots, fun _ _ _ _ => by rw [hmemory], fun _ _ h => absurd (by rw [hmemory]) h⟩

theorem Confined.trans {s'' : System} (h : Confined s s' cr3) (h' : Confined s' s'' cr3) : Confined s s'' cr3 := by
  refine ⟨h'.roots.trans h.roots, ?_, ?_⟩
  · intro r hr addr hcase
    rw [h'.others r (h.roots ▸ hr) addr hcase, h.others r hr addr hcase]
  · intro addr hcanonical hne
    by_cases hfirst : translation s'.machine.memory cr3 addr = translation s.machine.memory cr3 addr
    · exact h'.inside addr hcanonical (hfirst ▸ hne)
    · exact h.inside addr hcanonical hfirst

/-! ## Steps -/

variable {space space' space₁ : AddressSpace}

theorem SpaceValid.lt_of_resolves (h : SpaceValid space) {x : MemoryMapping}
    (hx : Resolves space.mappings vaddr x) : vaddr < kUserSpaceMax := by
  have hin := h.inUser x hx.mem hx.noWrap
  have hlt := hx.offset_lt
  rw [hx.toNat_sub] at hlt
  rw [lt_iff_toNat_lt]
  omega

theorem not_kernelHalf (h : addr < kUserSpaceMax) : ¬ KernelHalf addr := by
  have hlt : addr.toNat < 2 ^ 47 := lt_iff_toNat_lt.mp h
  unfold KernelHalf
  omega

/-- What a page fault leaves, apart from the memory of the page tables, is what touching the page
leaves. -/
theorem valid_of_touched {s1 : System} {o : MemoryObject} {pageNum page : UInt64} (h : Valid s)
    (ht : Touched s s1 o pageNum page) : Valid s1 := by
  have hroots : s1.roots = s.roots := congrArg (List.map AddressSpace.cr3) ht.spaces
  refine ⟨?_, ?_, ?_⟩
  · rw [ht.memory, hroots]
    exact h.tables.mono ht.pool
  · rw [ht.refs]
    exact h.ids
  · rw [ht.spaces]
    exact h.spaces

variable {i id : Nat}

/-- **A page fault keeps a system valid and is confined** to user space of the process. -/
theorem fault_confined (h : Valid s) {resolved : Bool} (hstep : s.handlePageFault i vaddr = some (resolved, s')) :
    Valid s' ∧ s'.spaces = s.spaces ∧ ∀ space, s.spaces[i]? = some space → Confined s s' space.cr3 := by
  obtain ⟨space, hspace, hcases⟩ := handlePageFault_cases hstep
  rcases hcases with rfl | ⟨x, page, s1, machine, hlow, hfind, ht, hmap, rfl⟩
  · exact ⟨h, rfl, fun _ _ => confined_of_memory rfl rfl⟩
  have hmem : space ∈ s.spaces := mem_of_getElem? hspace
  have hcr3 : space.cr3 ∈ s1.roots := by
    rw [roots, ht.spaces]
    exact mem_map_of_mem hmem
  obtain ⟨r, hr, hresolves⟩ := getMemoryMappingForAddr_spec (h.spaces space hmem).holds vaddr
  rw [hfind, Option.some.injEq] at hr
  have huser := (h.spaces space hmem).lt_of_resolves ((hresolves x).mp hr.symm)
  have h1 := valid_of_touched h ht
  obtain ⟨htables, hmapped, -⟩ := UserTables.mapPage h1.tables hcr3 (not_kernelHalf huser) hmap
  have hroots : s1.roots = s.roots := congrArg (List.map AddressSpace.cr3) ht.spaces
  refine ⟨⟨htables, h1.ids, h1.spaces⟩, ht.spaces, ?_⟩
  intro space' hspace'
  obtain rfl : space = space' := by rw [hspace] at hspace'; simpa using hspace'
  refine ⟨hroots, ?_, ?_⟩
  · intro r hr addr hcase
    rw [← ht.memory]
    exact hmapped.others r (hroots ▸ hr) addr hcase
  intro addr hcanonical hne
  rw [← ht.memory] at hne
  -- in the kernel half nothing changes, and in user space only the page of the fault does
  rcases hcanonical with haddr | hkernel
  · have hpath : entryPath addr = entryPath vaddr := by
      by_contra hpath
      exact hne (hmapped.elsewhere addr (not_kernelHalf haddr) hpath)
    rw [entryPath_inj (lt_iff_toNat_lt.mp haddr) (lt_iff_toNat_lt.mp huser),
      ← UInt64.toNat_inj, toNat_pageAlign, toNat_pageAlign] at hpath
    refine ⟨?_, haddr⟩
    rw [le_iff_toNat_le] at hlow ⊢
    rw [show kPageSize.toNat = 4096 from rfl] at hlow ⊢
    omega
  · exact absurd (hmapped.others space.cr3 hcr3 addr (Or.inr hkernel)) hne

theorem roots_setSpace (hspace : s.spaces[i]? = some space) (hcr3 : space'.cr3 = space.cr3) :
    roots { s with spaces := s.spaces.set i space' } = s.roots :=
  ListUpdate.map_set_of_eq hspace hcr3

theorem valid_setSpace (h : Valid s) (hspace : s.spaces[i]? = some space) (hcr3 : space'.cr3 = space.cr3)
    (hvalid : SpaceValid space') : Valid { s with spaces := s.spaces.set i space' } := by
  refine ⟨?_, h.ids, ?_⟩
  · rw [roots_setSpace hspace hcr3]
    exact h.tables
  · intro space₁ hspace1
    rcases mem_or_eq_of_mem_set hspace1 with hmem | rfl
    exacts [h.spaces _ hmem, hvalid]

theorem getElem?_refs_acquire (s : System) (id k : Nat) :
    (s.acquire id).refs[k]? = (s.refs[k]?).map fun r => if id = k then (r.1, r.2 + 1) else r := by
  rw [refs, refs, acquire, getElem?_map, getElem?_modify, getElem?_map]
  cases s.objects[k]? with
  | none => rfl
  | some =>
    by_cases hk : id = k
    all_goals simp [hk]

theorem valid_acquire (h : Valid s) (hcount : ∀ o, s.objects[id]? = some o → o.refCount ≠ 0) :
    Valid (s.acquire id) := by
  refine ⟨?_, ?_, h.spaces⟩
  · rw [acquire_pool hcount]
    exact h.tables
  intro k o n hk
  rw [getElem?_refs_acquire, Option.map_eq_some_iff] at hk
  obtain ⟨⟨o', n'⟩, hrefs, heq⟩ := hk
  have hid := h.ids k o' n' hrefs
  by_cases hsame : id = k
  · rw [if_pos hsame] at heq
    cases heq
    exact hid
  · rw [if_neg hsame] at heq
    cases heq
    exact hid

theorem SpaceValid.inserted {x : MemoryMapping} (h : SpaceValid space)
    (hins : Inserted space space' x) (hx : InUserSpace x) : SpaceValid space' := by
  refine ⟨hins.holds, ?_, ?_⟩
  · intro y hy
    rcases mem_cons.mp (hins.perm.subset hy) with rfl | hy
    exacts [hx, h.inUser y hy]
  · rw [hins.rest]
    exact h.memmap

/-- **`MapInMemoryObject` keeps a system valid** for a mapping in user space, and writes no page
table. -/
theorem map_confined (h : Valid s) (hspace : s.spaces[i]? = some space) (hvalid : SpaceValid space₁)
    (hcr3 : space₁.cr3 = space.cr3) {object : MemoryObject}
    (hcount : ∀ o, s.objects[object.id]? = some o → o.refCount ≠ 0)
    (hx : InUserSpace ⟨vaddr, vaddr + object.size, object⟩) {code : ErrorCode}
    (hmap : s.mapInMemoryObject i space₁ vaddr object = some (code, s')) :
    Valid s' ∧ s'.roots = s.roots ∧ s'.machine.memory = s.machine.memory := by
  rcases mapInMemoryObject_spec hvalid.holds hmap with ⟨-, rfl⟩ | ⟨-, space', hins, rfl⟩
  · exact ⟨valid_setSpace h hspace hcr3 hvalid, roots_setSpace hspace hcr3, rfl⟩
  · have hcr3' : space'.cr3 = space.cr3 := by rw [hins.rest]; exact hcr3
    exact ⟨valid_acquire (valid_setSpace h hspace hcr3' (hvalid.inserted hins hx)) hcount,
      roots_setSpace hspace hcr3', rfl⟩

/-- Where `AddressSpaceMap` places the object of a request, a mapping is in user space. -/
theorem placed_inUserSpace {vmasOffset align : UInt64} {state : ObjectState}
    (hvalid : SpaceValid space) (hstate : s.objects[id]? = some state)
    (hok : s.MapsUserSpace (.map i id vmasOffset align))
    (hplace : vmasOffset ≠ 0 ∧ vaddr = vmasOffset ∧ space₁ = space ∨
      vmasOffset = 0 ∧ space.getNextMemMapAddr state.object.size align = some (vaddr, space₁)) :
    InUserSpace ⟨vaddr, vaddr + state.object.size, state.object⟩ ∧ SpaceValid space₁ ∧ space₁.cr3 = space.cr3 := by
  have hok := hok state hstate
  rcases hplace with ⟨hoffset, rfl, rfl⟩ | ⟨hoffset, hnext⟩
  · rw [if_neg hoffset] at hok
    refine ⟨fun hwrap => hok.resolve_right (not_le.mpr hwrap), hvalid, rfl⟩
  · rw [if_pos hoffset] at hok
    obtain ⟨-, hin, next, rfl, hmemmap⟩ := getNextMemMapAddr_spec hvalid.memmap hok hnext
    exact ⟨fun _ => hin, ⟨hvalid.holds, hvalid.inUser, hmemmap⟩, rfl⟩

/-! ## Runs -/

/-- The requests of one process that the isolation of address spaces is about: it maps objects, in
whatever address space it has a capability for, and it faults in its own. -/
def MapsOrFaults (own : Nat) : Request → Prop
  | .map _ _ _ _ => True
  | .fault i _ => i = own
  | _ => False

instance (own : Nat) (r : Request) : Decidable (MapsOrFaults own r) := by
  cases r <;> unfold MapsOrFaults <;> infer_instance

theorem step_confined (h : Valid s) {own : Nat} (hown : s.roots[own]? = some cr3) {r : Request}
    (hr : MapsOrFaults own r) (hok : s.MapsUserSpace r) (hstep : s.step r = some s') :
    Valid s' ∧ Confined s s' cr3 := by
  cases r with
  | map i id =>
    rw [step, Option.map_eq_some_iff] at hstep
    obtain ⟨⟨result, s1⟩, hmap, rfl⟩ := hstep
    obtain ⟨space, state, vaddr, space₁, code, hspace, hstate, hcount, hplace, hmap⟩ :=
      addressSpaceMap_cases hmap
    obtain ⟨hin, hvalid, hcr3⟩ :=
      placed_inUserSpace (h.spaces space (mem_of_getElem? hspace)) hstate hok hplace
    have hid : state.object.id = id := h.ids id _ state.refCount (by
      rw [refs, getElem?_map, hstate]
      rfl)
    have hcounts : ∀ o, s.objects[state.object.id]? = some o → o.refCount ≠ 0 := by
      intro o ho
      rw [hid, hstate, Option.some.injEq] at ho
      exact ho ▸ hcount
    obtain ⟨hvalid', hroots, hmemory⟩ := map_confined h hspace hvalid hcr3 hcounts hin hmap
    exact ⟨hvalid', confined_of_memory hroots hmemory⟩
  | fault i =>
    rw [step, Option.map_eq_some_iff] at hstep
    obtain ⟨⟨resolved, s1⟩, hfault, rfl⟩ := hstep
    obtain ⟨hvalid, -, hconfined⟩ := fault_confined h hfault
    obtain rfl : i = own := hr
    rw [roots, getElem?_map, Option.map_eq_some_iff] at hown
    obtain ⟨space, hspace, rfl⟩ := hown
    exact ⟨hvalid, hconfined space hspace⟩
  | unmap | allocateStack | freeStack => exact absurd hr id

/-- **Mappings and faults of a process change the translation of its own user addresses only**, in
every run whose mappings lie in user space. -/
theorem translations_confined {s s' : System} (own : Nat) {space : AddressSpace} (requests : List Request)
    (h : Valid s) (hown : s.spaces[own]? = some space) (hprocess : ∀ r ∈ requests, MapsOrFaults own r)
    (hok : Meets step MapsUserSpace s requests) (hrun : run step s requests = some s') :
    (∀ cr3 ∈ s.roots, ∀ addr, cr3 ≠ space.cr3 ∨ KernelHalf addr →
      translation s'.machine.memory cr3 addr = translation s.machine.memory cr3 addr) ∧
    ∀ addr, Canonical addr →
      translation s'.machine.memory space.cr3 addr ≠ translation s.machine.memory space.cr3 addr →
        kPageSize ≤ addr ∧ addr < kUserSpaceMax := by
  have hroot : s.roots[own]? = some space.cr3 := by rw [roots, getElem?_map, hown]; rfl
  have hinv : Valid s' ∧ Confined s s' space.cr3 := by
    refine run_invariant (P := fun s' => Valid s' ∧ Confined s s' space.cr3) ?_
      ⟨h, confined_of_memory rfl rfl⟩ (hok.and_forall hprocess) hrun
    rintro s₁ r s₂ ⟨hvalid, hconfined⟩ ⟨hr, hin⟩ hstep
    obtain ⟨hvalid', hconfined'⟩ :=
      step_confined hvalid (hconfined.roots.symm ▸ hroot) hr hin hstep
    exact ⟨hvalid', hconfined.trans hconfined'⟩
  exact ⟨hinv.2.others, hinv.2.inside⟩

/-! ## Two processes -/

/-- Two empty page tables that share the last entry, that of the kernel. -/
def sharedKernelMemory : Memory := fun page offset =>
  if (page = 0x10000 ∨ page = 0x20000) ∧ offset = 0xFF8 then 0x81003 else 0

/-- Two processes that have mapped nothing yet, with an object for the text screen and one of two
pages. -/
def twoProcesses : System where
  machine := ⟨⟨[⟨0x100000, 16⟩], [], 0⟩, sharedKernelMemory⟩
  objects := [⟨⟨0, .view 0xB8000, 0x1000⟩, 1, []⟩, ⟨⟨1, .variable, 0x2000⟩, 1, [0, 0]⟩]
  spaces := [{ cr3 := 0x10000 }, { cr3 := 0x20000 }]

theorem sharedKernelMemory_user (page : UInt64) {offset : UInt64} (h : offset ∈ entryOffsets 256) :
    entryFormat.present (sharedKernelMemory page offset) = false := by
  have hne : offset ≠ 0xFF8 := by
    rintro rfl
    revert h
    decide
  rw [sharedKernelMemory, if_neg (fun hboth => hne hboth.2)]
  decide

theorem visits_sharedKernelMemory {x : UInt64 × UInt64}
    (hx : x ∈ visits entryFormat sharedKernelMemory cr3 (entryPath addr)) :
    x = (cr3, shiftForEntryIndexing addr 39) ∨ x.1 = 0x81000 := by
  have hkernel : ∀ offset, sharedKernelMemory 0x81000 offset = 0 := by
    intro offset
    rw [sharedKernelMemory, if_neg]
    rintro ⟨hpage, -⟩
    exact absurd hpage (by decide)
  have habsent : entryFormat.present 0 = false := by decide
  rw [show entryPath addr = [shiftForEntryIndexing addr 39, shiftForEntryIndexing addr 30,
    shiftForEntryIndexing addr 21, shiftForEntryIndexing addr 12] from rfl, visits,
    mem_cons] at hx
  refine hx.imp_right fun hx => ?_
  by_cases hentry : (cr3 = 0x10000 ∨ cr3 = 0x20000) ∧ shiftForEntryIndexing addr 39 = 0xFF8
  · have htarget : entryFormat.target 0x81003 = 0x81000 := by decide
    have hread : sharedKernelMemory cr3 (shiftForEntryIndexing addr 39) = 0x81003 := if_pos hentry
    rw [hread, if_pos (by decide), htarget, visits, hkernel, habsent] at hx
    exact congrArg Prod.fst (mem_singleton.mp hx)
  · have hread : sharedKernelMemory cr3 (shiftForEntryIndexing addr 39) = 0 := if_neg hentry
    rw [hread, if_neg (by decide)] at hx
    exact absurd hx not_mem_nil

theorem fresh_twoProcesses : Fresh twoProcesses := by
  refine ⟨by decide, ?_, ?_, ?_, all_iff_forall_prop.mp (by decide), by decide, ?_, ?_⟩
  · intro cr3 _ offset hoffset
    exact sharedKernelMemory_user cr3 hoffset
  · intro cr3 _ addr _ x hx
    refine (visits_sharedKernelMemory hx).imp_right fun hkernel => ?_
    rw [hkernel]
    decide
  · have hwalk : ∀ cr3 ∈ twoProcesses.roots, (visits entryFormat.unsized
        twoProcesses.machine.memory cr3 (entryPath kUserSpaceMax)).tail = [] :=
      all_iff_forall_prop.mp (by decide)
    intro cr3 hcr3 x hx
    rw [hwalk cr3 hcr3] at hx
    exact absurd hx not_mem_nil
  · intro i o n h
    match i with
    | 0 => cases h; rfl
    | 1 => cases h; rfl
    | i + 2 => cases h
  · decide

/-- The first process maps the object of two pages and the text screen, and faults in both. -/
theorem translations_confined_twoProcesses :
    ∃ s', run step twoProcesses [.map 0 1 0x400000 0, .fault 0 0x401008, .map 0 0 0 0x1000,
        .fault 0 0x2000000000] = some s' ∧
      (∀ cr3 ∈ twoProcesses.roots, ∀ addr, cr3 ≠ 0x10000 ∨ KernelHalf addr →
        translation s'.machine.memory cr3 addr = translation twoProcesses.machine.memory cr3 addr) ∧
      ∀ addr, Canonical addr → translation s'.machine.memory 0x10000 addr ≠
          translation twoProcesses.machine.memory 0x10000 addr →
        kPageSize ≤ addr ∧ addr < kUserSpaceMax := by
  refine ⟨_, rfl, ?_⟩
  exact translations_confined 0 [.map 0 1 0x400000 0, .fault 0 0x401008, .map 0 0 0 0x1000,
    .fault 0 0x2000000000] fresh_twoProcesses.valid rfl (by decide) (by decide) rfl

/-- **The request's address is not checked**: a process maps the text screen where the kernel keeps
its data, and its fault there installs an entry in the table that all processes share. -/
theorem mapping_reaches_kernel_half : Fresh twoProcesses ∧
    ∃ s', run step twoProcesses [.map 0 0 0xFFFFFFFFC0000000 0, .fault 0 0xFFFFFFFFC0000000] = some s' ∧
      KernelHalf 0xFFFFFFFFC0000000 ∧
      translation twoProcesses.machine.memory 0x20000 0xFFFFFFFFC0000000 = none ∧
      translation s'.machine.memory 0x20000 0xFFFFFFFFC0000000 = some (0xB8003, []) :=
  ⟨fresh_twoProcesses, _, rfl, by decide, by decide, by decide⟩

end System

end Acadia.Zion
