import Acadia.Zion.Object.AddressSpaceCoherence

/-! # What a process finds in new memory

A `VariableMemoryObject` takes a page with `AllocatePage` when it is first touched, and the page keeps what it
held. A process makes memory objects, maps them and reads, in two kernels that differ in the contents of free
pages: it reads the same in both as long as every page that one of its objects gets holds the same in both. -/

namespace Acadia.Zion

open Glacier MemoryMappingTree RadixTable Runs List Option

/-- What a process does with new memory, and what the kernel does on its behalf. -/
inductive MemoryEvent where
  | create (size : UInt64)
  | map (i id : Nat) (vmasOffset align : UInt64)
  /-- A read, with the page fault that it may lead to. -/
  | read (vaddr : UInt64)
  /-- The kernel heap takes a page, as it may do for the list of an object or for a mapping. -/
  | heapPage
  deriving DecidableEq

namespace System

/-! ## Reads -/

/-- The word that a process reads at a user address, if its page is present. -/
def loadWord (s : System) (cr3 vaddr : UInt64) : Option UInt64 :=
  if vaddr < kUserSpaceMax then
    (translation s.machine.memory cr3 vaddr).map fun (e, _) =>
      s.machine.memory (e &&& ~~~0xFFF) (vaddr &&& 0xFF8)
  else none

/-- A read of a process. After a page fault that was resolved, the instruction is executed again. -/
def access (s : System) (own : Nat) (vaddr : UInt64) : Option (Option UInt64 × System) := do
  let space ← s.spaces[own]?
  match s.loadWord space.cr3 vaddr with
  | some word => return (some word, s)
  | none =>
    let (resolved, s) ← s.handlePageFault own vaddr
    return (if resolved then s.loadWord space.cr3 vaddr else none, s)

end System

/-- The address belongs to a mapping of a `VariableMemoryObject`. -/
def AddressSpace.isVariableAt (space : AddressSpace) (vaddr : UInt64) : Bool :=
  match space.mappingTree.getMemoryMappingForAddr vaddr with
  | some (some x) => x.memObject.kind = .variable
  | _ => false

namespace System

/-- One event of the process with the address space `own`: what it has read from a
`VariableMemoryObject`, and the next state. -/
def memoryStep (own : Nat) (s : System) : MemoryEvent → Option (Option UInt64 × System)
  | .create size =>
    let size := MemoryObject.variableSize size
    let (id, s) := s.createMemoryObject .variable size (List.replicate (size / 0x1000).toNat 0)
    some (none, s.acquire id)
  | .map i id vmasOffset align => (s.addressSpaceMap i id vmasOffset align).map fun (_, s) => (none, s)
  | .read vaddr => do
    let space ← s.spaces[own]?
    let (word, s) ← s.access own vaddr
    return (if space.isVariableAt vaddr then word else none, s)
  | .heapPage =>
    (s.machine.allocator.allocatePage).map fun (_, allocator) =>
      (none, { s with machine := { s.machine with allocator } })

/-- What the process reads in a run, event by event; `none` is a panic of the kernel. -/
def reads (own : Nat) : System → List MemoryEvent → Option (List (Option UInt64))
  | _, [] => some []
  | s, e :: events =>
    (s.memoryStep own e).bind fun (word, s) => (reads own s events).map (word :: ·)

/-- The same event in two systems. -/
def bothStep (own : Nat) (x : System × System) (e : MemoryEvent) : Option (System × System) :=
  (x.1.memoryStep own e).bind fun (_, s) => (x.2.memoryStep own e).map fun (_, s') => (s, s')

/-- The page that an object gets when the process first touches it at the address. -/
def newPage (s : System) (own : Nat) (vaddr : UInt64) : Option UInt64 := do
  let space ← s.spaces[own]?
  let x ← (← space.mappingTree.getMemoryMappingForAddr vaddr)
  if x.memObject.kind = .variable then
    let state ← s.objects[x.memObject.id]?
    let page ← state.physPageList[((vaddr - x.vaddrBase) / 0x1000).toNat]?
    if page = 0 then (s.machine.allocator.allocatePage).map Prod.fst else none
  else none

/-- **What an event has to meet**: mappings are asked for at page addresses of user space, and a page
that an object gets holds the same in both systems. -/
def SamePages (own : Nat) (x : System × System) : MemoryEvent → Prop
  | .map i id vmasOffset align =>
    x.1.MapsUserSpace (.map i id vmasOffset align) ∧ PageAligned vmasOffset
  | .read vaddr => ∀ page ∈ x.1.newPage own vaddr, x.2.machine.memory page = x.1.machine.memory page
  | _ => True

/-! ## Two memories -/

variable {s s' : System} {memory : Memory} {own : Nat} {vaddr : UInt64}

/-- **Another memory that looks the same**: page tables and the pages of `VariableMemoryObject`s hold the
same. -/
structure Alike (s : System) (memory : Memory) : Prop where
  tables : ∀ g ∈ userFrames s.machine.memory s.roots, memory g = s.machine.memory g
  pages : ∀ o ∈ s.objects, o.object.kind = .variable → ∀ page ∈ o.physPageList, page ≠ 0 →
    memory page = s.machine.memory page

variable {page cr3 : UInt64}

theorem mem_pages {o : ObjectState} (ho : o ∈ s.objects) (hkind : o.object.kind = .variable)
    (hpage : page ∈ o.physPageList) (hne : page ≠ 0) : page ∈ s.objects.flatMap ObjectState.pages := by
  refine mem_flatMap.mpr ⟨o, ho, ?_⟩
  rw [ObjectState.pages, hkind]
  exact mem_filter.mpr ⟨hpage, by simpa using hne⟩

variable {pending : List Nat}

/-- **Free pages may hold anything.** -/
theorem Inv.alike_of_free (h : Inv s pending)
    (hfree : ∀ page, page ∉ s.machine.allocator.available → memory page = s.machine.memory page) : Alike s memory := by
  obtain ⟨-, hpool, hdisj⟩ := nodup_append.mp h.tables.nodup
  refine ⟨fun g hg => hfree g fun hin => ?_, fun o ho hkind page hpage hne => hfree page fun hin => ?_⟩
  · exact hdisj g hg g (mem_append_left _ hin) rfl
  · obtain ⟨-, -, hdisj'⟩ := nodup_append.mp hpool
    exact hdisj' page hin page (mem_pages ho hkind hpage hne) rfl

theorem Alike.translation_eq (h : Alike s memory) (hcr3 : cr3 ∈ s.roots) (hv : vaddr < kUserSpaceMax) :
    translation memory cr3 vaddr = translation s.machine.memory cr3 vaddr :=
  translate_congr (entryPath_mem (not_kernelHalf hv)) fun g hg =>
    h.tables g (UserTables.mem_userFrames hcr3 hg)

theorem Alike.loadWord_isSome (h : Alike s memory) (hcr3 : cr3 ∈ s.roots) :
    ((s.withMemory memory).loadWord cr3 vaddr).isSome = (s.loadWord cr3 vaddr).isSome := by
  unfold loadWord
  by_cases hv : vaddr < kUserSpaceMax
  · rw [if_pos hv, if_pos hv, isSome_map, isSome_map]
    exact congrArg Option.isSome (h.translation_eq hcr3 hv)
  · rw [if_neg hv, if_neg hv]

variable {space : AddressSpace}

/-- The page behind an address of a `VariableMemoryObject` is one of its pages. -/
theorem Inv.page_of_translation (h : Inv s []) (hspace : space ∈ s.spaces) (hv : vaddr < kUserSpaceMax)
    (hvariable : space.isVariableAt vaddr = true) {e : UInt64} {rest : List UInt64}
    (htrans : translation s.machine.memory space.cr3 vaddr = some (e, rest)) :
    ∃ o ∈ s.objects, o.object.kind = .variable ∧ e &&& ~~~0xFFF ∈ o.physPageList ∧ e &&& ~~~0xFFF ≠ 0 := by
  have hinv := h.spaces space hspace
  -- the page address has the same translation and belongs to the same mapping
  have hlow : (pageAlign vaddr).toNat ≤ vaddr.toNat := by
    rw [toNat_pageAlign]
    omega
  have hv' : pageAlign vaddr < kUserSpaceMax :=
    lt_of_le_of_lt (UInt64.le_iff_toNat_le.mpr hlow) hv
  have htrans' : translation s.machine.memory space.cr3 (pageAlign vaddr) = some (e, rest) := by
    rw [← htrans, translation, translation, entryPath_pageAlign]
  obtain ⟨-, x, page, hx, hpage, he⟩ :=
    h.backed space hspace _ (pageAligned_pageAlign vaddr) hv' e rest htrans'
  unfold AddressSpace.isVariableAt at hvariable
  split at hvariable
  · rename_i y hy
    have hkind : y.memObject.kind = .variable := of_decide_eq_true hvariable
    obtain ⟨r, hr, hresolves⟩ := getMemoryMappingForAddr_spec hinv.holds vaddr
    rw [hy, some.injEq] at hr
    have hresolved := (resolves_pageAlign hinv ((hresolves y).mp hr.symm)).1
    obtain ⟨r', -, hresolves'⟩ := getMemoryMappingForAddr_spec hinv.holds (pageAlign vaddr)
    have hxy : x = y := some.inj (((hresolves' x).mpr hx).symm.trans ((hresolves' y).mpr hresolved))
    subst hxy
    rw [PageOf, hkind] at hpage
    obtain ⟨hne, state, hstate, hlist⟩ := hpage
    -- the object is the one that is recorded
    obtain ⟨n, hn⟩ := h.recorded x (mem_flatMap.mpr ⟨space, hspace, hx.mem⟩)
    have hobject : state.object = x.memObject := by
      rw [refs, getElem?_map, hstate, map_some, some.injEq, Prod.mk.injEq] at hn
      exact hn.1
    have hmem := mem_of_getElem? hstate
    have hkind' : state.object.kind = .variable := by rw [hobject, hkind]
    have hpool := mem_pages hmem hkind' (mem_of_getElem? hlist) hne
    rw [he, pageAlign_of_pageAligned (h.tables.aligned page (mem_append_right _ hpool))]
    exact ⟨state, hmem, hkind', mem_of_getElem? hlist, hne⟩
  · cases hvariable

/-- **The word at an address of a `VariableMemoryObject`** is the same. -/
theorem Alike.loadWord_eq (h : Alike s memory) (hs : Inv s []) (hspace : space ∈ s.spaces)
    (hvariable : space.isVariableAt vaddr = true) :
    (s.withMemory memory).loadWord space.cr3 vaddr = s.loadWord space.cr3 vaddr := by
  unfold loadWord
  by_cases hv : vaddr < kUserSpaceMax
  · rw [if_pos hv, if_pos hv]
    have hsame := h.translation_eq (mem_map_of_mem hspace) hv
    show (translation memory space.cr3 vaddr).map _ = _
    rw [hsame]
    cases htrans : translation s.machine.memory space.cr3 vaddr with
    | none => rfl
    | some x =>
      obtain ⟨e, rest⟩ := x
      obtain ⟨o, ho, hkind, hpage, hne⟩ := hs.page_of_translation hspace hv hvariable htrans
      show some (memory (e &&& ~~~0xFFF) _) = some (s.machine.memory (e &&& ~~~0xFFF) _)
      rw [h.pages o ho hkind _ hpage hne]
  · rw [if_neg hv, if_neg hv]

/-! ## Events -/

/-- The same result, in a state with another memory. -/
def WithMemory (memory : Memory) {α : Type} (x y : α × System) : Prop := y = (x.1, x.2.withMemory memory)

theorem pageNumberToPhysAddr_withMemory (o : MemoryObject) (pageNum : UInt64) : Option.Rel (WithMemory memory)
      (s.pageNumberToPhysAddr o pageNum) ((s.withMemory memory).pageNumberToPhysAddr o pageNum) := by
  unfold pageNumberToPhysAddr
  cases o.kind with
  | fixed | view => exact .some rfl
  | «variable» =>
    refine rel_bind_same fun state _ => rel_bind_same fun page _ => ?_
    split_ifs
    · exact rel_bind_same fun _ _ => .some rfl
    · exact .some rfl

theorem getPhysicalPageAtVaddr_withMemory (space : AddressSpace) (vaddr : UInt64) : Option.Rel (WithMemory memory)
      (s.getPhysicalPageAtVaddr space vaddr) ((s.withMemory memory).getPhysicalPageAtVaddr space vaddr) := by
  unfold getPhysicalPageAtVaddr
  refine rel_bind_same fun mapping _ => ?_
  cases mapping with
  | none => exact .some rfl
  | some x =>
    refine rel_bind (r := WithMemory memory) ?_ fun a b _ hb => ?_
    · unfold physicalPageAtOffset
      split_ifs
      · exact .none
      · exact pageNumberToPhysAddr_withMemory ..
    · rw [hb]
      exact .some rfl

/-- **What touching a page does to the pages of objects**: the object gets the page that the allocator
hands out, or nothing happens. -/
theorem Alike.touched (h : Alike s memory) (hspace : s.spaces[own]? = some space)
    {x : MemoryMapping} (hx : space.mappingTree.getMemoryMappingForAddr vaddr = some (some x))
    (hpages : ∀ page ∈ s.newPage own vaddr, memory page = s.machine.memory page) {t : System}
    (htouch : s.pageNumberToPhysAddr x.memObject ((vaddr - x.vaddrBase) / 0x1000) = some (page, t)) :
    Alike t memory := by
  have ht := touched_of_pageNumberToPhysAddr htouch
  refine ⟨?_, ?_⟩
  · rw [ht.memory, roots, ht.spaces]
    exact h.tables
  rw [ht.memory]
  unfold pageNumberToPhysAddr at htouch
  cases hkind : x.memObject.kind with
  | fixed | view =>
    rw [hkind] at htouch
    cases htouch
    exact h.pages
  | «variable» =>
    simp only [hkind, bind_eq_bind, bind_eq_some_iff] at htouch
    obtain ⟨state, hstate, first, hfirst, htouch⟩ := htouch
    by_cases hzero : first = 0
    · simp only [if_pos hzero, bind_eq_some_iff, Prod.exists] at htouch
      obtain ⟨fresh, allocator, halloc, heq⟩ := htouch
      cases heq
      have hnew : s.newPage own vaddr = some page := by
        simp only [newPage, hspace, hx, hkind, hstate, hfirst, hzero, halloc, bind_eq_bind, bind_some, if_pos, map_some]
      intro o ho hvariable g hg hne
      rcases mem_or_eq_of_mem_set ho with hold | rfl
      · exact h.pages o hold hvariable g hg hne
      · rcases mem_or_eq_of_mem_set hg with hold | rfl
        · exact h.pages state (mem_of_getElem? hstate) hvariable g hold hne
        · exact hpages g hnew
    · rw [if_neg hzero] at htouch
      cases htouch
      exact h.pages

theorem mem_userFrames_mapped {roots extra : List UInt64} {machine machine' : Machine PhysicalMemoryManager}
    (h : UserTables machine.memory roots (machine.allocator.available ++ extra))
    (hcr3 : cr3 ∈ roots) (hv : ¬ KernelHalf vaddr) (hmap : machine.mapPage cr3 vaddr page = some machine')
    {g : UInt64} (hg : g ∈ userFrames machine'.memory roots) :
    g ∈ userFrames machine.memory roots ∨
      g ∈ machine.allocator.available ∧ g ∉ machine'.allocator.available := by
  have hmapped := h.mapped hcr3 hv hmap
  obtain ⟨r, hr, hg⟩ := mem_flatMap.mp hg
  by_cases hne : r = cr3
  · subst hne
    have hnodup := hmapped.perm.nodup_iff.mpr (h.nodup_root hr)
    obtain ⟨-, -, hdisj⟩ := nodup_append.mp hnodup
    rcases mem_append.mp (hmapped.perm.subset (mem_append_left _ hg)) with hold | hnew
    · exact Or.inl (UserTables.mem_userFrames hr hold)
    · rcases mem_append.mp hnew with hfree | hextra
      · exact Or.inr ⟨hfree, fun hin => hdisj g hg g (mem_append_left _ hin) rfl⟩
      · exact absurd rfl (hdisj g hg g (mem_append_right _ hextra))
  · -- the table of another root has not changed
    have hsame : frames entryFormat machine'.memory userLevels r =
        frames entryFormat machine.memory userLevels r := frames_congr fun x hx => by
        obtain ⟨hnot, hfree⟩ := h.not_mem_of_ne hr hcr3 hne hx
        exact hmapped.outside x hnot hfree
    rw [hsame] at hg
    exact Or.inl (UserTables.mem_userFrames hr hg)

/-- **`MapPage` in both memories**: a page that becomes a table is cleared. -/
theorem Alike.mapPage (h : Alike s memory) (hs : Inv s []) (hcr3 : cr3 ∈ s.roots)
    (hv : ¬ KernelHalf vaddr) (page : UInt64) :
    Option.Rel (fun x y => ∃ memory', y = { x with memory := memory' } ∧ Alike { s with machine := x } memory')
      (s.machine.mapPage cr3 vaddr page) ((s.withMemory memory).machine.mapPage cr3 vaddr page) := by
  have hnd := hs.tables.nodup_root hcr3
  rw [pool, ← append_assoc] at hnd
  obtain ⟨hbits, hodd⟩ := accessBits_bounds (pageAlign vaddr)
  have hagree := mapPath_agree (e := pageAlign page ||| Machine.accessBits (pageAlign vaddr))
    (LawfulPageAllocator.available : PhysicalMemoryManager → List UInt64)
    (fun _ _ _ halloc => LawfulPageAllocator.allocatePage_perm halloc)
    (show entryFormat.present 0 = false by decide)
    (entryPath_mem hv) (nodup_append.mp hnd).1
    (fun g hg => (entry_or (hs.tables.aligned g (mem_append_left _ hg)) hbits hodd).2.2)
    fun g hg => h.tables g (UserTables.mem_userFrames hcr3 hg)
  rw [mapPage_eq, mapPage_eq, map_eq_bind, map_eq_bind]
  refine rel_bind hagree ?_
  rintro ⟨m, _⟩ ⟨n, a⟩ hm ⟨rfl, hsame⟩
  refine .some ⟨n, rfl, fun g hg => hsame g ?_, fun o ho hkind g hg hne => hsame g (Or.inl (h.pages o ho hkind g hg hne))⟩
  have hmap : s.machine.mapPage cr3 vaddr page = some ⟨a, m⟩ := by
    rw [mapPage_eq, hm]
    rfl
  exact (mem_userFrames_mapped hs.tables hcr3 hv hmap hg).imp_left (h.tables g)

theorem Alike.getPhysicalPage (h : Alike s memory) (hs : Inv s []) (hspace : s.spaces[own]? = some space)
    (hpages : ∀ page ∈ s.newPage own vaddr, memory page = s.machine.memory page) {found : Option UInt64}
    {t : System} (hfound : s.getPhysicalPageAtVaddr space vaddr = some (found, t)) :
    Alike t memory ∧ Inv t [] ∧ t.spaces = s.spaces ∧ (found ≠ none → vaddr < kUserSpaceMax) := by
  unfold getPhysicalPageAtVaddr at hfound
  have hinv := hs.spaces space (mem_of_getElem? hspace)
  obtain ⟨r, hr, hresolves⟩ := getMemoryMappingForAddr_spec hinv.holds vaddr
  simp only [hr, bind_eq_bind, bind_some] at hfound
  cases r with
  | none =>
    cases hfound
    exact ⟨h, hs, rfl, fun hne => absurd rfl hne⟩
  | some x =>
    simp only [bind_eq_some_iff, Prod.exists, physicalPageAtOffset] at hfound
    obtain ⟨page, t1, htouch, hpure⟩ := hfound
    cases hpure
    have hx := (hresolves x).mp rfl
    split_ifs at htouch with hsize
    have ht := touched_of_pageNumberToPhysAddr htouch
    exact ⟨h.touched hspace hr hpages htouch, hs.touched ht, ht.spaces, fun _ => hinv.lt_of_resolves hx⟩

/-- **A page fault in both memories**: it ends in the same way, if the page that an object gets holds the
same in both. -/
theorem Alike.fault (h : Alike s memory) (hs : Inv s [])
    (hpages : ∀ page ∈ s.newPage own vaddr, memory page = s.machine.memory page) :
    Option.Rel (fun x y => x.2.spaces = s.spaces ∧ ∃ memory', WithMemory memory' x y ∧ Alike x.2 memory')
      (s.handlePageFault own vaddr) ((s.withMemory memory).handlePageFault own vaddr) := by
  unfold handlePageFault
  refine rel_bind_same fun space hspace => ?_
  split_ifs
  · exact .some ⟨rfl, memory, rfl, h⟩
  refine rel_bind (getPhysicalPageAtVaddr_withMemory space vaddr) ?_
  rintro ⟨found, t⟩ _ hfound rfl
  obtain ⟨ht, hinv, hspaces, huser⟩ := h.getPhysicalPage hs hspace hpages hfound
  cases found with
  | none => exact .some ⟨hspaces, memory, rfl, ht⟩
  | some page =>
    have hcr3 : space.cr3 ∈ t.roots := by
      rw [roots, hspaces]
      exact mem_map_of_mem (mem_of_getElem? hspace)
    refine rel_bind (ht.mapPage hinv hcr3 (not_kernelHalf (huser (some_ne_none page))) page) ?_
    rintro machine _ - ⟨memory', rfl, halike⟩
    exact .some ⟨hspaces, memory', rfl, halike⟩

/-- **A read in both memories**: it ends in the same way, and finds the same word in a
`VariableMemoryObject`. -/
theorem Alike.access (h : Alike s memory) (hs : Inv s []) (hspace : s.spaces[own]? = some space)
    (hpages : ∀ page ∈ s.newPage own vaddr, memory page = s.machine.memory page) :
    Option.Rel (fun x y => (space.isVariableAt vaddr = true → y.1 = x.1) ∧
        ∃ memory', y.2 = x.2.withMemory memory' ∧ Alike x.2 memory' ∧ Inv x.2 [])
      (s.access own vaddr) ((s.withMemory memory).access own vaddr) := by
  have hmem := mem_of_getElem? hspace
  have hsome : ((s.withMemory memory).loadWord space.cr3 vaddr).isSome =
      (s.loadWord space.cr3 vaddr).isSome := h.loadWord_isSome (mem_map_of_mem hmem)
  refine rel_bind_same fun space' hspace' => ?_
  obtain rfl := some.inj (hspace.symm.trans hspace')
  cases hword : s.loadWord space.cr3 vaddr with
  | some word =>
    -- the page is present in both
    rw [hword, isSome_some, isSome_iff_exists] at hsome
    obtain ⟨word', hword'⟩ := hsome
    rw [hword']
    refine .some ⟨fun hvariable => ?_, memory, rfl, h, hs⟩
    rw [← hword, ← hword', h.loadWord_eq hs hmem hvariable]
  | none =>
    rw [hword, isSome_none, isSome_eq_false_iff, isNone_iff_eq_none] at hsome
    rw [hsome]
    refine rel_bind (h.fault hs hpages) ?_
    rintro ⟨resolved, t⟩ _ hfault ⟨hspaces, memory', rfl, ht⟩
    have hinv := hs.fault hfault
    refine .some ⟨fun hvariable => ?_, memory', rfl, ht, hinv⟩
    rw [ht.loadWord_eq hinv (hspaces ▸ hmem) hvariable]

theorem Alike.of_pages (h : Alike s memory) (hmemory : s'.machine.memory = s.machine.memory)
    (hroots : s'.roots = s.roots)
    (hobjects : ∀ o ∈ s'.objects, o.object.kind = .variable → ∀ page ∈ o.physPageList, page ≠ 0 →
      ∃ o' ∈ s.objects, o'.object.kind = .variable ∧ page ∈ o'.physPageList) : Alike s' memory := by
  refine ⟨?_, ?_⟩
  · rw [hmemory, hroots]
    exact h.tables
  · intro o ho hkind page hpage hne
    obtain ⟨o', ho', hkind', hpage'⟩ := hobjects o ho hkind page hpage hne
    rw [hmemory]
    exact h.pages o' ho' hkind' page hpage' hne

theorem exists_of_mem_acquire {id : Nat} {o : ObjectState} (ho : o ∈ (s.acquire id).objects) :
    ∃ o' ∈ s.objects, o'.object = o.object ∧ o'.physPageList = o.physPageList := by
  obtain ⟨k, hk⟩ := mem_iff_getElem?.mp ho
  rw [acquire, getElem?_modify] at hk
  cases hold : s.objects[k]? with
  | none =>
    rw [hold] at hk
    cases hk
  | some o' =>
    refine ⟨o', mem_of_getElem? hold, ?_⟩
    rw [hold, Option.map_eq_map, Option.map_some, Option.some.injEq] at hk
    rw [← hk]
    split
    all_goals exact ⟨rfl, rfl⟩

/-- `AddressSpaceMap` does not look at memory. -/
theorem addressSpaceMap_withMemory (i id : Nat) (vmasOffset align : UInt64) : Option.Rel (WithMemory memory)
      (s.addressSpaceMap i id vmasOffset align) ((s.withMemory memory).addressSpaceMap i id vmasOffset align) := by
  have hmap : ∀ (space : AddressSpace) (vaddr : UInt64) (object : MemoryObject), Option.Rel (WithMemory memory)
      (s.mapInMemoryObject i space vaddr object) ((s.withMemory memory).mapInMemoryObject i space vaddr object) := by
    refine fun space vaddr object => rel_bind_same fun added _ => ?_
    dsimp only
    split_ifs
    · exact .some rfl
    · exact .some rfl
  have hcode : ∀ (vaddr : UInt64) (x y : ErrorCode × System), WithMemory memory x y → Option.Rel (WithMemory memory)
      (if x.1 = .ok then pure (Except.ok vaddr, x.2) else pure (Except.error x.1, x.2))
      (if y.1 = .ok then pure (Except.ok vaddr, y.2) else pure (Except.error y.1, y.2)) := by
    rintro vaddr x _ rfl
    dsimp only
    split_ifs
    · exact .some rfl
    · exact .some rfl
  unfold addressSpaceMap
  refine rel_bind_same fun space _ => rel_bind_same fun state _ => ?_
  by_cases hcount : state.refCount = 0
  · simp only [if_pos hcount]
    exact .none
  simp only [if_neg hcount]
  split_ifs
  · exact rel_bind_same fun place _ => rel_bind (hmap _ _ _) fun x y _ => hcode _ x y
  · exact rel_bind_same fun place _ => rel_bind (hmap _ _ _) fun x y _ => hcode _ x y

/-- **`AddressSpaceMap` keeps both memories alike**: it writes none. -/
theorem Alike.map (h : Alike s memory) (hs : Inv s []) {i id : Nat} {vmasOffset align : UInt64}
    (hok : s.MapsUserSpace (.map i id vmasOffset align)) {result : Except ErrorCode UInt64}
    (hmap : s.addressSpaceMap i id vmasOffset align = some (result, s')) : Alike s' memory := by
  obtain ⟨space, state, v, space1, code, hspace, hstate, hcount, hplace, hmap⟩ :=
    addressSpaceMap_cases hmap
  have hinv := hs.spaces space (mem_of_getElem? hspace)
  obtain ⟨-, hvalid, hcr3⟩ := placed_inUserSpace hinv.toSpaceValid hstate hok hplace
  rcases mapInMemoryObject_spec hvalid.holds hmap with ⟨-, rfl⟩ | ⟨-, space', hins, rfl⟩
  · exact h.of_pages rfl (roots_setSpace hspace hcr3) fun o ho hkind page hpage _ =>
      ⟨o, ho, hkind, hpage⟩
  · have hcr3' : space'.cr3 = space.cr3 := by
      rw [hins.rest]
      exact hcr3
    refine h.of_pages rfl (roots_setSpace hspace hcr3') fun o ho hkind page hpage _ => ?_
    obtain ⟨o', ho', hobject, hlist⟩ := exists_of_mem_acquire ho
    exact ⟨o', ho', by rw [hobject, hkind], by rw [hlist]; exact hpage⟩

theorem Inv.forget (h : Inv s pending) : Inv s [] := by
  refine ⟨h.tables, h.ids, h.spaces, h.nonzero, h.recorded, fun id o n hn => ?_, h.backed⟩
  have hle := h.counted id o n hn
  rw [count_append] at hle
  rw [append_nil]
  omega

theorem acquire_new (s : System) (o : ObjectState) : acquire { s with objects := s.objects ++ [o] } s.objects.length =
      { s with objects := s.objects ++ [{ o with refCount := o.refCount + 1 }] } := by
  have hlast : (s.objects ++ [o])[s.objects.length]? = some o := by
    rw [getElem?_append_right (Nat.le_refl _), Nat.sub_self]
    rfl
  rw [acquire, modify_eq_set_getElem?]
  rw [hlast, Option.map_eq_map, Option.map_some, Option.getD_some,
    set_append_right _ _ (Nat.le_refl _), Nat.sub_self, set_cons_zero]

theorem Inv.takePage (h : Inv s pending) {allocator : PhysicalMemoryManager}
    (halloc : s.machine.allocator.allocatePage = some (page, allocator)) :
    Inv { s with machine := { s.machine with allocator } } pending := by
  have hsub : List.Subperm (pool { s with machine := { s.machine with allocator } }) s.pool := by
    have hperm := PhysicalMemoryManager.allocatePage_perm halloc
    have hless : List.Subperm allocator.available s.machine.allocator.available :=
      (sublist_cons_self page _).subperm.trans hperm.subperm
    exact (subperm_append_right _).mpr hless
  exact ⟨h.tables.mono hsub, h.ids, h.spaces, fun hin => h.nonzero (hsub.subset hin), h.recorded, h.counted, h.backed⟩

/-- **One event in both memories**: the process reads the same. -/
theorem Alike.step (h : Alike s memory) (hs : Inv s []) {e : MemoryEvent}
    (hok : SamePages own (s, s.withMemory memory) e) :
    Option.Rel (fun x y => ∃ memory', WithMemory memory' x y ∧ Alike x.2 memory' ∧ Inv x.2 [])
      (s.memoryStep own e) ((s.withMemory memory).memoryStep own e) := by
  cases e with
  | create =>
    refine .some ⟨memory, rfl, ?_, ?_⟩
    · rw [acquire_new]
      refine h.of_pages rfl rfl fun o ho hkind page hpage hne => ?_
      rcases mem_append.mp ho with hold | hnew
      · exact ⟨o, hold, hkind, hpage⟩
      · rw [mem_singleton.mp hnew] at hpage
        exact absurd (eq_of_mem_replicate hpage) hne
    · rw [acquire_new]
      exact (hs.addObject rfl rfl (pages_of_replicate rfl rfl)).forget
  | map i id vmasOffset align =>
    rw [memoryStep, memoryStep, map_eq_bind, map_eq_bind]
    refine rel_bind (addressSpaceMap_withMemory i id vmasOffset align) ?_
    rintro x _ hmap rfl
    exact .some ⟨memory, rfl, h.map hs hok.1 hmap, hs.map hok.1 hok.2 hmap⟩
  | read vaddr =>
    refine rel_bind_same fun space hspace => rel_bind (h.access hs hspace hok) ?_
    rintro ⟨word, t⟩ ⟨word', _⟩ - ⟨hword, memory', rfl, ht⟩
    refine .some ⟨memory', Prod.ext ?_ rfl, ht⟩
    dsimp only
    split_ifs with hvariable
    · exact hword hvariable
    · rfl
  | heapPage =>
    rw [memoryStep, memoryStep, map_eq_bind, map_eq_bind]
    refine rel_bind_same fun x halloc => .some ⟨memory, rfl, ?_, hs.takePage halloc⟩
    exact h.of_pages rfl rfl fun o ho hkind page hpage _ => ⟨o, ho, hkind, hpage⟩

/-! ## Runs -/

/-- **A whole run in both memories.** -/
theorem Alike.reads_eq (h : Alike s memory) (hs : Inv s []) {events : List MemoryEvent}
    (hok : Meets (bothStep own) (SamePages own) (s, s.withMemory memory) events) :
    (s.withMemory memory).reads own events = s.reads own events := by
  induction events generalizing s memory with
  | nil => rfl
  | cons e events ih =>
    have hstep := h.step hs hok.1
    have hrest := hok.2
    rw [bothStep] at hrest
    rw [reads, reads]
    generalize s.memoryStep own e = x, (s.withMemory memory).memoryStep own e = y at hstep hrest
    cases hstep with
    | none => rfl
    | some hxy =>
      obtain ⟨memory', rfl, ht, hinv⟩ := hxy
      exact congrArg (Option.map _) (ih ht hinv (hrest _ rfl))

/-- **A process reads the same from new memory**, whatever free pages held, in every run in which each
page that an object gets holds the same in both states. -/
theorem fresh_memory_reads_agree (own : Nat) (s : System) (memory : Memory) (events : List MemoryEvent)
    (hs : Inv s []) (hfree : ∀ page, page ∉ s.machine.allocator.available → memory page = s.machine.memory page)
    (hok : Meets (bothStep own) (SamePages own) (s, s.withMemory memory) events) :
    (s.withMemory memory).reads own events = s.reads own events :=
  (hs.alike_of_free hfree).reads_eq hs hok

/-- The memory of the two processes, with a word left on one page. -/
def leftOn (left : UInt64) : Memory := fun page offset =>
  if page = left then 0x736563726574 else sharedKernelMemory page offset

/-- A word left on a free page is in free memory only. -/
theorem leftOn_of_available {left : UInt64} (hleft : left ∈ twoProcesses.machine.allocator.available)
    (hpage : page ∉ twoProcesses.machine.allocator.available) :
    leftOn left page = twoProcesses.machine.memory page := by
  have hne : page ≠ left := fun heq => hpage (heq ▸ hleft)
  funext offset
  rw [leftOn, if_neg hne]
  rfl

/-- The page with the word becomes a page table, which is cleared: nothing of it is read. -/
theorem fresh_memory_reads_agree_pageTable :
    twoProcesses.reads 0 [.create 0x1000, .map 0 2 0x400000 0, .read 0x400008] = some [none, none, some 0] ∧
      (twoProcesses.withMemory (leftOn 0x101000)).reads 0 [.create 0x1000, .map 0 2 0x400000 0, .read 0x400008] =
        twoProcesses.reads 0 [.create 0x1000, .map 0 2 0x400000 0, .read 0x400008] := by
  refine ⟨rfl, fresh_memory_reads_agree 0 twoProcesses (leftOn 0x101000)
    [.create 0x1000, .map 0 2 0x400000 0, .read 0x400008] fresh_twoProcesses.inv
    (fun page hpage => leftOn_of_available (by decide) hpage) ?_⟩
  refine ⟨trivial, ?_⟩
  intro x₁ h₁
  cases h₁
  refine ⟨⟨by decide, by decide⟩, ?_⟩
  intro x₂ h₂
  cases h₂
  refine ⟨?_, fun _ _ => trivial⟩
  intro page hpage
  cases hpage
  rfl

/-- **A process reads what another one left**: the page of a new object is not cleared. -/
theorem fresh_memory_exposes_recycled_page : Fresh twoProcesses ∧
    (∀ page, page ∉ twoProcesses.machine.allocator.available →
      leftOn 0x100000 page = twoProcesses.machine.memory page) ∧
    twoProcesses.reads 0 [.create 0x1000, .map 0 2 0x400000 0, .read 0x400008] = some [none, none, some 0] ∧
    (twoProcesses.withMemory (leftOn 0x100000)).reads 0 [.create 0x1000, .map 0 2 0x400000 0, .read 0x400008] =
      some [none, none, some 0x736563726574] :=
  ⟨fresh_twoProcesses, fun _ hpage => leftOn_of_available (by decide) hpage, rfl, rfl⟩

end System

end Acadia.Zion
