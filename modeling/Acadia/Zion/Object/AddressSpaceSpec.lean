import Acadia.Foundations.ListUpdate
import Acadia.Zion.Lib.MemoryMappingSpec
import Acadia.Zion.Memory.PagingSpec
import Acadia.Zion.Object.AddressSpace

/-! # What the operations of an address space can do

One lemma for each function of `AddressSpace`. Pages of memory objects are counted together with those that
the manager has available: touching a page moves it from one list to the other. -/

namespace Acadia.Zion

open Glacier MemoryMappingTree RadixTable List Option UInt64

open scoped Word

/-! ## Resolving an address -/

/-- **The mapping that an address belongs to**: the one with the greatest base up to the address,
if the address is below its limit. -/
structure Resolves (ms : List MemoryMapping) (vaddr : UInt64) (x : MemoryMapping) : Prop where
  mem : x ∈ ms
  base_le : x.vaddrBase ≤ vaddr
  /-- Its limit, as the code computes it, is above the address. -/
  lt_limit : vaddr < x.vaddrBase + x.memObject.size
  /-- No other one starts in between. -/
  greatest : ∀ y ∈ ms, y.vaddrBase ≤ vaddr → y.vaddrBase ≤ x.vaddrBase

namespace Resolves

variable {ms : List MemoryMapping} {vaddr : UInt64} {x : MemoryMapping}

theorem noWrap (h : Resolves ms vaddr x) : NoWrap x := by
  have hle := UInt64.le_iff_toNat_le.mp h.base_le
  have hlt := UInt64.lt_iff_toNat_lt.mp h.lt_limit
  have hs := x.memObject.size.toNat_lt
  rw [UInt64.toNat_add] at hlt
  unfold NoWrap
  omega

theorem toNat_sub (h : Resolves ms vaddr x) : (vaddr - x.vaddrBase).toNat = vaddr.toNat - x.vaddrBase.toNat :=
  UInt64.toNat_sub_of_le _ _ h.base_le

theorem offset_lt (h : Resolves ms vaddr x) : (vaddr - x.vaddrBase).toNat < x.memObject.size.toNat := by
  have hlt := lt_iff_toNat_lt.mp h.lt_limit
  have hle := le_iff_toNat_le.mp h.base_le
  rw [Word.toNat_add_of_lt h.noWrap] at hlt
  rw [h.toNat_sub]
  omega

end Resolves

/-- **`GetMemoryMappingForAddr` finds the mapping that resolves the address.** -/
theorem getMemoryMappingForAddr_spec {m : MemoryMappingTree} {ms : List MemoryMapping} (h : Holds m ms)
    (vaddr : UInt64) : ∃ r, m.getMemoryMappingForAddr vaddr = some r ∧ ∀ x, r = some x ↔ Resolves ms vaddr x := by
  obtain ⟨p, hp, hsome, hnone⟩ := h.predecessor (vaddr + 1)
  have hv := vaddr.toNat_lt
  -- at the last address the key `vaddr + 1` is `0`, and nothing lies below it
  have hle : ∀ y : MemoryMapping, y.vaddrBase < vaddr + 1 ↔ y.vaddrBase ≤ vaddr ∧ vaddr.toNat + 1 < 2 ^ 64 := by
    intro y
    rw [UInt64.lt_iff_toNat_lt, UInt64.le_iff_toNat_le, UInt64.toNat_add, UInt64.toNat_one]
    omega
  have hlast : ∀ x, Resolves ms vaddr x → vaddr.toNat + 1 < 2 ^ 64 := by
    intro x hx
    have hlt := lt_iff_toNat_lt.mp hx.lt_limit
    have hnw := hx.noWrap
    rw [Word.toNat_add_of_lt hnw] at hlt
    unfold NoWrap at hnw
    omega
  unfold getMemoryMappingForAddr
  simp only [hp, bind_eq_bind, bind_some]
  cases p with
  | none =>
    refine ⟨none, rfl, fun x => ⟨by simp, fun hx => ?_⟩⟩
    have hge := hnone rfl x hx.mem
    exact absurd ((hle x).mpr ⟨hx.base_le, hlast x hx⟩) hge.not_gt
  | some y =>
    obtain ⟨hy, hlt, hmax⟩ := hsome y rfl
    obtain ⟨hyv, hfit⟩ := (hle y).mp hlt
    have hgreatest : ∀ z ∈ ms, z.vaddrBase ≤ vaddr → z.vaddrBase ≤ y.vaddrBase :=
      fun z hz hzv => hmax z hz ((hle z).mpr ⟨hzv, hfit⟩)
    by_cases hend : y.vaddrBase + y.memObject.size ≤ vaddr
    · refine ⟨none, by simp [hend], fun x => ⟨by simp, fun hx => ?_⟩⟩
      obtain rfl := h.eq_of_base hx.mem hy (le_antisymm (hgreatest x hx.mem hx.base_le) (hx.greatest y hy hyv))
      exact absurd hx.lt_limit hend.not_gt
    · refine ⟨some y, by simp [hend], fun x => ?_⟩
      rw [some.injEq]
      constructor
      · rintro rfl
        exact ⟨hy, hyv, not_le.mp hend, hgreatest⟩
      · intro hx
        exact h.eq_of_base hy hx.mem (le_antisymm (hx.greatest y hy hyv) (hgreatest x hx.mem hx.base_le))

/-! ## The pool of pages -/

/-- The physical pages that an object owns. A destroyed object owns none. -/
def ObjectState.pages (o : ObjectState) : List UInt64 :=
  match o.object.kind with
  | .variable => o.physPageList.filter (· ≠ 0)
  | .fixed physicalAddr => if o.refCount = 0 then [] else pageRun physicalAddr o.object.numPages
  | .view _ => []

/-- The mappings of an address space, in the order of their addresses. -/
def AddressSpace.mappings (space : AddressSpace) : List MemoryMapping :=
  (SearchTree.toList space.mappingTree.mappingTree.shape).map Slot.value

namespace System

/-- The roots of all page tables. -/
def roots (s : System) : List UInt64 := s.spaces.map AddressSpace.cr3

/-- The pages that are available or belong to an object: none of them is part of a page table. -/
def pool (s : System) : List UInt64 :=
  s.machine.allocator.available ++ s.objects.flatMap ObjectState.pages

/-- The objects with the numbers of their references. -/
def refs (s : System) : List (MemoryObject × Nat) := s.objects.map fun o => (o.object, o.refCount)

/-- **The page of an object** with this number, if it needs no allocation. -/
def PageOf (s : System) (o : MemoryObject) (pageNum page : UInt64) : Prop :=
  match o.kind with
  | .fixed physicalAddr => page = physicalAddr + kPageSize * pageNum
  | .view physicalAddr => page = physicalAddr + kPageSize * pageNum
  | .variable => page ≠ 0 ∧ ∃ state, s.objects[o.id]? = some state ∧
    state.physPageList[pageNum.toNat]? = some page

/-- **What touching a page of an object does.** -/
structure Touched (s s' : System) (o : MemoryObject) (pageNum page : UInt64) : Prop where
  spaces : s'.spaces = s.spaces
  memory : s'.machine.memory = s.machine.memory
  /-- The pool does not grow. -/
  pool : List.Subperm s'.pool s.pool
  refs : s'.refs = s.refs
  /-- No page list gets longer or shorter. -/
  lengths : s'.objects.map (·.physPageList.length) = s.objects.map (·.physPageList.length)
  /-- Pages that the objects had are still theirs. -/
  kept : ∀ o' n p, s.PageOf o' n p → s'.PageOf o' n p
  /-- The object has the page, unless the null page was handed out. -/
  here : 0 ∉ s.pool → s'.PageOf o pageNum page

variable {s s' : System} {o : MemoryObject} {pageNum page : UInt64}

theorem PageOf.of_listed (h : s.PageOf o pageNum page) (hlist : page ≠ 0 → ∀ state, s.objects[o.id]? = some state →
      state.physPageList[pageNum.toNat]? = some page →
      ∃ state', s'.objects[o.id]? = some state' ∧ state'.physPageList[pageNum.toNat]? = some page) :
    s'.PageOf o pageNum page := by
  unfold PageOf at h ⊢
  match hkind : o.kind with
  | .fixed physicalAddr => simpa only [hkind] using h
  | .view physicalAddr => simpa only [hkind] using h
  | .variable =>
    simp only [hkind] at h ⊢
    obtain ⟨hne, state, hstate, hpage⟩ := h
    exact ⟨hne, hlist hne state hstate hpage⟩

/-- `PageNumberToPhysAddr` gives the page of an object and changes nothing, if the object has it. -/
theorem pageNumberToPhysAddr_of_pageOf (h : s.PageOf o pageNum page) :
    s.pageNumberToPhysAddr o pageNum = some (page, s) := by
  unfold PageOf at h
  unfold pageNumberToPhysAddr
  match hkind : o.kind with
  | .fixed physicalAddr =>
    simp only [hkind] at h ⊢
    rw [h]
  | .view physicalAddr =>
    simp only [hkind] at h ⊢
    rw [h]
  | .variable =>
    simp only [hkind] at h ⊢
    obtain ⟨hne, state, hstate, hpage⟩ := h
    simp [hstate, hpage, hne]

theorem touched_refl (h : s.PageOf o pageNum page) : Touched s s o pageNum page :=
  ⟨rfl, rfl, List.Subperm.refl _, rfl, rfl, fun _ _ _ hp => hp, fun _ => h⟩

theorem pages_setPage (o : ObjectState) (n : Nat) (page : UInt64) :
    List.Subperm { o with physPageList := o.physPageList.set n page }.pages (page :: o.pages) := by
  unfold ObjectState.pages
  match hkind : o.object.kind with
  | .fixed physicalAddr => exact (sublist_cons_self _ _).subperm
  | .view physicalAddr => exact (sublist_cons_self _ _).subperm
  | .variable =>
    by_cases hn : n < o.physPageList.length
    · have hsub : ((page :: o.physPageList.eraseIdx n).filter (· ≠ 0)) <+ (page :: o.physPageList.filter (· ≠ 0)) := by
        rw [filter_cons]
        split
        · exact ((eraseIdx_sublist _ _).filter _).cons_cons _
        · exact ((eraseIdx_sublist _ _).filter _).cons _
      exact ((set_perm_cons_eraseIdx hn page).filter _).subperm.trans hsub.subperm
    · rw [set_eq_of_length_le (not_lt.mp hn)]
      exact (sublist_cons_self _ _).subperm

theorem touched_of_allocatePage {state : ObjectState} {allocator : PhysicalMemoryManager}
    (hkind : o.kind = .variable) (hstate : s.objects[o.id]? = some state)
    (hpage : state.physPageList[pageNum.toNat]? = some 0)
    (halloc : s.machine.allocator.allocatePage = some (page, allocator)) :
    Touched s { s with
      machine := { s.machine with allocator }
      objects := s.objects.set o.id { state with physPageList := state.physPageList.set pageNum.toNat page } }
      o pageNum page := by
  have hid : o.id < s.objects.length := (List.getElem?_eq_some_iff.mp hstate).1
  have hnum : pageNum.toNat < state.physPageList.length := (List.getElem?_eq_some_iff.mp hpage).1
  have hperm := PhysicalMemoryManager.allocatePage_perm halloc
  refine ⟨rfl, rfl, ?_, ListUpdate.map_set_of_eq hstate rfl,
    ListUpdate.map_set_of_eq hstate List.length_set, ?_, ?_⟩
  · -- the page leaves the available ones, and becomes one of the object's unless it is null
    have hset := ListUpdate.flatMap_set_perm (f := ObjectState.pages)
      { state with physPageList := state.physPageList.set pageNum.toNat page } hstate
    have hpages := pages_setPage state pageNum.toNat page
    rw [perm_iff_count] at hperm hset
    rw [subperm_ext_iff]
    intro g _
    have hcount := hpages.count_le g
    have hperm := hperm g
    have hset := hset g
    simp only [System.pool, count_append, count_cons] at hcount hperm hset ⊢
    omega
  · intro o' n p hp
    refine hp.of_listed fun hne state' hstate' hpage' => ?_
    by_cases hsame : o.id = o'.id
    · obtain rfl : state = state' := by rw [hsame, hstate'] at hstate; simpa using hstate.symm
      refine ⟨_, by rw [← hsame, getElem?_set_self hid], ?_⟩
      have hn : pageNum.toNat ≠ n.toNat := fun heq => hne (by
        rw [heq, hpage'] at hpage
        simpa using hpage)
      rw [getElem?_set_ne hn]
      exact hpage'
    · exact ⟨state', by rw [getElem?_set_ne hsame]; exact hstate', hpage'⟩
  · intro hzero
    have hne : page ≠ 0 := fun heq =>
      hzero (mem_append_left _ (hperm.subset (heq ▸ mem_cons_self)))
    simp only [PageOf, hkind]
    exact ⟨hne, _, getElem?_set_self hid, getElem?_set_self hnum⟩

/-- **`PageNumberToPhysAddr` touches a page of the object.** -/
theorem touched_of_pageNumberToPhysAddr (h : s.pageNumberToPhysAddr o pageNum = some (page, s')) :
    Touched s s' o pageNum page := by
  unfold pageNumberToPhysAddr at h
  match hkind : o.kind with
  | .fixed physicalAddr =>
    simp only [hkind, some.injEq, Prod.mk.injEq] at h
    obtain ⟨hpage, rfl⟩ := h
    exact touched_refl (by simpa only [PageOf, hkind] using hpage.symm)
  | .view physicalAddr =>
    simp only [hkind, some.injEq, Prod.mk.injEq] at h
    obtain ⟨hpage, rfl⟩ := h
    exact touched_refl (by simpa only [PageOf, hkind] using hpage.symm)
  | .variable =>
    simp only [hkind, bind_eq_bind, bind_eq_some_iff] at h
    obtain ⟨state, hstate, first, hfirst, h⟩ := h
    by_cases hzero : first = 0
    · subst hzero
      simp only [if_pos, bind_eq_some_iff, Prod.exists] at h
      obtain ⟨fresh, allocator, halloc, h⟩ := h
      cases h
      exact touched_of_allocatePage hkind hstate hfirst halloc
    · rw [if_neg hzero] at h
      cases h
      refine touched_refl ?_
      simp only [PageOf, hkind]
      exact ⟨hzero, state, hstate, hfirst⟩

/-! ## Faults -/

/-- **What a page fault can do**: nothing, or map the page of the mapping that the address belongs
to. -/
theorem handlePageFault_cases {i : Nat} {vaddr : UInt64} {resolved : Bool}
    (h : s.handlePageFault i vaddr = some (resolved, s')) :
    ∃ space, s.spaces[i]? = some space ∧ (s' = s ∨ ∃ x page s1 machine, kPageSize ≤ vaddr ∧
      space.mappingTree.getMemoryMappingForAddr vaddr = some (some x) ∧
      Touched s s1 x.memObject ((vaddr - x.vaddrBase) / 0x1000) page ∧
      s1.machine.mapPage space.cr3 vaddr page = some machine ∧ s' = { s1 with machine }) := by
  unfold handlePageFault at h
  simp only [bind_eq_bind, bind_eq_some_iff] at h
  obtain ⟨space, hspace, h⟩ := h
  refine ⟨space, hspace, ?_⟩
  by_cases hlow : vaddr < kPageSize
  · rw [if_pos hlow] at h
    cases h
    exact Or.inl rfl
  rw [if_neg hlow] at h
  simp only [bind_eq_some_iff, getPhysicalPageAtVaddr, bind_eq_bind] at h
  obtain ⟨result, ⟨mapping, hmapping, hpage⟩, h⟩ := h
  cases mapping with
  | none =>
    cases hpage
    cases h
    exact Or.inl rfl
  | some x =>
    simp only [bind_eq_some_iff, Prod.exists, physicalPageAtOffset] at hpage
    obtain ⟨page, s1, hpage, hpure⟩ := hpage
    cases hpure
    split_ifs at hpage with hsize
    simp only [bind_eq_some_iff] at h
    obtain ⟨machine, hmap, h⟩ := h
    cases h
    exact Or.inr ⟨x, page, s1, machine, not_lt.mp hlow, hmapping, touched_of_pageNumberToPhysAddr hpage, hmap, rfl⟩

end System

/-! ## Placement -/

variable {addr size align : UInt64}

/-- The addresses that the loop of `GetNextMemMapAddr` meets are page addresses, and none of them is
above an aligned one. -/
theorem alignLoop_spec {mask bound : UInt64} (hbound : PageAligned bound) (hmask : bound &&& mask = 0)
    {fuel : Nat} {addr' : UInt64} (haddr : PageAligned addr) (hle : addr ≤ bound)
    (h : AddressSpace.alignLoop mask fuel addr = some addr') : PageAligned addr' ∧ addr' ≤ bound := by
  fun_induction AddressSpace.alignLoop mask fuel addr with
  | case1 => cases h
  | case2 addr hzero fuel ih =>
    -- the loop has not reached `bound`, so the next page address is still up to it
    have hne : addr ≠ bound := fun heq => hzero (heq ▸ hmask)
    have hlt := lt_iff_toNat_lt.mp (lt_of_le_of_ne hle hne)
    have hb := bound.toNat_lt
    simp only [PageAligned, le_iff_toNat_le, UInt64.toNat_add, kPageSize, UInt64.reduceToNat] at *
    exact ih (by omega) (by omega) h
  | case3 =>
    cases h
    exact ⟨haddr, hle⟩

/-- The size of an object in whole pages, as `GetNextMemMapAddr` computes it. -/
theorem toNat_roundUp (h : size ≠ 0) (hsize : size ≤ kUserSpaceMax) :
    (((size - 1) &&& ~~~0xFFF) + 0x1000).toNat = (size.toNat - 1) / 4096 * 4096 + 4096 := by
  have hpos : size.toNat ≠ 0 := fun heq => h (UInt64.toNat_inj.mp heq)
  have hmax : size.toNat ≤ 2 ^ 47 := le_iff_toNat_le.mp hsize
  have hpage : ((size - 1) &&& ~~~0xFFF).toNat = (size - 1).toNat / 4096 * 4096 := toNat_pageAlign _
  simp only [UInt64.toNat_add, hpage, UInt64.toNat_sub, UInt64.reduceToNat]
  omega

/-- `2 ^ 63` is aligned to every alignment up to it. -/
theorem and_mask_eq_zero (hpos : align > 0) (h : align ≤ 0x8000000000000000) :
    0x8000000000000000 &&& (align - 1) = 0 := by
  simp only [gt_iff_lt, lt_iff_toNat_lt, le_iff_toNat_le, UInt64.reduceToNat] at hpos h
  rw [UInt64.and_comm, Word.and_two_pow_eq_zero_iff (k := 63) rfl]
  simp only [UInt64.toNat_sub, UInt64.reduceToNat]
  omega

/-- The object fits in user space and the alignment in a word with one bit: what automatic placement
needs. -/
def PlacedInUserSpace (size align : UInt64) : Prop :=
  size ≤ kUserSpaceMax ∧ align ≤ 0x8000000000000000

instance (size align : UInt64) : Decidable (PlacedInUserSpace size align) :=
  inferInstanceAs (Decidable (_ ∧ _))

/-- The place for the next mapping is a page address below the end of its region. -/
def MemmapRange (space : AddressSpace) : Prop :=
  PageAligned space.nextMemmapAddr ∧ space.nextMemmapAddr < 0x3000000000

/-- **`GetNextMemMapAddr` places an object in user space.** -/
theorem getNextMemMapAddr_spec {space space' : AddressSpace} (hnext : MemmapRange space)
    (hplace : PlacedInUserSpace size align) (h : space.getNextMemMapAddr size align = some (addr, space')) :
    PageAligned addr ∧ addr.toNat + size.toNat ≤ 2 ^ 47 ∧
      ∃ next, space' = { space with nextMemmapAddr := next } ∧ MemmapRange space' := by
  unfold AddressSpace.getNextMemMapAddr at h
  by_cases hzero : size = 0
  · rw [if_pos hzero] at h
    cases h
  rw [if_neg hzero] at h
  have hround := toNat_roundUp hzero hplace.1
  -- the two ways to choose the address have the same continuation
  have hrest : ∀ a : UInt64, PageAligned a → a ≤ 0x8000000000000000 →
      (if a + (((size - 1) &&& ~~~0xFFF) + 0x1000) ≥ 0x3000000000 then none else
        some (a, { space with nextMemmapAddr := a + (((size - 1) &&& ~~~0xFFF) + 0x1000) })) =
        some (addr, space') →
      PageAligned addr ∧ addr.toNat + size.toNat ≤ 2 ^ 47 ∧
        ∃ next, space' = { space with nextMemmapAddr := next } ∧ MemmapRange space' := by
    intro a ha hle hcont
    have hle := le_iff_toNat_le.mp hle
    rw [show (0x8000000000000000 : UInt64).toNat = 2 ^ 63 from rfl] at hle
    have hmax : size.toNat ≤ 2 ^ 47 := le_iff_toNat_le.mp hplace.1
    have hsum := Word.toNat_add_of_lt (a := a) (b := ((size - 1) &&& ~~~0xFFF) + 0x1000) (by rw [hround]; omega)
    split_ifs at hcont with hoom
    cases hcont
    have hlt := lt_iff_toNat_lt.mp (not_le.mp hoom)
    rw [hsum, hround, show (0x3000000000 : UInt64).toNat = 206158430208 from rfl] at hlt
    unfold PageAligned at ha
    refine ⟨ha, by omega, _, rfl, ?_, not_le.mp hoom⟩
    unfold PageAligned
    dsimp only
    omega
  have hstart : space.nextMemmapAddr ≤ 0x8000000000000000 := hnext.2.le.trans (by decide)
  by_cases hpos : align > 0
  · simp only [hpos, if_true, bind_eq_bind, bind_eq_some_iff] at h
    obtain ⟨a, ha, h⟩ := h
    obtain ⟨haligned, hle⟩ :=
      alignLoop_spec (by decide) (and_mask_eq_zero hpos hplace.2) hnext.1 hstart ha
    exact hrest a haligned hle h
  · simp only [hpos, if_false, bind_eq_bind, bind_some] at h
    exact hrest _ hnext.1 hstart h

/-! ## Mapping an object -/

/-- **A mapping is added to an address space.** -/
structure Inserted (space space' : AddressSpace) (x : MemoryMapping) : Prop where
  /-- Nothing else of the address space changes. -/
  rest : space' = { space with mappingTree := space'.mappingTree }
  holds : Holds space'.mappingTree space'.mappings
  perm : space'.mappings ~ (x :: space.mappings)
  /-- The limit is computed with wrapping addition. -/
  limit : x.vaddrLimit = x.vaddrBase + x.memObject.size
  /-- The mapping before ends by its base. -/
  endsBy : EndsBy space.mappings x.vaddrBase
  /-- The mapping after starts from its limit. -/
  startsFrom : StartsFrom space.mappings x.vaddrBase x.vaddrLimit

namespace System

/-- `MapInMemoryObject` refuses the mapping, or adds it and takes a reference to the object. -/
theorem mapInMemoryObject_spec {s s' : System} {i : Nat} {space : AddressSpace} {vaddr : UInt64}
    {object : MemoryObject} {code : ErrorCode}
    (hholds : Holds space.mappingTree space.mappings)
    (h : s.mapInMemoryObject i space vaddr object = some (code, s')) :
    (code ≠ .ok ∧ s' = { s with spaces := s.spaces.set i space }) ∨
      (code = .ok ∧ ∃ space', Inserted space space' ⟨vaddr, vaddr + object.size, object⟩ ∧
        s' = acquire { s with spaces := s.spaces.set i space' } object.id) := by
  unfold mapInMemoryObject at h
  rcases addInMemoryObject_spec hholds vaddr object with hadd | ⟨tree, ms, hadd, hholds', hspec⟩
  · rw [hadd] at h
    cases h
    exact Or.inl ⟨by decide, rfl⟩
  · rw [hadd] at h
    cases h
    obtain ⟨hperm, -, hends, hstarts⟩ := hspec
    obtain rfl : AddressSpace.mappings { space with mappingTree := tree } = ms := hholds'.values
    exact Or.inr ⟨rfl, _, ⟨rfl, hholds', hperm, rfl, hends, hstarts⟩, rfl⟩

/-- **What `AddressSpaceMap` can do**: it chooses an address and maps the object there. -/
theorem addressSpaceMap_cases {s s' : System} {i id : Nat} {vmasOffset align : UInt64}
    {result : Except ErrorCode UInt64} (h : s.addressSpaceMap i id vmasOffset align = some (result, s')) :
    ∃ space state vaddr space1 code, s.spaces[i]? = some space ∧ s.objects[id]? = some state ∧ state.refCount ≠ 0 ∧
      (vmasOffset ≠ 0 ∧ vaddr = vmasOffset ∧ space1 = space ∨
        vmasOffset = 0 ∧ space.getNextMemMapAddr state.object.size align = some (vaddr, space1)) ∧
      s.mapInMemoryObject i space1 vaddr state.object = some (code, s') := by
  unfold addressSpaceMap at h
  simp only [bind_eq_bind, bind_eq_some_iff] at h
  obtain ⟨space, hspace, state, hstate, h⟩ := h
  by_cases hcount : state.refCount = 0
  · rw [if_pos hcount] at h
    cases h
  rw [if_neg hcount] at h
  have hrest : ∀ vaddr space1, ((s.mapInMemoryObject i space1 vaddr state.object).bind fun x =>
        if x.1 = .ok then some (Except.ok vaddr, x.2) else some (Except.error x.1, x.2)) = some (result, s') →
      ∃ code, s.mapInMemoryObject i space1 vaddr state.object = some (code, s') := by
    intro vaddr space1 hmap
    rw [bind_eq_some_iff] at hmap
    obtain ⟨⟨code, s1⟩, hmap, hcode⟩ := hmap
    refine ⟨code, ?_⟩
    by_cases hok : code = .ok
    · rw [if_pos hok] at hcode
      cases hcode
      exact hmap
    · rw [if_neg hok] at hcode
      cases hcode
      exact hmap
  by_cases hoffset : vmasOffset = 0
  · simp only [hoffset, ne_eq, not_true, if_false] at h
    obtain ⟨⟨vaddr, space1⟩, hnext, h⟩ := bind_eq_some_iff.mp h
    obtain ⟨code, hmap⟩ := hrest _ _ h
    exact ⟨space, state, vaddr, space1, code, hspace, hstate, hcount, Or.inr ⟨hoffset, hnext⟩, hmap⟩
  · simp only [hoffset, ne_eq, not_false_iff, if_true, bind_some] at h
    obtain ⟨code, hmap⟩ := hrest _ _ h
    exact ⟨space, state, vmasOffset, space, code, hspace, hstate, hcount, Or.inl ⟨hoffset, rfl, rfl⟩, hmap⟩

theorem acquire_pool {s : System} {id : Nat}
    (h : ∀ o, s.objects[id]? = some o → o.refCount ≠ 0) : (s.acquire id).pool = s.pool := by
  have hpages : (s.acquire id).objects.flatMap ObjectState.pages = s.objects.flatMap ObjectState.pages := by
    refine ListUpdate.flatMap_modify_of_eq fun o ho => ?_
    simp [ObjectState.pages, h o ho]
  rw [pool, pool, hpages]
  rfl

end System

end Acadia.Zion
