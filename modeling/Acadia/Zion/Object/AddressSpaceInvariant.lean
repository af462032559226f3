import Acadia.Zion.Object.AddressSpaceIsolation

/-! # The invariant of the address spaces

An address space has two pictures of its mappings: the tree, which requests change, and the page tables, which
faults fill in. They agree: a user page that is present belongs to a mapping of the tree, and its entry holds the
page that the mapping's object has for it.

References are counted too: every mapping of every address space holds one, and so do the references in flight
(`pending`) between the removal of a mapping and the release of its object, or between the creation of a stack and
its first mapping. -/

namespace Acadia.Zion

open Glacier MemoryMappingTree RadixTable List Option ObjectState

open scoped Word

namespace System

/-- All mappings of all address spaces. -/
def allMappings (s : System) : List MemoryMapping := s.spaces.flatMap AddressSpace.mappings

/-- The objects that the mappings of an address space refer to, each as often as it is mapped. -/
def mappedIds (space : AddressSpace) : List Nat := space.mappings.map fun x => x.memObject.id

/-! ## The invariant -/

/-- Stacks are whole pages in user space. -/
structure StacksInRange (m : UserStackManager) : Prop where
  /-- The next stack is placed at a page address. -/
  next : PageAligned m.nextStack
  /-- It is placed in the region for stacks. -/
  bounds : kUserStackMin < m.nextStack ∧ m.nextStack ≤ kUserStackMax
  /-- So were the freed ones. -/
  freed : ∀ b ∈ m.freedStacks,
    PageAligned b ∧ b.toNat + kUserStackSize.toNat ≤ kUserSpaceMax.toNat

/-- A valid address space whose mappings start at page addresses and do not overlap. -/
structure SpaceInv (space : AddressSpace) : Prop extends SpaceValid space where
  /-- Each mapping ends before the next starts. -/
  spaced : Spaced space.mappings
  /-- Mappings start at page addresses. -/
  aligned : ∀ x ∈ space.mappings, PageAligned x.vaddrBase
  stackRange : StacksInRange space.userStacks

/-- **Every user page that is present is backed**: it resolves to a mapping, and its entry holds the
page of the mapping's object. -/
def Backed (s : System) (space : AddressSpace) : Prop :=
  ∀ v, PageAligned v → v < kUserSpaceMax → ∀ e rest,
    translation s.machine.memory space.cr3 v = some (e, rest) →
      rest = [] ∧ ∃ x page, Resolves space.mappings v x ∧
        s.PageOf x.memObject ((v - x.vaddrBase) / 0x1000) page ∧ e &&& ~~~0xFFF = pageAlign page

/-- **The invariant of all address spaces**, with references in flight to the objects `pending`. -/
structure Inv (s : System) (pending : List Nat) : Prop where
  tables : UserTables s.machine.memory s.roots s.pool
  /-- Objects are recorded under their identity. -/
  ids : ∀ (i : Nat) (o : MemoryObject) (n : Nat), s.refs[i]? = some (o, n) → o.id = i
  spaces : ∀ space ∈ s.spaces, SpaceInv space
  /-- The first page of physical memory is never handed out. -/
  nonzero : 0 ∉ s.pool
  /-- A mapped object is one of the objects. -/
  recorded : ∀ x ∈ s.allMappings, ∃ n, s.refs[x.memObject.id]? = some (x.memObject, n)
  /-- Every mapping, and every reference in flight, is counted. -/
  counted : ∀ (id : Nat) (o : MemoryObject) (n : Nat), s.refs[id]? = some (o, n) →
    (s.spaces.flatMap mappedIds ++ pending).count id ≤ n
  /-- Every user page that is present is backed. -/
  backed : ∀ space ∈ s.spaces, Backed s space

variable {s : System} {pending : List Nat}

theorem Inv.valid (h : Inv s pending) : Valid s :=
  ⟨h.tables, h.ids, fun space hspace => (h.spaces space hspace).toSpaceValid⟩

/-! ## Changes of one address space -/

variable {i id : Nat} {space space' : AddressSpace}

/-- **An address space is replaced**: what resolved a present page still does, and mappings that come
or go are exchanged for references in flight. -/
theorem Inv.setSpace {pending' : List Nat} (h : Inv s pending) (hspace : s.spaces[i]? = some space)
    (hcr3 : space'.cr3 = space.cr3) (hinv : SpaceInv space')
    (hresolves : ∀ v x, translation s.machine.memory space.cr3 v ≠ none →
      Resolves space.mappings v x → Resolves space'.mappings v x)
    (hrecorded : ∀ x ∈ space'.mappings, ∃ n, s.refs[x.memObject.id]? = some (x.memObject, n))
    (hperm : mappedIds space' ++ pending' ~ mappedIds space ++ pending) :
    Inv { s with spaces := s.spaces.set i space' } pending' := by
  have hvalid := valid_setSpace h.valid hspace hcr3 hinv.toSpaceValid
  refine ⟨hvalid.tables, hvalid.ids, ?_, h.nonzero, ?_, ?_, ?_⟩
  · intro space1 hmem
    rcases mem_or_eq_of_mem_set hmem with hmem | rfl
    exacts [h.spaces _ hmem, hinv]
  · intro x hx
    obtain ⟨space1, hmem, hin⟩ := mem_flatMap.mp hx
    rcases mem_or_eq_of_mem_set hmem with hmem | rfl
    exacts [h.recorded x (mem_flatMap.mpr ⟨space1, hmem, hin⟩), hrecorded x hin]
  · intro id o n hrefs
    have hset := ListUpdate.flatMap_set_perm (f := mappedIds) space' hspace
    rw [perm_iff_count] at hset hperm
    have hcount := h.counted id o n hrefs
    have hset := hset id
    have hperm := hperm id
    simp only [count_append] at hcount hset hperm ⊢
    omega
  · intro space1 hmem v hv hlt e rest htrans
    rcases mem_or_eq_of_mem_set hmem with hmem | rfl
    · exact h.backed space1 hmem v hv hlt e rest htrans
    · rw [hcr3] at htrans
      obtain ⟨hrest, x, page, hx, hpage⟩ :=
        h.backed space (mem_of_getElem? hspace) v hv hlt e rest htrans
      refine ⟨hrest, x, page, hresolves v x ?_ hx, hpage⟩
      rw [show translation s.machine.memory space.cr3 v = some (e, rest) from htrans]
      exact some_ne_none _

theorem Inv.setFields (h : Inv s pending) (hspace : s.spaces[i]? = some space) (hcr3 : space'.cr3 = space.cr3)
    (hinv : SpaceInv space') (hmappings : space'.mappings = space.mappings) :
    Inv { s with spaces := s.spaces.set i space' } pending := by
  refine h.setSpace hspace hcr3 hinv ?_ ?_ ?_
  · intro v x _ hx
    rw [hmappings]
    exact hx
  · intro x hx
    rw [hmappings] at hx
    exact h.recorded x (mem_flatMap.mpr ⟨space, mem_of_getElem? hspace, hx⟩)
  · rw [mappedIds, hmappings]
    exact List.Perm.refl _

theorem resolves_inserted {x y : MemoryMapping} {v : UInt64} (h : SpaceInv space)
    (hins : Inserted space space' x) (hy : Resolves space.mappings v y) : Resolves space'.mappings v y := by
  refine ⟨hins.perm.symm.subset (mem_cons_of_mem _ hy.mem), hy.base_le, hy.lt_limit, ?_⟩
  intro z hz hzv
  rcases mem_cons.mp (hins.perm.subset hz) with rfl | hz
  · -- if the new mapping started between `y` and the address, `y` would have to end before it
    by_contra hlt
    have hend := hins.endsBy y hy.mem (not_le.mp hlt) fun u hu hux =>
      hy.greatest u hu (hux.le.trans hzv)
    rw [h.holds.limit y hy.mem] at hend
    exact absurd hy.lt_limit (hend.trans hzv).not_gt
  · exact hy.greatest z hz hzv

theorem SpaceInv.inserted {x : MemoryMapping} (h : SpaceInv space) (hins : Inserted space space' x)
    (hin : InUserSpace x) (haligned : PageAligned x.vaddrBase) : SpaceInv space' := by
  refine ⟨h.toSpaceValid.inserted hins hin, ?_, ?_, ?_⟩
  · have hstarts := hins.startsFrom
    rw [hins.limit] at hstarts
    have hcons := h.holds.spaced_cons h.spaced hins.endsBy hstarts
    rw [← hins.limit] at hcons
    exact hcons.subset hins.perm.subset
  · intro y hy
    rcases mem_cons.mp (hins.perm.subset hy) with rfl | hy
    exacts [haligned, h.aligned y hy]
  · rw [hins.rest]
    exact h.stackRange

/-! ## References -/

theorem pageOf_acquire {o : MemoryObject} {pageNum page : UInt64} (h : s.PageOf o pageNum page) :
    (s.acquire id).PageOf o pageNum page := by
  refine h.of_listed fun _ state hstate hpage =>
    ⟨_, by rw [acquire, getElem?_modify, hstate]; rfl, ?_⟩
  split
  all_goals exact hpage

/-- **One more reference is in flight.** -/
theorem Inv.acquire (h : Inv s pending) (hcount : ∀ o, s.objects[id]? = some o → o.refCount ≠ 0) :
    Inv (s.acquire id) (id :: pending) := by
  have hvalid := valid_acquire h.valid hcount
  have hpool := acquire_pool hcount
  refine ⟨hvalid.tables, hvalid.ids, h.spaces, ?_, ?_, ?_, ?_⟩
  · rw [hpool]
    exact h.nonzero
  · intro x hx
    obtain ⟨n, hn⟩ := h.recorded x hx
    rw [getElem?_refs_acquire, hn]
    by_cases hid : id = x.memObject.id
    · exact ⟨n + 1, by simp [hid]⟩
    · exact ⟨n, by simp [hid]⟩
  · intro k o n hk
    rw [getElem?_refs_acquire, map_eq_some_iff] at hk
    obtain ⟨⟨o', n'⟩, hrefs, heq⟩ := hk
    have hle := h.counted k o' n' hrefs
    show (s.spaces.flatMap mappedIds ++ id :: pending).count k ≤ n
    rw [count_append, count_cons]
    rw [count_append] at hle
    by_cases hid : id = k
    · rw [if_pos hid, Prod.mk.injEq] at heq
      rw [if_pos (by simpa using hid)]
      omega
    · rw [if_neg hid, Prod.mk.injEq] at heq
      rw [if_neg (by simpa using hid)]
      omega
  · intro space hspace v hv hlt e rest htrans
    obtain ⟨hrest, x, page, hx, hpage, he⟩ := h.backed space hspace v hv hlt e rest htrans
    exact ⟨hrest, x, page, hx, pageOf_acquire hpage, he⟩

theorem available_destroy (pmm : PhysicalMemoryManager) {o : ObjectState} (h : o.refCount ≠ 0) :
    (destroy pmm o).available ~ o.pages ++ pmm.available := by
  unfold destroy pages
  match hkind : o.object.kind with
  | .fixed physicalAddr =>
    simp only [if_neg h]
    exact PhysicalMemoryManager.freePages_perm ..
  | .view physicalAddr => exact List.Perm.refl _
  | .variable =>
    show ((o.physPageList.filter (· ≠ 0)).foldl (·.freePage ·) pmm).available ~
      o.physPageList.filter (· ≠ 0) ++ pmm.available
    generalize o.physPageList.filter (· ≠ 0) = pages
    induction pages generalizing pmm with
    | nil => exact List.Perm.refl _
    | cons page pages ih =>
      have hfree := (PhysicalMemoryManager.freePage_perm pmm page).append_left pages
      exact (ih _).trans (hfree.trans perm_middle)

theorem pages_destroyed (o : ObjectState) : pages { o with refCount := 0, physPageList := [] } = [] := by
  unfold pages
  match o.object.kind with
  | .fixed physicalAddr => rfl
  | .view physicalAddr => rfl
  | .variable => rfl

/-- **The pool after a release**: the pages of a destroyed object become available. -/
theorem release_pool (s : System) (id : Nat) : (s.release id).pool ~ s.pool := by
  unfold release
  cases ho : s.objects[id]? with
  | none => exact List.Perm.refl _
  | some o =>
    by_cases hone : o.refCount = 1
    · simp only [if_pos hone]
      have hfree := available_destroy s.machine.allocator (o := o) (by omega)
      have hset := ListUpdate.flatMap_set_perm (f := pages) { o with refCount := 0, physPageList := [] } ho
      rw [pages_destroyed, nil_append] at hset
      rw [perm_iff_count] at hfree hset ⊢
      intro g
      have hfree := hfree g
      have hset := hset g
      simp only [pool, count_append] at hfree hset ⊢
      omega
    · simp only [if_neg hone]
      have hsame : pages { o with refCount := o.refCount - 1 } = o.pages := by
        have hiff : o.refCount - 1 = 0 ↔ o.refCount = 0 := by omega
        simp only [pages, hiff]
      have hset := ListUpdate.flatMap_set_perm (f := pages) { o with refCount := o.refCount - 1 } ho
      rw [hsame, perm_append_left_iff] at hset
      exact hset.append_left _

theorem getElem?_refs_release (s : System) (id k : Nat) :
    (s.release id).refs[k]? = (s.refs[k]?).map fun r => if id = k then (r.1, r.2 - 1) else r := by
  have hset : ∀ o o' : ObjectState, s.objects[id]? = some o → o'.object = o.object → o'.refCount = o.refCount - 1 →
      ((s.objects.set id o').map fun o => (o.object, o.refCount))[k]? =
        (s.refs[k]?).map fun r => if id = k then (r.1, r.2 - 1) else r := by
    intro o o' ho hobject hcount
    rw [refs, getElem?_map, getElem?_map, Option.map_map]
    by_cases hk : id = k
    · subst hk
      rw [getElem?_set_self', ho]
      simp [hobject, hcount]
    · rw [getElem?_set_ne hk]
      refine congrArg (fun f => Option.map f s.objects[k]?) ?_
      funext o
      simp [hk]
  unfold release
  cases ho : s.objects[id]? with
  | none =>
    have hnone : s.refs[id]? = none := by rw [refs, getElem?_map, ho]; rfl
    by_cases hk : id = k
    · rw [← hk, hnone]
      rfl
    · simp [hk]
  | some o =>
    by_cases hone : o.refCount = 1
    · simp only [if_pos hone]
      exact hset o _ ho rfl (by rw [hone])
    · simp only [if_neg hone]
      exact hset o _ ho rfl rfl

theorem release_frame (s : System) (id : Nat) :
    (s.release id).spaces = s.spaces ∧ (s.release id).machine.memory = s.machine.memory := by
  unfold release
  split
  · exact ⟨rfl, rfl⟩
  · split
    all_goals exact ⟨rfl, rfl⟩

/-- Objects keep their pages in a release, unless it destroys them. -/
theorem pageOf_release {o : MemoryObject} {pageNum page : UInt64} (h : s.PageOf o pageNum page)
    (halive : id = o.id → ∀ state, s.objects[id]? = some state → state.refCount ≠ 1) :
    (s.release id).PageOf o pageNum page := by
  refine h.of_listed fun _ state hstate hpage => ?_
  unfold release
  cases hid : s.objects[id]? with
  | none => exact ⟨state, hstate, hpage⟩
  | some released =>
    by_cases hsame : id = o.id
    · have halive := halive hsame released hid
      simp only [if_neg halive]
      rw [hsame, hstate, some.injEq] at hid
      rw [hsame]
      refine ⟨_, List.getElem?_set_self (List.getElem?_eq_some_iff.mp hstate).1, ?_⟩
      rw [← hid]
      exact hpage
    · refine ⟨state, ?_, hpage⟩
      by_cases hone : released.refCount = 1
      · simp only [if_pos hone]
        exact (getElem?_set_ne hsame).trans hstate
      · simp only [if_neg hone]
        exact (getElem?_set_ne hsame).trans hstate

/-- **A reference in flight is released.** -/
theorem Inv.release (h : Inv s (id :: pending)) : Inv (s.release id) pending := by
  obtain ⟨hspaces, hmemory⟩ := release_frame s id
  have hpool := release_pool s id
  have hroots : (s.release id).roots = s.roots := congrArg (List.map AddressSpace.cr3) hspaces
  refine ⟨?_, ?_, ?_, ?_, ?_, ?_, ?_⟩
  · rw [hmemory, hroots]
    exact h.tables.mono hpool.subperm
  · intro k o n hk
    rw [getElem?_refs_release, map_eq_some_iff] at hk
    obtain ⟨⟨o', n'⟩, hrefs, heq⟩ := hk
    have hid := h.ids k o' n' hrefs
    split at heq
    all_goals
      cases heq
      exact hid
  · rw [hspaces]
    exact h.spaces
  · rw [hpool.mem_iff]
    exact h.nonzero
  · intro x hx
    rw [allMappings, hspaces] at hx
    obtain ⟨n, hn⟩ := h.recorded x hx
    rw [getElem?_refs_release, hn]
    by_cases hid : id = x.memObject.id
    · exact ⟨n - 1, by simp [hid]⟩
    · exact ⟨n, by simp [hid]⟩
  · intro k o n hk
    rw [getElem?_refs_release, map_eq_some_iff] at hk
    obtain ⟨⟨o', n'⟩, hrefs, heq⟩ := hk
    have hle := h.counted k o' n' hrefs
    rw [count_append, count_cons] at hle
    rw [hspaces, count_append]
    by_cases hid : id = k
    · rw [if_pos hid, Prod.mk.injEq] at heq
      rw [if_pos (by simpa using hid)] at hle
      omega
    · rw [if_neg hid, Prod.mk.injEq] at heq
      omega
  · rw [hspaces]
    intro space hspace v hv hlt e rest htrans
    rw [hmemory] at htrans
    obtain ⟨hrest, x, page, hx, hpage, he⟩ := h.backed space hspace v hv hlt e rest htrans
    refine ⟨hrest, x, page, hx, pageOf_release hpage ?_, he⟩
    -- the mapping and the reference in flight are two references to the object
    intro hid state hstate hone
    have hrefs : s.refs[id]? = some (state.object, state.refCount) := by
      rw [refs, getElem?_map, hstate]
      rfl
    have hle := h.counted id _ _ hrefs
    have hmapped : 0 < (s.spaces.flatMap mappedIds).count id := by
      rw [count_pos_iff, mem_flatMap]
      exact ⟨space, hspace, mem_map.mpr ⟨x, hx.mem, hid.symm⟩⟩
    rw [count_append, count_cons_self] at hle
    omega

end System

end Acadia.Zion
