import Acadia.Zion.Memory.PagingSpec

/-! # Page tables as a flat map

Any sequence of `MapPage` and `UnmapPage` over one `PML4`, against the partial map from pages to
physical pages that the same sequence makes. `AllocateAndZeroPage` is whatever it returns: a list of
pages, none of which is a paging structure already. -/

namespace Acadia.Zion

open RadixTable Runs List

/-- The pages that `AllocateAndZeroPage` returns, one after the other. -/
structure Supply where
  pages : List UInt64

instance : LawfulPageAllocator Supply where
  allocatePage supply := supply.pages.head?.map fun page => (page, ⟨supply.pages.tail⟩)
  available := Supply.pages
  allocatePage_perm := by
    rintro ⟨pages⟩ a' page h
    cases pages with
    | nil => cases h
    | cons q pages =>
      cases h
      exact List.Perm.refl _

/-- There is a page as long as there are pages. -/
theorem Supply.allocatePage_isSome : (a : Supply) → a.pages ≠ [] → (PageAllocator.allocatePage a).isSome = true
  | ⟨[]⟩, h => absurd rfl h
  | ⟨_ :: _⟩, _ => rfl

/-- The upper bits of the address are copies of bit 47. -/
def Canonical (v : UInt64) : Prop := v.toNat < 2 ^ 47 ∨ 2 ^ 64 - 2 ^ 47 ≤ v.toNat

/-- An operation on the tables. -/
inductive PageOp where
  | map (vaddr paddr : UInt64)
  | unmap (vaddr : UInt64)

/-- Addresses are canonical, and physical pages are pages other than that at `0`. -/
def PageOp.Valid : PageOp → Prop
  | .map vaddr paddr => Canonical vaddr ∧ PageAligned paddr ∧ paddr ≠ 0
  | .unmap vaddr => Canonical vaddr

/-- One operation on the tables at `cr3`; a panic has no result. -/
def pageStep (cr3 : UInt64) (s : Machine Supply) : PageOp → Option (Machine Supply)
  | .map vaddr paddr => s.mapPage cr3 vaddr paddr
  | .unmap vaddr => some { s with memory := unmapPage s.memory cr3 vaddr }

/-- The same operation on a map from pages to physical pages. -/
def flatStep (m : UInt64 → Option UInt64) : PageOp → Option (UInt64 → Option UInt64)
  | .map vaddr paddr =>
    if (m (pageAlign vaddr)).isSome then none
    else some (Function.update m (pageAlign vaddr) (some paddr))
  | .unmap vaddr => some (Function.update m (pageAlign vaddr) none)

/-- What `PagePhysIfResident` says about an address. -/
def residentPage (memory : Memory) (cr3 v : UInt64) : Option UInt64 :=
  if pagePhysIfResident memory cr3 v = 0 then none else some (pagePhysIfResident memory cr3 v)

/-- The offsets of all entries, level by level. -/
def allLevels : List (List UInt64) := List.replicate 4 (entryOffsets 512)

/-- **The tables at `cr3` hold the map** `m`: they are a tree of different pages, none of which will be
returned by `AllocateAndZeroPage`, and a walk finds what the map says. -/
structure HoldsMap (cr3 : UInt64) (s : Machine Supply) (m : UInt64 → Option UInt64) : Prop where
  /-- No page is used for two paging structures. -/
  nodup : (frames entryFormat s.memory allLevels cr3 ++ s.allocator.pages).Nodup
  regular : Regular entryFormat s.memory allLevels cr3
  /-- New pages are whole pages. -/
  aligned : ∀ g ∈ s.allocator.pages, PageAligned g
  walk : ∀ v, Canonical v →
    (translation s.memory cr3 v).map (fun x => entryFormat.target x.1) = m (pageAlign v)
  /-- The page at `0` is not mapped. -/
  nonzero : ∀ a, m a ≠ some 0

/-! ## Paths -/

theorem entryPath_mem_allLevels (v : UInt64) : List.Forall₂ (· ∈ ·) (entryPath v) allLevels := by
  simp only [entryPath, allLevels, List.replicate, map_cons, map_nil, forall₂_cons, List.Forall₂.nil, and_true]
  refine ⟨?_, ?_, ?_, ?_⟩
  all_goals
    rw [shift_mem_entryOffsets (by decide) (by decide)]
    exact Nat.mod_lt _ (by decide)

theorem nodup_allLevels : ∀ is ∈ allLevels, is.Nodup := by
  intro is his
  rw [eq_of_mem_replicate his]
  exact nodup_entryOffsets (le_refl 512)

theorem Canonical.entryPath_eq_iff {v w : UInt64} (hv : Canonical v) (hw : Canonical w) :
    entryPath v = entryPath w ↔ pageAlign v = pageAlign w := by
  have hv64 := v.toNat_lt
  have hw64 := w.toNat_lt
  unfold Canonical at hv hw
  constructor
  · intro h
    refine (Zion.entryPath_eq_iff ?_).mp h
    have htop : shiftForEntryIndexing v 39 = shiftForEntryIndexing w 39 := (List.cons.inj h).1
    rw [← UInt64.toNat_inj, toNat_shiftForEntryIndexing _ (by decide),
      toNat_shiftForEntryIndexing _ (by decide), show (39 : UInt64).toNat = 39 from rfl] at htop
    omega
  · intro h
    rw [← entryPath_pageAlign, h, entryPath_pageAlign]

namespace HoldsMap

variable {cr3 v paddr : UInt64} {s : Machine Supply} {m : UInt64 → Option UInt64}

/-- A blank `PML4` holds the empty map. -/
theorem blank (h : ∀ offset, s.memory cr3 offset &&& presentBit = 0) (hnd : (cr3 :: s.allocator.pages).Nodup)
    (haligned : ∀ g ∈ s.allocator.pages, PageAligned g) : HoldsMap cr3 s fun _ => none := by
  have habsent : ∀ offset, entryFormat.present (s.memory cr3 offset) = false := by
    intro offset
    rw [Bool.eq_false_iff, ne_eq, present_iff, not_not]
    exact h offset
  refine ⟨?_, regular_blank fun i _ => habsent i, haligned, fun v _ => ?_, fun _ => nofun⟩
  · rw [allLevels, List.replicate, frames_blank fun i _ => habsent i]
    exact hnd
  · rw [translation, translate_blank habsent, Option.map_none]

/-- **`PagePhysIfResident` reads the map.** -/
theorem residentPage_eq (h : HoldsMap cr3 s m) (hv : Canonical v) : residentPage s.memory cr3 v = m (pageAlign v) := by
  have hwalk := h.walk v hv
  have hzero := h.nonzero (pageAlign v)
  rw [translation, ← translate_unsized h.regular (entryPath_mem_allLevels v)] at hwalk
  unfold residentPage
  rw [pagePhysIfResident_eq]
  cases htranslate : translate entryFormat.unsized s.memory cr3 (entryPath v) with
  | none =>
    rw [htranslate] at hwalk
    exact hwalk
  | some x =>
    rw [htranslate] at hwalk
    rw [← hwalk] at hzero ⊢
    exact if_neg fun heq => hzero (congrArg some heq)

theorem of_change (h : HoldsMap cr3 s m) {s' : Machine Supply} (hv : Canonical v) {p : Option UInt64}
    (hp : p ≠ some 0) (hnd : (frames entryFormat s'.memory allLevels cr3 ++ s'.allocator.pages).Nodup)
    (hreg : Regular entryFormat s'.memory allLevels cr3) (hsub : s'.allocator.pages ⊆ s.allocator.pages)
    (hhere : (translation s'.memory cr3 v).map (fun x => entryFormat.target x.1) = p)
    (helse : ∀ q, List.Forall₂ (· ∈ ·) q allLevels → q ≠ entryPath v →
      translate entryFormat s'.memory cr3 q = translate entryFormat s.memory cr3 q) :
    HoldsMap cr3 s' (Function.update m (pageAlign v) p) := by
  refine ⟨hnd, hreg, fun g hg => h.aligned g (hsub hg), fun w hw => ?_, fun a => ?_⟩
  · by_cases hpage : pageAlign w = pageAlign v
    · rw [hpage, Function.update_self, translation, (hw.entryPath_eq_iff hv).mpr hpage]
      exact hhere
    · rw [Function.update_of_ne hpage, ← h.walk w hw, translation, translation,
        helse _ (entryPath_mem_allLevels w) fun heq => hpage ((hw.entryPath_eq_iff hv).mp heq)]
  · rw [Function.update_apply]
    split
    · exact hp
    · exact h.nonzero a

/-- **`MapPage` maps a page, or panics if it is mapped.** It takes at most three pages. -/
theorem mapPage (h : HoldsMap cr3 s m) (hvalid : (PageOp.map v paddr).Valid) (hpages : 3 ≤ s.allocator.pages.length) :
    Option.Rel (fun s' m' => HoldsMap cr3 s' m' ∧ s.allocator.pages.length ≤ s'.allocator.pages.length + 3)
      (s.mapPage cr3 v paddr) (flatStep m (.map v paddr)) := by
  obtain ⟨hv, haligned, hzero⟩ := hvalid
  obtain ⟨hbits, hodd⟩ := accessBits_bounds (pageAlign v)
  have hwalk := h.walk v hv
  have hself : pageAlign paddr = paddr := by
    unfold PageAligned at haligned
    rw [← UInt64.toNat_inj, toNat_pageAlign]
    omega
  have hmapped : ∀ s', s.mapPage cr3 v paddr = some s' →
      Mapped entryFormat s.memory s'.memory allLevels cr3 (entryPath v)
        (pageAlign paddr ||| Machine.accessBits (pageAlign v)) s.allocator.pages s'.allocator.pages := by
    intro s' hmap
    have hpages := append_nil s.allocator.pages
    have hdone := mapped_of_mapPage [] (entryPath_mem_allLevels v) nodup_allLevels
      (hpages.symm ▸ h.nodup) h.regular (hpages.symm ▸ h.aligned) hmap
    rwa [append_nil, append_nil] at hdone
  rw [flatStep]
  cases hm : m (pageAlign v) with
  | some q =>
    cases hmap : s.mapPage cr3 v paddr with
    | none => exact .none
    | some r =>
      rw [hm, translation, (hmapped _ hmap).before] at hwalk
      cases hwalk
  | none =>
    rw [hm, Option.map_eq_none_iff] at hwalk
    obtain ⟨memory', allocator', hpath, hlength⟩ := exists_mapPath
      (e := pageAlign paddr ||| Machine.accessBits (pageAlign v)) Supply.pages
      (fun a g a' halloc => LawfulPageAllocator.allocatePage_perm halloc) Supply.allocatePage_isSome
      (show entryFormat.present 0 = false by decide) (entryPath_mem_allLevels v) h.nodup h.regular
      (fun g hg => (entry_or (h.aligned g hg) hbits hodd).2.2) hwalk hpages
    have hmap : s.mapPage cr3 v paddr = some ⟨allocator', memory'⟩ := by
      rw [mapPage_eq]
      exact congrArg _ hpath
    have hdone := hmapped _ hmap
    rw [if_neg (by simp), hmap]
    refine .some ⟨h.of_change hv (fun heq => hzero (Option.some.inj heq))
      (hdone.perm.nodup_iff.mpr h.nodup) hdone.regular hdone.subset ?_ hdone.elsewhere, hlength⟩
    rw [translation, hdone.here, Option.map_some, (entry_or (pageAligned_pageAlign paddr) hbits hodd).2.2, hself]

/-- **`UnmapPage` unmaps a page.** -/
theorem unmapPage (h : HoldsMap cr3 s m) (hv : Canonical v) :
    HoldsMap cr3 { s with memory := Zion.unmapPage s.memory cr3 v } (Function.update m (pageAlign v) none) := by
  rw [unmapPage_eq]
  obtain ⟨hun, hnone⟩ := changed_of_modifyPath not_present_clear (entryPath_mem_allLevels v)
    nodup_allLevels h.nodup h.regular
  refine h.of_change hv nofun (hun.perm.nodup_iff.mpr h.nodup) hun.regular hun.subset ?_ hun.elsewhere
  rw [translation, hnone, Option.map_none]

end HoldsMap

/-- **The tables behave as a flat map.** For every sequence of operations, as long as there are pages for
the tables, `MapPage` panics exactly if its page is mapped, and otherwise `PagePhysIfResident` says of
every canonical address what the map says that the same operations make. -/
theorem run_pages_flat {cr3 : UInt64} {s : Machine Supply} {m : UInt64 → Option UInt64} (h : HoldsMap cr3 s m)
    {ops : List PageOp} (hvalid : ∀ op ∈ ops, op.Valid) (hpages : 3 * ops.length ≤ s.allocator.pages.length) :
    Option.Rel (fun s' m' => ∀ v, Canonical v → residentPage s'.memory cr3 v = m' (pageAlign v))
      (run (pageStep cr3) s ops) (run flatStep m ops) := by
  -- The invariant counts the operations that are left: each takes at most three pages.
  let R : List PageOp → Machine Supply → (UInt64 → Option UInt64) → Prop := fun ops s m =>
    HoldsMap cr3 s m ∧ (∀ op ∈ ops, op.Valid) ∧ 3 * ops.length ≤ s.allocator.pages.length
  have hrel : Option.Rel (R []) (run (pageStep cr3) s ops) (run flatStep m ops) :=
    run_rel (fun s m op ops hR => ?_) (show R ops s m from ⟨h, hvalid, hpages⟩)
  · generalize run (pageStep cr3) s ops = r, run flatStep m ops = r' at hrel ⊢
    cases hrel with
    | none => exact .none
    | some hR => exact .some fun v hv => hR.1.residentPage_eq hv
  obtain ⟨h, hvalid, hpages⟩ := hR
  rw [forall_mem_cons] at hvalid
  rw [length_cons] at hpages
  cases op with
  | unmap v => exact .some ⟨h.unmapPage hvalid.1, hvalid.2, (Nat.le_add_right _ 3).trans hpages⟩
  | map v paddr =>
    have hmap := h.mapPage hvalid.1 (by omega)
    rw [pageStep]
    generalize s.mapPage cr3 v paddr = r, flatStep m (.map v paddr) = r' at hmap ⊢
    cases hmap with
    | none => exact .none
    | some h₁ => exact .some ⟨h₁.1, hvalid.2, by omega⟩

/-- Two pages are mapped, and one of them is mapped again. -/
def remaps : List PageOp :=
  [.map 0x400123 0x9000, .map 0x401000 0xA000, .unmap 0x400000, .map 0x400456 0xB000]

/-- Each mapped page is resident with all its addresses, and no other page is. -/
theorem run_pages_flat_remaps : ∃ s' : Machine Supply,
    run (pageStep 0x1000) ⟨⟨(List.range 12).map fun k => 0x2000 + 0x1000 * UInt64.ofNat k⟩, fun _ _ => 0⟩ remaps =
      some s' ∧ residentPage s'.memory 0x1000 0x400fff = some 0xB000 ∧
    residentPage s'.memory 0x1000 0x401fff = some 0xA000 ∧
    residentPage s'.memory 0x1000 0x402000 = none := by
  have hblank : HoldsMap 0x1000 ⟨⟨(List.range 12).map fun k => 0x2000 + 0x1000 * UInt64.ofNat k⟩,
      fun _ _ => 0⟩ fun _ => none :=
    HoldsMap.blank (fun _ => UInt64.zero_and) (by decide) (all_iff_forall_prop.mp (by decide))
  have hvalid : ∀ op ∈ remaps, op.Valid := by
    simp [remaps, PageOp.Valid, Canonical, PageAligned]
  have hrel := run_pages_flat hblank hvalid (by decide)
  generalize run (pageStep 0x1000) _ remaps = r at hrel ⊢
  cases hrel with
  | some h =>
    refine ⟨_, rfl, (h 0x400fff (by unfold Canonical; decide)).trans (by decide), ?_, ?_⟩
    · exact (h 0x401fff (by unfold Canonical; decide)).trans (by decide)
    · exact (h 0x402000 (by unfold Canonical; decide)).trans (by decide)

end Acadia.Zion
