import Acadia.Zion.Memory.Paging
import Acadia.Zion.Memory.PhysicalMemoryOwnership
import Mathlib.Data.Bool.AllAny

/-! # What the paging functions do to translations

`MapPage` and `UnmapPage` are the operations `mapPath` and `modifyPath` on the radix table of the processor.
`UserTables memory roots free` keeps the address spaces apart: the tables for user space of all roots are made of
different frames, none of which the allocator could hand out, and none is a table of the kernel half. Under it,
mapping a user page changes the translation of that page in that address space and no other. -/

namespace Acadia.Zion

open RadixTable List Machine

variable {A : Type} [PageAllocator A]

/-! ## Paths -/

variable {off v w cr3 vaddr paddr : UInt64}

theorem toNat_shiftForEntryIndexing (v : UInt64) (h : off.toNat ≤ 39) :
    (shiftForEntryIndexing v off).toNat = 8 * (v.toNat / 2 ^ off.toNat % 512) := by
  have hmask : (~~~(0xFFFF000000000000 : UInt64)).toNat = 2 ^ 48 - 1 := by decide
  have hff8 : (0xFF8 : UInt64).toNat = (2 ^ 9 - 1) <<< 3 := by decide
  have h3 : (3 : UInt64).toNat % 64 = 3 := by decide
  have hsplit : (2 : Nat) ^ 48 = 2 ^ off.toNat * 2 ^ (48 - off.toNat) := by
    rw [← Nat.pow_add]
    congr 1
    omega
  have hdvd : 512 ∣ 2 ^ (48 - off.toNat) := Nat.pow_dvd_pow 2 (by omega : 9 ≤ 48 - off.toNat)
  have hlt : v.toNat % 2 ^ 48 / 2 ^ off.toNat < 2 ^ 48 :=
    Nat.lt_of_le_of_lt (Nat.div_le_self _ _) (Nat.mod_lt _ (by decide))
  have hfit : v.toNat % 2 ^ 48 / 2 ^ off.toNat * 2 ^ 3 < 2 ^ 64 := by omega
  rw [shiftForEntryIndexing, UInt64.toNat_and, UInt64.toNat_shiftLeft, UInt64.toNat_shiftRight,
    UInt64.toNat_and, hmask, hff8, h3, Nat.and_two_pow_sub_one_eq_mod, Nat.mod_eq_of_lt (by omega : off.toNat < 64),
    Nat.shiftRight_eq_div_pow, Nat.shiftLeft_eq, Nat.mod_eq_of_lt hfit,
    ← Nat.shiftLeft_eq, ← Nat.shiftLeft_and_distrib, Nat.and_two_pow_sub_one_eq_mod,
    Nat.shiftLeft_eq, hsplit, Nat.mod_mul_right_div_self, Nat.mod_mod_of_dvd _ hdvd]
  omega

/-- `PageAlign` rounds down to a multiple of the page size. -/
theorem toNat_pageAlign (v : UInt64) : (pageAlign v).toNat = v.toNat / 4096 * 4096 :=
  Word.toNat_and_not_low (k := 12) (by decide) rfl

theorem entryPath_pageAlign (v : UInt64) : entryPath (pageAlign v) = entryPath v := by
  refine map_congr_left fun off hoff => ?_
  have hle : off.toNat ≤ 39 ∧ 12 ≤ off.toNat := by
    simp only [mem_cons, not_mem_nil, or_false] at hoff
    rcases hoff with rfl | rfl | rfl | rfl <;> decide
  rw [← UInt64.toNat_inj, toNat_shiftForEntryIndexing _ hle.1, toNat_shiftForEntryIndexing _ hle.1, toNat_pageAlign]
  have hsplit : (2 : Nat) ^ off.toNat = 4096 * 2 ^ (off.toNat - 12) := by
    rw [show 4096 = 2 ^ 12 from rfl, ← Nat.pow_add]
    congr 1
    omega
  rw [hsplit, ← Nat.div_div_eq_div_mul, ← Nat.div_div_eq_div_mul, Nat.mul_div_cancel _ (by decide)]

/-! ## The functions as operations on paths -/

theorem present_iff (e : UInt64) : entryFormat.present e = true ↔ ¬ e &&& presentBit = 0 := by
  simp [entryFormat]

/-- One level of `MapPage` is one level of `mapPath`. -/
theorem mapPath_nextTable (s : Machine A) (table i j bits e : UInt64) (p : List UInt64) :
    mapPath entryFormat PageAllocator.allocatePage 0 (· ||| bits) e s.memory s.allocator table (i :: j :: p) =
      (s.nextTable table i bits).bind fun (next, s') =>
        mapPath entryFormat PageAllocator.allocatePage 0 (· ||| bits) e s'.memory s'.allocator next (j :: p) := by
  rw [mapPath, nextTable]
  by_cases hp : s.memory table i &&& presentBit = 0
  · rw [if_neg (by simpa [present_iff] using hp), if_pos hp, allocateAndZeroPage]
    cases PageAllocator.allocatePage s.allocator with
    | none | some => rfl
  · rw [if_pos ((present_iff _).mpr hp), if_neg hp]
    rfl

/-- **`MapPage` installs an entry at the end of the address's path.** -/
theorem mapPage_eq (s : Machine A) (cr3 vaddr paddr : UInt64) : s.mapPage cr3 vaddr paddr =
      (mapPath entryFormat PageAllocator.allocatePage 0 (· ||| accessBits (pageAlign vaddr))
        (pageAlign paddr ||| accessBits (pageAlign vaddr)) s.memory s.allocator cr3
        (entryPath vaddr)).map fun (memory, allocator) => ⟨allocator, memory⟩ := by
  rw [← entryPath_pageAlign]
  simp only [entryPath, map_cons, map_nil, mapPath_nextTable, mapPage]
  cases s.nextTable cr3 (shiftForEntryIndexing (pageAlign vaddr) 39) (accessBits (pageAlign vaddr)) with
  | none => rfl
  | some x =>
    obtain ⟨pdp, s1⟩ := x
    simp only [Option.bind_eq_bind, Option.bind_some]
    cases s1.nextTable pdp (shiftForEntryIndexing (pageAlign vaddr) 30) (accessBits (pageAlign vaddr)) with
    | none => rfl
    | some x =>
      obtain ⟨pd, s2⟩ := x
      simp only [Option.bind_some]
      cases s2.nextTable pd (shiftForEntryIndexing (pageAlign vaddr) 21) (accessBits (pageAlign vaddr)) with
      | none => rfl
      | some x =>
        obtain ⟨pt, s3⟩ := x
        simp only [Option.bind_some, mapPath, present_iff]
        by_cases hp : s3.memory pt (shiftForEntryIndexing (pageAlign vaddr) 12) &&& presentBit = 0
        all_goals simp [hp]

/-- **`UnmapPage` clears the present bit** of the entry at the end of the address's path. -/
theorem unmapPage_eq (memory : Memory) (cr3 vaddr : UInt64) : unmapPage memory cr3 vaddr =
      modifyPath entryFormat (· &&& ~~~presentBit) memory cr3 (entryPath vaddr) := by
  simp only [unmapPage, entryPath, map_cons, map_nil, modifyPath, present_iff, ite_not]
  rfl

/-- `PagePhysIfResident` walks without a look at large pages. -/
theorem pagePhysIfResident_eq (memory : Memory) (cr3 v : UInt64) : pagePhysIfResident memory cr3 v =
      (translate entryFormat.unsized memory cr3 (entryPath v)).elim 0 fun x => x.1 &&& ~~~0xFFF := by
  have hpresent : ∀ e : UInt64, entryFormat.unsized.present e = true ↔ ¬ e &&& presentBit = 0 :=
    present_iff
  have hlarge : ∀ e : UInt64, entryFormat.unsized.large e = false := fun _ => rfl
  simp only [pagePhysIfResident, entryPath, map_cons, map_nil, RadixTable.translate, hpresent,
    hlarge, ite_not, Bool.false_eq_true, if_false]
  rw [show entryFormat.unsized.target = fun e => e &&& ~~~0xFFF from rfl]
  split_ifs
  all_goals rfl

/-! ## Entries -/

/-- The address is a multiple of the page size. -/
def PageAligned (addr : UInt64) : Prop := 4096 ∣ addr.toNat

theorem pageAlign_of_pageAligned (h : PageAligned v) : pageAlign v = v := by
  rw [← UInt64.toNat_inj, toNat_pageAlign]
  unfold PageAligned at h
  omega

instance (addr : UInt64) : Decidable (PageAligned addr) := inferInstanceAs (Decidable (_ ∣ _))

theorem pageAligned_pageAlign (addr : UInt64) : PageAligned (pageAlign addr) := by
  rw [PageAligned, toNat_pageAlign]
  exact Nat.dvd_mul_left _ _

/-- The entry that `MapPage` writes for a page. -/
theorem entry_or {page bits : UInt64} (hpage : PageAligned page) (hbits : bits.toNat < 8) (hodd : bits.toNat % 2 = 1) :
    entryFormat.present (page ||| bits) = true ∧ entryFormat.large (page ||| bits) = false ∧
      entryFormat.target (page ||| bits) = page := by
  obtain ⟨q, hq⟩ := hpage
  have hor : (page ||| bits).toNat = page.toNat + bits.toNat :=
    Word.toNat_or_of_dvd (k := 12) ⟨q, hq⟩ (by omega)
  refine ⟨?_, ?_, ?_⟩
  · rw [present_iff, presentBit, Word.and_two_pow_eq_zero_iff (k := 0) rfl, hor]
    omega
  · have hzero : (page ||| bits) &&& pageSizeBit = 0 := by
      rw [pageSizeBit, Word.and_two_pow_eq_zero_iff (k := 7) rfl, hor]
      omega
    simp [entryFormat, hzero]
  · rw [← UInt64.toNat_inj]
    have htarget := Word.toNat_and_not_low (x := page ||| bits) (m := 0xFFF) (k := 12) (by decide) rfl
    rw [entryFormat, htarget, hor]
    omega

theorem accessBits_bounds (vaddr : UInt64) : (accessBits vaddr).toNat < 8 ∧
    (accessBits vaddr).toNat % 2 = 1 := by
  unfold accessBits
  dsimp only
  split <;> decide

theorem not_present_clear (e : UInt64) : entryFormat.present (e &&& ~~~presentBit) = false := by
  rw [Bool.eq_false_iff, ne_eq, present_iff, not_not]
  have hclear := Word.toNat_and_not_low (x := e) (m := presentBit) (k := 1) (by decide) rfl
  rw [presentBit, Word.and_two_pow_eq_zero_iff (k := 0) rfl, ← presentBit, hclear]
  omega

/-! ## User space and the kernel half -/

/-- The byte offsets of the first `n` entries of a table. -/
def entryOffsets (n : Nat) : List UInt64 := (List.range n).map fun i => UInt64.ofNat (8 * i)

/-- The offsets, level by level, of the entries for user space: the lower half of the top table, and
all entries of the tables below. -/
def userLevels : List (List UInt64) :=
  [entryOffsets 256, entryOffsets 512, entryOffsets 512, entryOffsets 512]

/-- Bit 47 of the address is set, as in every address of the kernel half. -/
def KernelHalf (addr : UInt64) : Prop := 2 ^ 47 ≤ addr.toNat % 2 ^ 48

instance (addr : UInt64) : Decidable (KernelHalf addr) := inferInstanceAs (Decidable (_ ≤ _))

theorem nodup_entryOffsets {n : Nat} (hn : n ≤ 512) : (entryOffsets n).Nodup := by
  refine List.Nodup.map_on ?_ nodup_range
  intro i hi j hj heq
  rw [mem_range] at hi hj
  have hnat := congrArg UInt64.toNat heq
  rw [UInt64.toNat_ofNat', UInt64.toNat_ofNat'] at hnat
  omega

theorem nodup_userLevels : ∀ is ∈ userLevels, is.Nodup := by
  have hall : (entryOffsets 512).Nodup := nodup_entryOffsets (le_refl 512)
  simp only [userLevels, forall_mem_cons, not_mem_nil, false_implies, implies_true, and_true]
  exact ⟨nodup_entryOffsets (by decide), hall, hall, hall⟩

theorem shift_mem_entryOffsets {n : Nat} (hoff : off.toNat ≤ 39) (hn : n ≤ 512) :
    shiftForEntryIndexing v off ∈ entryOffsets n ↔ v.toNat / 2 ^ off.toNat % 512 < n := by
  rw [entryOffsets, mem_map]
  constructor
  · rintro ⟨i, hi, heq⟩
    rw [mem_range] at hi
    have hnat := congrArg UInt64.toNat heq
    rw [toNat_shiftForEntryIndexing _ hoff, UInt64.toNat_ofNat'] at hnat
    omega
  · intro hlt
    refine ⟨_, mem_range.mpr hlt, ?_⟩
    rw [← UInt64.toNat_inj, toNat_shiftForEntryIndexing _ hoff, UInt64.toNat_ofNat']
    omega

theorem shift_mem_user_iff (v : UInt64) : shiftForEntryIndexing v 39 ∈ entryOffsets 256 ↔ ¬ KernelHalf v := by
  rw [shift_mem_entryOffsets (by decide) (by decide), KernelHalf,
    show (39 : UInt64).toNat = 39 from rfl]
  omega

theorem entryPath_mem (h : ¬ KernelHalf v) : List.Forall₂ (· ∈ ·) (entryPath v) userLevels := by
  simp only [entryPath, userLevels, map_cons, map_nil, forall₂_cons, List.Forall₂.nil, and_true]
  refine ⟨(shift_mem_user_iff v).mpr h, ?_, ?_, ?_⟩
  all_goals
    rw [shift_mem_entryOffsets (by decide) (by decide)]
    exact Nat.mod_lt _ (by decide)

/-- **Different pages have different paths**, for addresses with the same upper bits. -/
theorem entryPath_eq_iff (hupper : v.toNat / 2 ^ 48 = w.toNat / 2 ^ 48) :
    entryPath v = entryPath w ↔ pageAlign v = pageAlign w := by
  constructor
  · intro h
    simp only [entryPath, map_cons, map_nil, List.cons.injEq, and_true, ← UInt64.toNat_inj] at h
    obtain ⟨h39, h30, h21, h12⟩ := h
    rw [toNat_shiftForEntryIndexing _ (by decide), toNat_shiftForEntryIndexing _ (by decide)] at h39 h30 h21 h12
    rw [show (39 : UInt64).toNat = 39 from rfl] at h39
    rw [show (30 : UInt64).toNat = 30 from rfl] at h30
    rw [show (21 : UInt64).toNat = 21 from rfl] at h21
    rw [show (12 : UInt64).toNat = 12 from rfl] at h12
    rw [← UInt64.toNat_inj, toNat_pageAlign, toNat_pageAlign]
    omega
  · intro h
    rw [← entryPath_pageAlign, h, entryPath_pageAlign]

theorem entryPath_inj (hv : v.toNat < 2 ^ 47) (hw : w.toNat < 2 ^ 47) :
    entryPath v = entryPath w ↔ pageAlign v = pageAlign w :=
  entryPath_eq_iff (by omega)

/-! ## The tables of several address spaces -/

/-- An allocator that hands out pages of its own, each once. -/
class LawfulPageAllocator (A : Type) extends PageAllocator A where
  /-- The pages that can be handed out. -/
  available : A → List UInt64
  /-- A page that is handed out was available, and the others still are. -/
  allocatePage_perm : ∀ {a a' : A} {page : UInt64}, allocatePage a = some (page, a') →
    (page :: available a') ~ available a

instance : LawfulPageAllocator PhysicalMemoryManager where
  available := PhysicalMemoryManager.available
  allocatePage_perm := PhysicalMemoryManager.allocatePage_perm

variable {extra roots free : List UInt64} {memory' memory : Memory}

/-- What `MapPage` does to tables whose levels have the entries of the address. The pages in `extra` are
in use for something else. -/
theorem mapped_of_mapPage (extra : List UInt64) {B : Type} [LawfulPageAllocator B] {s s' : Machine B}
    {levels : List (List UInt64)}
    (hmem : List.Forall₂ (· ∈ ·) (entryPath vaddr) levels) (hlevels : ∀ is ∈ levels, is.Nodup)
    (hnd : (frames entryFormat s.memory levels cr3 ++ (LawfulPageAllocator.available s.allocator ++ extra)).Nodup)
    (hreg : Regular entryFormat s.memory levels cr3)
    (haligned : ∀ g ∈ LawfulPageAllocator.available s.allocator ++ extra, PageAligned g)
    (hmap : s.mapPage cr3 vaddr paddr = some s') :
    Mapped entryFormat s.memory s'.memory levels cr3 (entryPath vaddr)
      (pageAlign paddr ||| accessBits (pageAlign vaddr))
      (LawfulPageAllocator.available s.allocator ++ extra)
      (LawfulPageAllocator.available s'.allocator ++ extra) := by
  rw [mapPage_eq, Option.map_eq_some_iff] at hmap
  obtain ⟨_, hpath, rfl⟩ := hmap
  obtain ⟨hbits, hodd⟩ := accessBits_bounds (pageAlign vaddr)
  exact mapped_of_mapPath (fun a : B => LawfulPageAllocator.available a ++ extra)
    (fun a g a' halloc => (LawfulPageAllocator.allocatePage_perm halloc).append_right extra)
    (by decide) (entry_or (pageAligned_pageAlign paddr) hbits hodd).1 hmem hlevels hnd hreg
    (fun g hg => entry_or (haligned g hg) hbits hodd) hpath

/-- The frames of the tables for user space of all roots. -/
def userFrames (memory : Memory) (roots : List UInt64) : List UInt64 :=
  roots.flatMap (frames entryFormat memory userLevels)

/-- **The address spaces are apart**, and apart from the pages in `free`. -/
structure UserTables (memory : Memory) (roots free : List UInt64) : Prop where
  /-- No frame of the tables for user space occurs twice, or is in `free`. -/
  nodup : (userFrames memory roots ++ free).Nodup
  /-- There are no large pages in user space. -/
  regular : ∀ r ∈ roots, Regular entryFormat memory userLevels r
  /-- A walk in the kernel half reads one entry of its root, and then no table for user space. -/
  kernel : ∀ r ∈ roots, ∀ addr, KernelHalf addr →
    ∀ x ∈ visits entryFormat memory r (entryPath addr),
      x = (r, shiftForEntryIndexing addr 39) ∨ x.1 ∉ userFrames memory roots ++ free
  /-- The walk of `UnmapPage` at the first address after user space, which gives no heed to large
  pages, reads one entry of its root, and then no table for user space. -/
  limit : ∀ r ∈ roots, ∀ x ∈ (visits entryFormat.unsized memory r (entryPath kUserSpaceMax)).tail,
    x.1 ∉ userFrames memory roots ++ free
  /-- Free pages are whole pages. -/
  aligned : ∀ g ∈ free, PageAligned g

namespace UserTables

variable {memory memory' : Memory} {roots free free' : List UInt64}

theorem root_mem (r : UInt64) : r ∈ frames entryFormat memory userLevels r := mem_frames_self

variable {r g cr3 : UInt64}

theorem mem_userFrames (hr : r ∈ roots) (hg : g ∈ frames entryFormat memory userLevels r) :
    g ∈ userFrames memory roots :=
  mem_flatMap.mpr ⟨r, hr, hg⟩

theorem nodup_root (h : UserTables memory roots free) (hr : r ∈ roots) :
    (frames entryFormat memory userLevels r ++ free).Nodup := by
  obtain ⟨hframes, hfree, hdisj⟩ := nodup_append.mp h.nodup
  exact nodup_append.mpr ⟨(nodup_flatMap.mp hframes).1 r hr, hfree, fun g hg => hdisj g (mem_userFrames hr hg)⟩

theorem nodup_roots (h : UserTables memory roots free) : roots.Nodup := by
  have hpair := (nodup_flatMap.mp (nodup_append.mp h.nodup).1).2
  refine hpair.imp fun {r r'} hdisj heq => ?_
  subst heq
  exact hdisj (root_mem r) (root_mem r)

theorem not_mem_of_ne (h : UserTables memory roots free) (hr : r ∈ roots) (hcr3 : cr3 ∈ roots) (hne : r ≠ cr3)
    (hg : g ∈ frames entryFormat memory userLevels r) : g ∉ frames entryFormat memory userLevels cr3 ∧ g ∉ free := by
  obtain ⟨hframes, -, hdisj⟩ := nodup_append.mp h.nodup
  refine ⟨fun hin => ?_, fun hin => hdisj g (mem_userFrames hr hg) g hin rfl⟩
  have : Std.Symm (Function.onFun List.Disjoint (frames entryFormat memory userLevels)) :=
    ⟨fun _ _ hxy _ hy hx => hxy hx hy⟩
  exact (nodup_flatMap.mp hframes).2.forall hr hcr3 hne hg hin

/-- A memory that differs only in the user part of one root's table and in free pages translates
the kernel half, and every address of the other roots, in the same way. -/
theorem translation_eq (h : UserTables memory roots free) (hcr3 : cr3 ∈ roots)
    (houtside : ∀ g, g ∉ frames entryFormat memory userLevels cr3 → g ∉ free → memory' g = memory g)
    (hroot : ∀ addr, KernelHalf addr →
      memory' cr3 (shiftForEntryIndexing addr 39) = memory cr3 (shiftForEntryIndexing addr 39))
    (hr : r ∈ roots) {addr : UInt64} (hcase : r ≠ cr3 ∨ KernelHalf addr) :
    translation memory' r addr = translation memory r addr ∧ visits entryFormat memory' r (entryPath addr) =
        visits entryFormat memory r (entryPath addr) := by
  refine translate_congr_visits fun x hx => ?_
  by_cases hkernel : KernelHalf addr
  · rcases h.kernel r hr addr hkernel x hx with rfl | hout
    · by_cases hne : r = cr3
      · rw [hne]
        exact hroot addr hkernel
      · obtain ⟨hnot, hfree⟩ := h.not_mem_of_ne hr hcr3 hne (root_mem r)
        rw [houtside r hnot hfree]
    · rw [mem_append, not_or] at hout
      rw [houtside x.1 (fun hin => hout.1 (mem_userFrames hcr3 hin)) hout.2]
  · -- outside the kernel half, a walk stays in the frames of its own root
    have hne : r ≠ cr3 := hcase.resolve_right hkernel
    obtain ⟨hnot, hfree⟩ :=
      h.not_mem_of_ne hr hcr3 hne (mem_frames_of_visits (entryPath_mem hkernel) hx)
    rw [houtside x.1 hnot hfree]

/-- Such a memory is also the same to `UnmapPage` at the end of user space. -/
theorem visits_limit_eq (h : UserTables memory roots free) (hcr3 : cr3 ∈ roots)
    (houtside : ∀ g, g ∉ frames entryFormat memory userLevels cr3 → g ∉ free → memory' g = memory g)
    (hroot : memory' cr3 (shiftForEntryIndexing kUserSpaceMax 39) =
      memory cr3 (shiftForEntryIndexing kUserSpaceMax 39)) (hr : r ∈ roots) :
    visits entryFormat.unsized memory' r (entryPath kUserSpaceMax) =
      visits entryFormat.unsized memory r (entryPath kUserSpaceMax) := by
  refine (translate_congr_visits fun x hx => ?_).2
  have hsplit : visits entryFormat.unsized memory r (entryPath kUserSpaceMax) =
      (r, shiftForEntryIndexing kUserSpaceMax 39) ::
        (visits entryFormat.unsized memory r (entryPath kUserSpaceMax)).tail := rfl
  rw [hsplit, mem_cons] at hx
  rcases hx with rfl | hx
  · by_cases hne : r = cr3
    · rw [hne]
      exact hroot
    · obtain ⟨hnot, hfree⟩ := h.not_mem_of_ne hr hcr3 hne (root_mem r)
      rw [houtside r hnot hfree]
  · have hout := h.limit r hr x hx
    rw [mem_append, not_or] at hout
    rw [houtside x.1 (fun hin => hout.1 (mem_userFrames hcr3 hin)) hout.2]

/-- **A change of one root's table keeps the invariant**, if the table and the free pages only
exchange pages and nothing else is written. -/
theorem of_change (h : UserTables memory roots free) (hcr3 : cr3 ∈ roots)
    (hperm : frames entryFormat memory' userLevels cr3 ++ free' ~
      frames entryFormat memory userLevels cr3 ++ free) (hsub : free' ⊆ free)
    (houtside : ∀ g, g ∉ frames entryFormat memory userLevels cr3 → g ∉ free → memory' g = memory g)
    (hroot : ∀ addr, KernelHalf addr →
      memory' cr3 (shiftForEntryIndexing addr 39) = memory cr3 (shiftForEntryIndexing addr 39))
    (hregular : Regular entryFormat memory' userLevels cr3) : UserTables memory' roots free' := by
  have hother : ∀ r ∈ roots, r ≠ cr3 → ∀ g ∈ frames entryFormat memory userLevels r, memory' g = memory g := by
    intro r hr hne g hg
    obtain ⟨hnot, hfree⟩ := h.not_mem_of_ne hr hcr3 hne hg
    exact houtside g hnot hfree
  have hall : userFrames memory' roots ++ free' ~ userFrames memory roots ++ free := by
    have hnodup := h.nodup_roots
    obtain ⟨pre, post, rfl⟩ := append_of_mem hcr3
    rw [nodup_append, nodup_cons] at hnodup
    have hpre : userFrames memory' pre = userFrames memory pre :=
      flatMap_congr fun r hr =>
        frames_congr (hother r (by simp [hr]) fun heq => hnodup.2.2 r hr cr3 (by simp) heq)
    have hpost : userFrames memory' post = userFrames memory post :=
      flatMap_congr fun r hr =>
        frames_congr (hother r (by simp [hr]) fun heq => hnodup.2.1.1 (heq ▸ hr))
    have hsplit : ∀ memory, userFrames memory (pre ++ cr3 :: post) = userFrames memory pre ++
        (frames entryFormat memory userLevels cr3 ++ userFrames memory post) := by
      intro memory
      rw [userFrames, flatMap_append, flatMap_cons]
      rfl
    rw [hsplit, hsplit, hpre, hpost]
    rw [perm_iff_count] at hperm ⊢
    intro g
    have hcount := hperm g
    simp only [count_append] at hcount ⊢
    omega
  refine ⟨hall.nodup_iff.mpr h.nodup, ?_, ?_, ?_, fun g hg => h.aligned g (hsub hg)⟩
  · intro r hr
    by_cases hne : r = cr3
    · rw [hne]
      exact hregular
    · exact (h.regular r hr).congr (hother r hr hne)
  · intro r hr addr hkernel x hx
    rw [(h.translation_eq hcr3 houtside hroot hr (Or.inr hkernel)).2] at hx
    refine (h.kernel r hr addr hkernel x hx).imp_right fun hout hin => hout ?_
    exact hall.subset hin
  · intro r hr x hx
    have hwalk := (h.visits_limit_eq hcr3 houtside (hroot kUserSpaceMax (by decide)) hr)
    rw [hwalk] at hx
    exact fun hin => h.limit r hr x hx (hall.subset hin)

theorem mono (h : UserTables memory roots free) (hsub : List.Subperm free' free) : UserTables memory roots free' := by
  have happ : List.Subperm (userFrames memory roots ++ free') (userFrames memory roots ++ free) :=
    (subperm_append_left _).mpr hsub
  obtain ⟨l, hperm, hsublist⟩ := id happ
  refine ⟨hperm.nodup_iff.mp (h.nodup.sublist hsublist), h.regular, ?_, ?_, fun g hg => h.aligned g (hsub.subset hg)⟩
  · intro r hr addr hkernel x hx
    exact (h.kernel r hr addr hkernel x hx).imp_right fun hout hin => hout (happ.subset hin)
  · intro r hr x hx hin
    exact h.limit r hr x hx (happ.subset hin)

end UserTables

/-- **What mapping a user page does to the translations of all address spaces.** -/
structure PageMapped (memory memory' : Memory) (roots : List UInt64) (cr3 vaddr entry : UInt64) :
    Prop where
  before : translation memory cr3 vaddr = none
  here : translation memory' cr3 vaddr = some (entry, [])
  /-- Other pages of the address space are translated as before. -/
  elsewhere : ∀ addr, ¬ KernelHalf addr → entryPath addr ≠ entryPath vaddr →
    translation memory' cr3 addr = translation memory cr3 addr
  /-- So are the addresses of other address spaces, and the kernel half of all. -/
  others : ∀ r ∈ roots, ∀ addr, r ≠ cr3 ∨ KernelHalf addr →
    translation memory' r addr = translation memory r addr

/-- The entry of the top table for an address of the kernel half is not on the path of a user
address. -/
theorem head_entryPath_ne {addr : UInt64} (hv : ¬ KernelHalf vaddr) (ha : KernelHalf addr) :
    (entryPath vaddr).head? ≠ some (shiftForEntryIndexing addr 39) := by
  intro heq
  have hshift : shiftForEntryIndexing vaddr 39 = shiftForEntryIndexing addr 39 := by
    simpa [entryPath] using heq
  have hmem := (shift_mem_user_iff vaddr).mpr hv
  rw [hshift] at hmem
  exact (shift_mem_user_iff addr).mp hmem ha

/-- What `MapPage` does to the table of its root. -/
theorem UserTables.mapped {B : Type} [LawfulPageAllocator B] {s s' : Machine B}
    (h : UserTables s.memory roots (LawfulPageAllocator.available s.allocator ++ extra))
    (hcr3 : cr3 ∈ roots) (hv : ¬ KernelHalf vaddr) (hmap : s.mapPage cr3 vaddr paddr = some s') :
    Mapped entryFormat s.memory s'.memory userLevels cr3 (entryPath vaddr)
      (pageAlign paddr ||| accessBits (pageAlign vaddr))
      (LawfulPageAllocator.available s.allocator ++ extra)
      (LawfulPageAllocator.available s'.allocator ++ extra) :=
  mapped_of_mapPage extra (entryPath_mem hv) nodup_userLevels (h.nodup_root hcr3) (h.regular cr3 hcr3)
    h.aligned hmap

/-- **`MapPage` maps one user page**, and keeps the address spaces apart. The pages in `extra` are in
use for something else. -/
theorem UserTables.mapPage {B : Type} [LawfulPageAllocator B] {s s' : Machine B}
    (h : UserTables s.memory roots (LawfulPageAllocator.available s.allocator ++ extra))
    (hcr3 : cr3 ∈ roots) (hv : ¬ KernelHalf vaddr) (hmap : s.mapPage cr3 vaddr paddr = some s') :
    UserTables s'.memory roots (LawfulPageAllocator.available s'.allocator ++ extra) ∧
      PageMapped s.memory s'.memory roots cr3 vaddr (pageAlign paddr ||| accessBits (pageAlign vaddr)) ∧
      LawfulPageAllocator.available s'.allocator ++ extra ⊆ LawfulPageAllocator.available s.allocator ++ extra := by
  have hmapped := h.mapped hcr3 hv hmap
  have hroot : ∀ addr, KernelHalf addr →
      s'.memory cr3 (shiftForEntryIndexing addr 39) = s.memory cr3 (shiftForEntryIndexing addr 39) :=
    fun addr ha => hmapped.root _ (head_entryPath_ne hv ha)
  refine ⟨h.of_change hcr3 hmapped.perm hmapped.subset hmapped.outside hroot hmapped.regular,
    ⟨hmapped.before, hmapped.here, ?_, ?_⟩, hmapped.subset⟩
  · intro addr ha hne
    exact hmapped.elsewhere _ (entryPath_mem ha) hne
  · intro r hr addr hcase
    exact (h.translation_eq hcr3 hmapped.outside hroot hr hcase).1

/-- **`UnmapPage` unmaps one user page**, and keeps the address spaces apart. -/
theorem UserTables.unmapPage (h : UserTables memory roots free) (hcr3 : cr3 ∈ roots) (hv : ¬ KernelHalf vaddr) :
    UserTables (Zion.unmapPage memory cr3 vaddr) roots free ∧
      translation (Zion.unmapPage memory cr3 vaddr) cr3 vaddr = none ∧
      (∀ addr, ¬ KernelHalf addr → entryPath addr ≠ entryPath vaddr →
        translation (Zion.unmapPage memory cr3 vaddr) cr3 addr = translation memory cr3 addr) ∧
      ∀ r ∈ roots, ∀ addr, r ≠ cr3 ∨ KernelHalf addr →
        translation (Zion.unmapPage memory cr3 vaddr) r addr = translation memory r addr := by
  rw [unmapPage_eq]
  obtain ⟨hun, hnone⟩ := changed_of_modifyPath not_present_clear (entryPath_mem hv) nodup_userLevels
    (h.nodup_root hcr3) (h.regular cr3 hcr3)
  have hroot := fun addr (ha : KernelHalf addr) => hun.root _ (head_entryPath_ne hv ha)
  refine ⟨h.of_change hcr3 hun.perm hun.subset hun.outside hroot hun.regular, hnone, ?_, ?_⟩
  · intro addr ha hne
    exact hun.elsewhere _ (entryPath_mem ha) hne
  · intro r hr addr hcase
    exact (h.translation_eq hcr3 hun.outside hroot hr hcase).1

/-- What `UnmapPage` changes at the first address after user space is in no table for user space. -/
theorem UserTables.unmapPage_limit_apply (h : UserTables memory roots free) (hcr3 : cr3 ∈ roots) {g : UInt64}
    (hg : g ∈ userFrames memory roots ++ free) : Zion.unmapPage memory cr3 kUserSpaceMax g = memory g := by
  rw [unmapPage_eq]
  funext k
  show modifyPath entryFormat (· &&& ~~~presentBit) memory cr3 (_ :: _ :: _) g k = _
  rw [modifyPath]
  split_ifs with hp
  · -- the entry that is changed is below the root, where the walk has left user space
    refine (modifyPath_apply _ memory _ _ g k).resolve_right fun hchange => ?_
    refine h.limit cr3 hcr3 (g, k) ?_ hg
    have hcond : (entryFormat.unsized.present (memory cr3 (shiftForEntryIndexing kUserSpaceMax 39)) &&
        !entryFormat.unsized.large (memory cr3 (shiftForEntryIndexing kUserSpaceMax 39))) = true := by
      rw [Bool.and_eq_true]
      exact ⟨hp, rfl⟩
    show (g, k) ∈ (visits entryFormat.unsized memory cr3 (_ :: _ :: _)).tail
    rw [visits, if_pos hcond]
    exact hchange.1
  · rfl

/-- **`UnmapPage` at the first address after user space** unmaps no user page, and keeps the address
spaces apart. -/
theorem UserTables.unmapPage_limit (h : UserTables memory roots free) (hcr3 : cr3 ∈ roots) :
    UserTables (Zion.unmapPage memory cr3 kUserSpaceMax) roots free ∧ ∀ r ∈ roots, ∀ addr, ¬ KernelHalf addr →
        translation (Zion.unmapPage memory cr3 kUserSpaceMax) r addr = translation memory r addr := by
  have hsame : ∀ r ∈ roots, ∀ g ∈ frames entryFormat memory userLevels r,
      Zion.unmapPage memory cr3 kUserSpaceMax g = memory g := fun r hr g hg =>
    h.unmapPage_limit_apply hcr3 (mem_append_left _ (mem_userFrames hr hg))
  have hframes : userFrames (Zion.unmapPage memory cr3 kUserSpaceMax) roots =
      userFrames memory roots := flatMap_congr fun r hr => frames_congr (hsame r hr)
  have hclear : ∀ g k, Zion.unmapPage memory cr3 kUserSpaceMax g k = memory g k ∨
      entryFormat.present (Zion.unmapPage memory cr3 kUserSpaceMax g k) = false := by
    intro g k
    rw [unmapPage_eq]
    refine (modifyPath_apply _ memory _ _ g k).imp_right fun hchange => ?_
    rw [hchange.2]
    exact not_present_clear _
  refine ⟨⟨?_, ?_, ?_, ?_, h.aligned⟩, ?_⟩
  · rw [hframes]
    exact h.nodup
  · intro r hr
    exact (h.regular r hr).congr (hsame r hr)
  · intro r hr addr hkernel x hx
    rw [hframes]
    exact h.kernel r hr addr hkernel x ((visits_isPrefix_of_cleared hclear _ _).subset hx)
  · intro r hr x hx
    rw [hframes]
    have hpre : visits entryFormat.unsized (Zion.unmapPage memory cr3 kUserSpaceMax) r
        (entryPath kUserSpaceMax) <+: visits entryFormat.unsized memory r (entryPath kUserSpaceMax) := by
      apply visits_isPrefix_of_cleared
      exact hclear
    refine h.limit r hr x ?_
    rw [← drop_one] at hx ⊢
    exact (hpre.drop 1).subset hx
  · intro r hr addr haddr
    refine (translate_congr_visits fun x hx => ?_).1
    rw [hsame r hr x.1 (mem_frames_of_visits (entryPath_mem haddr) hx)]

end Acadia.Zion
