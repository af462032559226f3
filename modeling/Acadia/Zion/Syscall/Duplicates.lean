import Acadia.Zion.Syscall.Authority

/-! # Duplicates of views

What chains of `MemoryObjectDuplicate` calls can reach of physical memory, starting from one
`ViewMemoryObject`. -/

namespace Acadia.Zion

open Command List
open scoped Word

/-- The object is a view of this physical address. -/
def MemoryObject.Covers (o : MemoryObject) (a : UInt64) : Prop :=
  ∃ physicalAddr, o.kind = .view physicalAddr ∧ a - physicalAddr < o.size

/-- The memory objects, without what changes about them. -/
def Kernel.memoryObjects (s : Kernel) : List MemoryObject := s.system.objects.map ObjectState.object

/-- A process names a memory object. -/
def Kernel.Names (s : Kernel) (p : Nat) (cap : UInt64) (id : Nat) : Prop :=
  ∃ c, s.capability p cap = some c ∧ s.objects[c.obj]? = some (.memoryObject id)

namespace Syscall

variable {s : Kernel} {p : Nat}

theorem memoryObjects_acquire (s : System) (id : Nat) :
    (s.acquire id).objects.map ObjectState.object = s.objects.map ObjectState.object := by
  refine ext_getElem? fun i => ?_
  rw [System.acquire, getElem?_map, getElem?_map, getElem?_modify]
  split
  · cases s.objects[i]? <;> rfl
  · simp

theorem stays_addNewCapability (objects : List MemoryObject) (p obj : Nat) (permissions : UInt64) :
    Stays (·.memoryObjects = objects) (fun _ _ => True) (addNewCapability p obj permissions) := by
  refine Stays.bind (fun s hs => hs) fun serial => Stays.bind (fun s hs => ?_) fun _ s hs => ?_
  · rw [acquireObject, wp_update]
    split
    · exact (memoryObjects_acquire _ _).trans hs
    · exact hs
  · rw [addExistingCapability, wp_bind]
    refine wp_process (fun x _ => ?_) trivial
    split
    · trivial
    · exact hs

/-- **What a successful `MemoryObjectDuplicate` makes**: one more memory object, a part of the named one
as far as the check of the source can tell. -/
theorem wp_memoryObjectDuplicate (p : Nat) (cap offset length : UInt64) :
    wp (memoryObjectDuplicate p cap offset length) (fun _ s' => ∃ id o physicalAddr,
      s.Names p cap id ∧ s.memoryObjects[id]? = some o ∧ o.kind = .view physicalAddr ∧
      ¬offset + length > o.size ∧ s'.memoryObjects =
        s.memoryObjects ++ [⟨s.memoryObjects.length, .view (physicalAddr + offset), length⟩])
      (fun _ _ => True) s := by
  rw [memoryObjectDuplicate, wp_bind]
  refine wp_getValidCapability (fun c hc _ _ => ?_) fun _ _ _ => trivial
  rw [wp_bind]
  refine wp_memoryObject (fun id state hobj hstate => ?_) trivial
  cases hkind : state.object.kind with
  | view physicalAddr =>
    dsimp only
    rw [wp_ite]
    split_ifs with hsize
    · trivial
    rw [wp_bind, addMemoryObject, wp_bind]
    refine wp_onSystem (fun n system hcreate => ?_) trivial
    cases hcreate
    rw [wp_bind, wp_createObject]
    refine wp_mono (stays_addNewCapability _ _ _ _ _ rfl) (fun _ s' hs' => ?_) fun _ _ _ => trivial
    refine ⟨id, state.object, physicalAddr, ⟨c, hc, hobj⟩, ?_, hkind, hsize, hs'.trans ?_⟩
    · rw [Kernel.memoryObjects, getElem?_map, hstate]
      rfl
    · simp [Kernel.memoryObjects]
  | fixed => trivial
  | «variable» => trivial

end Syscall

/-- **A chain of duplicates**: from object `i` in one state to object `j` in another, by calls each of
which names the object that the call before has made. The offsets and lengths satisfy `ok`. -/
inductive DuplicateChain (ok : UInt64 → UInt64 → Prop) : Kernel → Nat → Kernel → Nat → Prop
  | refl (s : Kernel) (i : Nat) : DuplicateChain ok s i s i
  | step {s s₁ s₂ : Kernel} {i j p : Nat} {cap offset length : UInt64} {r : Response}
      (chain : DuplicateChain ok s i s₁ j) (names : s₁.Names p cap j) (hok : ok offset length)
      (call : Syscall.memoryObjectDuplicate p cap offset length s₁ = (.ok r, s₂)) :
      DuplicateChain ok s i s₂ s₁.memoryObjects.length

/-- A part of a view lies in it if and only if its end does not wrap. -/
theorem covers_duplicate_iff {o o' : MemoryObject} {physicalAddr offset length : UInt64}
    (hkind : o.kind = .view physicalAddr) (hkind' : o'.kind = .view (physicalAddr + offset)) (hsize' : o'.size = length)
    (hcheck : ¬offset + length > o.size) : (∀ a, o'.Covers a → o.Covers a) ↔ offset.toNat + length.toNat < 2 ^ 64 := by
  have hcovers : ∀ a, o.Covers a ↔ (a - physicalAddr).toNat < o.size.toNat := by
    intro a
    rw [← UInt64.lt_iff_toNat_lt, MemoryObject.Covers, hkind]
    simp
  have hcovers' : ∀ a, o'.Covers a ↔ (a - (physicalAddr + offset)).toNat < length.toNat := by
    intro a
    rw [← UInt64.lt_iff_toNat_lt, MemoryObject.Covers, hkind', hsize']
    simp
  have hsize := o.size.toNat_lt
  have hoffset := offset.toNat_lt
  rw [not_lt, UInt64.le_iff_toNat_le, UInt64.toNat_add] at hcheck
  constructor
  · intro h
    by_contra hwraps
    -- the address before the view is the last one that the numbers before the wrap reach
    have hlast : o'.Covers (physicalAddr - 1) := by
      rw [hcovers', show physicalAddr - 1 - (physicalAddr + offset) = -1 - offset by grind, UInt64.toNat_sub,
        show (-1 : UInt64).toNat = 2 ^ 64 - 1 from rfl]
      omega
    have hin := (hcovers _).mp (h _ hlast)
    rw [show physicalAddr - 1 - physicalAddr = -1 by grind,
      show (-1 : UInt64).toNat = 2 ^ 64 - 1 from rfl] at hin
    omega
  · intro hfits a ha
    rw [hcovers'] at ha
    rw [hcovers, show a - physicalAddr = a - (physicalAddr + offset) + offset by grind, Word.toNat_add_of_lt (by omega)]
    omega

/-- **Duplicates stay inside the view that a chain starts from**, if no call has an offset and a length
whose sum wraps. -/
theorem duplicateChain_within {s s' : Kernel} {i j : Nat} {o : MemoryObject}
    (h : DuplicateChain (fun offset length => offset.toNat + length.toNat < 2 ^ 64) s i s' j)
    (ho : s.memoryObjects[i]? = some o) : ∃ o', s'.memoryObjects[j]? = some o' ∧ ∀ a, o'.Covers a → o.Covers a := by
  induction h with
  | refl => exact ⟨o, ho, fun _ ha => ha⟩
  | step _ names hok call ih =>
    obtain ⟨o₁, ho₁, hin⟩ := ih ho
    obtain ⟨id, o₂, base, ⟨c, hc, hobj⟩, ho₂, hkind, hcheck, hobjects⟩ :=
      of_wp (Syscall.wp_memoryObjectDuplicate _ _ _ _) call
    obtain ⟨d, hd, hobj'⟩ := names
    obtain rfl : d = c := Option.some.inj (hd.symm.trans hc)
    cases hobj.symm.trans hobj'
    cases ho₁.symm.trans ho₂
    refine ⟨_, by rw [hobjects]; exact getElem?_concat_length, fun a ha => hin a ?_⟩
    exact (covers_duplicate_iff hkind rfl rfl hcheck).mpr hok a ha

/-- The small kernel after its process made a view of one page. -/
def viewKernel : Kernel :=
  (Syscall.memoryObjectCreatePhysical 5 0x200000 0x1000 Kernel.smallKernel).2

/-- What the process finds when it duplicates a part of the view. -/
def duplicateView (offset length : UInt64) : Option (List MemoryObject) :=
  match Syscall.memoryObjectDuplicate 5 0x101 offset length viewKernel with
  | (.ok _, s) => some s.memoryObjects
  | (.error _, _) => none

theorem exists_duplicateChain (ok : UInt64 → UInt64 → Prop) {offset length : UInt64}
    {objects : List MemoryObject} (hok : ok offset length) (h : duplicateView offset length = some objects) :
    ∃ s, DuplicateChain ok viewKernel 0 s 1 ∧ s.memoryObjects = objects := by
  unfold duplicateView at h
  split at h
  · rename_i r s hcall
    cases h
    have hnames : viewKernel.Names 5 0x101 0 := ⟨⟨5, 8, 51⟩, by decide +kernel, by rfl⟩
    exact ⟨s, .step (.refl _ _) hnames hok hcall, rfl⟩
  · cases h

/-- Half of the view. -/
theorem duplicateChain_within_half :
    ∃ s o', DuplicateChain (fun offset length => offset.toNat + length.toNat < 2 ^ 64) viewKernel 0 s 1 ∧
      s.memoryObjects[1]? = some o' ∧
      ∀ a, o'.Covers a → MemoryObject.Covers ⟨0, .view 0x200000, 0x1000⟩ a := by
  have hview : duplicateView 0x800 0x800 =
      some [⟨0, .view 0x200000, 0x1000⟩, ⟨1, .view 0x200800, 0x800⟩] := by decide +kernel
  obtain ⟨s, hchain, -⟩ := exists_duplicateChain
    (fun offset length => offset.toNat + length.toNat < 2 ^ 64) (by decide) hview
  obtain ⟨o', ho', hin⟩ := duplicateChain_within hchain (o := ⟨0, .view 0x200000, 0x1000⟩) (by decide +kernel)
  exact ⟨s, o', hchain, ho', hin⟩

/-- **A view of the page before the view**: the sum of the offset and the length wraps to the size. -/
theorem duplicate_escapes : ∃ s, DuplicateChain (fun _ _ => True) viewKernel 0 s 1 ∧
    viewKernel.memoryObjects = [⟨0, .view 0x200000, 0x1000⟩] ∧
    s.memoryObjects[1]? = some ⟨1, .view 0x1FF000, 0x2000⟩ ∧
    MemoryObject.Covers ⟨1, .view 0x1FF000, 0x2000⟩ 0x1FF000 ∧
    ¬MemoryObject.Covers ⟨0, .view 0x200000, 0x1000⟩ 0x1FF000 := by
  have hview : duplicateView 0xFFFFFFFFFFFFF000 0x2000 =
      some [⟨0, .view 0x200000, 0x1000⟩, ⟨1, .view 0x1FF000, 0x2000⟩] := by decide +kernel
  obtain ⟨s, hchain, hs⟩ := exists_duplicateChain (fun _ _ => True) trivial hview
  refine ⟨s, hchain, by decide +kernel, by rw [hs]; rfl, ⟨_, rfl, by decide⟩, ?_⟩
  rintro ⟨_, ⟨⟩, h⟩
  revert h
  decide

end Acadia.Zion
