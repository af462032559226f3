import Acadia.Foundations.Runs

/-! # `glcr::RefPtr`

Programs over handles of `glacier/memory/ref_ptr.h`: each construction, assignment and destruction of a handle
is an operation. Objects and handles are numbers. The counts fit their 64 bits, because every handle takes eight
bytes of memory. -/

namespace Acadia.Glacier

open Function List Option Runs

/-- The objects that were adopted, with `ref_count_`, and the calls of `delete`. -/
structure RefCounts where
  refCount : Nat → Nat := fun _ => 0
  objects : Nat := 0
  deleted : List Nat := []

/-- The objects, and `ptr_` of all handles, which reads as null once the handle is destroyed. -/
structure RefPtrs where
  counts : RefCounts := {}
  handles : List (Option Nat) := []

/-- An operation on handles. -/
inductive RefPtrOp where
  | null | adopt | assignNull (i : Nat) | destroy (i : Nat)
  | copy (i : Nat) | move (i : Nat) | staticCast (i : Nat)
  | copyAssign (i j : Nat) | moveAssign (i j : Nat)

namespace RefCounts

/-- `AdoptPtr`, of a new object. -/
def adopt (s : RefCounts) : RefCounts :=
  { s with refCount := update s.refCount s.objects 1, objects := s.objects + 1 }

/-- `AcquirePtr`, unless the pointer is null. -/
def acquire (s : RefCounts) : Option Nat → RefCounts
  | none => s
  | some o => { s with refCount := update s.refCount o (s.refCount o + 1) }

/-- `ReleasePtr`, and `delete` if it returns true, unless the pointer is null. -/
def release (s : RefCounts) : Option Nat → RefCounts
  | none => s
  | some o => { s with
    refCount := update s.refCount o (s.refCount o - 1)
    deleted := if s.refCount o - 1 = 0 then o :: s.deleted else s.deleted }

/-- The counts are right where `held` handles point to each object. -/
def Right (s : RefCounts) (held : Nat → Nat) : Prop := ∀ o,
  if o < s.objects then s.refCount o = held o ∧ s.deleted.count o = if held o = 0 then 1 else 0
  else held o = 0 ∧ s.deleted.count o = 0

variable {s : RefCounts} {held held' : Nat → Nat} {ptr : Option Nat}

theorem Right.congr (h : s.Right held) (hheld : ∀ o, held' o = held o) : s.Right held' :=
  (funext hheld : held' = held) ▸ h

theorem Right.adopt (h : s.Right held)
    (hheld : ∀ o, held' o = held o + if some s.objects = some o then 1 else 0) : s.adopt.Right held' := by
  intro o
  have ho := h o
  rw [hheld o]
  simp only [RefCounts.adopt, update_apply]
  grind

theorem Right.acquire (h : s.Right held) (hpos : ∀ o, ptr = some o → 0 < held o)
    (hheld : ∀ o, held' o = held o + if ptr = some o then 1 else 0) : (s.acquire ptr).Right held' := by
  cases ptr with
  | none => exact h.congr hheld
  | some =>
    intro o
    have ho := h o
    have hp := hpos o
    rw [hheld o]
    simp only [RefCounts.acquire, update_apply]
    grind

theorem Right.release (h : s.Right held)
    (hheld : ∀ o, held' o + (if ptr = some o then 1 else 0) = held o) : (s.release ptr).Right held' := by
  cases ptr with
  | none => exact h.congr hheld
  | some =>
    intro o
    have ho := h o
    rw [← hheld o] at ho
    simp only [RefCounts.release, update_apply]
    grind

end RefCounts

namespace RefPtrs

open RefCounts

/-- One operation, on handles that exist. A new handle comes last. -/
def step (s : RefPtrs) : RefPtrOp → Option RefPtrs
  | .null => some { s with handles := s.handles ++ [none] }
  | .adopt => some ⟨s.counts.adopt, s.handles ++ [some s.counts.objects]⟩
  | .copy i => s.handles[i]?.map fun ptr => ⟨s.counts.acquire ptr, s.handles ++ [ptr]⟩
  | .staticCast i => s.handles[i]?.join.map fun o => ⟨s.counts.acquire (some o), s.handles ++ [some o]⟩
  | .move i => s.handles[i]?.map fun ptr => { s with handles := s.handles.set i none ++ [ptr] }
  | .copyAssign i j => do
    let old ← s.handles[i]?
    let ptr ← s.handles[j]?
    return ⟨(s.counts.acquire ptr).release old, s.handles.set i ptr⟩
  | .moveAssign i j => do
    let ptr ← s.handles[i]?
    let other ← s.handles[j]?
    return { s with handles := (s.handles.set i other).set j ptr }
  -- a null handle is moved in, and takes the pointer along when it is destroyed
  | .assignNull i | .destroy i => s.handles[i]?.map fun ptr => ⟨s.counts.release ptr, s.handles.set i none⟩

variable {s s' : RefPtrs} {handles : List (Option Nat)} {ptr : Option Nat} {i : Nat}

theorem count_concat (handles : List (Option Nat)) (ptr : Option Nat) (o : Nat) :
    (handles ++ [ptr]).count (some o) = handles.count (some o) + if ptr = some o then 1 else 0 := by
  rw [count_append, count_singleton]
  simp only [beq_iff_eq]

/-- What a handle points to is held. -/
theorem count_pos (h : handles[i]? = some ptr) (o : Nat) (hptr : ptr = some o) :
    0 < handles.count (some o) := count_pos_iff.mpr (hptr ▸ mem_of_getElem? h)

theorem count_set (h : handles[i]? = some ptr) (other : Option Nat) (o : Nat) :
    (handles.set i other).count (some o) + (if ptr = some o then 1 else 0) =
      handles.count (some o) + if other = some o then 1 else 0 := by
  have hpos := count_pos h o
  obtain ⟨hi, rfl⟩ := List.getElem?_eq_some_iff.mp h
  rw [List.count_set hi]
  grind

/-- The counts of all objects are right. -/
def Counted (s : RefPtrs) : Prop := s.counts.Right fun o => s.handles.count (some o)

/-- **Every operation keeps the counts right.** -/
theorem Counted.step (h : s.Counted) {op : RefPtrOp} (hstep : s.step op = some s') : s'.Counted := by
  cases op with
  | null =>
    cases hstep
    exact Right.congr h (count_concat _ _)
  | adopt =>
    cases hstep
    exact Right.adopt h (count_concat _ _)
  | copy =>
    obtain ⟨ptr, hptr, rfl⟩ := map_eq_some_iff.mp hstep
    exact Right.acquire h (count_pos hptr) (count_concat _ _)
  | staticCast =>
    obtain ⟨o, hptr, rfl⟩ := map_eq_some_iff.mp hstep
    exact Right.acquire h (count_pos (join_eq_some_iff.mp hptr)) (count_concat _ _)
  | move =>
    obtain ⟨ptr, hptr, rfl⟩ := map_eq_some_iff.mp hstep
    exact Right.congr h fun o => (count_concat _ _ o).trans (count_set hptr none o)
  | copyAssign =>
    simp only [RefPtrs.step, bind_eq_bind, bind_eq_some_iff] at hstep
    obtain ⟨old, hold, ptr, hptr, ⟨⟩⟩ := hstep
    exact (Right.acquire h (count_pos hptr) fun _ => rfl).release (count_set hold ptr)
  | moveAssign i j =>
    simp only [RefPtrs.step, bind_eq_bind, bind_eq_some_iff] at hstep
    obtain ⟨ptr, hptr, other, hother, ⟨⟩⟩ := hstep
    have hmoved : (s.handles.set i other)[j]? = some other := by grind
    refine Right.congr h fun o => ?_
    have hfirst := count_set hptr other o
    have hsecond := count_set hmoved ptr o
    dsimp only
    omega
  | assignNull | destroy =>
    obtain ⟨ptr, hptr, rfl⟩ := map_eq_some_iff.mp hstep
    exact Right.release h (count_set hptr none)

/-- **The count of an object is the number of handles that point to it**, and the object is deleted once, when
there are none. -/
theorem refCount_eq_count (ops : List RefPtrOp) (hrun : run step {} ops = some s) {o : Nat}
    (ho : o < s.counts.objects) :
    s.counts.refCount o = s.handles.count (some o) ∧
      s.counts.deleted.count o = if s.handles.count (some o) = 0 then 1 else 0 := by
  have hinit : Counted {} := fun _ => And.intro rfl rfl
  have hobject := run_invariant' (fun _ _ _ h => Counted.step h) hinit hrun o
  rwa [if_pos ho] at hobject

/-- Two handles for one object, of which the first is assigned to itself. -/
theorem refCount_eq_count_two : ∃ s,
    run step {} [.adopt, .copy 0, .copyAssign 0 0, .destroy 1, .assignNull 0] = some s ∧
      s.counts.refCount 0 = s.handles.count (some 0) ∧
      s.counts.deleted.count 0 = if s.handles.count (some 0) = 0 then 1 else 0 :=
  ⟨_, rfl, refCount_eq_count [.adopt, .copy 0, .copyAssign 0 0, .destroy 1, .assignNull 0] rfl (by decide)⟩

end RefPtrs

end Acadia.Glacier
