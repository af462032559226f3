import Acadia.Foundations.Word
import Acadia.Glacier.HashMapSpec

/-! # Capabilities and capability tables

`capability/capability.h` and `capability/capability_table.cpp`. A capability is an object that pointers share, so
it has an identity, `serial`; the object it is for is named by its number. A table carries the proof that its hash
map is well formed. `none` stands for a panic. -/

namespace Acadia.Zion

open Glacier List

/-- `kZionPerm_Write`. -/
def kZionPermWrite : UInt64 := 0x1

/-- `kZionPerm_Read`. -/
def kZionPermRead : UInt64 := 0x2

/-- `kZionPerm_Transmit`. -/
def kZionPermTransmit : UInt64 := 0x10

/-- `kZionPerm_Duplicate`. -/
def kZionPermDuplicate : UInt64 := 0x20

/-- `kZionPerm_SpawnProcess`, on processes. -/
def kZionPermSpawnProcess : UInt64 := 0x100

/-- `kZionPerm_SpawnThread`, on processes. -/
def kZionPermSpawnThread : UInt64 := 0x200

/-- `kZionPerm_Lock`, on mutexes. -/
def kZionPermLock : UInt64 := 0x100

/-- `kZionPerm_Release`, on mutexes. -/
def kZionPermRelease : UInt64 := 0x200

/-- `kZionPerm_Wait`, on semaphores. -/
def kZionPermWait : UInt64 := 0x100

/-- `kZionPerm_Signal`, on semaphores. -/
def kZionPermSignal : UInt64 := 0x200

/-- A `Capability`. -/
structure Capability where
  /-- Which capability this is; each one that is made gets a number of its own. -/
  serial : Nat
  obj : Nat
  permissions : UInt64
  deriving DecidableEq

/-- `HasPermissions`. -/
def Capability.hasPermissions (c : Capability) (requested : UInt64) : Bool :=
  c.permissions &&& requested = requested

/-- A `CapabilityTable`. -/
structure CapabilityTable where
  nextCapId : UInt64 := 0x100
  capabilities : HashMap UInt64 Capability := {}
  wellFormed : capabilities.WellFormed := by exact HashMap.wellFormed_empty
  deriving DecidableEq

namespace CapabilityTable

/-- `AddExistingCapability`; `AddNewCapability` does the same with a new capability. -/
def addExistingCapability (t : CapabilityTable) (cap : Capability) :
    Option (UInt64 × CapabilityTable) :=
  match h : t.capabilities.insert t.nextCapId cap with
  | (.ok, capabilities) =>
    some (t.nextCapId, ⟨t.nextCapId + 1, capabilities, t.wellFormed.of_insert h⟩)
  | _ => none

/-- `GetCapability`. -/
def getCapability (t : CapabilityTable) (id : UInt64) : Option Capability :=
  if t.capabilities.contains id then t.capabilities.find id else none

/-- `capabilities_.Delete`, with the capability that goes away. -/
def deleteCapability (t : CapabilityTable) (id : UInt64) :
    Option (Option Capability × CapabilityTable) :=
  match h : t.capabilities.delete id with
  | some (_, capabilities) =>
    some (t.getCapability id, { t with capabilities, wellFormed := t.wellFormed.of_delete h })
  | none => none

/-- `ReleaseCapability`. -/
def releaseCapability (t : CapabilityTable) (id : UInt64) : Option Capability × CapabilityTable :=
  if t.capabilities.contains id then (t.deleteCapability id).getD (none, t) else (none, t)

/-- The loop of `ReleaseAll`, with the capabilities that go away. -/
def releaseLoop : List UInt64 → CapabilityTable → Option (List Capability × CapabilityTable)
  | [], t => some ([], t)
  | id :: ids, t => do
    let (cap, t) ← t.deleteCapability id
    let (caps, t) ← releaseLoop ids t
    return (cap.toList ++ caps, t)

/-- `ReleaseAll`. -/
def releaseAll (t : CapabilityTable) : Option (List Capability × CapabilityTable) :=
  releaseLoop ((List.range t.nextCapId.toNat).map UInt64.ofNat) t

/-! ## What tables do -/

/-- The entries of a table. -/
def entries (t : CapabilityTable) : List (UInt64 × Capability) := t.capabilities.entries

/-- The capabilities in a table. -/
def caps (t : CapabilityTable) : List Capability := t.entries.map Prod.snd

variable {t t' : CapabilityTable} {id : UInt64} {c : Capability}

/-- `GetCapability` finds the entries. -/
theorem getCapability_eq_some_iff : t.getCapability id = some c ↔ (id, c) ∈ t.entries := by
  unfold getCapability
  by_cases hcontains : t.capabilities.contains id = true
  · rw [if_pos hcontains]
    exact t.wellFormed.find_eq_some_iff
  · rw [if_neg hcontains]
    have hnot : (id, c) ∉ t.entries := fun hmem =>
      hcontains (t.wellFormed.contains_iff.mpr (mem_map_of_mem hmem))
    simpa using hnot

theorem getCapability_eq_none_iff : t.getCapability id = none ↔ id ∉ t.entries.map Prod.fst := by
  constructor
  · intro hnone hmem
    obtain ⟨⟨id, c⟩, hc, rfl⟩ := mem_map.mp hmem
    rw [getCapability_eq_some_iff.mpr hc] at hnone
    cases hnone
  · intro hnot
    by_contra hsome
    obtain ⟨c, hc⟩ := Option.ne_none_iff_exists'.mp hsome
    exact hnot (mem_map_of_mem (f := Prod.fst) (getCapability_eq_some_iff.mp hc))

theorem mem_caps_of_getCapability (h : t.getCapability id = some c) : c ∈ t.caps :=
  mem_map_of_mem (f := Prod.snd) (getCapability_eq_some_iff.mp h)

theorem getCapability_of_perm (h : t'.entries ~ ((id, c) :: t.entries)) (j : UInt64) :
    t'.getCapability j = if j = id then some c else t.getCapability j := by
  have hnodup : (((id, c) :: t.entries).map Prod.fst).Nodup :=
    (h.map Prod.fst).nodup_iff.mp t'.wellFormed.nodup
  rw [map_cons, nodup_cons] at hnodup
  by_cases hj : j = id
  · rw [if_pos hj, hj]
    exact getCapability_eq_some_iff.mpr (h.symm.subset mem_cons_self)
  · rw [if_neg hj]
    apply Option.ext
    intro d
    rw [getCapability_eq_some_iff, getCapability_eq_some_iff, h.mem_iff, mem_cons]
    refine ⟨fun hd => hd.resolve_left fun heq => hj (congrArg Prod.fst heq), Or.inr⟩

/-- **A capability is added under the next id**, which was not in use. -/
theorem addExistingCapability_spec {cap : Capability} (h : t.addExistingCapability cap = some (id, t')) :
    id = t.nextCapId ∧ t'.nextCapId = t.nextCapId + 1 ∧ t.getCapability id = none ∧
      (∀ j, t'.getCapability j = if j = id then some cap else t.getCapability j) ∧
      t'.caps ~ (cap :: t.caps) := by
  unfold addExistingCapability at h
  split at h
  case h_1 capabilities hinsert =>
    cases h
    have hkey : t.nextCapId ∉ t.entries.map Prod.fst := by
      intro hmem
      rw [t.wellFormed.insert_of_mem hmem] at hinsert
      cases hinsert
    obtain ⟨m, hm, -, hperm⟩ := t.wellFormed.insert hkey cap
    rw [hm] at hinsert
    cases hinsert
    refine ⟨rfl, rfl, getCapability_eq_none_iff.mpr hkey, getCapability_of_perm hperm, ?_⟩
    exact hperm.map Prod.snd
  · cases h

theorem exists_addExistingCapability (h : t.getCapability t.nextCapId = none) (cap : Capability) :
    ∃ id t', t.addExistingCapability cap = some (id, t') := by
  obtain ⟨m, hm, -, -⟩ := t.wellFormed.insert (getCapability_eq_none_iff.mp h) cap
  unfold addExistingCapability
  split
  case h_1 capabilities hinsert => exact ⟨_, _, rfl⟩
  case h_2 hother => exact absurd hm (hother m)

/-- **A capability that is released leaves the table.** -/
theorem releaseCapability_of_some (h : t.getCapability id = some c) :
    ∃ t', t.releaseCapability id = (some c, t') ∧ t'.nextCapId = t.nextCapId ∧
      (∀ j, t'.getCapability j = if j = id then none else t.getCapability j) ∧
      t.caps ~ (c :: t'.caps) := by
  have hmem := getCapability_eq_some_iff.mp h
  have hcontains : t.capabilities.contains id = true :=
    t.wellFormed.contains_iff.mpr (mem_map_of_mem hmem)
  obtain ⟨m, hm, hwf, hperm⟩ := t.wellFormed.delete hmem
  refine ⟨⟨t.nextCapId, m, hwf⟩, ?_, rfl, ?_, hperm.map Prod.snd⟩
  · have hdelete : t.deleteCapability id = some (some c, ⟨t.nextCapId, m, hwf⟩) := by
      unfold deleteCapability
      split
      case h_1 code capabilities hcode =>
        rw [hm] at hcode
        cases hcode
        rw [h]
      case h_2 hnone =>
        rw [hm] at hnone
        cases hnone
    rw [releaseCapability, if_pos hcontains, hdelete]
    rfl
  · intro j
    have hget := getCapability_of_perm (t := ⟨t.nextCapId, m, hwf⟩) hperm
    have hgone : (⟨t.nextCapId, m, hwf⟩ : CapabilityTable).getCapability id = none := by
      have hnodup := (hperm.map Prod.fst).nodup_iff.mp t.wellFormed.nodup
      rw [map_cons, nodup_cons] at hnodup
      exact getCapability_eq_none_iff.mpr hnodup.1
    by_cases hj : j = id
    · rw [if_pos hj, hj, hgone]
    · rw [if_neg hj, hget j, if_neg hj]

theorem releaseCapability_of_none (h : t.getCapability id = none) : t.releaseCapability id = (none, t) := by
  have hcontains : ¬ t.capabilities.contains id = true := fun hcontains =>
    getCapability_eq_none_iff.mp h (t.wellFormed.contains_iff.mp hcontains)
  rw [releaseCapability, if_neg hcontains]

/-- **A delete takes the capability of its id away, if there is one.** -/
theorem deleteCapability_spec {cap : Option Capability} (h : t.deleteCapability id = some (cap, t')) :
    t'.nextCapId = t.nextCapId ∧ (∀ j, t'.getCapability j = if j = id then none else t.getCapability j) ∧
      t.caps ~ cap.toList ++ t'.caps := by
  cases hget : t.getCapability id with
  | none =>
    -- nothing changes
    unfold deleteCapability at h
    split at h
    · rename_i code capabilities hcode
      cases h
      have hlen : t.capabilities.data.length ≠ 0 := by
        intro hlen
        rw [HashMap.delete, if_pos hlen] at hcode
        cases hcode
      rw [t.wellFormed.delete_of_not_mem hlen (getCapability_eq_none_iff.mp hget)] at hcode
      cases hcode
      refine ⟨rfl, fun j => ?_, by rw [hget]; exact List.Perm.refl _⟩
      by_cases hj : j = id
      · rw [if_pos hj, hj]
        exact hget
      · rw [if_neg hj]
    · cases h
  | some c =>
    obtain ⟨t1, hrelease, hnext, hgone, hperm⟩ := releaseCapability_of_some hget
    have hcontains : t.capabilities.contains id = true :=
      t.wellFormed.contains_iff.mpr (mem_map_of_mem (f := Prod.fst) (getCapability_eq_some_iff.mp hget))
    rw [releaseCapability, if_pos hcontains, h] at hrelease
    cases hrelease
    exact ⟨hnext, hgone, hperm⟩

/-- **The loop of `ReleaseAll`** takes the capabilities of its ids away. -/
theorem releaseLoop_spec {ids : List UInt64} {released : List Capability}
    (h : releaseLoop ids t = some (released, t')) :
    t'.nextCapId = t.nextCapId ∧ (∀ j, t'.getCapability j = if j ∈ ids then none else t.getCapability j) ∧
      t.caps ~ released ++ t'.caps := by
  induction ids generalizing t released with
  | nil =>
    cases h
    exact ⟨rfl, fun j => by simp, List.Perm.refl _⟩
  | cons id ids ih =>
    simp only [releaseLoop, Option.bind_eq_bind, Option.bind_eq_some_iff, Option.pure_def,
      Option.some.injEq, Prod.exists, Prod.mk.injEq] at h
    obtain ⟨cap, t1, hdelete, released1, t2, hloop, rfl, rfl⟩ := h
    obtain ⟨hnext, hget, hperm⟩ := deleteCapability_spec hdelete
    obtain ⟨hnext', hget', hperm'⟩ := ih hloop
    refine ⟨hnext'.trans hnext, fun j => ?_, ?_⟩
    · rw [hget' j, hget j]
      by_cases hj : j ∈ ids
      · rw [if_pos hj, if_pos (mem_cons_of_mem id hj)]
      · by_cases hid : j = id
        · rw [if_neg hj, if_pos hid, if_pos (hid ▸ mem_cons_self)]
        · rw [if_neg hj, if_neg hid, if_neg (by simp [hid, hj])]
    · rw [append_assoc]
      exact hperm.trans (hperm'.append_left _)

end CapabilityTable

end Acadia.Zion
