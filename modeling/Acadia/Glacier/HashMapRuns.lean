import Acadia.Foundations.Runs
import Acadia.Glacier.HashMapSpec
import Mathlib.Data.Set.Card

/-! # Runs of a hash map

Any sequence of operations of a `HashMap`, with what they return, against a partial function from keys
to values. -/

namespace Acadia.Glacier.HashMap

open Runs List

variable {K V : Type}

section

variable [DecidableEq K]

theorem assign_split {key : K} {l1 : List (K × V)} (hbefore : ∀ x ∈ l1, x.1 ≠ key) (old value : V)
    (l2 : List (K × V)) : assign key value (l1 ++ (key, old) :: l2) = l1 ++ (key, value) :: l2 := by
  induction l1 with
  | nil => simp [assign]
  | cons x l1 ih =>
    rw [forall_mem_cons] at hbefore
    rw [cons_append, assign, if_neg hbefore.1, ih hbefore.2, cons_append]

theorem map_fst_assign (key : K) (value : V) (b : List (K × V)) :
    (assign key value b).map Prod.fst = b.map Prod.fst := by
  induction b with
  | nil => rfl
  | cons x b ih =>
    rw [assign]
    split
    · rfl
    · rw [map_cons, ih, map_cons]

end

variable [Hash K]

/-! ## The abstraction -/

/-- **The map has the pairs of the function.** -/
structure Agrees (m : HashMap K V) (f : K → Option V) : Prop where
  wellFormed : WellFormed m
  /-- The pairs are those of the function. -/
  mem_iff : ∀ key value, (key, value) ∈ m.entries ↔ f key = some value

section

variable {m m' : HashMap K V} {f : K → Option V} {key : K} {value : V}

theorem Agrees.isSome_iff (h : Agrees m f) (key : K) : (f key).isSome = true ↔ key ∈ m.entries.map Prod.fst := by
  rw [Option.isSome_iff_exists, mem_map]
  constructor
  · rintro ⟨value, hvalue⟩
    exact ⟨(key, value), (h.mem_iff key value).mpr hvalue, rfl⟩
  · rintro ⟨⟨key, value⟩, hmem, rfl⟩
    exact ⟨value, (h.mem_iff key value).mp hmem⟩

theorem Agrees.of_perm (h : Agrees m f) (hwf : WellFormed m') (hperm : m'.entries ~ m.entries) : Agrees m' f :=
  ⟨hwf, fun key value => hperm.mem_iff.trans (h.mem_iff key value)⟩

variable [DecidableEq K]

theorem Agrees.find_eq (h : Agrees m f) (key : K) : m.find key = f key :=
  Option.ext fun value => h.wellFormed.find_eq_some_iff.trans (h.mem_iff key value)

theorem Agrees.contains_eq (h : Agrees m f) (key : K) : m.contains key = (f key).isSome := by
  rw [Bool.eq_iff_iff, h.wellFormed.contains_iff, h.isSome_iff]

theorem Agrees.exchange (h : Agrees m f) (hwf : WellFormed m') (old new : Option V) {rest : List (K × V)}
    (hold : m.entries ~ (old.map (key, ·)).toList ++ rest) (hnew : m'.entries ~ (new.map (key, ·)).toList ++ rest)
    (hrest : key ∉ rest.map Prod.fst) : Agrees m' (Function.update f key new) := by
  refine ⟨hwf, fun k v => ?_⟩
  rw [hnew.mem_iff, mem_append]
  by_cases hk : k = key
  · subst hk
    have hnot : (k, v) ∉ rest := fun hmem => hrest (mem_map_of_mem hmem)
    cases new <;> simp [hnot, eq_comm]
  · have hother : ∀ x : Option V, (k, v) ∉ (x.map (key, ·)).toList := by
      intro x
      cases x <;> simp [hk]
    rw [Function.update_of_ne hk, ← h.mem_iff, hold.mem_iff, mem_append]
    simp [hother]

/-- **The field `size_` counts the keys.** -/
theorem WellFormed.ncard_contains (h : WellFormed m) : {key | m.contains key = true}.ncard = m.size := by
  have hset : {key | m.contains key = true} = ↑(m.entries.map Prod.fst).toFinset := by
    ext key
    rw [Set.mem_ofPred_eq, h.contains_iff, coe_toFinset]
    rfl
  rw [hset, Set.ncard_coe_finset, toFinset_card_of_nodup h.nodup, length_map, h.size]

/-- **`Update` changes the value of a key that is there.** -/
theorem WellFormed.update (h : WellFormed m) {old : V} (hmem : (key, old) ∈ m.entries) (value : V) :
    ∃ m' rest, m.update key value = (.ok, m') ∧ WellFormed m' ∧
      m.entries ~ ((key, old) :: rest) ∧ m'.entries ~ ((key, value) :: rest) := by
  obtain ⟨hwf, -, hsame⟩ := h.resizeIfNecessary
  have hmem' := hsame.mem_iff.mpr hmem
  obtain ⟨hlen, hany, l1, l2, hsplit, hbefore⟩ := hwf.bucket_split hmem'
  obtain ⟨m1, -, -, hrest⟩ := hwf.delete hmem'
  have hperm : (m.resizeIfNecessary.data.modify (index m.resizeIfNecessary.data.length key)
      (assign key value)).flatten ~ ((key, value) :: m1.entries) := by
    have hchange := ListUpdate.flatten_modify_perm (assign key value) (getElem?_bucket hlen key)
    rw [hsplit, assign_split hbefore] at hchange
    -- both sides have the other pairs of the bucket and the pair with the old value in front
    refine (perm_append_left_iff (l1 ++ (key, old) :: l2)).mp (hchange.trans ?_)
    refine (hrest.append_left _).trans ?_
    exact (perm_middle.append_right _).trans
      ((perm_middle.trans (perm_middle.symm.cons _)).trans (perm_middle.append_right _).symm)
  refine ⟨{ m.resizeIfNecessary with
      data := m.resizeIfNecessary.data.modify (index m.resizeIfNecessary.data.length key) (assign key value) },
    m1.entries, by rw [HashMap.update, if_pos hany], ⟨?_, ?_, ?_⟩, hsame.symm.trans hrest, hperm⟩
  · refine hwf.placed.modify fun b x hx => Or.inr (mem_map.mp ?_)
    rw [← map_fst_assign key value b]
    exact mem_map_of_mem hx
  · refine (hperm.map Prod.fst).nodup_iff.mpr ?_
    exact (hrest.map Prod.fst).nodup_iff.mp hwf.nodup
  · show m.resizeIfNecessary.size = _
    rw [hwf.size, hrest.length_eq]
    exact hperm.length_eq.symm

/-- `Update` of a key that is not there. -/
theorem WellFormed.update_of_not_mem (h : WellFormed m) (hkey : key ∉ m.entries.map Prod.fst) (value : V) :
    m.update key value = (.notFound, m.resizeIfNecessary) := by
  obtain ⟨hwf, hlen, hperm⟩ := h.resizeIfNecessary
  have hnone : ¬ (m.resizeIfNecessary.bucket key).any (·.1 = key) = true := fun hany =>
    hkey ((hperm.map Prod.fst).subset ((hwf.any_bucket_iff hlen).mp hany))
  rw [HashMap.update, if_neg hnone]

end

/-! ## Operations -/

/-- The operations. -/
inductive Op (K V : Type) where
  | insert (key : K) (value : V)
  | update (key : K) (value : V)
  | delete (key : K)
  | contains (key : K)
  | atKey (key : K)
  | resize (newSize : Nat)

/-- What an operation returns. -/
inductive Reply (V : Type) where
  | code (code : ErrorCode)
  | found (found : Bool)
  | value (value : V)
  | done

variable [DecidableEq K] [Inhabited V]

/-- One operation: it divides by zero, or returns something and leaves a map. -/
def perform (m : HashMap K V) : Op K V → Option (Reply V × HashMap K V)
  | .insert key value => some ((m.insert key value).map .code id)
  | .update key value => some ((m.update key value).map .code id)
  | .delete key => (m.delete key).map (Prod.map .code id)
  | .contains key => some (.found (m.contains key), m)
  | .atKey key => (m.atKey key).map (Prod.map .value id)
  | .resize newSize => if newSize = 0 then none else some (.done, m.resize newSize)

/-- One operation, with what was returned before. -/
def step (s : HashMap K V × List (Reply V)) (op : Op K V) : Option (HashMap K V × List (Reply V)) :=
  (s.1.perform op).map fun (reply, m) => (m, s.2 ++ [reply])

/-- The same operation on a partial function. -/
def performFinite (f : K → Option V) : Op K V → Reply V × (K → Option V)
  | .insert key value =>
    if (f key).isSome then (.code .alreadyExists, f)
    else (.code .ok, Function.update f key (some value))
  | .update key value =>
    if (f key).isSome then (.code .ok, Function.update f key (some value)) else (.code .notFound, f)
  | .delete key =>
    if (f key).isSome then (.code .ok, Function.update f key none) else (.code .notFound, f)
  | .contains key => (.found (f key).isSome, f)
  | .atKey key => (.value ((f key).getD default), f)
  | .resize _ => (.done, f)

/-- The same operation on a partial function, with what was returned before. -/
def finiteStep (s : (K → Option V) × List (Reply V)) (op : Op K V) : (K → Option V) × List (Reply V) :=
  ((performFinite s.1 op).2, s.2 ++ [(performFinite s.1 op).1])

/-- Keys are deleted from a map that has buckets, and `at` is asked for keys that are there. -/
def Allowed (m : HashMap K V) : Op K V → Prop
  | .delete _ => m.data.length ≠ 0
  | .atKey key => m.contains key = true
  | .resize newSize => newSize ≠ 0
  | _ => True

instance (m : HashMap K V) (op : Op K V) : Decidable (m.Allowed op) := by
  cases op <;> unfold Allowed <;> infer_instance

/-- **One operation does the same to both.** -/
theorem Agrees.perform {m : HashMap K V} {f : K → Option V} (h : Agrees m f) {op : Op K V} (hop : m.Allowed op) :
    ∃ m', m.perform op = some ((performFinite f op).1, m') ∧ Agrees m' (performFinite f op).2 := by
  have hkeys : ∀ {key value} {rest : List (K × V)}, m.entries ~ ((key, value) :: rest) → key ∉ rest.map Prod.fst := by
    intro key value rest hperm
    have hnodup := (hperm.map Prod.fst).nodup_iff.mp h.wellFormed.nodup
    rw [map_cons, nodup_cons] at hnodup
    exact hnodup.1
  cases op with
  | insert key value =>
    rw [performFinite]
    split_ifs with hkey
    · rw [HashMap.perform, h.wellFormed.insert_of_mem ((h.isSome_iff key).mp hkey)]
      obtain ⟨hwf, -, hperm⟩ := h.wellFormed.resizeIfNecessary
      exact ⟨_, rfl, h.of_perm hwf hperm⟩
    · rw [h.isSome_iff] at hkey
      obtain ⟨m', hm', hwf, hperm⟩ := h.wellFormed.insert hkey value
      rw [HashMap.perform, hm']
      exact ⟨m', rfl, h.exchange hwf none (some value) (List.Perm.refl _) hperm hkey⟩
  | update key value =>
    rw [performFinite]
    split_ifs with hkey
    · obtain ⟨old, hold⟩ := Option.isSome_iff_exists.mp hkey
      obtain ⟨m', rest, hm', hwf, hperm, hperm'⟩ :=
        h.wellFormed.update ((h.mem_iff key old).mpr hold) value
      rw [HashMap.perform, hm']
      exact ⟨m', rfl, h.exchange hwf (some old) (some value) hperm hperm' (hkeys hperm)⟩
    · rw [h.isSome_iff] at hkey
      rw [HashMap.perform, h.wellFormed.update_of_not_mem hkey]
      obtain ⟨hwf, -, hperm⟩ := h.wellFormed.resizeIfNecessary
      exact ⟨_, rfl, h.of_perm hwf hperm⟩
  | delete key =>
    rw [performFinite]
    split_ifs with hkey
    · obtain ⟨old, hold⟩ := Option.isSome_iff_exists.mp hkey
      obtain ⟨m', hm', hwf, hperm⟩ := h.wellFormed.delete ((h.mem_iff key old).mpr hold)
      rw [HashMap.perform, hm']
      exact ⟨m', rfl, h.exchange hwf (some old) none hperm (List.Perm.refl _) (hkeys hperm)⟩
    · rw [h.isSome_iff] at hkey
      rw [HashMap.perform, h.wellFormed.delete_of_not_mem hop hkey]
      exact ⟨m, rfl, h⟩
  | contains key =>
    rw [HashMap.perform, h.contains_eq]
    exact ⟨m, rfl, h⟩
  | atKey key =>
    have hsome : (f key).isSome = true := (h.contains_eq key).symm.trans hop
    obtain ⟨value, hvalue⟩ := Option.isSome_iff_exists.mp hsome
    have hlen : m.data.length ≠ 0 := (h.wellFormed.bucket_split ((h.mem_iff key value).mpr hvalue)).1
    refine ⟨m, ?_, h⟩
    rw [HashMap.perform, atKey, if_neg hlen, h.find_eq, hvalue, performFinite, hvalue]
    rfl
  | resize newSize =>
    obtain ⟨hwf, -, hperm⟩ := h.wellFormed.resize hop
    exact ⟨m.resize newSize, if_neg hop, h.of_perm hwf hperm⟩

/-- **A hash map is a finite map.** In every run that deletes only from maps with buckets and asks `at` only for
keys that are there, every operation returns what it returns for a partial function from keys to values; at the
end the two have the same values, and `size` is the number of keys that the map contains. -/
theorem run_finiteMap (ops : List (Op K V))
    (h : Meets step (fun s op => s.1.Allowed op) (({}, []) : HashMap K V × List (Reply V)) ops) :
    ∃ m replies f, run step (({}, []) : HashMap K V × List (Reply V)) ops = some (m, replies) ∧
      ops.foldl finiteStep (fun _ => none, []) = (f, replies) ∧
      (∀ key, m.find key = f key ∧ m.contains key = (f key).isSome) ∧
      {key | m.contains key = true}.ncard = m.size := by
  have hrun : ∀ {m : HashMap K V} {f : K → Option V} {replies : List (Reply V)}, Agrees m f →
      Meets step (fun s op => s.1.Allowed op) (m, replies) ops →
      ∃ m' replies' f', run step (m, replies) ops = some (m', replies') ∧
        ops.foldl finiteStep (f, replies) = (f', replies') ∧ Agrees m' f' := by
    clear h
    induction ops with
    | nil => exact fun h _ => ⟨_, _, _, rfl, rfl, h⟩
    | cons op ops ih =>
      intro m f replies h hmeets
      obtain ⟨m₁, hm₁, h₁⟩ := h.perform hmeets.1
      have hstep : step (m, replies) op = some (m₁, replies ++ [(performFinite f op).1]) := by
        rw [step, hm₁]
        rfl
      rw [run_cons, hstep]
      exact ih h₁ (hmeets.2 _ hstep)
  obtain ⟨m, replies, f, hm, hf, hagrees⟩ := hrun (f := fun _ => none) ⟨wellFormed_empty, by simp [entries]⟩ h
  refine ⟨m, replies, f, hm, hf, fun key => ⟨hagrees.find_eq key, hagrees.contains_eq key⟩, ?_⟩
  exact hagrees.wellFormed.ncard_contains

/-- A map with one key, which is updated, read and deleted. -/
theorem run_finiteMap_oneKey : ∃ m replies f, run step (({}, []) : HashMap UInt64 UInt64 × List (Reply UInt64))
      [.insert 1 2, .update 1 3, .atKey 1, .resize 5, .delete 1, .contains 1] = some (m, replies) ∧
    [Op.insert (1 : UInt64) 2, .update 1 3, .atKey 1, .resize 5, .delete 1, .contains 1].foldl finiteStep
      (fun _ => none, []) = (f, replies) ∧
    {key | m.contains key = true}.ncard = m.size := by
  obtain ⟨m, replies, f, hm, hf, -, hsize⟩ := run_finiteMap
    [Op.insert (1 : UInt64) (2 : UInt64), .update 1 3, .atKey 1, .resize 5, .delete 1, .contains 1]
    (by decide +kernel)
  exact ⟨m, replies, f, hm, hf, hsize⟩

/-- **Two ways to leave the finite map**: a map without buckets divides by zero, and a key that `at`
makes is contained but not counted. -/
theorem delete_or_at_fails : run step (({}, []) : HashMap UInt64 UInt64 × List (Reply UInt64)) [.delete 1] = none ∧
    run step (({}, []) : HashMap UInt64 UInt64 × List (Reply UInt64)) [.atKey 1] = none ∧
    (run step (({}, []) : HashMap UInt64 UInt64 × List (Reply UInt64)) [.resize 1, .atKey 1]).map
      (fun s => (s.1.contains 1, s.1.size)) = some (true, 0) :=
  ⟨rfl, rfl, rfl⟩

end Acadia.Glacier.HashMap
