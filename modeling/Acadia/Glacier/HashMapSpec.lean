import Acadia.Foundations.ListUpdate
import Acadia.Glacier.HashMap
import Mathlib.Data.List.Nodup

/-! # The hash map is a map

`WellFormed` says that every pair is in the bucket for its key, and that no key occurs twice. Under
it the map is its list of pairs: `Contains` and `at` find exactly these, `Insert` adds a pair,
`Delete` removes the one with the key, and `Resize` only moves them. -/

namespace Acadia.Glacier.HashMap

open List Option Prod

variable {K V : Type} [Hash K]

/-- Every pair is in the bucket for its key. -/
def Placed (data : List (List (K × V))) : Prop :=
  ∀ (i : Nat) (b : List (K × V)), data[i]? = some b → ∀ x ∈ b, index data.length x.1 = i

/-- **Every pair is in the bucket for its key, and every key occurs once.** -/
structure WellFormed (m : HashMap K V) : Prop where
  /-- Pairs are in the buckets for their keys. -/
  placed : Placed m.data
  nodup : (m.entries.map fst).Nodup
  size : m.size = m.entries.length

theorem wellFormed_empty : WellFormed ({} : HashMap K V) :=
  ⟨fun i b h => by simp at h, nodup_nil, rfl⟩

variable {m m' : HashMap K V}

theorem getElem?_bucket (h : m.data.length ≠ 0) (key : K) : m.data[index m.data.length key]? = some (m.bucket key) := by
  have hlt : index m.data.length key < m.data.length := Nat.mod_lt _ (Nat.pos_of_ne_zero h)
  rw [bucket, getElem?_eq_getElem hlt]
  rfl

theorem WellFormed.mem_bucket_iff (h : WellFormed m) (hlen : m.data.length ≠ 0) {x : K × V} :
    x ∈ m.bucket x.1 ↔ x ∈ m.entries := by
  constructor
  · intro hx
    exact mem_flatten.mpr ⟨_, mem_of_getElem? (getElem?_bucket hlen x.1), hx⟩
  · intro hx
    obtain ⟨b, hb, hxb⟩ := mem_flatten.mp hx
    obtain ⟨i, hi⟩ := mem_iff_getElem?.mp hb
    have hindex := h.placed i b hi x hxb
    have hbucket := getElem?_bucket hlen x.1
    rw [hindex, hi, some.injEq] at hbucket
    exact hbucket ▸ hxb

omit [Hash K] in
theorem entries_of_length_eq_zero (h : m.data.length = 0) : m.entries = [] := by
  rw [entries, length_eq_zero_iff.mp h]
  rfl

/-! ## Growth -/

variable {data : List (List (K × V))}

/-- A bucket may get pairs that belong there. -/
theorem Placed.modify (h : Placed data) {i : Nat} {g : List (K × V) → List (K × V)}
    (hg : ∀ b, ∀ x ∈ g b, index data.length x.1 = i ∨ ∃ y ∈ b, y.1 = x.1) :
    Placed (data.modify i g) := by
  intro j b hb x hx
  rw [length_modify]
  rw [getElem?_modify, Option.map_eq_map, Option.map_eq_some_iff] at hb
  obtain ⟨b0, hb0, rfl⟩ := hb
  split_ifs at hx with hj
  · rcases hg b0 x hx with hi | ⟨y, hy, hyx⟩
    · exact hi.trans hj
    · exact hyx ▸ h j b0 hb0 y hy
  · exact h j b0 hb0 x hx

theorem Placed.push (h : Placed data) (x : K × V) :
    Placed (data.modify (index data.length x.1) (x :: ·)) :=
  h.modify fun b y hy => (mem_cons.mp hy).imp (fun heq => by rw [heq]) fun hold => ⟨y, hold, rfl⟩

theorem flatten_push (hlen : data.length ≠ 0) (x : K × V) :
    (data.modify (index data.length x.1) (x :: ·)).flatten ~ (x :: data.flatten) := by
  have hlt : index data.length x.1 < data.length := Nat.mod_lt _ (Nat.pos_of_ne_zero hlen)
  have hperm := ListUpdate.flatten_modify_perm (x :: ·) (getElem?_eq_getElem hlt)
  exact (perm_append_left_iff _).mp (hperm.trans perm_middle.symm)

/-- The loop of `Resize` moves the pairs. -/
theorem foldl_push {n : Nat} (hn : n ≠ 0) (pairs : List (K × V)) (hlen : data.length = n) (h : Placed data) :
    let result := pairs.foldl (fun data pair => data.modify (index n pair.1) (pair :: ·)) data
    result.length = n ∧ Placed result ∧ result.flatten ~ pairs ++ data.flatten := by
  induction pairs generalizing data with
  | nil => exact ⟨hlen, h, List.Perm.refl _⟩
  | cons x pairs ih =>
    subst hlen
    have hpush := h.push x
    obtain ⟨hlen', hplaced, hperm⟩ := ih (length_modify _ _ _) hpush
    refine ⟨hlen', hplaced, hperm.trans ?_⟩
    exact ((flatten_push hn x).append_left pairs).trans perm_middle

/-- **`Resize` keeps the pairs.** -/
theorem WellFormed.resize (h : WellFormed m) {n : Nat} (hn : n ≠ 0) :
    WellFormed (m.resize n) ∧ (m.resize n).data.length = n ∧ (m.resize n).entries ~ m.entries := by
  have hempty : Placed (List.replicate n ([] : List (K × V))) := by
    intro i b hb x hx
    rw [getElem?_replicate] at hb
    split_ifs at hb
    cases hb
    exact absurd hx not_mem_nil
  obtain ⟨hlen, hplaced, hperm⟩ := foldl_push hn m.entries length_replicate hempty
  have hnil : (List.replicate n ([] : List (K × V))).flatten = [] := by simp
  rw [hnil, append_nil] at hperm
  have hperm' : (m.resize n).entries ~ m.entries := hperm
  refine ⟨⟨hplaced, (hperm'.map fst).nodup_iff.mpr h.nodup, ?_⟩, hlen, hperm'⟩
  rw [hperm'.length_eq]
  exact h.size

/-- `ResizeIfNecessary` keeps the pairs, and leaves at least one bucket. -/
theorem WellFormed.resizeIfNecessary (h : WellFormed m) :
    WellFormed m.resizeIfNecessary ∧ m.resizeIfNecessary.data.length ≠ 0 ∧ m.resizeIfNecessary.entries ~ m.entries := by
  unfold HashMap.resizeIfNecessary
  by_cases hlen : m.data.length = 0
  · rw [if_pos hlen]
    obtain ⟨hwf, hsize, hperm⟩ := h.resize (n := 8) (by decide)
    exact ⟨hwf, by rw [hsize]; decide, hperm⟩
  rw [if_neg hlen]
  by_cases hload : m.load > 75
  · rw [if_pos hload]
    have hdouble : m.data.length * 2 ≠ 0 := by omega
    obtain ⟨hwf, hsize, hperm⟩ := h.resize hdouble
    exact ⟨hwf, by rw [hsize]; exact hdouble, hperm⟩
  · rw [if_neg hload]
    exact ⟨h, hlen, List.Perm.refl _⟩

/-! ## Searches -/

variable [DecidableEq K]

variable {key : K}

theorem WellFormed.any_bucket_iff (h : WellFormed m) (hlen : m.data.length ≠ 0) :
    (m.bucket key).any (·.1 = key) = true ↔ key ∈ m.entries.map fst := by
  rw [List.any_eq_true, List.mem_map]
  constructor
  · rintro ⟨x, hx, hkey⟩
    obtain rfl := of_decide_eq_true hkey
    exact ⟨x, (h.mem_bucket_iff hlen).mp hx, rfl⟩
  · rintro ⟨x, hx, rfl⟩
    exact ⟨x, (h.mem_bucket_iff hlen).mpr hx, decide_eq_true rfl⟩

/-- **`Contains` finds the keys.** -/
theorem WellFormed.contains_iff (h : WellFormed m) : m.contains key = true ↔ key ∈ m.entries.map fst := by
  unfold contains
  by_cases hlen : m.data.length = 0
  · rw [if_pos hlen, entries_of_length_eq_zero hlen]
    simp
  · rw [if_neg hlen]
    exact h.any_bucket_iff hlen

/-- **`at` finds the pairs.** -/
theorem WellFormed.find_eq_some_iff (h : WellFormed m) {value : V} :
    m.find key = some value ↔ (key, value) ∈ m.entries := by
  unfold find
  rw [map_eq_some_iff]
  constructor
  · rintro ⟨x, hfind, rfl⟩
    obtain rfl : x.1 = key := by simpa using List.find?_some hfind
    by_cases hlen : m.data.length = 0
    · rw [bucket, length_eq_zero_iff.mp hlen] at hfind
      cases hfind
    · exact (h.mem_bucket_iff hlen).mp (mem_of_find?_eq_some hfind)
  intro hx
  have hlen : m.data.length ≠ 0 := by
    intro hlen
    rw [entries_of_length_eq_zero hlen] at hx
    exact absurd hx not_mem_nil
  -- the first pair with the key is the only one
  have hbucket : (key, value) ∈ m.bucket key := (h.mem_bucket_iff hlen (x := (key, value))).mpr hx
  have hsome : ((m.bucket key).find? fun y => decide (y.1 = key)).isSome := by
    rw [List.find?_isSome]
    exact ⟨_, hbucket, decide_eq_true rfl⟩
  obtain ⟨y, hy⟩ := isSome_iff_exists.mp hsome
  have hykey : y.1 = key := by simpa using List.find?_some hy
  have hyentries : y ∈ m.entries := by
    refine (h.mem_bucket_iff hlen).mp ?_
    rw [hykey]
    exact mem_of_find?_eq_some hy
  refine ⟨y, hy, ?_⟩
  have hsame := inj_on_of_nodup_map h.nodup hyentries hx hykey
  rw [hsame]

/-! ## Insertion and removal -/

/-- **`Insert` adds a pair with a new key.** -/
theorem WellFormed.insert (h : WellFormed m) (hkey : key ∉ m.entries.map fst) (value : V) :
    ∃ m', m.insert key value = (.ok, m') ∧ WellFormed m' ∧ m'.entries ~ ((key, value) :: m.entries) := by
  obtain ⟨hwf, hlen, hperm⟩ := h.resizeIfNecessary
  have hkey' : key ∉ m.resizeIfNecessary.entries.map fst := fun hmem =>
    hkey ((hperm.map fst).subset hmem)
  have hnone : ¬ (m.resizeIfNecessary.bucket key).any (·.1 = key) = true := fun hany =>
    hkey' ((hwf.any_bucket_iff hlen).mp hany)
  have hadd := flatten_push hlen (key, value)
  refine ⟨_, by rw [HashMap.insert, if_neg hnone], ⟨hwf.placed.push (key, value), ?_, ?_⟩, ?_⟩
  · refine (hadd.map fst).nodup_iff.mpr ?_
    rw [map_cons, nodup_cons]
    exact ⟨hkey', hwf.nodup⟩
  · show m.resizeIfNecessary.size + 1 = _
    rw [hwf.size]
    exact hadd.length_eq.symm
  · exact hadd.trans (hperm.cons _)

/-- `Insert` does not replace a pair. -/
theorem WellFormed.insert_of_mem (h : WellFormed m) (hkey : key ∈ m.entries.map fst)
    (value : V) : m.insert key value = (.alreadyExists, m.resizeIfNecessary) := by
  obtain ⟨hwf, hlen, hperm⟩ := h.resizeIfNecessary
  have hany : (m.resizeIfNecessary.bucket key).any (·.1 = key) = true :=
    (hwf.any_bucket_iff hlen).mpr ((hperm.map fst).symm.subset hkey)
  rw [HashMap.insert, if_pos hany]

theorem WellFormed.bucket_split (h : WellFormed m) {value : V} (hmem : (key, value) ∈ m.entries) :
    m.data.length ≠ 0 ∧ (m.bucket key).any (·.1 = key) = true ∧
      ∃ l1 l2, m.bucket key = l1 ++ (key, value) :: l2 ∧ ∀ x ∈ l1, x.1 ≠ key := by
  have hlen : m.data.length ≠ 0 := by
    intro hlen
    rw [entries_of_length_eq_zero hlen] at hmem
    exact absurd hmem not_mem_nil
  have hin : (key, value) ∈ m.bucket key := (h.mem_bucket_iff hlen (x := (key, value))).mpr hmem
  refine ⟨hlen, (h.any_bucket_iff hlen).mpr (mem_map_of_mem hmem), ?_⟩
  -- the first pair of the bucket with the key is the one
  obtain ⟨y, l1, l2, hbefore, hy, hsplit, -⟩ :=
    exists_of_eraseP (p := fun x : K × V => decide (x.1 = key)) hin (decide_eq_true rfl)
  have hyentries : y ∈ m.entries :=
    mem_flatten.mpr ⟨_, mem_of_getElem? (getElem?_bucket hlen key), by rw [hsplit]; simp⟩
  obtain rfl : y = (key, value) :=
    inj_on_of_nodup_map h.nodup hyentries hmem (of_decide_eq_true hy)
  exact ⟨l1, l2, hsplit, fun x hx => of_decide_eq_false (Bool.eq_false_iff.mpr (hbefore x hx))⟩

/-- **`Delete` removes the pair with the key.** -/
theorem WellFormed.delete (h : WellFormed m) {value : V} (hmem : (key, value) ∈ m.entries) :
    ∃ m', m.delete key = some (.ok, m') ∧ WellFormed m' ∧ m.entries ~ ((key, value) :: m'.entries) := by
  obtain ⟨hlen, hany, l1, l2, hsplit, hbefore⟩ := h.bucket_split hmem
  have herase : (m.bucket key).eraseP (·.1 = key) = l1 ++ l2 := by
    rw [hsplit, eraseP_append_right _ (by simpa using hbefore), eraseP_cons_of_pos (by simp)]
  have hperm : m.entries ~ ((key, value) ::
      (m.data.modify (index m.data.length key) (eraseP (·.1 = key))).flatten) := by
    have hchange := ListUpdate.flatten_modify_perm (eraseP (·.1 = key)) (getElem?_bucket hlen key)
    rw [herase, hsplit] at hchange
    refine ((perm_append_left_iff (l1 ++ l2)).mp (hchange.symm.trans ?_))
    exact (perm_middle.append_right _).trans (perm_middle (a := (key, value))).symm
  refine ⟨⟨m.data.modify (index m.data.length key) (eraseP (·.1 = key)), m.size - 1⟩,
    by rw [HashMap.delete, if_neg hlen, if_pos hany], ⟨?_, ?_, ?_⟩, hperm⟩
  · exact h.placed.modify fun b x hx => Or.inr ⟨x, mem_of_mem_eraseP hx, rfl⟩
  · have hnodup := (hperm.map fst).nodup_iff.mp h.nodup
    rw [map_cons, nodup_cons] at hnodup
    exact hnodup.2
  · show m.size - 1 = _
    rw [h.size, hperm.length_eq, length_cons]
    rfl

/-- `Delete` of a key that is not there. -/
theorem WellFormed.delete_of_not_mem (h : WellFormed m) (hlen : m.data.length ≠ 0)
    (hkey : key ∉ m.entries.map fst) : m.delete key = some (.notFound, m) := by
  have hany : ¬ (m.bucket key).any (·.1 = key) = true := fun hany =>
    hkey ((h.any_bucket_iff hlen).mp hany)
  rw [HashMap.delete, if_neg hlen, if_neg hany]

/-- A map stays well formed, whatever `Insert` returns. -/
theorem WellFormed.of_insert (h : WellFormed m) {value : V} {code : ErrorCode}
    (hinsert : m.insert key value = (code, m')) : WellFormed m' := by
  by_cases hkey : key ∈ m.entries.map fst
  · rw [h.insert_of_mem hkey] at hinsert
    cases hinsert
    exact h.resizeIfNecessary.1
  · obtain ⟨m1, hm1, hwf, -⟩ := h.insert hkey value
    rw [hm1] at hinsert
    cases hinsert
    exact hwf

/-- A map stays well formed, whatever `Delete` returns. -/
theorem WellFormed.of_delete (h : WellFormed m) {code : ErrorCode}
    (hdelete : m.delete key = some (code, m')) : WellFormed m' := by
  by_cases hkey : key ∈ m.entries.map fst
  · obtain ⟨⟨key, value⟩, hmem, rfl⟩ := mem_map.mp hkey
    obtain ⟨m1, hm1, hwf, -⟩ := h.delete hmem
    rw [hm1] at hdelete
    cases hdelete
    exact hwf
  · by_cases hlen : m.data.length = 0
    · rw [HashMap.delete, if_pos hlen] at hdelete
      cases hdelete
    · rw [h.delete_of_not_mem hlen hkey] at hdelete
      cases hdelete
      exact h

end Acadia.Glacier.HashMap
