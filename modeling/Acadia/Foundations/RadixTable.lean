import Acadia.Foundations.Runs
import Mathlib.Data.List.Nodup
import Mathlib.Data.List.Pairwise
import Mathlib.Algebra.Order.BigOperators.Group.List
import Mathlib.Algebra.Order.Group.Nat

/-! # Radix tables in memory

A radix table is a tree of frames in a memory `m : F → I → E`: an entry of a frame is absent, or points to the
next frame, or is *large* and ends the walk early. `translate` is the walk of a memory management unit. That
`frames`, the list of the frames of a table, has no frame twice, and none that the allocator could still hand
out, keeps a change of one path from showing on another (`Changed`). -/

namespace RadixTable

open List Function List.Forall₂

/-- What the entries of a table mean. -/
structure Format (F E : Type*) where
  /-- The entry is in use. -/
  present : E → Bool
  /-- The entry ends a walk although more indices follow. -/
  large : E → Bool
  /-- The frame that the entry points to. -/
  target : E → F

variable {F I E A : Type*} (fmt : Format F E)

/-- **The walk from a frame along a path of indices**: the entry that it ends at and the indices
left over, or nothing if it meets an absent entry. -/
def translate (m : F → I → E) : F → List I → Option (E × List I)
  | _, [] => none
  | f, [i] => if fmt.present (m f i) then some (m f i, []) else none
  | f, i :: j :: p =>
    if fmt.present (m f i) then
      if fmt.large (m f i) then some (m f i, j :: p)
      else translate m (fmt.target (m f i)) (j :: p)
    else none

/-- The frames of the table at `f`; the indices of each level are listed in `ix`. -/
def frames (m : F → I → E) : List (List I) → F → List F
  | [], _ => []
  | is :: ix, f => f :: is.flatMap fun i =>
    if fmt.present (m f i) then frames m ix (fmt.target (m f i)) else []

/-- No entry above the last level is large. -/
def Regular (m : F → I → E) : List (List I) → F → Prop
  | [], _ => True
  | [_], _ => True
  | is :: js :: ix, f => ∀ i ∈ is, fmt.present (m f i) = true →
    fmt.large (m f i) = false ∧ Regular m (js :: ix) (fmt.target (m f i))

/-- Whether a finite table is regular can be computed by a walk through it. -/
instance decidableRegular (m : F → I → E) : (ix : List (List I)) → (f : F) →
    Decidable (Regular fmt m ix f)
  | [], _ => isTrue trivial
  | [_], _ => isTrue trivial
  | is :: js :: ix, f =>
    haveI : ∀ g, Decidable (Regular fmt m (js :: ix) g) := decidableRegular m (js :: ix)
    show Decidable (∀ i ∈ is, fmt.present (m f i) = true →
      fmt.large (m f i) = false ∧ Regular fmt m (js :: ix) (fmt.target (m f i))) from
    inferInstance

variable {fmt}

/-! ## What a table depends on -/

variable {m m' n : F → I → E} {is p path : List I} {ix ix' : List (List I)} {f g : F}

theorem mem_frames_self : f ∈ frames fmt m (is :: ix) f := by
  exact mem_cons_self

variable {i j : I}

theorem frames_subset (hi : i ∈ is) (hp : fmt.present (m f i) = true) :
    frames fmt m ix (fmt.target (m f i)) ⊆ frames fmt m (is :: ix) f := by
  intro g hg
  exact mem_cons_of_mem _ (mem_flatMap.mpr ⟨i, hi, by rwa [if_pos hp]⟩)

/-- The frames of a table depend on their own contents only. -/
theorem frames_congr (h : ∀ g ∈ frames fmt m ix f, m' g = m g) : frames fmt m' ix f = frames fmt m ix f := by
  induction ix generalizing f with
  | nil => rfl
  | cons _ _ ih =>
    rw [frames, frames, h f mem_frames_self]
    congr 1
    refine flatMap_congr fun i hi => ?_
    by_cases hp : fmt.present (m f i) = true
    · rw [if_pos hp, if_pos hp]
      exact ih fun g hg => h g (frames_subset hi hp hg)
    · rw [if_neg hp, if_neg hp]

/-- Regularity depends on the frames of the table only. -/
theorem Regular.congr (hr : Regular fmt m ix f) (h : ∀ g ∈ frames fmt m ix f, m' g = m g) : Regular fmt m' ix f := by
  induction ix generalizing f with
  | nil => trivial
  | cons _ ix ih =>
    cases ix with
    | nil => trivial
    | cons =>
      intro i hi hp
      rw [h f mem_frames_self] at hp ⊢
      obtain ⟨hlarge, hrest⟩ := hr i hi hp
      exact ⟨hlarge, ih hrest fun g hg => h g (frames_subset hi hp hg)⟩

/-- A walk in a regular table depends on the frames of the table only. -/
theorem translate_congr (hp : List.Forall₂ (· ∈ ·) p ix) (h : ∀ g ∈ frames fmt m ix f, m' g = m g) :
    translate fmt m' f p = translate fmt m f p := by
  induction hp generalizing f with
  | nil => rfl
  | @cons i is p ix hi hp ih =>
    have hf := h f mem_frames_self
    cases hp with
    | nil => rw [translate, translate, hf]
    | @cons j js p ix hj hp =>
      rw [translate, translate, hf]
      by_cases hpres : fmt.present (m f i) = true
      · rw [if_pos hpres, if_pos hpres, ih fun g hg => h g (frames_subset hi hpres hg)]
      · rw [if_neg hpres, if_neg hpres]

/-! ## A table in which one index changes -/

theorem frames_blank (h : ∀ i ∈ is, fmt.present (m f i) = false) : frames fmt m (is :: ix) f = [f] := by
  rw [frames, flatMap_eq_nil_iff.mpr]
  intro i hi
  rw [if_neg (by simp [h i hi])]

theorem translate_blank (h : ∀ i, fmt.present (m f i) = false) (p : List I) : translate fmt m f p = none := by
  rcases p with - | ⟨i, - | ⟨j, p⟩⟩
  · rfl
  all_goals rw [translate, if_neg (by simp [h i])]

theorem regular_blank (h : ∀ i ∈ is, fmt.present (m f i) = false) : Regular fmt m (is :: ix) f := by
  cases ix with
  | nil => trivial
  | cons =>
    intro i hi hp
    simp [h i hi] at hp

/-- The frames below one index of a table. -/
def subframes (fmt : Format F E) (m : F → I → E) (ix : List (List I)) (f : F) (i : I) : List F :=
  if fmt.present (m f i) then frames fmt m ix (fmt.target (m f i)) else []

theorem frames_cons (m : F → I → E) (is : List I) (ix : List (List I)) (f : F) :
    frames fmt m (is :: ix) f = f :: is.flatMap (subframes fmt m ix f) := rfl

theorem subframes_congr (he : m' f i = m f i) (h : ∀ g ∈ subframes fmt m ix f i, m' g = m g) :
    subframes fmt m' ix f i = subframes fmt m ix f i := by
  rw [subframes, subframes, he]
  by_cases hp : fmt.present (m f i) = true
  · rw [if_pos hp, if_pos hp]
    exact frames_congr fun g hg => h g (by rwa [subframes, if_pos hp])
  · rw [if_neg hp, if_neg hp]

variable {free free' : List F}

/-- **The frames of a table in which only one index changes.** What the frames below that index and
the free frames exchange, the whole table and the free frames exchange. -/
theorem frames_perm_of_subframes (his : is.Nodup) (hi : i ∈ is)
    (hrest : ∀ j ∈ is, j ≠ i → subframes fmt m' ix f j = subframes fmt m ix f j)
    (hperm : List.Perm (subframes fmt m' ix f i ++ free') (subframes fmt m ix f i ++ free)) :
    List.Perm (frames fmt m' (is :: ix) f ++ free') (frames fmt m (is :: ix) f ++ free) := by
  classical
  obtain ⟨pre, post, rfl⟩ := append_of_mem hi
  rw [nodup_append, nodup_cons] at his
  have hpre : pre.flatMap (subframes fmt m' ix f) = pre.flatMap (subframes fmt m ix f) :=
    flatMap_congr fun j hj =>
      hrest j (by simp [hj]) fun heq => his.2.2 j hj i (by simp) heq
  have hpost : post.flatMap (subframes fmt m' ix f) = post.flatMap (subframes fmt m ix f) :=
    flatMap_congr fun j hj =>
      hrest j (by simp [hj]) fun heq => his.2.1.1 (heq ▸ hj)
  rw [frames_cons, frames_cons, flatMap_append, flatMap_cons, flatMap_append, flatMap_cons, hpre, hpost]
  rw [perm_iff_count] at hperm ⊢
  intro g
  have hcount := hperm g
  simp only [count_cons, count_append] at hcount ⊢
  omega

/-- In a table without aliases, the frames below one index are apart from the root, from the frames
below another index, and from the free frames. -/
theorem nodup_subframes (hnd : (frames fmt m (is :: ix) f ++ free).Nodup) (hi : i ∈ is) :
    (subframes fmt m ix f i ++ free).Nodup ∧ f ∉ subframes fmt m ix f i ∧ f ∉ free ∧
      ∀ j ∈ is, j ≠ i → ∀ g ∈ subframes fmt m ix f j, g ∉ subframes fmt m ix f i ∧ g ∉ free ∧ g ≠ f := by
  rw [frames_cons, cons_append, nodup_cons] at hnd
  obtain ⟨hroot, hnd⟩ := hnd
  obtain ⟨hsub, hfree, hdisj⟩ := nodup_append.mp hnd
  have hmem : ∀ j ∈ is, ∀ g ∈ subframes fmt m ix f j, g ∈ is.flatMap (subframes fmt m ix f) :=
    fun j hj g hg => mem_flatMap.mpr ⟨j, hj, hg⟩
  refine ⟨nodup_append.mpr ⟨(nodup_flatMap.mp hsub).1 i hi, hfree, fun g hg => hdisj g (hmem i hi g hg)⟩, ?_, ?_, ?_⟩
  · exact fun hin => hroot (mem_append_left _ (hmem i hi f hin))
  · exact fun hin => hroot (mem_append_right _ hin)
  · intro j hj hne g hg
    refine ⟨fun hgi => ?_, fun hgf => hdisj g (hmem j hj g hg) g hgf rfl, fun heq => ?_⟩
    · have hpair := (nodup_flatMap.mp hsub).2
      have : Std.Symm (Function.onFun List.Disjoint (subframes fmt m ix f)) :=
        ⟨fun _ _ hxy _ hy hx => hxy hx hy⟩
      exact hpair.forall hj hi hne hg hgi
    · exact hroot (mem_append_left _ (hmem j hj f (heq ▸ hg)))

theorem translate_of_head_ne (hp : List.Forall₂ (· ∈ ·) (i :: p) (is :: ix)) (he : m' f i = m f i)
    (h : ∀ g ∈ subframes fmt m ix f i, m' g = m g) : translate fmt m' f (i :: p) = translate fmt m f (i :: p) := by
  rcases hp with - | ⟨hi, hp⟩
  cases hp with
  | nil => rw [translate, translate, he]
  | @cons j js p ix hj hp =>
    rw [translate, translate, he]
    by_cases hpres : fmt.present (m f i) = true
    · rw [if_pos hpres, if_pos hpres,
        translate_congr (cons hj hp) fun g hg => h g (by rwa [subframes, if_pos hpres])]
    · rw [if_neg hpres, if_neg hpres]

/-- The format in which no entry counts as large. -/
def Format.unsized (fmt : Format F E) : Format F E := { fmt with large := fun _ => false }

theorem translate_unsized (h : Regular fmt m ix f) (hp : List.Forall₂ (· ∈ ·) p ix) :
    translate fmt.unsized m f p = translate fmt m f p := by
  induction hp generalizing f with
  | nil => rfl
  | @cons i is p ix hi hp ih =>
    cases hp with
    | nil => rfl
    | @cons j js p ix hj hp =>
      rw [translate, translate]
      by_cases hpres : fmt.present (m f i) = true
      · obtain ⟨hlarge, hrest⟩ := h i hi hpres
        rw [if_pos (show fmt.unsized.present (m f i) = true from hpres), if_pos hpres,
          if_neg (by simp [Format.unsized]), if_neg (by simp [hlarge])]
        exact ih hrest
      · rw [if_neg (show ¬ fmt.unsized.present (m f i) = true from hpres), if_neg hpres]

/-! ## The entries that a walk reads -/

/-- The entries that a walk reads, by frame and index. -/
def visits (fmt : Format F E) (m : F → I → E) : F → List I → List (F × I)
  | _, [] => []
  | f, [i] => [(f, i)]
  | f, i :: j :: p =>
    (f, i) :: if fmt.present (m f i) && !fmt.large (m f i) then
      visits fmt m (fmt.target (m f i)) (j :: p) else []

/-- A walk depends on the entries that it reads only. -/
theorem translate_congr_visits (h : ∀ x ∈ visits fmt m f p, m' x.1 x.2 = m x.1 x.2) :
    translate fmt m' f p = translate fmt m f p ∧ visits fmt m' f p = visits fmt m f p := by
  induction p generalizing f with
  | nil => exact ⟨rfl, rfl⟩
  | cons i p ih =>
    cases p with
    | nil =>
      have hi : m' f i = m f i := h (f, i) (by simp [visits])
      exact ⟨by rw [translate, translate, hi], rfl⟩
    | cons =>
      have hi : m' f i = m f i := h (f, i) (by simp [visits])
      rw [translate, translate, visits, visits, hi]
      by_cases hpres : fmt.present (m f i) = true
      · by_cases hlarge : fmt.large (m f i) = true
        · simp [hpres, hlarge]
        · have hcond : (fmt.present (m f i) && !fmt.large (m f i)) = true := by
            simp [hpres, hlarge]
          obtain ⟨htrans, hvis⟩ := ih (f := fmt.target (m f i)) fun x hx =>
            h x (by rw [visits, if_pos hcond]; exact mem_cons_of_mem _ hx)
          rw [if_pos hpres, if_pos hpres, if_neg hlarge, if_neg hlarge, if_pos hcond, if_pos hcond, htrans, hvis]
          exact ⟨rfl, rfl⟩
      · simp [hpres]

/-- Entries that only become absent can only end a walk earlier. -/
theorem visits_isPrefix_of_cleared (h : ∀ g k, m' g k = m g k ∨ fmt.present (m' g k) = false)
    (f : F) (p : List I) : visits fmt m' f p <+: visits fmt m f p := by
  induction p generalizing f with
  | nil => exact prefix_rfl
  | cons i p ih =>
    cases p with
    | nil => exact prefix_rfl
    | cons =>
      rw [visits, visits, prefix_cons_inj]
      rcases h f i with heq | habsent
      · rw [heq]
        split
        · exact ih _
        · exact prefix_rfl
      · rw [if_neg (by simp [habsent])]
        exact ⟨_, nil_append _⟩

theorem mem_frames_of_visits (hp : List.Forall₂ (· ∈ ·) p ix) {x : F × I}
    (hx : x ∈ visits fmt m f p) : x.1 ∈ frames fmt m ix f := by
  induction hp generalizing f with
  | nil => simp [visits] at hx
  | @cons i is p ix hi hp ih =>
    cases hp with
    | nil =>
      rw [visits, mem_singleton] at hx
      rw [hx]
      exact mem_frames_self
    | @cons j js p ix hj hp =>
      rw [visits, mem_cons] at hx
      rcases hx with rfl | hx
      · exact mem_frames_self
      · by_cases hpres : fmt.present (m f i) = true
        · by_cases hlarge : fmt.large (m f i) = true
          · simp [hpres, hlarge] at hx
          · rw [if_pos (by simp [hpres, hlarge])] at hx
            exact frames_subset hi hpres (ih hx)
        · simp [hpres] at hx

/-! ## Part of a table -/

theorem length_subframes_le (h : ∀ g, (frames fmt m ix g).length ≤ (frames fmt m ix' g).length) :
    (subframes fmt m ix f i).length ≤ (subframes fmt m ix' f i).length := by
  rw [subframes, subframes]
  split
  · exact h _
  · exact le_refl _

theorem length_frames_le (hsub : List.Forall₂ List.Sublist ix ix') (f : F) :
    (frames fmt m ix f).length ≤ (frames fmt m ix' f).length := by
  induction hsub generalizing f with
  | nil => exact le_refl _
  | @cons is is' ix ix' his hsub ih =>
    rw [frames_cons, frames_cons, length_cons, length_cons, length_flatMap, length_flatMap]
    apply Nat.succ_le_succ
    calc (is.map fun i => (subframes fmt m ix f i).length).sum
        ≤ (is.map fun i => (subframes fmt m ix' f i).length).sum :=
          sum_le_sum fun i _ => length_subframes_le ih
      _ ≤ (is'.map fun i => (subframes fmt m ix' f i).length).sum :=
          (his.map _).sum_le_sum fun _ _ => Nat.zero_le _

variable {e blank : E}

/-- **A path that leaves the part of the table** before its last index leads to a frame that the part
does not have. -/
theorem length_frames_lt (hsub : List.Forall₂ List.Sublist ix ix') (hp : List.Forall₂ (· ∈ ·) p ix')
    (hnot : ¬ List.Forall₂ (· ∈ ·) p.dropLast ix.dropLast) (htranslate : translate fmt m f p = some (e, [])) :
    (frames fmt m ix f).length < (frames fmt m ix' f).length := by
  classical
  induction hsub generalizing f p with
  | nil =>
    cases hp
    cases htranslate
  | @cons is is' ix ix' his hsub ih =>
    obtain - | ⟨hi, hp⟩ := hp
    rename_i i p
    obtain - | ⟨hjs, hsub'⟩ := hsub
    · -- the last index leads to no frame
      cases hp
      exact absurd nil hnot
    rename_i js js' jx jx'
    obtain - | ⟨hj, hp'⟩ := hp
    have hle : ∀ g, (frames fmt m (js :: jx) g).length ≤ (frames fmt m (js' :: jx') g).length :=
      length_frames_le (cons hjs hsub')
    rw [translate] at htranslate
    split at htranslate
    case isFalse => cases htranslate
    case isTrue hpresent =>
      split at htranslate
      case isTrue => cases htranslate
      case isFalse =>
        rw [frames_cons, frames_cons, length_cons, length_cons, length_flatMap, length_flatMap]
        apply Nat.succ_lt_succ
        have hwhole : (is.map fun i => (subframes fmt m (js' :: jx') f i).length).sum ≤
            (is'.map fun i => (subframes fmt m (js' :: jx') f i).length).sum :=
          (his.map _).sum_le_sum fun _ _ => Nat.zero_le _
        have hpart : (is.map fun i => (subframes fmt m (js :: jx) f i).length).sum ≤
            (is.map fun i => (subframes fmt m (js' :: jx') f i).length).sum :=
          sum_le_sum fun i _ => length_subframes_le hle
        by_cases hmem : i ∈ is
        · -- the path leaves the part below `i`
          refine Nat.lt_of_lt_of_le (sum_lt_sum _ _ (fun i _ => length_subframes_le hle) ⟨i, hmem, ?_⟩) hwhole
          rw [subframes, subframes, if_pos hpresent, if_pos hpresent]
          refine ih (cons hj hp') (fun hrest => hnot ?_) htranslate
          exact cons hmem hrest
        -- the part has nothing below `i`
        have herase : is.Sublist (is'.erase i) := by
          have hsublist := his.erase i
          rwa [erase_of_not_mem hmem] at hsublist
        have hone : 0 < (subframes fmt m (js' :: jx') f i).length := by
          rw [subframes, if_pos hpresent, frames_cons]
          exact Nat.succ_pos _
        have hsum := sum_map_erase (fun i => (subframes fmt m (js' :: jx') f i).length) hi
        have hrest : (is.map fun i => (subframes fmt m (js' :: jx') f i).length).sum ≤
            ((is'.erase i).map fun i => (subframes fmt m (js' :: jx') f i).length).sum :=
          (herase.map _).sum_le_sum fun _ _ => Nat.zero_le _
        omega

/-! ## Changing a table -/

variable [DecidableEq F]

/-- Fill a frame with one entry. -/
def clear (m : F → I → E) (f : F) (blank : E) : F → I → E :=
  Function.update m f fun _ => blank

theorem clear_self (m : F → I → E) (f : F) (blank : E) : clear m f blank f = fun _ => blank :=
  update_self ..

theorem clear_of_ne (h : g ≠ f) (blank : E) : clear m f blank g = m g :=
  update_of_ne h ..

variable [DecidableEq I]

/-- Store one entry. -/
def write (m : F → I → E) (f : F) (i : I) (e : E) : F → I → E :=
  Function.update m f (Function.update (m f) i e)

theorem write_of_ne (h : g ≠ f) (i : I) (e : E) : write m f i e g = m g :=
  update_of_ne h ..

theorem write_self (m : F → I → E) (f : F) (i : I) (e : E) : write m f i e f i = e := by
  rw [write, update_self, update_self]

theorem write_index_ne (h : j ≠ i) (e : E) : write m f i e f j = m f j := by
  rw [write, update_self, update_of_ne h]

theorem write_congr (hg : n g = m g) (hf : n f = m f) (i : I) (e : E) : write n f i e g = write m f i e g := by
  by_cases h : g = f
  · rw [h, write, write, update_self, update_self, hf]
  · rw [write_of_ne h, write_of_ne h, hg]

variable (fmt)

/-- **Install an entry at the end of a path**, with new frames for the tables that are missing.
There is no result when the entry is in use or the allocator fails. -/
def mapPath (alloc : A → Option (F × A)) (blank : E) (link : F → E) (e : E) :
    (F → I → E) → A → F → List I → Option ((F → I → E) × A)
  | _, _, _, [] => none
  | m, a, f, [i] => if fmt.present (m f i) then none else some (write m f i e, a)
  | m, a, f, i :: j :: p =>
    if fmt.present (m f i) then mapPath alloc blank link e m a (fmt.target (m f i)) (j :: p)
    else (alloc a).bind fun (g, a) =>
      mapPath alloc blank link e (write (clear m g blank) f i (link g)) a (fmt.target (link g))
        (j :: p)

/-- **Change the entry at the end of a path**, if every table on the way is there. -/
def modifyPath (change : E → E) (m : F → I → E) : F → List I → F → I → E
  | _, [] => m
  | f, [i] => if fmt.present (m f i) then write m f i (change (m f i)) else m
  | f, i :: j :: p =>
    if fmt.present (m f i) then modifyPath change m (fmt.target (m f i)) (j :: p) else m

variable {fmt}

theorem modifyPath_apply (change : E → E) (m : F → I → E) (f : F) (p : List I) (g : F) (k : I) :
    modifyPath fmt change m f p g k = m g k ∨
      (g, k) ∈ visits fmt.unsized m f p ∧ modifyPath fmt change m f p g k = change (m g k) := by
  induction p generalizing f with
  | nil => exact Or.inl rfl
  | cons i p ih =>
    cases p with
    | nil =>
      rw [modifyPath]
      split
      · by_cases hg : g = f
        · subst hg
          by_cases hk : k = i
          · subst hk
            exact Or.inr ⟨mem_singleton_self _, write_self ..⟩
          · exact Or.inl (write_index_ne hk _)
        · exact Or.inl (by rw [write_of_ne hg])
      · exact Or.inl rfl
    | cons =>
      rw [modifyPath]
      split_ifs with hp
      · refine (ih _).imp_right fun hchange => ⟨?_, hchange.2⟩
        have hcond : (fmt.unsized.present (m f i) && !fmt.unsized.large (m f i)) = true := by
          simp [Format.unsized, hp]
        rw [visits, if_pos hcond]
        exact mem_cons_of_mem _ hchange.1
      · exact Or.inl rfl

/-! ## A change along one path -/

/-- **A table in which one path changes**: frames move between the free ones and the table, and only the
walk along the path may be another one. -/
structure Changed (fmt : Format F E) (m m' : F → I → E) (ix : List (List I)) (f : F) (path : List I)
    (free free' : List F) : Prop where
  /-- The table and the free frames exchange frames. -/
  perm : List.Perm (frames fmt m' ix f ++ free') (frames fmt m ix f ++ free)
  subset : free' ⊆ free
  /-- Nothing outside the table and the free frames is written. -/
  outside : ∀ g, g ∉ frames fmt m ix f → g ∉ free → m' g = m g
  /-- The root is written at the first index of the path only. -/
  root : ∀ i, path.head? ≠ some i → m' f i = m f i
  regular : Regular fmt m' ix f
  elsewhere : ∀ p, List.Forall₂ (· ∈ ·) p ix → p ≠ path → translate fmt m' f p = translate fmt m f p

omit [DecidableEq F] [DecidableEq I] in
theorem Changed.refl (hreg : Regular fmt m ix f) : Changed fmt m m ix f path free free :=
  ⟨.refl _, fun _ hg => hg, fun _ _ _ => rfl, fun _ _ => rfl, hreg, fun _ _ _ => rfl⟩

theorem changed_leaf (e : E) : Changed fmt m (write m f i e) [is] f [i] free free := by
  have hone : ∀ m : F → I → E, frames fmt m [is] f = [f] := by
    simp [frames]
  refine ⟨?_, fun g hg => hg, ?_, ?_, trivial, ?_⟩
  · rw [hone, hone]
  · intro g hg _
    rw [hone, mem_singleton] at hg
    exact write_of_ne hg i e
  · intro j hj
    exact write_index_ne (fun heq => hj (by rw [heq]; rfl)) e
  · intro p hp hne
    obtain ⟨j, -, rfl⟩ : ∃ j, j ∈ is ∧ p = [j] := by
      rcases hp with - | ⟨hj, hp⟩
      cases hp
      exact ⟨_, hj, rfl⟩
    rw [translate, translate, write_index_ne (fun heq => hne (by rw [heq])) e]

omit [DecidableEq F] in
/-- **From the table below an index to the whole table.** The memory `m1` is `m` with the table below
the index `i` already linked; what is then done to that table is done to the whole one. -/
theorem Changed.lift (m1 : F → I → E) {js : List I} {free1 : List F} (his : is.Nodup) (hi : i ∈ is)
    (hnd : (frames fmt m (is :: js :: ix) f ++ free).Nodup) (hreg : Regular fmt m (is :: js :: ix) f)
    (hp1 : fmt.present (m1 f i) = true) (hl1 : fmt.large (m1 f i) = false)
    (hindex : ∀ k, k ≠ i → m1 f k = m f k) (hframe : ∀ g, g ≠ f → g ∉ free → m1 g = m g)
    (hperm : List.Perm (subframes fmt m1 (js :: ix) f i ++ free1) (subframes fmt m (js :: ix) f i ++ free))
    (hsub : free1 ⊆ free)
    (hwalk : ∀ q k, translate fmt m1 (fmt.target (m1 f i)) (k :: q) = translate fmt m f (i :: k :: q))
    (h : Changed fmt m1 m' (js :: ix) (fmt.target (m1 f i)) (j :: p) free1 free') :
    Changed fmt m m' (is :: js :: ix) f (i :: j :: p) free free' ∧
      translate fmt m' f (i :: j :: p) = translate fmt m' (fmt.target (m1 f i)) (j :: p) := by
  obtain ⟨hndi, hfi, hff, hother⟩ := nodup_subframes hnd hi
  have hsubs : subframes fmt m1 (js :: ix) f i = frames fmt m1 (js :: ix) (fmt.target (m1 f i)) := by
    rw [subframes, if_pos hp1]
  -- what is neither below `i` nor free is not touched below `i`
  have happart : ∀ g, g ∉ subframes fmt m (js :: ix) f i → g ∉ free → m' g = m1 g := by
    intro g hg hgf
    have hnot : g ∉ subframes fmt m1 (js :: ix) f i ++ free1 := fun hin => by
      rcases mem_append.mp (hperm.subset hin) with hin | hin
      exacts [hg hin, hgf hin]
    rw [mem_append, not_or, hsubs] at hnot
    exact h.outside g hnot.1 hnot.2
  have hf : m' f = m1 f := happart f hfi hff
  have hbelow : ∀ k ∈ is, k ≠ i → ∀ g ∈ subframes fmt m (js :: ix) f k, m' g = m g := by
    intro k hk hki g hg
    obtain ⟨hgi, hgf, hne⟩ := hother k hk hki g hg
    rw [happart g hgi hgf, hframe g hne hgf]
  refine ⟨⟨?_, fun g hg => hsub (h.subset hg), ?_, ?_, ?_, ?_⟩, ?_⟩
  · refine frames_perm_of_subframes his hi (fun k hk hki => ?_) ?_
    · exact subframes_congr (by rw [hf, hindex k hki]) (hbelow k hk hki)
    · refine List.Perm.trans ?_ hperm
      rw [hsubs, subframes, hf, if_pos hp1]
      exact h.perm
  · intro g hg hgf
    rw [frames_cons, mem_cons, not_or] at hg
    have hgi : g ∉ subframes fmt m (js :: ix) f i :=
      fun hin => hg.2 (mem_flatMap.mpr ⟨i, hi, hin⟩)
    rw [happart g hgi hgf, hframe g hg.1 hgf]
  · intro k hk
    rw [hf]
    exact hindex k fun heq => hk (by rw [heq]; rfl)
  · intro k hk hpk
    by_cases hki : k = i
    · subst hki
      rw [hf]
      exact ⟨hl1, h.regular⟩
    · have hek : m' f k = m f k := by rw [hf, hindex k hki]
      rw [hek] at hpk ⊢
      obtain ⟨hlarge, hrest⟩ := hreg k hk hpk
      exact ⟨hlarge, hrest.congr fun g hg => hbelow k hk hki g (by rwa [subframes, if_pos hpk])⟩
  · intro q hq hne
    obtain - | ⟨hk, hq⟩ := hq
    rename_i k q
    by_cases hki : k = i
    · subst hki
      obtain - | ⟨hl, hq'⟩ := hq
      rename_i l q
      have hqne : l :: q ≠ j :: p := fun heq => hne (by rw [heq])
      rw [translate, hf, if_pos hp1, if_neg (by simp [hl1]), h.elsewhere _ (cons hl hq') hqne, hwalk]
    · exact translate_of_head_ne (cons hk hq) (by rw [hf, hindex k hki]) (hbelow k hk hki)
  · rw [translate, hf, if_pos hp1, if_neg (by simp [hl1])]

/-! ## Installing an entry -/

/-- **What installing an entry does to a table.** -/
structure Mapped (fmt : Format F E) (m m' : F → I → E) (ix : List (List I)) (f : F) (path : List I)
    (e : E) (free free' : List F) : Prop extends Changed fmt m m' ix f path free free' where
  before : translate fmt m f path = none
  here : translate fmt m' f path = some (e, [])

variable {alloc : A → Option (F × A)}

/-- **`mapPath` installs its entry**, if the table has no aliases and the allocator hands out frames
that the links can name. -/
theorem mapped_of_mapPath {link : F → E} (free : A → List F)
    (halloc : ∀ a g a', alloc a = some (g, a') → List.Perm (g :: free a') (free a)) (hblank : fmt.present blank = false)
    (he : fmt.present e = true) {a a' : A} (hpath : List.Forall₂ (· ∈ ·) path ix) (hix : ∀ is ∈ ix, is.Nodup)
    (hnd : (frames fmt m ix f ++ free a).Nodup) (hreg : Regular fmt m ix f)
    (hlink : ∀ g ∈ free a, fmt.present (link g) = true ∧ fmt.large (link g) = false ∧ fmt.target (link g) = g)
    (h : mapPath fmt alloc blank link e m a f path = some (m', a')) :
    Mapped fmt m m' ix f path e (free a) (free a') := by
  induction hpath generalizing m a f with
  | nil => simp [mapPath] at h
  | @cons i is path ix hi hpath ih =>
    cases hpath with
    | nil =>
      rw [mapPath] at h
      by_cases hp : fmt.present (m f i) = true
      · rw [if_pos hp] at h
        simp at h
      · rw [if_neg hp, Option.some.injEq, Prod.mk.injEq] at h
        obtain ⟨rfl, rfl⟩ := h
        refine ⟨changed_leaf e, ?_, ?_⟩
        · rw [translate, if_neg hp]
        · rw [translate, write_self, if_pos he]
    | @cons j js path ix hj hpath =>
      have his : is.Nodup := hix is (by simp)
      have hix' : ∀ ks ∈ js :: ix, ks.Nodup := fun ks hks => hix ks (by simp [hks])
      obtain ⟨hndi, hfi, hff, hother⟩ := nodup_subframes hnd hi
      rw [mapPath] at h
      by_cases hp : fmt.present (m f i) = true
      · -- the table is there
        rw [if_pos hp] at h
        obtain ⟨hlarge, hrest⟩ := hreg i hi hp
        rw [subframes, if_pos hp] at hndi
        have hbelow := ih hix' hndi hrest hlink h
        have hwalk : ∀ q k, translate fmt m (fmt.target (m f i)) (k :: q) = translate fmt m f (i :: k :: q) := by
          intro q k
          rw [translate, if_pos hp, if_neg (by simp [hlarge])]
        obtain ⟨hchanged, hhere⟩ := hbelow.toChanged.lift m his hi hnd hreg hp hlarge (fun _ _ => rfl)
          (fun _ _ _ => rfl) (.refl _) (fun _ h => h) hwalk
        exact ⟨hchanged, (hwalk _ _).symm.trans hbelow.before, hhere.trans hbelow.here⟩
      -- a new table is linked
      rw [if_neg hp, Option.bind_eq_some_iff] at h
      obtain ⟨⟨g, a1⟩, hg, h⟩ := h
      have hperm := halloc a g a1 hg
      have hgfree : g ∈ free a := hperm.subset (by simp)
      have hsub : free a1 ⊆ free a := fun x hx => hperm.subset (by simp [hx])
      obtain ⟨hlp, hll, hlt⟩ := hlink g hgfree
      have hgf : g ≠ f := fun heq => hff (heq ▸ hgfree)
      dsimp only at h
      generalize hm1 : write (clear m g blank) f i (link g) = m1 at h
      have hentry : m1 f i = link g := hm1 ▸ write_self ..
      have hindex : ∀ k, k ≠ i → m1 f k = m f k := by
        intro k hk
        rw [← hm1, write_index_ne hk, clear_of_ne hgf.symm]
      have hframe : ∀ x, x ≠ f → x ∉ free a → m1 x = m x := by
        intro x hx hxf
        rw [← hm1, write_of_ne hx, clear_of_ne fun heq : x = g => hxf (heq ▸ hgfree)]
      have hblankg : ∀ k, fmt.present (m1 g k) = false := by
        intro k
        rw [← hm1, write_of_ne hgf, clear_self]
        exact hblank
      have hframes : frames fmt m1 (js :: ix) g = [g] := frames_blank fun k _ => hblankg k
      rw [← hentry] at hlp hll hlt h
      have hbelow : Mapped fmt m1 m' (js :: ix) (fmt.target (m1 f i)) (j :: path) e (free a1) (free a') := by
        refine ih hix' ?_ ?_ (fun x hx => hlink x (hsub hx)) h
        · rw [hlt, hframes]
          exact hperm.nodup_iff.mpr (nodup_append.mp hnd).2.1
        · rw [hlt]
          exact regular_blank fun k _ => hblankg k
      have hwalk : ∀ q k, translate fmt m1 (fmt.target (m1 f i)) (k :: q) = translate fmt m f (i :: k :: q) := by
        intro q k
        rw [hlt, translate_blank hblankg, translate, if_neg hp]
      have hexchange : List.Perm (subframes fmt m1 (js :: ix) f i ++ free a1)
          (subframes fmt m (js :: ix) f i ++ free a) := by
        rw [subframes, if_pos hlp, hlt, hframes, subframes, if_neg hp]
        exact hperm
      obtain ⟨hchanged, hhere⟩ :=
        hbelow.toChanged.lift m1 his hi hnd hreg hlp hll hindex hframe hexchange hsub hwalk
      exact ⟨hchanged, (hwalk _ _).symm.trans hbelow.before, hhere.trans hbelow.here⟩

/-- **`mapPath` has a result** where the walk along the path finds nothing and there are frames for the
tables that are missing. It takes at most one for each of them. -/
theorem exists_mapPath {link : F → E} (free : A → List F)
    (halloc : ∀ a g a', alloc a = some (g, a') → List.Perm (g :: free a') (free a))
    (hsome : ∀ a, free a ≠ [] → (alloc a).isSome = true) (hblank : fmt.present blank = false) {a : A}
    (hpath : List.Forall₂ (· ∈ ·) (i :: p) (is :: ix)) (hnd : (frames fmt m (is :: ix) f ++ free a).Nodup)
    (hreg : Regular fmt m (is :: ix) f) (hlink : ∀ g ∈ free a, fmt.target (link g) = g)
    (hnone : translate fmt m f (i :: p) = none) (hlen : p.length ≤ (free a).length) :
    ∃ m' a', mapPath fmt alloc blank link e m a f (i :: p) = some (m', a') ∧
      (free a).length ≤ (free a').length + p.length := by
  induction p generalizing m a is ix f i with
  | nil =>
    have hp : ¬ fmt.present (m f i) = true := fun hp => by simp [translate, hp] at hnone
    exact ⟨write m f i e, a, by rw [mapPath, if_neg hp], Nat.le_add_right _ _⟩
  | cons j p ih =>
    obtain ⟨js, ix, rfl⟩ : ∃ js jx, ix = js :: jx := by
      cases hpath with
      | cons _ hrest => cases hrest with | cons _ _ => exact ⟨_, _, rfl⟩
    obtain ⟨hi, hpath⟩ := forall₂_cons.mp hpath
    obtain ⟨hndi, -, hff, -⟩ := nodup_subframes hnd hi
    rw [mapPath]
    by_cases hp : fmt.present (m f i) = true
    · obtain ⟨hlarge, hrest⟩ := hreg i hi hp
      rw [subframes, if_pos hp] at hndi
      rw [translate, if_pos hp, if_neg (by simp [hlarge])] at hnone
      rw [length_cons] at hlen
      obtain ⟨m', a', hmap, hle⟩ := ih hpath hndi hrest hlink hnone (by omega)
      exact ⟨m', a', by rw [if_pos hp, hmap], hle.trans (by simp)⟩
    -- a new table, in which the walk finds nothing
    have hne : free a ≠ [] := ne_nil_of_length_pos (by rw [length_cons] at hlen; omega)
    obtain ⟨⟨g, a1⟩, hg⟩ := Option.isSome_iff_exists.mp (hsome a hne)
    have hperm := halloc a g a1 hg
    have hgfree : g ∈ free a := hperm.subset (by simp)
    have hlt := hlink g hgfree
    have hgf : g ≠ f := fun heq => hff (heq ▸ hgfree)
    have hblankg : ∀ k, fmt.present (write (clear m g blank) f i (link g) g k) = false := by
      intro k
      rw [write_of_ne hgf, clear_self]
      exact hblank
    have hlength := hperm.length_eq
    rw [length_cons] at hlen hlength
    obtain ⟨m', a', hmap, hle⟩ := ih (m := write (clear m g blank) f i (link g)) (f := g) hpath
      (by rw [frames_blank fun k _ => hblankg k]; exact hperm.nodup_iff.mpr (nodup_append.mp hnd).2.1)
      (regular_blank fun k _ => hblankg k) (fun x hx => hlink x (hperm.subset (by simp [hx])))
      (translate_blank hblankg _) (by omega)
    refine ⟨m', a', ?_, by rw [length_cons]; omega⟩
    rw [if_neg hp, hg, Option.bind_some]
    dsimp only
    rw [hlt, hmap]

/-! ## Two memories -/

/-- **Installing an entry in two memories** that agree on the frames of a table: it succeeds in both or
in none, and afterwards they agree where they did, and on the frames that were taken. -/
theorem mapPath_agree {link : F → E} (free : A → List F)
    (halloc : ∀ a g a', alloc a = some (g, a') → List.Perm (g :: free a') (free a)) (hblank : fmt.present blank = false)
    {a : A} (hpath : List.Forall₂ (· ∈ ·) path ix) (hnd : (frames fmt m ix f ++ free a).Nodup)
    (hlink : ∀ g ∈ free a, fmt.target (link g) = g) (hagree : ∀ g ∈ frames fmt m ix f, n g = m g) :
    Option.Rel (fun x y => y.2 = x.2 ∧ ∀ g, n g = m g ∨ g ∈ free a ∧ g ∉ free x.2 → y.1 g = x.1 g)
      (mapPath fmt alloc blank link e m a f path) (mapPath fmt alloc blank link e n a f path) := by
  induction hpath generalizing m n a f with
  | nil => exact .none
  | @cons i is path ix hi hpath ih =>
    have hroot : n f = m f := hagree f mem_frames_self
    cases hpath with
    | nil =>
      rw [mapPath, mapPath, hroot]
      by_cases hp : fmt.present (m f i) = true
      · rw [if_pos hp, if_pos hp]
        exact .none
      · rw [if_neg hp, if_neg hp]
        refine .some ⟨rfl, fun g hg => ?_⟩
        rcases hg with hg | ⟨hin, hout⟩
        · exact write_congr hg hroot i e
        · exact absurd hin hout
    | @cons j js path ix hj hpath =>
      rw [mapPath, mapPath, hroot]
      by_cases hp : fmt.present (m f i) = true
      · -- the next table is there, in both
        rw [if_pos hp, if_pos hp]
        have hndi := (nodup_subframes hnd hi).1
        rw [subframes, if_pos hp] at hndi
        exact ih hndi hlink fun g hg => hagree g (frames_subset hi hp hg)
      rw [if_neg hp, if_neg hp]
      cases hg : alloc a with
      | none => exact .none
      | some x =>
        -- a new table, which is blank in both
        obtain ⟨g, a1⟩ := x
        have hperm := halloc a g a1 hg
        have hgfree : g ∈ free a := hperm.subset mem_cons_self
        have hgf : g ≠ f := fun heq => (nodup_subframes hnd hi).2.2.1 (heq ▸ hgfree)
        have hkept : ∀ x, n x = m x ∨ x = g →
            write (clear n g blank) f i (link g) x = write (clear m g blank) f i (link g) x := by
          intro x hx
          have hf : clear n g blank f = clear m g blank f := by
            rw [clear_of_ne hgf.symm, clear_of_ne hgf.symm, hroot]
          refine write_congr ?_ hf i (link g)
          by_cases hxg : x = g
          · rw [hxg, clear_self, clear_self]
          · rw [clear_of_ne hxg, clear_of_ne hxg, hx.resolve_right hxg]
        have hframes : frames fmt (write (clear m g blank) f i (link g)) (js :: ix) g = [g] := by
          refine frames_blank fun k _ => ?_
          rw [write_of_ne hgf, clear_self]
          exact hblank
        have htarget := hlink g hgfree
        have hnd1 : (frames fmt (write (clear m g blank) f i (link g)) (js :: ix)
            (fmt.target (link g)) ++ free a1).Nodup := by
          rw [htarget, hframes]
          exact hperm.nodup_iff.mpr (nodup_append.mp hnd).2.1
        have hagree1 : ∀ x ∈ frames fmt (write (clear m g blank) f i (link g)) (js :: ix)
            (fmt.target (link g)), write (clear n g blank) f i (link g) x = write (clear m g blank) f i (link g) x := by
          rw [htarget, hframes]
          intro x hx
          exact hkept x (Or.inr (mem_singleton.mp hx))
        have hlink1 : ∀ x ∈ free a1, fmt.target (link x) = x := fun x hx =>
          hlink x (hperm.subset (mem_cons_of_mem _ hx))
        refine Runs.rel_mono (ih hnd1 hlink1 hagree1) fun y z hsame => ⟨hsame.1, fun x hx => hsame.2 x ?_⟩
        rcases hx with hx | ⟨hin, hout⟩
        · exact Or.inl (hkept x (Or.inl hx))
        · rcases mem_cons.mp (hperm.symm.subset hin) with rfl | hin
          · exact Or.inl (hkept x (Or.inr rfl))
          · exact Or.inr ⟨hin, hout⟩

/-! ## Removing an entry -/

/-- **`modifyPath` removes the entry** when its change makes an entry absent. -/
theorem changed_of_modifyPath {change : E → E} (hchange : ∀ e, fmt.present (change e) = false)
    (hpath : List.Forall₂ (· ∈ ·) path ix) (hix : ∀ is ∈ ix, is.Nodup)
    (hnd : (frames fmt m ix f ++ free).Nodup) (hreg : Regular fmt m ix f) :
    Changed fmt m (modifyPath fmt change m f path) ix f path free free ∧
      translate fmt (modifyPath fmt change m f path) f path = none := by
  induction hpath generalizing f with
  | nil => exact ⟨.refl hreg, rfl⟩
  | @cons i is path ix hi hpath ih =>
    cases hpath with
    | nil =>
      rw [modifyPath]
      by_cases hp : fmt.present (m f i) = true
      · rw [if_pos hp]
        refine ⟨changed_leaf _, ?_⟩
        rw [translate, write_self, if_neg (by simp [hchange])]
      · rw [if_neg hp]
        exact ⟨.refl hreg, by rw [translate, if_neg hp]⟩
    | @cons j js path ix hj hpath =>
      rw [modifyPath]
      by_cases hp : fmt.present (m f i) = true
      · rw [if_pos hp]
        obtain ⟨hlarge, hrest⟩ := hreg i hi hp
        have hndi := (nodup_subframes hnd hi).1
        rw [subframes, if_pos hp] at hndi
        obtain ⟨hbelow, hnone⟩ := ih (fun ks hks => hix ks (mem_cons_of_mem _ hks)) hndi hrest
        obtain ⟨hchanged, hhere⟩ := hbelow.lift m (hix is mem_cons_self) hi hnd hreg hp hlarge
          (fun _ _ => rfl) (fun _ _ _ => rfl) (.refl _) (fun _ h => h) fun q k => by
            rw [translate, if_pos hp, if_neg (by simp [hlarge])]
        exact ⟨hchanged, hhere.trans hnone⟩
      · rw [if_neg hp]
        exact ⟨.refl hreg, by rw [translate, if_neg hp]⟩

end RadixTable
