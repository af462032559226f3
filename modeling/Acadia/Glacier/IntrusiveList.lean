import Mathlib.Data.List.Nodup

/-! # `glcr::IntrusiveList`

The doubly linked list of `glacier/container/intrusive_list.h`, whose links are fields of the elements:
all lists share one table of links, and an element can be in one list only. Elements are numbers, and
`none` is a null pointer. An operation has no result where the source follows one. -/

namespace Acadia.Glacier

open List Function

/-- The fields `next_` and `prev_` of all elements. -/
structure Links where
  next : Nat → Option Nat
  prev : Nat → Option Nat

namespace Links

/-- An assignment to a field `next_`. -/
def setNext (links : Links) (t : Nat) (x : Option Nat) : Links :=
  { links with next := update links.next t x }

/-- An assignment to a field `prev_`. -/
def setPrev (links : Links) (t : Nat) (x : Option Nat) : Links :=
  { links with prev := update links.prev t x }

end Links

/-- An `IntrusiveList`. -/
structure IntrusiveList where
  front : Option Nat := none
  back : Option Nat := none
  size : Nat := 0

namespace IntrusiveList

/-- `PushFront`. -/
def pushFront (l : IntrusiveList) (links : Links) (obj : Nat) : IntrusiveList × Links :=
  let links := (links.setNext obj l.front).setPrev obj none
  match l.front with
  | none => (⟨some obj, some obj, l.size + 1⟩, links)
  | some front => (⟨some obj, l.back, l.size + 1⟩, links.setPrev front (some obj))

/-- `PushBack`. -/
def pushBack (l : IntrusiveList) (links : Links) (obj : Nat) : Option (IntrusiveList × Links) :=
  match l.front, l.back with
  | none, _ => some (l.pushFront links obj)
  | some _, none => none
  | some _, some back => some (⟨l.front, some obj, l.size + 1⟩,
    ((links.setNext back (some obj)).setPrev obj (some back)).setNext obj none)

/-- `Remove`, of an element. -/
def remove (l : IntrusiveList) (links : Links) (obj : Nat) : IntrusiveList × Links :=
  let front := if l.front = some obj then links.next obj else l.front
  let back := if l.back = some obj then links.prev obj else l.back
  let links := (links.prev obj).elim links fun p => links.setNext p (links.next obj)
  let links := (links.next obj).elim links fun n => links.setPrev n (links.prev obj)
  (⟨front, back, l.size - 1⟩, (links.setPrev obj none).setNext obj none)

/-- `PopFront`, of a list that is not empty. -/
def popFront (l : IntrusiveList) (links : Links) : Option (Nat × IntrusiveList × Links) :=
  match l.front with
  | none => none
  | some front =>
    if l.back = some front then some (front, ⟨none, none, l.size - 1⟩, links)
    else (links.next front).map fun next =>
      (front, ⟨some next, l.back, l.size - 1⟩, (links.setPrev next none).setNext front none)

/-- **The list has these elements**, in this order. -/
structure Linked (l : IntrusiveList) (links : Links) (ts : List Nat) : Prop where
  nodup : ts.Nodup
  front : l.front = ts[0]?
  back : l.back = ts[ts.length - 1]?
  size : l.size = ts.length
  next : ∀ i t, ts[i]? = some t → links.next t = ts[i + 1]?
  prev : ∀ i t, ts[i]? = some t → links.prev t = if i = 0 then none else ts[i - 1]?

namespace Linked

variable {l l' : IntrusiveList} {links links' : Links} {ts : List Nat} {t : Nat}

theorem empty (links : Links) : Linked {} links [] := ⟨nodup_nil, rfl, rfl, rfl, nofun, nofun⟩

theorem congr (h : Linked l links ts) (hnext : ∀ t ∈ ts, links'.next t = links.next t)
    (hprev : ∀ t ∈ ts, links'.prev t = links.prev t) : Linked l links' ts :=
  ⟨h.nodup, h.front, h.back, h.size, fun i t ht => (hnext t (mem_of_getElem? ht)).trans (h.next i t ht),
    fun i t ht => (hprev t (mem_of_getElem? ht)).trans (h.prev i t ht)⟩

theorem inj (h : Linked l links ts) {i j : Nat} (hi : ts[i]? = some t) (hj : ts[j]? = some t) : i = j := by
  obtain ⟨hlt, -⟩ := List.getElem?_eq_some_iff.mp hi
  exact (getElem?_inj hlt h.nodup).mp (hi.trans hj.symm)

/-- **`PushBack`** of an element that is not in the list. -/
theorem pushBack (h : Linked l links ts) (ht : t ∉ ts) :
    ∃ l' links', l.pushBack links t = some (l', links') ∧ Linked l' links' (ts ++ [t]) ∧
      ∀ u ∉ ts, u ≠ t → links'.next u = links.next u ∧ links'.prev u = links.prev u := by
  have hnodup : (ts ++ [t]).Nodup := by
    rw [← concat_eq_append]
    exact (nodup_concat _ _).mpr ⟨ht, h.nodup⟩
  have hfront := h.front
  have hback := h.back
  cases ts with
  | nil =>
    rw [IntrusiveList.pushBack, show l.front = none from hfront]
    refine ⟨_, _, rfl, ⟨hnodup, ?_, ?_, ?_, ?_, ?_⟩, ?_⟩
    all_goals
      simp only [Links.setNext, Links.setPrev, show l.front = none from hfront, h.size]
      grind
  | cons a ts =>
    rw [length_cons, Nat.add_sub_cancel] at hback
    obtain ⟨b, hb⟩ : ∃ b, (a :: ts)[ts.length]? = some b := ⟨_, getElem?_eq_getElem (by simp)⟩
    rw [IntrusiveList.pushBack, show l.front = some a from hfront, hback, hb]
    refine ⟨_, _, rfl, ⟨hnodup, rfl, by simp, by simp [h.size], fun i u hu => ?_, fun i u hu => ?_⟩, ?_⟩
    · have hnext := h.next i u
      have hlast : (a :: ts)[i]? = some u → u = b → i = ts.length := fun hu' hub => h.inj hu' (hub ▸ hb)
      simp only [Links.setNext, Links.setPrev]
      grind
    · have hprev := h.prev i u
      simp only [Links.setNext, Links.setPrev]
      grind
    · have hmem := mem_of_getElem? hb
      simp only [Links.setNext, Links.setPrev]
      grind

/-- The fields `next_` after `Remove`. -/
theorem next_remove (l : IntrusiveList) (links : Links) (t u : Nat) : (l.remove links t).2.next u =
      if u = t then none else if links.prev t = some u then links.next t else links.next u := by
  simp only [IntrusiveList.remove, Links.setNext, Links.setPrev]
  cases links.prev t with
  | none => cases hn : links.next t <;> simp [update_apply, hn]
  | some p =>
    dsimp only [Option.elim]
    generalize update links.next p (links.next t) t = n
    cases n <;> simp [update_apply, eq_comm]

/-- The fields `prev_` after `Remove`. -/
theorem prev_remove (l : IntrusiveList) {links : Links} {t : Nat} (ht : links.prev t ≠ some t) (u : Nat) :
    (l.remove links t).2.prev u =
      if u = t then none else if links.next t = some u then links.prev t else links.prev u := by
  simp only [IntrusiveList.remove, Links.setNext, Links.setPrev]
  cases hp : links.prev t with
  | none => cases hn : links.next t <;> simp [update_apply, hp, hn, eq_comm]
  | some p =>
    have hne : t ≠ p := fun htp => ht (hp.trans (congrArg some htp.symm))
    simp only [Option.elim, update_of_ne hne]
    cases links.next t <;> simp [update_apply, hp, eq_comm]

/-- **`Remove`** of an element of the list. -/
theorem remove (h : Linked l links ts) {k : Nat} (hk : ts[k]? = some t) :
    Linked (l.remove links t).1 (l.remove links t).2 (ts.eraseIdx k) ∧
      ∀ u ∉ ts, (l.remove links t).2.next u = links.next u ∧ (l.remove links t).2.prev u = links.prev u := by
  have hinj : ∀ i j u, ts[i]? = some u → ts[j]? = some u → i = j := fun i j u => h.inj
  have hnext := h.next k t hk
  have hprev := h.prev k t hk
  have hself : links.prev t ≠ some t := by
    intro hself
    rw [hprev] at hself
    split_ifs at hself
    have := h.inj hk hself
    omega
  refine ⟨⟨h.nodup.eraseIdx k, ?_, ?_, ?_, fun i u hu => ?_, fun i u hu => ?_⟩, fun u hu => ⟨?_, ?_⟩⟩
  · have hfront := h.front
    simp only [IntrusiveList.remove]
    grind
  · have hback := h.back
    have hlast := hinj k (ts.length - 1) t hk
    simp only [IntrusiveList.remove]
    grind
  · have hsize := h.size
    simp only [IntrusiveList.remove]
    grind
  · rw [next_remove, hnext, hprev]
    rw [getElem?_eraseIdx] at hu ⊢
    have hfirst := hinj i k u
    have hsecond := hinj (i + 1) k u
    have hthird := hinj i (k - 1) u
    have hfourth := hinj (i + 1) (k - 1) u
    have h1 := h.next i u
    have h2 := h.next (i + 1) u
    grind
  · rw [prev_remove l hself, hnext, hprev]
    rw [getElem?_eraseIdx] at hu
    have hfirst := hinj i k u
    have hsecond := hinj (i + 1) k u
    have hthird := hinj i (k + 1) u
    have hfourth := hinj (i + 1) (k + 1) u
    have h1 := h.prev i u
    have h2 := h.prev (i + 1) u
    grind
  · rw [next_remove, hprev]
    grind
  · rw [prev_remove l hself, hnext]
    grind

/-- **`PopFront`** of a list that is not empty. -/
theorem popFront {a : Nat} (h : Linked l links (a :: ts)) :
    ∃ l' links', l.popFront links = some (a, l', links') ∧ Linked l' links' ts ∧
      ∀ u ∉ a :: ts, links'.next u = links.next u ∧ links'.prev u = links.prev u := by
  have hfront : l.front = some a := h.front
  have hback := h.back
  have hsize := h.size
  have hnodup := nodup_cons.mp h.nodup
  rw [length_cons, Nat.add_sub_cancel] at hback
  unfold IntrusiveList.popFront
  rw [hfront]
  cases ts with
  | nil =>
    refine ⟨_, _, if_pos hback, ⟨hnodup.2, rfl, rfl, ?_, nofun, nofun⟩, fun u _ => ⟨rfl, rfl⟩⟩
    rw [hsize]
    rfl
  | cons b ts =>
    have hdiffer : l.back ≠ some a := by
      rw [hback]
      grind
    have hnext : links.next a = some b := h.next 0 a rfl
    dsimp only
    rw [if_neg hdiffer, hnext]
    refine ⟨_, _, rfl, ⟨hnodup.2, rfl, hback, ?_, fun i u hu => ?_, fun i u hu => ?_⟩, fun u hu => ⟨?_, ?_⟩⟩
    · rw [hsize]
      rfl
    · have := h.next (i + 1) u hu
      simp only [Links.setNext, Links.setPrev]
      grind
    · have := h.prev (i + 1) u hu
      have := h.inj (i := i + 1) (j := 1) hu
      simp only [Links.setNext, Links.setPrev]
      grind
    all_goals
      simp only [Links.setNext, Links.setPrev]
      grind

end Linked

end IntrusiveList

end Acadia.Glacier
