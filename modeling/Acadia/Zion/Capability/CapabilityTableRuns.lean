import Acadia.Foundations.Runs
import Acadia.Zion.Capability.CapabilityTable

/-! # Runs of a capability table against its history

A sequence of calls on one `CapabilityTable`, with what each returned. What the table has to hold is defined by
that history alone: a capability is `stored` under an id from the call that returned the id until its release. -/

namespace Acadia.Zion

open Glacier List Option Function UInt64 CapabilityTable

/-- A call on a `CapabilityTable`. -/
inductive TableCall where
  | addNewCapability (cap : Capability)
  | addExistingCapability (cap : Capability)
  | getCapability (id : UInt64)
  | releaseCapability (id : UInt64)
  deriving DecidableEq

/-- What a call returned. -/
inductive TableResult where
  | id (id : UInt64)
  /-- A pointer, which may be null. -/
  | capability (cap : Option Capability)
  deriving DecidableEq

/-- A table and the calls so far, with their results. -/
structure TableRun where
  table : CapabilityTable := {}
  history : List (TableCall × TableResult) := []

namespace TableRun

/-- A call on the table; `none` is the panic of an add. -/
def call (t : CapabilityTable) : TableCall → Option (TableResult × CapabilityTable)
  | .addNewCapability cap => (t.addExistingCapability cap).map fun (id, t) => (.id id, t)
  | .addExistingCapability cap => (t.addExistingCapability cap).map fun (id, t) => (.id id, t)
  | .getCapability id => some (.capability (t.getCapability id), t)
  | .releaseCapability id =>
    let (cap, t) := t.releaseCapability id
    some (.capability cap, t)

/-- One call. -/
def step (s : TableRun) (c : TableCall) : Option TableRun :=
  (call s.table c).map fun (r, table) => { table, history := s.history ++ [(c, r)] }

/-! ## What a history says -/

/-- What one call does to the capabilities that are stored. -/
def store (m : UInt64 → Option Capability) : TableCall × TableResult → UInt64 → Option Capability
  | (.addNewCapability cap, .id id) => Function.update m id (some cap)
  | (.addExistingCapability cap, .id id) => Function.update m id (some cap)
  | (.releaseCapability id, _) => Function.update m id none
  | _ => m

/-- **The capability under an id**: that of the call which returned the id, until it is released. -/
def stored (history : List (TableCall × TableResult)) : UInt64 → Option Capability :=
  history.foldl store fun _ => none

/-- The ids that were returned, in order. -/
def returned (history : List (TableCall × TableResult)) : List UInt64 :=
  history.filterMap fun x =>
    match x.2 with
    | .id id => some id
    | .capability _ => none

/-- What a call has to return after this history. An added capability gets an id under which nothing is
stored, and one that is larger than all before as long as the counter has not wrapped. -/
def Expected (history : List (TableCall × TableResult)) : TableCall → TableResult → Prop
  | .getCapability id, r => r = .capability (stored history id)
  | .releaseCapability id, r => r = .capability (stored history id)
  | _, r => ∃ id, r = .id id ∧ stored history id = none ∧
    (0x100 + (returned history).length < 2 ^ 64 → ∀ j ∈ returned history, j < id)

theorem stored_concat (history : List (TableCall × TableResult)) (x : TableCall × TableResult) :
    stored (history ++ [x]) = store (stored history) x := foldl_concat _ _ _ _

/-- The ids count up. -/
def idsFrom (n : Nat) : List UInt64 := (List.range n).map fun k => UInt64.ofNat (0x100 + k)

theorem lt_of_mem_idsFrom {n : Nat} (hn : 0x100 + n < 2 ^ 64) {j : UInt64} (hj : j ∈ idsFrom n) :
    j < UInt64.ofNat (0x100 + n) := by
  obtain ⟨k, hk, rfl⟩ := mem_map.mp hj
  have hk := mem_range.mp hk
  have hsize : size = 2 ^ 64 := rfl
  rw [lt_iff_toNat_lt, toNat_ofNat_of_lt' (by omega), toNat_ofNat_of_lt' hn]
  omega

/-- **The table agrees with its history.** -/
structure Agrees (s : TableRun) : Prop where
  /-- The table holds what the history says. -/
  holds : ∀ id, s.table.getCapability id = stored s.history id
  /-- The ids that were returned. -/
  ids : returned s.history = idsFrom (returned s.history).length
  next : s.table.nextCapId = UInt64.ofNat (0x100 + (returned s.history).length)
  /-- Only ids that were returned are in use. -/
  used : ∀ id, stored s.history id ≠ none → id ∈ returned s.history

theorem agrees_init : Agrees {} := by
  refine ⟨fun id => rfl, rfl, rfl, fun id h => ?_⟩
  exact absurd rfl h

variable {s : TableRun}

theorem Agrees.fresh (h : Agrees s) (hn : 0x100 + (returned s.history).length < 2 ^ 64) :
    (∀ j ∈ returned s.history, j < s.table.nextCapId) ∧ s.table.getCapability s.table.nextCapId = none := by
  have hlt : ∀ j ∈ returned s.history, j < s.table.nextCapId := by
    intro j hj
    rw [h.ids] at hj
    rw [h.next]
    exact lt_of_mem_idsFrom hn hj
  refine ⟨hlt, ?_⟩
  by_contra hused
  rw [h.holds] at hused
  exact absurd (hlt _ (h.used _ hused)) (lt_irrefl _)

/-! ## One call -/

variable {c : TableCall}

theorem Agrees.add (h : Agrees s) {cap : Capability} {id : UInt64} {t : CapabilityTable}
    (hadd : s.table.addExistingCapability cap = some (id, t))
    (hstore : store (stored s.history) (c, .id id) = Function.update (stored s.history) id (some cap)) :
    Agrees { table := t, history := s.history ++ [(c, .id id)] } := by
  obtain ⟨hid, hnext, hfree, hget, -⟩ := addExistingCapability_spec hadd
  have hstored := (stored_concat s.history (c, .id id)).trans hstore
  have hreturned : returned (s.history ++ [(c, .id id)]) = returned s.history ++ [id] := by
    simp [returned, filterMap_append]
  have hid' : id = ofNat (0x100 + (returned s.history).length) := hid.trans h.next
  refine ⟨fun j => ?_, ?_, ?_, fun j hj => ?_⟩
  · show t.getCapability j = stored (s.history ++ [(c, .id id)]) j
    rw [hget, hstored, update_apply, h.holds]
  · show returned (s.history ++ [(c, .id id)]) = _
    rw [hreturned, length_append, length_singleton, idsFrom, range_succ, map_append,
      ← idsFrom, ← h.ids, map_singleton, ← hid']
  · show t.nextCapId = _
    rw [hnext, h.next, hreturned, length_append, length_singleton, ← Nat.add_assoc]
    simp
  show j ∈ returned (s.history ++ [(c, .id id)])
  rw [hreturned, mem_append, mem_singleton]
  replace hj : stored (s.history ++ [(c, .id id)]) j ≠ none := hj
  rw [hstored, update_apply] at hj
  by_cases hji : j = id
  · exact Or.inr hji
  · rw [if_neg hji] at hj
    exact Or.inl (h.used j hj)

theorem Agrees.look (h : Agrees s) {t : CapabilityTable} {cap : Option Capability}
    (hnext : t.nextCapId = s.table.nextCapId)
    (hget : ∀ j, t.getCapability j = store (stored s.history) (c, .capability cap) j)
    (hused : ∀ j, store (stored s.history) (c, .capability cap) j ≠ none → stored s.history j ≠ none) :
    Agrees { table := t, history := s.history ++ [(c, .capability cap)] } := by
  have hreturned : returned (s.history ++ [(c, .capability cap)]) = returned s.history := by
    simp [returned, filterMap_append]
  refine ⟨fun j => ?_, ?_, ?_, fun j hj => ?_⟩
  · exact (hget j).trans (congrFun (stored_concat _ _).symm j)
  · show returned (s.history ++ [(c, .capability cap)]) = _
    rw [hreturned]
    exact h.ids
  · show t.nextCapId = _
    rw [hnext, h.next, hreturned]
  · show j ∈ returned (s.history ++ [(c, .capability cap)])
    rw [hreturned]
    replace hj : stored (s.history ++ [(c, .capability cap)]) j ≠ none := hj
    rw [stored_concat] at hj
    exact h.used j (hused j hj)

theorem Agrees.release (h : Agrees s) (id : UInt64) : (s.table.releaseCapability id).1 = stored s.history id ∧
      Agrees { table := (s.table.releaseCapability id).2, history := s.history ++
        [(.releaseCapability id, .capability (s.table.releaseCapability id).1)] } := by
  have hused : ∀ j, Function.update (stored s.history) id none j ≠ none → stored s.history j ≠ none := by
    intro j hj
    rw [update_apply] at hj
    split at hj
    · exact absurd rfl hj
    · exact hj
  cases hget : s.table.getCapability id with
  | none =>
    rw [releaseCapability_of_none hget]
    refine ⟨hget.symm.trans (h.holds id), h.look rfl (fun j => ?_) hused⟩
    show _ = Function.update (stored s.history) id none j
    rw [update_apply]
    split_ifs with hj
    · rw [hj]
      exact hget
    · exact h.holds j
  | some cap =>
    obtain ⟨t, hrelease, hnext, hgone, -⟩ := releaseCapability_of_some hget
    rw [hrelease]
    refine ⟨hget.symm.trans (h.holds id), h.look hnext (fun j => ?_) hused⟩
    show _ = Function.update (stored s.history) id none j
    rw [hgone, update_apply, h.holds]

/-- **One call returns what is expected, and keeps the agreement.** -/
theorem Agrees.step {s' : TableRun} (h : Agrees s) (hstep : s.step c = some s') :
    Agrees s' ∧ ∃ r, s'.history = s.history ++ [(c, r)] ∧ Expected s.history c r := by
  obtain ⟨⟨r, t⟩, hcall, rfl⟩ := map_eq_some_iff.mp hstep
  -- both kinds of adds
  have hadd : ∀ cap, (s.table.addExistingCapability cap).map (fun (id, t) => (TableResult.id id, t)) =
      some (r, t) → (∀ id, store (stored s.history) (c, .id id) = Function.update (stored s.history) id (some cap)) →
      Agrees { table := t, history := s.history ++ [(c, r)] } ∧ ∃ id, r = .id id ∧ stored s.history id = none ∧
          (0x100 + (returned s.history).length < 2 ^ 64 → ∀ j ∈ returned s.history, j < id) := by
    intro cap hmap hstore
    obtain ⟨⟨id, t'⟩, hadd, heq⟩ := map_eq_some_iff.mp hmap
    cases heq
    obtain ⟨hid, -, hfree, -⟩ := addExistingCapability_spec hadd
    refine ⟨h.add hadd (hstore id), id, rfl, (h.holds id).symm.trans hfree, fun hn => ?_⟩
    rw [hid]
    exact (h.fresh hn).1
  cases c with
  | addNewCapability cap =>
    obtain ⟨hagrees, hexpected⟩ := hadd cap hcall fun _ => rfl
    exact ⟨hagrees, r, rfl, hexpected⟩
  | addExistingCapability cap =>
    obtain ⟨hagrees, hexpected⟩ := hadd cap hcall fun _ => rfl
    exact ⟨hagrees, r, rfl, hexpected⟩
  | getCapability id =>
    cases hcall
    refine ⟨h.look rfl (fun j => h.holds j) fun j hj => hj, _, rfl, ?_⟩
    exact congrArg _ (h.holds id)
  | releaseCapability id =>
    cases hcall
    obtain ⟨hresult, hagrees⟩ := h.release id
    exact ⟨hagrees, _, rfl, congrArg _ hresult⟩

theorem Agrees.step_isSome (h : Agrees s) (hn : 0x100 + (returned s.history).length < 2 ^ 64)
    (c : TableCall) : (s.step c).isSome = true := by
  have hadd : ∀ cap, (s.table.addExistingCapability cap).isSome = true := by
    intro cap
    obtain ⟨id, t, hadd⟩ := exists_addExistingCapability (h.fresh hn).2 cap
    rw [hadd]
    rfl
  rw [TableRun.step, isSome_map]
  cases c with
  | addNewCapability cap =>
    rw [call, isSome_map]
    exact hadd cap
  | addExistingCapability cap =>
    rw [call, isSome_map]
    exact hadd cap
  | getCapability | releaseCapability => rfl

/-! ## Whole runs -/

/-- **A capability table is the map of its history.** After any sequence of calls, with any ids: every call
returned what was stored under its id at that moment, an id that an add returned was not in use and, before the
counter wraps, larger than all ids before it; the table holds exactly the capabilities that were added and not
released since; and before the counter wraps the next call does not panic. -/
theorem run_agrees {calls : List TableCall} {s : TableRun} (hrun : Runs.run step {} calls = some s) :
    s.history.map Prod.fst = calls ∧
    (∀ before c r after, s.history = before ++ (c, r) :: after → Expected before c r) ∧
    (∀ id, s.table.getCapability id = stored s.history id) ∧
    (0x100 + (returned s.history).length < 2 ^ 64 → ∀ c, (s.step c).isSome = true) := by
  have hall : Agrees s ∧ s.history.map Prod.fst = calls ∧
      ∀ before c r after, s.history = before ++ (c, r) :: after → Expected before c r := by
    induction calls using reverseRecOn generalizing s with
    | nil =>
      cases hrun
      refine ⟨agrees_init, rfl, fun before c r after heq => ?_⟩
      simp at heq
    | append_singleton calls c ih =>
      obtain ⟨s₁, hrun₁, hstep⟩ := Runs.run_concat_eq_some.mp hrun
      obtain ⟨h₁, hcalls, hpast⟩ := ih hrun₁
      obtain ⟨h, r, hhistory, hexpected⟩ := h₁.step hstep
      refine ⟨h, by rw [hhistory, map_append, hcalls]; rfl, fun before c' r' after heq => ?_⟩
      rw [hhistory] at heq
      -- the last call, or one before it
      rcases eq_nil_or_concat after with rfl | ⟨rest, last, rfl⟩
      · obtain ⟨rfl, hlast⟩ := append_inj' heq rfl
        cases hlast
        exact hexpected
      · rw [concat_eq_append, ← cons_append, ← append_assoc] at heq
        exact hpast before c' r' rest (append_inj' heq rfl).1
  obtain ⟨hagrees, hcalls, hpast⟩ := hall
  exact ⟨hcalls, hpast, hagrees.holds, hagrees.step_isSome⟩

/-- Two capabilities are added, the first is released, and a third gets a new id. -/
theorem run_agrees_reuse : ∃ s, Runs.run step {} [.addNewCapability ⟨0, 5, 1⟩, .addExistingCapability ⟨1, 6, 2⟩,
        .releaseCapability 0x100, .addNewCapability ⟨2, 7, 3⟩, .getCapability 0x100] = some s ∧
      s.table.getCapability 0x100 = none ∧ s.table.getCapability 0x102 = some ⟨2, 7, 3⟩ ∧
      (s.step (.addNewCapability ⟨3, 8, 4⟩)).isSome = true := by
  have h : (Runs.run step {} [.addNewCapability ⟨0, 5, 1⟩, .addExistingCapability ⟨1, 6, 2⟩,
      .releaseCapability 0x100, .addNewCapability ⟨2, 7, 3⟩, .getCapability 0x100]).map
      (fun s => (stored s.history 0x100, stored s.history 0x102, (returned s.history).length)) =
      some (none, some ⟨2, 7, 3⟩, 3) := by decide +kernel
  obtain ⟨s, hrun, hs⟩ := map_eq_some_iff.mp h
  obtain ⟨-, -, hholds, hnext⟩ := run_agrees hrun
  rw [Prod.mk.injEq, Prod.mk.injEq] at hs
  refine ⟨s, hrun, (hholds _).trans hs.1, (hholds _).trans hs.2.1, hnext ?_ _⟩
  rw [hs.2.2]
  decide

end TableRun

end Acadia.Zion
