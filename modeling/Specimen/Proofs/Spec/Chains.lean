import Mathlib.Data.List.Perm.Subperm
import Specimen.Proofs.Spec.Alike
/-!
# Chains of loads

A description that loads a name leads on to the entry of that name. The chain of a description
ends in one that loads nothing, or it meets a name without an entry, or it goes on for ever
(`ends_or_breaks_or_endless`). A chain that ends loads a name only once, so it is no longer than
the registry has names (`EndsAfter.le_size`), and a limit that allows as many loads never cuts it
off. `resolution` says what each kind of chain resolves to.
-/

namespace Specimen.Registry

/-- The entry that a description loads. -/
def loaded? (r : Registry) (s : Spec) : Option Spec := s.loadRef.bind r.get?

/-- Where the chain of a description is after so many loads. -/
def chain (r : Registry) (s : Spec) : Nat → Option Spec
  | 0 => some s
  | k + 1 => (r.chain s k).bind r.loaded?

/-- The chain of `s` ends in `t`, after `k` loads. -/
structure EndsAfter (r : Registry) (s : Spec) (k : Nat) (t : Spec) : Prop where
  reached : r.chain s k = some t
  loadRef : t.loadRef = none

/-- A chain that meets a name without an entry. -/
def Breaks (r : Registry) (s : Spec) : Prop :=
  ∃ k t name, r.chain s k = some t ∧ t.loadRef = some name ∧ r.get? name = none

/-- A chain that can always go on. -/
def IsEndless (r : Registry) (s : Spec) : Prop := ∀ k, ∃ t, r.chain s k = some t

variable {r : Registry} {s t u : Spec} {name : String} {k : Nat}

theorem loaded?_of_some (hload : s.loadRef = some name) : r.loaded? s = r.get? name := by
  rw [loaded?, hload, Option.bind_some]

theorem loaded?_eq_some :
    r.loaded? s = some t ↔ ∃ name, s.loadRef = some name ∧ r.get? name = some t :=
  Option.bind_eq_some_iff

/-- The first load comes before the chain of the entry that it leads to. -/
theorem chain_succ (s : Spec) (k : Nat) :
    r.chain s (k + 1) = (r.loaded? s).bind fun t => r.chain t k := by
  induction k with
  | zero => cases h : r.loaded? s <;> simp [chain, h]
  | succ k ih =>
      rw [chain, ih, Option.bind_assoc]
      rfl

theorem chain_succ_of_loaded (h : r.loaded? s = some t) : r.chain s (k + 1) = r.chain t k := by
  rw [chain_succ, h, Option.bind_some]

theorem EndsAfter.succ_iff :
    r.EndsAfter s (k + 1) t ↔ ∃ u, r.loaded? s = some u ∧ r.EndsAfter u k t := by
  constructor
  · rintro ⟨hreached, hend⟩
    rw [chain_succ] at hreached
    obtain ⟨u, hu, hreached⟩ := Option.bind_eq_some_iff.1 hreached
    exact ⟨u, hu, hreached, hend⟩
  · rintro ⟨u, hu, hreached, hend⟩
    exact ⟨(chain_succ_of_loaded hu).trans hreached, hend⟩

/-- A chain ends only once. -/
theorem EndsAfter.unique {j : Nat} (h : r.EndsAfter s k t) (h' : r.EndsAfter s j u) : k = j := by
  induction k generalizing s j with
  | zero =>
      obtain ⟨⟨⟩, hend⟩ := h
      cases j with
      | zero => rfl
      | succ j =>
          obtain ⟨v, hv, -⟩ := succ_iff.1 h'
          obtain ⟨name, hload, -⟩ := loaded?_eq_some.1 hv
          rw [hend] at hload
          cases hload
  | succ k ih =>
      obtain ⟨v, hv, h⟩ := succ_iff.1 h
      cases j with
      | zero =>
          obtain ⟨⟨⟩, hend⟩ := h'
          obtain ⟨name, hload, -⟩ := loaded?_eq_some.1 hv
          rw [hend] at hload
          cases hload
      | succ j =>
          obtain ⟨w, hw, h'⟩ := succ_iff.1 h'
          obtain rfl : v = w := Option.some.inj (hv.symm.trans hw)
          exact congrArg (· + 1) (ih h h')

/-! ## The three ways of a chain -/

theorem ends_or_breaks_or_endless (r : Registry) (s : Spec) :
    (∃ k t, r.EndsAfter s k t) ∨ r.Breaks s ∨ r.IsEndless s := by
  by_cases hend : ∃ k t, r.EndsAfter s k t
  · exact .inl hend
  by_cases hbreak : r.Breaks s
  · exact .inr (.inl hbreak)
  refine .inr (.inr fun k => ?_)
  induction k with
  | zero => exact ⟨s, rfl⟩
  | succ k ih =>
      obtain ⟨t, ht⟩ := ih
      rw [chain, ht, Option.bind_some]
      cases hload : t.loadRef with
      | none => exact absurd ⟨k, t, ht, hload⟩ hend
      | some name =>
          rw [loaded?_of_some hload]
          cases hget : r.get? name with
          | none => exact absurd ⟨k, t, name, ht, hload, hget⟩ hbreak
          | some u => exact ⟨u, rfl⟩

theorem EndsAfter.chain_eq_none (h : r.EndsAfter s k t) : r.chain s (k + 1) = none := by
  rw [chain, h.reached, Option.bind_some, loaded?, h.loadRef, Option.bind_none]

theorem EndsAfter.not_endless (h : r.EndsAfter s k t) : ¬ r.IsEndless s := by
  intro hendless
  obtain ⟨u, hu⟩ := hendless (k + 1)
  rw [h.chain_eq_none] at hu
  cases hu

theorem Breaks.loads (h : r.Breaks s) :
    ∃ name, s.loadRef = some name ∧ ∀ t, r.get? name = some t → r.Breaks t := by
  obtain ⟨k, t, name, hreached, hload, hget⟩ := h
  cases k with
  | zero =>
      obtain rfl := Option.some.inj hreached
      exact ⟨name, hload, fun t ht => by rw [hget] at ht; cases ht⟩
  | succ k =>
      rw [chain_succ] at hreached
      obtain ⟨u, hu, hreached⟩ := Option.bind_eq_some_iff.1 hreached
      obtain ⟨first, hfirst, hentry⟩ := loaded?_eq_some.1 hu
      refine ⟨first, hfirst, fun v hv => ?_⟩
      obtain rfl : u = v := Option.some.inj (hentry.symm.trans hv)
      exact ⟨k, t, name, hreached, hload, hget⟩

theorem IsEndless.loads (h : r.IsEndless s) :
    ∃ name, s.loadRef = some name ∧ ∀ t, r.get? name = some t → r.IsEndless t := by
  obtain ⟨t, ht⟩ := h 1
  rw [chain_succ] at ht
  obtain ⟨u, hu, -⟩ := Option.bind_eq_some_iff.1 ht
  obtain ⟨name, hload, hentry⟩ := loaded?_eq_some.1 hu
  refine ⟨name, hload, fun v hv k => ?_⟩
  obtain rfl : u = v := Option.some.inj (hentry.symm.trans hv)
  obtain ⟨t, ht⟩ := h (k + 1)
  exact ⟨t, by rwa [chain_succ_of_loaded hu] at ht⟩

theorem EndsAfter.not_breaks (h : r.EndsAfter s k t) : ¬ r.Breaks s := by
  intro hbreak
  induction k generalizing s with
  | zero =>
      obtain ⟨⟨⟩, hend⟩ := h
      obtain ⟨name, hload, -⟩ := hbreak.loads
      rw [hend] at hload
      cases hload
  | succ k ih =>
      obtain ⟨u, hu, h⟩ := succ_iff.1 h
      obtain ⟨name, hload, hon⟩ := hbreak.loads
      rw [loaded?_of_some hload] at hu
      exact ih h (hon u hu)

theorem EndsAfter.loads (h : r.EndsAfter s k t) {j : Nat} (hj : j < k) :
    ∃ u name, r.chain s j = some u ∧ u.loadRef = some name := by
  induction k generalizing s j with
  | zero => cases hj
  | succ k ih =>
      obtain ⟨v, hv, h⟩ := succ_iff.1 h
      cases j with
      | zero =>
          obtain ⟨name, hload, -⟩ := loaded?_eq_some.1 hv
          exact ⟨s, name, rfl, hload⟩
      | succ j =>
          rw [chain_succ_of_loaded hv]
          exact ih h (Nat.lt_of_succ_lt_succ hj)

/-! ## Following a chain -/

/-- If a property calls for a load and passes on to what is loaded, a description that has
it leads to the empty one. -/
theorem follow_of_unending {Q : Spec → Prop}
    (hQ : ∀ s, Q s → ∃ name, s.loadRef = some name ∧ ∀ t, r.get? name = some t → Q t)
    (hops : Nat) (hs : Q s) : r.follow hops s = .empty := by
  induction hops generalizing s with
  | zero =>
      obtain ⟨name, hload, -⟩ := hQ s hs
      exact follow_zero_of_some hload
  | succ hops ih =>
      obtain ⟨name, hload, hon⟩ := hQ s hs
      rw [follow_succ_of_some _ hload]
      cases hget : r.get? name with
      | none => rfl
      | some t => exact ih (hon t hget)

theorem EndsAfter.follow_eq (h : r.EndsAfter s k t) {hops : Nat} (hle : k ≤ hops) :
    r.follow hops s = t := by
  induction k generalizing s hops with
  | zero =>
      obtain ⟨⟨⟩, hend⟩ := h
      exact follow_of_none _ hend
  | succ k ih =>
      obtain ⟨u, hu, h⟩ := succ_iff.1 h
      obtain ⟨name, hload, hget⟩ := loaded?_eq_some.1 hu
      obtain ⟨hops, rfl⟩ : ∃ n, hops = n + 1 := ⟨hops - 1, by omega⟩
      rw [follow_succ_of_some _ hload, hget]
      exact ih h (Nat.le_of_succ_le_succ hle)

/-! ## The length of a chain that ends -/

/-- The names that a chain loads on the way to its end: they are as many as its loads, no two of
them are the same, and from the entry of each there are fewer loads to the end. -/
theorem EndsAfter.exists_names (h : r.EndsAfter s k t) :
    ∃ ns : List String, ns.length = k ∧ ns.Nodup ∧ ns ⊆ r.names ∧
      ∀ n ∈ ns, ∃ j < k, ∃ u, r.get? n = some u ∧ r.EndsAfter u j t := by
  induction k generalizing s with
  | zero => exact ⟨[], rfl, .nil, nofun, nofun⟩
  | succ k ih =>
      obtain ⟨u, hu, h⟩ := succ_iff.1 h
      obtain ⟨name, -, hget⟩ := loaded?_eq_some.1 hu
      obtain ⟨ns, hlength, hnodup, hnames, hshorter⟩ := ih h
      refine ⟨name :: ns, by rw [List.length_cons, hlength], List.nodup_cons.2 ⟨?_, hnodup⟩,
        ?_, ?_⟩
      · -- A name that is loaded again would be as far from the end as it was before.
        intro hmem
        obtain ⟨j, hlt, v, hv, hagain⟩ := hshorter name hmem
        obtain rfl : u = v := Option.some.inj (hget.symm.trans hv)
        exact absurd (h.unique hagain) (Nat.ne_of_gt hlt)
      · exact List.cons_subset.2 ⟨List.mem_map_of_mem (Table.mem_of_get? hget), hnames⟩
      · refine List.forall_mem_cons.2 ⟨⟨k, Nat.lt_succ_self k, u, hget, h⟩, fun n hn => ?_⟩
        obtain ⟨j, hlt, hentry⟩ := hshorter n hn
        exact ⟨j, Nat.lt_succ_of_lt hlt, hentry⟩

/-- A chain that ends is no longer than the registry has names. -/
theorem EndsAfter.le_size (h : r.EndsAfter s k t) : k ≤ r.size := by
  obtain ⟨ns, rfl, hnodup, hnames, -⟩ := h.exists_names
  have hle := (List.subperm_of_subset hnodup hnames).length_le
  rwa [names, Table.names, List.length_map] at hle

/-! ## Resolution -/

/-- The entries of a registry that is built from a description are not
empty: they store a name. -/
theorem ne_empty_of_build {root : Spec} (h : (build root).get? name = some t) : t ≠ .empty := by
  rintro rfl
  cases (mem_preorder_of_build h).2

theorem EndsAfter.eq_empty {root : Spec} (h : (build root).EndsAfter s k .empty) :
    s = .empty := by
  induction k generalizing s with
  | zero => exact Option.some.inj h.reached
  | succ k ih =>
      obtain ⟨u, hu, h⟩ := succ_iff.1 h
      obtain ⟨name, -, hget⟩ := loaded?_eq_some.1 hu
      exact absurd (ih h) (ne_empty_of_build hget)

/-- What a description resolves to, by its chain. -/
structure Resolution (r : Registry) (s : Spec) : Prop where
  /-- The first description of the chain that loads nothing. -/
  ending : ∀ k t, r.EndsAfter s k t →
    r.resolve s = t ∧ ∀ j < k, ∃ u name, r.chain s j = some u ∧ u.loadRef = some name
  /-- A chain without an end meets an unknown name or goes on for ever. -/
  unending : (r.Breaks s ∨ r.IsEndless s) ↔ ¬ ∃ k t, r.EndsAfter s k t
  /-- Exactly then the answer is an empty description that is not the end of the chain. -/
  fallback : (r.Breaks s ∨ r.IsEndless s) ↔
    r.resolve s = .empty ∧ ¬ ∃ k, r.EndsAfter s k .empty
  /-- No entry of a registry that is built is empty, so there only the chain of the empty
  description has an empty end. -/
  built : ∀ root, r = build root → s ≠ .empty →
    (r.resolve s = .empty ↔ r.Breaks s ∨ r.IsEndless s)
  loadRef : (r.resolve s).loadRef = none
  idempotent : r.resolve (r.resolve s) = r.resolve s
  /-- A chain that ends has at most one load for each name of the registry. -/
  length : ∀ k t, r.EndsAfter s k t → k ≤ r.size
  /-- A limit that allows one load for each name cuts off no chain that ends. -/
  limit : ∀ hops, r.size ≤ hops → r.follow hops s = r.resolve s

theorem resolution (r : Registry) (s : Spec) : r.Resolution s := by
  have hends : ∀ {k t}, r.EndsAfter s k t → ∀ {hops}, r.size ≤ hops → r.follow hops s = t :=
    fun h _ hle => h.follow_eq (Nat.le_trans h.le_size hle)
  have hresolve : ∀ {k t}, r.EndsAfter s k t → r.resolve s = t :=
    fun h => hends h (Nat.le_succ _)
  have hunended : r.Breaks s ∨ r.IsEndless s → ∀ hops, r.follow hops s = .empty := by
    rintro (h | h) hops
    · exact follow_of_unending (fun _ => Breaks.loads) hops h
    · exact follow_of_unending (fun _ => IsEndless.loads) hops h
  have hunending : r.Breaks s ∨ r.IsEndless s ↔ ¬ ∃ k t, r.EndsAfter s k t := by
    constructor
    · rintro h ⟨k, t, hend⟩
      exact h.elim hend.not_breaks hend.not_endless
    · exact (ends_or_breaks_or_endless r s).resolve_left
  have hfallback : r.Breaks s ∨ r.IsEndless s ↔
      r.resolve s = .empty ∧ ¬ ∃ k, r.EndsAfter s k .empty := by
    constructor
    · exact fun h => ⟨hunended h _, fun ⟨k, hend⟩ => hunending.1 h ⟨k, _, hend⟩⟩
    · rintro ⟨hempty, hnone⟩
      refine hunending.2 fun ⟨k, t, hend⟩ => hnone ⟨k, ?_⟩
      rwa [← hempty, hresolve hend]
  exact {
    ending := fun k t hend => ⟨hresolve hend, fun j hj => hend.loads hj⟩
    unending := hunending
    fallback := hfallback
    built := by
      rintro root rfl hne
      have hnone : ¬ ∃ k, (build root).EndsAfter s k .empty := fun ⟨k, hend⟩ => hne hend.eq_empty
      exact ⟨fun hempty => hfallback.2 ⟨hempty, hnone⟩, fun h => (hfallback.1 h).1⟩
    loadRef := loadRef_resolve r s
    idempotent := resolve_of_none (loadRef_resolve r s)
    length := fun k t hend => hend.le_size
    limit := fun hops hle => by
      rcases ends_or_breaks_or_endless r s with ⟨k, t, hend⟩ | h
      · rw [hends hend hle, hresolve hend]
      · rw [hunended h, (hfallback.1 h).1] }

/-- A chain through every name of a registry. -/
example : (Registry.mk [("a", { loadRef := some "b" }), ("b", { loadRef := some "c" }),
    ("c", { kind := some "integer" })]).resolve { loadRef := some "a" } =
      { kind := some "integer" } := rfl

end Specimen.Registry
