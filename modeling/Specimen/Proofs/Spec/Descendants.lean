import Specimen.Proofs.Table
import Specimen.Spec.Registry
/-!
# What lies inside a description

What lies inside a child lies inside its parent, and a walk with a stack comes to all of it in
preorder. A registry only knows descriptions of its entries, and what a reference resolves to is
one of these, the empty description, or the reference itself. A property of everything inside a
description (`Spec.Everywhere`) goes over to all that a generation can meet.
-/

namespace Specimen

namespace Spec

/-- The walk takes each description before all that lies inside it, and that
before the rest of the stack. -/
theorem walk_eq (stack : List Spec) : walk stack = stack.flatMap preorder := by
  fun_induction walk with
  | case1 => rfl
  | case2 s stack ih =>
      rw [ih, List.foldr_cons_eq_append', List.flatMap_append, List.flatMap_cons, preorder_eq s]
      rfl

theorem walk_singleton (s : Spec) : walk [s] = s.preorder := by
  rw [walk_eq, List.flatMap_singleton]

theorem self_mem_preorder (s : Spec) : s ∈ s.preorder := by
  rw [preorder_eq]
  exact List.mem_cons_self

theorem mem_preorder_of_child {s c d : Spec} (hc : c ∈ s.children) (hd : d ∈ c.preorder) :
    d ∈ s.preorder := by
  rw [preorder_eq]
  exact List.mem_cons_of_mem _ (List.mem_flatMap.2 ⟨c, hc, hd⟩)

theorem spec_mem_children {s : Spec} {o : ChoiceOption Spec} (ho : o ∈ s.options) :
    o.spec ∈ s.children :=
  List.mem_append_right _ (List.mem_map_of_mem ho)

theorem typeElements_mem_children {s c : Spec} (hc : s.typeElements = some c) :
    c ∈ s.children := by
  refine List.mem_append_left _ (List.mem_append_left _ ?_)
  rw [hc]
  exact List.mem_singleton_self c

theorem sizeOf_lt_of_mem_children {s c : Spec} (hc : c ∈ s.children) : sizeOf c < sizeOf s := by
  cases s
  rename_i kind method parameters value pattern keys typeElements minLength maxLength options
    maxDepth storeRef loadRef extra
  simp only [children, List.mem_append, List.mem_flatMap, List.mem_map, Option.mem_toList] at hc
  simp only [Spec.mk.sizeOf_spec]
  obtain (rfl | ⟨k, hk, hc⟩) | ⟨o, ho, rfl⟩ := hc
  · simp only [Option.some.sizeOf_spec]
    omega
  · have hkey := List.sizeOf_lt_of_mem hk
    have hown : sizeOf c < sizeOf k := by
      obtain ⟨name, value, times, chance⟩ := k
      cases name <;>
      simp only [KeyDecl.specs, KeyName.specs, List.nil_append, List.cons_append, List.mem_cons,
        List.not_mem_nil, or_false] at hc <;>
      simp only [KeyDecl.mk.sizeOf_spec, KeyName.generated.sizeOf_spec,
        KeyName.fixed.sizeOf_spec]
      · subst hc
        omega
      · rcases hc with rfl | rfl <;> omega
    omega
  · have hoption := List.sizeOf_lt_of_mem ho
    obtain ⟨chance, spec⟩ := o
    simp only [ChoiceOption.mk.sizeOf_spec] at hoption ⊢
    omega

/-- Induction over what lies inside. -/
theorem induction_children {P : Spec → Prop} (h : ∀ s : Spec, (∀ c ∈ s.children, P c) → P s)
    (s : Spec) : P s := by
  induction hn : sizeOf s using Nat.strongRecOn generalizing s with
  | ind n ih => exact h s fun c hc => ih _ (hn ▸ sizeOf_lt_of_mem_children hc) c rfl

theorem mem_preorder_trans {s t u : Spec} (hs : s ∈ t.preorder) (ht : t ∈ u.preorder) :
    s ∈ u.preorder := by
  induction u using induction_children with
  | h u ih =>
      rw [preorder_eq] at ht
      rcases List.mem_cons.1 ht with rfl | ht
      · exact hs
      · obtain ⟨c, hc, ht⟩ := List.mem_flatMap.1 ht
        exact mem_preorder_of_child hc (ih c hc ht)

/-- The description and all inside it have a property. -/
def Everywhere (Q : Spec → Prop) (s : Spec) : Prop := ∀ t ∈ s.preorder, Q t

namespace Everywhere

variable {Q Q' : Spec → Prop} {s c : Spec}

theorem self (h : s.Everywhere Q) : Q s := h s s.self_mem_preorder

theorem child (h : s.Everywhere Q) (hc : c ∈ s.children) : c.Everywhere Q :=
  fun t ht => h t (mem_preorder_of_child hc ht)

theorem mono (h : s.Everywhere Q) (himp : ∀ t, Q t → Q' t) : s.Everywhere Q' :=
  fun t ht => himp t (h t ht)

theorem of_children (hs : Q s) (hc : ∀ c ∈ s.children, c.Everywhere Q) : s.Everywhere Q := by
  intro t ht
  rw [preorder_eq] at ht
  rcases List.mem_cons.1 ht with rfl | ht
  · exact hs
  · obtain ⟨c, hmem, ht⟩ := List.mem_flatMap.1 ht
    exact hc c hmem t ht

theorem empty (hempty : Q .empty) : Spec.empty.Everywhere Q :=
  of_children hempty fun c hc => by cases hc

end Everywhere

end Spec

namespace Registry

variable {r : Registry} {s : Spec} {name : String}

theorem follow_of_none (hops : Nat) (h : s.loadRef = none) : r.follow hops s = s := by
  unfold follow
  rw [h]

theorem follow_zero_of_some (h : s.loadRef = some name) : r.follow 0 s = .empty := by
  unfold follow
  rw [h]

theorem follow_succ_of_some (hops : Nat) (h : s.loadRef = some name) :
    r.follow (hops + 1) s = ((r.get? name).map (r.follow hops)).getD .empty := by
  rw [follow, h]
  cases hget : r.get? name <;> simp [hget]

/-- What a reference leads to has every property that the reference, the entries and the empty
description have. -/
theorem follow_induction {P : Spec → Prop} (hempty : P .empty)
    (hentries : ∀ name t, r.get? name = some t → P t) {hops : Nat} (hs : P s) :
    P (r.follow hops s) := by
  induction hops generalizing s with
  | zero =>
      cases hload : s.loadRef with
      | none => rwa [follow_of_none 0 hload]
      | some name => rwa [follow_zero_of_some hload]
  | succ hops ih =>
      cases hload : s.loadRef with
      | none => rwa [follow_of_none _ hload]
      | some name =>
          rw [follow_succ_of_some _ hload]
          cases hget : r.get? name with
          | none => exact hempty
          | some t => exact ih (hentries name t hget)

/-- The entries of a registry have a property, and all inside them. -/
def Everywhere (Q : Spec → Prop) (r : Registry) : Prop :=
  ∀ name t, r.get? name = some t → t.Everywhere Q

theorem Everywhere.resolve {Q : Spec → Prop} (h : r.Everywhere Q) (hempty : Q .empty)
    (hs : s.Everywhere Q) : (r.resolve s).Everywhere Q :=
  follow_induction (.empty hempty) h hs

theorem build_eq (root : Spec) :
    build root = ⟨Table.ofList (root.preorder.filterMap fun s => s.storeRef.map (·, s))⟩ := by
  rw [build, Spec.walk_singleton]

/-- The entries of a registry lie inside the description that it is built from. -/
theorem mem_preorder_of_build {root : Spec} (h : (build root).get? name = some s) :
    s ∈ root.preorder ∧ s.storeRef = some name := by
  rw [build_eq] at h
  have hmem := Table.mem_of_mem_ofList (Table.mem_of_get? h)
  obtain ⟨t, ht, hname⟩ := List.mem_filterMap.1 hmem
  obtain ⟨name', hstore, hpair⟩ := Option.map_eq_some_iff.1 hname
  cases hpair
  exact ⟨ht, hstore⟩

theorem everywhere_build {Q : Spec → Prop} {root : Spec} (h : root.Everywhere Q) :
    (build root).Everywhere Q :=
  fun _ _ hget t ht => h t (Spec.mem_preorder_trans ht (mem_preorder_of_build hget).1)

end Registry

end Specimen
