import Specimen.Table
/-!
# What a table holds

Looking up a name in a table that is made of pairs gives the last of its values, and the table
has no entries but these pairs. If their names are all different it has every one of them. In a
table of counts each increment adds one to the total.
-/

namespace Specimen.Table

variable {α : Type} {t : Table α} {name : String}

theorem get?_insert (t : Table α) (name other : String) (value : α) :
    get? (insert t name value) other = if name = other then some value else get? t other := by
  induction t with
  | nil => rfl
  | cons entry rest ih =>
      obtain ⟨k, v⟩ := entry
      by_cases hlt : name < k
      · simp only [insert, if_pos hlt, get?]
      · by_cases hsame : name = k
        · subst hsame
          simp only [insert, if_neg hlt, if_pos, get?]
          by_cases hother : name = other <;> simp [hother]
        · simp only [insert, if_neg hlt, if_neg hsame, get?, ih]
          by_cases hother : name = other
          · rw [if_pos hother, if_pos hother, if_neg (hother ▸ Ne.symm hsame)]
          · rw [if_neg hother, if_neg hother]

/-- Of two pairs with one name the later counts. -/
theorem lookup_reverse_cons (k name : String) (v : α) (pairs : List (String × α)) :
    ((k, v) :: pairs).reverse.lookup name =
      (pairs.reverse.lookup name).or (if k = name then some v else none) := by
  rw [List.reverse_cons, List.lookup_append]
  by_cases hname : k = name
  · rw [if_pos hname, hname, List.lookup_cons_self]
  · rw [if_neg hname, List.lookup_cons, beq_eq_false_iff_ne.2 (Ne.symm hname)]
    rfl

/-- The last pair of a name counts. -/
theorem get?_ofList (pairs : List (String × α)) (name : String) :
    (ofList pairs).get? name = pairs.reverse.lookup name := by
  have hfold : ∀ t : Table α, (pairs.foldl (fun t p => t.insert p.1 p.2) t).get? name =
      (pairs.reverse.lookup name).or (t.get? name) := by
    induction pairs with
    | nil => exact fun _ => rfl
    | cons pair pairs ih =>
        intro t
        obtain ⟨k, v⟩ := pair
        rw [List.foldl_cons, ih, get?_insert, lookup_reverse_cons, Option.or_assoc]
        refine congrArg _ ?_
        by_cases hname : k = name
        · rw [if_pos hname, if_pos hname, Option.some_or]
        · rw [if_neg hname, if_neg hname, Option.none_or]
  exact (hfold []).trans Option.or_none

/-- The names of a table are those of the pairs it is made of. -/
theorem isSome_get?_ofList (pairs : List (String × α)) (name : String) :
    ((ofList pairs).get? name).isSome = true ↔ name ∈ pairs.map (·.1) := by
  rw [get?_ofList, ← Decidable.not_iff_not, Bool.not_eq_true, Option.isSome_eq_false_iff,
    Option.isNone_iff_eq_none, List.lookup_eq_none_iff, List.mem_map]
  constructor
  · rintro h ⟨pair, hpair, rfl⟩
    simpa using h pair (List.mem_reverse.2 hpair)
  · exact fun h pair hpair => bne_iff_ne.2 fun hname =>
      h ⟨pair, List.mem_reverse.1 hpair, hname.symm⟩

/-- Where names are distinct, looking one up finds whatever stands with it. -/
theorem lookup_eq_some_iff_mem {pairs : List (String × α)} (h : (pairs.map Prod.fst).Nodup)
    {v : α} : pairs.lookup name = some v ↔ (name, v) ∈ pairs := by
  induction pairs with
  | nil => simp
  | cons entry pairs ih =>
      obtain ⟨k, w⟩ := entry
      obtain ⟨hk, hpairs⟩ := List.nodup_cons.1 h
      rw [List.lookup_cons, List.mem_cons, Prod.mk.injEq]
      by_cases hname : name = k
      · subst hname
        have hmem : (name, v) ∉ pairs := fun hv => hk (List.mem_map.2 ⟨_, hv, rfl⟩)
        simp [hmem, eq_comm]
      · rw [beq_eq_false_iff_ne.2 hname]
        simp [hname, ih hpairs]

theorem lookup_filter {pairs : List (String × α)} (h : (pairs.map Prod.fst).Nodup) (p : α → Bool)
    (name : String) :
    (pairs.filter fun pair => p pair.2).lookup name = (pairs.lookup name).filter p := by
  refine Option.ext fun v => ?_
  rw [lookup_eq_some_iff_mem (h.sublist (List.filter_sublist.map _)), List.mem_filter,
    Option.filter_eq_some_iff, lookup_eq_some_iff_mem h]

theorem lookup_eq_of_perm {pairs others : List (String × α)} (hperm : pairs.Perm others)
    (h : (others.map Prod.fst).Nodup) (name : String) :
    pairs.lookup name = others.lookup name := by
  refine Option.ext fun v => ?_
  rw [lookup_eq_some_iff_mem ((hperm.map Prod.fst).nodup_iff.2 h), lookup_eq_some_iff_mem h,
    hperm.mem_iff]

theorem mem_names : name ∈ t.names ↔ ∃ v, t.get? name = some v := by
  induction t with
  | nil => simp [names, get?]
  | cons entry t ih =>
      obtain ⟨k, v⟩ := entry
      rw [names, List.map_cons, List.mem_cons, ← names, ih, get?]
      by_cases hk : k = name
      · simp [hk]
      · simp [hk, Ne.symm hk]

/-! ## Entries -/

theorem mem_of_get? {v : α} (h : t.get? name = some v) : (name, v) ∈ t := by
  induction t with
  | nil => cases h
  | cons entry t ih =>
      obtain ⟨k, w⟩ := entry
      simp only [get?] at h
      split at h
      · rename_i hname
        cases h
        rw [hname]
        exact List.mem_cons_self
      · exact List.mem_cons_of_mem _ (ih h)

theorem mem_of_mem_insert {v : α} {entry : String × α} (h : entry ∈ t.insert name v) :
    entry = (name, v) ∨ entry ∈ t := by
  induction t with
  | nil => exact .inl (List.mem_singleton.1 h)
  | cons first t ih =>
      simp only [insert] at h
      split at h
      · exact List.mem_cons.1 h
      · split at h
        · exact (List.mem_cons.1 h).imp_right (List.mem_cons_of_mem _)
        · rcases List.mem_cons.1 h with rfl | h
          · exact .inr List.mem_cons_self
          · exact (ih h).imp_right (List.mem_cons_of_mem _)

/-- A table has no other entries than those it is made of. -/
theorem mem_of_mem_ofList {pairs : List (String × α)} {entry : String × α}
    (h : entry ∈ ofList pairs) : entry ∈ pairs := by
  have hfold : ∀ (rest : List (String × α)) (t : Table α),
      entry ∈ rest.foldl (fun t p => t.insert p.1 p.2) t → entry ∈ rest ∨ entry ∈ t := by
    intro rest
    induction rest with
    | nil => exact fun t h => .inr h
    | cons first rest ih =>
        intro t h
        rcases ih _ h with h | h
        · exact .inl (List.mem_cons_of_mem _ h)
        · rcases mem_of_mem_insert h with rfl | h
          · exact .inl List.mem_cons_self
          · exact .inr h
  exact (hfold pairs [] h).resolve_right List.not_mem_nil

theorem insert_perm {t : Table α} {name : String} (h : name ∉ t.names) (value : α) :
    (t.insert name value).Perm ((name, value) :: t) := by
  induction t with
  | nil => exact .refl _
  | cons entry rest ih =>
      obtain ⟨k, v⟩ := entry
      obtain ⟨hne, hrest⟩ := not_or.1 (mt List.mem_cons.2 h)
      unfold insert
      by_cases hlt : name < k
      · rw [if_pos hlt]
      · rw [if_neg hlt, if_neg hne]
        exact ((ih hrest).cons _).trans (.swap _ _ _)

theorem foldl_insert_perm {pairs : List (String × α)} {t : Table α}
    (h : ((pairs ++ t).map Prod.fst).Nodup) :
    (pairs.foldl (fun t (k, v) => insert t k v) t).Perm (pairs ++ t) := by
  induction pairs generalizing t with
  | nil => exact .refl t
  | cons pair pairs ih =>
      obtain ⟨k, v⟩ := pair
      have hnew : k ∉ t.names := by
        have hall : k ∉ (pairs ++ t).map Prod.fst := (List.nodup_cons.1 h).1
        rw [List.map_append, List.mem_append] at hall
        exact fun hk => hall (.inr hk)
      have hperm : (pairs ++ t.insert k v).Perm ((k, v) :: (pairs ++ t)) :=
        ((insert_perm hnew v).append_left pairs).trans List.perm_middle
      have hnodup : ((pairs ++ t.insert k v).map Prod.fst).Nodup :=
        (hperm.map Prod.fst).nodup_iff.2 h
      exact (ih hnodup).trans hperm

/-- A table of pairs with distinct names has them all. -/
theorem perm_ofList {pairs : List (String × α)} (h : (pairs.map Prod.fst).Nodup) :
    (ofList pairs).Perm pairs := by
  have hfold := foldl_insert_perm (t := []) (by rwa [List.append_nil])
  rwa [List.append_nil] at hfold

/-! ## Tables of counts -/

/-- The sum of the counts. -/
def total : Table Nat → Nat
  | [] => 0
  | (_, n) :: t => n + total t

/-- The names of a table stand in ascending order, each once. -/
def Ascending (t : Table α) : Prop := t.names.Pairwise (· < ·)

theorem get?_eq_none_of_forall_lt (h : ∀ k ∈ t.names, name < k) : t.get? name = none := by
  refine Option.eq_none_iff_forall_not_mem.2 fun v hv => ?_
  exact String.lt_irrefl name (h name (mem_names.2 ⟨v, hv⟩))

theorem lt_of_not_lt {a b : String} (h : ¬ a < b) (hne : a ≠ b) : b < a :=
  String.not_le.1 fun hle => hne (String.le_antisymm hle (String.not_lt.1 h))

theorem Ascending.insert (h : Ascending t) (name : String) (value : α) :
    Ascending (t.insert name value) := by
  induction t with
  | nil => exact List.pairwise_singleton _ _
  | cons entry t ih =>
      obtain ⟨k, v⟩ := entry
      obtain ⟨hk, ht⟩ := List.pairwise_cons.1 h
      unfold Table.insert
      by_cases hlt : name < k
      · rw [if_pos hlt]
        exact List.pairwise_cons.2
          ⟨List.forall_mem_cons.2 ⟨hlt, fun a ha => String.lt_trans hlt (hk a ha)⟩, h⟩
      · by_cases hsame : name = k
        · rw [if_neg hlt, if_pos hsame, hsame]
          exact h
        · rw [if_neg hlt, if_neg hsame]
          refine List.pairwise_cons.2 ⟨fun a ha => ?_, ih ht⟩
          obtain ⟨entry, hentry, rfl⟩ := List.mem_map.1 ha
          rcases mem_of_mem_insert hentry with rfl | hentry
          · exact lt_of_not_lt hlt hsame
          · exact hk _ (List.mem_map_of_mem hentry)

/-- A count takes the place of the one that its name had. -/
theorem total_insert {t : Table Nat} (h : Ascending t) (name : String) (n : Nat) :
    total (t.insert name n) + (t.get? name).getD 0 = total t + n := by
  induction t with
  | nil => simp [insert, get?, total]
  | cons entry t ih =>
      obtain ⟨k, m⟩ := entry
      obtain ⟨hk, ht⟩ := List.pairwise_cons.1 h
      unfold insert get?
      by_cases hlt : name < k
      · have hne : k ≠ name := fun hsame => String.lt_irrefl k (hsame ▸ hlt)
        have hnone : get? t name = none :=
          get?_eq_none_of_forall_lt fun a ha => String.lt_trans hlt (hk a ha)
        simp only [if_pos hlt, if_neg hne, hnone, total, Option.getD_none]
        omega
      · by_cases hsame : name = k
        · simp only [if_neg hlt, if_pos hsame, if_pos hsame.symm, total, Option.getD_some]
          omega
        · have := ih ht
          simp only [if_neg hlt, if_neg hsame, if_neg (Ne.symm hsame), total]
          omega

theorem total_increment {t : Table Nat} (h : Ascending t) (name : String) :
    total (t.increment name) = total t + 1 := by
  have := total_insert h name ((t.get? name).getD 0 + 1)
  rw [increment]
  omega

end Specimen.Table
