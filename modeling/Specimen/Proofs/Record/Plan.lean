import Mathlib.Algebra.GroupWithZero.Nat
import Specimen.Proofs.Engine.Children
/-!
# Which entries of a record are kept

The occurrences of a record are its declarations, each as often as it may have entries. A plan
walks them in their order and looks at the presence of each, so its draws give a list of
outcomes. Without any room to respect, the occurrences and the outcomes alone say which entries
are present. The main statement is that a plan keeps of those the longest prefix that fits,
whatever the outcomes of the occurrences would be that it never looks at.
-/

namespace Specimen.Record

open Specimen.Random

/-- The declarations, each as often as it may have entries. -/
def occurrences (keys : List (KeyDecl Spec)) : List (KeyDecl Spec) :=
  keys.flatMap fun k => List.replicate k.times k

def entryOf (k : KeyDecl Spec) : Entry := ⟨k.name, k.value⟩

/-- The entries of the occurrences whose outcome is that they are present. -/
def present : List (KeyDecl Spec) → List Bool → List Entry
  | k :: ks, true :: os => entryOf k :: present ks os
  | _ :: ks, false :: os => present ks os
  | _, _ => []

/-- The queue slots that entries need. -/
def slots (entries : List Entry) : Nat := queuedCount (entries.flatMap Entry.children)

@[simp] theorem slots_nil : slots [] = 0 := rfl

@[simp] theorem slots_cons_entryOf (k : KeyDecl Spec) (entries : List Entry) :
    slots (entryOf k :: entries) = k.need + slots entries := by
  obtain ⟨name, value, times, chance⟩ := k
  cases name <;> simp [slots, entryOf, Entry.children, KeyDecl.need] <;> omega

/-- Of `all` entries the first ones that fit, and no prefix that fits has more of them. -/
structure LongestFit (room : Option Nat) (kept all : List Entry) : Prop where
  isPrefix : kept <+: all
  fits : ∀ n ∈ room, slots kept ≤ n
  longest : ∀ entries, entries <+: all → (∀ n ∈ room, slots entries ≤ n) →
    entries.length ≤ kept.length

/-- The presence outcomes that the draws from `s` to `t` give for the first of some occurrences,
where the entries in `seen` were present before, the latest first. -/
inductive Observed : List Entry → List (KeyDecl Spec) → List Bool → Source → Source → Prop
  | nil {seen : List Entry} {ks : List (KeyDecl Spec)} {s : Source} : Observed seen ks [] s s
  | cons {seen : List Entry} {k : KeyDecl Spec} {ks : List (KeyDecl Spec)} {o : Bool}
      {os : List Bool} {s s' t : Source} :
      isPresent { entries := seen, room := none } k.chance s = some (o, s') →
      Observed (if o then entryOf k :: seen else seen) ks os s' t →
      Observed seen (k :: ks) (o :: os) s t

/-- The walk of a plan over occurrences. -/
inductive Walk : Plan → List (KeyDecl Spec) → List Bool → Source → Plan → Source → Prop
  | done {p : Plan} {s : Source} : Walk p [] [] s p s
  | absent {p q : Plan} {k : KeyDecl Spec} {ks : List (KeyDecl Spec)} {os : List Bool}
      {s s' t : Source} :
      isPresent p k.chance s = some (false, s') → Walk p ks os s' q t →
      Walk p (k :: ks) (false :: os) s q t
  | kept {p q : Plan} {k : KeyDecl Spec} {ks : List (KeyDecl Spec)} {os : List Bool}
      {s s' t : Source} :
      isPresent p k.chance s = some (true, s') → p.fits k.need →
      Walk (p.keep k) ks os s' q t → Walk p (k :: ks) (true :: os) s q t
  | cut {p : Plan} {k : KeyDecl Spec} {ks : List (KeyDecl Spec)} {s t : Source} :
      isPresent p k.chance s = some (true, t) → ¬ p.fits k.need →
      Walk p (k :: ks) [true] s
        { p with cut := some (min countLimit (((k :: ks).map KeyDecl.need).sum)) } t

variable {p q : Plan} {k : KeyDecl Spec} {ks keys : List (KeyDecl Spec)} {os : List Bool}
  {s t : Source}

theorem isPresent_congr (h : p.entries = q.entries) (c : Chance) :
    isPresent p c = isPresent q c := by
  cases c <;> simp [isPresent, Plan.hasName, h]

/-! ## A plan is a walk over the occurrences -/

theorem sum_need_replicate (n : Nat) (k : KeyDecl Spec) :
    ((List.replicate n k).map KeyDecl.need).sum = n * k.need := by
  simp

theorem needs_eq_sum_occurrences (keys : List (KeyDecl Spec)) :
    needs keys = ((occurrences keys).map KeyDecl.need).sum := by
  induction keys with
  | nil => rfl
  | cons k keys ih =>
      simp only [needs, occurrences, List.foldr_cons, List.flatMap_cons, List.map_append,
        List.sum_append] at ih ⊢
      rw [sum_need_replicate, ih]

/-- The occurrences of one declaration, followed by others: either the plan is cut among them, or
any walk over the others completes it. -/
theorem walk_of_planKey {rest : List (KeyDecl Spec)} {later left : Nat}
    (hlater : later = (rest.map KeyDecl.need).sum) (hp : p.cut = none)
    (h : planKey later k left p s = some (q, t)) :
    (q.cut.isSome ∧ ∃ os, Walk p (List.replicate left k ++ rest) os s q t) ∨
      (q.cut = none ∧ ∀ os q' t', Walk q rest os t q' t' →
        ∃ os', Walk p (List.replicate left k ++ rest) os' s q' t') := by
  induction left generalizing p s with
  | zero =>
      obtain ⟨rfl, rfl⟩ := Draw.pure_eq_some.1 h
      exact .inr ⟨hp, fun os q' t' hw => ⟨os, hw⟩⟩
  | succ left ih =>
      obtain ⟨o, s', ho, h⟩ := Draw.bind_eq_some.1 h
      rw [List.replicate_succ, List.cons_append]
      cases o with
      | false =>
          rcases ih hp h with ⟨hq, os, hw⟩ | ⟨hq, hrest⟩
          · exact .inl ⟨hq, _, .absent ho hw⟩
          · refine .inr ⟨hq, fun os q' t' hw => ?_⟩
            obtain ⟨os', hw'⟩ := hrest os q' t' hw
            exact ⟨_, .absent ho hw'⟩
      | true =>
          by_cases hfit : p.fits k.need
          · rw [if_pos rfl, if_pos hfit] at h
            rcases ih (p := p.keep k) hp h with ⟨hq, os, hw⟩ | ⟨hq, hrest⟩
            · exact .inl ⟨hq, _, .kept ho hfit hw⟩
            · refine .inr ⟨hq, fun os q' t' hw => ?_⟩
              obtain ⟨os', hw'⟩ := hrest os q' t' hw
              exact ⟨_, .kept ho hfit hw'⟩
          · rw [if_pos rfl, if_neg hfit] at h
            obtain ⟨rfl, rfl⟩ := Draw.pure_eq_some.1 h
            refine .inl ⟨rfl, [true], ?_⟩
            have hsum : (left + 1) * k.need + later =
                ((k :: (List.replicate left k ++ rest)).map KeyDecl.need).sum := by
              rw [List.map_cons, List.map_append, List.sum_cons, List.sum_append,
                sum_need_replicate, hlater, Nat.succ_mul]
              omega
            rw [hsum]
            exact .cut ho hfit

theorem walk_of_plan (hp : p.cut = none) (h : plan keys p s = some (q, t)) :
    ∃ os, Walk p (occurrences keys) os s q t := by
  induction keys generalizing p s with
  | nil =>
      obtain ⟨rfl, rfl⟩ := Draw.pure_eq_some.1 h
      exact ⟨[], .done⟩
  | cons k keys ih =>
      obtain ⟨p', s', hk, h⟩ := Draw.bind_eq_some.1 h
      rcases walk_of_planKey (needs_eq_sum_occurrences keys) hp hk with
        ⟨hcut, os, hw⟩ | ⟨hcut, hw⟩
      · rw [if_pos hcut] at h
        obtain ⟨rfl, rfl⟩ := Draw.pure_eq_some.1 h
        exact ⟨os, hw⟩
      · rw [hcut] at h
        obtain ⟨os, hrest⟩ := ih hcut h
        exact hw os q t hrest

/-! ## What a walk keeps -/

theorem Walk.observed (h : Walk p ks os s q t) : Observed p.entries ks os s t := by
  induction h with
  | done => exact .nil
  | absent ho _ ih => exact .cons ((isPresent_congr rfl _).symm ▸ ho) ih
  | kept ho _ _ ih => exact .cons ((isPresent_congr rfl _).symm ▸ ho) ih
  | cut ho _ => exact .cons ((isPresent_congr rfl _).symm ▸ ho) .nil

theorem fits_iff {n : Nat} : p.fits n = true ↔ ∀ m ∈ p.room, n ≤ m := by
  cases h : p.room <;> simp [Plan.fits, h]

theorem mem_room_keep {n : Nat} : n ∈ (p.keep k).room ↔ ∃ m ∈ p.room, m - k.need = n := by
  simp [Plan.keep]

theorem LongestFit.nil (room : Option Nat) : LongestFit room [] [] :=
  ⟨List.prefix_rfl, by simp, fun entries h _ => h.length_le⟩

theorem LongestFit.of_not_fits {entries : List Entry} (h : ¬ p.fits k.need) :
    LongestFit p.room [] (entryOf k :: entries) := by
  refine ⟨List.nil_prefix, by simp, fun es hes hfits => ?_⟩
  rcases List.prefix_cons_iff.1 hes with rfl | ⟨es', rfl, -⟩
  · exact Nat.le_refl _
  · refine absurd (fits_iff.2 fun m hm => ?_) h
    have := hfits m hm
    rw [slots_cons_entryOf] at this
    omega

theorem LongestFit.cons {kept all : List Entry} (hfit : p.fits k.need)
    (h : LongestFit (p.keep k).room kept all) :
    LongestFit p.room (entryOf k :: kept) (entryOf k :: all) := by
  rw [fits_iff] at hfit
  refine ⟨List.cons_prefix_cons.2 ⟨rfl, h.isPrefix⟩, fun m hm => ?_, fun es hes hfits => ?_⟩
  · have := h.fits (m - k.need) (mem_room_keep.2 ⟨m, hm, rfl⟩)
    have := hfit m hm
    rw [slots_cons_entryOf]
    omega
  · rcases List.prefix_cons_iff.1 hes with rfl | ⟨es', rfl, hes'⟩
    · exact Nat.zero_le _
    · have := h.longest es' hes' fun n hn => by
        obtain ⟨m, hm, rfl⟩ := mem_room_keep.1 hn
        have := hfits m hm
        rw [slots_cons_entryOf] at this
        omega
      simpa using this

/-- A walk keeps, of all entries that are present, the longest prefix that fits. The outcomes
that it has not looked at make no difference. -/
theorem Walk.longestFit (h : Walk p ks os s q t) :
    ∃ kept, q.entries = kept.reverse ++ p.entries ∧ ∀ more, (os ++ more).length = ks.length →
      LongestFit p.room kept (present ks (os ++ more)) := by
  induction h with
  | done => exact ⟨[], rfl, fun more _ => by simpa [present] using LongestFit.nil _⟩
  | absent ho _ ih =>
      obtain ⟨kept, hq, hkept⟩ := ih
      exact ⟨kept, hq, fun more hmore => hkept more (by simpa using hmore)⟩
  | @kept p q k ks os s s' t ho hfit _ ih =>
      obtain ⟨kept, hq, hkept⟩ := ih
      refine ⟨entryOf k :: kept, ?_, fun more hmore => ?_⟩
      · rw [hq, List.reverse_cons, List.append_assoc]
        rfl
      · exact .cons hfit (hkept more (by simpa using hmore))
  | cut ho hfit => exact ⟨[], rfl, fun more _ => .of_not_fits hfit⟩

/-! ## Plans from the start -/

/-- A plan that starts with nothing keeps the longest prefix that fits of the entries that are
present. -/
theorem longestFit_of_plan {room : Option Nat} (h : plan keys { room } s = some (q, t)) :
    ∃ os, Observed [] (occurrences keys) os s t ∧
      ∀ more, (os ++ more).length = (occurrences keys).length →
        LongestFit room q.entries.reverse (present (occurrences keys) (os ++ more)) := by
  obtain ⟨os, hw⟩ := walk_of_plan rfl h
  obtain ⟨kept, hq, hkept⟩ := hw.longestFit
  rw [List.append_nil] at hq
  refine ⟨os, hw.observed, fun more hmore => ?_⟩
  rw [hq, List.reverse_reverse]
  exact hkept more hmore

theorem Observed.length_le {seen : List Entry} (h : Observed seen ks os s t) :
    os.length ≤ ks.length := by
  induction h with
  | nil => exact Nat.zero_le _
  | cons _ _ ih => exact Nat.succ_le_succ ih

/-- The occurrences that a plan has not looked at may as well be absent. -/
theorem exists_longestFit_of_plan {room : Option Nat} (h : plan keys { room } s = some (q, t)) :
    ∃ os, LongestFit room q.entries.reverse (present (occurrences keys) os) := by
  obtain ⟨os, hos, hkept⟩ := longestFit_of_plan h
  refine ⟨os ++ List.replicate ((occurrences keys).length - os.length) false, hkept _ ?_⟩
  have := hos.length_le
  simp only [List.length_append, List.length_replicate]
  omega

theorem mem_occurrences : k ∈ occurrences keys ↔ k ∈ keys ∧ 0 < k.times := by
  simp only [occurrences, List.mem_flatMap, List.mem_replicate]
  constructor
  · rintro ⟨k', hk', htimes, rfl⟩
    exact ⟨hk', Nat.pos_of_ne_zero htimes⟩
  · rintro ⟨hk, htimes⟩
    exact ⟨k, hk, Nat.ne_of_gt htimes, rfl⟩

theorem mem_of_mem_present {entry : Entry} (h : entry ∈ present ks os) :
    ∃ k ∈ ks, entry = entryOf k := by
  induction ks generalizing os with
  | nil => cases h
  | cons k ks ih =>
      have hlater : ∀ os', entry ∈ present ks os' → ∃ k' ∈ k :: ks, entry = entryOf k' := by
        intro os' hmem
        obtain ⟨k', hk', hentry⟩ := ih hmem
        exact ⟨k', List.mem_cons_of_mem _ hk', hentry⟩
      match os with
      | [] => cases h
      | true :: os' =>
          rcases List.mem_cons.1 h with rfl | h
          · exact ⟨k, List.mem_cons_self, rfl⟩
          · exact hlater os' h
      | false :: os' => exact hlater os' h

/-- Every entry that a plan keeps is one of a declaration that may have entries. -/
theorem mem_entries_of_plan {room : Option Nat} {entry : Entry}
    (h : plan keys { room } s = some (q, t)) (hmem : entry ∈ q.entries) :
    ∃ k ∈ keys, 0 < k.times ∧ entry = entryOf k := by
  obtain ⟨os, hkept⟩ := exists_longestFit_of_plan h
  obtain ⟨k, hk, rfl⟩ := mem_of_mem_present (hkept.isPrefix.subset (List.mem_reverse.2 hmem))
  obtain ⟨hk, htimes⟩ := mem_occurrences.1 hk
  exact ⟨k, hk, htimes, rfl⟩

theorem queuedCount_le_of_plan {room : Option Nat} (h : plan keys { room } s = some (q, t)) :
    ∀ n ∈ room, queuedCount q.children ≤ n := by
  obtain ⟨os, hkept⟩ := exists_longestFit_of_plan h
  exact hkept.fits

theorem slots_present_le (ks : List (KeyDecl Spec)) (os : List Bool) :
    slots (present ks os) ≤ (ks.map KeyDecl.need).sum := by
  fun_induction present ks os with
  | case1 k ks os ih =>
      simp only [slots_cons_entryOf, List.map_cons, List.sum_cons]
      omega
  | case2 k ks os ih =>
      simp only [List.map_cons, List.sum_cons]
      omega
  | case3 => exact Nat.zero_le _

/-- Whatever room there is, a plan queues no more than its declarations may need. -/
theorem queuedCount_le_needs_of_plan {room : Option Nat}
    (h : plan keys { room } s = some (q, t)) : queuedCount q.children ≤ needs keys := by
  obtain ⟨os, hkept⟩ := exists_longestFit_of_plan h
  obtain ⟨rest, hrest⟩ := hkept.isPrefix
  have hall := slots_present_le (occurrences keys) os
  rw [← hrest, slots, List.flatMap_append, queuedCount_append,
    ← needs_eq_sum_occurrences] at hall
  exact Nat.le_trans (Nat.le_add_right _ _) hall

/-! ## Plans with room to spare -/

theorem queuedCount_children (p : Plan) : queuedCount p.children = slots p.entries := by
  rw [Plan.children, slots]
  induction p.entries with
  | nil => rfl
  | cons e es ih =>
      simp only [List.reverse_cons, List.flatMap_append, List.flatMap_cons, List.flatMap_nil,
        List.append_nil, queuedCount_append, ih]
      omega

/-- The plan as it would be if its entries had been kept out of so many slots. -/
def Plan.within (p : Plan) (limit : Nat) : Plan :=
  { p with room := some (limit - slots p.entries) }

@[simp] theorem entries_within (limit : Nat) : (p.within limit).entries = p.entries := rfl

theorem slots_keep : slots (p.keep k).entries = k.need + slots p.entries :=
  slots_cons_entryOf k p.entries

theorem keep_within (limit : Nat) : (p.within limit).keep k = (p.keep k).within limit := by
  simp only [Plan.within, slots_keep]
  simp only [Plan.keep, Option.map_some, Nat.sub_sub, Nat.add_comm]

theorem fits_within {limit : Nat} (h : slots (p.keep k).entries ≤ limit) :
    (p.within limit).fits k.need = true := by
  rw [slots_keep] at h
  refine fits_iff.2 fun m hm => ?_
  obtain rfl : limit - slots p.entries = m := Option.some.inj hm
  omega

/-- A plan without a limit stays without one, and what it has kept stays kept. -/
theorem planKey_unlimited {later left : Nat} (hroom : p.room = none)
    (h : planKey later k left p s = some (q, t)) :
    q.room = none ∧ slots p.entries ≤ slots q.entries := by
  induction left generalizing p s with
  | zero =>
      obtain ⟨rfl, -⟩ := Draw.pure_eq_some.1 h
      exact ⟨hroom, Nat.le_refl _⟩
  | succ left ih =>
      obtain ⟨o, s', -, h⟩ := Draw.bind_eq_some.1 h
      cases o with
      | false => exact ih hroom h
      | true =>
          have hfits : p.fits k.need = true := by rw [Plan.fits, hroom]; rfl
          rw [if_pos rfl, if_pos hfits] at h
          obtain ⟨hq, hle⟩ := ih (by rw [Plan.keep, hroom]; rfl) h
          rw [slots_keep] at hle
          exact ⟨hq, by omega⟩

theorem planKey_within {later left limit : Nat} (hroom : p.room = none)
    (h : planKey later k left p s = some (q, t)) (hlimit : slots q.entries ≤ limit) :
    planKey later k left (p.within limit) s = some (q.within limit, t) := by
  induction left generalizing p s with
  | zero =>
      obtain ⟨rfl, rfl⟩ := Draw.pure_eq_some.1 h
      rfl
  | succ left ih =>
      obtain ⟨o, s', ho, h⟩ := Draw.bind_eq_some.1 h
      refine Draw.bind_eq_some.2 ⟨o, s', ho, ?_⟩
      cases o with
      | false => exact ih hroom h
      | true =>
          have hfits : p.fits k.need = true := by rw [Plan.fits, hroom]; rfl
          have hkeep : (p.keep k).room = none := by rw [Plan.keep, hroom]; rfl
          rw [if_pos rfl, if_pos hfits] at h
          have hle := (planKey_unlimited hkeep h).2
          rw [if_pos rfl, if_pos (fits_within (Nat.le_trans hle hlimit)), keep_within]
          exact ih hkeep h

theorem plan_unlimited (hroom : p.room = none) (h : plan keys p s = some (q, t)) :
    slots p.entries ≤ slots q.entries := by
  induction keys generalizing p s with
  | nil =>
      obtain ⟨rfl, -⟩ := Draw.pure_eq_some.1 h
      exact Nat.le_refl _
  | cons k keys ih =>
      obtain ⟨p', s', hk, h⟩ := Draw.bind_eq_some.1 h
      obtain ⟨hroom', hle⟩ := planKey_unlimited hroom hk
      split at h
      · obtain ⟨rfl, -⟩ := Draw.pure_eq_some.1 h
        exact hle
      · exact Nat.le_trans hle (ih hroom' h)

/-- A plan that has kept entries without any limit keeps the same ones
if there is room for them. -/
theorem plan_within {limit : Nat} (hroom : p.room = none) (h : plan keys p s = some (q, t))
    (hlimit : slots q.entries ≤ limit) :
    plan keys (p.within limit) s = some (q.within limit, t) := by
  induction keys generalizing p s with
  | nil =>
      obtain ⟨rfl, rfl⟩ := Draw.pure_eq_some.1 h
      rfl
  | cons k keys ih =>
      obtain ⟨p', s', hk, h⟩ := Draw.bind_eq_some.1 h
      obtain ⟨hroom', -⟩ := planKey_unlimited hroom hk
      by_cases hcut : p'.cut.isSome
      · rw [if_pos hcut] at h
        obtain ⟨rfl, rfl⟩ := Draw.pure_eq_some.1 h
        refine Draw.bind_eq_some.2 ⟨_, _, planKey_within hroom hk hlimit, ?_⟩
        rw [if_pos (show (p'.within limit).cut.isSome from hcut)]
        rfl
      · rw [if_neg hcut] at h
        have hle := plan_unlimited hroom' h
        refine Draw.bind_eq_some.2
          ⟨_, _, planKey_within hroom hk (Nat.le_trans hle hlimit), ?_⟩
        rw [if_neg (show ¬ (p'.within limit).cut.isSome from hcut)]
        exact ih hroom' h

/-! ## Plans without chance -/

theorem planKey_of_always {later left : Nat} (hroom : p.room = none) (h : k.chance = .always) :
    planKey later k left p s =
      some ({ p with entries := List.replicate left (entryOf k) ++ p.entries }, s) := by
  induction left generalizing p with
  | zero => rfl
  | succ left ih =>
      have hpresent : isPresent p k.chance s = some (true, s) := by
        rw [h]
        rfl
      have hfits : p.fits k.need = true := by
        rw [Plan.fits, hroom]
        rfl
      have hkeep : (p.keep k).room = none := by
        rw [Plan.keep, hroom]
        rfl
      refine Draw.bind_eq_some.2 ⟨true, s, hpresent, ?_⟩
      rw [if_pos rfl, if_pos hfits, ih hkeep, Plan.keep, hroom, List.replicate_succ',
        List.append_assoc]
      rfl

/-- Where every entry is present and none has to fit, a plan keeps them all and draws nothing. -/
theorem plan_of_always (hroom : p.room = none) (hcut : p.cut = none)
    (h : ∀ k ∈ keys, k.chance = .always) :
    plan keys p s =
      some ({ p with entries := ((occurrences keys).map entryOf).reverse ++ p.entries }, s) := by
  induction keys generalizing p with
  | nil => rfl
  | cons k keys ih =>
      rw [List.forall_mem_cons] at h
      have hrest :=
        ih (p := { p with entries := List.replicate k.times (entryOf k) ++ p.entries })
        hroom hcut h.2
      refine Draw.bind_eq_some.2 ⟨_, _, planKey_of_always hroom h.1, ?_⟩
      rw [if_neg (by rw [hcut]; decide), hrest]
      have hoccurrences :
          occurrences (k :: keys) = List.replicate k.times k ++ occurrences keys :=
        List.flatMap_cons
      rw [hoccurrences, List.map_append, List.map_replicate, List.reverse_append,
        List.reverse_replicate, List.append_assoc]

end Specimen.Record
