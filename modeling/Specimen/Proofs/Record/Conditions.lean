import Mathlib.Data.List.Forall2
import Specimen.Proofs.Record.Fields
import Specimen.Proofs.Record.Stops
import Specimen.Spec.Reader
/-!
# Entries that depend on others

An entry may be present just if another name has been kept, or just if it has not. A plan decides
about it when it comes to its declaration (`condition_of_plan`); as what is kept stays kept, this
is so at the end of the plan, if no declaration of the other name comes later. The fields that
are put together from the children have just the names of the entries whose values are done.
-/

namespace Specimen

/-- Present just if the name has been kept, or just if it has not. -/
def Chance.onSeen (name : String) : Bool → Chance
  | true => .ifSeen name
  | false => .ifNotSeen name

/-- How such a chance is written: an exclamation mark stands before a
name that must be absent. -/
theorem Spec.chanceOf_onSeen (a : String) :
    chanceOf (.str ("!" ++ a)) = .onSeen a false ∧
      (a.toList.head? ≠ some '!' → chanceOf (.str a) = .onSeen a true) := by
  constructor
  · have hlist : ("!" ++ a).toList = '!' :: a.toList := by simp
    simp only [chanceOf, hlist, String.ofList_toList]
    rfl
  · intro h
    simp only [chanceOf]
    split
    · rename_i rest hlist
      rw [hlist] at h
      exact absurd rfl h
    · rfl

namespace Record

open Specimen.Random

/-- A declaration of this name, and not of a generated one. -/
def Declares (k : KeyDecl Spec) (name : String) : Prop := k.name = .fixed name

variable {p q : Plan} {k : KeyDecl Spec} {keys : List (KeyDecl Spec)} {s t : Source}
    {a b : String}

theorem isNamed_entryOf : (entryOf k).isNamed a = true ↔ Declares k a := by
  obtain ⟨name, value, times, chance⟩ := k
  cases name <;> simp [entryOf, Entry.isNamed, Declares]

theorem hasName_keep : (p.keep k).hasName a = ((entryOf k).isNamed a || p.hasName a) := rfl

theorem isPresent_onSeen (p : Plan) (a : String) (seen : Bool) (s : Source) :
    isPresent p (.onSeen a seen) s = some (p.hasName a == seen, s) := by
  cases seen <;> cases h : p.hasName a <;> simp [isPresent, Chance.onSeen, h] <;> rfl

/-! ## The names that a plan has kept -/

theorem hasName_of_planKey {later left : Nat} (ha : ¬ Declares k a)
    (h : planKey later k left p s = some (q, t)) : q.hasName a = p.hasName a := by
  induction left generalizing p s with
  | zero =>
      obtain ⟨rfl, -⟩ := Draw.pure_eq_some.1 h
      rfl
  | succ left ih =>
      obtain ⟨o, s', -, h⟩ := Draw.bind_eq_some.1 h
      cases o with
      | false => exact ih h
      | true =>
          rw [if_pos rfl] at h
          split at h
          · rw [ih h, hasName_keep, Bool.eq_false_iff.2 (mt isNamed_entryOf.1 ha), Bool.false_or]
          · obtain ⟨rfl, -⟩ := Draw.pure_eq_some.1 h
            rfl

/-- Declarations of other names make no difference to whether a name is kept. -/
theorem hasName_of_plan (ha : ∀ k ∈ keys, ¬ Declares k a) (h : plan keys p s = some (q, t)) :
    q.hasName a = p.hasName a := by
  induction keys generalizing p s with
  | nil =>
      obtain ⟨rfl, -⟩ := Draw.pure_eq_some.1 h
      rfl
  | cons k keys ih =>
      obtain ⟨hk, hkeys⟩ := List.forall_mem_cons.1 ha
      obtain ⟨p', s', hplan, h⟩ := Draw.bind_eq_some.1 h
      rw [← hasName_of_planKey hk hplan]
      split at h
      · obtain ⟨rfl, -⟩ := Draw.pure_eq_some.1 h
        rfl
      · exact ih hkeys h

/-- What a declaration that depends on another name makes of its own: what it keeps fits its
condition, and unless it is cut off it keeps an entry if its condition is met. -/
theorem condition_of_planKey {later left : Nat} {seen : Bool} (hb : Declares k b)
    (ha : ¬ Declares k a) (hchance : k.chance = .onSeen a seen)
    (hold : p.hasName b = true → p.hasName a = seen)
    (h : planKey later k left p s = some (q, t)) :
    (q.hasName b = true → q.hasName a = seen) ∧
      (q.cut = none → 0 < left ∨ p.hasName b = true → q.hasName a = seen →
        q.hasName b = true) := by
  induction left generalizing p s with
  | zero =>
      obtain ⟨rfl, -⟩ := Draw.pure_eq_some.1 h
      exact ⟨hold, fun _ hname _ => hname.resolve_left (Nat.lt_irrefl 0)⟩
  | succ left ih =>
      obtain ⟨o, s', ho, hrest⟩ := Draw.bind_eq_some.1 h
      rw [hchance, isPresent_onSeen] at ho
      obtain ⟨rfl, rfl⟩ : (p.hasName a == seen) = o ∧ s = s' := by simpa using ho
      by_cases hmet : p.hasName a = seen
      · rw [if_pos (beq_iff_eq.2 hmet)] at hrest
        split at hrest
        · have hkeep : (p.keep k).hasName a = seen := by
            rw [hasName_keep, Bool.eq_false_iff.2 (mt isNamed_entryOf.1 ha), Bool.false_or, hmet]
          obtain ⟨hfits, hkept⟩ := ih (fun _ => hkeep) hrest
          have hnamed : (p.keep k).hasName b = true := by
            rw [hasName_keep, isNamed_entryOf.2 hb, Bool.true_or]
          exact ⟨hfits, fun hcut _ => hkept hcut (.inr hnamed)⟩
        · obtain ⟨rfl, -⟩ := Draw.pure_eq_some.1 hrest
          exact ⟨hold, fun hcut => nomatch hcut⟩
      · rw [if_neg (mt beq_iff_eq.1 hmet)] at hrest
        have hsame : q.hasName a = p.hasName a := hasName_of_planKey ha h
        exact ⟨(ih hold hrest).1, fun _ _ hseen => absurd (hsame.symm.trans hseen) hmet⟩

/-- An entry that depends on another name is kept just if its condition is met at the end of the
plan, and none is kept against it even if the plan is cut off. -/
theorem condition_of_plan {before after : List (KeyDecl Spec)} {seen : Bool}
    (h : plan (before ++ k :: after) p s = some (q, t)) (hb : Declares k b) (hne : a ≠ b)
    (hchance : k.chance = .onSeen a seen) (hbefore : ∀ k' ∈ before, ¬ Declares k' b)
    (hafter : ∀ k' ∈ after, ¬ Declares k' b ∧ ¬ Declares k' a) (hp : p.hasName b = false) :
    (q.hasName b = true → q.hasName a = seen) ∧
      (q.cut = none → 0 < k.times → q.hasName a = seen → q.hasName b = true) := by
  induction before generalizing p s with
  | nil =>
      have ha : ¬ Declares k a := fun ha => by
        rw [Declares, show k.name = .fixed b from hb] at ha
        cases ha
        exact hne rfl
      have hold : p.hasName b = true → p.hasName a = seen := fun h => by simp [hp] at h
      obtain ⟨p', s', hkey, h⟩ := Draw.bind_eq_some.1 h
      obtain ⟨hfits, hkept⟩ := condition_of_planKey hb ha hchance hold hkey
      by_cases hcut : p'.cut.isSome
      · rw [if_pos hcut] at h
        obtain ⟨rfl, -⟩ := Draw.pure_eq_some.1 h
        exact ⟨hfits, fun hnone htimes => hkept hnone (.inl htimes)⟩
      · rw [if_neg hcut] at h
        rw [hasName_of_plan (fun k' hk' => (hafter k' hk').1) h,
          hasName_of_plan (fun k' hk' => (hafter k' hk').2) h]
        exact ⟨hfits, fun _ htimes => hkept (by simpa using hcut) (.inl htimes)⟩
  | cons first before ih =>
      obtain ⟨hfirst, hbefore⟩ := List.forall_mem_cons.1 hbefore
      obtain ⟨p', s', hkey, h⟩ := Draw.bind_eq_some.1 h
      have hp' : p'.hasName b = false := (hasName_of_planKey hfirst hkey).trans hp
      by_cases hcut : p'.cut.isSome
      · rw [if_pos hcut] at h
        obtain ⟨rfl, -⟩ := Draw.pure_eq_some.1 h
        exact ⟨fun hb => by simp [hp'] at hb, fun hnone => by simp [hnone] at hcut⟩
      · rw [if_neg hcut] at h
        exact ih h hbefore hp'

/-! ## What is cut off -/

/-- What is cut off is counted as at least one child, and as a 64-bit number. -/
def Plan.CutCounts (p : Plan) : Prop := ∀ n ∈ p.cut, 0 < n ∧ n ≤ countLimit

theorem cutCounts_of_planKey {later left : Nat} (hp : p.CutCounts)
    (h : planKey later k left p s = some (q, t)) : q.CutCounts := by
  induction left generalizing p s with
  | zero =>
      obtain ⟨rfl, -⟩ := Draw.pure_eq_some.1 h
      exact hp
  | succ left ih =>
      obtain ⟨o, s', -, h⟩ := Draw.bind_eq_some.1 h
      cases o with
      | false => exact ih hp h
      | true =>
          rw [if_pos rfl] at h
          split at h
          · exact ih (p := p.keep k) hp h
          · obtain ⟨rfl, -⟩ := Draw.pure_eq_some.1 h
            rintro n hn
            cases hn
            have hneed : 0 < (left + 1) * k.need := Nat.mul_pos (Nat.succ_pos left) (need_pos k)
            have hlimit : 0 < countLimit := by decide
            exact ⟨by omega, Nat.min_le_left _ _⟩

theorem cutCounts_of_plan (hp : p.CutCounts) (h : plan keys p s = some (q, t)) :
    q.CutCounts := by
  induction keys generalizing p s with
  | nil =>
      obtain ⟨rfl, -⟩ := Draw.pure_eq_some.1 h
      exact hp
  | cons k keys ih =>
      obtain ⟨p', s', hkey, h⟩ := Draw.bind_eq_some.1 h
      have hp' := cutCounts_of_planKey hp hkey
      split at h
      · obtain ⟨rfl, -⟩ := Draw.pure_eq_some.1 h
        exact hp'
      · exact ih hp' h

/-- A plan that adds nothing to the count of dropped children has cut nothing off. -/
theorem cut_eq_none_of_plan {room : Option Nat} (h : plan keys { room } s = some (q, t))
    (hzero : UInt64.ofNat (q.cut.getD 0) = 0) : q.cut = none := by
  have hcounts := cutCounts_of_plan (p := { room }) nofun h
  cases hcut : q.cut with
  | none => rfl
  | some n =>
      obtain ⟨hpos, hlimit⟩ := hcounts n hcut
      rw [hcut, Option.getD_some] at hzero
      have hmod := congrArg UInt64.toNat hzero
      simp only [UInt64.toNat_ofNat', countLimit, UInt64.size] at hmod hlimit
      have : n % 2 ^ 64 = 0 := hmod
      omega

/-! ## The fields of entries with fixed names -/

/-- What has come of a child: a ready value as it was, another one through. -/
inductive Answers : Child → Outcome → Prop
  | ready (v : Json) : Answers (.ready v) ⟨.done, v⟩
  | made (spec : Spec) (v : Json) : Answers (.queued spec) ⟨.done, v⟩
  | truncated (spec : Spec) (v : Json) : Answers (.queued spec) ⟨.truncated, v⟩

/-- Fields have the names of entries, and where no value was cut off they have them all. -/
theorem names_of_assemble {entries : List Entry} {outcomes : List Outcome}
    (h : List.Forall₂ Answers (entries.flatMap Entry.children) outcomes)
    (hfixed : ∀ e ∈ entries, ∃ text, e.name = .fixed text) (name : String) :
    (name ∈ (assemble outcomes).map (·.1) → entries.any (Entry.isNamed name) = true) ∧
      ((∀ o ∈ outcomes, o.stage ≠ .truncated) → entries.any (Entry.isNamed name) = true →
        name ∈ (assemble outcomes).map (·.1)) := by
  induction entries generalizing outcomes with
  | nil =>
      cases h
      simp [assemble]
  | cons e entries ih =>
      obtain ⟨⟨text, htext⟩, hfixed⟩ := List.forall_mem_cons.1 hfixed
      have hnamed : e.isNamed name = true ↔ text = name := by simp [Entry.isNamed, htext]
      have hchildren : (e :: entries).flatMap Entry.children =
          .ready (.str text) :: .queued e.value :: entries.flatMap Entry.children := by
        simp only [List.flatMap_cons, Entry.children, htext, List.cons_append, List.nil_append]
      rw [hchildren] at h
      obtain ⟨first, others, hfirst, hothers, rfl⟩ := List.forall₂_cons_left_iff.1 h
      obtain ⟨value, rest, hvalue, hrest, rfl⟩ := List.forall₂_cons_left_iff.1 hothers
      obtain ⟨hsound, hcomplete⟩ := ih hrest hfixed
      cases hfirst
      rw [assemble_cons, List.map_append, List.mem_append, List.any_cons, Bool.or_eq_true,
        hnamed]
      simp only [List.forall_mem_cons]
      cases hvalue with
      | made _ v =>
          have hfield : field? ⟨.done, .str text⟩ ⟨.done, v⟩ = some (text, v) := rfl
          rw [hfield, Option.toList_some, List.map_singleton, List.mem_singleton]
          exact ⟨Or.imp Eq.symm hsound, fun hall => Or.imp Eq.symm (hcomplete hall.2.2)⟩
      | truncated _ v =>
          have hfield : field? ⟨.done, .str text⟩ ⟨.truncated, v⟩ = none := rfl
          rw [hfield, Option.toList_none]
          exact ⟨fun hname => .inr (hsound (hname.resolve_left List.not_mem_nil)),
            fun hall => absurd rfl hall.2.1⟩

/-! ## Keys that depend on others -/

/-- In a record of fixed names the key `b` is declared once, and is present just if the key `a`
is (`seen`) or just if it is not. All declarations of `a` come before. -/
structure Depends (keys : List (KeyDecl Spec)) (b a : String) (seen : Bool) : Prop where
  fixed : ∀ k ∈ keys, ∃ text, k.name = .fixed text
  ne : a ≠ b
  declared : ∃ before k after, keys = before ++ k :: after ∧ Declares k b ∧ 0 < k.times ∧
    k.chance = .onSeen a seen ∧ (∀ k' ∈ before ++ after, ¬ Declares k' b) ∧
      ∀ k' ∈ after, ¬ Declares k' a

/-- What a plan keeps of a key that depends on another one. -/
theorem Depends.kept {room : Option Nat} {seen : Bool} (hd : Depends keys b a seen)
    (h : plan keys { room } s = some (q, t)) :
    (q.hasName b = true → q.hasName a = seen) ∧
      (q.cut = none → q.hasName a = seen → q.hasName b = true) := by
  obtain ⟨before, k, after, rfl, hb, htimes, hchance, honce, hafter⟩ := hd.declared
  rw [List.forall_mem_append] at honce
  obtain ⟨hfits, hkept⟩ := condition_of_plan h hb hd.ne hchance honce.1
    (fun k' hk' => ⟨honce.2 k' hk', hafter k' hk'⟩) rfl
  exact ⟨hfits, fun hcut => hkept hcut htimes⟩

/-- The fields of a planned record. Where nothing was cut off they have just the kept names. -/
theorem Depends.names {room : Option Nat} {seen : Bool} (hd : Depends keys b a seen)
    (h : plan keys { room } s = some (q, t)) {outcomes : List Outcome}
    (hanswers : List.Forall₂ Answers q.children outcomes) (name : String) :
    (name ∈ (assemble outcomes).map (·.1) → q.hasName name = true) ∧
      ((∀ o ∈ outcomes, o.stage ≠ .truncated) → q.hasName name = true →
        name ∈ (assemble outcomes).map (·.1)) := by
  have hfixed : ∀ e ∈ q.entries.reverse, ∃ text, e.name = .fixed text := by
    intro e he
    obtain ⟨k, hk, -, rfl⟩ := mem_entries_of_plan h (List.mem_reverse.1 he)
    exact hd.fixed k hk
  have hnames := names_of_assemble hanswers hfixed name
  rwa [List.any_reverse] at hnames

end Record

end Specimen
