import Specimen.Proofs.Record.Plan
/-!
# Where a record stops

A record with a limited room stops at the first present entry that has none. `Record.findStop` is
the walk of a plan that looks for this occurrence only, and `Stop.slots` what is cut off from it
on, as a number without a limit. `Record.cut_of_plan` finds the same stop in the plan, where its
slots are counted up to `countLimit`.
-/

namespace Specimen.Record

open Specimen.Random

/-- An occurrence of a declaration, and the declarations after it. -/
structure Stop where
  key : KeyDecl Spec
  /-- How many occurrences of the declaration come before. -/
  occurrence : Nat
  later : List (KeyDecl Spec)

/-- The slots for children from the occurrence on. -/
def Stop.slots (x : Stop) : Nat := (x.key.times - x.occurrence) * x.key.need + needs x.later

/-- Goes through the occurrences that are left of a declaration, up to the first
present entry without room: the entries kept by then, the latest first, and how many
occurrences are left there. -/
def stopKey (room : Option Nat) (k : KeyDecl Spec) :
    Nat → List Entry → Draw (List Entry × Option Nat)
  | 0, seen => pure (seen, none)
  | left + 1, seen => do
    if ← isPresent { entries := seen, room } k.chance then
      if room.all (slots seen + k.need ≤ ·) then stopKey room k left (entryOf k :: seen)
      else pure (seen, some (left + 1))
    else stopKey room k left seen

/-- The first present entry of a record that there is no room for, if there is one. -/
def findStop (room : Option Nat) : List (KeyDecl Spec) → List Entry → Draw (Option Stop)
  | [], _ => pure none
  | k :: later, seen => do
    let (seen, left) ← stopKey room k k.times seen
    match left with
    | some left => pure (some ⟨k, k.times - left, later⟩)
    | none => findStop room later seen

variable {p q : Plan} {k : KeyDecl Spec} {keys : List (KeyDecl Spec)} {room : Option Nat}
  {s t : Source}

theorem need_pos (k : KeyDecl Spec) : 0 < k.need := by
  unfold KeyDecl.need
  split <;> decide

/-- What is left of a room after some entries. -/
theorem fits_eq (hroom : p.room = room.map (· - slots p.entries)) (k : KeyDecl Spec) :
    p.fits k.need = room.all (slots p.entries + k.need ≤ ·) := by
  have := need_pos k
  rw [Plan.fits, hroom]
  cases room with
  | none => rfl
  | some n =>
      simp only [Option.map_some, Option.all_some, decide_eq_decide]
      omega

theorem room_keep (hroom : p.room = room.map (· - slots p.entries)) :
    (p.keep k).room = room.map (· - slots (p.keep k).entries) := by
  rw [slots_keep]
  simp only [Plan.keep, hroom, Option.map_map]
  congr 1
  funext n
  simp only [Function.comp_apply]
  omega

theorem stopKey_of_planKey {later left : Nat} (hroom : p.room = room.map (· - slots p.entries))
    (hcut : p.cut = none) (h : planKey later k left p s = some (q, t)) :
    ∃ stop, stopKey room k left p.entries s = some ((q.entries, stop), t) ∧
      (∀ n ∈ stop, n ≤ left) ∧ q.room = room.map (· - slots q.entries) ∧
      q.cut = stop.map fun n => min countLimit (n * k.need + later) := by
  induction left generalizing p s with
  | zero =>
      obtain ⟨rfl, rfl⟩ := Draw.pure_eq_some.1 h
      exact ⟨none, rfl, nofun, hroom, hcut⟩
  | succ left ih =>
      obtain ⟨o, u, ho, h⟩ := Draw.bind_eq_some.1 h
      rw [isPresent_congr (p := p) (q := { entries := p.entries, room }) rfl] at ho
      cases o with
      | false =>
          obtain ⟨stop, hstop, hle, hrest⟩ := ih hroom hcut h
          exact ⟨stop, Draw.bind_eq_some.2 ⟨_, _, ho, hstop⟩,
            fun n hn => Nat.le_succ_of_le (hle n hn), hrest⟩
      | true =>
          rw [if_pos rfl] at h
          by_cases hfits : p.fits k.need = true
          · rw [if_pos hfits] at h
            obtain ⟨stop, hstop, hle, hrest⟩ := ih (p := p.keep k) (room_keep hroom) hcut h
            refine ⟨stop, Draw.bind_eq_some.2 ⟨_, _, ho, ?_⟩,
              fun n hn => Nat.le_succ_of_le (hle n hn), hrest⟩
            rw [if_pos rfl, if_pos (by rwa [← fits_eq hroom])]
            exact hstop
          · rw [if_neg hfits] at h
            obtain ⟨rfl, rfl⟩ := Draw.pure_eq_some.1 h
            refine ⟨some (left + 1), Draw.bind_eq_some.2 ⟨_, _, ho, ?_⟩, ?_, hroom, rfl⟩
            · rw [if_pos rfl, if_neg (by rwa [← fits_eq hroom])]
              rfl
            · rintro n hn
              cases hn
              exact Nat.le_refl _

/-- The stop of a plan, whose slots are counted as cut off. -/
theorem findStop_of_plan (hroom : p.room = room.map (· - slots p.entries)) (hcut : p.cut = none)
    (h : plan keys p s = some (q, t)) :
    ∃ stop, findStop room keys p.entries s = some (stop, t) ∧
      q.cut = stop.map fun x => min countLimit x.slots := by
  induction keys generalizing p s with
  | nil =>
      obtain ⟨rfl, rfl⟩ := Draw.pure_eq_some.1 h
      exact ⟨none, rfl, hcut⟩
  | cons k later ih =>
      obtain ⟨p', u, hkey, h⟩ := Draw.bind_eq_some.1 h
      obtain ⟨stop, hstop, hle, hroom', hcut'⟩ := stopKey_of_planKey hroom hcut hkey
      cases stop with
      | none =>
          rw [hcut'] at h
          obtain ⟨found, hfound, hq⟩ := ih hroom' hcut' h
          exact ⟨found, Draw.bind_eq_some.2 ⟨_, _, hstop, hfound⟩, hq⟩
      | some left =>
          rw [hcut'] at h
          obtain ⟨rfl, rfl⟩ := Draw.pure_eq_some.1 h
          refine ⟨some ⟨k, k.times - left, later⟩, Draw.bind_eq_some.2 ⟨_, _, hstop, rfl⟩, ?_⟩
          rw [hcut', Option.map_some, Option.map_some, Stop.slots]
          have := hle left rfl
          simp only [Nat.sub_sub_self this]

theorem cut_of_plan (h : plan keys { room } s = some (q, t)) :
    ∃ stop, findStop room keys [] s = some (stop, t) ∧
      q.cut.getD 0 = min countLimit (stop.elim 0 Stop.slots) := by
  have hroom : room = room.map (· - slots []) := by cases room <;> rfl
  obtain ⟨stop, hstop, hcut⟩ := findStop_of_plan hroom rfl h
  refine ⟨stop, hstop, ?_⟩
  rw [hcut]
  cases stop <;> rfl

end Specimen.Record
