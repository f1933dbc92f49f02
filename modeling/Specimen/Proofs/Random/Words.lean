import Specimen.Proofs.Record.Plan
/-!
# How many words are enough for a draw

A draw has no value only where the source ends. `Draw.Takes n d` says that `n` words are enough
for `d`, and that it takes no more of them. A number in percent takes two words, an integer from
a range at most four, and the plan of a record at most two for each of its occurrences.
-/

namespace Specimen

open Specimen.Random

namespace Draw

variable {α β : Type} {d : Draw α} {m n : Nat}

/-- With so many words in the source the draw has a value, and it takes no more of them. -/
def Takes (n : Nat) (d : Draw α) : Prop :=
  ∀ s, n ≤ s.remaining → ∃ a t, d s = some (a, t) ∧ s.remaining ≤ t.remaining + n

theorem takes_pure (a : α) : Takes 0 (pure a : Draw α) := fun s _ => ⟨a, s, rfl, Nat.le_refl _⟩

theorem Takes.mono (h : Takes m d) (hle : m ≤ n) : Takes n d := by
  intro s hs
  obtain ⟨a, t, hd, ht⟩ := h s (Nat.le_trans hle hs)
  exact ⟨a, t, hd, by omega⟩

theorem Takes.bind {f : α → Draw β} (hd : Takes m d) (hf : ∀ a, Takes n (f a)) :
    Takes (m + n) (d >>= f) := by
  intro s hs
  obtain ⟨a, t, hfirst, ht⟩ := hd s (by omega)
  obtain ⟨b, u, hsecond, hu⟩ := hf a t (by omega)
  exact ⟨b, u, bind_eq_some.2 ⟨a, t, hfirst, hsecond⟩, by omega⟩

theorem takes_word : Takes 1 word := by
  rintro ⟨ready, stream⟩ hs
  have hsome : ∃ w t, Source.next? ⟨ready, stream⟩ = some (w, t) := by
    cases ready with
    | cons w rest => exact ⟨w, _, rfl⟩
    | nil =>
        cases stream with
        | none => simp [Source.remaining] at hs
        | some k =>
            have hblock : k.nextBlock < blockLimit := by
              simp only [Source.remaining, List.length_nil] at hs
              omega
            simp [Source.next?, hblock]
  obtain ⟨w, t, hnext⟩ := hsome
  exact ⟨w, t, hnext, Nat.le_of_eq (remaining_word hnext)⟩

theorem takes_word64 : Takes 2 word64 :=
  takes_word.bind fun _ => takes_word.bind fun _ => takes_pure _

theorem takes_percent : Takes 2 percent :=
  (takes_word64.bind fun _ => takes_pure _).bind fun _ => takes_pure _

theorem takes_below {size : Nat} {draw : Draw Nat} (h : Takes m draw) (n : Nat) :
    Takes (2 * m) (below size draw n) := by
  rw [Nat.two_mul]
  apply h.bind
  intro w
  dsimp only
  split
  · exact h.bind fun _ => takes_pure _
  · exact (takes_pure _).mono (Nat.zero_le _)

theorem takes_word64_toNat : Takes 2 (do pure (← word64).toNat : Draw Nat) :=
  takes_word64.bind fun _ => takes_pure _

theorem takes_index (n : Nat) : Takes 4 (index n) := by
  unfold index
  split
  · have hword : Takes 1 (do pure (← word).toNat : Draw Nat) :=
      takes_word.bind fun _ => takes_pure _
    exact (takes_below hword n).mono (by decide)
  · exact takes_below takes_word64_toNat n

theorem takes_between (low high : Int) : Takes 4 (between low high) := by
  unfold between
  dsimp only
  split
  · have hsigned : Takes 2 signed64 := takes_word64.bind fun _ => takes_pure _
    exact hsigned.mono (by decide)
  · exact (takes_below takes_word64_toNat _).bind fun _ => takes_pure _

end Draw

namespace Record

open Draw

theorem takes_isPresent (p : Plan) (c : Chance) : Takes 2 (isPresent p c) := by
  cases c with
  | percent limit => exact takes_percent.bind fun _ => takes_pure _
  | _ => exact (takes_pure _).mono (by decide)

theorem takes_planKey (later : Nat) (k : KeyDecl Spec) (left : Nat) (p : Plan) :
    Takes (2 * left) (planKey later k left p) := by
  induction left generalizing p with
  | zero => exact takes_pure p
  | succ left ih =>
      rw [Nat.mul_succ, Nat.add_comm]
      apply (takes_isPresent p k.chance).bind
      intro o
      cases o with
      | false => exact ih p
      | true =>
          rw [if_pos rfl]
          split
          · exact ih _
          · exact (takes_pure _).mono (Nat.zero_le _)

theorem takes_plan (keys : List (KeyDecl Spec)) (p : Plan) :
    Takes (2 * (occurrences keys).length) (plan keys p) := by
  induction keys generalizing p with
  | nil => exact takes_pure p
  | cons k keys ih =>
      have hlength : 2 * (occurrences (k :: keys)).length =
          2 * k.times + 2 * (occurrences keys).length := by
        simp only [occurrences, List.flatMap_cons, List.length_append, List.length_replicate]
        omega
      rw [hlength]
      apply (takes_planKey (needs keys) k k.times p).bind
      intro q
      split
      · exact (takes_pure _).mono (Nat.zero_le _)
      · exact ih q

end Record

end Specimen
