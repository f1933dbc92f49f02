import Specimen.Proofs.Descent.Readers
import Specimen.Proofs.Regex.RoundTrip
/-!
# What the tokens from a position on make of a pattern

The reader runs a machine over the tokens of a whole pattern. `resume` is the part of this run
that begins at a position, with what was read before. A descent is compared with it at every
place where a token ends: a quantifier that a descent takes (`Repeats`) and a construct with all
its quantifiers (`Quantifies`) bring the machine from the one position to the other.
-/

namespace Specimen.Regex

def Reader.push (r : Reader) (c : Construct) : Reader := { r with level := r.level.push c }

namespace Descent

variable {chars cs : List Char} {p q n : Nat} {g g' : Groups} {c : Char} {e : PatternError}
variable {r : Reader}

/-! ## The run of tokens from a position on -/

/-- What the machine makes of the tokens from a position on. -/
def resume (chars : List Char) (p : Nat) (g : Groups) (r : Reader) :
    Except PatternError Construct := do
  let r ← (tokensFrom 0 p g (chars.drop p)).foldlM Reader.step r
  r.finish chars.length

theorem resume_start (pattern : String) : resume pattern.toList 0 {} {} = parse pattern := by
  rw [resume, List.drop_zero, String.length_toList]
  rfl

theorem resume_end (hat : At chars p []) : resume chars p g r = r.finish chars.length := by
  rw [resume, hat.drop]
  rfl

theorem tokensFrom_drop (h : n ≤ cs.length) :
    tokensFrom n p g cs = tokensFrom 0 (p + n) g (cs.drop n) := by
  have hskip := tokensFrom_skip p g (cs.take n) (cs.drop n)
  rwa [List.take_append_drop, List.length_take, Nat.min_eq_left h] at hskip

theorem resume_of_token {t : Token} (hat : At chars p (c :: cs))
    (ht : token g p c cs = .ok ⟨(t, g'), n⟩) (hle : p + 1 + n ≤ chars.length) :
    resume chars p g r = r.step t >>= resume chars (p + 1 + n) g' := by
  have hlength := hat.next.length_add
  rw [resume, hat.drop, tokensFrom, ht]
  dsimp only
  rw [tokensFrom_drop (by omega), ← (hat.next.add hle).drop, List.foldlM_cons, bind_assoc]
  rfl

theorem resume_of_fault (hat : At chars p (c :: cs)) (ht : token g p c cs = .error e) :
    resume chars p g r = .error e := by
  rw [resume, hat.drop, tokensFrom, ht]
  rfl

/-! ## Quantifiers -/

/-- The text begins with a quantifier. -/
def startsQuantifier : List Char → Bool
  | [] => false
  | c :: cs => c = '*' || c = '+' || c = '?' || (c = '\x7b' && (bounds? cs).isSome)

theorem resume_of_quantifier {least : Nat} {most : Option Nat} {blame : Nat} {a : Construct}
    (hat : At chars p (c :: cs))
    (ht : token g p c cs = .ok ⟨(.quantifier least most blame, g), n⟩)
    (hle : p + 1 + n ≤ chars.length) :
    resume chars p g (r.push a) =
      resume chars (p + 1 + n) g (r.push (.repetition least most a)) := by
  rw [resume_of_token hat ht hle]
  rfl

theorem token_brace_of_none (h : bounds? cs = none) :
    token g p '\x7b' cs = .ok ⟨(.atom (.literal '\x7b'), g), 0⟩ := by
  change Except.map _ (Regex.braces p cs) = _
  rw [Regex.braces, h]
  rfl

theorem token_brace_of_some {b : Nat × Option Nat} (h : bounds? cs = some (b, n)) :
    token g p '\x7b' cs =
      if b.2.any (· < b.1) then fail (p + 1 + n) .leastAboveMost
      else .ok ⟨(.quantifier b.1 b.2 (p + 1 + n), g), n + Regex.suffix (cs.drop n)⟩ := by
  change Except.map _ (Regex.braces p cs) = _
  obtain ⟨least, most⟩ := b
  rw [Regex.braces, h]
  cases most with
  | none => rfl
  | some m =>
      by_cases hlt : m < least
      · simp [hlt, fail, Except.map]
      · simp [hlt, Except.map, Piece.map]

/-- Goes on behind braces: the first one stands for itself, or they are a quantifier, or their
bounds are at fault. -/
theorem ends_braces_bind {α : Type} {Q : Post α} {f : Option (Nat × Option Nat) → Descent α}
    {fuel : Nat} (hfuel : chars.length < fuel) (hat : At chars p ('\x7b' :: cs))
    (hliteral : bounds? cs = none → Ends chars (f none) p g Q)
    (hbounds : ∀ b n, bounds? cs = some (b, n) → p + 1 + n ≤ chars.length →
      token g p '\x7b' cs =
        .ok ⟨(.quantifier b.1 b.2 (p + 1 + n), g), n + Regex.suffix (cs.drop n)⟩ →
      Ends chars (f (some b)) (p + 1 + n) g Q)
    (hfault : ∀ e p', p ≤ p' → token g p '\x7b' cs = .error e → Q (.error e) p' g) :
    Ends chars (braces fuel >>= f) p g Q := by
  have hbraces := ends_braces (g := g) hfuel hat
  cases hfound : bounds? cs with
  | none =>
      rw [hfound] at hbraces
      exact hbraces.value fun _ _ => hliteral hfound
  | some found =>
      obtain ⟨b, used⟩ := found
      have ht := @token_brace_of_some cs p used g b hfound
      rw [hfound, boundsAt] at hbraces
      split at hbraces
      · rename_i hinverted
        rw [if_pos hinverted] at ht
        exact hbraces.fault fun p' hle => hfault _ p' hle ht
      · rename_i hordered
        rw [if_neg hordered] at ht
        refine hbraces.value fun _ hle => ?_
        rw [← Nat.add_assoc] at hle ⊢
        exact hbounds b used hfound hle ht

/-- A quantifier makes a repetition of what was read last; without one the cursor stays. -/
def Repeats (chars : List Char) (p : Nat) (g : Groups) : Post (Option (Nat × Option Nat))
  | .ok none, p', g' => p' = p ∧ g' = g ∧ startsQuantifier (chars.drop p) = false
  | .ok (some (least, most)), p', g' => p < p' ∧ ∀ (r : Reader) (a : Construct),
      resume chars p g (r.push a) = resume chars p' g' (r.push (.repetition least most a))
  | .error e, p', _ => p ≤ p' ∧ ∀ r : Reader, resume chars p g r = .error e

theorem ends_suffixed {b : Nat × Option Nat} {blame : Nat} {more : List Char}
    (hat : At chars p (c :: cs)) (hmore : At chars (p + 1 + n) more)
    (ht : token g p c cs = .ok ⟨(.quantifier b.1 b.2 blame, g), n + Regex.suffix more⟩) :
    Ends chars (suffix >>= fun _ => pure (some b)) (p + 1 + n) g (Repeats chars p g) := by
  refine (ends_suffix hmore).value fun hforward hle => .pure ⟨by omega, fun r a => ?_⟩
  rw [resume_of_quantifier hat ht (by omega), ← Nat.add_assoc]

theorem not_startsQuantifier (h : ¬ (c = '*' ∨ c = '+' ∨ c = '?'))
    (hbrace : c = '\x7b' → bounds? cs = none) : startsQuantifier (c :: cs) = false := by
  simp only [startsQuantifier]
  by_cases hc : c = '\x7b'
  · simp_all
  · simp_all

theorem ends_quantifier {fuel : Nat} (hfuel : chars.length < fuel) (hat : At chars p cs) :
    Ends chars (quantifier fuel) p g (Repeats chars p g) := by
  rw [quantifier, quantifierBounds, bind_assoc]
  refine .peek hat ?_
  cases cs with
  | nil => exact .pure ⟨rfl, rfl, by rw [hat.drop]; rfl⟩
  | cons c cs =>
      have hnone (h : startsQuantifier (c :: cs) = false) :
          Ends chars (pure none) p g (Repeats chars p g) :=
        .pure ⟨rfl, rfl, by rwa [hat.drop]⟩
      have hsign {b : Nat × Option Nat}
          (ht : token g p c cs = .ok ⟨(.quantifier b.1 b.2 p, g), Regex.suffix cs⟩) :
          Ends chars (suffix >>= fun _ => pure (some b)) (p + 1) g (Repeats chars p g) :=
        ends_suffixed (n := 0) hat hat.next (by rw [ht, Nat.zero_add])
      rw [List.head?_cons]
      split
      case h_1 hc | h_2 hc | h_3 hc =>
        cases hc
        rw [bind_assoc]
        exact .advance hat.le_of_cons (hsign rfl)
      case h_4 hc =>
        cases hc
        refine ends_braces_bind hfuel hat (fun hnot => ?_) (fun b n _ hle ht => ?_)
          fun e p' hle ht => ?_
        · exact hnone (not_startsQuantifier (by decide) fun _ => hnot)
        · exact ends_suffixed hat (hat.next.add hle) ht
        · exact ⟨hle, fun r => resume_of_fault hat ht⟩
      case h_5 hstar hplus hquestion hbrace =>
        exact hnone (not_startsQuantifier (by simp_all) (by simp_all))

/-- The last construct is repeated as often as quantifiers follow, and none is left. -/
def Quantifies (chars : List Char) (p : Nat) (g : Groups) (a : Construct) : Post Construct
  | .ok b, p', g' => p ≤ p' ∧ startsQuantifier (chars.drop p') = false ∧
      ∀ r : Reader, resume chars p g (r.push a) = resume chars p' g' (r.push b)
  | .error e, p', _ => p ≤ p' ∧ ∀ r : Reader, resume chars p g (r.push a) = .error e

theorem Quantifies.le {a : Construct} {x : Except PatternError Construct} {p' : Nat}
    (h : Quantifies chars p g a x p' g') : p ≤ p' := by
  cases x <;> exact h.1

theorem ends_quantified {fuel : Nat} {a : Construct} (hfuel : chars.length < fuel) :
    Ends chars (quantified fuel a) p g (Quantifies chars p g a) := by
  let I (b : Construct) (q : Nat) (g' : Groups) : Prop :=
    p ≤ q ∧ ∀ r : Reader, resume chars p g (r.push a) = resume chars q g' (r.push b)
  refine .call_of_ne (by decide) (.loop (I := I) ?_ (by omega) ⟨Nat.le_refl p, fun r => rfl⟩)
    fun _ _ _ => Quantifies.le
  rintro b q g' hq ⟨hpq, hsame⟩
  refine (ends_quantifier hfuel (.of_le hq)).bind ?_ ?_
  · rintro (_ | ⟨least, most⟩) q' g'' hq' h
    · obtain ⟨rfl, rfl, hnone⟩ := h
      exact .pure ⟨hpq, hnone, hsame⟩
    · obtain ⟨hforward, hrepeats⟩ := h
      exact .pure ⟨hforward, by omega, fun r => (hsame r).trans (hrepeats r b)⟩
  · rintro e q' g'' ⟨hforward, hfault⟩
    exact ⟨by omega, fun r => (hsame r).trans (hfault (r.push b))⟩

end Descent

end Specimen.Regex
