import Specimen.Proofs.Descent.Ends
/-!
# Pieces that are read by descent

A procedure that reads a piece of a pattern in place is to give the same answer as the reader of
that piece on the characters behind the cursor, and to stop behind those that the reader has used
(`Gives`). Where the reader is a recursion over these characters, `Ends.recursion` is the step
from a turn of the procedure's loop to the loop.
-/

namespace Specimen.Regex.Descent

/-- The answer of a reader. The characters that it has used count from `p`, and the cursor has
not gone back behind `q`. -/
inductive Gives {α : Type} (p q : Nat) (g : Groups) : Except PatternError (Piece α) → Post α
  | ok {v : α} {n p' : Nat} (h : p' = p + n) (hle : q ≤ p') :
      Gives p q g (.ok ⟨v, n⟩) (.ok v) p' g
  | error {e : PatternError} {p' : Nat} (hle : q ≤ p') : Gives p q g (.error e) (.error e) p' g

variable {α β : Type} {chars cs : List Char} {p q p' n : Nat} {g g' : Groups}

namespace Gives

variable {a : Except PatternError (Piece α)} {r : Except PatternError α}

theorem le (h : Gives p q g a r p' g') : q ≤ p' := by
  cases h with
  | ok _ hle => exact hle
  | error hle => exact hle

theorem of_ok {v : α} (h : Gives p q g a (.ok v) p' g') :
    ∃ n, a = .ok ⟨v, n⟩ ∧ p' = p + n ∧ g' = g := by
  cases h with
  | ok hp => exact ⟨_, rfl, hp, rfl⟩

theorem of_error {e : PatternError} (h : Gives p q g a (.error e) p' g') :
    a = .error e ∧ g' = g := by
  cases h with
  | error => exact ⟨rfl, rfl⟩

end Gives

namespace Ends

variable {a : Except PatternError (Piece β)} {y : Descent β} {f : β → Descent α} {s : Nat}

/-- Goes on behind a piece. -/
theorem piece {Q : Post α} (hy : Ends chars y s g (Gives p q g a))
    (hok : ∀ b n, a = .ok ⟨b, n⟩ → q ≤ p + n → p + n ≤ chars.length →
      Ends chars (f b) (p + n) g Q)
    (herror : ∀ e p', a = .error e → q ≤ p' → Q (.error e) p' g) :
    Ends chars (y >>= f) s g Q := by
  refine hy.bind (fun b p' g' hle h => ?_) fun e p' g' h => ?_
  · obtain ⟨n, ha, rfl, rfl⟩ := h.of_ok
    exact hok b n ha h.le hle
  · obtain ⟨ha, rfl⟩ := h.of_error
    exact herror e p' ha h.le

theorem start_le {x : Descent α} {a : Except PatternError (Piece α)} {start : Nat}
    (h : Ends chars x p' g (Gives p q g a)) (hstart : start ≤ q) :
    Ends chars x p' g (Gives p start g a) := by
  refine h.mono fun r p' g' _ h => ?_
  cases h with
  | ok hp hle => exact .ok hp (Nat.le_trans hstart hle)
  | error hle => exact .error (Nat.le_trans hstart hle)

/-- Goes on behind a piece that is known. -/
theorem value {Q : Post α} {b : β} {n : Nat} (hy : Ends chars y s g (Gives p q g (.ok ⟨b, n⟩)))
    (h : q ≤ p + n → p + n ≤ chars.length → Ends chars (f b) (p + n) g Q) :
    Ends chars (y >>= f) s g Q := by
  refine hy.piece (fun b' n' hb hle hle' => ?_) nofun
  cases hb
  exact h hle hle'

/-- Ends where a piece is at fault. -/
theorem fault {Q : Post α} {e : PatternError} (hy : Ends chars y s g (Gives p q g (.error e)))
    (h : ∀ p', q ≤ p' → Q (.error e) p' g) : Ends chars (y >>= f) s g Q := by
  refine hy.piece (fun b n hb => ?_) fun e' p' he hle => ?_
  · cases hb
  · cases he
    exact h p' hle

/-- Characters before a piece count as used with it. -/
theorem shift {x : Descent α} {a : Except PatternError (Piece α)} {start n : Nat}
    (h : Ends chars x q g (Gives (p + n) start g a)) :
    Ends chars x q g (Gives p start g (do
      let ⟨v, used⟩ ← a
      .ok ⟨v, used + n⟩)) := by
  refine h.mono fun r p' g' _ h => ?_
  cases h with
  | ok hp hle => exact .ok (by omega) hle
  | error hle => exact .error hle

/-- A reader that goes on behind a piece. -/
theorem bind_piece {k : Piece β → Except PatternError (Piece α)} {base start : Nat}
    (hy : Ends chars y s g (Gives p q g a)) (hstart : start ≤ q)
    (hok : ∀ b n, a = .ok ⟨b, n⟩ → q ≤ p + n → p + n ≤ chars.length →
      Ends chars (f b) (p + n) g (Gives base start g (k ⟨b, n⟩))) :
    Ends chars (y >>= f) s g (Gives base start g (a >>= k)) := by
  refine hy.piece (fun b n ha hle hle' => ?_) fun e p' ha hle => ?_
  · have hnext := hok b n ha hle hle'
    rwa [ha]
  · rw [ha]
    exact .error (Nat.le_trans hstart hle)

theorem call_piece {procedure : Procedure} {x : Descent α} {a : Except PatternError (Piece α)}
    (hprocedure : procedure ≠ .atom) (h : Ends chars x q g (Gives p q g a)) :
    Ends chars (Descent.call procedure x) q g (Gives p q g a) :=
  h.call_of_ne hprocedure fun _ _ _ => Gives.le

end Ends

/-! ## Loops that go along with a recursion -/

section Recursion

variable {σ : Type} {V : σ → Prop} {R : σ → Nat → Nat → List Char → β} {b : β} {s : σ}

/-- A loop that began behind `n` characters from `p` on is still reading, and the recursion `R`
on what is left, with all the characters counted that are used, has the answer `b`. -/
def Left (chars : List Char) (p n : Nat) (g : Groups) (V : σ → Prop)
    (R : σ → Nat → Nat → List Char → β) (b : β) (s : σ) (q : Nat) (g' : Groups) : Prop :=
  g' = g ∧ V s ∧ ∃ used rest, q = p + used ∧ n ≤ used ∧ At chars q rest ∧ R s used q rest = b

theorem Left.next {c : Char} {used : Nat} (hs : V s) (hused : n ≤ used)
    (hat : At chars (p + used) (c :: cs)) (h : R s (used + 1) (p + used + 1) cs = b) :
    Left chars p n g V R b s (p + used + 1) g :=
  ⟨rfl, hs, used + 1, cs, rfl, Nat.le_succ_of_le hused, hat.next, h⟩

/-- If every turn either ends with the answer of the recursion or leaves one to it that has the
same answer, then so does the loop. -/
theorem Ends.recursion {l : Loop} {turn : σ → Descent (σ ⊕ α)} {P : β → Post α} {fuel : Nat}
    (hturn : ∀ s used rest, V s → n ≤ used → At chars (p + used) rest →
      Ends chars (turn s) (p + used) g
        (Turned (Left chars p n g V R (R s used (p + used) rest))
          (P (R s used (p + used) rest)) (p + used)))
    (hfuel : chars.length < fuel) (hs : V s) (hat : At chars (p + n) cs) :
    Ends chars (Descent.loop l turn fuel s) (p + n) g (P (R s n (p + n) cs)) := by
  refine .loop (I := Left chars p n g V R (R s n (p + n) cs)) ?_ (by omega)
    ⟨rfl, hs, n, cs, rfl, Nat.le_refl n, hat, rfl⟩
  rintro s' _ _ - ⟨rfl, hs', used, rest, rfl, hused, hrest, hsame⟩
  rw [← hsame]
  exact hturn s' used rest hs' hused hrest

end Recursion

end Specimen.Regex.Descent
