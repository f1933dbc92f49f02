import Specimen.Random.Source
/-!
# Draws

A draw takes words from a source and makes a value of them; it has no value where the source ends
first. Ranges are drawn by multiplying a word with the number of values and keeping the high
half: `Draw.below32` and `Draw.below64` look at one more word in the few cases where the first
leaves a doubt, `Draw.fairBelow64` starts again until there is none.
-/

namespace Specimen

open Specimen.Random

/-- A computation that draws from a source. -/
abbrev Draw (α : Type) := StateT Source Option α

namespace Draw

theorem bind_eq_some {α β : Type} {x : Draw α} {f : α → Draw β} {s t : Source} {b : β} :
    (x >>= f) s = some (b, t) ↔ ∃ a u, x s = some (a, u) ∧ f a u = some (b, t) := by
  change (x s).bind (fun p => f p.1 p.2) = some (b, t) ↔ _
  simp [Option.bind_eq_some_iff]

theorem pure_eq_some {α : Type} {a b : α} {s t : Source} :
    (pure a : Draw α) s = some (b, t) ↔ a = b ∧ s = t := by
  change some (a, s) = some (b, t) ↔ _
  simp

/-! ## What a draw takes -/

/-- A draw that never gives words back. -/
def Keeps {α : Type} (d : Draw α) : Prop :=
  ∀ s a t, d s = some (a, t) → t.remaining ≤ s.remaining

/-- A draw that takes at least one word. -/
def Shrinks {α : Type} (d : Draw α) : Prop :=
  ∀ s a t, d s = some (a, t) → t.remaining < s.remaining

theorem Shrinks.keeps {α : Type} {d : Draw α} (h : Shrinks d) : Keeps d :=
  fun s a t e => Nat.le_of_lt (h s a t e)

theorem keeps_pure {α : Type} (a : α) : Keeps (pure a) := fun s b t e => by
  obtain ⟨-, rfl⟩ := pure_eq_some.1 e
  exact Nat.le_refl _

theorem Keeps.bind {α β : Type} {d : Draw α} {f : α → Draw β} (hd : Keeps d)
    (hf : ∀ a, Keeps (f a)) : Keeps (d >>= f) := fun s b t e => by
  obtain ⟨a, u, h₁, h₂⟩ := bind_eq_some.1 e
  exact Nat.le_trans (hf a u b t h₂) (hd s a u h₁)

theorem Shrinks.bind {α β : Type} {d : Draw α} {f : α → Draw β} (hd : Shrinks d)
    (hf : ∀ a, Keeps (f a)) : Shrinks (d >>= f) := fun s b t e => by
  obtain ⟨a, u, h₁, h₂⟩ := bind_eq_some.1 e
  exact Nat.lt_of_le_of_lt (hf a u b t h₂) (hd s a u h₁)

/-! ## Words -/

/-- One word. -/
def word : Draw UInt32 := Source.next?

theorem remaining_word {s t : Source} {w : UInt32} (h : word s = some (w, t)) :
    s.remaining = t.remaining + 1 :=
  Source.remaining_of_next? h

theorem shrinks_word : Shrinks word := fun s w t h => by
  have := remaining_word h
  omega

/-- Two words, the low half first. -/
def word64 : Draw UInt64 := do
  let low ← word
  let high ← word
  pure (low.toUInt64 ||| (high.toUInt64 <<< 32))

theorem shrinks_word64 : Shrinks word64 :=
  shrinks_word.bind fun _ => shrinks_word.keeps.bind fun _ => keeps_pure _

/-- The bytes of a word, the lowest first. -/
def bytesOfWord (w : UInt32) : List UInt8 :=
  [w.toUInt8, (w >>> 8).toUInt8, (w >>> 16).toUInt8, (w >>> 24).toUInt8]

/-- The bytes of so many words. -/
def bytes : Nat → Draw (List UInt8)
  | 0 => pure []
  | n + 1 => do
    let w ← word
    let rest ← bytes n
    pure (bytesOfWord w ++ rest)

/-! ## Loops -/

/--
Draws again and again: each value is handed to `next`, which goes on with a new state or ends
with a result. A loop whose draw takes words ends, since the source does.
-/
def loop {α σ β : Type} (draw : Draw α) (shrinks : Shrinks draw) (next : σ → α → σ ⊕ β)
    (state : σ) (s : Source) : Option (β × Source) :=
  match _h : draw s with
  | none => none
  | some (a, t) =>
    match next state a with
    | .inl state => loop draw shrinks next state t
    | .inr b => some (b, t)
termination_by s.remaining
decreasing_by exact shrinks _ _ _ _h

theorem shrinks_loop {α σ β : Type} {draw : Draw α} (h : Shrinks draw) (next : σ → α → σ ⊕ β)
    (state : σ) : Shrinks (loop draw h next state) := by
  intro s b t e
  induction hn : s.remaining using Nat.strongRecOn generalizing s state with
  | ind n ih =>
    rw [loop] at e
    split at e
    · simp at e
    · rename_i a u hd
      have hu := h s a u hd
      split at e
      · have := ih u.remaining (by omega) _ u e rfl
        omega
      · simp only [Option.some.injEq, Prod.mk.injEq] at e
        obtain ⟨-, rfl⟩ := e
        omega

/-- Draws until a value is accepted. -/
def repeatUntil {α : Type} (draw : Draw α) (shrinks : Shrinks draw) (accept : α → Bool) :
    Draw α :=
  loop draw shrinks (fun (_ : Unit) a => if accept a then .inr a else .inl ()) ()

/-- Draws until there is a result. -/
def repeatSome {α : Type} (draw : Draw (Option α)) (shrinks : Shrinks draw) : Draw α :=
  loop draw shrinks (fun (_ : Unit) a => match a with
    | some b => .inr b
    | none => .inl ()) ()

/-! ## Ranges -/

/--
The value below `n` that one of `size` words stands for. The product's high half is the value,
unless its low half is so close to the top that a second word can carry into it.
-/
def below (size : Nat) (draw : Draw Nat) (n : Nat) : Draw Nat := do
  let m := (← draw) * n
  let high := m / size
  let low := m % size
  if size - n < low then
    let more := (← draw) * n / size
    pure (if size ≤ low + more then high + 1 else high)
  else pure high

theorem shrinks_below {size : Nat} {draw : Draw Nat} (h : Shrinks draw) (n : Nat) :
    Shrinks (below size draw n) :=
  h.bind fun _ => by
    dsimp only
    split
    · exact h.keeps.bind fun _ => keeps_pure _
    · exact keeps_pure _

/-- A value below `n`, for `n` up to 2^32. -/
def below32 (n : Nat) : Draw Nat := below UInt32.size (do pure (← word).toNat) n

theorem shrinks_below32 (n : Nat) : Shrinks (below32 n) :=
  shrinks_below (shrinks_word.bind fun _ => keeps_pure _) n

/-- A value below `n`, for `n` up to 2^64. -/
def below64 (n : Nat) : Draw Nat := below UInt64.size (do pure (← word64).toNat) n

/-- A word of 64 bits as a signed integer. -/
def signed64 : Draw Int := do pure (Int.bmod (← word64).toNat UInt64.size)

/--
An integer from `low` to `high`, both included, in the signed 64-bit range. If that range is
asked for as a whole, a word is the integer as it is.
-/
def between (low high : Int) : Draw Int :=
  let n := (high - low + 1).toNat
  if n = UInt64.size then signed64
  else do
    let k ← below64 n
    pure (low + k)

/-- A value below `n` without any bias: products with a small low half are drawn again. -/
def fairBelow64 (n : Nat) : Draw Nat := do
  let threshold := (UInt64.size - n) % n
  let w ← repeatUntil word64 shrinks_word64 fun w => threshold ≤ w.toNat * n % UInt64.size
  pure (w.toNat * n / UInt64.size)

/-- A place among `n`, by words of 64 bits where `n` does not fit in 32. -/
def index (n : Nat) : Draw Nat := if n < UInt32.size then below32 n else below64 n

theorem keeps_index (n : Nat) : Keeps (index n) := by
  unfold index
  split
  · exact (shrinks_below32 n).keeps
  · exact (shrinks_below (shrinks_word64.bind fun _ => keeps_pure _) n).keeps

/-- One of the items, each with the same weight; nothing is drawn from an empty list. -/
def pick {α : Type} (items : List α) : Draw (Option α) :=
  match items with
  | [] => pure none
  | items => do
    let i ← index items.length
    pure items[i]?

theorem keeps_pick {α : Type} (items : List α) : Keeps (pick items) := by
  cases items with
  | nil => exact keeps_pure _
  | cons a items => exact (keeps_index _).bind fun _ => keeps_pure _

/-! ## Floats and coins -/

/-- The 53 high bits of two words as a fraction of one. -/
def unit : Draw Float := do
  let w ← word64
  pure ((w >>> 11).toFloat * Float.ofBits 0x3CA0000000000000)

theorem shrinks_unit : Shrinks unit := shrinks_word64.bind fun _ => keeps_pure _

/-- A number from 0 to below 100. -/
def percent : Draw Float := do
  let x ← unit
  pure (x * 100.0)

/-- True and false with the same weight. -/
def coin : Draw Bool := do
  let w ← word64
  pure (w < 0x8000000000000000)

theorem shrinks_coin : Shrinks coin := shrinks_word64.bind fun _ => keeps_pure _

/-- The 52 high bits of two words as a fraction of one. -/
def coarseUnit : Draw Float := do
  let w ← word64
  pure ((w >>> 12).toFloat * Float.ofBits 0x3CB0000000000000)

/-- A float from `low` to `high`. -/
def floatBetween (low high : Float) : Draw Float := do
  let x ← coarseUnit
  pure (x * (high - low) + low)

end Draw

end Specimen
