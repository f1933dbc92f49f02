import Specimen.Random.Keystream
/-!
# Sources of random words

A source hands out 32-bit words one after the other: first those that are ready, then those of a
keystream if it has one. Every source ends, so `Source.remaining` bounds whatever draws from it,
and each word taken lowers it by one.
-/

namespace Specimen.Random

/-- A keystream from a block on. -/
structure Keystream where
  key : Key
  nextBlock : Nat

/-- How many blocks a keystream has. -/
def blockLimit : Nat := UInt64.size

structure Source where
  ready : List UInt32
  stream : Option Keystream

namespace Source

/-- The source of exactly these words. -/
def tape (words : List UInt32) : Source := ⟨words, none⟩

/-- The source of a seed. -/
def seeded (seed : UInt64) : Source := ⟨[], some ⟨Key.ofSeed seed, 0⟩⟩

/-- The next word and the source after it. -/
def next? (s : Source) : Option (UInt32 × Source) :=
  match s.ready with
  | w :: rest => some (w, ⟨rest, s.stream⟩)
  | [] =>
    match s.stream with
    | none => none
    | some k =>
      if k.nextBlock < blockLimit then
        let b := k.key.block k.nextBlock
        some (b.w0, ⟨b.tail, some ⟨k.key, k.nextBlock + 1⟩⟩)
      else none

/-- How many words are left. -/
def remaining (s : Source) : Nat :=
  s.ready.length +
    match s.stream with
    | none => 0
    | some k => 16 * (blockLimit - k.nextBlock)

theorem remaining_of_next? {s t : Source} {w : UInt32} (h : s.next? = some (w, t)) :
    s.remaining = t.remaining + 1 := by
  obtain ⟨ready, stream⟩ := s
  cases ready with
  | cons x rest =>
    simp only [next?, Option.some.injEq, Prod.mk.injEq] at h
    obtain ⟨-, rfl⟩ := h
    simp only [remaining, List.length_cons]
    omega
  | nil =>
    cases stream with
    | none => simp [next?] at h
    | some k =>
      simp only [next?] at h
      split at h
      · rename_i hk
        simp only [Option.some.injEq, Prod.mk.injEq] at h
        obtain ⟨-, rfl⟩ := h
        simp only [remaining, List.length_nil, Block.length_tail]
        omega
      · simp at h

end Source

end Specimen.Random
