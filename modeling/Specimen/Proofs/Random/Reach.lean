import Specimen.Random.Draw
/-!
# Words that lead to a value

`Draw.Spells words d a` says that `d` gives `a` from these words and takes just them, whatever
the source holds after them. It goes from word to word through a computation, and every value of
a range is spelled by one or two words (`Draw.reaches_below`): the least word whose product with
the number of values has the value as its high half leaves a low half below that number.
-/

namespace Specimen

open Specimen.Random

/-- The source that hands out some words first. -/
def Random.Source.after (s : Source) (words : List UInt32) : Source :=
  { s with ready := words ++ s.ready }

@[simp] theorem Random.Source.after_nil (s : Source) : s.after [] = s := rfl

theorem Random.Source.after_append (s : Source) (v w : List UInt32) :
    s.after (v ++ w) = (s.after w).after v := by
  simp [after]

theorem Random.Source.remaining_after (s : Source) (words : List UInt32) :
    (s.after words).remaining = words.length + s.remaining := by
  simp only [remaining, after, List.length_append, Nat.add_assoc]

theorem Random.Source.tape_eq_after (words : List UInt32) :
    tape words = (tape []).after words := by
  simp [tape, after]

namespace Draw

variable {α β : Type} {d : Draw α} {a : α} {words : List UInt32}

/-- From these words the draw gives this value, and takes no other. -/
def Spells (words : List UInt32) (d : Draw α) (a : α) : Prop :=
  ∀ s : Source, d (s.after words) = some (a, s)

/-- Some words make the draw give this value. -/
def Reaches (d : Draw α) (a : α) : Prop := ∃ words, Spells words d a

theorem spells_pure (a : α) : Spells [] (pure a : Draw α) a := fun _ => rfl

theorem Spells.bind_apply (h : Spells words d a) (f : α → Draw β) (s : Source) :
    (d >>= f) (s.after words) = f a s := by
  change (d (s.after words)).bind (fun p => f p.1 p.2) = f a s
  rw [h]
  rfl

theorem Spells.bind {f : α → Draw β} {b : β} {more : List UInt32} (h : Spells words d a)
    (h' : Spells more (f a) b) : Spells (words ++ more) (d >>= f) b := fun s => by
  rw [Source.after_append, h.bind_apply, h']

theorem reaches_pure (a : α) : Reaches (pure a : Draw α) a := ⟨[], spells_pure a⟩

theorem Reaches.bind {f : α → Draw β} {b : β} (h : Reaches d a) (h' : Reaches (f a) b) :
    Reaches (d >>= f) b := by
  obtain ⟨words, hw⟩ := h
  obtain ⟨more, hm⟩ := h'
  exact ⟨words ++ more, hw.bind hm⟩

theorem Reaches.map {f : α → β} (h : Reaches d a) : Reaches (do pure (f (← d))) (f a) :=
  h.bind (reaches_pure (f a))

/-! ## Words and coins -/

theorem spells_word (w : UInt32) : Spells [w] word w := fun _ => rfl

theorem spells_word64 (low high : UInt32) :
    Spells [low, high] word64 (low.toUInt64 ||| (high.toUInt64 <<< 32)) :=
  (spells_word low).bind ((spells_word high).bind (spells_pure _))

/-- A coin takes two words, whichever side it falls on. -/
theorem exists_spells_coin (b : Bool) : ∃ low high, Spells [low, high] coin b := by
  cases b with
  | true => exact ⟨0, 0, (spells_word64 0 0).bind (spells_pure _)⟩
  | false => exact ⟨0, 0x80000000, (spells_word64 0 0x80000000).bind (spells_pure _)⟩

theorem reaches_word {n : Nat} (h : n < UInt32.size) :
    Reaches (do pure (← word).toNat) n := by
  have hw := (Reaches.map (f := UInt32.toNat) ⟨_, spells_word (UInt32.ofNatLT n h)⟩)
  exact hw

/-- Every number of 64 bits is put together from its low and its high half. -/
theorem reaches_word64 {n : Nat} (h : n < UInt64.size) :
    Reaches (do pure (← word64).toNat) n := by
  have hlow : n % UInt32.size < UInt32.size := Nat.mod_lt _ (by decide)
  have hhigh : n / UInt32.size < UInt32.size := Nat.div_lt_of_lt_mul h
  have hvalue : ((UInt32.ofNatLT _ hlow).toUInt64 |||
      ((UInt32.ofNatLT _ hhigh).toUInt64 <<< 32)).toNat = n := by
    have hdecomp := Nat.div_add_mod n UInt32.size
    simp only [UInt64.toNat_or, UInt64.toNat_shiftLeft, UInt32.toNat_toUInt64,
      UInt32.toNat_ofNatLT]
    rw [Nat.or_comm, show (32 : UInt64).toNat % 64 = 32 from rfl, Nat.shiftLeft_eq,
      Nat.mod_eq_of_lt (by simp only [UInt32.size] at *; omega), ← Nat.shiftLeft_eq,
      ← Nat.shiftLeft_add_eq_or_of_lt hlow, Nat.shiftLeft_eq]
    simp only [UInt32.size] at *
    omega
  rw [← hvalue]
  exact Reaches.map ⟨_, spells_word64 _ _⟩

/-! ## Ranges -/

/-- The least word whose product with `n` reaches `k` times `B` leaves a low half below `n`. -/
theorem exists_product {B n k : Nat} (hk : k < n) (hn : n ≤ B) :
    ∃ w < B, w * n / B = k ∧ w * n % B < n := by
  have hpos : 0 < n := Nat.zero_lt_of_lt hk
  refine ⟨(k * B + (n - 1)) / n, ?_⟩
  generalize hw : (k * B + (n - 1)) / n = w
  have hdecomp := Nat.div_add_mod (k * B + (n - 1)) n
  have hrest := Nat.mod_lt (k * B + (n - 1)) hpos
  rw [hw, Nat.mul_comm n w] at hdecomp
  have hlow : k * B ≤ w * n := by omega
  have hhigh : w * n < k * B + n := by omega
  have hdiv : w * n / B = k := by
    apply Nat.div_eq_of_lt_le hlow
    rw [Nat.succ_mul]
    omega
  refine ⟨?_, hdiv, ?_⟩
  · apply Nat.lt_of_not_le
    intro hle
    have hmul : B * n ≤ w * n := Nat.mul_le_mul_right n hle
    have hk' : (k + 1) * B ≤ n * B := Nat.mul_le_mul_right B hk
    rw [Nat.succ_mul, Nat.mul_comm n B] at hk'
    omega
  · have hsplit := Nat.div_add_mod (w * n) B
    rw [hdiv, Nat.mul_comm B k] at hsplit
    omega

theorem reaches_below {size n k : Nat} {draw : Draw Nat}
    (hdraw : ∀ w < size, Reaches draw w) (hk : k < n) (hn : n ≤ size) :
    Reaches (below size draw n) k := by
  obtain ⟨w, hw, hhigh, hlow⟩ := exists_product hk hn
  refine (hdraw w hw).bind ?_
  dsimp only
  rw [hhigh]
  split
  · -- A second word of zero carries nothing into the high half.
    refine (hdraw 0 (by omega)).bind ?_
    have hcarry : ¬ size ≤ w * n % size + 0 * n / size := by
      have := Nat.mod_lt (w * n) (show 0 < size by omega)
      simp only [Nat.zero_mul, Nat.zero_div]
      omega
    rw [if_neg hcarry]
    exact reaches_pure k
  · exact reaches_pure k

variable {n k : Nat}

theorem reaches_below32 (hk : k < n) (hn : n ≤ UInt32.size) : Reaches (below32 n) k :=
  reaches_below (fun _ h => reaches_word h) hk hn

theorem reaches_below64 (hk : k < n) (hn : n ≤ UInt64.size) : Reaches (below64 n) k :=
  reaches_below (fun _ h => reaches_word64 h) hk hn

theorem reaches_index (hk : k < n) (hn : n ≤ UInt64.size) : Reaches (index n) k := by
  unfold index
  split
  · exact reaches_below32 hk (by omega)
  · exact reaches_below64 hk hn

theorem reaches_pick {items : List α} (ha : a ∈ items) (hlength : items.length ≤ UInt64.size) :
    Reaches (pick items) (some a) := by
  obtain ⟨i, hi, rfl⟩ := List.getElem_of_mem ha
  cases items with
  | nil => cases hi
  | cons b rest =>
      have hat : (b :: rest)[i]? = some (b :: rest)[i] := List.getElem?_eq_getElem hi
      rw [← hat]
      exact (reaches_index hi hlength).map

theorem reaches_repeatUntil {shrinks : Shrinks d} {accept : α → Bool} (h : Reaches d a)
    (ha : accept a = true) : Reaches (repeatUntil d shrinks accept) a := by
  obtain ⟨words, hw⟩ := h
  refine ⟨words, fun s => ?_⟩
  rw [repeatUntil, loop]
  split
  · rename_i hnone
    rw [hw] at hnone
    cases hnone
  · rename_i hsome
    rw [hw] at hsome
    cases hsome
    simp only [ha, if_true]

end Draw

end Specimen
