import Specimen.Proofs.Random.Range
import Specimen.Proofs.Regex.WellFormed
import Specimen.Regex.Writer
/-!
# Characters that constructs draw

What a construct for one character draws is one of the characters it stands for. A class that has
members always gives one; an excluding class does where it leaves a character of ASCII.
-/

namespace Specimen

open Specimen.Random

namespace Draw

theorem accept_of_repeatUntil {α : Type} {draw : Draw α} {shrinks : Shrinks draw}
    {accept : α → Bool} {s t : Source} {a : α}
    (h : repeatUntil draw shrinks accept s = some (a, t)) : accept a = true := by
  unfold repeatUntil at h
  induction hn : s.remaining using Nat.strongRecOn generalizing s with
  | ind n ih =>
      rw [loop] at h
      split at h
      · cases h
      · rename_i b u hb
        have hu := shrinks s b u hb
        by_cases hacc : accept b = true
        · simp only [hacc, if_true, Option.some.injEq, Prod.mk.injEq] at h
          rw [← h.1]
          exact hacc
        · simp only [hacc] at h
          exact ih u.remaining (by omega) h rfl

end Draw

namespace Regex

variable {s t : Source}

theorem toNat_ofNat {n : Nat} (h : n.isValidChar) : (Char.ofNat n).toNat = n := by
  rw [Char.ofNat, dif_pos h]
  rfl

theorem mem_ascii {c : Char} : c ∈ ascii ↔ c.toNat < 128 := by
  constructor
  · intro h
    obtain ⟨n, hn, rfl⟩ := List.mem_map.1 h
    have hlt := List.mem_range.1 hn
    rw [toNat_ofNat (.inl (by omega))]
    exact hlt
  · intro h
    exact List.mem_map.2 ⟨c.toNat, List.mem_range.2 h, Char.ofNat_toNat c⟩

theorem ne_of_otherAscii {c d : Char} (h : otherAscii c s = some (d, t)) : d ≠ c := by
  obtain ⟨n, u, hn, h⟩ := Draw.bind_eq_some.1 h
  obtain ⟨rfl, -⟩ := Draw.pure_eq_some.1 h
  simpa using Draw.accept_of_repeatUntil hn

theorem mem_of_charBetween {first last c : Char} (hle : first ≤ last)
    (h : charBetween first last s = some (c, t)) : first ≤ c ∧ c ≤ last := by
  obtain ⟨k, u, hk, h⟩ := Draw.bind_eq_some.1 h
  obtain ⟨rfl, -⟩ := Draw.pure_eq_some.1 h
  have hlt := Draw.lt_of_below32 (Nat.succ_pos _) hk
  have hle' : first.toNat ≤ last.toNat := hle
  split
  · rename_i hcode
    have hvalid : (first.toNat + k).isValidChar := by
      rcases last.valid with hlast | hlast <;> simp only [Char.toNat_val] at hlast
      · exact .inl (by omega)
      · rcases hcode with hcode | hcode
        · exact .inl hcode
        · exact .inr ⟨hcode, by omega⟩
    have hnat := toNat_ofNat hvalid
    constructor
    · change first.toNat ≤ (Char.ofNat (first.toNat + k)).toNat
      omega
    · change (Char.ofNat (first.toNat + k)).toNat ≤ last.toNat
      omega
  · exact ⟨Char.le_refl _, hle⟩

theorem exists_category (k : Category) : ascii.filter k.has ≠ [] := by
  cases k <;> decide

/-- A range that is written the wrong way round has its first character only. -/
theorem charBetween_of_lt {first last c : Char} (hlt : last < first)
    (h : charBetween first last s = some (c, t)) : c = first := by
  obtain ⟨k, u, hk, h⟩ := Draw.bind_eq_some.1 h
  obtain ⟨rfl, -⟩ := Draw.pure_eq_some.1 h
  have hlast : last.toNat < first.toNat := hlt
  have hbound := Draw.lt_of_below32 (Nat.succ_pos _) hk
  obtain rfl : k = 0 := by omega
  rw [Nat.add_zero, Char.ofNat_toNat, ite_self]

/-- The characters that are drawn for a class item. -/
def ClassItem.Offers : ClassItem → Char → Prop
  | .char c, x => x = c
  | .range first last, x => x = first ∨ (first ≤ x ∧ x ≤ last)
  | .category k, x => x ∈ ascii ∧ k.has x = true

theorem offers_of_itemChar {i : ClassItem} {x : Option Char} (h : itemChar i s = some (x, t)) :
    ∃ c, x = some c ∧ i.Offers c := by
  cases i with
  | char c =>
      obtain ⟨rfl, -⟩ := Draw.pure_eq_some.1 h
      exact ⟨c, rfl, rfl⟩
  | range first last =>
      obtain ⟨c, u, hc, h⟩ := Draw.bind_eq_some.1 h
      obtain ⟨rfl, -⟩ := Draw.pure_eq_some.1 h
      refine ⟨c, rfl, ?_⟩
      by_cases hle : first ≤ last
      · exact .inr (mem_of_charBetween hle hc)
      · exact .inl (charBetween_of_lt (Char.not_le.1 hle) hc)
  | category k =>
      obtain ⟨c, hc, rfl⟩ := Draw.mem_of_pick (exists_category k) h
      exact ⟨c, rfl, List.mem_filter.1 hc⟩

/-- What is drawn for an item is one of its members, if the item is no
range the wrong way round. -/
theorem ClassItem.Offers.has {i : ClassItem} {c : Char} (h : i.Offers c) (hi : i.IsOrdered) :
    i.has c = true := by
  cases i with
  | char d =>
      obtain rfl : c = d := h
      simp [ClassItem.has]
  | range first last =>
      have hle : first ≤ last := hi
      have hmem : first ≤ c ∧ c ≤ last := by
        rcases h with rfl | h
        · exact ⟨Char.le_refl c, hle⟩
        · exact h
      simpa [ClassItem.has] using hmem
  | category k => exact h.2

/-- A class draws for one of its items. -/
theorem exists_offers_of_classChar {items : List ClassItem} {c : Char}
    (h : classChar false items s = some (some c, t)) : ∃ i ∈ items, i.Offers c := by
  obtain ⟨x, u, hx, h⟩ := Draw.bind_eq_some.1 h
  cases x with
  | none => cases h
  | some i =>
      have hne : items ≠ [] := by
        rintro rfl
        cases hx
      obtain ⟨i', hi, hsame⟩ := Draw.mem_of_pick hne hx
      cases hsame
      obtain ⟨c', hsame, hoffers⟩ := offers_of_itemChar h
      cases hsame
      exact ⟨i, hi, hoffers⟩

theorem admits_of_classChar {items : List ClassItem} (hne : items ≠ [])
    (hordered : ∀ i ∈ items, i.IsOrdered) {x : Option Char}
    (h : classChar false items s = some (x, t)) :
    ∃ c, x = some c ∧ (Construct.charClass false items).Admits c := by
  obtain ⟨y, u, hy, h⟩ := Draw.bind_eq_some.1 h
  obtain ⟨i, hi, rfl⟩ := Draw.mem_of_pick hne hy
  obtain ⟨c, rfl, hc⟩ := offers_of_itemChar h
  exact ⟨c, rfl, List.any_eq_true.2 ⟨i, hi, hc.has (hordered i hi)⟩⟩

/-- An excluding class that leaves a character of ASCII draws one that it leaves. -/
theorem admits_of_negatedClassChar {items : List ClassItem}
    (hleft : ∃ c ∈ ascii, items.any (·.has c) = false) {x : Option Char}
    (h : classChar true items s = some (x, t)) :
    ∃ c, x = some c ∧ (Construct.charClass true items).Admits c := by
  have hne : (ascii.filter fun c => !items.any (·.has c)) ≠ [] := by
    obtain ⟨c, hc, hleft⟩ := hleft
    exact List.ne_nil_of_mem (List.mem_filter.2 ⟨hc, by simp [hleft]⟩)
  obtain ⟨c, hc, rfl⟩ := Draw.mem_of_pick hne h
  refine ⟨c, rfl, ?_⟩
  simpa [Construct.Admits] using (List.mem_filter.1 hc).2

theorem admits_any_of_below32 {n : Nat} (h : Draw.below32 95 s = some (n, t)) :
    Construct.any.Admits (Char.ofNat (0x20 + n)) := by
  have hlt := Draw.lt_of_below32 (by omega) h
  have hnat := toNat_ofNat (show (0x20 + n).isValidChar from .inl (by omega))
  intro heq
  rw [heq] at hnat
  have : '\n'.toNat = 10 := rfl
  omega

end Regex

end Specimen
