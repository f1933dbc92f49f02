import Specimen.Json.Basic
import Specimen.Random.Draw
/-!
# Where draws fall

A draw below `n` falls below `n`, an integer between its bounds, and a pick is one of the
items. The second word of `Draw.below` can carry into the high half of the product only where
that is not `n - 1` already.
-/

namespace Specimen.Draw

open Specimen.Random

variable {s t : Source} {n : Nat}

/-- Where the low half of `w * n` is close to the top, the high half
is at least two below `n`. -/
theorem high_add_one_lt {B w : Nat} (hw : w < B) (h : B - n < w * n % B) :
    w * n / B + 1 < n := by
  have hdecomp := Nat.div_add_mod (w * n) B
  have hlow := Nat.mod_lt (w * n) (show 0 < B by omega)
  obtain ⟨v, rfl⟩ : ∃ v, B = w + 1 + v := ⟨B - (w + 1), by omega⟩
  rw [Nat.lt_iff_add_one_le]
  apply Nat.le_of_not_lt
  intro hlt
  -- Otherwise the product is at least `(n - 1) * B` and its low half,
  -- which is more than it can be.
  have hmul : (w + 1 + v) * (n - 1) ≤ (w + 1 + v) * (w * n / (w + 1 + v)) :=
    Nat.mul_le_mul_left _ (by omega)
  have hn : 0 < n := by
    rcases Nat.eq_zero_or_pos n with rfl | hn
    · simp at h
    · exact hn
  obtain ⟨m, rfl⟩ : ∃ m, n = m + 1 := ⟨n - 1, by omega⟩
  simp only [Nat.add_sub_cancel] at hmul
  have hexpand : (w + 1 + v) * m = w * m + m + v * m := by
    rw [Nat.add_mul, Nat.add_mul, Nat.one_mul]
  have hexpand' : w * (m + 1) = w * m + w := Nat.mul_succ w m
  omega

theorem lt_of_below {size : Nat} {draw : Draw Nat}
    (hdraw : ∀ s w t, draw s = some (w, t) → w < size) (hn : 0 < n) {k : Nat}
    (h : below size draw n s = some (k, t)) : k < n := by
  obtain ⟨w, u, hw, h⟩ := bind_eq_some.1 h
  have hlt := hdraw s w u hw
  dsimp only at h
  split at h
  · rename_i hclose
    have hcarry := high_add_one_lt hlt hclose
    obtain ⟨more, u', -, h⟩ := bind_eq_some.1 h
    obtain ⟨rfl, -⟩ := pure_eq_some.1 h
    split <;> omega
  · obtain ⟨rfl, -⟩ := pure_eq_some.1 h
    rw [Nat.div_lt_iff_lt_mul (Nat.zero_lt_of_lt hlt), Nat.mul_comm n]
    exact Nat.mul_lt_mul_of_pos_right hlt hn

theorem lt_of_below32 (hn : 0 < n) {k : Nat} (h : below32 n s = some (k, t)) : k < n := by
  refine lt_of_below (fun s w t hw => ?_) hn h
  obtain ⟨x, u, -, hw⟩ := bind_eq_some.1 hw
  obtain ⟨rfl, -⟩ := pure_eq_some.1 hw
  exact x.toNat_lt

theorem lt_of_below64 (hn : 0 < n) {k : Nat} (h : below64 n s = some (k, t)) : k < n := by
  refine lt_of_below (fun s w t hw => ?_) hn h
  obtain ⟨x, u, -, hw⟩ := bind_eq_some.1 hw
  obtain ⟨rfl, -⟩ := pure_eq_some.1 hw
  exact x.toNat_lt

theorem lt_of_index (hn : 0 < n) {k : Nat} (h : index n s = some (k, t)) : k < n := by
  unfold index at h
  split at h
  · exact lt_of_below32 hn h
  · exact lt_of_below64 hn h

theorem mem_of_signed64 {k : Int} (h : signed64 s = some (k, t)) :
    -int64Limit ≤ k ∧ k < int64Limit := by
  obtain ⟨w, u, -, h⟩ := bind_eq_some.1 h
  obtain ⟨rfl, -⟩ := pure_eq_some.1 h
  exact ⟨Int.le_bmod (by decide), Int.bmod_lt (by decide)⟩

theorem mem_of_between {low high k : Int} (hlow : -int64Limit ≤ low) (hle : low ≤ high)
    (hhigh : high < int64Limit) (h : between low high s = some (k, t)) : low ≤ k ∧ k ≤ high := by
  by_cases hall : (high - low + 1).toNat = UInt64.size
  · have hsigned : signed64 s = some (k, t) := by
      rwa [between, if_pos hall] at h
    obtain ⟨hmin, hmax⟩ := mem_of_signed64 hsigned
    simp only [int64Limit, UInt64.size] at *
    omega
  · rw [between, if_neg hall] at h
    obtain ⟨i, u, hi, h⟩ := bind_eq_some.1 h
    obtain ⟨rfl, -⟩ := pure_eq_some.1 h
    have hlt := lt_of_below64 (by omega) hi
    omega

/-- A range that starts at zero or above is never left upwards, even by
bounds that are no words. -/
theorem le_of_between {low high k : Int} (hlow : 0 ≤ low) (hle : low ≤ high)
    (h : between low high s = some (k, t)) : k ≤ high := by
  by_cases hall : (high - low + 1).toNat = UInt64.size
  · have hsigned : signed64 s = some (k, t) := by
      rwa [between, if_pos hall] at h
    have hmax := (mem_of_signed64 hsigned).2
    simp only [int64Limit, UInt64.size] at *
    omega
  · rw [between, if_neg hall] at h
    obtain ⟨i, u, hi, h⟩ := bind_eq_some.1 h
    obtain ⟨rfl, -⟩ := pure_eq_some.1 h
    have hlt := lt_of_below64 (by omega) hi
    omega

theorem mem_of_pick {α : Type} {items : List α} (hne : items ≠ []) {x : Option α}
    (h : pick items s = some (x, t)) : ∃ a ∈ items, x = some a := by
  cases items with
  | nil => exact absurd rfl hne
  | cons a rest =>
      obtain ⟨i, u, hi, h⟩ := bind_eq_some.1 h
      obtain ⟨rfl, -⟩ := pure_eq_some.1 h
      have hlt := lt_of_index (by simp) hi
      exact ⟨_, List.getElem_mem hlt, List.getElem?_eq_getElem hlt⟩

end Specimen.Draw
