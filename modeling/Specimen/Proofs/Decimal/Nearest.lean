import Specimen.Json.Basic
import Specimen.Proofs.Decimal.Rational
/-!
# Large integers as floats

The float that is nearest to an integer of more than 52 bits is an integer again, and not
below the power of two below the integer: rounding drops the last bits of the mantissa and
may carry, but does not borrow.
-/

namespace Specimen.Decimal

open Float.Model Float.Model.UnpackedFloat

/-! ## Rounding -/

theorem mantissa_shiftRight (em : ExtendedMantissa) (k : ℕ) :
    (em >>> k).mantissa = em.mantissa / 2 ^ k := by
  induction k with
  | zero => exact (Nat.div_one _).symm
  | succ k ih =>
      change (em >>> k).mantissa / 2 = _
      rw [ih, Nat.div_div_eq_div_mul, Nat.pow_succ]

/-- Rounding leaves the mantissa or carries one. -/
theorem roundedMantissa_mem (em : ExtendedMantissa) :
    em.roundedMantissa = em.mantissa ∨ em.roundedMantissa = em.mantissa + 1 := by
  obtain ⟨m, round, sticky⟩ := em
  cases round <;> cases sticky
  · exact .inl rfl
  · exact .inl rfl
  · change m + m % 2 = m ∨ m + m % 2 = m + 1
    omega
  · exact .inr rfl

theorem log2_eq_of_mem {m k : ℕ} (hlow : 2 ^ k ≤ m) (hhigh : m < 2 ^ (k + 1)) : m.log2 = k := by
  have hm : m ≠ 0 := by have := Nat.two_pow_pos k; omega
  have hle := (Nat.le_log2 hm).2 hlow
  have hlt := (Nat.log2_lt hm).2 hhigh
  omega

/-- A mantissa of `53 + k` bits is `k` bits too long. -/
theorem targetExponent_of_log2 {m k : ℕ} {e : ℤ} (hm : m.log2 = 52 + k) (he : 0 ≤ e) :
    Format.binary64.targetExponent (totalExponent m e) = e + k := by
  simp only [Format.targetExponent, totalExponent, Format.mantissaBits, Format.minExponent, hm]
  omega

theorem shiftToTargetExponent_of_log2 {m k : ℕ} {e : ℤ} (hm : m.log2 = 52 + k) (he : 0 ≤ e) :
    shiftToTargetExponent .binary64 m e .exact =
      (ExtendedMantissa.ofMantissaAndAccuracy m .exact >>> k, e + k) := by
  have hshift : (e + k - e).toNat = k := by omega
  simp only [shiftToTargetExponent, targetExponent_of_log2 hm he, shiftToExponent, hshift]

/-- The first shift leaves 53 bits. -/
theorem shifted_of_log2 {n k : ℕ} (hn : n.log2 = 52 + k) (hpos : n ≠ 0) :
    2 ^ 52 ≤ (shiftToTargetExponent .binary64 n 0 .exact).1.mantissa ∧
      (shiftToTargetExponent .binary64 n 0 .exact).1.mantissa < 2 ^ 53 ∧
      (shiftToTargetExponent .binary64 n 0 .exact).2 = k := by
  rw [shiftToTargetExponent_of_log2 hn (Int.le_refl 0), mantissa_shiftRight]
  change 2 ^ 52 ≤ n / 2 ^ k ∧ n / 2 ^ k < 2 ^ 53 ∧ (0 : ℤ) + k = k
  rw [Nat.le_div_iff_mul_le (Nat.two_pow_pos k), Nat.div_lt_iff_lt_mul (Nat.two_pow_pos k),
    ← Nat.pow_add, ← Nat.pow_add, ← hn]
  exact ⟨Nat.log2_self_le hpos, (Nat.log2_lt hpos).1 (by omega), Int.zero_add _⟩

/-- The second shift is for a carry out of the 53 bits. -/
theorem shifted_of_rounded {m : ℕ} {e : ℤ} (hlow : 2 ^ 52 ≤ m) (hhigh : m ≤ 2 ^ 53)
    (he : 0 ≤ e) :
    (shiftToTargetExponent .binary64 m e .exact).1.mantissa.log2 = 52 ∧
      e ≤ (shiftToTargetExponent .binary64 m e .exact).2 ∧
      (shiftToTargetExponent .binary64 m e .exact).2 ≤ e + 1 := by
  obtain hlt | rfl := Nat.lt_or_eq_of_le hhigh
  · have hlog : m.log2 = 52 + 0 := log2_eq_of_mem hlow hlt
    rw [shiftToTargetExponent_of_log2 hlog he]
    exact ⟨hlog, by simp, by simp⟩
  · have hlog : (2 ^ 53).log2 = 52 + 1 := Nat.log2_two_pow
    rw [shiftToTargetExponent_of_log2 hlog he, mantissa_shiftRight]
    exact ⟨by decide, by simp, by simp⟩

/-- A natural number of `53 + k` bits is rounded to a mantissa of 53 bits. -/
theorem roundWithAccuracy_of_log2 {s : Sign} {n k : ℕ} (hn : n.log2 = 52 + k) (hpos : n ≠ 0) :
    ∃ m e hm, roundWithAccuracy .binary64 s n 0 .exact = .finite s m e hm ∧ m.log2 = 52 ∧
      k ≤ e ∧ e ≤ k + 1 := by
  obtain ⟨hlow, hhigh, hexponent⟩ := shifted_of_log2 hn hpos
  have hrounded := roundedMantissa_mem (shiftToTargetExponent .binary64 n 0 .exact).1
  obtain ⟨hlog, hle, hle'⟩ := shifted_of_rounded (e := k)
    (m := (shiftToTargetExponent .binary64 n 0 .exact).1.roundedMantissa) (by omega) (by omega)
    (by omega)
  rw [← hexponent] at hlog hle hle'
  have hne : (shiftToTargetExponent .binary64
      (shiftToTargetExponent .binary64 n 0 .exact).1.roundedMantissa
      (shiftToTargetExponent .binary64 n 0 .exact).2 .exact).1.mantissa ≠ 0 := by
    intro h
    rw [h] at hlog
    cases hlog
  rw [← hexponent]
  exact ⟨_, _, Nat.pos_of_ne_zero hne, dif_neg hne, hlog, hle, hle'⟩

theorem round_of_log2 {s : Sign} {n k : ℕ} (hn : n.log2 = 52 + k) (hpos : n ≠ 0) :
    ∃ m e hm, UnpackedFloat.round .binary64 s n 0 = .finite s m e hm ∧ m.log2 = 52 ∧
      k ≤ e ∧ e ≤ k + 1 := by
  have hshift : (0 - (0 + k : ℤ)).toNat = 0 := by omega
  simp only [UnpackedFloat.round, targetExponent_of_log2 hn (Int.le_refl 0), decreaseExponent,
    hshift, Nat.shiftLeft_zero]
  exact roundWithAccuracy_of_log2 hn hpos

/-! ## Packing -/

theorem unpackSign_packComponents {spec : Format} {s : Sign} {exponent mantissa} :
    Sign.ofBitVec (unpackSign (packComponents spec s exponent mantissa)) = s := by
  have hbit : unpackSign (packComponents spec s exponent mantissa) = s.toBitVec := by
    ext i hi
    obtain rfl : i = 0 := by omega
    simp [unpackSign, packComponents, BitVec.getLsbD_append, BitVec.getElem_append]
  rw [hbit]
  cases s <;> rfl

/-- A mantissa of 53 bits is packed without its first bit. -/
theorem pack_of_log2 {s : Sign} {m biased : ℕ} {e : ℤ} (hm : 0 < m) (hlog : m.log2 = 52)
    (he : e + 1075 = biased) (hbiased : biased < 2047) :
    UnpackedFloat.pack .binary64 (.finite s m e hm) =
      packComponents .binary64 s (BitVec.ofNat 11 biased) (BitVec.ofNat 52 m) := by
  have hbias : (e + Format.binary64.exponentBias +
      Format.binary64.mantissaBitsWithoutImplicit).toNat = biased := by
    change (e + 1023 + 52).toNat = biased
    omega
  simp only [UnpackedFloat.pack, hbias]
  rw [if_neg (by omega), if_pos (by rw [hlog]; rfl)]

theorem unpack_packComponents {s : Sign} {exponent : BitVec 11} {mantissa : BitVec 52}
    (hzero : exponent ≠ 0#11) (hlast : exponent ≠ -1#11) :
    UnpackedFloat.unpack .binary64 (packComponents .binary64 s exponent mantissa) =
      .finite s (1#1 ++ mantissa).toNat (exponent.toNat - 1075)
        (by rw [toNat_implicit_append]; omega) := by
  simp only [UnpackedFloat.unpack, unpackExponent_packComponents, unpackMantissa_packComponents,
    unpackSign_packComponents]
  rw [if_neg hlast, if_neg hzero]
  rfl

/-- A mantissa of 53 bits with an exponent in range is packed without loss. -/
theorem unpack_pack {s : Sign} {m : ℕ} {e : ℤ} (hm : 0 < m) (hlog : m.log2 = 52)
    (hlow : -1074 ≤ e) (hhigh : e ≤ 971) :
    (Float.Model.pack (.finite s m e hm)).unpack = .finite s m e hm := by
  obtain ⟨biased, he⟩ : ∃ b : ℕ, e + 1075 = b := ⟨(e + 1075).toNat, by omega⟩
  have hexponent : (BitVec.ofNat 11 biased).toNat = biased := by
    rw [BitVec.toNat_ofNat, Nat.mod_eq_of_lt (by omega)]
  have hne : ∀ {b : BitVec 11}, biased ≠ b.toNat → BitVec.ofNat 11 biased ≠ b :=
    fun hb h => hb (by rw [← h, hexponent])
  have hmlow : 2 ^ 52 ≤ m := hlog ▸ Nat.log2_self_le hm.ne'
  have hmhigh : m < 2 ^ 53 := (Nat.log2_lt hm.ne').1 (by omega)
  have hmantissa : (1#1 ++ BitVec.ofNat 52 m).toNat = m := by
    rw [toNat_implicit_append, BitVec.toNat_ofNat]
    omega
  have hvalue : ((BitVec.ofNat 11 biased).toNat : ℤ) - 1075 = e := by
    rw [hexponent, ← he, Int.add_sub_cancel]
  change UnpackedFloat.unpack .binary64 (UnpackedFloat.pack .binary64 (.finite s m e hm)) = _
  rw [pack_of_log2 hm hlog he (by omega),
    unpack_packComponents (hne (by change biased ≠ 0; omega))
      (hne (by change biased ≠ 2047; omega))]
  simp only [hmantissa, hvalue]

/-! ## Integers above the signed range -/

/-- An integer from the upper half of the words is read as one that is not below that half. -/
theorem rational?_toFloat {n : UInt64} (hn : 2 ^ 63 ≤ n.toNat) :
    ∃ m : ℕ, rational? n.toFloat = some (m : ℚ) ∧ 2 ^ 63 ≤ m := by
  have hlog : n.toNat.log2 = 52 + 11 := log2_eq_of_mem hn n.toNat_lt
  obtain ⟨m, e, hpos, hround, hm, hlow, hhigh⟩ := round_of_log2 (s := .positive) hlog (by omega)
  have hunpack : n.toFloat.toModel.unpack = .finite .positive m e hpos := by
    have hnormal : UnpackedFloat.ofUInt64 .binary64 n = .finite .positive m e hpos := by
      have hgt : compare (n.toNat : ℤ) 0 = .gt := compare_gt_iff_gt.2 (by omega)
      simp only [UnpackedFloat.ofUInt64, UnpackedFloat.ofNat, UnpackedFloat.ofInt,
        UnpackedFloat.normalize, hgt, Int.toNat_natCast, hround]
    change (Float.Model.pack (UnpackedFloat.ofUInt64 .binary64 n)).unpack = _
    rw [hnormal, unpack_pack hpos hm (by omega) (by omega)]
  obtain ⟨k, rfl⟩ : ∃ k : ℕ, e = k := ⟨e.toNat, by omega⟩
  refine ⟨m * 2 ^ k, ?_, ?_⟩
  · rw [rational?, hunpack, unpackedRational?]
    push_cast [Sign.apply, zpow_natCast]
    rfl
  · have hle : 2 ^ 52 ≤ m := hm ▸ Nat.log2_self_le hpos.ne'
    calc 2 ^ 63 = 2 ^ 52 * 2 ^ 11 := by norm_num
      _ ≤ m * 2 ^ k := Nat.mul_le_mul hle (Nat.pow_le_pow_right (by decide) (by omega))

theorem rational?_floatOfInt {n : ℤ} (hlow : int64Limit ≤ n) (hhigh : n < UInt64.size) :
    ∃ m : ℕ, rational? (Json.floatOfInt n) = some (m : ℚ) ∧ int64Limit ≤ m := by
  simp only [int64Limit, UInt64.size] at hlow hhigh ⊢
  have hword : (UInt64.ofNat n.natAbs).toNat = n.natAbs := by
    rw [UInt64.toNat_ofNat', Nat.mod_eq_of_lt (by omega)]
  obtain ⟨m, hm, hle⟩ := rational?_toFloat (n := UInt64.ofNat n.natAbs) (by omega)
  refine ⟨m, ?_, by omega⟩
  rw [Json.floatOfInt, if_neg (by omega), hm]

end Specimen.Decimal
