import Mathlib
import Specimen.Decimal.Integer
/-!
# Floats as rational numbers

A finite float stands for a rational number: its mantissa times a power of two, with its sign.
`Decimal.rational?` takes it from the unpacked float, and `Decimal.integerOf?`, which works on
the bits, finds the integers among these numbers: `Decimal.integerOf?_eq_some_iff`.
-/

namespace Specimen.Decimal

open Float.Model Float.Model.UnpackedFloat

/-- The rational number that an unpacked float stands for, if it is finite. -/
def unpackedRational? : UnpackedFloat → Option ℚ
  | .zero _ => some 0
  | .finite s m e _ => some ((s.apply m : ℤ) * 2 ^ e)
  | _ => none

/-- The rational number that a float stands for, if it is finite. -/
def rational? (x : Float) : Option ℚ := unpackedRational? x.toModel.unpack

/-- The magnitude as a rational number. -/
def Binary.value (b : Binary) : ℚ := b.mantissa * 2 ^ b.exponent

/-! ## The fields of the bits -/

section Fields

variable (bits : UInt64)

theorem toNat_unpackExponent : (@unpackExponent .binary64 bits.toBitVec).toNat =
    ((bits >>> 52) &&& 0x7FF).toNat := by
  change (bits.toNat >>> 52) % 2 ^ 11 = (bits.toNat >>> 52) &&& (2 ^ 11 - 1)
  rw [Nat.and_two_pow_sub_one_eq_mod]

theorem toNat_unpackMantissa : (@unpackMantissa .binary64 bits.toBitVec).toNat =
    (bits &&& 0xFFFFFFFFFFFFF).toNat := by
  change (bits.toNat >>> 0) % 2 ^ 52 = bits.toNat &&& (2 ^ 52 - 1)
  rw [Nat.and_two_pow_sub_one_eq_mod, Nat.shiftRight_zero]

theorem Binary.mantissa_ofBits : (Binary.ofBits bits).mantissa =
    if (@unpackExponent .binary64 bits.toBitVec).toNat = 0 then
      (@unpackMantissa .binary64 bits.toBitVec).toNat
    else 0x10000000000000 + (@unpackMantissa .binary64 bits.toBitVec).toNat := by
  rw [toNat_unpackExponent, toNat_unpackMantissa, Binary.ofBits]
  split_ifs <;> rfl

theorem Binary.exponent_ofBits : (Binary.ofBits bits).exponent =
    if (@unpackExponent .binary64 bits.toBitVec).toNat = 0 then (-1074 : ℤ)
    else (@unpackExponent .binary64 bits.toBitVec).toNat - 1075 := by
  rw [toNat_unpackExponent, Binary.ofBits]
  split_ifs <;> rfl

end Fields

theorem toNat_implicit_append (m : BitVec 52) :
    (1#1 ++ m).toNat = 0x10000000000000 + m.toNat := by
  rw [BitVec.toNat_append, ← Nat.shiftLeft_add_eq_or_of_lt m.isLt]
  rfl

/-- The mantissa and the exponent that are read off the bits are those of the unpacked float. -/
theorem unpack_ofBits {bits : UInt64}
    (h : (UnpackedFloat.unpack .binary64 bits.toBitVec).isFinite = true) :
    ∃ s, ((Binary.ofBits bits).mantissa = 0 ∧
        UnpackedFloat.unpack .binary64 bits.toBitVec = .zero s) ∨
      ∃ hpos, UnpackedFloat.unpack .binary64 bits.toBitVec =
        .finite s (Binary.ofBits bits).mantissa (Binary.ofBits bits).exponent hpos := by
  refine ⟨.ofBitVec (@unpackSign .binary64 bits.toBitVec), ?_⟩
  -- the three kinds of exponents: of infinities and NaN, of subnormals and of normal numbers
  simp only [Binary.mantissa_ofBits, Binary.exponent_ofBits]
  by_cases hlast : @unpackExponent .binary64 bits.toBitVec = -1#11
  · simp only [UnpackedFloat.unpack, hlast, if_true] at h
    split_ifs at h <;> cases h
  by_cases hzero : @unpackExponent .binary64 bits.toBitVec = 0#11
  · have hlast : 0#11 ≠ -1#11 := by decide
    simp only [UnpackedFloat.unpack, hzero, if_neg hlast, BitVec.toNat_zero, if_true]
    by_cases hmantissa : @unpackMantissa .binary64 bits.toBitVec = 0#52
    · exact .inl ⟨by rw [hmantissa]; rfl, dif_pos hmantissa⟩
    · have hpos : (@unpackMantissa .binary64 bits.toBitVec).toNat ≠ 0 :=
        fun h => hmantissa (BitVec.eq_of_toNat_eq h)
      exact .inr ⟨by omega, dif_neg hmantissa⟩
  · have hpos : (@unpackExponent .binary64 bits.toBitVec).toNat ≠ 0 :=
      fun h => hzero (BitVec.eq_of_toNat_eq h)
    simp only [UnpackedFloat.unpack, if_neg hlast, if_neg hzero, if_neg hpos,
      toNat_implicit_append]
    exact .inr ⟨by omega, rfl⟩

theorem unpack_zero : (0.0 : Float).toModel.unpack = .zero .positive := by
  have hzero : (0.0 : Float) = .ofBits 0 := by decide +kernel
  rw [hzero]
  rfl

/-- A finite float is the magnitude that its bits stand for, with its sign. -/
theorem rational?_of_isFinite {x : Float} (h : x.isFinite = true) :
    rational? x =
      some (if x < 0.0 then -(Binary.ofFloat x).value else (Binary.ofFloat x).value) := by
  have hlt : x < 0.0 ↔ x.toModel.unpack.lt (0.0 : Float).toModel.unpack = true :=
    decide_eq_true_iff
  rw [unpack_zero] at hlt
  obtain ⟨s, ⟨hzero, hx⟩ | ⟨hpos, hx⟩⟩ := unpack_ofBits h
  · change x.toModel.unpack = _ at hx
    have hvalue : (Binary.ofFloat x).value = 0 := by
      rw [Binary.value, Binary.ofFloat, Float.toBits, hzero, Nat.cast_zero, zero_mul]
    rw [rational?, hx, hvalue, neg_zero, ite_self]
    rfl
  · change x.toModel.unpack = _ at hx
    rw [rational?, hx, unpackedRational?]
    rw [hx] at hlt
    cases s with
    | negative =>
        rw [if_pos (hlt.2 rfl)]
        simp [Sign.apply, Binary.value, Binary.ofFloat, Float.toBits]
    | positive =>
        rw [if_neg (fun h => Bool.noConfusion (hlt.1 h))]
        simp [Sign.apply, Binary.value, Binary.ofFloat, Float.toBits]

theorem rational?_of_not_isFinite {x : Float} (h : x.isFinite = false) : rational? x = none := by
  change x.toModel.unpack.isFinite = false at h
  rw [rational?]
  cases hx : x.toModel.unpack <;> rw [hx] at h <;> first | rfl | cases h

/-! ## The integers among them -/

/-- A number of units is what is divided by the unit without a rest. -/
theorem units_eq_some_iff {m unit n : ℕ} (hunit : 0 < unit) :
    (if m % unit = 0 then some (m / unit) else none) = some n ↔ m = n * unit := by
  split_ifs with hrest
  · rw [Option.some.injEq]
    exact Nat.div_eq_iff_eq_mul_left hunit (Nat.dvd_of_mod_eq_zero hrest)
  · simp only [false_iff]
    rintro rfl
    exact hrest (Nat.mul_mod_left n unit)

theorem Binary.nat?_eq_some_iff {b : Binary} {n : ℕ} : b.nat? = some n ↔ b.value = n := by
  rw [nat?, value]
  split_ifs with hexponent
  · obtain ⟨k, hk⟩ := Int.eq_ofNat_of_zero_le hexponent
    rw [hk, Int.toNat_natCast, Nat.shiftLeft_eq, Option.some.injEq, zpow_natCast]
    exact_mod_cast Iff.rfl
  · obtain ⟨k, hk⟩ : ∃ k : ℕ, b.exponent = -k := ⟨b.exponent.natAbs, by omega⟩
    have hunit : (0 : ℚ) < 2 ^ k := pow_pos two_pos k
    rw [hk, neg_neg, Int.toNat_natCast, Nat.one_shiftLeft, zpow_neg, zpow_natCast,
      ← div_eq_mul_inv, div_eq_iff hunit.ne', units_eq_some_iff (Nat.two_pow_pos k)]
    exact_mod_cast Iff.rfl

theorem Binary.value_nonneg (b : Binary) : 0 ≤ b.value :=
  mul_nonneg (Nat.cast_nonneg _) (zpow_nonneg zero_le_two _)

theorem Binary.exists_nat?_iff {b : Binary} {n : ℤ} :
    (∃ m : ℕ, b.nat? = some m ∧ (m : ℤ) = n) ↔ b.value = n := by
  simp only [nat?_eq_some_iff]
  constructor
  · rintro ⟨m, hm, rfl⟩
    exact_mod_cast hm
  · intro h
    have hn : 0 ≤ n := by
      have hvalue := b.value_nonneg
      rw [h] at hvalue
      exact_mod_cast hvalue
    obtain ⟨m, rfl⟩ := Int.eq_ofNat_of_zero_le hn
    exact ⟨m, by exact_mod_cast h, rfl⟩

theorem integerOf?_of_isFinite {x : Float} (h : x.isFinite = true) :
    integerOf? x =
      (Binary.ofFloat x).nat?.map fun m : ℕ => if x < 0.0 then -(m : ℤ) else m := by
  rw [integerOf?, if_pos h]
  cases (Binary.ofFloat x).nat? <;> rfl

/-- The integer of a float is the one that it equals. -/
theorem integerOf?_eq_some_iff {x : Float} {n : ℤ} :
    integerOf? x = some n ↔ rational? x = some (n : ℚ) := by
  cases hfinite : x.isFinite with
  | false => simp [integerOf?, rational?_of_not_isFinite hfinite, hfinite]
  | true =>
      rw [integerOf?_of_isFinite hfinite, rational?_of_isFinite hfinite, Option.map_eq_some_iff,
        Option.some.injEq]
      split_ifs with hneg
      · simp only [neg_eq_iff_eq_neg, ← Int.cast_neg]
        exact Binary.exists_nat?_iff
      · exact Binary.exists_nat?_iff

end Specimen.Decimal
