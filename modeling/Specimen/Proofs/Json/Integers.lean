import Specimen.Params
import Specimen.Proofs.Decimal.Nearest
import Specimen.Provider.Error
/-!
# The integers that numbers are read as

`Params.integer?` reads the integers of parameters, `Provider.integer?` those of arguments of
calls. Both look at the value of a number, written as an integer or as a float, and neither takes
a fraction. A parameter is read exactly or not at all. An argument outside the signed range is
read as the nearest end of that range: `Json.reading`.
-/

namespace Specimen

variable {v : Json} {q : ℚ} {n : ℤ}

namespace Json

/-- The value of a number: an integer of 64 bits, with or without a sign, or a finite float. -/
def rational? : Json → Option ℚ
  | .int n => if -int64Limit ≤ n ∧ n < UInt64.size then some n else none
  | .float x => Decimal.rational? x
  | _ => none

def isFloat : Json → Bool
  | .float _ => true
  | _ => false

/-- How a number of a given value is read as an integer. -/
structure Reading (v : Json) (q : ℚ) : Prop where
  /-- A parameter is the integer that the number equals. The float at the lower end of the signed
  range is left out. -/
  parameter : ∀ n : ℤ, Params.integer? v = some n ↔
    q = n ∧ -int64Limit ≤ n ∧ n < int64Limit ∧ (v.isFloat → n ≠ -int64Limit)
  /-- An argument is the integer that the number equals, moved into the signed range. -/
  argument : ∀ n : ℤ, Provider.integer? v = some n ↔ ∃ m : ℤ, q = m ∧ Provider.clamp64 m = n
  /-- So it is exact for numbers of the signed range only. -/
  exact : ∀ n : ℤ, Provider.integer? v = some n →
    (q = n ↔ -int64Limit ≤ q ∧ q < int64Limit)
  /-- Where the two readings agree. -/
  agree : Params.integer? v = Provider.integer? v ↔ (∀ m : ℤ, q ≠ m) ∨
    -int64Limit ≤ q ∧ q < int64Limit ∧ (v.isFloat → q ≠ -int64Limit)

theorem rational?_int (h : (Json.int n).rational? = some q) :
    q = n ∧ -int64Limit ≤ n ∧ n < UInt64.size := by
  simp only [rational?] at h
  split_ifs at h with hrange
  cases h
  exact ⟨rfl, hrange⟩

end Json

open Json

/-! ## Parameters -/

theorem Params.integer?_eq_some_iff (h : v.rational? = some q) :
    Params.integer? v = some n ↔
      q = n ∧ -int64Limit ≤ n ∧ n < int64Limit ∧ (v.isFloat → n ≠ -int64Limit) := by
  cases v with
  | int m =>
      obtain ⟨rfl, -⟩ := rational?_int h
      simp only [Params.integer?, isFloat, Int.cast_inj]
      split_ifs with hrange <;> grind
  | float x =>
      change Decimal.rational? x = some q at h
      simp only [Params.integer?, Option.filter_eq_some_iff, Decimal.integerOf?_eq_some_iff, h,
        Option.some.injEq, isFloat, decide_eq_true_eq]
      grind
  | _ => cases h

/-! ## Arguments of calls -/

theorem Provider.clamp64_eq_self_iff : clamp64 n = n ↔ -int64Limit ≤ n ∧ n < int64Limit := by
  simp only [clamp64, int64Limit]
  omega

theorem Provider.clamp64_of_le (h : int64Limit ≤ n) : clamp64 n = int64Limit - 1 := by
  simp only [clamp64, int64Limit] at *
  omega

/-- An integer above the signed range goes through a float, which may be another integer. Both
are clamped to the same end. -/
theorem Provider.integer?_int (hlow : -int64Limit ≤ n) (hhigh : n < UInt64.size) :
    Provider.integer? (.int n) = some (clamp64 n) := by
  by_cases hlimit : n < int64Limit
  · simp only [Provider.integer?, int64?, if_pos (And.intro hlow hlimit),
      clamp64_eq_self_iff.2 ⟨hlow, hlimit⟩]
  · obtain ⟨m, hm, hle⟩ := Decimal.rational?_floatOfInt (Int.not_lt.1 hlimit) hhigh
    have hinteger : Decimal.integerOf? (floatOfInt n) = some (m : ℤ) :=
      Decimal.integerOf?_eq_some_iff.2 hm
    simp only [Provider.integer?, int64?, hlimit, and_false, if_false, float?, Option.bind_some,
      hinteger, Option.map_some, clamp64_of_le hle, clamp64_of_le (Int.not_lt.1 hlimit)]

theorem Provider.integer?_eq_some_iff (h : v.rational? = some q) :
    Provider.integer? v = some n ↔ ∃ m : ℤ, q = m ∧ clamp64 m = n := by
  cases v with
  | int m =>
      obtain ⟨rfl, hlow, hhigh⟩ := rational?_int h
      rw [integer?_int hlow hhigh, Option.some.injEq]
      simp only [Int.cast_inj, exists_eq_left']
  | float x =>
      change Decimal.rational? x = some q at h
      simp only [Provider.integer?, int64?, float?, Option.bind_some, Option.map_eq_some_iff,
        Decimal.integerOf?_eq_some_iff, h, Option.some.injEq]
  | _ => cases h

/-! ## Both readings -/

namespace Json

theorem agree_of_fraction (h : v.rational? = some q) (hq : ∀ m : ℤ, q ≠ m) :
    Params.integer? v = Provider.integer? v := by
  have hparameter : Params.integer? v = none := by
    refine Option.eq_none_iff_forall_ne_some.2 fun n hn => ?_
    exact hq n ((Params.integer?_eq_some_iff h).1 hn).1
  have hargument : Provider.integer? v = none := by
    refine Option.eq_none_iff_forall_ne_some.2 fun n hn => ?_
    obtain ⟨m, hm, -⟩ := (Provider.integer?_eq_some_iff h).1 hn
    exact hq m hm
  rw [hparameter, hargument]

theorem agree_iff_of_integer (h : v.rational? = some (n : ℚ)) :
    Params.integer? v = Provider.integer? v ↔
      -int64Limit ≤ n ∧ n < int64Limit ∧ (v.isFloat → n ≠ -int64Limit) := by
  have hargument : Provider.integer? v = some (Provider.clamp64 n) :=
    (Provider.integer?_eq_some_iff h).2 ⟨n, rfl, rfl⟩
  rw [hargument, Params.integer?_eq_some_iff h, Int.cast_inj, eq_comm,
    Provider.clamp64_eq_self_iff]
  constructor
  · rintro ⟨⟨hlow, hhigh⟩, -, -, hfloat⟩
    rw [Provider.clamp64_eq_self_iff.2 ⟨hlow, hhigh⟩] at hfloat
    exact ⟨hlow, hhigh, hfloat⟩
  · rintro ⟨hlow, hhigh, hfloat⟩
    rw [Provider.clamp64_eq_self_iff.2 ⟨hlow, hhigh⟩]
    exact ⟨⟨hlow, hhigh⟩, hlow, hhigh, hfloat⟩

/-- Whatever number is read, whether it is written as an integer or as a float. -/
theorem reading (h : v.rational? = some q) : v.Reading q := by
  refine ⟨fun _ => Params.integer?_eq_some_iff h, fun _ => Provider.integer?_eq_some_iff h,
    fun n hn => ?_, ?_⟩
  · obtain ⟨m, rfl, rfl⟩ := (Provider.integer?_eq_some_iff h).1 hn
    rw [Int.cast_inj, eq_comm, Provider.clamp64_eq_self_iff]
    norm_cast
  · by_cases hq : ∀ m : ℤ, q ≠ m
    · exact iff_of_true (agree_of_fraction h hq) (.inl hq)
    · obtain ⟨m, rfl⟩ : ∃ m : ℤ, q = m := by simpa using hq
      rw [agree_iff_of_integer h, or_iff_right hq]
      norm_cast

/-- The float at the lower end of the signed range. -/
theorem reading_lowestFloat :
    (Json.float (-9223372036854775808.0)).rational? = some ((-9223372036854775808 : ℤ) : ℚ) ∧
      (Json.float (-9223372036854775808.0)).Reading ((-9223372036854775808 : ℤ) : ℚ) := by
  have hvalue : (Json.float (-9223372036854775808.0)).rational? =
      some ((-9223372036854775808 : ℤ) : ℚ) :=
    Decimal.integerOf?_eq_some_iff.1 (by decide +kernel)
  exact ⟨hvalue, reading hvalue⟩

example : Provider.integer? (.float (-9223372036854775808.0)) = some (-9223372036854775808) ∧
    Params.integer? (.float (-9223372036854775808.0)) = none := by
  decide +kernel

/-- The greatest integer is not a parameter, but it is an argument, and then not itself. -/
theorem inexact_greatest :
    (Json.int 18446744073709551615).rational? = some 18446744073709551615 ∧
      Provider.integer? (.int 18446744073709551615) = some 9223372036854775807 ∧
      (18446744073709551615 : ℚ) ≠ (9223372036854775807 : ℤ) ∧
      Params.integer? (.int 18446744073709551615) = none := by
  have hrange : -int64Limit ≤ 18446744073709551615 ∧
      18446744073709551615 < (UInt64.size : ℤ) := by
    decide
  refine ⟨?_, by decide +kernel, by decide, by decide⟩
  rw [rational?, if_pos hrange]
  rfl

end Json

end Specimen
