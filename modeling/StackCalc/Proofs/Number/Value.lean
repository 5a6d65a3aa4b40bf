import Mathlib.Algebra.Order.Field.Basic
import Mathlib.Algebra.Order.Field.Power
import Mathlib.Algebra.Order.Field.Rat
import Mathlib.Data.Rat.Cast.Order
import Mathlib.Tactic.Linarith
import Mathlib.Tactic.NormNum
import StackCalc.Number.Literal

/-! The exact values of numbers. A finite number is a significand and a power of two, and that is
as many units of the least positive double as its bits tell. From zero on the finite numbers, in the
order of their bits, are the marks of an increasing scale. -/
namespace StackCalc

namespace Number

def isFinite (x : Number) : Bool := x.exponent ≠ 2047

/-- Normal numbers have a leading bit in front of the fraction. -/
def significand (x : Number) : ℕ := if x.exponent = 0 then x.fraction else 2 ^ 52 + x.fraction

/-- The power of two that the significand counts. The least exponents have the same one. -/
def power (x : Number) : ℤ := max x.exponent 1 - 1075

def magnitude (x : Number) : ℚ := x.significand * 2 ^ x.power

def value (x : Number) : ℚ := if x.isNegative then -x.magnitude else x.magnitude

theorem finite_kind {x : Number} (finite : x.isFinite = true) :
    x.isInfinite = false ∧ x.isNaN = false := by
  rw [isFinite, decide_eq_true_iff] at finite
  rw [isInfinite, isNaN, decide_eq_false finite, Bool.false_and, Bool.false_and]
  exact ⟨rfl, rfl⟩

theorem infinite_kind {x : Number} (infinite : x.isInfinite = true) : x.isNaN = false := by
  rw [isInfinite, Bool.and_eq_true, decide_eq_true_iff, decide_eq_true_iff] at infinite
  rw [isNaN, decide_eq_false (not_not_intro infinite.2), Bool.and_false]

theorem kinds (x : Number) : x.isFinite = true ∨ x.isInfinite = true ∨ x.isNaN = true := by
  unfold isFinite isInfinite isNaN
  by_cases exponent : x.exponent = 2047
  · by_cases fraction : x.fraction = 0
    · exact .inr (.inl (by simp [exponent, fraction]))
    · exact .inr (.inr (by simp [exponent, fraction]))
  · exact .inl (by simp [exponent])

theorem magnitude_nonneg (x : Number) : 0 ≤ x.magnitude := by
  unfold magnitude
  positivity

theorem units_significand (x : Number) : x.units = x.significand * 2 ^ (x.exponent - 1) := by
  unfold units significand
  split
  · rename_i subnormal
    simp [subnormal]
  · rw [Nat.shiftLeft_eq, Nat.one_shiftLeft]

/-- The magnitude is the count of units, and a unit is 2 to the -1074. -/
theorem magnitude_units (x : Number) : x.magnitude = x.units / 2 ^ 1074 := by
  have steps : x.power = ((x.exponent - 1 : ℕ) : ℤ) - (1074 : ℕ) := by
    unfold power
    omega
  rw [magnitude, steps, zpow_sub₀ (by norm_num), zpow_natCast, zpow_natCast, units_significand]
  push_cast
  rw [mul_div_assoc]

/-- The units of the number whose bits are `place`, if that is finite and not negative. Behind the
last finite number the scale goes on as if there were more exponents. -/
def mark (place : ℕ) : ℕ :=
  if place < 2 ^ 52 then place else (2 ^ 52 + place % 2 ^ 52) * 2 ^ (place / 2 ^ 52 - 1)

/-- The significand of 53 bits that is counted at a place, and the step it is counted in. -/
theorem exists_count (place : ℕ) : ∃ shift count, place = shift * 2 ^ 52 + count ∧
    count < 2 ^ 53 ∧ (shift = 0 ∨ 2 ^ 52 ≤ count) := by
  by_cases subnormal : place < 2 ^ 52
  · exact ⟨0, place, by omega, by omega, .inl rfl⟩
  · exact ⟨place / 2 ^ 52 - 1, 2 ^ 52 + place % 2 ^ 52, by omega, by omega, .inr (by omega)⟩

/-- A count may also be rounded up to the next power of two. -/
theorem mark_count {shift count : ℕ} (short : count ≤ 2 ^ 53) (normal : shift = 0 ∨ 2 ^ 52 ≤ count) :
    mark (shift * 2 ^ 52 + count) = count * 2 ^ shift := by
  unfold mark
  by_cases subnormal : count < 2 ^ 52
  · obtain rfl : shift = 0 := by omega
    rw [Nat.zero_mul, Nat.zero_add, if_pos subnormal, Nat.pow_zero, Nat.mul_one]
  · rw [if_neg (by omega)]
    rcases short.lt_or_eq with short | rfl
    · have fraction : (shift * 2 ^ 52 + count) % 2 ^ 52 = count - 2 ^ 52 := by omega
      have exponent : (shift * 2 ^ 52 + count) / 2 ^ 52 - 1 = shift := by omega
      rw [fraction, exponent, Nat.add_sub_cancel' (by omega)]
    · have fraction : (shift * 2 ^ 52 + 2 ^ 53) % 2 ^ 52 = 0 := by omega
      have exponent : (shift * 2 ^ 52 + 2 ^ 53) / 2 ^ 52 - 1 = shift + 1 := by omega
      have double : 2 ^ (shift + 1) = 2 * 2 ^ shift := Nat.pow_succ'
      rw [fraction, exponent, double]
      omega

theorem mark_increasing : StrictMono mark := by
  refine strictMono_nat_of_lt_succ fun place => ?_
  obtain ⟨shift, count, rfl, short, normal⟩ := exists_count place
  have next : shift * 2 ^ 52 + count + 1 = shift * 2 ^ 52 + (count + 1) := by omega
  rw [next, mark_count short.le normal, mark_count (by omega) (by omega)]
  exact Nat.mul_lt_mul_of_pos_right (Nat.lt_succ_self count) (Nat.two_pow_pos shift)

def place (x : Number) : ℕ := x.bits.toNat % 2 ^ 63

theorem exponent_place (x : Number) : x.exponent = x.place / 2 ^ 52 := by
  rw [exponent, place, Nat.shiftRight_eq_div_pow, Nat.one_shiftLeft]
  omega

theorem fraction_place (x : Number) : x.fraction = x.place % 2 ^ 52 := by
  rw [fraction, place, Nat.one_shiftLeft]
  omega

theorem units_mark (x : Number) : x.units = mark x.place := by
  rw [units, mark, exponent_place, fraction_place, Nat.shiftLeft_eq, Nat.one_shiftLeft]
  by_cases subnormal : x.place < 2 ^ 52
  · rw [if_pos subnormal, if_pos (by omega), Nat.mod_eq_of_lt subnormal]
  · rw [if_neg subnormal, if_neg (by omega)]

theorem magnitude_mark (x : Number) : x.magnitude = mark x.place / 2 ^ 1074 := by
  rw [magnitude_units, units_mark]

theorem significand_even (x : Number) : Even x.significand ↔ Even x.place := by
  rw [Nat.even_iff, Nat.even_iff, significand, fraction_place]
  split <;> omega

theorem isFinite_iff (x : Number) : x.isFinite = true ↔ x.place < 2047 * 2 ^ 52 := by
  have bound : x.place < 2 ^ 63 := Nat.mod_lt _ (by norm_num)
  rw [isFinite, decide_eq_true_iff, exponent_place]
  omega

theorem isNegative_iff (x : Number) : x.isNegative = true ↔ x.bits.toNat = 2 ^ 63 + x.place := by
  have bound : x.bits.toNat < 2 ^ 64 := x.bits.toNat_lt
  rw [isNegative, decide_eq_true_iff, Nat.one_shiftLeft, place]
  omega

end Number
end StackCalc
