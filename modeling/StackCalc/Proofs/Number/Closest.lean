import StackCalc.Proofs.Number.Doubles

/-! Rounding to doubles, said without the way it is done. The bits are those of the finite number
that is nearest, among all of them and whatever their sign, with an even significand where two are
as near. From the middle on between the last finite number and the power of two behind it, the bits
are those of infinity. There is exactly one such number for each magnitude. -/
namespace StackCalc

namespace Number

/-- Half a step beyond the largest finite number. -/
def overflow : ℚ := 2 ^ 1024 - 2 ^ 970

structure NearestTo (q : ℚ) (x : Number) : Prop where
  nonnegative : x.isNegative = false
  finite : q < overflow → x.isFinite = true
  least : q < overflow → ∀ y : Number, y.isFinite = true → |x.value - q| ≤ |y.value - q|
  even : q < overflow → ∀ y : Number, y.isFinite = true → y.value ≠ x.value →
    |y.value - q| = |x.value - q| → Even x.significand
  infinite : overflow ≤ q → x = infinity

def lastPlace : ℕ := 2047 * 2 ^ 52 - 1

def ofPlace (n : ℕ) : Number := ⟨UInt64.ofNat n⟩

@[simp] theorem scale_zero : scale 0 = 0 := by
  rw [scale, mark, if_pos (by norm_num), Nat.cast_zero, zero_div]

/-- The first middle of the scale is half the least positive number. -/
theorem scale_first : scale 0 + scale 1 = 2 * (1 / 2 ^ 1075) := by
  have half : (2 ^ 1075 : ℚ) = 2 ^ 1074 * 2 := by rw [← pow_succ]
  rw [scale_zero, scale, mark, if_pos (by norm_num), Nat.cast_one, half, zero_add]
  generalize (2 ^ 1074 : ℚ) = unit
  rw [mul_one_div, mul_comm unit, div_mul_cancel_left₀ two_ne_zero, one_div]

theorem width_whole (n : ℕ) : width (1074 + n) = 2 ^ n := by
  rw [width, pow_add, mul_div_cancel_left₀ _ (pow_ne_zero _ two_ne_zero)]

/-- The overflow starts at the middle behind the last finite number. -/
theorem scale_last : scale lastPlace + scale (lastPlace + 1) = 2 * overflow := by
  have last : lastPlace = (1074 + 971) * 2 ^ 52 + (2 ^ 53 - 1) := rfl
  have behind : lastPlace + 1 = (1074 + 971) * 2 ^ 52 + 2 ^ 53 := rfl
  have whole : (2 ^ 1024 : ℚ) = 2 ^ 54 * 2 ^ 970 := by rw [← pow_add]
  have next : (2 ^ 971 : ℚ) = 2 * 2 ^ 970 := by rw [← pow_succ']
  rw [behind, last, scale_count (by norm_num) (.inr (by norm_num)),
    scale_count le_rfl (.inr (by norm_num)), width_whole, overflow, whole, next]
  generalize (2 ^ 970 : ℚ) = unit
  norm_num
  linarith

section OfPlace

variable {n : ℕ} (inside : n ≤ lastPlace)
include inside

theorem toNat_ofPlace : (ofPlace n).bits.toNat = n := by
  rw [ofPlace, UInt64.toNat_ofNat']
  unfold lastPlace at inside
  omega

@[simp] theorem place_ofPlace : (ofPlace n).place = n := by
  rw [place, toNat_ofPlace inside]
  unfold lastPlace at inside
  omega

@[simp] theorem isNegative_ofPlace : (ofPlace n).isNegative = false := by
  rw [Bool.eq_false_iff, Ne, isNegative_iff, place_ofPlace inside, toNat_ofPlace inside]
  omega

@[simp] theorem isFinite_ofPlace : (ofPlace n).isFinite = true := by
  rw [isFinite_iff, place_ofPlace inside]
  unfold lastPlace at inside
  omega

@[simp] theorem value_ofPlace : (ofPlace n).value = scale n := by
  rw [value, isNegative_ofPlace inside, if_neg Bool.false_ne_true, magnitude_scale,
    place_ofPlace inside]

end OfPlace

theorem eq_ofPlace {x : Number} (nonnegative : x.isNegative = false) : x = ofPlace x.place := by
  have bound := x.bits.toNat_lt
  have bits : x.bits.toNat = x.place := by
    rw [Bool.eq_false_iff, Ne, isNegative_iff] at nonnegative
    unfold place at *
    omega
  rw [ofPlace, ← bits, UInt64.ofNat_toNat]

theorem value_scale {x : Number} (nonnegative : x.isNegative = false) :
    x.value = scale x.place := by
  rw [value, if_neg (Bool.eq_false_iff.mp nonnegative), magnitude_scale]

theorem exists_mark {q : ℚ} (start : 0 ≤ q) (y : Number) : ∃ k,
    |scale k - q| ≤ |y.value - q| ∧ (|scale k - q| = |y.value - q| → scale k = y.value) := by
  cases sign : y.isNegative with
  | false => exact ⟨y.place, by rw [value_scale sign], fun _ => (value_scale sign).symm⟩
  | true =>
    have behind := y.magnitude_nonneg
    have far : |y.value - q| = y.magnitude + q := by
      rw [value, if_pos sign, ← neg_add', abs_neg, abs_of_nonneg (add_nonneg behind start)]
    refine ⟨0, ?_, fun as_near => ?_⟩
    · rw [far, scale_zero, zero_sub, abs_neg, abs_of_nonneg start]
      linarith
    · rw [far, scale_zero, zero_sub, abs_neg, abs_of_nonneg start] at as_near
      rw [value, if_pos sign, scale_zero]
      linarith

section Rounded

variable {q : ℚ} {n : ℕ}

theorem le_last_iff (nearest : Nearest scale q n) : n ≤ lastPlace ↔ q < overflow := by
  have odd : ¬ Even lastPlace := by decide
  rw [nearest.le_iff scale_increasing, scale_last]
  constructor
  · rintro (early | ⟨_, even⟩)
    · linarith
    · exact absurd even odd
  · intro early
    exact .inl (by linarith)

theorem NearestTo.of_mark (start : 0 ≤ q) (small : q < overflow) (nearest : Nearest scale q n) :
    (ofPlace n).NearestTo q := by
  have inside : n ≤ lastPlace := (le_last_iff nearest).mpr small
  have here := value_ofPlace inside
  refine ⟨isNegative_ofPlace inside, fun _ => isFinite_ofPlace inside, fun _ y _ => ?_,
    fun _ y _ other as_near => ?_, fun large => absurd small large.not_gt⟩
  · obtain ⟨k, near, -⟩ := exists_mark start y
    rw [here]
    exact (nearest.least k).trans near
  · obtain ⟨k, near, same⟩ := exists_mark start y
    rw [here] at other as_near
    have both : |scale k - q| = |scale n - q| :=
      le_antisymm (near.trans as_near.le) (nearest.least k)
    have other : k ≠ n := by
      rintro rfl
      exact other (same (both.trans as_near.symm)).symm
    rw [significand_even, place_ofPlace inside]
    exact nearest.even k other both

theorem NearestTo.of_overflow (large : overflow ≤ q) : infinity.NearestTo q :=
  ⟨rfl, fun small => absurd small large.not_gt, fun small => absurd small large.not_gt,
    fun small => absurd small large.not_gt, fun _ => rfl⟩

theorem NearestTo.mark {x : Number} (nearest : x.NearestTo q) (small : q < overflow) :
    Nearest scale q x.place := by
  have here := value_scale nearest.nonnegative
  have outside {k : ℕ} (outside : lastPlace < k) : |x.value - q| < |scale k - q| := by
    have later : scale (lastPlace + 1) ≤ scale k := scale_increasing.monotone outside
    have nearer : ¬ |scale k - q| ≤ |scale lastPlace - q| := by
      rw [upper_nearer_iff (scale_increasing outside)]
      linarith [scale_last]
    refine lt_of_le_of_lt ?_ (not_le.mp nearer)
    rw [← value_ofPlace le_rfl]
    exact nearest.least small _ (isFinite_ofPlace le_rfl)
  constructor
  · intro k
    rw [← here]
    rcases Nat.lt_or_ge lastPlace k with far | inside
    · exact (outside far).le
    · rw [← value_ofPlace inside]
      exact nearest.least small _ (isFinite_ofPlace inside)
  · intro k other as_near
    rw [← here] at as_near
    rcases Nat.lt_or_ge lastPlace k with far | inside
    · exact absurd as_near (outside far).ne'
    · rw [← significand_even]
      have apart : scale k ≠ x.value := here ▸ scale_increasing.injective.ne other
      rw [← value_ofPlace inside] at as_near apart
      exact nearest.even small _ (isFinite_ofPlace inside) apart as_near

theorem NearestTo.unique {x y : Number} (first : x.NearestTo q) (second : y.NearestTo q) :
    x = y := by
  rcases lt_or_ge q overflow with small | large
  · rw [eq_ofPlace first.nonnegative, eq_ofPlace second.nonnegative,
      Nearest.unique scale_increasing (first.mark small) (second.mark small)]
  · rw [first.infinite large, second.infinite large]

/-- Up to half the least positive number, and there too, what is nearest is zero. -/
theorem NearestTo.zero_iff {x : Number} (nearest : x.NearestTo q) :
    x = zero ↔ q ≤ 1 / 2 ^ 1075 := by
  have first := scale_first
  generalize (1 / 2 ^ 1075 : ℚ) = half at first ⊢
  rcases lt_or_ge q overflow with small | large
  · have place : x = zero ↔ x.place ≤ 0 := by
      constructor
      · rintro rfl
        exact le_rfl
      · intro first
        rw [eq_ofPlace nearest.nonnegative, Nat.le_zero.mp first]
        rfl
    rw [place, (nearest.mark small).le_iff scale_increasing, first]
    constructor
    · rintro (early | ⟨middle, _⟩) <;> linarith
    · intro early
      rcases early.lt_or_eq with early | rfl
      · exact .inl (by linarith)
      · exact .inr ⟨rfl, Even.zero⟩
  · have later : scale 0 < scale lastPlace := scale_increasing (by decide)
    have later' : scale 1 < scale (lastPlace + 1) := scale_increasing (by decide)
    have beyond : ¬ q ≤ half := by linarith [scale_last]
    rw [nearest.infinite large]
    exact iff_of_false (by decide) beyond

theorem NearestTo.infinity_iff {x : Number} (nearest : x.NearestTo q) :
    x = infinity ↔ overflow ≤ q := by
  constructor
  · rintro rfl
    by_contra small
    exact absurd (nearest.finite (not_le.mp small)) (by decide)
  · exact nearest.infinite

theorem NearestTo.not_nan {x : Number} (nearest : x.NearestTo q) : x.isNaN = false := by
  rcases lt_or_ge q overflow with small | large
  · exact (finite_kind (nearest.finite small)).2
  · rw [nearest.infinite large]
    decide

end Rounded

theorem nearestTo_iff (num : ℕ) {den : ℕ} (positive : 0 < den) (x : Number) :
    x.NearestTo (num / den) ↔ x = nearest num den := by
  have found : (nearest num den).NearestTo (num / den) := by
    obtain ⟨place, mark, bits⟩ := nearest_place num positive
    have behind : infinity.bits.toNat = lastPlace + 1 := rfl
    rw [bits, behind]
    rcases lt_or_ge (num / den : ℚ) overflow with small | large
    · rw [Nat.min_eq_left (Nat.le_succ_of_le ((le_last_iff mark).mpr small))]
      exact .of_mark (by positivity) small mark
    · have beyond : lastPlace + 1 ≤ place := Nat.lt_of_not_le
        fun inside => large.not_gt ((le_last_iff mark).mp inside)
      rw [Nat.min_eq_right beyond]
      exact .of_overflow large
  constructor
  · intro other
    exact other.unique found
  · rintro rfl
    exact found

end Number
end StackCalc
