import StackCalc.Proofs.Number.Nearest
import StackCalc.Proofs.Number.Value

namespace StackCalc

namespace Number

def scale (place : ℕ) : ℚ := mark place / 2 ^ 1074

theorem scale_increasing : StrictMono scale := fun _ _ less =>
  div_lt_div_of_pos_right (Nat.cast_lt.mpr (mark_increasing less)) (by positivity)

theorem magnitude_scale (x : Number) : x.magnitude = scale x.place := x.magnitude_mark

section Count

variable {shift count : ℕ} {q : ℚ}

def width (shift : ℕ) : ℚ := 2 ^ shift / 2 ^ 1074

theorem width_pos (shift : ℕ) : 0 < width shift := by
  unfold width
  positivity

theorem scale_count (short : count ≤ 2 ^ 53) (normal : shift = 0 ∨ 2 ^ 52 ≤ count) :
    scale (shift * 2 ^ 52 + count) = count * width shift := by
  rw [scale, mark_count short normal, width]
  push_cast
  rw [mul_div_assoc]

/-- A mark that is not counted in steps of this width has a shorter significand than any that is
counted so. -/
theorem scale_steps (shift place : ℕ) :
    (∃ k : ℕ, scale place = k * width shift) ∨
      scale place < (2 ^ 52 : ℕ) * width shift ∧ shift ≠ 0 := by
  obtain ⟨own, count, rfl, short, normal⟩ := exists_count place
  rw [scale_count short.le normal]
  rcases Nat.lt_or_ge own shift with finer | coarser
  · right
    refine ⟨?_, by omega⟩
    have steps : count * 2 ^ own < 2 ^ 52 * 2 ^ shift := by
      calc count * 2 ^ own < 2 ^ 53 * 2 ^ own := Nat.mul_lt_mul_of_pos_right short (Nat.two_pow_pos _)
        _ = 2 ^ 52 * 2 ^ (own + 1) := by rw [Nat.pow_succ' (n := own)]; omega
        _ ≤ 2 ^ 52 * 2 ^ shift := Nat.mul_le_mul_left _ (Nat.pow_le_pow_right (by omega) finer)
    have steps : (count * 2 ^ own : ℚ) < (2 ^ 52 : ℕ) * 2 ^ shift := mod_cast steps
    rw [width, width, ← mul_div_assoc, ← mul_div_assoc]
    exact div_lt_div_of_pos_right steps (by positivity)
  · left
    refine ⟨count * 2 ^ (own - shift), ?_⟩
    rw [width, width, ← Nat.sub_add_cancel coarser, pow_add, Nat.add_sub_cancel]
    push_cast
    rw [mul_div_assoc, mul_assoc]

theorem nearest_count (rounded : Nearest (fun k => k * width shift) q count)
    (fits : q ≤ (2 ^ 53 : ℕ) * width shift)
    (normal : shift = 0 ∨ (2 ^ 52 : ℕ) * width shift ≤ q) :
    Nearest scale q (shift * 2 ^ 52 + count) := by
  have increasing : StrictMono (fun k : ℕ => k * width shift) := fun _ _ less =>
    mul_lt_mul_of_pos_right (Nat.cast_lt.mpr less) (width_pos shift)
  have short : count ≤ 2 ^ 53 := rounded.le_of_le_mark increasing fits
  have long : shift = 0 ∨ 2 ^ 52 ≤ count := normal.imp_right fun behind =>
    rounded.ge_of_mark_le increasing behind
  have here := scale_count short long
  -- A mark below all that are counted so is further away than the first of these.
  have below (k : ℕ) (low : scale k < (2 ^ 52 : ℕ) * width shift)
      (behind : (2 ^ 52 : ℕ) * width shift ≤ q) :
      |count * width shift - q| < |scale k - q| := by
    have first := rounded.least (2 ^ 52)
    rw [abs_of_nonpos (sub_nonpos.mpr behind)] at first
    rw [abs_of_nonpos (sub_nonpos.mpr (low.le.trans behind))]
    linarith
  constructor
  · intro k
    rw [here]
    rcases scale_steps shift k with ⟨j, counted⟩ | ⟨low, coarse⟩
    · rw [counted]
      exact rounded.least j
    · exact (below k low (normal.resolve_left coarse)).le
  · intro k other as_near
    rw [here] at as_near
    rcases scale_steps shift k with ⟨j, counted⟩ | ⟨low, coarse⟩
    · have other : j ≠ count := by
        rintro rfl
        exact other (scale_increasing.injective (counted.trans here.symm))
      rw [counted] at as_near
      have even := rounded.even j other as_near
      rw [Nat.even_iff] at even ⊢
      omega
    · exact absurd as_near (below k low (normal.resolve_left coarse)).ne'

end Count

section Division

variable {scaled den : ℕ}

def shift (scaled den : ℕ) : ℕ := (scaled / den).log2 - 52

theorem le_width_iff (positive : 0 < den) (count shift : ℕ) :
    (scaled / den / 2 ^ 1074 : ℚ) ≤ count * width shift ↔ scaled ≤ count * 2 ^ shift * den := by
  rw [width, ← mul_div_assoc, div_le_div_iff_of_pos_right (by positivity),
    div_le_iff₀ (Nat.cast_pos.mpr positive)]
  norm_cast

theorem width_le_iff (positive : 0 < den) (count shift : ℕ) :
    count * width shift ≤ (scaled / den / 2 ^ 1074 : ℚ) ↔ count * 2 ^ shift * den ≤ scaled := by
  rw [width, ← mul_div_assoc, div_le_div_iff_of_pos_right (by positivity),
    le_div_iff₀ (Nat.cast_pos.mpr positive)]
  norm_cast

theorem quotient_fits (positive : 0 < den) :
    (scaled / den / 2 ^ 1074 : ℚ) ≤ (2 ^ 53 : ℕ) * width (shift scaled den) := by
  have floor : scaled / den < 2 ^ 53 * 2 ^ shift scaled den := by
    rw [← Nat.pow_add]
    exact Nat.lt_of_lt_of_le Nat.lt_log2_self
      (Nat.pow_le_pow_right (by omega) (by unfold shift; omega))
  rw [Nat.div_lt_iff_lt_mul positive] at floor
  exact (le_width_iff positive _ _).mpr floor.le

theorem quotient_normal (positive : 0 < den) : shift scaled den = 0 ∨
    (2 ^ 52 : ℕ) * width (shift scaled den) ≤ (scaled / den / 2 ^ 1074 : ℚ) := by
  by_cases coarse : shift scaled den = 0
  · exact .inl coarse
  · right
    have some_floor : scaled / den ≠ 0 := by
      intro none
      exact coarse (by rw [shift, none]; rfl)
    have log : 52 + shift scaled den = (scaled / den).log2 := by
      unfold shift at coarse ⊢
      omega
    have floor : 2 ^ 52 * 2 ^ shift scaled den ≤ scaled / den := by
      rw [← Nat.pow_add, log]
      exact Nat.log2_self_le some_floor
    rw [Nat.le_div_iff_mul_le positive] at floor
    exact (width_le_iff positive _ _).mpr floor

theorem quotient_nearest (positive : 0 < den) : Nearest scale (scaled / den / 2 ^ 1074)
    (shift scaled den * 2 ^ 52 + roundDiv scaled (den <<< shift scaled den)) := by
  have shifted : 0 < den <<< shift scaled den := by
    rw [Nat.shiftLeft_eq]
    exact Nat.mul_pos positive (Nat.two_pow_pos _)
  have divided := (roundDiv_nearest scaled _ shifted).widen (width_pos (shift scaled den))
  have quotient : (scaled / (den <<< shift scaled den : ℕ) : ℚ) * width (shift scaled den) =
      scaled / den / 2 ^ 1074 := by
    have some_step : (2 ^ shift scaled den : ℚ) ≠ 0 := by positivity
    rw [Nat.shiftLeft_eq, width, Nat.cast_mul, Nat.cast_pow, Nat.cast_ofNat, ← div_div,
      ← mul_div_assoc, div_mul_cancel₀ _ some_step]
  rw [quotient] at divided
  exact nearest_count divided (quotient_fits positive) (quotient_normal positive)

theorem shiftLeft_quotient (num den places : ℕ) :
    (num / den : ℚ) = (num <<< places : ℕ) / den / 2 ^ places := by
  have some_unit : (2 ^ places : ℚ) ≠ 0 := pow_ne_zero _ two_ne_zero
  rw [Nat.shiftLeft_eq, Nat.cast_mul, Nat.cast_pow, Nat.cast_ofNat, div_right_comm,
    mul_div_cancel_right₀ _ some_unit]

theorem nearest_place (num : ℕ) (positive : 0 < den) : ∃ place, Nearest scale (num / den) place ∧
    nearest num den = ⟨UInt64.ofNat (min place infinity.bits.toNat)⟩ := by
  rw [shiftLeft_quotient num den 1074]
  refine ⟨_, quotient_nearest positive, ?_⟩
  rw [← Nat.shiftLeft_eq]
  rfl

end Division

end Number
end StackCalc
