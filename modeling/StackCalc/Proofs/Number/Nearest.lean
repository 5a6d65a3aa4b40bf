import Mathlib.Algebra.Order.Field.Basic
import Mathlib.Algebra.Order.Field.Rat
import Mathlib.Tactic.Linarith
import StackCalc.Number.Rounding

/-! Rounding to the nearest mark of a scale, an exact half to the even one. Scales are increasing:
the naturals are one, and the finite doubles from zero on, counted by their bits, are another. Where
a number is rounded to is decided by the middles between neighbouring marks alone. -/
namespace StackCalc

/-- The mark that is nearest to `q`, and even where another mark is as near. -/
structure Nearest (scale : ℕ → ℚ) (q : ℚ) (n : ℕ) : Prop where
  least : ∀ k, |scale n - q| ≤ |scale k - q|
  even : ∀ k, k ≠ n → |scale k - q| = |scale n - q| → Even n

section Distance

variable {a b q : ℚ}

theorem lower_nearer_iff (below : a < b) : |a - q| ≤ |b - q| ↔ 2 * q ≤ a + b := by
  rw [← sq_le_sq]
  constructor
  · intro nearer
    nlinarith
  · intro early
    nlinarith

theorem upper_nearer_iff (below : a < b) : |b - q| ≤ |a - q| ↔ a + b ≤ 2 * q := by
  rw [← sq_le_sq]
  constructor
  · intro nearer
    nlinarith
  · intro late
    nlinarith

end Distance

namespace Nearest

variable {scale : ℕ → ℚ} {q r : ℚ} {n m : ℕ}

/-- A number is rounded to a mark or below it if it comes before the middle behind that mark, or
stands on that middle and the mark is even. -/
theorem le_iff (nearest : Nearest scale q n) (increasing : StrictMono scale) (k : ℕ) :
    n ≤ k ↔ 2 * q < scale k + scale (k + 1) ∨ 2 * q = scale k + scale (k + 1) ∧ Even k := by
  constructor
  · intro low
    have marks : scale n ≤ scale k := increasing.monotone low
    have before : 2 * q ≤ scale n + scale (k + 1) :=
      (lower_nearer_iff (increasing (Nat.lt_succ_of_le low))).mp (nearest.least (k + 1))
    rcases (before.trans (add_le_add_left marks _)).lt_or_eq with early | middle
    · exact .inl early
    · obtain rfl : n = k := increasing.injective (by linarith)
      have as_near : |scale (n + 1) - q| = |scale n - q| := by
        have step := increasing (Nat.lt_succ_self n)
        exact le_antisymm ((upper_nearer_iff step).mpr middle.ge)
          ((lower_nearer_iff step).mpr middle.le)
      exact .inr ⟨middle, nearest.even _ (Nat.succ_ne_self n) as_near⟩
  · intro early
    by_contra high
    have high : k < n := Nat.lt_of_not_le high
    have marks : scale (k + 1) ≤ scale n := increasing.monotone high
    have behind : scale k + scale n ≤ 2 * q :=
      (upper_nearer_iff (increasing high)).mp (nearest.least k)
    rcases early with early | ⟨middle, even⟩
    · linarith
    · obtain rfl : k + 1 = n := increasing.injective (by linarith)
      have as_near : |scale k - q| = |scale (k + 1) - q| := by
        have step := increasing (Nat.lt_succ_self k)
        exact le_antisymm ((lower_nearer_iff step).mpr middle.le)
          ((upper_nearer_iff step).mpr middle.ge)
      have odd := nearest.even k (Nat.succ_ne_self k).symm as_near
      exact absurd even (Nat.even_add_one.mp odd)

theorem monotone (increasing : StrictMono scale) (first : Nearest scale q n)
    (second : Nearest scale r m) (order : q ≤ r) : n ≤ m := by
  rw [first.le_iff increasing]
  rcases (second.le_iff increasing m).mp (Nat.le_refl m) with early | ⟨middle, even⟩
  · exact .inl (by linarith)
  · rcases order.lt_or_eq with less | rfl
    · exact .inl (by linarith)
    · exact .inr ⟨middle, even⟩

theorem unique (increasing : StrictMono scale) (first : Nearest scale q n)
    (second : Nearest scale q m) : n = m :=
  Nat.le_antisymm (monotone increasing first second le_rfl)
    (monotone increasing second first le_rfl)

theorem le_of_le_mark (nearest : Nearest scale q n) (increasing : StrictMono scale) {k : ℕ}
    (before : q ≤ scale k) : n ≤ k := by
  have step := increasing (Nat.lt_succ_self k)
  exact (nearest.le_iff increasing k).mpr (.inl (by linarith))

theorem ge_of_mark_le (nearest : Nearest scale q n) (increasing : StrictMono scale) {k : ℕ}
    (behind : scale k ≤ q) : k ≤ n := by
  by_contra low
  have low : scale n < scale k := increasing (Nat.lt_of_not_le low)
  have before : 2 * q ≤ scale n + scale k := (lower_nearer_iff low).mp (nearest.least k)
  linarith

theorem widen {width : ℚ} (nearest : Nearest (fun k => (k : ℚ)) q n) (positive : 0 < width) :
    Nearest (fun k => k * width) (q * width) n := by
  have distance (k : ℕ) : |k * width - q * width| = |(k : ℚ) - q| * width := by
    rw [← sub_mul, abs_mul, abs_of_pos positive]
  constructor
  · intro k
    rw [distance, distance]
    exact mul_le_mul_of_nonneg_right (nearest.least k) positive.le
  · intro k other as_near
    rw [distance, distance] at as_near
    exact nearest.even k other (mul_right_cancel₀ positive.ne' as_near)

end Nearest

theorem increasing_cast : StrictMono (fun k : ℕ => (k : ℚ)) := fun _ _ less => Nat.cast_lt.mpr less

/-- Only an exact half is half a unit away from its rounding. -/
theorem roundDiv_tie (num den : ℕ) (positive : 0 < den)
    (tie : 2 * (roundDiv num den * den) = 2 * num + den ∨
      2 * num = 2 * (roundDiv num den * den) + den) : 2 * (num % den) = den := by
  have whole : den * (num / den) + num % den = num := Nat.div_add_mod num den
  have small : num % den < den := Nat.mod_lt _ positive
  unfold roundDiv at tie
  generalize num / den = q at *
  generalize num % den = r at *
  have step : (q + 1) * den = den * q + den := by rw [Nat.add_mul, Nat.mul_comm, Nat.one_mul]
  have same : q * den = den * q := Nat.mul_comm ..
  generalize den * q = p at *
  simp only at tie
  split at tie
  · omega
  · split at tie
    · omega
    · omega

theorem nearest_of_half {q : ℚ} {n : ℕ} (near : |(n : ℚ) - q| ≤ 1 / 2)
    (tie : |(n : ℚ) - q| = 1 / 2 → Even n) : Nearest (fun k : ℕ => (k : ℚ)) q n := by
  have others (k : ℕ) (other : k ≠ n) : 1 ≤ |(k : ℚ) - q| + |(n : ℚ) - q| := by
    have apart : 1 ≤ |(k : ℤ) - n| := Int.one_le_abs (sub_ne_zero.mpr (mod_cast other))
    calc (1 : ℚ) ≤ |(k : ℚ) - n| := by exact_mod_cast apart
      _ ≤ |(k : ℚ) - q| + |q - n| := abs_sub_le _ _ _
      _ = |(k : ℚ) - q| + |(n : ℚ) - q| := by rw [abs_sub_comm q]
  constructor
  · intro k
    by_cases same : k = n
    · rw [same]
    · have := others k same
      linarith
  · intro k other as_near
    have := others k other
    exact tie (by linarith)

theorem roundDiv_nearest (num den : ℕ) (positive : 0 < den) :
    Nearest (fun k : ℕ => (k : ℚ)) (num / den) (roundDiv num den) := by
  have some_den : (0 : ℚ) < den := Nat.cast_pos.mpr positive
  have error : |(roundDiv num den : ℚ) - num / den| =
      |(roundDiv num den : ℚ) * den - num| / den := by
    rw [← abs_of_pos some_den, ← abs_div, abs_of_pos some_den, sub_div,
      mul_div_cancel_right₀ _ some_den.ne']
  obtain ⟨above, below⟩ := roundDiv_near num den positive
  have above : (2 * (roundDiv num den * den) : ℚ) ≤ 2 * num + den := mod_cast above
  have below : (2 * num : ℚ) ≤ 2 * (roundDiv num den * den) + den := mod_cast below
  apply nearest_of_half
  · rw [error, div_le_iff₀ some_den, abs_le]
    constructor <;> linarith
  · intro tie
    rw [error, div_eq_iff some_den.ne', abs_eq (by linarith)] at tie
    have middle : 2 * (roundDiv num den * den) = 2 * num + den ∨
        2 * num = 2 * (roundDiv num den * den) + den := by
      rcases tie with up | down
      · left
        exact_mod_cast (by linarith : (2 * (roundDiv num den * den) : ℚ) = 2 * num + den)
      · right
        exact_mod_cast (by linarith : (2 * num : ℚ) = 2 * (roundDiv num den * den) + den)
    exact Nat.even_iff.mpr (roundDiv_half_even num den (roundDiv_tie num den positive middle))

end StackCalc
