namespace StackCalc

def roundDiv (num den : Nat) : Nat :=
  let below := num / den
  let rest := num % den
  if 2 * rest < den then below
  else if den < 2 * rest then below + 1
  else if below % 2 = 0 then below
  else below + 1

/-- The rounded quotient is at most half a unit away from the exact one. -/
theorem roundDiv_near (num den : Nat) (positive : 0 < den) :
    2 * (roundDiv num den * den) ≤ 2 * num + den ∧
    2 * num ≤ 2 * (roundDiv num den * den) + den := by
  have whole : den * (num / den) + num % den = num := Nat.div_add_mod num den
  have small : num % den < den := Nat.mod_lt _ positive
  unfold roundDiv
  generalize num / den = q at *
  generalize num % den = r at *
  have step : (q + 1) * den = den * q + den := by rw [Nat.add_mul, Nat.mul_comm, Nat.one_mul]
  have same : q * den = den * q := Nat.mul_comm ..
  generalize den * q = p at *
  simp only
  split
  · omega
  · split
    · omega
    · split <;> omega

theorem roundDiv_half_even (num den : Nat) (half : 2 * (num % den) = den) :
    roundDiv num den % 2 = 0 := by
  unfold roundDiv
  simp only [half, Nat.lt_irrefl, if_false]
  split
  · assumption
  · omega

end StackCalc
