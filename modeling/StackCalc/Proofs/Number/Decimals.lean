import Mathlib.Algebra.Order.Field.Rat
import Mathlib.Data.List.Induction
import Mathlib.Data.Nat.Digits.Defs
import Mathlib.Data.Rat.Cast.Order
import Mathlib.Tactic.FieldSimp
import Mathlib.Tactic.Ring
import StackCalc.Proofs.Token.Numeral

namespace StackCalc

namespace Text

def digit (c : Char) : ℕ := c.toNat - '0'.toNat

/-- The value of a numeral by the places of its digits. -/
def decimalValue (text : List Char) : ℚ :=
  Nat.ofDigits 10 ((text.takeWhile (· ≠ '.')).map digit).reverse +
    Nat.ofDigits (1 / 10) (0 :: (text.dropWhile (· ≠ '.')).tail.map digit)

theorem no_point {digits : List Char} (all : ∀ c ∈ digits, c.isDigit = true) :
    ∀ c ∈ digits, decide (c ≠ '.') = true := by
  intro c inside
  refine decide_eq_true ?_
  rintro rfl
  exact absurd (all _ inside) (by decide)

theorem decimalValue_whole {digits : List Char} (all : ∀ c ∈ digits, c.isDigit = true) :
    decimalValue digits = Nat.ofDigits 10 (digits.map digit).reverse := by
  rw [decimalValue, List.takeWhile_eq_self_iff.mpr (no_point all),
    List.dropWhile_eq_nil_iff.mpr (no_point all)]
  simp [Nat.ofDigits]

theorem decimalValue_pointed {digits : List Char} (all : ∀ c ∈ digits, c.isDigit = true)
    (places : List Char) : decimalValue (digits ++ '.' :: places) =
      Nat.ofDigits 10 (digits.map digit).reverse + Nat.ofDigits (1 / 10) (0 :: places.map digit) := by
  rw [decimalValue, List.takeWhile_append_of_pos (no_point all),
    List.dropWhile_append_of_pos (no_point all)]
  simp

end Text

namespace Decimal

open Text

def value (d : Decimal) : ℚ := d.digits / (10 ^ d.places : ℕ)

theorem digitsValue_from (start : ℕ) (text : List Char) :
    text.foldl (fun value c => 10 * value + (c.toNat - '0'.toNat)) start =
      start * 10 ^ text.length + digitsValue text := by
  induction text generalizing start with
  | nil => simp [digitsValue]
  | cons c cs ih =>
    rw [digitsValue, List.foldl_cons, List.foldl_cons, ih, ih (10 * 0 + _), List.length_cons,
      Nat.pow_succ]
    ring

theorem digitsValue_append (front behind : List Char) : digitsValue (front ++ behind) =
    digitsValue front * 10 ^ behind.length + digitsValue behind := by
  rw [digitsValue, List.foldl_append, digitsValue_from]
  rfl

@[simp] theorem digitsValue_digit (c : Char) : digitsValue [c] = digit c := by
  simp [digitsValue, digit]

theorem digitsValue_places (digits : List Char) :
    digitsValue digits = Nat.ofDigits 10 (digits.map digit).reverse := by
  induction digits using List.reverseRecOn with
  | nil => rfl
  | append_singleton front c ih =>
    simp [digitsValue_append, Nat.ofDigits_cons, ih, Nat.mul_comm, Nat.add_comm]

theorem digitsValue_behind (places : List Char) :
    (digitsValue places : ℚ) / 10 ^ places.length =
      Nat.ofDigits (1 / 10) (0 :: places.map digit) := by
  induction places with
  | nil => simp [digitsValue, Nat.ofDigits]
  | cons c cs ih =>
    have split := digitsValue_append [c] cs
    rw [List.singleton_append, digitsValue_digit] at split
    have some_power : (10 ^ cs.length : ℚ) ≠ 0 := pow_ne_zero _ (by norm_num)
    have ih : (digitsValue cs : ℚ) / 10 ^ cs.length = Nat.ofDigits (1 / 10) (cs.map digit) / 10 := by
      rw [ih, Nat.ofDigits]
      ring
    calc (digitsValue (c :: cs) : ℚ) / 10 ^ (c :: cs).length
        = (digit c + digitsValue cs / 10 ^ cs.length) / 10 := by
          rw [split, List.length_cons, pow_succ]
          push_cast
          field_simp
      _ = Nat.ofDigits (1 / 10) (0 :: (c :: cs).map digit) := by
          rw [ih, List.map_cons, Nat.ofDigits, Nat.ofDigits]
          ring

section Values

variable {digits : List Char} (all : ∀ c ∈ digits, c.isDigit = true)
include all

theorem decimalValue_digits : decimalValue digits = digitsValue digits := by
  rw [decimalValue_whole all, digitsValue_places, Nat.coe_ofDigits, Nat.cast_ofNat]

theorem decimalValue_quotient (places : List Char) :
    decimalValue (digits ++ '.' :: places) =
      digitsValue (digits ++ places) / (10 ^ places.length : ℕ) := by
  have some_power : (10 ^ places.length : ℚ) ≠ 0 := pow_ne_zero _ (by norm_num)
  rw [decimalValue_pointed all, ← digitsValue_behind, digitsValue_append, digitsValue_places digits,
    Nat.cast_add, Nat.cast_mul, Nat.coe_ofDigits, Nat.cast_pow, Nat.cast_ofNat, add_div,
    mul_div_cancel_right₀ _ some_power]

end Values

theorem ofChars_value {text : List Char} {d : Decimal} (read : ofChars? text = some d) :
    Numeral text ∧ decimalValue text = d.value := by
  have digits := fun c => List.mem_takeWhile_imp (p := Char.isDigit) (x := c) (l := text)
  have spelled := List.takeWhile_append_dropWhile (p := Char.isDigit) (l := text)
  unfold ofChars? at read
  simp only at read
  split at read
  · cases read
  · rename_i some_digit
    generalize text.takeWhile Char.isDigit = whole at *
    generalize text.dropWhile Char.isDigit = behind at *
    subst spelled
    split at read
    · cases read
      rw [List.append_nil]
      refine ⟨.whole some_digit digits, ?_⟩
      rw [decimalValue_digits digits, value, Nat.pow_zero, Nat.cast_one, div_one]
    · split at read
      · rename_i places pointed
        obtain ⟨rfl, some_place, more⟩ := pointed
        cases read
        exact ⟨.pointed some_digit digits some_place (List.all_eq_true.mp more),
          decimalValue_quotient digits places⟩
      · cases read

end Decimal
end StackCalc
