import Mathlib.Data.Nat.Digits.Lemmas
import StackCalc.Number.Fixed
import StackCalc.Proofs.Number.Decimals
import StackCalc.Proofs.Number.Nearest
import StackCalc.Proofs.Number.Value
import StackCalc.Proofs.Text.Readable

namespace StackCalc

namespace Text

/-- Digits that do not start with a zero, unless it is the only one. -/
structure Plain (text : List Char) : Prop where
  some_digit : text ≠ []
  digits : ∀ c ∈ text, c.isDigit = true
  first : text.head? = some '0' → text = ['0']

theorem digit_lt {c : Char} (is_digit : c.isDigit = true) : digit c < 10 := by
  obtain ⟨low, high⟩ := Char.isDigit_iff_toNat.mp is_digit
  have zero : '0'.toNat = 48 := rfl
  have nine : '9'.toNat = 57 := rfl
  unfold digit
  omega

theorem ofNat_digit {c : Char} (is_digit : c.isDigit = true) :
    Char.ofNat ('0'.toNat + digit c) = c := by
  rw [digit, Nat.add_sub_cancel' (Char.isDigit_iff_toNat.mp is_digit).1, Char.ofNat_toNat]

theorem map_digit_injective {a b : List Char} (a_digits : ∀ c ∈ a, c.isDigit = true)
    (b_digits : ∀ c ∈ b, c.isDigit = true) (same : a.map digit = b.map digit) : a = b := by
  have back {text : List Char} (all : ∀ c ∈ text, c.isDigit = true) :
      (text.map digit).map (fun d => Char.ofNat ('0'.toNat + d)) = text := by
    rw [List.map_map]
    exact (List.map_congr_left fun c inside => ofNat_digit (all c inside)).trans (List.map_id _)
  rw [← back a_digits, ← back b_digits, same]

def signedValue : List Char → ℚ
  | '-' :: text => -decimalValue text
  | text => decimalValue text

theorem signedValue_digit {c : Char} (is_digit : c.isDigit = true) (text : List Char) :
    signedValue (c :: text) = decimalValue (c :: text) := by
  unfold signedValue
  split
  · rename_i same
    rw [(List.cons.inj same).1] at is_digit
    exact absurd is_digit (by decide)
  · rfl

end Text

open Text

namespace Decimal

theorem digits_lt {digits : List Char} (all : ∀ c ∈ digits, c.isDigit = true) :
    ∀ d ∈ (digits.map digit).reverse, d < 10 := by
  intro d inside
  obtain ⟨c, member, rfl⟩ := List.mem_map.mp (List.mem_reverse.mp inside)
  exact digit_lt (all c member)

theorem digitsValue_lt {digits : List Char} (all : ∀ c ∈ digits, c.isDigit = true) :
    digitsValue digits < 10 ^ digits.length := by
  have bound := Nat.ofDigits_lt_base_pow_length (by decide) (digits_lt all)
  rwa [← digitsValue_places, List.length_reverse, List.length_map] at bound

theorem digitsValue_injective {a b : List Char} (a_digits : ∀ c ∈ a, c.isDigit = true)
    (b_digits : ∀ c ∈ b, c.isDigit = true) (long : a.length = b.length)
    (same : digitsValue a = digitsValue b) : a = b := by
  rw [digitsValue_places, digitsValue_places] at same
  have long : (a.map digit).reverse.length = (b.map digit).reverse.length := by simpa using long
  have reversed := Nat.ofDigits_inj_of_len_eq (by decide) long (digits_lt a_digits)
    (digits_lt b_digits) same
  exact map_digit_injective a_digits b_digits (List.reverse_injective reversed)

@[simp] theorem digitsValue_toDigits (n : ℕ) : digitsValue (Nat.toDigits 10 n) = n :=
  Nat.ofDigitChars_ten_toDigits

end Decimal

namespace Text.Plain

open Decimal

theorem digits_value {text : List Char} (plain : Plain text) :
    text = ['0'] ∨ (text.map digit).reverse = Nat.digits 10 (digitsValue text) := by
  by_cases zero : text = ['0']
  · exact .inl zero
  · have last : ∀ some_digit : (text.map digit).reverse ≠ [],
        (text.map digit).reverse.getLast some_digit ≠ 0 := by
      intro some_digit none
      obtain ⟨c, cs, rfl⟩ := List.exists_cons_of_ne_nil plain.some_digit
      rw [List.getLast_reverse, List.head_map, List.head_cons] at none
      have first : c = '0' := by
        rw [← ofNat_digit (plain.digits c List.mem_cons_self), none]
        rfl
      exact zero (plain.first (congrArg some first))
    rw [digitsValue_places, Nat.digits_ofDigits 10 (by decide) _ (digits_lt plain.digits) last]
    exact .inr rfl

theorem unique {a b : List Char} (a_plain : Plain a) (b_plain : Plain b)
    (same : digitsValue a = digitsValue b) : a = b := by
  have apart {text : List Char} (plain : Plain text) (none : digitsValue text = 0)
      (digits : (text.map digit).reverse = Nat.digits 10 (digitsValue text)) : False := by
    rw [none, Nat.digits_zero, List.reverse_eq_nil_iff, List.map_eq_nil_iff] at digits
    exact plain.some_digit digits
  rcases a_plain.digits_value with rfl | a_digits <;> rcases b_plain.digits_value with rfl | b_digits
  · rfl
  · exact (apart b_plain same.symm b_digits).elim
  · exact (apart a_plain same a_digits).elim
  · rw [same, ← b_digits] at a_digits
    exact map_digit_injective a_plain.digits b_plain.digits (List.reverse_injective a_digits)

theorem toDigits (n : ℕ) : Plain (Nat.toDigits 10 n) := by
  refine ⟨Nat.toDigits_ne_nil, fun c => Nat.isDigit_of_mem_toDigits (by decide) (by decide), ?_⟩
  suffices positive : 0 < n → (Nat.toDigits 10 n).head? ≠ some '0' by
    intro first
    rcases Nat.eq_zero_or_pos n with rfl | some_n
    · rfl
    · exact absurd first (positive some_n)
  induction n using Nat.strongRecOn with
  | ind n ih =>
    intro some_n
    rw [Nat.toDigits_eq_if (by decide)]
    split
    · rw [List.head?_cons, Ne, Option.some.injEq, Nat.digitChar_eq_zero]
      omega
    · rw [List.head?_append_of_ne_nil _ Nat.toDigits_ne_nil]
      exact ih (n / 10) (by omega) (by omega)

end Text.Plain

/-- A count of millionths in decimal, with at least one digit in front of the point and exactly six
behind it. -/
structure Millionths (count : ℕ) (whole places : List Char) : Prop where
  plain : Plain whole
  six : places.length = 6
  digits : ∀ c ∈ places, c.isDigit = true
  value : decimalValue (whole ++ '.' :: places) = count / 10 ^ 6

namespace Millionths

open Decimal

variable {count : ℕ} {whole places : List Char}

theorem value_iff (whole_digits : ∀ c ∈ whole, c.isDigit = true) (six : places.length = 6) :
    decimalValue (whole ++ '.' :: places) = count / 10 ^ 6 ↔
      digitsValue whole * 10 ^ 6 + digitsValue places = count := by
  rw [decimalValue_quotient whole_digits, digitsValue_append, six, Nat.cast_pow, Nat.cast_ofNat,
    div_left_inj' (by norm_num), Nat.cast_inj]

theorem parts (written : Millionths count whole places) :
    digitsValue whole = count / 10 ^ 6 ∧ digitsValue places = count % 10 ^ 6 := by
  have sum := (value_iff written.plain.digits written.six).mp written.value
  have below := digitsValue_lt written.digits
  rw [written.six] at below
  omega

theorem unique {whole' places' : List Char} (first : Millionths count whole places)
    (second : Millionths count whole' places') : whole = whole' ∧ places = places' := by
  obtain ⟨front, behind⟩ := first.parts
  obtain ⟨front', behind'⟩ := second.parts
  exact ⟨first.plain.unique second.plain (front.trans front'.symm),
    digitsValue_injective first.digits second.digits (first.six.trans second.six.symm)
      (behind.trans behind'.symm)⟩

end Millionths

namespace Number

open Decimal

@[simp] theorem digitsValue_filled (zeros : ℕ) (digits : List Char) :
    digitsValue (List.replicate zeros '0' ++ digits) = digitsValue digits := by
  induction zeros with
  | zero => rfl
  | succ zeros ih =>
    rw [List.replicate_succ, List.cons_append, ← List.singleton_append, digitsValue_append, ih,
      digitsValue_digit]
    simp [digit]

theorem fixedText_millionths (count : ℕ) : ∃ whole places, Millionths count whole places ∧
    (fixedText count).toList = whole ++ '.' :: places := by
  let rest := Nat.toDigits 10 (count % 10 ^ 6)
  let zeros := List.replicate (6 - rest.length) '0'
  have whole_plain := Plain.toDigits (count / 10 ^ 6)
  have rest_plain := Plain.toDigits (count % 10 ^ 6)
  have short : rest.length ≤ 6 :=
    Nat.toDigits_length 10 _ 6 (by decide) (Nat.mod_lt _ (by decide))
  have six : (zeros ++ rest).length = 6 := by
    rw [List.length_append, List.length_replicate, Nat.sub_add_cancel short]
  refine ⟨Nat.toDigits 10 (count / 10 ^ 6), zeros ++ rest, ⟨whole_plain, six, ?_, ?_⟩, ?_⟩
  · intro c inside
    rcases List.mem_append.mp inside with filled | written
    · rw [List.eq_of_mem_replicate filled]
      rfl
    · exact rest_plain.digits c written
  · rw [Millionths.value_iff whole_plain.digits six]
    simp [zeros, rest, Nat.div_add_mod']
  · simp [fixedText, ← String.length_toList, zeros, rest, decimals]

theorem roundDiv_scaled (units factor places : ℕ) :
    Nearest (fun k => (k : ℚ)) (units / 2 ^ places * factor)
      (roundDiv (units * factor) (1 <<< places)) := by
  rw [Nat.one_shiftLeft]
  have nearest := roundDiv_nearest (units * factor) _ (Nat.two_pow_pos places)
  rwa [Nat.cast_mul, Nat.cast_pow, Nat.cast_ofNat, mul_div_right_comm] at nearest

theorem millionths_nearest (x : Number) :
    Nearest (fun k => (k : ℚ)) (x.magnitude * 10 ^ 6) x.millionths := by
  have nearest := roundDiv_scaled x.units (Nat.pow 10 decimals) 1074
  have million : ((Nat.pow 10 decimals : ℕ) : ℚ) = 10 ^ 6 := by norm_num [decimals]
  rwa [← magnitude_units, million] at nearest

def sign (x : Number) : List Char := if x.isNegative then ['-'] else []

/-- The printed form of a number. A sign stands in front exactly if the sign bit is set, of a finite
number and of an infinity. -/
inductive Prints (x : Number) : List Char → Prop where
  | finite {count : ℕ} {whole places : List Char} : x.isFinite = true →
      Nearest (fun k => (k : ℚ)) (x.magnitude * 10 ^ 6) count → Millionths count whole places →
      Prints x (x.sign ++ (whole ++ '.' :: places))
  | infinite : x.isInfinite = true → Prints x (x.sign ++ "inf".toList)
  | nan : x.isNaN = true → Prints x "NaN".toList

section Text

variable {x : Number}

theorem text_nan (nan : x.isNaN = true) : x.text.toList = "NaN".toList := by
  rw [text, if_pos nan]

theorem text_infinite (infinite : x.isInfinite = true) :
    x.text.toList = x.sign ++ "inf".toList := by
  have number := Bool.eq_false_iff.mp (infinite_kind infinite)
  rw [text, if_neg number, String.toList_append, sign, if_pos infinite]
  split <;> rfl

theorem text_finite (finite : x.isFinite = true) :
    x.text.toList = x.sign ++ (fixedText x.millionths).toList := by
  obtain ⟨small, number⟩ := finite_kind finite
  rw [text, if_neg (Bool.eq_false_iff.mp number), String.toList_append, sign,
    if_neg (Bool.eq_false_iff.mp small)]
  split <;> rfl

end Text

theorem text_prints (x : Number) : x.Prints x.text.toList := by
  rcases x.kinds with finite | infinite | nan
  · obtain ⟨whole, places, written, fixed⟩ := fixedText_millionths x.millionths
    rw [text_finite finite, fixed]
    exact .finite finite x.millionths_nearest written
  · rw [text_infinite infinite]
    exact .infinite infinite
  · rw [text_nan nan]
    exact .nan nan

theorem Prints.unique {x : Number} {a b : List Char} (first : x.Prints a) (second : x.Prints b) :
    a = b := by
  cases first with
  | finite finite nearest written =>
    obtain ⟨small, number⟩ := finite_kind finite
    cases second with
    | finite _ nearest' written' =>
      obtain rfl := nearest.unique increasing_cast nearest'
      obtain ⟨rfl, rfl⟩ := written.unique written'
      rfl
    | infinite infinite => exact absurd infinite (Bool.eq_false_iff.mp small)
    | nan nan => exact absurd nan (Bool.eq_false_iff.mp number)
  | infinite infinite =>
    cases second with
    | finite finite => exact absurd infinite (Bool.eq_false_iff.mp (finite_kind finite).1)
    | infinite _ => rfl
    | nan nan => exact absurd nan (Bool.eq_false_iff.mp (infinite_kind infinite))
  | nan nan =>
    cases second with
    | finite finite => exact absurd nan (Bool.eq_false_iff.mp (finite_kind finite).2)
    | infinite infinite => exact absurd nan (Bool.eq_false_iff.mp (infinite_kind infinite))
    | nan _ => rfl

theorem prints_iff (x : Number) (text : List Char) : x.Prints text ↔ text = x.text.toList := by
  constructor
  · intro prints
    exact prints.unique x.text_prints
  · rintro rfl
    exact x.text_prints

section Order

variable {x y : Number}

theorem millionths_monotone (order : x.magnitude ≤ y.magnitude) : x.millionths ≤ y.millionths :=
  x.millionths_nearest.monotone increasing_cast y.millionths_nearest
    (mul_le_mul_of_nonneg_right order (by norm_num))

theorem millionths_zero (none : x.magnitude ≤ 0) : x.millionths = 0 := by
  refine Nat.le_zero.mp (x.millionths_nearest.le_of_le_mark increasing_cast ?_)
  rw [Nat.cast_zero]
  exact mul_nonpos_of_nonpos_of_nonneg none (by norm_num)

theorem signedValue_text (finite : x.isFinite = true) : signedValue x.text.toList =
    (if x.isNegative then -(x.millionths : ℚ) else x.millionths) / 10 ^ 6 := by
  obtain ⟨whole, places, written, fixed⟩ := fixedText_millionths x.millionths
  rw [text_finite finite, fixed, sign]
  by_cases negative : x.isNegative = true
  · rw [if_pos negative, if_pos negative, neg_div, ← written.value]
    rfl
  · obtain ⟨c, cs, rfl⟩ := List.exists_cons_of_ne_nil written.plain.some_digit
    rw [if_neg negative, if_neg negative, ← written.value]
    exact signedValue_digit (written.plain.digits c List.mem_cons_self) _

/-- Of two finite numbers the greater one is not printed as less. What rounds to zero may have a
sign, but not another value for that. -/
theorem signedValue_monotone (x_finite : x.isFinite = true) (y_finite : y.isFinite = true)
    (order : x.value ≤ y.value) : signedValue x.text.toList ≤ signedValue y.text.toList := by
  have some_x := x.magnitude_nonneg
  have some_y := y.magnitude_nonneg
  have keep {a b : ℕ} (less : a ≤ b) : (a : ℚ) ≤ b := Nat.cast_le.mpr less
  rw [signedValue_text x_finite, signedValue_text y_finite]
  refine div_le_div_of_nonneg_right ?_ (by norm_num)
  unfold value at order
  split at order <;> rename_i x_sign <;> split at order <;> rename_i y_sign
  · rw [if_pos x_sign, if_pos y_sign]
    exact neg_le_neg (keep (millionths_monotone (neg_le_neg_iff.mp order)))
  · rw [if_pos x_sign, if_neg y_sign]
    exact (neg_nonpos.mpr (Nat.cast_nonneg _)).trans (Nat.cast_nonneg _)
  · rw [if_neg x_sign, if_pos y_sign, millionths_zero (by linarith), millionths_zero (by linarith),
      Nat.cast_zero, neg_zero]
  · rw [if_neg x_sign, if_neg y_sign]
    exact keep (millionths_monotone order)

end Order

end Number
end StackCalc
