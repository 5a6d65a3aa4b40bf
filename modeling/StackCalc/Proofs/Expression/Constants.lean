import Mathlib.Data.List.Forall2
import StackCalc.Proofs.Expression.Acceptance
import StackCalc.Proofs.Number.Closest
import StackCalc.Proofs.Number.Decimals

namespace StackCalc

theorem Number.ofLiteral_nearest {text : List Char} {x : Number}
    (read : ofLiteral? text = some x) : Numeral text ∧
      ∀ y : Number, y.NearestTo (Text.decimalValue text) ↔ y = x := by
  obtain ⟨d, decimal, rfl⟩ := Option.map_eq_some_iff.mp read
  obtain ⟨numeral, exact⟩ := Decimal.ofChars_value decimal
  refine ⟨numeral, fun y => ?_⟩
  rw [exact, Decimal.value]
  exact nearestTo_iff d.digits (Nat.pow_pos (by decide)) y

theorem Compiled.constants {script : Script} {chunk : Chunk} {e : Tree}
    (compiled : Compiled script chunk e) :
    List.Forall₂ (fun t x => t.value? = some x) (script.tokens.filter Token.isNumber)
      chunk.constants.toList := by
  have pool : List.Forall₂ Eq (e.numbers.map Token.value?) (chunk.constants.toList.map some) := by
    rw [List.forall₂_eq_eq_eq]
    exact compiled.pool.symm
  rw [List.forall₂_map_left_iff, List.forall₂_map_right_iff] at pool
  rw [compiled.derives.filter_numbers]
  exact pool

/-- All of a literal counts, however long it is, and one that is too large for a double is an
infinity and no error. -/
theorem constants_nearest (source : String) (chunk : Chunk) (ok : compile source = .ok chunk) :
    List.Forall₂ (fun t x => Numeral t.lexeme.toList ∧
        (∀ y : Number, y.NearestTo (Text.decimalValue t.lexeme.toList) ↔ y = x) ∧
        (x = .zero ↔ Text.decimalValue t.lexeme.toList ≤ 1 / 2 ^ 1075) ∧
        (x = .infinity ↔ 2 ^ 1024 - 2 ^ 970 ≤ Text.decimalValue t.lexeme.toList) ∧
        x.isNaN = false ∧ x.isNegative = false)
      ((Script.ofString source).tokens.filter Token.isNumber) chunk.constants.toList := by
  obtain ⟨-, e, compiled⟩ := compiled_of_ok ok
  refine compiled.constants.imp fun t x denotes => ?_
  obtain ⟨numeral, one⟩ := Number.ofLiteral_nearest denotes
  have nearest : x.NearestTo (Text.decimalValue t.lexeme.toList) := (one x).mpr rfl
  exact ⟨numeral, one, nearest.zero_iff, nearest.infinity_iff, nearest.not_nan,
    nearest.nonnegative⟩

/-- A literal in the middle between two doubles, the upper one of which is even. -/
theorem constants_nearest_tie :
    let half : Number := ⟨0x4330000000000002⟩
    compile "4503599627370497.5" = .ok ⟨#[⟨1, 1⟩, ⟨0, 1⟩, ⟨0, 1⟩], #[half]⟩ ∧
      half.NearestTo (Text.decimalValue "4503599627370497.5".toList) := by
  intro half
  have ok : compile "4503599627370497.5" = .ok ⟨#[⟨1, 1⟩, ⟨0, 1⟩, ⟨0, 1⟩], #[half]⟩ := by
    decide +kernel
  have tokens : (Script.ofString "4503599627370497.5").tokens.filter Token.isNumber =
      [⟨.number, "4503599627370497.5", 1⟩] := by decide +kernel
  have nearest := constants_nearest _ _ ok
  rw [tokens] at nearest
  cases nearest with
  | cons here _ => exact ⟨ok, (here.2.1 half).mpr rfl⟩

end StackCalc
