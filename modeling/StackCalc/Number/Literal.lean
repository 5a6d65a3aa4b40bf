import StackCalc.Number.Basic
import StackCalc.Number.Rounding

namespace StackCalc

/-- The exact value `digits / 10 ^ places`. -/
structure Decimal where
  digits : Nat
  places : Nat
  deriving DecidableEq

namespace Decimal

def digitsValue (text : List Char) : Nat :=
  text.foldl (fun value c => 10 * value + (c.toNat - '0'.toNat)) 0

def ofChars? (text : List Char) : Option Decimal :=
  let whole := text.takeWhile Char.isDigit
  if whole = [] then none
  else match text.dropWhile Char.isDigit with
    | [] => some ⟨digitsValue whole, 0⟩
    | c :: tail =>
      if c = '.' ∧ tail ≠ [] ∧ tail.all Char.isDigit then
        some ⟨digitsValue (whole ++ tail), tail.length⟩
      else none

end Decimal

namespace Number

def infinity : Number := ⟨0x7FF0000000000000⟩

/-- The double nearest to `num / den`, an exact half going to the even significand.

Let the floor of the quotient, counted in units of 2 to the -1074, have its top bit at `52 + shift`.
Then a significand of 53 bits counts steps of `2 ^ shift` units, or single units when the quotient
is below the least normal double. In both cases the bits are `shift * 2 ^ 52` and the count added
up: the leading bit of a normal significand raises the exponent field by the missing one, and so
does a count that was rounded up to the next power of two. From the first step beyond the largest
finite double on, the sum is cut to the bits of infinity. -/
def nearest (num den : Nat) : Number :=
  let scaled := num <<< 1074
  let shift := (scaled / den).log2 - 52
  let count := roundDiv scaled (den <<< shift)
  ⟨UInt64.ofNat (min ((shift <<< 52) + count) infinity.bits.toNat)⟩

def ofDecimal (d : Decimal) : Number := nearest d.digits (Nat.pow 10 d.places)

def ofLiteral? (text : List Char) : Option Number := (Decimal.ofChars? text).map ofDecimal

end Number
end StackCalc
