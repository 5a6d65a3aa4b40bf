import StackCalc.Number.Basic
import StackCalc.Number.Rounding
import StackCalc.Text.Pad

namespace StackCalc.Number

def decimals : Nat := 6

def millionths (x : Number) : Nat := roundDiv (x.units * Nat.pow 10 decimals) (1 <<< 1074)

def fixedText (count : Nat) : String :=
  toString (count / Nat.pow 10 decimals) ++ "." ++
    Text.padLeft '0' decimals (toString (count % Nat.pow 10 decimals))

/-- A NaN has no sign. All else has a minus exactly when the sign bit is set, zero too. -/
def text (x : Number) : String :=
  if x.isNaN then "NaN"
  else
    let sign := if x.isNegative then "-" else ""
    sign ++ if x.isInfinite then "inf" else fixedText x.millionths

end StackCalc.Number
