/-! Numbers are doubles, kept as their 64 bits: every payload of a NaN and both zeros stay apart.
The magnitude of a finite number is a whole count of units of 2 to the -1074, the least positive
double, so no fraction is needed to speak of its exact value. -/
namespace StackCalc

structure Number where
  bits : UInt64
  deriving DecidableEq, Inhabited

namespace Number

def zero : Number := ⟨0⟩

/-- The sign bit alone decides, for zeros and NaNs too. -/
def isNegative (x : Number) : Bool := (1 <<< 63) ≤ x.bits.toNat

def exponent (x : Number) : Nat := (x.bits.toNat >>> 52) % (1 <<< 11)

def fraction (x : Number) : Nat := x.bits.toNat % (1 <<< 52)

def isNaN (x : Number) : Bool := x.exponent = 2047 && x.fraction ≠ 0

def isInfinite (x : Number) : Bool := x.exponent = 2047 && x.fraction = 0

def isZero (x : Number) : Bool := x.exponent = 0 && x.fraction = 0

def units (x : Number) : Nat :=
  if x.exponent = 0 then x.fraction
  else ((1 <<< 52) + x.fraction) <<< (x.exponent - 1)

/-- Equality of the numbers that the bits stand for: a NaN differs from itself, the zeros agree. -/
def equals (x y : Number) : Bool :=
  !x.isNaN && !y.isNaN && (x == y || (x.isZero && y.isZero))

def negate (x : Number) : Number := ⟨x.bits ^^^ 0x8000000000000000⟩

def ofFloat (x : Float) : Number := ⟨x.toBits⟩

def toFloat (x : Number) : Float := Float.ofBits x.bits

def add (x y : Number) : Number := ofFloat (x.toFloat + y.toFloat)

def subtract (x y : Number) : Number := ofFloat (x.toFloat - y.toFloat)

def multiply (x y : Number) : Number := ofFloat (x.toFloat * y.toFloat)

def divide (x y : Number) : Number := ofFloat (x.toFloat / y.toFloat)

end Number
end StackCalc
