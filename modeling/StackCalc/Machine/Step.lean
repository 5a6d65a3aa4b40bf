import StackCalc.Chunk.Instruction
import StackCalc.Number.Basic

namespace StackCalc

def BinaryOp.apply : BinaryOp → Number → Number → Number
  | .add => Number.add
  | .subtract => Number.subtract
  | .multiply => Number.multiply
  | .divide => Number.divide

inductive RuntimeError where
  | unexpectedEnd (offset : Nat)
  | constantOutOfRange (index : Nat)
  | stackUnderflow
  | outputFailed (reason : String)
  deriving DecidableEq

def RuntimeError.message (e : RuntimeError) : String :=
  "Runtime failure occured: " ++
    match e with
    | .unexpectedEnd offset => "Unexpected end of bytecode at offset " ++ toString offset
    | .constantOutOfRange index => "Constant index " ++ toString index ++ " is out of range"
    | .stackUnderflow => "Stack underflow"
    | .outputFailed reason => "Failed to write output: " ++ reason

inductive Step where
  | next (stack : List Number)
  | skip (e : UnknownOpcode)
  | done (value : Number) (stack : List Number)
  | stop (e : RuntimeError) (stack : List Number)
  deriving DecidableEq

/-- An operator finds its right operand on top and its left operand below. What was taken off the
stack before an underflow is gone, so an underflow leaves nothing. -/
def Located.step (constants : Array Number) (i : Located) (stack : List Number) : Step :=
  match i.instruction with
  | .load _ index =>
    match constants[index]? with
    | some value => .next (value :: stack)
    | none => .stop (.constantOutOfRange index) stack
  | .negate =>
    match stack with
    | value :: stack => .next (value.negate :: stack)
    | [] => .stop .stackUnderflow []
  | .binary op =>
    match stack with
    | right :: left :: stack => .next (op.apply left right :: stack)
    | _ => .stop .stackUnderflow []
  | .ret =>
    match stack with
    | value :: stack => .done value stack
    | [] => .stop .stackUnderflow []
  | .unknown byte => .skip ⟨byte⟩
  | .truncated _ _ => .stop (.unexpectedEnd (i.offset + 1)) stack

end StackCalc
