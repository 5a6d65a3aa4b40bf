namespace StackCalc

inductive BinaryOp where
  | add | subtract | multiply | divide
  deriving DecidableEq

inductive Opcode where
  | ret
  | constant
  | constantLong
  | negate
  | binary (op : BinaryOp)
  deriving DecidableEq

structure UnknownOpcode where
  byte : UInt8
  deriving DecidableEq

def UnknownOpcode.message (e : UnknownOpcode) : String :=
  "Invalid byte " ++ toString e.byte.toNat ++
    " found when expecting OpCode value between 0 and 7"

namespace Opcode

def toByte : Opcode → UInt8
  | .ret => 0
  | .constant => 1
  | .constantLong => 2
  | .negate => 3
  | .binary .add => 4
  | .binary .subtract => 5
  | .binary .multiply => 6
  | .binary .divide => 7

def ofByte (byte : UInt8) : Except UnknownOpcode Opcode :=
  match byte.toNat with
  | 0 => .ok .ret
  | 1 => .ok .constant
  | 2 => .ok .constantLong
  | 3 => .ok .negate
  | 4 => .ok (.binary .add)
  | 5 => .ok (.binary .subtract)
  | 6 => .ok (.binary .multiply)
  | 7 => .ok (.binary .divide)
  | _ => .error ⟨byte⟩

def width : Opcode → Nat
  | .constant => 1
  | .constantLong => 2
  | _ => 0

def name : Opcode → String
  | .ret => "OP_RETURN"
  | .constant => "OP_CONSTANT"
  | .constantLong => "OP_CONSTANT_LONG"
  | .negate => "OP_NEGATE"
  | .binary .add => "OP_ADD"
  | .binary .subtract => "OP_SUBTRACT"
  | .binary .multiply => "OP_MULTIPLY"
  | .binary .divide => "OP_DIVIDE"

@[simp] theorem ofByte_toByte (op : Opcode) : ofByte op.toByte = .ok op := by
  cases op with
  | binary op => cases op <;> rfl
  | _ => rfl

end Opcode
end StackCalc
