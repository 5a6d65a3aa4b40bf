import StackCalc.Chunk.Opcode
import StackCalc.Number.Basic

namespace StackCalc

structure CodeByte where
  byte : UInt8
  line : Nat
  deriving DecidableEq

structure Chunk where
  code : Array CodeByte
  constants : Array Number
  deriving DecidableEq

namespace Chunk

def empty : Chunk := ⟨#[], #[]⟩

def size (c : Chunk) : Nat := c.code.size

def isEmpty (c : Chunk) : Bool := c.code.isEmpty

def bytes (c : Chunk) : List UInt8 := c.code.toList.map CodeByte.byte

def lines (c : Chunk) : List Nat := c.code.toList.map CodeByte.line

def write (c : Chunk) (byte : UInt8) (line : Nat) : Chunk :=
  { c with code := c.code.push ⟨byte, line⟩ }

def writeWord (c : Chunk) (word : UInt16) (line : Nat) : Chunk :=
  (c.write (UInt8.ofNat (word.toNat / 256)) line).write (UInt8.ofNat word.toNat) line

def writeOp (c : Chunk) (op : Opcode) (line : Nat) : Chunk := c.write op.toByte line

def addConstant (c : Chunk) (value : Number) : Nat × Chunk :=
  (c.constants.size, { c with constants := c.constants.push value })

def read? (c : Chunk) (offset : Nat) : Option UInt8 := c.code[offset]?.map CodeByte.byte

def readWord? (c : Chunk) (offset : Nat) : Option UInt16 :=
  match c.read? offset, c.read? (offset + 1) with
  | some high, some low => some (UInt16.ofNat (256 * high.toNat + low.toNat))
  | _, _ => none

def readOp? (c : Chunk) (offset : Nat) : Option (Except UnknownOpcode Opcode) :=
  (c.read? offset).map Opcode.ofByte

def line? (c : Chunk) (offset : Nat) : Option Nat := c.code[offset]?.map CodeByte.line

def constant? (c : Chunk) (index : Nat) : Option Number := c.constants[index]?

/-- The same code, the same lines and equal constants. A NaN among the constants equals nothing. -/
def equals (a b : Chunk) : Bool := a.code == b.code && a.constants.isEqv b.constants Number.equals

end Chunk
end StackCalc
