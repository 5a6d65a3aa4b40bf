import StackCalc.Chunk.Opcode

/-! Code bytes read as instructions. Every string of bytes is cut into instructions in exactly one
way: an opcode with its operand, a single byte that is no opcode, or at the very end an opcode
whose operand is cut off. -/
namespace StackCalc

inductive Instruction where
  | ret
  | load (wide : Bool) (index : Nat)
  | negate
  | binary (op : BinaryOp)
  | unknown (byte : UInt8)
  /-- A constant opcode at the end of the code with fewer operand bytes than it needs. -/
  | truncated (wide : Bool) (present : Nat)
  deriving DecidableEq

namespace Instruction

def size : Instruction → Nat
  | .load wide _ => if wide then 3 else 2
  | .truncated _ present => 1 + present
  | _ => 1

def constantOpcode (wide : Bool) : Opcode := if wide then .constantLong else .constant

def take (byte : UInt8) (rest : List UInt8) : Instruction × List UInt8 :=
  match Opcode.ofByte byte with
  | .error e => (.unknown e.byte, rest)
  | .ok .ret => (.ret, rest)
  | .ok .negate => (.negate, rest)
  | .ok (.binary op) => (.binary op, rest)
  | .ok .constant =>
    match rest with
    | index :: rest => (.load false index.toNat, rest)
    | [] => (.truncated false 0, [])
  | .ok .constantLong =>
    match rest with
    | high :: low :: rest => (.load true (256 * high.toNat + low.toNat), rest)
    | [_] => (.truncated true 1, [])
    | [] => (.truncated true 0, [])

/-- The bytes of an instruction. Of a truncated one only the opcode is kept. -/
def toBytes : Instruction → List UInt8
  | .ret => [Opcode.ret.toByte]
  | .load false index => [Opcode.constant.toByte, UInt8.ofNat index]
  | .load true index =>
    [Opcode.constantLong.toByte, UInt8.ofNat (index / 256), UInt8.ofNat index]
  | .negate => [Opcode.negate.toByte]
  | .binary op => [(Opcode.binary op).toByte]
  | .unknown byte => [byte]
  | .truncated wide _ => [(constantOpcode wide).toByte]

end Instruction

structure Located where
  offset : Nat
  instruction : Instruction
  deriving DecidableEq

namespace Located

def next (i : Located) : Nat := i.offset + i.instruction.size

/-- Cuts code that starts at `offset`, with the latest instruction first in `seen`. Every
instruction takes at least one byte, so a budget of one step a byte is enough. -/
def cut : Nat → Nat → List UInt8 → List Located → List Located
  | _, _, [], seen => seen.reverse
  | 0, _, _, seen => seen.reverse
  | budget + 1, offset, byte :: rest, seen =>
    match Instruction.take byte rest with
    | (instruction, rest) =>
      cut budget (offset + instruction.size) rest (⟨offset, instruction⟩ :: seen)

def ofBytes (code : List UInt8) : List Located := cut code.length 0 code []

end Located
end StackCalc
