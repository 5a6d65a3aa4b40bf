import StackCalc.Chunk.Basic
import StackCalc.Chunk.Instruction
import StackCalc.Number.Fixed

namespace StackCalc

namespace Chunk

/-- No instruction is longer than three bytes. -/
def instruction? (c : Chunk) (offset : Nat) : Option Instruction :=
  match (c.code.extract offset (offset + 3)).toList.map CodeByte.byte with
  | [] => none
  | byte :: rest => some (Instruction.take byte rest).1

def instructions (c : Chunk) : List Located := Located.ofBytes c.bytes

def operandText (c : Chunk) (index : Nat) : String :=
  Text.padLeft ' ' 4 (toString index) ++
    match c.constant? index with
    | some value => " '" ++ value.text ++ "'"
    | none => " <missing>"

def constantName (wide : Bool) : String :=
  Text.padRight ' ' 16 (Instruction.constantOpcode wide).name ++ " "

def instructionText (c : Chunk) : Option Instruction → String
  | none => "<end of chunk>"
  | some .ret => Opcode.ret.name
  | some .negate => Opcode.negate.name
  | some (.binary op) => (Opcode.binary op).name
  | some (.load wide index) => constantName wide ++ c.operandText index
  | some (.unknown byte) => "Unknown opcode " ++ toString byte.toNat
  | some (.truncated wide _) => constantName wide ++ "<truncated>"

/-- The bar stands for the line of the byte before, also where neither byte exists. -/
def lineMark (c : Chunk) (offset : Nat) : String :=
  if 0 < offset ∧ c.line? offset = c.line? (offset - 1) then "   | "
  else Text.padLeft ' ' 4 (toString ((c.line? offset).getD 0)) ++ " "

def listLine (c : Chunk) (offset : Nat) (instruction : Option Instruction) : String :=
  Text.padLeft '0' 4 (toString offset) ++ " " ++ c.lineMark offset ++ c.instructionText instruction

def listAt (c : Chunk) (offset : Nat) : String × Nat :=
  let instruction := c.instruction? offset
  (c.listLine offset instruction, offset + (instruction.map Instruction.size).getD 1)

def listInstruction (c : Chunk) (i : Located) : String := c.listLine i.offset (some i.instruction)

def listingHeader (header : String) : String := "== " ++ header ++ " =="

def listing (c : Chunk) (header : String) : List String :=
  listingHeader header :: c.instructions.map c.listInstruction

def listingText (c : Chunk) (header : String) : String := Text.unlines (c.listing header)

end Chunk

def stackText (values : List Number) : String :=
  values.foldl (fun text value => text ++ "[ " ++ value.text ++ " ]") "          "

end StackCalc
