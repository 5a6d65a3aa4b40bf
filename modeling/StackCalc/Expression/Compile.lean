import StackCalc.Chunk.Basic
import StackCalc.Expression.Diagnostic
import StackCalc.Number.Literal
import StackCalc.Token.Scan

/-! Compiling an expression in one pass over its tokens, straight into code. Operands come before
their operator, so the code of an expression is the code of its parts and then one opcode.

The grammar has three levels. A sum is made of products, a product of operands, and an operand is a
number, a group in parentheses, or a minus and an operand. Groups and minus signs nest, at most
`maxNesting` deep.

Everything that is wrong is reported, but only the first report counts: reading goes on behind it
without looking for a place to start afresh, and the code made is thrown away. -/
namespace StackCalc

def maxNesting : Nat := 512

/-- How much of a sum is read: all of it, one product, or one operand. -/
inductive Level where
  | sum
  | product
  | operand
  deriving DecidableEq

/-- The level of a right operand. One level down from its operator keeps equal operators
left-associative. -/
def BinaryOp.rightLevel : BinaryOp → Level
  | .add | .subtract => .product
  | .multiply | .divide => .operand

def Level.admits : Level → BinaryOp → Bool
  | .sum, _ => true
  | .product, .multiply | .product, .divide => true
  | _, _ => false

inductive Role where
  | literal
  | opening
  | operator (op : BinaryOp)
  | none
  deriving DecidableEq

namespace Role

def ofKind : Kind → Role
  | .number => .literal
  | .punctuation .leftParen => .opening
  | .punctuation .plus => .operator .add
  | .punctuation .minus => .operator .subtract
  | .punctuation .star => .operator .multiply
  | .punctuation .slash => .operator .divide
  | _ => .none

end Role

/-- A compilation under way. The tokens left start with the lookahead, which is never a fault. -/
structure Progress where
  left : List Token
  endLine : Nat
  chunk : Chunk
  reports : Array Diagnostic

namespace Progress

def lookahead (p : Progress) : Token := p.left.head?.getD (.ending p.endLine)

def report (p : Progress) (t : Token) (complaint : Complaint) : Progress :=
  { p with reports := p.reports.push (.about t complaint) }

def passFaults : List Token → Array Diagnostic → List Token × Array Diagnostic
  | [], reports => ([], reports)
  | t :: left, reports =>
    match t.kind with
    | .fault cause => passFaults left (reports.push (.about t (.lexical cause)))
    | _ => (t :: left, reports)

def settle (p : Progress) : Progress :=
  match passFaults p.left p.reports with
  | (left, reports) => { p with left, reports }

def start (script : Script) : Progress := settle ⟨script.tokens, script.endLine, .empty, #[]⟩

def advance (p : Progress) : Progress := settle { p with left := p.left.tail }

def consume (p : Progress) (kind : Kind) (complaint : Complaint) : Progress :=
  if p.lookahead.kind = kind then p.advance else p.report p.lookahead complaint

def emit (p : Progress) (op : Opcode) (line : Nat) : Progress :=
  { p with chunk := p.chunk.writeOp op line }

def emitLoad (p : Progress) (index line : Nat) : Progress :=
  if index < 256 then
    { p with chunk := (p.chunk.writeOp .constant line).write (UInt8.ofNat index) line }
  else
    { p with chunk := (p.chunk.writeOp .constantLong line).writeWord (UInt16.ofNat index) line }

/-- Every literal gets a constant of its own. Two bytes bound how many can be referred to. -/
def emitConstant (p : Progress) (t : Token) (value : Number) : Progress :=
  let index := p.chunk.constants.size
  let p := { p with chunk := (p.chunk.addConstant value).2 }
  if index < 65536 then p.emitLoad index t.line else p.report t .tooManyConstants

def emitLiteral (p : Progress) (t : Token) : Progress :=
  match Number.ofLiteral? t.lexeme.toList with
  | some value => p.emitConstant t value
  | none => p.report t (.malformedNumber t.lexeme)

def nested (inner : Progress → Progress) (depth : Nat) (t : Token) (p : Progress) : Progress :=
  if maxNesting ≤ depth then p.report t .nestedTooDeeply else inner p

def operator? (p : Progress) (level : Level) : Option BinaryOp :=
  match Role.ofKind p.lookahead.kind with
  | .operator op => if level.admits op then some op else none
  | _ => none

/-- Reads operators and their right operands for as long as the level admits them. Each round uses
up at least one token, so as many `rounds` as there are tokens left are enough. -/
def climb (right : Level → Progress → Progress) (level : Level) :
    List Token → Progress → Progress
  | [], p => p
  | _ :: rounds, p =>
    match p.operator? level with
    | none => p
    | some op =>
      let line := p.lookahead.line
      climb right level rounds ((right op.rightLevel p.advance).emit (.binary op) line)

/-- Reads an expression at a level. A frame is one call under way. A level can have calls of the two
levels below it under way, and only a deeper nesting starts at the top again, so three frames for
each depth are enough. -/
def expression : Nat → Nat → Level → Progress → Progress
  | 0, _, _, p => p
  | frames + 1, depth, level, p =>
    let t := p.lookahead
    let p := p.advance
    match Role.ofKind t.kind with
    | .literal =>
      let p := p.emitLiteral t
      climb (expression frames depth) level p.left p
    | .opening =>
      let p := nested (expression frames (depth + 1) .sum) depth t p
      let p := p.consume (.punctuation .rightParen) .closingExpected
      climb (expression frames depth) level p.left p
    | .operator .subtract =>
      let p := (nested (expression frames (depth + 1) .operand) depth t p).emit .negate t.line
      climb (expression frames depth) level p.left p
    | _ => p.report t .expressionExpected

def maxFrames : Nat := 3 * (maxNesting + 1)

def whole (p : Progress) : Progress :=
  let p := (expression maxFrames 0 .sum p).consume .endOfInput .endExpected
  p.emit .ret p.lookahead.line

end Progress

structure Compilation where
  chunk : Chunk
  reports : List Diagnostic

namespace Compilation

def ofScript (script : Script) : Compilation :=
  let p := (Progress.start script).whole
  ⟨p.chunk, p.reports.toList⟩

def ofString (source : String) : Compilation := ofScript (.ofString source)

def outcome (c : Compilation) : Except Diagnostic Chunk :=
  match c.reports with
  | [] => .ok c.chunk
  | first :: _ => .error first

end Compilation

def compile (source : String) : Except Diagnostic Chunk := (Compilation.ofString source).outcome

end StackCalc
