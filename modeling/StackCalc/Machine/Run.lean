import StackCalc.Machine.Console
import StackCalc.Machine.Step

/-! The stack machine. It runs one chunk at a time, instruction by instruction, and can be used
again: its stack is cleared whenever a chunk starts to run, and left as it is until then. -/
namespace StackCalc

inductive Failure where
  | compile (d : Diagnostic)
  | runtime (e : RuntimeError)
  deriving DecidableEq

def Failure.message : Failure → String
  | .compile d => d.message
  | .runtime e => e.message

/-- What a run leaves. The lines of the trace are whole, and `torn` is the front of one more. -/
structure Run where
  result : Except Failure Number
  stack : List Number
  outputText : String
  trace : List TraceLine
  torn : String
  log : List Record

def Run.traceText (r : Run) : String := Text.unlines (r.trace.map TraceLine.text) ++ r.torn

/-- What has been written so far, the latest first, and what the trace takes after that. -/
structure Tape where
  trace : List TraceLine
  torn : String
  log : List Record
  sink : Sink

namespace Tape

def blank (sink : Sink) : Tape := ⟨[], "", [], sink⟩

def stop (tape : Tape) (e : RuntimeError) (stack : List Number) : Run :=
  ⟨.error (.runtime e), stack, "", tape.trace.reverse, tape.torn, tape.log.reverse⟩

def note (tape : Tape) (r : Record) : Tape := { tape with log := r :: tape.log }

def write (tape : Tape) : List TraceLine → Tape × Option String
  | [] => (tape, none)
  | line :: lines =>
    match tape.sink.write (line.text ++ "\n") with
    | .ok sink => write { tape with trace := line :: tape.trace, sink } lines
    | .error torn => ({ tape with torn := torn.front }, some torn.reason)

def observe (tape : Tape) (console : Console) (lines : List TraceLine) : Tape × Option String :=
  if console.debug then tape.write lines else (tape, none)

def done (tape : Tape) (console : Console) (value : Number) (stack : List Number) : Run :=
  match console.output.write (value.text ++ "\n") with
  | .error torn =>
    { tape.stop (.outputFailed torn.reason) stack with outputText := torn.front }
  | .ok _ =>
    ⟨.ok value, stack, value.text ++ "\n", tape.trace.reverse, tape.torn,
      (tape.note (.finished value)).log.reverse⟩

end Tape

namespace Chunk

def stepLines (chunk : Chunk) (offset : Nat) (instruction : Option Instruction)
    (stack : List Number) : List TraceLine :=
  [.stack stack, .instruction (chunk.listLine offset instruction)]

def executeFrom (chunk : Chunk) (console : Console) :
    List Located → List Number → Tape → Run
  | [], stack, tape =>
    match tape.observe console (chunk.stepLines chunk.size none stack) with
    | (tape, some reason) => tape.stop (.outputFailed reason) stack
    | (tape, none) => tape.stop (.unexpectedEnd chunk.size) stack
  | i :: rest, stack, tape =>
    match tape.observe console (chunk.stepLines i.offset (some i.instruction) stack) with
    | (tape, some reason) => tape.stop (.outputFailed reason) stack
    | (tape, none) =>
      match i.step chunk.constants stack with
      | .next stack => executeFrom chunk console rest stack tape
      | .skip e => executeFrom chunk console rest stack (tape.note (.skipped i.offset e))
      | .done value stack => tape.done console value stack
      | .stop e stack => tape.stop e stack

def announce (chunk : Chunk) (console : Console) : Tape × Option String :=
  ((Tape.blank console.trace).note (.compiled chunk.size chunk.constants.size)).observe console
    ((chunk.listing "code").map .listing)

end Chunk

/-- A machine between two runs is the stack that the last one left, top first. -/
structure Machine where
  stack : List Number
  deriving DecidableEq

namespace Machine

def new : Machine := ⟨[]⟩

def clear (_ : Machine) : Machine := new

def load (m : Machine) (console : Console) (chunk : Chunk) (tape : Tape) : Run :=
  chunk.executeFrom console chunk.instructions m.clear.stack tape

def execute (m : Machine) (console : Console) (chunk : Chunk) : Run :=
  m.load console chunk (.blank console.trace)

def interpret (m : Machine) (console : Console) (source : String) : Run :=
  let compilation := Compilation.ofString source
  match compilation.outcome with
  | .error d => ⟨.error (.compile d), m.stack, "", [], "", compilation.log⟩
  | .ok chunk =>
    match chunk.announce console with
    | (tape, some reason) => tape.stop (.outputFailed reason) m.stack
    | (tape, none) => m.load console chunk tape

inductive Task where
  | source (text : String)
  | chunk (chunk : Chunk)

def run (m : Machine) (console : Console) : Task → Run
  | .source text => m.interpret console text
  | .chunk chunk => m.execute console chunk

def ofRun (r : Run) : Machine := ⟨r.stack⟩

end Machine
end StackCalc
