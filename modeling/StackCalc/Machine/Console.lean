import StackCalc.Chunk.Listing
import StackCalc.Expression.Compile

namespace StackCalc

/-- A place to write to. What a run can see of one is how much it takes and why it fails then: a
limited sink takes `room` more characters, and the write that has another one fails. All that is
written here is ASCII, so a character is a byte. -/
inductive Sink where
  | working
  | limited (room : Nat) (reason : String)
  deriving DecidableEq

structure Torn where
  front : String
  reason : String
  deriving DecidableEq

namespace Sink

def failing (reason : String) : Sink := .limited 0 reason

def write (s : Sink) (text : String) : Except Torn Sink :=
  match s with
  | .working => .ok .working
  | .limited room reason =>
    if text.length ≤ room then .ok (.limited (room - text.length) reason)
    else .error ⟨String.ofList (text.toList.take room), reason⟩

end Sink

/-- The surroundings of a run. With `debug`, listings and every step are written to the trace. -/
structure Console where
  debug : Bool
  output : Sink
  trace : Sink
  deriving DecidableEq

def Console.quiet : Console := ⟨false, .working, .working⟩

inductive TraceLine where
  | listing (line : String)
  /-- The stack before an instruction, top first. -/
  | stack (values : List Number)
  | instruction (line : String)
  deriving DecidableEq

namespace TraceLine

def text : TraceLine → String
  | .listing line => line
  | .stack values => stackText values.reverse
  | .instruction line => line

end TraceLine

inductive Severity where
  | debug
  | warn
  deriving DecidableEq

inductive Record where
  | compileError (d : Diagnostic)
  | suppressed (d : Diagnostic)
  | compiled (bytes constants : Nat)
  | skipped (offset : Nat) (e : UnknownOpcode)
  | finished (value : Number)
  deriving DecidableEq

namespace Record

def severity : Record → Severity
  | .skipped _ _ => .warn
  | _ => .debug

def message : Record → String
  | .compileError d => "compile error: " ++ d.message
  | .suppressed d =>
    "suppressed error on line " ++ toString d.line ++ ": " ++ d.complaint.detail
  | .compiled bytes constants =>
    "compiled " ++ toString bytes ++ " bytes of bytecode with " ++ toString constants ++
      " constants"
  | .skipped offset e => "skipping instruction at offset " ++ toString offset ++ ": " ++ e.message
  | .finished value => "execution finished with " ++ value.text

end Record

def Compilation.log (c : Compilation) : List Record :=
  match c.reports with
  | [] => []
  | first :: others => .compileError first :: others.map .suppressed

end StackCalc
