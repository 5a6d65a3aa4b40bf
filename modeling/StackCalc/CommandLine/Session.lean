import StackCalc.Machine.Run
import StackCalc.Text.Blank

namespace StackCalc.CommandLine

structure Written where
  stdout : String
  stderr : String
  deriving DecidableEq

namespace Written

def nothing : Written := ⟨"", ""⟩

def append (a b : Written) : Written := ⟨a.stdout ++ b.stdout, a.stderr ++ b.stderr⟩

end Written

/-- Traces go where errors go. -/
def console (debug : Bool) : Console := ⟨debug, .working, .working⟩

def Written.ofRun (r : Run) : Written :=
  let complaint := match r.result with
    | .ok _ => ""
    | .error failure => failure.message ++ "\n"
  ⟨r.outputText, r.traceText ++ complaint⟩

namespace Session

def banner : String :=
  "Welcome to the automato REPL!\nEOF to exit. (Ctrl+D on *nix, Ctrl+Z on Windows)\n"

def prompt : String := "> "

/-- The bytes cut behind each line feed, in order. What follows the last one is a line too, if there
is anything. `current` and `seen` hold what has been read, the latest first. -/
def cutLines : List UInt8 → List UInt8 → List (List UInt8) → List (List UInt8)
  | [], [], seen => seen.reverse
  | [], current, seen => (current.reverse :: seen).reverse
  | byte :: rest, current, seen =>
    if byte = 10 then cutLines rest [] ((byte :: current).reverse :: seen)
    else cutLines rest (byte :: current) seen

def linesOf (input : List UInt8) : List (List UInt8) := cutLines input [] []

def textOf? (bytes : List UInt8) : Option String := String.fromUTF8? ⟨bytes.toArray⟩

def answer (debug : Bool) (m : Machine) (line : String) : Written × Machine :=
  let source := Text.trim line.toList
  if source = [] then (.nothing, m)
  else
    let r := m.interpret (console debug) (String.ofList source)
    (.ofRun r, .ofRun r)

def unreadable : String := "Terminal IO failed: stream did not contain valid UTF-8"

/-- A line that is no text ends the session, and nothing else fails it. -/
def converse (debug : Bool) : List (List UInt8) → Machine → Written → Written × Bool
  | [], _, written => (written.append ⟨prompt, ""⟩, true)
  | line :: rest, m, written =>
    let written := written.append ⟨prompt, ""⟩
    match textOf? line with
    | none => (written.append ⟨"", unreadable ++ "\n"⟩, false)
    | some text =>
      match answer debug m text with
      | (new, m) => converse debug rest m (written.append new)

def whole (debug : Bool) (input : List UInt8) : Written × Bool :=
  converse debug (linesOf input) .new ⟨banner, ""⟩

end Session
end StackCalc.CommandLine
