/-! The arguments of the command line. `--debug` may stand before the subcommand, behind it, or
both, but once in each place. Reading goes from the left and stops at the first thing that decides:
a request for help or for the version, or an argument that does not fit. -/
namespace StackCalc.CommandLine

inductive Command where
  | run (file : String)
  | repl
  | compile (file output : String)
  | exec (file : String)
  deriving DecidableEq

structure Invocation where
  debug : Bool
  command : Command
  deriving DecidableEq

inductive Stop where
  | help
  | version
  | misuse
  deriving DecidableEq

structure Shape where
  file : Bool
  output : Bool

structure Given where
  debug : Bool
  file : Option String
  output : Option String

namespace Given

def nothing : Given := ⟨false, none, none⟩

def setDebug (g : Given) : Except Stop Given :=
  if g.debug then .error .misuse else .ok { g with debug := true }

def setFile (g : Given) (shape : Shape) (value : String) : Except Stop Given :=
  if shape.file ∧ g.file = none ∧ value ≠ "" then .ok { g with file := some value }
  else .error .misuse

def setOutput (g : Given) (shape : Shape) (value : String) : Except Stop Given :=
  if shape.output ∧ g.output = none ∧ value ≠ "" then .ok { g with output := some value }
  else .error .misuse

end Given

/-- How one argument reads when no double dash stands before it. A single dash is plain text. -/
inductive Argument where
  | doubleDash
  | long (name : String) (value : Option String)
  | short (letter : Char) (behind : List Char)
  | plain
  deriving DecidableEq

namespace Argument

def ofChars : List Char → Argument
  | ['-'] => .plain
  | ['-', '-'] => .doubleDash
  | '-' :: '-' :: text =>
    let name := String.ofList (text.takeWhile (· ≠ '='))
    match text.dropWhile (· ≠ '=') with
    | [] => .long name none
    | _ :: value => .long name (some (String.ofList value))
  | '-' :: letter :: behind => .short letter behind
  | _ => .plain

def ofString (text : String) : Argument := ofChars text.toList

def attached : List Char → String
  | '=' :: value => String.ofList value
  | value => String.ofList value

end Argument

inductive Taken where
  | given (g : Given)
  | outputDue
  | filesOnly

def Given.take (g : Given) (shape : Shape) (text : String) : Except Stop Taken :=
  match Argument.ofString text with
  | .plain => (g.setFile shape text).map .given
  | .doubleDash => .ok .filesOnly
  | .long "debug" none => g.setDebug.map .given
  | .long "help" none => .error .help
  | .long "output" none => .ok .outputDue
  | .long "output" (some value) => (g.setOutput shape value).map .given
  | .short 'h' _ => .error .help
  | .short 'o' [] => .ok .outputDue
  | .short 'o' behind => (g.setOutput shape (Argument.attached behind)).map .given
  | _ => .error .misuse

def loads (shape : Shape) : List String → Given → Except Stop Given
  | [], g => .ok g
  | text :: rest, g =>
    match g.setFile shape text with
    | .error stop => .error stop
    | .ok g => loads shape rest g

/-- Reads the arguments behind a subcommand. An option that waits for its value takes the next
argument, unless that looks like an option. -/
def readGiven (shape : Shape) : List String → Given → Except Stop Given
  | [], g => .ok g
  | text :: rest, g =>
    match g.take shape text with
    | .error stop => .error stop
    | .ok (.given g) => readGiven shape rest g
    | .ok .filesOnly => loads shape rest g
    | .ok .outputDue =>
      match rest with
      | [] => .error .misuse
      | value :: rest =>
        if Argument.ofString value = .plain then
          match g.setOutput shape value with
          | .error stop => .error stop
          | .ok g => readGiven shape rest g
        else .error .misuse

def subcommands : List String := ["run", "repl", "compile", "exec", "help"]

def readCommand (debug : Bool) (name : String) (rest : List String) : Except Stop Invocation := do
  match name with
  | "run" =>
    let g ← readGiven ⟨true, false⟩ rest .nothing
    match g.file with
    | some file => return ⟨debug || g.debug, .run file⟩
    | none => throw .misuse
  | "exec" =>
    let g ← readGiven ⟨true, false⟩ rest .nothing
    match g.file with
    | some file => return ⟨debug || g.debug, .exec file⟩
    | none => throw .misuse
  | "compile" =>
    let g ← readGiven ⟨true, true⟩ rest .nothing
    match g.file, g.output with
    | some file, some output => return ⟨debug || g.debug, .compile file output⟩
    | _, _ => throw .misuse
  | "repl" =>
    let g ← readGiven ⟨false, false⟩ rest .nothing
    return ⟨debug || g.debug, .repl⟩
  | "help" =>
    match rest with
    | [] => throw .help
    | [topic] => throw (if topic ∈ subcommands then .help else .misuse)
    | _ => throw .misuse
  | _ => throw .misuse

def readFrom (debug : Bool) : List String → Except Stop Invocation
  | [] => .ok ⟨debug, .repl⟩
  | text :: rest =>
    match Argument.ofString text with
    | .plain => readCommand debug text rest
    | .doubleDash => if rest = [] then .ok ⟨debug, .repl⟩ else .error .misuse
    | .long "debug" none => if debug then .error .misuse else readFrom true rest
    | .long "help" none => .error .help
    | .long "version" none => .error .version
    | .short 'h' _ => .error .help
    | .short 'V' _ => .error .version
    | _ => .error .misuse

def read (arguments : List String) : Except Stop Invocation := readFrom false arguments

end StackCalc.CommandLine
