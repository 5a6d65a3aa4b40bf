import StackCalc.Chunk.Image
import StackCalc.CommandLine.Arguments
import StackCalc.CommandLine.Directory
import StackCalc.CommandLine.Session

/-! The commands. A command reads at most one file and then writes at most one, so each is a function
from the file read to what is written. The exit code is 0 on success, 1 when something failed, and
2 when the arguments make no sense. -/
namespace StackCalc.CommandLine

structure Report where
  exit : UInt8
  written : Written
  deriving DecidableEq

inductive Trouble where
  | read (path : String) (e : FileError)
  | write (path : String) (e : FileError)
  | image (path : String) (e : Image.DecodeError)
  | encode (e : Image.EncodeError)
  | compile (d : Diagnostic)
  deriving DecidableEq

def Trouble.message : Trouble → String
  | .read path e => "Failed to read " ++ path ++ ": " ++ e.message
  | .write path e => "Failed to write " ++ path ++ ": " ++ e.message
  | .image path e => "Invalid chunk file " ++ path ++ ": " ++ e.message
  | .encode e => e.message
  | .compile d => d.message

namespace Report

def success (written : Written) : Report := ⟨0, written⟩

def failure (stderr : String) (trouble : Trouble) : Report :=
  ⟨1, ⟨"", stderr ++ trouble.message ++ "\n"⟩⟩

/-- The warnings of a run stay in its log. A logger that shows them on standard error puts the time
in front of each, which no report can tell, so they are left out here. -/
def ofRun (r : Run) : Report :=
  match r.result with
  | .ok _ => ⟨0, .ofRun r⟩
  | .error _ => ⟨1, .ofRun r⟩

end Report

abbrev Contents := Except FileError ByteArray

def sourceOf (path : String) (contents : Contents) : Except Trouble String :=
  match contents with
  | .error e => .error (.read path e)
  | .ok bytes =>
    match String.fromUTF8? bytes with
    | some source => .ok source
    | none => .error (.read path .notText)

def imageOf (path : String) (contents : Contents) : Except Trouble Chunk :=
  match contents with
  | .error e => .error (.read path e)
  | .ok bytes =>
    match Image.decode bytes.toList with
    | .ok chunk => .ok chunk
    | .error e => .error (.image path e)

def runFile (debug : Bool) (path : String) (contents : Contents) : Report :=
  match sourceOf path contents with
  | .error trouble => .failure "" trouble
  | .ok source => .ofRun (Machine.new.interpret (console debug) source)

def execFile (debug : Bool) (path : String) (contents : Contents) : Report :=
  match imageOf path contents with
  | .error trouble => .failure "" trouble
  | .ok chunk => .ofRun (Machine.new.execute (console debug) chunk)

structure Product where
  image : ByteArray
  stderr : String

def compileFile (debug : Bool) (path : String) (contents : Contents) : Except Report Product :=
  match sourceOf path contents with
  | .error trouble => .error (.failure "" trouble)
  | .ok source =>
    match compile source with
    | .error d => .error (.failure "" (.compile d))
    | .ok chunk =>
      let stderr := if debug then chunk.listingText path else ""
      match Image.encode chunk with
      | .error e => .error (.failure stderr (.encode e))
      | .ok image => .ok ⟨⟨image.toArray⟩, stderr⟩

def Product.saved (product : Product) (path : String) (result : Except FileError Unit) : Report :=
  match result with
  | .ok _ => .success ⟨"", product.stderr⟩
  | .error e => .failure product.stderr (.write path e)

def converse (debug : Bool) (input : List UInt8) : Report :=
  match Session.whole debug input with
  | (written, true) => ⟨0, written⟩
  | (written, false) => ⟨1, written⟩

def Invocation.perform (i : Invocation) (d : Directory) (input : List UInt8) : Report × Directory :=
  match i.command with
  | .repl => (converse i.debug input, d)
  | .run file => (runFile i.debug file (d.load file), d)
  | .exec file => (execFile i.debug file (d.load file), d)
  | .compile file output =>
    match compileFile i.debug file (d.load file) with
    | .error report => (report, d)
    | .ok product =>
      match d.save output product.image with
      | .ok d => (product.saved output (.ok ()), d)
      | .error e => (product.saved output (.error e), d)

def versionText : String := "automato 0.1.0\n"

def helpText : String :=
  "Expression compiler and bytecode virtual machine\n\n" ++
  "Usage: automato [--debug] [COMMAND]\n\n" ++
  "Commands:\n" ++
  "  run <FILE>                        Evaluate a source file as one expression\n" ++
  "  repl                              Evaluate one expression per line of input\n" ++
  "  compile --output <OUTPUT> <FILE>  Compile a source file into a chunk file\n" ++
  "  exec <FILE>                       Execute a previously compiled chunk file\n"

def Stop.report : Stop → Report
  | .help => ⟨0, ⟨helpText, ""⟩⟩
  | .version => ⟨0, ⟨versionText, ""⟩⟩
  | .misuse => ⟨2, ⟨"", helpText⟩⟩

def program (arguments : List String) (d : Directory) (input : List UInt8) : Report × Directory :=
  match read arguments with
  | .ok invocation => invocation.perform d input
  | .error stop => (stop.report, d)

end StackCalc.CommandLine
