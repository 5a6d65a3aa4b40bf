/-! A directory tree as far as commands can see it: the files below the working directory, by the
names on the way to them. Directories are those that hold a file, and the working directory
itself. Above it there are directories, and nothing to read. -/
namespace StackCalc.CommandLine

inductive FileError where
  | notFound
  | isDirectory
  | notDirectory
  | notText
  deriving DecidableEq

def FileError.message : FileError → String
  | .notFound => "No such file or directory (os error 2)"
  | .isDirectory => "Is a directory (os error 21)"
  | .notDirectory => "Not a directory (os error 20)"
  | .notText => "stream did not contain valid UTF-8"

/-- The names on the way to a file, outermost first. -/
abbrev Names := List (List Char)

structure Directory where
  files : List (Names × ByteArray)

inductive Target where
  | file (names : Names)
  | directory (names : Names)
  | above
  | vacant (names : Names)
  deriving DecidableEq

def pieces : List Char → List (List Char)
  | [] => [[]]
  | c :: cs =>
    match pieces cs with
    | [] => [[c]]
    | piece :: others => if c = '/' then [] :: piece :: others else (c :: piece) :: others

namespace Directory

def contents? (d : Directory) (names : Names) : Option ByteArray :=
  (d.files.find? fun file => file.1 = names).map Prod.snd

def holds (d : Directory) (names : Names) : Bool :=
  names = [] || d.files.any fun file =>
    names.length < file.1.length && file.1.take names.length = names

def target (d : Directory) (names : Names) : Target :=
  if (d.contents? names).isSome then .file names
  else if d.holds names then .directory names
  else .vacant names

def follow (d : Directory) (start : Target) (piece : List Char) : Except FileError Target :=
  match start with
  | .file _ => .error .notDirectory
  | .vacant _ => .error .notFound
  | .above => if piece = [] ∨ piece = ['.'] ∨ piece = ['.', '.'] then .ok .above else .error .notFound
  | .directory names =>
    if piece = [] ∨ piece = ['.'] then .ok start
    else if piece = ['.', '.'] then
      if names = [] then .ok .above else .ok (.directory names.dropLast)
    else .ok (d.target (names ++ [piece]))

def followAll (d : Directory) : Target → List (List Char) → Except FileError Target
  | start, [] => .ok start
  | start, piece :: others =>
    match d.follow start piece with
    | .error e => .error e
    | .ok next => followAll d next others

def locate (d : Directory) (path : List Char) : Except FileError Target :=
  d.followAll (if path.head? = some '/' then .above else .directory []) (pieces path)

def load (d : Directory) (path : String) : Except FileError ByteArray :=
  match d.locate path.toList with
  | .error e => .error e
  | .ok (.file names) =>
    match d.contents? names with
    | some bytes => .ok bytes
    | none => .error .notFound
  | .ok (.vacant _) => .error .notFound
  | .ok _ => .error .isDirectory

def put (d : Directory) (names : Names) (bytes : ByteArray) : Directory :=
  ⟨(names, bytes) :: d.files.filter fun file => file.1 ≠ names⟩

/-- Makes a file or replaces its contents. A path that ends in a slash asks for a directory. -/
def save (d : Directory) (path : String) (bytes : ByteArray) : Except FileError Directory :=
  let text := path.toList
  match d.locate (text.reverse.dropWhile (· = '/')).reverse with
  | .error e => .error e
  | .ok (.file names) | .ok (.vacant names) =>
    if text.getLast? = some '/' then .error .isDirectory else .ok (d.put names bytes)
  | .ok _ => .error .isDirectory

end Directory
end StackCalc.CommandLine
