import StackCalc.Chunk.Basic

/-! Images: chunks as bytes, to be stored and loaded again. All numbers are big-endian.

* the four bytes of the magic, and a version byte
* the size of the code in four bytes, the code, and the line of each code byte in four bytes
* the count of constants in four bytes, and each constant as a tag byte and its eight bytes

The reader accepts what the writer produces and nothing else. -/
namespace StackCalc

namespace Image

def bigEndian : Nat → Nat → List UInt8
  | 0, _ => []
  | count + 1, n => UInt8.ofNat (n >>> (8 * count)) :: bigEndian count n

def ofBigEndian (bytes : List UInt8) : Nat :=
  bytes.foldl (fun value byte => 256 * value + byte.toNat) 0

/-- `ATMC` in ASCII. -/
def magic : List UInt8 := [0x41, 0x54, 0x4D, 0x43]

def version : UInt8 := 1

def numberTag : UInt8 := 0

def wordBound : Nat := 1 <<< 32

inductive Part where
  | code
  | constants
  deriving DecidableEq

inductive EncodeError where
  | tooLarge (part : Part)
  | lineOutOfRange (line : Nat)
  deriving DecidableEq

def EncodeError.message : EncodeError → String
  | .tooLarge .code => "Chunk section code has more than u32::MAX entries"
  | .tooLarge .constants => "Chunk section constants has more than u32::MAX entries"
  | .lineOutOfRange line => "Line number " ++ toString line ++ " does not fit in u32"

inductive Field where
  | magic | version | codeLength | code | lines | constantCount | constantTag | constant
  deriving DecidableEq

def Field.display : Field → String
  | .magic => "magic"
  | .version => "version"
  | .codeLength => "code length"
  | .code => "code"
  | .lines => "lines"
  | .constantCount => "constant count"
  | .constantTag => "constant tag"
  | .constant => "constant"

/-- There is no error for lines: one that was written in four bytes fits any word that has at least
as many, and smaller words are left out of consideration. -/
inductive DecodeError where
  | badMagic
  | unsupportedVersion (version : Nat)
  | truncated (field : Field)
  | unknownTag (tag : Nat)
  | trailing (count : Nat)
  deriving DecidableEq

def DecodeError.message : DecodeError → String
  | .badMagic => "Not a chunk file: bad magic bytes"
  | .unsupportedVersion version => "Unsupported chunk format version " ++ toString version
  | .truncated field => "Chunk data ended early while reading " ++ field.display
  | .unknownTag tag => "Unknown value tag " ++ toString tag
  | .trailing count => toString count ++ " trailing bytes after chunk data"

def constantBytes (value : Number) : List UInt8 := numberTag :: bigEndian 8 value.bits.toNat

def layOut (c : Chunk) : List UInt8 :=
  magic ++ [version] ++ bigEndian 4 c.code.size ++ c.bytes ++ c.lines.flatMap (bigEndian 4) ++
    bigEndian 4 c.constants.size ++ c.constants.toList.flatMap constantBytes

def encode (c : Chunk) : Except EncodeError (List UInt8) :=
  if wordBound ≤ c.code.size then .error (.tooLarge .code)
  else match c.lines.find? fun line => wordBound ≤ line with
    | some line => .error (.lineOutOfRange line)
    | none =>
      if wordBound ≤ c.constants.size then .error (.tooLarge .constants)
      else .ok (layOut c)

def take (count : Nat) (field : Field) (input : List UInt8) :
    Except DecodeError (List UInt8 × List UInt8) :=
  let front := input.take count
  if front.length < count then .error (.truncated field) else .ok (front, input.drop count)

def takeNat (count : Nat) (field : Field) (input : List UInt8) :
    Except DecodeError (Nat × List UInt8) :=
  match take count field input with
  | .error e => .error e
  | .ok (front, input) => .ok (ofBigEndian front, input)

def takeMany {α : Type} (item : List UInt8 → Except DecodeError (α × List UInt8)) :
    Nat → List α → List UInt8 → Except DecodeError (List α × List UInt8)
  | 0, seen, input => .ok (seen.reverse, input)
  | due + 1, seen, input =>
    match item input with
    | .error e => .error e
    | .ok (value, input) => takeMany item due (value :: seen) input

def takeConstant (input : List UInt8) : Except DecodeError (Number × List UInt8) :=
  match takeNat 1 .constantTag input with
  | .error e => .error e
  | .ok (tag, input) =>
    if tag = numberTag.toNat then
      match takeNat 8 .constant input with
      | .error e => .error e
      | .ok (bits, input) => .ok (⟨UInt64.ofNat bits⟩, input)
    else .error (.unknownTag tag)

def checkMagic (input : List UInt8) : Except DecodeError (List UInt8) := do
  let (front, input) ← take 4 .magic input
  if front = magic then return input else throw .badMagic

def checkVersion (input : List UInt8) : Except DecodeError (List UInt8) := do
  let (found, input) ← takeNat 1 .version input
  if found = version.toNat then return input else throw (.unsupportedVersion found)

def checkEnd (input : List UInt8) : Except DecodeError Unit :=
  if input = [] then .ok () else .error (.trailing input.length)

def decode (input : List UInt8) : Except DecodeError Chunk := do
  let input ← checkMagic input
  let input ← checkVersion input
  let (size, input) ← takeNat 4 .codeLength input
  let (code, input) ← take size .code input
  let (lines, input) ← takeMany (takeNat 4 .lines) size [] input
  let (count, input) ← takeNat 4 .constantCount input
  let (constants, input) ← takeMany takeConstant count [] input
  checkEnd input
  return ⟨(List.zipWith CodeByte.mk code lines).toArray, constants.toArray⟩

end Image
end StackCalc
