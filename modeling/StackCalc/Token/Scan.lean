import StackCalc.Token.Basic

/-! Cutting a source text into tokens. Blanks and comments between tokens are dropped, and each
token is the longest piece at the front of the rest that belongs to a class. Letters, digits and
blanks are those of ASCII: any other character stands only inside strings and comments. -/
namespace StackCalc

def isNameStart (c : Char) : Bool := c.isAlpha || c = '_'

def isNamePart (c : Char) : Bool := isNameStart c || c.isDigit

structure Piece where
  kind : Kind
  text : List Char
  rest : List Char

namespace Piece

def mark (mark : Punctuation) (text rest : List Char) : Piece := ⟨.punctuation mark, text, rest⟩

def markOrEqual (single double : Punctuation) (c : Char) : List Char → Piece
  | '=' :: rest => mark double [c, '='] rest
  | rest => mark single [c] rest

def name (text : List Char) : Piece :=
  let front := text.takeWhile isNamePart
  let kind := match Keyword.ofString? (String.ofList front) with
    | some word => .keyword word
    | none => .identifier
  ⟨kind, front, text.dropWhile isNamePart⟩

def number (text : List Char) : Piece :=
  let whole := text.takeWhile Char.isDigit
  match text.dropWhile Char.isDigit with
  | '.' :: d :: rest =>
    if d.isDigit then
      ⟨.number, whole ++ '.' :: (d :: rest).takeWhile Char.isDigit,
        (d :: rest).dropWhile Char.isDigit⟩
    else ⟨.number, whole, '.' :: d :: rest⟩
  | rest => ⟨.number, whole, rest⟩

def string (afterQuote : List Char) : Piece :=
  let inside := afterQuote.takeWhile (· ≠ '"')
  match afterQuote.dropWhile (· ≠ '"') with
  | [] => ⟨.fault .unterminatedString, '"' :: afterQuote, []⟩
  | quote :: rest => ⟨.string, '"' :: (inside ++ [quote]), rest⟩

def ofFront (c : Char) (cs : List Char) : Piece :=
  if isNameStart c then name (c :: cs)
  else if c.isDigit then number (c :: cs)
  else match c with
    | '(' => mark .leftParen [c] cs
    | ')' => mark .rightParen [c] cs
    | '{' => mark .leftBrace [c] cs
    | '}' => mark .rightBrace [c] cs
    | ',' => mark .comma [c] cs
    | '.' => mark .dot [c] cs
    | '-' => mark .minus [c] cs
    | '+' => mark .plus [c] cs
    | ';' => mark .semicolon [c] cs
    | '/' => mark .slash [c] cs
    | '*' => mark .star [c] cs
    | '%' => mark .percent [c] cs
    | '!' => markOrEqual .bang .bangEqual c cs
    | '=' => markOrEqual .equal .equalEqual c cs
    | '<' => markOrEqual .less .lessEqual c cs
    | '>' => markOrEqual .greater .greaterEqual c cs
    | '"' => string cs
    | _ => ⟨.fault (.unexpected c), [c], cs⟩

end Piece

/-- A place in a source text: what is left to read, and the line it is on, counted from 1. -/
structure Scanner where
  rest : List Char
  line : Nat
  deriving DecidableEq

namespace Scanner

def start (source : List Char) : Scanner := ⟨source, 1⟩

/-- Drops blanks and comments at the front. A comment runs from two slashes to before the next line
feed, and `inComment` says that one is open. -/
def skipFrom (inComment : Bool) (line : Nat) : List Char → Scanner
  | [] => ⟨[], line⟩
  | c :: cs =>
    if c = '\n' then skipFrom false (line + 1) cs
    else if inComment || c = ' ' || c = '\r' || c = '\t' then skipFrom inComment line cs
    else if c = '/' ∧ cs.head? = some '/' then skipFrom true line cs
    else ⟨c :: cs, line⟩

def skip (s : Scanner) : Scanner := skipFrom false s.line s.rest

def next (s : Scanner) : Token × Scanner :=
  let s := s.skip
  match s.rest with
  | [] => (.ending s.line, s)
  | c :: cs =>
    let piece := Piece.ofFront c cs
    let line := s.line + piece.text.count '\n'
    (⟨piece.kind, String.ofList piece.text, line⟩, ⟨piece.rest, line⟩)

end Scanner

structure Script where
  tokens : List Token
  endLine : Nat
  deriving DecidableEq

namespace Script

/-- Collects tokens until the end, the latest first in `seen`. Every token takes at least one
character, so a budget of one step a character is enough. -/
def collect : Nat → Scanner → List Token → Script
  | 0, s, seen => ⟨seen.reverse, s.line⟩
  | budget + 1, s, seen =>
    match s.next with
    | (t, s) => if t.kind = .endOfInput then ⟨seen.reverse, t.line⟩ else collect budget s (t :: seen)

def ofChars (source : List Char) : Script := collect source.length (.start source) []

def ofString (source : String) : Script := ofChars source.toList

def ending (script : Script) : Token := .ending script.endLine

def stream (script : Script) : List Token := script.tokens ++ [script.ending]

def withoutFaults (script : Script) : Script :=
  { script with tokens := script.tokens.filter fun t => !t.isFault }

end Script
end StackCalc
