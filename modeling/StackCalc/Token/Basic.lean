/-! Tokens: the pieces a source text is cut into, with the line each one ends on. A piece that
belongs to no class of the language is a token too, a fault, so that cutting never stops early. -/
namespace StackCalc

inductive Punctuation where
  | leftParen | rightParen | leftBrace | rightBrace | comma | dot | minus | plus | semicolon
  | slash | star | percent | bang | bangEqual | equal | equalEqual | greater | greaterEqual
  | less | lessEqual
  deriving DecidableEq

def Punctuation.spelling : Punctuation → String
  | .leftParen => "("
  | .rightParen => ")"
  | .leftBrace => "\x7b"
  | .rightBrace => "\x7d"
  | .comma => ","
  | .dot => "."
  | .minus => "-"
  | .plus => "+"
  | .semicolon => ";"
  | .slash => "/"
  | .star => "*"
  | .percent => "%"
  | .bang => "!"
  | .bangEqual => "!="
  | .equal => "="
  | .equalEqual => "=="
  | .greater => ">"
  | .greaterEqual => ">="
  | .less => "<"
  | .lessEqual => "<="

inductive Keyword where
  | andWord | classWord | elseWord | falseWord | forWord | funWord | ifWord | nilWord | orWord
  | printWord | returnWord | superWord | thisWord | trueWord | varWord | whileWord
  deriving DecidableEq

namespace Keyword

def spelling : Keyword → String
  | .andWord => "and"
  | .classWord => "class"
  | .elseWord => "else"
  | .falseWord => "false"
  | .forWord => "for"
  | .funWord => "fun"
  | .ifWord => "if"
  | .nilWord => "nil"
  | .orWord => "or"
  | .printWord => "print"
  | .returnWord => "return"
  | .superWord => "super"
  | .thisWord => "this"
  | .trueWord => "true"
  | .varWord => "var"
  | .whileWord => "while"

def all : List Keyword :=
  [.andWord, .classWord, .elseWord, .falseWord, .forWord, .funWord, .ifWord, .nilWord, .orWord,
   .printWord, .returnWord, .superWord, .thisWord, .trueWord, .varWord, .whileWord]

def ofString? (name : String) : Option Keyword := all.find? fun word => word.spelling == name

end Keyword

inductive Fault where
  | unterminatedString
  | unexpected (c : Char)
  deriving DecidableEq

def Fault.message : Fault → String
  | .unterminatedString => "unterminated string"
  | .unexpected c => "unexpected character '" ++ c.toString ++ "'"

inductive Kind where
  | punctuation (mark : Punctuation)
  | identifier
  | string
  | number
  | keyword (word : Keyword)
  | fault (cause : Fault)
  | endOfInput
  deriving DecidableEq

namespace Kind

def isKeyword : Kind → Bool
  | .keyword _ => true
  | _ => false

def display : Kind → String
  | .punctuation mark => mark.spelling
  | .identifier => "identifier"
  | .string => "string"
  | .number => "number"
  | .keyword word => word.spelling
  | .fault _ => "error"
  | .endOfInput => "end of input"

end Kind

/-- The lexeme is the piece of the source text that the token covers. The line is the one on which
that piece ends. -/
structure Token where
  kind : Kind
  lexeme : String
  line : Nat
  deriving DecidableEq

def Token.shown (t : Token) : String :=
  match t.kind with
  | .fault cause => cause.message
  | _ => t.lexeme

def Token.isFault (t : Token) : Bool :=
  match t.kind with
  | .fault _ => true
  | _ => false

def Token.ending (line : Nat) : Token := ⟨.endOfInput, "", line⟩

end StackCalc
