import StackCalc.Token.Basic

namespace StackCalc

inductive Complaint where
  | lexical (cause : Fault)
  | expressionExpected
  | nestedTooDeeply
  | closingExpected
  | endExpected
  /-- A number token that is no literal. No script holds one. -/
  | malformedNumber (lexeme : String)
  | tooManyConstants
  deriving DecidableEq

inductive Category where
  | lexical
  | grammar
  | literal
  | capacity
  deriving DecidableEq

namespace Complaint

def category : Complaint → Category
  | .lexical _ => .lexical
  | .malformedNumber _ => .literal
  | .tooManyConstants => .capacity
  | _ => .grammar

def detail : Complaint → String
  | .lexical cause => cause.message
  | .expressionExpected => "expect expression"
  | .nestedTooDeeply => "expression nested too deeply"
  | .closingExpected => "expected ')' after expression"
  | .endExpected => "expect end of expression"
  | .malformedNumber lexeme =>
    "failed to parse number '" ++ lexeme ++ "': invalid float literal"
  | .tooManyConstants => "too many constants in one chunk"

end Complaint

/-- The token a diagnostic points to. A fault is not pointed to: its message says enough. -/
inductive Place where
  | token (lexeme : String)
  | ending
  | unspecified
  deriving DecidableEq

namespace Place

def ofToken (t : Token) : Place :=
  match t.kind with
  | .endOfInput => .ending
  | .fault _ => .unspecified
  | _ => .token t.lexeme

def display : Place → String
  | .token lexeme => " at '" ++ lexeme ++ "'"
  | .ending => " at end"
  | .unspecified => ""

end Place

structure Diagnostic where
  complaint : Complaint
  line : Nat
  place : Place
  deriving DecidableEq

namespace Diagnostic

def about (t : Token) (complaint : Complaint) : Diagnostic := ⟨complaint, t.line, .ofToken t⟩

def message (d : Diagnostic) : String :=
  "[line " ++ toString d.line ++ "] error" ++ d.place.display ++ ": " ++ d.complaint.detail

end Diagnostic
end StackCalc
