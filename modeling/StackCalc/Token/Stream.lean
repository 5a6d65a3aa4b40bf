import StackCalc.Token.Scan

/-! One stream of tokens with two ways to pull from it. `token` answers for ever, with the ending
once the text is used up. `next?` is over after it has itself given the ending once. -/
namespace StackCalc

structure Stream where
  scanner : Scanner
  finished : Bool

namespace Stream

def ofString (source : String) : Stream := ⟨.start source.toList, false⟩

def token (s : Stream) : Token × Stream :=
  match s.scanner.next with
  | (t, scanner) => (t, { s with scanner })

def next? (s : Stream) : Option Token × Stream :=
  if s.finished then (none, s)
  else match s.token with
    | (t, s) => (some t, { s with finished := t.kind = .endOfInput })

inductive Pull where
  | token
  | next

def pull (s : Stream) : Pull → Option Token × Stream
  | .token => match s.token with
    | (t, s) => (some t, s)
  | .next => s.next?

def pulls : Stream → List Pull → List (Option Token)
  | _, [] => []
  | s, p :: rest => match s.pull p with
    | (answer, s) => answer :: pulls s rest

end Stream
end StackCalc
