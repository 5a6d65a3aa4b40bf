import StackCalc.Proofs.Expression.Reports

/-! Lines go through the compiler unread. It decides by kinds, by lexemes and by how much there is
already, and a line that it writes is the line of a token. So other lines on the tokens are other
lines in the code and in the reports, and change nothing else. -/
namespace StackCalc

def Token.relabel (f : Nat → Nat) (t : Token) : Token := { t with line := f t.line }

def CodeByte.relabel (f : Nat → Nat) (b : CodeByte) : CodeByte := { b with line := f b.line }

def Chunk.relabel (f : Nat → Nat) (c : Chunk) : Chunk :=
  { c with code := c.code.map (CodeByte.relabel f) }

def Diagnostic.relabel (f : Nat → Nat) (d : Diagnostic) : Diagnostic := { d with line := f d.line }

def Script.relabel (f : Nat → Nat) (script : Script) : Script :=
  ⟨script.tokens.map (Token.relabel f), f script.endLine⟩

def Progress.relabel (f : Nat → Nat) (p : Progress) : Progress where
  left := p.left.map (Token.relabel f)
  endLine := f p.endLine
  chunk := p.chunk.relabel f
  reports := p.reports.map (Diagnostic.relabel f)

def Compilation.relabel (f : Nat → Nat) (c : Compilation) : Compilation :=
  ⟨c.chunk.relabel f, c.reports.map (Diagnostic.relabel f)⟩

variable (f : Nat → Nat)

@[simp] theorem Token.kind_relabel (t : Token) : (t.relabel f).kind = t.kind := rfl

@[simp] theorem Token.lexeme_relabel (t : Token) : (t.relabel f).lexeme = t.lexeme := rfl

@[simp] theorem Token.line_relabel (t : Token) : (t.relabel f).line = f t.line := rfl

@[simp] theorem Token.ending_relabel (line : Nat) :
    (Token.ending line).relabel f = .ending (f line) := rfl

@[simp] theorem Chunk.write_relabel (c : Chunk) (byte : UInt8) (line : Nat) :
    (c.relabel f).write byte (f line) = (c.write byte line).relabel f := by
  simp [write, relabel, CodeByte.relabel]

@[simp] theorem Diagnostic.about_relabel (t : Token) (complaint : Complaint) :
    .about (t.relabel f) complaint = (Diagnostic.about t complaint).relabel f := rfl

namespace Progress

@[simp] theorem chunk_relabel (p : Progress) : (p.relabel f).chunk = p.chunk.relabel f := rfl

@[simp] theorem reports_relabel (p : Progress) :
    (p.relabel f).reports = p.reports.map (Diagnostic.relabel f) := rfl

@[simp] theorem lookahead_relabel (p : Progress) :
    (p.relabel f).lookahead = p.lookahead.relabel f := by
  cases left : p.left with
  | nil => simp [lookahead, relabel, left]
  | cons t rest => simp [lookahead, relabel, left]

@[simp] theorem report_relabel (p : Progress) (t : Token) (complaint : Complaint) :
    (p.relabel f).report (t.relabel f) complaint = (p.report t complaint).relabel f := by
  simp [report, relabel]

@[simp] theorem passFaults_relabel (left : List Token) (reports : Array Diagnostic) :
    passFaults (left.map (Token.relabel f)) (reports.map (Diagnostic.relabel f)) =
      ((passFaults left reports).1.map (Token.relabel f),
        (passFaults left reports).2.map (Diagnostic.relabel f)) := by
  fun_induction passFaults left reports with
  | case1 => rfl
  | case2 t left reports cause fault ih =>
    have same : (t.relabel f).kind = .fault cause := fault
    rw [List.map_cons, passFaults, same, ← ih, Array.map_push]
    rfl
  | case3 t left reports no_fault =>
    rw [List.map_cons, passFaults]
    split
    · rename_i cause fault
      exact absurd fault (no_fault cause)
    · rfl

@[simp] theorem settle_relabel (p : Progress) : (p.relabel f).settle = p.settle.relabel f := by
  simp [settle, relabel]

@[simp] theorem advance_relabel (p : Progress) : (p.relabel f).advance = p.advance.relabel f := by
  simp only [advance, ← settle_relabel]
  simp [relabel]

@[simp] theorem consume_relabel (p : Progress) (kind : Kind) (complaint : Complaint) :
    (p.relabel f).consume kind complaint = (p.consume kind complaint).relabel f := by
  simp only [consume, lookahead_relabel, Token.kind_relabel]
  split <;> simp

@[simp] theorem emit_relabel (p : Progress) (op : Opcode) (line : Nat) :
    (p.relabel f).emit op (f line) = (p.emit op line).relabel f := by
  simp [emit, relabel, Chunk.writeOp]

@[simp] theorem emitLoad_relabel (p : Progress) (index line : Nat) :
    (p.relabel f).emitLoad index (f line) = (p.emitLoad index line).relabel f := by
  simp only [emitLoad]
  split <;> simp [relabel, Chunk.writeOp, Chunk.writeWord]

@[simp] theorem emitConstant_relabel (p : Progress) (t : Token) (value : Number) :
    (p.relabel f).emitConstant (t.relabel f) value = (p.emitConstant t value).relabel f := by
  have added : { p.relabel f with chunk := ((p.relabel f).chunk.addConstant value).2 } =
      relabel f { p with chunk := (p.chunk.addConstant value).2 } := rfl
  have same : (p.relabel f).chunk.constants = p.chunk.constants := rfl
  simp only [emitConstant, added, same]
  split <;> simp

@[simp] theorem emitLiteral_relabel (p : Progress) (t : Token) :
    (p.relabel f).emitLiteral (t.relabel f) = (p.emitLiteral t).relabel f := by
  simp only [emitLiteral, Token.lexeme_relabel]
  split <;> simp

@[simp] theorem nested_relabel {inner : Progress → Progress}
    (inner_relabel : ∀ p, inner (p.relabel f) = (inner p).relabel f) (depth : Nat) (t : Token)
    (p : Progress) :
    nested inner depth (t.relabel f) (p.relabel f) = (nested inner depth t p).relabel f := by
  unfold nested
  split <;> simp [inner_relabel]

@[simp] theorem operator_relabel (p : Progress) (level : Level) :
    (p.relabel f).operator? level = p.operator? level := by
  simp [operator?]

@[simp] theorem climb_relabel {right : Level → Progress → Progress}
    (right_relabel : ∀ level p, right level (p.relabel f) = (right level p).relabel f)
    (level : Level) (rounds : List Token) (p : Progress) :
    climb right level (rounds.map (Token.relabel f)) (p.relabel f) =
      (climb right level rounds p).relabel f := by
  induction rounds generalizing p with
  | nil => rfl
  | cons _ rounds ih =>
    simp only [List.map_cons, climb, operator_relabel]
    split <;> simp [right_relabel, ih]

@[simp] theorem expression_relabel (frames depth : Nat) (level : Level) (p : Progress) :
    expression frames depth level (p.relabel f) = (expression frames depth level p).relabel f := by
  induction frames generalizing depth level p with
  | zero => rfl
  | succ frames ih =>
    have rest (q : Progress) : climb (expression frames depth) level (q.relabel f).left
        (q.relabel f) = (climb (expression frames depth) level q.left q).relabel f :=
      climb_relabel f (ih depth) level q.left q
    simp only [expression, lookahead_relabel, Token.kind_relabel]
    split <;> simp [nested_relabel f (ih _ _), rest]

@[simp] theorem start_relabel (script : Script) :
    start (script.relabel f) = (start script).relabel f := by
  have blank : (⟨(script.relabel f).tokens, (script.relabel f).endLine, .empty, #[]⟩ : Progress) =
      relabel f ⟨script.tokens, script.endLine, .empty, #[]⟩ := by
    simp [relabel, Script.relabel, Chunk.relabel, Chunk.empty]
  simp [start, blank]

@[simp] theorem whole_relabel (p : Progress) : (p.relabel f).whole = p.whole.relabel f := by
  simp [whole]

end Progress

namespace Compilation

@[simp] theorem ofScript_relabel (script : Script) :
    ofScript (script.relabel f) = (ofScript script).relabel f := by
  simp [ofScript, Compilation.relabel]

variable {script : Script} {P : Nat → Prop}

/-- What is true of the lines of all tokens is true of all lines that the compiler writes, since it
has no others. -/
theorem lines_of_script (tokens : ∀ t ∈ script.tokens, P t.line) (ending : P script.endLine) :
    (∀ b ∈ (ofScript script).chunk.code, P b.line) ∧ ∀ d ∈ (ofScript script).reports, P d.line := by
  classical
  -- Lines of which it is not true are moved to the end. The script has none of those.
  let f (line : Nat) : Nat := if P line then line else script.endLine
  have moved (line : Nat) : P (f line) := by
    by_cases holds : P line
    · simp [f, holds]
    · simpa [f, holds] using ending
  have kept {line : Nat} (holds : P line) : f line = line := if_pos holds
  have same : script.relabel f = script := by
    have tokens_kept : script.tokens.map (Token.relabel f) = script.tokens := by
      rw [← List.map_id script.tokens, List.map_map]
      apply List.map_congr_left
      intro t ht
      simp only [Function.comp, id, Token.relabel, kept (tokens t ht)]
    simp [Script.relabel, tokens_kept, kept ending]
  have compiled := ofScript_relabel f script
  rw [same] at compiled
  rw [compiled]
  constructor
  · intro b hb
    obtain ⟨b', -, rfl⟩ := Array.mem_map.mp hb
    exact moved b'.line
  · intro d hd
    obtain ⟨d', -, rfl⟩ := List.mem_map.mp hd
    exact moved d'.line

end Compilation
end StackCalc
