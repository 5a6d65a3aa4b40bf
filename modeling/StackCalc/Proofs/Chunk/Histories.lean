import StackCalc.Proofs.Chunk.Appending
import StackCalc.Proofs.Expression.Acts

/-! The histories of chunks. A chunk starts empty, as compiled code or as an image that was read.
Then something is put behind it, again and again. Compiling has no other way to make code: each of
its steps puts something behind the chunk that there is, or leaves it alone. -/
namespace StackCalc

namespace Progress

def constantAppends (p : Progress) (line : Nat) (value : Number) : List Chunk.Append :=
  let index := p.chunk.constants.size
  if index < 256 then [.constant value, .op .constant line, .byte (UInt8.ofNat index) line]
  else if index < 65536 then
    [.constant value, .op .constantLong line, .word (UInt16.ofNat index) line]
  else [.constant value]

def literalAppends (p : Progress) (t : Token) : List Chunk.Append :=
  match Number.ofLiteral? t.lexeme.toList with
  | some value => p.constantAppends t.line value
  | none => []

theorem emitConstant_chunk (p : Progress) (t : Token) (value : Number) :
    (p.emitConstant t value).chunk = p.chunk.after (p.constantAppends t.line value) := by
  simp only [emitConstant, emitLoad, constantAppends]
  split
  · split
    · rfl
    · rfl
  · rename_i full
    rw [if_neg (by omega)]
    rfl

theorem emitLiteral_chunk (p : Progress) (t : Token) :
    (p.emitLiteral t).chunk = p.chunk.after (p.literalAppends t) := by
  unfold emitLiteral literalAppends
  cases Number.ofLiteral? t.lexeme.toList with
  | some value => exact p.emitConstant_chunk t value
  | none => rfl

theorem consume_chunk (p : Progress) (kind : Kind) (complaint : Complaint) :
    (p.consume kind complaint).chunk = p.chunk := by
  unfold consume
  split
  · rfl
  · rfl

end Progress

def Act.appends (p : Progress) : Act → List Chunk.Append
  | .literal t => p.literalAppends t
  | .emit op line => [.op op line]
  | .finish => [.op .ret (p.consume .endOfInput .endExpected).lookahead.line]
  | _ => []

theorem Act.perform_chunk (p : Progress) (act : Act) :
    (act.perform p).chunk = p.chunk.after (act.appends p) := by
  cases act with
  | literal t => exact p.emitLiteral_chunk t
  | close => exact p.consume_chunk _ _
  | finish =>
    let line := (p.consume .endOfInput .endExpected).lookahead.line
    exact congrArg (Chunk.writeOp · .ret line) (p.consume_chunk .endOfInput .endExpected)
  | _ => rfl

namespace Parser

def appends (s : Parser) : List Chunk.Append := s.act.appends s.progress

theorem Runs.chunk {s last : Parser} {passed : List Parser} (run : Runs s passed last) :
    last.progress.chunk = s.progress.chunk.after (passed.flatMap Parser.appends) := by
  induction run with
  | here => rfl
  | @step s s' _ _ on _ ih =>
    have first : s'.progress.chunk = s.progress.chunk.after s.appends := by
      rw [step_act on, Act.perform_chunk, appends]
    simp [ih, first]

end Parser

theorem compile_appends {source : String} {c : Chunk} (compiled : compile source = .ok c) :
    ∃ passed last, Parser.Runs (.start (.ofString source)) passed last ∧
      last.step = .ended last.progress ∧ c = Chunk.empty.after (passed.flatMap Parser.appends) := by
  obtain ⟨passed, previous, run⟩ := Parser.reaches_whole (.ofString source)
  refine ⟨passed, _, run, rfl, ?_⟩
  have made : c = (Progress.start (.ofString source)).whole.chunk := by
    simp only [compile, Compilation.outcome] at compiled
    split at compiled
    · cases compiled
      rfl
    · cases compiled
  rw [made]
  exact run.chunk

inductive Origin where
  | empty
  | source (text : String)
  | image (bytes : List UInt8)

namespace Origin

def chunk? : Origin → Option Chunk
  | .empty => some .empty
  | .source text => (compile text).toOption
  | .image bytes => (Image.decode bytes).toOption

/-- The columns in which a history starts: as the steps of compiling leave them, or as they are read
off an image. -/
def Lays : Origin → Columns → Prop
  | .empty, s => s = .empty
  | .source text, s => ∃ passed last, Parser.Runs (.start (.ofString text)) passed last ∧
    last.step = .ended last.progress ∧ s = Columns.empty.after (passed.flatMap Parser.appends)
  | .image bytes, s => Columns.decode bytes = .ok s

theorem lays {origin : Origin} {start : Chunk} (starts : origin.chunk? = some start) :
    ∃ s, origin.Lays s ∧ s.chunk = start ∧ s.Paired := by
  cases origin with
  | empty =>
    cases starts
    exact ⟨.empty, rfl, rfl, rfl⟩
  | source text =>
    cases compiled : compile text with
    | error d => simp [chunk?, compiled, Except.toOption] at starts
    | ok c =>
      obtain rfl : c = start := by simpa [chunk?, compiled, Except.toOption] using starts
      obtain ⟨passed, last, run, ended, made⟩ := compile_appends compiled
      have columns : c.columns = Columns.empty.after (passed.flatMap Parser.appends) := by
        rw [made, Columns.columns_after]
        rfl
      exact ⟨c.columns, ⟨passed, last, run, ended, columns⟩, Columns.chunk_columns c,
        Columns.columns_paired c⟩
  | image bytes =>
    cases decoded : Columns.decode bytes with
    | error e => simp [chunk?, Columns.decode_chunk, decoded, Except.toOption] at starts
    | ok s =>
      refine ⟨s, decoded, ?_, Columns.decode_paired decoded⟩
      simpa [chunk?, Columns.decode_chunk, decoded, Except.toOption] using starts

end Origin

theorem Chunk.append_only (origin : Origin) {start : Chunk} (starts : origin.chunk? = some start)
    (earlier later : List Append) :
    let c := start.after earlier
    (∃ s, origin.Lays s ∧ s.chunk = start ∧ s.after earlier = c.columns ∧
      (s.after earlier).Paired) ∧
    c.Bounded ∧ c.Stays (c.after later) ∧
    (∀ a, c.Found ((c.append a).2.after later) a) ∧
    c.indices later = List.range' c.constants.size (later.countP Append.isConstant) := by
  intro c
  refine ⟨?_, c.bounded, (Grows.after c later).stays, fun a => ?_, c.indices_range later⟩
  · obtain ⟨s, lays, rfl, paired⟩ := Origin.lays starts
    have columns : s.after earlier = c.columns := by
      simp [c, paired]
    exact ⟨s, lays, rfl, columns, columns ▸ Columns.columns_paired c⟩
  · exact Grows.found a (.after _ later)

theorem Chunk.append_only_word : ∃ start,
    (Origin.image [0x41, 0x54, 0x4D, 0x43, 1, 0, 0, 0, 1, 0, 0, 0, 0, 7, 0, 0, 0, 0]).chunk? =
      some start ∧
    let c := start.after [.constant ⟨5⟩]
    let d := c.after [.word 258 3, .constant ⟨6⟩]
    c.indices [.word 258 3, .constant ⟨6⟩] = [1] ∧ d.line? 0 = some 7 ∧
    d.readWord? 1 = some 258 ∧ d.read? 1 = some 1 ∧ d.read? 2 = some 2 ∧ d.line? 2 = some 3 := by
  have starts : (Origin.image [0x41, 0x54, 0x4D, 0x43, 1, 0, 0, 0, 1, 0, 0, 0, 0, 7, 0, 0, 0,
      0]).chunk? = some ⟨#[⟨0, 7⟩], #[]⟩ := by decide
  have ⟨_, _, stays, _, indices⟩ :=
    append_only _ starts [.constant ⟨5⟩] [.word 258 3, .constant ⟨6⟩]
  have ⟨_, _, _, found, _⟩ := append_only _ starts [.constant ⟨5⟩] [.constant ⟨6⟩]
  have ⟨word, high, low, _, line⟩ := found (.word 258 3)
  exact ⟨_, starts, indices, stays.line (by decide), word, high, low, line⟩

end StackCalc
