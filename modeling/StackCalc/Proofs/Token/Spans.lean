import StackCalc.Proofs.Token.Cursor
import StackCalc.Proofs.Token.Pulls

namespace StackCalc

structure Span where
  token : Token
  start : Nat
  stop : Nat

/-- The spans of so many calls. There are none if a call takes out a text between offsets that are
not both between characters. -/
def Cursor.calls : Nat → Cursor → Option (List Span)
  | 0, _ => some []
  | n + 1, c =>
    match c.token with
    | none => none
    | some (t, c) => (calls n c).map (⟨t, c.start, c.current⟩ :: ·)

structure Token.Spells (t : Token) (text behind : List Char) : Prop where
  shown : t.isFault = false → t.shown = String.ofList text
  inside : t.kind ≠ .endOfInput → text ≠ []
  ending : t.kind = .endOfInput → text = [] ∧ behind = []
  string : t.kind = .string → ∃ inside, '"' ∉ inside ∧ text = '"' :: (inside ++ ['"'])
  unexpected : ∀ c, t.kind = .fault (.unexpected c) → text = [c]
  unterminated : t.kind = .fault .unterminatedString → text.head? = some '"' ∧ behind = []

structure Reading where
  trivia : List Char
  text : List Char
  span : Span

namespace Reading

def chars (r : Reading) : List Char := r.trivia ++ r.text

structure Fits (r : Reading) (before behind : List Char) : Prop where
  trivia : Trivia (r.text ++ behind) r.trivia
  start : r.span.start = (Text.utf8 (before ++ r.trivia)).length
  stop : r.span.stop = (Text.utf8 (before ++ r.chars)).length
  token : r.span.token.Spells r.text behind
  line : r.span.token.line = 1 + (before ++ r.chars).count '\n'

structure Sequence (before text : List Char) (readings : List Reading) (rest : List Char) :
    Prop where
  whole : text = readings.flatMap chars ++ rest
  fits : ∀ front r back, readings = front ++ r :: back →
    r.Fits (before ++ front.flatMap chars) (back.flatMap chars ++ rest)

end Reading

theorem Token.Spells.of_lexeme {kind : Kind} {text : List Char} (lexeme : Lexeme kind text)
    (line : Nat) (behind : List Char) : Spells ⟨kind, String.ofList text, line⟩ text behind where
  shown _ := Lexeme.shown (t := ⟨kind, String.ofList text, line⟩) lexeme
  inside _ := lexeme.not_nil
  ending ended := by subst ended; cases lexeme
  string string := by
    subst string
    cases lexeme with
    | string closed => exact ⟨_, closed, rfl⟩
  unexpected c fault := by subst fault; cases lexeme
  unterminated fault := by subst fault; cases lexeme

theorem Scanner.piece_spells (s : Scanner) : s.next.1.Spells s.piece.text s.piece.rest := by
  rw [next_piece]
  unfold piece
  split
  · exact ⟨fun _ => rfl, (absurd rfl ·), fun _ => ⟨rfl, rfl⟩, nofun, nofun, nofun⟩
  · rename_i c cs _
    rcases Piece.ofFront_longest c cs with munches | faults
    · exact .of_lexeme munches.longest.lexeme _ _
    · generalize Piece.ofFront c cs = piece at faults
      cases faults with
      | unterminated quote =>
        exact ⟨nofun, fun _ => by simp [quote], nofun, nofun, nofun, fun _ => by simp [quote]⟩
      | unexpected =>
        refine ⟨nofun, fun _ => by simp, nofun, nofun, ?_, nofun⟩
        rintro d ⟨rfl⟩
        rfl

variable {c : Cursor} {s : Scanner} {before text rest : List Char}

theorem Cursor.token_fits (stands : c.Stands before s.rest) (line : c.line = s.line)
    (counted : s.line = 1 + before.count '\n') : ∃ trivia c', c.token = some (s.next.1, c') ∧
      s.rest = trivia ++ s.piece.text ++ s.next.2.rest ∧
      c'.Stands (before ++ (trivia ++ s.piece.text)) s.next.2.rest ∧ c'.line = s.next.2.line ∧
      s.next.2.line = 1 + (before ++ (trivia ++ s.piece.text)).count '\n' ∧
      Reading.Fits ⟨trivia, s.piece.text, ⟨s.next.1, c'.start, c'.current⟩⟩ before
        s.next.2.rest := by
  obtain ⟨trivia, split, c', token, read, down⟩ := token_cuts stands line
  obtain ⟨skipped, split', run, feeds⟩ := s.skip_split
  obtain rfl : trivia = skipped := List.append_cancel_right (split.symm.trans split')
  have spells := s.piece_spells
  have parts := s.piece_split
  have stands := read.stands
  have counts : s.skip.line + s.piece.text.count '\n' =
      1 + (before ++ (trivia ++ s.piece.text)).count '\n' := by
    rw [List.count_append, List.count_append, feeds, counted]
    omega
  rw [List.append_assoc] at stands
  rw [s.next_piece] at spells ⊢
  refine ⟨trivia, c', ?_, ?_, stands, down, counts, ?_, read.start, stands.current, spells, counts⟩
  · rw [token, down]
  · rw [List.append_assoc, parts, split]
  · rw [parts]
    exact run

variable {r : Reading} {readings : List Reading}

namespace Reading.Sequence

theorem nil (before rest : List Char) : Sequence before rest [] rest where
  whole := rfl
  fits front r back split := by simp at split

theorem cons (fits : r.Fits before (readings.flatMap chars ++ rest))
    (sequence : Sequence (before ++ r.chars) text readings rest) :
    Sequence before (r.chars ++ text) (r :: readings) rest where
  whole := by rw [sequence.whole, List.flatMap_cons, List.append_assoc]
  fits front r' back split := by
    cases front with
    | nil =>
      cases split
      simpa using fits
    | cons first front =>
      obtain ⟨rfl, tail⟩ := List.cons.inj split
      have fits := sequence.fits front r' back tail
      rwa [List.append_assoc, ← List.flatMap_cons] at fits

theorem ordered (sequence : Sequence before text readings rest) :
    readings.Pairwise fun a b => a.span.stop ≤ b.span.start := by
  induction readings generalizing before text with
  | nil => exact .nil
  | cons r readings ih =>
    have first := sequence.fits [] r readings rfl
    rw [List.pairwise_cons]
    constructor
    · intro later member
      obtain ⟨between, back, rfl⟩ := List.append_of_mem member
      have fits := sequence.fits (r :: between) later back rfl
      have stop := first.stop
      simp [fits.start, stop]
    · have others : Sequence (before ++ r.chars) (readings.flatMap chars ++ rest) readings
          rest := by
        refine ⟨rfl, ?_⟩
        intro front later back split
        have fits := sequence.fits (r :: front) later back (congrArg (r :: ·) split)
        rwa [List.flatMap_cons, ← List.append_assoc] at fits
      exact ih others

end Reading.Sequence

namespace Reading.Fits

variable {behind : List Char}

theorem boundaries (fits : r.Fits before behind) :
    Text.isBoundary (Text.utf8 (before ++ r.chars ++ behind)) r.span.start ∧
      Text.isBoundary (Text.utf8 (before ++ r.chars ++ behind)) r.span.stop := by
  rw [fits.start, fits.stop]
  constructor
  · have parts : before ++ r.chars ++ behind = before ++ r.trivia ++ (r.text ++ behind) := by
      simp [chars]
    rw [parts]
    exact Text.boundary_between _ _
  · exact Text.boundary_between _ _

theorem start_le_stop (fits : r.Fits before behind) : r.span.start ≤ r.span.stop := by
  simp [fits.start, fits.stop, chars]

theorem stop_le (fits : r.Fits before behind) :
    r.span.stop ≤ (Text.utf8 (before ++ r.chars ++ behind)).length := by
  simp [fits.stop]

theorem line_feeds (fits : r.Fits before behind) : r.span.token.line =
    1 + ((Text.utf8 (before ++ r.chars ++ behind)).take r.span.stop).count 10 := by
  have feeds := Text.count_utf8 (c := '\n') (by decide) (before ++ r.chars)
  rw [Text.utf8_append _ behind, fits.stop, List.take_left, fits.line]
  exact congrArg (1 + ·) feeds.symm

theorem line_quote (fits : r.Fits before behind) (string : r.span.token.kind = .string) :
    ∃ quote, r.span.stop = quote + 1 ∧
      (Text.utf8 (before ++ r.chars ++ behind))[quote]? = some 34 ∧
      r.span.token.line = 1 + ((Text.utf8 (before ++ r.chars ++ behind)).take quote).count 10 := by
  obtain ⟨inside, -, text⟩ := fits.token.string string
  have chars : before ++ r.chars = before ++ (r.trivia ++ '"' :: inside) ++ ['"'] := by
    simp [Reading.chars, text]
  have bytes : Text.utf8 (before ++ r.chars) =
      Text.utf8 (before ++ (r.trivia ++ '"' :: inside)) ++ [34] := by
    rw [chars, Text.utf8_append]
    rfl
  have line := fits.line_feeds
  rw [fits.stop, Text.utf8_append _ behind, List.take_left, bytes] at line
  refine ⟨(Text.utf8 (before ++ (r.trivia ++ '"' :: inside))).length, ?_, ?_, ?_⟩
  · rw [fits.stop, bytes, List.length_append, List.length_singleton]
  · rw [Text.utf8_append _ behind, bytes, List.append_assoc, List.singleton_append]
    simp
  · rw [Text.utf8_append _ behind, bytes, List.append_assoc, List.take_left, line]
    simp

end Reading.Fits

theorem Reading.Sequence.placed (sequence : Sequence [] text readings rest)
    {front back : List Reading} (split : readings = front ++ r :: back) : ∃ before behind,
      before = front.flatMap chars ∧ behind = back.flatMap chars ++ rest ∧
      text = before ++ r.chars ++ behind ∧ r.Fits before behind := by
  have fits := sequence.fits front r back split
  refine ⟨_, _, rfl, rfl, ?_, fits⟩
  rw [sequence.whole, split]
  simp

theorem Cursor.calls_sequence (finished : Bool) (n : Nat) (stands : c.Stands before s.rest)
    (line : c.line = s.line) (counted : s.line = 1 + before.count '\n') :
    ∃ readings rest, c.calls n = some (readings.map Reading.span) ∧
      Stream.pulls ⟨s, finished⟩ (List.replicate n .token) =
        readings.map (fun r => some r.span.token) ∧
      Reading.Sequence before s.rest readings rest ∧ (s.rest.length < n → rest = []) := by
  induction n generalizing c s before with
  | zero => exact ⟨[], s.rest, rfl, rfl, .nil before s.rest, nofun⟩
  | succ n ih =>
    obtain ⟨trivia, c', token, split, stands', line', counted', fits⟩ :=
      token_fits stands line counted
    obtain ⟨readings, rest, calls, pulls, sequence, finishes⟩ := ih stands' line' counted'
    refine ⟨⟨trivia, s.piece.text, ⟨s.next.1, c'.start, c'.current⟩⟩ :: readings, rest, ?_, ?_, ?_,
      ?_⟩
    · simp only [Cursor.calls, token, calls, Option.map_some, List.map_cons]
    · simp [List.replicate_succ, pulls]
    · rw [split]
      rw [sequence.whole] at fits
      exact .cons fits sequence
    · -- Nothing is left behind the ending, and before it each call takes at least a character.
      intro enough
      by_cases ended : s.next.1.kind = .endOfInput
      · have nothing : s.next.2.rest = [] := by
          rw [s.next_piece]
          exact (s.piece_spells.ending ended).2
        exact (List.append_eq_nil_iff.mp (sequence.whole.symm.trans nothing)).2
      · have shorter := Scanner.next_shorter ended
        apply finishes
        omega

theorem Cursor.ofString_calls (source : String) (n : Nat) : ∃ readings rest,
    (ofString source).calls n = some (readings.map Reading.span) ∧
    (Stream.ofString source).pulls (List.replicate n .token) =
      readings.map (fun r => some r.span.token) ∧
    Reading.Sequence [] source.toList readings rest ∧
    (source.toList.length < n → rest = []) := by
  have stands : (ofString source).Stands [] source.toList := ⟨Text.toByteArray_utf8 source, rfl⟩
  exact calls_sequence (s := .start source.toList) false n stands rfl rfl

/-- Successive calls take a text apart without loss and in order, and never slice it inside a
character. -/
theorem Cursor.calls_spell_source (source : String) (n : Nat) : ∃ readings rest,
    (Cursor.ofString source).calls n = some (readings.map Reading.span) ∧
    (Stream.ofString source).pulls (List.replicate n .token) =
      readings.map (fun r => some r.span.token) ∧
    source.toList = readings.flatMap Reading.chars ++ rest ∧
    (source.utf8ByteSize < n → rest = []) ∧
    (readings.Pairwise fun a b => a.span.stop ≤ b.span.start) ∧
    ∀ front r back, readings = front ++ r :: back →
      r.Fits (front.flatMap Reading.chars) (back.flatMap Reading.chars ++ rest) ∧
      r.span.start ≤ r.span.stop ∧ r.span.stop ≤ source.utf8ByteSize ∧
      Text.isBoundary (Text.utf8 source.toList) r.span.start ∧
      Text.isBoundary (Text.utf8 source.toList) r.span.stop := by
  obtain ⟨readings, rest, calls, pulls, sequence, finishes⟩ := ofString_calls source n
  refine ⟨readings, rest, calls, pulls, sequence.whole, ?_, sequence.ordered, ?_⟩
  · intro enough
    have bytes := Text.length_le_utf8 source.toList
    rw [Text.length_utf8] at bytes
    exact finishes (Nat.lt_of_le_of_lt bytes enough)
  · intro front r back split
    obtain ⟨before, behind, rfl, rfl, whole, fits⟩ := sequence.placed split
    rw [← Text.length_utf8, whole]
    exact ⟨fits, fits.start_le_stop, fits.stop_le, fits.boundaries⟩

/-- A string is on the line of its closing quote, and what ends the text on the last line. -/
theorem Cursor.calls_count_feeds (source : String) (n : Nat) : ∃ spans,
    (Cursor.ofString source).calls n = some spans ∧
    (Stream.ofString source).pulls (List.replicate n .token) =
      spans.map (fun span => some span.token) ∧
    (spans.Pairwise fun a b => a.token.line ≤ b.token.line) ∧
    ∀ span ∈ spans,
      span.token.line = 1 + ((Text.utf8 source.toList).take span.stop).count 10 ∧
      (span.token.kind = .string → ∃ quote, span.stop = quote + 1 ∧
        (Text.utf8 source.toList)[quote]? = some 34 ∧
        span.token.line = 1 + ((Text.utf8 source.toList).take quote).count 10) ∧
      (span.token.kind = .endOfInput ∨ span.token.kind = .fault .unterminatedString →
        span.token.line = 1 + (Text.utf8 source.toList).count 10) := by
  obtain ⟨readings, rest, calls, pulls, sequence, -⟩ := ofString_calls source n
  have lines : ∀ r ∈ readings, r.span.start ≤ r.span.stop ∧
      r.span.token.line = 1 + ((Text.utf8 source.toList).take r.span.stop).count 10 := by
    intro r member
    obtain ⟨front, back, split⟩ := List.append_of_mem member
    obtain ⟨before, behind, -, -, whole, fits⟩ := sequence.placed split
    rw [whole]
    exact ⟨fits.start_le_stop, fits.line_feeds⟩
  refine ⟨readings.map Reading.span, calls, ?_, ?_, ?_⟩
  · rw [List.map_map]
    exact pulls
  · rw [List.pairwise_map]
    refine sequence.ordered.imp_of_mem ?_
    intro a b a_in b_in apart
    obtain ⟨-, line⟩ := lines a a_in
    obtain ⟨within, line'⟩ := lines b b_in
    rw [line, line']
    have further := List.take_prefix_take_left (l := Text.utf8 source.toList)
      (Nat.le_trans apart within)
    have more := further.sublist.count_le (10 : UInt8)
    omega
  · rw [List.forall_mem_map]
    intro r member
    obtain ⟨front, back, split⟩ := List.append_of_mem member
    obtain ⟨before, behind, -, -, whole, fits⟩ := sequence.placed split
    refine ⟨(lines r member).2, ?_, ?_⟩
    · rw [whole]
      exact fits.line_quote
    · intro last
      have nothing : behind = [] := by
        rcases last with ended | opened
        · exact (fits.token.ending ended).2
        · exact (fits.token.unterminated opened).2
      have line := fits.line_feeds
      rw [nothing, List.append_nil] at line whole
      rw [fits.stop, List.take_length, ← whole] at line
      exact line

end StackCalc
