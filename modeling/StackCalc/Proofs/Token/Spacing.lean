import StackCalc.Proofs.Expression.Relabel
import StackCalc.Proofs.Token.Sequence

namespace StackCalc

def IsSpace (c : Char) : Prop := c = '\n' ∨ c = ' ' ∨ c = '\r' ∨ c = '\t'

instance (c : Char) : Decidable (IsSpace c) := inferInstanceAs (Decidable (_ ∨ _ ∨ _ ∨ _))

inductive Padding : List Char → Prop where
  | nil : Padding []
  | space {c : Char} {cs : List Char} : IsSpace c → Padding cs → Padding (c :: cs)
  | comment {inside cs : List Char} : '\n' ∉ inside → Padding cs →
      Padding ('/' :: '/' :: (inside ++ '\n' :: cs))

inductive Gap : List Char → Prop where
  | intro {blank : Char} {cs : List Char} : IsSpace blank → Padding cs → Gap (blank :: cs)

theorem Padding.trivia {gap : List Char} (padding : Padding gap) (behind : List Char) :
    Trivia behind gap := by
  induction padding with
  | nil => exact .nil
  | space space _ ih =>
    rcases space with rfl | space
    · exact ih.feed
    · exact ih.space space
  | comment one_line _ ih => exact .comment one_line (by simp) ih.feed

namespace IsSpace

variable {c : Char}

theorem not_namePart (space : IsSpace c) : isNamePart c = false := by
  rcases space with rfl | rfl | rfl | rfl <;> decide

theorem not_digit (space : IsSpace c) : c.isDigit = false := by
  rcases space with rfl | rfl | rfl | rfl <;> decide

end IsSpace

theorem Lexeme.string_of_space {kind : Kind} {text : List Char} (lexeme : Lexeme kind text)
    {c : Char} (space : IsSpace c) (inside : c ∈ text) :
    ∃ body, '"' ∉ body ∧ text = '"' :: (body ++ ['"']) := by
  have no_word {text : List Char} (word : Word text) (inside : c ∈ text) : False := by
    have part := word.parts c inside
    rw [space.not_namePart] at part
    cases part
  have no_numeral {text : List Char} (numeral : Numeral text) (inside : c ∈ text) : False := by
    have no_digit := space.not_digit
    cases numeral with
    | whole _ digits =>
      rw [digits c inside] at no_digit
      cases no_digit
    | pointed _ digits _ places =>
      rcases List.mem_append.mp inside with whole | point | place
      · rw [digits c whole] at no_digit
        cases no_digit
      · exact absurd space (by decide)
      · rename_i place
        rw [places c place] at no_digit
        cases no_digit
  cases lexeme with
  | punctuation mark =>
    have apart : ∀ d ∈ mark.spelling.toList, ¬ IsSpace d := by
      cases mark <;> simp [Punctuation.spelling, IsSpace]
    exact absurd space (apart c inside)
  | identifier word _ => exact (no_word word inside).elim
  | keyword word => exact (no_word word.spelling_word inside).elim
  | number numeral => exact (no_numeral numeral inside).elim
  | @string body closed => exact ⟨body, closed, rfl⟩

namespace Piece

variable {kind : Kind} {c : Char} {cs near far : List Char}

theorem string_whole {front more : List Char} (lexeme : Lexeme kind front)
    {body : List Char} (closed : '"' ∉ body) (longer : front ++ more = '"' :: (body ++ ['"'])) :
    more = [] := by
  have starts : front <+: '"' :: (body ++ ['"']) := ⟨more, longer⟩
  obtain ⟨inside, first, rfl⟩ := lexeme.of_quote starts
  have same : inside ++ '"' :: more = body ++ '"' :: [] := by simpa using longer
  have bodies := congrArg (List.takeWhile (· ≠ '"')) same
  rw [takeWhile_quote first, takeWhile_quote closed] at bodies
  rw [bodies, List.append_cancel_left_eq] at same
  exact (List.cons.inj same).2

theorem Munches.refit {p : Piece} (munches : p.Munches (c :: cs)) (split : p.rest = near ++ far)
    {blank : Char} (space : IsSpace blank) (far' : List Char) :
    Munches ⟨p.kind, p.text, near ++ blank :: far'⟩ (p.text ++ (near ++ blank :: far')) := by
  obtain ⟨lexeme, -, longest⟩ := munches.longest
  have whole : p.text ++ near ++ far = c :: cs := by
    rw [List.append_assoc, ← split, munches.split]
  refine ⟨rfl, lexeme, List.prefix_append _ _, ?_⟩
  intro kind other other_lexeme starts
  rw [← List.append_assoc] at starts
  rcases List.prefix_or_prefix_of_prefix starts (List.prefix_append (p.text ++ near) _) with
    within | ⟨more, beyond⟩
  · exact longest kind other other_lexeme
      (within.trans (whole ▸ List.prefix_append (p.text ++ near) far))
  · rw [← beyond, List.prefix_append_right_inj] at starts
    cases more with
    | nil =>
      rw [List.append_nil] at beyond
      exact longest kind other other_lexeme (whole ▸ beyond ▸ List.prefix_append _ _)
    | cons next more =>
      -- Such a text would hold the space, and so it would be a string that `p` is the whole of.
      obtain rfl := (List.cons_prefix_cons.mp starts).1
      obtain ⟨body, closed, string⟩ := other_lexeme.string_of_space space (by simp [← beyond])
      rw [string, List.append_assoc] at beyond
      have nothing := string_whole lexeme closed beyond
      simp at nothing

theorem ofFront_unexpected {d : Char} (fault : (ofFront c cs).kind = .fault (.unexpected d))
    (cs' : List Char) : ofFront c cs' = ⟨.fault (.unexpected d), [c], cs'⟩ := by
  unfold ofFront at fault ⊢
  split at fault
  · unfold name at fault
    dsimp only at fault
    split at fault <;> cases fault
  · rename_i no_name
    rw [if_neg no_name]
    split at fault
    · rw [number_kind] at fault
      cases fault
    · rename_i no_digit
      rw [if_neg no_digit]
      split at fault
      case h_17 =>
        unfold string at fault
        dsimp only at fault
        split at fault <;> cases fault
      case h_18 =>
        cases fault
        rfl
      all_goals first
        | cases fault
        | (unfold markOrEqual at fault; split at fault <;> cases fault)

theorem Munches.unique {p q : Piece} {text : List Char} (munches : p.Munches text)
    (other : q.Munches text) : p = q := by
  obtain ⟨split, lexeme, starts, longest⟩ := munches
  obtain ⟨split', lexeme', starts', longest'⟩ := other
  have length := Nat.le_antisymm (longest' _ _ lexeme starts) (longest _ _ lexeme' starts')
  have texts := (List.prefix_of_prefix_length_le starts starts' (Nat.le_of_eq length)).eq_of_length
    length
  obtain ⟨kind, front, rest⟩ := p
  obtain ⟨kind', front', rest'⟩ := q
  obtain rfl : front = front' := texts
  obtain rfl : kind = kind' := lexeme.kind_unique lexeme'
  obtain rfl : rest = rest' := List.append_cancel_left (split.trans split'.symm)
  rfl

/-- The piece at the front of a text is the same before a space as before what follows it, unless
that is a string that never closes. -/
theorem ofFront_refit (closed : (ofFront c cs).kind ≠ .fault .unterminatedString)
    (split : (ofFront c cs).rest = near ++ far) {blank : Char} (space : IsSpace blank)
    (far' : List Char) : ∃ cs', (ofFront c cs).text ++ (near ++ blank :: far') = c :: cs' ∧
      ofFront c cs' = ⟨(ofFront c cs).kind, (ofFront c cs).text, near ++ blank :: far'⟩ := by
  obtain ⟨d, more, text⟩ := List.exists_cons_of_ne_nil (ofFront_text c cs)
  have whole := ofFront_split c cs
  rw [text, List.cons_append] at whole
  obtain rfl : d = c := (List.cons.inj whole).1
  refine ⟨more ++ (near ++ blank :: far'), by rw [text, List.cons_append], ?_⟩
  rcases ofFront_longest d cs with munches | faults
  · have refitted := munches.refit split space far'
    rw [text, List.cons_append] at refitted
    rcases ofFront_longest d (more ++ (near ++ blank :: far')) with found | faults
    · rw [text]
      exact found.unique refitted
    · exact absurd refitted.longest.starts (faults.no_lexeme _ _ refitted.longest.lexeme)
  · generalize piece : ofFront d cs = p at *
    cases faults with
    | unterminated => exact absurd rfl closed
    | unexpected =>
      cases text
      exact ofFront_unexpected (congrArg Piece.kind piece) _

end Piece

/-- A comment looks only at the first character behind it. -/
theorem Trivia.of_head {behind behind' trivia : List Char} (run : Trivia behind trivia)
    (same : behind.head? = behind'.head?) : Trivia behind' trivia := by
  induction run with
  | nil => exact .nil
  | feed _ ih => exact ih.feed
  | space space _ ih => exact ih.space space
  | comment one_line ended _ ih =>
    refine ih.comment one_line ?_
    rw [List.head?_append] at ended ⊢
    rwa [← same]

namespace Scanner

variable {s s' : Scanner} {ts : List Token} {near far : List Char}

theorem skipFrom_stopped {inComment : Bool} {line : Nat} {text : List Char} {c : Char}
    {cs : List Char} (stopped : (skipFrom inComment line text).rest = c :: cs) :
    c ≠ '\n' ∧ ¬ (c = ' ' ∨ c = '\r' ∨ c = '\t') ∧ ¬ (c = '/' ∧ cs.head? = some '/') := by
  fun_induction skipFrom inComment line text with
  | case1 => cases stopped
  | case2 inComment line cs ih => exact ih stopped
  | case3 inComment line d ds no_feed _ ih => exact ih stopped
  | case4 inComment line d ds no_feed _ _ ih => exact ih stopped
  | case5 inComment line d ds no_feed no_space no_slashes =>
    cases stopped
    refine ⟨no_feed, fun space => no_space ?_, no_slashes⟩
    rcases space with rfl | rfl | rfl <;> simp

theorem next_refit (inside : s.next.1.kind ≠ .endOfInput)
    (closed : s.next.1.kind ≠ .fault .unterminatedString) (split : s.next.2.rest = near ++ far) :
    ∃ front, s.rest = front ++ (near ++ far) ∧ ∀ blank far', IsSpace blank →
      (⟨front ++ (near ++ blank :: far'), s.line⟩ : Scanner).next =
        (s.next.1, ⟨near ++ blank :: far', s.next.2.line⟩) := by
  obtain ⟨c, cs, left, next⟩ := next_inside inside
  obtain ⟨trivia, parts, run, line⟩ := s.skip_split
  rw [next] at closed split
  rw [left] at parts run
  refine ⟨trivia ++ (Piece.ofFront c cs).text, ?_, ?_⟩
  · rw [List.append_assoc, ← split, Piece.ofFront_split, parts]
  intro blank far' space
  obtain ⟨cs', text, piece⟩ := Piece.ofFront_refit closed split space far'
  obtain ⟨no_feed, no_space, no_slashes⟩ := skipFrom_stopped left
  have still_no_slashes : ¬ (c = '/' ∧ cs'.head? = some '/') := by
    rintro ⟨rfl, second⟩
    have slash (cs : List Char) : Piece.ofFront '/' cs = .mark .slash ['/'] cs := rfl
    rw [slash] at split text
    cases text
    obtain rfl : cs = near ++ far := split
    cases near with
    | nil =>
      obtain rfl : blank = '/' := Option.some.inj second
      exact absurd space (by decide)
    | cons d near => exact no_slashes ⟨rfl, second⟩
  have skipped : (⟨trivia ++ c :: cs', s.line⟩ : Scanner).skip = ⟨c :: cs', s.skip.line⟩ := by
    have run' : Trivia (c :: cs') trivia := run.of_head rfl
    simp only [skip, skipFrom_trivia run', skipFrom_stop no_feed no_space still_no_slashes]
    rw [← line]
    rfl
  rw [List.append_assoc, text, next]
  simp only [Scanner.next, skipped, piece]

/-- An open string takes everything, so that only the ending follows it. -/
theorem next_unterminated (opened : s.next.1.kind = .fault .unterminatedString) :
    s.next.2.next.1.kind = .endOfInput := by
  have inside : s.next.1.kind ≠ .endOfInput := by simp [opened]
  obtain ⟨c, cs, left, next⟩ := next_inside inside
  have nothing : s.next.2.rest = [] := by
    rw [next] at opened ⊢
    simp only at opened ⊢
    rcases Piece.ofFront_longest c cs with munches | faults
    · have lexeme := munches.longest.lexeme
      rw [opened] at lexeme
      cases lexeme
    · generalize Piece.ofFront c cs = piece at faults opened
      cases faults with
      | unterminated => rfl
      | unexpected => cases opened
  rw [Scanner.next, skip, nothing]
  rfl

theorem Yields.closed (yields : s.Yields ts s')
    (last_closed : ∀ t ∈ ts.getLast?, t.kind ≠ .fault .unterminatedString) :
    ∀ t ∈ ts, t.kind ≠ .fault .unterminatedString := by
  induction yields with
  | nil => simp
  | @cons s s' ts inside rest ih =>
    rw [List.forall_mem_cons]
    cases rest with
    | nil => simpa using last_closed
    | @cons _ _ more further =>
      constructor
      · exact fun opened => further (next_unterminated opened)
      · exact ih (by simpa using last_closed)

theorem Yields.refit (yields : s.Yields ts s')
    (closed : ∀ t ∈ ts, t.kind ≠ .fault .unterminatedString) :
    ∃ front, s.rest = front ++ s'.rest ∧ ∀ blank far', IsSpace blank →
      (⟨front ++ blank :: far', s.line⟩ : Scanner).Yields ts ⟨blank :: far', s'.line⟩ := by
  induction yields with
  | nil => exact ⟨[], rfl, fun _ _ _ => .nil⟩
  | @cons s s' ts inside _ ih =>
    rw [List.forall_mem_cons] at closed
    obtain ⟨near, split, behind⟩ := ih closed.2
    obtain ⟨front, whole, refitted⟩ := next_refit inside closed.1 split
    refine ⟨front ++ near, by rw [whole, List.append_assoc], ?_⟩
    intro blank far' space
    have first := refitted blank far' space
    have rest := behind blank far' space
    rw [← List.append_assoc] at first
    have yields := @Yields.cons ⟨front ++ near ++ blank :: far', s.line⟩
      ⟨blank :: far', s'.line⟩ ts
    rw [first] at yields
    exact yields inside rest

def later (n : Nat) (s : Scanner) : Scanner := { s with line := s.line + n }

variable (n : Nat)

@[simp] theorem skipFrom_later (inComment : Bool) (line : Nat) (text : List Char) :
    skipFrom inComment (line + n) text = (skipFrom inComment line text).later n := by
  fun_induction skipFrom inComment line text with
  | case1 => rfl
  | case2 inComment line cs ih => rw [skipFrom_feed, ← ih, Nat.add_right_comm]
  | case3 inComment line c cs no_feed space ih => rw [skipFrom, if_neg no_feed, if_pos space, ih]
  | case4 inComment line c cs no_feed no_space slashes ih =>
    rw [skipFrom, if_neg no_feed, if_neg no_space, if_pos slashes, ih]
  | case5 inComment line c cs no_feed no_space no_slashes =>
    rw [skipFrom, if_neg no_feed, if_neg no_space, if_neg no_slashes]
    rfl

@[simp] theorem next_later (s : Scanner) :
    (s.later n).next = (s.next.1.relabel (· + n), s.next.2.later n) := by
  have skipped : (s.later n).skip = s.skip.later n := skipFrom_later n false s.line s.rest
  have rest : (s.skip.later n).rest = s.skip.rest := rfl
  have line : (s.skip.later n).line = s.skip.line + n := rfl
  simp only [next, skipped, rest, line]
  split
  · rfl
  · simp only [Token.relabel, later, Nat.add_right_comm]

end Scanner

namespace Script

@[simp] theorem ofScanner_later (n : Nat) (s : Scanner) :
    ofScanner (s.later n) = (ofScanner s).relabel (· + n) := by
  induction s using ofScanner_induction with
  | ending s ended =>
    have ended' : (s.later n).next.1.kind = .endOfInput := by simpa using ended
    rw [ofScanner_ending ended, ofScanner_ending ended', Scanner.next_later]
    rfl
  | inside s inside ih =>
    have inside' : (s.later n).next.1.kind ≠ .endOfInput := by simpa using inside
    rw [ofScanner_inside inside, ofScanner_inside inside', Scanner.next_later, ih]
    rfl

theorem ofScanner_of_next {s s' : Scanner} (same : s.next = s'.next) :
    ofScanner s = ofScanner s' := by
  by_cases ended : s.next.1.kind = .endOfInput
  · rw [ofScanner_ending ended, ofScanner_ending (same ▸ ended), same]
  · have ended' : s'.next.1.kind ≠ .endOfInput := same ▸ ended
    rw [ofScanner_inside ended, ofScanner_inside ended', same]

theorem ofScanner_padding {gap : List Char} (padding : Padding gap) (behind : List Char)
    (line : Nat) : ofScanner ⟨gap ++ behind, line⟩ =
      (ofScanner ⟨behind, line⟩).relabel (· + gap.count '\n') := by
  rw [← ofScanner_later]
  apply ofScanner_of_next
  have skipped : (⟨gap ++ behind, line⟩ : Scanner).skip =
      (Scanner.later (gap.count '\n') ⟨behind, line⟩).skip :=
    Scanner.skipFrom_trivia (padding.trivia behind) line
  rw [Scanner.next, Scanner.next, skipped]

/-- A text cut in two where nothing is read yet, or where a token ends that is no open string.
Before the cut stand the tokens `before`. -/
structure Parts (front behind : List Char) (before : List Token) : Prop where
  yields : ∃ line, (Scanner.start (front ++ behind)).Yields before ⟨behind, line⟩
  closed : ∀ t ∈ before.getLast?, t.kind ≠ .fault .unterminatedString

theorem Parts.spaced {front behind gap : List Char} {before : List Token}
    (parts : Parts front behind before) (spacing : Gap gap) : ∃ after : Script,
      ofChars (front ++ behind) = ⟨before ++ after.tokens, after.endLine⟩ ∧
      ofChars (front ++ gap ++ behind) =
        ⟨before ++ after.tokens.map (Token.relabel (· + gap.count '\n')),
          after.endLine + gap.count '\n'⟩ := by
  obtain ⟨⟨line, yields⟩, closed⟩ := parts
  refine ⟨ofScanner ⟨behind, line⟩, ?_, ?_⟩
  · rw [← ofScanner_start, ofScanner_yields yields]
  · cases spacing with
    | @intro blank gap space padding =>
      obtain ⟨front', whole, refitted⟩ := yields.refit (yields.closed closed)
      obtain rfl : front = front' := List.append_cancel_right whole
      have yields' : (Scanner.start (front ++ blank :: (gap ++ behind))).Yields before
          ⟨blank :: (gap ++ behind), line⟩ := refitted blank (gap ++ behind) space
      rw [List.append_assoc, List.cons_append, ← ofScanner_start, ofScanner_yields yields',
        ← List.cons_append, ofScanner_padding (padding.space space)]
      rfl

end Script
end StackCalc
