import Mathlib.Data.List.TakeWhile
import StackCalc.Token.Scan

namespace StackCalc

/-- Blanks and comments, with `behind` behind them. A comment runs to before the next line feed, or
to the end of everything. -/
inductive Trivia (behind : List Char) : List Char → Prop where
  | nil : Trivia behind []
  | feed {cs : List Char} : Trivia behind cs → Trivia behind ('\n' :: cs)
  | space {c : Char} {cs : List Char} :
      c = ' ' ∨ c = '\r' ∨ c = '\t' → Trivia behind cs → Trivia behind (c :: cs)
  | comment {inside cs : List Char} :
      '\n' ∉ inside → (∀ c ∈ (cs ++ behind).head?, c = '\n') → Trivia behind cs →
        Trivia behind ('/' :: '/' :: (inside ++ cs))

namespace Scanner

@[simp] theorem skipFrom_feed (inComment : Bool) (line : Nat) (cs : List Char) :
    skipFrom inComment line ('\n' :: cs) = skipFrom false (line + 1) cs := rfl

@[simp] theorem skipFrom_space {c : Char} (space : c = ' ' ∨ c = '\r' ∨ c = '\t') (inComment : Bool)
    (line : Nat) (cs : List Char) :
    skipFrom inComment line (c :: cs) = skipFrom inComment line cs := by
  rcases space with rfl | rfl | rfl <;> simp [skipFrom]

@[simp] theorem skipFrom_slashes (line : Nat) (cs : List Char) :
    skipFrom false line ('/' :: '/' :: cs) = skipFrom true line cs := by
  simp [skipFrom]

theorem skipFrom_stop {c : Char} {cs : List Char} (no_feed : c ≠ '\n')
    (no_space : ¬ (c = ' ' ∨ c = '\r' ∨ c = '\t')) (no_slashes : ¬ (c = '/' ∧ cs.head? = some '/'))
    (line : Nat) : skipFrom false line (c :: cs) = ⟨c :: cs, line⟩ := by
  rw [not_or, not_or] at no_space
  simp [skipFrom, no_feed, no_space, no_slashes]

@[simp] theorem skipFrom_inside {inside : List Char} (one_line : '\n' ∉ inside) (line : Nat)
    (after : List Char) : skipFrom true line (inside ++ after) = skipFrom true line after := by
  induction inside with
  | nil => rfl
  | cons c inside ih =>
    rw [List.mem_cons, not_or] at one_line
    have no_feed : c ≠ '\n' := fun feed => one_line.1 feed.symm
    simp only [List.cons_append, skipFrom, if_neg no_feed, Bool.true_or, if_true, ih one_line.2]

@[simp] theorem skipFrom_over {after : List Char} (ended : ∀ c ∈ after.head?, c = '\n')
    (line : Nat) : skipFrom true line after = skipFrom false line after := by
  cases after with
  | nil => rfl
  | cons c after =>
    obtain rfl : c = '\n' := ended c rfl
    rfl

/-- Blanks and comments make no difference but for the lines they take up. -/
theorem skipFrom_trivia {behind trivia : List Char} (run : Trivia behind trivia) (line : Nat) :
    skipFrom false line (trivia ++ behind) =
      skipFrom false (line + trivia.count '\n') behind := by
  induction run generalizing line with
  | nil => rfl
  | feed _ ih => simp [ih, Nat.add_right_comm, Nat.add_assoc]
  | @space c cs space _ ih =>
    have no_feed : c ≠ '\n' := by rcases space with rfl | rfl | rfl <;> decide
    simp [space, no_feed, ih]
  | @comment inside cs one_line ended _ ih =>
    have no_feeds : List.count '\n' inside = 0 := List.count_eq_zero.mpr one_line
    rw [List.cons_append, List.cons_append, List.append_assoc, skipFrom_slashes,
      skipFrom_inside one_line, skipFrom_over ended, ih]
    simp [no_feeds]

theorem line_end (text : List Char) :
    ∃ inside after, text = inside ++ after ∧ '\n' ∉ inside ∧ ∀ c ∈ after.head?, c = '\n' := by
  refine ⟨text.takeWhile (· ≠ '\n'), text.dropWhile (· ≠ '\n'), ?_, ?_, ?_⟩
  · exact List.takeWhile_append_dropWhile.symm
  · intro feed
    simpa using List.mem_takeWhile_imp feed
  · intro c first
    have stopped := List.head?_dropWhile_not (· ≠ '\n') text
    rw [Option.mem_def.mp first] at stopped
    simpa using stopped

theorem skipFrom_skipped (line : Nat) (text : List Char) :
    ∃ trivia, text = trivia ++ (skipFrom false line text).rest ∧
      Trivia (skipFrom false line text).rest trivia := by
  match text with
  | [] => exact ⟨[], rfl, .nil⟩
  | c :: cs =>
    by_cases feed : c = '\n'
    · subst feed
      obtain ⟨trivia, split, run⟩ := skipFrom_skipped (line + 1) cs
      rw [skipFrom_feed]
      exact ⟨'\n' :: trivia, congrArg _ split, run.feed⟩
    · by_cases space : c = ' ' ∨ c = '\r' ∨ c = '\t'
      · obtain ⟨trivia, split, run⟩ := skipFrom_skipped line cs
        rw [skipFrom_space space]
        exact ⟨c :: trivia, congrArg _ split, run.space space⟩
      · by_cases slashes : c = '/' ∧ cs.head? = some '/'
        · obtain ⟨rfl, second⟩ := slashes
          obtain ⟨body, rfl⟩ := List.head?_eq_some_iff.mp second
          obtain ⟨inside, after, rfl, one_line, ended⟩ := line_end body
          obtain ⟨trivia, split, run⟩ := skipFrom_skipped line after
          simp only [skipFrom_slashes, skipFrom_inside one_line, skipFrom_over ended]
          rw [split] at ended
          refine ⟨'/' :: '/' :: (inside ++ trivia), ?_, .comment one_line ended run⟩
          simp [← split]
        · rw [skipFrom_stop feed space slashes]
          exact ⟨[], rfl, .nil⟩
termination_by text.length

theorem skip_skipped (s : Scanner) :
    ∃ trivia, s.rest = trivia ++ s.skip.rest ∧ Trivia s.skip.rest trivia :=
  skipFrom_skipped s.line s.rest

theorem skip_longest {s : Scanner} {trivia behind : List Char} (split : s.rest = trivia ++ behind)
    (run : Trivia behind trivia) : s.skip.rest <:+ behind := by
  rw [skip, split, skipFrom_trivia run]
  obtain ⟨more, further, -⟩ := skipFrom_skipped (s.line + trivia.count '\n') behind
  exact ⟨more, further.symm⟩

end Scanner
end StackCalc
