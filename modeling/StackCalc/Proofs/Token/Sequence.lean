import StackCalc.Proofs.Token.Lines

namespace StackCalc

theorem Piece.ofFront_text (c : Char) (cs : List Char) : (ofFront c cs).text ≠ [] := by
  obtain munches | faults := ofFront_longest c cs
  · exact munches.longest.lexeme.not_nil
  · generalize ofFront c cs = piece at faults
    cases faults with
    | unterminated quote => simp [quote]
    | unexpected => simp

namespace Scanner

theorem next_cases (s : Scanner) :
    (s.skip.rest = [] ∧ s.next = (.ending s.skip.line, s.skip)) ∨
      ∃ c cs, s.skip.rest = c :: cs ∧ s.next =
        (⟨(Piece.ofFront c cs).kind, String.ofList (Piece.ofFront c cs).text,
            s.skip.line + (Piece.ofFront c cs).text.count '\n'⟩,
          ⟨(Piece.ofFront c cs).rest, s.skip.line + (Piece.ofFront c cs).text.count '\n'⟩) := by
  cases left : s.skip.rest with
  | nil => exact .inl ⟨rfl, by simp only [next, left]⟩
  | cons c cs => exact .inr ⟨c, cs, rfl, by simp only [next, left]⟩

theorem next_inside {s : Scanner} (inside : s.next.1.kind ≠ .endOfInput) :
    ∃ c cs, s.skip.rest = c :: cs ∧ s.next =
      (⟨(Piece.ofFront c cs).kind, String.ofList (Piece.ofFront c cs).text,
          s.skip.line + (Piece.ofFront c cs).text.count '\n'⟩,
        ⟨(Piece.ofFront c cs).rest, s.skip.line + (Piece.ofFront c cs).text.count '\n'⟩) := by
  rcases s.next_cases with ⟨-, next⟩ | front
  · rw [next] at inside
    exact absurd rfl inside
  · exact front

theorem next_shorter {s : Scanner} (inside : s.next.1.kind ≠ .endOfInput) :
    s.next.2.rest.length < s.rest.length := by
  obtain ⟨c, cs, left, next⟩ := next_inside inside
  obtain ⟨trivia, split, -⟩ := s.skip_skipped
  have some_text := List.length_pos_iff.mpr (Piece.ofFront_text c cs)
  have lengths := congrArg List.length (Piece.ofFront_split c cs)
  have whole := congrArg List.length split
  rw [next]
  simp only [left, List.length_append, List.length_cons] at lengths whole ⊢
  omega

inductive Yields : Scanner → List Token → Scanner → Prop where
  | nil {s : Scanner} : Yields s [] s
  | cons {s s' : Scanner} {ts : List Token} : s.next.1.kind ≠ .endOfInput →
      Yields s.next.2 ts s' → Yields s (s.next.1 :: ts) s'

end Scanner

namespace Script

variable {s : Scanner}

theorem collect_ending {budget : Nat} (ended : s.next.1.kind = .endOfInput) (seen : List Token) :
    collect (budget + 1) s seen = ⟨seen.reverse, s.next.1.line⟩ := by
  simp only [collect, if_pos ended]

theorem collect_inside {budget : Nat} (inside : s.next.1.kind ≠ .endOfInput) (seen : List Token) :
    collect (budget + 1) s seen = collect budget s.next.2 (s.next.1 :: seen) := by
  simp only [collect, if_neg inside]

theorem collect_seen (budget : Nat) (s : Scanner) (seen : List Token) : collect budget s seen =
    ⟨seen.reverse ++ (collect budget s []).tokens, (collect budget s []).endLine⟩ := by
  induction budget generalizing s seen with
  | zero => simp [collect]
  | succ budget ih =>
    by_cases ended : s.next.1.kind = .endOfInput
    · simp [collect_ending ended]
    · rw [collect_inside ended, collect_inside ended, ih, ih s.next.2 [s.next.1]]
      simp

/-- One budget that is enough does as well as another. -/
theorem collect_enough {budget budget' : Nat} (enough : s.rest.length ≤ budget)
    (enough' : s.rest.length ≤ budget') : collect budget s [] = collect budget' s [] := by
  have at_end {budget : Nat} {s : Scanner} (nothing : s.rest = []) :
      collect budget s [] = ⟨[], s.line⟩ := by
    obtain ⟨rest, line⟩ := s
    obtain rfl : rest = [] := nothing
    cases budget <;> rfl
  induction budget generalizing s budget' with
  | zero =>
    have nothing := List.length_eq_zero_iff.mp (Nat.le_zero.mp enough)
    rw [at_end nothing, at_end nothing]
  | succ budget ih =>
    cases budget' with
    | zero =>
      have nothing := List.length_eq_zero_iff.mp (Nat.le_zero.mp enough')
      rw [at_end nothing, at_end nothing]
    | succ budget' =>
      by_cases ended : s.next.1.kind = .endOfInput
      · rw [collect_ending ended, collect_ending ended]
      · have shorter := Scanner.next_shorter ended
        have same : collect budget s.next.2 [] = collect budget' s.next.2 [] :=
          ih (by omega) (by omega)
        rw [collect_inside ended, collect_inside ended, collect_seen budget,
          collect_seen budget', same]

def ofScanner (s : Scanner) : Script := collect s.rest.length s []

theorem ofScanner_start (source : List Char) : ofScanner (.start source) = ofChars source := rfl

theorem ofScanner_ending (ended : s.next.1.kind = .endOfInput) :
    ofScanner s = ⟨[], s.next.1.line⟩ := by
  rw [ofScanner, collect_enough (Nat.le_refl _) (Nat.le_succ _), collect_ending ended]
  rfl

theorem ofScanner_inside (inside : s.next.1.kind ≠ .endOfInput) : ofScanner s =
    ⟨s.next.1 :: (ofScanner s.next.2).tokens, (ofScanner s.next.2).endLine⟩ := by
  have shorter := Scanner.next_shorter inside
  have enough : s.next.2.rest.length ≤ s.rest.length := Nat.le_of_lt shorter
  rw [ofScanner, collect_enough (Nat.le_refl _) (Nat.le_succ _), collect_inside inside,
    collect_seen, collect_enough enough (Nat.le_refl _)]
  rfl

theorem ofScanner_yields {s' : Scanner} {ts : List Token} (yields : s.Yields ts s') :
    ofScanner s = ⟨ts ++ (ofScanner s').tokens, (ofScanner s').endLine⟩ := by
  induction yields with
  | nil => rfl
  | cons inside _ ih => rw [ofScanner_inside inside, ih, List.cons_append]

/-- A property of scripts that a call hands on from what is left behind it holds of all. -/
theorem ofScanner_induction {P : Scanner → Prop}
    (ending : ∀ s : Scanner, s.next.1.kind = .endOfInput → P s)
    (inside : ∀ s : Scanner, s.next.1.kind ≠ .endOfInput → P s.next.2 → P s) (s : Scanner) :
    P s := by
  by_cases ended : s.next.1.kind = .endOfInput
  · exact ending s ended
  · exact inside s ended (ofScanner_induction ending inside s.next.2)
termination_by s.rest.length
decreasing_by exact Scanner.next_shorter ended

end Script
end StackCalc
