import StackCalc.Proofs.Token.LongestMatch

namespace StackCalc

@[simp] theorem Piece.ofFront_split (c : Char) (cs : List Char) :
    (ofFront c cs).text ++ (ofFront c cs).rest = c :: cs := by
  obtain munches | faults := ofFront_longest c cs
  · exact munches.split
  · generalize ofFront c cs = piece at faults
    cases faults with
    | unterminated => exact List.append_nil _
    | unexpected front => exact front.symm

namespace Scanner

theorem skipFrom_feeds (inComment : Bool) (line : Nat) (text : List Char) :
    (skipFrom inComment line text).line + (skipFrom inComment line text).rest.count '\n' =
      line + text.count '\n' := by
  fun_induction skipFrom inComment line text with
  | case1 => rfl
  | case2 inComment line cs ih =>
    rw [ih, List.count_cons_self]
    omega
  | case3 inComment line c cs no_feed _ ih => rw [ih, List.count_cons_of_ne no_feed]
  | case4 inComment line c cs no_feed _ _ ih => rw [ih, List.count_cons_of_ne no_feed]
  | case5 => rfl

theorem skip_split (s : Scanner) : ∃ trivia, s.rest = trivia ++ s.skip.rest ∧
    Trivia s.skip.rest trivia ∧ s.skip.line = s.line + trivia.count '\n' := by
  obtain ⟨trivia, split, run⟩ := s.skip_skipped
  refine ⟨trivia, split, run, ?_⟩
  have feeds : s.skip.line + s.skip.rest.count '\n' = s.line + s.rest.count '\n' :=
    skipFrom_feeds false s.line s.rest
  have counts := congrArg (List.count '\n') split
  rw [List.count_append] at counts
  omega

/-- What one call takes: trivia, and then the text of the token, which ends on the token's line. -/
theorem next_split (s : Scanner) : ∃ trivia front, s.rest = trivia ++ front ++ s.next.2.rest ∧
    Trivia (front ++ s.next.2.rest) trivia ∧ s.next.1.line = s.next.2.line ∧
    s.next.2.line = s.line + (trivia ++ front).count '\n' := by
  obtain ⟨trivia, split, run, line⟩ := s.skip_split
  cases left : s.skip.rest with
  | nil =>
    rw [left] at split run
    refine ⟨trivia, [], ?_⟩
    simp only [next, left, List.append_nil, Token.ending, true_and]
    exact ⟨split.trans (List.append_nil _), run, line⟩
  | cons c cs =>
    have front := Piece.ofFront_split c cs
    rw [left] at split run
    refine ⟨trivia, (Piece.ofFront c cs).text, ?_⟩
    simp only [next, left, List.append_assoc, front, List.count_append, line, Nat.add_assoc,
      and_self, and_true]
    exact ⟨split, run⟩

theorem next_feeds (s : Scanner) : s.next.1.line = s.next.2.line ∧ s.line ≤ s.next.2.line ∧
    s.next.2.line + s.next.2.rest.count '\n' = s.line + s.rest.count '\n' := by
  obtain ⟨trivia, front, split, -, same, line⟩ := s.next_split
  have counts := congrArg (List.count '\n') split
  rw [List.count_append] at counts
  refine ⟨same, ?_, ?_⟩ <;> omega

end Scanner

namespace Script

theorem collect_within {first last : Nat} (budget : Nat) (s : Scanner) (seen : List Token)
    (not_before : first ≤ s.line) (not_behind : s.line + s.rest.count '\n' ≤ last)
    (seen_within : ∀ t ∈ seen, first ≤ t.line ∧ t.line ≤ last) :
    (∀ t ∈ (collect budget s seen).tokens, first ≤ t.line ∧ t.line ≤ last) ∧
      first ≤ (collect budget s seen).endLine ∧ (collect budget s seen).endLine ≤ last := by
  induction budget generalizing s seen with
  | zero =>
    simp only [collect, List.mem_reverse]
    exact ⟨seen_within, not_before, by omega⟩
  | succ budget ih =>
    obtain ⟨same, further, feeds⟩ := s.next_feeds
    have within : first ≤ s.next.1.line ∧ s.next.1.line ≤ last := by
      constructor <;> omega
    simp only [collect]
    split
    · simp only [List.mem_reverse]
      exact ⟨seen_within, within⟩
    · apply ih
      · omega
      · omega
      · exact List.forall_mem_cons.mpr ⟨within, seen_within⟩

theorem ofChars_within (source : List Char) :
    (∀ t ∈ (ofChars source).tokens, 1 ≤ t.line ∧ t.line ≤ 1 + source.count '\n') ∧
      1 ≤ (ofChars source).endLine ∧ (ofChars source).endLine ≤ 1 + source.count '\n' :=
  collect_within source.length (.start source) [] (Nat.le_refl 1) (Nat.le_refl _) (by simp)

end Script
end StackCalc
