import StackCalc.Proofs.Text.Utf8
import StackCalc.Proofs.Token.Sequence

namespace StackCalc

namespace Script

def endless (script : Script) (i : Nat) : Token := script.tokens[i]?.getD script.ending

variable {s : Scanner}

theorem next_ending (ended : s.next.1.kind = .endOfInput) :
    s.next = (.ending s.next.1.line, s.skip) ∧ s.next.2.next = s.next := by
  rcases s.next_cases with ⟨nothing, next⟩ | ⟨c, cs, -, next⟩
  · have skipped : s.skip.skip = s.skip := by
      rw [Scanner.skip, nothing]
      exact congrArg (Scanner.mk · s.skip.line) nothing.symm
    refine ⟨by rw [next]; rfl, ?_⟩
    simp only [Scanner.next, skipped, nothing]
  · rw [next] at ended
    exact absurd ended (Piece.ofFront_kind c cs).2

@[simp] theorem endless_zero (s : Scanner) : (ofScanner s).endless 0 = s.next.1 := by
  by_cases ended : s.next.1.kind = .endOfInput
  · rw [ofScanner_ending ended]
    exact (congrArg Prod.fst (next_ending ended).1).symm
  · rw [ofScanner_inside ended]
    rfl

@[simp] theorem endless_succ (s : Scanner) (i : Nat) :
    (ofScanner s).endless (i + 1) = (ofScanner s.next.2).endless i := by
  by_cases ended : s.next.1.kind = .endOfInput
  · have again := (next_ending ended).2
    have ended' : s.next.2.next.1.kind = .endOfInput := by rw [again, ended]
    rw [ofScanner_ending ended, ofScanner_ending ended', again]
    rfl
  · rw [ofScanner_inside ended]
    rfl

theorem ofScanner_length (s : Scanner) : (ofScanner s).tokens.length ≤ s.rest.length := by
  induction s using ofScanner_induction with
  | ending s ended =>
    rw [ofScanner_ending ended]
    exact Nat.zero_le _
  | inside s inside ih =>
    have shorter := Scanner.next_shorter inside
    rw [ofScanner_inside inside, List.length_cons]
    omega

end Script

namespace Stream

variable (s : Scanner) (finished : Bool) (ps : List Pull)

@[simp] theorem pulls_token : pulls ⟨s, finished⟩ (.token :: ps) =
    some s.next.1 :: pulls ⟨s.next.2, finished⟩ ps := rfl

@[simp] theorem pulls_next : pulls ⟨s, false⟩ (.next :: ps) =
    some s.next.1 :: pulls ⟨s.next.2, s.next.1.kind = .endOfInput⟩ ps := rfl

@[simp] theorem pulls_over : pulls ⟨s, true⟩ (.next :: ps) = none :: pulls ⟨s, true⟩ ps := rfl

theorem pulls_endless : ∀ (i : Nat) (t : Token),
    ((pulls ⟨s, finished⟩ ps).filterMap id)[i]? = some t →
      t = (Script.ofScanner s).endless i := by
  induction ps generalizing s finished with
  | nil => simp [pulls]
  | cons p ps ih =>
    have given (finished : Bool) : ∀ i t,
        (s.next.1 :: (pulls ⟨s.next.2, finished⟩ ps).filterMap id)[i]? = some t →
          t = (Script.ofScanner s).endless i := by
      intro i t answered
      cases i with
      | zero => exact (Option.some.inj answered).symm.trans (Script.endless_zero s).symm
      | succ i => exact (ih _ _ i t answered).trans (Script.endless_succ s i).symm
    cases p with
    | token => exact given finished
    | next =>
      cases finished with
      | false => exact given _
      | true => exact ih s true

theorem pulls_none : ∀ i : Nat, (pulls ⟨s, finished⟩ ps)[i]? = some none ↔ ps[i]? = some .next ∧
    (finished = true ∨ ∃ j < i, ps[j]? = some .next ∧
      ∃ t : Token, (pulls ⟨s, finished⟩ ps)[j]? = some (some t) ∧ t.kind = .endOfInput) := by
  induction ps generalizing s finished with
  | nil => simp [pulls]
  | cons p ps ih =>
    intro i
    cases p with
    | token =>
      cases i with
      | zero => simp
      | succ i =>
        rw [Nat.exists_lt_succ_left]
        simp [ih]
    | next =>
      cases finished with
      | false =>
        cases i with
        | zero => simp
        | succ i =>
          rw [Nat.exists_lt_succ_left]
          simp [ih]
      | true =>
        cases i with
        | zero => simp
        | succ i => simp [ih]

theorem pulls_erase : ∀ i : Nat, (pulls ⟨s, finished⟩ ps)[i]? = some none →
    pulls ⟨s, finished⟩ (ps.eraseIdx i) = (pulls ⟨s, finished⟩ ps).eraseIdx i := by
  induction ps generalizing s finished with
  | nil => simp [pulls]
  | cons p ps ih =>
    intro i silent
    cases p with
    | token =>
      cases i with
      | zero => cases silent
      | succ i => exact congrArg _ (ih _ _ i silent)
    | next =>
      cases finished with
      | false =>
        cases i with
        | zero => cases silent
        | succ i => exact congrArg _ (ih _ _ i silent)
      | true =>
        cases i with
        | zero => rfl
        | succ i => exact congrArg _ (ih _ _ i silent)

@[simp] theorem pulls_length (s : Stream) (ps : List Pull) : (s.pulls ps).length = ps.length := by
  induction ps generalizing s with
  | nil => rfl
  | cons p ps ih => simp [pulls, ih]

theorem pulls_after (n : Nat) :
    pulls ⟨s, true⟩ (List.replicate n .next) = List.replicate n none := by
  induction n with
  | zero => rfl
  | succ n ih => simp [List.replicate_succ, ih]

theorem pulls_alone (n : Nat) : pulls ⟨s, false⟩ (List.replicate n .next) =
    ((Script.ofScanner s).stream.take n).map some ++
      List.replicate (n - (Script.ofScanner s).stream.length) none := by
  induction n generalizing s with
  | zero => simp [pulls]
  | succ n ih =>
    rw [List.replicate_succ, pulls_next]
    by_cases ended : s.next.1.kind = .endOfInput
    · have next := congrArg Prod.fst (Script.next_ending ended).1
      rw [Script.ofScanner_ending ended, decide_eq_true ended, pulls_after]
      simpa [Script.stream, Script.ending] using next
    · rw [Script.ofScanner_inside ended, decide_eq_false ended, ih]
      simp [Script.stream, Script.ending]

/-- A pull goes unanswered only in the second way, once that way has given the ending, and then it
changes nothing. -/
theorem pulls_one_stream (source : String) (ps : List Pull) :
    (∀ i t, (((ofString source).pulls ps).filterMap id)[i]? = some t →
      t = (Script.ofString source).endless i) ∧
    (∀ i : Nat, ((ofString source).pulls ps)[i]? = some none ↔ ps[i]? = some .next ∧
      ∃ j < i, ps[j]? = some .next ∧
        ∃ t : Token, ((ofString source).pulls ps)[j]? = some (some t) ∧ t.kind = .endOfInput) ∧
    (∀ i : Nat, ((ofString source).pulls ps)[i]? = some none →
      (ofString source).pulls (ps.eraseIdx i) = ((ofString source).pulls ps).eraseIdx i) ∧
    ((ofString source).pulls ps).length = ps.length ∧
    (Script.ofString source).tokens.length ≤ source.utf8ByteSize ∧
    (∀ t ∈ (Script.ofString source).tokens, t.kind ≠ .endOfInput) ∧
    ∀ n, (ofString source).pulls (List.replicate n .next) =
      ((Script.ofString source).stream.take n).map some ++
        List.replicate (n - (Script.ofString source).stream.length) none := by
  have start := Script.ofScanner_start source.toList
  have few := Script.ofScanner_length (.start source.toList)
  have bytes := Text.length_le_utf8 source.toList
  rw [Text.length_utf8] at bytes
  refine ⟨pulls_endless _ false ps, ?_, pulls_erase _ false ps, pulls_length _ ps,
    Nat.le_trans few bytes, fun t inside => (Script.ofString_cut source t inside).inside,
    pulls_alone _⟩
  intro i
  have silent := pulls_none (.start source.toList) false ps i
  rw [eq_false Bool.false_ne_true, false_or] at silent
  exact silent

end Stream
end StackCalc
