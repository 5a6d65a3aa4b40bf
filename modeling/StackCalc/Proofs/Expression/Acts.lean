import StackCalc.Proofs.Expression.Descent

namespace StackCalc

inductive Act where
  | idle
  | advance
  /-- Goes past a token that starts no expression. -/
  | missing
  | tooDeep (t : Token)
  | literal (t : Token)
  | close
  | emit (op : Opcode) (line : Nat)
  | finish

namespace Act

def perform (p : Progress) : Act → Progress
  | .idle => p
  | .advance => p.advance
  | .missing => p.advance.report p.lookahead .expressionExpected
  | .tooDeep t => p.report t .nestedTooDeeply
  | .literal t => p.emitLiteral t
  | .close => p.consume (.punctuation .rightParen) .closingExpected
  | .emit op line => p.emit op line
  | .finish =>
    let p := p.consume .endOfInput .endExpected
    p.emit .ret p.lookahead.line

theorem perform_kept {R : Progress → Progress → Prop} (kept : Progress.Kept R) (p : Progress)
    (act : Act) : R p (act.perform p) := by
  cases act with
  | idle => exact kept.refl p
  | advance => exact kept.advance p
  | missing => exact kept.trans (kept.advance p) (kept.report _ _ _ (by decide))
  | tooDeep t => exact kept.report p t _ (by decide)
  | literal t => exact kept.emitLiteral p t
  | close => exact kept.consume p _ _ (by decide)
  | emit op line => exact kept.emit p op line
  | finish => exact kept.trans (kept.consume p _ _ (by decide)) (kept.emit _ _ _)

end Act

namespace Parser

variable {s s' last : Parser} {passed : List Parser}

def act (s : Parser) : Act :=
  match s.work with
  | .parse _ :: _ =>
    match (Rule.ofKind s.progress.lookahead.kind).start with
    | some _ => .advance
    | none => .missing
  | .climb precedence :: _ =>
    if precedence ≤ (Rule.ofKind s.progress.lookahead.kind).precedence then .advance else .idle
  | .apply .grouping :: _ | .apply .unary :: _ =>
    if maxNesting ≤ s.depth then .tooDeep s.previous else .idle
  | .apply .number :: _ => .literal s.previous
  | .close :: _ => .close
  | .negate _ line :: _ => .emit .negate line
  | .join kind line :: _ =>
    match Role.ofKind kind with
    | .operator op => .emit (.binary op) line
    | _ => .idle
  | .finish :: _ => .finish
  | _ => .idle

theorem nested_act (s : Parser) (precedence : Precedence) (rest : List Work) :
    (s.nested precedence rest).progress =
      (if maxNesting ≤ s.depth then Act.tooDeep s.previous else .idle).perform s.progress := by
  unfold nested
  split
  · rfl
  · rfl

theorem step_act (on : s.step = .on s') : s'.progress = s.act.perform s.progress := by
  obtain ⟨work, depth, previous, p⟩ := s
  cases work with
  | nil => cases on
  | cons w rest =>
    cases w with
    | parse precedence =>
      cases start : (Rule.ofKind p.lookahead.kind).start with
      | some action =>
        simp only [step, advance, start] at on
        cases on
        simp only [act, start, Act.perform]
      | none =>
        simp only [step, advance, start] at on
        cases on
        simp only [act, start, Act.perform]
    | climb precedence =>
      simp only [step] at on
      split at on
      · rename_i binds
        split at on <;> cases on
        all_goals
          simp only [act, if_pos binds]
          rfl
      · rename_i loose
        cases on
        simp only [act, if_neg loose]
        rfl
    | apply action =>
      cases on
      cases action with
      | grouping | unary => exact nested_act _ _ _
      | binary | number => rfl
    | leave | close | finish =>
      cases on
      rfl
    | negate kind line | join kind line =>
      simp only [step] at on
      split at on <;> cases on
      all_goals rfl

theorem Runs.kept {R : Progress → Progress → Prop} (kept : Progress.Kept R)
    (run : Runs s passed last) : R s.progress last.progress := by
  induction run with
  | here => exact kept.refl _
  | step on _ ih => exact kept.trans (step_act on ▸ Act.perform_kept kept _ _) ih

theorem Runs.upto (run : Runs s passed last) {before later : List Parser} {u : Parser}
    (split : passed ++ [last] = before ++ u :: later) : Runs s before u := by
  induction run generalizing before with
  | here =>
    cases before with
    | nil =>
      cases split
      exact .here _
    | cons v before => simp at split
  | @step s s' last passed on run ih =>
    cases before with
    | nil =>
      cases (List.cons.inj split).1
      exact .here _
    | cons v before =>
      cases (List.cons.inj split).1
      exact .step on (ih (List.cons.inj split).2)

end Parser
end StackCalc
