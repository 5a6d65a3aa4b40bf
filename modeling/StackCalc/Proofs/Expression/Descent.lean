import StackCalc.Proofs.Expression.Parsing

/-! Reading as recursive descent. A table of rules says what a token does where an expression starts
and behind one, and every call that is under way stands on a list. One step does what a call does up
to its next call. The machine needs no frames: it comes to the end by itself, and to what reading
with frames comes to. -/
namespace StackCalc

inductive Precedence where
  | none
  | assignment
  | term
  | factor
  | unary
  deriving DecidableEq

namespace Precedence

def rank : Precedence → Nat
  | .none => 0
  | .assignment => 1
  | .term => 2
  | .factor => 3
  | .unary => 4

instance : LE Precedence := ⟨fun a b => a.rank ≤ b.rank⟩

instance (a b : Precedence) : Decidable (a ≤ b) := inferInstanceAs (Decidable (a.rank ≤ b.rank))

def higher : Precedence → Precedence
  | .none => .assignment
  | .assignment => .term
  | .term => .factor
  | .factor => .unary
  | .unary => .unary

end Precedence

inductive Action where
  | grouping
  | unary
  | binary
  | number
  deriving DecidableEq

structure Rule where
  start : Option Action
  behind : Option Action
  precedence : Precedence
  deriving DecidableEq

def Rule.ofKind : Kind → Rule
  | .punctuation .leftParen => ⟨some .grouping, none, .none⟩
  | .punctuation .minus => ⟨some .unary, some .binary, .term⟩
  | .punctuation .plus => ⟨none, some .binary, .term⟩
  | .punctuation .slash | .punctuation .star => ⟨none, some .binary, .factor⟩
  | .number => ⟨some .number, none, .none⟩
  | _ => ⟨none, none, .none⟩

/-- What a call for a level is given. Terms are only ever looked for by way of assignments. -/
def Level.precedence : Level → Precedence
  | .sum => .assignment
  | .product => .factor
  | .operand => .unary

namespace Rule

theorem start_ofKind (kind : Kind) : (ofKind kind).start =
    match Role.ofKind kind with
    | .literal => some .number
    | .opening => some .grouping
    | .operator .subtract => some .unary
    | _ => none := by
  unfold ofKind Role.ofKind
  split <;> simp_all

theorem behind_operator {kind : Kind} {op : BinaryOp} (role : Role.ofKind kind = .operator op) :
    (ofKind kind).behind = some .binary := by
  unfold Role.ofKind at role
  split at role <;> simp_all [ofKind]

theorem higher_operator {kind : Kind} {op : BinaryOp} (role : Role.ofKind kind = .operator op) :
    (ofKind kind).precedence.higher = op.rightLevel.precedence := by
  unfold Role.ofKind at role
  split at role <;> cases role <;> rfl

theorem binds_iff (level : Level) (kind : Kind) : level.precedence ≤ (ofKind kind).precedence ↔
    ∃ op, Role.ofKind kind = .operator op ∧ level.admits op = true := by
  by_cases operator : ∃ op, Role.ofKind kind = .operator op
  · obtain ⟨op, role⟩ := operator
    have admits : level.precedence ≤ (ofKind kind).precedence ↔ level.admits op = true := by
      unfold Role.ofKind at role
      split at role <;> cases role <;> cases level <;> decide
    simp [admits, role]
  · have nothing : (ofKind kind).precedence = .none := by
      unfold ofKind
      split <;> simp_all [Role.ofKind]
    have loose : ¬ level.precedence ≤ .none := by cases level <;> decide
    rw [nothing]
    exact ⟨fun binds => absurd binds loose, fun ⟨op, role, _⟩ => absurd ⟨op, role⟩ operator⟩

end Rule

/-- What is left to do. A call that reads an expression is to be made as `parse`, and behind its
first operand it is under way as `climb`. What an operator has to do behind its operand is left with
the kind and the line of its token. -/
inductive Work where
  | parse (precedence : Precedence)
  | climb (precedence : Precedence)
  | apply (action : Action)
  | leave
  | close
  | negate (kind : Kind) (line : Nat)
  | join (kind : Kind) (line : Nat)
  | finish
  deriving DecidableEq

structure Parser where
  work : List Work
  depth : Nat
  previous : Token
  progress : Progress

inductive Parsed where
  | on (s : Parser)
  | ended (p : Progress)
  | unreachable

namespace Parser

def start (script : Script) : Parser :=
  ⟨[.parse .assignment, .finish], 0, .ending 1, .start script⟩

def advance (s : Parser) : Parser :=
  { s with previous := s.progress.lookahead, progress := s.progress.advance }

def nested (s : Parser) (precedence : Precedence) (rest : List Work) : Parser :=
  if maxNesting ≤ s.depth then
    { s with work := rest, progress := s.progress.report s.previous .nestedTooDeeply }
  else
    { s with work := .parse precedence :: .leave :: rest, depth := s.depth + 1 }

def apply (s : Parser) (rest : List Work) : Action → Parser
  | .grouping => s.nested .assignment (.close :: rest)
  | .unary => s.nested .unary (.negate s.previous.kind s.previous.line :: rest)
  | .binary =>
    { s with
      work := .parse (Rule.ofKind s.previous.kind).precedence.higher ::
        .join s.previous.kind s.previous.line :: rest }
  | .number => { s with work := rest, progress := s.progress.emitLiteral s.previous }

def step (s : Parser) : Parsed :=
  match s.work with
  | [] => .ended s.progress
  | .parse precedence :: rest =>
    let s := s.advance
    match (Rule.ofKind s.previous.kind).start with
    | some action => .on { s with work := .apply action :: .climb precedence :: rest }
    | none =>
      .on { s with work := rest, progress := s.progress.report s.previous .expressionExpected }
  | .climb precedence :: rest =>
    if precedence ≤ (Rule.ofKind s.progress.lookahead.kind).precedence then
      let s := s.advance
      match (Rule.ofKind s.previous.kind).behind with
      | some action => .on { s with work := .apply action :: .climb precedence :: rest }
      | none => .on s
    else .on { s with work := rest }
  | .apply action :: rest => .on (s.apply rest action)
  | .leave :: rest => .on { s with work := rest, depth := s.depth - 1 }
  | .close :: rest =>
    .on { s with
      work := rest
      progress := s.progress.consume (.punctuation .rightParen) .closingExpected }
  | .negate kind line :: rest =>
    match kind with
    | .punctuation .minus =>
      .on { s with work := rest, progress := s.progress.emit .negate line }
    | _ => .unreachable
  | .join kind line :: rest =>
    match kind with
    | .punctuation .plus =>
      .on { s with work := rest, progress := s.progress.emit (.binary .add) line }
    | .punctuation .minus =>
      .on { s with work := rest, progress := s.progress.emit (.binary .subtract) line }
    | .punctuation .star =>
      .on { s with work := rest, progress := s.progress.emit (.binary .multiply) line }
    | .punctuation .slash =>
      .on { s with work := rest, progress := s.progress.emit (.binary .divide) line }
    | _ => .unreachable
  | .finish :: rest =>
    let p := s.progress.consume .endOfInput .endExpected
    .on { s with work := rest, progress := p.emit .ret p.lookahead.line }

variable {level : Level} {rest : List Work} {depth line : Nat} {previous : Token} {kind : Kind}
  {op : BinaryOp} {p : Progress}

theorem step_parse (precedence : Precedence) (rest : List Work) (depth : Nat) (previous : Token)
    (p : Progress) : step ⟨.parse precedence :: rest, depth, previous, p⟩ =
      let begun (action : Action) : Parsed :=
        .on ⟨.apply action :: .climb precedence :: rest, depth, p.lookahead, p.advance⟩
      match Role.ofKind p.lookahead.kind with
      | .literal => begun .number
      | .opening => begun .grouping
      | .operator .subtract => begun .unary
      | _ =>
        .on ⟨rest, depth, p.lookahead, p.advance.report p.lookahead .expressionExpected⟩ := by
  simp only [step, advance, Rule.start_ofKind]
  split <;> rename_i begins <;> split at begins <;> cases begins <;> simp_all

theorem step_climb (due : p.operator? level = some op) :
    step ⟨.climb level.precedence :: rest, depth, previous, p⟩ =
      .on ⟨.apply .binary :: .climb level.precedence :: rest, depth, p.lookahead, p.advance⟩ := by
  obtain ⟨role, admits⟩ := Progress.operator_eq_some.mp due
  have binds := (Rule.binds_iff level _).mpr ⟨op, role, admits⟩
  simp only [step, if_pos binds, advance, Rule.behind_operator role]

theorem step_stopped (stopped : p.operator? level = none) :
    step ⟨.climb level.precedence :: rest, depth, previous, p⟩ =
      .on ⟨rest, depth, previous, p⟩ := by
  have loose : ¬ level.precedence ≤ (Rule.ofKind p.lookahead.kind).precedence := by
    rw [Rule.binds_iff]
    rintro ⟨op, role, admits⟩
    rw [Progress.operator_eq_some.mpr ⟨role, admits⟩] at stopped
    cases stopped
  simp only [step, if_neg loose]

theorem step_operator (role : Role.ofKind previous.kind = .operator op) :
    step ⟨.apply .binary :: rest, depth, previous, p⟩ =
      .on ⟨.parse op.rightLevel.precedence :: .join previous.kind previous.line :: rest, depth,
        previous, p⟩ := by
  simp only [step, apply, Rule.higher_operator role]

theorem step_join (role : Role.ofKind kind = .operator op) :
    step ⟨.join kind line :: rest, depth, previous, p⟩ =
      .on ⟨rest, depth, previous, p.emit (.binary op) line⟩ := by
  unfold Role.ofKind at role
  split at role <;> cases role <;> rfl

/-- Steps from one state to another, with the states in front of the last. -/
inductive Runs : Parser → List Parser → Parser → Prop where
  | here (s : Parser) : Runs s [] s
  | step {s s' last : Parser} {passed : List Parser} : s.step = .on s' → Runs s' passed last →
      Runs s (s :: passed) last

theorem Runs.append {s s' s'' : Parser} {front behind : List Parser} (first : Runs s front s')
    (rest : Runs s' behind s'') : Runs s (front ++ behind) s'' := by
  induction first with
  | here => exact rest
  | step on _ ih => exact .step on (ih rest)

def Reaches (s : Parser) (rest : List Work) (depth : Nat) (p : Progress) : Prop :=
  ∃ passed previous, Runs s passed ⟨rest, depth, previous, p⟩

/-- Work at a depth turns one progress into another, whatever token was passed last. -/
def Does (work rest : List Work) (depth : Nat) (p q : Progress) : Prop :=
  ∀ previous, Reaches ⟨work, depth, previous, p⟩ rest depth q

variable {s s' : Parser} {work : List Work} {q : Progress}

theorem Reaches.here (previous : Token) : Reaches ⟨rest, depth, previous, p⟩ rest depth p :=
  ⟨[], previous, .here _⟩

theorem Reaches.step (first : s.step = .on s') (reaches : s'.Reaches rest depth p) :
    s.Reaches rest depth p := by
  obtain ⟨passed, previous, run⟩ := reaches
  exact ⟨s :: passed, previous, .step first run⟩

theorem Reaches.does (reaches : s.Reaches work depth p) (does : Does work rest depth p q) :
    s.Reaches rest depth q := by
  obtain ⟨passed, previous, run⟩ := reaches
  obtain ⟨more, last, further⟩ := does previous
  exact ⟨passed ++ more, last, run.append further⟩

theorem Does.single (step : ∀ previous, Parser.step ⟨work, depth, previous, p⟩ =
    .on ⟨rest, depth, previous, q⟩) : Does work rest depth p q :=
  fun previous => .step (step previous) (.here previous)

/-- The loop of operators. What a right operand is read by must do as its call does. -/
theorem does_climb {right : Level → Progress → Progress}
    (right_does : ∀ op q rest, level.admits op = true →
      Does (.parse op.rightLevel.precedence :: rest) rest depth q (right op.rightLevel q))
    (right_left : ∀ l q, (right l q).left <:+ q.left) (rounds : List Token)
    (enough : p.left.length ≤ rounds.length) :
    Does (.climb level.precedence :: rest) rest depth p
      (Progress.climb right level rounds p) := by
  -- On the rounds. The operator of a round is a token that is gone in the next.
  induction rounds generalizing p with
  | nil =>
    refine .single fun _ => step_stopped ?_
    cases due : p.operator? level with
    | none => rfl
    | some op =>
      obtain ⟨sign, others, left, -⟩ := Progress.operator_cons due
      simp [left] at enough
  | cons _ rounds ih =>
    simp only [Progress.climb]
    cases due : p.operator? level with
    | none => exact .single fun _ => step_stopped due
    | some op =>
      intro previous
      obtain ⟨role, admits⟩ := Progress.operator_eq_some.mp due
      obtain ⟨sign, others, left, -⟩ := Progress.operator_cons due
      have fewer : (right op.rightLevel p.advance).left.length ≤ rounds.length := by
        have passed : p.advance.left <:+ p.left.tail := Progress.passFaults_suffix _ _
        have shorter := ((right_left op.rightLevel p.advance).trans passed).length_le
        simp only [left, List.tail_cons, List.length_cons] at shorter enough
        omega
      have operand := right_does op p.advance
        (.join p.lookahead.kind p.lookahead.line :: .climb level.precedence :: rest) admits
      exact .step (step_climb due) (.step (step_operator role)
        (((operand p.lookahead).does (.single fun _ => step_join role)).does (ih fewer)))

theorem nested_reaches {inner : Progress → Progress} {precedence : Precedence} {t : Token}
    (inner_does : depth < maxNesting → ∀ rest,
      Does (.parse precedence :: rest) rest (depth + 1) p (inner p)) :
    Reaches (nested ⟨work, depth, t, p⟩ precedence rest) rest depth
      (Progress.nested inner depth t p) := by
  unfold nested Progress.nested
  split
  · exact .here _
  · rename_i room
    obtain ⟨passed, last, run⟩ := inner_does (Nat.lt_of_not_le room) (.leave :: rest) t
    exact ⟨_, _, run.append (.step rfl (.here _))⟩

theorem does_expression (frames : Nat) (enough : Progress.Frames level depth frames) :
    Does (.parse level.precedence :: rest) rest depth p
      (Progress.expression frames depth level p) := by
  -- On the frames, as reading goes. They are enough for all calls below.
  induction frames generalizing level rest depth p with
  | zero =>
    have positive := level.height_pos
    unfold Progress.Frames at enough
    omega
  | succ frames ih =>
    intro previous
    have loop (q : Progress) : Does (.climb level.precedence :: rest) rest depth q
        (Progress.climb (Progress.expression frames depth) level q.left q) :=
      does_climb (fun op q rest admits => ih (enough.right admits))
        (fun l q => (Progress.kept_left.expression frames depth l q).1) q.left (Nat.le_refl _)
    have inside (inner : Level) {work after : List Work} {t : Token} {q : Progress} :
        Reaches (nested ⟨work, depth, t, q⟩ inner.precedence after) after depth
          (Progress.nested (Progress.expression frames (depth + 1) inner) depth t q) :=
      nested_reaches fun room rest => ih (enough.inside room)
    have first := step_parse level.precedence rest depth previous p
    simp only [Progress.expression]
    split
    · rename_i literal
      rw [literal] at first
      exact .step first (.step rfl (loop _ _))
    · rename_i opening
      rw [opening] at first
      exact .step first (.step rfl
        (((inside .sum).does (.single fun _ => rfl)).does (loop _)))
    · rename_i minus
      rw [minus] at first
      have kind := (Role.subtract_iff _).mp minus
      refine .step first (.step rfl
        (((inside .operand).does (.single fun _ => ?_)).does (loop _)))
      simp only [step, kind]
    · rename_i literal opening minus
      refine .step (first.trans ?_) (.here p.lookahead)
      split
      · contradiction
      · contradiction
      · contradiction
      · rfl

/-- The machine comes to the end, and there to what reading with frames comes to. -/
theorem reaches_whole (script : Script) :
    Reaches (.start script) [] 0 (Progress.start script).whole := by
  have enough : Progress.Frames .sum 0 Progress.maxFrames := Nat.le_refl _
  have expression : Does [.parse .assignment, .finish] [.finish] 0 (.start script) _ :=
    does_expression _ enough
  exact (expression _).does (.single fun _ => rfl)

end Parser
end StackCalc
