import StackCalc.Proofs.Expression.Descent
import StackCalc.Proofs.Token.Numeral

/-! How deep reading goes. Only a group or a minus sign starts a nesting, and the nestings are
counted. Within one of them a call is only ever made for a level below, so that there are three
calls at most. What a call leaves to be done is there again when it is over, and so is its
depth. -/
namespace StackCalc

def Work.isCall : Work → Bool
  | .parse _ | .climb _ => true
  | _ => false

namespace Parser

def calls (s : Parser) : Nat := s.work.countP Work.isCall

/-- What a call for a level is made over, at a depth: the rest of each call that it is made in. -/
inductive Waiting : Nat → Level → List Work → Prop where
  | finish : Waiting 0 .sum [.finish]
  | right {depth line : Nat} {level : Level} {rest : List Work} {kind : Kind} {op : BinaryOp} :
      Waiting depth level rest → Role.ofKind kind = .operator op → level.admits op = true →
      Waiting depth op.rightLevel (.join kind line :: .climb level.precedence :: rest)
  | group {depth : Nat} {level : Level} {rest : List Work} :
      Waiting depth level rest → depth < maxNesting →
      Waiting (depth + 1) .sum (.leave :: .close :: .climb level.precedence :: rest)
  | minus {depth line : Nat} {level : Level} {rest : List Work} :
      Waiting depth level rest → depth < maxNesting →
      Waiting (depth + 1) .operand
        (.leave :: .negate (.punctuation .minus) line :: .climb level.precedence :: rest)

def Suits (level : Level) (t : Token) : Action → Prop
  | .grouping => True
  | .unary => t.kind = .punctuation .minus
  | .binary => ∃ op, Role.ofKind t.kind = .operator op ∧ level.admits op = true
  | .number => ∃ value, t.value? = some value

/-- What there can be to do at a depth, behind a token: all or some of a call, or what the calls
around it have left, or nothing at the end. -/
inductive Stands : Nat → Token → List Work → Prop where
  | call {depth : Nat} {t : Token} {level : Level} {rest : List Work} :
      Waiting depth level rest → Stands depth t (.parse level.precedence :: rest)
  | act {depth : Nat} {t : Token} {level : Level} {rest : List Work} {action : Action} :
      Waiting depth level rest → Suits level t action →
      Stands depth t (.apply action :: .climb level.precedence :: rest)
  | close {depth : Nat} {t : Token} {level : Level} {rest : List Work} :
      Waiting depth level rest → Stands depth t (.close :: .climb level.precedence :: rest)
  | negate {depth line : Nat} {t : Token} {level : Level} {rest : List Work} :
      Waiting depth level rest →
      Stands depth t (.negate (.punctuation .minus) line :: .climb level.precedence :: rest)
  | loop {depth : Nat} {t : Token} {level : Level} {rest : List Work} :
      Waiting depth level rest → Stands depth t (.climb level.precedence :: rest)
  | back {depth : Nat} {t : Token} {level : Level} {rest : List Work} :
      Waiting depth level rest → Stands depth t rest
  | ended {t : Token} : Stands 0 t []

variable {depth : Nat} {level : Level} {rest work : List Work} {t : Token}

theorem Waiting.calls_le (waiting : Waiting depth level rest) :
    rest.countP Work.isCall + level.height ≤ 3 * (depth + 1) := by
  induction waiting with
  | finish => exact Nat.le_refl _
  | right _ _ admits ih =>
    have lower := Level.rightLevel_height admits
    rw [List.countP_cons_of_neg Bool.false_ne_true, List.countP_cons_of_pos rfl]
    omega
  | @group _ level _ _ _ ih =>
    have positive := level.height_pos
    have top : Level.sum.height = 3 := rfl
    rw [List.countP_cons_of_neg Bool.false_ne_true, List.countP_cons_of_neg Bool.false_ne_true,
      List.countP_cons_of_pos rfl]
    omega
  | @minus _ _ level _ _ _ ih =>
    have positive := level.height_pos
    have bottom : Level.operand.height = 1 := rfl
    rw [List.countP_cons_of_neg Bool.false_ne_true, List.countP_cons_of_neg Bool.false_ne_true,
      List.countP_cons_of_pos rfl]
    omega

theorem Waiting.depth_eq (waiting : Waiting depth level rest) :
    rest.count .leave = depth ∧ depth ≤ maxNesting := by
  induction waiting with
  | finish => decide
  | right _ _ _ ih => simpa using ih
  | group _ room ih => simpa using ⟨ih.1, room⟩
  | minus _ room ih => simpa using ⟨ih.1, room⟩

theorem Stands.calls_le (stands : Stands depth t work) :
    work.countP Work.isCall ≤ 3 * (depth + 1) := by
  have within {level : Level} {rest : List Work} (waiting : Waiting depth level rest) :
      rest.countP Work.isCall + 1 ≤ 3 * (depth + 1) :=
    (Nat.add_le_add_left (level.height_pos) _).trans waiting.calls_le
  have under {level : Level} {rest : List Work} (waiting : Waiting depth level rest) :
      (Work.climb level.precedence :: rest).countP Work.isCall ≤ 3 * (depth + 1) :=
    (List.countP_cons_of_pos rfl).trans_le (within waiting)
  cases stands with
  | call waiting => exact (List.countP_cons_of_pos rfl).trans_le (within waiting)
  | act waiting _ => exact (List.countP_cons_of_neg Bool.false_ne_true).trans_le (under waiting)
  | close waiting => exact (List.countP_cons_of_neg Bool.false_ne_true).trans_le (under waiting)
  | negate waiting => exact (List.countP_cons_of_neg Bool.false_ne_true).trans_le (under waiting)
  | loop waiting => exact under waiting
  | back waiting => exact Nat.le_of_succ_le (within waiting)
  | ended => exact Nat.zero_le _

theorem Stands.depth_eq (stands : Stands depth t work) :
    work.count .leave = depth ∧ depth ≤ maxNesting := by
  cases stands with
  | call waiting => simpa using waiting.depth_eq
  | act waiting _ => simpa using waiting.depth_eq
  | close waiting => simpa using waiting.depth_eq
  | negate waiting => simpa using waiting.depth_eq
  | loop waiting => simpa using waiting.depth_eq
  | back waiting => exact waiting.depth_eq
  | ended => decide

end Parser

/-- No literal has been found wrong, and none will be. -/
structure Progress.SoundLiterals (p : Progress) : Prop where
  cut : ∀ t ∈ p.left, t.Cut
  reported : ∀ d ∈ p.reports, d.complaint.category ≠ .literal

namespace Progress

variable {p : Progress}

theorem passFaults_literal (left : List Token) (reports : Array Diagnostic)
    (reported : ∀ d ∈ reports, d.complaint.category ≠ .literal) :
    ∀ d ∈ (passFaults left reports).2, d.complaint.category ≠ .literal := by
  fun_induction passFaults left reports with
  | case1 => exact reported
  | case2 t left reports cause _ ih =>
    have other : Category.lexical ≠ .literal := by decide
    refine ih fun d member => ?_
    rcases Array.mem_push.mp member with before | rfl
    · exact reported d before
    · exact other
  | case3 => exact reported

namespace SoundLiterals

theorem settle (literal : p.SoundLiterals) : p.settle.SoundLiterals where
  cut t member := literal.cut t ((passFaults_suffix p.left p.reports).mem member)
  reported := passFaults_literal p.left p.reports literal.reported

theorem advance (literal : p.SoundLiterals) : p.advance.SoundLiterals :=
  settle ⟨fun t member => literal.cut t (List.mem_of_mem_tail member), literal.reported⟩

theorem report (literal : p.SoundLiterals) (t : Token) {complaint : Complaint}
    (other : complaint.category ≠ .literal) : (p.report t complaint).SoundLiterals where
  cut := literal.cut
  reported d member := by
    rcases Array.mem_push.mp member with before | rfl
    · exact literal.reported d before
    · exact other

theorem consume (literal : p.SoundLiterals) (kind : Kind) {complaint : Complaint}
    (other : complaint.category ≠ .literal) : (p.consume kind complaint).SoundLiterals := by
  unfold Progress.consume
  split
  · exact literal.advance
  · exact literal.report _ other

theorem emit (literal : p.SoundLiterals) (op : Opcode) (line : Nat) :
    (p.emit op line).SoundLiterals :=
  ⟨literal.cut, literal.reported⟩

theorem emitLiteral (literal : p.SoundLiterals) {t : Token}
    (denotes : ∃ value, t.value? = some value) : (p.emitLiteral t).SoundLiterals := by
  obtain ⟨value, parsed⟩ := denotes
  have parsed : Number.ofLiteral? t.lexeme.toList = some value := parsed
  have added : SoundLiterals { p with chunk := (p.chunk.addConstant value).2 } :=
    ⟨literal.cut, literal.reported⟩
  simp only [Progress.emitLiteral, parsed, emitConstant]
  split
  · unfold emitLoad
    split <;> exact ⟨literal.cut, literal.reported⟩
  · exact added.report t (by decide)

theorem lookahead (literal : p.SoundLiterals) (number : p.lookahead.kind = .number) :
    ∃ value, p.lookahead.value? = some value := by
  cases left : p.left with
  | nil =>
    rw [lookahead_nil left] at number
    cases number
  | cons t rest =>
    rw [lookahead_cons left] at number ⊢
    exact (literal.cut t (left ▸ List.mem_cons_self)).denotes number

end SoundLiterals
end Progress

namespace Parser

variable {s s' : Parser}

structure Sound (s : Parser) : Prop where
  stands : Stands s.depth s.previous s.work
  literal : s.progress.SoundLiterals

theorem Sound.nested (inner : Level) {depth : Nat} {t : Token} {p : Progress} {after : Work}
    {rest work : List Work} (stands : Stands depth t (after :: rest))
    (waiting : depth < maxNesting → Waiting (depth + 1) inner (.leave :: after :: rest))
    (literal : p.SoundLiterals) :
    Sound (Parser.nested ⟨work, depth, t, p⟩ inner.precedence (after :: rest)) := by
  unfold Parser.nested
  split
  · exact ⟨stands, literal.report t (by decide)⟩
  · rename_i room
    exact ⟨.call (waiting (Nat.lt_of_not_le room)), literal⟩

theorem Sound.step (sound : s.Sound) : (∃ s', s.step = .on s' ∧ s'.Sound) ∨
    s.work = [] ∧ s.step = .ended s.progress := by
  obtain ⟨work, depth, previous, p⟩ := s
  obtain ⟨stands, literal⟩ := sound
  simp only at stands literal
  cases stands with
  | @call _ _ level rest waiting =>
    left
    have begins {action : Action} (suits : Suits level p.lookahead action) :
        Sound ⟨.apply action :: .climb level.precedence :: rest, depth, p.lookahead, p.advance⟩ :=
      ⟨.act waiting suits, literal.advance⟩
    rw [step_parse]
    split
    · rename_i number
      exact ⟨_, rfl, begins (literal.lookahead ((Role.literal_iff _).mp number))⟩
    · exact ⟨_, rfl, begins trivial⟩
    · rename_i minus
      exact ⟨_, rfl, begins ((Role.subtract_iff _).mp minus)⟩
    · exact ⟨_, rfl, .back waiting, literal.advance.report _ (by decide)⟩
  | @act _ _ level rest action waiting suits =>
    left
    cases action with
    | grouping =>
      exact ⟨_, rfl, .nested .sum (.close waiting) (.group waiting) literal⟩
    | unary =>
      have minus : previous.kind = .punctuation .minus := suits
      refine ⟨_, rfl, .nested .operand ?_ ?_ literal⟩
      · exact minus ▸ .negate waiting
      · exact fun room => minus ▸ .minus waiting room
    | binary =>
      obtain ⟨op, role, admits⟩ := suits
      exact ⟨_, step_operator role, .call (.right waiting role admits), literal⟩
    | number => exact ⟨_, rfl, .loop waiting, literal.emitLiteral suits⟩
  | close waiting => exact .inl ⟨_, rfl, .loop waiting, literal.consume _ (by decide)⟩
  | negate waiting => exact .inl ⟨_, rfl, .loop waiting, literal.emit _ _⟩
  | @loop _ _ level rest waiting =>
    left
    cases due : p.operator? level with
    | none => exact ⟨_, step_stopped due, .back waiting, literal⟩
    | some op =>
      have suits : Suits level p.lookahead .binary := ⟨op, Progress.operator_eq_some.mp due⟩
      exact ⟨_, step_climb due, .act waiting suits, literal.advance⟩
  | back waiting =>
    left
    cases waiting with
    | finish => exact ⟨_, rfl, .ended, (literal.consume _ (by decide)).emit _ _⟩
    | right waiting role _ => exact ⟨_, step_join role, .loop waiting, literal.emit _ _⟩
    | group waiting _ => exact ⟨_, rfl, .close waiting, literal⟩
    | minus waiting _ => exact ⟨_, rfl, .negate waiting, literal⟩
  | ended => exact .inr ⟨rfl, rfl⟩

theorem Sound.start {script : Script} (cut : ∀ t ∈ script.tokens, t.Cut) :
    (Parser.start script).Sound := by
  have stands : Stands 0 (.ending 1) [.parse Level.sum.precedence, .finish] := .call .finish
  exact ⟨stands, .settle ⟨cut, nofun⟩⟩

theorem Runs.sound {last : Parser} {passed : List Parser} (run : Runs s passed last)
    (sound : s.Sound) : ∀ u ∈ passed ++ [last], u.Sound := by
  induction run with
  | here => exact List.forall_mem_singleton.mpr sound
  | step on _ ih =>
    refine List.forall_mem_cons.mpr ⟨sound, ih ?_⟩
    rcases sound.step with ⟨s', next, sound'⟩ | ⟨-, ended⟩
    · cases on.symm.trans next
      exact sound'
    · cases on.symm.trans ended

theorem nested_tail (s : Parser) (precedence : Precedence) (rest : List Work) :
    rest <:+ (s.nested precedence rest).work := by
  unfold nested
  split
  · exact List.suffix_rfl
  · exact List.suffix_append [.parse precedence, .leave] rest

theorem apply_tail (s : Parser) (rest : List Work) (action : Action) :
    rest <:+ (s.apply rest action).work := by
  cases action with
  | grouping => exact (List.suffix_cons _ _).trans (s.nested_tail _ _)
  | unary => exact (List.suffix_cons _ _).trans (s.nested_tail _ _)
  | binary => exact List.suffix_append [_, _] rest
  | number => exact List.suffix_rfl

theorem step_tail (on : s.step = .on s') : s.work.tail <:+ s'.work := by
  obtain ⟨work, depth, previous, p⟩ := s
  cases work with
  | nil => exact List.nil_suffix
  | cons w rest =>
    cases w with
    | parse precedence =>
      simp only [step] at on
      split at on <;> cases on
      · exact List.suffix_append [_, _] rest
      · exact List.suffix_rfl
    | climb precedence =>
      simp only [step] at on
      split at on
      · split at on <;> cases on
        · exact List.suffix_append [_, _] rest
        · exact List.suffix_cons _ rest
      · cases on
        exact List.suffix_rfl
    | apply action =>
      cases on
      exact apply_tail _ rest action
    | leave | close | finish =>
      cases on
      exact List.suffix_rfl
    | negate kind line | join kind line =>
      simp only [step] at on
      split at on <;> cases on
      all_goals exact List.suffix_rfl

/-- The first of the work that a state has is done later on, and the depth is then as it was before,
if it was not to leave a nesting. Until then there is all other work still to be done, and more. -/
def Returns (s : Parser) (later : List Parser) : Prop :=
  ∀ w rest, s.work = w :: rest → ∃ during u behind, later = during ++ u :: behind ∧
    u.work = rest ∧ (w ≠ .leave → u.depth = s.depth) ∧ ∀ v ∈ during, rest <:+ v.work ∧ v.work ≠ rest

theorem Runs.comes_back {last : Parser} {passed : List Parser} {rest : List Work}
    (run : Runs s passed last) (ends : last.work = []) (under : rest <:+ s.work) :
    ∃ during u behind, passed ++ [last] = during ++ u :: behind ∧ u.work = rest ∧
      ∀ v ∈ during, rest <:+ v.work ∧ v.work ≠ rest := by
  -- On the steps. As long as there is more to do than the rest, a step is about that.
  induction run with
  | here s =>
    rw [ends, List.suffix_nil] at under
    exact ⟨[], s, [], rfl, by rw [ends, under], nofun⟩
  | @step s s' last passed on run ih =>
    by_cases same : s.work = rest
    · exact ⟨[], s, passed ++ [last], rfl, same, nofun⟩
    · have below : rest <:+ s.work.tail := by
        cases work : s.work with
        | nil => rwa [work] at under
        | cons w others =>
          rw [work] at under same
          exact (List.suffix_cons_iff.mp under).resolve_left (Ne.symm same)
      obtain ⟨during, u, behind, split, done, between⟩ := ih ends (below.trans (step_tail on))
      refine ⟨s :: during, u, behind, congrArg (List.cons s) split, done, ?_⟩
      exact List.forall_mem_cons.mpr ⟨⟨under, same⟩, between⟩

theorem Runs.returns {last : Parser} {passed : List Parser} (run : Runs s passed last)
    (ends : last.work = []) (sound : ∀ u ∈ passed ++ [last], u.Sound) :
    ∀ before u later, passed ++ [last] = before ++ u :: later → u.Returns later := by
  induction run with
  | here s =>
    intro before u later split w rest work
    have only : u ∈ [s] := by
      rw [← List.nil_append [s], split]
      exact List.mem_append_right _ List.mem_cons_self
    rw [List.mem_singleton.mp only, ends] at work
    cases work
  | @step s s' last passed on run ih =>
    intro before u later split
    have ⟨first, others⟩ := List.forall_mem_cons.mp sound
    cases before with
    | cons v before => exact ih ends others before u later (List.cons.inj split).2
    | nil =>
      obtain ⟨rfl, rfl⟩ := List.cons.inj split
      intro w rest work
      have under : rest <:+ s'.work := by
        have tail := step_tail on
        rwa [work] at tail
      obtain ⟨during, u, behind, split, done, between⟩ := run.comes_back ends under
      refine ⟨during, u, behind, split, done, fun other => ?_, between⟩
      have member : u ∈ passed ++ [last] := by
        rw [split]
        exact List.mem_append_right _ List.mem_cons_self
      have back := (others u member).stands.depth_eq.1
      have start := first.stands.depth_eq.1
      rw [done] at back
      rw [work, List.count_cons_of_ne other] at start
      exact back.symm.trans start

end Parser

/-- Three calls for each of 512 nestings and for what is outside of them make at most 1539 calls. -/
theorem parser_bounded (source : String) : ∃ passed last,
    Parser.Runs (.start (.ofString source)) passed last ∧ last.step = .ended last.progress ∧
    Compilation.ofString source = ⟨last.progress.chunk, last.progress.reports.toList⟩ ∧
    (∀ s ∈ passed ++ [last], s.step ≠ .unreachable ∧ s.calls ≤ 3 * (s.depth + 1) ∧
      s.depth ≤ 512 ∧ s.calls ≤ 1539) ∧
    (∀ before s later, passed ++ [last] = before ++ s :: later → s.Returns later) ∧
    ∀ d ∈ (Compilation.ofString source).reports, d.complaint.category ≠ .literal := by
  obtain ⟨passed, previous, run⟩ := Parser.reaches_whole (.ofString source)
  have sound := run.sound (.start (Script.ofString_cut source))
  refine ⟨passed, _, run, rfl, rfl, fun s member => ?_, run.returns rfl sound, ?_⟩
  · have calls : s.calls ≤ 3 * (s.depth + 1) := (sound s member).stands.calls_le
    have depth : s.depth ≤ 512 := (sound s member).stands.depth_eq.2
    refine ⟨fun unreachable => ?_, calls, depth, by omega⟩
    rcases (sound s member).step with ⟨s', on, -⟩ | ⟨-, ended⟩
    · cases unreachable.symm.trans on
    · cases unreachable.symm.trans ended
  · have last := sound _ (List.mem_append_right _ List.mem_cons_self)
    exact fun d member => last.literal.reported d (Array.mem_toList_iff.mp member)

end StackCalc
