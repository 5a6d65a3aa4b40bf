import StackCalc.Proofs.Expression.Outcome

/-! Reading comes to an outcome, at every level and with enough frames. The proof goes with the
reading itself: one call of `expression`, its loop of operators, and the calls below it. -/
namespace StackCalc.Progress

variable {level : Level} {opened : List Mark} {p q : Progress} {ts : List Token} {e : Tree}

theorem Reading.binary {r : Progress} {rest us : List Token} {u : Tree} {sign : Token}
    {op : BinaryOp} (reading : Reading level opened p q ts e) (home : Derives op.home ts e)
    (role : Role.ofKind sign.kind = .operator op) (admits : level.admits op = true)
    (passed : q.left = sign :: rest)
    (right : Reading op.rightLevel opened { q with left := rest } r us u) :
    Reading level opened p (r.emit (.binary op) sign.line) (ts ++ sign :: us)
      (.binary op sign e u) where
  left := by
    have rest_eq : rest = us ++ r.left := right.left
    simp [reading.left, passed, rest_eq, emit]
  endLine := right.endLine.trans reading.endLine
  derives := (home.binary role right.derives).of_home admits
  shallow := by
    have left_shallow := reading.shallow
    have right_shallow := right.shallow
    simp only [Tree.nesting]
    omega
  emitted := reading.emitted.binary right.emitted op sign
  ready := ⟨right.ready.silent, right.ready.sound, right.ready.cut, right.ready.room⟩

/-- Behind the longer expression the next operator finds it at its own level again. -/
theorem home_binary {r : Progress} {us : List Token} {u : Tree} {sign : Token} {op op' : BinaryOp}
    (home : Derives op.home ts e) (role : Role.ofKind sign.kind = .operator op)
    (right : Derives op.rightLevel us u) (stopped : r.operator? op.rightLevel = none)
    (due : r.operator? level = some op') :
    Derives op'.home (ts ++ sign :: us) (.binary op sign e u) := by
  have joined := home.binary role right
  cases op with
  | add | subtract =>
    rw [home_of_stopped stopped due]
    exact joined
  | multiply | divide => exact joined.of_product op'

/-- The loop, started behind an expression. Each round makes the expression longer by the operator
that comes next, and a report made in a right operand is the report of the loop. -/
theorem climb_outcome {right : Level → Progress → Progress}
    (settled : level = .operand ∨ Mark.settle opened = opened)
    (right_kept : ∀ l q, q.reports.toList <+: (right l q).reports.toList)
    (right_outcome : ∀ op q, level.admits op = true → Ready q →
      Outcome op.rightLevel opened q (right op.rightLevel q))
    (rounds : List Token) (enough : q.left.length ≤ rounds.length)
    (reading : Reading level opened p q ts e)
    (home : ∀ op, q.operator? level = some op → Derives op.home ts e) :
    Outcome level opened p (climb right level rounds q) := by
  -- On the rounds. What has been read so far is always something the next operator can join.
  induction rounds generalizing q ts e with
  | nil =>
    have left : q.left = [] := by simpa using enough
    have stopped : q.operator? level = none := by
      cases due : q.operator? level with
      | none => rfl
      | some op =>
        obtain ⟨sign, rest, nonempty, _⟩ := operator_cons due
        simp [left] at nonempty
    exact .inl ⟨ts, e, reading, stopped⟩
  | cons _ rounds ih =>
    simp only [climb]
    cases due : q.operator? level with
    | none => exact .inl ⟨ts, e, reading, due⟩
    | some op =>
      obtain ⟨sign, rest, left, role, admits⟩ := operator_cons due
      simp only [reading.ready.advance_cons left, lookahead_cons left]
      rcases right_outcome op _ admits (reading.ready.next left) with
        ⟨us, u, right_reading, stopped⟩ | ⟨d, first, blamed⟩
      · have longer := reading.binary (home op due) role admits left right_reading
        refine ih ?_ longer fun op' due' =>
          home_binary (home op due) role right_reading.derives stopped due'
        have used := congrArg List.length right_reading.left
        simp only [left, List.length_cons, List.length_append, emit] at enough used ⊢
        omega
      · have settled := settled.resolve_left (Level.not_operand admits)
        have behind : Outlook.read maxNesting (.operand opened) (ts ++ [sign]) =
            some (.operand opened) := by
          rw [Outlook.read_append (reading.read (.inr settled)), settled]
          exact Outlook.read_cons (Outlook.step_operator (Role.continued_of_operator role))
        refine Outcome.of_blamed (q := { q with left := rest }) (by simp [reading.left, left])
          reading.endLine behind ?_ blamed ?_
        · simp [reading.counted, Role.operator_not_number role]
        · have emitted := first_of_prefix (kept_reports.emit _ (.binary op) sign.line) first
          exact first_of_prefix (kept_reports.climb right_kept ..) emitted

theorem stopped_operand (p : Progress) : p.operator? .operand = none := by
  unfold operator?
  split <;> rfl

theorem operand_outcome {right : Level → Progress → Progress}
    (settled : level = .operand ∨ Mark.settle opened = opened)
    (right_kept : ∀ l q, q.reports.toList <+: (right l q).reports.toList)
    (right_outcome : ∀ op q, level.admits op = true → Ready q →
      Outcome op.rightLevel opened q (right op.rightLevel q))
    (operand : Outcome .operand opened p q) :
    Outcome level opened p (climb right level q.left q) := by
  rcases operand with ⟨ts, e, reading, _⟩ | ⟨d, first, blamed⟩
  · have any_level : Reading level opened p q ts e :=
      { reading with derives := reading.derives.of_operand }
    exact climb_outcome settled right_kept right_outcome q.left (Nat.le_refl _) any_level
      fun _ _ => reading.derives.of_operand
  · exact .inr ⟨d, first_of_prefix (kept_reports.climb right_kept ..) first, blamed⟩

theorem stream_lookahead (p : Progress) : ∃ after, p.stream = p.lookahead :: after := by
  cases left : p.left with
  | nil => exact ⟨[], by simp [stream, lookahead, left]⟩
  | cons t rest => exact ⟨rest ++ [.ending p.endLine], by simp [stream, lookahead, left]⟩

theorem Ready.advance_silent (ready : Ready p) : p.advance.reports = #[] := by
  cases left : p.left with
  | nil => rw [ready.advance_nil left, ready.silent]
  | cons t rest => rw [ready.advance_cons left, ready.silent]

theorem blamed_lookahead {complaint : Complaint} {count : Nat}
    (blames : Blames (.operand opened) count p.lookahead complaint.category) :
    Blamed (.operand opened) count p.stream (.about p.lookahead complaint) := by
  obtain ⟨after, same⟩ := p.stream_lookahead
  exact same ▸ blames.here after

theorem missing_outcome (ready : Ready p)
    (lost : Outlook.step maxNesting (.operand opened) p.lookahead.kind = none) :
    Outcome level opened p (p.advance.report p.lookahead .expressionExpected) :=
  .inr ⟨_, first_report ready.advance_silent _ _, blamed_lookahead (.grammar lost (by simp))⟩

theorem emitLoad_frame (p : Progress) (index line : Nat) :
    (p.emitLoad index line).left = p.left ∧ (p.emitLoad index line).endLine = p.endLine ∧
      (p.emitLoad index line).reports = p.reports := by
  unfold emitLoad
  split <;> exact ⟨rfl, rfl, rfl⟩

theorem Ready.literal (ready : Ready p) (within : opened.length ≤ maxNesting) {t : Token}
    {rest : List Token} {value : Number} (left : p.left = t :: rest) (number : t.kind = .number)
    (denotes : t.value? = some value) (room : p.chunk.constants.size < 65536) :
    Reading .operand opened p (emitConstant { p with left := rest } t value) [t] (.number t) := by
  have emitted := emitConstant_emitted (p := { p with left := rest }) room denotes
  have size := emitted.size
  have frame : (emitConstant { p with left := rest } t value).left = rest ∧
      (emitConstant { p with left := rest } t value).endLine = p.endLine ∧
      (emitConstant { p with left := rest } t value).reports = p.reports := by
    simp only [emitConstant, if_pos room]
    exact emitLoad_frame ..
  have next := ready.next left
  refine ⟨by simp [left, frame.1], frame.2.1, .number number, within, emitted, ?_⟩
  refine ⟨frame.2.2.trans ready.silent, ?_, ?_, ?_⟩
  · rw [frame.1]
    exact next.sound
  · rw [frame.1]
    exact next.cut
  · simp only [Tree.numbers, List.length_singleton] at size
    omega

theorem literal_outcome (ready : Ready p) (within : opened.length ≤ maxNesting)
    (number : p.lookahead.kind = .number) :
    Outcome .operand opened p (p.advance.emitLiteral p.lookahead) := by
  cases left : p.left with
  | nil =>
    rw [lookahead_nil left] at number
    cases number
  | cons t rest =>
    have lookahead := lookahead_cons left
    obtain ⟨value, denotes⟩ := (ready.cut t (by simp [left])).denotes (lookahead ▸ number)
    have parsed : Number.ofLiteral? t.lexeme.toList = some value := denotes
    by_cases room : p.chunk.constants.size < 65536
    · have reading := ready.literal within left (lookahead ▸ number) denotes room
      simp only [ready.advance_cons left, lookahead, emitLiteral, parsed]
      exact .inl ⟨[t], .number t, reading, stopped_operand _⟩
    · have full : p.chunk.constants.size = 65536 :=
        Nat.le_antisymm ready.room (Nat.le_of_not_lt room)
      have blamed : Blamed (.operand opened) p.chunk.constants.size p.stream
          (.about p.lookahead .tooManyConstants) := blamed_lookahead (.capacity number full)
      refine .inr ⟨_, ?_, blamed⟩
      simp only [ready.advance_cons left, lookahead, emitLiteral, parsed, emitConstant, if_neg room]
      exact first_report ready.silent t .tooManyConstants

theorem nested_outcome {inner : Progress → Progress} {mark : Mark} {t : Token} {rest : List Token}
    (ready : Ready p) (left : p.left = t :: rest)
    (opens : Outlook.step maxNesting (.operand opened) t.kind =
      if opened.length < maxNesting then some (.operand (mark :: opened)) else none)
    (inner_outcome : opened.length < maxNesting →
      Outcome level (mark :: opened) { p with left := rest } (inner { p with left := rest })) :
    (∃ us u, Reading level (mark :: opened) { p with left := rest }
        (nested inner opened.length t { p with left := rest }) us u ∧
        (nested inner opened.length t { p with left := rest }).operator? level = none) ∨
      ∃ d, (nested inner opened.length t { p with left := rest }).first? = some d ∧
        Blamed (.operand opened) p.chunk.constants.size p.stream d := by
  have not_number : t.isNumber = false := by
    rw [Token.isNumber, decide_eq_false_iff_not]
    intro number
    rw [number] at opens
    split at opens <;> cases opens
  unfold nested
  split
  · rename_i deep
    have lost : Outlook.step maxNesting (.operand opened) p.lookahead.kind = none := by
      rw [lookahead_cons left, opens, if_neg (Nat.not_lt_of_le deep)]
    have blamed : Blamed (.operand opened) p.chunk.constants.size p.stream
        (.about p.lookahead .nestedTooDeeply) := blamed_lookahead (.grammar lost (by simp))
    rw [lookahead_cons left] at blamed
    exact .inr ⟨_, first_report ready.silent t .nestedTooDeeply, blamed⟩
  · rename_i shallow
    have room := Nat.lt_of_not_le shallow
    rcases inner_outcome room with reading | ⟨d, first, blamed⟩
    · exact .inl reading
    · have stream : p.stream = [t] ++ ({ p with left := rest } : Progress).stream := by
        simp [Progress.stream, left]
      have enter : Outlook.read maxNesting (.operand opened) [t] =
          some (.operand (mark :: opened)) := by
        rw [if_pos room] at opens
        exact Outlook.read_cons opens
      refine .inr ⟨d, first, ?_⟩
      rw [stream]
      exact blamed.later enter (by simp [not_number])

theorem Reading.group {r : Progress} {t closing : Token} {rest more us : List Token} {u : Tree}
    (left : p.left = t :: rest) (opening : t.kind = .punctuation .leftParen)
    (inside : Reading .sum (.group :: opened) { p with left := rest } r us u)
    (behind : r.left = closing :: more) (closes : closing.kind = .punctuation .rightParen) :
    Reading .operand opened p { r with left := more } (t :: (us ++ [closing])) (.group u) where
  left := by
    have rest_eq : rest = us ++ r.left := inside.left
    simp [left, rest_eq, behind]
  endLine := inside.endLine
  derives := .group opening inside.derives closes
  shallow := by
    have shallow := inside.shallow
    simp only [List.length_cons, Tree.nesting] at shallow ⊢
    omega
  emitted := inside.emitted.group
  ready := inside.ready.next behind

theorem Reading.negate {r : Progress} {t : Token} {rest us : List Token} {u : Tree}
    (left : p.left = t :: rest) (minus : t.kind = .punctuation .minus)
    (inside : Reading .operand (.minus :: opened) { p with left := rest } r us u) :
    Reading .operand opened p (r.emit .negate t.line) (t :: us) (.negate t u) where
  left := by
    have rest_eq : rest = us ++ r.left := inside.left
    simp [left, rest_eq, emit]
  endLine := inside.endLine
  derives := .negate minus inside.derives
  shallow := by
    have shallow := inside.shallow
    simp only [List.length_cons, Tree.nesting] at shallow ⊢
    omega
  emitted := inside.emitted.negate t
  ready := ⟨inside.ready.silent, inside.ready.sound, inside.ready.cut, inside.ready.room⟩

theorem not_continued (stopped : p.operator? .sum = none) :
    Level.sum.continued p.lookahead.kind = false := by
  rw [Bool.eq_false_iff]
  intro mark
  obtain ⟨op, role⟩ := Role.operator_of_continued mark
  rw [operator_eq_some.mpr ⟨role, rfl⟩] at stopped
  cases stopped

theorem closing_outcome {r : Progress} {t : Token} {rest us : List Token} {u : Tree}
    (left : p.left = t :: rest) (opening : t.kind = .punctuation .leftParen)
    (room : opened.length < maxNesting)
    (inside : Reading .sum (.group :: opened) { p with left := rest } r us u)
    (stopped : r.operator? .sum = none) :
    Outcome .operand opened p (r.consume (.punctuation .rightParen) .closingExpected) := by
  unfold consume
  split
  · rename_i closes
    cases behind : r.left with
    | nil =>
      rw [lookahead_nil behind] at closes
      cases closes
    | cons closing more =>
      rw [lookahead_cons behind] at closes
      rw [inside.ready.advance_cons behind]
      exact .inl ⟨_, _, inside.group left opening behind closes, stopped_operand _⟩
  · rename_i other
    have lost : Outlook.step maxNesting (.operator (.group :: opened)) r.lookahead.kind = none := by
      unfold Outlook.step
      split <;> simp_all [not_continued stopped]
    have enter : Outlook.step maxNesting (.operand opened) t.kind =
        some (.operand (.group :: opened)) := by
      simp [opening, Outlook.step, room]
    have within : Outlook.read maxNesting (.operand opened) (t :: us) =
        some (.operator (.group :: opened)) := by
      rw [Outlook.read_cons enter, inside.read (.inr rfl), Mark.settle_group]
    obtain ⟨after, ahead⟩ := r.stream_lookahead
    have blamed : Blamed (.operator (.group :: opened)) r.chunk.constants.size r.stream
        (.about r.lookahead .closingExpected) := by
      rw [ahead]
      exact Blames.here (.grammar lost (by simp)) after
    have rest_eq : rest = us ++ r.left := inside.left
    refine Outcome.of_blamed (q := r) (by simp [left, rest_eq]) inside.endLine within ?_ blamed
      (first_report inside.ready.silent _ _)
    simp [inside.counted, Token.isNumber, opening]

theorem group_outcome {inner : Progress → Progress} {t : Token} {rest : List Token}
    (ready : Ready p) (left : p.left = t :: rest) (opening : t.kind = .punctuation .leftParen)
    (inner_outcome : opened.length < maxNesting →
      Outcome .sum (.group :: opened) { p with left := rest } (inner { p with left := rest })) :
    Outcome .operand opened p
      ((nested inner opened.length t { p with left := rest }).consume (.punctuation .rightParen)
        .closingExpected) := by
  have opens : Outlook.step maxNesting (.operand opened) t.kind =
      if opened.length < maxNesting then some (.operand (.group :: opened)) else none := by
    simp [opening, Outlook.step]
  rcases nested_outcome ready left opens inner_outcome with
    ⟨us, u, inside, stopped⟩ | ⟨d, first, blamed⟩
  · have room : opened.length < maxNesting := by
      have shallow := inside.shallow
      simp only [List.length_cons] at shallow
      omega
    exact closing_outcome left opening room inside stopped
  · exact .inr ⟨d, first_of_prefix (kept_reports.consume _ _ _ (by decide)) first, blamed⟩

theorem negate_outcome {inner : Progress → Progress} {t : Token} {rest : List Token}
    (ready : Ready p) (left : p.left = t :: rest) (minus : t.kind = .punctuation .minus)
    (inner_outcome : opened.length < maxNesting →
      Outcome .operand (.minus :: opened) { p with left := rest } (inner { p with left := rest })) :
    Outcome .operand opened p
      ((nested inner opened.length t { p with left := rest }).emit .negate t.line) := by
  have opens : Outlook.step maxNesting (.operand opened) t.kind =
      if opened.length < maxNesting then some (.operand (.minus :: opened)) else none := by
    simp [minus, Outlook.step]
  rcases nested_outcome ready left opens inner_outcome with
    ⟨us, u, inside, _⟩ | ⟨d, first, blamed⟩
  · exact .inl ⟨_, _, inside.negate left minus, stopped_operand _⟩
  · exact .inr ⟨d, first, blamed⟩

theorem operator_lost {kind : Kind} (literal : Role.ofKind kind ≠ .literal)
    (opening : Role.ofKind kind ≠ .opening) (minus : Role.ofKind kind ≠ .operator .subtract) :
    Outlook.step maxNesting (.operand opened) kind = none := by
  rw [Ne, Role.literal_iff] at literal
  rw [Ne, Role.opening_iff] at opening
  rw [Ne, Role.subtract_iff] at minus
  unfold Outlook.step
  split <;> simp_all

def Frames (level : Level) (depth frames : Nat) : Prop :=
  3 * (maxNesting - depth) + level.height ≤ frames

theorem Frames.inside {level' : Level} {depth frames : Nat} (within : depth < maxNesting)
    (enough : Frames level depth (frames + 1)) : Frames level' (depth + 1) frames := by
  have lowest : 1 ≤ level.height := by cases level <;> decide
  have highest : level'.height ≤ 3 := by cases level' <;> decide
  unfold Frames at enough ⊢
  omega

theorem Frames.right {op : BinaryOp} {depth frames : Nat} (admits : level.admits op = true)
    (enough : Frames level depth (frames + 1)) : Frames op.rightLevel depth frames := by
  have lower := Level.rightLevel_height admits
  unfold Frames at enough ⊢
  omega

theorem expression_outcome (frames : Nat) (ready : Ready p)
    (within : opened.length ≤ maxNesting)
    (settled : level = .operand ∨ Mark.settle opened = opened)
    (enough : Frames level opened.length frames) :
    Outcome level opened p (expression frames opened.length level p) := by
  -- On the frames. A right operand is a level lower, and inside of a mark the nesting is deeper.
  induction frames generalizing level opened p with
  | zero =>
    have positive : 1 ≤ level.height := by cases level <;> decide
    unfold Frames at enough
    omega
  | succ frames ih =>
    have right_outcome (op : BinaryOp) (q : Progress) (admits : level.admits op = true)
        (q_ready : Ready q) :
        Outcome op.rightLevel opened q (expression frames opened.length op.rightLevel q) :=
      ih q_ready within (.inr (settled.resolve_left (Level.not_operand admits)))
        (enough.right admits)
    have loop (q : Progress) (operand : Outcome .operand opened p q) :
        Outcome level opened p (climb (expression frames opened.length) level q.left q) :=
      operand_outcome settled (kept_reports.expression frames opened.length) right_outcome operand
    simp only [expression]
    cases left : p.left with
    | nil =>
      have missing : Outcome level opened p (p.advance.report p.lookahead .expressionExpected) :=
        missing_outcome ready (by rw [lookahead_nil left]; rfl)
      rw [lookahead_nil left] at missing ⊢
      exact missing
    | cons t rest =>
      rw [lookahead_cons left, ready.advance_cons left]
      split
      · rename_i literal
        have literal := literal_outcome ready within
          (by rw [lookahead_cons left]; exact (Role.literal_iff _).mp literal)
        rw [lookahead_cons left, ready.advance_cons left] at literal
        exact loop _ literal
      · rename_i opening
        refine loop _ (group_outcome ready left ((Role.opening_iff _).mp opening) fun room => ?_)
        exact ih (ready.next left) room (.inr rfl) (enough.inside room)
      · rename_i minus
        refine loop _ (negate_outcome ready left ((Role.subtract_iff _).mp minus) fun room => ?_)
        exact ih (ready.next left) room (.inl rfl) (enough.inside room)
      · rename_i literal opening minus
        have lost : Outlook.step maxNesting (.operand opened) p.lookahead.kind = none := by
          rw [lookahead_cons left]
          exact operator_lost literal opening minus
        have missing : Outcome level opened p (p.advance.report p.lookahead .expressionExpected) :=
          missing_outcome ready lost
        rwa [lookahead_cons left, ready.advance_cons left] at missing

end StackCalc.Progress
