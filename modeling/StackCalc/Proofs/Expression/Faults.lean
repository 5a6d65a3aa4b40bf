import StackCalc.Proofs.Expression.Acceptance
import StackCalc.Proofs.Expression.Numbering

/-! Which error comes first when a script has faults and other errors. Faults are reported when they
are passed, and reading looks one token ahead. So an error of the script without its faults is
reported as it is, unless a fault stands before the last token that was looked at. -/
namespace StackCalc

/-- A complaint about the token that comes next. All others are about the token just read. -/
def Complaint.aboutNext : Complaint → Bool
  | .closingExpected | .endExpected => true
  | _ => false

theorem Complaint.category_of_aboutNext {complaint : Complaint}
    (about : complaint.aboutNext = true) : complaint.category = .grammar := by
  unfold aboutNext at about
  split at about
  · rfl
  · rfl
  · cases about

/-- What of a stream has been passed when a report is made. To read a token is to look for the next
one that is no fault, so a report about the token just read comes behind all faults that follow it.
Behind the ending there is nothing to look for. -/
inductive Made (stream : List Token) : Diagnostic → List Token → Prop where
  | next {before after : List Token} {t : Token} {complaint : Complaint} :
      complaint.aboutNext = true → t.isFault = false → stream = before ++ t :: after →
        Made stream (.about t complaint) before
  | read {before faults after : List Token} {t u : Token} {complaint : Complaint} :
      complaint.aboutNext = false → complaint.category ≠ .lexical → t.isFault = false →
      u.isFault = false → (∀ f ∈ faults, f.isFault = true) →
      stream = before ++ t :: (faults ++ u :: after) →
        Made stream (.about t complaint) (before ++ t :: faults)
  | ending {before : List Token} {t : Token} {complaint : Complaint} :
      complaint.aboutNext = false → complaint.category ≠ .lexical → t.isFault = false →
      stream = before ++ [t] → Made stream (.about t complaint) before

namespace Progress

theorem passFaults_split (left : List Token) (reports : Array Diagnostic) : ∃ faults,
    left = faults ++ (passFaults left reports).1 ∧ (∀ f ∈ faults, f.isFault = true) ∧
    (passFaults left reports).2.toList = reports.toList ++ faults.filterMap faultReport? := by
  fun_induction passFaults left reports with
  | case1 => exact ⟨[], by simp⟩
  | case2 t left reports cause fault ih =>
    obtain ⟨faults, split, all_faults, reported⟩ := ih
    refine ⟨t :: faults, congrArg _ split, ?_, ?_⟩
    · exact List.forall_mem_cons.mpr ⟨by simp [Token.isFault, fault], all_faults⟩
    · rw [reported]
      simp [faultReport?, fault]
  | case3 => exact ⟨[], by simp⟩

theorem settle_split (p : Progress) : ∃ faults, p.left = faults ++ p.settle.left ∧
    (∀ f ∈ faults, f.isFault = true) ∧
    p.settle.first? = p.first?.or (faults.findSome? faultReport?) := by
  obtain ⟨faults, split, all_faults, reported⟩ := passFaults_split p.left p.reports
  refine ⟨faults, split, all_faults, ?_⟩
  rw [first?, settle, reported, List.head?_append, List.head?_filterMap]
  rfl

/-- The same reading with and without faults in the script, when the tokens `seen` are passed. The
reading without faults says nothing of them, so that what it reports first is reported only if no
fault came before it. -/
structure Follows (script : Script) (seen : List Token) (p q : Progress) : Prop where
  tokens : script.tokens = seen ++ p.left
  left : q.left = p.left.filter fun t => !t.isFault
  endLine : p.endLine = script.endLine
  same_end : q.endLine = script.endLine
  chunk : q.chunk = p.chunk
  quiet : q.reports = #[] → p.first? = seen.findSome? faultReport?
  spoken : ∀ d, q.first? = some d → ∃ passed, Made script.stream d passed ∧
    p.first? = (passed.findSome? faultReport?).or (some d)

def Shadows (script : Script) (p q : Progress) : Prop :=
  p.Settled ∧ ∃ seen, Follows script seen p q

def JustRead (script : Script) (seen : List Token) (t : Token) : Prop :=
  ∀ complaint : Complaint, complaint.aboutNext = false → complaint.category ≠ .lexical →
    Made script.stream (.about t complaint) seen

variable {script : Script} {seen : List Token} {p q : Progress} {t : Token}

namespace Follows

variable (follows : Follows script seen p q)

include follows

theorem same_lookahead (settled : p.Settled) : q.lookahead = p.lookahead := by
  have left := follows.left
  cases p_left : p.left with
  | nil =>
    rw [p_left, List.filter_nil] at left
    rw [lookahead_nil left, lookahead_nil p_left, follows.same_end, follows.endLine]
  | cons t rest =>
    have sound : t.isFault = false := settled t (by simp [p_left])
    rw [p_left, List.filter_cons_of_pos (by simp [sound])] at left
    rw [lookahead_cons left, lookahead_cons p_left]

theorem stream_next (settled : p.Settled) : p.lookahead.isFault = false ∧
    ∃ after, script.stream = seen ++ p.lookahead :: after := by
  have ending : script.ending = .ending p.endLine := by rw [Script.ending, follows.endLine]
  cases left : p.left with
  | nil =>
    rw [lookahead_nil left]
    refine ⟨rfl, [], ?_⟩
    simp [Script.stream, follows.tokens, left, ending]
  | cons t rest =>
    rw [lookahead_cons left]
    refine ⟨settled t (by simp [left]), rest ++ [script.ending], ?_⟩
    simp [Script.stream, follows.tokens, left]

theorem report {complaint : Complaint}
    (made : Made script.stream (.about t complaint) seen) :
    Follows script seen (p.report t complaint) (q.report t complaint) where
  tokens := follows.tokens
  left := follows.left
  endLine := follows.endLine
  same_end := follows.same_end
  chunk := follows.chunk
  quiet := by simp [Progress.report]
  spoken d spoken := by
    have first : (p.report t complaint).first? = p.first?.or (some (.about t complaint)) := by
      simp [first?, Progress.report]
    have other : (q.report t complaint).first? = q.first?.or (some (.about t complaint)) := by
      simp [first?, Progress.report]
    rw [first]
    rw [other] at spoken
    cases before : q.first? with
    | none =>
      have quiet : q.reports = #[] := by simpa [first?] using before
      rw [before, Option.none_or] at spoken
      cases spoken
      exact ⟨seen, made, by rw [follows.quiet quiet]⟩
    | some d' =>
      rw [before, Option.some_or] at spoken
      cases spoken
      obtain ⟨passed, earlier, told⟩ := follows.spoken d before
      exact ⟨passed, earlier, by rw [told, Option.or_assoc, Option.some_or]⟩

theorem write (chunk : Chunk) :
    Follows script seen { p with chunk } { q with chunk } :=
  ⟨follows.tokens, follows.left, follows.endLine, follows.same_end, rfl, follows.quiet,
    follows.spoken⟩

theorem sound : ∀ t ∈ q.left, t.isFault = false := by
  rw [follows.left]
  simp

/-- Faults at the front are passed and told of. Where something was reported before, that changes
nothing in what was first. -/
theorem settle : ∃ faults, (∀ f ∈ faults, f.isFault = true) ∧
    Follows script (seen ++ faults) p.settle q := by
  obtain ⟨faults, split, all_faults, first⟩ := p.settle_split
  refine ⟨faults, all_faults, ?_, ?_, follows.endLine, follows.same_end, follows.chunk, ?_, ?_⟩
  · rw [List.append_assoc, ← split, follows.tokens]
  · have none_kept : faults.filter (fun t => !t.isFault) = [] := by
      simpa [List.filter_eq_nil_iff] using all_faults
    simp [follows.left, split, none_kept]
  · intro quiet
    rw [first, follows.quiet quiet, List.findSome?_append]
  · intro d spoken
    obtain ⟨passed, made, told⟩ := follows.spoken d spoken
    exact ⟨passed, made, by rw [first, told, Option.or_assoc, Option.some_or]⟩

theorem drop {rest : List Token} (left : p.left = t :: rest) (sound : t.isFault = false) :
    Follows script (seen ++ [t]) { p with left := rest } { q with left := q.left.tail } where
  tokens := by rw [follows.tokens, left, List.append_assoc, List.singleton_append]
  left := by
    have kept := follows.left
    rw [left, List.filter_cons_of_pos (by simp [sound])] at kept
    rw [kept, List.tail_cons]
  endLine := follows.endLine
  same_end := follows.same_end
  chunk := follows.chunk
  quiet silent := by
    have silent_fault := (faultReport_eq_none t).mpr sound
    rw [List.findSome?_append, List.findSome?_singleton, silent_fault, Option.or_none]
    exact follows.quiet silent
  spoken := follows.spoken

theorem advance_clean : q.advance = { q with left := q.left.tail } := by
  apply settle_sound
  exact fun t member => follows.sound t (List.mem_of_mem_tail member)

theorem advance (settled : p.Settled) : ∃ seen', Follows script seen' p.advance q.advance ∧
    JustRead script seen' p.lookahead := by
  rw [follows.advance_clean]
  cases left : p.left with
  | nil =>
    have none_left : q.left = [] := by rw [follows.left, left, List.filter_nil]
    have same : q.left.tail = q.left := by rw [none_left, List.tail_nil]
    have still : p.advance = p := by
      have same : { p with left := p.left.tail } = p := by rw [left, List.tail_nil, ← left]
      rw [Progress.advance, same]
      exact settle_sound (by simp [left])
    rw [still, same]
    refine ⟨seen, follows, ?_⟩
    intro complaint about syntactic
    refine .ending about syntactic (follows.stream_next settled).1 ?_
    rw [lookahead_nil left, Script.stream, follows.tokens, left, List.append_nil, Script.ending,
      follows.endLine]
  | cons t rest =>
    have sound : t.isFault = false := settled t (by simp [left])
    obtain ⟨faults, all_faults, further⟩ := (follows.drop left sound).settle
    have moved : p.advance = Progress.settle { p with left := rest } := by
      rw [Progress.advance, left, List.tail_cons]
    rw [← moved, List.append_assoc, List.singleton_append] at further
    refine ⟨seen ++ t :: faults, further, ?_⟩
    intro complaint about syntactic
    obtain ⟨sound_next, after, stream⟩ := further.stream_next (settle_settled _)
    rw [lookahead_cons left]
    exact .read about syntactic sound sound_next all_faults (by simpa using stream)

theorem emit (op : Opcode) (line : Nat) :
    Follows script seen (p.emit op line) (q.emit op line) := by
  rw [Progress.emit, Progress.emit, follows.chunk]
  exact follows.write _

theorem emitLoad (index line : Nat) :
    Follows script seen (p.emitLoad index line) (q.emitLoad index line) := by
  unfold Progress.emitLoad
  rw [follows.chunk]
  split <;> exact follows.write _

theorem emitLiteral (read : JustRead script seen t) :
    Follows script seen (p.emitLiteral t) (q.emitLiteral t) := by
  unfold Progress.emitLiteral
  split
  · simp only [emitConstant, follows.chunk]
    split
    · exact (follows.write _).emitLoad _ _
    · exact (follows.write _).report (read .tooManyConstants rfl (by decide))
  · exact follows.report (read _ rfl (by simp [Complaint.category]))

end Follows

theorem climb_stopped {right : Level → Progress → Progress} {level : Level} {rounds : List Token}
    (due : p.operator? level = none) : climb right level rounds p = p := by
  cases rounds with
  | nil => rfl
  | cons => simp only [climb, due]

namespace Shadows

theorem advance (shadows : Shadows script p q) : Shadows script p.advance q.advance := by
  obtain ⟨settled, seen, follows⟩ := shadows
  obtain ⟨seen, further, -⟩ := follows.advance settled
  exact ⟨settle_settled _, seen, further⟩

theorem consume (shadows : Shadows script p q) (kind : Kind) {complaint : Complaint}
    (about : complaint.aboutNext = true) :
    Shadows script (p.consume kind complaint) (q.consume kind complaint) := by
  obtain ⟨settled, seen, follows⟩ := shadows
  unfold Progress.consume
  rw [follows.same_lookahead settled]
  split
  · exact advance ⟨settled, seen, follows⟩
  · obtain ⟨sound, after, stream⟩ := follows.stream_next settled
    exact ⟨settled, seen, follows.report (.next about sound stream)⟩

theorem emit (shadows : Shadows script p q) (op : Opcode) (line : Nat) :
    Shadows script (p.emit op line) (q.emit op line) := by
  obtain ⟨settled, seen, follows⟩ := shadows
  exact ⟨settled, seen, follows.emit op line⟩

theorem emitLiteral (settled : p.Settled) (follows : Follows script seen p q)
    (read : JustRead script seen t) : Shadows script (p.emitLiteral t) (q.emitLiteral t) :=
  ⟨(kept_faults.emitLiteral p t settled).1, seen, follows.emitLiteral read⟩

theorem nested {inner : Progress → Progress}
    (inner_shadows : ∀ {p q}, Shadows script p q → Shadows script (inner p) (inner q))
    (settled : p.Settled) (follows : Follows script seen p q) (read : JustRead script seen t)
    (depth : Nat) :
    Shadows script (Progress.nested inner depth t p) (Progress.nested inner depth t q) := by
  unfold Progress.nested
  split
  · exact ⟨settled, seen, follows.report (read .nestedTooDeeply rfl (by decide))⟩
  · exact inner_shadows ⟨settled, seen, follows⟩

theorem operator (shadows : Shadows script p q) (level : Level) :
    q.operator? level = p.operator? level := by
  obtain ⟨settled, seen, follows⟩ := shadows
  rw [operator?, operator?, follows.same_lookahead settled]

/-- The rounds are the tokens left, and with faults there are more of them. But no more are needed
than there are tokens that are none. -/
theorem climb {right : Level → Progress → Progress}
    (right_left : ∀ level q, (right level q).left <:+ q.left)
    (right_shadows : ∀ level p q, Shadows script p q →
      Shadows script (right level p) (right level q))
    (level : Level) (rounds rounds' : List Token) (enough : q.left.length ≤ rounds.length)
    (enough' : q.left.length ≤ rounds'.length) (shadows : Shadows script p q) :
    Shadows script (Progress.climb right level rounds p)
      (Progress.climb right level rounds' q) := by
  induction rounds generalizing rounds' p q with
  | nil =>
    have nothing : q.left = [] := List.length_eq_zero_iff.mp (Nat.le_zero.mp enough)
    have due : q.operator? level = none := by
      simp [operator?, lookahead_nil nothing, Token.ending, Role.ofKind]
    rw [climb_stopped due, climb_stopped (shadows.operator level ▸ due)]
    exact shadows
  | cons _ rounds ih =>
    cases due : q.operator? level with
    | none =>
      rw [climb_stopped due, climb_stopped (shadows.operator level ▸ due)]
      exact shadows
    | some op =>
      have due' : p.operator? level = some op := shadows.operator level ▸ due
      obtain ⟨sign, rest, left, -⟩ := operator_cons due
      rw [left, List.length_cons] at enough enough'
      cases rounds' with
      | nil => cases enough'
      | cons _ rounds' =>
        obtain ⟨settled, seen, follows⟩ := shadows
        have one_round := (right_shadows op.rightLevel _ _ (advance ⟨settled, seen, follows⟩)).emit
          (.binary op) p.lookahead.line
        have used : (right op.rightLevel q.advance).left.length ≤ rest.length := by
          have dropped : q.advance.left = rest := by
            rw [follows.advance_clean]
            exact congrArg List.tail left
          rw [← dropped]
          exact (right_left op.rightLevel q.advance).length_le
        rw [List.length_cons] at enough enough'
        simp only [Progress.climb, due, due', follows.same_lookahead settled]
        refine ih rounds' ?_ ?_ one_round
        · exact used.trans (Nat.le_of_succ_le_succ enough)
        · exact used.trans (Nat.le_of_succ_le_succ enough')

theorem expression (frames depth : Nat) (level : Level) (shadows : Shadows script p q) :
    Shadows script (Progress.expression frames depth level p)
      (Progress.expression frames depth level q) := by
  induction frames generalizing depth level p q with
  | zero => exact shadows
  | succ frames ih =>
    obtain ⟨settled, seen, follows⟩ := shadows
    obtain ⟨seen', further, read⟩ := follows.advance settled
    have settled' : p.advance.Settled := settle_settled _
    have loop {p q : Progress} (operand : Shadows script p q) :
        Shadows script (Progress.climb (Progress.expression frames depth) level p.left p)
          (Progress.climb (Progress.expression frames depth) level q.left q) := by
      have ⟨_, seen, follows⟩ := operand
      refine operand.climb (fun level q => (kept_left.expression frames depth level q).1)
        (fun level p q => ih depth level) level p.left q.left ?_ (Nat.le_refl _)
      rw [follows.left]
      exact List.length_filter_le _ _
    simp only [Progress.expression, follows.same_lookahead settled]
    split
    · exact loop (emitLiteral settled' further read)
    · exact loop ((nested (ih (depth + 1) .sum) settled' further read depth).consume _ rfl)
    · exact loop ((nested (ih (depth + 1) .operand) settled' further read depth).emit _ _)
    · exact ⟨settled', seen', further.report (read .expressionExpected rfl (by decide))⟩

theorem whole (shadows : Shadows script p q) : Shadows script p.whole q.whole := by
  have ended := (shadows.expression maxFrames 0 .sum).consume .endOfInput
    (show Complaint.endExpected.aboutNext = true from rfl)
  have ⟨settled, seen, follows⟩ := ended
  unfold Progress.whole
  simp only [follows.same_lookahead settled]
  exact ended.emit _ _

theorem start (script : Script) :
    Shadows script (Progress.start script) (Progress.start script.withoutFaults) := by
  have blank : Follows script [] ⟨script.tokens, script.endLine, .empty, #[]⟩
      ⟨script.withoutFaults.tokens, script.endLine, .empty, #[]⟩ :=
    ⟨rfl, rfl, rfl, rfl, rfl, fun _ => rfl, nofun⟩
  obtain ⟨faults, -, follows⟩ := blank.settle
  have clean : Progress.start script.withoutFaults =
      ⟨script.withoutFaults.tokens, script.endLine, .empty, #[]⟩ := settle_sound blank.sound
  rw [clean]
  exact ⟨settle_settled _, _, follows⟩

end Shadows

end Progress

section Outcome

open Progress

variable {script : Script} {d : Diagnostic}

theorem Made.syntactic {stream passed : List Token} (made : Made stream d passed) :
    d.complaint.category ≠ .lexical := by
  cases made with
  | next about _ _ => simp [Diagnostic.about, Complaint.category_of_aboutNext about]
  | read _ syntactic => exact syntactic
  | ending _ syntactic => exact syntactic

theorem Made.passed {stream passed : List Token} (made : Made stream d passed) :
    passed <+: stream := by
  cases made with
  | next _ _ stream => exact stream ▸ List.prefix_append _ _
  | read _ _ _ _ _ stream =>
    rw [stream, ← List.cons_append, ← List.append_assoc]
    exact List.prefix_append _ _
  | ending _ _ _ stream => exact stream ▸ List.prefix_append _ _

theorem Made.about {stream passed : List Token} (made : Made stream d passed) :
    ∃ before t after, stream = before ++ t :: after ∧ t.isFault = false ∧
      d = .about t d.complaint := by
  cases made with
  | next _ sound stream => exact ⟨_, _, _, stream, sound, rfl⟩
  | read _ _ sound _ _ stream => exact ⟨_, _, _, stream, sound, rfl⟩
  | ending _ _ sound stream => exact ⟨_, _, _, stream, sound, rfl⟩

theorem firstFault_none {ts : List Token} :
    ts.findSome? faultReport? = none ↔ ∀ t ∈ ts, t.isFault = false := by
  simp only [List.findSome?_eq_none_iff, faultReport_eq_none]

theorem firstFault_some {ts : List Token} (found : ts.findSome? faultReport? = some d) :
    ∃ before f after cause, ts = before ++ f :: after ∧ (∀ t ∈ before, t.isFault = false) ∧
      f.kind = .fault cause ∧ d = ⟨.lexical cause, f.line, .unspecified⟩ := by
  obtain ⟨before, f, after, split, reported, sound⟩ := List.findSome?_eq_some_iff.mp found
  unfold faultReport? at reported
  split at reported
  · rename_i cause kind
    cases reported
    refine ⟨before, f, after, cause, split, ?_, kind, ?_⟩
    · exact fun t member => (faultReport_eq_none t).mp (sound t member)
    · simp [Diagnostic.about, Place.ofToken, kind]
  · cases reported

theorem Compilation.outcome_eq_error {script : Script} {d : Diagnostic} :
    (ofScript script).outcome = .error d ↔ (start script).whole.first? = some d := by
  constructor
  · intro failed
    unfold outcome at failed
    split at failed
    · cases failed
    · rename_i first others reports
      cases failed
      exact congrArg List.head? reports
  · exact outcome_of_first

theorem first_of_clean {c : Chunk} (cut : ∀ t ∈ script.tokens, t.Cut)
    (clean : (Compilation.ofScript script.withoutFaults).outcome = .ok c) :
    (start script).whole.first? = script.tokens.findSome? faultReport? := by
  obtain ⟨settled, seen, follows⟩ := (Shadows.start script).whole
  have quiet := Compilation.silent_of_outcome clean
  have cut' : ∀ t ∈ script.withoutFaults.tokens, t.Cut :=
    fun t member => cut t (List.mem_filter.mp member).1
  have used := left_of_silent cut' quiet
  have nothing : (start script).whole.left = [] := by
    cases left : (start script).whole.left with
    | nil => rfl
    | cons t rest =>
      have sound := settled t (by simp [left])
      have kept := follows.left
      rw [used, left, List.filter_cons_of_pos (by simp [sound])] at kept
      cases kept
  simp [follows.quiet quiet, follows.tokens, nothing]

theorem first_of_failed (failed : (Compilation.ofScript script.withoutFaults).outcome = .error d) :
    ∃ passed, Made script.stream d passed ∧
      (start script).whole.first? = (passed.findSome? faultReport?).or (some d) := by
  obtain ⟨-, seen, follows⟩ := (Shadows.start script).whole
  exact follows.spoken d (Compilation.outcome_eq_error.mp failed)

theorem first_lexical (cut : ∀ t ∈ script.tokens, t.Cut)
    (failed : (Compilation.ofScript script).outcome = .error d)
    (lexical : d.complaint.category = .lexical) :
    script.stream.findSome? faultReport? = some d := by
  have first := Compilation.outcome_eq_error.mp failed
  cases clean : (Compilation.ofScript script.withoutFaults).outcome with
  | ok c =>
    rw [first_of_clean cut clean] at first
    simp [Script.stream, first]
  | error d' =>
    obtain ⟨passed, made, told⟩ := first_of_failed clean
    rw [told] at first
    cases found : passed.findSome? faultReport? with
    | none =>
      rw [found, Option.none_or] at first
      cases first
      exact absurd lexical made.syntactic
    | some d'' =>
      rw [found, Option.some_or] at first
      cases first
      obtain ⟨after, stream⟩ := made.passed
      rw [← stream, List.findSome?_append, found, Option.some_or]

end Outcome

/-- The position up to which faults come first, for a complaint about the token at a position. That
is the token itself if the complaint is about the next token, or if it is about the ending. Else it
is the next token behind it that is no fault. -/
def Script.horizon (script : Script) (complaint : Complaint) (i : Nat) : Nat :=
  if complaint.aboutNext ∨ i = script.tokens.length then i
  else i + 1 + ((script.stream.drop (i + 1)).takeWhile Token.isFault).length

theorem Made.horizon {script : Script} {d : Diagnostic} {passed : List Token}
    (made : Made script.numbered.stream d passed) :
    passed.length = script.horizon d.complaint d.line := by
  have length : script.numbered.stream.length = script.tokens.length + 1 := by
    simp [Script.stream, Script.numbered]
  cases made with
  | @next _ _ t complaint about _ stream =>
    have line : t.line = passed.length := Script.numbered_line stream
    simp only [Script.horizon, Diagnostic.about, about, true_or, if_true, line]
  | @read before faults after t u complaint about _ _ sound all_faults stream =>
    have line : t.line = before.length := Script.numbered_line stream
    have inside : before.length ≠ script.tokens.length := by
      simp only [stream, List.length_append, List.length_cons] at length
      omega
    -- The faults behind the token, with their lines put back in.
    have behind : (script.stream.drop (before.length + 1)).takeWhile Token.isFault =
        faults.map (Token.relabel script.lineAt) := by
      have rest : (before ++ t :: (faults ++ u :: after)).drop (before.length + 1) =
          faults ++ u :: after := by simp
      have same : Token.isFault ∘ Token.relabel script.lineAt = Token.isFault := rfl
      rw [← script.stream_lines, stream, ← List.map_drop, rest, List.takeWhile_map, same,
        List.takeWhile_append_of_pos all_faults, List.takeWhile_cons_of_neg (by simp [sound]),
        List.append_nil]
    have next_only : ¬ (complaint.aboutNext = true ∨ before.length = script.tokens.length) := by
      simp [about, inside]
    simp only [Script.horizon, Diagnostic.about, line, if_neg next_only, behind, List.length_map,
      List.length_append, List.length_cons]
    omega
  | @ending _ t complaint about _ _ stream =>
    have line : t.line = passed.length := Script.numbered_line stream
    have last : passed.length = script.tokens.length := by simpa [stream] using length
    simp only [Script.horizon, Diagnostic.about, line, last, or_true, if_true]

theorem Made.stream_take {script : Script} {d : Diagnostic} {passed : List Token}
    (made : Made script.numbered.stream d passed) :
    script.stream.take (script.horizon d.complaint d.line) =
      passed.map (Token.relabel script.lineAt) := by
  rw [← made.horizon, ← script.stream_lines, ← List.map_take,
    ← List.prefix_iff_eq_take.mp made.passed]

theorem compile_of_first {source : String} {d : Diagnostic}
    (first : (Progress.start (Script.ofString source).numbered).whole.first? = some d) :
    compile source = .error (d.relabel (Script.ofString source).lineAt) := by
  rw [compile_numbered, Compilation.error_relabel (Compilation.outcome_of_first first)]

theorem compile_of_passed {source : String} {d : Diagnostic} {passed : List Token}
    (made : Made (Script.ofString source).numbered.stream d passed)
    (told : (Progress.start (Script.ofString source).numbered).whole.first? =
      (passed.findSome? Progress.faultReport?).or (some d)) :
    ((∃ d', compile source = .error d' ∧ d'.complaint.category = .lexical) ↔
      ∃ f ∈ passed, f.isFault = true) ∧
    ((∀ f ∈ passed, f.isFault = false) →
      compile source = .error (d.relabel (Script.ofString source).lineAt)) := by
  cases found : passed.findSome? Progress.faultReport? with
  | none =>
    rw [found, Option.none_or] at told
    have failed := compile_of_first told
    have sound := firstFault_none.mp found
    refine ⟨⟨?_, ?_⟩, fun _ => failed⟩
    · rintro ⟨d', failed', lexical⟩
      cases failed.symm.trans failed'
      exact absurd lexical made.syntactic
    · rintro ⟨f, member, fault⟩
      rw [sound f member] at fault
      cases fault
  | some d' =>
    rw [found, Option.some_or] at told
    have failed := compile_of_first told
    obtain ⟨before, f, after, cause, rfl, -, kind, rfl⟩ := firstFault_some found
    have fault : f.isFault = true := by simp [Token.isFault, kind]
    refine ⟨⟨fun _ => ⟨f, by simp, fault⟩, fun _ => ⟨_, failed, rfl⟩⟩, ?_⟩
    intro sound
    rw [sound f (by simp)] at fault
    cases fault

def Script.clean (script : Script) : Except Diagnostic Chunk :=
  (Compilation.ofScript script.withoutFaults).outcome

theorem Script.clean_numbered {script : Script} {d : Diagnostic} (clean : script.clean = .error d) :
    ∃ d', script.numbered.clean = .error d' ∧ d = d'.relabel script.lineAt := by
  have relabeled := Compilation.ofScript_relabel script.lineAt script.numbered.withoutFaults
  rw [← Script.withoutFaults_relabel, Script.numbered_relabel] at relabeled
  cases numbered : script.numbered.clean with
  | ok c =>
    rw [Script.clean, relabeled, Compilation.ok_relabel numbered] at clean
    cases clean
  | error d' =>
    rw [Script.clean, relabeled, Compilation.error_relabel numbered] at clean
    cases clean
    exact ⟨d', rfl, rfl⟩

theorem Script.stream_fault (script : Script) :
    (∃ f ∈ script.stream, f.isFault = true) ↔ ∃ f ∈ script.tokens, f.isFault = true := by
  simp [Script.stream, Script.ending, Token.ending, Token.isFault, or_and_right, exists_or]

/-- A fault wins over another error exactly if it stands before the horizon of that error, and of
the faults the first one is reported. -/
theorem compile_with_faults (source : String) :
    (∀ c, (Script.ofString source).clean = .ok c → ((∃ d, compile source = .error d) ↔
      ∃ f ∈ (Script.ofString source).stream, f.isFault = true)) ∧
    (∀ d, (Script.ofString source).clean = .error d → ∃ i t,
      (Script.ofString source).numbered.clean = .error { d with line := i } ∧
      (Script.ofString source).stream[i]? = some t ∧ t.isFault = false ∧
      d = .about t d.complaint ∧
      ((∃ d', compile source = .error d' ∧ d'.complaint.category = .lexical) ↔
        ∃ f ∈ (Script.ofString source).stream.take
          ((Script.ofString source).horizon d.complaint i), f.isFault = true) ∧
      ((∀ f ∈ (Script.ofString source).stream.take
          ((Script.ofString source).horizon d.complaint i), f.isFault = false) →
        compile source = .error d)) ∧
    (∀ d, compile source = .error d → d.complaint.category = .lexical →
      ∃ before f after cause, (Script.ofString source).stream = before ++ f :: after ∧
        (∀ t ∈ before, t.isFault = false) ∧ f.kind = .fault cause ∧
        d = ⟨.lexical cause, f.line, .unspecified⟩) := by
  have cut := Script.ofString_cut source
  refine ⟨?_, ?_, ?_⟩
  · intro c clean
    have first := first_of_clean cut clean
    rw [Script.stream_fault]
    constructor
    · rintro ⟨d, failed⟩
      rw [Compilation.outcome_eq_error.mp failed] at first
      obtain ⟨before, f, after, cause, split, -, kind, -⟩ := firstFault_some first.symm
      exact ⟨f, by simp [split], by simp [Token.isFault, kind]⟩
    · rintro ⟨f, member, fault⟩
      cases found : (Script.ofString source).tokens.findSome? Progress.faultReport? with
      | none => simp [firstFault_none.mp found f member] at fault
      | some d => exact ⟨d, Compilation.outcome_of_first (first.trans found)⟩
  · intro d clean
    obtain ⟨d, numbered, rfl⟩ := Script.clean_numbered clean
    obtain ⟨passed, made, told⟩ := first_of_failed numbered
    obtain ⟨before, t, after, stream, sound, about⟩ := made.about
    have line : d.line = before.length := by
      rw [about]
      exact Script.numbered_line stream
    have there : (Script.ofString source).stream[d.line]? =
        some (t.relabel (Script.ofString source).lineAt) := by
      rw [← Script.stream_lines, stream, line]
      simp
    have about_there : d.relabel (Script.ofString source).lineAt =
        .about (t.relabel (Script.ofString source).lineAt) d.complaint := congrArg _ about
    refine ⟨d.line, _, numbered, there, sound, about_there, ?_⟩
    have complaint : (d.relabel (Script.ofString source).lineAt).complaint = d.complaint := rfl
    rw [complaint, made.stream_take]
    simpa [Token.relabel, Token.isFault] using compile_of_passed made told
  · intro d failed lexical
    exact firstFault_some (first_lexical cut failed lexical)

-- The parenthesis is wrong in both texts. In the first it has been read before that is reported.
example : compile ") @" = .error ⟨.lexical (.unexpected '@'), 1, .unspecified⟩ := by decide +kernel

example : compile "1 ) @" = .error ⟨.endExpected, 1, .token ")"⟩ := by decide +kernel

end StackCalc
