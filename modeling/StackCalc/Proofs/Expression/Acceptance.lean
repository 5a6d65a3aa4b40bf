import StackCalc.Proofs.Expression.Parsing

namespace StackCalc

structure Compiled (script : Script) (chunk : Chunk) (e : Tree) : Prop where
  derives : Derives .sum script.tokens e
  shallow : e.nesting ≤ maxNesting
  few : e.numbers.length ≤ 65536
  code : chunk.code.toList = e.code 0 ++ [⟨Opcode.ret.toByte, script.endLine⟩]
  pool : chunk.constants.toList.map some = e.numbers.map Token.value?

namespace Compilation

theorem outcome_of_first {script : Script} {d : Diagnostic}
    (first : (Progress.start script).whole.first? = some d) :
    (ofScript script).outcome = .error d := by
  obtain ⟨others, same⟩ := List.head?_eq_some_iff.mp first
  simp [ofScript, outcome, same]

theorem outcome_of_silent {script : Script} (silent : (Progress.start script).whole.reports = #[]) :
    (ofScript script).outcome = .ok (Progress.start script).whole.chunk := by
  simp [ofScript, outcome, silent]

theorem silent_of_outcome {script : Script} {chunk : Chunk}
    (ok : (ofScript script).outcome = .ok chunk) : (Progress.start script).whole.reports = #[] := by
  cases reports : (Progress.start script).whole.reports.toList with
  | nil => simpa using reports
  | cons d others => simp [ofScript, outcome, reports] at ok

end Compilation

namespace Progress

theorem start_sound {script : Script} (sound : ∀ t ∈ script.tokens, t.isFault = false) :
    start script = ⟨script.tokens, script.endLine, .empty, #[]⟩ :=
  settle_sound sound

theorem lookahead_ending {p : Progress} (cut : ∀ t ∈ p.left, t.Cut)
    (ending : p.lookahead.kind = .endOfInput) : p.left = [] := by
  cases left : p.left with
  | nil => rfl
  | cons t rest =>
    rw [lookahead_cons left] at ending
    exact absurd ending (cut t (by simp [left])).inside

theorem left_of_silent {script : Script} (cut : ∀ t ∈ script.tokens, t.Cut)
    (silent : (start script).whole.reports = #[]) : (start script).whole.left = [] := by
  have ending : (expression maxFrames 0 .sum (start script)).lookahead.kind = .endOfInput := by
    by_contra other
    simp [whole, consume, other, emit, report] at silent
  have started : (start script).left <:+ script.tokens := passFaults_suffix _ _
  have read : (expression maxFrames 0 .sum (start script)).left <:+ script.tokens :=
    (kept_left.expression _ _ _ _).1.trans started
  have used := lookahead_ending (fun t ht => cut t (read.mem ht)) ending
  have behind := (kept_left.consume (expression maxFrames 0 .sum (start script)) .endOfInput
    .endExpected (by decide)).1
  rw [used, List.suffix_nil] at behind
  exact behind

theorem sound_of_silent {script : Script} (cut : ∀ t ∈ script.tokens, t.Cut)
    (silent : (start script).whole.reports = #[]) : ∀ t ∈ script.tokens, t.isFault = false := by
  have kept := (kept_faults.whole (start script) (settle_settled _)).2
  have none_due : (start script).whole.faultReports = [] := by
    simp [faultReports, silent, left_of_silent cut silent]
  have started : (start script).faultReports = script.tokens.filterMap faultReport? := by
    rw [start, settle_faultReports]
    rfl
  rw [none_due, started, eq_comm, List.filterMap_eq_nil_iff] at kept
  intro t ht
  exact (faultReport_eq_none t).mp (kept t ht)

theorem compiled_of_reading {script : Script} {q : Progress} {ts : List Token} {e : Tree}
    (start_eq : start script = ⟨script.tokens, script.endLine, .empty, #[]⟩)
    (reading : Reading .sum [] (start script) q ts e)
    (ending : q.lookahead.kind = .endOfInput) :
    ((q.consume .endOfInput .endExpected).emit .ret
        (q.consume .endOfInput .endExpected).lookahead.line).reports = #[] ∧
      Compiled script ((q.consume .endOfInput .endExpected).emit .ret
        (q.consume .endOfInput .endExpected).lookahead.line).chunk e := by
  have used := lookahead_ending reading.ready.cut ending
  have consumed : q.consume .endOfInput .endExpected = q := by
    rw [consume, if_pos ending, reading.ready.advance_nil used]
  have left_eq := reading.left
  have emitted := reading.emitted
  have last := reading.endLine
  rw [start_eq] at left_eq emitted last
  simp only [used, List.append_nil] at left_eq
  rw [consumed, lookahead_nil used, last]
  refine ⟨reading.ready.silent, ?_⟩
  have size := emitted.size
  have room := reading.ready.room
  refine ⟨left_eq ▸ reading.derives, by simpa using reading.shallow, ?_, ?_, ?_⟩
  · simp only [Chunk.empty, List.size_toArray, List.length_nil] at size
    omega
  · simp [emit, Chunk.writeOp, Chunk.write, emitted.code, Chunk.empty, Token.ending]
  · simp [emit, Chunk.writeOp, Chunk.write, emitted.pool, Chunk.empty]

theorem blamed_of_reading {script : Script} {q : Progress} {ts : List Token} {e : Tree}
    (start_eq : start script = ⟨script.tokens, script.endLine, .empty, #[]⟩)
    (reading : Reading .sum [] (start script) q ts e) (stopped : q.operator? .sum = none)
    (other : q.lookahead.kind ≠ .endOfInput) :
    Blamed (.operand []) 0 script.stream (.about q.lookahead .endExpected) := by
  have lost : Outlook.step maxNesting (.operator []) q.lookahead.kind = none := by
    unfold Outlook.step
    split <;> simp_all [not_continued stopped]
  obtain ⟨after, ahead⟩ := q.stream_lookahead
  have stream : script.stream = ts ++ q.stream := by
    have left_eq := reading.left
    have last := reading.endLine
    rw [start_eq] at left_eq last
    simp only at left_eq last
    simp [Script.stream, Script.ending, Progress.stream, left_eq, last]
  rw [stream, ahead]
  exact (Blames.here (.grammar lost (absurd · other)) after).later
    (reading.read (.inr rfl)) rfl

theorem whole_outcome {script : Script} (sound : ∀ t ∈ script.tokens, t.isFault = false)
    (cut : ∀ t ∈ script.tokens, t.Cut) :
    ((start script).whole.reports = #[] ∧ ∃ e, Compiled script (start script).whole.chunk e) ∨
      ∃ d, (start script).whole.first? = some d ∧ Blamed (.operand []) 0 script.stream d := by
  have start_eq := start_sound sound
  have ready : Ready (start script) := by
    rw [start_eq]
    exact ⟨rfl, sound, cut, Nat.zero_le _⟩
  have outcome : Outcome .sum [] (start script) (expression maxFrames 0 .sum (start script)) :=
    expression_outcome maxFrames ready (Nat.zero_le _) (.inr rfl) (Nat.le_refl _)
  rcases outcome with ⟨ts, e, reading, stopped⟩ | ⟨d, first, blamed⟩
  · by_cases ending : (expression maxFrames 0 .sum (start script)).lookahead.kind = .endOfInput
    · have compiled := compiled_of_reading start_eq reading ending
      exact .inl ⟨compiled.1, e, compiled.2⟩
    · refine .inr ⟨_, ?_, blamed_of_reading start_eq reading stopped ending⟩
      rw [whole, consume, if_neg ending]
      exact first_report reading.ready.silent _ _
  · have kept := first_of_prefix (kept_reports.consume _ .endOfInput .endExpected (by decide)) first
    refine .inr ⟨d, kept, ?_⟩
    rw [start_eq] at blamed
    exact blamed

end Progress

theorem Compilation.script_of_ok {script : Script} {chunk : Chunk}
    (cut : ∀ t ∈ script.tokens, t.Cut) (ok : (ofScript script).outcome = .ok chunk) :
    (∀ t ∈ script.tokens, t.isFault = false) ∧ ∃ e, Compiled script chunk e := by
  have silent := silent_of_outcome ok
  have sound := Progress.sound_of_silent cut silent
  refine ⟨sound, ?_⟩
  have chunk_eq := (outcome_of_silent silent).symm.trans ok
  cases chunk_eq
  rcases Progress.whole_outcome sound cut with ⟨_, compiled⟩ | ⟨d, first, _⟩
  · exact compiled
  · simp [Progress.first?, silent] at first

section Compile

variable {source : String}

theorem compiled_of_ok {chunk : Chunk} (ok : compile source = .ok chunk) :
    (∀ t ∈ (Script.ofString source).tokens, t.isFault = false) ∧
      ∃ e, Compiled (.ofString source) chunk e :=
  Compilation.script_of_ok (Script.ofString_cut source) ok

theorem compile_code (source : String) (chunk : Chunk) (ok : compile source = .ok chunk) :
    ∃ e, Derives .sum (Script.ofString source).tokens e ∧
      (∀ other, Derives .sum (Script.ofString source).tokens other → other = e) ∧
      chunk.constants.toList.map some =
        ((Script.ofString source).tokens.filter Token.isNumber).map Token.value? ∧
      chunk.bytes = (e.code 0).map CodeByte.byte ++ [Opcode.ret.toByte] ∧
      chunk.lines = (e.code 0).map CodeByte.line ++ [(Script.ofString source).ending.line] := by
  obtain ⟨_, e, compiled⟩ := compiled_of_ok ok
  refine ⟨e, compiled.derives, fun other derives => derives.unique compiled.derives, ?_, ?_, ?_⟩
  · rw [compiled.derives.filter_numbers]
    exact compiled.pool
  · simp [Chunk.bytes, compiled.code]
  · simp [Chunk.lines, compiled.code, Script.ending, Token.ending]

theorem compile_code_two_lines : ∃ e, Derives .sum (Script.ofString "8/\n-(7)").tokens e ∧
    (e.code 0).map CodeByte.byte ++ [Opcode.ret.toByte] = [1, 0, 1, 1, 3, 7, 0] ∧
    (e.code 0).map CodeByte.line ++ [(Script.ofString "8/\n-(7)").ending.line] =
      [1, 1, 2, 2, 2, 1, 2] := by
  have ok : compile "8/\n-(7)" = .ok ⟨#[⟨1, 1⟩, ⟨0, 1⟩, ⟨1, 2⟩, ⟨1, 2⟩, ⟨3, 2⟩, ⟨7, 1⟩, ⟨0, 2⟩],
      #[⟨0x4020000000000000⟩, ⟨0x401C000000000000⟩]⟩ := by decide +kernel
  obtain ⟨e, derives, _, _, bytes, lines⟩ := compile_code _ _ ok
  exact ⟨e, derives, bytes.symm, lines.symm⟩

theorem Script.stream_split {script : Script} {before after : List Token} {t : Token}
    (stream : script.stream = before ++ t :: after) :
    (before = script.tokens ∧ t = script.ending) ∨
      ∃ rest, script.tokens = before ++ t :: rest := by
  rcases List.eq_nil_or_concat after with rfl | ⟨rest, last, rfl⟩
  · have same := List.append_inj' stream rfl
    simp only [List.cons.injEq, and_true] at same
    exact .inl ⟨same.1.symm, same.2.symm⟩
  · refine .inr ⟨rest, ?_⟩
    rw [List.concat_eq_append, ← List.cons_append, ← List.append_assoc] at stream
    exact (List.append_inj' stream rfl).1

theorem not_blamed {script : Script} {e : Tree} {d : Diagnostic}
    (derives : Derives .sum script.tokens e) (shallow : e.nesting ≤ maxNesting)
    (few : script.tokens.countP Token.isNumber ≤ 65536) :
    ¬ Blamed (.operand []) 0 script.stream d := by
  rintro ⟨before, t, after, s, complaint, stream, reached, -, blames⟩
  have whole : Outlook.read maxNesting (.operand []) script.tokens = some (.operator []) :=
    Outlook.read_derives derives [] (.inr rfl) (by simpa using shallow)
  rcases Script.stream_split stream with ⟨rfl, rfl⟩ | ⟨rest, tokens_eq⟩
  · obtain rfl : s = .operator [] := Option.some.inj (reached.symm.trans whole)
    generalize complaint.category = category at blames
    cases blames with
    | grammar _ incomplete => exact incomplete rfl rfl
  · rw [tokens_eq] at whole few
    obtain ⟨s', reached', further⟩ := Outlook.read_front whole
    obtain rfl : s = s' := Option.some.inj (reached.symm.trans reached')
    generalize complaint.category = category at blames
    cases blames with
    | grammar lost _ => simp [Outlook.read, lost] at further
    | capacity number full =>
      have counted : t.isNumber = true := decide_eq_true number
      simp only [List.countP_append, List.countP_cons_of_pos counted] at few
      omega

/-- The compiler accepts its grammar within its two limits, and nothing else. -/
theorem compile_ok_iff (source : String) :
    (∃ chunk, compile source = .ok chunk) ↔
      (∀ t ∈ (Script.ofString source).tokens, t.isFault = false) ∧
      (∃ e, Derives .sum (Script.ofString source).tokens e ∧ e.nesting ≤ 512) ∧
      (Script.ofString source).tokens.countP Token.isNumber ≤ 65536 := by
  constructor
  · rintro ⟨chunk, ok⟩
    obtain ⟨sound, e, compiled⟩ := compiled_of_ok ok
    refine ⟨sound, ⟨e, compiled.derives, compiled.shallow⟩, ?_⟩
    rw [List.countP_eq_length_filter, compiled.derives.filter_numbers]
    exact compiled.few
  · rintro ⟨sound, ⟨e, derives, shallow⟩, few⟩
    rcases Progress.whole_outcome sound (Script.ofString_cut source) with
      ⟨silent, _⟩ | ⟨d, _, blamed⟩
    · exact ⟨_, Compilation.outcome_of_silent silent⟩
    · exact absurd blamed (not_blamed derives shallow few)

def Viable (ts : List Token) : Prop := ∃ more e, Derives .sum (ts ++ more) e ∧ e.nesting ≤ 512

theorem viable_iff {ts : List Token} :
    Viable ts ↔ ∃ s, Outlook.read maxNesting (.operand []) ts = some s :=
  Outlook.front_iff

theorem not_viable_of_lost {before : List Token} {t : Token} {s : Outlook}
    (reached : Outlook.read maxNesting (.operand []) before = some s)
    (lost : s.step maxNesting t.kind = none) : ¬ Viable (before ++ [t]) := by
  rw [viable_iff]
  rintro ⟨s', further⟩
  rw [Outlook.read_append reached] at further
  simp [Outlook.read, lost] at further

theorem viable_of_number {before : List Token} {t : Token} {opened : List Mark}
    (reached : Outlook.read maxNesting (.operand []) before = some (.operand opened))
    (number : t.kind = .number) : Viable (before ++ [t]) := by
  rw [viable_iff]
  refine ⟨.operator (Mark.settle opened), ?_⟩
  rw [Outlook.read_append reached]
  simp [Outlook.read, number, Outlook.step]

theorem place_of_sound {t : Token} (sound : t.isFault = false) :
    Place.ofToken t = if t.kind = .endOfInput then .ending else .token t.lexeme := by
  unfold Place.ofToken
  split
  · rename_i ending
    rw [if_pos ending]
  · rename_i cause fault
    simp [Token.isFault, fault] at sound
  · rename_i other _
    rw [if_neg other]

theorem Script.stream_sound {script : Script} (sound : ∀ t ∈ script.tokens, t.isFault = false) :
    ∀ t ∈ script.stream, t.isFault = false := by
  intro t ht
  rcases List.mem_append.mp ht with inside | last
  · exact sound t inside
  · obtain rfl := List.mem_singleton.mp last
    rfl

theorem compile_error {d : Diagnostic}
    (sound : ∀ t ∈ (Script.ofString source).tokens, t.isFault = false)
    (failed : compile source = .error d) :
    Blamed (.operand []) 0 (Script.ofString source).stream d := by
  rcases Progress.whole_outcome sound (Script.ofString_cut source) with
    ⟨silent, _⟩ | ⟨d', first, blamed⟩
  · cases (Compilation.outcome_of_silent silent).symm.trans failed
  · cases (Compilation.outcome_of_first first).symm.trans failed
    exact blamed

/-- On tokens without faults the first error is about the first token that no expression has there,
or about the first literal too many. -/
theorem first_error_earliest (source : String) (d : Diagnostic)
    (sound : ∀ t ∈ (Script.ofString source).tokens, t.isFault = false)
    (failed : compile source = .error d) :
    ∃ before t after, (Script.ofString source).stream = before ++ t :: after ∧
      d.line = t.line ∧
      d.place = (if t.kind = .endOfInput then .ending else .token t.lexeme) ∧
      ((d.complaint.category = .grammar ∧ Viable before ∧ ¬ Viable (before ++ [t]) ∧
          (t.kind = .endOfInput → ∀ e, ¬ Derives .sum before e)) ∨
        (d.complaint.category = .capacity ∧ t.kind = .number ∧
          before.countP Token.isNumber = 65536 ∧ Viable (before ++ [t]))) := by
  obtain ⟨before, t, after, s, complaint, stream, reached, rfl, blames⟩ :=
    compile_error sound failed
  have t_sound := Script.stream_sound sound t (by simp [stream])
  refine ⟨before, t, after, stream, rfl, place_of_sound t_sound, ?_⟩
  simp only [Diagnostic.about]
  generalize complaint.category = category at blames
  cases blames with
  | grammar lost incomplete =>
    refine .inl ⟨rfl, viable_iff.mpr ⟨s, reached⟩, not_viable_of_lost reached lost, ?_⟩
    intro ending e derives
    exact incomplete ending (Outlook.read_sum derives reached)
  | capacity number full =>
    exact .inr ⟨rfl, number, by simpa using full, viable_of_number reached number⟩

theorem first_error_earliest_unclosed : ∃ before t after,
    (Script.ofString "(1+2").stream = before ++ t :: after ∧ t.line = 1 ∧ Viable before ∧
      ¬ Viable (before ++ [t]) := by
  have sound : ∀ t ∈ (Script.ofString "(1+2").tokens, t.isFault = false := by decide
  have failed : compile "(1+2" = .error (.about (.ending 1) .closingExpected) := by decide +kernel
  obtain ⟨before, t, after, stream, line, _, grammar | capacity⟩ :=
    first_error_earliest _ _ sound failed
  · exact ⟨before, t, after, stream, line.symm, grammar.2.1, grammar.2.2.1⟩
  · cases capacity.1

end Compile
end StackCalc
