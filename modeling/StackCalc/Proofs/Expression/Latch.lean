import StackCalc.Machine.Console
import StackCalc.Proofs.Expression.Acts

namespace StackCalc

structure Latch where
  fatal : Bool
  error : Option Diagnostic
  log : List Record

namespace Latch

def clear : Latch := ⟨false, none, []⟩

def report (l : Latch) (d : Diagnostic) : Latch :=
  if l.fatal then { l with log := l.log ++ [.suppressed d] }
  else ⟨true, some d, l.log ++ [.compileError d]⟩

def outcome (l : Latch) (chunk : Chunk) : Except Diagnostic Chunk :=
  match l.error with
  | some d => .error d
  | none => .ok chunk

def ofReports (ds : List Diagnostic) : Latch := ds.foldl report clear

theorem reports_set {l : Latch} (set : l.fatal = true) (ds : List Diagnostic) :
    ds.foldl report l = { l with log := l.log ++ ds.map .suppressed } := by
  induction ds generalizing l with
  | nil => simp
  | cons d ds ih =>
    have next : l.report d = { l with log := l.log ++ [.suppressed d] } := if_pos set
    rw [List.foldl_cons, next, ih (l := { l with log := l.log ++ [.suppressed d] }) set]
    simp

@[simp] theorem ofReports_cons (d : Diagnostic) (ds : List Diagnostic) :
    ofReports (d :: ds) = ⟨true, some d, .compileError d :: ds.map .suppressed⟩ :=
  reports_set rfl ds

theorem fatal_iff (ds : List Diagnostic) :
    (ofReports ds).fatal = true ↔ ∃ d, (ofReports ds).error = some d := by
  cases ds with
  | nil => simp [ofReports, clear]
  | cons d ds => simp

theorem error_kept {ds : List Diagnostic} {d : Diagnostic} (set : (ofReports ds).error = some d)
    (more : List Diagnostic) : (ofReports (ds ++ more)).error = some d := by
  cases ds with
  | nil => cases set
  | cons first ds => simpa using set

end Latch

def Record.diagnostic? : Record → Option Diagnostic
  | .compileError d | .suppressed d => some d
  | _ => none

namespace Compilation

variable (c : Compilation)

theorem latch_outcome : (Latch.ofReports c.reports).outcome c.chunk = c.outcome := by
  obtain ⟨chunk, reports⟩ := c
  cases reports with
  | nil => rfl
  | cons d ds => simp [Latch.outcome, outcome]

theorem latch_log : (Latch.ofReports c.reports).log = c.log := by
  obtain ⟨chunk, reports⟩ := c
  cases reports with
  | nil => rfl
  | cons d ds => simp [log]

theorem log_diagnostics : c.log.map Record.diagnostic? = c.reports.map some := by
  obtain ⟨chunk, reports⟩ := c
  cases reports with
  | nil => rfl
  | cons d ds => simp [log, Record.diagnostic?]

theorem ok_iff_silent : (∃ chunk, c.outcome = .ok chunk) ↔ c.log = [] := by
  obtain ⟨chunk, reports⟩ := c
  cases reports <;> simp [outcome, log]

theorem log_messages {d : Diagnostic} (failed : c.outcome = .error d) : ∃ others,
    c.reports = d :: others ∧
      c.log.map Record.message = ("compile error: " ++ d.message) :: others.map fun other =>
        "suppressed error on line " ++ toString other.line ++ ": " ++ other.complaint.detail := by
  obtain ⟨chunk, reports⟩ := c
  cases reports with
  | nil => cases failed
  | cons first others =>
    cases failed
    exact ⟨others, rfl, congrArg (List.cons _) List.map_map⟩

end Compilation

namespace Progress

def frontReports (left : List Token) : List Diagnostic :=
  (left.takeWhile Token.isFault).filterMap faultReport?

def advanceReports (p : Progress) : List Diagnostic := frontReports p.left.tail

def consumeReports (p : Progress) (kind : Kind) (complaint : Complaint) : List Diagnostic :=
  if p.lookahead.kind = kind then p.advanceReports else [.about p.lookahead complaint]

def literalReports (p : Progress) (t : Token) : List Diagnostic :=
  match Number.ofLiteral? t.lexeme.toList with
  | some _ => if p.chunk.constants.size < 65536 then [] else [.about t .tooManyConstants]
  | none => [.about t (.malformedNumber t.lexeme)]

variable (p : Progress)

theorem passFaults_front (left : List Token) (reports : Array Diagnostic) :
    (passFaults left reports).2.toList = reports.toList ++ frontReports left := by
  fun_induction passFaults left reports with
  | case1 => simp [frontReports]
  | case2 t left reports cause fault ih =>
    rw [ih]
    simp [frontReports, Token.isFault, faultReport?, fault]
  | case3 t left reports sound =>
    have stops : t.isFault = false := by
      unfold Token.isFault
      split
      · rename_i cause fault
        exact absurd fault (sound cause)
      · rfl
    simp [frontReports, stops]

theorem settle_reports : p.settle.reports.toList = p.reports.toList ++ frontReports p.left :=
  passFaults_front p.left p.reports

theorem advance_reports : p.advance.reports.toList = p.reports.toList ++ p.advanceReports :=
  settle_reports _

theorem report_reports (t : Token) (complaint : Complaint) :
    (p.report t complaint).reports.toList = p.reports.toList ++ [.about t complaint] :=
  Array.toList_push

theorem consume_reports (kind : Kind) (complaint : Complaint) :
    (p.consume kind complaint).reports.toList =
      p.reports.toList ++ p.consumeReports kind complaint := by
  unfold consume consumeReports
  split
  · exact p.advance_reports
  · exact p.report_reports _ _

theorem emitLiteral_reports (t : Token) :
    (p.emitLiteral t).reports.toList = p.reports.toList ++ p.literalReports t := by
  unfold emitLiteral literalReports
  cases Number.ofLiteral? t.lexeme.toList with
  | some value =>
    simp only [emitConstant, emitLoad]
    split
    · split <;> exact (List.append_nil _).symm
    · exact Array.toList_push
  | none => exact p.report_reports t _

end Progress

def Act.reports (p : Progress) : Act → List Diagnostic
  | .advance => p.advanceReports
  | .missing => p.advanceReports ++ [.about p.lookahead .expressionExpected]
  | .tooDeep t => [.about t .nestedTooDeeply]
  | .literal t => p.literalReports t
  | .close => p.consumeReports (.punctuation .rightParen) .closingExpected
  | .finish => p.consumeReports .endOfInput .endExpected
  | _ => []

theorem Act.perform_reports (p : Progress) (act : Act) :
    (act.perform p).reports.toList = p.reports.toList ++ act.reports p := by
  cases act with
  | idle | emit op line => exact (List.append_nil _).symm
  | advance => exact p.advance_reports
  | missing =>
    rw [perform, Progress.report_reports, p.advance_reports, List.append_assoc]
    rfl
  | tooDeep t => exact p.report_reports t _
  | literal t => exact p.emitLiteral_reports t
  | close | finish => exact p.consume_reports _ _

namespace Parser

def reports (s : Parser) : List Diagnostic := s.act.reports s.progress

theorem Runs.reports {s last : Parser} {passed : List Parser} (run : Runs s passed last) :
    last.progress.reports.toList = s.progress.reports.toList ++ passed.flatMap Parser.reports := by
  induction run with
  | here => exact (List.append_nil _).symm
  | @step s s' _ _ on _ ih =>
    have first : s'.progress.reports.toList = s.progress.reports.toList ++ s.reports := by
      rw [step_act on, Act.perform_reports, Parser.reports]
    simp [ih, first]

end Parser

theorem Parser.Runs.faults {script : Script} {passed : List Parser} {u : Parser}
    (run : Runs (.start script) passed u) : ∃ scanned, script.tokens = scanned ++ u.progress.left ∧
      (∀ t ∈ u.progress.left.head?, t.isFault = false) ∧
      u.progress.reports.toList.filter (fun d => d.complaint.category = .lexical) =
        scanned.filterMap Progress.faultReport? := by
  let unread : Progress := ⟨script.tokens, script.endLine, .empty, #[]⟩
  obtain ⟨settled, kept⟩ := run.kept Progress.kept_faults unread.settle_settled
  have left : u.progress.left <:+ script.tokens :=
    (run.kept Progress.kept_left).1.trans (Progress.passFaults_suffix _ _)
  obtain ⟨scanned, split⟩ := left
  refine ⟨scanned, split.symm, settled, ?_⟩
  have all : u.progress.faultReports = unread.faultReports :=
    kept.trans unread.settle_faultReports
  have tokens : unread.faultReports = scanned.filterMap Progress.faultReport? ++
      u.progress.left.filterMap Progress.faultReport? := by
    rw [← List.filterMap_append, split]
    rfl
  exact List.append_cancel_right (all.trans tokens)

/-- All that is reported until some steps are made: the faults in front of the first token that is
none, and then what each of the steps reports. -/
def Script.reports (script : Script) (passed : List Parser) : List Diagnostic :=
  Progress.frontReports script.tokens ++ passed.flatMap Parser.reports

theorem Parser.Runs.script_reports {script : Script} {passed : List Parser} {u : Parser}
    (run : Runs (.start script) passed u) :
    u.progress.reports.toList = script.reports passed := by
  rw [run.reports, Script.reports]
  exact congrArg (· ++ _) (Progress.settle_reports _)

/-- Compiling answers by the error in the latch, and logs what the latch tells on the way. -/
theorem reports_latched (source : String) : ∃ passed last,
    Parser.Runs (.start (.ofString source)) passed last ∧ last.step = .ended last.progress ∧
    let reports := Script.reports (.ofString source)
    let latch (before : List Parser) : Latch := .ofReports (reports before)
    let log := (Compilation.ofString source).log
    compile source = (latch passed).outcome last.progress.chunk ∧ log = (latch passed).log ∧
    log.map Record.diagnostic? = (reports passed).map some ∧
    ((∃ chunk, compile source = .ok chunk) ↔ log = []) ∧
    (∀ d, compile source = .error d → ∃ others, reports passed = d :: others ∧
      log.map Record.message = ("compile error: " ++ d.message) :: others.map fun other =>
        "suppressed error on line " ++ toString other.line ++ ": " ++ other.complaint.detail) ∧
    ∀ before u later, passed ++ [last] = before ++ u :: later →
      u.progress.reports.toList = reports before ∧
      ((latch before).fatal = true ↔ ∃ d, (latch before).error = some d) ∧
      (∀ d, (latch before).error = some d → ∀ between w behind,
        u :: later = between ++ w :: behind → (latch (before ++ between)).error = some d) ∧
      ∃ scanned, (Script.ofString source).tokens = scanned ++ u.progress.left ∧
        (∀ t ∈ u.progress.left.head?, t.isFault = false) ∧
        (reports before).filter (fun d => d.complaint.category = .lexical) =
          scanned.filterMap Progress.faultReport? := by
  obtain ⟨passed, previous, run⟩ := Parser.reaches_whole (.ofString source)
  refine ⟨passed, _, run, rfl, ?_⟩
  intro reports latch log
  have told : (Compilation.ofString source).reports = reports passed := run.script_reports
  refine ⟨?_, ?_, ?_, (Compilation.ofString source).ok_iff_silent, fun d failed => ?_, ?_⟩
  · simp only [latch, ← told]
    exact (Compilation.ofString source).latch_outcome.symm
  · simp only [latch, ← told]
    exact (Compilation.ofString source).latch_log.symm
  · rw [← told]
    exact (Compilation.ofString source).log_diagnostics
  · rw [← told]
    exact (Compilation.ofString source).log_messages failed
  · intro before u later split
    have upto := run.upto split
    refine ⟨upto.script_reports, Latch.fatal_iff _, fun d set between w behind _ => ?_, ?_⟩
    · have more : reports (before ++ between) =
          reports before ++ between.flatMap Parser.reports := by
        simp [reports, Script.reports]
      simp only [latch, more]
      exact Latch.error_kept set _
    · simp only [reports, ← upto.script_reports]
      exact upto.faults

end StackCalc
