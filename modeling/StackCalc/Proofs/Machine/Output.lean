import StackCalc.Proofs.Machine.Heights
import StackCalc.Proofs.Machine.Tracing

namespace StackCalc

theorem Sink.failing_line (reason line : String) :
    (failing reason).write (line ++ "\n") = .error ⟨"", reason⟩ := by
  have longer : ¬ (line ++ "\n").length ≤ 0 := by
    rw [String.length_append]
    exact Nat.not_succ_le_zero _
  simp only [failing, write, if_neg longer, List.take_zero, String.ofList_nil]

theorem Located.step_stop_inner {i : Located} {constants : Array Number}
    {stack stack' : List Number} {e : RuntimeError}
    (step : i.step constants stack = .stop e stack') (cause : String) :
    e ≠ .outputFailed cause := by
  cases Located.steps_of step <;> exact nofun

/-- A course knows nothing of the output, and so none can fail because of it. -/
theorem Chunk.course_failed_inner {chunk : Chunk} {is : List Located} {stack stack' : List Number}
    {e : RuntimeError} (failed : (chunk.course is stack).ending = .failed e stack')
    (cause : String) : e ≠ .outputFailed cause := by
  induction is generalizing stack with
  | nil =>
    cases failed
    exact nofun
  | cons i rest ih =>
    rw [course] at failed
    split at failed
    · exact ih failed
    · exact ih failed
    · cases failed
    · rename_i step
      cases failed
      exact i.step_stop_inner step cause

/-- A run and the same run with an output that takes nothing. -/
structure Run.Muted (reason : String) (works fails : Run) : Prop where
  inner : ∀ cause, works.result ≠ .error (.runtime (.outputFailed cause))
  returned : ∀ value, works.result = .ok value →
    fails.result = .error (.runtime (.outputFailed reason)) ∧
      works.log = fails.log ++ [.finished value]
  failed : ∀ failure, works.result = .error failure → fails = works
  silent : fails.outputText = ""
  stack : fails.stack = works.stack
  trace : fails.traceText = works.traceText

namespace Run.Muted

variable {reason : String} {works fails : Run}

theorem same {r : Run} {failure : Failure} (failed : r.result = .error failure)
    (inner : ∀ cause, failure ≠ .runtime (.outputFailed cause)) (silent : r.outputText = "") :
    r.Muted reason r where
  inner cause broken := inner cause (Except.error.inj (failed.symm.trans broken))
  returned _ ok := nomatch failed.symm.trans ok
  failed _ _ := rfl
  silent := silent
  stack := rfl
  trace := rfl

theorem output_iff (muted : works.Muted reason fails) :
    (∃ cause, fails.result = .error (.runtime (.outputFailed cause))) ↔
      ∃ value, works.result = .ok value := by
  constructor
  · rintro ⟨cause, broken⟩
    cases result : works.result with
    | ok value => exact ⟨value, rfl⟩
    | error failure =>
      rw [muted.failed failure result] at broken
      exact absurd broken (muted.inner cause)
  · rintro ⟨value, result⟩
    exact ⟨reason, (muted.returned value result).1⟩

theorem warnings (muted : works.Muted reason fails) : fails.warnings = works.warnings := by
  cases result : works.result with
  | error failure => rw [muted.failed failure result]
  | ok value =>
    have noted := (muted.returned value result).2
    rw [Run.warnings, Run.warnings, noted, List.filter_append]
    exact (List.append_nil _).symm

end Run.Muted

theorem Course.muted {course : Course}
    (inner : ∀ e stack, course.ending = .failed e stack → ∀ cause, e ≠ .outputFailed cause)
    (chunk : Chunk) (debug : Bool) (reason : String) (tape : Tape) :
    (course.run chunk ⟨debug, .working, .working⟩ tape).Muted reason
      (course.run chunk ⟨debug, .failing reason, .working⟩ tape) := by
  obtain ⟨visits, ending⟩ := course
  cases ending with
  | failed e stack =>
    have inner := inner e stack rfl
    have broken : ∀ cause, Failure.runtime e ≠ .runtime (.outputFailed cause) :=
      fun cause same => inner cause (Failure.runtime.inj same)
    exact .same rfl broken rfl
  | returned value stack =>
    have torn := Sink.failing_line reason value.text
    refine ⟨nofun, ?_, nofun, ?_, rfl, rfl⟩
    · rintro _ ⟨⟩
      have put : Sink.working.write (value.text ++ "\n") = .ok .working := rfl
      simp only [run, Ending.result, Ending.records, torn, put, List.append_nil, and_self]
    · simp only [run, Ending.outputText, torn]

namespace Machine

theorem run_muted (m : Machine) (task : Task) (debug : Bool) (reason : String) :
    (m.run ⟨debug, .working, .working⟩ task).Muted reason
      (m.run ⟨debug, .failing reason, .working⟩ task) := by
  rcases task.loads_or_refused with ⟨chunk, loads⟩ | ⟨text, d, rfl, refused⟩
  · rw [run_course loads fun _ => rfl, run_course loads fun _ => rfl]
    exact Course.muted (fun _ _ failed => Chunk.course_failed_inner failed) chunk debug reason _
  · rw [run_refused refused, run_refused refused]
    exact .same rfl nofun rfl

/-- The value is put out as the last act of a run, so an output that takes nothing costs the answer
and the record of the value, and nothing else. -/
theorem output_fails_last (m : Machine) (task : Task) (debug : Bool) (reason : String) :
    let works := m.run ⟨debug, .working, .working⟩ task
    let fails := m.run ⟨debug, .failing reason, .working⟩ task
    ((∃ cause, fails.result = .error (.runtime (.outputFailed cause))) ↔
      ∃ value, works.result = .ok value) ∧
    (∀ value, works.result = .ok value →
      fails.result = .error (.runtime (.outputFailed reason)) ∧
        works.log = fails.log ++ [.finished value]) ∧
    (∀ failure, works.result = .error failure → fails = works) ∧
    fails.outputText = "" ∧ fails.stack = works.stack ∧ fails.traceText = works.traceText ∧
    fails.warnings = works.warnings := by
  intro works fails
  have muted : works.Muted reason fails := m.run_muted task debug reason
  exact ⟨muted.output_iff, muted.returned, muted.failed, muted.silent, muted.stack, muted.trace,
    muted.warnings⟩

end Machine
end StackCalc
