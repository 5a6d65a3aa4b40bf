import StackCalc.Proofs.Machine.Course

namespace StackCalc

theorem Chunk.visits_lines (chunk : Chunk) :
    chunk.wholeCourse.visits.flatMap (Visit.lines chunk) = chunk.wholeCourse.visits.flatMap
      fun v => [.stack v.stack, .instruction (chunk.listAt v.offset).1] := by
  rw [List.flatMap_def, List.flatMap_def]
  refine congrArg List.flatten (List.map_congr_left ?_)
  intro v visited
  have here := (course_visits chunk.instructions_tiles [] v visited).2
  simp only [Visit.lines, stepLines, here, listAt]

theorem Chunk.listAt_reads (chunk : Chunk) (offset : Nat) :
    ∃ shown, Reads chunk.bytes offset shown ∧
      (chunk.listAt offset).1 = chunk.listLine offset shown :=
  ⟨_, chunk.instruction_reads offset, rfl⟩

namespace Machine

theorem Task.loads_or_refused (task : Task) : (∃ chunk, task.Loads chunk) ∨
    ∃ text d, task = .source text ∧ compile text = .error d := by
  cases task with
  | chunk given => exact .inl ⟨given, rfl⟩
  | source text =>
    cases compiled : compile text with
    | ok chunk => exact .inl ⟨chunk, compiled⟩
    | error d => exact .inr ⟨text, d, rfl, compiled⟩

theorem run_debug (m : Machine) (task : Task) (output trace : Sink) :
    m.run ⟨true, output, .working⟩ task =
      { m.run ⟨false, output, trace⟩ task with
        trace := (m.run ⟨true, output, .working⟩ task).trace } := by
  rcases task.loads_or_refused with ⟨chunk, loads⟩ | ⟨text, d, rfl, refused⟩
  · have traced : m.run ⟨true, output, .working⟩ task = _ := run_course loads (fun _ => rfl) m
    have plain : m.run ⟨false, output, trace⟩ task = _ := run_course loads (by nofun) m
    rw [traced, plain]
    rfl
  · rw [run_refused refused, run_refused refused]

theorem run_silent (m : Machine) (task : Task) (output trace : Sink) :
    (m.run ⟨false, output, trace⟩ task).traceText = "" := by
  rcases task.loads_or_refused with ⟨chunk, loads⟩ | ⟨text, d, rfl, refused⟩
  · have plain : m.run ⟨false, output, trace⟩ task = _ := run_course loads (by nofun) m
    rw [plain]
    rfl
  · rw [run_refused refused]
    rfl

/-- A trace is the listing of a compiled text, and then for each visit the stack and what stands
there. -/
theorem trace_transparent (m : Machine) (task : Task) (output trace : Sink) :
    (m.run ⟨true, output, .working⟩ task).result = (m.run ⟨false, output, trace⟩ task).result ∧
    (m.run ⟨true, output, .working⟩ task).outputText =
      (m.run ⟨false, output, trace⟩ task).outputText ∧
    (m.run ⟨true, output, .working⟩ task).log = (m.run ⟨false, output, trace⟩ task).log ∧
    (m.run ⟨true, output, .working⟩ task).stack = (m.run ⟨false, output, trace⟩ task).stack ∧
    (m.run ⟨false, output, trace⟩ task).traceText = "" ∧
    ∀ chunk, task.Loads chunk →
      (m.run ⟨true, output, .working⟩ task).trace = task.heading chunk ++
        (chunk.wholeCourse.visits.flatMap fun v =>
          [.stack v.stack, .instruction (chunk.listAt v.offset).1]) ∧
      (∀ v ∈ chunk.wholeCourse.visits, v.offset ≤ chunk.size) ∧
      ∀ offset, ∃ shown, Reads chunk.bytes offset shown ∧
        (chunk.listAt offset).1 = chunk.listLine offset shown := by
  have same := m.run_debug task output trace
  refine ⟨(congrArg Run.result same :), (congrArg Run.outputText same :),
    (congrArg Run.log same :), (congrArg Run.stack same :), m.run_silent task output trace, ?_⟩
  intro chunk loads
  have traced : m.run ⟨true, output, .working⟩ task = _ := run_course loads (fun _ => rfl) m
  refine ⟨?_, ?_, chunk.listAt_reads⟩
  · rw [traced, ← chunk.visits_lines]
    simp [Course.run]
  · intro v visited
    exact (Chunk.course_visits chunk.instructions_tiles [] v visited).1

end Machine
end StackCalc
