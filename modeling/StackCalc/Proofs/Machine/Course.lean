import StackCalc.Machine.Run
import StackCalc.Proofs.Chunk.Tiling

/-! The course of a run: the instructions it comes to, and how it ends. A course knows nothing of
what is written on the way. All that a run answers and writes can be read off its course, as long
as the trace takes what is written to it. -/
namespace StackCalc

structure Visit where
  offset : Nat
  instruction : Option Instruction
  stack : List Number

inductive Ending where
  | returned (value : Number) (stack : List Number)
  | failed (e : RuntimeError) (stack : List Number)

structure Course where
  visits : List Visit
  ending : Ending

namespace Located

/-- All that an instruction can do to a stack, with what it finds there. -/
inductive Steps (constants : Array Number) : Located → List Number → Step → Prop where
  | loaded {offset index : Nat} {wide : Bool} {value : Number} {stack : List Number} :
      constants[index]? = some value →
        Steps constants ⟨offset, .load wide index⟩ stack (.next (value :: stack))
  | missing {offset index : Nat} {wide : Bool} {stack : List Number} :
      constants[index]? = none →
        Steps constants ⟨offset, .load wide index⟩ stack (.stop (.constantOutOfRange index) stack)
  | negated {offset : Nat} {value : Number} {stack : List Number} :
      Steps constants ⟨offset, .negate⟩ (value :: stack) (.next (value.negate :: stack))
  | notNegated {offset : Nat} : Steps constants ⟨offset, .negate⟩ [] (.stop .stackUnderflow [])
  | applied {offset : Nat} {op : BinaryOp} {right left : Number} {stack : List Number} :
      Steps constants ⟨offset, .binary op⟩ (right :: left :: stack)
        (.next (op.apply left right :: stack))
  | notApplied {offset : Nat} {op : BinaryOp} {stack : List Number} : stack.length < 2 →
      Steps constants ⟨offset, .binary op⟩ stack (.stop .stackUnderflow [])
  | returned {offset : Nat} {value : Number} {stack : List Number} :
      Steps constants ⟨offset, .ret⟩ (value :: stack) (.done value stack)
  | notReturned {offset : Nat} : Steps constants ⟨offset, .ret⟩ [] (.stop .stackUnderflow [])
  | skipped {offset : Nat} {byte : UInt8} {stack : List Number} :
      Steps constants ⟨offset, .unknown byte⟩ stack (.skip ⟨byte⟩)
  | cut {offset present : Nat} {wide : Bool} {stack : List Number} :
      Steps constants ⟨offset, .truncated wide present⟩ stack
        (.stop (.unexpectedEnd (offset + 1)) stack)

theorem step_steps (i : Located) (constants : Array Number) (stack : List Number) :
    Steps constants i stack (i.step constants stack) := by
  obtain ⟨offset, instruction⟩ := i
  cases instruction with
  | load wide index =>
    cases found : constants[index]? with
    | none =>
      simp only [step, found]
      exact .missing found
    | some value =>
      simp only [step, found]
      exact .loaded found
  | negate =>
    cases stack with
    | nil => exact .notNegated
    | cons value stack => exact .negated
  | binary op =>
    match stack with
    | [] => exact .notApplied (by decide)
    | [right] => exact .notApplied Nat.one_lt_two
    | right :: left :: stack => exact .applied
  | ret =>
    cases stack with
    | nil => exact .notReturned
    | cons value stack => exact .returned
  | unknown byte => exact .skipped
  | truncated wide present => exact .cut

theorem steps_of {i : Located} {constants : Array Number} {stack : List Number} {taken : Step}
    (step : i.step constants stack = taken) : Steps constants i stack taken :=
  step ▸ i.step_steps constants stack

end Located

def Step.record? (offset : Nat) : Step → Option Record
  | .skip e => some (.skipped offset e)
  | _ => none

namespace Visit

def ofLocated (i : Located) (stack : List Number) : Visit := ⟨i.offset, some i.instruction, stack⟩

def lines (chunk : Chunk) (v : Visit) : List TraceLine :=
  chunk.stepLines v.offset v.instruction v.stack

def record? (v : Visit) : Option Record :=
  match v.instruction with
  | some (.unknown byte) => some (.skipped v.offset ⟨byte⟩)
  | _ => none

theorem record_step (i : Located) (constants : Array Number) (stack : List Number) :
    (ofLocated i stack).record? = (i.step constants stack).record? i.offset := by
  have steps := i.step_steps constants stack
  generalize i.step constants stack = taken at steps
  cases steps <;> rfl

end Visit

namespace Ending

def stack : Ending → List Number
  | .returned _ stack => stack
  | .failed _ stack => stack

def result (output : Sink) : Ending → Except Failure Number
  | .returned value _ =>
    match output.write (value.text ++ "\n") with
    | .ok _ => .ok value
    | .error torn => .error (.runtime (.outputFailed torn.reason))
  | .failed e _ => .error (.runtime e)

def outputText (output : Sink) : Ending → String
  | .returned value _ =>
    match output.write (value.text ++ "\n") with
    | .ok _ => value.text ++ "\n"
    | .error torn => torn.front
  | .failed _ _ => ""

def records (output : Sink) : Ending → List Record
  | .returned value _ =>
    match output.write (value.text ++ "\n") with
    | .ok _ => [.finished value]
    | .error _ => []
  | .failed _ _ => []

end Ending

namespace Course

def visit (v : Visit) (course : Course) : Course := { course with visits := v :: course.visits }

def run (course : Course) (chunk : Chunk) (console : Console) (tape : Tape) : Run where
  result := course.ending.result console.output
  stack := course.ending.stack
  outputText := course.ending.outputText console.output
  trace := tape.trace.reverse ++
    if console.debug then course.visits.flatMap (Visit.lines chunk) else []
  torn := tape.torn
  log := tape.log.reverse ++ course.visits.filterMap Visit.record? ++
    course.ending.records console.output

end Course

def Chunk.course (chunk : Chunk) : List Located → List Number → Course
  | [], stack => ⟨[⟨chunk.size, none, stack⟩], .failed (.unexpectedEnd chunk.size) stack⟩
  | i :: rest, stack =>
    match i.step chunk.constants stack with
    | .next stack' => (chunk.course rest stack').visit (.ofLocated i stack)
    | .skip _ => (chunk.course rest stack).visit (.ofLocated i stack)
    | .done value stack' => ⟨[.ofLocated i stack], .returned value stack'⟩
    | .stop e stack' => ⟨[.ofLocated i stack], .failed e stack'⟩

namespace Tape

@[simp] theorem write_working {tape : Tape} (working : tape.sink = .working) (lines : List TraceLine) :
    tape.write lines = ({ tape with trace := lines.reverse ++ tape.trace }, none) := by
  induction lines generalizing tape with
  | nil => rfl
  | cons line lines ih =>
    simp only [write, working, Sink.write, ih]
    simp

def watched (tape : Tape) (console : Console) (lines : List TraceLine) : Tape :=
  { tape with trace := (if console.debug then lines else []).reverse ++ tape.trace }

@[simp] theorem observe_watched {tape : Tape} {console : Console}
    (heard : console.debug = true → tape.sink = .working) (lines : List TraceLine) :
    tape.observe console lines = (tape.watched console lines, none) := by
  unfold observe watched
  split
  · rename_i debug
    exact write_working (heard debug) lines
  · rfl

theorem done_run (tape : Tape) (console : Console) (value : Number) (stack : List Number)
    (chunk : Chunk) :
    tape.done console value stack = Course.run ⟨[], .returned value stack⟩ chunk console tape := by
  unfold done Course.run Ending.result Ending.outputText Ending.records
  split
  · rename_i torn failed
    simp [stop, failed, Ending.stack]
  · rename_i left fits
    simp [note, fits, Ending.stack]

theorem stop_run (tape : Tape) (console : Console) (e : RuntimeError) (stack : List Number)
    (chunk : Chunk) :
    tape.stop e stack = Course.run ⟨[], .failed e stack⟩ chunk console tape := by
  simp [stop, Course.run, Ending.result, Ending.outputText, Ending.records, Ending.stack]

end Tape

namespace Course

theorem run_visit (course : Course) (v : Visit) (chunk : Chunk) (console : Console) (tape : Tape) :
    (course.visit v).run chunk console tape = course.run chunk console
      { tape.watched console (v.lines chunk) with log := v.record?.toList ++ tape.log } := by
  cases record : v.record? <;> cases debug : console.debug <;>
    simp [run, visit, Tape.watched, record, debug]

end Course

namespace Chunk

def wholeCourse (chunk : Chunk) : Course := chunk.course chunk.instructions []

theorem executeFrom_course (chunk : Chunk) (console : Console) (is : List Located)
    (stack : List Number) (tape : Tape) (heard : console.debug = true → tape.sink = .working) :
    chunk.executeFrom console is stack tape =
      (chunk.course is stack).run chunk console tape := by
  induction is generalizing stack tape with
  | nil =>
    have ended := Course.run_visit ⟨[], .failed (.unexpectedEnd chunk.size) stack⟩
      ⟨chunk.size, none, stack⟩ chunk console tape
    simp only [executeFrom, Tape.observe_watched heard, course]
    rw [Tape.stop_run _ console _ _ chunk]
    exact ended.symm
  | cons i rest ih =>
    have observed := Tape.observe_watched heard
      (chunk.stepLines i.offset (some i.instruction) stack)
    have visited (course : Course) := course.run_visit (.ofLocated i stack) chunk console tape
    rw [Visit.record_step i chunk.constants] at visited
    cases step : i.step chunk.constants stack with
    | next stack' =>
      rw [step] at visited
      simp only [executeFrom, observed, course, step, visited]
      exact ih stack' (tape.watched console _) heard
    | skip e =>
      rw [step] at visited
      simp only [executeFrom, observed, course, step, visited]
      exact ih stack ((tape.watched console _).note (.skipped i.offset e)) heard
    | done value stack' =>
      rw [step] at visited
      simp only [executeFrom, observed, course, step]
      rw [Tape.done_run _ _ _ _ chunk]
      exact (visited ⟨[], .returned value stack'⟩).symm
    | stop e stack' =>
      rw [step] at visited
      simp only [executeFrom, observed, course, step]
      rw [Tape.stop_run _ console _ _ chunk]
      exact (visited ⟨[], .failed e stack'⟩).symm

theorem course_visits {chunk : Chunk} {offset : Nat} {is : List Located}
    (tiles : Located.Tiles chunk.bytes offset is) (stack : List Number) :
    ∀ v ∈ (chunk.course is stack).visits,
      v.offset ≤ chunk.size ∧ v.instruction = chunk.instruction? v.offset := by
  have at_end (stack : List Number) : ∀ v ∈ [(⟨chunk.size, none, stack⟩ : Visit)],
      v.offset ≤ chunk.size ∧ v.instruction = chunk.instruction? v.offset := by
    rw [List.forall_mem_singleton]
    exact ⟨Nat.le_refl _, (instruction_behind (Nat.le_refl _)).symm⟩
  induction tiles generalizing stack with
  | nil => exact at_end stack
  | @cons offset byte rest is here tiles ih =>
    have length := Located.length_of_drop here
    rw [bytes_length] at length
    have first (stack : List Number) :
        (Visit.ofLocated ⟨offset, (Instruction.take byte rest).1⟩ stack).offset ≤ chunk.size ∧
          (Visit.ofLocated ⟨offset, (Instruction.take byte rest).1⟩ stack).instruction =
            chunk.instruction? offset := by
      constructor
      · simp only [Visit.ofLocated]
        omega
      · exact (instruction_of_drop here).symm
    simp only [course]
    split
    · exact List.forall_mem_cons.mpr ⟨first stack, ih _⟩
    · exact List.forall_mem_cons.mpr ⟨first stack, ih _⟩
    · exact List.forall_mem_singleton.mpr (first stack)
    · exact List.forall_mem_singleton.mpr (first stack)

end Chunk

namespace Machine

/-- The chunk that a call runs, if it comes to that. -/
def Task.Loads (task : Task) (loaded : Chunk) : Prop :=
  match task with
  | .source text => compile text = .ok loaded
  | .chunk given => given = loaded

def Task.heading (loaded : Chunk) : Task → List TraceLine
  | .source _ => (loaded.listing "code").map .listing
  | .chunk _ => []

def Task.noted (loaded : Chunk) : Task → List Record
  | .source _ => [.compiled loaded.size loaded.constants.size]
  | .chunk _ => []

variable {console : Console}

theorem execute_course (heard : console.debug = true → console.trace = .working) (m : Machine)
    (chunk : Chunk) :
    m.execute console chunk = chunk.wholeCourse.run chunk console (.blank console.trace) :=
  chunk.executeFrom_course console _ _ _ heard

theorem interpret_load {source : String} {chunk : Chunk} (compiles : compile source = .ok chunk)
    (heard : console.debug = true → console.trace = .working) (m : Machine) :
    m.interpret console source = m.load console chunk
      (((Tape.blank console.trace).note (.compiled chunk.size chunk.constants.size)).watched console
        ((chunk.listing "code").map .listing)) := by
  have outcome : (Compilation.ofString source).outcome = .ok chunk := compiles
  have announced : chunk.announce console = (Tape.watched _ console _, none) :=
    Tape.observe_watched heard ((chunk.listing "code").map .listing)
  simp only [interpret, outcome, announced]

theorem interpret_course {source : String} {chunk : Chunk} (compiles : compile source = .ok chunk)
    (heard : console.debug = true → console.trace = .working) (m : Machine) :
    m.interpret console source = chunk.wholeCourse.run chunk console
      (((Tape.blank console.trace).note (.compiled chunk.size chunk.constants.size)).watched console
        ((chunk.listing "code").map .listing)) := by
  rw [interpret_load compiles heard]
  exact chunk.executeFrom_course console _ _ _ heard

theorem interpret_refused {source : String} {d : Diagnostic} (refused : compile source = .error d)
    (console : Console) (m : Machine) :
    m.interpret console source =
      ⟨.error (.compile d), m.stack, "", [], "", (Compilation.ofString source).log⟩ := by
  have outcome : (Compilation.ofString source).outcome = .error d := refused
  simp only [interpret, outcome]

theorem run_load {task : Task} {chunk : Chunk} (loads : task.Loads chunk)
    (heard : console.debug = true → console.trace = .working) (m : Machine) :
    m.run console task = m.load console chunk
      ⟨(if console.debug then task.heading chunk else []).reverse, "", task.noted chunk,
        console.trace⟩ := by
  cases task with
  | chunk given =>
    obtain rfl : given = chunk := loads
    have nothing : (if console.debug then ([] : List TraceLine) else []) = [] := ite_self _
    simp only [run, execute, Task.heading, Task.noted, nothing, List.reverse_nil, Tape.blank]
  | source text =>
    rw [run, interpret_load loads heard]
    simp only [Tape.watched, Tape.blank, Tape.note, Task.heading, Task.noted, List.append_nil]

theorem run_course {task : Task} {chunk : Chunk} (loads : task.Loads chunk)
    (heard : console.debug = true → console.trace = .working) (m : Machine) :
    m.run console task = chunk.wholeCourse.run chunk console
      ⟨(if console.debug then task.heading chunk else []).reverse, "", task.noted chunk,
        console.trace⟩ := by
  rw [run_load loads heard]
  exact chunk.executeFrom_course console _ _ _ heard

theorem run_refused {text : String} {d : Diagnostic} (refused : compile text = .error d)
    (console : Console) (m : Machine) :
    m.run console (.source text) =
      ⟨.error (.compile d), m.stack, "", [], "", (Compilation.ofString text).log⟩ :=
  interpret_refused refused console m

end Machine
end StackCalc
