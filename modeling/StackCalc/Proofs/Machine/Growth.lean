import StackCalc.Proofs.Chunk.Appending
import StackCalc.Proofs.Machine.Course

/-! Runs of chunks that grow. A run looks at no more than the bytes of the instructions it comes to
and the constants that they refer to. So it goes as it went before, unless it failed for want of
something that may be there now: a byte behind the end of the code, or a constant. -/
namespace StackCalc

/-- The errors that something put behind a chunk can make up for. -/
inductive RuntimeError.Lacking : RuntimeError → Prop where
  | byte (offset : Nat) : Lacking (.unexpectedEnd offset)
  | constant (index : Nat) : Lacking (.constantOutOfRange index)

def Course.Lacks (course : Course) : Prop :=
  ∃ e stack, course.ending = .failed e stack ∧ e.Lacking

namespace Instruction

/-- More bytes make another instruction only of one that is cut off. -/
theorem take_append (byte : UInt8) (rest more : List UInt8) :
    (∃ wide present, (take byte rest).1 = .truncated wide present) ∨
      (take byte (rest ++ more)).1 = (take byte rest).1 := by
  unfold take
  split
  case h_5 =>
    cases rest with
    | nil => exact .inl ⟨_, _, rfl⟩
    | cons index rest => exact .inr rfl
  case h_6 =>
    match rest with
    | [] | [_] => exact .inl ⟨_, _, rfl⟩
    | _ :: _ :: _ => exact .inr rfl
  all_goals exact .inr rfl

end Instruction

theorem Located.step_pool {constants constants' : Array Number}
    (pool : constants.toList <+: constants'.toList) (i : Located) (stack : List Number) :
    (∃ index, i.step constants stack = .stop (.constantOutOfRange index) stack) ∨
      i.step constants' stack = i.step constants stack := by
  obtain ⟨offset, instruction⟩ := i
  cases instruction with
  | load wide index =>
    by_cases inside : index < constants.size
    · have same : constants'[index]? = constants[index]? := Chunk.getElem_of_front pool inside
      exact .inr (by simp only [step, same])
    · have missing : constants[index]? = none := by simpa using inside
      exact .inl ⟨index, by simp only [step, missing]⟩
  | _ => exact .inr rfl

namespace Chunk

variable {c d : Chunk}

theorem Grows.drop (grows : c.Grows d) {offset : Nat} {byte : UInt8} {rest : List UInt8}
    (here : c.bytes.drop offset = byte :: rest) :
    ∃ more, d.bytes.drop offset = byte :: (rest ++ more) := by
  obtain ⟨more, code⟩ := grows.code
  have length := Located.length_of_drop here
  refine ⟨more.map CodeByte.byte, ?_⟩
  rw [bytes, ← code, List.map_append, List.drop_append_of_le_length]
  · exact congrArg (· ++ _) here
  · exact (by omega : offset ≤ c.bytes.length)

theorem Grows.course (grows : c.Grows d) {offset : Nat} {is js : List Located}
    (tiles : Located.Tiles c.bytes offset is) (tiles' : Located.Tiles d.bytes offset js)
    (stack : List Number) :
    (c.course is stack).Lacks ∨ d.course js stack = c.course is stack := by
  induction tiles generalizing js stack with
  | nil => exact .inl ⟨_, _, rfl, .byte _⟩
  | @cons offset byte rest is here tiles ih =>
    obtain ⟨more, here'⟩ := grows.drop here
    cases tiles' with
    | nil =>
      rw [List.drop_length] at here'
      cases here'
    | cons here'' tiles' =>
      cases here'.symm.trans here''
      rcases Instruction.take_append byte rest more with ⟨wide, present, cut⟩ | same
      · refine .inl ⟨.unexpectedEnd (offset + 1), stack, ?_, .byte _⟩
        rw [cut]
        rfl
      · rw [same] at tiles' ⊢
        rcases Located.step_pool grows.pool ⟨offset, (Instruction.take byte rest).1⟩ stack with
          ⟨index, missing⟩ | step
        · refine .inl ⟨.constantOutOfRange index, stack, ?_, .constant index⟩
          simp only [Chunk.course, missing]
        · simp only [Chunk.course, step]
          split
          · exact (ih tiles' _).imp id (congrArg (Course.visit _))
          · exact (ih tiles' _).imp id (congrArg (Course.visit _))
          · exact .inr rfl
          · exact .inr rfl

theorem Grows.wholeCourse (grows : c.Grows d) :
    c.wholeCourse.Lacks ∨ d.wholeCourse = c.wholeCourse :=
  grows.course c.instructions_tiles d.instructions_tiles []

end Chunk

namespace Machine

variable {console : Console}

theorem result_of_lacks (traces : console.debug = true → console.trace = .working) {m : Machine}
    {chunk : Chunk} (lacks : chunk.wholeCourse.Lacks) :
    ∃ e : RuntimeError, (m.execute console chunk).result = .error (.runtime e) ∧ e.Lacking := by
  obtain ⟨e, stack, ending, lacking⟩ := lacks
  refine ⟨e, ?_, lacking⟩
  rw [execute_course traces]
  simp only [Course.run, ending, Ending.result]

/-- Something put behind a chunk can only make up for what a run failed for want of. -/
theorem execute_appended (m : Machine) (console : Console)
    (traces : console.debug = true → console.trace = .working) (chunk : Chunk)
    (later : List Chunk.Append) :
    let run := m.execute console chunk
    let grown := m.execute console (chunk.after later)
    ((∃ value, run.result = .ok value) ∨ run.result = .error (.runtime .stackUnderflow) →
      grown.result = run.result ∧ grown.outputText = run.outputText ∧ grown.log = run.log ∧
        grown.stack = run.stack) ∧
    ∀ value, grown.result = .ok value → run.result = .ok value ∨
      (∃ offset, run.result = .error (.runtime (.unexpectedEnd offset))) ∨
      ∃ index, run.result = .error (.runtime (.constantOutOfRange index)) := by
  intro run grown
  have before_run : run = _ := execute_course traces m chunk
  have behind_run : grown = _ := execute_course traces m _
  rcases (Chunk.Grows.after chunk later).wholeCourse with lacks | same
  · obtain ⟨e, failed, lacking⟩ := result_of_lacks (m := m) traces lacks
    have failed : run.result = .error (.runtime e) := failed
    refine ⟨fun works => ?_, fun _ _ => .inr ?_⟩
    · rcases works with ⟨value, returned⟩ | underflow
      · cases failed.symm.trans returned
      · cases failed.symm.trans underflow
        cases lacking
    · cases lacking with
      | byte offset => exact .inl ⟨offset, failed⟩
      | constant index => exact .inr ⟨index, failed⟩
  · rw [same] at behind_run
    have result : grown.result = run.result := by
      rw [before_run, behind_run]
      rfl
    refine ⟨fun _ => ⟨result, ?_, ?_, ?_⟩, fun value returned => .inl (result ▸ returned)⟩
    all_goals
      rw [before_run, behind_run]
      rfl

theorem execute_appended_return :
    let chunk : Chunk := ⟨#[⟨1, 1⟩, ⟨0, 1⟩, ⟨0, 1⟩], #[.zero]⟩
    (new.execute .quiet chunk).result = .ok .zero ∧
      (new.execute .quiet (chunk.after [.op .constantLong 2, .constant .zero])).result =
        .ok .zero := by
  intro chunk
  have returns : (new.execute .quiet chunk).result = .ok .zero := rfl
  have kept := execute_appended .new .quiet nofun chunk [.op .constantLong 2, .constant .zero]
  exact ⟨returns, (kept.1 (.inl ⟨_, returns⟩)).1.trans returns⟩

end Machine
end StackCalc
