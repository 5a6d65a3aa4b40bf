import StackCalc.Proofs.Chunk.Retiling
import StackCalc.Proofs.Machine.Boundaries
import StackCalc.Proofs.Machine.Dispatch

/-! Unknown bytes between instructions. A run that comes to one skips it, says so, and goes on as it
would without it, one byte further on in the code. Inside an operand such a byte is never skipped:
it is part of an index there. -/
namespace StackCalc

def RuntimeError.later : RuntimeError → RuntimeError
  | .unexpectedEnd offset => .unexpectedEnd (offset + 1)
  | e => e

def Failure.later : Failure → Failure
  | .runtime e => .runtime e.later
  | failure => failure

def Record.later : Record → Record
  | .skipped offset e => .skipped (offset + 1) e
  | r => r

def Step.later : Step → Step
  | .stop e stack => .stop e.later stack
  | step => step

def Visit.later (v : Visit) : Visit := { v with offset := v.offset + 1 }

def Ending.later : Ending → Ending
  | .failed e stack => .failed e.later stack
  | ending => ending

def Course.later (course : Course) : Course :=
  ⟨course.visits.map Visit.later, course.ending.later⟩

@[simp] theorem Located.step_later (i : Located) (constants : Array Number) (stack : List Number) :
    i.later.step constants stack = (i.step constants stack).later := by
  obtain ⟨offset, instruction⟩ := i
  cases instruction with
  | unknown byte => rfl
  | truncated wide present => rfl
  | _ =>
    simp only [later, Located.step]
    split <;> rfl

@[simp] theorem Visit.record_later (v : Visit) : v.later.record? = v.record?.map Record.later := by
  unfold Visit.record? Visit.later
  split <;> simp_all [Record.later]

theorem Visit.record_offset {v : Visit} {r : Record} (told : v.record? = some r) :
    ∃ e, r = .skipped v.offset e := by
  unfold Visit.record? at told
  split at told
  · cases told
    exact ⟨_, rfl⟩
  · cases told

namespace Ending

variable (ending : Ending) (output : Sink)

@[simp] theorem later_stack : ending.later.stack = ending.stack := by
  cases ending <;> rfl

@[simp] theorem later_outputText : ending.later.outputText output = ending.outputText output := by
  cases ending <;> rfl

@[simp] theorem later_result :
    ending.later.result output = (ending.result output).mapError Failure.later := by
  cases ending with
  | returned value stack =>
    simp only [later, result]
    split <;> rfl
  | failed e stack => rfl

@[simp] theorem later_records :
    ending.later.records output = (ending.records output).map Record.later := by
  cases ending with
  | returned value stack =>
    simp only [later, records]
    split <;> rfl
  | failed e stack => rfl

theorem records_not_skipped {offset : Nat} {e : UnknownOpcode} :
    .skipped offset e ∉ ending.records output := by
  unfold records
  split
  · split <;> simp
  · simp

end Ending

/-- The same course with an unknown byte put in at an offset: it may end before it gets there, and
if it gets there, it visits that byte first and then everything else one byte further on. -/
inductive Course.Spliced (p : Nat) (byte : UInt8) : Course → Course → Prop where
  | short {front : List Visit} {ending : Ending} : (∀ v ∈ front, v.offset < p) →
      Spliced p byte ⟨front, ending⟩ ⟨front, ending.later⟩
  | through {front rest : List Visit} {v : Visit} {ending : Ending} :
      (∀ w ∈ front, w.offset < p) → v.offset = p → (∀ w ∈ rest, p < w.offset) →
      Spliced p byte ⟨front ++ v :: rest, ending⟩
        ⟨front ++ ⟨p, some (.unknown byte), v.stack⟩ :: (v :: rest).map Visit.later, ending.later⟩

namespace Chunk

variable {c : Chunk} {front back : List Located} {i : Located} {b : CodeByte}

theorem course_later (c : Chunk) (p : Nat) (b : CodeByte) (is : List Located)
    (stack : List Number) :
    (c.insert p b).course (is.map Located.later) stack = (c.course is stack).later := by
  induction is generalizing stack with
  | nil =>
    simp only [List.map_nil, course, size_insert]
    rfl
  | cons i is ih =>
    have constants : (c.insert p b).constants = c.constants := rfl
    simp only [List.map_cons, course, constants, Located.step_later]
    cases i.step c.constants stack with
    | next stack' =>
      simp only [Step.later, ih]
      rfl
    | skip e =>
      simp only [Step.later, ih]
      rfl
    | done value stack' => rfl
    | stop e stack' => rfl

theorem course_first (c : Chunk) (i : Located) (back : List Located) (stack : List Number) :
    ∃ rest ending, c.course (i :: back) stack = ⟨.ofLocated i stack :: rest, ending⟩ ∧
      ∀ v ∈ rest, v.offset = c.size ∨ ∃ j ∈ back, j.offset = v.offset := by
  rw [course]
  split
  · exact ⟨_, _, rfl, c.course_listed back _⟩
  · exact ⟨_, _, rfl, c.course_listed back _⟩
  · exact ⟨[], _, rfl, List.forall_mem_nil _⟩
  · exact ⟨[], _, rfl, List.forall_mem_nil _⟩

end Chunk

theorem Course.Spliced.visit {p : Nat} {byte : UInt8} {course course' : Course} {v : Visit}
    (spliced : Spliced p byte course course') (before : v.offset < p) :
    Spliced p byte (course.visit v) (course'.visit v) := by
  cases spliced with
  | short front => exact .short (List.forall_mem_cons.mpr ⟨before, front⟩)
  | through front at_p rest =>
    exact .through (List.forall_mem_cons.mpr ⟨before, front⟩) at_p rest

theorem Course.Spliced.ending {p : Nat} {byte : UInt8} {course course' : Course}
    (spliced : Spliced p byte course course') : course'.ending = course.ending.later := by
  cases spliced <;> rfl

namespace Chunk

variable {c : Chunk} {front back : List Located} {i : Located} {b : CodeByte}

theorem course_spliced (before : ∀ j ∈ front, j.offset < i.offset ∧ j.instruction.Complete)
    (behind : ∀ j ∈ back, i.offset < j.offset) (inside : i.offset < c.size) (stack : List Number) :
    Course.Spliced i.offset b.byte (c.course (front ++ i :: back) stack)
      ((c.insert i.offset b).course
        (front ++ ⟨i.offset, .unknown b.byte⟩ :: (i :: back).map Located.later) stack) := by
  induction front generalizing stack with
  | nil =>
    obtain ⟨rest, ending, visits, others⟩ := c.course_first i back stack
    have skipped : (c.insert i.offset b).course
        (⟨i.offset, .unknown b.byte⟩ :: (i :: back).map Located.later) stack =
          ((c.course (i :: back) stack).later).visit
            ⟨i.offset, some (.unknown b.byte), stack⟩ := by
      rw [course, ← course_later c i.offset b]
      rfl
    rw [List.nil_append, List.nil_append, skipped, visits]
    refine @Course.Spliced.through _ _ [] rest _ ending (List.forall_mem_nil _) rfl
      fun v later => ?_
    rcases others v later with ending | ⟨j, listed, at_j⟩
    · exact ending ▸ inside
    · exact at_j ▸ behind j listed
  | cons j front ih =>
    rw [List.forall_mem_cons] at before
    have first (stack : List Number) :
        ∀ v ∈ [Visit.ofLocated j stack], v.offset < i.offset :=
      List.forall_mem_singleton.mpr before.1.1
    have constants : (c.insert i.offset b).constants = c.constants := rfl
    rw [List.cons_append, List.cons_append, course, course, constants]
    cases step : j.step c.constants stack with
    | next stack' => exact (ih before.2 stack').visit before.1.1
    | skip e => exact (ih before.2 stack).visit before.1.1
    | done value stack' => exact .short (first stack)
    | stop e stack' =>
      have same : e.later = e := by
        rcases Located.step_stop before.1.2 step with rfl | ⟨index, rfl, -⟩ <;> rfl
      have spliced := @Course.Spliced.short _ b.byte _ (.failed e stack') (first stack)
      rwa [Ending.later, same] at spliced

theorem wholeCourse_spliced (listed : i ∈ c.instructions)
    (unknown : Opcode.ofByte b.byte = .error ⟨b.byte⟩) :
    Course.Spliced i.offset b.byte c.wholeCourse (c.insert i.offset b).wholeCourse := by
  obtain ⟨front, back, split⟩ := List.append_of_mem listed
  have tiles := c.instructions_tiles
  rw [split] at tiles
  obtain ⟨-, apart, across⟩ := List.pairwise_append.mp tiles.apart
  have inside := (tiles.inside i (by simp)).2
  rw [bytes_length] at inside
  have some_byte := i.instruction.size_pos
  rw [wholeCourse, wholeCourse, instructions_insert split unknown, split]
  refine course_spliced (fun j earlier => ?_) (fun j later => ?_) (by omega) []
  · have ends := across j earlier i List.mem_cons_self
    have some_byte := j.instruction.size_pos
    exact ⟨by omega, tiles.complete_front j earlier⟩
  · have ends := List.rel_of_pairwise_cons apart later
    omega

end Chunk

theorem Course.Spliced.records {p : Nat} {byte : UInt8} {course course' : Course}
    (spliced : Spliced p byte course course') : ∃ before behind,
      course.visits.filterMap Visit.record? = before ++ behind ∧
      (∀ r ∈ before, ∃ offset e, r = .skipped offset e ∧ offset < p) ∧
      (∀ r ∈ behind, ∃ offset e, r = .skipped offset e ∧ p ≤ offset) ∧
      course'.visits.filterMap Visit.record? = before ++
        (if p ∈ course.visits.map Visit.offset then [.skipped p ⟨byte⟩] else []) ++
          behind.map Record.later := by
  have told {visits : List Visit} {P : Nat → Prop} (all : ∀ v ∈ visits, P v.offset) :
      ∀ r ∈ visits.filterMap Visit.record?, ∃ offset e, r = .skipped offset e ∧ P offset := by
    intro r member
    obtain ⟨v, visited, record⟩ := List.mem_filterMap.mp member
    obtain ⟨e, rfl⟩ := Visit.record_offset record
    exact ⟨_, e, rfl, all v visited⟩
  have moved (visits : List Visit) : (visits.map Visit.later).filterMap Visit.record? =
      (visits.filterMap Visit.record?).map Record.later := by
    rw [List.filterMap_map, List.map_filterMap]
    exact congrArg (List.filterMap · visits) (funext Visit.record_later)
  cases spliced with
  | @short front ending before =>
    have unreached : p ∉ front.map Visit.offset := by
      intro member
      obtain ⟨v, visited, at_p⟩ := List.mem_map.mp member
      exact absurd (before v visited) (at_p ▸ Nat.lt_irrefl p)
    refine ⟨front.filterMap Visit.record?, [], ?_, told before, nofun, ?_⟩
    · rw [List.append_nil]
    · simp [unreached]
  | @through front rest v ending before at_p behind =>
    have reached : p ∈ (front ++ v :: rest).map Visit.offset :=
      List.mem_map.mpr ⟨v, by simp, at_p⟩
    have from_p : ∀ w ∈ v :: rest, p ≤ w.offset := by
      refine List.forall_mem_cons.mpr ⟨Nat.le_of_eq at_p.symm, fun w later => ?_⟩
      exact Nat.le_of_lt (behind w later)
    refine ⟨front.filterMap Visit.record?, (v :: rest).filterMap Visit.record?,
      List.filterMap_append, told before, told from_p, ?_⟩
    rw [if_pos reached, List.filterMap_append, List.append_assoc, ← moved]
    rfl

namespace Machine

variable {console : Console}

theorem execute_log (traces : console.debug = true → console.trace = .working) (m : Machine)
    (chunk : Chunk) : (m.execute console chunk).log =
      chunk.wholeCourse.visits.filterMap Visit.record? ++
        chunk.wholeCourse.ending.records console.output := by
  rw [execute_course traces]
  rfl

theorem skipped_listed (traces : console.debug = true → console.trace = .working) {m : Machine}
    {chunk : Chunk} {offset : Nat} {e : UnknownOpcode}
    (skipped : .skipped offset e ∈ (m.execute console chunk).log) :
    ∃ i ∈ chunk.instructions, i.offset = offset := by
  rw [execute_log traces, List.mem_append] at skipped
  obtain ⟨v, visited, record⟩ := List.mem_filterMap.mp
    (skipped.resolve_right (chunk.wholeCourse.ending.records_not_skipped console.output))
  obtain ⟨e', same⟩ := Visit.record_offset record
  cases same
  rcases chunk.course_listed chunk.instructions [] v visited with past | listed
  · have nothing := (Chunk.visit_past visited).mpr past
    simp [Visit.record?, nothing] at record
  · exact listed

/-- A byte that is no opcode changes nothing but where things are, unless it is put into an operand,
where it is part of an index. -/
theorem unknown_transparent (m : Machine) (console : Console)
    (traces : console.debug = true → console.trace = .working) (chunk : Chunk) (i : Located)
    (listed : i ∈ chunk.instructions) (byte : UInt8) (unknown : 8 ≤ byte.toNat) (line : Nat) :
    let run := m.execute console chunk
    let spliced := m.execute console (chunk.insert i.offset ⟨byte, line⟩)
    spliced.result = run.result.mapError Failure.later ∧
    spliced.outputText = run.outputText ∧ spliced.stack = run.stack ∧
    (∃ ts before behind, chunk.Turns console ⟨0, [], .blank console.trace⟩ ts run ∧
      run.log = before ++ behind ∧
      (∀ r ∈ before, ∃ offset e, r = .skipped offset e ∧ offset < i.offset) ∧
      (∀ offset e, .skipped offset e ∈ behind → i.offset ≤ offset) ∧
      spliced.log = before ++
        (if i.offset ∈ ts.map Turn.offset then [.skipped i.offset ⟨byte⟩] else []) ++
          behind.map Record.later) ∧
    (∀ k, 0 < k → k < i.instruction.size → ∃ wide index,
      ⟨i.offset, .load wide index⟩ ∈ (chunk.insert (i.offset + k) ⟨byte, line⟩).instructions ∧
        (Instruction.load wide index).Operand byte k) ∧
    ∀ (d : Chunk), ∀ j ∈ d.instructions, ∀ k, 0 < k → k < j.instruction.size →
      d.read? (j.offset + k) = some byte →
        j.instruction.Operand byte k ∧
          ∀ e, .skipped (j.offset + k) e ∉ (m.execute console d).log := by
  intro run spliced
  have unread : Opcode.ofByte byte = .error ⟨byte⟩ := by
    unfold Opcode.ofByte
    split
    case h_9 => rfl
    all_goals omega
  have courses := Chunk.wholeCourse_spliced (b := ⟨byte, line⟩) listed unread
  have ending := courses.ending
  have before_run : run = _ := execute_course traces m chunk
  have behind_run : spliced = _ := execute_course traces m _
  refine ⟨?_, ?_, ?_, ?_, ?_, ?_⟩
  · simp [before_run, behind_run, Course.run, ending]
  · simp [before_run, behind_run, Course.run, ending]
  · simp [before_run, behind_run, Course.run, ending]
  · obtain ⟨ts, turns, -, all⟩ :=
      Chunk.executeFrom_turns chunk.instructions_tiles console [] (.blank console.trace)
    obtain ⟨before, behind, records, earlier, later, told⟩ := courses.records
    have offsets : ts.map Turn.offset = chunk.wholeCourse.visits.map Visit.offset := by
      rw [Chunk.wholeCourse, ← all traces, List.map_map]
      rfl
    refine ⟨ts, before, behind ++ chunk.wholeCourse.ending.records console.output, turns, ?_,
      earlier, ?_, ?_⟩
    · rw [execute_log traces, records, List.append_assoc]
    · intro offset e member
      have skipped := (List.mem_append.mp member).resolve_right
        (chunk.wholeCourse.ending.records_not_skipped console.output)
      obtain ⟨offset', e', same, from_there⟩ := later _ skipped
      cases same
      exact from_there
    · rw [execute_log traces, told, ending, Ending.later_records, offsets, List.map_append,
        List.append_assoc, List.append_assoc]
  · intro k positive inside
    obtain ⟨front, back, split⟩ := List.append_of_mem listed
    obtain ⟨k, rfl⟩ := Nat.exists_eq_add_one.mpr positive
    obtain ⟨wide, index, others, instructions, operand⟩ :=
      Chunk.instructions_insert_operand split inside ⟨byte, line⟩
    exact ⟨wide, index, by rw [instructions]; simp, operand⟩
  · intro d j listed_j k positive inside read
    refine ⟨Chunk.operand_listed listed_j positive inside read, fun e skipped => ?_⟩
    obtain ⟨j', listed', at_k⟩ := skipped_listed traces skipped
    have apart := d.instructions_tiles.not_within listed_j listed' (by omega)
    omega

theorem unknown_transparent_cut :
    let chunk : Chunk := ⟨#[⟨1, 1⟩, ⟨0, 1⟩, ⟨2, 1⟩, ⟨0, 1⟩], #[.zero]⟩
    (new.execute .quiet chunk).result = .error (.runtime (.unexpectedEnd 3)) ∧
      (new.execute .quiet (chunk.insert 2 ⟨200, 7⟩)).result =
        .error (.runtime (.unexpectedEnd 4)) := by
  intro chunk
  have spliced := unknown_transparent .new .quiet nofun chunk ⟨2, .truncated true 1⟩ (by decide)
    200 (by decide) 7
  exact ⟨rfl, spliced.1⟩

end Machine
end StackCalc
