import StackCalc.Proofs.Machine.Dispatch
import StackCalc.Proofs.Machine.Evaluation

namespace StackCalc

/-- Where a course goes: along instructions to one that ends it, or past the last of them. -/
inductive Course.Along (chunk : Chunk) : List Located → Course → Prop where
  | past {stack : List Number} : Along chunk []
      ⟨[⟨chunk.size, none, stack⟩], .failed (.unexpectedEnd chunk.size) stack⟩
  | further {i : Located} {rest : List Located} {stack : List Number} {course : Course} :
      Along chunk rest course → Along chunk (i :: rest) (course.visit (.ofLocated i stack))
  | returned {i : Located} {rest : List Located} {stack stack' : List Number} {value : Number} :
      i.instruction = .ret →
        Along chunk (i :: rest) ⟨[.ofLocated i stack], .returned value stack'⟩
  | failed {i : Located} {rest : List Located} {stack stack' : List Number} {e : RuntimeError} :
      Along chunk (i :: rest) ⟨[.ofLocated i stack], .failed e stack'⟩

inductive Chunk.Proper (chunk : Chunk) : Instruction → Prop where
  | ret : Proper chunk .ret
  | negate : Proper chunk .negate
  | binary (op : BinaryOp) : Proper chunk (.binary op)
  | load {index : Nat} {value : Number} (wide : Bool) :
      chunk.constant? index = some value → Proper chunk (.load wide index)

def TraceLine.instruction? : TraceLine → Option String
  | .instruction line => some line
  | _ => none

def Run.instructionLines (r : Run) : List String := r.trace.filterMap TraceLine.instruction?

def Visit.line (chunk : Chunk) (v : Visit) : String := chunk.listLine v.offset v.instruction

theorem Located.step_done {i : Located} {constants : Array Number} {stack stack' : List Number}
    {value : Number} (step : i.step constants stack = .done value stack') :
    i.instruction = .ret := by
  cases Located.steps_of step
  rfl

theorem Chunk.course_along (chunk : Chunk) (is : List Located) (stack : List Number) :
    Course.Along chunk is (chunk.course is stack) := by
  induction is generalizing stack with
  | nil => exact .past
  | cons i rest ih =>
    simp only [course]
    split
    · exact .further (ih _)
    · exact .further (ih _)
    · rename_i step
      exact .returned (Located.step_done step)
    · exact .failed

namespace Course.Along

variable {chunk : Chunk} {is : List Located} {course : Course}

theorem lines (along : Along chunk is course) :
    ((∃ v ∈ course.visits, v.instruction = none) ∧
        (∃ stack, course.ending = .failed (.unexpectedEnd chunk.size) stack) ∧
        course.visits.map (Visit.line chunk) =
          is.map chunk.listInstruction ++ [chunk.listLine chunk.size none]) ∨
      ((∀ v ∈ course.visits, v.instruction ≠ none) ∧
        course.visits.map (Visit.line chunk) <+: is.map chunk.listInstruction) := by
  induction along with
  | past => exact .inl ⟨⟨_, List.mem_singleton_self _, rfl⟩, ⟨_, rfl⟩, rfl⟩
  | @further i rest stack course _ ih =>
    rcases ih with ⟨⟨v, visited, past⟩, ends, lines⟩ | ⟨inside, lines⟩
    · refine .inl ⟨⟨v, List.mem_cons_of_mem _ visited, past⟩, ends, ?_⟩
      simp only [visit, List.map_cons, lines]
      rfl
    · refine .inr ⟨List.forall_mem_cons.mpr ⟨Option.some_ne_none _, inside⟩, ?_⟩
      exact List.cons_prefix_cons.mpr ⟨rfl, lines⟩
  | @returned i rest =>
    exact .inr ⟨List.forall_mem_singleton.mpr (Option.some_ne_none _), List.prefix_append [_] _⟩
  | @failed i rest =>
    exact .inr ⟨List.forall_mem_singleton.mpr (Option.some_ne_none _), List.prefix_append [_] _⟩

theorem lines_returned (along : Along chunk is course) {value : Number} {stack : List Number}
    (ends : course.ending = .returned value stack) :
    ∃ front i behind, is = front ++ i :: behind ∧ i.instruction = .ret ∧
      course.visits.map (Visit.line chunk) = (front ++ [i]).map chunk.listInstruction := by
  induction along with
  | past => cases ends
  | @further i rest stack course _ ih =>
    obtain ⟨front, last, behind, rfl, ret, lines⟩ := ih ends
    refine ⟨i :: front, last, behind, rfl, ret, ?_⟩
    simp only [visit, List.map_cons, lines]
    rfl
  | @returned i rest _ _ _ ret => exact ⟨[], i, rest, rfl, ret, rfl⟩
  | failed => cases ends

end Course.Along

theorem Tree.instructions_proper {chunk : Chunk} (e : Tree) (first : Nat)
    (pools : chunk.Pools first e.numbers) :
    ∀ i ∈ e.instructions first, chunk.Proper i ∧ i ≠ .ret := by
  induction e generalizing first with
  | number t =>
    obtain ⟨value, -, constant⟩ := pools.head
    exact List.forall_mem_singleton.mpr ⟨.load _ constant, by simp⟩
  | group inner ih => exact ih first pools
  | negate sign operand ih =>
    simp only [instructions, List.forall_mem_append, List.forall_mem_singleton]
    exact ⟨ih first pools, .negate, by simp⟩
  | binary op sign left right left_ih right_ih =>
    obtain ⟨left_pools, right_pools⟩ := Chunk.Pools.split pools
    simp only [instructions, List.forall_mem_append, List.forall_mem_singleton]
    exact ⟨⟨left_ih first left_pools, right_ih _ right_pools⟩, .binary op, by simp⟩

theorem Compiled.pools {script : Script} {chunk : Chunk} {e : Tree}
    (compiled : Compiled script chunk e) : chunk.Pools 0 e.numbers :=
  ⟨[], by simp [compiled.pool]⟩

theorem Compiled.returns {script : Script} {chunk : Chunk} {e : Tree}
    (compiled : Compiled script chunk e) :
    ∃ value stack, chunk.wholeCourse.ending = .returned value stack := by
  obtain ⟨value, -, result, -⟩ :=
    compiled.load .new .quiet rfl (rfl : (Tape.blank .working).sink = .working)
  have course : Machine.new.load .quiet chunk (.blank .working) = _ :=
    chunk.executeFrom_course .quiet _ _ _ nofun
  rw [course] at result
  cases ends : chunk.wholeCourse.ending with
  | returned value stack => exact ⟨value, stack, rfl⟩
  | failed e stack =>
    have failed : (chunk.wholeCourse.run chunk .quiet (.blank .working)).result =
        .error (.runtime e) := by rw [Course.run, ends, Ending.result]
    cases failed.symm.trans result

/-- A run of compiled code comes to every instruction, since the only return is the last of them. -/
theorem Compiled.lines {script : Script} {chunk : Chunk} {e : Tree}
    (compiled : Compiled script chunk e) : chunk.wholeCourse.visits.map (Visit.line chunk) =
      chunk.instructions.map chunk.listInstruction := by
  obtain ⟨value, stack, ends⟩ := compiled.returns
  obtain ⟨front, i, behind, split, ret, lines⟩ :=
    (chunk.course_along chunk.instructions []).lines_returned ends
  have laid := compiled.instructions
  rw [split, List.map_append, List.map_cons, ret] at laid
  rcases List.eq_nil_or_concat behind with rfl | ⟨others, last, rfl⟩
  · rw [split]
    exact lines
  · have inner : front.map Located.instruction ++ .ret :: others.map Located.instruction =
        e.instructions 0 := by
      simp only [List.concat_eq_append, List.map_append, ← List.cons_append,
        ← List.append_assoc] at laid
      exact (List.append_inj' laid rfl).1
    have early : Instruction.ret ∈ e.instructions 0 := by simp [← inner]
    exact absurd rfl (e.instructions_proper 0 compiled.pools _ early).2

theorem Compiled.proper {script : Script} {chunk : Chunk} {e : Tree}
    (compiled : Compiled script chunk e) :
    ∀ i ∈ chunk.instructions, chunk.Proper i.instruction := by
  intro i listed
  have member : i.instruction ∈ e.instructions 0 ++ [.ret] :=
    compiled.instructions ▸ List.mem_map_of_mem listed
  rcases List.mem_append.mp member with inside | last
  · exact (e.instructions_proper 0 compiled.pools _ inside).1
  · rw [List.mem_singleton.mp last]
    exact .ret

theorem Chunk.visit_past {chunk : Chunk} {v : Visit} (visited : v ∈ chunk.wholeCourse.visits) :
    v.instruction = none ↔ v.offset = chunk.size := by
  obtain ⟨within, here⟩ := course_visits chunk.instructions_tiles [] v visited
  rw [here]
  constructor
  · intro nothing
    have reads := chunk.instruction_reads v.offset
    rw [nothing] at reads
    cases reads with
    | ending past =>
      rw [List.getElem?_eq_none_iff, bytes_length] at past
      exact Nat.le_antisymm within past
  · intro past
    exact instruction_behind (Nat.le_of_eq past.symm)

theorem Machine.run_instructionLines {task : Task} {chunk : Chunk} (loads : task.Loads chunk)
    (m : Machine) (output : Sink) : (m.run ⟨true, output, .working⟩ task).instructionLines =
      chunk.wholeCourse.visits.map (Visit.line chunk) := by
  have traced : m.run ⟨true, output, .working⟩ task = _ := run_course loads (fun _ => rfl) m
  have heading : (task.heading chunk).filterMap TraceLine.instruction? = [] := by
    cases task with
    | source text => simp [Task.heading, TraceLine.instruction?]
    | chunk given => rfl
  have visit_lines : ∀ v, (Visit.lines chunk v).filterMap TraceLine.instruction? =
      [v.line chunk] := fun v => rfl
  rw [traced]
  simp [Run.instructionLines, Course.run, heading, visit_lines, List.filterMap_flatMap,
    ← List.map_eq_flatMap]

/-- The turns of a run that is watched go along the listing, and past it only where the code ends
too early. -/
theorem Machine.trace_along_listing (m : Machine) (output : Sink) (task : Task) (chunk : Chunk)
    (loads : task.Loads chunk) (header : String) :
    let run := m.run ⟨true, output, .working⟩ task
    ∃ tape ts, chunk.Turns ⟨true, output, .working⟩ ⟨0, [], tape⟩ ts run ∧
      ts.map (Turn.visit chunk) = chunk.wholeCourse.visits ∧
      ((∃ t ∈ ts, t.offset = chunk.size) →
        run.result = .error (.runtime (.unexpectedEnd chunk.size)) ∧
          run.instructionLines =
            (chunk.listing header).tail ++ [chunk.listLine chunk.size none]) ∧
      ((∀ t ∈ ts, t.offset ≠ chunk.size) →
        run.instructionLines <+: (chunk.listing header).tail) ∧
      run.instructionLines = (ts.map fun t => (chunk.listAt t.offset).1) ∧
      ts.head?.map Turn.offset = some 0 ∧
      (ts.IsChain fun t t' => t'.offset = (chunk.listAt t.offset).2) ∧
      ∀ source, compile source = .ok chunk →
        run.instructionLines = (chunk.listing header).tail ∧
          ∀ i ∈ chunk.instructions, chunk.Proper i.instruction := by
  intro run
  have lines : run.instructionLines = _ := m.run_instructionLines loads output
  have along := (chunk.course_along chunk.instructions []).lines
  have traced : run = _ := run_course loads (fun _ => rfl) m
  obtain ⟨tape, ts, turns, visits⟩ : ∃ tape ts,
      chunk.Turns ⟨true, output, .working⟩ ⟨0, [], tape⟩ ts run ∧
        ts.map (Turn.visit chunk) = chunk.wholeCourse.visits := run_turns loads (fun _ => rfl) m
  have past {t : Turn} (turned : t ∈ ts) :
      (t.visit chunk).instruction = none ↔ t.offset = chunk.size :=
    Chunk.visit_past (visits ▸ List.mem_map_of_mem turned)
  obtain ⟨first, chain⟩ := turns.chain
  refine ⟨tape, ts, turns, visits, ?_, ?_, ?_, congrArg (Option.map Turn.offset) first, chain, ?_⟩
  · rintro ⟨t, turned, ending⟩
    rcases along with ⟨-, ⟨stack, ends⟩, shown⟩ | ⟨inside, -⟩
    · refine ⟨?_, lines.trans shown⟩
      rw [traced]
      simp only [Course.run, Chunk.wholeCourse, ends, Ending.result]
    · exact absurd ((past turned).mpr ending) (inside _ (visits ▸ List.mem_map_of_mem turned))
  · intro inside
    rcases along with ⟨⟨v, visited, nothing⟩, -⟩ | ⟨-, shown⟩
    · obtain ⟨t, turned, rfl⟩ := List.mem_map.mp (visits ▸ visited : v ∈ ts.map (Turn.visit chunk))
      exact absurd ((past turned).mp nothing) (inside t turned)
    · exact lines ▸ shown
  · rw [lines, ← visits, List.map_map]
    rfl
  · intro source ok
    obtain ⟨-, e, compiled⟩ := compiled_of_ok ok
    exact ⟨lines.trans compiled.lines, compiled.proper⟩

theorem Machine.trace_along_listing_past :
    (Machine.new.run ⟨true, .working, .working⟩
      (.chunk ⟨#[⟨200, 1⟩, ⟨1, 1⟩, ⟨0, 1⟩], #[.zero]⟩)).instructionLines =
        (Chunk.listing ⟨#[⟨200, 1⟩, ⟨1, 1⟩, ⟨0, 1⟩], #[.zero]⟩ "code").tail ++
          ["0003    0 <end of chunk>"] := by
  have loads : (Task.chunk ⟨#[⟨200, 1⟩, ⟨1, 1⟩, ⟨0, 1⟩], #[.zero]⟩).Loads
      ⟨#[⟨200, 1⟩, ⟨1, 1⟩, ⟨0, 1⟩], #[.zero]⟩ := rfl
  obtain ⟨tape, ts, -, visits, ending, -⟩ :=
    trace_along_listing .new .working _ _ loads "code"
  have offsets : ts.map Turn.offset = [0, 1, 3] := by
    have at_visits := congrArg (List.map Visit.offset) visits
    rw [List.map_map] at at_visits
    exact at_visits
  have past : ∃ t ∈ ts, t.offset = 3 := List.mem_map.mp (by simp [offsets])
  have shown : Chunk.listLine ⟨#[⟨200, 1⟩, ⟨1, 1⟩, ⟨0, 1⟩], #[.zero]⟩ 3 none =
      "0003    0 <end of chunk>" := by decide
  rw [(ending past).2, ← shown]
  rfl

end StackCalc
