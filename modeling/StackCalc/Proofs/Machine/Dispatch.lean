import Mathlib.Data.List.Chain
import StackCalc.Proofs.Chunk.Strides
import StackCalc.Proofs.Machine.Tracing

/-! The loop that runs code: it fetches an instruction byte by byte, executes it and goes on behind
it. Nothing checks the code before. All the same the loop only goes forward, never leaves the code
and comes to an end, and the last turn tells why. -/
namespace StackCalc

/-- Reads the instruction at an offset, and where the next one starts. Reading fails at the opcode,
or at the first byte of the operand when not all of it is there. -/
def Chunk.fetch (chunk : Chunk) (offset : Nat) : Except RuntimeError (Instruction × Nat) :=
  match chunk.read? offset with
  | none => .error (.unexpectedEnd offset)
  | some byte =>
    match Opcode.ofByte byte with
    | .error e => .ok (.unknown e.byte, offset + 1)
    | .ok .ret => .ok (.ret, offset + 1)
    | .ok .negate => .ok (.negate, offset + 1)
    | .ok (.binary op) => .ok (.binary op, offset + 1)
    | .ok .constant =>
      match chunk.read? (offset + 1) with
      | some index => .ok (.load false index.toNat, offset + 2)
      | none => .error (.unexpectedEnd (offset + 1))
    | .ok .constantLong =>
      match chunk.readWord? (offset + 1) with
      | some index => .ok (.load true index.toNat, offset + 3)
      | none => .error (.unexpectedEnd (offset + 1))

structure Turn where
  offset : Nat
  stack : List Number
  tape : Tape

inductive Turned where
  | on (t : Turn)
  | ended (r : Run)

/-- One turn of the loop. With `debug` it is written to the trace first, and over if that fails. -/
def Chunk.turn (chunk : Chunk) (console : Console) (t : Turn) : Turned :=
  match t.tape.observe console [.stack t.stack, .instruction (chunk.listAt t.offset).1] with
  | (tape, some reason) => .ended (tape.stop (.outputFailed reason) t.stack)
  | (tape, none) =>
    match chunk.fetch t.offset with
    | .error e => .ended (tape.stop e t.stack)
    | .ok (instruction, next) =>
      match Located.step chunk.constants ⟨t.offset, instruction⟩ t.stack with
      | .next stack => .on ⟨next, stack, tape⟩
      | .skip e => .on ⟨next, t.stack, tape.note (.skipped t.offset e)⟩
      | .done value stack => .ended (tape.done console value stack)
      | .stop e stack => .ended (tape.stop e stack)

def Turn.visit (chunk : Chunk) (t : Turn) : Visit :=
  ⟨t.offset, chunk.instruction? t.offset, t.stack⟩

/-- The turns from one on, up to the one that ends the run. -/
inductive Chunk.Turns (chunk : Chunk) (console : Console) : Turn → List Turn → Run → Prop where
  | last {t : Turn} {r : Run} : chunk.turn console t = .ended r → Turns chunk console t [t] r
  | further {t t' : Turn} {ts : List Turn} {r : Run} : chunk.turn console t = .on t' →
      Turns chunk console t' ts r → Turns chunk console t (t :: ts) r

namespace Chunk

variable {chunk : Chunk} {offset next : Nat} {instruction : Instruction} {e : RuntimeError}

/-- The bytes that are fetched are those that the listing cuts off as one instruction. -/
theorem fetch_instruction (chunk : Chunk) (offset : Nat) : chunk.fetch offset =
    match chunk.instruction? offset with
    | none => .error (.unexpectedEnd offset)
    | some (.truncated _ _) => .error (.unexpectedEnd (offset + 1))
    | some instruction => .ok (instruction, offset + instruction.size) := by
  have reads := chunk.instruction_reads offset
  have read (o : Nat) : chunk.read? o = chunk.bytes[o]? := (chunk.bytes_getElem o).symm
  generalize chunk.instruction? offset = shown at reads
  cases reads with
  | ending past => simp only [fetch, read, past]
  | unknown first op => simp only [fetch, read, first, op, Instruction.size]
  | ret first op => simp only [fetch, read, first, op, Instruction.size]
  | negate first op => simp only [fetch, read, first, op, Instruction.size]
  | binary first op => simp only [fetch, read, first, op, Instruction.size]
  | narrow first op second =>
    simp only [fetch, read, first, op, second, Instruction.size]
    rfl
  | narrowCut first op second => simp only [fetch, read, first, op, second]
  | @wide byte high low first op second third =>
    rw [bytes_getElem] at first second third
    have high_lt := high.toNat_lt
    have low_lt := low.toNat_lt
    have word : (UInt16.ofNat (256 * high.toNat + low.toNat)).toNat =
        256 * high.toNat + low.toNat := by
      rw [UInt16.toNat_ofNat']
      omega
    simp only [fetch, first, op, readWord?, second, third, word, Instruction.size]
    rfl
  | @wideCut byte present first op length few =>
    have third : chunk.bytes[offset + 2]? = none := List.getElem?_eq_none (by omega)
    rw [bytes_getElem] at first third
    have cut : chunk.readWord? (offset + 1) = none := by
      unfold readWord?
      split
      · rename_i high low _ last
        cases third.symm.trans last
      · rfl
    simp only [fetch, first, op, cut]

theorem fetch_listed (fetched : chunk.fetch offset = .ok (instruction, next)) :
    chunk.instruction? offset = some instruction ∧ next = (chunk.listAt offset).2 := by
  rw [fetch_instruction] at fetched
  split at fetched
  · cases fetched
  · cases fetched
  · rename_i here
    cases fetched
    refine ⟨here, ?_⟩
    rw [listAt, here]
    rfl

theorem fetch_eq_ok (fetched : chunk.fetch offset = .ok (instruction, next)) :
    chunk.instruction? offset = some instruction ∧ offset < next ∧ next ≤ chunk.size := by
  obtain ⟨here, rfl⟩ := fetch_listed fetched
  have stride := chunk.listAt_stride offset
  have inside : offset < chunk.size := by
    refine Nat.lt_of_not_le fun behind => ?_
    rw [instruction_behind behind] at here
    cases here
  exact ⟨here, stride.further, stride.bounded.trans (Nat.max_le.mpr ⟨inside, Nat.le_refl _⟩)⟩

theorem fetch_complete (fetched : chunk.fetch offset = .ok (instruction, next)) :
    instruction.Complete := by
  have here := (fetch_eq_ok fetched).1
  cases code : chunk.bytes.drop offset with
  | nil =>
    rw [List.drop_eq_nil_iff, bytes_length] at code
    rw [instruction_behind code] at here
    cases here
  | cons byte rest =>
    rw [instruction_of_drop code] at here
    cases here
    rcases Instruction.take_spells byte rest with ⟨wide, present, cut⟩ | ⟨complete, -⟩
    · rw [fetch_instruction, instruction_of_drop code, cut] at fetched
      cases fetched
    · exact complete

theorem fetch_eq_error (within : offset ≤ chunk.size) (failed : chunk.fetch offset = .error e) :
    e = .unexpectedEnd chunk.size ∨ ∃ n, e = .unexpectedEnd n ∧ n + 1 = chunk.size ∧
      offset + 2 = chunk.size ∧ chunk.readOp? offset = some (.ok .constantLong) := by
  rw [fetch_instruction] at failed
  have reads := chunk.instruction_reads offset
  generalize chunk.instruction? offset = shown at reads failed
  cases reads with
  | ending past =>
    rw [List.getElem?_eq_none_iff, bytes_length] at past
    cases failed
    exact .inl (congrArg _ (Nat.le_antisymm within past))
  | narrowCut first op second =>
    rw [List.getElem?_eq_none_iff, bytes_length] at second
    cases failed
    exact .inl (congrArg _ (Nat.le_antisymm (read_inside first) second))
  | @wideCut byte present first op length few =>
    rw [bytes_length] at length
    cases failed
    match present with
    | 0 => exact .inl (congrArg _ length.symm)
    | 1 => exact .inr ⟨_, rfl, length.symm, length.symm, readOp_of_byte first op⟩
  | _ => cases failed

end Chunk

inductive Turn.Ends (chunk : Chunk) (console : Console) (t : Turn) : Run → Prop where
  | untraced {tape : Tape} {reason : String} :
      ¬ (console.debug = true → t.tape.sink = .working) →
      Ends chunk console t (tape.stop (.outputFailed reason) t.stack)
  | unfetched {tape : Tape} {e : RuntimeError} : chunk.fetch t.offset = .error e →
      Ends chunk console t (tape.stop e t.stack)
  | stopped {tape : Tape} {instruction : Instruction} {next : Nat} {e : RuntimeError}
      {stack : List Number} : chunk.fetch t.offset = .ok (instruction, next) →
      Located.step chunk.constants ⟨t.offset, instruction⟩ t.stack = .stop e stack →
      Ends chunk console t (tape.stop e stack)
  | returned {tape : Tape} {instruction : Instruction} {next : Nat} {value : Number}
      {stack : List Number} : chunk.fetch t.offset = .ok (instruction, next) →
      Located.step chunk.constants ⟨t.offset, instruction⟩ t.stack = .done value stack →
      Ends chunk console t (tape.done console value stack)

namespace Chunk

variable {chunk : Chunk} {console : Console} {t t' : Turn} {ts : List Turn} {r : Run}

theorem observe_failed {tape tape' : Tape} {lines : List TraceLine} {reason : String}
    (failed : tape.observe console lines = (tape', some reason)) :
    ¬ (console.debug = true → tape.sink = .working) := by
  intro heard
  rw [Tape.observe_watched heard] at failed
  cases failed

theorem observe_heard {tape tape' : Tape} {lines : List TraceLine}
    (observed : tape.observe console lines = (tape', none))
    (heard : console.debug = true → tape.sink = .working) :
    console.debug = true → tape'.sink = .working := by
  rw [Tape.observe_watched heard] at observed
  cases observed
  exact heard

theorem turn_ended (turned : chunk.turn console t = .ended r) : t.Ends chunk console r := by
  unfold turn at turned
  split at turned
  · rename_i tape reason observed
    cases turned
    exact .untraced (observe_failed observed)
  · split at turned
    · rename_i e failed
      cases turned
      exact .unfetched failed
    · rename_i instruction next fetched
      split at turned
      · cases turned
      · cases turned
      · rename_i value stack step
        cases turned
        exact .returned fetched step
      · rename_i e stack step
        cases turned
        exact .stopped fetched step

theorem turn_on (turned : chunk.turn console t = .on t') :
    (∃ instruction, chunk.fetch t.offset = .ok (instruction, t'.offset)) ∧
      ((console.debug = true → t.tape.sink = .working) →
        console.debug = true → t'.tape.sink = .working) := by
  unfold turn at turned
  split at turned
  · cases turned
  · rename_i tape observed
    have heard := observe_heard observed
    split at turned
    · cases turned
    · rename_i instruction next fetched
      split at turned
      · cases turned
        exact ⟨⟨instruction, fetched⟩, heard⟩
      · cases turned
        exact ⟨⟨instruction, fetched⟩, heard⟩
      · cases turned
      · cases turned

namespace Turns

theorem last_ends (turns : chunk.Turns console t ts r) :
    ∃ u, ts.getLast? = some u ∧ u.Ends chunk console r := by
  induction turns with
  | last ended => exact ⟨_, rfl, turn_ended ended⟩
  | further _ _ ih =>
    obtain ⟨u, last, ends⟩ := ih
    exact ⟨u, by rw [List.getLast?_cons, last, Option.getD_some], ends⟩

theorem heard (turns : chunk.Turns console t ts r)
    (first : console.debug = true → t.tape.sink = .working) :
    ∀ u ∈ ts, console.debug = true → u.tape.sink = .working := by
  induction turns with
  | last => exact List.forall_mem_singleton.mpr first
  | further on _ ih =>
    exact List.forall_mem_cons.mpr ⟨first, ih ((turn_on on).2 first)⟩

theorem bounds (turns : chunk.Turns console t ts r) (within : t.offset ≤ chunk.size) :
    t.offset + ts.length ≤ chunk.size + 1 ∧ (ts.map Turn.offset).Pairwise (· < ·) ∧
      ∀ u ∈ ts, t.offset ≤ u.offset ∧ u.offset ≤ chunk.size := by
  induction turns with
  | last =>
    refine ⟨Nat.succ_le_succ within, List.pairwise_singleton _ _, ?_⟩
    exact List.forall_mem_singleton.mpr ⟨Nat.le_refl _, within⟩
  | @further t t' ts r on _ ih =>
    obtain ⟨⟨_, fetched⟩, -⟩ := turn_on on
    obtain ⟨-, forward, inside⟩ := fetch_eq_ok fetched
    obtain ⟨few, increasing, bounded⟩ := ih inside
    refine ⟨?_, ?_, ?_⟩
    · rw [List.length_cons]
      omega
    · rw [List.map_cons, List.pairwise_cons, List.forall_mem_map]
      exact ⟨fun u later => Nat.lt_of_lt_of_le forward (bounded u later).1, increasing⟩
    · refine List.forall_mem_cons.mpr ⟨⟨Nat.le_refl _, within⟩, fun u later => ?_⟩
      have far := bounded u later
      exact ⟨by omega, far.2⟩

theorem chain (turns : chunk.Turns console t ts r) :
    ts.head? = some t ∧ ts.IsChain fun u u' => u'.offset = (chunk.listAt u.offset).2 := by
  induction turns with
  | last => exact ⟨rfl, List.isChain_singleton _⟩
  | further on _ ih =>
    obtain ⟨first, chain⟩ := ih
    obtain ⟨⟨_, fetched⟩, -⟩ := turn_on on
    refine ⟨rfl, List.isChain_cons.mpr ⟨?_, chain⟩⟩
    intro u next
    cases first.symm.trans next
    exact (fetch_listed fetched).2

end Turns

theorem turn_instruction (chunk : Chunk) (console : Console) (offset : Nat) (stack : List Number)
    (tape : Tape) : chunk.turn console ⟨offset, stack, tape⟩ =
      match tape.observe console
        (chunk.stepLines offset (chunk.instruction? offset) stack) with
      | (tape, some reason) => .ended (tape.stop (.outputFailed reason) stack)
      | (tape, none) =>
        match chunk.instruction? offset with
        | none => .ended (tape.stop (.unexpectedEnd offset) stack)
        | some instruction =>
          match Located.step chunk.constants ⟨offset, instruction⟩ stack with
          | .next stack => .on ⟨offset + instruction.size, stack, tape⟩
          | .skip e => .on ⟨offset + instruction.size, stack, tape.note (.skipped offset e)⟩
          | .done value stack => .ended (tape.done console value stack)
          | .stop e stack => .ended (tape.stop e stack) := by
  have lines : [TraceLine.stack stack, .instruction (chunk.listAt offset).1] =
      chunk.stepLines offset (chunk.instruction? offset) stack := rfl
  rw [turn, fetch_instruction, lines]
  rcases tape.observe console _ with ⟨tape', _ | reason⟩
  · rcases chunk.instruction? offset with _ | instruction
    · rfl
    · cases instruction <;> rfl
  · rfl

/-- Turns come to what a course comes to: to all of it if the trace takes what is written, and to
the front of it, up to where the trace fails, in any case. -/
def TurnsAlong (chunk : Chunk) (console : Console) (t : Turn) (course : Course) (r : Run) : Prop :=
  ∃ ts, chunk.Turns console t ts r ∧ ts.map (Turn.visit chunk) <+: course.visits ∧
    ((console.debug = true → t.tape.sink = .working) →
      ts.map (Turn.visit chunk) = course.visits)

namespace TurnsAlong

variable {course : Course}

theorem last (ended : chunk.turn console t = .ended r) (ending : Ending) :
    chunk.TurnsAlong console t ⟨[t.visit chunk], ending⟩ r :=
  ⟨[t], .last ended, List.prefix_rfl, fun _ => rfl⟩

theorem untraced (ended : chunk.turn console t = .ended r)
    (unheard : ¬ (console.debug = true → t.tape.sink = .working))
    (shows : course.visits.head? = some (t.visit chunk)) :
    chunk.TurnsAlong console t course r := by
  obtain ⟨others, visits⟩ := List.head?_eq_some_iff.mp shows
  refine ⟨[t], .last ended, ?_, fun heard => absurd heard unheard⟩
  rw [visits]
  exact List.cons_prefix_cons.mpr ⟨rfl, List.nil_prefix⟩

theorem further (on : chunk.turn console t = .on t')
    (heard : (console.debug = true → t.tape.sink = .working) →
      console.debug = true → t'.tape.sink = .working)
    (along : chunk.TurnsAlong console t' course r) :
    chunk.TurnsAlong console t (course.visit (t.visit chunk)) r := by
  obtain ⟨ts, turns, front, all⟩ := along
  refine ⟨t :: ts, .further on turns, List.cons_prefix_cons.mpr ⟨rfl, front⟩, ?_⟩
  intro still
  exact congrArg (List.cons _) (all (heard still))

end TurnsAlong

theorem course_head (chunk : Chunk) (i : Located) (rest : List Located) (stack : List Number) :
    (chunk.course (i :: rest) stack).visits.head? = some (.ofLocated i stack) := by
  rw [course]
  split <;> rfl

/-- A run is made of turns, and they come to what its course comes to. -/
theorem executeFrom_turns {offset : Nat} {is : List Located}
    (tiles : Located.Tiles chunk.bytes offset is) (console : Console) (stack : List Number)
    (tape : Tape) :
    chunk.TurnsAlong console ⟨offset, stack, tape⟩ (chunk.course is stack)
      (chunk.executeFrom console is stack tape) := by
  induction tiles generalizing stack tape with
  | nil =>
    have here : chunk.instruction? chunk.size = none := instruction_behind (Nat.le_refl _)
    have visit : Turn.visit chunk ⟨chunk.size, stack, tape⟩ = ⟨chunk.size, none, stack⟩ :=
      congrArg (Visit.mk chunk.size · stack) here
    rw [bytes_length, course, ← visit]
    refine .last ?_ _
    rw [turn_instruction, executeFrom, here]
    rcases tape.observe console _ with ⟨tape', _ | reason⟩ <;> rfl
  | @cons offset byte rest is here tiles ih =>
    have found := instruction_of_drop here
    have visit : Turn.visit chunk ⟨offset, stack, tape⟩ =
        .ofLocated ⟨offset, (Instruction.take byte rest).1⟩ stack :=
      congrArg (Visit.mk offset · stack) found
    have turned := chunk.turn_instruction console offset stack tape
    rw [found] at turned
    rw [executeFrom]
    rcases observed : tape.observe console _ with ⟨tape', _ | reason⟩
    · have heard := observe_heard observed
      rw [observed] at turned
      rw [course, ← visit]
      cases step : Located.step chunk.constants ⟨offset, (Instruction.take byte rest).1⟩ stack with
      | next stack' =>
        simp only [step] at turned ⊢
        exact .further turned heard (ih stack' tape')
      | skip e =>
        simp only [step] at turned ⊢
        exact .further turned heard (ih stack (tape'.note (.skipped offset e)))
      | done value stack' =>
        simp only [step] at turned ⊢
        exact .last turned _
      | stop e stack' =>
        simp only [step] at turned ⊢
        exact .last turned _
    · rw [observed] at turned
      exact .untraced turned (observe_failed observed) (visit ▸ chunk.course_head _ _ _)

theorem course_listed (chunk : Chunk) (is : List Located) (stack : List Number) :
    ∀ v ∈ (chunk.course is stack).visits,
      v.offset = chunk.size ∨ ∃ i ∈ is, i.offset = v.offset := by
  induction is generalizing stack with
  | nil => exact List.forall_mem_singleton.mpr (.inl rfl)
  | cons i rest ih =>
    have first (stack : List Number) : (Visit.ofLocated i stack).offset = chunk.size ∨
        ∃ j ∈ i :: rest, j.offset = (Visit.ofLocated i stack).offset :=
      .inr ⟨i, List.mem_cons_self, rfl⟩
    have others (stack : List Number) : ∀ v ∈ (chunk.course rest stack).visits,
        v.offset = chunk.size ∨ ∃ j ∈ i :: rest, j.offset = v.offset := by
      intro v visited
      rcases ih stack v visited with ending | ⟨j, listed, at_j⟩
      · exact .inl ending
      · exact .inr ⟨j, List.mem_cons_of_mem _ listed, at_j⟩
    rw [course]
    split
    · exact List.forall_mem_cons.mpr ⟨first _, others _⟩
    · exact List.forall_mem_cons.mpr ⟨first _, others _⟩
    · exact List.forall_mem_singleton.mpr (first _)
    · exact List.forall_mem_singleton.mpr (first _)

end Chunk

theorem Machine.run_turns {task : Task} {chunk : Chunk} {console : Console}
    (loads : task.Loads chunk) (heard : console.debug = true → console.trace = .working)
    (m : Machine) : ∃ tape ts, chunk.Turns console ⟨0, [], tape⟩ ts (m.run console task) ∧
      ts.map (Turn.visit chunk) = chunk.wholeCourse.visits := by
  rw [run_load loads heard]
  obtain ⟨ts, turns, -, all⟩ := Chunk.executeFrom_turns chunk.instructions_tiles console [] _
  exact ⟨_, ts, turns, all heard⟩

inductive Turn.Fails (chunk : Chunk) (console : Console) (t : Turn) : RuntimeError → Prop where
  | ending : Fails chunk console t (.unexpectedEnd chunk.size)
  | operand {n : Nat} : n + 1 = chunk.size → t.offset + 2 = chunk.size →
      chunk.readOp? t.offset = some (.ok .constantLong) →
      Fails chunk console t (.unexpectedEnd n)
  | constant {index : Nat} : chunk.constants.size ≤ index → index ≤ 65535 →
      Fails chunk console t (.constantOutOfRange index)
  | underflow : Fails chunk console t .stackUnderflow
  | output {reason : String} : ¬ (console.output = .working ∧
      (console.debug = true → t.tape.sink = .working)) →
      Fails chunk console t (.outputFailed reason)

theorem Located.step_stop {i : Located} {constants : Array Number} {stack stack' : List Number}
    {e : RuntimeError} (complete : i.instruction.Complete)
    (step : i.step constants stack = .stop e stack') : e = .stackUnderflow ∨
      ∃ index, e = .constantOutOfRange index ∧ constants.size ≤ index ∧ index ≤ 65535 := by
  cases Located.steps_of step with
  | @missing _ index wide _ missing =>
    refine .inr ⟨index, rfl, Array.getElem?_eq_none_iff.mp missing, ?_⟩
    cases wide with
    | false =>
      have narrow : index < 256 := complete
      omega
    | true => exact Nat.le_of_lt_succ complete
  | cut => exact complete.elim
  | notNegated | notApplied _ | notReturned => exact .inl rfl

namespace Turn.Ends

variable {chunk : Chunk} {console : Console} {t : Turn} {r : Run}

theorem fails (ends : t.Ends chunk console r) (within : t.offset ≤ chunk.size)
    {failure : Failure} (result : r.result = .error failure) :
    ∃ e, failure = .runtime e ∧ t.Fails chunk console e := by
  cases ends with
  | untraced unheard =>
    cases result
    exact ⟨_, rfl, .output fun works => unheard works.2⟩
  | unfetched failed =>
    cases result
    rcases Chunk.fetch_eq_error within failed with rfl | ⟨n, rfl, last, here, op⟩
    · exact ⟨_, rfl, .ending⟩
    · exact ⟨_, rfl, .operand last here op⟩
  | stopped fetched step =>
    cases result
    rcases Located.step_stop (Chunk.fetch_complete fetched) step with
      rfl | ⟨index, rfl, missing, word⟩
    · exact ⟨_, rfl, .underflow⟩
    · exact ⟨_, rfl, .constant missing word⟩
  | returned fetched step =>
    unfold Tape.done at result
    split at result
    · rename_i torn failed
      cases result
      refine ⟨_, rfl, .output ?_⟩
      rintro ⟨works, -⟩
      rw [works] at failed
      cases failed
    · cases result

theorem puts_value (ends : t.Ends chunk console r) {value : Number}
    (result : r.result = .ok value) : r.outputText = value.text ++ "\n" := by
  cases ends with
  | untraced _ => cases result
  | unfetched _ => cases result
  | stopped _ _ => cases result
  | returned _ _ =>
    unfold Tape.done at result ⊢
    split at result
    · cases result
    · cases result
      rfl

theorem puts_nothing (ends : t.Ends chunk console r) {failure : Failure}
    (result : r.result = .error failure)
    (sound : console.output = .working ∨ ∀ reason, failure ≠ .runtime (.outputFailed reason)) :
    r.outputText = "" := by
  cases ends with
  | untraced _ => rfl
  | unfetched _ => rfl
  | stopped _ _ => rfl
  | returned _ _ =>
    unfold Tape.done at result ⊢
    split at result
    · rename_i torn failed
      cases result
      rcases sound with works | other
      · rw [works] at failed
        cases failed
      · exact absurd rfl (other _)
    · cases result

end Turn.Ends

/-- Nothing checks code before it runs, and still it runs in at most one turn for each of its bytes
and one more. -/
theorem Machine.execute_ends (m : Machine) (console : Console) (chunk : Chunk) :
    let run := m.execute console chunk
    (∃ ts, chunk.Turns console ⟨0, [], .blank console.trace⟩ ts run ∧
      ts.length ≤ chunk.size + 1 ∧ (ts.map Turn.offset).Pairwise (· < ·) ∧
      ∀ t ∈ ts, t.offset ≤ chunk.size) ∧
    (∀ n, run.result = .error (.runtime (.unexpectedEnd n)) → n = chunk.size ∨
      n + 1 = chunk.size ∧ ∃ i ∈ chunk.instructions, i.offset + 2 = chunk.size ∧
        chunk.readOp? i.offset = some (.ok .constantLong)) ∧
    (∀ index, run.result = .error (.runtime (.constantOutOfRange index)) →
      chunk.constants.size ≤ index ∧ index ≤ 65535) ∧
    (console.output = .working → (console.debug = true → console.trace = .working) →
      ∀ failure, run.result = .error failure → (∃ n, failure = .runtime (.unexpectedEnd n)) ∨
        (∃ index, failure = .runtime (.constantOutOfRange index)) ∨
        failure = .runtime .stackUnderflow) ∧
    (∀ value, run.result = .ok value →
      run.outputText = value.text ++ "\n" ∧ Text.OneLine value.text) ∧
    ∀ failure, run.result = .error failure →
      (console.output = .working ∨ ∀ reason, failure ≠ .runtime (.outputFailed reason)) →
      run.outputText = "" := by
  intro run
  obtain ⟨ts, turns, front, -⟩ :=
    Chunk.executeFrom_turns chunk.instructions_tiles console [] (.blank console.trace)
  obtain ⟨few, increasing, bounded⟩ := turns.bounds (Nat.zero_le _)
  obtain ⟨u, last, ends⟩ := turns.last_ends
  have member : u ∈ ts := List.mem_of_getLast? last
  have fails {failure : Failure} (result : run.result = .error failure) :=
    ends.fails (bounded u member).2 result
  refine ⟨⟨ts, turns, ?_, increasing, fun t later => (bounded t later).2⟩, ?_, ?_, ?_, ?_, ?_⟩
  · simpa using few
  · intro n result
    obtain ⟨e, same, fails⟩ := fails result
    cases same
    cases fails with
    | ending => exact .inl rfl
    | operand at_last here op =>
      have visited : u.visit chunk ∈ (chunk.course chunk.instructions []).visits :=
        front.mem (List.mem_map_of_mem member)
      rcases chunk.course_listed chunk.instructions [] _ visited with ending | ⟨i, listed, at_i⟩
      · have ending : u.offset = chunk.size := ending
        omega
      · have at_i : i.offset = u.offset := at_i
        exact .inr ⟨at_last, i, listed, at_i ▸ here, at_i ▸ op⟩
  · intro index result
    obtain ⟨e, same, fails⟩ := fails result
    cases same
    cases fails with
    | constant missing word => exact ⟨missing, word⟩
  · intro prints traces failure result
    obtain ⟨e, rfl, fails⟩ := fails result
    cases fails with
    | ending => exact .inl ⟨_, rfl⟩
    | operand _ _ _ => exact .inl ⟨_, rfl⟩
    | constant _ _ => exact .inr (.inl ⟨_, rfl⟩)
    | underflow => exact .inr (.inr rfl)
    | output broken => exact absurd ⟨prints, turns.heard traces u member⟩ broken
  · exact fun value result => ⟨ends.puts_value result, value.oneLine_text⟩
  · exact fun failure result sound => ends.puts_nothing result sound

end StackCalc
