import StackCalc.Proofs.Machine.Course

/-! A verifier that knows nothing of a stack but its height. It walks the code byte by byte, and
how its walk ends is how a run of the chunk ends: heights alone decide between a result and each of
the errors, and what is left on the stack. -/
namespace StackCalc

namespace Verifier

/-- How a walk ends, and at what height. A return has taken its value then. -/
inductive Verdict where
  | returned (height : Nat)
  | failed (e : RuntimeError) (height : Nat)
  deriving DecidableEq

inductive Move where
  | on (offset height : Nat)
  | skip (e : UnknownOpcode)
  | halt (verdict : Verdict)
  deriving DecidableEq

def load (pool index next height : Nat) : Move :=
  if index < pool then .on next (height + 1)
  else .halt (.failed (.constantOutOfRange index) height)

def operate (needs next height : Nat) : Move :=
  if needs ≤ height then .on next (height - needs + 1) else .halt (.failed .stackUnderflow height)

def move (code : List UInt8) (pool offset height : Nat) : Move :=
  match code[offset]? with
  | none => .halt (.failed (.unexpectedEnd offset) height)
  | some byte =>
    match Opcode.ofByte byte with
    | .error e => .skip e
    | .ok .ret =>
      if 1 ≤ height then .halt (.returned (height - 1))
      else .halt (.failed .stackUnderflow height)
    | .ok .negate => operate 1 (offset + 1) height
    | .ok (.binary _) => operate 2 (offset + 1) height
    | .ok .constant =>
      match code[offset + 1]? with
      | some index => load pool index.toNat (offset + 2) height
      | none => .halt (.failed (.unexpectedEnd (offset + 1)) height)
    | .ok .constantLong =>
      match code[offset + 1]?, code[offset + 2]? with
      | some high, some low => load pool (256 * high.toNat + low.toNat) (offset + 3) height
      | _, _ => .halt (.failed (.unexpectedEnd (offset + 1)) height)

variable {code : List UInt8} {pool offset height : Nat}

theorem load_on {index next next' height' : Nat}
    (moved : load pool index next height = .on next' height') : next' = next := by
  unfold load at moved
  split at moved <;> cases moved
  rfl

theorem operate_on {needs next next' height' : Nat}
    (moved : operate needs next height = .on next' height') : next' = next := by
  unfold operate at moved
  split at moved <;> cases moved
  rfl

theorem move_behind (behind : code.length ≤ offset) (pool height : Nat) :
    move code pool offset height = .halt (.failed (.unexpectedEnd offset) height) := by
  simp only [move, List.getElem?_eq_none behind]

theorem move_inside (goes : ∀ verdict, move code pool offset height ≠ .halt verdict) :
    offset < code.length :=
  Nat.lt_of_not_le fun behind => goes _ (move_behind behind pool height)

theorem move_further {offset' height' : Nat}
    (moved : move code pool offset height = .on offset' height') : offset < offset' := by
  unfold move at moved
  split at moved
  · cases moved
  · split at moved
    · cases moved
    · split at moved <;> cases moved
    · rw [operate_on moved]
      omega
    · rw [operate_on moved]
      omega
    · split at moved
      · rw [load_on moved]
        omega
      · cases moved
    · split at moved
      · rw [load_on moved]
        omega
      · cases moved

structure Walk where
  skipped : List (Nat × UnknownOpcode)
  verdict : Verdict

def walk (code : List UInt8) (pool offset height : Nat) : Walk :=
  match moved : move code pool offset height with
  | .on offset' height' => walk code pool offset' height'
  | .skip e =>
    let rest := walk code pool (offset + 1) height
    ⟨(offset, e) :: rest.skipped, rest.verdict⟩
  | .halt verdict => ⟨[], verdict⟩
termination_by code.length - offset
decreasing_by
  · have inside := move_inside (by rw [moved]; nofun)
    have further := move_further moved
    omega
  · have inside := move_inside (by rw [moved]; nofun)
    omega

theorem walk_on {offset' height' : Nat}
    (moved : move code pool offset height = .on offset' height') :
    walk code pool offset height = walk code pool offset' height' := by
  rw [walk]
  split <;> simp_all

theorem walk_skip {e : UnknownOpcode} (moved : move code pool offset height = .skip e) :
    walk code pool offset height =
      ⟨(offset, e) :: (walk code pool (offset + 1) height).skipped,
        (walk code pool (offset + 1) height).verdict⟩ := by
  rw [walk]
  split <;> simp_all

theorem walk_halt {verdict : Verdict} (moved : move code pool offset height = .halt verdict) :
    walk code pool offset height = ⟨[], verdict⟩ := by
  rw [walk]
  split <;> simp_all

end Verifier

def Step.Weighs (i : Located) : Step → Verifier.Move → Prop
  | .next stack, move => move = .on i.next stack.length
  | .skip e, move => move = .skip e ∧ i.next = i.offset + 1
  | .done _ stack, move => move = .halt (.returned stack.length)
  | .stop e stack, move => ∃ height, move = .halt (.failed e height) ∧
      stack.length = if e = .stackUnderflow then 0 else height

namespace Located

variable {i : Located} {constants : Array Number} {stack : List Number}

theorem load_weighs {wide : Bool} {index : Nat} (loads : i.instruction = .load wide index) :
    (i.step constants stack).Weighs i
      (Verifier.load constants.size index i.next stack.length) := by
  by_cases inside : index < constants.size
  · have constant : constants[index]? = some constants[index] := Array.getElem?_eq_getElem inside
    simp only [step, loads, constant, Verifier.load, if_pos inside]
    rfl
  · have missing : constants[index]? = none := Array.getElem?_eq_none (Nat.le_of_not_lt inside)
    simp only [step, loads, missing, Verifier.load, if_neg inside]
    exact ⟨stack.length, rfl, rfl⟩

theorem ret_weighs (returns : i.instruction = .ret) :
    (i.step constants stack).Weighs i
      (if 1 ≤ stack.length then .halt (.returned (stack.length - 1))
        else .halt (.failed .stackUnderflow stack.length)) := by
  cases stack with
  | nil =>
    simp only [step, returns]
    exact ⟨0, rfl, rfl⟩
  | cons value stack =>
    simp only [step, returns]
    rfl

theorem negate_weighs (negates : i.instruction = .negate) :
    (i.step constants stack).Weighs i
      (Verifier.operate 1 i.next stack.length) := by
  cases stack with
  | nil =>
    simp only [step, negates]
    exact ⟨0, rfl, rfl⟩
  | cons value stack =>
    simp only [step, negates]
    rfl

theorem binary_weighs {op : BinaryOp} (applies : i.instruction = .binary op) :
    (i.step constants stack).Weighs i
      (Verifier.operate 2 i.next stack.length) := by
  match stack with
  | [] =>
    simp only [step, applies]
    exact ⟨0, rfl, rfl⟩
  | [right] =>
    simp only [step, applies]
    exact ⟨1, rfl, rfl⟩
  | right :: left :: stack =>
    simp only [step, applies]
    rfl

theorem truncated_weighs {wide : Bool} {present : Nat}
    (cut : i.instruction = .truncated wide present) :
    (i.step constants stack).Weighs i
      (.halt (.failed (.unexpectedEnd (i.offset + 1)) stack.length)) := by
  simp only [step, cut]
  exact ⟨stack.length, rfl, rfl⟩

theorem step_weighs {code : List UInt8} (reads : Reads code i.offset (some i.instruction))
    (constants : Array Number) (stack : List Number) :
    (i.step constants stack).Weighs i
      (Verifier.move code constants.size i.offset stack.length) := by
  generalize shown : some i.instruction = instruction at reads
  cases reads with
  | ending none => cases shown
  | unknown first op =>
    have unknown := Option.some.inj shown
    simp only [Verifier.move, first, op, step, unknown]
    exact ⟨rfl, by simp [next, unknown, Instruction.size]⟩
  | ret first op =>
    simp only [Verifier.move, first, op]
    exact ret_weighs (Option.some.inj shown)
  | negate first op =>
    have negates := Option.some.inj shown
    have next : i.next = i.offset + 1 := by simp [Located.next, negates, Instruction.size]
    simp only [Verifier.move, first, op, ← next]
    exact negate_weighs negates
  | binary first op =>
    have applies := Option.some.inj shown
    have next : i.next = i.offset + 1 := by simp [Located.next, applies, Instruction.size]
    simp only [Verifier.move, first, op, ← next]
    exact binary_weighs applies
  | narrow first op second =>
    have loads := Option.some.inj shown
    have next : i.next = i.offset + 2 := by simp [Located.next, loads, Instruction.size]
    simp only [Verifier.move, first, op, second, ← next]
    exact load_weighs loads
  | narrowCut first op second =>
    simp only [Verifier.move, first, op, second]
    exact truncated_weighs (Option.some.inj shown)
  | wide first op second third =>
    have loads := Option.some.inj shown
    have next : i.next = i.offset + 3 := by simp [Located.next, loads, Instruction.size]
    simp only [Verifier.move, first, op, second, third, ← next]
    exact load_weighs loads
  | wideCut first op length few =>
    have third : code[i.offset + 2]? = none := List.getElem?_eq_none (by omega)
    cases second : code[i.offset + 1]? with
    | none =>
      simp only [Verifier.move, first, op, second]
      exact truncated_weighs (Option.some.inj shown)
    | some high =>
      simp only [Verifier.move, first, op, second, third]
      exact truncated_weighs (Option.some.inj shown)

end Located

def Ending.Weighs : Ending → Verifier.Verdict → Prop
  | .returned _ stack, verdict => verdict = .returned stack.length
  | .failed e stack, verdict => ∃ height, verdict = .failed e height ∧
      stack.length = if e = .stackUnderflow then 0 else height

structure Course.Weighs (course : Course) (walk : Verifier.Walk) : Prop where
  ending : course.ending.Weighs walk.verdict
  skipped : course.visits.filterMap Visit.record? =
    walk.skipped.map fun skip => .skipped skip.1 skip.2

theorem Chunk.course_weighs {chunk : Chunk} {offset : Nat} {is : List Located}
    (tiles : Located.Tiles chunk.bytes offset is) (stack : List Number) :
    (chunk.course is stack).Weighs
      (Verifier.walk chunk.bytes chunk.constants.size offset stack.length) := by
  induction tiles generalizing stack with
  | nil =>
    rw [Verifier.walk_halt (Verifier.move_behind (Nat.le_refl _) _ _), chunk.bytes_length]
    exact ⟨⟨stack.length, rfl, rfl⟩, rfl⟩
  | @cons offset byte rest is here tiles ih =>
    have weighs := Located.step_weighs (i := ⟨offset, (Instruction.take byte rest).1⟩)
      (reads_take here) chunk.constants stack
    have recorded := Visit.record_step ⟨offset, (Instruction.take byte rest).1⟩ chunk.constants
      stack
    simp only [course]
    generalize Located.step chunk.constants _ stack = step at weighs recorded ⊢
    cases step with
    | next stack' =>
      obtain ⟨ending, skipped⟩ := ih stack'
      rw [Verifier.walk_on weighs]
      exact ⟨ending, (List.filterMap_cons_none recorded).trans skipped⟩
    | skip e =>
      obtain ⟨moved, behind⟩ := weighs
      obtain ⟨ending, skipped⟩ := ih stack
      rw [show offset + (Instruction.take byte rest).1.size = offset + 1 from behind]
        at ending skipped
      rw [Verifier.walk_skip moved]
      exact ⟨ending, (List.filterMap_cons_some recorded).trans (congrArg _ skipped)⟩
    | done value stack' =>
      rw [Verifier.walk_halt weighs]
      exact ⟨rfl, List.filterMap_cons_none recorded⟩
    | stop e stack' =>
      obtain ⟨height, moved, left⟩ := weighs
      rw [Verifier.walk_halt moved]
      exact ⟨⟨height, rfl, left⟩, List.filterMap_cons_none recorded⟩

/-- How many values are left where a walk ends. What was there before an underflow is gone. -/
def Verifier.Verdict.left : Verifier.Verdict → Nat
  | .returned height => height
  | .failed e height => if e = .stackUnderflow then 0 else height

def Verifier.Verdict.outcome : Verifier.Verdict → Except Failure Unit
  | .returned _ => .ok ()
  | .failed e _ => .error (.runtime e)

def Verifier.Walk.warnings (walk : Verifier.Walk) : List Record :=
  walk.skipped.map fun skip => .skipped skip.1 skip.2

namespace Run

def warnings (r : Run) : List Record := r.log.filter fun record => record.severity = .warn

def outcome (r : Run) : Except Failure Unit := r.result.map fun _ => ()

theorem outcome_ok (r : Run) : r.outcome = .ok () ↔ ∃ value, r.result = .ok value := by
  unfold outcome
  cases r.result <;> simp [Except.map]

theorem outcome_error (r : Run) (failure : Failure) :
    r.outcome = .error failure ↔ r.result = .error failure := by
  unfold outcome
  cases r.result <;> simp [Except.map]

structure ToldBy (r : Run) (walk : Verifier.Walk) : Prop where
  outcome : r.outcome = walk.verdict.outcome
  height : r.stack.length = walk.verdict.left
  warnings : r.warnings = walk.warnings

end Run

theorem Ending.weighs_told {ending : Ending} {verdict : Verifier.Verdict}
    (weighs : ending.Weighs verdict) :
    (ending.result .working).map (fun _ => ()) = verdict.outcome ∧
      ending.stack.length = verdict.left := by
  cases ending with
  | returned value stack =>
    obtain rfl : verdict = .returned stack.length := weighs
    exact ⟨rfl, rfl⟩
  | failed e stack =>
    obtain ⟨height, rfl, left⟩ := weighs
    exact ⟨rfl, left⟩

theorem Visit.record_warns {v : Visit} {r : Record} (recorded : v.record? = some r) :
    r.severity = .warn := by
  unfold record? at recorded
  split at recorded <;> cases recorded
  rfl

theorem Course.run_warnings (course : Course) (chunk : Chunk) (debug : Bool) :
    (course.run chunk ⟨debug, .working, .working⟩ (.blank .working)).warnings =
      course.visits.filterMap Visit.record? := by
  have skips : (course.visits.filterMap Visit.record?).filter (fun r => r.severity = .warn) =
      course.visits.filterMap Visit.record? := by
    rw [List.filter_eq_self]
    intro r recorded
    obtain ⟨v, -, recorded⟩ := List.mem_filterMap.mp recorded
    exact decide_eq_true (Visit.record_warns recorded)
  have ends : (course.ending.records .working).filter (fun r => r.severity = .warn) = [] := by
    cases course.ending <;> rfl
  simp only [Run.warnings, Course.run, Tape.blank, List.reverse_nil, List.nil_append,
    List.filter_append, skips, ends, List.append_nil]

namespace Machine

theorem execute_told (m : Machine) (debug : Bool) (chunk : Chunk) :
    (m.execute ⟨debug, .working, .working⟩ chunk).ToldBy
      (Verifier.walk chunk.bytes chunk.constants.size 0 0) := by
  obtain ⟨ending, skipped⟩ := Chunk.course_weighs chunk.instructions_tiles []
  obtain ⟨outcome, height⟩ := Ending.weighs_told ending
  rw [execute_course (fun _ => rfl)]
  constructor
  · exact outcome
  · exact height
  · rw [Course.run_warnings]
    exact skipped

/-- Two chunks with the same code and as many constants agree in all that a walk tells of a run. -/
theorem execute_verified (m : Machine) (debug : Bool) (chunk : Chunk) :
    let run := m.execute ⟨debug, .working, .working⟩ chunk
    let walk := Verifier.walk chunk.bytes chunk.constants.size 0 0
    ((∃ value, run.result = .ok value) ↔ ∃ height, walk.verdict = .returned height) ∧
    (∀ e height, walk.verdict = .failed e height → run.result = .error (.runtime e)) ∧
    run.stack.length = walk.verdict.left ∧
    run.warnings = walk.warnings ∧
    ∀ (m' : Machine) (debug' : Bool) (other : Chunk), other.bytes = chunk.bytes →
      other.constants.size = chunk.constants.size →
      let twin := m'.execute ⟨debug', .working, .working⟩ other
      twin.outcome = run.outcome ∧ twin.stack.length = run.stack.length ∧
        twin.warnings = run.warnings := by
  intro run walk
  have told : run.ToldBy walk := m.execute_told debug chunk
  refine ⟨?_, ?_, told.height, told.warnings, ?_⟩
  · rw [← run.outcome_ok, told.outcome]
    cases walk.verdict <;> simp [Verifier.Verdict.outcome]
  · intro e height failed
    rw [← run.outcome_error, told.outcome, failed]
    rfl
  · intro m' debug' other code pool twin
    have twin_told : twin.ToldBy walk := by
      have := m'.execute_told debug' other
      rwa [code, pool] at this
    refine ⟨?_, ?_, ?_⟩
    · exact twin_told.outcome.trans told.outcome.symm
    · exact twin_told.height.trans told.height.symm
    · exact twin_told.warnings.trans told.warnings.symm

/-- An addition that finds one value only has it taken off the stack already. -/
example : Verifier.walk [0xFF, 1, 0, 4, 0] 1 0 0 = ⟨[(0, ⟨0xFF⟩)], .failed .stackUnderflow 1⟩ := by
  rw [Verifier.walk_skip (by rfl), Verifier.walk_on (by rfl), Verifier.walk_halt (by rfl)]

end Machine
end StackCalc
