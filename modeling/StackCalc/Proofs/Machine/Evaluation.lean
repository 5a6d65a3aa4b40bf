import StackCalc.Proofs.Chunk.Layout
import StackCalc.Proofs.Expression.Acceptance
import StackCalc.Proofs.Machine.Course

namespace StackCalc

namespace Tree

def value? : Tree → Option Number
  | .number t => t.value?
  | .group inner => inner.value?
  | .negate _ operand => operand.value?.map Number.negate
  | .binary op _ left right =>
    match left.value?, right.value? with
    | some x, some y =>
      match op with
      | .add => some (x.add y)
      | .subtract => some (x.subtract y)
      | .multiply => some (x.multiply y)
      | .divide => some (x.divide y)
    | _, _ => none

theorem value_binary {op : BinaryOp} {sign : Token} {l r : Tree} {x y : Number}
    (left : l.value? = some x) (right : r.value? = some y) :
    (binary op sign l r).value? = some (op.apply x y) := by
  simp only [value?, left, right]
  cases op <;> rfl

def instructions (first : Nat) : Tree → List Instruction
  | .number _ => [.load (decide (255 < first)) first]
  | .group inner => inner.instructions first
  | .negate _ operand => operand.instructions first ++ [.negate]
  | .binary op _ left right =>
    left.instructions first ++ right.instructions (first + left.numbers.length) ++ [.binary op]

theorem loadCode_bytes (index line : Nat) : (loadCode index line).map CodeByte.byte =
    (Instruction.load (decide (255 < index)) index).toBytes := by
  unfold loadCode
  by_cases short : index ≤ 255
  · have narrow : ¬ 255 < index := by omega
    simp [short, narrow, Instruction.toBytes]
  · have wide : 255 < index := by omega
    have low : UInt8.ofNat (index % 256) = UInt8.ofNat index := UInt8.ofNat_mod_size
    simp [short, wide, low, Instruction.toBytes]

theorem code_bytes (e : Tree) (first : Nat) :
    (e.code first).map CodeByte.byte = (e.instructions first).flatMap Instruction.toBytes := by
  induction e generalizing first with
  | number t => simp [code, instructions, loadCode_bytes]
  | group inner ih => exact ih first
  | negate sign operand ih => simp [code, instructions, ih, Instruction.toBytes]
  | binary op sign left right left_ih right_ih =>
    simp [code, instructions, left_ih, right_ih, Instruction.toBytes]

theorem instructions_complete (e : Tree) (first : Nat) (few : first + e.numbers.length ≤ 65536) :
    ∀ i ∈ e.instructions first, i.Complete := by
  induction e generalizing first with
  | number t =>
    simp only [numbers, List.length_singleton] at few
    simp only [instructions, List.forall_mem_singleton]
    by_cases wide : 255 < first
    · simp only [wide, decide_true, Instruction.Complete]
      omega
    · simp only [wide, decide_false, Instruction.Complete]
      omega
  | group inner ih => exact ih first few
  | negate sign operand ih =>
    simp only [instructions, List.forall_mem_append, List.forall_mem_singleton]
    exact ⟨ih first few, trivial⟩
  | binary op sign left right left_ih right_ih =>
    simp only [numbers, List.length_append] at few
    simp only [instructions, List.forall_mem_append, List.forall_mem_singleton]
    exact ⟨⟨left_ih first (by omega), right_ih _ (by omega)⟩, trivial⟩

end Tree

namespace Tape

/-- What may stand behind a tape after lines were written that all fit: the same log, and a sink
that still takes everything. -/
structure Traced (tape tape' : Tape) : Prop where
  log : tape'.log = tape.log
  sink : tape'.sink = .working

theorem Traced.trans {a b c : Tape} (front : Traced a b) (behind : Traced b c) : Traced a c :=
  ⟨behind.log.trans front.log, behind.sink⟩

theorem observe_working {tape : Tape} (working : tape.sink = .working) (console : Console)
    (lines : List TraceLine) :
    ∃ tape', tape.observe console lines = (tape', none) ∧ tape.Traced tape' := by
  unfold observe
  split
  · rw [write_working working]
    exact ⟨_, rfl, rfl, working⟩
  · exact ⟨tape, rfl, rfl, working⟩

end Tape

/-- Instructions of a chunk turn one stack into another, log nothing, and go on to what follows. -/
def Chunk.Passes (chunk : Chunk) (console : Console) (is : List Located)
    (stack stack' : List Number) : Prop :=
  ∀ rest (tape : Tape), tape.sink = .working → ∃ tape', tape.Traced tape' ∧
    chunk.executeFrom console (is ++ rest) stack tape = chunk.executeFrom console rest stack' tape'

namespace Chunk.Passes

variable {chunk : Chunk} {console : Console} {is js : List Located}
  {stack stack' stack'' : List Number}

theorem single {i : Located} (step : i.step chunk.constants stack = .next stack') :
    chunk.Passes console [i] stack stack' := by
  intro rest tape working
  obtain ⟨tape', observed, traced⟩ := Tape.observe_working working console
    (chunk.stepLines i.offset (some i.instruction) stack)
  refine ⟨tape', traced, ?_⟩
  simp only [List.singleton_append, executeFrom, observed, step]

theorem append (front : chunk.Passes console is stack stack')
    (behind : chunk.Passes console js stack' stack'') :
    chunk.Passes console (is ++ js) stack stack'' := by
  intro rest tape working
  obtain ⟨tape', traced', run'⟩ := front (js ++ rest) tape working
  obtain ⟨tape'', traced'', run''⟩ := behind rest tape' traced'.sink
  refine ⟨tape'', traced'.trans traced'', ?_⟩
  rw [List.append_assoc, run', run'']

end Chunk.Passes

def Chunk.Pools (chunk : Chunk) (first : Nat) (ts : List Token) : Prop :=
  ts.map Token.value? <+: (chunk.constants.toList.map some).drop first

namespace Chunk.Pools

variable {chunk : Chunk} {first : Nat} {ts us : List Token}

theorem head {t : Token} (pools : chunk.Pools first [t]) :
    ∃ value, t.value? = some value ∧ chunk.constants[first]? = some value := by
  obtain ⟨others, same⟩ := pools
  have at_first := congrArg (·[0]?) same
  simp only [List.map_singleton, List.singleton_append, List.getElem?_cons_zero,
    List.getElem?_drop, Nat.add_zero, List.getElem?_map, Array.getElem?_toList] at at_first
  cases constant : chunk.constants[first]? with
  | none => simp [constant] at at_first
  | some value =>
    rw [constant] at at_first
    exact ⟨value, Option.some.inj at_first, rfl⟩

theorem split (pools : chunk.Pools first (ts ++ us)) :
    chunk.Pools first ts ∧ chunk.Pools (first + ts.length) us := by
  obtain ⟨others, same⟩ := pools
  rw [List.map_append, List.append_assoc] at same
  refine ⟨⟨_, same⟩, others, ?_⟩
  rw [← List.drop_drop, ← same]
  simp

end Chunk.Pools

theorem Tree.passes {chunk : Chunk} (console : Console) (e : Tree) (first : Nat)
    (pools : chunk.Pools first e.numbers) :
    ∃ v, e.value? = some v ∧
      ∀ is : List Located, is.map Located.instruction = e.instructions first →
        ∀ stack, chunk.Passes console is stack (v :: stack) := by
  -- On the tree, for any stack, since a right operand is run above the value of the left one.
  induction e generalizing first with
  | number t =>
    obtain ⟨value, denotes, constant⟩ := pools.head
    refine ⟨value, denotes, fun is coded stack => ?_⟩
    obtain ⟨i, rfl, load⟩ := List.map_eq_singleton_iff.mp coded
    exact .single (by simp only [Located.step, load, constant])
  | group inner ih => exact ih first pools
  | negate sign operand ih =>
    obtain ⟨v, denotes, run⟩ := ih first pools
    refine ⟨v.negate, by simp [value?, denotes], fun is coded stack => ?_⟩
    obtain ⟨front, i, rfl, front_coded, negate⟩ := Located.split_last coded
    exact (run front front_coded stack).append
      (.single (by simp only [Located.step, negate]))
  | binary op sign left right left_ih right_ih =>
    obtain ⟨left_pools, right_pools⟩ := Chunk.Pools.split pools
    obtain ⟨x, x_denotes, left_run⟩ := left_ih first left_pools
    obtain ⟨y, y_denotes, right_run⟩ := right_ih _ right_pools
    refine ⟨op.apply x y, value_binary x_denotes y_denotes, fun is coded stack => ?_⟩
    obtain ⟨operands, i, rfl, operands_coded, apply⟩ := Located.split_last coded
    obtain ⟨front, behind, rfl, front_coded, behind_coded⟩ :=
      List.map_eq_append_iff.mp operands_coded
    exact ((left_run front front_coded stack).append
      (right_run behind behind_coded (x :: stack))).append
        (.single (by simp only [Located.step, apply]))

theorem Compiled.instructions {script : Script} {chunk : Chunk} {e : Tree}
    (compiled : Compiled script chunk e) :
    chunk.instructions.map Located.instruction = e.instructions 0 ++ [.ret] := by
  have bytes : chunk.bytes =
      (e.instructions 0 ++ [Instruction.ret]).flatMap Instruction.toBytes := by
    simp [Chunk.bytes, compiled.code, e.code_bytes, Instruction.toBytes]
  have complete : ∀ i ∈ e.instructions 0 ++ [.ret], i.Complete := by
    simp only [List.forall_mem_append, List.forall_mem_singleton]
    exact ⟨e.instructions_complete 0 (by simpa using compiled.few), trivial⟩
  rw [Chunk.instructions, bytes, Located.ofBytes_lay _ complete, Located.lay_instruction]

theorem Compiled.load {script : Script} {chunk : Chunk} {e : Tree}
    (compiled : Compiled script chunk e) (m : Machine) (console : Console)
    (prints : console.output = .working) {tape : Tape} (traces : tape.sink = .working) :
    ∃ v, e.value? = some v ∧ (m.load console chunk tape).result = .ok v ∧
      (m.load console chunk tape).outputText = v.text ++ "\n" ∧
      (m.load console chunk tape).stack = [] ∧
      (m.load console chunk tape).log = tape.log.reverse ++ [.finished v] := by
  have pools : chunk.Pools 0 e.numbers := ⟨[], by simp [compiled.pool]⟩
  obtain ⟨v, denotes, passes⟩ := e.passes console 0 pools
  obtain ⟨front, i, laid, front_coded, ret⟩ := Located.split_last compiled.instructions
  obtain ⟨tape', traced', passed⟩ := passes front front_coded [] [i] tape traces
  obtain ⟨tape'', observed, traced''⟩ := Tape.observe_working traced'.sink console
    (chunk.stepLines i.offset (some i.instruction) [v])
  have step : i.step chunk.constants [v] = .done v [] := by simp only [Located.step, ret]
  have ran : m.load console chunk tape = tape''.done console v [] := by
    simp only [Machine.load, Machine.clear, Machine.new, laid, passed, Chunk.executeFrom, observed,
      step]
  refine ⟨v, denotes, ?_⟩
  simp [ran, Tape.done, prints, Sink.write, Tape.note, (traced'.trans traced'').log]

theorem Machine.interpret_compiled (m : Machine) (console : Console)
    (traces : console.trace = .working) {source : String} {chunk : Chunk}
    (ok : (Compilation.ofString source).outcome = .ok chunk) :
    ∃ tape, m.interpret console source = m.load console chunk tape ∧ tape.sink = .working ∧
      tape.log = [.compiled chunk.size chunk.constants.size] := by
  have working : ((Tape.blank console.trace).note
      (.compiled chunk.size chunk.constants.size)).sink = .working := traces
  obtain ⟨tape, announced, traced⟩ :=
    Tape.observe_working working console ((chunk.listing "code").map .listing)
  refine ⟨tape, ?_, traced.sink, traced.log⟩
  simp only [interpret, ok, Chunk.announce, announced]

/-- A machine answers the value of an expression within both limits, whatever it ran before, and
with a trace or without. -/
theorem interpret_value (source : String) (e : Tree)
    (sound : ∀ t ∈ (Script.ofString source).tokens, t.isFault = false)
    (derives : Derives .sum (Script.ofString source).tokens e) (shallow : e.nesting ≤ 512)
    (few : e.numbers.length ≤ 65536) (m : Machine) (debug : Bool) :
    ∃ v, e.value? = some v ∧
      (m.interpret ⟨debug, .working, .working⟩ source).result = .ok v ∧
      (m.interpret ⟨debug, .working, .working⟩ source).outputText = v.text ++ "\n" ∧
      (m.interpret ⟨debug, .working, .working⟩ source).stack = [] ∧
      ∀ offset cause,
        .skipped offset cause ∉ (m.interpret ⟨debug, .working, .working⟩ source).log := by
  have numbers : (Script.ofString source).tokens.countP Token.isNumber ≤ 65536 := by
    rw [List.countP_eq_length_filter, derives.filter_numbers]
    exact few
  rcases Progress.whole_outcome sound (Script.ofString_cut source) with
    ⟨silent, e', compiled⟩ | ⟨d, _, blamed⟩
  · obtain rfl := derives.unique compiled.derives
    obtain ⟨tape, ran, traces, noted⟩ := m.interpret_compiled ⟨debug, .working, .working⟩ rfl
      (Compilation.outcome_of_silent silent)
    obtain ⟨v, denotes, result, output, stack, log⟩ :=
      compiled.load m ⟨debug, .working, .working⟩ rfl traces
    refine ⟨v, denotes, ?_⟩
    simp only [ran, result, output, stack, log, noted, true_and]
    intro offset cause logged
    simp only [List.reverse_singleton, List.singleton_append, List.mem_cons] at logged
    rcases logged with impossible | impossible | impossible <;> cases impossible
  · exact absurd blamed (not_blamed derives shallow numbers)

theorem interpret_value_traced : ∃ e v, Derives .sum (Script.ofString "2-1").tokens e ∧
    e.value? = some v ∧
    ((Machine.mk [.zero]).interpret ⟨true, .working, .working⟩ "2-1").result = .ok v ∧
    ((Machine.mk [.zero]).interpret ⟨true, .working, .working⟩ "2-1").stack = [] := by
  have tokens : (Script.ofString "2-1").tokens =
      [⟨.number, "2", 1⟩] ++ ⟨.punctuation .minus, "-", 1⟩ :: [⟨.number, "1", 1⟩] := by decide
  have derives : Derives .sum (Script.ofString "2-1").tokens
      (.binary .subtract ⟨.punctuation .minus, "-", 1⟩ (.number ⟨.number, "2", 1⟩)
        (.number ⟨.number, "1", 1⟩)) := by
    rw [tokens]
    exact .plus (.of_operand (.number rfl)) rfl (.of_operand (.number rfl))
  obtain ⟨v, denotes, result, _, stack, _⟩ :=
    interpret_value "2-1" _ (by decide) derives (by decide) (by decide) ⟨[.zero]⟩ true
  exact ⟨_, v, derives, denotes, result, stack⟩

end StackCalc
