import StackCalc.Proofs.Chunk.Tiling
import StackCalc.Proofs.Machine.Evaluation

/-! Code that a listing shows in full. A listing leaves out the bytes of a truncated instruction,
and the lines of operands. Where there is none of the former, and operands are on the lines of their
opcodes, code is nothing but instructions with one line each. Compiled code is of this form. -/
namespace StackCalc

structure Lined where
  instruction : Instruction
  line : Nat
  deriving DecidableEq

def Lined.code (i : Lined) : List CodeByte := i.instruction.toBytes.map (⟨·, i.line⟩)

namespace Chunk

structure Legible (c : Chunk) : Prop where
  whole : ∀ i ∈ c.instructions.getLast?, ∀ wide present,
    i.instruction ≠ .truncated wide present
  lines : ∀ i ∈ c.instructions, ∀ k < i.instruction.size,
    c.line? (i.offset + k) = c.line? i.offset

structure Coded (c : Chunk) (is : List Lined) : Prop where
  complete : ∀ i ∈ is, i.instruction.Complete
  code : c.code.toList = is.flatMap Lined.code

end Chunk

theorem Opcode.toByte_ofByte {byte : UInt8} {op : Opcode} (read : ofByte byte = .ok op) :
    op.toByte = byte := by
  unfold ofByte at read
  apply UInt8.toNat_inj.mp
  split at read
  all_goals first
    | (rename_i value; cases read; rw [value]; rfl)
    | cases read

theorem Opcode.byte_of_error {byte : UInt8} {e : UnknownOpcode} (read : ofByte byte = .error e) :
    byte = e.byte := by
  unfold ofByte at read
  split at read
  case h_9 =>
    cases read
    rfl
  all_goals cases read

namespace Instruction

theorem Complete.size {i : Instruction} (complete : i.Complete) : i.toBytes.length = i.size := by
  cases i with
  | load wide index => cases wide <;> rfl
  | truncated wide present => exact complete.elim
  | _ => rfl

theorem take_spells (byte : UInt8) (rest : List UInt8) :
    (∃ wide present, take byte rest = (.truncated wide present, [])) ∨
      (take byte rest).1.Complete ∧
        (take byte rest).1.toBytes ++ (take byte rest).2 = byte :: rest := by
  unfold take
  split
  case h_1 e read =>
    obtain rfl := Opcode.byte_of_error read
    exact .inr ⟨read, rfl⟩
  case h_2 read => exact .inr ⟨trivial, congrArg (· :: rest) (Opcode.toByte_ofByte read)⟩
  case h_3 read => exact .inr ⟨trivial, congrArg (· :: rest) (Opcode.toByte_ofByte read)⟩
  case h_4 read => exact .inr ⟨trivial, congrArg (· :: rest) (Opcode.toByte_ofByte read)⟩
  case h_5 read =>
    cases rest with
    | nil => exact .inl ⟨false, 0, rfl⟩
    | cons index rest =>
      refine .inr ⟨index.toNat_lt, ?_⟩
      simp [toBytes, Opcode.toByte_ofByte read]
  case h_6 read =>
    rcases rest with _ | ⟨high, _ | ⟨low, rest⟩⟩
    · exact .inl ⟨true, 0, rfl⟩
    · exact .inl ⟨true, 1, rfl⟩
    · have high_lt := high.toNat_lt
      have low_lt := low.toNat_lt
      have word : 256 * high.toNat + low.toNat < 65536 := by omega
      have first : UInt8.ofNat ((256 * high.toNat + low.toNat) / 256) = high := by
        apply UInt8.toNat_inj.mp
        rw [UInt8.toNat_ofNat']
        omega
      have second : UInt8.ofNat (256 * high.toNat + low.toNat) = low := by
        apply UInt8.toNat_inj.mp
        rw [UInt8.toNat_ofNat']
        omega
      refine .inr ⟨word, ?_⟩
      simp [toBytes, Opcode.toByte_ofByte read, first, second]

end Instruction

namespace Lined

theorem length_code {i : Lined} (complete : i.instruction.Complete) :
    i.code.length = i.instruction.size := by
  rw [code, List.length_map, complete.size]

theorem length_snoc {front : List Lined} {i : Lined} (complete : i.instruction.Complete) :
    ((front ++ [i]).flatMap code).length = (front.flatMap code).length + i.instruction.size := by
  simp [length_code complete]

theorem code_of_bytes {i : Lined} {code : List CodeByte}
    (bytes : code.map CodeByte.byte = i.instruction.toBytes)
    (lines : ∀ byte ∈ code, byte.line = i.line) : code = i.code := by
  have same : ∀ byte ∈ code, (⟨byte.byte, i.line⟩ : CodeByte) = byte := by
    intro byte inside
    rw [← lines byte inside]
  rw [Lined.code, ← bytes, List.map_map]
  exact ((List.map_congr_left same).trans (List.map_id' code)).symm

end Lined

theorem Located.lay_split {is : List Lined} (complete : ∀ i ∈ is, i.instruction.Complete)
    {offset : Nat} {before after : List Located} {i : Located}
    (laid : lay offset (is.map Lined.instruction) = before ++ i :: after) :
    ∃ front j back, is = front ++ j :: back ∧
      before = lay offset (front.map Lined.instruction) ∧
      i = ⟨offset + (front.flatMap Lined.code).length, j.instruction⟩ := by
  induction is generalizing offset before with
  | nil => simp [lay] at laid
  | cons j is ih =>
    rw [List.forall_mem_cons] at complete
    rw [List.map_cons, lay] at laid
    cases before with
    | nil => exact ⟨[], j, is, rfl, rfl, (List.cons.inj laid).1.symm⟩
    | cons first before =>
      obtain ⟨rfl, others⟩ := List.cons.inj laid
      obtain ⟨front, k, back, rfl, rfl, rfl⟩ := ih complete.2 others
      refine ⟨j :: front, k, back, rfl, rfl, ?_⟩
      simp [Lined.length_code complete.1, Nat.add_assoc]

theorem Located.Tiles.eq_nil {code : List UInt8} {offset : Nat} {ls : List Located}
    (tiles : Tiles code offset ls) (nothing : code.drop offset = []) : ls = [] := by
  cases tiles with
  | nil => rfl
  | cons here _ => cases nothing.symm.trans here

namespace Chunk

variable {c : Chunk} {is front back : List Lined} {i : Lined}

namespace Coded

theorem line_inside (coded : c.Coded (front ++ i :: back)) {k : Nat}
    (inside : k < i.instruction.size) :
    c.line? ((front.flatMap Lined.code).length + k) = some i.line := by
  have complete := coded.complete i (by simp)
  have within : k < i.code.length := by rwa [Lined.length_code complete]
  rw [line?, ← Array.getElem?_toList, coded.code, List.flatMap_append, List.flatMap_cons,
    List.getElem?_append_right (Nat.le_add_right _ _), Nat.add_sub_cancel_left,
    List.getElem?_append_left within, List.getElem?_eq_getElem within]
  simp [Lined.code]

theorem bytes (coded : c.Coded is) :
    c.bytes = (is.map Lined.instruction).flatMap Instruction.toBytes := by
  rw [Chunk.bytes, coded.code, List.map_flatMap, List.flatMap_map]
  simp [Lined.code, Function.comp_def]

theorem instructions (coded : c.Coded is) :
    c.instructions = Located.lay 0 (is.map Lined.instruction) := by
  rw [Chunk.instructions, coded.bytes, Located.ofBytes_lay]
  rw [List.forall_mem_map]
  exact coded.complete

theorem split (coded : c.Coded is) {before after : List Located} {i : Located}
    (listed : c.instructions = before ++ i :: after) :
    ∃ front j back, is = front ++ j :: back ∧
      before = Located.lay 0 (front.map Lined.instruction) ∧
      i = ⟨(front.flatMap Lined.code).length, j.instruction⟩ := by
  rw [coded.instructions] at listed
  have parts := Located.lay_split coded.complete listed
  simp only [Nat.zero_add] at parts
  exact parts

theorem legible (coded : c.Coded is) : c.Legible where
  whole i last wide present truncated := by
    obtain ⟨before, listed⟩ := List.getLast?_eq_some_iff.mp last
    obtain ⟨front, j, back, rfl, -, rfl⟩ := coded.split listed
    have complete := coded.complete j (by simp)
    rw [show j.instruction = _ from truncated] at complete
    exact complete
  lines i member k inside := by
    obtain ⟨before, after, listed⟩ := List.append_of_mem member
    obtain ⟨front, j, back, rfl, -, rfl⟩ := coded.split listed
    rw [coded.line_inside inside]
    exact (coded.line_inside (Nat.zero_lt_of_lt inside)).symm

end Coded

theorem drop_lined {offset : Nat} {instruction : Instruction} {others : List UInt8}
    (here : c.bytes.drop offset = instruction.toBytes ++ others) (complete : instruction.Complete)
    (lines : ∀ k < instruction.size, c.line? (offset + k) = c.line? offset) :
    ∃ line, c.code.toList.drop offset = Lined.code ⟨instruction, line⟩ ++
      c.code.toList.drop (offset + instruction.size) := by
  have ahead (k : Nat) : c.line? (offset + k) =
      (c.code.toList.drop offset)[k]?.map CodeByte.line := by
    rw [line?, ← Array.getElem?_toList, List.getElem?_drop]
  rw [bytes, ← List.map_drop] at here
  obtain ⟨front, behind, code, spelled, -⟩ := List.map_eq_append_iff.mp here
  have length : front.length = instruction.size := by
    rw [← complete.size, ← spelled, List.length_map]
  rw [← List.drop_drop, code, ← length, List.drop_left]
  rw [code] at ahead
  obtain ⟨byte, operand, opcode, -⟩ := complete.take
  obtain ⟨first, more, rfl, -, -⟩ := List.map_eq_cons_iff.mp (spelled.trans opcode)
  refine ⟨first.line, congrArg (· ++ behind) (Lined.code_of_bytes spelled ?_)⟩
  intro later inside
  obtain ⟨k, within, rfl⟩ := List.getElem_of_mem inside
  have same := lines k (length ▸ within)
  have start := ahead 0
  rw [Nat.add_zero] at start
  rw [ahead k, start, List.getElem?_append_left within, List.getElem?_eq_getElem within] at same
  exact Option.some.inj same

theorem coded_from {offset : Nat} {ls : List Located} (tiles : Located.Tiles c.bytes offset ls)
    (whole : ∀ i ∈ ls.getLast?, ∀ wide present, i.instruction ≠ .truncated wide present)
    (lines : ∀ i ∈ ls, ∀ k < i.instruction.size, c.line? (i.offset + k) = c.line? i.offset) :
    ∃ is : List Lined, (∀ i ∈ is, i.instruction.Complete) ∧
      c.code.toList.drop offset = is.flatMap Lined.code := by
  induction tiles with
  | nil =>
    refine ⟨[], by simp, ?_⟩
    simp [bytes]
  | @cons offset byte rest ls here tiles ih =>
    rw [List.forall_mem_cons] at lines
    rcases Instruction.take_spells byte rest with ⟨wide, present, taken⟩ | ⟨complete, spells⟩
    · -- A truncated instruction leaves nothing behind it, so it would be the last.
      have behind := Located.drop_behind here
      rw [show (Instruction.take byte rest).2 = [] from congrArg Prod.snd taken] at behind
      rw [tiles.eq_nil behind] at whole
      exact absurd (congrArg Prod.fst taken) (whole _ rfl wide present)
    · obtain ⟨line, first⟩ := drop_lined (here.trans spells.symm) complete lines.1
      have others : ∀ i ∈ ls.getLast?, ∀ wide present,
          i.instruction ≠ .truncated wide present := by
        intro i last
        apply whole
        rw [List.getLast?_cons, Option.mem_def.mp last]
        rfl
      obtain ⟨is, all, code⟩ := ih others lines.2
      refine ⟨⟨_, line⟩ :: is, List.forall_mem_cons.mpr ⟨complete, all⟩, ?_⟩
      rw [first, code, List.flatMap_cons]

theorem Legible.coded (legible : c.Legible) : ∃ is, c.Coded is := by
  obtain ⟨is, complete, code⟩ := coded_from c.instructions_tiles legible.whole legible.lines
  exact ⟨is, complete, code⟩

end Chunk

theorem loadCode_lined (index line : Nat) :
    loadCode index line = Lined.code ⟨.load (decide (255 < index)) index, line⟩ := by
  apply Lined.code_of_bytes (Tree.loadCode_bytes index line)
  unfold loadCode
  split <;> simp

theorem Tree.code_lined (e : Tree) (first : Nat) : ∃ is : List Lined,
    is.map Lined.instruction = e.instructions first ∧ e.code first = is.flatMap Lined.code := by
  induction e generalizing first with
  | number t =>
    refine ⟨[⟨.load (decide (255 < first)) first, t.line⟩], rfl, ?_⟩
    rw [code, loadCode_lined, List.flatMap_singleton]
  | group inner ih => exact ih first
  | negate sign operand ih =>
    obtain ⟨is, instructions, code⟩ := ih first
    refine ⟨is ++ [⟨.negate, sign.line⟩], ?_, ?_⟩
    · rw [List.map_append, instructions]
      rfl
    · rw [List.flatMap_append, Tree.code, code]
      rfl
  | binary op sign left right left_ih right_ih =>
    obtain ⟨is, instructions, code⟩ := left_ih first
    obtain ⟨js, instructions', code'⟩ := right_ih (first + left.numbers.length)
    refine ⟨is ++ js ++ [⟨.binary op, sign.line⟩], ?_, ?_⟩
    · rw [List.map_append, List.map_append, instructions, instructions']
      rfl
    · rw [List.flatMap_append, List.flatMap_append, Tree.code, code, code']
      rfl

theorem compile_legible {source : String} {chunk : Chunk} (ok : compile source = .ok chunk) :
    chunk.Legible := by
  obtain ⟨-, e, compiled⟩ := compiled_of_ok ok
  obtain ⟨is, instructions, code⟩ := e.code_lined 0
  have few : 0 + e.numbers.length ≤ 65536 := by simpa using compiled.few
  have complete := e.instructions_complete 0 few
  rw [← instructions, List.forall_mem_map] at complete
  have coded : chunk.Coded (is ++ [⟨.ret, (Script.ofString source).endLine⟩]) := by
    constructor
    · exact List.forall_mem_append.mpr ⟨complete, List.forall_mem_singleton.mpr trivial⟩
    · rw [compiled.code, List.flatMap_append, code]
      rfl
  exact coded.legible

end StackCalc
