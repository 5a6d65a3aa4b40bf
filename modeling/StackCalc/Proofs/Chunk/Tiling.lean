import StackCalc.Chunk.Listing

namespace StackCalc

namespace Instruction

variable {byte : UInt8} {rest : List UInt8}

theorem take_rest (byte : UInt8) (rest : List UInt8) :
    ∃ front, (take byte rest).1.size = front.length + 1 ∧ rest = front ++ (take byte rest).2 := by
  unfold take
  split
  case h_5 =>
    cases rest with
    | nil => exact ⟨[], rfl, rfl⟩
    | cons index rest => exact ⟨[index], rfl, rfl⟩
  case h_6 =>
    match rest with
    | [] => exact ⟨[], rfl, rfl⟩
    | [high] => exact ⟨[high], rfl, rfl⟩
    | high :: low :: rest => exact ⟨[high, low], rfl, rfl⟩
  all_goals exact ⟨[], rfl, rfl⟩

theorem take_front (byte : UInt8) (rest : List UInt8) :
    (take byte (rest.take 2)).1 = (take byte rest).1 := by
  unfold take
  split
  case h_5 => cases rest <;> rfl
  case h_6 => match rest with | [] | [_] | _ :: _ :: _ => rfl
  all_goals rfl

end Instruction

namespace Located

/-- Instructions side by side from an offset of the code to its end. -/
inductive Tiles (code : List UInt8) : Nat → List Located → Prop where
  | nil : Tiles code code.length []
  | cons {offset : Nat} {byte : UInt8} {rest : List UInt8} {is : List Located} :
      code.drop offset = byte :: rest →
      Tiles code (offset + (Instruction.take byte rest).1.size) is →
      Tiles code offset (⟨offset, (Instruction.take byte rest).1⟩ :: is)

variable {code : List UInt8} {is : List Located}

theorem length_of_drop {offset : Nat} {byte : UInt8} {rest : List UInt8}
    (here : code.drop offset = byte :: rest) : code.length = offset + 1 + rest.length := by
  have lengths := congrArg List.length here
  simp only [List.length_drop, List.length_cons] at lengths
  omega

theorem drop_behind {offset : Nat} {byte : UInt8} {rest : List UInt8}
    (here : code.drop offset = byte :: rest) :
    code.drop (offset + (Instruction.take byte rest).1.size) = (Instruction.take byte rest).2 := by
  obtain ⟨front, size, split⟩ := Instruction.take_rest byte rest
  rw [← List.drop_drop, here, size, List.drop_succ_cons]
  exact (congrArg (List.drop front.length) split).trans List.drop_left

theorem cut_tiles {budget offset : Nat} {rest : List UInt8} (here : code.drop offset = rest)
    (within : offset ≤ code.length) (enough : rest.length ≤ budget) :
    ∃ is, Tiles code offset is ∧ ∀ seen, cut budget offset rest seen = seen.reverse ++ is := by
  induction budget generalizing offset rest with
  | zero =>
    obtain rfl := List.length_eq_zero_iff.mp (Nat.le_zero.mp enough)
    obtain rfl : offset = code.length := Nat.le_antisymm within (List.drop_eq_nil_iff.mp here)
    exact ⟨[], .nil, fun seen => (List.append_nil _).symm⟩
  | succ budget ih =>
    cases rest with
    | nil =>
      obtain rfl : offset = code.length := Nat.le_antisymm within (List.drop_eq_nil_iff.mp here)
      exact ⟨[], .nil, fun seen => (List.append_nil _).symm⟩
    | cons byte rest =>
      obtain ⟨front, size, split⟩ := Instruction.take_rest byte rest
      have length := length_of_drop here
      have lengths := congrArg List.length split
      simp only [List.length_cons, List.length_append] at lengths enough
      obtain ⟨is, tiles, cut_eq⟩ := ih (drop_behind here) (by omega) (by omega)
      refine ⟨⟨offset, (Instruction.take byte rest).1⟩ :: is, .cons here tiles, ?_⟩
      intro seen
      simpa [cut] using cut_eq (⟨offset, (Instruction.take byte rest).1⟩ :: seen)

theorem ofBytes_tiles (code : List UInt8) : Tiles code 0 (ofBytes code) := by
  obtain ⟨is, tiles, cut_eq⟩ :=
    cut_tiles (List.drop_zero : code.drop 0 = code) (Nat.zero_le _) (Nat.le_refl _)
  rw [ofBytes, cut_eq]
  exact tiles

end Located

/-- What stands at an offset of the code, told by reading one byte after the other from there. -/
inductive Reads (code : List UInt8) (offset : Nat) : Option Instruction → Prop where
  | ending : code[offset]? = none → Reads code offset none
  | unknown {byte : UInt8} {e : UnknownOpcode} : code[offset]? = some byte →
      Opcode.ofByte byte = .error e → Reads code offset (some (.unknown e.byte))
  | ret {byte : UInt8} : code[offset]? = some byte → Opcode.ofByte byte = .ok .ret →
      Reads code offset (some .ret)
  | negate {byte : UInt8} : code[offset]? = some byte → Opcode.ofByte byte = .ok .negate →
      Reads code offset (some .negate)
  | binary {byte : UInt8} {op : BinaryOp} : code[offset]? = some byte →
      Opcode.ofByte byte = .ok (.binary op) → Reads code offset (some (.binary op))
  | narrow {byte index : UInt8} : code[offset]? = some byte →
      Opcode.ofByte byte = .ok .constant → code[offset + 1]? = some index →
      Reads code offset (some (.load false index.toNat))
  | narrowCut {byte : UInt8} : code[offset]? = some byte →
      Opcode.ofByte byte = .ok .constant → code[offset + 1]? = none →
      Reads code offset (some (.truncated false 0))
  | wide {byte high low : UInt8} : code[offset]? = some byte →
      Opcode.ofByte byte = .ok .constantLong → code[offset + 1]? = some high →
      code[offset + 2]? = some low →
      Reads code offset (some (.load true (256 * high.toNat + low.toNat)))
  | wideCut {byte : UInt8} {present : Nat} : code[offset]? = some byte →
      Opcode.ofByte byte = .ok .constantLong → code.length = offset + 1 + present → present < 2 →
      Reads code offset (some (.truncated true present))

theorem reads_take {code rest : List UInt8} {offset : Nat} {byte : UInt8}
    (here : code.drop offset = byte :: rest) :
    Reads code offset (some (Instruction.take byte rest).1) := by
  have ahead (k : Nat) : code[offset + k]? = (byte :: rest)[k]? := by
    rw [← here, List.getElem?_drop]
  have first : code[offset]? = some byte := ahead 0
  unfold Instruction.take
  split
  case h_1 e op => exact .unknown first op
  case h_2 op => exact .ret first op
  case h_3 op => exact .negate first op
  case h_4 op => exact .binary first op
  case h_5 op =>
    cases rest with
    | nil => exact .narrowCut first op (ahead 1)
    | cons index rest => exact .narrow first op (ahead 1)
  case h_6 op =>
    have length := Located.length_of_drop here
    match rest with
    | [] => exact .wideCut first op length (by decide)
    | [_] => exact .wideCut first op length (by decide)
    | _ :: _ :: _ => exact .wide first op (ahead 1) (ahead 2)

namespace Chunk

variable {c : Chunk} {offset : Nat} {byte : UInt8} {rest : List UInt8}

@[simp] theorem bytes_length (c : Chunk) : c.bytes.length = c.size := by
  simp [bytes, size]

@[simp] theorem bytes_getElem (c : Chunk) (offset : Nat) : c.bytes[offset]? = c.read? offset := by
  simp [bytes, read?]

theorem instructions_tiles (c : Chunk) : Located.Tiles c.bytes 0 c.instructions :=
  Located.ofBytes_tiles c.bytes

theorem extract_bytes (c : Chunk) (offset : Nat) :
    (c.code.extract offset (offset + 3)).toList.map CodeByte.byte =
      (c.bytes.drop offset).take 3 := by
  simp [bytes, List.map_take, List.map_drop]

theorem instruction_of_drop (here : c.bytes.drop offset = byte :: rest) :
    c.instruction? offset = some (Instruction.take byte rest).1 := by
  simp only [instruction?, extract_bytes, here, List.take_succ_cons, Instruction.take_front]

theorem instruction_behind (behind : c.size ≤ offset) : c.instruction? offset = none := by
  have nothing : c.bytes.drop offset = [] := by
    rw [List.drop_eq_nil_iff, bytes_length]
    exact behind
  simp only [instruction?, extract_bytes, nothing, List.take_nil]

theorem instruction_reads (c : Chunk) (offset : Nat) :
    Reads c.bytes offset (c.instruction? offset) := by
  cases here : c.bytes.drop offset with
  | nil =>
    have behind : c.bytes.length ≤ offset := List.drop_eq_nil_iff.mp here
    rw [instruction_behind (c.bytes_length ▸ behind)]
    exact .ending (List.getElem?_eq_none behind)
  | cons byte rest =>
    rw [instruction_of_drop here]
    exact reads_take here

end Chunk
end StackCalc
