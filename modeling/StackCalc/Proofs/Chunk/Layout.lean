import StackCalc.Chunk.Instruction

namespace StackCalc

namespace Instruction

/-- The instruction is what its own bytes are read as, whatever follows them. -/
def Complete : Instruction → Prop
  | .load false index => index < 256
  | .load true index => index < 65536
  | .unknown byte => Opcode.ofByte byte = .error ⟨byte⟩
  | .truncated _ _ => False
  | _ => True

variable {i : Instruction}

theorem Complete.take (complete : i.Complete) : ∃ byte operand, i.toBytes = byte :: operand ∧
    ∀ rest, Instruction.take byte (operand ++ rest) = (i, rest) := by
  cases i with
  | ret => exact ⟨_, [], rfl, fun _ => rfl⟩
  | negate => exact ⟨_, [], rfl, fun _ => rfl⟩
  | binary op => exact ⟨_, [], rfl, fun rest => by simp [Instruction.take]⟩
  | unknown byte =>
    have unread : Opcode.ofByte byte = .error ⟨byte⟩ := complete
    exact ⟨_, [], rfl, fun rest => by simp [Instruction.take, unread]⟩
  | truncated wide present => exact complete.elim
  | load wide index =>
    cases wide with
    | false =>
      have narrow : index < 256 := complete
      refine ⟨_, [UInt8.ofNat index], rfl, fun rest => ?_⟩
      simp [Instruction.take, Nat.mod_eq_of_lt narrow]
    | true =>
      have word : index < 65536 := complete
      refine ⟨_, [UInt8.ofNat (index / 256), UInt8.ofNat index], rfl, fun rest => ?_⟩
      have whole : 256 * (index / 256 % 256) + index % 256 = index := by omega
      simp [Instruction.take, whole]

end Instruction

namespace Located

def lay : Nat → List Instruction → List Located
  | _, [] => []
  | offset, i :: is => ⟨offset, i⟩ :: lay (offset + i.size) is

@[simp] theorem lay_instruction (offset : Nat) (is : List Instruction) :
    (lay offset is).map Located.instruction = is := by
  induction is generalizing offset with
  | nil => rfl
  | cons i is ih => simp [lay, ih]

theorem split_last {is : List Located} {front : List Instruction} {last : Instruction}
    (laid : is.map Located.instruction = front ++ [last]) :
    ∃ js i, is = js ++ [i] ∧ js.map Located.instruction = front ∧ i.instruction = last := by
  obtain ⟨js, ending, rfl, js_laid, ending_laid⟩ := List.map_eq_append_iff.mp laid
  obtain ⟨i, rfl, i_laid⟩ := List.map_eq_singleton_iff.mp ending_laid
  exact ⟨js, i, rfl, js_laid, i_laid⟩

/-- One step of the budget is enough for each complete instruction. -/
theorem cut_lay (is : List Instruction) (complete : ∀ i ∈ is, i.Complete) (budget offset : Nat)
    (enough : (is.flatMap Instruction.toBytes).length ≤ budget) (seen : List Located) :
    cut budget offset (is.flatMap Instruction.toBytes) seen = seen.reverse ++ lay offset is := by
  induction is generalizing budget offset seen with
  | nil => cases budget <;> simp [cut, lay]
  | cons i is ih =>
    rw [List.forall_mem_cons] at complete
    obtain ⟨byte, operand, spelled, taken⟩ := complete.1.take
    simp only [List.flatMap_cons, spelled, List.cons_append, List.length_cons,
      List.length_append] at enough ⊢
    cases budget with
    | zero => omega
    | succ budget =>
      simp only [cut, taken]
      rw [ih complete.2 budget _ (by omega)]
      simp [lay]

theorem ofBytes_lay (is : List Instruction) (complete : ∀ i ∈ is, i.Complete) :
    ofBytes (is.flatMap Instruction.toBytes) = lay 0 is :=
  cut_lay is complete _ 0 (Nat.le_refl _) []

end Located
end StackCalc
