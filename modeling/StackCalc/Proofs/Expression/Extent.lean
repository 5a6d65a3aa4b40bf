import Mathlib.Algebra.Order.Ring.Nat
import StackCalc.Proofs.Chunk.Image
import StackCalc.Proofs.Expression.Acceptance
import StackCalc.Proofs.Expression.Relabel
import StackCalc.Proofs.Token.Lines

namespace StackCalc

namespace Tree

theorem numbers_pos (e : Tree) : 0 < e.numbers.length := by
  induction e with
  | number t => exact Nat.one_pos
  | group inner ih => exact ih
  | negate sign operand ih => exact ih
  | binary op sign left right left_ih right_ih =>
    rw [numbers, List.length_append]
    exact Nat.add_pos_left left_ih _

theorem loadCode_length (index line : Nat) : (loadCode index line).length ≤ 3 := by
  unfold loadCode
  split <;> simp

/-- For each literal there is its load, one byte for an operator to join it with, and one for each
minus around it. -/
theorem code_length (e : Tree) (first : Nat) :
    (e.code first).length + 1 ≤ e.numbers.length * (4 + e.nesting) := by
  induction e generalizing first with
  | number t =>
    have load := loadCode_length first t.line
    simp only [code, numbers, nesting, List.length_singleton]
    omega
  | group inner ih =>
    have inside := ih first
    simp only [code, numbers, nesting, ← Nat.add_assoc, Nat.mul_succ]
    omega
  | negate sign operand ih =>
    have inside := ih first
    have some_number := operand.numbers_pos
    simp only [code, numbers, nesting, ← Nat.add_assoc, Nat.mul_succ, List.length_append,
      List.length_singleton]
    omega
  | binary op sign left right left_ih right_ih =>
    have left_inside := (left_ih first).trans (Nat.mul_le_mul_left left.numbers.length
      (Nat.add_le_add_left (Nat.le_max_left left.nesting right.nesting) 4))
    have right_inside := (right_ih (first + left.numbers.length)).trans
      (Nat.mul_le_mul_left right.numbers.length
        (Nat.add_le_add_left (Nat.le_max_right left.nesting right.nesting) 4))
    simp only [code, numbers, nesting, List.length_append, List.length_singleton, Nat.add_mul]
    omega

end Tree

theorem Compiled.size_le {script : Script} {chunk : Chunk} {e : Tree}
    (compiled : Compiled script chunk e) : chunk.code.size ≤ 65536 * (4 + maxNesting) := by
  have total : chunk.code.size = (e.code 0).length + 1 := by
    simpa using congrArg List.length compiled.code
  have deep := Nat.mul_le_mul compiled.few (Nat.add_le_add_left compiled.shallow 4)
  have inside := e.code_length 0
  omega

theorem Compiled.pool_size {script : Script} {chunk : Chunk} {e : Tree}
    (compiled : Compiled script chunk e) : chunk.constants.size = e.numbers.length := by
  simpa using congrArg List.length compiled.pool

variable {source : String}

theorem Compilation.lines_within (source : String) :
    (∀ b ∈ (ofString source).chunk.code, 1 ≤ b.line ∧ b.line ≤ 1 + source.toList.count '\n') ∧
      ∀ d ∈ (ofString source).reports, 1 ≤ d.line ∧ d.line ≤ 1 + source.toList.count '\n' := by
  obtain ⟨tokens, ending⟩ := Script.ofChars_within source.toList
  exact lines_of_script (P := fun line => 1 ≤ line ∧ line ≤ 1 + source.toList.count '\n')
    tokens ending

theorem compile_lines {chunk : Chunk} (ok : compile source = .ok chunk) :
    ∀ line ∈ chunk.lines, 1 ≤ line ∧ line ≤ 1 + source.toList.count '\n' := by
  have silent := Compilation.silent_of_outcome ok
  obtain rfl : (Compilation.ofString source).chunk = chunk := by
    have same := (Compilation.outcome_of_silent silent).symm.trans ok
    exact Except.ok.inj same
  intro line member
  obtain ⟨b, inside, rfl⟩ := List.mem_map.mp member
  exact (Compilation.lines_within source).1 b (Array.mem_toList_iff.mp inside)

theorem compile_error_line {d : Diagnostic} (failed : compile source = .error d) :
    1 ≤ d.line ∧ d.line ≤ 1 + source.toList.count '\n' := by
  apply (Compilation.lines_within source).2
  unfold compile Compilation.outcome at failed
  split at failed
  · cases failed
  · rename_i first others reports
    cases failed
    rw [reports]
    exact List.mem_cons_self

theorem compile_fits {chunk : Chunk} (ok : compile source = .ok chunk)
    (few_lines : source.toList.count '\n' < 2 ^ 32 - 1) : Image.Fits chunk := by
  obtain ⟨-, e, compiled⟩ := compiled_of_ok ok
  have size := compiled.size_le
  have pool := compiled.pool_size
  have few := compiled.few
  have nesting : maxNesting = 512 := rfl
  have bound : Image.wordBound = 2 ^ 32 := rfl
  constructor
  · omega
  · intro line member
    have within := (compile_lines ok line member).2
    omega
  · omega

end StackCalc
