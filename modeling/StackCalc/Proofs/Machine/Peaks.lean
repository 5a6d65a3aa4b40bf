import StackCalc.Proofs.Machine.Boundaries
import StackCalc.Proofs.Machine.Dispatch

/-! How high the stack gets when compiled code runs. An operand waits on it while the operand to its
right is worked out. Of a chain of equal operators at most one does, however long the chain is, and
so it is the nesting of a text that the stack grows with, and not its length. -/
namespace StackCalc

namespace Tree

/-- The most values the code of a tree has on the stack, above those that it finds there. -/
def peak : Tree → Nat
  | .number _ => 1
  | .group inner => inner.peak
  | .negate _ operand => operand.peak
  | .binary _ _ left right => max left.peak (right.peak + 1)

theorem peak_pos (e : Tree) : 0 < e.peak := by
  induction e with
  | number t => exact Nat.one_pos
  | group inner ih => exact ih
  | negate sign operand ih => exact ih
  | binary op sign left right left_ih _ => exact Nat.lt_of_lt_of_le left_ih (Nat.le_max_left _ _)

end Tree

/-- What stands to the left of a chain waits only while one right operand is worked out. -/
theorem Link.peak_foldl {links : List Link} {l : Tree} {bound : Nat} (first : l.peak ≤ bound)
    (rights : ∀ k ∈ links, k.right.peak + 1 ≤ bound) : (links.foldl join l).peak ≤ bound := by
  induction links generalizing l with
  | nil => exact first
  | cons k links ih =>
    rw [List.forall_mem_cons] at rights
    exact ih (Nat.max_le.mpr ⟨first, rights.1⟩) rights.2

/-- One value for the level and each level below it, and two more for each nesting, since an operand
can wait at either operator level around it. -/
theorem Derives.peak_le {level : Level} {ts : List Token} {e : Tree} (derives : Derives level ts e)
    {bound : Nat} (shallow : e.nesting ≤ bound) : e.peak ≤ 2 * bound + level.height := by
  -- On the derivation. A level is one higher than that of its operands.
  induction derives generalizing bound with
  | number _ => exact Nat.le_add_left _ _
  | group _ _ _ ih =>
    obtain ⟨inner, rfl⟩ := Nat.exists_eq_add_of_lt (Nat.lt_of_lt_of_le (Nat.succ_pos _) shallow)
    have inside := ih (Nat.le_of_succ_le_succ shallow)
    simp only [Tree.peak, Level.height] at inside ⊢
    omega
  | negate _ _ ih =>
    have inside := ih (Nat.le_of_succ_le shallow)
    exact inside
  | product _ _ _ first_ih rights_ih =>
    obtain ⟨first, rights⟩ := (Link.nesting_foldl _ _ _).mp shallow
    refine Link.peak_foldl ((first_ih first).trans (Nat.le_succ _)) fun k member => ?_
    exact Nat.succ_le_succ (rights_ih k member (rights k member))
  | sum _ _ _ first_ih rights_ih =>
    obtain ⟨first, rights⟩ := (Link.nesting_foldl _ _ _).mp shallow
    refine Link.peak_foldl ((first_ih first).trans (Nat.le_succ _)) fun k member => ?_
    exact Nat.succ_le_succ (rights_ih k member (rights k member))

def Chunk.Lifts (chunk : Chunk) (peak : Nat) (is : List Located) (stack stack' : List Number) :
    Prop :=
  ∃ front : List Visit, (∀ v ∈ front, v.stack.length ≤ peak ∧ v.instruction ≠ some .ret) ∧
    ∀ rest, (chunk.course (is ++ rest) stack).visits = front ++ (chunk.course rest stack').visits

namespace Chunk.Lifts

variable {chunk : Chunk} {peak peak' : Nat} {is js : List Located}
  {stack stack' stack'' : List Number}

theorem single {i : Located} (step : i.step chunk.constants stack = .next stack')
    (low : stack.length ≤ peak) : chunk.Lifts peak [i] stack stack' := by
  have stays : i.instruction ≠ .ret := by
    cases Located.steps_of step <;> exact nofun
  refine ⟨[.ofLocated i stack], ?_, fun rest => ?_⟩
  · exact List.forall_mem_singleton.mpr ⟨low, fun same => stays (Option.some.inj same)⟩
  · rw [List.singleton_append, course, step]
    rfl

theorem append (front : chunk.Lifts peak is stack stack')
    (behind : chunk.Lifts peak js stack' stack'') : chunk.Lifts peak (is ++ js) stack stack'' := by
  obtain ⟨vs, vs_low, vs_visits⟩ := front
  obtain ⟨us, us_low, us_visits⟩ := behind
  refine ⟨vs ++ us, List.forall_mem_append.mpr ⟨vs_low, us_low⟩, fun rest => ?_⟩
  rw [List.append_assoc, vs_visits, us_visits, List.append_assoc]

theorem mono (lifts : chunk.Lifts peak is stack stack') (lower : peak ≤ peak') :
    chunk.Lifts peak' is stack stack' := by
  obtain ⟨vs, low, visits⟩ := lifts
  exact ⟨vs, fun v member => ⟨(low v member).1.trans lower, (low v member).2⟩, visits⟩

end Chunk.Lifts

theorem Tree.lifts {chunk : Chunk} (e : Tree) (first : Nat) (pools : chunk.Pools first e.numbers) :
    ∃ v, ∀ is : List Located, is.map Located.instruction = e.instructions first →
      ∀ stack, chunk.Lifts (stack.length + e.peak) is stack (v :: stack) := by
  -- On the tree. A right operand starts one value higher, with the value of the left one below it.
  induction e generalizing first with
  | number t =>
    obtain ⟨value, -, constant⟩ := pools.head
    refine ⟨value, fun is coded stack => ?_⟩
    obtain ⟨i, rfl, load⟩ := List.map_eq_singleton_iff.mp coded
    exact .single (by simp only [Located.step, load, constant]) (Nat.le_add_right _ _)
  | group inner ih => exact ih first pools
  | negate sign operand ih =>
    obtain ⟨v, inside⟩ := ih first pools
    refine ⟨v.negate, fun is coded stack => ?_⟩
    obtain ⟨front, i, rfl, front_coded, negate⟩ := Located.split_last coded
    have room : (v :: stack).length ≤ stack.length + operand.peak :=
      Nat.add_le_add_left operand.peak_pos _
    exact (inside front front_coded stack).append
      (.single (by simp only [Located.step, negate]) room)
  | binary op sign left right left_ih right_ih =>
    obtain ⟨left_pools, right_pools⟩ := Chunk.Pools.split pools
    obtain ⟨x, left_lifts⟩ := left_ih first left_pools
    obtain ⟨y, right_lifts⟩ := right_ih _ right_pools
    refine ⟨op.apply x y, fun is coded stack => ?_⟩
    obtain ⟨operands, i, rfl, operands_coded, apply⟩ := Located.split_last coded
    obtain ⟨front, behind, rfl, front_coded, behind_coded⟩ :=
      List.map_eq_append_iff.mp operands_coded
    have left_low : stack.length + left.peak ≤ stack.length + (binary op sign left right).peak :=
      Nat.add_le_add_left (Nat.le_max_left _ _) _
    have right_low : (x :: stack).length + right.peak ≤
        stack.length + (binary op sign left right).peak := by
      rw [List.length_cons, Nat.add_assoc, Nat.add_comm 1]
      exact Nat.add_le_add_left (Nat.le_max_right _ _) _
    have room : (y :: x :: stack).length ≤ stack.length + (binary op sign left right).peak :=
      (Nat.add_le_add_left right.peak_pos _).trans right_low
    exact (((left_lifts front front_coded stack).mono left_low).append
      ((right_lifts behind behind_coded (x :: stack)).mono right_low)).append
        (.single (by simp only [Located.step, apply]) room)

theorem Located.Tiles.last_size {code : List UInt8} {offset : Nat} {is : List Located} {i : Located}
    (tiles : Tiles code offset (is ++ [i])) : i.offset + i.instruction.size = code.length := by
  induction is generalizing offset with
  | nil =>
    cases tiles with
    | @cons _ byte rest _ _ tiles =>
      generalize offset + (Instruction.take byte rest).1.size = next at tiles ⊢
      cases tiles
      rfl
  | cons j is ih =>
    cases tiles with
    | cons _ tiles => exact ih tiles

theorem Compiled.course_peak {script : Script} {chunk : Chunk} {e : Tree}
    (compiled : Compiled script chunk e) :
    ∃ front offset value, chunk.wholeCourse.visits = front ++ [⟨offset, some .ret, [value]⟩] ∧
      offset + 1 = chunk.size ∧
      ∀ v ∈ front, v.stack.length ≤ e.peak ∧ v.instruction ≠ some .ret := by
  obtain ⟨value, lifts⟩ := e.lifts 0 compiled.pools
  obtain ⟨is, i, laid, coded, ret⟩ := Located.split_last compiled.instructions
  obtain ⟨front, low, visits⟩ := lifts is coded []
  have last := (laid ▸ chunk.instructions_tiles).last_size
  rw [ret, Chunk.bytes_length] at last
  refine ⟨front, i.offset, value, ?_, last, ?_⟩
  · rw [Chunk.wholeCourse, laid, visits, Chunk.course, ← ret]
    simp only [Located.step, ret, Visit.ofLocated]
  · simpa using low

theorem Located.step_ending {i : Located} {constants : Array Number} {stack stack' : List Number}
    (step : (∃ value, i.step constants stack = .done value stack') ∨
      ∃ e, i.step constants stack = .stop e stack') : stack'.length ≤ stack.length := by
  rcases step with ⟨value, step⟩ | ⟨e, step⟩
  · cases Located.steps_of step
    exact Nat.le_succ _
  · cases Located.steps_of step with
    | missing _ | cut => exact Nat.le_refl _
    | notNegated | notApplied _ | notReturned => exact Nat.zero_le _

theorem Turn.Ends.stack_length {chunk : Chunk} {console : Console} {t : Turn} {r : Run}
    (ends : t.Ends chunk console r) : r.stack.length ≤ t.stack.length := by
  cases ends with
  | untraced _ => exact Nat.le_refl _
  | unfetched _ => exact Nat.le_refl _
  | stopped _ step => exact Located.step_ending (.inr ⟨_, step⟩)
  | returned _ step =>
    have same (tape : Tape) (console : Console) (value : Number) (stack : List Number) :
        (tape.done console value stack).stack = stack := by
      unfold Tape.done
      split <;> rfl
    rw [same]
    exact Located.step_ending (.inl ⟨_, step⟩)

/-- It is the nesting of a text that the stack grows with, however long the text is. -/
theorem Machine.execute_peak (source : String) (chunk : Chunk) (ok : compile source = .ok chunk) :
    ∃ e, Derives .sum (Script.ofString source).tokens e ∧ e.nesting ≤ 512 ∧
      ∀ (m : Machine) (console : Console), ∃ ts,
        chunk.Turns console ⟨0, [], .blank console.trace⟩ ts (m.execute console chunk) ∧
        (∀ t ∈ ts, t.stack.length ≤ 2 * (e.nesting + 1) + 1 ∧ t.stack.length ≤ 1027) ∧
        (m.execute console chunk).stack.length ≤ 2 * (e.nesting + 1) + 1 ∧
        (∀ t ∈ ts, chunk.instruction? t.offset = some .ret → t.stack.length = 1) ∧
        ((console.debug = true → console.trace = .working) →
          ∃ t, ts.getLast? = some t ∧ chunk.instruction? t.offset = some .ret ∧
            t.offset + 1 = chunk.size ∧ t.stack.length = 1) := by
  obtain ⟨-, e, compiled⟩ := compiled_of_ok ok
  have shallow : e.nesting ≤ 512 := compiled.shallow
  have peak : e.peak ≤ 2 * (e.nesting + 1) + 1 := compiled.derives.peak_le (Nat.le_refl _)
  obtain ⟨front, offset, value, course, at_end, low⟩ := compiled.course_peak
  refine ⟨e, compiled.derives, shallow, fun m console => ?_⟩
  obtain ⟨ts, turns, along, all⟩ :=
    Chunk.executeFrom_turns chunk.instructions_tiles console [] (.blank console.trace)
  have visits : chunk.wholeCourse.visits = (chunk.course chunk.instructions []).visits := rfl
  rw [← visits, course] at along all
  have visited {t : Turn} (member : t ∈ ts) :
      t.visit chunk ∈ front ∨ t.visit chunk = ⟨offset, some .ret, [value]⟩ := by
    simpa using along.mem (List.mem_map_of_mem member)
  have bounded {t : Turn} (member : t ∈ ts) : t.stack.length ≤ 2 * (e.nesting + 1) + 1 := by
    rcases visited member with before | last
    · exact (low _ before).1.trans peak
    · have one : t.stack = [value] := congrArg Visit.stack last
      rw [one]
      exact Nat.le_add_left _ _
  obtain ⟨u, u_last, ends⟩ := turns.last_ends
  have u_bounded := bounded (List.mem_of_getLast? u_last)
  have left_over := ends.stack_length.trans u_bounded
  refine ⟨ts, turns, fun t member => ⟨bounded member, ?_⟩, left_over, ?_, ?_⟩
  · exact (bounded member).trans (by omega)
  · intro t member ret
    rcases visited member with before | last
    · exact absurd ret (low _ before).2
    · exact congrArg (List.length ∘ Visit.stack) last
  · intro traces
    have same := congrArg List.getLast? (all traces)
    rw [List.getLast?_map, u_last, List.getLast?_concat] at same
    have at_return : u.visit chunk = ⟨offset, some .ret, [value]⟩ := Option.some.inj same
    refine ⟨u, u_last, congrArg Visit.instruction at_return, ?_, ?_⟩
    · exact (congrArg (· + 1) (congrArg Visit.offset at_return)).trans at_end
    · exact congrArg (List.length ∘ Visit.stack) at_return

/-- Without any nesting there can be three values: both other operands wait for the last one. -/
theorem Machine.execute_peak_factor : ∃ chunk e, compile "1+2*3" = .ok chunk ∧
    Derives .sum (Script.ofString "1+2*3").tokens e ∧
    chunk.wholeCourse.visits.map (fun v => v.stack.length) = [0, 1, 2, 3, 2, 1] ∧
    ∃ ts, chunk.Turns .quiet ⟨0, [], .blank .working⟩ ts (Machine.execute ⟨[.zero]⟩ .quiet chunk) ∧
      ∀ t ∈ ts, t.stack.length ≤ 2 * (e.nesting + 1) + 1 ∧ t.stack.length ≤ 1027 := by
  have ok : compile "1+2*3" = .ok ⟨#[⟨1, 1⟩, ⟨0, 1⟩, ⟨1, 1⟩, ⟨1, 1⟩, ⟨1, 1⟩, ⟨2, 1⟩, ⟨6, 1⟩, ⟨4, 1⟩,
      ⟨0, 1⟩], #[⟨0x3FF0000000000000⟩, ⟨0x4000000000000000⟩, ⟨0x4008000000000000⟩]⟩ := by
    decide +kernel
  obtain ⟨e, derives, -, runs⟩ := execute_peak _ _ ok
  obtain ⟨ts, turns, low, -⟩ := runs ⟨[.zero]⟩ .quiet
  exact ⟨_, e, ok, derives, by decide +kernel, ts, turns, low⟩

end StackCalc
