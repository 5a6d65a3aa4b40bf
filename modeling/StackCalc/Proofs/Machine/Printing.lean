import StackCalc.Proofs.Machine.Dispatch
import StackCalc.Proofs.Number.Printed

namespace StackCalc

theorem foldl_brackets (values : List Number) (start : String) :
    values.foldl (fun text x => text ++ "[ " ++ x.text ++ " ]") start =
      start ++ String.join (values.map fun x => "[ " ++ x.text ++ " ]") := by
  induction values generalizing start with
  | nil => rw [List.foldl_nil, List.map_nil, String.join_nil, String.append_empty]
  | cons x rest ih =>
    rw [List.foldl_cons, ih, List.map_cons, String.join_cons]
    simp only [String.append_assoc]

theorem stackText_brackets (values : List Number) : stackText values =
    "          " ++ String.join (values.map fun x => "[ " ++ x.text ++ " ]") :=
  foldl_brackets values _

namespace Chunk

def returning (x : Number) : Chunk := ⟨#[⟨1, 1⟩, ⟨0, 1⟩, ⟨0, 1⟩], #[x]⟩

variable {chunk : Chunk} {offset index : Nat} {wide : Bool} {x : Number}

theorem listLine_constant (present : chunk.constant? index = some x) : ∃ front,
    chunk.listLine offset (some (.load wide index)) = front ++ "'" ++ x.text ++ "'" := by
  refine ⟨Text.padLeft '0' 4 (toString offset) ++ " " ++ chunk.lineMark offset ++
    constantName wide ++ Text.padLeft ' ' 4 (toString index) ++ " ", ?_⟩
  simp only [listLine, instructionText, operandText, present, String.append_assoc]
  rfl

end Chunk

namespace Machine

theorem load_puts {m : Machine} {console : Console} {chunk : Chunk} {tape : Tape} {value : Number}
    (result : (m.load console chunk tape).result = .ok value) :
    (m.load console chunk tape).outputText = value.text ++ "\n" := by
  obtain ⟨ts, turns, -⟩ := Chunk.executeFrom_turns chunk.instructions_tiles console [] tape
  obtain ⟨u, -, ends⟩ := turns.last_ends
  exact ends.puts_value result

theorem run_puts {m : Machine} {console : Console} {task : Task} {value : Number}
    (result : (m.run console task).result = .ok value) :
    (m.run console task).outputText = value.text ++ "\n" := by
  cases task with
  | chunk given => exact load_puts result
  | source text =>
    simp only [run, interpret] at result ⊢
    split at result
    · cases result
    · split at result
      · cases result
      · exact load_puts result

theorem run_returning (m : Machine) (x : Number) (debug : Bool) :
    (m.run ⟨debug, .working, .working⟩ (.chunk (.returning x))).result = .ok x := by
  have loads : (Task.chunk (.returning x)).Loads (.returning x) := rfl
  rw [run_course loads fun _ => rfl]
  rfl

/-- A number has one printed form, be it put out, shown on a stack or listed. -/
theorem printed_rounded (x : Number) :
    (∀ text, x.Prints text ↔ text = x.text.toList) ∧
    (∀ (m : Machine) console task, (m.run console task).result = .ok x →
      (m.run console task).outputText = x.text ++ "\n") ∧
    (∀ (m : Machine) debug,
      (m.run ⟨debug, .working, .working⟩ (.chunk (.returning x))).result = .ok x) ∧
    (∀ values, stackText values =
      "          " ++ String.join (values.map fun y => "[ " ++ y.text ++ " ]")) ∧
    (∀ (chunk : Chunk) offset wide index, chunk.instruction? offset = some (.load wide index) →
      chunk.constant? index = some x → ∃ front,
        (chunk.listAt offset).1 = front ++ "'" ++ x.text ++ "'") ∧
    (∀ (chunk : Chunk) header, ∀ i ∈ chunk.instructions, ∀ wide index,
      i.instruction = .load wide index → chunk.constant? index = some x → ∃ front,
        front ++ "'" ++ x.text ++ "'" ∈ chunk.listing header) ∧
    ∀ y : Number, x.isFinite = true → y.isFinite = true → x.value ≤ y.value →
      Text.signedValue x.text.toList ≤ Text.signedValue y.text.toList := by
  refine ⟨x.prints_iff, fun _ _ _ => run_puts, fun m => m.run_returning x, stackText_brackets,
    ?_, ?_, fun y => Number.signedValue_monotone⟩
  · intro chunk offset wide index here present
    obtain ⟨front, line⟩ := Chunk.listLine_constant present
    refine ⟨front, ?_⟩
    rw [Chunk.listAt, here]
    exact line
  · intro chunk header i inside wide index loads present
    obtain ⟨front, line⟩ := Chunk.listLine_constant present
    refine ⟨front, List.mem_cons_of_mem _ (List.mem_map.mpr ⟨i, inside, ?_⟩)⟩
    rw [Chunk.listInstruction, loads]
    exact line

/-- One part in 128 is in the middle between two millionths, the lower one of which is even. -/
example : Number.text ⟨0xBF80000000000000⟩ = "-0.007812" := by decide +kernel

end Machine
end StackCalc
