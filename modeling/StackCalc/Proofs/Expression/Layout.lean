import StackCalc.Proofs.Expression.Acceptance
import StackCalc.Proofs.Expression.Numbering
import StackCalc.Proofs.Token.Spacing

namespace StackCalc

namespace Chunk

variable (c : Chunk) (f : Nat → Nat)

@[simp] theorem bytes_relabel : (c.relabel f).bytes = c.bytes := by
  simp [bytes, relabel, CodeByte.relabel]

@[simp] theorem lines_relabel : (c.relabel f).lines = c.lines.map f := by
  simp [lines, relabel, CodeByte.relabel]

end Chunk

/-- The positions of the tokens that the bytes of code are for, with a tree of numbered tokens. The
return is for the ending. -/
def Script.origins (script : Script) (e : Tree) : List Nat :=
  (e.code 0).map CodeByte.line ++ [script.tokens.length]

theorem Compilation.numbered_outcome {script : Script} (cut : ∀ t ∈ script.tokens, t.Cut) :
    (∃ c e, (ofScript script.numbered).outcome = .ok c ∧ Derives .sum script.numbered.tokens e ∧
      c.bytes = (e.code 0).map CodeByte.byte ++ [Opcode.ret.toByte] ∧
      c.lines = script.origins e) ∨ ∃ d, (ofScript script.numbered).outcome = .error d := by
  cases outcome : (ofScript script.numbered).outcome with
  | error d => exact .inr ⟨d, rfl⟩
  | ok c =>
    obtain ⟨-, e, compiled⟩ := script_of_ok (Script.numbered_cut cut) outcome
    refine .inl ⟨c, e, rfl, compiled.derives, ?_, ?_⟩
    · simp [Chunk.bytes, compiled.code]
    · simp [Chunk.lines, compiled.code, Script.origins, Script.numbered]

section Down

variable (before : List Token) (after : Script) (n : Nat)

theorem Script.numbered_down :
    (⟨before ++ after.tokens.map (Token.relabel (· + n)), after.endLine + n⟩ : Script).numbered =
      (⟨before ++ after.tokens, after.endLine⟩ : Script).numbered := by
  apply numbered_congr
  simp [Function.comp_def, Token.relabel]

theorem Script.lineAt_down (i : Nat) :
    (⟨before ++ after.tokens.map (Token.relabel (· + n)), after.endLine + n⟩ : Script).lineAt i =
      (⟨before ++ after.tokens, after.endLine⟩ : Script).lineAt i +
        if i < before.length then 0 else n := by
  by_cases front : i < before.length
  · simp [lineAt, List.getElem?_append_left, front]
  · rw [if_neg front]
    simp only [lineAt, List.getElem?_append_right (Nat.le_of_not_lt front), List.getElem?_map]
    cases after.tokens[i - before.length]? with
    | none => rfl
    | some t => rfl

end Down

/-- A gap at the end of a token changes no token, and moves only the lines of those behind it. -/
theorem compile_spaced {a b w : String} {before : List Token}
    (parts : Script.Parts a.toList b.toList before) (gap : Gap w.toList) : ∃ after : Script,
    Script.ofString (a ++ b) = ⟨before ++ after.tokens, after.endLine⟩ ∧
    Script.ofString (a ++ w ++ b) =
      ⟨before ++ after.tokens.map (Token.relabel (· + w.toList.count '\n')),
        after.endLine + w.toList.count '\n'⟩ ∧
    ((∃ c c' e, compile (a ++ b) = .ok c ∧ compile (a ++ w ++ b) = .ok c' ∧
        c'.bytes = c.bytes ∧ c'.constants = c.constants ∧
        Derives .sum (Script.ofString (a ++ b)).numbered.tokens e ∧
        c.bytes = (e.code 0).map CodeByte.byte ++ [Opcode.ret.toByte] ∧
        c.lines = ((Script.ofString (a ++ b)).origins e).map (Script.ofString (a ++ b)).lineAt ∧
        c'.lines = ((Script.ofString (a ++ b)).origins e).map fun i =>
          (Script.ofString (a ++ b)).lineAt i +
            if i < before.length then 0 else w.toList.count '\n') ∨
      ∃ d more, compile (a ++ b) = .error d ∧
        compile (a ++ w ++ b) = .error { d with line := d.line + more } ∧
        (more = 0 ∨ more = w.toList.count '\n')) := by
  obtain ⟨after, whole, spaced⟩ := parts.spaced gap
  have first := compile_numbered (a ++ b)
  have second := compile_numbered (a ++ w ++ b)
  have cut := Script.ofString_cut (a ++ b)
  rw [← String.toList_append, ← Script.ofString] at whole
  rw [← String.toList_append, ← String.toList_append, ← Script.ofString] at spaced
  refine ⟨after, whole, spaced, ?_⟩
  rw [spaced, Script.numbered_down, ← whole] at second
  have lines := funext (Script.lineAt_down before after (w.toList.count '\n'))
  rw [lines, ← whole] at second
  rcases Compilation.numbered_outcome cut with
    ⟨c, e, ok, derives, bytes, origins⟩ | ⟨d, failed⟩
  · rw [Compilation.ok_relabel ok] at first second
    refine .inl ⟨_, _, e, first, second, ?_, rfl, derives, ?_, ?_, ?_⟩
    · simp
    · simp [bytes]
    · simp [origins]
    · simp [origins]
  · rw [Compilation.error_relabel failed] at first second
    refine .inr ⟨_, if d.line < before.length then 0 else w.toList.count '\n', first, second, ?_⟩
    split
    · exact .inl rfl
    · exact .inr rfl

theorem compile_spaced_comment :
    Script.Parts "1".toList "+2".toList [⟨.number, "1", 1⟩] ∧ Gap "\n// +\n".toList ∧
    ∃ c, compile "1\n// +\n+2" = .ok c ∧ c.bytes = [1, 0, 1, 1, 4, 0] := by
  have yields : (Scanner.start "1+2".toList).Yields [⟨.number, "1", 1⟩] ⟨"+2".toList, 1⟩ :=
    .cons (by decide) .nil
  have parts : Script.Parts "1".toList "+2".toList [⟨.number, "1", 1⟩] :=
    ⟨⟨1, yields⟩, by decide⟩
  have padding : Padding "// +\n".toList := @Padding.comment " +".toList [] (by decide) .nil
  have gap : Gap "\n// +\n".toList := .intro (.inl rfl) padding
  have plain : compile "1+2" = .ok ⟨#[⟨1, 1⟩, ⟨0, 1⟩, ⟨1, 1⟩, ⟨1, 1⟩, ⟨4, 1⟩, ⟨0, 1⟩],
      #[⟨0x3FF0000000000000⟩, ⟨0x4000000000000000⟩]⟩ := by decide +kernel
  refine ⟨parts, gap, ?_⟩
  obtain ⟨after, -, -, ⟨c, c', e, ok, ok', bytes, -⟩ | ⟨d, more, failed, -⟩⟩ :=
    compile_spaced parts gap
  · cases plain.symm.trans ok
    exact ⟨c', ok', bytes⟩
  · cases plain.symm.trans failed

end StackCalc
