import StackCalc.Proofs.Expression.Relabel
import StackCalc.Proofs.Token.Numeral

namespace StackCalc

namespace Script

/-- The script with the position of every token in place of its line. -/
def numbered (script : Script) : Script :=
  ⟨script.tokens.mapIdx fun i t => { t with line := i }, script.tokens.length⟩

def lineAt (script : Script) (i : Nat) : Nat := (script.tokens[i]?.getD script.ending).line

@[simp] theorem numbered_relabel (script : Script) :
    script.numbered.relabel script.lineAt = script := by
  have tokens : script.numbered.tokens.map (Token.relabel script.lineAt) = script.tokens := by
    apply List.ext_getElem?
    intro i
    cases found : script.tokens[i]? with
    | none => simp [numbered, found]
    | some t => simp [numbered, found, Token.relabel, lineAt]
  have last : script.lineAt script.tokens.length = script.endLine := by
    simp [lineAt, ending, Token.ending]
  rw [relabel, tokens, numbered, last]

theorem numbered_cut {script : Script} (cut : ∀ t ∈ script.tokens, t.Cut) :
    ∀ t ∈ script.numbered.tokens, t.Cut := by
  intro t member
  obtain ⟨i, inside, rfl⟩ := List.mem_mapIdx.mp member
  have old := cut script.tokens[i] (List.getElem_mem inside)
  exact ⟨old.inside, old.denotes⟩

@[simp] theorem withoutFaults_relabel (script : Script) (f : Nat → Nat) :
    (script.relabel f).withoutFaults = script.withoutFaults.relabel f := by
  simp only [withoutFaults, relabel, List.filter_map]
  rfl

theorem numbered_congr {script script' : Script}
    (same : script.tokens.map (Token.relabel fun _ => 0) =
      script'.tokens.map (Token.relabel fun _ => 0)) : script.numbered = script'.numbered := by
  have blank (script : Script) : script.numbered =
      ⟨(script.tokens.map (Token.relabel fun _ => 0)).mapIdx fun i t => { t with line := i },
        (script.tokens.map (Token.relabel fun _ => 0)).length⟩ := by
    simp [numbered, List.mapIdx_eq_zipIdx_map, List.zipIdx_map, Token.relabel]
  rw [blank, blank, same]

@[simp] theorem stream_relabel (script : Script) (f : Nat → Nat) :
    (script.relabel f).stream = script.stream.map (Token.relabel f) := by
  simp [stream, relabel, ending]

theorem stream_lines (script : Script) :
    script.numbered.stream.map (Token.relabel script.lineAt) = script.stream := by
  rw [← stream_relabel, numbered_relabel]

theorem numbered_line {script : Script} {before after : List Token} {t : Token}
    (stream : script.numbered.stream = before ++ t :: after) : t.line = before.length := by
  have numbered : script.numbered.stream =
      script.stream.mapIdx fun i t => { t with line := i } := by
    simp [Script.stream, Script.numbered, ending, Token.ending]
  have found : script.numbered.stream[before.length]? = some t := by simp [stream]
  rw [numbered, List.getElem?_mapIdx, Option.map_eq_some_iff] at found
  obtain ⟨_, -, rfl⟩ := found
  rfl

end Script

namespace Compilation

variable {c : Compilation}

theorem ok_relabel {chunk : Chunk} (ok : c.outcome = .ok chunk) (f : Nat → Nat) :
    (c.relabel f).outcome = .ok (chunk.relabel f) := by
  cases reports : c.reports with
  | nil =>
    simp only [outcome, reports] at ok
    cases ok
    simp [outcome, relabel, reports]
  | cons => simp [outcome, reports] at ok

theorem error_relabel {d : Diagnostic} (failed : c.outcome = .error d) (f : Nat → Nat) :
    (c.relabel f).outcome = .error (d.relabel f) := by
  cases reports : c.reports with
  | nil => simp [outcome, reports] at failed
  | cons =>
    simp only [outcome, reports] at failed
    cases failed
    simp [outcome, relabel, reports]

end Compilation

theorem compile_numbered (source : String) : compile source =
    ((Compilation.ofScript (Script.ofString source).numbered).relabel
      (Script.ofString source).lineAt).outcome := by
  rw [← Compilation.ofScript_relabel, Script.numbered_relabel]
  rfl

end StackCalc
