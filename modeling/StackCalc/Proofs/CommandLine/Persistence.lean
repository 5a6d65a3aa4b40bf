import StackCalc.CommandLine.Commands
import StackCalc.Proofs.CommandLine.Saving
import StackCalc.Proofs.Expression.Extent
import StackCalc.Proofs.Machine.Course

namespace StackCalc.CommandLine

theorem toList_loop (bytes : ByteArray) (i : Nat) (seen : List UInt8) :
    ByteArray.toList.loop bytes i seen = seen.reverse ++ bytes.data.toList.drop i := by
  fun_induction ByteArray.toList.loop bytes i seen with
  | case1 i seen inside ih =>
    have within : i < bytes.data.size := by simpa using inside
    have here : bytes.data.toList.drop i = bytes.get! i :: bytes.data.toList.drop (i + 1) := by
      rw [List.drop_eq_getElem_cons (by simpa using within)]
      simp [ByteArray.get!, getElem!_pos bytes.data i within]
    rw [ih, here]
    simp
  | case2 i seen behind =>
    have nothing : bytes.data.toList.drop i = [] := List.drop_of_length_le (by simpa using behind)
    simp [nothing]

theorem toList_mk (bytes : List UInt8) : (ByteArray.mk bytes.toArray).toList = bytes := by
  rw [ByteArray.toList, toList_loop]
  simp

theorem imageOf_saved {chunk : Chunk} {image : List UInt8}
    (encoded : Image.encode chunk = .ok image) (path : String) :
    imageOf path (.ok ⟨image.toArray⟩) = .ok chunk := by
  simp only [imageOf, toList_mk, Image.encode_iff_decode.mp encoded]

section Reports

variable {source path : String} {contents : Contents}

theorem interpret_report {chunk : Chunk} (ok : compile source = .ok chunk) :
    Report.ofRun (Machine.new.interpret (console false) source) =
      Report.ofRun (Machine.new.execute (console false) chunk) := by
  rw [Machine.interpret_course ok (by nofun), Machine.execute_course (by nofun)]
  rfl

theorem runFile_ok {chunk : Chunk} (read : sourceOf path contents = .ok source)
    (ok : compile source = .ok chunk) :
    runFile false path contents = .ofRun (Machine.new.execute (console false) chunk) := by
  simp only [runFile, read]
  exact interpret_report ok

theorem compileFile_ok {chunk : Chunk} {image : List UInt8}
    (read : sourceOf path contents = .ok source) (ok : compile source = .ok chunk)
    (encoded : Image.encode chunk = .ok image) :
    compileFile false path contents = .ok ⟨⟨image.toArray⟩, ""⟩ := by
  simp only [compileFile, read, ok, encoded]
  rfl

theorem refused_alike {d : Diagnostic} (read : sourceOf path contents = .ok source)
    (refused : compile source = .error d) :
    compileFile false path contents = .error (runFile false path contents) ∧
      runFile false path contents = ⟨1, ⟨"", d.message ++ "\n"⟩⟩ := by
  have answered := Machine.interpret_refused refused (console false) .new
  have ran : runFile false path contents = ⟨1, ⟨"", d.message ++ "\n"⟩⟩ := by
    simp only [runFile, read, answered, Report.ofRun, Written.ofRun, Failure.message]
    simp [Run.traceText, Text.unlines]
  have said : Report.failure "" (.compile d) = ⟨1, ⟨"", "" ++ d.message ++ "\n"⟩⟩ := rfl
  rw [String.empty_append] at said
  refine ⟨?_, ran⟩
  rw [ran, ← said]
  simp only [compileFile, read, refused]

end Reports

def Directory.HoldsText (d : Directory) (path source : String) : Prop :=
  ∃ bytes, d.load path = .ok bytes ∧ String.fromUTF8? bytes = some source

def Directory.Writable (d : Directory) (path : String) : Prop :=
  ∀ bytes, ∃ d', d.save path bytes = .ok d'

theorem Directory.HoldsText.sourceOf {d : Directory} {path source : String}
    (text : d.HoldsText path source) : sourceOf path (d.load path) = .ok source := by
  obtain ⟨bytes, loaded, valid⟩ := text
  simp only [CommandLine.sourceOf, loaded, valid]

/-- To compile a text into a file and to execute that file is to run the text. -/
theorem compile_then_exec {d : Directory} {f o source : String}
    {compiling running executing : List String}
    (compiles : read compiling = .ok ⟨false, .compile f o⟩)
    (runs : read running = .ok ⟨false, .run f⟩) (executes : read executing = .ok ⟨false, .exec o⟩)
    (text : d.HoldsText f source) (few_lines : source.toList.count '\n' < 2 ^ 32 - 1)
    (writable : d.Writable o) (apart : d.locate o.toList ≠ d.locate f.toList)
    (input input' : List UInt8) :
    ((∃ chunk, compile source = .ok chunk) →
      ∃ d', program compiling d input = (⟨0, ⟨"", ""⟩⟩, d') ∧
        (program executing d' input').1 = (program running d input').1 ∧
        (program executing d' input').1 = (program running d' input').1) ∧
    ((¬ ∃ chunk, compile source = .ok chunk) →
      (program compiling d input).1.exit ≠ 0 ∧
      (program compiling d input).1.written = (program running d input').1.written ∧
      (program compiling d input).1.written.stdout = "" ∧
      (program compiling d input).2 = d) := by
  have readable := text.sourceOf
  have run_eq (d : Directory) :
      (program running d input').1 = runFile false f (d.load f) := by
    simp only [program, runs, Invocation.perform]
  constructor
  · rintro ⟨chunk, ok⟩
    have encoded : Image.encode chunk = .ok (Image.layOut chunk) :=
      Image.encode_eq_ok.mpr ⟨compile_fits ok few_lines, rfl⟩
    obtain ⟨d', saved⟩ := writable ⟨(Image.layOut chunk).toArray⟩
    have executed : (program executing d' input').1 =
        .ofRun (Machine.new.execute (console false) chunk) := by
      simp only [program, executes, Invocation.perform, execFile, Directory.load_saved saved,
        imageOf_saved encoded]
    have loaded_still : d'.HoldsText f source := by
      obtain ⟨bytes, loaded, valid⟩ := text
      exact ⟨bytes, Directory.load_other saved loaded apart, valid⟩
    refine ⟨d', ?_, ?_, ?_⟩
    · simp only [program, compiles, Invocation.perform, compileFile_ok readable ok encoded, saved]
      rfl
    · rw [executed, run_eq, runFile_ok readable ok]
    · rw [executed, run_eq, runFile_ok loaded_still.sourceOf ok]
  · intro fails
    obtain ⟨e, refused⟩ : ∃ e, compile source = .error e := by
      cases outcome : compile source with
      | ok chunk => exact absurd ⟨chunk, outcome⟩ fails
      | error e => exact ⟨e, rfl⟩
    obtain ⟨made, ran⟩ := refused_alike readable refused
    have ended : program compiling d input = (runFile false f (d.load f), d) := by
      simp only [program, compiles, Invocation.perform, made]
    rw [ended, run_eq, ran]
    exact ⟨show (1 : UInt8) ≠ 0 by decide, rfl, rfl, rfl⟩

theorem compile_then_exec_group : ∃ d d' : Directory,
    program ["compile", "sum", "-o", "image"] d [] = (⟨0, ⟨"", ""⟩⟩, d') ∧
      (program ["exec", "image"] d' []).1 = (program ["run", "sum"] d []).1 := by
  let d : Directory := ⟨[([['s', 'u', 'm']], "(1+\n2)".toByteArray)]⟩
  have compiles : read ["compile", "sum", "-o", "image"] =
      .ok ⟨false, .compile "sum" "image"⟩ := by decide +kernel
  have runs : read ["run", "sum"] = .ok ⟨false, .run "sum"⟩ := by decide
  have executes : read ["exec", "image"] = .ok ⟨false, .exec "image"⟩ := by decide
  have text : d.HoldsText "sum" "(1+\n2)" := ⟨_, rfl, by decide⟩
  have writable : d.Writable "image" := fun _ => ⟨_, rfl⟩
  have apart : d.locate "image".toList ≠ d.locate "sum".toList := by decide
  have ok : compile "(1+\n2)" = .ok ⟨#[⟨1, 1⟩, ⟨0, 1⟩, ⟨1, 2⟩, ⟨1, 2⟩, ⟨4, 1⟩, ⟨0, 2⟩],
      #[⟨0x3FF0000000000000⟩, ⟨0x4000000000000000⟩]⟩ := by decide +kernel
  obtain ⟨d', made, executed, -⟩ := (compile_then_exec compiles runs executes text (by decide)
    writable apart [] []).1 ⟨_, ok⟩
  exact ⟨d, d', made, executed⟩

end StackCalc.CommandLine
