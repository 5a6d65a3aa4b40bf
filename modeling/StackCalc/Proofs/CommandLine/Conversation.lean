import StackCalc.CommandLine.Commands
import StackCalc.Proofs.Expression.Extent
import StackCalc.Proofs.Machine.Evaluation

namespace StackCalc

theorem Text.trim_blank {c : Char} (blank : Text.isBlank c = true) {text : List Char}
    (last_only : c ∉ text.dropLast) : c ∉ Text.trim text := by
  intro kept
  have kept := List.mem_reverse.mp kept
  have tail : text.dropWhile isBlank <:+ text := List.dropWhile_suffix _
  generalize text.dropWhile isBlank = rest at kept tail
  rcases List.eq_nil_or_concat rest with rfl | ⟨front, last, rfl⟩
  · simp at kept
  · have inside : ∀ x ∈ front, x ∈ text.dropLast := by
      intro x hx
      obtain ⟨before, rfl⟩ := tail
      simp [hx]
    simp only [List.concat_eq_append, List.reverse_append, List.reverse_singleton,
      List.singleton_append] at kept
    by_cases last_blank : isBlank last = true
    · rw [List.dropWhile_cons_of_pos last_blank] at kept
      have := (List.dropWhile_suffix _).mem kept
      exact last_only (inside c (List.mem_reverse.mp this))
    · rw [List.dropWhile_cons_of_neg last_blank] at kept
      rcases List.mem_cons.mp kept with rfl | before
      · exact last_blank blank
      · exact last_only (inside c (List.mem_reverse.mp before))

namespace CommandLine.Session

/-- Bytes cut into lines, each with its line feed. The last one may be without. -/
inductive Lines : List UInt8 → List (List UInt8) → Prop where
  | nil : Lines [] []
  | last {line : List UInt8} : line ≠ [] → 10 ∉ line → Lines line [line]
  | cons {front input : List UInt8} {lines : List (List UInt8)} : 10 ∉ front →
      Lines input lines → Lines (front ++ 10 :: input) ((front ++ [10]) :: lines)

variable {input : List UInt8} {lines : List (List UInt8)}

theorem cutLines_lines {current : List UInt8} (unbroken : 10 ∉ current)
    (seen : List (List UInt8)) : ∃ lines, Lines (current.reverse ++ input) lines ∧
      cutLines input current seen = seen.reverse ++ lines := by
  induction input generalizing current seen with
  | nil =>
    rw [List.append_nil]
    cases current with
    | nil => exact ⟨[], .nil, (List.append_nil _).symm⟩
    | cons byte current =>
      refine ⟨[(byte :: current).reverse], .last ?_ ?_, List.reverse_cons⟩
      · rw [ne_eq, List.reverse_eq_nil_iff]
        exact List.cons_ne_nil byte current
      · rw [List.mem_reverse]
        exact unbroken
  | cons byte input ih =>
    by_cases feed : byte = 10
    · subst feed
      obtain ⟨lines, split, cut⟩ := ih List.not_mem_nil ((10 :: current).reverse :: seen)
      refine ⟨(current.reverse ++ [10]) :: lines, .cons ?_ split, ?_⟩
      · simpa using unbroken
      · rw [cutLines, if_pos rfl, cut]
        simp
    · have longer : 10 ∉ byte :: current := by
        rw [List.mem_cons, not_or]
        exact ⟨fun same => feed same.symm, unbroken⟩
      obtain ⟨lines, split, cut⟩ := ih longer seen
      rw [List.reverse_cons, List.append_assoc, List.singleton_append] at split
      refine ⟨lines, split, ?_⟩
      rw [cutLines, if_neg feed, cut]

theorem linesOf_lines (input : List UInt8) : Lines input (linesOf input) := by
  obtain ⟨lines, split, cut⟩ := cutLines_lines List.not_mem_nil []
  rw [linesOf, cut]
  exact split

theorem Lines.unbroken (split : Lines input lines) : ∀ line ∈ lines, 10 ∉ line.dropLast := by
  induction split with
  | nil => simp
  | last some_bytes unbroken =>
    rw [List.forall_mem_singleton]
    exact fun inside => unbroken (List.dropLast_subset _ inside)
  | cons unbroken _ ih =>
    rw [List.forall_mem_cons, List.dropLast_concat]
    exact ⟨unbroken, ih⟩

theorem textOf_bytes {line : List UInt8} {text : String} (valid : textOf? line = some text) :
    line = text.toList.flatMap String.utf8EncodeChar := by
  have encoded : text.toByteArray = ⟨line.toArray⟩ := by
    unfold textOf? String.fromUTF8? at valid
    split at valid <;> cases valid
    rfl
  have bytes := congrArg (fun bytes => bytes.data.toList)
    ((String.utf8Encode_toList (b := text)).trans encoded)
  simpa [List.utf8Encode] using bytes.symm

theorem textOf_unbroken {line : List UInt8} {text : String} (valid : textOf? line = some text)
    (unbroken : 10 ∉ line.dropLast) : '\n' ∉ text.toList.dropLast := by
  intro feed
  rw [textOf_bytes valid] at unbroken
  apply unbroken
  rcases List.eq_nil_or_concat text.toList with blank | ⟨front, last, split⟩
  · rw [blank] at feed
    cases feed
  · rw [split, List.concat_eq_append] at feed ⊢
    rw [List.dropLast_concat] at feed
    rw [List.flatMap_append, List.flatMap_singleton,
      List.dropLast_append_of_ne_nil String.utf8EncodeChar_ne_nil]
    have encoded : (10 : UInt8) ∈ String.utf8EncodeChar '\n' := by decide
    exact List.mem_append_left _ (List.mem_flatMap.mpr ⟨'\n', feed, encoded⟩)

/-- The answer of a new machine to a line alone, if there is anything to answer to. -/
def reply? (text : String) : Option (Except Failure Number) :=
  let source := Text.trim text.toList
  if source = [] then none
  else some (Machine.new.interpret .quiet (String.ofList source)).result

def said : Option (Except Failure Number) → Written
  | none => .nothing
  | some (.ok value) => ⟨value.text ++ "\n", ""⟩
  | some (.error failure) => ⟨"", failure.message ++ "\n"⟩

theorem run_said (course : Course) (chunk : Chunk) (log : List Record) :
    Written.ofRun (course.run chunk .quiet ⟨[], "", log, .working⟩) =
      said (some (course.run chunk .quiet ⟨[], "", log, .working⟩).result) := by
  obtain ⟨visits, ending⟩ := course
  cases ending with
  | returned value stack => rfl
  | failed e stack =>
    simp [Course.run, Written.ofRun, said, Ending.result, Ending.outputText, Run.traceText,
      Console.quiet, Text.unlines]

theorem interpret_said (m : Machine) (source : String) :
    Written.ofRun (m.interpret .quiet source) =
      said (some (Machine.new.interpret .quiet source).result) := by
  cases outcome : compile source with
  | ok chunk =>
    rw [Machine.interpret_course outcome (by nofun), Machine.interpret_course outcome (by nofun)]
    exact run_said _ _ _
  | error d =>
    rw [Machine.interpret_refused outcome, Machine.interpret_refused outcome]
    simp [Written.ofRun, said, Run.traceText, Text.unlines]

theorem answer_said (m : Machine) (text : String) :
    (answer false m text).1 = said (reply? text) := by
  unfold answer reply?
  by_cases blank : Text.trim text.toList = []
  · simp only [if_pos blank]
    rfl
  · simp only [if_neg blank]
    exact interpret_said m _

theorem interpret_ok {source : String} {chunk : Chunk} (ok : compile source = .ok chunk) :
    ∃ value, (Machine.new.interpret .quiet source).result = .ok value := by
  obtain ⟨-, e, compiled⟩ := compiled_of_ok ok
  obtain ⟨tape, ran, traces, -⟩ := Machine.interpret_compiled .new .quiet rfl ok
  obtain ⟨value, -, result, -⟩ := compiled.load .new .quiet rfl traces
  exact ⟨value, (congrArg Run.result ran).trans result⟩

theorem reply_error {text : String} {failure : Failure} (unbroken : '\n' ∉ text.toList.dropLast)
    (refused : reply? text = some (.error failure)) :
    ∃ d, failure = .compile d ∧ d.line = 1 ∧ failure.message =
      "[line 1] error" ++ (d.place.display ++ ": " ++ d.complaint.detail) := by
  have one_line : '\n' ∉ Text.trim text.toList := Text.trim_blank (by decide) unbroken
  simp only [reply?] at refused
  split at refused
  · cases refused
  · generalize Text.trim text.toList = source at refused one_line
    have failed := Option.some.inj refused
    cases outcome : compile (String.ofList source) with
    | ok chunk =>
      obtain ⟨value, result⟩ := interpret_ok outcome
      cases result.symm.trans failed
    | error d =>
      have answered := congrArg Run.result (Machine.interpret_refused outcome .quiet .new)
      obtain rfl : .compile d = failure := Except.error.inj (answered.symm.trans failed)
      have within := compile_error_line outcome
      rw [String.toList_ofList, List.count_eq_zero.mpr one_line] at within
      have line : d.line = 1 := Nat.le_antisymm within.2 within.1
      have front : "[line " ++ toString 1 ++ "] error" = "[line 1] error" := by decide
      refine ⟨d, rfl, line, ?_⟩
      rw [Failure.message, Diagnostic.message, line, front]
      simp only [String.append_assoc]

def transcript (texts : List String) : Written where
  stdout := String.join (texts.map fun text => prompt ++ (said (reply? text)).stdout)
  stderr := String.join (texts.map fun text => (said (reply? text)).stderr)

theorem converse_texts {front : List (List UInt8)} {texts : List String}
    (valid : front.map textOf? = texts.map some) (rest : List (List UInt8)) (m : Machine)
    (written : Written) : ∃ m', converse false (front ++ rest) m written =
      converse false rest m' (written.append (transcript texts)) := by
  induction front generalizing texts m written with
  | nil =>
    obtain rfl : texts = [] := List.map_eq_nil_iff.mp valid.symm
    refine ⟨m, congrArg (converse false rest m) ?_⟩
    simp [transcript, Written.append]
  | cons line front ih =>
    cases texts with
    | nil => cases valid
    | cons text texts =>
      obtain ⟨here, later⟩ := List.cons.inj valid
      obtain ⟨m', rest_eq⟩ := ih later (answer false m text).2
        ((written.append ⟨prompt, ""⟩).append (answer false m text).1)
      refine ⟨m', ?_⟩
      rw [answer_said] at rest_eq
      rw [List.cons_append, converse]
      simp only [here, answer_said, rest_eq]
      simp [transcript, Written.append, String.append_assoc]

theorem converse_unreadable {line : List UInt8} (invalid : textOf? line = none)
    (rest : List (List UInt8)) (m : Machine) (written : Written) :
    converse false (line :: rest) m written =
      (written.append ⟨prompt, unreadable ++ "\n"⟩, false) := by
  simp [converse, invalid, Written.append]

/-- A conversation is its lines, each one answered alone, for as long as they are text. -/
theorem lines_independent {arguments : List String}
    (reads : read arguments = .ok ⟨false, .repl⟩) (d : Directory) (input : List UInt8) :
    Lines input (linesOf input) ∧
    ∀ texts later, (linesOf input).map textOf? = texts.map some ++ later →
      (later = [] → program arguments d input =
        (⟨0, ⟨banner ++ (transcript texts).stdout ++ "> ", (transcript texts).stderr⟩⟩, d)) ∧
      (∀ ignored, later = none :: ignored → program arguments d input =
        (⟨1, ⟨banner ++ (transcript texts).stdout ++ "> ", (transcript texts).stderr ++
          "Terminal IO failed: stream did not contain valid UTF-8\n"⟩⟩, d)) ∧
      ∀ text ∈ texts, ∀ failure, reply? text = some (.error failure) →
        ∃ e, failure = .compile e ∧ e.line = 1 ∧ failure.message =
          "[line 1] error" ++ (e.place.display ++ ": " ++ e.complaint.detail) := by
  have split := linesOf_lines input
  refine ⟨split, ?_⟩
  intro texts later readable
  have ended {written : Written} {fine : Bool} (outcome : whole false input = (written, fine)) :
      program arguments d input = (⟨if fine then 0 else 1, written⟩, d) := by
    cases fine <;> simp [program, reads, Invocation.perform, CommandLine.converse, outcome]
  obtain ⟨front, rest, lines, valid, ahead⟩ := List.map_eq_append_iff.mp readable
  obtain ⟨m, told⟩ := converse_texts valid rest .new ⟨banner, ""⟩
  have opened : whole false input = converse false rest m (Written.append ⟨banner, ""⟩
      (transcript texts)) := by
    rw [whole, lines, told]
  refine ⟨?_, ?_, ?_⟩
  · rintro rfl
    obtain rfl := List.map_eq_nil_iff.mp ahead
    rw [ended opened]
    simp [Written.append, prompt]
  · rintro ignored rfl
    obtain ⟨line, others, rfl, invalid, -⟩ := List.map_eq_cons_iff.mp ahead
    rw [converse_unreadable invalid] at opened
    rw [ended opened]
    simp [Written.append, prompt, unreadable, String.append_assoc]
  · intro text member failure refused
    obtain ⟨line, within, text_eq⟩ := List.mem_map.mp (valid ▸ List.mem_map_of_mem member)
    have unbroken := split.unbroken line (by simp [lines, within])
    exact reply_error (textOf_unbroken text_eq unbroken) refused

theorem lines_independent_unreadable : program ["repl"] ⟨[]⟩ [10, 41, 10, 255] =
    (⟨1, ⟨banner ++ "> > " ++ "> ", "[line 1] error at ')': expect expression\n" ++
      "Terminal IO failed: stream did not contain valid UTF-8\n"⟩⟩, ⟨[]⟩) := by
  have reads : read ["repl"] = .ok ⟨false, .repl⟩ := by decide
  have readable : (linesOf [10, 41, 10, 255]).map textOf? =
      ["\n", ")\n"].map some ++ [none] := by decide
  have written : transcript ["\n", ")\n"] =
      ⟨"> > ", "[line 1] error at ')': expect expression\n"⟩ := by decide +kernel
  have told := ((lines_independent reads ⟨[]⟩ [10, 41, 10, 255]).2 _ _ readable).2.1 [] rfl
  rw [written] at told
  exact told

end CommandLine.Session
end StackCalc
