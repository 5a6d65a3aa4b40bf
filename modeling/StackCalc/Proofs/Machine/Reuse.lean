import StackCalc.Machine.Run

namespace StackCalc

namespace Sink

def Takes (s : Sink) (text : String) : Prop := ∃ left, s.write text = .ok left

@[simp] theorem takes_working (text : String) : working.Takes text := ⟨.working, rfl⟩

@[simp] theorem takes_limited (room : Nat) (reason text : String) :
    (limited room reason).Takes text ↔ text.length ≤ room := by
  by_cases fits : text.length ≤ room
  · simp [Takes, write, fits]
  · simp [Takes, write, fits]

theorem takes_of_write {s left : Sink} {front : String} (written : s.write front = .ok left)
    (behind : String) : s.Takes (front ++ behind) ↔ left.Takes behind := by
  cases s with
  | working =>
    cases written
    simp
  | limited room reason =>
    have fits : front.length ≤ room := (takes_limited room reason front).mp ⟨left, written⟩
    obtain rfl : .limited (room - front.length) reason = left := by
      simpa [write, fits] using written
    rw [takes_limited, takes_limited, String.length_append]
    omega

theorem not_takes_of_write {s : Sink} {torn : Torn} {front : String}
    (written : s.write front = .error torn) (behind : String) : ¬ s.Takes (front ++ behind) := by
  cases s with
  | working => cases written
  | limited room reason =>
    have long : ¬ front.length ≤ room := by
      rw [← takes_limited room reason front]
      rintro ⟨left, fits⟩
      rw [fits] at written
      cases written
    rw [takes_limited, String.length_append]
    omega

end Sink

namespace Tape

/-- Lines fit one after the other exactly if they fit as one text. -/
@[simp] theorem write_fits (tape : Tape) (lines : List TraceLine) :
    (tape.write lines).2 = none ↔ tape.sink.Takes (Text.unlines (lines.map TraceLine.text)) := by
  induction lines generalizing tape with
  | nil =>
    cases tape.sink with
    | working => simp [write, Text.unlines]
    | limited room reason => simp [write, Text.unlines]
  | cons line lines ih =>
    cases written : tape.sink.write (line.text ++ "\n") with
    | ok left => simp [write, written, ih, Sink.takes_of_write written]
    | error torn => simp [write, written, Sink.not_takes_of_write written]

@[simp] theorem observe_fits (tape : Tape) (console : Console) (lines : List TraceLine) :
    (tape.observe console lines).2 = none ↔
      (console.debug = true → tape.sink.Takes (Text.unlines (lines.map TraceLine.text))) := by
  unfold observe
  split
  · simp [*]
  · simp [*]

end Tape

@[simp] theorem Chunk.announce_fits (chunk : Chunk) (console : Console) :
    (chunk.announce console).2 = none ↔
      (console.debug = true → console.trace.Takes (chunk.listingText "code")) := by
  have lines : ((chunk.listing "code").map TraceLine.listing).map TraceLine.text =
      chunk.listing "code" := by
    rw [List.map_map]
    exact List.map_id _
  simp [announce, lines, Tape.blank, Tape.note, listingText]

namespace Machine

/-- A chunk comes to run: the text compiles and, with `debug`, its listing fits into the trace. -/
def Task.Starts (console : Console) : Task → Prop
  | .source text => ∃ chunk, compile text = .ok chunk ∧
    (console.debug = true → console.trace.Takes (chunk.listingText "code"))
  | .chunk _ => True

variable {console : Console} {task : Task}

theorem run_of_starts (m : Machine) (starts : task.Starts console) :
    m.run console task = new.run console task := by
  cases task with
  | chunk chunk => rfl
  | source text =>
    obtain ⟨chunk, ok, fits⟩ := starts
    have compiles : (Compilation.ofString text).outcome = .ok chunk := ok
    have announced := (chunk.announce_fits console).mpr fits
    simp only [run, interpret, compiles]
    generalize chunk.announce console = written at announced ⊢
    obtain ⟨tape, failure⟩ := written
    cases announced
    rfl

/-- Where no chunk comes to run, only the stack tells machines apart, and it stays as it is. -/
theorem run_of_not_starts (m : Machine) (idle : ¬ task.Starts console) :
    m.run console task = { new.run console task with stack := m.stack } := by
  cases task with
  | chunk chunk => exact absurd trivial idle
  | source text =>
    cases compiles : (Compilation.ofString text).outcome with
    | error d => simp only [run, interpret, compiles]
    | ok chunk =>
      have unannounced : (chunk.announce console).2 ≠ none := by
        intro announced
        exact idle ⟨chunk, compiles, (chunk.announce_fits console).mp announced⟩
      simp only [run, interpret, compiles]
      generalize chunk.announce console = written at unannounced ⊢
      obtain ⟨tape, failure⟩ := written
      cases failure with
      | some reason => rfl
      | none => exact absurd rfl unannounced

def after (m : Machine) : List (Console × Task) → Machine
  | [] => m
  | (console, task) :: calls => (ofRun (m.run console task)).after calls

/-- What a chunk without an end left over is still there behind a text that does not compile. -/
example : new.after [(.quiet, .chunk ⟨#[⟨0x01, 1⟩, ⟨0x00, 1⟩], #[.zero]⟩), (.quiet, .source ")")] =
    ⟨[.zero]⟩ := by decide

/-- Nothing of earlier calls shows in the next one but the stack, and that only if no chunk starts
to run. -/
theorem reused_as_new (m : Machine) (history : List (Console × Task)) (console : Console)
    (task : Task) :
    ((m.after history).run console task).result = (new.run console task).result ∧
    ((m.after history).run console task).log = (new.run console task).log ∧
    ((m.after history).run console task).outputText = (new.run console task).outputText ∧
    ((m.after history).run console task).traceText = (new.run console task).traceText ∧
    (task.Starts console →
      ((m.after history).run console task).stack = (new.run console task).stack) ∧
    (¬ task.Starts console →
      ((m.after history).run console task).stack = (m.after history).stack) := by
  by_cases starts : task.Starts console
  · rw [run_of_starts _ starts]
    exact ⟨rfl, rfl, rfl, rfl, fun _ => rfl, fun idle => absurd starts idle⟩
  · rw [run_of_not_starts _ starts]
    exact ⟨rfl, rfl, rfl, rfl, fun started => absurd started starts, fun _ => rfl⟩

end Machine
end StackCalc
