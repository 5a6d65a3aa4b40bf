import StackCalc.Proofs.Expression.Outlook
import StackCalc.Proofs.Expression.Postorder
import StackCalc.Proofs.Expression.Reports
import StackCalc.Proofs.Expression.Roles

namespace StackCalc

inductive Blames : Outlook → Nat → Token → Category → Prop where
  | grammar {s : Outlook} {count : Nat} {t : Token} : s.step maxNesting t.kind = none →
      (t.kind = .endOfInput → s ≠ .operator []) → Blames s count t .grammar
  | capacity {opened : List Mark} {count : Nat} {t : Token} : t.kind = .number →
      count = 65536 → Blames (.operand opened) count t .capacity

def Blamed (s : Outlook) (count : Nat) (stream : List Token) (d : Diagnostic) : Prop :=
  ∃ before t after s' complaint, stream = before ++ t :: after ∧
    s.read maxNesting before = some s' ∧ d = .about t complaint ∧
    Blames s' (count + before.countP Token.isNumber) t complaint.category

theorem Blames.here {s : Outlook} {count : Nat} {t : Token} {complaint : Complaint}
    (blames : Blames s count t complaint.category) (after : List Token) :
    Blamed s count (t :: after) (.about t complaint) :=
  ⟨[], t, after, s, complaint, rfl, rfl, rfl, blames⟩

theorem Blamed.later {s s' : Outlook} {count count' : Nat} {ts stream : List Token}
    {d : Diagnostic} (read : s.read maxNesting ts = some s')
    (counted : count' = count + ts.countP Token.isNumber) (blamed : Blamed s' count' stream d) :
    Blamed s count (ts ++ stream) d := by
  obtain ⟨before, t, after, s'', complaint, rfl, reached, about, blames⟩ := blamed
  refine ⟨ts ++ before, t, after, s'', complaint, by simp, ?_, about, ?_⟩
  · rw [Outlook.read_append read, reached]
  · rw [List.countP_append, ← Nat.add_assoc, ← counted]
    exact blames

namespace Progress

def stream (p : Progress) : List Token := p.left ++ [.ending p.endLine]

/-- Where reading can go on: nothing reported, no fault ahead, and room for what was written. -/
structure Ready (p : Progress) : Prop where
  silent : p.reports = #[]
  sound : ∀ t ∈ p.left, t.isFault = false
  cut : ∀ t ∈ p.left, t.Cut
  room : p.chunk.constants.size ≤ 65536

structure Reading (level : Level) (opened : List Mark) (p q : Progress) (ts : List Token)
    (e : Tree) : Prop where
  left : p.left = ts ++ q.left
  endLine : q.endLine = p.endLine
  derives : Derives level ts e
  shallow : opened.length + e.nesting ≤ maxNesting
  emitted : Emitted e p.chunk q.chunk
  ready : Ready q

/-- What reading at a level comes to: an expression that does not go on, or a report. -/
def Outcome (level : Level) (opened : List Mark) (p q : Progress) : Prop :=
  (∃ ts e, Reading level opened p q ts e ∧ q.operator? level = none) ∨
    ∃ d, q.first? = some d ∧ Blamed (.operand opened) p.chunk.constants.size p.stream d

variable {level : Level} {opened : List Mark} {p q : Progress} {ts : List Token} {e : Tree}

@[simp] theorem lookahead_nil (left : p.left = []) : p.lookahead = .ending p.endLine := by
  simp [lookahead, left]

@[simp] theorem lookahead_cons {t : Token} {rest : List Token} (left : p.left = t :: rest) :
    p.lookahead = t := by
  simp [lookahead, left]

theorem settle_sound (sound : ∀ t ∈ p.left, t.isFault = false) : p.settle = p := by
  cases left : p.left with
  | nil => cases p; simp_all [settle, passFaults]
  | cons t rest =>
    have no_fault := sound t (by simp [left])
    have passed : passFaults (t :: rest) p.reports = (t :: rest, p.reports) := by
      unfold Token.isFault at no_fault
      simp only [passFaults]
      split <;> simp_all
    cases p
    simp_all [settle]

theorem Ready.advance_nil (ready : Ready p) (left : p.left = []) : p.advance = p := by
  have same : { p with left := p.left.tail } = p := by cases p; simp_all
  rw [advance, same, settle_sound ready.sound]

theorem Ready.advance_cons (ready : Ready p) {t : Token} {rest : List Token}
    (left : p.left = t :: rest) : p.advance = { p with left := rest } := by
  have sound := ready.sound
  rw [advance, left, List.tail_cons]
  apply settle_sound
  intro u hu
  exact sound u (by simp [left, hu])

theorem Ready.next (ready : Ready p) {t : Token} {rest : List Token} (left : p.left = t :: rest) :
    Ready { p with left := rest } where
  silent := ready.silent
  sound u hu := ready.sound u (by simp [left, hu])
  cut u hu := ready.cut u (by simp [left, hu])
  room := ready.room

theorem first_report (silent : p.reports = #[]) (t : Token) (complaint : Complaint) :
    (p.report t complaint).first? = some (.about t complaint) := by
  simp [first?, report, silent]

theorem operator_eq_some {op : BinaryOp} : p.operator? level = some op ↔
    Role.ofKind p.lookahead.kind = .operator op ∧ level.admits op = true := by
  unfold operator?
  split
  · rename_i found role
    split
    · rename_i admits
      constructor
      · rintro ⟨⟩
        exact ⟨role, admits⟩
      · rintro ⟨same, _⟩
        rw [role] at same
        cases same
        rfl
    · rename_i admits
      constructor
      · nofun
      · rintro ⟨same, admitted⟩
        rw [role] at same
        cases same
        exact absurd admitted admits
  · rename_i none_due
    constructor
    · nofun
    · rintro ⟨role, _⟩
      exact absurd role (none_due op)

theorem operator_cons {op : BinaryOp} (h : p.operator? level = some op) :
    ∃ sign rest, p.left = sign :: rest ∧ Role.ofKind sign.kind = .operator op ∧
      level.admits op = true := by
  obtain ⟨role, admits⟩ := operator_eq_some.mp h
  cases left : p.left with
  | nil =>
    rw [lookahead_nil left] at role
    cases role
  | cons sign rest =>
    rw [lookahead_cons left] at role
    exact ⟨sign, rest, rfl, role, admits⟩

theorem home_of_stopped {op : BinaryOp} (stopped : p.operator? .product = none)
    (due : p.operator? level = some op) : op.home = .sum := by
  have role := (operator_eq_some.mp due).1
  cases op with
  | add | subtract => rfl
  | multiply =>
    rw [operator_eq_some.mpr ⟨role, rfl⟩] at stopped
    cases stopped
  | divide =>
    rw [operator_eq_some.mpr ⟨role, rfl⟩] at stopped
    cases stopped

/-- A report made inside counts for the whole, since nothing before it was reported. -/
theorem Outcome.of_blamed {s : Outlook} {r : Progress} {d : Diagnostic}
    (left : p.left = ts ++ q.left) (endLine : q.endLine = p.endLine)
    (read : Outlook.read maxNesting (.operand opened) ts = some s)
    (counted : q.chunk.constants.size = p.chunk.constants.size + ts.countP Token.isNumber)
    (blamed : Blamed s q.chunk.constants.size q.stream d) (first : r.first? = some d) :
    Outcome level opened p r := by
  have stream : p.stream = ts ++ q.stream := by simp [Progress.stream, left, endLine]
  exact .inr ⟨d, first, stream ▸ blamed.later read counted⟩

theorem Reading.counted (reading : Reading level opened p q ts e) :
    q.chunk.constants.size = p.chunk.constants.size + ts.countP Token.isNumber := by
  rw [reading.emitted.size, List.countP_eq_length_filter, reading.derives.filter_numbers]

theorem Reading.read (reading : Reading level opened p q ts e)
    (settled : level = .operand ∨ Mark.settle opened = opened) :
    Outlook.read maxNesting (.operand opened) ts = some (.operator (Mark.settle opened)) :=
  Outlook.read_derives reading.derives opened settled reading.shallow

end Progress
end StackCalc
