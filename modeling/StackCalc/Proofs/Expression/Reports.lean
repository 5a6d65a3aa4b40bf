import StackCalc.Expression.Compile

/-! What reading an expression keeps up, whatever the tokens. Reading is made of three acts: going
past a token, reporting, and writing code. A relation that each act keeps up holds between the
start and the end of any piece of reading. From it follow three facts: a report is never dropped,
tokens are used up from the front only, and each fault passed is reported once, in order. -/
namespace StackCalc.Progress

/-- A relation that every act of reading keeps up. Faults are reported where tokens are passed, and
nowhere else. -/
structure Kept (R : Progress → Progress → Prop) : Prop where
  refl (p : Progress) : R p p
  trans {p q r : Progress} : R p q → R q r → R p r
  advance (p : Progress) : R p p.advance
  report (p : Progress) (t : Token) (complaint : Complaint) :
    complaint.category ≠ .lexical → R p (p.report t complaint)
  write (p : Progress) (chunk : Chunk) : R p { p with chunk }

namespace Kept

variable {R : Progress → Progress → Prop} (kept : Kept R)

include kept

theorem consume (p : Progress) (kind : Kind) (complaint : Complaint)
    (syntactic : complaint.category ≠ .lexical) : R p (p.consume kind complaint) := by
  unfold Progress.consume
  split
  · exact kept.advance p
  · exact kept.report p _ complaint syntactic

theorem emit (p : Progress) (op : Opcode) (line : Nat) : R p (p.emit op line) :=
  kept.write p _

theorem emitLoad (p : Progress) (index line : Nat) : R p (p.emitLoad index line) := by
  unfold Progress.emitLoad
  split
  · exact kept.write p _
  · exact kept.write p _

theorem emitConstant (p : Progress) (t : Token) (value : Number) :
    R p (p.emitConstant t value) := by
  simp only [Progress.emitConstant]
  refine kept.trans (kept.write p (p.chunk.addConstant value).2) ?_
  split
  · exact kept.emitLoad _ _ _
  · exact kept.report _ t .tooManyConstants (by decide)

theorem emitLiteral (p : Progress) (t : Token) : R p (p.emitLiteral t) := by
  unfold Progress.emitLiteral
  split
  · exact kept.emitConstant p t _
  · exact kept.report p t _ (by simp [Complaint.category])

theorem nested {inner : Progress → Progress} (inner_kept : ∀ p, R p (inner p)) (depth : Nat)
    (t : Token) (p : Progress) : R p (Progress.nested inner depth t p) := by
  unfold Progress.nested
  split
  · exact kept.report p t .nestedTooDeeply (by decide)
  · exact inner_kept p

theorem climb {right : Level → Progress → Progress} (right_kept : ∀ level p, R p (right level p))
    (level : Level) (rounds : List Token) (p : Progress) :
    R p (Progress.climb right level rounds p) := by
  induction rounds generalizing p with
  | nil => exact kept.refl p
  | cons _ rounds ih =>
    simp only [Progress.climb]
    split
    · exact kept.refl p
    · rename_i op _
      have one_round := kept.trans (kept.advance p) (right_kept op.rightLevel p.advance)
      exact kept.trans one_round (kept.trans (kept.emit _ _ _) (ih _))

theorem expression (frames depth : Nat) (level : Level) (p : Progress) :
    R p (Progress.expression frames depth level p) := by
  induction frames generalizing depth level p with
  | zero => exact kept.refl p
  | succ frames ih =>
    have rest (q : Progress) :
        R q (Progress.climb (Progress.expression frames depth) level q.left q) :=
      kept.climb (ih depth) level q.left q
    refine kept.trans (kept.advance p) ?_
    simp only [Progress.expression]
    split
    · exact kept.trans (kept.emitLiteral _ _) (rest _)
    · have inside := kept.nested (ih (depth + 1) .sum) depth p.lookahead p.advance
      exact kept.trans inside (kept.trans (kept.consume _ _ _ (by decide)) (rest _))
    · have inside := kept.nested (ih (depth + 1) .operand) depth p.lookahead p.advance
      exact kept.trans inside (kept.trans (kept.emit _ _ _) (rest _))
    · exact kept.report _ _ .expressionExpected (by decide)

theorem whole (p : Progress) : R p p.whole := by
  unfold Progress.whole
  exact kept.trans (kept.expression _ _ _ p)
    (kept.trans (kept.consume _ _ _ (by decide)) (kept.emit _ _ _))

end Kept

theorem passFaults_prefix (left : List Token) (reports : Array Diagnostic) :
    reports.toList <+: (passFaults left reports).2.toList := by
  fun_induction passFaults left reports with
  | case1 => exact List.prefix_rfl
  | case2 t left reports cause _ ih =>
    exact (by simp : reports.toList <+: _).trans ih
  | case3 => exact List.prefix_rfl

theorem kept_reports : Kept fun p q => p.reports.toList <+: q.reports.toList where
  refl _ := List.prefix_rfl
  trans := List.IsPrefix.trans
  advance _ := passFaults_prefix _ _
  report _ _ _ _ := by simp [Progress.report]
  write _ _ := List.prefix_rfl

def first? (p : Progress) : Option Diagnostic := p.reports.toList.head?

theorem first_of_prefix {p q : Progress} {d : Diagnostic}
    (grown : p.reports.toList <+: q.reports.toList) (first : p.first? = some d) :
    q.first? = some d := by
  obtain ⟨more, grown⟩ := grown
  simp only [first?, List.head?_eq_some_iff] at first
  obtain ⟨others, first⟩ := first
  simp [first?, ← grown, first]

theorem passFaults_suffix (left : List Token) (reports : Array Diagnostic) :
    (passFaults left reports).1 <:+ left := by
  fun_induction passFaults left reports with
  | case1 => exact List.suffix_rfl
  | case2 t left reports cause _ ih => exact ih.trans (List.suffix_cons ..)
  | case3 => exact List.suffix_rfl

theorem kept_left : Kept fun p q => q.left <:+ p.left ∧ q.endLine = p.endLine where
  refl _ := ⟨List.suffix_rfl, rfl⟩
  trans h g := ⟨g.1.trans h.1, g.2.trans h.2⟩
  advance p := ⟨(passFaults_suffix _ _).trans (List.tail_suffix p.left), rfl⟩
  report _ _ _ _ := ⟨List.suffix_rfl, rfl⟩
  write _ _ := ⟨List.suffix_rfl, rfl⟩

def faultReport? (t : Token) : Option Diagnostic :=
  match t.kind with
  | .fault cause => some (.about t (.lexical cause))
  | _ => none

theorem faultReport_eq_none (t : Token) : faultReport? t = none ↔ t.isFault = false := by
  cases kind : t.kind <;> simp [faultReport?, Token.isFault, kind]

/-- The lexical reports made so far and those still to come. -/
def faultReports (p : Progress) : List Diagnostic :=
  p.reports.toList.filter (fun d => d.complaint.category = .lexical) ++
    p.left.filterMap faultReport?

def Settled (p : Progress) : Prop := ∀ t ∈ p.left.head?, t.isFault = false

theorem passFaults_settled (left : List Token) (reports : Array Diagnostic) :
    ∀ t ∈ (passFaults left reports).1.head?, t.isFault = false := by
  fun_induction passFaults left reports with
  | case1 => simp
  | case2 t left reports cause _ ih => exact ih
  | case3 t left reports no_fault =>
    intro u hu
    obtain rfl : t = u := by simpa using hu
    unfold Token.isFault
    split
    · rename_i cause kind
      exact absurd kind (no_fault cause)
    · rfl

theorem passFaults_reports (left : List Token) (reports : Array Diagnostic) :
    (passFaults left reports).2.toList.filter (fun d => d.complaint.category = .lexical) ++
        (passFaults left reports).1.filterMap faultReport? =
      reports.toList.filter (fun d => d.complaint.category = .lexical) ++
        left.filterMap faultReport? := by
  fun_induction passFaults left reports with
  | case1 => rfl
  | case2 t left reports cause kind ih =>
    rw [ih]
    simp [faultReport?, kind, Diagnostic.about, Complaint.category]
  | case3 => rfl

theorem settle_settled (p : Progress) : p.settle.Settled := passFaults_settled p.left p.reports

theorem settle_faultReports (p : Progress) : p.settle.faultReports = p.faultReports :=
  passFaults_reports p.left p.reports

theorem kept_faults : Kept fun p q => p.Settled → q.Settled ∧ q.faultReports = p.faultReports where
  refl _ settled := ⟨settled, rfl⟩
  trans h g settled := by
    have first := h settled
    have second := g first.1
    exact ⟨second.1, second.2.trans first.2⟩
  advance p settled := by
    refine ⟨settle_settled _, ?_⟩
    rw [Progress.advance, settle_faultReports]
    cases left : p.left with
    | nil => simp [faultReports, left]
    | cons t ts =>
      have silent := (faultReport_eq_none t).mpr (settled t (by simp [left]))
      simp [faultReports, left, silent]
  report p t complaint syntactic settled := by
    refine ⟨settled, ?_⟩
    simp [faultReports, Progress.report, Diagnostic.about, syntactic]
  write _ _ settled := ⟨settled, rfl⟩

end StackCalc.Progress
