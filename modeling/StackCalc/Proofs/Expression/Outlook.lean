import StackCalc.Proofs.Expression.Grammar

/-! What the tokens read so far leave open. An outlook follows an expression token by token, and it
is lost at the first token that no expression has there. As long as it is not lost, the tokens can
be completed to an expression. Precedence plays no part in this: it decides the tree, and not which
tokens can come next. -/
namespace StackCalc

inductive Mark where
  | group
  | minus
  deriving DecidableEq

/-- A complete operand completes the minus signs right before it as well. -/
def Mark.settle (opened : List Mark) : List Mark := opened.dropWhile (· = .minus)

@[simp] theorem Mark.settle_nil : settle [] = [] := rfl

@[simp] theorem Mark.settle_minus (opened : List Mark) :
    settle (.minus :: opened) = settle opened := rfl

@[simp] theorem Mark.settle_group (opened : List Mark) :
    settle (.group :: opened) = .group :: opened := rfl

theorem Mark.settle_length (opened : List Mark) : (settle opened).length ≤ opened.length :=
  (List.dropWhile_sublist _).length_le

/-- What is due next, and what is open there, the innermost first. -/
inductive Outlook where
  | operand (opened : List Mark)
  | operator (opened : List Mark)
  deriving DecidableEq

namespace Outlook

/-- The outlook behind one more token, if there is one. At most `limit` marks are open at once. -/
def step (limit : Nat) : Outlook → Kind → Option Outlook
  | .operand opened, .number => some (.operator (Mark.settle opened))
  | .operand opened, .punctuation .leftParen =>
    if opened.length < limit then some (.operand (.group :: opened)) else none
  | .operand opened, .punctuation .minus =>
    if opened.length < limit then some (.operand (.minus :: opened)) else none
  | .operand _, _ => none
  | .operator (.group :: opened), .punctuation .rightParen =>
    some (.operator (Mark.settle opened))
  | .operator opened, kind =>
    if Level.sum.continued kind then some (.operand opened) else none

def read (limit : Nat) : Outlook → List Token → Option Outlook
  | s, [] => some s
  | s, t :: ts =>
    match s.step limit t.kind with
    | some s => read limit s ts
    | none => none

variable {limit : Nat} {s s' : Outlook} {ts us : List Token}

theorem read_append (first : s.read limit ts = some s') :
    s.read limit (ts ++ us) = s'.read limit us := by
  induction ts generalizing s with
  | nil =>
    obtain rfl : s = s' := Option.some.inj first
    rfl
  | cons t ts ih =>
    simp only [read] at first
    split at first
    · rename_i next hnext
      simp only [List.cons_append, read, hnext, ih first]
    · cases first

theorem read_front (whole : s.read limit (ts ++ us) = some s') :
    ∃ next, s.read limit ts = some next ∧ next.read limit us = some s' := by
  induction ts generalizing s with
  | nil => exact ⟨s, rfl, whole⟩
  | cons t ts ih =>
    simp only [List.cons_append, read] at whole ⊢
    split at whole
    · exact ih whole
    · cases whole

theorem read_cons {t : Token} (first : s.step limit t.kind = some s') :
    s.read limit (t :: ts) = s'.read limit ts := by
  simp only [read, first]

theorem step_operator {opened : List Mark} {kind : Kind} (mark : Level.sum.continued kind = true) :
    step limit (.operator opened) kind = some (.operand opened) := by
  have not_closing : kind ≠ .punctuation .rightParen := by rintro rfl; cases mark
  unfold step
  split <;> simp_all

theorem read_chain {opened : List Mark} {links : List Link}
    (marks : ∀ k ∈ links, Level.sum.continued k.sign.kind = true)
    (rights : ∀ k ∈ links, read limit (.operand opened) k.tokens = some (.operator opened)) :
    read limit (.operator opened) (links.flatMap Link.spelled) = some (.operator opened) := by
  induction links with
  | nil => rfl
  | cons k links ih =>
    rw [List.forall_mem_cons] at marks rights
    rw [List.flatMap_cons, Link.spelled, List.cons_append, read_cons (step_operator marks.1),
      read_append rights.1, ih marks.2 rights.2]

/-- An expression that nests within the limit is read to its end. Behind an operand that is where
the minus signs before it are complete too. -/
theorem read_derives {level : Level} {e : Tree} (h : Derives level ts e) (opened : List Mark)
    (settled : level = .operand ∨ Mark.settle opened = opened)
    (shallow : opened.length + e.nesting ≤ limit) :
    read limit (.operand opened) ts = some (.operator (Mark.settle opened)) := by
  induction h generalizing opened with
  | number kind => simp [read, kind, step]
  | @group opening closing inner e left _ right ih =>
    simp only [Tree.nesting] at shallow
    have room : opened.length < limit := by omega
    have enter : step limit (.operand opened) opening.kind =
        some (.operand (.group :: opened)) := by
      simp [left, step, room]
    have within := ih (.group :: opened) (.inr rfl) (by simp only [List.length_cons]; omega)
    rw [read_cons enter, read_append within]
    simp [read, right, step]
  | @negate sign ts e minus _ ih =>
    simp only [Tree.nesting] at shallow
    have room : opened.length < limit := by omega
    have enter : step limit (.operand opened) sign.kind = some (.operand (.minus :: opened)) := by
      simp [minus, step, room]
    rw [read_cons enter]
    exact ih (.minus :: opened) (.inl rfl) (by simp only [List.length_cons]; omega)
  | @product first l links _ signs _ ih rights_ih =>
    obtain settled := settled.resolve_left (by simp)
    have bounds := (Link.nesting_foldl links l (limit - opened.length)).mp (by omega)
    have head := ih opened (.inl rfl) (by omega)
    rw [read_append head, settled]
    apply read_chain
    · intro k hk
      simp [Level.continued, signs k hk]
    · intro k hk
      have bound := bounds.2 k hk
      rw [rights_ih k hk opened (.inl rfl) (by omega), settled]
  | @sum first l links _ signs _ ih rights_ih =>
    obtain settled := settled.resolve_left (by simp)
    have bounds := (Link.nesting_foldl links l (limit - opened.length)).mp (by omega)
    have head := ih opened (.inr settled) (by omega)
    rw [read_append head, settled]
    apply read_chain
    · intro k hk
      simp [Level.continued, signs k hk]
    · intro k hk
      have bound := bounds.2 k hk
      rw [rights_ih k hk opened (.inr settled) (by omega), settled]

theorem step_mono {limit' : Nat} {kind : Kind} (le : limit ≤ limit')
    (h : s.step limit kind = some s') : s.step limit' kind = some s' := by
  unfold step at h ⊢
  split at h <;> simp_all
  all_goals omega

theorem read_mono {limit' : Nat} (le : limit ≤ limit') (h : s.read limit ts = some s') :
    s.read limit' ts = some s' := by
  induction ts generalizing s with
  | nil => exact h
  | cons t ts ih =>
    simp only [read] at h
    split at h
    · rename_i next hnext
      rw [read_cons (step_mono le hnext), ih h]
    · cases h

theorem read_sum {e : Tree} (h : Derives .sum ts e)
    (reached : read limit (.operand []) ts = some s) : s = .operator [] := by
  have far := read_mono (Nat.le_max_left limit e.nesting) reached
  have whole : read (max limit e.nesting) (.operand []) ts = some (.operator []) :=
    read_derives h [] (.inr rfl) (by simp only [List.length_nil]; omega)
  exact Option.some.inj (far.symm.trans whole)

/-- An operand put behind `front` makes it a sum, with `depth` marks open around that sum. -/
def Gap (limit depth : Nat) (front : List Token) : Prop :=
  ∀ ts e, Derives .operand ts e → depth + e.nesting ≤ limit →
    ∃ whole, Derives .sum (front ++ ts) whole ∧ depth + whole.nesting ≤ limit

/-- An operand is due behind these tokens. The groups that are open are followed from outside in. -/
def Waits (limit : Nat) : List Mark → List Token → Prop
  | [], before => Gap limit 0 before
  | .minus :: opened, before => ∃ outer sign, before = outer ++ [sign] ∧
      sign.kind = .punctuation .minus ∧ Waits limit opened outer
  | .group :: opened, before => ∃ outer opening front, before = outer ++ opening :: front ∧
      opening.kind = .punctuation .leftParen ∧ Waits limit opened outer ∧
      Gap limit (opened.length + 1) front

def Rests (limit : Nat) : List Mark → List Token → Prop
  | [], before => ∃ e, Derives .sum before e ∧ e.nesting ≤ limit
  | .minus :: _, _ => False
  | .group :: opened, before => ∃ outer opening inner e, before = outer ++ opening :: inner ∧
      opening.kind = .punctuation .leftParen ∧ Waits limit opened outer ∧
      Derives .sum inner e ∧ opened.length + 1 + e.nesting ≤ limit

def Holds (limit : Nat) : Outlook → List Token → Prop
  | .operand opened, before => opened.length ≤ limit ∧ Waits limit opened before
  | .operator opened, before => opened.length ≤ limit ∧ Rests limit opened before

theorem gap_nil (limit depth : Nat) : Gap limit depth [] :=
  fun _ e h shallow => ⟨e, h.of_operand, shallow⟩

theorem gap_operator {depth : Nat} {front : List Token} {e : Tree} {sign : Token}
    (h : Derives .sum front e) (shallow : depth + e.nesting ≤ limit)
    (mark : Level.sum.continued sign.kind = true) : Gap limit depth (front ++ [sign]) := by
  intro us u operand operand_shallow
  have spelled : ∃ op, sign.kind.additive? = some op ∨ sign.kind.multiplicative? = some op := by
    simp only [Level.continued, Bool.or_eq_true, Option.isSome_iff_exists] at mark
    rcases mark with ⟨op, mark⟩ | ⟨op, mark⟩
    · exact ⟨op, .inl mark⟩
    · exact ⟨op, .inr mark⟩
  obtain ⟨op, spelled⟩ := spelled
  obtain ⟨whole, derived, nesting⟩ := h.extend spelled operand
  exact ⟨whole, by simpa using derived, by omega⟩

theorem rests_of_operand (opened : List Mark) {before us : List Token} {u : Tree}
    (waits : Waits limit opened before) (operand : Derives .operand us u)
    (shallow : opened.length + u.nesting ≤ limit) :
    Rests limit (Mark.settle opened) (before ++ us) := by
  -- On the marks. A minus sign makes a longer operand of it, and a group or nothing ends that.
  induction opened generalizing before us u with
  | nil =>
    obtain ⟨e, derived, nesting⟩ := waits us u operand (by simpa using shallow)
    exact ⟨e, derived, by simpa using nesting⟩
  | cons mark opened ih =>
    cases mark with
    | minus =>
      obtain ⟨outer, sign, rfl, minus, waits⟩ := waits
      have negated := ih waits (.negate minus operand)
        (by simp only [List.length_cons, Tree.nesting] at shallow ⊢; omega)
      simpa using negated
    | group =>
      obtain ⟨outer, opening, front, rfl, paren, waits, gap⟩ := waits
      obtain ⟨e, derived, nesting⟩ := gap us u operand (by simpa using shallow)
      exact ⟨outer, opening, front ++ us, e, by simp, paren, waits, derived, nesting⟩

theorem waits_of_operator {opened : List Mark} {before : List Token} {sign : Token}
    (rests : Rests limit opened before) (mark : Level.sum.continued sign.kind = true) :
    Waits limit opened (before ++ [sign]) := by
  cases opened with
  | nil =>
    obtain ⟨e, derived, shallow⟩ := rests
    exact gap_operator derived (by simpa using shallow) mark
  | cons inner opened =>
    cases inner with
    | minus => exact rests.elim
    | group =>
      obtain ⟨outer, opening, front, e, rfl, paren, waits, derived, shallow⟩ := rests
      exact ⟨outer, opening, front ++ [sign], by simp, paren, waits,
        gap_operator derived shallow mark⟩

theorem rests_of_closing {opened : List Mark} {before : List Token} {closing : Token}
    (rests : Rests limit (.group :: opened) before)
    (paren : closing.kind = .punctuation .rightParen) :
    Rests limit (Mark.settle opened) (before ++ [closing]) := by
  obtain ⟨outer, opening, inner, e, rfl, left, waits, derived, shallow⟩ := rests
  have grouped := rests_of_operand opened waits (.group left derived paren)
    (by simp only [Tree.nesting]; omega)
  simpa using grouped

theorem holds_step {before : List Token} {t : Token} (holds : s.Holds limit before)
    (h : s.step limit t.kind = some s') : s'.Holds limit (before ++ [t]) := by
  unfold step at h
  split at h
  · rename_i opened kind
    obtain rfl := Option.some.inj h
    have placed := rests_of_operand opened holds.2 (.number kind) holds.1
    exact ⟨Nat.le_trans (Mark.settle_length opened) holds.1, placed⟩
  · rename_i opened kind
    split at h
    · rename_i room
      obtain rfl := Option.some.inj h
      exact ⟨room, before, t, [], rfl, kind, holds.2, gap_nil _ _⟩
    · cases h
  · rename_i opened kind
    split at h
    · rename_i room
      obtain rfl := Option.some.inj h
      exact ⟨room, before, t, rfl, kind, holds.2⟩
    · cases h
  · cases h
  · rename_i opened kind
    obtain rfl := Option.some.inj h
    have room : opened.length ≤ limit := Nat.le_of_succ_le holds.1
    exact ⟨Nat.le_trans (Mark.settle_length opened) room, rests_of_closing holds.2 kind⟩
  · rename_i opened kind _
    split at h
    · rename_i mark
      obtain rfl := Option.some.inj h
      exact ⟨holds.1, waits_of_operator holds.2 mark⟩
    · cases h

theorem holds_read {before : List Token} (holds : s.Holds limit before)
    (h : s.read limit ts = some s') : s'.Holds limit (before ++ ts) := by
  induction ts generalizing s before with
  | nil =>
    obtain rfl : s = s' := Option.some.inj h
    simpa using holds
  | cons t ts ih =>
    simp only [read] at h
    split at h
    · rename_i next hnext
      simpa using ih (holds_step holds hnext) h
    · cases h

theorem rests_completed (opened : List Mark) {before : List Token}
    (rests : Rests limit opened before) :
    ∃ more e, Derives .sum (before ++ more) e ∧ e.nesting ≤ limit := by
  match opened with
  | [] =>
    obtain ⟨e, derived, shallow⟩ := rests
    exact ⟨[], e, by simpa using derived, shallow⟩
  | .minus :: _ => exact rests.elim
  | .group :: opened =>
    let closing : Token := ⟨.punctuation .rightParen, ")", 1⟩
    have closed : Rests limit (Mark.settle opened) (before ++ [closing]) :=
      rests_of_closing rests rfl
    obtain ⟨more, e, derived, shallow⟩ := rests_completed (Mark.settle opened) closed
    exact ⟨_ :: more, e, by simpa using derived, shallow⟩
termination_by opened.length
decreasing_by exact Nat.lt_succ_of_le (Mark.settle_length opened)

theorem completed {before : List Token} (h : read limit (.operand []) before = some s) :
    ∃ more e, Derives .sum (before ++ more) e ∧ e.nesting ≤ limit := by
  have start : Holds limit (.operand []) [] := ⟨Nat.zero_le _, gap_nil _ _⟩
  have holds := holds_read start h
  rw [List.nil_append] at holds
  cases s with
  | operand opened =>
    let zero : Token := ⟨.number, "0", 1⟩
    have placed : Rests limit (Mark.settle opened) (before ++ [zero]) :=
      rests_of_operand opened holds.2 (.number rfl) holds.1
    obtain ⟨more, e, derived, shallow⟩ := rests_completed _ placed
    exact ⟨_ :: more, e, by simpa using derived, shallow⟩
  | operator opened => exact rests_completed opened holds.2

/-- Tokens are the front of an expression within the limit exactly when they have an outlook. -/
theorem front_iff {before : List Token} :
    (∃ more e, Derives .sum (before ++ more) e ∧ e.nesting ≤ limit) ↔
      ∃ s, read limit (.operand []) before = some s := by
  constructor
  · rintro ⟨more, e, derived, shallow⟩
    have whole := read_derives derived [] (.inr rfl)
      (by simpa only [List.length_nil, Nat.zero_add] using shallow)
    obtain ⟨s, reached, _⟩ := read_front whole
    exact ⟨s, reached⟩
  · rintro ⟨s, reached⟩
    exact completed reached

end Outlook
end StackCalc
