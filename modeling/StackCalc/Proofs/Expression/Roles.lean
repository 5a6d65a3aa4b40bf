import StackCalc.Proofs.Expression.Grammar

namespace StackCalc

def BinaryOp.home : BinaryOp → Level
  | .add | .subtract => .sum
  | .multiply | .divide => .product

def Level.height : Level → Nat
  | .sum => 3
  | .product => 2
  | .operand => 1

theorem Level.height_pos (level : Level) : 1 ≤ level.height := by cases level <;> decide

theorem Level.rightLevel_height {level : Level} {op : BinaryOp} (admits : level.admits op = true) :
    op.rightLevel.height < level.height := by
  cases level <;> cases op <;> simp_all [Level.admits, BinaryOp.rightLevel, Level.height]

theorem Level.not_operand {level : Level} {op : BinaryOp} (admits : level.admits op = true) :
    level ≠ .operand := by
  rintro rfl
  cases admits

namespace Role

theorem literal_iff (kind : Kind) : ofKind kind = .literal ↔ kind = .number := by
  unfold ofKind
  split <;> simp_all

theorem opening_iff (kind : Kind) : ofKind kind = .opening ↔ kind = .punctuation .leftParen := by
  unfold ofKind
  split <;> simp_all

theorem operator_iff (kind : Kind) (op : BinaryOp) : ofKind kind = .operator op ↔
    kind.additive? = some op ∨ kind.multiplicative? = some op := by
  unfold ofKind
  split <;> simp_all [Kind.additive?, Kind.multiplicative?]

theorem operator_not_number {t : Token} {op : BinaryOp} (role : ofKind t.kind = .operator op) :
    t.isNumber = false := by
  rw [Token.isNumber, decide_eq_false_iff_not]
  intro number
  rw [number] at role
  cases role

theorem continued_of_operator {kind : Kind} {op : BinaryOp} (role : ofKind kind = .operator op) :
    Level.sum.continued kind = true := by
  rcases (operator_iff kind op).mp role with mark | mark <;> simp [Level.continued, mark]

theorem operator_of_continued {kind : Kind} (mark : Level.sum.continued kind = true) :
    ∃ op, ofKind kind = .operator op := by
  simp only [Level.continued, Bool.or_eq_true, Option.isSome_iff_exists] at mark
  rcases mark with ⟨op, mark⟩ | ⟨op, mark⟩
  · exact ⟨op, (operator_iff kind op).mpr (.inl mark)⟩
  · exact ⟨op, (operator_iff kind op).mpr (.inr mark)⟩

theorem subtract_iff (kind : Kind) :
    ofKind kind = .operator .subtract ↔ kind = .punctuation .minus := by
  unfold ofKind
  split <;> simp_all

end Role

namespace Derives

variable {level : Level} {ts ls rs : List Token} {e l r : Tree} {sign : Token} {op : BinaryOp}

theorem binary (left : Derives op.home ls l) (role : Role.ofKind sign.kind = .operator op)
    (right : Derives op.rightLevel rs r) :
    Derives op.home (ls ++ sign :: rs) (.binary op sign l r) := by
  rcases (Role.operator_iff sign.kind op).mp role with mark | mark
  · have home : op.home = .sum ∧ op.rightLevel = .product := by
      unfold Kind.additive? at mark
      split at mark <;> cases mark <;> exact ⟨rfl, rfl⟩
    rw [home.1] at left ⊢
    rw [home.2] at right
    exact left.plus mark right
  · have home : op.home = .product ∧ op.rightLevel = .operand := by
      unfold Kind.multiplicative? at mark
      split at mark <;> cases mark <;> exact ⟨rfl, rfl⟩
    rw [home.1] at left ⊢
    rw [home.2] at right
    exact left.times mark right

theorem of_product (op : BinaryOp) (h : Derives .product ts e) : Derives op.home ts e := by
  cases op with
  | add | subtract => exact h.sum_of_product
  | multiply | divide => exact h

theorem of_home (admits : level.admits op = true) (h : Derives op.home ts e) :
    Derives level ts e := by
  cases level with
  | operand => cases admits
  | product =>
    cases op with
    | add | subtract => cases admits
    | multiply | divide => exact h
  | sum =>
    cases op with
    | add | subtract => exact h
    | multiply | divide => exact h.sum_of_product

end Derives

end StackCalc
