import Mathlib.Data.List.TakeWhile
import StackCalc.Number.Literal
import StackCalc.Token.Scan

namespace StackCalc

inductive Numeral : List Char → Prop where
  | whole {digits : List Char} : digits ≠ [] → (∀ c ∈ digits, c.isDigit = true) → Numeral digits
  | pointed {digits places : List Char} : digits ≠ [] → (∀ c ∈ digits, c.isDigit = true) →
      places ≠ [] → (∀ c ∈ places, c.isDigit = true) → Numeral (digits ++ '.' :: places)

def Token.value? (t : Token) : Option Number := Number.ofLiteral? t.lexeme.toList

namespace Numeral

theorem ofChars {text : List Char} (h : Numeral text) : ∃ d, Decimal.ofChars? text = some d := by
  cases h with
  | whole some_digit digits =>
    have front : text.takeWhile Char.isDigit = text := List.takeWhile_eq_self_iff.mpr digits
    have behind : text.dropWhile Char.isDigit = [] := List.dropWhile_eq_nil_iff.mpr digits
    exact ⟨_, by simp [Decimal.ofChars?, front, behind, some_digit]; rfl⟩
  | @pointed whole places some_digit digits some_place more =>
    have front : (whole ++ '.' :: places).takeWhile Char.isDigit = whole := by
      rw [List.takeWhile_append_of_pos digits]
      simp
    have behind : (whole ++ '.' :: places).dropWhile Char.isDigit = '.' :: places := by
      rw [List.dropWhile_append_of_pos digits]
      simp
    have tail : places.all Char.isDigit = true := List.all_eq_true.mpr more
    exact ⟨_, by simp [Decimal.ofChars?, front, behind, some_digit, some_place, tail]; rfl⟩

theorem ofLiteral {text : List Char} (h : Numeral text) :
    ∃ value, Number.ofLiteral? text = some value := by
  obtain ⟨d, hd⟩ := h.ofChars
  exact ⟨_, by simp [Number.ofLiteral?, hd]; rfl⟩

end Numeral

namespace Piece

theorem number_numeral {c : Char} (cs : List Char) (digit : c.isDigit = true) :
    Numeral (number (c :: cs)).text := by
  have some_digit : (c :: cs).takeWhile Char.isDigit ≠ [] := by simp [digit]
  have digits := fun d => List.mem_takeWhile_imp (p := Char.isDigit) (x := d) (l := c :: cs)
  unfold number
  split
  · rename_i d rest _
    split
    · rename_i place
      have some_place : (d :: rest).takeWhile Char.isDigit ≠ [] := by simp [place]
      exact .pointed some_digit digits some_place (fun _ => List.mem_takeWhile_imp)
    · exact .whole some_digit digits
  · exact .whole some_digit digits

@[simp] theorem number_kind (text : List Char) : (number text).kind = .number := by
  unfold number
  split
  · split <;> rfl
  · rfl

def Other (kind : Kind) : Prop := kind ≠ .number ∧ kind ≠ .endOfInput

theorem name_other (text : List Char) : Other (name text).kind := by
  simp only [name]
  split <;> exact ⟨nofun, nofun⟩

theorem markOrEqual_other (single double : Punctuation) (c : Char) (cs : List Char) :
    Other (markOrEqual single double c cs).kind := by
  unfold markOrEqual
  split <;> exact ⟨nofun, nofun⟩

theorem string_other (cs : List Char) : Other (string cs).kind := by
  simp only [string]
  split <;> exact ⟨nofun, nofun⟩

theorem not_nameStart_of_digit {c : Char} (digit : c.isDigit = true) : isNameStart c = false := by
  have not_underscore : c ≠ '_' := by rintro rfl; exact absurd digit (by decide)
  simp only [Char.isDigit, ge_iff_le, Bool.and_eq_true, decide_eq_true_eq] at digit
  delta isNameStart Char.isAlpha Char.isUpper Char.isLower
  grind

theorem ofFront_digit {c : Char} (cs : List Char) (digit : c.isDigit = true) :
    ofFront c cs = number (c :: cs) := by
  simp [ofFront, not_nameStart_of_digit digit, digit]

theorem ofFront_other {c : Char} (cs : List Char) (no_digit : c.isDigit = false) :
    Other (ofFront c cs).kind := by
  unfold ofFront
  split
  · exact name_other _
  · rw [if_neg (by simp [no_digit])]
    split
    all_goals first
      | exact markOrEqual_other ..
      | exact string_other _
      | exact ⟨nofun, nofun⟩

theorem ofFront_kind (c : Char) (cs : List Char) :
    ((ofFront c cs).kind = .number → Numeral (ofFront c cs).text) ∧
      (ofFront c cs).kind ≠ .endOfInput := by
  cases digit : c.isDigit with
  | true =>
    rw [ofFront_digit cs digit, number_kind]
    exact ⟨fun _ => number_numeral cs digit, nofun⟩
  | false =>
    have other := ofFront_other cs digit
    exact ⟨fun number => absurd number other.1, other.2⟩

end Piece

structure Token.Cut (t : Token) : Prop where
  inside : t.kind ≠ .endOfInput
  denotes : t.kind = .number → ∃ value, t.value? = some value

theorem Scanner.next_cut (s : Scanner) (inside : s.next.1.kind ≠ .endOfInput) :
    s.next.1.Cut := by
  cases rest : s.skip.rest with
  | nil => simp [next, rest, Token.ending] at inside
  | cons c cs =>
    simp only [next, rest] at inside ⊢
    refine ⟨inside, fun number => ?_⟩
    have numeral := (Piece.ofFront_kind c cs).1 number
    simpa [Token.value?] using numeral.ofLiteral

theorem Script.collect_cut (budget : Nat) (s : Scanner) (seen : List Token)
    (seen_cut : ∀ t ∈ seen, t.Cut) : ∀ t ∈ (collect budget s seen).tokens, t.Cut := by
  induction budget generalizing s seen with
  | zero => simpa [collect] using seen_cut
  | succ budget ih =>
    simp only [collect]
    split
    · simpa using seen_cut
    · rename_i inside
      exact ih _ _ (List.forall_mem_cons.mpr ⟨s.next_cut inside, seen_cut⟩)

theorem Script.ofString_cut (source : String) : ∀ t ∈ (ofString source).tokens, t.Cut :=
  collect_cut _ _ [] (by simp)

end StackCalc
