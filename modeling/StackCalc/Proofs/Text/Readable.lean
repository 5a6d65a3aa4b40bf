import StackCalc.Number.Fixed
import Mathlib.Data.List.TakeWhile

namespace StackCalc

namespace Text

def number (text : List Char) : Nat :=
  Nat.ofDigitChars 10 ((text.dropWhile fun c => !c.isDigit).takeWhile Char.isDigit) 0

@[simp] theorem toList_toString (n : Nat) : (toString n).toList = Nat.toDigits 10 n :=
  Nat.toList_repr

theorem digits_toString (n : Nat) : ∀ c ∈ (toString n).toList, c.isDigit = true := by
  intro c inside
  rw [toList_toString] at inside
  exact Nat.isDigit_of_mem_toDigits (by decide) (by decide) inside

theorem toString_cons (n : Nat) : ∃ d ds, (toString n).toList = d :: ds ∧ d.isDigit = true := by
  have some_digit : (toString n).toList ≠ [] := by
    rw [toList_toString]
    exact Nat.toDigits_ne_nil
  obtain ⟨d, ds, text⟩ := List.exists_cons_of_ne_nil some_digit
  have first : d ∈ (toString n).toList := text ▸ List.mem_cons_self
  exact ⟨d, ds, text, digits_toString n d first⟩

theorem number_toString {front behind : List Char} (no_digits : ∀ c ∈ front, (!c.isDigit) = true)
    (n : Nat) (ended : ∀ c ∈ behind.head?, c.isDigit = false) :
    number (front ++ ((toString n).toList ++ behind)) = n := by
  have stops : ((toString n).toList ++ behind).dropWhile (fun c => !c.isDigit) =
      (toString n).toList ++ behind := by
    obtain ⟨d, ds, text, digit⟩ := toString_cons n
    rw [text, List.cons_append, List.dropWhile_cons_of_neg (by simp [digit])]
  have ended : behind.takeWhile Char.isDigit = [] := by
    cases behind with
    | nil => rfl
    | cons c cs => exact List.takeWhile_cons_of_neg (by simp [ended c rfl])
  rw [number, List.dropWhile_append_of_pos no_digits, stops,
    List.takeWhile_append_of_pos (digits_toString n), ended, List.append_nil, toList_toString]
  exact Nat.ofDigitChars_ten_toDigits

@[simp] theorem toList_padLeft (fill : Char) (width : Nat) (text : String) :
    (padLeft fill width text).toList =
      List.replicate (width - text.length) fill ++ text.toList := by
  simp [padLeft, filler]

def OneLine (text : String) : Prop := '\n' ∉ text.toList

instance (text : String) : Decidable (OneLine text) := inferInstanceAs (Decidable (_ ∉ _))

theorem OneLine.append {a b : String} (left : OneLine a) (right : OneLine b) :
    OneLine (a ++ b) := by
  simp only [OneLine, String.toList_append, List.mem_append, not_or]
  exact ⟨left, right⟩

theorem oneLine_toString (n : Nat) : OneLine (toString n) := by
  intro inside
  exact absurd (digits_toString n _ inside) (by decide)

theorem OneLine.padLeft {fill : Char} {text : String} (one_line : OneLine text)
    (no_feed : fill ≠ '\n') (width : Nat) : OneLine (padLeft fill width text) := by
  simp only [OneLine, toList_padLeft, List.mem_append, List.mem_replicate, not_or, not_and]
  exact ⟨fun _ => no_feed.symm, one_line⟩

theorem first_line {a a' b b' : List Char} (one_line : '\n' ∉ a) (one_line' : '\n' ∉ a')
    (same : a ++ '\n' :: b = a' ++ '\n' :: b') : a = a' ∧ b = b' := by
  have front {a b : List Char} (one_line : '\n' ∉ a) :
      (a ++ '\n' :: b).takeWhile (· ≠ '\n') = a := by
    have all : ∀ c ∈ a, decide (c ≠ '\n') = true := fun c inside =>
      decide_eq_true fun feed => one_line (feed ▸ inside)
    rw [List.takeWhile_append_of_pos all]
    simp
  have lines := congrArg (List.takeWhile (· ≠ '\n')) same
  rw [front one_line, front one_line'] at lines
  subst lines
  exact ⟨rfl, (List.cons.inj (List.append_cancel_left same)).2⟩

@[simp] theorem toList_unlines_cons (line : String) (lines : List String) :
    (unlines (line :: lines)).toList = line.toList ++ '\n' :: (unlines lines).toList := by
  simp

theorem unlines_cons_ne_nil (line : String) (lines : List String) :
    (unlines (line :: lines)).toList ≠ (unlines []).toList := by
  rw [toList_unlines_cons]
  exact List.append_ne_nil_of_right_ne_nil _ (List.cons_ne_nil _ _)

theorem unlines_injective {ls ms : List String} (ls_lines : ∀ l ∈ ls, OneLine l)
    (ms_lines : ∀ m ∈ ms, OneLine m) (same : (unlines ls).toList = (unlines ms).toList) :
    ls = ms := by
  induction ls generalizing ms with
  | nil =>
    cases ms with
    | nil => rfl
    | cons m ms => exact absurd same.symm (unlines_cons_ne_nil m ms)
  | cons l ls ih =>
    cases ms with
    | nil => exact absurd same (unlines_cons_ne_nil l ls)
    | cons m ms =>
      rw [List.forall_mem_cons] at ls_lines ms_lines
      simp only [toList_unlines_cons] at same
      obtain ⟨line, rest⟩ := first_line ls_lines.1 ms_lines.1 same
      obtain rfl : l = m := String.toList_injective line
      rw [ih ls_lines.2 ms_lines.2 rest]

end Text

theorem Number.oneLine_text (x : Number) : Text.OneLine x.text := by
  have fixed (count : Nat) : Text.OneLine (fixedText count) := by
    apply Text.OneLine.append
    · exact (Text.oneLine_toString _).append (by decide)
    · exact (Text.oneLine_toString _).padLeft (by decide) _
  unfold text
  split
  · decide
  · apply Text.OneLine.append
    · split <;> decide
    · split
      · decide
      · exact fixed _

end StackCalc
