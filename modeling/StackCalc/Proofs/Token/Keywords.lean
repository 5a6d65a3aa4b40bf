import StackCalc.Proofs.Token.LongestMatch

/-! Keywords told letter by letter. The first letter of a word, or its first two, leaves one
keyword, and the rest of that is compared with the rest of the word. -/
namespace StackCalc.Keyword

/-- An offset behind the end of the text has no result. -/
def check (text : List Char) (start : Nat) (rest : String) (word : Keyword) : Option Kind :=
  if start ≤ text.length then
    some (if text.drop start = rest.toList then .keyword word else .identifier)
  else none

/-- The class of a word. Without a first letter there is no result. -/
def classOf : List Char → Option Kind
  | [] => none
  | text@('a' :: _) => check text 1 "nd" .andWord
  | text@('c' :: _) => check text 1 "lass" .classWord
  | text@('e' :: _) => check text 1 "lse" .elseWord
  | text@('i' :: _) => check text 1 "f" .ifWord
  | text@('n' :: _) => check text 1 "il" .nilWord
  | text@('o' :: _) => check text 1 "r" .orWord
  | text@('p' :: _) => check text 1 "rint" .printWord
  | text@('r' :: _) => check text 1 "eturn" .returnWord
  | text@('s' :: _) => check text 1 "uper" .superWord
  | text@('v' :: _) => check text 1 "ar" .varWord
  | text@('w' :: _) => check text 1 "hile" .whileWord
  | text@('f' :: 'a' :: _) => check text 2 "lse" .falseWord
  | text@('f' :: 'o' :: _) => check text 2 "r" .forWord
  | text@('f' :: 'u' :: _) => check text 2 "n" .funWord
  | text@('t' :: 'h' :: _) => check text 2 "is" .thisWord
  | text@('t' :: 'r' :: _) => check text 2 "ue" .trueWord
  | _ => some .identifier

variable {text : List Char} {start : Nat} {rest : String} {word other : Keyword}

theorem check_some (inside : start ≤ text.length) :
    check text start rest word = some .identifier ∨
      check text start rest word = some (.keyword word) := by
  rw [check, if_pos inside]
  split
  · exact .inr rfl
  · exact .inl rfl

theorem check_keyword (found : check text start rest word = some (.keyword other)) :
    text.take start ++ rest.toList = text ∧ word = other := by
  unfold check at found
  split at found
  · split at found
    · rename_i same
      cases found
      exact ⟨same ▸ List.take_append_drop start text, rfl⟩
    · cases found
  · cases found

@[simp] theorem classOf_spelling (word : Keyword) :
    classOf word.spelling.toList = some (.keyword word) := by
  cases word <;> decide

theorem spelling_of_classOf (found : classOf text = some (.keyword word)) :
    word.spelling.toList = text := by
  unfold classOf at found
  split at found
  case h_1 | h_18 => cases found
  all_goals
    obtain ⟨spelled, rfl⟩ := check_keyword found
    exact spelled

theorem classOf_cons (c : Char) (cs : List Char) : classOf (c :: cs) = some .identifier ∨
    ∃ word, classOf (c :: cs) = some (.keyword word) := by
  unfold classOf
  split
  case h_1 empty => cases empty
  case h_18 => exact .inl rfl
  all_goals exact (check_some (by simp)).imp_right fun found => ⟨_, found⟩

theorem classOf_word (c : Char) (cs : List Char) : classOf (c :: cs) =
    some (match ofString? (String.ofList (c :: cs)) with
      | some word => .keyword word
      | none => .identifier) := by
  cases found : ofString? (String.ofList (c :: cs)) with
  | some word =>
    rw [← String.toList_ofList (l := c :: cs), ← ofString_eq_some found]
    exact classOf_spelling word
  | none =>
    rcases classOf_cons c cs with plain | ⟨word, keyword⟩
    · exact plain
    · have spelled := spelling_of_classOf keyword
      rw [← spelled, String.ofList_toList] at found
      exact absurd rfl (ofString_eq_none found word)

end StackCalc.Keyword
