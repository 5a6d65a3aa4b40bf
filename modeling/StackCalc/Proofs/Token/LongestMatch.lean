import StackCalc.Token.Stream
import StackCalc.Proofs.Token.Numeral
import StackCalc.Proofs.Token.Trivia

/-! The lexical grammar, and the scanner as its longest-match lexer. A token class is a set of
texts, said without a scanner. What the scanner cuts off is the longest front of the text that
belongs to any class, and it finds a fault only where no front belongs to one. -/
namespace StackCalc

/-- `[A-Za-z_][A-Za-z0-9_]*` -/
inductive Word : List Char → Prop where
  | intro {c : Char} {cs : List Char} : c.isAlpha = true ∨ c = '_' →
      (∀ d ∈ cs, d.isAlpha = true ∨ d.isDigit = true ∨ d = '_') → Word (c :: cs)

/-- The texts of each class. A word is an identifier unless it is a keyword. -/
inductive Lexeme : Kind → List Char → Prop where
  | punctuation (mark : Punctuation) : Lexeme (.punctuation mark) mark.spelling.toList
  | identifier {text : List Char} :
      Word text → (∀ word : Keyword, word.spelling.toList ≠ text) → Lexeme .identifier text
  | keyword (word : Keyword) : Lexeme (.keyword word) word.spelling.toList
  | number {text : List Char} : Numeral text → Lexeme .number text
  | string {inside : List Char} : '"' ∉ inside → Lexeme .string ('"' :: (inside ++ ['"']))

structure Longest (text : List Char) (kind : Kind) (front : List Char) : Prop where
  lexeme : Lexeme kind front
  starts : front <+: text
  longest : ∀ kind' other, Lexeme kind' other → other <+: text → other.length ≤ front.length

def NoLexeme (text : List Char) : Prop := ∀ kind front, Lexeme kind front → ¬ front <+: text

theorem isNameStart_iff (c : Char) : isNameStart c = true ↔ c.isAlpha = true ∨ c = '_' := by
  simp [isNameStart]

theorem isNamePart_iff (c : Char) :
    isNamePart c = true ↔ c.isAlpha = true ∨ c.isDigit = true ∨ c = '_' := by
  simp only [isNamePart, Bool.or_eq_true, isNameStart_iff]
  exact or_right_comm.trans or_assoc

theorem Word.head {text : List Char} (h : Word text) :
    ∃ c cs, text = c :: cs ∧ isNameStart c = true := by
  cases h with
  | @intro c cs first _ => exact ⟨c, cs, rfl, (isNameStart_iff c).mpr first⟩

theorem Word.parts {text : List Char} (h : Word text) : ∀ c ∈ text, isNamePart c = true := by
  cases h with
  | intro first others =>
    rw [List.forall_mem_cons]
    constructor
    · exact (isNamePart_iff _).mpr (first.imp_right .inr)
    · intro d inside
      exact (isNamePart_iff d).mpr (others d inside)

theorem Word.of_parts {c : Char} {cs : List Char} (start : isNameStart c = true)
    (parts : cs.all isNamePart = true) : Word (c :: cs) := by
  refine .intro ((isNameStart_iff c).mp start) ?_
  intro d inside
  exact (isNamePart_iff d).mp (List.all_eq_true.mp parts d inside)

theorem Keyword.spelling_word (word : Keyword) : Word word.spelling.toList := by
  cases word <;> exact .of_parts (by decide) (by decide)

theorem Numeral.head {text : List Char} (h : Numeral text) :
    ∃ c cs, text = c :: cs ∧ c.isDigit = true := by
  cases h with
  | whole some_digit digits =>
    obtain ⟨c, cs, rfl⟩ := List.exists_cons_of_ne_nil some_digit
    exact ⟨c, cs, rfl, digits c (by simp)⟩
  | @pointed _ places some_digit digits _ _ =>
    obtain ⟨c, cs, rfl⟩ := List.exists_cons_of_ne_nil some_digit
    exact ⟨c, cs ++ '.' :: places, rfl, digits c (by simp)⟩

theorem Punctuation.spelling_cases (mark : Punctuation) : ∃ c,
    (mark.spelling.toList = [c] ∨
      mark.spelling.toList = [c, '='] ∧ c ∈ ['!', '=', '<', '>']) ∧
    isNameStart c = false ∧ c.isDigit = false ∧ c ≠ '"' := by
  cases mark with
  | bangEqual | equalEqual | greaterEqual | lessEqual =>
    exact ⟨_, .inr ⟨rfl, by decide⟩, by decide, by decide, by decide⟩
  | _ => exact ⟨_, .inl rfl, by decide, by decide, by decide⟩

/-- A mark is a character that starts nothing else, or such a character and an equals sign. -/
theorem Punctuation.of_front {mark : Punctuation} {c : Char} {cs : List Char}
    (starts : mark.spelling.toList <+: c :: cs) :
    (mark.spelling.toList = [c] ∨
      mark.spelling.toList = [c, '='] ∧ c ∈ ['!', '=', '<', '>']) ∧
    isNameStart c = false ∧ c.isDigit = false ∧ c ≠ '"' := by
  obtain ⟨d, spelled, apart⟩ := mark.spelling_cases
  obtain rfl : d = c := by
    rcases spelled with spelled | ⟨spelled, -⟩
    · exact (List.cons_prefix_cons.mp (spelled ▸ starts)).1
    · exact (List.cons_prefix_cons.mp (spelled ▸ starts)).1
  exact ⟨spelled, apart⟩

theorem Lexeme.of_front {kind : Kind} {c : Char} {cs front : List Char} (h : Lexeme kind front)
    (starts : front <+: c :: cs) :
    (isNameStart c = true ∧ Word front) ∨ (c.isDigit = true ∧ Numeral front) ∨
    (c = '"' ∧ ∃ inside, '"' ∉ inside ∧ front = '"' :: (inside ++ ['"'])) ∨
    ∃ mark : Punctuation, front = mark.spelling.toList := by
  have heads {d : Char} {ds : List Char} (starts : d :: ds <+: c :: cs) : d = c :=
    (List.cons_prefix_cons.mp starts).1
  have word {front : List Char} (h : Word front) (starts : front <+: c :: cs) :
      isNameStart c = true := by
    obtain ⟨d, ds, rfl, first⟩ := h.head
    exact heads starts ▸ first
  cases h with
  | identifier h _ => exact .inl ⟨word h starts, h⟩
  | keyword w => exact .inl ⟨word w.spelling_word starts, w.spelling_word⟩
  | number h =>
    obtain ⟨d, ds, rfl, digit⟩ := h.head
    exact .inr (.inl ⟨heads starts ▸ digit, h⟩)
  | @string inside closed =>
    exact .inr (.inr (.inl ⟨(heads starts).symm, inside, closed, rfl⟩))
  | punctuation mark => exact .inr (.inr (.inr ⟨mark, rfl⟩))

section Fronts

variable {kind : Kind} {c : Char} {cs front : List Char}

theorem Lexeme.of_nameStart (h : Lexeme kind front) (starts : front <+: c :: cs)
    (start : isNameStart c = true) : Word front := by
  rcases h.of_front starts with ⟨-, word⟩ | ⟨digit, -⟩ | ⟨rfl, -⟩ | ⟨mark, rfl⟩
  · exact word
  · rw [Piece.not_nameStart_of_digit digit] at start
    cases start
  · exact absurd start (by decide)
  · rw [(Punctuation.of_front starts).2.1] at start
    cases start

theorem Lexeme.of_digit (h : Lexeme kind front) (starts : front <+: c :: cs)
    (digit : c.isDigit = true) : Numeral front := by
  rcases h.of_front starts with ⟨start, -⟩ | ⟨-, numeral⟩ | ⟨rfl, -⟩ | ⟨mark, rfl⟩
  · rw [Piece.not_nameStart_of_digit digit] at start
    cases start
  · exact numeral
  · exact absurd digit (by decide)
  · rw [(Punctuation.of_front starts).2.2.1] at digit
    cases digit

theorem Lexeme.of_quote (h : Lexeme kind front) (starts : front <+: '"' :: cs) :
    ∃ inside, '"' ∉ inside ∧ front = '"' :: (inside ++ ['"']) := by
  rcases h.of_front starts with ⟨start, -⟩ | ⟨digit, -⟩ | ⟨-, closed⟩ | ⟨mark, rfl⟩
  · exact absurd start (by decide)
  · exact absurd digit (by decide)
  · exact closed
  · exact absurd rfl (Punctuation.of_front starts).2.2.2

theorem Lexeme.of_other (h : Lexeme kind front) (starts : front <+: c :: cs)
    (no_name : isNameStart c = false) (no_digit : c.isDigit = false) (no_quote : c ≠ '"') :
    ∃ mark : Punctuation, front = mark.spelling.toList := by
  rcases h.of_front starts with ⟨start, -⟩ | ⟨digit, -⟩ | ⟨quote, -⟩ | marked
  · rw [no_name] at start
    cases start
  · rw [no_digit] at digit
    cases digit
  · exact absurd quote no_quote
  · exact marked

theorem Lexeme.of_mark {single : Punctuation} (spelled : single.spelling.toList = [c])
    (h : Lexeme kind front) (starts : front <+: c :: cs) :
    front = [c] ∨ front = [c, '='] ∧ c ∈ ['!', '=', '<', '>'] := by
  have first : single.spelling.toList <+: c :: [] := spelled ▸ List.prefix_rfl
  obtain ⟨-, no_name, no_digit, no_quote⟩ := Punctuation.of_front first
  obtain ⟨mark, rfl⟩ := h.of_other starts no_name no_digit no_quote
  exact (Punctuation.of_front starts).1

end Fronts

theorem prefix_takeWhile {p : Char → Bool} {front text : List Char}
    (all : ∀ c ∈ front, p c = true) (starts : front <+: text) : front <+: text.takeWhile p := by
  obtain ⟨rest, rfl⟩ := starts
  rw [List.takeWhile_append_of_pos all]
  exact List.prefix_append front _

theorem Keyword.ofString_eq_some {name : String} {word : Keyword}
    (found : ofString? name = some word) : word.spelling = name := by
  simpa using List.find?_some found

theorem Keyword.ofString_eq_none {name : String} (absent : ofString? name = none)
    (word : Keyword) : word.spelling ≠ name := by
  have member : word ∈ all := by cases word <;> decide
  simpa using List.find?_eq_none.mp absent word member

@[simp] theorem Keyword.ofString_spelling (word : Keyword) :
    ofString? word.spelling = some word := by
  cases word <;> decide

namespace Piece

variable {c : Char} {cs : List Char}

structure Munches (p : Piece) (text : List Char) : Prop where
  split : p.text ++ p.rest = text
  longest : Longest text p.kind p.text

theorem name_lexeme (start : isNameStart c = true) :
    Lexeme (name (c :: cs)).kind (name (c :: cs)).text := by
  have part : isNamePart c = true := by simp [isNamePart, start]
  have word : Word ((c :: cs).takeWhile isNamePart) := by
    rw [List.takeWhile_cons_of_pos part]
    exact .of_parts start List.all_takeWhile
  simp only [name]
  split
  · rename_i w found
    have spelled := Keyword.ofString_eq_some found
    rw [← String.toList_ofList (l := (c :: cs).takeWhile isNamePart), ← spelled]
    exact .keyword w
  · rename_i absent
    refine .identifier word ?_
    intro w spelled
    apply Keyword.ofString_eq_none absent w
    rw [← spelled, String.ofList_toList]

theorem name_munches (start : isNameStart c = true) : (name (c :: cs)).Munches (c :: cs) := by
  refine ⟨List.takeWhile_append_dropWhile, name_lexeme start, List.takeWhile_prefix _, ?_⟩
  intro kind other lexeme starts
  exact (prefix_takeWhile (lexeme.of_nameStart starts start).parts starts).length_le

theorem number_split (text : List Char) : (number text).text ++ (number text).rest = text := by
  have split := List.takeWhile_append_dropWhile (p := Char.isDigit) (l := text)
  unfold number
  split
  · rename_i d rest behind
    split
    · rw [behind] at split
      simpa using split
    · rw [behind] at split
      exact split
  · exact split

theorem number_whole (text : List Char) : text.takeWhile Char.isDigit <+: (number text).text := by
  unfold number
  split
  · split
    · exact List.prefix_append _ _
    · exact List.prefix_rfl
  · exact List.prefix_rfl

theorem number_pointed {digits places : List Char} (more : List Char)
    (all_digits : ∀ c ∈ digits, c.isDigit = true) (some_place : places ≠ [])
    (all_places : ∀ c ∈ places, c.isDigit = true) :
    digits ++ '.' :: places <+: (number (digits ++ '.' :: (places ++ more))).text := by
  have front : (digits ++ '.' :: (places ++ more)).takeWhile Char.isDigit = digits := by
    rw [List.takeWhile_append_of_pos all_digits]
    simp
  have behind : (digits ++ '.' :: (places ++ more)).dropWhile Char.isDigit =
      '.' :: (places ++ more) := by
    rw [List.dropWhile_append_of_pos all_digits]
    simp
  obtain ⟨d, places, rfl⟩ := List.exists_cons_of_ne_nil some_place
  rw [List.cons_append] at front behind ⊢
  have digit : d.isDigit = true := all_places d (by simp)
  simp only [number, front, behind, digit, if_true]
  rw [List.prefix_append_right_inj, List.cons_prefix_cons]
  exact ⟨rfl, prefix_takeWhile all_places (List.prefix_append (d :: places) more)⟩

theorem number_munches (digit : c.isDigit = true) : (number (c :: cs)).Munches (c :: cs) := by
  have numeral : Lexeme (number (c :: cs)).kind (number (c :: cs)).text := by
    rw [number_kind]
    exact .number (number_numeral cs digit)
  refine ⟨number_split _, numeral, ⟨_, number_split _⟩, ?_⟩
  intro kind other lexeme starts
  cases lexeme.of_digit starts digit with
  | whole _ digits => exact ((prefix_takeWhile digits starts).trans (number_whole _)).length_le
  | pointed _ digits some_place places =>
    obtain ⟨more, split⟩ := starts
    rw [← split, List.append_assoc, List.cons_append]
    exact (number_pointed more digits some_place places).length_le

theorem within_quotes {inside : List Char} (closed : '"' ∉ inside) :
    ∀ d ∈ inside, decide (d ≠ '"') = true := by
  intro d member
  rw [decide_eq_true_eq]
  rintro rfl
  exact closed member

theorem takeWhile_quote {inside : List Char} (closed : '"' ∉ inside) (rest : List Char) :
    (inside ++ '"' :: rest).takeWhile (· ≠ '"') = inside := by
  rw [List.takeWhile_append_of_pos (within_quotes closed)]
  simp

theorem string_closed {inside : List Char} (closed : '"' ∉ inside) (rest : List Char) :
    string (inside ++ '"' :: rest) = ⟨.string, '"' :: (inside ++ ['"']), rest⟩ := by
  have behind : (inside ++ '"' :: rest).dropWhile (· ≠ '"') = '"' :: rest := by
    rw [List.dropWhile_append_of_pos (within_quotes closed)]
    simp
  simp only [string, takeWhile_quote closed, behind]

theorem string_munches (cs : List Char) (closed : '"' ∈ cs) :
    (string cs).Munches ('"' :: cs) := by
  obtain ⟨inside, rest, rfl, first⟩ := List.eq_append_cons_of_mem closed
  rw [string_closed first]
  refine ⟨by simp, .string first, ⟨rest, by simp⟩, ?_⟩
  intro kind other lexeme starts
  obtain ⟨inside', first', rfl⟩ := lexeme.of_quote starts
  have starts' : inside' <+: inside ++ '"' :: rest :=
    (List.prefix_append inside' ['"']).trans (List.cons_prefix_cons.mp starts).2
  have shorter := (prefix_takeWhile (within_quotes first') starts').length_le
  rw [takeWhile_quote first] at shorter
  simpa using shorter

theorem string_open (opened : '"' ∉ cs) :
    string cs = ⟨.fault .unterminatedString, '"' :: cs, []⟩ ∧ NoLexeme ('"' :: cs) := by
  constructor
  · have behind : cs.dropWhile (· ≠ '"') = [] :=
      List.dropWhile_eq_nil_iff.mpr (within_quotes opened)
    simp only [string, behind]
  · intro kind front lexeme starts
    obtain ⟨inside, -, rfl⟩ := lexeme.of_quote starts
    have within := (List.cons_prefix_cons.mp starts).2
    exact opened (within.subset (by simp))

theorem mark_munches {single : Punctuation} (spelled : single.spelling.toList = [c])
    (alone : c ∉ ['!', '=', '<', '>']) (cs : List Char) :
    (mark single [c] cs).Munches (c :: cs) := by
  refine ⟨rfl, spelled ▸ .punctuation single, List.prefix_append [c] cs, ?_⟩
  intro kind other lexeme starts
  rcases lexeme.of_mark spelled starts with rfl | ⟨-, double⟩
  · exact Nat.le_refl 1
  · exact absurd double alone

theorem markOrEqual_munches {single double : Punctuation} (spelled : single.spelling.toList = [c])
    (spelled' : double.spelling.toList = [c, '=']) (cs : List Char) :
    (markOrEqual single double c cs).Munches (c :: cs) := by
  unfold markOrEqual
  split
  · rename_i rest
    refine ⟨rfl, spelled' ▸ .punctuation double, List.prefix_append [c, '='] rest, ?_⟩
    intro kind other lexeme starts
    rcases lexeme.of_mark spelled starts with rfl | ⟨rfl, -⟩
    · exact Nat.le_succ 1
    · exact Nat.le_refl 2
  · rename_i no_equal
    refine ⟨rfl, spelled ▸ .punctuation single, List.prefix_append [c] cs, ?_⟩
    intro kind other lexeme starts
    rcases lexeme.of_mark spelled starts with rfl | ⟨rfl, -⟩
    · exact Nat.le_refl 1
    · obtain ⟨rest, split⟩ := (List.cons_prefix_cons.mp starts).2
      exact absurd split.symm (no_equal rest)

/-- A fault only where no front of the text belongs to a class. -/
inductive Faults (text : List Char) : Piece → Prop where
  | unterminated {cs : List Char} : text = '"' :: cs → NoLexeme text →
      Faults text ⟨.fault .unterminatedString, text, []⟩
  | unexpected {c : Char} {cs : List Char} : text = c :: cs → c ≠ '"' → NoLexeme text →
      Faults text ⟨.fault (.unexpected c), [c], cs⟩

theorem Faults.no_lexeme {text : List Char} {p : Piece} (h : Faults text p) : NoLexeme text := by
  cases h with
  | unterminated _ no_lexeme => exact no_lexeme
  | unexpected _ _ no_lexeme => exact no_lexeme

theorem ofFront_longest (c : Char) (cs : List Char) :
    (ofFront c cs).Munches (c :: cs) ∨ Faults (c :: cs) (ofFront c cs) := by
  unfold ofFront
  split
  · rename_i start
    exact .inl (name_munches start)
  · rename_i no_name
    split
    · rename_i digit
      exact .inl (number_munches digit)
    · rename_i no_digit
      -- A case for each character that starts a mark, one for the quote, and one for all others.
      split
      all_goals first
        | exact .inl (mark_munches rfl (by decide) cs)
        | exact .inl (markOrEqual_munches rfl rfl cs)
        | skip
      · by_cases closed : '"' ∈ cs
        · exact .inl (string_munches cs closed)
        · obtain ⟨cut, no_lexeme⟩ := string_open closed
          rw [cut]
          exact .inr (.unterminated rfl no_lexeme)
      · rename_i no_quote
        refine .inr (.unexpected rfl no_quote ?_)
        intro kind front lexeme starts
        obtain ⟨mark, rfl⟩ := lexeme.of_other starts (by simpa using no_name)
          (by simpa using no_digit) no_quote
        -- Every mark starts with a character that has a case of its own above.
        cases mark with
        | _ =>
          have first := (List.cons_prefix_cons.mp starts).1.symm
          contradiction

theorem ofFront_word {front : List Char} (word : Word front) :
    ∃ c cs, front = c :: cs ∧ ofFront c cs = name front ∧
      front.takeWhile isNamePart = front := by
  have whole := List.takeWhile_eq_self_iff.mpr word.parts
  obtain ⟨c, cs, rfl, start⟩ := word.head
  exact ⟨c, cs, rfl, if_pos start, whole⟩

end Piece

namespace Lexeme

variable {kind kind' : Kind} {front : List Char}

theorem ofFront_kind (h : Lexeme kind front) :
    ∃ c cs, front = c :: cs ∧ (Piece.ofFront c cs).kind = kind := by
  cases h with
  | punctuation mark => cases mark <;> exact ⟨_, _, rfl, rfl⟩
  | identifier word plain =>
    obtain ⟨c, cs, front, cut, whole⟩ := Piece.ofFront_word word
    refine ⟨c, cs, front, ?_⟩
    simp only [cut, Piece.name, whole]
    split
    · rename_i w found
      exact absurd (by rw [Keyword.ofString_eq_some found, String.toList_ofList]) (plain w)
    · rfl
  | keyword w =>
    obtain ⟨c, cs, front, cut, whole⟩ := Piece.ofFront_word w.spelling_word
    refine ⟨c, cs, front, ?_⟩
    simp only [cut, Piece.name, whole, String.ofList_toList, Keyword.ofString_spelling]
  | number numeral =>
    obtain ⟨c, cs, rfl, digit⟩ := numeral.head
    exact ⟨c, cs, rfl, by rw [Piece.ofFront_digit cs digit, Piece.number_kind]⟩
  | @string inside closed =>
    exact ⟨'"', inside ++ ['"'], rfl, congrArg Piece.kind (Piece.string_closed closed [])⟩

theorem kind_unique (h : Lexeme kind front) (h' : Lexeme kind' front) : kind = kind' := by
  obtain ⟨c, cs, rfl, found⟩ := h.ofFront_kind
  obtain ⟨_, _, same, found'⟩ := h'.ofFront_kind
  cases same
  exact found.symm.trans found'

theorem not_nil (h : Lexeme kind front) : front ≠ [] := by
  obtain ⟨c, cs, rfl, -⟩ := h.ofFront_kind
  exact List.cons_ne_nil c cs

theorem shown {t : Token} (h : Lexeme t.kind front) : t.shown = t.lexeme := by
  obtain ⟨kind, lexeme, line⟩ := t
  cases h <;> rfl

end Lexeme

namespace Stream

variable {s : Stream} {c : Char} {cs : List Char}

theorem token_ending (done : s.scanner.skip.rest = []) :
    s.token.1.kind = .endOfInput ∧ s.token.2.scanner.rest = [] := by
  simp [token, Scanner.next, done, Token.ending]

theorem token_of_front (left : s.scanner.skip.rest = c :: cs) :
    s.token.1.kind = (Piece.ofFront c cs).kind ∧
    s.token.1.lexeme = String.ofList (Piece.ofFront c cs).text ∧
    s.token.2.scanner.rest = (Piece.ofFront c cs).rest := by
  simp [token, Scanner.next, left]

theorem token_lexeme {kind : Kind} {front : List Char} (lexeme : Lexeme kind front)
    (starts : front <+: s.scanner.skip.rest) :
    ∃ front, Longest s.scanner.skip.rest s.token.1.kind front ∧
      s.token.1.shown = String.ofList front ∧
      s.scanner.skip.rest = front ++ s.token.2.scanner.rest := by
  obtain ⟨c, cs, left⟩ : ∃ c cs, s.scanner.skip.rest = c :: cs := by
    apply List.exists_cons_of_ne_nil
    intro done
    rw [done] at starts
    exact lexeme.not_nil (List.prefix_nil.mp starts)
  obtain ⟨same_kind, same_text, same_rest⟩ := token_of_front left
  rw [left] at starts ⊢
  rw [same_rest]
  obtain ⟨split, longest⟩ | faults := Piece.ofFront_longest c cs
  · rw [← same_kind] at longest
    exact ⟨_, longest, longest.lexeme.shown.trans same_text, split.symm⟩
  · exact absurd starts (faults.no_lexeme kind front lexeme)

theorem token_fault (left : s.scanner.skip.rest = c :: cs) (no_lexeme : NoLexeme (c :: cs)) :
    (c = '"' → s.token.1.kind = .fault .unterminatedString ∧
      s.token.1.shown = "unterminated string" ∧ s.token.2.scanner.rest = []) ∧
    (c ≠ '"' → s.token.1.kind = .fault (.unexpected c) ∧
      s.token.1.shown = "unexpected character '" ++ c.toString ++ "'" ∧
      s.token.2.scanner.rest = cs) := by
  obtain ⟨same_kind, -, same_rest⟩ := token_of_front left
  obtain munches | faults := Piece.ofFront_longest c cs
  · exact absurd munches.longest.starts (no_lexeme _ _ munches.longest.lexeme)
  · generalize Piece.ofFront c cs = piece at *
    cases faults with
    | unterminated quote _ =>
      cases quote
      have shown : s.token.1.shown = "unterminated string" := by
        rw [Token.shown, same_kind]
        rfl
      exact ⟨fun _ => ⟨same_kind, shown, same_rest⟩, (absurd rfl ·)⟩
    | unexpected front no_quote _ =>
      cases front
      have shown : s.token.1.shown = "unexpected character '" ++ c.toString ++ "'" := by
        rw [Token.shown, same_kind]
        rfl
      exact ⟨(absurd · no_quote), fun _ => ⟨same_kind, shown, same_rest⟩⟩

/-- Each call drops the longest run of trivia and cuts off the longest text of a class, and a
fault where there is none. -/
theorem token_longest_match (s : Stream) : ∃ trivia rest,
    s.scanner.rest = trivia ++ rest ∧ Trivia rest trivia ∧
    (∀ trivia' rest', s.scanner.rest = trivia' ++ rest' → Trivia rest' trivia' →
      trivia'.length ≤ trivia.length) ∧
    (rest = [] → s.token.1.kind = .endOfInput ∧ s.token.2.scanner.rest = []) ∧
    ((∃ kind front, Lexeme kind front ∧ front <+: rest) →
      ∃ front, Longest rest s.token.1.kind front ∧
        (∀ kind, Lexeme kind front → kind = s.token.1.kind) ∧
        s.token.1.shown = String.ofList front ∧ rest = front ++ s.token.2.scanner.rest) ∧
    (NoLexeme rest → ∀ c cs, rest = c :: cs →
      (c = '"' → s.token.1.kind = .fault .unterminatedString ∧
        s.token.1.shown = "unterminated string" ∧ s.token.2.scanner.rest = []) ∧
      (c ≠ '"' → s.token.1.kind = .fault (.unexpected c) ∧
        s.token.1.shown = "unexpected character '" ++ c.toString ++ "'" ∧
        s.token.2.scanner.rest = cs)) := by
  obtain ⟨trivia, split, run⟩ := s.scanner.skip_skipped
  refine ⟨trivia, s.scanner.skip.rest, split, run, ?_, token_ending, ?_, ?_⟩
  · intro trivia' rest' split' run'
    have shorter := (Scanner.skip_longest split' run').length_le
    have same_length := congrArg List.length (split.symm.trans split')
    simp only [List.length_append] at same_length
    omega
  · rintro ⟨kind, front, lexeme, starts⟩
    obtain ⟨front, longest, shown, rest⟩ := token_lexeme lexeme starts
    exact ⟨front, longest, fun kind other => other.kind_unique longest.lexeme, shown, rest⟩
  · rintro no_lexeme c cs left
    exact token_fault left (left ▸ no_lexeme)

end Stream
end StackCalc
