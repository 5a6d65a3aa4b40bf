import StackCalc.Proofs.Text.Utf8
import StackCalc.Proofs.Token.Keywords
import StackCalc.Proofs.Token.Spacing

/-! Scanning by bytes. A cursor holds a text as its bytes, with two offsets into them: where the
token at hand starts, and where reading stands. It moves from byte to byte, also inside characters,
and takes text out between its offsets, which has no result anywhere but between characters. All it
does has a result, and its tokens are those that are read character by character. -/
namespace StackCalc

structure Cursor where
  bytes : List UInt8
  start : Nat
  current : Nat
  line : Nat

namespace Cursor

def ofString (source : String) : Cursor := ⟨source.toByteArray.data.toList, 0, 0, 1⟩

/-- The byte ahead, as a character. Bytes of longer characters give some character beyond ASCII. -/
def peek? (c : Cursor) : Option Char := c.bytes[c.current]?.map Char.ofUInt8

def peekNext? (c : Cursor) : Option Char := c.bytes[c.current + 1]?.map Char.ofUInt8

def forth (c : Cursor) : Cursor := { c with current := c.current + 1 }

def ahead (c : Cursor) (p : Char → Bool) : List UInt8 :=
  (c.bytes.drop c.current).takeWhile fun byte => p (Char.ofUInt8 byte)

def passWhile (p : Char → Bool) (c : Cursor) : Cursor :=
  { c with current := c.current + (c.ahead p).length }

theorem current_lt {c : Cursor} {first : Char} (there : c.peek? = some first) :
    c.current < c.bytes.length := by
  unfold peek? at there
  obtain ⟨byte, found, -⟩ := Option.map_eq_some_iff.mp there
  exact (List.getElem?_eq_some_iff.mp found).1

theorem ahead_pos {c : Cursor} {p : Char → Bool} {first : Char} (there : c.peek? = some first)
    (passes : p first = true) : 0 < (c.ahead p).length := by
  obtain ⟨byte, found, rfl⟩ := Option.map_eq_some_iff.mp there
  obtain ⟨inside, rfl⟩ := List.getElem?_eq_some_iff.mp found
  have some_byte : c.ahead p ≠ [] := by
    rw [ahead, List.drop_eq_getElem_cons inside, List.takeWhile_cons, if_pos passes]
    exact List.cons_ne_nil _ _
  exact List.length_pos_iff.mpr some_byte

def skip (c : Cursor) : Cursor :=
  match _ : c.peek? with
  | none => c
  | some first =>
    if first = ' ' ∨ first = '\r' ∨ first = '\t' then skip c.forth
    else if first = '\n' then skip { c.forth with line := c.line + 1 }
    else if _ : first = '/' ∧ c.peekNext? = some '/' then skip (c.passWhile (· ≠ '\n'))
    else c
termination_by c.bytes.length - c.current
decreasing_by
  · rename_i there _
    have inside := current_lt there
    simp only [forth]
    omega
  · rename_i there _ _
    have inside := current_lt there
    simp only [forth]
    omega
  · rename_i there _ _ slashes
    have inside := current_lt there
    have some_byte := ahead_pos (p := (· ≠ '\n')) there (by simp [slashes.1])
    simp only [passWhile]
    omega

def cut (kind : Kind) (c : Cursor) : Option (Token × Cursor) :=
  (Text.slice? c.bytes c.start c.current).map fun text => (⟨kind, text, c.line⟩, c)

def cutOrEqual (single double : Punctuation) (c : Cursor) : Option (Token × Cursor) :=
  if c.peek? = some '=' then c.forth.cut (.punctuation double) else c.cut (.punctuation single)

def lexeme? (c : Cursor) : Option (List Char) :=
  if c.start ≤ c.current ∧ c.current ≤ c.bytes.length then
    some (((c.bytes.take c.current).drop c.start).map Char.ofUInt8)
  else none

def name (c : Cursor) : Option (Token × Cursor) :=
  let c := c.passWhile isNamePart
  (c.lexeme?.bind Keyword.classOf).bind fun kind => c.cut kind

def number (c : Cursor) : Option (Token × Cursor) :=
  let c := c.passWhile Char.isDigit
  if c.peek? = some '.' ∧ c.peekNext?.any Char.isDigit then
    (c.forth.passWhile Char.isDigit).cut .number
  else c.cut .number

/-- The line goes on with each line feed inside. -/
def string (c : Cursor) : Option (Token × Cursor) :=
  let inside := c.ahead (· ≠ '"')
  let c := { c with current := c.current + inside.length, line := c.line + inside.count 10 }
  match c.peek? with
  | none => c.cut (.fault .unterminatedString)
  | some _ => c.forth.cut .string

def unexpected (c : Cursor) : Option (Token × Cursor) :=
  match Text.slice? c.bytes c.start c.bytes.length with
  | none => none
  | some rest =>
    let found := rest.toList.headD '\uFFFD'
    { c with current := c.start + found.utf8Size }.cut (.fault (.unexpected found))

def readOn (first : Char) (c : Cursor) : Option (Token × Cursor) :=
  if isNameStart first then c.name
  else if first.isDigit then c.number
  else match first with
    | '(' => c.cut (.punctuation .leftParen)
    | ')' => c.cut (.punctuation .rightParen)
    | '{' => c.cut (.punctuation .leftBrace)
    | '}' => c.cut (.punctuation .rightBrace)
    | ',' => c.cut (.punctuation .comma)
    | '.' => c.cut (.punctuation .dot)
    | '-' => c.cut (.punctuation .minus)
    | '+' => c.cut (.punctuation .plus)
    | ';' => c.cut (.punctuation .semicolon)
    | '/' => c.cut (.punctuation .slash)
    | '*' => c.cut (.punctuation .star)
    | '%' => c.cut (.punctuation .percent)
    | '!' => c.cutOrEqual .bang .bangEqual
    | '=' => c.cutOrEqual .equal .equalEqual
    | '<' => c.cutOrEqual .less .lessEqual
    | '>' => c.cutOrEqual .greater .greaterEqual
    | '"' => c.string
    | _ => c.unexpected

def token (c : Cursor) : Option (Token × Cursor) :=
  let c := { c.skip with start := c.skip.current }
  match c.peek? with
  | none => some (.ending c.line, c)
  | some first => c.forth.readOn first

structure Stands (c : Cursor) (before rest : List Char) : Prop where
  bytes : c.bytes = Text.utf8 (before ++ rest)
  current : c.current = (Text.utf8 before).length

namespace Stands

variable {c : Cursor} {before rest cs : List Char} {first ch : Char}

theorem drop (stands : c.Stands before rest) : c.bytes.drop c.current = Text.utf8 rest := by
  simp [stands.bytes, stands.current]

theorem peek_head (stands : c.Stands before rest) :
    c.peek? = (Text.utf8 rest).head?.map Char.ofUInt8 := by
  rw [← stands.drop, List.head?_drop]
  rfl

theorem peek_nil (stands : c.Stands before []) : c.peek? = none := stands.peek_head

/-- The byte ahead is the character ahead, or both are beyond ASCII. -/
theorem peek_cons (stands : c.Stands before (ch :: cs)) : ∃ first, c.peek? = some first ∧
    (ch.toNat < 128 ∧ first = ch ∨ 128 ≤ ch.toNat ∧ 128 ≤ first.toNat) := by
  rw [stands.peek_head]
  by_cases ascii : ch.toNat < 128
  · rw [Text.utf8_ascii ascii]
    exact ⟨_, rfl, .inl ⟨ascii, Text.ofUInt8_ofNat ascii⟩⟩
  · obtain ⟨first, others, bytes, high, -⟩ := Text.char_beyond (Nat.not_lt.mp ascii)
    rw [Text.utf8_cons, bytes]
    refine ⟨_, rfl, .inr ⟨Nat.not_lt.mp ascii, ?_⟩⟩
    rw [Text.ofUInt8_toNat]
    exact Nat.le_trans (by decide) high

theorem peek_any (stands : c.Stands before rest) {p : Char → Bool} {beyond : Bool}
    (alike : ∀ c : Char, 128 ≤ c.toNat → p c = beyond) : c.peek?.any p = rest.head?.any p := by
  cases rest with
  | nil => rw [stands.peek_nil, List.head?_nil]
  | cons ch cs =>
    obtain ⟨first, there, ⟨-, rfl⟩ | ⟨far, far'⟩⟩ := stands.peek_cons
    · rw [there, List.head?_cons]
    · simp [there, alike _ far, alike _ far']

theorem peek_eq (stands : c.Stands before rest) (ascii : ch.toNat < 128) :
    c.peek? = some ch ↔ rest.head? = some ch := by
  cases rest with
  | nil => rw [stands.peek_nil, List.head?_nil]
  | cons d ds =>
    obtain ⟨first, there, ⟨-, rfl⟩ | ⟨far, far'⟩⟩ := stands.peek_cons
    · rw [there, List.head?_cons]
    · rw [there, List.head?_cons, Option.some_inj, Option.some_inj]
      constructor <;> (rintro rfl; omega)

theorem forth (stands : c.Stands before (ch :: cs)) (ascii : ch.toNat < 128) :
    c.forth.Stands (before ++ [ch]) cs where
  bytes := by simp [Cursor.forth, stands.bytes]
  current := by
    rw [Text.utf8_append, List.length_append, Text.utf8_ascii ascii, Cursor.forth, stands.current]
    rfl

theorem ahead (stands : c.Stands before rest) {p : Char → Bool} {beyond : Bool}
    (alike : ∀ c : Char, 128 ≤ c.toNat → p c = beyond) :
    c.ahead p = Text.utf8 (rest.takeWhile p) := by
  rw [Cursor.ahead, stands.drop, Text.takeWhile_utf8 alike]

theorem passWhile (stands : c.Stands before rest) {p : Char → Bool} {beyond : Bool}
    (alike : ∀ c : Char, 128 ≤ c.toNat → p c = beyond) :
    (c.passWhile p).Stands (before ++ rest.takeWhile p) (rest.dropWhile p) where
  bytes := by
    rw [List.append_assoc, List.takeWhile_append_dropWhile]
    exact stands.bytes
  current := by
    simp [Cursor.passWhile, stands.current, stands.ahead alike]

end Stands

theorem le_of_ascii {c : Char} {bound : UInt32} (low : bound.toNat < 128) (within : c.val ≤ bound) :
    c.toNat < 128 :=
  Nat.lt_of_le_of_lt (UInt32.le_iff_toNat_le.mp within) low

theorem digit_beyond (c : Char) (beyond : 128 ≤ c.toNat) : c.isDigit = false := by
  have above : ¬ c.val ≤ 57 := fun within =>
    Nat.not_lt.mpr beyond (le_of_ascii (by decide) within)
  simp [Char.isDigit, above]

theorem nameStart_beyond (c : Char) (beyond : 128 ≤ c.toNat) : isNameStart c = false := by
  have upper : ¬ c.val ≤ 90 := fun within =>
    Nat.not_lt.mpr beyond (le_of_ascii (by decide) within)
  have lower : ¬ c.val ≤ 122 := fun within =>
    Nat.not_lt.mpr beyond (le_of_ascii (by decide) within)
  have not_underscore : c ≠ '_' := by rintro rfl; exact absurd beyond (by decide)
  delta isNameStart Char.isAlpha Char.isUpper Char.isLower
  simp [upper, lower, not_underscore]

theorem namePart_beyond (c : Char) (beyond : 128 ≤ c.toNat) : isNamePart c = false := by
  simp [isNamePart, nameStart_beyond c beyond, digit_beyond c beyond]

theorem quote_beyond (c : Char) (beyond : 128 ≤ c.toNat) : decide (c ≠ '"') = true :=
  decide_eq_true (by rintro rfl; exact absurd beyond (by decide))

theorem not_feed_beyond (c : Char) (beyond : 128 ≤ c.toNat) : decide (c ≠ '\n') = true :=
  decide_eq_true (by rintro rfl; exact absurd beyond (by decide))

theorem comment_split {inside after : List Char} (one_line : '\n' ∉ inside)
    (ended : ∀ c ∈ after.head?, c = '\n') :
    ('/' :: '/' :: (inside ++ after)).takeWhile (· ≠ '\n') = '/' :: '/' :: inside ∧
      ('/' :: '/' :: (inside ++ after)).dropWhile (· ≠ '\n') = after := by
  have all : ∀ c ∈ '/' :: '/' :: inside, decide (c ≠ '\n') = true := by
    simp only [List.forall_mem_cons]
    refine ⟨by decide, by decide, fun c member => decide_eq_true ?_⟩
    rintro rfl
    exact one_line member
  have stops : after.takeWhile (· ≠ '\n') = [] ∧ after.dropWhile (· ≠ '\n') = after := by
    cases after with
    | nil => exact ⟨rfl, rfl⟩
    | cons d ds => simp [ended d rfl]
  constructor
  · rw [← List.cons_append, ← List.cons_append, List.takeWhile_append_of_pos all, stops.1,
      List.append_nil]
  · rw [← List.cons_append, ← List.cons_append, List.dropWhile_append_of_pos all, stops.2]

theorem skip_stands {c : Cursor} {before rest : List Char} (stands : c.Stands before rest) :
    ∃ trivia, rest = trivia ++ (Scanner.skipFrom false c.line rest).rest ∧
      c.skip.Stands (before ++ trivia) (Scanner.skipFrom false c.line rest).rest ∧
      c.skip.line = (Scanner.skipFrom false c.line rest).line := by
  -- By the moves of the cursor, with the text in front growing by what each of them passes.
  fun_induction skip c generalizing before rest with
  | case1 c nothing =>
    cases rest with
    | nil => exact ⟨[], rfl, by rwa [List.append_nil], rfl⟩
    | cons ch cs =>
      obtain ⟨first, there, -⟩ := stands.peek_cons
      rw [there] at nothing
      cases nothing
  | case2 c first there space ih =>
    have ascii : first.toNat < 128 := by rcases space with rfl | rfl | rfl <;> decide
    obtain ⟨cs, rfl⟩ := List.head?_eq_some_iff.mp ((stands.peek_eq ascii).mp there)
    obtain ⟨trivia, split, behind, line⟩ := ih (stands.forth ascii)
    rw [Scanner.skipFrom_space space]
    rw [List.append_assoc] at behind
    exact ⟨first :: trivia, congrArg _ split, behind, line⟩
  | case3 c there no_space ih =>
    have ascii : '\n'.toNat < 128 := by decide
    obtain ⟨cs, rfl⟩ := List.head?_eq_some_iff.mp ((stands.peek_eq ascii).mp there)
    have next := stands.forth ascii
    obtain ⟨trivia, split, behind, line⟩ := ih ⟨next.bytes, next.current⟩
    rw [Scanner.skipFrom_feed]
    rw [List.append_assoc] at behind
    exact ⟨'\n' :: trivia, congrArg _ split, behind, line⟩
  | case4 c first there no_space no_feed slashes ih =>
    obtain ⟨rfl, second⟩ := slashes
    have ascii : '/'.toNat < 128 := by decide
    obtain ⟨cs, rfl⟩ := List.head?_eq_some_iff.mp ((stands.peek_eq ascii).mp there)
    obtain ⟨body, rfl⟩ := List.head?_eq_some_iff.mp (((stands.forth ascii).peek_eq ascii).mp second)
    obtain ⟨inside, after, rfl, one_line, ended⟩ := Scanner.line_end body
    obtain ⟨passed, left⟩ := comment_split one_line ended
    have next := stands.passWhile not_feed_beyond
    rw [passed, left] at next
    obtain ⟨trivia, split, behind, line⟩ := ih next
    simp only [Scanner.skipFrom_slashes, Scanner.skipFrom_inside one_line,
      Scanner.skipFrom_over ended]
    refine ⟨'/' :: '/' :: (inside ++ trivia), ?_, ?_, line⟩
    · rw [List.cons_append, List.cons_append, List.append_assoc]
      exact congrArg (fun after => '/' :: '/' :: (inside ++ after)) split
    · rw [List.append_assoc] at behind
      exact behind
  | case5 c first there no_space no_feed no_slashes =>
    cases rest with
    | nil =>
      rw [stands.peek_nil] at there
      cases there
    | cons ch cs =>
      obtain ⟨first', there', ⟨ascii, rfl⟩ | ⟨far, far'⟩⟩ := stands.peek_cons
      · obtain rfl : first = first' := Option.some.inj (there.symm.trans there')
        have no_slashes' : ¬ (first = '/' ∧ cs.head? = some '/') := by
          rintro ⟨rfl, second⟩
          exact no_slashes ⟨rfl, ((stands.forth ascii).peek_eq ascii).mpr second⟩
        rw [Scanner.skipFrom_stop no_feed no_space no_slashes']
        exact ⟨[], rfl, by rwa [List.append_nil], rfl⟩
      · -- A first byte beyond ASCII stops the cursor, and so does the character it belongs to.
        have apart (d : Char) (ascii : d.toNat < 128) : ch ≠ d := by
          rintro rfl
          omega
        rw [Scanner.skipFrom_stop (apart _ (by decide))]
        · exact ⟨[], rfl, by rwa [List.append_nil], rfl⟩
        · rintro (space | space | space) <;> exact apart _ (by decide) space
        · exact fun slashes => apart _ (by decide) slashes.1

structure Read (c : Cursor) (before : List Char) (piece : Piece) : Prop where
  stands : c.Stands (before ++ piece.text) piece.rest
  start : c.start = (Text.utf8 before).length

def Cuts (before : List Char) (piece : Piece) (line : Nat) (result : Option (Token × Cursor)) :
    Prop :=
  ∃ c : Cursor, result = some (⟨piece.kind, String.ofList piece.text, c.line⟩, c) ∧
    c.Read before piece ∧ c.line = line + piece.text.count '\n'

variable {c : Cursor} {before cs : List Char} {ch : Char} {piece : Piece}

theorem Read.slice (read : c.Read before piece) :
    Text.slice? c.bytes c.start c.current = some (String.ofList piece.text) := by
  simp only [read.stands.bytes, read.stands.current, read.start, Text.slice_between]

theorem Read.lexeme (read : c.Read before piece) (ascii : ∀ ch ∈ piece.text, ch.toNat < 128) :
    c.lexeme? = some piece.text := by
  have ordered : c.start ≤ c.current := by
    simp [read.start, read.stands.current]
  have inside : c.current ≤ c.bytes.length := by
    simp [read.stands.current, read.stands.bytes]
  rw [lexeme?, if_pos ⟨ordered, inside⟩, read.stands.bytes, read.stands.current, read.start,
    Text.bytes_between, Text.ofUInt8_utf8 ascii]

theorem Read.cuts {line : Nat} (read : c.Read before piece)
    (down : c.line = line + piece.text.count '\n') : Cuts before piece line (c.cut piece.kind) := by
  refine ⟨c, ?_, read, down⟩
  rw [cut, read.slice]
  rfl

/-- Of all classes, only strings take up more than one line. -/
theorem Read.cuts_lexeme (read : c.Read before piece) (lexeme : Lexeme piece.kind piece.text)
    (no_string : piece.kind ≠ .string) : Cuts before piece c.line (c.cut piece.kind) := by
  have one_line : piece.text.count '\n' = 0 := by
    rw [List.count_eq_zero]
    intro inside
    obtain ⟨body, closed, string⟩ := lexeme.string_of_space (.inl rfl) inside
    rw [string] at lexeme
    exact no_string (lexeme.kind_unique (.string closed))
  exact read.cuts (congrArg (c.line + ·) one_line).symm

theorem number_with_point {text more : List Char} (left : text.dropWhile Char.isDigit = '.' :: more)
    (place : more.head?.any Char.isDigit = true) : Piece.number text =
      ⟨.number, text.takeWhile Char.isDigit ++ '.' :: more.takeWhile Char.isDigit,
        more.dropWhile Char.isDigit⟩ := by
  cases more with
  | nil => cases place
  | cons d rest =>
    have digit : d.isDigit = true := place
    simp only [Piece.number, left, if_pos digit]

theorem number_without_point {text : List Char} (unpointed : ∀ more,
    text.dropWhile Char.isDigit = '.' :: more → more.head?.any Char.isDigit = false) :
    Piece.number text = ⟨.number, text.takeWhile Char.isDigit, text.dropWhile Char.isDigit⟩ := by
  unfold Piece.number
  split
  · rename_i d rest left
    have no_digit : d.isDigit = false := unpointed _ left
    rw [if_neg (by simp [no_digit]), left]
  · rfl

section

variable (start : c.start = (Text.utf8 before).length)

include start

theorem mark_cuts {single : Punctuation} (spelled : single.spelling.toList = [ch])
    (stands : c.Stands (before ++ [ch]) cs) :
    Cuts before (.mark single [ch] cs) c.line (c.cut (.punctuation single)) :=
  Read.cuts_lexeme ⟨stands, start⟩ (spelled ▸ Lexeme.punctuation single) nofun

theorem cutOrEqual_cuts {single double : Punctuation} (spelled : single.spelling.toList = [ch])
    (spelled' : double.spelling.toList = [ch, '=']) (stands : c.Stands (before ++ [ch]) cs) :
    Cuts before (.markOrEqual single double ch cs) c.line (c.cutOrEqual single double) := by
  have equal : '='.toNat < 128 := by decide
  unfold Piece.markOrEqual cutOrEqual
  split
  · rename_i more
    rw [if_pos ((stands.peek_eq equal).mpr rfl)]
    have next := stands.forth equal
    rw [List.append_assoc] at next
    have read : c.forth.Read before (.mark double [ch, '='] more) := ⟨next, start⟩
    exact read.cuts_lexeme (spelled' ▸ Lexeme.punctuation double) nofun
  · rename_i no_equal
    rw [if_neg]
    · exact mark_cuts start spelled stands
    · intro there
      obtain ⟨more, rfl⟩ := List.head?_eq_some_iff.mp ((stands.peek_eq equal).mp there)
      exact no_equal more rfl

theorem name_cuts (named : isNameStart ch = true) (stands : c.Stands (before ++ [ch]) cs) :
    Cuts before (.name (ch :: cs)) c.line c.name := by
  have part : isNamePart ch = true := by simp [isNamePart, named]
  have next := stands.passWhile namePart_beyond
  rw [List.append_assoc, List.singleton_append] at next
  have lexeme : Lexeme (Piece.name (ch :: cs)).kind (Piece.name (ch :: cs)).text :=
    Piece.name_lexeme named
  have text : (Piece.name (ch :: cs)).text = ch :: cs.takeWhile isNamePart :=
    List.takeWhile_cons_of_pos part
  have rest : (Piece.name (ch :: cs)).rest = cs.dropWhile isNamePart :=
    List.dropWhile_cons_of_pos part
  have read : (c.passWhile isNamePart).Read before (.name (ch :: cs)) := by
    refine ⟨?_, start⟩
    rw [text, rest]
    exact next
  have no_string : (Piece.name (ch :: cs)).kind ≠ .string := by
    unfold Piece.name
    dsimp only
    split <;> simp
  have ascii : ∀ d ∈ (Piece.name (ch :: cs)).text, d.toNat < 128 := by
    intro d inside
    by_contra beyond
    have named : isNamePart d = true := List.mem_takeWhile_imp inside
    rw [namePart_beyond d (Nat.not_lt.mp beyond)] at named
    cases named
  have class_known : Keyword.classOf (Piece.name (ch :: cs)).text =
      some (Piece.name (ch :: cs)).kind := by
    have told := Keyword.classOf_word ch (cs.takeWhile isNamePart)
    rw [← text] at told
    exact told
  simp only [Cursor.name, read.lexeme ascii, Option.bind_some, class_known]
  exact read.cuts_lexeme lexeme no_string

theorem number_cuts (digit : ch.isDigit = true) (stands : c.Stands (before ++ [ch]) cs) :
    Cuts before (.number (ch :: cs)) c.line c.number := by
  have whole : (ch :: cs).takeWhile Char.isDigit = ch :: cs.takeWhile Char.isDigit :=
    List.takeWhile_cons_of_pos digit
  have behind : (ch :: cs).dropWhile Char.isDigit = cs.dropWhile Char.isDigit :=
    List.dropWhile_cons_of_pos digit
  have munches : (Piece.number (ch :: cs)).Munches (ch :: cs) := Piece.number_munches digit
  have lexeme := munches.longest.lexeme
  have point : '.'.toNat < 128 := by decide
  have next := stands.passWhile digit_beyond
  rw [List.append_assoc, List.singleton_append, ← whole, ← behind] at next
  have parts : c.number = if (c.passWhile Char.isDigit).peek? = some '.' ∧
      (c.passWhile Char.isDigit).forth.peek?.any Char.isDigit then
    ((c.passWhile Char.isDigit).forth.passWhile Char.isDigit).cut .number
    else (c.passWhile Char.isDigit).cut .number := rfl
  rw [parts]
  split
  · rename_i pointed
    obtain ⟨at_point, place⟩ := pointed
    obtain ⟨more, left⟩ := List.head?_eq_some_iff.mp ((next.peek_eq point).mp at_point)
    rw [left] at next
    rw [(next.forth point).peek_any digit_beyond] at place
    have further := (next.forth point).passWhile digit_beyond
    rw [List.append_assoc, List.append_assoc, List.singleton_append] at further
    rw [number_with_point left place] at lexeme ⊢
    have read : ((c.passWhile Char.isDigit).forth.passWhile Char.isDigit).Read before
      ⟨.number, _, more.dropWhile Char.isDigit⟩ := ⟨further, start⟩
    exact read.cuts_lexeme lexeme nofun
  · rename_i no_point
    have unpointed : ∀ more, (ch :: cs).dropWhile Char.isDigit = '.' :: more →
        more.head?.any Char.isDigit = false := by
      intro more left
      rw [left] at next
      rw [Bool.eq_false_iff]
      intro place
      apply no_point
      exact ⟨(next.peek_eq point).mpr rfl, ((next.forth point).peek_any digit_beyond).trans place⟩
    rw [number_without_point unpointed] at lexeme ⊢
    have read : (c.passWhile Char.isDigit).Read before
      ⟨.number, (ch :: cs).takeWhile Char.isDigit, _⟩ := ⟨next, start⟩
    exact read.cuts_lexeme lexeme nofun

theorem string_cuts (stands : c.Stands (before ++ ['"']) cs) :
    Cuts before (.string cs) c.line c.string := by
  let inside : Cursor := { c.passWhile (· ≠ '"') with
    line := c.line + (c.ahead (· ≠ '"')).count 10 }
  have parts : c.string = match inside.peek? with
    | none => inside.cut (.fault .unterminatedString)
    | some _ => inside.forth.cut .string := rfl
  have next : inside.Stands (before ++ ['"'] ++ cs.takeWhile (· ≠ '"'))
      (cs.dropWhile (· ≠ '"')) :=
    have passed := stands.passWhile quote_beyond
    ⟨passed.bytes, passed.current⟩
  have feeds : inside.line = c.line + (cs.takeWhile (· ≠ '"')).count '\n' := by
    have bytes := Text.count_utf8 (c := '\n') (by decide) (cs.takeWhile (· ≠ '"'))
    rw [← stands.ahead quote_beyond] at bytes
    exact congrArg (c.line + ·) bytes
  have split := List.takeWhile_append_dropWhile (p := (· ≠ '"')) (l := cs)
  rw [parts]
  by_cases closed : '"' ∈ cs
  · obtain ⟨body, rest, rfl, first⟩ := List.eq_append_cons_of_mem closed
    rw [Piece.takeWhile_quote first] at next feeds split
    rw [List.append_cancel_left_eq] at split
    rw [split] at next
    have quote : '"'.toNat < 128 := by decide
    have there : inside.peek? = some '"' := (next.peek_eq quote).mpr rfl
    have further := next.forth quote
    have down : inside.forth.line = c.line + body.count '\n' := feeds
    have read : inside.forth.Read before ⟨.string, '"' :: (body ++ ['"']), rest⟩ :=
      ⟨by simpa using further, start⟩
    rw [there, Piece.string_closed first]
    exact read.cuts (by simpa using down)
  · have none_left : cs.dropWhile (· ≠ '"') = [] :=
      List.dropWhile_eq_nil_iff.mpr (Piece.within_quotes closed)
    rw [none_left, List.append_nil] at split
    rw [none_left] at next
    rw [split] at next feeds
    have read : inside.Read before ⟨.fault .unterminatedString, '"' :: cs, []⟩ :=
      ⟨by simpa using next, start⟩
    rw [next.peek_nil, (Piece.string_open closed).1]
    exact read.cuts (by simpa using feeds)

theorem unexpected_cuts (bytes : c.bytes = Text.utf8 (before ++ ch :: cs)) (no_feed : ch ≠ '\n') :
    Cuts before ⟨.fault (.unexpected ch), [ch], cs⟩ c.line c.unexpected := by
  have whole := Text.slice_between before (ch :: cs) []
  rw [List.append_nil, ← bytes, ← start] at whole
  simp only [unexpected, whole, String.toList_ofList, List.headD_cons]
  have read : ({ c with current := c.start + ch.utf8Size } : Cursor).Read before
      ⟨.fault (.unexpected ch), [ch], cs⟩ := by
    refine ⟨⟨?_, ?_⟩, start⟩
    · simpa using bytes
    · simp [start, Text.utf8]
  refine read.cuts ?_
  simp [no_feed]

end

def starters : List Char :=
  ['(', ')', '{', '}', ',', '.', '-', '+', ';', '/', '*', '%', '!', '=', '<', '>', '"']

theorem ofFront_other (no_name : isNameStart ch = false) (no_digit : ch.isDigit = false)
    (no_mark : ch ∉ starters) (cs : List Char) :
    Piece.ofFront ch cs = ⟨.fault (.unexpected ch), [ch], cs⟩ := by
  unfold Piece.ofFront
  rw [if_neg (by simp [no_name]), if_neg (by simp [no_digit])]
  split
  case h_18 => rfl
  all_goals exact absurd (by decide) no_mark

theorem readOn_other (no_name : isNameStart ch = false) (no_digit : ch.isDigit = false)
    (no_mark : ch ∉ starters) (c : Cursor) : c.readOn ch = c.unexpected := by
  unfold readOn
  rw [if_neg (by simp [no_name]), if_neg (by simp [no_digit])]
  split
  case h_18 => rfl
  all_goals exact absurd (by decide) no_mark

theorem readOn_ascii (start : c.start = (Text.utf8 before).length) (no_feed : ch ≠ '\n')
    (stands : c.Stands (before ++ [ch]) cs) :
    Cuts before (.ofFront ch cs) c.line (c.readOn ch) := by
  by_cases named : isNameStart ch = true
  · unfold readOn Piece.ofFront
    rw [if_pos named, if_pos named]
    exact name_cuts start named stands
  · by_cases digit : ch.isDigit = true
    · unfold readOn Piece.ofFront
      rw [if_neg named, if_neg named, if_pos digit, if_pos digit]
      exact number_cuts start digit stands
    · rw [Bool.not_eq_true] at named digit
      by_cases mark : ch ∈ starters
      · simp only [starters, List.mem_cons, List.not_mem_nil, or_false] at mark
        rcases mark with rfl | rfl | rfl | rfl | rfl | rfl | rfl | rfl | rfl | rfl | rfl | rfl |
          rfl | rfl | rfl | rfl | rfl
        all_goals first
          | exact string_cuts start stands
          | exact mark_cuts start rfl stands
          | exact cutOrEqual_cuts start rfl rfl stands
      · have bytes : c.bytes = Text.utf8 (before ++ ch :: cs) := by simpa using stands.bytes
        rw [ofFront_other named digit mark, readOn_other named digit mark]
        exact unexpected_cuts start bytes no_feed

theorem no_starter (beyond : 128 ≤ ch.toNat) : ch ∉ starters := by
  have ascii : starters.all (·.toNat < 128) = true := rfl
  intro mark
  exact Nat.not_lt.mpr beyond (of_decide_eq_true (List.all_eq_true.mp ascii ch mark))

/-- Of a character beyond ASCII the first byte starts nothing, as the character itself does. -/
theorem readOn_beyond {first : Char} (start : c.start = (Text.utf8 before).length)
    (bytes : c.bytes = Text.utf8 (before ++ ch :: cs)) (far : 128 ≤ ch.toNat)
    (far' : 128 ≤ first.toNat) : Cuts before (.ofFront ch cs) c.line (c.readOn first) := by
  have no_feed : ch ≠ '\n' := by
    rintro rfl
    exact absurd far (by decide)
  rw [ofFront_other (nameStart_beyond ch far) (digit_beyond ch far) (no_starter far),
    readOn_other (nameStart_beyond first far') (digit_beyond first far') (no_starter far')]
  exact unexpected_cuts start bytes no_feed

end Cursor

namespace Scanner

/-- The piece that a call cuts off. At the end that is an empty one. -/
def piece (s : Scanner) : Piece :=
  match s.skip.rest with
  | [] => ⟨.endOfInput, [], []⟩
  | c :: cs => .ofFront c cs

theorem piece_split (s : Scanner) : s.piece.text ++ s.piece.rest = s.skip.rest := by
  unfold piece
  split
  · rename_i nothing
    exact nothing.symm
  · rename_i c cs left
    rw [left, Piece.ofFront_split]

theorem next_piece (s : Scanner) : s.next =
    (⟨s.piece.kind, String.ofList s.piece.text, s.skip.line + s.piece.text.count '\n'⟩,
      ⟨s.piece.rest, s.skip.line + s.piece.text.count '\n'⟩) := by
  unfold piece
  rcases s.next_cases with ⟨nothing, next⟩ | ⟨c, cs, left, next⟩
  · rw [next, nothing]
    exact congrArg (fun rest => (Token.ending s.skip.line, Scanner.mk rest s.skip.line)) nothing
  · rw [next, left]

end Scanner

theorem Cursor.token_cuts {c : Cursor} {before : List Char} {s : Scanner}
    (stands : c.Stands before s.rest) (line : c.line = s.line) :
    ∃ trivia, s.rest = trivia ++ s.skip.rest ∧
      Cuts (before ++ trivia) s.piece s.skip.line c.token := by
  obtain ⟨trivia, split, skipped, line'⟩ := skip_stands stands
  rw [line] at split skipped line'
  refine ⟨trivia, split, ?_⟩
  have place : ({ c.skip with start := c.skip.current } : Cursor).Stands (before ++ trivia)
    s.skip.rest := ⟨skipped.bytes, skipped.current⟩
  unfold Scanner.piece Cursor.token
  cases left : s.skip.rest with
  | nil =>
    rw [left] at place
    simp only [place.peek_nil]
    refine ⟨{ c.skip with start := c.skip.current }, rfl, ⟨?_, place.current⟩, line'⟩
    rw [List.append_nil]
    exact place
  | cons ch cs =>
    rw [left] at place
    obtain ⟨first, there, ⟨ascii, rfl⟩ | ⟨far, far'⟩⟩ := place.peek_cons
    · simp only [there]
      have no_feed := (Scanner.skipFrom_stopped left).1
      exact line' ▸ readOn_ascii place.current no_feed (place.forth ascii)
    · simp only [there]
      exact line' ▸ readOn_beyond place.current place.bytes far far'

end StackCalc
