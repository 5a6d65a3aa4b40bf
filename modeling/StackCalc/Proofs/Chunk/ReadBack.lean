import Mathlib.Data.List.Induction
import StackCalc.Proofs.Chunk.Legible
import StackCalc.Proofs.Text.Readable

/-! Reading a listing back. Each line tells its instruction: the opcode by its name, the index of a
constant by its digits, whatever stands beside it. And it tells the source line, either itself or by
a bar, which stands for what was told last. So a listing loses nothing of the code and its lines. -/
namespace StackCalc

open Text (OneLine)

namespace Opcode

def all : List Opcode :=
  [.ret, .constant, .constantLong, .negate, .binary .add, .binary .subtract, .binary .multiply,
    .binary .divide]

def ofName? (name : List Char) : Option Opcode := all.find? fun op => op.name.toList = name

@[simp] theorem ofName_name (op : Opcode) : ofName? op.name.toList = some op := by
  cases op with
  | binary op => cases op <;> decide
  | _ => decide

theorem name_cons (op : Opcode) : ∃ ds, op.name.toList = 'O' :: ds := by
  apply List.head?_eq_some_iff.mp
  cases op with
  | binary op => cases op <;> rfl
  | _ => rfl

theorem name_word (op : Opcode) : ∀ c ∈ op.name.toList, decide (c ≠ ' ') = true := by
  apply List.all_eq_true.mp
  cases op with
  | binary op => cases op <;> rfl
  | _ => rfl

theorem name_no_digits (op : Opcode) : ∀ c ∈ op.name.toList, (!c.isDigit) = true := by
  apply List.all_eq_true.mp
  cases op with
  | binary op => cases op <;> rfl
  | _ => rfl

end Opcode

/-- Reads an instruction by the first word and the first number in a text. -/
def Instruction.ofText (text : List Char) : Instruction :=
  match Opcode.ofName? (text.takeWhile (· ≠ ' ')) with
  | some .ret => .ret
  | some .constant => .load false (Text.number text)
  | some .constantLong => .load true (Text.number text)
  | some .negate => .negate
  | some (.binary op) => .binary op
  | none => .unknown (UInt8.ofNat (Text.number text))

def isMark (c : Char) : Bool := c = ' ' || c = '|' || c.isDigit

def readLine (text : List Char) : Option Nat × Instruction :=
  let body := text.dropWhile Char.isDigit
  let mark := body.takeWhile isMark
  (if '|' ∈ mark then none else some (Text.number mark), .ofText (body.dropWhile isMark))

theorem Instruction.size_pos (i : Instruction) : 0 < i.size := by
  cases i with
  | load wide index => cases wide <;> exact Nat.succ_pos _
  | truncated wide present => exact Nat.add_pos_left Nat.one_pos present
  | _ => exact Nat.one_pos

theorem Opcode.first_word (op : Opcode) {rest : List Char} (blank : ∀ c ∈ rest.head?, c = ' ') :
    (op.name.toList ++ rest).takeWhile (· ≠ ' ') = op.name.toList := by
  have stops : rest.takeWhile (· ≠ ' ') = [] := by
    cases rest with
    | nil => rfl
    | cons c cs => simp [blank c rfl]
  rw [List.takeWhile_append_of_pos op.name_word, stops, List.append_nil]

namespace Chunk

variable (c : Chunk)

theorem load_chars (wide : Bool) (index : Nat) : ∃ blanks behind, (∀ b ∈ blanks, b = ' ') ∧
    (constantName wide ++ c.operandText index).toList =
      ((Instruction.constantOpcode wide).name.toList ++ ' ' :: blanks) ++
        ((toString index).toList ++ ' ' :: behind) := by
  obtain ⟨blanks, name_blanks, name⟩ : ∃ blanks, (∀ b ∈ blanks, b = ' ') ∧
      (constantName wide).toList =
        (Instruction.constantOpcode wide).name.toList ++ ' ' :: blanks := by
    cases wide with
    | false => exact ⟨List.replicate 5 ' ', List.forall_mem_replicate.mpr (.inr rfl), rfl⟩
    | true => exact ⟨[], nofun, rfl⟩
  obtain ⟨behind, operand⟩ : ∃ behind, (c.operandText index).toList =
      List.replicate (4 - (toString index).length) ' ' ++ (toString index).toList ++
        ' ' :: behind := by
    rw [operandText, String.toList_append, Text.toList_padLeft]
    split
    · exact ⟨_, by rw [String.toList_append, String.toList_append]; rfl⟩
    · exact ⟨_, rfl⟩
  refine ⟨blanks ++ List.replicate (4 - (toString index).length) ' ', behind, ?_, ?_⟩
  · rw [List.forall_mem_append]
    exact ⟨name_blanks, List.forall_mem_replicate.mpr (.inr rfl)⟩
  · rw [String.toList_append, name, operand]
    simp only [List.append_assoc, List.cons_append]

theorem ofText_load (wide : Bool) (index : Nat) :
    Instruction.ofText (constantName wide ++ c.operandText index).toList = .load wide index := by
  obtain ⟨blanks, behind, only_blanks, text⟩ := c.load_chars wide index
  have number : Text.number (constantName wide ++ c.operandText index).toList = index := by
    rw [text]
    apply Text.number_toString
    · rw [List.forall_mem_append, List.forall_mem_cons]
      refine ⟨Opcode.name_no_digits _, by decide, ?_⟩
      intro b inside
      rw [only_blanks b inside]
      decide
    · simp
  have word : (constantName wide ++ c.operandText index).toList.takeWhile (· ≠ ' ') =
      (Instruction.constantOpcode wide).name.toList := by
    rw [text, List.append_assoc]
    exact Opcode.first_word _ (by simp)
  rw [Instruction.ofText, number, word, Opcode.ofName_name]
  cases wide <;> rfl

theorem ofText_unknown (byte : UInt8) :
    Instruction.ofText ("Unknown opcode " ++ toString byte.toNat).toList = .unknown byte := by
  have text : ("Unknown opcode " ++ toString byte.toNat).toList =
      "Unknown opcode ".toList ++ ((toString byte.toNat).toList ++ []) := by
    rw [String.toList_append, List.append_nil]
  have number : Text.number ("Unknown opcode " ++ toString byte.toNat).toList = byte.toNat := by
    rw [text]
    exact Text.number_toString (List.all_eq_true.mp rfl) _ nofun
  have word : ("Unknown opcode " ++ toString byte.toNat).toList.takeWhile (· ≠ ' ') =
      "Unknown".toList := by
    rw [text]
    rfl
  have no_name : Opcode.ofName? "Unknown".toList = none := by decide
  rw [Instruction.ofText, number, word, no_name]
  exact congrArg Instruction.unknown (UInt8.ofNat_toNat)

theorem ofText_instructionText {i : Instruction} (complete : i.Complete) :
    Instruction.ofText (c.instructionText (some i)).toList = i := by
  have single (op : Opcode) : Opcode.ofName? (op.name.toList.takeWhile (· ≠ ' ')) = some op := by
    have word := @Opcode.first_word op [] nofun
    rw [List.append_nil] at word
    rw [word, Opcode.ofName_name]
  cases i with
  | ret =>
    change Instruction.ofText Opcode.ret.name.toList = .ret
    rw [Instruction.ofText, single]
  | negate =>
    change Instruction.ofText Opcode.negate.name.toList = .negate
    rw [Instruction.ofText, single]
  | binary op =>
    change Instruction.ofText (Opcode.binary op).name.toList = .binary op
    rw [Instruction.ofText, single]
  | load wide index => exact c.ofText_load wide index
  | unknown byte => exact ofText_unknown byte
  | truncated wide present => exact complete.elim

theorem instructionText_cons {i : Instruction} (complete : i.Complete) : ∃ d ds,
    (c.instructionText (some i)).toList = d :: ds ∧ isMark d = false := by
  have name (op : Opcode) (behind : List Char) : ∃ d ds,
      op.name.toList ++ behind = d :: ds ∧ isMark d = false := by
    obtain ⟨ds, letters⟩ := op.name_cons
    exact ⟨'O', ds ++ behind, by rw [letters, List.cons_append], by decide⟩
  have single (op : Opcode) : ∃ d ds, op.name.toList = d :: ds ∧ isMark d = false := by
    have alone := name op []
    rwa [List.append_nil] at alone
  cases i with
  | ret => exact single .ret
  | negate => exact single .negate
  | binary op => exact single (.binary op)
  | load wide index =>
    obtain ⟨blanks, behind, -, text⟩ := c.load_chars wide index
    change ∃ d ds, (constantName wide ++ c.operandText index).toList = d :: ds ∧ isMark d = false
    rw [text, List.append_assoc]
    exact name _ _
  | unknown byte =>
    change ∃ d ds, ("Unknown opcode " ++ toString byte.toNat).toList = d :: ds ∧ isMark d = false
    rw [String.toList_append]
    exact ⟨'U', _, rfl, by decide⟩
  | truncated wide present => exact complete.elim

/-- The line that is told at an offset. None is told where the bar stands. -/
def mark? (offset : Nat) : Option Nat :=
  if 0 < offset ∧ c.line? offset = c.line? (offset - 1) then none
  else some ((c.line? offset).getD 0)

theorem lineMark_chars (offset : Nat) :
    ∀ d ∈ ' ' :: (c.lineMark offset).toList, isMark d = true := by
  rw [List.forall_mem_cons]
  refine ⟨by decide, ?_⟩
  unfold lineMark
  split
  · exact List.all_eq_true.mp rfl
  · rw [String.toList_append, Text.toList_padLeft]
    simp only [List.forall_mem_append]
    refine ⟨⟨?_, ?_⟩, List.all_eq_true.mp rfl⟩
    · exact List.forall_mem_replicate.mpr (.inr (by decide))
    · intro d inside
      simp [isMark, Text.digits_toString _ d inside]

theorem mark_lineMark (offset : Nat) :
    (if '|' ∈ ' ' :: (c.lineMark offset).toList then none
      else some (Text.number (' ' :: (c.lineMark offset).toList))) = c.mark? offset := by
  unfold lineMark mark?
  split
  · rfl
  · generalize (c.line? offset).getD 0 = line
    have blanks : ∀ d ∈ ' ' :: List.replicate (4 - (toString line).length) ' ', d = ' ' := by
      rw [List.forall_mem_cons]
      exact ⟨rfl, List.forall_mem_replicate.mpr (.inr rfl)⟩
    have text : ' ' :: (Text.padLeft ' ' 4 (toString line) ++ " ").toList =
        ' ' :: List.replicate (4 - (toString line).length) ' ' ++
          ((toString line).toList ++ [' ']) := by
      rw [String.toList_append, Text.toList_padLeft, List.append_assoc]
      rfl
    have no_bar : '|' ∉ ' ' :: (Text.padLeft ' ' 4 (toString line) ++ " ").toList := by
      rw [text, List.mem_append, List.mem_append]
      rintro (blank | digit | last)
      · exact absurd (blanks _ blank) (by decide)
      · exact absurd (Text.digits_toString line _ digit) (by decide)
      · exact absurd (List.mem_singleton.mp last) (by decide)
    rw [if_neg no_bar, text, Text.number_toString]
    · intro d inside
      rw [blanks d inside]
      decide
    · rintro d ⟨rfl⟩
      decide

theorem readLine_listLine {i : Instruction} (complete : i.Complete) (offset : Nat) :
    readLine (c.listLine offset (some i)).toList = (c.mark? offset, i) := by
  have text : (c.listLine offset (some i)).toList =
      (Text.padLeft '0' 4 (toString offset)).toList ++
        (' ' :: (c.lineMark offset).toList ++ (c.instructionText (some i)).toList) := by
    simp only [listLine, String.toList_append, List.append_assoc]
    rfl
  have body : (c.listLine offset (some i)).toList.dropWhile Char.isDigit =
      ' ' :: (c.lineMark offset).toList ++ (c.instructionText (some i)).toList := by
    rw [text, Text.toList_padLeft, List.dropWhile_append_of_pos, List.cons_append,
      List.dropWhile_cons_of_neg (by decide)]
    rw [List.forall_mem_append]
    exact ⟨List.forall_mem_replicate.mpr (.inr (by decide)), Text.digits_toString offset⟩
  obtain ⟨d, ds, instruction, no_mark⟩ := c.instructionText_cons complete
  have marks := c.lineMark_chars offset
  have mark : (' ' :: (c.lineMark offset).toList ++ (c.instructionText (some i)).toList).takeWhile
      isMark = ' ' :: (c.lineMark offset).toList := by
    rw [List.takeWhile_append_of_pos marks, instruction,
      List.takeWhile_cons_of_neg (by simp [no_mark]), List.append_nil]
  have left : (' ' :: (c.lineMark offset).toList ++ (c.instructionText (some i)).toList).dropWhile
      isMark = (c.instructionText (some i)).toList := by
    rw [List.dropWhile_append_of_pos marks, instruction,
      List.dropWhile_cons_of_neg (by simp [no_mark])]
  simp only [readLine, body, mark, left, mark_lineMark, c.ofText_instructionText complete]

theorem oneLine_instructionText (instruction : Option Instruction) :
    OneLine (c.instructionText instruction) := by
  have name (wide : Bool) : OneLine (constantName wide) := by cases wide <;> decide
  unfold instructionText
  split
  case h_4 op => cases op <;> decide
  case h_5 wide index =>
    refine (name wide).append (OneLine.append ?_ ?_)
    · exact (Text.oneLine_toString index).padLeft (by decide) 4
    · split
      · rename_i value _
        exact (OneLine.append (by decide) value.oneLine_text).append (by decide)
      · decide
  case h_6 byte => exact OneLine.append (by decide) (Text.oneLine_toString _)
  case h_7 wide present => exact (name wide).append (by decide)
  all_goals decide

theorem oneLine_listLine (offset : Nat) (instruction : Option Instruction) :
    OneLine (c.listLine offset instruction) := by
  refine OneLine.append (OneLine.append ?_ ?_) (c.oneLine_instructionText instruction)
  · exact ((Text.oneLine_toString offset).padLeft (by decide) 4).append (by decide)
  · unfold lineMark
    split
    · decide
    · exact ((Text.oneLine_toString _).padLeft (by decide) 4).append (by decide)

end Chunk

def told (above : Option Nat) : List Lined → List (Option Nat × Instruction)
  | [] => []
  | i :: is => (if above = some i.line then none else some i.line, i.instruction) ::
      told (some i.line) is

/-- A bar stands for the line above. -/
def Lined.ofTold (above : Nat) : List (Option Nat × Instruction) → List Lined
  | [] => []
  | (mark, instruction) :: rest =>
    ⟨instruction, mark.getD above⟩ :: ofTold (mark.getD above) rest

theorem Lined.ofTold_told (above : Option Nat) (is : List Lined) :
    ofTold (above.getD 0) (told above is) = is := by
  induction is generalizing above with
  | nil => rfl
  | cons i is ih =>
    have line : (if above = some i.line then none else some i.line).getD (above.getD 0) =
        i.line := by
      split
      · rename_i same
        rw [same]
        rfl
      · rfl
    rw [told, ofTold, line]
    exact congrArg (List.cons _) (ih (some i.line))

namespace Chunk.Coded

variable {c d : Chunk} {is js front back : List Lined} {i : Lined}

theorem line_start (coded : c.Coded (front ++ i :: back)) :
    c.line? (front.flatMap Lined.code).length = some i.line :=
  coded.line_inside i.instruction.size_pos

theorem mark_start (coded : c.Coded (front ++ i :: back)) :
    c.mark? (front.flatMap Lined.code).length =
      if front.getLast?.map Lined.line = some i.line then none else some i.line := by
  have here := coded.line_start
  rcases List.eq_nil_or_concat front with rfl | ⟨others, last, rfl⟩
  · rw [mark?, if_neg (by simp), if_neg (by simp), here]
    rfl
  · rw [List.concat_eq_append] at coded here ⊢
    have some_byte := last.instruction.size_pos
    have length : ((others ++ [last]).flatMap Lined.code).length =
        (others.flatMap Lined.code).length + last.instruction.size :=
      Lined.length_snoc (coded.complete last (by simp))
    rw [List.append_assoc, List.singleton_append] at coded
    have before := coded.line_inside (Nat.sub_lt some_byte Nat.one_pos)
    rw [← Nat.add_sub_assoc some_byte, ← length] at before
    have inside : 0 < ((others ++ [last]).flatMap Lined.code).length := by omega
    simp only [mark?, here, before, inside, true_and, List.getLast?_append,
      List.getLast?_singleton, Option.some_or, Option.map_some, Option.getD_some,
      eq_comm (a := some i.line)]

theorem read_listing (coded : c.Coded (front ++ back)) :
    (Located.lay (front.flatMap Lined.code).length (back.map Lined.instruction)).map
      (fun i => readLine (c.listInstruction i).toList) =
        told (front.getLast?.map Lined.line) back := by
  induction back generalizing front with
  | nil => rfl
  | cons i back ih =>
    have complete := coded.complete i (by simp)
    have first : readLine (c.listInstruction ⟨_, i.instruction⟩).toList = _ :=
      c.readLine_listLine complete (front.flatMap Lined.code).length
    have others := coded
    rw [← List.singleton_append, ← List.append_assoc] at others
    have tail := ih others
    rw [Lined.length_snoc complete, List.getLast?_append] at tail
    rw [List.map_cons, Located.lay, List.map_cons, first, coded.mark_start, told]
    exact congrArg (List.cons _) tail

theorem unique (coded : c.Coded is) (coded' : d.Coded js) (header : String)
    (same : c.listingText header = d.listingText header) : is = js := by
  have chars := congrArg String.toList same
  rw [listingText, listingText, listing, listing, Text.toList_unlines_cons,
    Text.toList_unlines_cons] at chars
  have lines : c.instructions.map c.listInstruction = d.instructions.map d.listInstruction := by
    apply Text.unlines_injective
    · exact List.forall_mem_map.mpr fun i _ => c.oneLine_listLine i.offset _
    · exact List.forall_mem_map.mpr fun i _ => d.oneLine_listLine i.offset _
    · exact (List.cons.inj (List.append_cancel_left chars)).2
  have read := congrArg (List.map fun line => readLine line.toList) lines
  rw [List.map_map, List.map_map, coded.instructions, coded'.instructions] at read
  have told_same : told none is = told none js :=
    (@read_listing c [] is coded).symm.trans (read.trans (@read_listing d [] js coded'))
  rw [← Lined.ofTold_told none is, told_same, Lined.ofTold_told]

end Chunk.Coded

theorem Located.Tiles.head_offset {code : List UInt8} {offset : Nat} {after : List Located}
    {i : Located} (tiles : Tiles code offset (i :: after)) : i.offset = offset := by
  cases tiles
  rfl

theorem Located.Tiles.adjacent {code : List UInt8} {offset : Nat} {before after : List Located}
    {p i : Located} (tiles : Tiles code offset (before ++ p :: i :: after)) :
    i.offset = p.offset + p.instruction.size := by
  induction before generalizing offset with
  | nil =>
    cases tiles with
    | cons _ tiles => exact tiles.head_offset
  | cons first before ih =>
    cases tiles with
    | cons _ tiles => exact ih tiles

namespace Chunk

variable {c : Chunk} {offset line : Nat} {before after : List Located} {i : Located}

theorem lineMark_of_none (bar : c.mark? offset = none) : c.lineMark offset = "   | " := by
  unfold mark? at bar
  unfold lineMark
  split at bar
  · rename_i same
    exact if_pos same
  · cases bar

theorem none_of_lineMark (bar : c.lineMark offset = "   | ") : c.mark? offset = none := by
  rw [← mark_lineMark, bar]
  rfl

theorem lineMark_of_some (number : c.mark? offset = some line) :
    c.lineMark offset = Text.padLeft ' ' 4 (toString line) ++ " " := by
  unfold mark? at number
  unfold lineMark
  split at number
  · cases number
  · rename_i other
    rw [if_neg other, Option.some.inj number]

theorem mark_none (bar : c.mark? offset = none) :
    0 < offset ∧ c.line? offset = c.line? (offset - 1) := by
  unfold mark? at bar
  split at bar
  · assumption
  · cases bar

namespace Legible

theorem line_some (legible : c.Legible) (listed : c.instructions = before ++ i :: after) :
    ∃ line, c.line? i.offset = some line := by
  obtain ⟨is, coded⟩ := legible.coded
  obtain ⟨front, j, back, rfl, -, rfl⟩ := coded.split listed
  exact ⟨j.line, coded.line_start⟩

theorem line_before {p : Located} (legible : c.Legible)
    (listed : c.instructions = before ++ p :: i :: after) (bar : c.mark? i.offset = none) :
    c.line? i.offset = c.line? p.offset := by
  have tiles := c.instructions_tiles
  rw [listed] at tiles
  have some_byte := p.instruction.size_pos
  have last := legible.lines p (by simp [listed]) (p.instruction.size - 1) (by omega)
  rw [(mark_none bar).2, tiles.adjacent, Nat.add_sub_assoc some_byte, last]

theorem bar_means (legible : c.Legible) (listed : c.instructions = before ++ i :: after)
    (bar : c.mark? i.offset = none) : ∃ above j between line,
      before = above ++ j :: between ∧ (∀ k ∈ between, c.mark? k.offset = none) ∧
      c.mark? j.offset = some line ∧ c.line? j.offset = some line ∧
      c.line? i.offset = some line := by
  -- Upward from the bar: the line stays the same up to the first instruction without one.
  induction before using List.reverseRecOn generalizing i after with
  | nil =>
    have tiles := c.instructions_tiles
    rw [listed] at tiles
    have inside := (mark_none bar).1
    rw [tiles.head_offset] at inside
    exact absurd inside (Nat.lt_irrefl 0)
  | append_singleton before p ih =>
    rw [List.append_assoc, List.singleton_append] at listed
    have same := legible.line_before listed bar
    cases mark : c.mark? p.offset with
    | none =>
      obtain ⟨above, j, between, line, rfl, bars, number, line_j, line_p⟩ := ih listed mark
      refine ⟨above, j, between ++ [p], line, by simp, ?_, number, line_j, same.trans line_p⟩
      exact List.forall_mem_append.mpr ⟨bars, List.forall_mem_singleton.mpr mark⟩
    | some line =>
      obtain ⟨line', line_p⟩ := legible.line_some listed
      have number : line = line' := by
        unfold mark? at mark
        split at mark
        · cases mark
        · rw [line_p] at mark
          exact (Option.some.inj mark).symm
      subst number
      exact ⟨before, p, [], line, rfl, nofun, mark, line_p, same.trans line_p⟩

end Legible

/-- A listing loses nothing of legible code, and all compiled code is legible. -/
theorem listing_read_back :
    (∀ source c, compile source = .ok c → c.Legible) ∧
    (∀ (c d : Chunk) (header : String), c.Legible → d.Legible →
      c.listingText header = d.listingText header → c.bytes = d.bytes ∧ c.lines = d.lines) ∧
    ∀ (c : Chunk) before i after, c.Legible → c.instructions = before ++ i :: after →
      c.lineMark i.offset = "   | " → ∃ above j between line,
        before = above ++ j :: between ∧ (∀ k ∈ between, c.lineMark k.offset = "   | ") ∧
        c.lineMark j.offset = Text.padLeft ' ' 4 (toString line) ++ " " ∧
        c.line? j.offset = some line ∧ c.line? i.offset = some line := by
  refine ⟨fun source c ok => compile_legible ok, ?_, ?_⟩
  · intro c d header legible legible' same
    obtain ⟨is, coded⟩ := legible.coded
    obtain ⟨js, coded'⟩ := legible'.coded
    obtain rfl := coded.unique coded' header same
    have code : c.code.toList = d.code.toList := coded.code.trans coded'.code.symm
    rw [bytes, bytes, lines, lines, code]
    exact ⟨rfl, rfl⟩
  · intro c before i after legible listed bar
    obtain ⟨above, j, between, line, split, bars, number, line_j, line_i⟩ :=
      legible.bar_means listed (none_of_lineMark bar)
    refine ⟨above, j, between, line, split, ?_, lineMark_of_some number, line_j, line_i⟩
    exact fun k inside => lineMark_of_none (bars k inside)

theorem listing_read_back_rounded : ∃ c d,
    compile "2\n-1" = .ok c ∧ compile "2\n-1.0000001" = .ok d ∧
    c.constants ≠ d.constants ∧ c.listingText "code" = d.listingText "code" ∧
    c.bytes = d.bytes ∧ c.lines = d.lines := by
  have c_ok : compile "2\n-1" = .ok ⟨#[⟨1, 1⟩, ⟨0, 1⟩, ⟨1, 2⟩, ⟨1, 2⟩, ⟨5, 2⟩, ⟨0, 2⟩],
      #[⟨0x4000000000000000⟩, ⟨0x3FF0000000000000⟩]⟩ := by decide +kernel
  have d_ok : compile "2\n-1.0000001" = .ok ⟨#[⟨1, 1⟩, ⟨0, 1⟩, ⟨1, 2⟩, ⟨1, 2⟩, ⟨5, 2⟩, ⟨0, 2⟩],
      #[⟨0x4000000000000000⟩, ⟨0x3FF000001AD7F29B⟩]⟩ := by decide +kernel
  obtain ⟨compiled, same_listing, -⟩ := listing_read_back
  have same := same_listing _ _ "code" (compiled _ _ c_ok) (compiled _ _ d_ok) (by decide +kernel)
  exact ⟨_, _, c_ok, d_ok, by decide, by decide +kernel, same⟩

end Chunk
end StackCalc
