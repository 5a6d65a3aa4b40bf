import StackCalc.Proofs.Chunk.Image

namespace StackCalc

namespace Chunk

inductive Append where
  | byte (byte : UInt8) (line : Nat)
  | word (word : UInt16) (line : Nat)
  | op (op : Opcode) (line : Nat)
  | constant (value : Number)

def Append.isConstant : Append → Bool
  | .constant _ => true
  | _ => false

def append (c : Chunk) : Append → Option Nat × Chunk
  | .byte byte line => (none, c.write byte line)
  | .word word line => (none, c.writeWord word line)
  | .op op line => (none, c.writeOp op line)
  | .constant value =>
    match c.addConstant value with
    | (index, c) => (some index, c)

def after (c : Chunk) : List Append → Chunk
  | [] => c
  | a :: later => (c.append a).2.after later

@[simp] theorem after_append (c : Chunk) (front behind : List Append) :
    c.after (front ++ behind) = (c.after front).after behind := by
  induction front generalizing c with
  | nil => rfl
  | cons a front ih => exact ih _

def indices (c : Chunk) : List Append → List Nat
  | [] => []
  | a :: later => (c.append a).1.toList ++ (c.append a).2.indices later

structure Grows (c d : Chunk) : Prop where
  code : c.code.toList <+: d.code.toList
  pool : c.constants.toList <+: d.constants.toList

theorem getElem_of_front {α : Type} {front whole : Array α} (starts : front.toList <+: whole.toList)
    {i : Nat} (inside : i < front.size) : whole[i]? = front[i]? := by
  obtain ⟨more, starts⟩ := starts
  rw [← Array.getElem?_toList, ← Array.getElem?_toList, ← starts]
  exact List.getElem?_append_left inside

namespace Grows

variable {c d e : Chunk}

theorem refl (c : Chunk) : c.Grows c := ⟨List.prefix_rfl, List.prefix_rfl⟩

theorem trans (first : c.Grows d) (second : d.Grows e) : c.Grows e :=
  ⟨first.code.trans second.code, first.pool.trans second.pool⟩

theorem write (c : Chunk) (byte : UInt8) (line : Nat) : c.Grows (c.write byte line) :=
  ⟨by simp [Chunk.write], List.prefix_rfl⟩

theorem append (c : Chunk) (a : Append) : c.Grows (c.append a).2 := by
  cases a with
  | byte byte line => exact write c byte line
  | word word line => exact (write c _ line).trans (write _ _ line)
  | op op line => exact write c op.toByte line
  | constant value => exact ⟨List.prefix_rfl, by simp [Chunk.append, addConstant]⟩

theorem after (c : Chunk) (later : List Append) : c.Grows (c.after later) := by
  induction later generalizing c with
  | nil => exact refl c
  | cons a later ih => exact (append c a).trans (ih _)

theorem read_inside (grows : c.Grows d) {offset : Nat} (inside : offset < c.size) :
    d.read? offset = c.read? offset := by
  rw [read?, read?, getElem_of_front grows.code inside]

theorem line_inside (grows : c.Grows d) {offset : Nat} (inside : offset < c.size) :
    d.line? offset = c.line? offset := by
  rw [line?, line?, getElem_of_front grows.code inside]

theorem constant_inside (grows : c.Grows d) {index : Nat} (inside : index < c.constants.size) :
    d.constant? index = c.constant? index :=
  getElem_of_front grows.pool inside

end Grows

structure Bounded (c : Chunk) : Prop where
  byte (offset : Nat) : c.read? offset = none ↔ c.size ≤ offset
  line (offset : Nat) : c.line? offset = none ↔ c.size ≤ offset
  word (offset : Nat) : c.readWord? offset = none ↔ c.size < offset + 2
  constant (index : Nat) : c.constant? index = none ↔ c.constants.size ≤ index

theorem bounded (c : Chunk) : c.Bounded where
  byte offset := by simp [read?, size]
  line offset := by simp [line?, size]
  word offset := by
    have reads (offset : Nat) : c.read? offset = none ↔ c.size ≤ offset := by simp [read?, size]
    have first := reads offset
    have second := reads (offset + 1)
    unfold readWord?
    split
    · rename_i high low
      simp only [high, low, reduceCtorEq, false_iff] at first second ⊢
      omega
    · rename_i few
      refine iff_of_true rfl ?_
      by_contra enough
      have there {i : Nat} (inside : i < c.size) : ∃ byte, c.read? i = some byte := by
        rw [← Option.ne_none_iff_exists', ne_eq, reads]
        omega
      obtain ⟨high, read_high⟩ := there (by omega : offset < c.size)
      obtain ⟨low, read_low⟩ := there (by omega : offset + 1 < c.size)
      exact few high low read_high read_low
  constant index := by simp [constant?]

def Found (c d : Chunk) : Append → Prop
  | .byte byte line => d.read? c.size = some byte ∧ d.line? c.size = some line
  | .word word line => d.readWord? c.size = some word ∧
    d.read? c.size = some (UInt8.ofNat (word.toNat / 256)) ∧
    d.read? (c.size + 1) = some (UInt8.ofNat (word.toNat % 256)) ∧
    d.line? c.size = some line ∧ d.line? (c.size + 1) = some line
  | .op op line => d.readOp? c.size = some (.ok op) ∧ d.line? c.size = some line
  | .constant value => (c.addConstant value).1 = c.constants.size ∧
    d.constant? (c.addConstant value).1 = some value

theorem Grows.written {c d : Chunk} {byte : UInt8} {line : Nat}
    (grows : (c.write byte line).Grows d) :
    d.read? c.size = some byte ∧ d.line? c.size = some line := by
  have inside : c.size < (c.write byte line).size := by simp [size, Chunk.write]
  rw [grows.read_inside inside, grows.line_inside inside]
  simp [read?, line?, Chunk.write, size]

theorem Grows.found {c d : Chunk} (a : Append) (grows : (c.append a).2.Grows d) : c.Found d a := by
  cases a with
  | byte byte line => exact grows.written
  | word word line =>
    obtain ⟨high, high_line⟩ := ((write _ _ line).trans grows).written
    obtain ⟨low, low_line⟩ := grows.written
    have second : (c.write (UInt8.ofNat (word.toNat / 256)) line).size = c.size + 1 := by
      simp [size, Chunk.write]
    rw [second] at low low_line
    refine ⟨?_, high, ?_, high_line, low_line⟩
    · have small := word.toNat_lt
      have whole : UInt16.ofNat (256 * (word.toNat / 256 % 256) + word.toNat % 256) = word := by
        rw [Nat.mod_eq_of_lt (by omega), Nat.div_add_mod, UInt16.ofNat_toNat]
      simp only [readWord?, high, low, UInt8.toNat_ofNat', whole]
    · have same : UInt8.ofNat word.toNat = UInt8.ofNat (word.toNat % 256) := by
        simp [← UInt8.toNat_inj]
      rw [low, same]
  | op op line =>
    obtain ⟨read, line⟩ := grows.written
    exact ⟨by rw [readOp?, read, Option.map_some, Opcode.ofByte_toByte], line⟩
  | constant value =>
    have inside : c.constants.size < (c.addConstant value).2.constants.size := by
      simp [addConstant]
    refine ⟨rfl, (grows.constant_inside inside).trans ?_⟩
    simp [Chunk.append, constant?, addConstant]

structure Stays (c d : Chunk) : Prop where
  byte {offset : Nat} : offset < c.size → d.read? offset = c.read? offset
  line {offset : Nat} : offset < c.size → d.line? offset = c.line? offset
  constant {index : Nat} : index < c.constants.size → d.constant? index = c.constant? index

theorem Grows.stays {c d : Chunk} (grows : c.Grows d) : c.Stays d :=
  ⟨grows.read_inside, grows.line_inside, grows.constant_inside⟩

theorem indices_range (c : Chunk) (later : List Append) :
    c.indices later = List.range' c.constants.size (later.countP Append.isConstant) := by
  induction later generalizing c with
  | nil => rfl
  | cons a later ih =>
    cases a with
    | constant value =>
      rw [List.countP_cons_of_pos rfl, List.range'_succ]
      simp [indices, append, addConstant, ih]
    | _ => simp [indices, append, write, writeWord, writeOp, ih, Append.isConstant]

end Chunk

/-- A chunk with its code and its lines apart, so that nothing ties them together. -/
structure Columns where
  code : List UInt8
  lines : List Nat
  constants : List Number

def Chunk.columns (c : Chunk) : Columns := ⟨c.bytes, c.lines, c.constants.toList⟩

namespace Columns

def empty : Columns := ⟨[], [], []⟩

def chunk (s : Columns) : Chunk :=
  ⟨(List.zipWith CodeByte.mk s.code s.lines).toArray, s.constants.toArray⟩

def write (s : Columns) (byte : UInt8) (line : Nat) : Columns :=
  { s with code := s.code ++ [byte], lines := s.lines ++ [line] }

def append (s : Columns) : Chunk.Append → Columns
  | .byte byte line => s.write byte line
  | .word word line =>
    (s.write (UInt8.ofNat (word.toNat / 256)) line).write (UInt8.ofNat word.toNat) line
  | .op op line => s.write op.toByte line
  | .constant value => { s with constants := s.constants ++ [value] }

def after (s : Columns) : List Chunk.Append → Columns
  | [] => s
  | a :: later => (s.append a).after later

open Image in
/-- Reads the columns of an image one after the other, and compares none with another. -/
def decode (input : List UInt8) : Except DecodeError Columns := do
  let input ← checkMagic input
  let input ← checkVersion input
  let (size, input) ← takeNat 4 .codeLength input
  let (code, input) ← take size .code input
  let (lines, input) ← takeMany (takeNat 4 .lines) size [] input
  let (count, input) ← takeNat 4 .constantCount input
  let (constants, input) ← takeMany takeConstant count [] input
  checkEnd input
  return ⟨code, lines, constants⟩

theorem decode_chunk (image : List UInt8) : Image.decode image = chunk <$> decode image := by
  simp only [decode, Image.decode, map_bind, map_pure]
  rfl

def Paired (s : Columns) : Prop := s.lines.length = s.code.length

open Image in
theorem decode_paired {image : List UInt8} {s : Columns} (decoded : decode image = .ok s) :
    s.Paired := by
  simp only [decode, bind_eq_ok, Prod.exists, take_eq_ok, takeLines_eq_ok] at decoded
  obtain ⟨_, _, _, _, size, _, _, code, _, ⟨code_length, _⟩, lines, _, ⟨lines_length, _⟩, _, _, _,
    _, _, _, _, _, made⟩ := decoded
  cases made
  exact lines_length.trans code_length.symm

@[simp] theorem columns_chunk {s : Columns} (paired : s.Paired) : s.chunk.columns = s := by
  obtain ⟨code, lines, constants⟩ := s
  obtain ⟨code, rfl, rfl⟩ := Image.unzip_code paired
  simp [chunk, Chunk.columns, Chunk.bytes, Chunk.lines]

@[simp] theorem chunk_columns (c : Chunk) : c.columns.chunk = c := by
  obtain ⟨⟨code⟩, ⟨constants⟩⟩ := c
  simp [chunk, Chunk.columns, Chunk.bytes, Chunk.lines]

theorem columns_paired (c : Chunk) : c.columns.Paired := by
  simp [Paired, Chunk.columns, Chunk.bytes, Chunk.lines]

@[simp] theorem columns_write (c : Chunk) (byte : UInt8) (line : Nat) :
    (c.write byte line).columns = c.columns.write byte line := by
  simp [Chunk.columns, Chunk.bytes, Chunk.lines, Chunk.write, write]

@[simp] theorem columns_append (c : Chunk) (a : Chunk.Append) :
    (c.append a).2.columns = c.columns.append a := by
  cases a with
  | byte byte line => exact columns_write c byte line
  | word word line => exact (columns_write _ _ line).trans (by rw [columns_write]; rfl)
  | op op line => exact columns_write c op.toByte line
  | constant value =>
    simp [Chunk.append, append, Chunk.columns, Chunk.bytes, Chunk.lines, Chunk.addConstant]

@[simp] theorem columns_after (c : Chunk) (later : List Chunk.Append) :
    (c.after later).columns = c.columns.after later := by
  induction later generalizing c with
  | nil => rfl
  | cons a later ih => rw [Chunk.after, ih, columns_append, after]

end Columns
end StackCalc
