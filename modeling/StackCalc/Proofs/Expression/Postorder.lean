import StackCalc.Proofs.Expression.Grammar
import StackCalc.Proofs.Token.Numeral

namespace StackCalc

def loadCode (index line : Nat) : List CodeByte :=
  if index ≤ 255 then [⟨Opcode.constant.toByte, line⟩, ⟨UInt8.ofNat index, line⟩]
  else
    [⟨Opcode.constantLong.toByte, line⟩, ⟨UInt8.ofNat (index / 256), line⟩,
      ⟨UInt8.ofNat (index % 256), line⟩]

def Tree.code (first : Nat) : Tree → List CodeByte
  | .number t => loadCode first t.line
  | .group inner => inner.code first
  | .negate sign operand => operand.code first ++ [⟨Opcode.negate.toByte, sign.line⟩]
  | .binary op sign left right =>
    left.code first ++ right.code (first + left.numbers.length) ++
      [⟨(Opcode.binary op).toByte, sign.line⟩]

structure Emitted (e : Tree) (c c' : Chunk) : Prop where
  code : c'.code.toList = c.code.toList ++ e.code c.constants.size
  pool : c'.constants.toList.map some = c.constants.toList.map some ++ e.numbers.map Token.value?

namespace Emitted

variable {e l r : Tree} {c c' c'' : Chunk}

theorem size (h : Emitted e c c') :
    c'.constants.size = c.constants.size + e.numbers.length := by
  simpa using congrArg List.length h.pool

theorem group (h : Emitted e c c') : Emitted (.group e) c c' := ⟨h.code, h.pool⟩

theorem negate (h : Emitted e c c') (sign : Token) :
    Emitted (.negate sign e) c (c'.writeOp .negate sign.line) where
  code := by simp [Chunk.writeOp, Chunk.write, h.code, Tree.code]
  pool := h.pool

theorem binary (left : Emitted l c c') (right : Emitted r c' c'') (op : BinaryOp) (sign : Token) :
    Emitted (.binary op sign l r) c (c''.writeOp (.binary op) sign.line) where
  code := by
    simp [Chunk.writeOp, Chunk.write, right.code, left.code, left.size, Tree.code]
  pool := by
    simp only [Chunk.writeOp, Chunk.write, right.pool, left.pool, Tree.numbers, List.map_append,
      List.append_assoc]

end Emitted

theorem Progress.emitLoad_code (p : Progress) (index line : Nat) (room : index < 65536) :
    (p.emitLoad index line).chunk.code.toList = p.chunk.code.toList ++ loadCode index line := by
  unfold emitLoad loadCode
  by_cases short : index ≤ 255
  · have narrow : index < 256 := by omega
    simp only [if_pos narrow, if_pos short, Chunk.writeOp, Chunk.write]
    simp
  · have wide : ¬ index < 256 := by omega
    have word : (UInt16.ofNat index).toNat = index := by simp; omega
    have low : UInt8.ofNat (index % 256) = UInt8.ofNat index := UInt8.ofNat_mod_size
    simp only [if_neg wide, if_neg short, Chunk.writeOp, Chunk.writeWord, Chunk.write, word, low]
    simp

theorem Progress.emitLoad_pool (p : Progress) (index line : Nat) :
    (p.emitLoad index line).chunk.constants = p.chunk.constants := by
  unfold emitLoad
  split <;> rfl

theorem Progress.emitConstant_emitted {p : Progress} {t : Token} {value : Number}
    (room : p.chunk.constants.size < 65536) (denotes : t.value? = some value) :
    Emitted (.number t) p.chunk (p.emitConstant t value).chunk where
  code := by
    simp only [emitConstant, if_pos room]
    exact emitLoad_code _ _ _ room
  pool := by
    simp only [emitConstant, if_pos room, emitLoad_pool]
    simp [Chunk.addConstant, Tree.numbers, denotes]

end StackCalc
