import Mathlib.Data.List.TakeWhile

/-! Texts as bytes in UTF-8. A byte below 128 is a character by itself, and all others belong to
longer characters, of which only the first byte can be told from the ones that go on with it. So an
offset is known to lie between characters by the one byte behind it. -/
namespace StackCalc.Text

def utf8 (text : List Char) : List UInt8 := text.flatMap String.utf8EncodeChar

def isContinuation (byte : UInt8) : Bool := 0x80 ≤ byte.toNat && byte.toNat < 0xC0

/-- Whether an offset is the end of some bytes, or a character starts there. -/
def isBoundary (bytes : List UInt8) (offset : Nat) : Bool :=
  match bytes[offset]? with
  | none => offset = bytes.length
  | some byte => !isContinuation byte

/-- The text between two offsets. There is none unless both are boundaries, the first one first. -/
def slice? (bytes : List UInt8) (start stop : Nat) : Option String :=
  if start ≤ stop ∧ isBoundary bytes start ∧ isBoundary bytes stop then
    String.fromUTF8? ⟨((bytes.take stop).drop start).toArray⟩
  else none

theorem char_ascii {c : Char} (ascii : c.toNat < 128) :
    String.utf8EncodeChar c = [UInt8.ofNat c.toNat] := by
  have low : c.val.toNat ≤ 0x7f := Nat.le_of_lt_succ ascii
  simp only [String.utf8EncodeChar, if_pos low]
  rfl

theorem char_beyond {c : Char} (beyond : 128 ≤ c.toNat) : ∃ first others,
    String.utf8EncodeChar c = first :: others ∧ 0xC0 ≤ first.toNat ∧
      ∀ byte ∈ others, 0x80 ≤ byte.toNat := by
  have high : ¬ c.val.toNat ≤ 0x7f := Nat.not_le.mpr beyond
  simp only [String.utf8EncodeChar, if_neg high]
  -- A case for each length from two bytes to four.
  split
  · refine ⟨_, _, rfl, ?_, ?_⟩ <;> simp <;> omega
  · split
    · refine ⟨_, _, rfl, ?_, ?_⟩ <;> simp <;> omega
    · refine ⟨_, _, rfl, ?_, ?_⟩ <;> simp <;> omega

theorem ofUInt8_ofNat {c : Char} (ascii : c.toNat < 128) :
    Char.ofUInt8 (UInt8.ofNat c.toNat) = c := by
  apply Char.ext
  apply UInt32.toNat.inj
  delta Char.ofUInt8
  simp only [UInt8.toNat_toUInt32, UInt8.toNat_ofNat']
  exact Nat.mod_eq_of_lt (Nat.lt_trans ascii (by decide))

@[simp] theorem ofUInt8_toNat (byte : UInt8) : (Char.ofUInt8 byte).toNat = byte.toNat := by
  delta Char.ofUInt8
  simp [Char.toNat]

theorem char_first (c : Char) : ∃ first others,
    String.utf8EncodeChar c = first :: others ∧ isContinuation first = false := by
  by_cases ascii : c.toNat < 128
  · refine ⟨_, [], char_ascii ascii, ?_⟩
    have below : ¬ 0x80 ≤ (UInt8.ofNat c.toNat).toNat := by
      rw [UInt8.toNat_ofNat']
      omega
    simp only [isContinuation, below, decide_false, Bool.false_and]
  · obtain ⟨first, others, bytes, high, -⟩ := char_beyond (Nat.not_lt.mp ascii)
    have above : ¬ first.toNat < 0xC0 := Nat.not_lt.mpr high
    refine ⟨first, others, bytes, ?_⟩
    simp only [isContinuation, above, decide_false, Bool.and_false]

/-- A test of characters that makes no difference beyond ASCII can be made of the bytes. -/
theorem char_test {p : Char → Bool} {beyond : Bool}
    (alike : ∀ c : Char, 128 ≤ c.toNat → p c = beyond) (c : Char) :
    ∀ byte ∈ String.utf8EncodeChar c, p (Char.ofUInt8 byte) = p c := by
  intro byte inside
  by_cases ascii : c.toNat < 128
  · rw [char_ascii ascii, List.mem_singleton] at inside
    rw [inside, ofUInt8_ofNat ascii]
  · obtain ⟨first, others, bytes, high, more⟩ := char_beyond (Nat.not_lt.mp ascii)
    rw [alike c (Nat.not_lt.mp ascii)]
    apply alike
    rw [ofUInt8_toNat]
    rw [bytes] at inside
    rcases List.mem_cons.mp inside with rfl | other
    · exact Nat.le_trans (by decide) high
    · exact more byte other

@[simp] theorem utf8_append (a b : List Char) : utf8 (a ++ b) = utf8 a ++ utf8 b :=
  List.flatMap_append

theorem utf8_cons (c : Char) (cs : List Char) :
    utf8 (c :: cs) = String.utf8EncodeChar c ++ utf8 cs := List.flatMap_cons

theorem utf8_ascii {c : Char} (ascii : c.toNat < 128) (cs : List Char) :
    utf8 (c :: cs) = UInt8.ofNat c.toNat :: utf8 cs := by
  rw [utf8_cons, char_ascii ascii, List.singleton_append]

theorem ofUInt8_utf8 {text : List Char} (ascii : ∀ c ∈ text, c.toNat < 128) :
    (utf8 text).map Char.ofUInt8 = text := by
  induction text with
  | nil => rfl
  | cons c cs ih =>
    rw [List.forall_mem_cons] at ascii
    simp [utf8_ascii ascii.1, ofUInt8_ofNat ascii.1, ih ascii.2]

theorem length_le_utf8 (text : List Char) : text.length ≤ (utf8 text).length := by
  induction text with
  | nil => exact Nat.le_refl 0
  | cons c cs ih =>
    have some_byte := List.length_pos_iff.mpr (@String.utf8EncodeChar_ne_nil c)
    rw [utf8_cons, List.length_append, List.length_cons]
    omega

@[simp] theorem toByteArray_utf8 (source : String) :
    source.toByteArray.data.toList = utf8 source.toList := by
  rw [← String.utf8Encode_toList, List.utf8Encode, List.toList_data_toByteArray]
  rfl

@[simp] theorem length_utf8 (source : String) :
    (utf8 source.toList).length = source.utf8ByteSize := by
  rw [← toByteArray_utf8]
  rfl

theorem takeWhile_utf8 {p : Char → Bool} {beyond : Bool}
    (alike : ∀ c : Char, 128 ≤ c.toNat → p c = beyond) (text : List Char) :
    (utf8 text).takeWhile (fun byte => p (Char.ofUInt8 byte)) = utf8 (text.takeWhile p) := by
  induction text with
  | nil => rfl
  | cons c cs ih =>
    have same := char_test alike c
    by_cases passes : p c = true
    · have all : ∀ byte ∈ String.utf8EncodeChar c, p (Char.ofUInt8 byte) = true := by
        intro byte inside
        rw [same byte inside, passes]
      rw [utf8_cons, List.takeWhile_append_of_pos all, ih, List.takeWhile_cons_of_pos passes,
        utf8_cons]
    · obtain ⟨first, others, bytes, -⟩ := char_first c
      have stops : ¬ p (Char.ofUInt8 first) = true := by
        rw [same first (by simp [bytes])]
        exact passes
      rw [utf8_cons, bytes, List.cons_append, List.takeWhile_cons_of_neg passes]
      exact List.takeWhile_cons_of_neg stops

theorem count_utf8 {c : Char} (ascii : c.toNat < 128) (text : List Char) :
    (utf8 text).count (UInt8.ofNat c.toNat) = text.count c := by
  induction text with
  | nil => rfl
  | cons d ds ih =>
    rw [utf8_cons, List.count_append, ih]
    by_cases same : d = c
    · subst same
      rw [char_ascii ascii, List.count_cons_self, List.count_cons_self]
      simp [Nat.add_comm]
    · have absent : UInt8.ofNat c.toNat ∉ String.utf8EncodeChar d := by
        intro inside
        have other (x : Char) (beyond : 128 ≤ x.toNat) : decide (x = c) = false :=
          decide_eq_false (by rintro rfl; omega)
        have alike := char_test other d _ inside
        rw [ofUInt8_ofNat ascii, decide_eq_true rfl, eq_comm, decide_eq_true_iff] at alike
        exact same alike
      rw [List.count_eq_zero.mpr absent, List.count_cons_of_ne same, Nat.zero_add]

@[simp] theorem boundary_between (before behind : List Char) :
    isBoundary (utf8 (before ++ behind)) (utf8 before).length = true := by
  unfold isBoundary
  rw [utf8_append]
  cases behind with
  | nil => simp [utf8]
  | cons c cs =>
    obtain ⟨first, others, bytes, starts⟩ := char_first c
    rw [utf8_cons, bytes, List.cons_append, List.getElem?_append_right (Nat.le_refl _),
      Nat.sub_self, List.getElem?_cons_zero]
    simp [starts]

@[simp] theorem bytes_between (before text behind : List Char) :
    ((utf8 (before ++ text ++ behind)).take (utf8 (before ++ text)).length).drop
      (utf8 before).length = utf8 text := by
  rw [utf8_append (before ++ text), List.take_left]
  simp

@[simp] theorem slice_between (before text behind : List Char) :
    slice? (utf8 (before ++ text ++ behind)) (utf8 before).length
      (utf8 (before ++ text)).length = some (String.ofList text) := by
  have start := boundary_between before (text ++ behind)
  have stop := boundary_between (before ++ text) behind
  rw [← List.append_assoc] at start
  have ordered : (utf8 before).length ≤ (utf8 (before ++ text)).length := by
    simp
  have decoded : (⟨(utf8 text).toArray⟩ : ByteArray) = (String.ofList text).toByteArray := by
    apply ByteArray.ext
    rw [String.toByteArray_ofList, List.utf8Encode, List.data_toByteArray]
    rfl
  rw [slice?, if_pos ⟨ordered, start, stop⟩, bytes_between, decoded]
  unfold String.fromUTF8?
  rw [dif_pos (String.ofList text).isValidUTF8]
  rfl

end StackCalc.Text
