import Mathlib.Tactic.Ring
import StackCalc.Chunk.Image

/-! Images and the chunks they stand for. The reader takes an image apart field by field, and each
field is read from exactly the bytes that the writer puts there, whatever follows them. So an image
decodes to a chunk if and only if it is what the chunk encodes to, and there is one image for each
chunk that has any. -/
namespace StackCalc.Image

@[simp] theorem bigEndian_length (count n : Nat) : (bigEndian count n).length = count := by
  induction count with
  | zero => rfl
  | succ count ih => simp [bigEndian, ih]

theorem foldl_bigEndian (bytes : List UInt8) (start : Nat) :
    bytes.foldl (fun value byte => 256 * value + byte.toNat) start =
      256 ^ bytes.length * start + ofBigEndian bytes := by
  induction bytes generalizing start with
  | nil => simp [ofBigEndian]
  | cons byte bytes ih =>
    rw [ofBigEndian, List.foldl_cons, List.foldl_cons, ih, ih (256 * 0 + byte.toNat),
      List.length_cons]
    ring

theorem ofBigEndian_cons (byte : UInt8) (bytes : List UInt8) :
    ofBigEndian (byte :: bytes) = 256 ^ bytes.length * byte.toNat + ofBigEndian bytes := by
  rw [ofBigEndian, List.foldl_cons, foldl_bigEndian, Nat.mul_zero, Nat.zero_add]

theorem ofBigEndian_lt (bytes : List UInt8) : ofBigEndian bytes < 256 ^ bytes.length := by
  induction bytes with
  | nil => decide
  | cons byte bytes ih =>
    have digit : byte.toNat + 1 ≤ 256 := byte.toNat_lt
    calc ofBigEndian (byte :: bytes)
        = 256 ^ bytes.length * byte.toNat + ofBigEndian bytes := ofBigEndian_cons byte bytes
      _ < 256 ^ bytes.length * (byte.toNat + 1) := by rw [Nat.mul_add_one]; omega
      _ ≤ 256 ^ bytes.length * 256 := Nat.mul_le_mul_left _ digit

theorem ofBigEndian_bigEndian (count n : Nat) :
    ofBigEndian (bigEndian count n) = n % 256 ^ count := by
  induction count with
  | zero => simp [bigEndian, ofBigEndian, Nat.mod_one]
  | succ count ih =>
    have digit : n >>> (8 * count) = n / 256 ^ count := by
      rw [Nat.shiftRight_eq_div_pow, Nat.pow_mul]
    rw [bigEndian, ofBigEndian_cons, bigEndian_length, ih, digit, Nat.pow_succ, Nat.mod_mul]
    exact Nat.add_comm ..

theorem ofBigEndian_inj {xs ys : List UInt8} (lengths : xs.length = ys.length)
    (values : ofBigEndian xs = ofBigEndian ys) : xs = ys := by
  induction xs generalizing ys with
  | nil => exact (List.length_eq_zero_iff.mp lengths.symm).symm
  | cons x xs ih =>
    cases ys with
    | nil => cases lengths
    | cons y ys =>
      have tails : xs.length = ys.length := Nat.succ.inj lengths
      have small := ofBigEndian_lt xs
      have small' := ofBigEndian_lt ys
      rw [ofBigEndian_cons, ofBigEndian_cons, tails] at values
      rw [tails] at small
      -- The first byte is the quotient by the weight of the tail, and the tail the remainder.
      have heads := congrArg (· / 256 ^ ys.length) values
      have rests := congrArg (· % 256 ^ ys.length) values
      simp only [Nat.mul_add_div (Nat.pow_pos (by decide : 0 < 256)), Nat.mul_add_mod,
        Nat.div_eq_of_lt small, Nat.div_eq_of_lt small', Nat.mod_eq_of_lt small,
        Nat.mod_eq_of_lt small', Nat.add_zero] at heads rests
      rw [UInt8.toNat_inj.mp heads, ih tails rests]

theorem bigEndian_ofBigEndian (bytes : List UInt8) :
    bigEndian bytes.length (ofBigEndian bytes) = bytes := by
  apply ofBigEndian_inj (bigEndian_length _ _)
  rw [ofBigEndian_bigEndian, Nat.mod_eq_of_lt (ofBigEndian_lt bytes)]

theorem bind_eq_ok {α β : Type} {x : Except DecodeError α} {f : α → Except DecodeError β} {b : β} :
    (x >>= f) = .ok b ↔ ∃ a, x = .ok a ∧ f a = .ok b := by
  cases x with
  | error e => simp [bind, Except.bind]
  | ok a => simp [bind, Except.bind]

section Fields

variable {count : Nat} {field : Field} {input rest : List UInt8}

theorem take_eq_ok {front : List UInt8} :
    take count field input = .ok (front, rest) ↔ front.length = count ∧ input = front ++ rest := by
  constructor
  · intro taken
    simp only [take] at taken
    split at taken
    · cases taken
    · rename_i enough
      cases taken
      have short := List.length_take_le count input
      exact ⟨by omega, (List.take_append_drop count input).symm⟩
  · rintro ⟨rfl, rfl⟩
    simp [take]

theorem takeNat_eq_ok {n : Nat} : takeNat count field input = .ok (n, rest) ↔
    n < 256 ^ count ∧ input = bigEndian count n ++ rest := by
  constructor
  · intro taken
    unfold takeNat at taken
    split at taken
    · cases taken
    · rename_i front input' front_taken
      cases taken
      obtain ⟨rfl, rfl⟩ := take_eq_ok.mp front_taken
      exact ⟨ofBigEndian_lt front, by rw [bigEndian_ofBigEndian]⟩
  · rintro ⟨small, rfl⟩
    have front_taken : take count field (bigEndian count n ++ rest) =
        .ok (bigEndian count n, rest) := take_eq_ok.mpr ⟨bigEndian_length count n, rfl⟩
    simp only [takeNat, front_taken, ofBigEndian_bigEndian, Nat.mod_eq_of_lt small]

theorem takeMany_eq_ok {α : Type} {item : List UInt8 → Except DecodeError (α × List UInt8)}
    {Legal : α → Prop} {bytes : α → List UInt8}
    (item_eq_ok : ∀ input value rest,
      item input = .ok (value, rest) ↔ Legal value ∧ input = bytes value ++ rest)
    {due : Nat} {seen values : List α} :
    takeMany item due seen input = .ok (values, rest) ↔
      ∃ new, values = seen.reverse ++ new ∧ new.length = due ∧ (∀ value ∈ new, Legal value) ∧
        input = new.flatMap bytes ++ rest := by
  induction due generalizing seen input with
  | zero =>
    simp only [takeMany, Except.ok.injEq, Prod.mk.injEq]
    constructor
    · rintro ⟨rfl, rfl⟩
      exact ⟨[], by simp⟩
    · rintro ⟨new, rfl, none_due, -, rfl⟩
      obtain rfl := List.length_eq_zero_iff.mp none_due
      simp
  | succ due ih =>
    constructor
    · intro taken
      unfold takeMany at taken
      split at taken
      · cases taken
      · rename_i value input' value_taken
        obtain ⟨legal, rfl⟩ := (item_eq_ok _ _ _).mp value_taken
        obtain ⟨new, rfl, rfl, all_legal, rfl⟩ := ih.mp taken
        refine ⟨value :: new, by simp, rfl, ?_, by simp⟩
        exact List.forall_mem_cons.mpr ⟨legal, all_legal⟩
    · rintro ⟨new, rfl, length, all_legal, rfl⟩
      cases new with
      | nil => cases length
      | cons value new =>
        rw [List.forall_mem_cons] at all_legal
        have value_taken := (item_eq_ok _ _ _).mpr
          ⟨all_legal.1, List.append_assoc (bytes value) (new.flatMap bytes) rest⟩
        simp only [takeMany, List.flatMap_cons, value_taken]
        exact ih.mpr ⟨new, by simp, Nat.succ.inj length, all_legal.2, rfl⟩

theorem takeLines_eq_ok {due : Nat} {lines : List Nat} :
    takeMany (takeNat 4 .lines) due [] input = .ok (lines, rest) ↔
      lines.length = due ∧ (∀ line ∈ lines, line < wordBound) ∧
        input = lines.flatMap (bigEndian 4) ++ rest := by
  have item_eq_ok (input : List UInt8) (line : Nat) (rest : List UInt8) :
      takeNat 4 .lines input = .ok (line, rest) ↔
        line < wordBound ∧ input = bigEndian 4 line ++ rest := takeNat_eq_ok
  rw [takeMany_eq_ok item_eq_ok]
  simp only [List.reverse_nil, List.nil_append, exists_eq_left']

theorem takeConstant_eq_ok {value : Number} :
    takeConstant input = .ok (value, rest) ↔ input = constantBytes value ++ rest := by
  constructor
  · intro taken
    unfold takeConstant at taken
    split at taken
    · cases taken
    · rename_i tag behind_tag tag_taken
      split at taken
      · rename_i known
        split at taken
        · cases taken
        · rename_i bits input' bits_taken
          cases taken
          obtain ⟨-, rfl⟩ := takeNat_eq_ok.mp tag_taken
          obtain ⟨small, rfl⟩ := takeNat_eq_ok.mp bits_taken
          have same_bits : (UInt64.ofNat bits).toNat = bits := UInt64.toNat_ofNat_of_lt' small
          rw [known, constantBytes, same_bits]
          rfl
      · cases taken
  · rintro rfl
    have tag_taken : takeNat 1 .constantTag (constantBytes value ++ rest) =
        .ok (numberTag.toNat, bigEndian 8 value.bits.toNat ++ rest) :=
      takeNat_eq_ok.mpr ⟨by decide, rfl⟩
    have bits_taken : takeNat 8 .constant (bigEndian 8 value.bits.toNat ++ rest) =
        .ok (value.bits.toNat, rest) :=
      takeNat_eq_ok.mpr ⟨value.bits.toNat_lt, rfl⟩
    simp only [takeConstant, tag_taken, bits_taken, if_true, UInt64.ofNat_toNat]

theorem takeConstants_eq_ok {due : Nat} {values : List Number} :
    takeMany takeConstant due [] input = .ok (values, rest) ↔
      values.length = due ∧ input = values.flatMap constantBytes ++ rest := by
  have item_eq_ok (input : List UInt8) (value : Number) (rest : List UInt8) :
      takeConstant input = .ok (value, rest) ↔ True ∧ input = constantBytes value ++ rest := by
    rw [takeConstant_eq_ok, true_and]
  rw [takeMany_eq_ok item_eq_ok]
  simp only [List.reverse_nil, List.nil_append, exists_eq_left', implies_true, true_and]

theorem checkMagic_eq_ok : checkMagic input = .ok rest ↔ input = magic ++ rest := by
  unfold checkMagic
  simp only [bind_eq_ok, Prod.exists, take_eq_ok]
  constructor
  · rintro ⟨front, behind, ⟨-, rfl⟩, checked⟩
    split at checked
    · rename_i known
      cases checked
      rw [known]
    · cases checked
  · rintro rfl
    exact ⟨magic, rest, ⟨rfl, rfl⟩, rfl⟩

theorem checkVersion_eq_ok : checkVersion input = .ok rest ↔ input = version :: rest := by
  unfold checkVersion
  simp only [bind_eq_ok, Prod.exists, takeNat_eq_ok]
  constructor
  · rintro ⟨found, behind, ⟨-, rfl⟩, checked⟩
    split at checked
    · rename_i known
      cases checked
      rw [known]
      rfl
    · cases checked
  · rintro rfl
    exact ⟨version.toNat, rest, ⟨by decide, rfl⟩, rfl⟩

theorem checkEnd_eq_ok {done : Unit} : checkEnd input = .ok done ↔ input = [] := by
  unfold checkEnd
  split
  · rename_i ended
    simp [ended]
  · rename_i more
    simp [more]

end Fields

structure Fits (c : Chunk) : Prop where
  code : c.code.size < wordBound
  lines : ∀ line ∈ c.lines, line < wordBound
  pool : c.constants.size < wordBound

variable {c : Chunk} {image : List UInt8}

theorem encode_eq_ok : encode c = .ok image ↔ Fits c ∧ image = layOut c := by
  constructor
  · intro encoded
    unfold encode at encoded
    split at encoded
    · cases encoded
    · rename_i code
      split at encoded
      · cases encoded
      · rename_i lines
        split at encoded
        · cases encoded
        · rename_i pool
          cases encoded
          rw [List.find?_eq_none] at lines
          refine ⟨⟨Nat.lt_of_not_le code, ?_, Nat.lt_of_not_le pool⟩, rfl⟩
          intro line member
          simpa using lines line member
  · rintro ⟨fits, rfl⟩
    have lines : (c.lines.find? fun line => wordBound ≤ line) = none := by
      rw [List.find?_eq_none]
      intro line member
      simpa using fits.lines line member
    simp only [encode, if_neg (Nat.not_le_of_lt fits.code), lines,
      if_neg (Nat.not_le_of_lt fits.pool)]

theorem encode_eq_error {e : EncodeError} (code : c.code.size < wordBound)
    (pool : c.constants.size < wordBound) :
    encode c = .error e ↔ ∃ before line after, c.lines = before ++ line :: after ∧
      (∀ earlier ∈ before, earlier < wordBound) ∧ wordBound ≤ line ∧
      e = .lineOutOfRange line := by
  unfold encode
  rw [if_neg (Nat.not_le_of_lt code)]
  constructor
  · intro failed
    split at failed
    · rename_i line found
      cases failed
      obtain ⟨large, before, after, lines, small⟩ := List.find?_eq_some_iff_append.mp found
      exact ⟨before, line, after, lines, by simpa using small, by simpa using large, rfl⟩
    · rw [if_neg (Nat.not_le_of_lt pool)] at failed
      cases failed
  · rintro ⟨before, line, after, lines, small, large, rfl⟩
    have found : (c.lines.find? fun line => wordBound ≤ line) = some line := by
      rw [List.find?_eq_some_iff_append]
      exact ⟨by simpa using large, before, after, lines, by simpa using small⟩
    rw [found]

@[simp] theorem zip_code (code : List CodeByte) :
    List.zipWith CodeByte.mk (code.map CodeByte.byte) (code.map CodeByte.line) = code := by
  induction code with
  | nil => rfl
  | cons _ code ih => simp [ih]

theorem unzip_code {bytes : List UInt8} {lines : List Nat} (same : lines.length = bytes.length) :
    ∃ code : List CodeByte, bytes = code.map CodeByte.byte ∧ lines = code.map CodeByte.line := by
  induction bytes generalizing lines with
  | nil => exact ⟨[], rfl, List.length_eq_zero_iff.mp same⟩
  | cons byte bytes ih =>
    cases lines with
    | nil => cases same
    | cons line lines =>
      obtain ⟨code, rfl, rfl⟩ := ih (Nat.succ.inj same)
      exact ⟨⟨byte, line⟩ :: code, rfl, rfl⟩

theorem decode_eq_ok : decode image = .ok c ↔ Fits c ∧ image = layOut c := by
  unfold decode
  simp only [bind_eq_ok, Prod.exists, checkMagic_eq_ok, checkVersion_eq_ok, takeNat_eq_ok,
    take_eq_ok, takeLines_eq_ok, takeConstants_eq_ok, checkEnd_eq_ok]
  constructor
  · rintro ⟨_, rfl, _, rfl, size, _, ⟨size_small, rfl⟩, bytes, _, ⟨rfl, rfl⟩, lines, _,
      ⟨lines_length, lines_small, rfl⟩, count, _, ⟨count_small, rfl⟩, constants, _,
      ⟨rfl, rfl⟩, _, rfl, made⟩
    obtain ⟨code, rfl, rfl⟩ := unzip_code lines_length
    cases made
    simp only [zip_code]
    rw [List.length_map] at size_small
    exact ⟨⟨size_small, lines_small, count_small⟩, by simp [layOut, Chunk.bytes, Chunk.lines]⟩
  · rintro ⟨fits, rfl⟩
    have code : c.bytes.length = c.code.size := by simp [Chunk.bytes]
    have lines : c.lines.length = c.code.size := by simp [Chunk.lines]
    have spelled : layOut c = magic ++ (version :: (bigEndian 4 c.code.size ++ (c.bytes ++
        (c.lines.flatMap (bigEndian 4) ++ (bigEndian 4 c.constants.size ++
          (c.constants.toList.flatMap constantBytes ++ [])))))) := by
      simp [layOut]
    refine ⟨_, spelled, _, rfl, c.code.size, _, ⟨fits.code, rfl⟩, c.bytes, _, ⟨code, rfl⟩,
      c.lines, _, ⟨lines, fits.lines, rfl⟩, c.constants.size, _, ⟨fits.pool, rfl⟩,
      c.constants.toList, [], ⟨Array.length_toList, rfl⟩, ⟨⟩, rfl, ?_⟩
    rw [Chunk.bytes, Chunk.lines, zip_code]
    rfl

theorem encode_iff_decode : encode c = .ok image ↔ decode image = .ok c :=
  encode_eq_ok.trans decode_eq_ok.symm

theorem equals_self (c : Chunk) :
    c.equals c = true ↔ ∀ value ∈ c.constants, value.isNaN = false := by
  have number (x : Number) : x.equals x = true ↔ x.isNaN = false := by
    simp [Number.equals]
  simp [Chunk.equals, Array.isEqv_eq_decide, number, Array.forall_mem_iff_forall_getElem]

/-- The image decodes to the same chunk bit for bit, and still the two are not equal where a
constant is a NaN, since no NaN is equal to itself. -/
theorem decode_encode (c : Chunk) (code : c.size < 2 ^ 32) (pool : c.constants.size < 2 ^ 32) :
    ((∃ image, encode c = .ok image) ↔ ∀ line ∈ c.lines, line ≤ 2 ^ 32 - 1) ∧
    (∀ e, encode c = .error e ↔ ∃ before line after, c.lines = before ++ line :: after ∧
      (∀ earlier ∈ before, earlier ≤ 2 ^ 32 - 1) ∧ 2 ^ 32 - 1 < line ∧
      e = .lineOutOfRange line) ∧
    ∀ image, encode c = .ok image → ∃ d, decode image = .ok d ∧ d.bytes = c.bytes ∧
      d.lines = c.lines ∧ d.constants.map Number.bits = c.constants.map Number.bits ∧
      (d.equals c = true ↔ ∀ value ∈ c.constants, value.isNaN = false) := by
  have bound : wordBound = 2 ^ 32 := rfl
  have small (n : Nat) : n < wordBound ↔ n ≤ 2 ^ 32 - 1 := by omega
  have large (n : Nat) : wordBound ≤ n ↔ 2 ^ 32 - 1 < n := by omega
  refine ⟨?_, ?_, ?_⟩
  · constructor
    · rintro ⟨image, encoded⟩ line member
      have fits := (encode_eq_ok.mp encoded).1
      exact (small line).mp (fits.lines line member)
    · intro lines
      have fits : Fits c := ⟨code, fun line member => (small line).mpr (lines line member), pool⟩
      exact ⟨layOut c, encode_eq_ok.mpr ⟨fits, rfl⟩⟩
  · intro e
    rw [encode_eq_error code pool]
    simp only [small, large]
  · intro image encoded
    exact ⟨c, encode_iff_decode.mp encoded, rfl, rfl, rfl, equals_self c⟩

theorem decode_encode_nan : ∃ image d,
    encode ⟨#[⟨1, 1⟩, ⟨0, 2 ^ 32 - 1⟩], #[⟨0x8000000000000000⟩, ⟨0xFFF8000000000123⟩]⟩ =
      .ok image ∧ decode image = .ok d ∧ d.lines = [1, 2 ^ 32 - 1] ∧
    d.constants.map Number.bits = #[0x8000000000000000, 0xFFF8000000000123] ∧
    d.equals ⟨#[⟨1, 1⟩, ⟨0, 2 ^ 32 - 1⟩], #[⟨0x8000000000000000⟩, ⟨0xFFF8000000000123⟩]⟩ =
      false := by
  obtain ⟨encoded, -, decoded⟩ := decode_encode
    ⟨#[⟨1, 1⟩, ⟨0, 2 ^ 32 - 1⟩], #[⟨0x8000000000000000⟩, ⟨0xFFF8000000000123⟩]⟩
    (by decide) (by decide)
  obtain ⟨image, image_eq⟩ := encoded.mpr (by decide)
  obtain ⟨d, d_eq, -, lines, constants, equal⟩ := decoded image image_eq
  refine ⟨image, d, image_eq, d_eq, lines, constants.trans (by simp), ?_⟩
  rw [← Bool.not_eq_true, equal]
  decide

theorem chunk_ext {c d : Chunk} (bytes : c.bytes = d.bytes) (lines : c.lines = d.lines)
    (bits : c.constants.map Number.bits = d.constants.map Number.bits) : c = d := by
  have code : c.code = d.code := by
    rw [← Array.toList_inj, ← zip_code c.code.toList, ← zip_code d.code.toList]
    exact congrArg₂ (List.zipWith CodeByte.mk) bytes lines
  have constants : c.constants = d.constants := by
    refine (Array.map_inj_right ?_).mp bits
    rintro ⟨x⟩ ⟨y⟩ same
    exact congrArg Number.mk same
  cases c
  cases d
  simp_all

/-- Only one image decodes to a chunk: the one that the chunk encodes to. -/
theorem encode_decode (image : List UInt8) (c : Chunk) (decoded : decode image = .ok c) :
    encode c = .ok image ∧
    ∀ image' c', decode image' = .ok c' → c'.bytes = c.bytes → c'.lines = c.lines →
      c'.constants.map Number.bits = c.constants.map Number.bits → image' = image := by
  refine ⟨encode_iff_decode.mpr decoded, ?_⟩
  intro image' c' decoded' bytes lines constants
  rw [(decode_eq_ok.mp decoded).2, (decode_eq_ok.mp decoded').2,
    chunk_ext bytes lines constants]

/-- One code byte, and bytes among those of its constant that look like a count and a tag. -/
theorem encode_decode_one : ∃ c, decode [0x41, 0x54, 0x4D, 0x43, 1, 0, 0, 0, 1, 0, 0, 0, 0, 7,
      0, 0, 0, 1, 0, 0, 0, 0, 1, 0, 0, 0, 0] = .ok c ∧
    encode c = .ok [0x41, 0x54, 0x4D, 0x43, 1, 0, 0, 0, 1, 0, 0, 0, 0, 7,
      0, 0, 0, 1, 0, 0, 0, 0, 1, 0, 0, 0, 0] := by
  have decoded : decode [0x41, 0x54, 0x4D, 0x43, 1, 0, 0, 0, 1, 0, 0, 0, 0, 7,
      0, 0, 0, 1, 0, 0, 0, 0, 1, 0, 0, 0, 0] =
        .ok ⟨#[⟨0, 7⟩], #[⟨0x0000000100000000⟩]⟩ := by decide
  exact ⟨_, decoded, (encode_decode _ _ decoded).1⟩

end StackCalc.Image
