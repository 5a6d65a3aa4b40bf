import StackCalc.Proofs.Chunk.Image

/-! Images that stop early or go on. A value once read and a byte once found wrong stay so, whatever
follows them. Only where the bytes give out is nothing decided yet, and then there are bytes that
make an image of them. So no image is the front of another one. -/
namespace StackCalc.Image

/-- What the bytes seen are wrong for, and not how many there are. -/
def DecodeError.isLasting : DecodeError → Bool
  | .badMagic | .unsupportedVersion _ | .unknownTag _ => true
  | .truncated _ | .trailing _ => false

abbrev Reader (α : Type) : Type := List UInt8 → Except DecodeError (α × List UInt8)

/-- Longer bytes are read as their front was, unless the front was too short. Bytes that are too
short can be completed, and no bytes at all are never more than too short. -/
structure Steady {α : Type} (read : Reader α) : Prop where
  reads {input : List UInt8} {value : α} {rest : List UInt8} : read input = .ok (value, rest) →
    ∃ front, input = front ++ rest ∧ ∀ more, read (front ++ more) = .ok (value, more)
  fails {input : List UInt8} {e : DecodeError} : read input = .error e →
    (∃ field, e = .truncated field) ∨
      e.isLasting = true ∧ ∀ more, read (input ++ more) = .error e
  completed {input : List UInt8} {field : Field} : read input = .error (.truncated field) →
    ∃ more value, read (input ++ more) = .ok (value, [])
  starved {e : DecodeError} : read [] = .error e → ∃ field, e = .truncated field

namespace Reader

variable {α β γ : Type}

def ready (value : α) : Reader α := fun input => .ok (value, input)

def chain (read : Reader α) (next : α → Reader β) : Reader β := fun input =>
  match read input with
  | .error e => .error e
  | .ok (value, rest) => next value rest

def expect (field : Field) (byte : UInt8) (other : Nat → DecodeError) : Reader Unit := fun input =>
  match takeNat 1 field input with
  | .error e => .error e
  | .ok (found, rest) => if found = byte.toNat then .ok ((), rest) else .error (other found)

variable {read : Reader α} {next : α → Reader β} {input rest : List UInt8}

theorem chain_ok {value : α} (first : read input = .ok (value, rest)) :
    chain read next input = next value rest := by
  simp only [chain, first]

theorem chain_error {e : DecodeError} (first : read input = .error e) :
    chain read next input = .error e := by
  simp only [chain, first]

theorem chain_bind (input : List UInt8) (last : β × List UInt8 → Except DecodeError γ) :
    (chain read next input >>= last) =
      read input >>= fun found => next found.1 found.2 >>= last := by
  cases first : read input with
  | error e =>
    rw [chain_error first]
    rfl
  | ok found =>
    rw [chain_ok first]
    rfl

end Reader

open Reader

namespace Steady

variable {α β : Type} {read : Reader α} {next : α → Reader β}

theorem ready (value : α) : Steady (ready value) where
  reads := by
    intro input value' rest read
    cases read
    exact ⟨[], rfl, fun _ => rfl⟩
  fails := nofun
  completed := nofun
  starved := nofun

theorem rest_nil (steady : Steady read) {value : α} {rest : List UInt8}
    (first : read [] = .ok (value, rest)) : rest = [] := by
  obtain ⟨front, split, -⟩ := steady.reads first
  exact (List.append_eq_nil_iff.mp split.symm).2

theorem chain (first : Steady read) (second : ∀ value, Steady (next value)) :
    Steady (chain read next) where
  reads := by
    intro input value rest all
    cases found : read input with
    | error e =>
      rw [chain_error found] at all
      cases all
    | ok front =>
      rw [chain_ok found] at all
      obtain ⟨bytes, split, any_rest⟩ := first.reads found
      obtain ⟨bytes', split', any_rest'⟩ := (second front.1).reads all
      refine ⟨bytes ++ bytes', by rw [split, split', List.append_assoc], fun more => ?_⟩
      rw [List.append_assoc, chain_ok (any_rest _), any_rest']
  fails := by
    intro input e all
    cases found : read input with
    | error e' =>
      rw [chain_error found] at all
      cases all
      rcases first.fails found with short | ⟨lasting, longer⟩
      · exact .inl short
      · exact .inr ⟨lasting, fun more => chain_error (longer more)⟩
    | ok front =>
      rw [chain_ok found] at all
      obtain ⟨bytes, split, any_rest⟩ := first.reads found
      rcases (second front.1).fails all with short | ⟨lasting, longer⟩
      · exact .inl short
      · refine .inr ⟨lasting, fun more => ?_⟩
        rw [split, List.append_assoc, chain_ok (any_rest _), longer]
  completed := by
    intro input field all
    cases found : read input with
    | error e =>
      rw [chain_error found] at all
      cases all
      obtain ⟨more, value, found'⟩ := first.completed found
      obtain ⟨bytes, split, any_rest⟩ := first.reads found'
      rw [List.append_nil] at split
      -- Nothing is left behind what was completed, so what comes next is complete too or starves.
      cases behind : next value [] with
      | ok last =>
        obtain ⟨value', rest⟩ := last
        obtain rfl := (second value).rest_nil behind
        exact ⟨more, value', (chain_ok found').trans behind⟩
      | error e =>
        obtain ⟨field', rfl⟩ := (second value).starved behind
        obtain ⟨more', value', complete⟩ := (second value).completed behind
        rw [List.nil_append] at complete
        refine ⟨more ++ more', value', ?_⟩
        rw [← List.append_assoc, split, chain_ok (any_rest more'), complete]
    | ok front =>
      rw [chain_ok found] at all
      obtain ⟨bytes, split, any_rest⟩ := first.reads found
      obtain ⟨more, value, complete⟩ := (second front.1).completed all
      refine ⟨more, value, ?_⟩
      rw [split, List.append_assoc, chain_ok (any_rest _), complete]
  starved := by
    intro e all
    cases found : read [] with
    | error e' =>
      rw [chain_error found] at all
      cases all
      exact first.starved found
    | ok front =>
      rw [chain_ok found, first.rest_nil found] at all
      exact (second front.1).starved all

end Steady

section Fields

variable {count : Nat} {field : Field} {input : List UInt8}

theorem take_eq_error {e : DecodeError} :
    take count field input = .error e ↔ input.length < count ∧ e = .truncated field := by
  have shorter : (input.take count).length < count ↔ input.length < count := by
    rw [List.length_take]
    omega
  simp only [take, shorter]
  split <;> simp_all [eq_comm]

theorem take_steady (count : Nat) (field : Field) : Steady (take count field) where
  reads := by
    intro input front rest taken
    obtain ⟨length, split⟩ := take_eq_ok.mp taken
    exact ⟨front, split, fun more => take_eq_ok.mpr ⟨length, rfl⟩⟩
  fails failed := .inl ⟨field, (take_eq_error.mp failed).2⟩
  completed := by
    intro input field' failed
    obtain ⟨short, -⟩ := take_eq_error.mp failed
    have filled : (input ++ List.replicate (count - input.length) 0).length = count := by
      simp only [List.length_append, List.length_replicate]
      omega
    exact ⟨_, _, take_eq_ok.mpr ⟨filled, (List.append_nil _).symm⟩⟩
  starved failed := ⟨field, (take_eq_error.mp failed).2⟩

theorem takeNat_chain (count : Nat) (field : Field) :
    takeNat count field = chain (take count field) fun front => ready (ofBigEndian front) := by
  funext input
  cases taken : take count field input with
  | error e => simp only [takeNat, taken, chain_error taken]
  | ok found => simp only [takeNat, taken, chain_ok taken, ready]

theorem takeNat_steady (count : Nat) (field : Field) : Steady (takeNat count field) := by
  rw [takeNat_chain]
  exact (take_steady count field).chain fun front => .ready _

theorem takeMany_steady {α : Type} {item : Reader α} (item_steady : Steady item) (due : Nat)
    (seen : List α) : Steady (takeMany item due seen) := by
  induction due generalizing seen with
  | zero => exact .ready _
  | succ due ih =>
    have step : takeMany item (due + 1) seen =
        chain item fun value => takeMany item due (value :: seen) := by
      funext input
      cases taken : item input with
      | error e => simp only [takeMany, taken, chain_error taken]
      | ok found => simp only [takeMany, taken, chain_ok taken]
    rw [step]
    exact item_steady.chain fun value => ih (value :: seen)

@[simp] theorem takeNat_one (field : Field) (byte : UInt8) (rest : List UInt8) :
    takeNat 1 field (byte :: rest) = .ok (byte.toNat, rest) := by
  have digit : bigEndian 1 byte.toNat = [byte] := by simp [bigEndian]
  exact takeNat_eq_ok.mpr ⟨byte.toNat_lt, by rw [digit, List.singleton_append]⟩

@[simp] theorem expect_cons (field : Field) (byte found : UInt8) (other : Nat → DecodeError)
    (rest : List UInt8) : expect field byte other (found :: rest) =
      if found = byte then .ok ((), rest) else .error (other found.toNat) := by
  simp only [expect, takeNat_one, UInt8.toNat_inj]

theorem expect_steady (field : Field) (byte : UInt8) {other : Nat → DecodeError}
    (lasting : ∀ found, (other found).isLasting = true) : Steady (expect field byte other) where
  reads := by
    intro input value rest all
    cases input with
    | nil => cases all
    | cons found behind =>
      rw [expect_cons] at all
      split at all
      · rename_i due
        cases all
        exact ⟨[found], rfl, fun more => by simp [due]⟩
      · cases all
  fails := by
    intro input e all
    cases input with
    | nil =>
      cases all
      exact .inl ⟨field, rfl⟩
    | cons found behind =>
      rw [expect_cons] at all
      split at all
      · cases all
      · rename_i not_due
        cases all
        refine .inr ⟨lasting _, fun more => ?_⟩
        simp [not_due]
  completed := by
    intro input field' all
    cases input with
    | nil => exact ⟨[byte], (), by simp⟩
    | cons found behind =>
      rw [expect_cons] at all
      split at all
      · cases all
      · have short := lasting found.toNat
        rw [Except.error.inj all] at short
        cases short
  starved := by
    intro e all
    cases all
    exact ⟨field, rfl⟩

theorem takeConstant_chain : takeConstant = chain (expect .constantTag numberTag .unknownTag)
    fun _ => chain (takeNat 8 .constant) fun bits => ready ⟨UInt64.ofNat bits⟩ := by
  funext input
  cases input with
  | nil => rfl
  | cons tag rest =>
    by_cases known : tag = numberTag
    · have due : tag.toNat = numberTag.toNat := congrArg _ known
      have passed : expect .constantTag numberTag .unknownTag (tag :: rest) = .ok ((), rest) := by
        simp [known]
      rw [chain_ok passed]
      simp only [takeConstant, takeNat_one, if_pos due]
      cases taken : takeNat 8 .constant rest with
      | error e => simp only [chain_error taken]
      | ok found => simp only [chain_ok taken, ready]
    · have not_due : tag.toNat ≠ numberTag.toNat := fun same => known (UInt8.toNat_inj.mp same)
      have refused : expect .constantTag numberTag .unknownTag (tag :: rest) =
          .error (.unknownTag tag.toNat) := by simp [known]
      simp [chain_error refused, takeConstant, not_due]

theorem takeConstant_steady : Steady takeConstant := by
  rw [takeConstant_chain]
  exact (expect_steady _ _ fun _ => rfl).chain fun _ => (takeNat_steady _ _).chain fun _ => .ready _

theorem checkVersion_expect (input : List UInt8) : checkVersion input =
    expect .version version .unsupportedVersion input >>= fun found => .ok found.2 := by
  cases input with
  | nil => rfl
  | cons found rest =>
    simp only [checkVersion, takeNat_one, expect_cons, ← UInt8.toNat_inj, bind, Except.bind]
    split <;> rfl

end Fields

def body : Reader Chunk :=
  chain (expect .version version .unsupportedVersion) fun _ =>
  chain (takeNat 4 .codeLength) fun size =>
  chain (take size .code) fun code =>
  chain (takeMany (takeNat 4 .lines) size []) fun lines =>
  chain (takeNat 4 .constantCount) fun count =>
  chain (takeMany takeConstant count []) fun constants =>
  ready ⟨(List.zipWith CodeByte.mk code lines).toArray, constants.toArray⟩

theorem body_steady : Steady body :=
  (expect_steady _ _ fun _ => rfl).chain fun _ =>
  (takeNat_steady _ _).chain fun size =>
  (take_steady size _).chain fun _ =>
  (takeMany_steady (takeNat_steady _ _) size []).chain fun _ =>
  (takeNat_steady _ _).chain fun count =>
  (takeMany_steady takeConstant_steady count []).chain fun _ =>
  .ready _

theorem decode_bind (input : List UInt8) : decode (magic ++ input) =
    body input >>= fun found => checkEnd found.2 >>= fun _ => .ok found.1 := by
  have passed : checkMagic (magic ++ input) = .ok input := checkMagic_eq_ok.mpr rfl
  rw [decode, passed, body]
  simp only [chain_bind]
  change checkVersion input >>= _ = _
  rw [checkVersion_expect, bind_assoc]
  rfl

theorem decode_other {image : List UInt8} (enough : 4 ≤ image.length)
    (other : ¬ ∃ input, image = magic ++ input) : decode image = .error .badMagic := by
  have taken : take 4 .magic image = .ok (image.take 4, image.drop 4) :=
    take_eq_ok.mpr ⟨List.length_take_of_le enough, (List.take_append_drop 4 image).symm⟩
  have unknown : image.take 4 ≠ magic := by
    intro known
    exact other ⟨image.drop 4, by rw [← known, List.take_append_drop]⟩
  have refused : checkMagic image = .error .badMagic := by
    rw [checkMagic, taken]
    exact if_neg unknown
  rw [decode, refused]
  rfl

variable {input image : List UInt8} {c d : Chunk}

theorem decode_of_body {rest : List UInt8} (found : body input = .ok (c, rest)) :
    decode (magic ++ input) = if rest = [] then .ok c else .error (.trailing rest.length) := by
  rw [decode_bind, found]
  change checkEnd rest >>= _ = _
  unfold checkEnd
  split <;> rfl

theorem decode_of_body_error {e : DecodeError} (failed : body input = .error e) :
    decode (magic ++ input) = .error e := by
  rw [decode_bind, failed]
  rfl

/-- What decoding comes to: a chunk, perhaps with bytes too many behind its image, bytes that no
others can follow to make an image, or bytes that some others can. -/
inductive Verdict (image : List UInt8) : Except DecodeError Chunk → Prop where
  | whole {c : Chunk} :
      (∀ more, more ≠ [] → decode (image ++ more) = .error (.trailing more.length)) →
        Verdict image (.ok c)
  | trailing {front more : List UInt8} {c : Chunk} : image = front ++ more → decode front = .ok c →
      more ≠ [] → Verdict image (.error (.trailing more.length))
  | lasting {e : DecodeError} : e.isLasting = true →
      (∀ more, decode (image ++ more) = .error e) → Verdict image (.error e)
  | truncated {field : Field} {more : List UInt8} {c : Chunk} : more ≠ [] →
      decode (image ++ more) = .ok c → Verdict image (.error (.truncated field))

theorem decode_verdict (enough : 4 ≤ image.length) : Verdict image (decode image) := by
  by_cases known : ∃ input, image = magic ++ input
  · obtain ⟨input, rfl⟩ := known
    cases found : body input with
    | ok front =>
      obtain ⟨c, rest⟩ := front
      obtain ⟨bytes, rfl, any_rest⟩ := body_steady.reads found
      have whole : decode (magic ++ bytes) = .ok c := by
        simpa using decode_of_body (any_rest [])
      rw [decode_of_body found]
      split
      · rename_i ended
        subst ended
        refine .whole fun more some => ?_
        rw [List.append_assoc, List.append_nil, decode_of_body (any_rest more), if_neg some]
      · rename_i some
        exact .trailing (List.append_assoc ..).symm whole some
    | error e =>
      rw [decode_of_body_error found]
      rcases body_steady.fails found with ⟨field, rfl⟩ | ⟨lasting, longer⟩
      · obtain ⟨more, c, complete⟩ := body_steady.completed found
        have whole : decode (magic ++ input ++ more) = .ok c := by
          rw [List.append_assoc]
          simpa using decode_of_body complete
        have some : more ≠ [] := by
          rintro rfl
          rw [List.append_nil, decode_of_body_error found] at whole
          cases whole
        exact .truncated some whole
      · refine .lasting lasting fun more => ?_
        rw [List.append_assoc, decode_of_body_error (longer more)]
  · rw [decode_other enough known]
    refine .lasting rfl fun more => decode_other (by simp; omega) ?_
    rintro ⟨input, split⟩
    apply known
    have starts : magic <+: image ++ more := ⟨input, split.symm⟩
    obtain ⟨bytes, same⟩ :=
      List.prefix_of_prefix_length_le starts (List.prefix_append image more) enough
    exact ⟨bytes, same.symm⟩

theorem decode_enough (ok : decode image = .ok c) : 4 ≤ image.length := by
  rw [(decode_eq_ok.mp ok).2, layOut]
  simp only [magic, List.length_append, List.length_cons]
  omega

theorem decode_longer (ok : decode image = .ok c) {more : List UInt8} (some : more ≠ []) :
    decode (image ++ more) = .error (.trailing more.length) := by
  have verdict := decode_verdict (decode_enough ok)
  rw [ok] at verdict
  cases verdict with
  | whole longer => exact longer more some

/-- The errors tell cut images, images with bytes behind them and bytes that are no image apart. -/
theorem decode_extended (image : List UInt8) (enough : 4 ≤ image.length) :
    ((∃ field, decode image = .error (.truncated field)) ↔
      ∃ more c, more ≠ [] ∧ decode (image ++ more) = .ok c) ∧
    (∀ count, decode image = .error (.trailing count) ↔ ∃ front more c, image = front ++ more ∧
      decode front = .ok c ∧ more.length = count ∧ 1 ≤ count) ∧
    (∀ e, decode image = .error e → e.isLasting = true →
      ∀ more, decode (image ++ more) = .error e) ∧
    ∀ image' c c', encode c = .ok image → encode c' = .ok image' → image <+: image' →
      image' = image := by
  have verdict := decode_verdict enough
  refine ⟨⟨?_, ?_⟩, fun count => ⟨?_, ?_⟩, ?_, ?_⟩
  · rintro ⟨field, failed⟩
    rw [failed] at verdict
    cases verdict with
    | lasting lasting => cases lasting
    | truncated some whole => exact ⟨_, _, some, whole⟩
  · rintro ⟨more, c, some, whole⟩
    generalize decode image = result at verdict
    cases verdict with
    | whole longer => cases (longer more some).symm.trans whole
    | trailing split front some' =>
      rw [split, List.append_assoc, decode_longer front (by simp [some])] at whole
      cases whole
    | lasting _ longer => cases (longer more).symm.trans whole
    | truncated => exact ⟨_, rfl⟩
  · intro failed
    rw [failed] at verdict
    cases verdict with
    | trailing split front some =>
      exact ⟨_, _, _, split, front, rfl, List.length_pos_iff.mpr some⟩
    | lasting lasting => cases lasting
  · rintro ⟨front, more, c, rfl, whole, rfl, some⟩
    exact decode_longer whole (List.length_pos_iff.mp some)
  · intro e failed lasting more
    rw [failed] at verdict
    cases verdict with
    | trailing => cases lasting
    | lasting _ longer => exact longer more
    | truncated => cases lasting
  · rintro image' c c' encoded encoded' ⟨more, rfl⟩
    by_contra longer
    have some : more ≠ [] := fun none => longer (by rw [none, List.append_nil])
    have decoded := encode_iff_decode.mp encoded
    cases (decode_longer decoded some).symm.trans (encode_iff_decode.mp encoded')

theorem decode_extended_cut : ∃ more c, more ≠ [] ∧
    decode ([0x41, 0x54, 0x4D, 0x43, 1, 0, 0, 0, 1, 0, 0, 0] ++ more) = .ok c := by
  have failed : decode [0x41, 0x54, 0x4D, 0x43, 1, 0, 0, 0, 1, 0, 0, 0] =
      .error (.truncated .lines) := by decide
  exact (decode_extended _ (by decide)).1.mp ⟨_, failed⟩

end StackCalc.Image
