import StackCalc.Proofs.Chunk.ReadBack

namespace StackCalc

namespace Instruction

/-- A byte of an operand, so far behind its opcode. It is one of the bytes of an index, or the only
one that there is. -/
inductive Operand (byte : UInt8) : Nat → Instruction → Prop where
  | narrow : Operand byte 1 (.load false byte.toNat)
  | high (low : UInt8) : Operand byte 1 (.load true (256 * byte.toNat + low.toNat))
  | low (high : UInt8) : Operand byte 2 (.load true (256 * high.toNat + byte.toNat))
  | cut : Operand byte 1 (.truncated true 1)

theorem take_insert {byte : UInt8} {rest : List UInt8} {k : Nat}
    (inside : k + 1 < (take byte rest).1.size) (new : UInt8) : ∃ wide index,
      (take byte (rest.take k ++ new :: rest.drop k)).1 = .load wide index ∧
        Operand new (k + 1) (.load wide index) := by
  unfold take at inside ⊢
  split at inside
  case h_5 =>
    cases rest with
    | nil => simp [size] at inside
    | cons index rest =>
      obtain rfl : k = 0 := Nat.lt_one_iff.mp (Nat.lt_of_succ_lt_succ inside)
      exact ⟨false, new.toNat, rfl, .narrow⟩
  case h_6 =>
    match rest with
    | [] => simp [size] at inside
    | [low] =>
      obtain rfl : k = 0 := Nat.lt_one_iff.mp (Nat.lt_of_succ_lt_succ inside)
      exact ⟨true, 256 * new.toNat + low.toNat, rfl, .high low⟩
    | first :: second :: rest =>
      have bound : k < 2 := Nat.lt_of_succ_lt_succ inside
      match k with
      | 0 => exact ⟨true, 256 * new.toNat + first.toNat, rfl, .high first⟩
      | 1 => exact ⟨true, 256 * first.toNat + new.toNat, rfl, .low first⟩
  all_goals simp [size] at inside

end Instruction

namespace Located

def later (i : Located) : Located := { i with offset := i.offset + 1 }

namespace Tiles

variable {code code' : List UInt8} {offset : Nat} {is js front back : List Located} {i : Located}

theorem cons_of_take {byte : UInt8} {rest : List UInt8} {instruction : Instruction}
    (here : code.drop offset = byte :: rest) (taken : (Instruction.take byte rest).1 = instruction)
    (tiles : Tiles code (offset + instruction.size) is) :
    Tiles code offset (⟨offset, instruction⟩ :: is) := by
  subst taken
  exact .cons here tiles

theorem head (tiles : Tiles code offset (i :: is)) : ∃ byte rest,
    code.drop offset = byte :: rest ∧ i = ⟨offset, (Instruction.take byte rest).1⟩ := by
  cases tiles with
  | cons here _ => exact ⟨_, _, here, rfl⟩

theorem of_drop (tiles : Tiles code offset is) {byte : UInt8} {rest : List UInt8}
    (here : code.drop offset = byte :: rest) :
    ∃ js, is = ⟨offset, (Instruction.take byte rest).1⟩ :: js := by
  cases tiles with
  | nil =>
    rw [List.drop_length] at here
    cases here
  | cons here' _ =>
    cases here.symm.trans here'
    exact ⟨_, rfl⟩

theorem unique (tiles : Tiles code offset is) (others : Tiles code offset js) : is = js := by
  induction tiles generalizing js with
  | nil => exact (others.eq_nil List.drop_length).symm
  | cons here _ ih =>
    cases others with
    | nil =>
      rw [List.drop_length] at here
      cases here
    | cons here' others =>
      cases here.symm.trans here'
      exact congrArg (List.cons _) (ih others)

theorem inside (tiles : Tiles code offset is) :
    ∀ i ∈ is, offset ≤ i.offset ∧ i.offset + i.instruction.size ≤ code.length := by
  induction tiles with
  | nil => nofun
  | @cons offset byte rest is here tiles ih =>
    refine List.forall_mem_cons.mpr ⟨⟨Nat.le_refl _, ?_⟩, fun j listed => ?_⟩
    · obtain ⟨front, size, split⟩ := Instruction.take_rest byte rest
      have length := length_of_drop here
      have lengths := congrArg List.length split
      rw [List.length_append] at lengths
      simp only [size]
      omega
    · exact ⟨(Nat.le_add_right _ _).trans (ih j listed).1, (ih j listed).2⟩

theorem apart (tiles : Tiles code offset is) :
    is.Pairwise fun i j => i.offset + i.instruction.size ≤ j.offset := by
  induction tiles with
  | nil => exact .nil
  | cons _ tiles ih => exact .cons (fun j listed => (tiles.inside j listed).1) ih

theorem not_within (tiles : Tiles code offset is) {j : Located} (first : i ∈ is) (second : j ∈ is)
    (behind : i.offset < j.offset) : i.offset + i.instruction.size ≤ j.offset := by
  obtain ⟨before, after, rfl⟩ := List.append_of_mem first
  obtain ⟨-, apart, across⟩ := List.pairwise_append.mp tiles.apart
  rcases List.mem_append.mp second with earlier | later
  · have := across j earlier i List.mem_cons_self
    omega
  · rcases List.mem_cons.mp later with rfl | later
    · exact absurd behind (Nat.lt_irrefl _)
    · exact List.rel_of_pairwise_cons apart later

/-- What the end of the code cuts off is the last instruction. -/
theorem complete_front (tiles : Tiles code offset (front ++ i :: back)) :
    ∀ j ∈ front, j.instruction.Complete := by
  induction front generalizing offset with
  | nil => nofun
  | cons j front ih =>
    cases tiles with
    | @cons _ byte rest _ here tiles =>
      refine List.forall_mem_cons.mpr ⟨?_, ih tiles⟩
      rcases Instruction.take_spells byte rest with ⟨wide, present, cut⟩ | ⟨complete, -⟩
      · have nothing := tiles.eq_nil (by rw [drop_behind here, cut])
        simp at nothing
      · exact complete

theorem split_front (tiles : Tiles code offset (front ++ back))
    (complete : ∀ j ∈ front, j.instruction.Complete) :
    ∃ is rest, front = lay offset is ∧ (∀ i ∈ is, i.Complete) ∧
      code.drop offset = is.flatMap Instruction.toBytes ++ rest ∧
      Tiles code (offset + (is.flatMap Instruction.toBytes).length) back := by
  induction front generalizing offset with
  | nil => exact ⟨[], code.drop offset, rfl, nofun, rfl, tiles⟩
  | cons j front ih =>
    cases tiles with
    | @cons _ byte rest _ here tiles =>
      rw [List.forall_mem_cons] at complete
      rcases Instruction.take_spells byte rest with ⟨wide, present, cut⟩ | ⟨-, spelled⟩
      · have whole := complete.1
        rw [cut] at whole
        exact whole.elim
      · obtain ⟨is, others, rfl, all, behind, tiles⟩ := ih tiles complete.2
        refine ⟨(Instruction.take byte rest).1 :: is, others, rfl, ?_, ?_, ?_⟩
        · exact List.forall_mem_cons.mpr ⟨complete.1, all⟩
        · rw [here, ← spelled, ← drop_behind here, behind, List.flatMap_cons, List.append_assoc]
        · rwa [List.flatMap_cons, List.length_append, complete.1.size, ← Nat.add_assoc]

theorem lay_front {is : List Instruction} {rest : List UInt8} (complete : ∀ i ∈ is, i.Complete)
    (spelled : code.drop offset = is.flatMap Instruction.toBytes ++ rest)
    (tiles : Tiles code (offset + (is.flatMap Instruction.toBytes).length) back) :
    Tiles code offset (lay offset is ++ back) := by
  induction is generalizing offset with
  | nil => exact tiles
  | cons i is ih =>
    rw [List.forall_mem_cons] at complete
    obtain ⟨byte, operand, bytes, taken⟩ := complete.1.take
    have size := complete.1.size
    rw [List.flatMap_cons, List.append_assoc] at spelled
    rw [List.flatMap_cons, List.length_append, size, ← Nat.add_assoc] at tiles
    have behind : code.drop (offset + i.size) = is.flatMap Instruction.toBytes ++ rest := by
      rw [← List.drop_drop, spelled, ← size, List.drop_left]
    rw [bytes, List.cons_append] at spelled
    exact cons_of_take spelled (congrArg Prod.fst (taken _)) (ih complete.2 behind tiles)

theorem moved (tiles : Tiles code offset is) (length : code'.length = code.length + 1)
    (behind : ∀ k, offset ≤ k → code'.drop (k + 1) = code.drop k) :
    Tiles code' (offset + 1) (is.map later) := by
  induction tiles with
  | nil => exact length ▸ .nil
  | @cons offset byte rest is here tiles ih =>
    have further := ih fun k after => behind k ((Nat.le_add_right _ _).trans after)
    rw [Nat.add_right_comm] at further
    exact .cons ((behind _ (Nat.le_refl _)).trans here) further

end Tiles
end Located

namespace Chunk

variable {c d : Chunk} {front back js : List Located} {i : Located}

theorem instructions_front (listed : c.instructions = front ++ back)
    (complete : ∀ j ∈ front, j.instruction.Complete) :
    ∃ spelled rest, c.bytes = spelled ++ rest ∧ Located.Tiles c.bytes spelled.length back ∧
      ∀ (d : Chunk) rest' js, d.bytes = spelled ++ rest' →
        Located.Tiles d.bytes spelled.length js → d.instructions = front ++ js := by
  have tiles := c.instructions_tiles
  rw [listed] at tiles
  obtain ⟨is, rest, rfl, all, spelled, behind⟩ := tiles.split_front complete
  rw [Nat.zero_add] at behind
  refine ⟨is.flatMap Instruction.toBytes, rest, spelled, behind, fun d rest' js bytes others => ?_⟩
  have spelled' : d.bytes.drop 0 = is.flatMap Instruction.toBytes ++ rest' := bytes
  refine d.instructions_tiles.unique (.lay_front all spelled' ?_)
  rwa [Nat.zero_add]

def insert (c : Chunk) (offset : Nat) (b : CodeByte) : Chunk :=
  { c with code := (c.code.toList.take offset ++ b :: c.code.toList.drop offset).toArray }

@[simp] theorem bytes_insert (c : Chunk) (offset : Nat) (b : CodeByte) :
    (c.insert offset b).bytes = c.bytes.take offset ++ b.byte :: c.bytes.drop offset := by
  simp [insert, bytes]

@[simp] theorem size_insert (c : Chunk) (offset : Nat) (b : CodeByte) :
    (c.insert offset b).size = c.size + 1 := by
  simp [insert, size]
  omega

theorem instructions_insert (listed : c.instructions = front ++ i :: back) {b : CodeByte}
    (unknown : Opcode.ofByte b.byte = .error ⟨b.byte⟩) :
    (c.insert i.offset b).instructions =
      front ++ ⟨i.offset, .unknown b.byte⟩ :: (i :: back).map Located.later := by
  have complete := (listed ▸ c.instructions_tiles).complete_front
  obtain ⟨spelled, rest, bytes, tiles, kept⟩ := c.instructions_front listed complete
  have start := tiles.head_offset
  rw [start]
  have changed : (c.insert spelled.length b).bytes = spelled ++ b.byte :: rest := by
    simp [bytes]
  have here : (c.insert spelled.length b).bytes.drop spelled.length = b.byte :: rest := by
    rw [changed, List.drop_left]
  have taken : (Instruction.take b.byte rest).1 = .unknown b.byte := by
    simp only [Instruction.take, unknown]
  have further : Located.Tiles (c.insert spelled.length b).bytes (spelled.length + 1)
      ((i :: back).map Located.later) := by
    refine tiles.moved ?_ fun k behind => ?_
    · rw [bytes_length, bytes_length, size_insert]
    · obtain ⟨more, rfl⟩ := Nat.exists_eq_add_of_le behind
      simp [changed, bytes, Nat.add_assoc, List.drop_length_add_append]
  exact kept _ _ _ changed (.cons_of_take here taken further)

theorem instructions_insert_operand (listed : c.instructions = front ++ i :: back) {k : Nat}
    (inside : k + 1 < i.instruction.size) (b : CodeByte) : ∃ wide index back',
      (c.insert (i.offset + (k + 1)) b).instructions =
        front ++ ⟨i.offset, .load wide index⟩ :: back' ∧
      Instruction.Operand b.byte (k + 1) (.load wide index) := by
  have complete := (listed ▸ c.instructions_tiles).complete_front
  obtain ⟨spelled, behind, bytes, tiles, kept⟩ := c.instructions_front listed complete
  obtain ⟨byte, rest, first, rfl⟩ := tiles.head
  rw [bytes, List.drop_left] at first
  subst first
  obtain ⟨wide, index, taken, operand⟩ := Instruction.take_insert inside b.byte
  have changed : (c.insert (spelled.length + (k + 1)) b).bytes =
      spelled ++ byte :: (rest.take k ++ b.byte :: rest.drop k) := by
    rw [bytes_insert, bytes, List.take_length_add_append, List.drop_length_add_append]
    simp
  have here : (c.insert (spelled.length + (k + 1)) b).bytes.drop spelled.length =
      byte :: (rest.take k ++ b.byte :: rest.drop k) := by
    rw [changed, List.drop_left]
  have within : spelled.length ≤ (c.insert (spelled.length + (k + 1)) b).bytes.length := by
    simp [changed]
  obtain ⟨js, others, -⟩ := Located.cut_tiles here within (Nat.le_refl _)
  obtain ⟨back', rfl⟩ := others.of_drop here
  refine ⟨wide, index, back', ?_, operand⟩
  rw [kept _ _ _ changed others, taken]

theorem instruction_listed (listed : i ∈ c.instructions) :
    c.instruction? i.offset = some i.instruction := by
  have told {offset : Nat} {is : List Located} (tiles : Located.Tiles c.bytes offset is) :
      ∀ i ∈ is, c.instruction? i.offset = some i.instruction := by
    induction tiles with
    | nil => nofun
    | cons here _ ih => exact List.forall_mem_cons.mpr ⟨instruction_of_drop here, ih⟩
  exact told c.instructions_tiles i listed

theorem operand_listed (listed : i ∈ c.instructions) {k : Nat} (positive : 0 < k)
    (inside : k < i.instruction.size) {byte : UInt8} (read : c.read? (i.offset + k) = some byte) :
    i.instruction.Operand byte k := by
  have reads := c.instruction_reads i.offset
  rw [instruction_listed listed] at reads
  rw [← bytes_getElem] at read
  generalize i.instruction = instruction at reads inside
  cases reads with
  | narrow _ _ second =>
    obtain rfl : k = 1 := by
      have bound : k < 2 := inside
      omega
    cases second.symm.trans read
    exact .narrow
  | wide _ _ second third =>
    have bound : k < 3 := inside
    match k with
    | 1 =>
      cases second.symm.trans read
      exact .high _
    | 2 =>
      cases third.symm.trans read
      exact .low _
  | @wideCut _ present _ _ _ few =>
    have bound : k < 1 + present := inside
    obtain ⟨rfl, rfl⟩ : k = 1 ∧ present = 1 := by omega
    exact .cut
  | _ =>
    have bound : k < 1 := inside
    omega

end Chunk
end StackCalc
