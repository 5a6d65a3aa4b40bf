import Mathlib.Data.List.Chain
import StackCalc.Proofs.Chunk.ReadBack

namespace StackCalc.Chunk

/-- Where the line of an offset ends: behind an opcode with all of its operand, behind a single byte
that is no opcode, or at the end of code that has too few bytes for an operand. Where nothing is
left to list, a line is still a stride of one. -/
inductive Stride (c : Chunk) (offset : Nat) : Nat → Prop where
  | whole {op : Opcode} : c.readOp? offset = some (.ok op) → offset + 1 + op.width ≤ c.size →
      Stride c offset (offset + 1 + op.width)
  | unknown {e : UnknownOpcode} : c.readOp? offset = some (.error e) →
      Stride c offset (offset + 1)
  | cut {op : Opcode} : c.readOp? offset = some (.ok op) → c.size < offset + 1 + op.width →
      Stride c offset c.size
  | behind : c.readOp? offset = none → Stride c offset (offset + 1)

variable {c : Chunk} {offset next : Nat}

theorem read_inside {byte : UInt8} (read : c.bytes[offset]? = some byte) : offset < c.size := by
  obtain ⟨inside, -⟩ := List.getElem?_eq_some_iff.mp read
  rwa [bytes_length] at inside

theorem readOp_of_byte {byte : UInt8} {verdict : Except UnknownOpcode Opcode}
    (read : c.bytes[offset]? = some byte) (op : Opcode.ofByte byte = verdict) :
    c.readOp? offset = some verdict := by
  rw [readOp?, ← bytes_getElem, read, Option.map_some, op]

theorem readOp_inside {verdict : Except UnknownOpcode Opcode}
    (read : c.readOp? offset = some verdict) : offset < c.size := by
  obtain ⟨byte, first, -⟩ := Option.map_eq_some_iff.mp read
  rw [← bytes_getElem] at first
  exact read_inside first

theorem listAt_stride (c : Chunk) (offset : Nat) : c.Stride offset (c.listAt offset).2 := by
  have reads := c.instruction_reads offset
  simp only [listAt]
  generalize c.instruction? offset = shown at reads
  cases reads with
  | ending past => exact .behind (by rw [readOp?, ← bytes_getElem, past, Option.map_none])
  | unknown first op => exact .unknown (readOp_of_byte first op)
  | ret first op => exact .whole (readOp_of_byte first op) (read_inside first)
  | negate first op => exact .whole (readOp_of_byte first op) (read_inside first)
  | binary first op => exact .whole (readOp_of_byte first op) (read_inside first)
  | narrow first op second => exact .whole (readOp_of_byte first op) (read_inside second)
  | wide first op second third => exact .whole (readOp_of_byte first op) (read_inside third)
  | narrowCut first op second =>
    have ending : c.size = offset + 1 := by
      rw [List.getElem?_eq_none_iff, bytes_length] at second
      exact Nat.le_antisymm second (read_inside first)
    have cut : c.Stride offset c.size :=
      .cut (readOp_of_byte first op) (ending ▸ Nat.lt_succ_self _)
    rwa [ending] at cut
  | @wideCut byte present first op length few =>
    rw [bytes_length] at length
    have cut : c.Stride offset c.size := .cut (readOp_of_byte first op)
      (length ▸ Nat.add_lt_add_left few _)
    rwa [length, Nat.add_assoc] at cut

namespace Stride

theorem further (stride : c.Stride offset next) : offset < next := by
  cases stride with
  | whole _ _ => omega
  | unknown _ => exact Nat.lt_succ_self _
  | cut read _ => exact readOp_inside read
  | behind _ => exact Nat.lt_succ_self _

theorem bounded (stride : c.Stride offset next) : next ≤ max (offset + 1) c.size := by
  cases stride with
  | whole _ inside => exact inside.trans (Nat.le_max_right _ _)
  | unknown _ => exact Nat.le_max_left _ _
  | cut _ _ => exact Nat.le_max_right _ _
  | behind _ => exact Nat.le_max_left _ _

end Stride

def stops (c : Chunk) (offset : Nat) : List Nat :=
  if offset < c.size then offset :: c.stops (c.listAt offset).2 else []
termination_by c.size - offset
decreasing_by
  have further := (c.listAt_stride offset).further
  omega

theorem stops_inside (inside : offset < c.size) :
    c.stops offset = offset :: c.stops (c.listAt offset).2 := by
  rw [stops, if_pos inside]

theorem stops_behind (behind : c.size ≤ offset) : c.stops offset = [] := by
  rw [stops, if_neg (Nat.not_lt_of_le behind)]

structure Crosses (c : Chunk) (start : Nat) (offsets : List Nat) : Prop where
  first : start < c.size → offsets.head? = some start
  inside : ∀ o ∈ offsets, start ≤ o ∧ o < c.size
  increasing : offsets.Pairwise (· < ·)
  chained : offsets.IsChain fun o o' => o' = (c.listAt o).2
  last : ∀ o ∈ offsets.getLast?, (c.listAt o).2 = c.size
  once : ∀ k, start ≤ k → k < c.size → ∃! o, o ∈ offsets ∧ o ≤ k ∧ k < (c.listAt o).2

namespace Crosses

theorem nil (c : Chunk) : c.Crosses c.size [] where
  first inside := absurd inside (Nat.lt_irrefl _)
  inside := nofun
  increasing := .nil
  chained := .nil
  last := nofun
  once _ behind inside := absurd inside (Nat.not_lt_of_le behind)

theorem empty_end {start : Nat} (crosses : c.Crosses start []) (within : start ≤ c.size) :
    start = c.size := by
  refine Nat.le_antisymm within (Nat.le_of_not_lt fun inside => ?_)
  cases crosses.first inside

theorem cons {start : Nat} {offsets : List Nat} (inside : start < c.size)
    (crosses : c.Crosses (c.listAt start).2 offsets) : c.Crosses start (start :: offsets) := by
  have further := (c.listAt_stride start).further
  have within : (c.listAt start).2 ≤ c.size :=
    (c.listAt_stride start).bounded.trans (Nat.max_le.mpr ⟨inside, Nat.le_refl _⟩)
  constructor
  case first => exact fun _ => rfl
  case inside =>
    refine List.forall_mem_cons.mpr ⟨⟨Nat.le_refl _, inside⟩, fun o member => ?_⟩
    have later := crosses.inside o member
    exact ⟨by omega, later.2⟩
  case increasing =>
    refine List.pairwise_cons.mpr ⟨fun o member => ?_, crosses.increasing⟩
    exact Nat.lt_of_lt_of_le further (crosses.inside o member).1
  case chained =>
    refine List.isChain_cons.mpr ⟨fun o first => ?_, crosses.chained⟩
    have later := crosses.inside o (List.mem_of_mem_head? first)
    have next := crosses.first (Nat.lt_of_le_of_lt later.1 later.2)
    rw [Option.mem_def.mp first] at next
    exact Option.some.inj next
  case last =>
    cases offsets with
    | nil =>
      rintro o ⟨rfl⟩
      exact crosses.empty_end within
    | cons o offsets => exact crosses.last
  case once =>
    -- A byte is in the first stride, or where the others are.
    intro k behind ahead
    by_cases here : k < (c.listAt start).2
    · refine ⟨start, ⟨List.mem_cons_self, behind, here⟩, ?_⟩
      rintro o ⟨member, before, -⟩
      rcases List.mem_cons.mp member with rfl | later
      · rfl
      · have := (crosses.inside o later).1
        omega
    · obtain ⟨o, ⟨member, before, reaches⟩, only⟩ :=
        crosses.once k (Nat.le_of_not_lt here) ahead
      refine ⟨o, ⟨List.mem_cons_of_mem _ member, before, reaches⟩, ?_⟩
      rintro o' ⟨member', before', reaches'⟩
      rcases List.mem_cons.mp member' with rfl | later
      · exact absurd reaches' here
      · exact only o' ⟨later, before', reaches'⟩

end Crosses

theorem stops_crosses {start : Nat} (within : start ≤ c.size) :
    c.Crosses start (c.stops start) := by
  fun_induction c.stops start with
  | case1 start inside ih =>
    refine .cons inside (ih ?_)
    exact (c.listAt_stride start).bounded.trans (Nat.max_le.mpr ⟨inside, Nat.le_refl _⟩)
  | case2 start behind =>
    obtain rfl : start = c.size := Nat.le_antisymm within (Nat.le_of_not_lt behind)
    exact .nil c

theorem stops_tiles {offset : Nat} {is : List Located} (tiles : Located.Tiles c.bytes offset is) :
    is.map c.listInstruction = (c.stops offset).map fun o => (c.listAt o).1 := by
  induction tiles with
  | nil =>
    rw [stops_behind (Nat.le_of_eq c.bytes_length.symm)]
    rfl
  | @cons offset byte rest is here _ ih =>
    have length := Located.length_of_drop here
    rw [bytes_length] at length
    have listed : c.listAt offset = (c.listLine offset (some (Instruction.take byte rest).1),
        offset + (Instruction.take byte rest).1.size) := by
      rw [listAt, instruction_of_drop here]
      rfl
    rw [stops_inside (by omega), List.map_cons, List.map_cons, listed, ih]
    rfl

/-- Whatever the bytes are, each of them is listed exactly once. -/
theorem listing_strides (c : Chunk) (header : String) :
    c.listingText header =
      Text.unlines (listingHeader header :: (c.stops 0).map fun o => (c.listAt o).1) ∧
    c.Crosses 0 (c.stops 0) ∧
    ∀ offset, Text.OneLine (c.listAt offset).1 ∧ c.Stride offset (c.listAt offset).2 ∧
      offset < (c.listAt offset).2 ∧ (c.listAt offset).2 ≤ max (offset + 1) c.size := by
  refine ⟨?_, stops_crosses (Nat.zero_le _), fun offset => ?_⟩
  · rw [listingText, listing, ← stops_tiles c.instructions_tiles]
  · have stride := c.listAt_stride offset
    exact ⟨c.oneLine_listLine offset _, stride, stride.further, stride.bounded⟩

end StackCalc.Chunk
