import Lldb.Symbol.CallFrameSplitting

/-! How the loops split bytes into instructions, turn by turn.
-/

set_option autoImplicit false

namespace Lldb

open Library DWARFCallFrameInfo DataExtractor List Option

namespace CallFrame

variable {data : DataExtractor}

namespace Instruction

variable {addressSize : Nat} (instruction : Instruction addressSize)

def Readable : Prop := ∀ operand ∈ instruction.operands, operand.Readable (lengthLimit instruction.extendedOpcode)

/-- `HandleCommonDwarfOpcode` has the opcode. -/
def common : Bool := commonOpcode instruction.primaryOpcode instruction.extendedOpcode

def skipped : Bool := skippedOpcode instruction.primaryOpcode instruction.extendedOpcode

/-- The instruction is not DW_CFA_val_offset or DW_CFA_val_offset_sf, and its operands can be read. -/
def TakenByFDE : Prop := instruction.skipped = false ∧ instruction.Readable

/-- What `HandleCommonDwarfOpcode` has must be readable, and anything else be without operands. -/
def TakenByCIE : Prop := if instruction.common then instruction.Readable else instruction.operandBytes = []

instance : Decidable instruction.Readable :=
  inferInstanceAs (Decidable (∀ operand ∈ instruction.operands,
    operand.Readable (lengthLimit instruction.extendedOpcode)))

instance : Decidable instruction.TakenByFDE := inferInstanceAs (Decidable (_ ∧ _))

instance : Decidable instruction.TakenByCIE := by
  unfold TakenByCIE
  infer_instance

theorem known : operandKinds addressSize instruction.primaryOpcode instruction.extendedOpcode =
    some (instruction.operands.map Operand.kind) := instruction.kinds

theorem length_bytes : instruction.bytes.length = 1 + instruction.operandBytes.length := by
  rw [bytes, length_cons, add_comm]

theorem operandBytes_ne_nil (skipped : instruction.skipped = true) : instruction.operandBytes ≠ [] := by
  obtain ⟨primary, extended⟩ := of_decide_eq_true skipped
  have kinds := instruction.known
  have first : ∃ kind, instruction.operands.map Operand.kind = [.unsigned, kind] := by
    rw [primary] at kinds
    simp only [mem_cons, not_mem_nil, or_false] at extended
    rcases extended with extended | extended <;> rw [extended] at kinds <;> exact ⟨_, (Option.some.inj kinds).symm⟩
  obtain ⟨kind, first⟩ := first
  unfold operandBytes
  cases operands : instruction.operands with
  | nil =>
    rw [operands] at first
    cases first
  | cons operand rest =>
    rw [operands] at first
    obtain ⟨isUnsigned, -⟩ := cons.inj first
    cases operand with
    | unsigned number =>
      rw [flatMap_cons, Operand.bytes, Leb128.bytes, append_assoc]
      exact append_ne_nil_of_right_ne_nil _ (cons_ne_nil _ _)
    | signed | block | fixed => cases isUnsigned

theorem kept_of_common (common : instruction.common = true) : instruction.skipped = false := by
  rw [← Bool.not_eq_true]
  intro skipped
  obtain ⟨primary, extended⟩ := of_decide_eq_true skipped
  rw [Instruction.common, primary] at common
  simp only [mem_cons, not_mem_nil, or_false] at extended
  rcases extended with extended | extended <;> rw [extended] at common <;> cases common

end Instruction

section

variable {instruction : Instruction data.addrSize} {offset : Nat} (at_ : data.At offset instruction.bytes)

include at_

theorem getU8_opcode : data.getU8 offset = some (instruction.opcode.toNat, offset + 1) :=
  getU8_at (show data.At offset ([instruction.opcode] ++ instruction.operandBytes) from at_).left

theorem at_operands : data.At (offset + 1) instruction.operandBytes :=
  (show data.At offset ([instruction.opcode] ++ instruction.operandBytes) from at_).right

theorem readOperands_instruction :
    readOperands data (heldLength instruction.extendedOpcode) (instruction.operands.map Operand.kind)
    (offset + 1) = some (offset + instruction.bytes.length) ↔ instruction.Readable := by
  rw [instruction.length_bytes, ← add_assoc]
  exact readOperands_iff (block_last instruction.known) (at_operands at_) instruction.extendedOpcode

/-- A turn of the loop of `ParseCIE`: what is not known to `HandleCommonDwarfOpcode` leaves the loop. -/
theorem cieTurn_outline (dataAlign : Int) (row : Row) : (cieTurn data dataAlign row).outline offset =
    if instruction.common then
      (readOperands data (heldLength instruction.extendedOpcode) (instruction.operands.map Operand.kind)
        (offset + 1)).map (true, ·)
    else some (false, offset + 1) := by
  change ((data.getU8 offset).bind fun read => handleCommonDwarfOpcode data _ _ dataAlign row read.2).map _ = _
  rw [getU8_opcode at_]
  split
  · rename_i common
    exact congrFun (handleCommonDwarfOpcode_outline instruction.known common dataAlign row) (offset + 1)
  · rename_i other
    rw [Bool.not_eq_true] at other
    change (handleCommonDwarfOpcode data instruction.primaryOpcode instruction.extendedOpcode dataAlign row
      (offset + 1)).map _ = _
    rw [handleCommonDwarfOpcode_none instruction.known other]
    rfl

theorem cieTurn_iff (dataAlign : Int) (row : Row) :
    (cieTurn data dataAlign row).moves offset = some (offset + instruction.bytes.length) ↔ instruction.TakenByCIE := by
  have moves : (cieTurn data dataAlign row).moves offset = ((cieTurn data dataAlign row).outline offset).map (·.2) := by
    rw [Cursor.outline, Option.map_map]
    rfl
  rw [moves, cieTurn_outline at_, Instruction.TakenByCIE]
  split
  · rw [Option.map_map, show ((fun read : Bool × Nat => read.2) ∘ fun next : Nat => (true, next)) = id from rfl,
      Option.map_id]
    exact readOperands_instruction at_
  · rw [instruction.length_bytes, map_some, some_inj, ← length_eq_zero_iff]
    omega

/-- `HandleCommonDwarfOpcode` has the opcode if the loop goes on. -/
theorem cieTurn_isSome {dataAlign : Int} {row : Row} {turn : Option Row × Nat}
    (taken : cieTurn data dataAlign row offset = some turn) : turn.1.isSome = instruction.common := by
  have outline := cieTurn_outline at_ dataAlign row
  rw [Cursor.outline, taken] at outline
  split at outline
  · rename_i common
    obtain ⟨next, -, pair⟩ := map_eq_some_iff.mp outline.symm
    rw [common]
    exact (Prod.mk.inj pair).1.symm
  · rename_i other
    rw [Bool.not_eq_true] at other
    rw [other]
    exact (Prod.mk.inj (Option.some.inj outline)).1

theorem fdeTurn_moves (cie : CIE) (startFileAddress : Nat) (state : PlanState) :
    (fdeTurn data cie startFileAddress state).moves offset = if instruction.skipped then some (offset + 1)
      else readOperands data (heldLength instruction.extendedOpcode) (instruction.operands.map Operand.kind)
        (offset + 1) := by
  change ((data.getU8 offset).bind fun read =>
    Option.bind (handleCommonDwarfOpcode data (read.1 &&& 0xc0) (read.1 &&& 0x3f) cie.dataAlign state.row read.2)
      _).map _ = _
  rw [getU8_opcode at_]
  change Option.map _ (Option.bind
    (handleCommonDwarfOpcode data instruction.primaryOpcode instruction.extendedOpcode cie.dataAlign
    state.row (offset + 1)) _) = _
  by_cases common : instruction.common = true
  · have outline := congrFun (@handleCommonDwarfOpcode_outline data _ _ _ _ instruction.known common cie.dataAlign
      state.row) (offset + 1)
    rw [if_neg (ne_true_of_eq_false (instruction.kept_of_common common))]
    unfold Cursor.outline at outline
    cases handled : handleCommonDwarfOpcode data instruction.primaryOpcode instruction.extendedOpcode cie.dataAlign
      state.row (offset + 1) with
    | none =>
      rw [handled] at outline
      exact (map_eq_none_iff.mp outline.symm).symm
    | some result =>
      obtain ⟨row, next⟩ := result
      rw [handled] at outline
      obtain ⟨next', is, same⟩ := map_eq_some_iff.mp outline.symm
      obtain ⟨isSome, rfl⟩ := Prod.mk.inj same
      obtain ⟨row, rfl⟩ := isSome_iff_exists.mp isSome.symm
      exact is.symm
  · rw [Bool.not_eq_true] at common
    rw [handleCommonDwarfOpcode_none instruction.known common]
    have moves := congrFun (handleFDEOpcode_moves instruction.known common
      (heldLength instruction.extendedOpcode) cie.codeAlign
      startFileAddress state) (offset + 1)
    refine Eq.trans moves ?_
    by_cases skipped : instruction.skipped = true
    · rw [if_pos skipped, if_pos (show skippedOpcode _ _ = true from skipped)]
    · rw [if_neg skipped, if_neg (show ¬ skippedOpcode _ _ = true from skipped)]

theorem fdeTurn_iff (cie : CIE) (startFileAddress : Nat) (state : PlanState) :
    (fdeTurn data cie startFileAddress state).moves offset = some (offset + instruction.bytes.length) ↔
      instruction.TakenByFDE := by
  rw [fdeTurn_moves at_, Instruction.TakenByFDE]
  split
  · rename_i skipped
    have operands := length_pos_of_ne_nil (instruction.operandBytes_ne_nil skipped)
    rw [instruction.length_bytes, some_inj, skipped]
    exact iff_of_false (by omega) fun both => nomatch both.1
  · rename_i kept
    rw [Bool.not_eq_true] at kept
    exact (readOperands_instruction at_).trans (and_iff_right kept).symm

end

/-! Runs of the loops. -/

theorem fdeStarts_turn (cie : CIE) (endOffset startFileAddress fuel : Nat) (state : PlanState) (offset : Nat) :
    fdeStarts data cie endOffset startFileAddress (fuel + 1) state offset =
      if data.validOffset offset ∧ offset < endOffset then
        (fdeTurn data cie startFileAddress state offset).bind fun turn =>
          (fdeStarts data cie endOffset startFileAddress fuel turn.1 turn.2).map (offset :: ·)
      else some [offset] := by
  rw [fdeStarts]
  split
  · refine Option.bind_congr fun turn _ => ?_
    obtain ⟨state, next⟩ := turn
    simp only
    cases fdeStarts data cie endOffset startFileAddress fuel state next <;> rfl
  · rfl

theorem cieStarts_turn (endOffset : Nat) (dataAlign : Int) (fuel : Nat) (row : Row) (offset : Nat) :
    cieStarts data endOffset dataAlign (fuel + 1) row offset = if offset < endOffset then
        (cieTurn data dataAlign row offset).bind fun turn =>
          match turn.1 with
          | some row => (cieStarts data endOffset dataAlign fuel row turn.2).map (offset :: ·)
          | none => some [offset, turn.2]
      else some [offset] := by
  rw [cieStarts]
  split
  · refine Option.bind_congr fun turn _ => ?_
    obtain ⟨row, next⟩ := turn
    cases row with
    | none => rfl
    | some row =>
      simp only
      cases cieStarts data endOffset dataAlign fuel row next <;> rfl
  · rfl

variable {endOffset fuel : Nat} {instructions : List (Instruction data.addrSize)}

theorem fdeStarts_head {cie : CIE} {startFileAddress : Nat} {state : PlanState} {offset : Nat} {starts : List Nat}
    (is : fdeStarts data cie endOffset startFileAddress fuel state offset = some starts) :
    starts.head? = some offset := by
  cases fuel with
  | zero => cases is
  | succ fuel =>
    rw [fdeStarts_turn] at is
    split at is
    · obtain ⟨turn, -, is⟩ := bind_eq_some_iff.mp is
      obtain ⟨rest, -, rfl⟩ := map_eq_some_iff.mp is
      rfl
    · cases is
      rfl

theorem cieStarts_head {dataAlign : Int} {row : Row} {offset : Nat} {starts : List Nat}
    (is : cieStarts data endOffset dataAlign fuel row offset = some starts) : starts.head? = some offset := by
  cases fuel with
  | zero => cases is
  | succ fuel =>
    rw [cieStarts_turn] at is
    split at is
    · obtain ⟨turn, -, is⟩ := bind_eq_some_iff.mp is
      split at is
      · obtain ⟨rest, -, rfl⟩ := map_eq_some_iff.mp is
        rfl
      · cases is
        rfl
    · cases is
      rfl

theorem boundaries_head {addressSize : Nat} (offset : Nat) (instructions : List (Instruction addressSize)) :
    (boundaries offset instructions).head? = some offset := by
  cases instructions <;> rfl

/-- A run that goes on behind a turn has the boundaries if the turn ends where the instruction does. -/
theorem map_cons_boundaries_iff {run : Nat → Option (List Nat)}
    (head : ∀ {next : Nat} {starts : List Nat}, run next = some starts → starts.head? = some next)
    {addressSize : Nat} (offset next whole : Nat) (rest : List (Instruction addressSize)) :
    (run next).map (offset :: ·) = some (offset :: boundaries whole rest) ↔
      next = whole ∧ run whole = some (boundaries whole rest) := by
  constructor
  · intro is
    obtain ⟨starts, begins, same⟩ := map_eq_some_iff.mp is
    obtain rfl := (cons.inj same).2
    have first := head begins
    rw [boundaries_head] at first
    obtain rfl := Option.some.inj first
    exact ⟨rfl, begins⟩
  · rintro ⟨rfl, is⟩
    rw [is]
    rfl

theorem left_iff {addressSize : Nat} (offset next whole : Nat) (rest : List (Instruction addressSize)) :
    some [offset, next] = some (offset :: boundaries whole rest) ↔ next = whole ∧ rest = [] := by
  rw [some_inj, cons_inj_right]
  cases rest with
  | nil =>
    rw [and_iff_left rfl]
    exact cons_eq_cons.trans (and_iff_left rfl)
  | cons following rest =>
    refine iff_of_false (fun same => ?_) fun both => nomatch both.2
    have behind := boundaries_head (whole + following.bytes.length) rest
    rw [← (cons.inj same).2] at behind
    cases behind

theorem forall_mem_dropLast_cons {α : Type*} {p : α → Prop} (a : α) (rest : List α) :
    (∀ other ∈ (a :: rest).dropLast, p other) ↔ (rest ≠ [] → p a) ∧ ∀ other ∈ rest.dropLast, p other := by
  cases rest with
  | nil => exact iff_of_true nofun ⟨fun some_ => absurd rfl some_, nofun⟩
  | cons following rest =>
    simp

/-- The turns of the loop of `FDEToUnwindPlan` begin where the instructions begin if all are taken whole. -/
theorem fdeStarts_iff {cie : CIE} {offset : Nat}
    (startFileAddress : Nat) (state : PlanState) (at_ : data.At offset (instructions.flatMap Instruction.bytes))
    (ends : endOffset = offset + (instructions.flatMap Instruction.bytes).length)
    (enough : instructions.length < fuel) :
    fdeStarts data cie endOffset startFileAddress fuel state offset = some (boundaries offset instructions) ↔
      ∀ instruction ∈ instructions, instruction.TakenByFDE := by
  induction instructions generalizing offset fuel state with
  | nil =>
    obtain ⟨fuel, rfl⟩ : ∃ less, fuel = less + 1 := ⟨fuel - 1, by rw [length_nil] at enough; omega⟩
    rw [fdeStarts_turn, if_neg (by rw [ends]; simp)]
    exact iff_of_true rfl nofun
  | cons instruction rest ih =>
    obtain ⟨fuel, rfl⟩ : ∃ less, fuel = less + 1 := ⟨fuel - 1, by omega⟩
    rw [flatMap_cons] at at_ ends
    have length := instruction.length_bytes
    have room := at_.left.bound
    rw [length_append] at ends
    have turn := fdeTurn_iff at_.left cie startFileAddress state
    rw [fdeStarts_turn, if_pos ⟨decide_eq_true (by omega), by omega⟩, forall_mem_cons, ← turn, boundaries]
    unfold Cursor.moves
    cases taken : fdeTurn data cie startFileAddress state offset with
    | none => exact iff_of_false nofun fun both => nomatch both.1
    | some turn =>
      rw [length_cons] at enough
      rw [bind_some, map_some, some_inj, map_cons_boundaries_iff fdeStarts_head]
      exact and_congr_right fun _ => ih turn.1 at_.right (by omega) (by omega)

/-- Those of the loop of `ParseCIE` do, up to an instruction behind which the loop is left. -/
theorem cieStarts_iff {offset : Nat}
    (dataAlign : Int) (row : Row) (at_ : data.At offset (instructions.flatMap Instruction.bytes))
    (ends : endOffset = offset + (instructions.flatMap Instruction.bytes).length)
    (enough : instructions.length < fuel) :
    cieStarts data endOffset dataAlign fuel row offset = some (boundaries offset instructions) ↔
      (∀ instruction ∈ instructions, instruction.TakenByCIE) ∧
        ∀ instruction ∈ instructions.dropLast, instruction.common = true := by
  induction instructions generalizing offset fuel row with
  | nil =>
    obtain ⟨fuel, rfl⟩ : ∃ less, fuel = less + 1 := ⟨fuel - 1, by rw [length_nil] at enough; omega⟩
    rw [cieStarts_turn, if_neg (by rw [ends]; simp)]
    exact iff_of_true rfl ⟨nofun, nofun⟩
  | cons instruction rest ih =>
    obtain ⟨fuel, rfl⟩ : ∃ less, fuel = less + 1 := ⟨fuel - 1, by omega⟩
    rw [flatMap_cons] at at_ ends
    have length := instruction.length_bytes
    rw [length_append] at ends
    have turn := cieTurn_iff at_.left dataAlign row
    rw [cieStarts_turn, if_pos (by omega), forall_mem_cons, ← turn, boundaries, forall_mem_dropLast_cons]
    unfold Cursor.moves
    cases taken : cieTurn data dataAlign row offset with
    | none => exact iff_of_false nofun fun both => nomatch both.1.1
    | some turn =>
      obtain ⟨handled, next⟩ := turn
      have common := cieTurn_isSome at_.left taken
      rw [bind_some, map_some, some_inj]
      cases handled with
      | none =>
        -- the loop is left: nothing may follow
        dsimp only
        rw [left_iff, ← common]
        constructor
        · rintro ⟨whole, rfl⟩
          exact ⟨⟨whole, nofun⟩, fun some_ => absurd rfl some_, nofun⟩
        · rintro ⟨⟨whole, -⟩, last, -⟩
          exact ⟨whole, by_contra fun some_ => Bool.false_ne_true (last some_)⟩
      | some row =>
        rw [length_cons] at enough
        have behind := ih row at_.right (by omega) (show rest.length < fuel by omega)
        have followed : rest ≠ [] → instruction.common = true := fun _ => common.symm
        rw [map_cons_boundaries_iff cieStarts_head, behind, and_assoc, and_iff_right followed]

theorem length_flatMap_bytes {addressSize : Nat} (instructions : List (Instruction addressSize)) :
    instructions.length ≤ (instructions.flatMap Instruction.bytes).length := by
  induction instructions with
  | nil => exact Nat.zero_le _
  | cons instruction rest ih =>
    rw [flatMap_cons, length_append, length_cons, instruction.length_bytes]
    omega

def among (front bytes back : List UInt8) (byteOrder : ByteOrder) (addressSize : Nat) : DataExtractor :=
  ⟨front ++ bytes ++ back, byteOrder, addressSize⟩

theorem at_among (front bytes back : List UInt8) (byteOrder : ByteOrder) (addressSize : Nat) :
    (among front bytes back byteOrder addressSize).At front.length bytes := by
  refine ⟨back, ?_⟩
  simp [among]

/-- Which instruction a turn of each loop takes whole, and which instructions each loop splits as they are. -/
theorem instructions_taken_iff (front back : List UInt8) (byteOrder : ByteOrder) {addressSize : Nat}
    (instruction : Instruction addressSize) (instructions : List (Instruction addressSize)) (cie : CIE)
      (startFileAddress : Nat)
    (state : PlanState) (dataAlign : Int) (row : Row) :
    ((fdeTurn (among front instruction.bytes back byteOrder addressSize) cie startFileAddress state).moves
      front.length = some (front.length + instruction.bytes.length) ↔ instruction.TakenByFDE) ∧
      ((cieTurn (among front instruction.bytes back byteOrder addressSize) dataAlign row).moves front.length =
        some (front.length + instruction.bytes.length) ↔ instruction.TakenByCIE) ∧
      (fdeStarts (among front (instructions.flatMap Instruction.bytes) back byteOrder addressSize) cie
          (front.length + (instructions.flatMap Instruction.bytes).length) startFileAddress
          ((front ++ instructions.flatMap Instruction.bytes ++ back).length + 1) state front.length =
        some (boundaries front.length instructions) ↔ ∀ instruction ∈ instructions, instruction.TakenByFDE) ∧
      (cieStarts (among front (instructions.flatMap Instruction.bytes) back byteOrder addressSize)
          (front.length + (instructions.flatMap Instruction.bytes).length) dataAlign
          ((front ++ instructions.flatMap Instruction.bytes ++ back).length + 1) row front.length =
        some (boundaries front.length instructions) ↔
        (∀ instruction ∈ instructions, instruction.TakenByCIE) ∧
          ∀ instruction ∈ instructions.dropLast, instruction.common = true) := by
  have enough : instructions.length < (front ++ instructions.flatMap Instruction.bytes ++ back).length + 1 := by
    have := length_flatMap_bytes instructions
    rw [length_append, length_append]
    omega
  exact ⟨fdeTurn_iff (at_among front instruction.bytes back byteOrder addressSize) cie startFileAddress state,
    cieTurn_iff (at_among front instruction.bytes back byteOrder addressSize) dataAlign row,
    fdeStarts_iff startFileAddress state (at_among front _ back byteOrder addressSize) rfl enough,
    cieStarts_iff dataAlign row (at_among front _ back byteOrder addressSize) rfl enough⟩

def valOffset : Instruction 8 := ⟨0x14, [.unsigned ⟨[], 7⟩, .unsigned ⟨[], 2⟩], rfl⟩

def plainCIE : CIE := ⟨0, 1, [], 8, 0, 1, -8, 16, 0, 0, 0, 0xff, invalidAddress, .empty⟩

/-- The operands of DW_CFA_val_offset are taken for DW_CFA_undefined of register 2. -/
theorem valOffset_not_taken :
    (fdeTurn (among [] valOffset.bytes [] .little 8) plainCIE 0 ⟨[], .empty, []⟩).moves 0 ≠ some
      (0 + valOffset.bytes.length) ∧
      fdeStarts (among [] valOffset.bytes [] .little 8) plainCIE 3 0 4 ⟨[], .empty, []⟩ 0 = some [0, 1, 3] ∧
      boundaries 0 [valOffset] = [0, 3] := by
  decide

end CallFrame

end Lldb
