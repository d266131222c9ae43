import Lldb.Symbol.DWARFCallFrameInfo

/-! The operands that the DWARF standard gives each call frame instruction, and one turn of the loops
over instructions: where it goes on.
-/

set_option autoImplicit false

namespace Lldb

open Library DWARFCallFrameInfo DataExtractor Option

def Cursor.moves {α : Type} (cursor : Cursor α) (offset : Nat) : Option Nat := (cursor offset).map (·.2)

namespace CallFrame

inductive OperandKind where
  | unsigned
  | signed
  | block
  | fixed (size : Nat)
  deriving DecidableEq, Repr

inductive Operand where
  | unsigned (number : Leb128)
  | signed (number : Leb128)
  | block (length : Leb128) (bytes : List UInt8) (exact : length.unsigned = bytes.length)
  | fixed (bytes : List UInt8)
  deriving Repr

namespace Operand

def kind : Operand → OperandKind
  | unsigned _ => .unsigned
  | signed _ => .signed
  | block _ _ _ => .block
  | fixed bytes => .fixed bytes.length

def bytes : Operand → List UInt8
  | unsigned number | signed number => number.bytes
  | block length bytes _ => length.bytes ++ bytes
  | fixed bytes => bytes

end Operand

/-- The operands of the opcodes that are named, for target addresses of a size. -/
def operandKinds (addressSize primaryOpcode extendedOpcode : Nat) : Option (List OperandKind) :=
  if primaryOpcode ≠ 0 then
    match primaryOpcode with
    | 0x80 => some [.unsigned] -- DW_CFA_offset
    | _ => some [] -- DW_CFA_advance_loc, DW_CFA_restore
  else
    match extendedOpcode with
    | 0x00 => some [] -- DW_CFA_nop
    | 0x01 => some [.fixed addressSize] -- DW_CFA_set_loc
    | 0x02 => some [.fixed 1] -- DW_CFA_advance_loc1
    | 0x03 => some [.fixed 2] -- DW_CFA_advance_loc2
    | 0x04 => some [.fixed 4] -- DW_CFA_advance_loc4
    | 0x05 => some [.unsigned, .unsigned] -- DW_CFA_offset_extended
    | 0x06 => some [.unsigned] -- DW_CFA_restore_extended
    | 0x07 => some [.unsigned] -- DW_CFA_undefined
    | 0x08 => some [.unsigned] -- DW_CFA_same_value
    | 0x09 => some [.unsigned, .unsigned] -- DW_CFA_register
    | 0x0a => some [] -- DW_CFA_remember_state
    | 0x0b => some [] -- DW_CFA_restore_state
    | 0x0c => some [.unsigned, .unsigned] -- DW_CFA_def_cfa
    | 0x0d => some [.unsigned] -- DW_CFA_def_cfa_register
    | 0x0e => some [.unsigned] -- DW_CFA_def_cfa_offset
    | 0x0f => some [.block] -- DW_CFA_def_cfa_expression
    | 0x10 => some [.unsigned, .block] -- DW_CFA_expression
    | 0x11 => some [.unsigned, .signed] -- DW_CFA_offset_extended_sf
    | 0x12 => some [.unsigned, .signed] -- DW_CFA_def_cfa_sf
    | 0x13 => some [.signed] -- DW_CFA_def_cfa_offset_sf
    | 0x14 => some [.unsigned, .unsigned] -- DW_CFA_val_offset
    | 0x15 => some [.unsigned, .signed] -- DW_CFA_val_offset_sf
    | 0x16 => some [.unsigned, .block] -- DW_CFA_val_expression
    | 0x2e => some [.unsigned] -- DW_CFA_GNU_args_size
    | _ => none

/-- An instruction with one of the opcodes and operands as the standard has them. -/
structure Instruction (addressSize : Nat) where
  opcode : UInt8
  operands : List Operand
  kinds : operandKinds addressSize (opcode.toNat &&& 0xc0) (opcode.toNat &&& 0x3f) = some (operands.map Operand.kind)

namespace Instruction

variable {addressSize : Nat} (instruction : Instruction addressSize)

def primaryOpcode : Nat := instruction.opcode.toNat &&& 0xc0

def extendedOpcode : Nat := instruction.opcode.toNat &&& 0x3f

def operandBytes : List UInt8 := instruction.operands.flatMap Operand.bytes

def bytes : List UInt8 := instruction.opcode :: instruction.operandBytes

end Instruction

/-! The turns of the loops. -/

variable (data : DataExtractor)

/-- One turn of the loop of `ParseCIE`; `none` inside leaves the loop. -/
def cieTurn (dataAlign : Int) (row : Row) : Cursor (Option Row) := do
  let inst ← data.getU8
  handleCommonDwarfOpcode data (inst &&& 0xc0) (inst &&& 0x3f) dataAlign row

/-- One turn of the loop of `FDEToUnwindPlan`. -/
def fdeTurn (cie : CIE) (startFileAddress : Nat) (state : PlanState) : Cursor PlanState := do
  let inst ← data.getU8
  match ← handleCommonDwarfOpcode data (inst &&& 0xc0) (inst &&& 0x3f) cie.dataAlign state.row with
  | some row => return { state with row := row }
  | none => handleFDEOpcode data cie.codeAlign startFileAddress (inst &&& 0xc0) (inst &&& 0x3f) state

/-- Where the turns of the loop of `ParseCIE` begin, and where the loop is left. -/
def cieStarts (data : DataExtractor) (endOffset : Nat) (dataAlign : Int) : Nat → Row → Nat → Option (List Nat)
  | 0, _, _ => none
  | fuel + 1, row, offset =>
    if offset < endOffset then do
      match ← cieTurn data dataAlign row offset with
      | (some row, next) => return offset :: (← cieStarts data endOffset dataAlign fuel row next)
      | (none, next) => return [offset, next]
    else some [offset]

/-- Where the turns of the loop of `FDEToUnwindPlan` begin, and where the loop is left. -/
def fdeStarts (data : DataExtractor) (cie : CIE) (endOffset startFileAddress : Nat) :
    Nat → PlanState → Nat → Option (List Nat)
  | 0, _, _ => none
  | fuel + 1, state, offset =>
    if data.validOffset offset ∧ offset < endOffset then do
      let (state, next) ← fdeTurn data cie startFileAddress state offset
      return offset :: (← fdeStarts data cie endOffset startFileAddress fuel state next)
    else some [offset]

def boundaries {addressSize : Nat} : Nat → List (Instruction addressSize) → List Nat
  | offset, [] => [offset]
  | offset, instruction :: rest => offset :: boundaries (offset + instruction.bytes.length) rest

/-- The loop of `ParseCIE` takes these turns. -/
theorem initialInstructions_turn (endOffset : Nat) (dataAlign : Int) (fuel : Nat)
    (row : Row) (offset : Nat) :
    initialInstructions data endOffset dataAlign (fuel + 1) row offset = if offset < endOffset then
        (cieTurn data dataAlign row offset).bind fun (handled, next) =>
          match handled with
          | some row => initialInstructions data endOffset dataAlign fuel row next
          | none => some (row, next)
      else some (row, offset) := by
  rw [initialInstructions]
  beta_reduce
  split
  · change (data.getU8 offset).bind
      (fun read => Option.bind (handleCommonDwarfOpcode data _ _ dataAlign row read.2) _) =
      ((data.getU8 offset).bind fun read => handleCommonDwarfOpcode data _ _ dataAlign row read.2).bind _
    rw [bind_assoc]
    refine Option.bind_congr fun read _ => Option.bind_congr fun handled _ => ?_
    obtain ⟨handled, next⟩ := handled
    cases handled <;> rfl
  · rfl

/-- The loop of `FDEToUnwindPlan` takes these turns. -/
theorem fdeInstructions_turn (cie : CIE) (endOffset startFileAddress fuel : Nat)
    (state : PlanState)
    (offset : Nat) :
    fdeInstructions data cie endOffset startFileAddress (fuel + 1) state offset =
      if data.validOffset offset ∧ offset < endOffset then
        (fdeTurn data cie startFileAddress state offset).bind fun (state, next) =>
          fdeInstructions data cie endOffset startFileAddress fuel state next
      else some (state, offset) := by
  rw [fdeInstructions]
  beta_reduce
  split
  · change (data.getU8 offset).bind
      (fun read => Option.bind (handleCommonDwarfOpcode data _ _ cie.dataAlign state.row read.2) _) =
      ((data.getU8 offset).bind fun read =>
        Option.bind (handleCommonDwarfOpcode data _ _ cie.dataAlign state.row read.2) _).bind _
    rw [bind_assoc]
    refine Option.bind_congr fun read _ => ?_
    rw [bind_assoc]
    refine Option.bind_congr fun handled _ => ?_
    obtain ⟨handled, next⟩ := handled
    cases handled <;> rfl
  · rfl

end CallFrame

end Lldb
