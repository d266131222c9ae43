import Lldb.Symbol.DWARFCallFrameInfo

/-! Call frame instructions as they are encoded, and what `DWARFCallFrameInfo` does with each. -/

set_option autoImplicit false

namespace Lldb

open Library DWARFCallFrameInfo List Option

structure RegisterNumber where
  number : Leb128
  narrow : number.unsigned < 2 ^ 32
  deriving DecidableEq, Repr

def RegisterNumber.regNum (register : RegisterNumber) : Nat := register.number.unsigned

structure ExprBlock where
  length : Leb128
  bytes : List UInt8
  exact : length.unsigned = bytes.length
  narrow : bytes.length < 2 ^ 32
  deriving DecidableEq, Repr

/-- The instructions that work on a single row, and can stand in a CIE as well. -/
inductive RowInstruction where
  | nop
  | offset (regNum : Fin 64) (factored : Leb128)
  | offsetExtended (reg : RegisterNumber) (factored : Leb128)
  | undefined (reg : RegisterNumber)
  | sameValue (reg : RegisterNumber)
  | register (reg other : RegisterNumber)
  | defCfa (reg : RegisterNumber) (opOffset : Leb128)
  | defCfaRegister (reg : RegisterNumber)
  | defCfaOffset (opOffset : Leb128)
  | defCfaExpression (block : ExprBlock)
  | expression (reg : RegisterNumber) (block : ExprBlock)
  | offsetExtendedSf (reg : RegisterNumber) (factored : Leb128)
  | defCfaSf (reg : RegisterNumber) (factored : Leb128)
  | defCfaOffsetSf (factored : Leb128)
  | valExpression (reg : RegisterNumber) (block : ExprBlock)
  deriving DecidableEq, Repr

inductive FrameInstruction where
  | row (instruction : RowInstruction)
  | advanceLoc (delta : Fin 64)
  | advanceLoc1 (delta : BitVec 8)
  | advanceLoc2 (delta : BitVec 16)
  | advanceLoc4 (delta : BitVec 32)
  | restore (regNum : Fin 64)
  | restoreExtended (reg : RegisterNumber)
  | rememberState
  | restoreState
  deriving DecidableEq, Repr

def ExprBlock.stored (block : ExprBlock) : DWARFExpr := ⟨block.bytes, block.bytes.length % 2 ^ 16⟩

namespace RowInstruction

def opcode : RowInstruction → UInt8
  | nop => 0x00
  | offset regNum _ => UInt8.ofNat (0x80 + regNum.val)
  | offsetExtended _ _ => 0x05
  | undefined _ => 0x07
  | sameValue _ => 0x08
  | .register _ _ => 0x09
  | defCfa _ _ => 0x0c
  | defCfaRegister _ => 0x0d
  | defCfaOffset _ => 0x0e
  | defCfaExpression _ => 0x0f
  | expression _ _ => 0x10
  | offsetExtendedSf _ _ => 0x11
  | defCfaSf _ _ => 0x12
  | defCfaOffsetSf _ => 0x13
  | valExpression _ _ => 0x16

def operands : RowInstruction → List UInt8
  | nop => []
  | offset _ factored | defCfaOffsetSf factored => factored.bytes
  | offsetExtended reg factored | offsetExtendedSf reg factored | defCfaSf reg factored => reg.number.bytes ++ factored.bytes
  | undefined reg | sameValue reg | defCfaRegister reg => reg.number.bytes
  | .register reg other => reg.number.bytes ++ other.number.bytes
  | defCfa reg opOffset => reg.number.bytes ++ opOffset.bytes
  | defCfaOffset opOffset => opOffset.bytes
  | defCfaExpression block => block.length.bytes ++ block.bytes
  | expression reg block | valExpression reg block => reg.number.bytes ++ (block.length.bytes ++ block.bytes)

def encode (instruction : RowInstruction) : List UInt8 := instruction.opcode :: instruction.operands

def Readable : RowInstruction → Prop
  | nop => True
  | offset _ factored => factored.size ≤ 10
  | offsetExtended reg factored => reg.number.size ≤ 10 ∧ factored.size ≤ 10
  | undefined reg | sameValue reg | defCfaRegister reg => reg.number.size ≤ 10
  | .register reg other => reg.number.size ≤ 10 ∧ other.number.size ≤ 10
  | defCfa reg opOffset => reg.number.size ≤ 10 ∧ opOffset.size ≤ 10
  | defCfaOffset opOffset => opOffset.size ≤ 10
  | defCfaExpression block => block.length.size ≤ 10
  | expression reg block | valExpression reg block => reg.number.size ≤ 10 ∧ block.length.size ≤ 10
  | offsetExtendedSf reg factored | defCfaSf reg factored =>
    reg.number.size ≤ 10 ∧ DataExtractor.SignedReadable factored
  | defCfaOffsetSf factored => DataExtractor.SignedReadable factored

instance (instruction : RowInstruction) : Decidable instruction.Readable := by
  cases instruction <;> unfold Readable <;> infer_instance

/-- The row that the instruction makes, with its operands in the widths of the plan. -/
def apply (dataAlign : Int) (row : Row) : RowInstruction → Row
  | nop => row
  | offset regNum factored => row.setRegisterInfo regNum.val (.atCFAPlusOffset (int32 (factored.unsigned * dataAlign)))
  | offsetExtended reg factored =>
    row.setRegisterInfo reg.regNum (.atCFAPlusOffset (int32 (factored.unsigned * dataAlign)))
  | undefined reg => row.setRegisterInfo reg.regNum .undefined
  | sameValue reg => row.setRegisterInfo reg.regNum .same
  | .register reg other => row.setRegisterInfo reg.regNum (.inOtherRegister other.regNum)
  | defCfa reg opOffset => row.setCFAValue (.isRegisterPlusOffset reg.regNum (int32 opOffset.unsigned))
  | defCfaRegister reg => row.setCFAValue (.isRegisterPlusOffset reg.regNum row.cfaValue.getOffset)
  | defCfaOffset opOffset => row.setCFAValue (.isRegisterPlusOffset row.cfaValue.getRegisterNumber (int32 opOffset.unsigned))
  | defCfaExpression block => row.setCFAValue (.isDWARFExpression block.stored)
  | expression reg block => row.setRegisterInfo reg.regNum (.atDWARFExpression block.stored)
  | offsetExtendedSf reg factored =>
    row.setRegisterInfo reg.regNum (.atCFAPlusOffset (int32 (factored.signed * dataAlign)))
  | defCfaSf reg factored =>
    row.setCFAValue (.isRegisterPlusOffset reg.regNum (int32 (factored.signed * dataAlign)))
  | defCfaOffsetSf factored =>
    row.setCFAValue (.isRegisterPlusOffset row.cfaValue.getRegisterNumber (int32 (factored.signed * dataAlign)))
  | valExpression reg block => row.setRegisterInfo reg.regNum (.isDWARFExpression block.stored)

end RowInstruction

namespace FrameInstruction

def opcode : FrameInstruction → UInt8
  | row instruction => instruction.opcode
  | advanceLoc delta => UInt8.ofNat (0x40 + delta.val)
  | advanceLoc1 _ => 0x02
  | advanceLoc2 _ => 0x03
  | advanceLoc4 _ => 0x04
  | restore regNum => UInt8.ofNat (0xc0 + regNum.val)
  | restoreExtended _ => 0x06
  | rememberState => 0x0a
  | restoreState => 0x0b

def operands (order : ByteOrder) : FrameInstruction → List UInt8
  | row instruction => instruction.operands
  | advanceLoc1 delta => order.encode 1 delta.toNat
  | advanceLoc2 delta => order.encode 2 delta.toNat
  | advanceLoc4 delta => order.encode 4 delta.toNat
  | restoreExtended reg => reg.number.bytes
  | advanceLoc _ | restore _ | rememberState | restoreState => []

def encode (order : ByteOrder) (instruction : FrameInstruction) : List UInt8 :=
  instruction.opcode :: instruction.operands order

def Readable : FrameInstruction → Prop
  | row instruction => instruction.Readable
  | restoreExtended reg => reg.number.size ≤ 10
  | advanceLoc _ | advanceLoc1 _ | advanceLoc2 _ | advanceLoc4 _ | restore _ | rememberState | restoreState => True

instance (instruction : FrameInstruction) : Decidable instruction.Readable := by
  cases instruction <;> unfold Readable <;> infer_instance

def apply (codeAlign : Nat) (dataAlign : Int) (state : PlanState) : FrameInstruction → PlanState
  | row instruction => { state with row := instruction.apply dataAlign state.row }
  | advanceLoc delta => state.advance codeAlign delta.val
  | advanceLoc1 delta => state.advance codeAlign delta.toNat
  | advanceLoc2 delta => state.advance codeAlign delta.toNat
  | advanceLoc4 delta => state.advance codeAlign delta.toNat
  | restore regNum => state.restore regNum.val
  | restoreExtended reg => state.restore reg.regNum
  | rememberState => state.rememberState
  | restoreState => state.restoreState

end FrameInstruction

def encodeAll (order : ByteOrder) (instructions : List FrameInstruction) : List UInt8 :=
  instructions.flatMap (FrameInstruction.encode order)

/-! Operands in the widths of the plan. -/

theorem RegisterNumber.uint32_unsigned (register : RegisterNumber) :
    uint32 (register.number.unsigned % 2 ^ 64) = register.regNum := by
  have narrow := register.narrow
  unfold uint32 regNum
  omega

theorem int32_mod (value : Nat) : int32 ((value % 2 ^ 64 : Nat) : Int) = int32 value := by
  have dvd : (2 : Nat) ^ 32 ∣ 2 ^ 64 := by decide
  unfold int32
  rw [← Int.bmod_bmod_of_dvd dvd, Int.natCast_emod, Int.emod_bmod, Int.bmod_bmod_of_dvd dvd]

theorem int32_unsigned (value : Nat) (factor : Int) :
    int32 (int32 ((value % 2 ^ 64 : Nat) : Int) * factor) = int32 (value * factor) := by
  rw [int32_mod]
  unfold int32
  rw [Int.bmod_mul_bmod]

theorem int32_signed (value factor : Int) : int32 (int32 (value.bmod (2 ^ 64)) * factor) = int32 (value * factor) := by
  unfold int32
  rw [Int.bmod_bmod_of_dvd (by decide), Int.bmod_mul_bmod]

/-! Operands read one after the other. -/

section

open DataExtractor

variable {data : DataExtractor} {offset : Nat} {α : Type}

theorem read_block {block : ExprBlock} (at_ : data.At offset (block.length.bytes ++ block.bytes)) (cut : Nat → Nat)
    (keeps : cut (block.length.unsigned % 2 ^ 64) = block.bytes.length) (make : Option (List UInt8) → Nat → α) :
    (do
      let blockLen ← data.getULEB128
      let blockData ← data.getData (cut blockLen)
      return make blockData (cut blockLen) : Cursor α) offset =
      if block.length.size ≤ 10 then
        some (make (some block.bytes) block.bytes.length, offset + (block.length.bytes ++ block.bytes).length)
      else none := by
  have bytes := getData_at at_.right
  change (data.getULEB128 offset).bind (fun read => (data.getData (cut read.1) read.2).bind fun _ => _) = _
  rw [getULEB128_at at_.left]
  by_cases short : block.length.size ≤ 10
  · rw [if_pos short, if_pos short, bind_some, keeps, ← Leb128.length_bytes, bytes, length_append,
      ← add_assoc]
    rfl
  · simp [if_neg short]

theorem ExprBlock.unsigned_mod (block : ExprBlock) : block.length.unsigned % 2 ^ 64 = block.bytes.length := by
  have exact := block.exact
  have narrow := block.narrow
  omega

theorem ExprBlock.uint32_unsigned (block : ExprBlock) : uint32 (block.length.unsigned % 2 ^ 64) = block.bytes.length := by
  rw [block.unsigned_mod]
  exact Nat.mod_eq_of_lt block.narrow

end

theorem primary_opcode (digit : Fin 64) :
    ((UInt8.ofNat (0x40 + digit.val)).toNat &&& 0xc0 = 0x40 ∧ (UInt8.ofNat (0x40 + digit.val)).toNat &&& 0x3f = digit.val) ∧
      (UInt8.ofNat (0xc0 + digit.val)).toNat &&& 0xc0 = 0xc0 ∧ (UInt8.ofNat (0xc0 + digit.val)).toNat &&& 0x3f = digit.val := by
  revert digit
  decide

theorem offset_opcode (regNum : Fin 64) : (UInt8.ofNat (0x80 + regNum.val)).toNat &&& 0xc0 = 0x80 ∧
    (UInt8.ofNat (0x80 + regNum.val)).toNat &&& 0x3f = regNum.val := by
  revert regNum
  decide

open DataExtractor in
theorem handleCommonDwarfOpcode_at {data : DataExtractor} {offset : Nat} {instruction : RowInstruction}
    (dataAlign : Int) (row : Row) (at_ : data.At offset instruction.operands) :
    handleCommonDwarfOpcode data (instruction.opcode.toNat &&& 0xc0) (instruction.opcode.toNat &&& 0x3f) dataAlign row offset =
      if instruction.Readable then some (some (instruction.apply dataAlign row), offset + instruction.operands.length)
      else none := by
  cases instruction <;> simp only [RowInstruction.opcode]
  case nop => rfl
  case offset regNum factored =>
    simp only [(offset_opcode regNum).1, (offset_opcode regNum).2]
    refine (read_unsigned at_ _).trans ?_
    rw [int32_unsigned]
    rfl
  case offsetExtended reg factored =>
    refine (read_unsigned_then at_ _ fun _ => read_unsigned at_.right _).trans ?_
    rw [int32_unsigned, reg.uint32_unsigned]
    rfl
  case undefined reg =>
    refine (read_unsigned at_ _).trans ?_
    rw [reg.uint32_unsigned]
    rfl
  case sameValue reg =>
    refine (read_unsigned at_ _).trans ?_
    rw [reg.uint32_unsigned]
    rfl
  case register reg other =>
    refine (read_unsigned_then at_ _ fun _ => read_unsigned at_.right _).trans ?_
    rw [reg.uint32_unsigned, other.uint32_unsigned]
    rfl
  case defCfa reg opOffset =>
    refine (read_unsigned_then at_ _ fun _ => read_unsigned at_.right _).trans ?_
    rw [reg.uint32_unsigned, int32_mod]
    rfl
  case defCfaRegister reg =>
    refine (read_unsigned at_ _).trans ?_
    rw [reg.uint32_unsigned]
    rfl
  case defCfaOffset opOffset =>
    refine (read_unsigned at_ _).trans ?_
    rw [int32_mod]
    rfl
  case defCfaExpression block =>
    exact read_block at_ id block.unsigned_mod fun bytes length =>
      some (row.setCFAValue (.isDWARFExpression ⟨bytes.getD [], length % 2 ^ 16⟩))
  case expression reg block =>
    refine (read_unsigned_then at_ _ fun regNum => read_block at_.right uint32 block.uint32_unsigned fun bytes length =>
      some (row.setRegisterInfo (uint32 regNum) (.atDWARFExpression ⟨bytes.getD [], length % 2 ^ 16⟩))).trans ?_
    rw [reg.uint32_unsigned]
    rfl
  case offsetExtendedSf reg factored =>
    refine (read_unsigned_then at_ _ fun _ => read_signed at_.right _).trans ?_
    rw [reg.uint32_unsigned, int32_signed]
    rfl
  case defCfaSf reg factored =>
    refine (read_unsigned_then at_ _ fun _ => read_signed at_.right _).trans ?_
    rw [reg.uint32_unsigned, int32_signed]
    rfl
  case defCfaOffsetSf factored =>
    refine (read_signed at_ _).trans ?_
    rw [int32_signed]
    rfl
  case valExpression reg block =>
    refine (read_unsigned_then at_ _ fun regNum => read_block at_.right uint32 block.uint32_unsigned fun bytes length =>
      some (row.setRegisterInfo (uint32 regNum) (.isDWARFExpression ⟨bytes.getD [], length % 2 ^ 16⟩))).trans ?_
    rw [reg.uint32_unsigned]
    rfl

/-- The other instructions of an FDE are left to `FDEToUnwindPlan`. -/
theorem handleCommonDwarfOpcode_other {data : DataExtractor} {instruction : FrameInstruction} (dataAlign : Int) (row : Row)
    (offset : Nat) (other : ∀ inner, instruction ≠ .row inner) :
    handleCommonDwarfOpcode data (instruction.opcode.toNat &&& 0xc0) (instruction.opcode.toNat &&& 0x3f) dataAlign row offset =
      some (none, offset) := by
  cases instruction <;> simp only [FrameInstruction.opcode]
  case row inner => exact absurd rfl (other inner)
  case advanceLoc delta => simp only [(primary_opcode delta).1.1]; rfl
  case restore regNum => simp only [(primary_opcode regNum).2.1]; rfl
  all_goals rfl

open DataExtractor in
theorem handleFDEOpcode_at {data : DataExtractor} {offset : Nat} {instruction : FrameInstruction} (codeAlign : Nat)
    (dataAlign : Int) (startFileAddress : Nat) (state : PlanState) (other : ∀ inner, instruction ≠ .row inner)
    (at_ : data.At offset (instruction.operands data.byteOrder)) :
    handleFDEOpcode data codeAlign startFileAddress (instruction.opcode.toNat &&& 0xc0) (instruction.opcode.toNat &&& 0x3f)
      state offset =
      if instruction.Readable then
        some (instruction.apply codeAlign dataAlign state, offset + (instruction.operands data.byteOrder).length)
      else none := by
  cases instruction <;> simp only [FrameInstruction.opcode]
  case row inner => exact absurd rfl (other inner)
  case advanceLoc delta =>
    simp only [(primary_opcode delta).1.1, (primary_opcode delta).1.2]
    rfl
  case advanceLoc1 delta => exact read_fixed delta.isLt at_ (state.advance codeAlign)
  case advanceLoc2 delta => exact read_fixed delta.isLt at_ (state.advance codeAlign)
  case advanceLoc4 delta => exact read_fixed delta.isLt at_ (state.advance codeAlign)
  case restore regNum =>
    simp only [(primary_opcode regNum).2.1, (primary_opcode regNum).2.2]
    rfl
  case restoreExtended reg =>
    refine (read_unsigned at_ _).trans ?_
    rw [reg.uint32_unsigned]
    rfl
  case rememberState => rfl
  case restoreState => rfl

/-- One turn of the loop of `FDEToUnwindPlan`. -/
theorem fdeInstructions_step {data : DataExtractor} {cie : CIE} {offset endOffset : Nat} {instruction : FrameInstruction}
    (startFileAddress fuel : Nat) (state : PlanState) (at_ : data.At offset (instruction.encode data.byteOrder))
    (inside : offset < endOffset) :
    fdeInstructions data cie endOffset startFileAddress (fuel + 1) state offset = if instruction.Readable then
        fdeInstructions data cie endOffset startFileAddress fuel (instruction.apply cie.codeAlign cie.dataAlign state)
          (offset + (instruction.encode data.byteOrder).length)
      else none := by
  have here : data.At offset ([instruction.opcode] ++ instruction.operands data.byteOrder) := at_
  have valid : data.validOffset offset := by
    have bound := here.left.bound
    simp only [length_singleton] at bound
    simp only [DataExtractor.validOffset, decide_eq_true_eq]
    omega
  have next : offset + (instruction.encode data.byteOrder).length = offset + 1 + (instruction.operands data.byteOrder).length := by
    simp only [FrameInstruction.encode, length_cons]
    omega
  have operands := here.right
  rw [length_singleton] at operands
  rw [next]
  refine (if_pos ⟨valid, inside⟩).trans ?_
  change (data.getU8 offset).bind (fun read => Option.bind
    (handleCommonDwarfOpcode data (read.1 &&& 0xc0) (read.1 &&& 0x3f) cie.dataAlign state.row read.2) fun handled => _) = _
  rw [DataExtractor.getU8_at here.left, bind_some]
  by_cases row : ∃ inner, instruction = .row inner
  · obtain ⟨inner, rfl⟩ := row
    change Option.bind (handleCommonDwarfOpcode data (inner.opcode.toNat &&& 0xc0) (inner.opcode.toNat &&& 0x3f)
      cie.dataAlign state.row (offset + 1)) _ = _
    rw [handleCommonDwarfOpcode_at cie.dataAlign state.row operands]
    change _ = if inner.Readable then _ else _
    split <;> rfl
  · have other : ∀ inner, instruction ≠ .row inner := fun inner same => row ⟨inner, same⟩
    rw [handleCommonDwarfOpcode_other cie.dataAlign state.row (offset + 1) other]
    change Option.bind (handleFDEOpcode data cie.codeAlign startFileAddress (instruction.opcode.toNat &&& 0xc0)
      (instruction.opcode.toNat &&& 0x3f) state (offset + 1)) _ = _
    rw [handleFDEOpcode_at cie.codeAlign cie.dataAlign startFileAddress state other operands]
    split <;> rfl

def applyAll (codeAlign : Nat) (dataAlign : Int) : PlanState → List FrameInstruction → PlanState :=
  List.foldl fun state instruction => instruction.apply codeAlign dataAlign state

theorem fdeInstructions_at {data : DataExtractor} {cie : CIE} {instructions : List FrameInstruction} {offset endOffset : Nat}
    (startFileAddress : Nat) {fuel : Nat} (state : PlanState) (at_ : data.At offset (encodeAll data.byteOrder instructions))
    (ends : endOffset = offset + (encodeAll data.byteOrder instructions).length) (enough : instructions.length < fuel) :
    fdeInstructions data cie endOffset startFileAddress fuel state offset =
      if ∀ instruction ∈ instructions, instruction.Readable then
        some (applyAll cie.codeAlign cie.dataAlign state instructions, endOffset)
      else none := by
  induction instructions generalizing offset fuel state with
  | nil =>
    obtain ⟨fuel, rfl⟩ : ∃ less, fuel = less + 1 := ⟨fuel - 1, by simp at enough; omega⟩
    subst ends
    exact if_neg (by simp)
  | cons instruction rest ih =>
    obtain ⟨fuel, rfl⟩ : ∃ less, fuel = less + 1 := ⟨fuel - 1, by simp at enough; omega⟩
    simp only [encodeAll, flatMap_cons, length_append] at at_ ends
    have inside : offset < endOffset := by
      rw [ends]
      simp only [FrameInstruction.encode, length_cons]
      omega
    rw [fdeInstructions_step startFileAddress fuel state at_.left inside,
      ih (instruction.apply cie.codeAlign cie.dataAlign state) at_.right (by simp only [encodeAll]; omega)
        (by simp only [length_cons] at enough; omega)]
    simp only [forall_mem_cons, ite_and]
    rfl

end Lldb
