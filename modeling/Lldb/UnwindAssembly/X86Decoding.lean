import Lldb.UnwindAssembly.X86NonCallSite
import Mathlib.Tactic.FinCases

/-! What the analysis makes of the encodings of the instructions. -/

set_option autoImplicit false

namespace Lldb.X86AssemblyInspectionEngine

open Library.X86 Displacement

structure Plain (size : WordSize) (code : List Byte) : Prop where
  pushRbp : pushRbpPattern code = false
  movRspRbp : movRspRbpPattern size code = false
  push0 : push0Pattern code = false
  push : pushReg size code = none
  pop : popReg size code = none
  popMisc : popMiscReg size code = false
  leave : leavePattern code = false

variable {opcode : Byte}

variable (size : WordSize)
include size

theorem plain_rexW (known : opcode = 0x81 ∨ opcode = 0x83 ∨ opcode = 0x8d)
    (rest : List Byte) : Plain size (rexW size ++ opcode :: rest) := by
  rcases known with rfl | rfl | rfl <;> cases size <;> constructor <;>
    simp [pushRbpPattern, movRspRbpPattern, push0Pattern, pushReg, popReg, opcodeReg, popMiscReg, leavePattern,
      byteAt, behindRexW, rexW]

theorem notStore_rexW (known : opcode = 0x81 ∨ opcode = 0x83 ∨ opcode = 0x8d)
    (rest : List Byte) : movRegToLocalStackFrame size (rexW size ++ opcode :: rest) = none := by
  rcases known with rfl | rfl | rfl <;> cases size <;> simp [movRegToLocalStackFrame, byteAt, rexW]

theorem plain_opcode (known : opcode = 0x68 ∨ opcode = 0xe8 ∨ opcode = 0xff)
    (rest : List Byte) : Plain size (opcode :: rest) := by
  rcases known with rfl | rfl | rfl <;> cases size <;> constructor <;>
    simp [pushRbpPattern, movRspRbpPattern, push0Pattern, pushReg, popReg, opcodeReg, popMiscReg, leavePattern,
      byteAt, behindRexW]

theorem notStore_opcode (known : opcode = 0x68 ∨ opcode = 0x6a ∨ opcode = 0xe8 ∨ opcode = 0xff) (rest : List Byte) :
    movRegToLocalStackFrame size (opcode :: rest) = none := by
  rcases known with rfl | rfl | rfl | rfl <;> cases size <;> simp [movRegToLocalStackFrame, byteAt]

theorem plain_pushImm {value : Byte} (other : value ≠ 0#8) (rest : List Byte) : Plain size (0x6a :: value :: rest) := by
  cases size <;> constructor <;>
    simp [pushRbpPattern, movRspRbpPattern, push0Pattern, pushReg, popReg, opcodeReg, popMiscReg, leavePattern,
      byteAt, behindRexW, other]

omit size

theorem extract4_littleEndian4 (value : BitVec 32) (rest : List Byte) :
    extract4 (littleEndian4 value ++ rest) = value := by
  simp only [extract4, littleEndian4, byteAt]
  apply BitVec.eq_of_getLsbD_eq
  intro index bound
  simp only [BitVec.getLsbD_append]
  by_cases first : index < 8
  · simp [first]
  · by_cases second : index < 16
    · simp [first, show index - 8 < 8 by omega]
      congr 1
      omega
    · by_cases third : index < 24
      · simp [first, show ¬ index - 8 < 8 by omega, show index - 8 - 8 < 8 by omega]
        congr 1
        omega
      · simp [first, show ¬ index - 8 < 8 by omega, show ¬ index - 8 - 8 < 8 by omega, show index - 8 - 8 - 8 < 8 by omega]
        congr 1
        omega

variable (engine : X86AssemblyInspectionEngine) (rest : List Byte) (analysis : Analysis)

namespace Analysis

def turn (analysis : Analysis) : Analysis := { analysis with inEpilogue := false, rowUpdated := false }

end Analysis

theorem readInstruction_of_plain {code : List Byte} (plain : Plain engine.size code) :
    engine.readInstruction code analysis = match engine.storedRegister analysis.turn code with
      | some (machineRegno, lldbRegno, stackOffset) =>
        analysis.turn.save machineRegno lldbRegno (-(stackOffset + analysis.row.cfaValue.getOffset))
      | none => engine.readAdjustment code analysis.turn := by
  unfold readInstruction
  simp only [plain.pushRbp, plain.movRspRbp, plain.push0, plain.push, plain.pop, plain.popMisc, plain.leave]
  rfl

theorem readInstruction_of_notStore {code : List Byte} (plain : Plain engine.size code)
    (notStore : movRegToLocalStackFrame engine.size code = none) :
    engine.readInstruction code analysis = engine.readAdjustment code analysis.turn := by
  rw [readInstruction_of_plain engine analysis plain, storedRegister, notStore]

variable (amount : Displacement)

theorem readInstruction_subSp :
    engine.readInstruction ((Instruction.subSp amount).encode engine.size ++ rest) analysis =
      engine.moveSp analysis.turn amount.toInt := by
  have pattern : subRspPattern engine.size ((Instruction.subSp amount).encode engine.size ++ rest) =
      some amount.toInt := by
    cases amount <;> cases engine.size <;> simp [subRspPattern, immediatePattern, byteAt, behindRexW,
      Instruction.encode, rexW, extract4_littleEndian4, toInt]
  have plain : Plain engine.size ((Instruction.subSp amount).encode engine.size ++ rest) := by
    cases amount <;> simpa [Instruction.encode] using plain_rexW engine.size (by simp) _
  have notStore : movRegToLocalStackFrame engine.size ((Instruction.subSp amount).encode engine.size ++ rest) = none := by
    cases amount <;> simpa [Instruction.encode] using notStore_rexW engine.size (by simp) _
  rw [readInstruction_of_notStore engine analysis plain notStore, readAdjustment, pattern]

theorem readInstruction_addSp :
    engine.readInstruction ((Instruction.addSp amount).encode engine.size ++ rest) analysis =
      { engine.moveSp analysis.turn (-amount.toInt) with inEpilogue := true } := by
  have notSub : subRspPattern engine.size ((Instruction.addSp amount).encode engine.size ++ rest) = none := by
    cases amount <;> cases engine.size <;> simp [subRspPattern, immediatePattern, byteAt, behindRexW,
      Instruction.encode, rexW]
  have pattern : addRspPattern engine.size ((Instruction.addSp amount).encode engine.size ++ rest) =
      some amount.toInt := by
    cases amount <;> cases engine.size <;> simp [addRspPattern, immediatePattern, byteAt, behindRexW,
      Instruction.encode, rexW, extract4_littleEndian4, toInt]
  have plain : Plain engine.size ((Instruction.addSp amount).encode engine.size ++ rest) := by
    cases amount <;> simpa [Instruction.encode] using plain_rexW engine.size (by simp) _
  have notStore : movRegToLocalStackFrame engine.size ((Instruction.addSp amount).encode engine.size ++ rest) = none := by
    cases amount <;> simpa [Instruction.encode] using notStore_rexW engine.size (by simp) _
  rw [readInstruction_of_notStore engine analysis plain notStore, readAdjustment, notSub, pattern]

theorem immediatePattern_opcode (modRM : Byte) (size : WordSize)
    (known : opcode = 0x68 ∨ opcode = 0x6a ∨ opcode = 0xe8 ∨ opcode = 0xff) (code : List Byte) :
    immediatePattern modRM size (opcode :: code) = none := by
  rcases known with rfl | rfl | rfl | rfl <;> cases size <;> simp [immediatePattern, byteAt, behindRexW]

theorem immediatePattern_lea (modRM : Byte) (size : WordSize) (code : List Byte) :
    immediatePattern modRM size (rexW size ++ 0x8d :: code) = none := by
  cases size <;> simp [immediatePattern, byteAt, behindRexW, rexW]

theorem readInstruction_pushRm (mode : BitVec 2) (rm : BitVec 3) (operand : List Byte) :
    engine.readInstruction ((Instruction.pushRm none mode rm operand).encode engine.size ++ rest) analysis =
      engine.moveSp analysis.turn engine.wordsize := by
  have group : ∀ (mode : BitVec 2) (rm : BitVec 3), modRM mode 6#3 rm >>> 3 &&& 7#8 = 6#8 := by decide
  have bytes : (Instruction.pushRm none mode rm operand).encode engine.size ++ rest =
      0xff :: modRM mode 6 rm :: (operand ++ rest) := rfl
  have pattern : pushExtendedPattern (0xff :: modRM mode 6 rm :: (operand ++ rest)) = true := by
    simp [pushExtendedPattern, byteAt, group mode rm]
  rw [bytes, readInstruction_of_notStore engine analysis (plain_opcode engine.size (by simp) _)
    (notStore_opcode engine.size (by simp) _), readAdjustment, subRspPattern, immediatePattern_opcode _ _ (by simp), addRspPattern, immediatePattern_opcode _ _ (by simp), pattern]
  rfl

theorem readInstruction_pushImm (value : Displacement) (other : value ≠ .byte 0) :
    engine.readInstruction ((Instruction.pushImm value).encode engine.size ++ rest) analysis =
      engine.moveSp analysis.turn engine.wordsize := by
  have pattern : pushImmPattern ((Instruction.pushImm value).encode engine.size ++ rest) = true := by
    cases value <;> simp [pushImmPattern, byteAt, Instruction.encode]
  have notAdjusted : ∀ modRM, immediatePattern modRM engine.size
      ((Instruction.pushImm value).encode engine.size ++ rest) = none := by
    intro modRM
    cases value with
    | byte value => exact immediatePattern_opcode _ _ (by simp) _
    | dword value => exact immediatePattern_opcode _ _ (by simp) _
  have plain : Plain engine.size ((Instruction.pushImm value).encode engine.size ++ rest) := by
    cases value with
    | byte value => exact plain_pushImm engine.size (fun zero => other (congrArg byte zero)) rest
    | dword value => exact plain_opcode engine.size (by simp) _
  have notStore : movRegToLocalStackFrame engine.size ((Instruction.pushImm value).encode engine.size ++ rest) = none := by
    cases value with
    | byte value => exact notStore_opcode engine.size (by simp) _
    | dword value => exact notStore_opcode engine.size (by simp) _
  simp [readInstruction_of_notStore engine analysis plain notStore, readAdjustment, subRspPattern, notAdjusted, addRspPattern, pattern]

theorem readInstruction_push0 :
    engine.readInstruction ((Instruction.pushImm (.byte 0)).encode engine.size ++ rest) analysis = analysis.turn := by
  have tests : pushRbpPattern (0x6a :: 0 :: rest) = false ∧ movRspRbpPattern engine.size (0x6a :: 0 :: rest) = false ∧
      push0Pattern (0x6a :: 0 :: rest) = true := by
    cases engine.size <;> simp [pushRbpPattern, movRspRbpPattern, push0Pattern, byteAt, behindRexW]
  obtain ⟨pushRbp, movRspRbp, push0⟩ := tests
  rw [show (Instruction.pushImm (.byte 0)).encode engine.size ++ rest = 0x6a :: 0 :: rest from rfl]
  unfold readInstruction
  simp only [movRspRbp]
  rfl

theorem rex_opcode (bits : BitVec 4) : ∃ rex : Byte, (4#4 ++ bits : BitVec 8) = rex ∧ ¬ 0x50#8 ≤ rex ∧ rex ∉
    [0x55#8, 0x6a#8, 0x68#8, 0x81#8, 0x83#8, 0x89#8, 0x8b#8, 0x8d#8, 0xc9#8, 0xc2#8, 0xca#8, 0xc3#8, 0xe8#8, 0xff#8] := by
  refine ⟨_, rfl, ?_⟩
  revert bits
  decide

theorem readInstruction_pushRm_rex (eight : engine.size = .eight) (bits : BitVec 4) (mode : BitVec 2) (rm : BitVec 3)
    (operand : List Byte) :
    engine.readInstruction ((Instruction.pushRm (some bits) mode rm operand).encode engine.size ++ rest) analysis =
      analysis.turn := by
  obtain ⟨rex, encoded, low, others⟩ := rex_opcode bits
  obtain ⟨code, bytes⟩ : ∃ code, (Instruction.pushRm (some bits) mode rm operand).encode engine.size ++ rest =
      rex :: 0xff :: code := ⟨modRM mode 6 rm :: (operand ++ rest), by rw [← encoded]; rfl⟩
  have high : ¬ 0x58#8 ≤ rex := fun above => low (BitVec.le_trans (by decide) above)
  simp only [List.mem_cons, List.not_mem_nil, or_false, not_or] at others
  obtain ⟨not55, not6a, not68, not81, not83, not89, not8b, not8d, notc9, notc2, notca, notc3, note8, notff⟩ := others
  have plain : Plain .eight (rex :: 0xff :: code) := by
    constructor
    case pushRbp => simp [pushRbpPattern, byteAt, not55]
    case movRspRbp => by_cases wide : rex = 0x48#8 <;> simp [movRspRbpPattern, behindRexW, byteAt, wide, not8b, not89]
    case push0 => simp [push0Pattern, byteAt, not6a]
    case push => by_cases extended : rex = 0x41#8 <;> simp [pushReg, opcodeReg, byteAt, extended, low]
    case pop => by_cases extended : rex = 0x41#8 <;> simp [popReg, opcodeReg, byteAt, extended, high]
    case popMisc => simp [popMiscReg]
    case leave => simp [leavePattern, byteAt, notc9]
  have notStore : movRegToLocalStackFrame .eight (rex :: 0xff :: code) = none := by
    by_cases prefixed : rex &&& 0xfa#8 = 0x48#8 <;> simp [movRegToLocalStackFrame, byteAt, prefixed, not89]
  have notAdjusted : ∀ modRM, immediatePattern modRM .eight (rex :: 0xff :: code) = none := by
    intro modRM
    by_cases wide : rex = 0x48#8 <;> simp [immediatePattern, behindRexW, byteAt, wide, not81, not83]
  have notPush : (pushExtendedPattern (rex :: 0xff :: code) || pushImmPattern (rex :: 0xff :: code) ||
      pushMiscReg .eight (rex :: 0xff :: code)) = false := by
    simp [pushExtendedPattern, pushImmPattern, pushMiscReg, byteAt, notff, not68, not6a]
  have notLea : leaRspPattern .eight (rex :: 0xff :: code) = none ∧
      leaRbpRspPattern .eight (rex :: 0xff :: code) = none := by
    by_cases wide : rex = 0x48#8 <;> simp [leaRspPattern, leaRbpRspPattern, behindRexW, byteAt, wide]
  have later : retPattern (rex :: 0xff :: code) = false ∧ callNextInsnPattern (rex :: 0xff :: code) = false := by
    simp [retPattern, callNextInsnPattern, byteAt, notc9, notc2, notca, notc3]
  rw [← eight] at plain notStore notAdjusted notPush notLea
  rw [bytes, readInstruction_of_notStore engine analysis plain notStore, readAdjustment, subRspPattern, notAdjusted,
    addRspPattern, notAdjusted]
  simp only [notPush, notLea.1, notLea.2, later.1, later.2, Bool.false_eq_true, if_false]

theorem notPush_lea (size : WordSize) (code : List Byte) :
    (pushExtendedPattern (rexW size ++ 0x8d :: code) || pushImmPattern (rexW size ++ 0x8d :: code) ||
      pushMiscReg size (rexW size ++ 0x8d :: code)) = false := by
  cases size <;> simp [pushExtendedPattern, pushImmPattern, pushMiscReg, byteAt, rexW]

theorem readInstruction_leaSp (scale : BitVec 2) (amount : Displacement) :
    engine.readInstruction ((Instruction.leaSp scale amount).encode engine.size ++ rest) analysis =
      { engine.moveSp analysis.turn (-amount.toInt) with inEpilogue := decide (0 < amount.toInt) } := by
  have masked : ∀ scale : BitVec 2, scale ++ 36#6 &&& 63#8 = 36#8 := by decide
  have pattern : leaRspPattern engine.size ((Instruction.leaSp scale amount).encode engine.size ++ rest) =
      some amount.toInt := by
    cases amount <;> cases engine.size <;> simp [leaRspPattern, byteAt, behindRexW, Instruction.encode, rexW,
      mode, encode, toInt, modRM, masked scale, extract4_littleEndian4]
  have bytes : (Instruction.leaSp scale amount).encode engine.size ++ rest =
      rexW engine.size ++ 0x8d :: (modRM amount.mode 4 4 :: (scale ++ 0x24#6 : BitVec 8) :: amount.encode ++ rest) := by
    simp [Instruction.encode]
  rw [bytes] at pattern ⊢
  rw [readInstruction_of_notStore engine analysis (plain_rexW engine.size (by simp) _)
    (notStore_rexW engine.size (by simp) _), readAdjustment, subRspPattern, immediatePattern_lea, addRspPattern,
    immediatePattern_lea]
  simp only [notPush_lea, pattern, Bool.false_eq_true, if_false]

theorem readInstruction_leaBpSp :
    engine.readInstruction ((Instruction.leaBpSp amount).encode engine.size ++ rest) analysis =
      if analysis.row.cfaValue.getRegisterNumber = engine.lldbFpRegnum then
        analysis.turn.setSp (analysis.row.cfaValue.getOffset - amount.toInt)
      else analysis.turn := by
  have notSp : leaRspPattern engine.size ((Instruction.leaBpSp amount).encode engine.size ++ rest) = none := by
    cases amount <;> cases engine.size <;> simp [leaRspPattern, byteAt, behindRexW, Instruction.encode, rexW,
      mode, modRM]
  have pattern : leaRbpRspPattern engine.size ((Instruction.leaBpSp amount).encode engine.size ++ rest) =
      some amount.toInt := by
    cases amount <;> cases engine.size <;> simp [leaRbpRspPattern, byteAt, behindRexW, Instruction.encode, rexW,
      mode, encode, toInt, modRM, extract4_littleEndian4]
  have later : retPattern ((Instruction.leaBpSp amount).encode engine.size ++ rest) = false ∧
      callNextInsnPattern ((Instruction.leaBpSp amount).encode engine.size ++ rest) = false := by
    cases engine.size <;> simp [retPattern, callNextInsnPattern, byteAt, Instruction.encode, rexW]
  have bytes : (Instruction.leaBpSp amount).encode engine.size ++ rest =
      rexW engine.size ++ 0x8d :: (modRM amount.mode 4 5 :: amount.encode ++ rest) := by
    simp [Instruction.encode]
  rw [bytes] at notSp pattern later ⊢
  rw [readInstruction_of_notStore engine analysis (plain_rexW engine.size (by simp) _)
    (notStore_rexW engine.size (by simp) _), readAdjustment, subRspPattern, immediatePattern_lea, addRspPattern,
    immediatePattern_lea]
  simp only [notPush_lea, notSp, pattern, later.1, later.2, Bool.false_eq_true, if_false]
  by_cases framed : analysis.row.cfaValue.getRegisterNumber = engine.lldbFpRegnum
  · rw [if_pos framed, decide_eq_true (show analysis.turn.row.cfaValue.getRegisterNumber = engine.lldbFpRegnum from framed)]
    rfl
  · rw [if_neg framed, decide_eq_false (show ¬ analysis.turn.row.cfaValue.getRegisterNumber = engine.lldbFpRegnum from framed)]

theorem readInstruction_movSpBp (load : Bool) :
    engine.readInstruction ((Instruction.movSpBp load).encode engine.size ++ rest) analysis = { analysis.turn with
        row := analysis.row.setCFAValue (.isRegisterPlusOffset engine.lldbFpRegnum analysis.row.cfaValue.getOffset)
        rowUpdated := true } := by
  have notPush : pushRbpPattern ((Instruction.movSpBp load).encode engine.size ++ rest) = false := by
    cases load <;> cases engine.size <;> simp [pushRbpPattern, byteAt, Instruction.encode, rexW]
  have pattern : movRspRbpPattern engine.size ((Instruction.movSpBp load).encode engine.size ++ rest) = true := by
    cases load <;> cases engine.size <;> simp [movRspRbpPattern, byteAt, behindRexW, Instruction.encode, rexW]
  unfold readInstruction
  rw [notPush, pattern]
  rfl

theorem readInstruction_leave :
    engine.readInstruction (Instruction.leave.encode engine.size ++ rest) analysis = engine.leaveFrame analysis.turn := by
  have tests : pushRbpPattern (0xc9 :: rest) = false ∧ movRspRbpPattern engine.size (0xc9 :: rest) = false ∧
      push0Pattern (0xc9 :: rest) = false ∧ pushReg engine.size (0xc9 :: rest) = none ∧
      popReg engine.size (0xc9 :: rest) = none ∧ popMiscReg engine.size (0xc9 :: rest) = false ∧
      leavePattern (0xc9 :: rest) = true := by
    cases engine.size <;> simp [pushRbpPattern, movRspRbpPattern, push0Pattern, pushReg, popReg, opcodeReg,
      popMiscReg, leavePattern, byteAt, behindRexW]
  obtain ⟨pushRbp, movRspRbp, push0, push, pop, popMisc, leave⟩ := tests
  rw [show Instruction.leave.encode engine.size ++ rest = 0xc9 :: rest from rfl]
  unfold readInstruction
  simp only [movRspRbp, push, pop, popMisc]
  rfl

def Addressable (size : WordSize) (register : Register) : Prop := size = .four → register.val < 8

theorem opcodeReg_encode (size : WordSize) (known : opcode = 0x50 ∨ opcode = 0x58) (register : Register)
    (addressable : Addressable size register) :
    opcodeReg opcode size (rexB register ++ (opcode + (low register).setWidth 8) :: rest) = some register.val := by
  cases size with
  | four =>
    have small := addressable rfl
    rcases known with rfl | rfl <;> fin_cases register <;> simp at small <;>
      simp [opcodeReg, byteAt, rexB, low]
  | eight =>
    rcases known with rfl | rfl <;> fin_cases register <;> simp [opcodeReg, byteAt, rexB, low]

theorem notMov_opcodeReg (size : WordSize) (known : opcode = 0x50 ∨ opcode = 0x58) (register : Register) :
    movRspRbpPattern size (rexB register ++ (opcode + (low register).setWidth 8) :: rest) = false ∧
      push0Pattern (rexB register ++ (opcode + (low register).setWidth 8) :: rest) = false := by
  cases size <;> rcases known with rfl | rfl <;> fin_cases register <;>
    simp [movRspRbpPattern, push0Pattern, byteAt, behindRexW, rexB, low]

variable (register : Register)

theorem readInstruction_pushReg (addressable : Addressable engine.size register) :
    engine.readInstruction ((Instruction.pushReg register).encode engine.size ++ rest) analysis =
      if register = bp then engine.pushRbp analysis.turn else engine.pushRegister analysis.turn register.val := by
  have bytes : (Instruction.pushReg register).encode engine.size ++ rest =
      rexB register ++ (0x50 + (low register).setWidth 8) :: rest := by
    simp [Instruction.encode]
  have pattern : pushRbpPattern (rexB register ++ (0x50 + (low register).setWidth 8) :: rest) = decide (register = bp) := by
    fin_cases register <;> simp [pushRbpPattern, byteAt, rexB, low, bp]
  obtain ⟨notMov, notPush0⟩ := notMov_opcodeReg rest engine.size (.inl rfl) register
  have push : pushReg engine.size (rexB register ++ (0x50 + (low register).setWidth 8) :: rest) = some register.val :=
    opcodeReg_encode rest engine.size (.inl rfl) register addressable
  rw [bytes]
  unfold readInstruction
  rw [pattern, notMov, notPush0, push]
  simp only [decide_eq_true_eq]
  rfl

theorem readInstruction_popReg (addressable : Addressable engine.size register) :
    engine.readInstruction ((Instruction.popReg register).encode engine.size ++ rest) analysis =
      engine.popRegister analysis.turn register.val := by
  have bytes : (Instruction.popReg register).encode engine.size ++ rest =
      rexB register ++ (0x58 + (low register).setWidth 8) :: rest := by
    simp [Instruction.encode]
  have notRbp : pushRbpPattern (rexB register ++ (0x58 + (low register).setWidth 8) :: rest) = false := by
    fin_cases register <;> simp [pushRbpPattern, byteAt, rexB, low]
  obtain ⟨notMov, notPush0⟩ := notMov_opcodeReg rest engine.size (.inr rfl) register
  have notPush : pushReg engine.size (rexB register ++ (0x58 + (low register).setWidth 8) :: rest) = none := by
    cases engine.size <;> fin_cases register <;> simp [pushReg, opcodeReg, byteAt, rexB, low]
  have pop : popReg engine.size (rexB register ++ (0x58 + (low register).setWidth 8) :: rest) = some register.val :=
    opcodeReg_encode rest engine.size (.inr rfl) register addressable
  rw [bytes]
  unfold readInstruction
  rw [notRbp, notMov, notPush0, notPush, pop]
  rfl

/-! Stores. -/

theorem encode_store (size : WordSize) (src base : Register) (displacement : Displacement) :
    ∃ operand, (Instruction.store src base displacement).encode size ++ rest =
        rexStore src base size ++ 0x89 :: modRM displacement.mode (low src) (low base) :: operand ∧
      (low base = 5 → operand = displacement.encode ++ rest) := by
  refine ⟨((if low base = 4 then [0x24] else []) ++ displacement.encode) ++ rest, ?_, fun frame => ?_⟩
  · simp [Instruction.encode]
  · simp [frame]

variable (src base : Register)

theorem rexStore_eight : ∃ prefixed : Byte, rexStore src base .eight = [prefixed] ∧
    (prefixed = 0x48 ∨ prefixed = 0x49 ∨ prefixed = 0x4c ∨ prefixed = 0x4d) ∧
    (prefixed &&& 0x4).toNat >>> 2 <<< 3 = if src.val < 8 then 0 else 8 := by
  refine ⟨_, rfl, ?_⟩
  revert src base
  decide

theorem modRM_store (displacement : Displacement) (reg rm : BitVec 3) : modRM displacement.mode reg rm ≠ 0xe5#8 ∧
      (modRM displacement.mode reg rm &&& ~~~0x38 = 0x45 ↔ displacement.mode = 1 ∧ rm = 5) ∧
      (modRM displacement.mode reg rm &&& ~~~0x38 = 0x85 ↔ displacement.mode = 2 ∧ rm = 5) ∧
      (modRM displacement.mode reg rm >>> 3 &&& 7).toNat = reg.toNat := by
  have checked : ∀ mode : BitVec 2, mode = 1 ∨ mode = 2 → ∀ reg rm, modRM mode reg rm ≠ 0xe5#8 ∧
      (modRM mode reg rm &&& ~~~0x38 = 0x45 ↔ mode = 1 ∧ rm = 5) ∧
      (modRM mode reg rm &&& ~~~0x38 = 0x85 ↔ mode = 2 ∧ rm = 5) ∧
      (modRM mode reg rm >>> 3 &&& 7).toNat = reg.toNat := by decide
  refine checked displacement.mode ?_ reg rm
  cases displacement with
  | byte _ => exact .inl rfl
  | dword _ => exact .inr rfl

theorem low_toNat_or :
    (low register).toNat ||| (if register.val < 8 then 0 else 8) = register.val := by
  revert register
  decide

theorem plain_store (size : WordSize) (src base : Register) {byte : Byte} (notMov : byte ≠ 0xe5#8) (operand : List Byte) :
    Plain size (rexStore src base size ++ 0x89 :: byte :: operand) := by
  cases size with
  | four => constructor <;> simp [pushRbpPattern, movRspRbpPattern, push0Pattern, pushReg, popReg, opcodeReg,
      popMiscReg, leavePattern, byteAt, behindRexW, rexStore, notMov]
  | eight =>
    obtain ⟨prefixed, single, known, _⟩ := rexStore_eight src base
    rw [single]
    rcases known with rfl | rfl | rfl | rfl <;> constructor <;>
      simp [pushRbpPattern, movRspRbpPattern, push0Pattern, pushReg, popReg, opcodeReg, popMiscReg, leavePattern,
        byteAt, behindRexW, notMov]

theorem readAdjustment_store (byte : Byte) (operand : List Byte) :
    engine.readAdjustment (rexStore src base engine.size ++ 0x89 :: byte :: operand) analysis = analysis := by
  unfold readAdjustment
  cases size : engine.size with
  | four => simp [subRspPattern, addRspPattern, immediatePattern, pushExtendedPattern, pushImmPattern, pushMiscReg,
      leaRspPattern, leaRbpRspPattern, retPattern, callNextInsnPattern, byteAt, behindRexW, rexStore]
  | eight =>
    obtain ⟨prefixed, single, known, _⟩ := rexStore_eight src base
    rw [single]
    rcases known with rfl | rfl | rfl | rfl <;>
      simp [subRspPattern, addRspPattern, immediatePattern, pushExtendedPattern, pushImmPattern, pushMiscReg,
        leaRspPattern, leaRbpRspPattern, retPattern, callNextInsnPattern, byteAt, behindRexW]

/-- The displacement, where the base has the number of the frame pointer but for the prefix. -/
theorem displacement_store (base : Register) (reg : BitVec 3) (displacement : Displacement) (operand : List Byte)
    (encoded : low base = 5 → operand = displacement.encode ++ rest) :
    (if modRM displacement.mode reg (low base) &&& ~~~0x38 = 0x45 then
        some (byteAt (0x89 :: modRM displacement.mode reg (low base) :: operand) 2).toInt
      else if modRM displacement.mode reg (low base) &&& ~~~0x38 = 0x85 then
        some (extract4 ((0x89 :: modRM displacement.mode reg (low base) :: operand).drop 2)).toInt
      else none) = if low base = 5 then some displacement.toInt else none := by
  obtain ⟨_, short, long, _⟩ := modRM_store displacement reg (low base)
  by_cases frame : low base = 5
  · rw [if_pos frame, encoded frame]
    cases displacement with
    | byte value => rw [if_pos (short.mpr ⟨rfl, frame⟩)]; rfl
    | dword value =>
      rw [if_neg (fun wrong => absurd (short.mp wrong).1 (by simp [mode])), if_pos (long.mpr ⟨rfl, frame⟩)]
      change some (extract4 (littleEndian4 value ++ rest)).toInt = _
      rw [extract4_littleEndian4]
      rfl
  · rw [if_neg frame, if_neg (fun wrong => frame (short.mp wrong).2), if_neg (fun wrong => frame (long.mp wrong).2)]

theorem storedSlot_eq {frame : Prop} [Decidable frame] (offset : Int) (number : Nat) :
    (match (if frame then some offset else none : Option Int) with
      | none => none
      | some offset => if 0 < offset then none else some (number, -offset)) =
      if frame ∧ offset ≤ 0 then some (number, -offset) else none := by
  by_cases inFrame : frame
  · rw [if_pos inFrame]
    by_cases below : offset ≤ 0
    · rw [if_pos ⟨inFrame, below⟩]
      exact if_neg (Int.not_lt.mpr below)
    · rw [if_neg fun both => below both.2]
      exact if_pos (Int.not_le.mp below)
  · rw [if_neg inFrame, if_neg fun both => inFrame both.1]

/-- The register and the slot of a store to the frame; the base may be `r13` as well. -/
theorem movRegToLocalStackFrame_encode (size : WordSize) (src base : Register) (addressable : Addressable size src)
    (displacement : Displacement) (operand : List Byte) (encoded : low base = 5 → operand = displacement.encode ++ rest) :
    movRegToLocalStackFrame size
        (rexStore src base size ++ 0x89 :: modRM displacement.mode (low src) (low base) :: operand) =
      if low base = 5 ∧ displacement.toInt ≤ 0 then some (src.val, -displacement.toInt) else none := by
  have slot := displacement_store rest base (low src) displacement operand encoded
  obtain ⟨_, _, _, register⟩ := modRM_store displacement (low src) (low base)
  have number := low_toNat_or src
  rw [← register] at number
  generalize modRM displacement.mode (low src) (low base) = byte at slot number ⊢
  cases size with
  | four =>
    rw [if_pos (addressable rfl)] at number
    unfold movRegToLocalStackFrame
    simp only [rexStore, List.nil_append, reduceCtorEq, false_and, if_false]
    rw [show byteAt (0x89 :: byte :: operand) 1 = byte from rfl, slot]
    rw [number]
    exact storedSlot_eq displacement.toInt src.val
  | eight =>
    obtain ⟨prefixed, single, known, bit⟩ := rexStore_eight src base
    rw [← bit] at number
    rw [single]
    have isPrefix : prefixed &&& ~~~0x5 = 0x48 := by
      rcases known with rfl | rfl | rfl | rfl <;> rfl
    have target : (prefixed &&& 0x1).toNat <<< 3 ≠ 1 := by
      rcases known with rfl | rfl | rfl | rfl <;> decide
    unfold movRegToLocalStackFrame
    rw [show byteAt ([prefixed] ++ 0x89 :: byte :: operand) 0 = prefixed from rfl]
    simp only [isPrefix, and_self, if_true, target]
    rw [show ([prefixed] ++ 0x89 :: byte :: operand).drop 1 = 0x89 :: byte :: operand from rfl,
      show byteAt (0x89 :: byte :: operand) 1 = byte from rfl, slot]
    rw [number]
    exact storedSlot_eq displacement.toInt src.val

theorem readInstruction_store (addressable : Addressable engine.size src)
    (displacement : Displacement) :
    engine.readInstruction ((Instruction.store src base displacement).encode engine.size ++ rest) analysis =
      if low base = 5 ∧ displacement.toInt ≤ 0 then
        match engine.toBeSaved analysis.turn src.val with
        | some lldbRegno =>
          analysis.turn.save src.val lldbRegno (-(-displacement.toInt + analysis.row.cfaValue.getOffset))
        | none => analysis.turn
      else analysis.turn := by
  obtain ⟨operand, bytes, encoded⟩ := encode_store rest engine.size src base displacement
  obtain ⟨notMov, _⟩ := modRM_store displacement (low src) (low base)
  rw [bytes, readInstruction_of_plain engine analysis (plain_store engine.size src base notMov operand),
    readAdjustment_store, storedRegister,
    movRegToLocalStackFrame_encode rest engine.size src base addressable displacement operand encoded]
  by_cases frame : low base = 5 ∧ displacement.toInt ≤ 0
  · rw [if_pos frame, if_pos frame]
    simp only
    cases engine.toBeSaved analysis.turn src.val with
    | some lldbRegno => rfl
    | none => rfl
  · rw [if_neg frame, if_neg frame]

end Lldb.X86AssemblyInspectionEngine
