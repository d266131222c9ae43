import Lldb.Symbol.UnwindPlan
import Lldb.UnwindAssembly.X86Functions

/-! `x86AssemblyInspectionEngine::GetNonCallSiteUnwindPlanFromAssembly`: a plan from the instructions
of a function.
-/

set_option autoImplicit false

namespace Lldb.X86AssemblyInspectionEngine

open Library.X86

def nonvolatileReg (size : WordSize) (machineRegno : Nat) : Bool :=
  match size with
  | .four => machineRegno ∈ [3, 5, 6, 7, 4]
  | .eight => machineRegno ∈ [3, 4, 5, 12, 13, 14, 15]

structure Analysis where
  row : Row
  currentSpBytesOffsetFromCfa : Int
  savedRegisters : Nat → Bool
  prologueCompletedRow : Option Row
  prologueCompletedSpBytesOffsetFromCfa : Int
  prologueCompletedSavedRegisters : Nat → Bool
  /-- These two are of one turn only. -/
  inEpilogue : Bool
  rowUpdated : Bool

namespace Analysis

variable (analysis : Analysis)

/-- The offset is an `int`. -/
def setSp (offset : Int) : Analysis :=
  { analysis with currentSpBytesOffsetFromCfa := offset.bmod (2 ^ 32) }

def setOffset (analysis : Analysis) : Analysis :=
  { analysis with
    row := analysis.row.setCFAValue (analysis.row.cfaValue.setOffset analysis.currentSpBytesOffsetFromCfa)
    rowUpdated := true }

def save (machineRegno lldbRegno : Nat) (offset : Int) : Analysis :=
  { analysis with
    row := analysis.row.setRegisterInfo lldbRegno (.atCFAPlusOffset (offset.bmod (2 ^ 32)))
    savedRegisters := Function.update analysis.savedRegisters machineRegno true
    rowUpdated := true }

def restore (machineRegno lldbRegno : Nat) : Analysis :=
  { analysis with
    row := analysis.row.removeRegisterInfo lldbRegno
    savedRegisters := Function.update analysis.savedRegisters machineRegno false
    inEpilogue := true
    rowUpdated := true }

def reinstate (completed : Row) : Analysis :=
  { analysis with
    row := completed
    currentSpBytesOffsetFromCfa := analysis.prologueCompletedSpBytesOffsetFromCfa
    savedRegisters := analysis.prologueCompletedSavedRegisters
    inEpilogue := true
    rowUpdated := true }

end Analysis

variable (engine : X86AssemblyInspectionEngine)

def machineRegnoToLldbRegno (machineRegno : Nat) : Option Nat :=
  match engine.size with
  | .four => if machineRegno < 8 then some (engine.lldbRegnum (Fin.ofNat 16 machineRegno)) else none
  | .eight => if machineRegno < 16 then some (engine.lldbRegnum (Fin.ofNat 16 machineRegno)) else none

variable (analysis : Analysis)

/-- The instruction has moved the stack pointer; a canonical frame address in its terms moves along. -/
def moveSp (amount : Int) : Analysis :=
  let moved := analysis.setSp (analysis.currentSpBytesOffsetFromCfa + amount)
  if moved.row.cfaValue.getRegisterNumber = engine.lldbSpRegnum then moved.setOffset else moved

def toBeSaved (machineRegno : Nat) : Option Nat :=
  if nonvolatileReg engine.size machineRegno ∧ analysis.savedRegisters machineRegno = false then
    engine.machineRegnoToLldbRegno machineRegno
  else none

def pushRbp : Analysis :=
  let moved := (analysis.setSp (analysis.currentSpBytesOffsetFromCfa + engine.wordsize)).setOffset
  moved.save bp.val engine.lldbFpRegnum (-moved.row.cfaValue.getOffset)

def pushRegister (machineRegno : Nat) : Analysis :=
  let moved := engine.moveSp analysis engine.wordsize
  match engine.toBeSaved moved machineRegno with
  | some lldbRegno => moved.save machineRegno lldbRegno (-moved.currentSpBytesOffsetFromCfa)
  | none => moved

def popRegister (machineRegno : Nat) : Analysis :=
  let moved := analysis.setSp (analysis.currentSpBytesOffsetFromCfa - engine.wordsize)
  let restored :=
    if nonvolatileReg engine.size machineRegno ∧ moved.savedRegisters machineRegno = true then
      match engine.machineRegnoToLldbRegno machineRegno with
      | some lldbRegno =>
        let restored := moved.restore machineRegno lldbRegno
        if machineRegno = bp.val then
          { restored with
            row := restored.row.setCFAValue
              (.isRegisterPlusOffset engine.lldbSpRegnum restored.row.cfaValue.getOffset) }
        else restored
      | none => moved
    else moved
  if restored.row.cfaValue.getRegisterNumber = engine.lldbSpRegnum then
    { restored with
      row := restored.row.setCFAValue
        (.isRegisterPlusOffset engine.lldbSpRegnum restored.currentSpBytesOffsetFromCfa)
      rowUpdated := true }
  else restored

def leaveFrame : Analysis :=
  let moved := (analysis.setSp (analysis.row.cfaValue.getOffset - engine.wordsize)).setOffset
  let restored := moved.restore bp.val engine.lldbFpRegnum
  { restored with
    row := restored.row.setCFAValue
      (.isRegisterPlusOffset engine.lldbSpRegnum restored.currentSpBytesOffsetFromCfa) }

def storedRegister (code : List Byte) : Option (Nat × Nat × Int) :=
  match movRegToLocalStackFrame engine.size code with
  | some (machineRegno, stackOffset) =>
    (engine.toBeSaved analysis machineRegno).map fun lldbRegno => (machineRegno, lldbRegno, stackOffset)
  | none => none

def readAdjustment (code : List Byte) (analysis : Analysis) : Analysis :=
  match subRspPattern engine.size code with
  | some stackOffset => engine.moveSp analysis stackOffset
  | none => match addRspPattern engine.size code with
    | some stackOffset => { engine.moveSp analysis (-stackOffset) with inEpilogue := true }
    | none =>
      if pushExtendedPattern code || pushImmPattern code || pushMiscReg engine.size code then
        engine.moveSp analysis engine.wordsize
      else match leaRspPattern engine.size code with
        | some stackOffset => { engine.moveSp analysis (-stackOffset) with inEpilogue := decide (0 < stackOffset) }
        | none => match leaRbpRspPattern engine.size code,
            decide (analysis.row.cfaValue.getRegisterNumber = engine.lldbFpRegnum) with
          | some stackOffset, true => analysis.setSp (analysis.row.cfaValue.getOffset - stackOffset)
          | _, _ => match retPattern code, analysis.prologueCompletedRow with
            | true, some completed => analysis.reinstate completed
            | _, _ => if callNextInsnPattern code then engine.moveSp analysis engine.wordsize else analysis

def readInstruction (code : List Byte) (analysis : Analysis) : Analysis :=
  let analysis := { analysis with inEpilogue := false, rowUpdated := false }
  if pushRbpPattern code then engine.pushRbp analysis
  else if movRspRbpPattern engine.size code then
    { analysis with
      row := analysis.row.setCFAValue (.isRegisterPlusOffset engine.lldbFpRegnum analysis.row.cfaValue.getOffset)
      rowUpdated := true }
  else if push0Pattern code then analysis
  else match pushReg engine.size code with
    | some machineRegno => engine.pushRegister analysis machineRegno
    | none => match popReg engine.size code with
      | some machineRegno => engine.popRegister analysis machineRegno
      | none =>
        if popMiscReg engine.size code then engine.moveSp analysis (-engine.wordsize)
        else if leavePattern code then engine.leaveFrame analysis
        else match engine.storedRegister analysis code with
          | some (machineRegno, lldbRegno, stackOffset) =>
            analysis.save machineRegno lldbRegno (-(stackOffset + analysis.row.cfaValue.getOffset))
          | none => engine.readAdjustment code analysis

def Analysis.complete : Analysis :=
  if analysis.inEpilogue then analysis
  else
    let kept :=
      if analysis.rowUpdated then
        { analysis with
          prologueCompletedRow := some analysis.row
          prologueCompletedSavedRegisters := analysis.savedRegisters }
      else analysis
    { kept with prologueCompletedSpBytesOffsetFromCfa := kept.currentSpBytesOffsetFromCfa }

variable (data : List Byte)

def nonCallSiteLoop : Nat → Nat → List Row → Analysis → List Row
  | 0, _, rowList, _ => rowList
  | turns + 1, offset, rowList, analysis =>
    if offset < data.length then
      let length := engine.instructionLength (data.drop offset)
      if length = 0 ∨ maxInstructionByteSize < length then rowList
      else
        let read := engine.readInstruction (data.drop offset) analysis
        if read.rowUpdated ∧ offset + length < data.length then
          let row := read.row.setOffset (offset + length)
          nonCallSiteLoop turns (offset + length) (UnwindPlan.appendRow rowList row)
            { read with row := row }.complete
        else nonCallSiteLoop turns (offset + length) rowList read.complete
    else rowList

def firstRow : Row :=
  let row := Row.empty.setCFAValue (.isRegisterPlusOffset engine.lldbSpRegnum engine.wordsize)
  let row := row.setRegisterInfo engine.lldbSpRegnum (.isCFAPlusOffset 0)
  row.setRegisterInfo engine.lldbIpRegnum (.atCFAPlusOffset (-engine.wordsize))

def firstAnalysis : Analysis where
  row := engine.firstRow
  currentSpBytesOffsetFromCfa := engine.wordsize
  savedRegisters _ := false
  prologueCompletedRow := none
  prologueCompletedSpBytesOffsetFromCfa := 0
  prologueCompletedSavedRegisters _ := false
  inEpilogue := false
  rowUpdated := false

def getNonCallSiteUnwindPlanFromAssembly : Option (List Row) :=
  if data.length = 0 then none
  else some (engine.nonCallSiteLoop data data.length 0 [engine.firstRow] engine.firstAnalysis)

end Lldb.X86AssemblyInspectionEngine
