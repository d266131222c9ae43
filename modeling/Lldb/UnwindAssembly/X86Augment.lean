import Lldb.Symbol.UnwindPlan
import Lldb.UnwindAssembly.X86Functions

/-! `x86AssemblyInspectionEngine::AugmentUnwindPlanFromCallSite`: rows added to the plan a compiler made. -/

set_option autoImplicit false

namespace Lldb

open Library.X86

namespace X86AssemblyInspectionEngine

structure Augmentation where
  offset : Nat
  rowId : Nat
  rowList : List Row
  row : Row
  reinstateUnwindState : Bool
  unwindPlanUpdated : Bool

/-- By how much an instruction moves the canonical frame address away from the stack pointer. -/
def stackMove (size : WordSize) (code : List Byte) : Option Int :=
  if callNextInsnPattern code then some size.bytes
  else if (pushReg size code).isSome then some size.bytes
  else if (popReg size code).isSome then some (-size.bytes)
  else if popMiscReg size code then some (-size.bytes)
  else if pushImmPattern code then some size.bytes
  else if pushExtendedPattern code || pushMiscReg size code then some size.bytes
  else match addRspPattern size code with
    | some amount => some (-amount)
    | none => match subRspPattern size code with
      | some amount => some amount
      | none => (leaRspPattern size code).map (-·)

def advanceRowId (rowList : List Row) (offset rowId : Nat) : Nat :=
  rowId + ((rowList.drop rowId).takeWhile (·.offset ≤ offset)).length

variable (engine : X86AssemblyInspectionEngine) (convert : Nat → Nat) (data : List Byte)

/-- The part of a turn that looks at an instruction for which the plan has no row; it has no result where
the loop is left.
-/
def inspect (firstRow : Row) (state : Augmentation) : Option Augmentation :=
  let code := data.drop state.offset
  let cfaReg := convert state.row.cfaValue.getRegisterNumber
  if cfaReg = engine.lldbSpRegnum then
    match stackMove engine.size code with
    | some amount =>
      let row := { state.row with offset := state.offset, cfaValue := state.row.cfaValue.incOffset amount }
      some { state with row := row, rowList := UnwindPlan.insertRow row state.rowList, unwindPlanUpdated := true }
    | none => some { state with reinstateUnwindState := retPattern code }
  else if cfaReg = engine.lldbFpRegnum then
    if popRbpPattern code || leavePattern code then
      let row := { state.row with
        offset := state.offset + 1
        cfaValue := .isRegisterPlusOffset firstRow.cfaValue.getRegisterNumber engine.wordsize }
      some { state with
        offset := state.offset + 1
        row := row
        rowList := UnwindPlan.insertRow row state.rowList
        unwindPlanUpdated := true
        reinstateUnwindState := true }
    else some state
  else none

/-- A turn of the loop, which first moves behind an instruction; `row_id` is never 0. -/
def augmentTurn (firstRow originalLastRow : Row) (state : Augmentation) : Option Augmentation :=
  let length := engine.instructionLength (data.drop state.offset)
  if length = 0 ∨ maxInstructionByteSize < length then none
  else
    let offset := state.offset + length
    if data.length ≤ offset then some { state with offset := offset }
    else if state.reinstateUnwindState then
      let row := originalLastRow.setOffset offset
      some { state with
        offset := offset
        rowList := UnwindPlan.appendRow state.rowList row
        row := row
        reinstateUnwindState := false
        unwindPlanUpdated := true }
    else
      let rowId := advanceRowId state.rowList offset state.rowId
      let state := { state with offset := offset, rowId := rowId }
      match state.rowList[rowId - 1]? with
      | none => none
      | some originalRow =>
        if originalRow.offset = offset then some { state with row := originalRow }
        else engine.inspect convert data firstRow state

def augmentLoop (firstRow originalLastRow : Row) : Nat → Augmentation → Augmentation
  | 0, state => state
  | turns + 1, state =>
    if state.offset < data.length then
      match engine.augmentTurn convert data firstRow originalLastRow state with
      | some next => augmentLoop firstRow originalLastRow turns next
      | none => state
    else state

/-- The rows of the plan and whether any was added, or nothing for a plan that is not augmented. The
conversion to the debugger's register numbers is missing when there is no register context.
-/
def augmentUnwindPlanFromCallSite (convert : Option (Nat → Nat)) (rowList : List Row) : Option (Bool × List Row) :=
  match convert, rowList, rowList.getLast? with
  | some convert, firstRow :: _ :: _, some originalLastRow =>
    if firstRow.offset ≠ 0 then none
    else if convert firstRow.cfaValue.getRegisterNumber ≠ engine.lldbSpRegnum ∨
        firstRow.cfaValue.getOffset ≠ engine.wordsize then none
    else
      let state := engine.augmentLoop convert data firstRow originalLastRow data.length
        { offset := 0, rowId := 1, rowList := rowList, row := firstRow, reinstateUnwindState := false,
          unwindPlanUpdated := false }
      some (state.unwindPlanUpdated, state.rowList)
  | _, _, _ => none

end X86AssemblyInspectionEngine

end Lldb
