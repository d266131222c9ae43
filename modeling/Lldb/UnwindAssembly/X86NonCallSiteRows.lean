import Lldb.UnwindAssembly.X86StackFrameSteps

/-! The rows that the analysis appends. -/

set_option autoImplicit false

namespace Lldb

open Library.X86

namespace X86AssemblyInspectionEngine

def KeepsRow (before after : Analysis) : Prop :=
  after.rowUpdated = false → before.rowUpdated = false ∧ after.row = before.row

namespace KeepsRow

variable {before middle after : Analysis}

theorem refl (analysis : Analysis) : KeepsRow analysis analysis := fun unchanged => ⟨unchanged, rfl⟩

theorem trans (first : KeepsRow before middle) (second : KeepsRow middle after) : KeepsRow before after := by
  intro unchanged
  obtain ⟨between, same⟩ := second unchanged
  obtain ⟨started, equal⟩ := first between
  exact ⟨started, same.trans equal⟩

theorem of_updated (updated : after.rowUpdated = true) : KeepsRow before after := by
  intro unchanged
  rw [updated] at unchanged
  cases unchanged

variable (engine : X86AssemblyInspectionEngine) (analysis : Analysis)

theorem moveSp (amount : Int) : KeepsRow analysis (engine.moveSp analysis amount) := by
  unfold X86AssemblyInspectionEngine.moveSp
  dsimp only
  split
  · exact of_updated rfl
  · exact refl analysis

theorem pushRegister (machineRegno : Nat) : KeepsRow analysis (engine.pushRegister analysis machineRegno) := by
  unfold X86AssemblyInspectionEngine.pushRegister
  dsimp only
  split
  · exact of_updated rfl
  · exact moveSp engine analysis engine.wordsize

theorem settle : KeepsRow analysis (engine.settle analysis) := by
  unfold X86AssemblyInspectionEngine.settle
  split
  · exact of_updated rfl
  · exact refl analysis

theorem popRegister (machineRegno : Nat) : KeepsRow analysis (engine.popRegister analysis machineRegno) := by
  refine trans ?_ (settle engine _)
  split
  · split
    · split <;> exact of_updated rfl
    · exact refl analysis
  · exact refl analysis

theorem readAdjustment (code : List Byte) : KeepsRow analysis (engine.readAdjustment code analysis) := by
  unfold X86AssemblyInspectionEngine.readAdjustment
  split
  · exact moveSp engine analysis _
  · split
    · exact moveSp engine analysis _
    · split
      · exact moveSp engine analysis _
      · split
        · exact moveSp engine analysis _
        · split
          · exact refl analysis
          · split
            · exact of_updated rfl
            · split
              · exact moveSp engine analysis _
              · exact refl analysis

theorem readInstruction (code : List Byte) : KeepsRow analysis.turn (engine.readInstruction code analysis) := by
  unfold X86AssemblyInspectionEngine.readInstruction
  dsimp only
  split
  · exact of_updated rfl
  · split
    · exact of_updated rfl
    · split
      · exact refl analysis.turn
      · split
        · exact pushRegister engine analysis.turn _
        · split
          · exact popRegister engine analysis.turn _
          · split
            · exact moveSp engine analysis.turn _
            · split
              · exact of_updated rfl
              · split
                · exact of_updated rfl
                · exact readAdjustment engine analysis.turn code

end KeepsRow

/-- No row is changed unless the plan gets it. -/
theorem row_of_not_updated (engine : X86AssemblyInspectionEngine) (code : List Byte) (analysis : Analysis)
    (unchanged : (engine.readInstruction code analysis).rowUpdated = false) :
    (engine.readInstruction code analysis).row = analysis.row :=
  (KeepsRow.readInstruction engine analysis code unchanged).2

namespace Analysis

variable (analysis : Analysis)

theorem complete_row : analysis.complete.row = analysis.row := by
  unfold complete
  split_ifs <;> rfl

theorem complete_savedRegisters : analysis.complete.savedRegisters = analysis.savedRegisters := by
  unfold complete
  split_ifs <;> rfl

theorem complete_current : analysis.complete.currentSpBytesOffsetFromCfa = analysis.currentSpBytesOffsetFromCfa := by
  unfold complete
  split_ifs <;> rfl

end Analysis

theorem Tracks.complete {engine : X86AssemblyInspectionEngine} {cfa : Word engine.size}
    {frame : StackFrame engine.size} {regs : Register → Word engine.size} {analysis : Analysis}
    (tracks : engine.Tracks cfa frame regs analysis) : engine.Tracks cfa frame regs analysis.complete := by
  refine ⟨?_, ?_⟩
  · rw [analysis.complete_row, analysis.complete_current]
    exact tracks.stands
  · rw [analysis.complete_row, analysis.complete_savedRegisters]
    exact tracks.lists

theorem bestRow_nonCallSiteLoop (engine : X86AssemblyInspectionEngine) (data : List Byte) {place : Nat} (turns : Nat)
    {offset : Nat} (ahead : place ≤ offset) (rowList : List Row) (analysis : Analysis) :
    UnwindPlan.bestRow place none (engine.nonCallSiteLoop data turns offset rowList analysis) =
      UnwindPlan.bestRow place none rowList := by
  induction turns generalizing offset rowList analysis with
  | zero => rfl
  | succ turns ih =>
    unfold nonCallSiteLoop
    dsimp only
    split
    · split
      · rfl
      · rename_i valid
        have further : place < offset + engine.instructionLength (data.drop offset) := by omega
        split
        · rw [ih (le_of_lt further)]
          exact UnwindPlan.bestRow_appendRow_of_lt further rowList
        · exact ih (le_of_lt further) rowList _
    · rfl

end X86AssemblyInspectionEngine

end Lldb
