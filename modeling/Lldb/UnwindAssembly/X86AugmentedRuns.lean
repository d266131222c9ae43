import Lldb.UnwindAssembly.X86AugmentedPlans

/-! Augmented plans over whole runs. -/

set_option autoImplicit false

namespace Lldb.CompiledFunction

open Library.X86 List

variable {function : CompiledFunction}

theorem augment_eq (wellFormed : function.WellFormed) : ∃ firstRow lastRow state base,
    function.rowList.getLast? = some lastRow ∧ state.offset = 0 ∧ function.Along 0 state firstRow base ∧
    firstRow ∈ function.rowList ∧ firstRow.offset = 0 ∧
    (∃ regNum, function.convert regNum = function.engine.lldbSpRegnum ∧
      firstRow.cfaValue = .isRegisterPlusOffset regNum function.engine.wordsize) ∧
    function.engine.augmentUnwindPlanFromCallSite function.data (some function.convert) function.rowList =
      some ((function.engine.augmentLoop function.convert function.data firstRow lastRow function.data.length
          state).unwindPlanUpdated,
        (function.engine.augmentLoop function.convert function.data firstRow lastRow function.data.length
          state).rowList) := by
  obtain ⟨first, second, rest, regNum, plan, atStart, value, starts⟩ := wellFormed.entry
  obtain ⟨lastRow, isLast⟩ : ∃ lastRow, (first :: second :: rest).getLast? = some lastRow :=
    ⟨_, getLast?_eq_some_getLast (cons_ne_nil first _)⟩
  have ordered := wellFormed.ordered
  rw [plan, pairwise_cons] at ordered
  have notInspected : ¬ function.Inspected 0 := fun inspected => absurd inspected.1 (by decide)
  have split : function.Split 0 1 function.rowList first first :=
    ⟨⟨[], [], second :: rest, plan, plan, by simp, by simp, by simp, fun row member => by
      have later := ordered.1 row member
      rw [show function.place 0 = 0 from rfl]
      omega⟩, le_refl 1, atStart.le, atStart.le⟩
  refine ⟨first, lastRow, ⟨0, 1, function.rowList, first, false, false⟩, first, plan ▸ isLast, rfl,
    ⟨rfl, rfl, split, rfl, .inl rfl, ?_, fun pops => notInspected pops.1⟩, split.base_mem, atStart,
    ⟨regNum, starts, value⟩, ?_⟩
  · rintro ⟨index, positive, bound, _⟩
    omega
  · unfold X86AssemblyInspectionEngine.augmentUnwindPlanFromCallSite
    rw [plan, isLast]
    simp only
    rw [if_neg (not_not.mpr atStart), if_neg]
    rw [value]
    exact fun wrong => wrong.elim (fun other => other starts) fun other => other rfl

/-! Runs. -/

/-- In a run all of whose instructions suit, the row in force before each gives the address that the
stack pointer had, one word on, when the function was entered.
-/
theorem inForce_of_suits (function : CompiledFunction) (wellFormed : function.WellFormed)
    (evaluate : DWARFExpr → function.State → Word function.size → Prop) (execution : function.Execution)
    (accurate : function.Accurate evaluate execution.states execution.last)
    (suits : ∀ index ≤ execution.last, function.Suits evaluate execution.states index ∧ function.Continues index) :
    ∃ updated rowList, function.engine.augmentUnwindPlanFromCallSite function.data (some function.convert)
        function.rowList = some (updated, rowList) ∧
      ∀ index ≤ execution.last, function.InForce evaluate execution.states rowList index := by
  obtain ⟨firstRow, lastRow, state, base, isLast, start, along, member, atStart, firstValue, augmented⟩ :=
    augment_eq wellFormed
  refine ⟨_, _, augmented, fun index bound => ?_⟩
  have right := accurate 0 (Nat.zero_le _) firstRow member atStart
  exact along.loop firstRow lastRow wellFormed accurate isLast firstValue (fun other bound _ => suits other bound)
    _ right (Nat.sub_le _ _) (Nat.zero_le index) bound (Nat.lt_of_le_of_lt bound execution.inside)

def framed : CompiledFunction where
  engine :=
    { size := .eight
      lldbRegnum := Fin.val
      lldbIpRegnum := 16
      instructionLength := fun code => if code.head? = some 0x48 then 3 else 1 }
  convert := id
  program := [.pushReg bp, .movSpBp false, .other [0x90], .popReg bp, .ret]
  rowList := [⟨0, .isRegisterPlusOffset 4 8, fun _ => none⟩, ⟨1, .isRegisterPlusOffset 4 16, fun _ => none⟩,
    ⟨4, .isRegisterPlusOffset 5 16, fun _ => none⟩]

def framedEntry : framed.State := ⟨fun _ => 0, fun _ => 0⟩

def framedPushed : framed.State := framedEntry.push 0

def framedSet : framed.State :=
  { framedPushed with regs := Function.update framedPushed.regs bp (framedPushed.regs sp) }

def framedPopped : framed.State :=
  { framedSet with
    regs := Function.update (Function.update framedSet.regs sp (framedSet.regs sp + Machine.wordBytes framed.size)) bp 0 }

theorem framed_wellFormed : framed.WellFormed where
  disassembled index instruction fetched := by
    match index, fetched with
    | 0, rfl | 1, rfl | 2, rfl | 3, rfl | 4, rfl => decide
    | _ + 5, fetched => cases fetched
  others bytes member := by
    have same : bytes = [0x90] := by simpa [framed] using member
    subst same
    decide
  spNumber := by decide
  fpNumber := by decide
  entry := ⟨_, _, _, 4, rfl, rfl, rfl, rfl⟩
  ordered := by simp [framed]
  placed row member := by
    simp only [framed, mem_cons, not_mem_nil, or_false] at member
    rcases member with rfl | rfl | rfl
    · exact ⟨0, by decide⟩
    · exact ⟨1, by decide⟩
    · exact ⟨2, by decide⟩
  ranged row member regNum offset value := by
    simp only [framed, mem_cons, not_mem_nil, or_false] at member
    rcases member with rfl | rfl | rfl <;> cases value <;> decide

def framedExecution : framed.Execution where
  states
    | 0 => framedEntry
    | 1 => framedPushed
    | 2 | 3 => framedSet
    | _ => framedPopped
  last := 4
  inside := by simp [framed]
  run index bound := by
    match index, bound with
    | 0, _ => exact ⟨_, rfl, rfl⟩
    | 1, _ => exact ⟨_, rfl, rfl⟩
    | 2, _ => exact ⟨_, rfl, rfl, rfl⟩
    | 3, _ => exact ⟨_, rfl, 0, by decide, rfl⟩

theorem framed_accurate : framed.Accurate (fun _ _ _ => False) framedExecution.states 4 := by
  intro index bound row member here
  simp only [framed, mem_cons, not_mem_nil, or_false] at member
  match index, bound with
  | 0, _ =>
    rcases member with rfl | rfl | rfl
    · exact ⟨sp, rfl, by decide⟩
    · exact absurd here (by decide)
    · exact absurd here (by decide)
  | 1, _ =>
    rcases member with rfl | rfl | rfl
    · exact absurd here (by decide)
    · exact ⟨sp, rfl, by decide⟩
    · exact absurd here (by decide)
  | 2, _ =>
    rcases member with rfl | rfl | rfl
    · exact absurd here (by decide)
    · exact absurd here (by decide)
    · exact ⟨bp, rfl, by decide⟩
  | 3, _ | 4, _ => rcases member with rfl | rfl | rfl <;> exact absurd here (by decide)

theorem framed_base : framed.base 3 = some ⟨4, .isRegisterPlusOffset 5 16, fun _ => none⟩ := rfl

theorem framed_own {index : Nat} (bound : index ≤ 2) : framed.Own index := by
  match index, bound with
  | 0, _ => exact ⟨_, mem_cons_self, by decide⟩
  | 1, _ => exact ⟨_, mem_cons_of_mem _ mem_cons_self, by decide⟩
  | 2, _ => exact ⟨_, mem_cons_of_mem _ (mem_cons_of_mem _ mem_cons_self), by decide⟩

theorem framed_notBased : ¬ framed.Based 3 sp := by
  rintro ⟨row, found, number⟩
  obtain rfl := Option.some.inj found
  exact absurd number (by decide)

theorem framed_pops : framed.PopsFrame 3 := by
  have based : framed.Based 3 bp := ⟨_, framed_base, by decide⟩
  refine ⟨⟨by decide, ?_, ?_⟩, based, .inl (by decide)⟩
  · rintro ⟨row, member, here⟩
    simp only [framed, mem_cons, not_mem_nil, or_false] at member
    rcases member with rfl | rfl | rfl <;> exact absurd here (by decide)
  · rintro ⟨first, positive, bound, notOwn, _, notBased⟩
    by_cases last : first = 3
    · exact notBased (last ▸ based)
    · exact notOwn (framed_own (by omega))

theorem framed_notReinstated {index : Nat} (bound : index ≤ 4) : ¬ framed.Reinstated index := by
  rintro (⟨positive, inspected, based, _⟩ | ⟨positive, inspected, _⟩)
  · by_cases last : index - 1 = 3
    · exact framed_notBased (last ▸ based)
    · exact inspected.2.1 (framed_own (by omega))
  · exact inspected.2.1 (framed_own (by omega))

theorem framed_suits (index : Nat) (bound : index ≤ 4) :
    framed.Suits (fun _ _ _ => False) framedExecution.states index ∧ framed.Continues index := by
  refine ⟨?_, fun reinstated => absurd reinstated (framed_notReinstated bound), fun earlier before =>
    framed_notReinstated (by omega)⟩
  match index, bound with
  | 0, _ | 1, _ | 2, _ => exact .own (framed_own (by decide))
  | 3, _ =>
    have notPopped : ¬ framed.PopsFrame 2 := fun pops => pops.1.2.1 (framed_own (by decide))
    exact .kept _ notPopped framed_base (fun _ _ _ _ => framed_notBased) ⟨bp, rfl, by decide⟩
  | 4, _ => exact .popped (by decide) framed_pops (by decide)

theorem inForce_of_suits_framed : ∃ updated rowList, framed.engine.augmentUnwindPlanFromCallSite framed.data (some id)
      framed.rowList = some (updated, rowList) ∧
    ∀ index ≤ 4, framed.InForce (fun _ _ _ => False) framedExecution.states rowList index :=
  inForce_of_suits framed framed_wellFormed _ framedExecution framed_accurate framed_suits

/-! Without the condition. -/

def prologueLength (program : List Instruction) : Nat :=
  (program.takeWhile fun
    | .pushReg _ | .movSpBp _ | .subSp _ => true
    | _ => false).length

def CoversPrologue (function : CompiledFunction)
    (evaluate : DWARFExpr → function.State → Word function.size → Prop) (execution : function.Execution) : Prop :=
  ∀ index ≤ execution.last, index ≤ prologueLength function.program →
    function.InForce evaluate execution.states function.rowList index

def saving : CompiledFunction where
  engine := { size := .eight, lldbRegnum := Fin.val, lldbIpRegnum := 16, instructionLength := fun _ => 1 }
  convert := id
  program := [.pushReg 3, .other [0x90], .popReg 3, .ret]
  rowList := [⟨0, .isRegisterPlusOffset 4 8, fun _ => none⟩, ⟨1, .isRegisterPlusOffset 4 16, fun _ => none⟩]

theorem saving_wellFormed : saving.WellFormed where
  disassembled index instruction fetched := by
    match index, fetched with
    | 0, rfl | 1, rfl | 2, rfl | 3, rfl => decide
    | _ + 4, fetched => cases fetched
  others bytes member := by
    have same : bytes = [0x90] := by simpa [saving] using member
    subst same
    decide
  spNumber := by decide
  fpNumber := by decide
  entry := ⟨_, _, _, 4, rfl, rfl, rfl, rfl⟩
  ordered := by simp [saving]
  placed row member := by
    simp only [saving, mem_cons, not_mem_nil, or_false] at member
    rcases member with rfl | rfl
    · exact ⟨0, by decide⟩
    · exact ⟨1, by decide⟩
  ranged row member regNum offset value := by
    simp only [saving, mem_cons, not_mem_nil, or_false] at member
    rcases member with rfl | rfl <;> cases value <;> decide

def savingEntry : saving.State := ⟨fun _ => 0, fun _ => 0⟩

def savingExecution : saving.Execution where
  states
    | 0 => savingEntry
    | _ => savingEntry.push 0
  last := 2
  inside := by simp [saving]
  run index bound := by
    match index, bound with
    | 0, _ => exact ⟨_, rfl, rfl⟩
    | 1, _ => exact ⟨_, rfl, rfl, rfl⟩

/-- At the pop the row says that it is executed already. -/
theorem augmented_not_right : ¬ ∀ (function : CompiledFunction) (_ : function.WellFormed)
    (evaluate : DWARFExpr → function.State → Word function.size → Prop) (execution : function.Execution),
    function.Accurate evaluate execution.states execution.last → CoversPrologue function evaluate execution →
    ∃ updated rowList, function.engine.augmentUnwindPlanFromCallSite function.data (some function.convert)
        function.rowList = some (updated, rowList) ∧
      ∀ index ≤ execution.last, function.InForce evaluate execution.states rowList index := by
  intro claim
  have accurate : saving.Accurate (fun _ _ _ => False) savingExecution.states 2 := by
    intro index bound row member here
    simp only [saving, mem_cons, not_mem_nil, or_false] at member
    match index, bound with
    | 0, _ =>
      rcases member with rfl | rfl
      · exact ⟨sp, rfl, by decide⟩
      · exact absurd here (by decide)
    | 1, _ =>
      rcases member with rfl | rfl
      · exact absurd here (by decide)
      · exact ⟨sp, rfl, by decide⟩
    | 2, _ => rcases member with rfl | rfl <;> exact absurd here (by decide)
  have covers : CoversPrologue saving (fun _ _ _ => False) savingExecution := by
    intro index _ bound
    match index, bound with
    | 0, _ => exact ⟨_, rfl, sp, rfl, by decide⟩
    | 1, _ => exact ⟨_, rfl, sp, rfl, by decide⟩
  obtain ⟨updated, rowList, augmented, right⟩ :=
    claim saving saving_wellFormed (fun _ _ _ => False) savingExecution accurate covers
  obtain ⟨row, found, gives⟩ := right 2 (le_refl 2)
  have early : (saving.engine.augmentUnwindPlanFromCallSite saving.data (some saving.convert) saving.rowList).map
      (fun result => (UnwindPlan.bestRow 2 none result.2).map Row.cfaValue) =
        some (some (.isRegisterPlusOffset 4 8)) := by decide
  rw [augmented, Option.map_some, show UnwindPlan.bestRow 2 none rowList = some row from found] at early
  rw [Option.some.inj (Option.some.inj early), gives_sp saving_wellFormed (show saving.convert 4 = saving.engine.lldbSpRegnum from rfl)] at gives
  exact absurd gives (by decide)

end Lldb.CompiledFunction
