import Lldb.Symbol.CallFrameMachine

/-! The rows of a plan against the machine: for which FDEs the row found for an offset has the
machine's rules there.
-/

set_option autoImplicit false

namespace Lldb

open Library DWARFCallFrameInfo Option List

/-! One row. -/

variable (row : Row)

theorem Row.rules_setRegisterInfo (regNum : Nat) (location : RegisterLocation) :
    (row.setRegisterInfo regNum location).rules = row.rules.setRegister regNum location := rfl

theorem Row.rules_setCFAValue (value : CFAValue) : (row.setCFAValue value).rules = row.rules.setCFA value := rfl

variable {rules : CfaRules} {instruction : FrameInstruction} {last : CfaMachine}
    {instructions : List FrameInstruction} {limit : Nat}

theorem setRegister_inj {regNum : Nat} {location other : RegisterLocation} :
    rules.setRegister regNum location = rules.setRegister regNum other ↔ location = other := by
  constructor
  · intro same
    have at_ := congrFun (congrArg CfaRules.registers same) regNum
    simpa [CfaRules.setRegister] using at_
  · intro same
    rw [same]

theorem setCFA_inj {value other : CFAValue} : rules.setCFA value = rules.setCFA other ↔ value = other := by
  constructor
  · intro same
    exact congrArg CfaRules.cfa same
  · intro same
    rw [same]

theorem int32_eq_iff (value : Int) : int32 value = value ↔ FitsInt32 value := by
  unfold int32 FitsInt32 Int.bmod
  simp only [Nat.cast_pow]
  split <;> omega

theorem stored_eq_iff (block : ExprBlock) : block.stored = block.expr ↔ block.bytes.length < 2 ^ 16 := by
  simp only [ExprBlock.stored, ExprBlock.expr, DWARFExpr.mk.injEq, true_and]
  omega

theorem atCFAPlusOffset_iff (regNum : Nat) (value : Int) :
    (row.setRegisterInfo regNum (.atCFAPlusOffset (int32 value))).rules =
      row.rules.setRegister regNum (.atCFAPlusOffset value) ↔ FitsInt32 value := by
  simp [Row.rules_setRegisterInfo, setRegister_inj, int32_eq_iff]

theorem isRegisterPlusOffset_iff (regNum : Nat) (value : Int) :
    (row.setCFAValue (.isRegisterPlusOffset regNum (int32 value))).rules =
      row.rules.setCFA (.isRegisterPlusOffset regNum value) ↔ FitsInt32 value := by
  simp [Row.rules_setCFAValue, setCFA_inj, int32_eq_iff]

theorem keepsRegister_iff {row : Row} {value : Int} (step : (match row.rules.cfa with
      | .isRegisterPlusOffset old _ => some (row.rules.setCFA (.isRegisterPlusOffset old value))
      | .unspecified | .isRegisterDereferenced _ | .isDWARFExpression _ => none) = some rules) :
    (row.setCFAValue (.isRegisterPlusOffset row.cfaValue.getRegisterNumber (int32 value))).rules = rules ↔
      FitsInt32 value := by
  cases old : row.cfaValue with
  | isRegisterPlusOffset regNum opOffset =>
    simp only [Row.rules, old, Option.some.injEq] at step
    rw [← step]
    exact isRegisterPlusOffset_iff row regNum value
  | unspecified | isRegisterDereferenced _ | isDWARFExpression _ => simp [Row.rules, old] at step

theorem RowInstruction.apply_rules_iff {dataAlign : Int} {row : Row} {instruction : RowInstruction}
    (step : instruction.step dataAlign row.rules = some rules) :
    (instruction.apply dataAlign row).rules = rules ↔ instruction.Fits dataAlign := by
  cases instruction with
  | nop | undefined _ | sameValue _ | register _ _ => exact iff_of_true (Option.some.inj step) trivial
  | offset regNum factored =>
    rw [← Option.some.inj step]
    exact atCFAPlusOffset_iff row regNum.val _
  | offsetExtended reg factored =>
    rw [← Option.some.inj step]
    exact atCFAPlusOffset_iff row reg.regNum _
  | offsetExtendedSf reg factored =>
    rw [← Option.some.inj step]
    exact atCFAPlusOffset_iff row reg.regNum _
  | defCfa reg opOffset =>
    rw [← Option.some.inj step]
    exact isRegisterPlusOffset_iff row reg.regNum _
  | defCfaSf reg factored =>
    rw [← Option.some.inj step]
    exact isRegisterPlusOffset_iff row reg.regNum _
  | defCfaRegister reg =>
    refine iff_of_true ?_ trivial
    cases old : row.cfaValue with
    | isRegisterPlusOffset regNum opOffset =>
      simp only [RowInstruction.step, Row.rules, old, Option.some.injEq] at step
      rw [← step]
      simp only [apply, old]
      rfl
    | unspecified | isRegisterDereferenced _ | isDWARFExpression _ => simp [RowInstruction.step, Row.rules, old] at step
  | defCfaOffset opOffset => exact keepsRegister_iff step
  | defCfaOffsetSf factored => exact keepsRegister_iff step
  | defCfaExpression block =>
    rw [← Option.some.inj step, apply, Row.rules_setCFAValue, setCFA_inj, CFAValue.isDWARFExpression.injEq, stored_eq_iff]
    rfl
  | expression reg block =>
    rw [← Option.some.inj step, apply, Row.rules_setRegisterInfo, setRegister_inj,
      RegisterLocation.atDWARFExpression.injEq, stored_eq_iff]
    rfl
  | valExpression reg block =>
    rw [← Option.some.inj step, apply, Row.rules_setRegisterInfo, setRegister_inj,
      RegisterLocation.isDWARFExpression.injEq, stored_eq_iff]
    rfl

/-! The whole state. -/

def FirstRow (rowList : List Row) (location : Nat) (first : Option CfaRules) : Prop :=
  match rowList with
  | [] => location = 0 ∧ first = none
  | row :: rest => row.offset = 0 ∧ (∀ other ∈ rest, 0 < other.offset) ∧ first = some row.rules

/-- The current row is at the machine's location, and the rows of the plan are not behind it. -/
structure PlanLocated (state : PlanState) (machine : CfaMachine) : Prop where
  location : state.row.offset = machine.location
  ordered : ∀ other ∈ state.rowList, other.offset ≤ state.row.offset

structure PlanSimulates (state : PlanState) (machine : CfaMachine) (first : Option CfaRules) : Prop where
  rules : state.row.rules = machine.rules
  saved : state.stack.map Row.rules = machine.saved
  first : FirstRow state.rowList state.row.offset first

theorem appendRow_cons (first second : Row) (rest : List Row) (row : Row) :
    UnwindPlan.appendRow (first :: second :: rest) row = first :: UnwindPlan.appendRow (second :: rest) row := by
  obtain ⟨last, found⟩ : ∃ last, (second :: rest).getLast? = some last := ⟨_, getLast?_eq_some_getLast (by simp)⟩
  unfold UnwindPlan.appendRow
  rw [getLast?_cons_cons, found]
  simp only
  split <;> rfl

theorem FirstRow.appendRow {rowList : List Row} {row : Row} {first : Option CfaRules}
    (holds : FirstRow rowList row.offset first) (ordered : ∀ other ∈ rowList, other.offset ≤ row.offset) (next : Nat) :
    FirstRow (UnwindPlan.appendRow rowList row) next (if row.offset = 0 then some row.rules else first) := by
  cases rowList with
  | nil =>
    rw [if_pos holds.1]
    exact ⟨holds.1, by simp, rfl⟩
  | cons head rest =>
    obtain ⟨zero, later, known⟩ := holds
    cases rest with
    | nil =>
      by_cases here : row.offset = 0
      · rw [UnwindPlan.appendRow, getLast?_singleton]
        simp only [zero, here]
        exact ⟨here, by simp, rfl⟩
      · have apart : head.offset ≠ row.offset := by omega
        rw [if_neg here, UnwindPlan.appendRow, getLast?_singleton]
        simp only [if_pos apart]
        exact ⟨zero, by simpa using pos_of_ne_zero here, known⟩
    | cons second rest =>
      have positive : 0 < row.offset := by
        have before := ordered second (by simp)
        have after := later second (by simp)
        omega
      rw [appendRow_cons, if_neg (by omega)]
      refine ⟨zero, ?_, known⟩
      intro other member
      rcases UnwindPlan.mem_appendRow member with old | new
      · exact later other old
      · rwa [new]

theorem FirstRow.registers {rowList : List Row} {location : Nat} {first : Option CfaRules}
    (holds : FirstRow rowList location first) (regNum : Nat) :
    (rowList.head?.bind fun row => row.getRegisterInfo regNum) = first.bind fun first => first.registers regNum := by
  cases rowList with
  | nil =>
    rw [holds.2]
    rfl
  | cons head rest =>
    rw [holds.2.2]
    rfl

theorem restore_eq (state : PlanState) (regNum : Nat) :
    state.restore regNum = match state.rowList.head?.bind fun row => row.getRegisterInfo regNum with
      | none => state
      | some location => { state with row := state.row.setRegisterInfo regNum location } := by
  unfold PlanState.restore
  cases state.rowList.head? <;> rfl

theorem restore_eq_iff {other : CfaRules} {initial : CfaRules} {regNum : Nat} {location : Option RegisterLocation}
    (made : other = { rules with registers := Function.update rules.registers regNum location }) :
    other = rules.restore initial regNum ↔ initial.registers regNum = location := by
  subst made
  constructor
  · intro same
    have at_ := congrFun (congrArg CfaRules.registers same) regNum
    simpa [CfaRules.restore] using at_.symm
  · intro same
    rw [CfaRules.restore, same]

/-- The register is restored exactly when the first row, or the current one, has the initial rule. -/
theorem restore_rules_iff {state : PlanState} {first : Option CfaRules} (initial : CfaRules)
    (holds : FirstRow state.rowList state.row.offset first) (regNum : Nat) :
    (state.restore regNum).row.rules = state.row.rules.restore initial regNum ↔
      RestoresInitial initial first state.row.rules regNum := by
  rw [restore_eq, RestoresInitial, ← holds.registers regNum]
  cases state.rowList.head?.bind fun row => row.getRegisterInfo regNum with
  | none =>
    have kept : state.row.rules = { state.row.rules with
        registers := Function.update state.row.rules.registers regNum (state.row.rules.registers regNum) } := by
      rw [Function.update_eq_self]
    exact (restore_eq_iff kept).trans eq_comm
  | some location => exact restore_eq_iff rfl

theorem restore_others (state : PlanState) (regNum : Nat) : (state.restore regNum).row.offset = state.row.offset ∧
    (state.restore regNum).rowList = state.rowList ∧ (state.restore regNum).stack = state.stack := by
  rw [restore_eq]
  split <;> exact ⟨rfl, rfl, rfl⟩

/-! One instruction. -/

variable {context : CfaContext} {state : PlanState} {machine next : CfaMachine} {first : Option CfaRules}

def applyTo (context : CfaContext) (state : PlanState) (instruction : FrameInstruction) : PlanState :=
  instruction.apply context.codeAlign context.dataAlign state

theorem CfaMachine.step_delta (step : machine.step context instruction = some next) :
    next.location = machine.location + instruction.delta.getD 0 * context.codeAlign := by
  cases instruction with
  | row inner =>
    obtain ⟨rules, -, rfl⟩ := map_eq_some_iff.mp step
    simp [FrameInstruction.delta]
  | restoreState =>
    simp only [CfaMachine.step] at step
    split at step
    · exact absurd step (by simp)
    · rw [← Option.some.inj step]
      simp [FrameInstruction.delta]
  | _ =>
    rw [← Option.some.inj step]
    simp [FrameInstruction.delta, CfaMachine.advance]

theorem apply_advance (context : CfaContext) (state : PlanState) (machine : CfaMachine) {delta : Nat} (advances : instruction.delta = some delta) :
    applyTo context state instruction = state.advance context.codeAlign delta ∧
      machine.step context instruction = some (machine.advance context delta) := by
  cases instruction <;> simp only [FrameInstruction.delta, Option.some.injEq, reduceCtorEq] at advances <;>
    exact advances ▸ ⟨rfl, rfl⟩

theorem apply_keeps (context : CfaContext) (state : PlanState) (stays : instruction.delta = none) :
    (applyTo context state instruction).rowList = state.rowList ∧
      (applyTo context state instruction).row.offset = state.row.offset := by
  cases instruction with
  | row inner => exact ⟨rfl, by cases inner <;> rfl⟩
  | restore regNum => exact ⟨(restore_others state regNum.val).2.1, (restore_others state regNum.val).1⟩
  | restoreExtended reg => exact ⟨(restore_others state reg.regNum).2.1, (restore_others state reg.regNum).1⟩
  | rememberState => exact ⟨rfl, rfl⟩
  | restoreState =>
    simp only [applyTo, FrameInstruction.apply, PlanState.restoreState]
    split <;> exact ⟨rfl, rfl⟩
  | _ => simp [FrameInstruction.delta] at stays

theorem PlanLocated.step (located : PlanLocated state machine) {instruction : FrameInstruction}
    (step : machine.step context instruction = some next) (narrow : next.location < 2 ^ 32) :
    PlanLocated (applyTo context state instruction) next := by
  have moved := CfaMachine.step_delta step
  cases advances : instruction.delta with
  | none =>
    obtain ⟨rows, offset⟩ := apply_keeps context state advances
    rw [advances, getD_none, zero_mul, add_zero] at moved
    exact ⟨by rw [offset, moved, located.location], by rw [rows, offset]; exact located.ordered⟩
  | some delta =>
    obtain ⟨same, -⟩ := apply_advance context state machine advances
    rw [advances, getD_some] at moved
    have offset : (applyTo context state instruction).row.offset = next.location := by
      have before := located.location
      rw [same]
      simp only [PlanState.advance, Row.slideOffset, uint32]
      omega
    refine ⟨offset, ?_⟩
    intro other member
    rw [same] at member
    have before := located.location
    rcases UnwindPlan.mem_appendRow member with old | new
    · have bound := located.ordered other old
      omega
    · rw [new]
      omega

theorem PlanSimulates.rules_iff (simulates : PlanSimulates state machine first)
    (step : machine.step context instruction = some next) :
    (applyTo context state instruction).row.rules = next.rules ↔ instruction.Exact context first machine.rules := by
  cases instruction with
  | row inner =>
    obtain ⟨rules, meaning, rfl⟩ := map_eq_some_iff.mp step
    rw [← simulates.rules] at meaning
    exact RowInstruction.apply_rules_iff meaning
  | restore regNum =>
    rw [← Option.some.inj step, ← simulates.rules]
    exact restore_rules_iff context.initial simulates.first regNum.val
  | restoreExtended reg =>
    rw [← Option.some.inj step, ← simulates.rules]
    exact restore_rules_iff context.initial simulates.first reg.regNum
  | restoreState =>
    refine iff_of_true ?_ trivial
    have saved := simulates.saved
    simp only [applyTo, FrameInstruction.apply, PlanState.restoreState]
    cases stack : state.stack with
    | nil =>
      rw [stack] at saved
      simp [CfaMachine.step, ← saved] at step
    | cons row rest =>
      rw [stack] at saved
      simp only [CfaMachine.step, ← saved, map_cons, Option.some.injEq] at step
      rw [← step]
      rfl
  | _ =>
    refine iff_of_true ?_ trivial
    rw [← Option.some.inj step]
    exact simulates.rules

theorem PlanSimulates.saved_step (simulates : PlanSimulates state machine first)
    (step : machine.step context instruction = some next) :
    (applyTo context state instruction).stack.map Row.rules = next.saved := by
  have saved := simulates.saved
  cases instruction with
  | row inner =>
    obtain ⟨rules, -, rfl⟩ := map_eq_some_iff.mp step
    exact saved
  | restore regNum =>
    rw [← Option.some.inj step, applyTo, FrameInstruction.apply, (restore_others state regNum.val).2.2]
    exact saved
  | restoreExtended reg =>
    rw [← Option.some.inj step, applyTo, FrameInstruction.apply, (restore_others state reg.regNum).2.2]
    exact saved
  | rememberState =>
    rw [← Option.some.inj step, ← saved, ← simulates.rules]
    rfl
  | restoreState =>
    simp only [applyTo, FrameInstruction.apply, PlanState.restoreState]
    cases stack : state.stack with
    | nil =>
      rw [stack] at saved
      simp [CfaMachine.step, ← saved] at step
    | cons row rest =>
      rw [stack] at saved
      simp only [CfaMachine.step, ← saved, map_cons, Option.some.injEq] at step
      rw [← step]
  | _ =>
    rw [← Option.some.inj step]
    exact saved

theorem PlanSimulates.first_step (located : PlanLocated state machine) (simulates : PlanSimulates state machine first)
    (instruction : FrameInstruction) :
    FirstRow (applyTo context state instruction).rowList (applyTo context state instruction).row.offset
      (firstRow first machine instruction) := by
  unfold firstRow
  cases advances : instruction.delta with
  | none =>
    obtain ⟨rows, offset⟩ := apply_keeps context state advances
    rw [rows, offset]
    exact simulates.first
  | some delta =>
    obtain ⟨same, -⟩ := apply_advance context state machine advances
    have appended := simulates.first.appendRow located.ordered (applyTo context state instruction).row.offset
    rw [located.location, simulates.rules] at appended
    simp only [isSome_some, true_and]
    rw [same] at appended ⊢
    exact appended

theorem PlanSimulates.step (located : PlanLocated state machine) (simulates : PlanSimulates state machine first)
    {instruction : FrameInstruction} (step : machine.step context instruction = some next)
    (exact_ : instruction.Exact context first machine.rules) :
    PlanSimulates (applyTo context state instruction) next (firstRow first machine instruction) :=
  ⟨(simulates.rules_iff step).mpr exact_, simulates.saved_step step, simulates.first_step located instruction⟩

/-! All instructions. -/

def foundRules (state : PlanState) (offset : Nat) : Option CfaRules :=
  (UnwindPlan.bestRow offset none (UnwindPlan.appendRow state.rowList state.row)).map Row.rules

theorem foundRules_eq (located : PlanLocated state machine) (offset : Nat) :
    foundRules state offset = if machine.location ≤ offset then some state.row.rules
      else (UnwindPlan.bestRow offset none state.rowList).map Row.rules := by
  rw [foundRules, UnwindPlan.bestRow_appendRow offset located.ordered, located.location]
  split <;> rfl

theorem CfaMachine.run_cons {rest : List FrameInstruction}
    (run : machine.run context (instruction :: rest) = some last) :
    ∃ next, machine.step context instruction = some next ∧ next.run context rest = some last := by
  exact bind_eq_some_iff.mp run

theorem CfaMachine.run_location
    (run : machine.run context instructions = some last) : machine.location ≤ last.location := by
  induction instructions generalizing machine with
  | nil => rw [Option.some.inj run]
  | cons instruction rest ih =>
    obtain ⟨next, step, later⟩ := CfaMachine.run_cons run
    have moved := CfaMachine.step_delta step
    have bound := ih later
    omega

theorem foundRules_passed {offset : Nat}
    (located : PlanLocated state machine) (run : machine.run context instructions = some last) (narrow : last.location < 2 ^ 32)
    (passed : offset < machine.location) :
    foundRules (applyAll context.codeAlign context.dataAlign state instructions) offset =
      (UnwindPlan.bestRow offset none state.rowList).map Row.rules := by
  induction instructions generalizing state machine with
  | nil =>
    have same := foundRules_eq located offset
    rwa [if_neg (by omega)] at same
  | cons instruction rest ih =>
    obtain ⟨next, step, later⟩ := CfaMachine.run_cons run
    have moved := CfaMachine.step_delta step
    have bound := CfaMachine.run_location later
    have settled := ih (located.step step (by omega)) later (by omega)
    change foundRules (applyAll _ _ (applyTo context state instruction) rest) offset = _
    rw [settled]
    cases advances : instruction.delta with
    | none => rw [(apply_keeps _ _ advances).1]
    | some delta =>
      rw [(apply_advance context state machine advances).1]
      have same := foundRules_eq located offset
      rw [if_neg (by omega)] at same
      exact same

theorem foundRules_rulesAt {offset : Nat}
    (located : PlanLocated state machine) (simulates : PlanSimulates state machine first)
    (run : machine.run context instructions = some last) (narrow : last.location < 2 ^ 32)
    (faithful : FaithfulRun context limit first machine instructions) (inside : offset < limit)
    (reached : machine.location ≤ offset) :
    foundRules (applyAll context.codeAlign context.dataAlign state instructions) offset =
      machine.rulesAt context offset instructions := by
  induction instructions generalizing state machine first with
  | nil =>
    have same := foundRules_eq located offset
    rw [if_pos reached, simulates.rules] at same
    exact same
  | cons instruction rest ih =>
    obtain ⟨next, step, later⟩ := CfaMachine.run_cons run
    obtain ⟨exact_, onward⟩ := faithful
    have bound := CfaMachine.run_location later
    have locatedNext := located.step step (by omega)
    have simulatesNext := simulates.step located step (exact_ (by omega))
    change foundRules (applyAll _ _ (applyTo context state instruction) rest) offset = _
    rw [CfaMachine.rulesAt, step, bind_eq_bind, bind_some]
    by_cases passed : offset < next.location
    · rw [if_pos passed, foundRules_passed locatedNext later narrow passed]
      cases advances : instruction.delta with
      | none =>
        have moved := CfaMachine.step_delta step
        rw [advances, getD_none] at moved
        omega
      | some delta =>
        rw [(apply_advance context state machine advances).1]
        have same := foundRules_eq located offset
        rw [if_pos reached, simulates.rules] at same
        exact same
    · rw [if_neg passed]
      exact ih locatedNext simulatesNext later (onward next step) (by omega)

theorem faithful_beyond (first : Option CfaRules) (instructions : List FrameInstruction)
    (beyond : limit ≤ machine.location) : FaithfulRun context limit first machine instructions := by
  induction instructions generalizing machine first with
  | nil => trivial
  | cons instruction rest ih =>
    refine ⟨fun inside => absurd inside (by omega), fun next step => ih _ ?_⟩
    have moved := CfaMachine.step_delta step
    omega

theorem FaithfulRun.take (faithful : FaithfulRun context limit first machine instructions) (count : Nat) :
    FaithfulRun context limit first machine (instructions.take count) := by
  induction count generalizing machine first instructions with
  | zero => trivial
  | succ count ih =>
    cases instructions with
    | nil => trivial
    | cons instruction rest => exact ⟨faithful.1, fun next step => ih (faithful.2 next step)⟩

theorem CfaMachine.run_take (run : machine.run context instructions = some last) (count : Nat) :
    ∃ middle, machine.run context (instructions.take count) = some middle ∧ middle.location ≤ last.location := by
  induction count generalizing machine instructions with
  | zero => exact ⟨machine, rfl, CfaMachine.run_location run⟩
  | succ count ih =>
    cases instructions with
    | nil => exact ⟨last, run, le_rfl⟩
    | cons instruction rest =>
      obtain ⟨next, step, later⟩ := CfaMachine.run_cons run
      obtain ⟨middle, runs, bound⟩ := ih later
      refine ⟨middle, ?_, bound⟩
      simp only [take_succ_cons, CfaMachine.run, foldlM_cons, step]
      exact runs

/-- The rules found from the machine's location on, below the limit, are the machine's. -/
def RowsAgree (context : CfaContext) (limit : Nat) (state : PlanState) (machine : CfaMachine)
    (instructions : List FrameInstruction) : Prop :=
  ∀ offset, machine.location ≤ offset → offset < limit →
    foundRules (applyAll context.codeAlign context.dataAlign state instructions) offset = machine.rulesAt context offset instructions

variable (located : PlanLocated state machine)
include located

theorem exact_of_agrees
    (simulates : PlanSimulates state machine first) (step : machine.step context instruction = some next)
    (narrow : next.location < 2 ^ 32) (agrees : RowsAgree context limit state machine [instruction])
    (inside : machine.location < limit) : instruction.Exact context first machine.rules := by
  cases advances : instruction.delta with
  | none =>
    have moved := CfaMachine.step_delta step
    rw [advances, getD_none] at moved
    have same := agrees machine.location le_rfl inside
    rw [CfaMachine.rulesAt, step, bind_eq_bind, bind_some, if_neg (by omega)] at same
    change foundRules (applyTo context state instruction) machine.location = some next.rules at same
    rw [foundRules_eq (located.step step narrow), if_pos (by omega), Option.some.injEq] at same
    exact (simulates.rules_iff step).mp same
  | some delta => cases instruction <;> simp [FrameInstruction.delta] at advances <;> trivial

theorem faithful_of_agrees (simulates : PlanSimulates state machine first)
    (run : machine.run context instructions = some last) (narrow : last.location < 2 ^ 32)
    (agrees : ∀ count ≤ instructions.length, RowsAgree context limit state machine (instructions.take count)) :
    FaithfulRun context limit first machine instructions := by
  induction instructions generalizing state machine first with
  | nil => trivial
  | cons instruction rest ih =>
    by_cases inside : machine.location < limit
    · obtain ⟨next, step, later⟩ := CfaMachine.run_cons run
      have bound := CfaMachine.run_location later
      have single : RowsAgree context limit state machine [instruction] := agrees 1 (by simp)
      have exact_ := exact_of_agrees located simulates step (by omega) single inside
      refine ⟨fun _ => exact_, ?_⟩
      intro other same
      rw [step, Option.some.injEq] at same
      subst same
      refine ih (located.step step (by omega)) (simulates.step located step exact_) later ?_
      intro count within offset reached below
      have moved := CfaMachine.step_delta step
      have whole := agrees (count + 1) (by simpa using within) offset (by omega) below
      rw [take_succ_cons, CfaMachine.rulesAt, step, bind_eq_bind, bind_some, if_neg (by omega)] at whole
      exact whole
    · exact faithful_beyond first _ (by omega)

/-- All prefixes of the instructions agree with the machine exactly when all of them are exact. -/
theorem agrees_iff (simulates : PlanSimulates state machine first)
    (run : machine.run context instructions = some last) (narrow : last.location < 2 ^ 32) :
    (∀ count ≤ instructions.length, RowsAgree context limit state machine (instructions.take count)) ↔
      FaithfulRun context limit first machine instructions := by
  constructor
  · exact faithful_of_agrees located simulates run narrow
  · intro faithful count _ offset reached inside
    obtain ⟨middle, runs, bound⟩ := CfaMachine.run_take run count
    exact foundRules_rulesAt located simulates runs (by omega) (faithful.take count) inside reached

end Lldb
