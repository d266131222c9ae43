import Lldb.Expression.EvaluateSteps
import Lldb.Library.Rounds

/-! Runs of the evaluation over any bytes: what it takes to end, and to stay within the stack and the buffer. -/

set_option autoImplicit false

namespace Lldb.Evaluate

open Library

namespace Environment

def Outcome.Faultless : Outcome → Prop
  | .stopped (.fault _) => False
  | _ => True

variable (env : Environment)

def Starts : Prop :=
  env.opcodesLength ≠ 0 ∧ env.opcodes.validOffsetForDataOfSize env.opcodesOffset env.opcodesLength = true

def atOperands (state : EvaluateState) : EvaluateState := { state with offset := state.offset + 1 }

def opcodeAt (state : EvaluateState) : Nat := env.fixedValue 1 state.offset

/-- The next opcode takes the back of an empty stack, or copies more than there is room for. -/
def FaultsNext (state : EvaluateState) : Prop := env.Faults (env.opcodeAt state) (atOperands state)

/-- The next opcode is a branch that is taken to itself, or to what is before it. -/
def BranchesBack (state : EvaluateState) : Prop :=
  env.Branches (env.opcodeAt state) (atOperands state) ∧
    env.Within (env.branchTarget (state.offset + 1)) ∧ env.branchTarget (state.offset + 1) ≤ state.offset

def rounds : Rounds EvaluateState where
  goesOn state := env.goesOn state && (env.evaluateNext state).toOption.isSome
  next state := (env.evaluateNext state).toOption.map Prod.snd

def ReturnsSafely : Prop := ∃ fuel outcome, env.evaluate fuel = some outcome ∧ outcome.Faultless

/-- The opcodes that could fault do not, and from some state on every branch goes ahead. -/
structure RunsSafely : Prop where
  safe : ∀ state, env.rounds.Reaches env.start state → env.goesOn state = true → ¬ env.FaultsNext state
  ahead : ∃ late, env.rounds.Reaches env.start late ∧
    ∀ state, env.rounds.Reaches late state → env.goesOn state = true → ¬ env.BranchesBack state

variable {env} {state after : EvaluateState}

theorem evaluateNext_eq (goesOn : env.goesOn state = true) :
    env.evaluateNext state = env.evaluateOpcode (env.opcodeAt state) (atOperands state) := by
  have valid : env.opcodes.validOffsetForDataOfSize state.offset 1 = true := by
    have inside := of_decide_eq_true (Bool.and_eq_true_iff.mp goesOn).1
    exact decide_eq_true (by omega)
  have read : env.getMaxU64 1 state = .ok (env.opcodeAt state, atOperands state) := by
    change Except.ok (((env.opcodes.getMaxU64 1 state.offset).getD (0, state.offset)).1,
      { state with offset := ((env.opcodes.getMaxU64 1 state.offset).getD (0, state.offset)).2 }) = _
    rw [getMaxU64_eq, fixedEnd, if_pos valid]
    rfl
  change (env.getMaxU64 1 state).bind (fun read => env.evaluateOpcode read.1 read.2) = _
  rw [read]
  rfl

theorem round_iff : env.rounds.Round state after ↔
    env.goesOn state = true ∧ env.evaluateNext state = .ok ((), after) := by
  unfold Rounds.Round rounds
  dsimp only
  rw [Bool.and_eq_true, and_assoc]
  apply and_congr_right
  intro _
  cases env.evaluateNext state with
  | ok read => simp [Except.toOption, Prod.ext_iff]
  | error stop => simp [Except.toOption]

theorem isSome_evaluateLoop (fuel : Nat) (state : EvaluateState) :
    (env.evaluateLoop fuel state).isSome = env.rounds.ends fuel state := by
  induction fuel generalizing state with
  | zero => rfl
  | succ fuel ih =>
    rw [Rounds.ends_succ, evaluateLoop]
    cases goesOn : env.goesOn state with
    | false => simp [rounds, goesOn]
    | true =>
      cases is : env.evaluateNext state with
      | ok read => simp [rounds, goesOn, is, Except.toOption, ih]
      | error stop => simp [rounds, is, Except.toOption]

theorem faultless_iff {fuel : Nat} {outcome : Outcome} (ends : env.evaluateLoop fuel state = some outcome) :
    outcome.Faultless ↔
      ∀ reached, env.rounds.Reaches state reached → env.goesOn reached = true → ¬ env.FaultsNext reached := by
  induction fuel generalizing state with
  | zero => cases ends
  | succ fuel ih =>
    have only : (∀ after, ¬ env.rounds.Round state after) →
        ∀ reached, env.rounds.Reaches state reached → reached = state := by
      intro stays reached reaches
      rcases reaches.cases_head with same | ⟨between, first, -⟩
      · exact same.symm
      · exact absurd first (stays between)
    rw [evaluateLoop] at ends
    split at ends
    · rename_i goesOn
      cases is : env.evaluateNext state with
      | ok read =>
        rw [is] at ends
        have round : env.rounds.Round state read.2 := round_iff.mpr ⟨goesOn, is⟩
        rw [ih ends]
        constructor
        · intro safe reached reaches
          rcases reaches.cases_head with rfl | ⟨between, first, rest⟩
          · intro _ faults
            obtain ⟨fault, stopped⟩ := exists_fault faults
            rw [evaluateNext_eq goesOn, stopped] at is
            cases is
          · have same := (round_iff.mp first).2
            rw [is] at same
            cases same
            exact safe reached rest
        · exact fun safe reached reaches => safe reached (.head round reaches)
      | error stop =>
        rw [is] at ends
        cases ends
        have stays : ∀ after, ¬ env.rounds.Round state after := by
          intro after round
          have through := (round_iff.mp round).2
          rw [is] at through
          cases through
        rw [evaluateNext_eq goesOn] at is
        constructor
        · intro returns reached reaches _ faults
          rw [only stays reached reaches] at faults
          obtain ⟨fault, stopped⟩ := exists_fault faults
          rw [stopped] at is
          cases is
          exact returns
        · intro safe
          have returns := returns_of_evaluateOpcode (safe state .refl goesOn) is
          cases stop with
          | returnsFalse error => trivial
          | fault fault => exact returns
    · rename_i last
      cases ends
      have stays : ∀ after, ¬ env.rounds.Round state after := fun after round => last (round_iff.mp round).1
      constructor
      · intro _ reached reaches goesOn
        rw [only stays reached reaches] at goesOn
        exact absurd goesOn last
      · intro _
        unfold finish
        split
        · trivial
        · split <;> trivial

theorem falls_iff (round : env.rounds.Round state after) :
    env.endOffset - after.offset < env.endOffset - state.offset ↔ ¬ env.BranchesBack state := by
  obtain ⟨goesOn, is⟩ := round_iff.mp round
  rw [evaluateNext_eq goesOn] at is
  have inside : state.offset < env.endOffset := of_decide_eq_true (Bool.and_eq_true_iff.mp goesOn).2
  obtain ⟨taken, goesBy⟩ := offset_of_evaluateOpcode is
  unfold BranchesBack
  by_cases branches : env.Branches (env.opcodeAt state) (atOperands state)
  · obtain ⟨moved, within⟩ : after.offset = env.branchTarget (state.offset + 1) ∧
        env.Within (env.branchTarget (state.offset + 1)) := taken branches
    rw [and_iff_right branches, and_iff_right within]
    omega
  · have moved : after.offset = env.operandsEnd _ (state.offset + 1) := goesBy branches
    have ahead : state.offset + 1 ≤ env.operandsEnd _ (state.offset + 1) := le_operandsEnd (env.opcodeAt state) _
    exact iff_of_true (by omega) fun back => branches back.1

theorem exists_evaluateLoop_iff : (∃ fuel outcome, env.evaluateLoop fuel state = some outcome) ↔
      ∃ late, env.rounds.Reaches state late ∧
        ∀ reached, env.rounds.Reaches late reached → env.goesOn reached = true → ¬ env.BranchesBack reached := by
  have leads : ∀ reached, env.rounds.goesOn reached = true → (env.rounds.next reached).isSome = true := by
    intro reached goesOn
    rw [rounds, Option.isSome_map]
    exact (Bool.and_eq_true_iff.mp goesOn).2
  have ended : (∃ fuel outcome, env.evaluateLoop fuel state = some outcome) ↔
      ∃ fuel, env.rounds.ends fuel state = true := by
    simp only [← Option.isSome_iff_exists, isSome_evaluateLoop]
  rw [ended, Rounds.exists_ends_iff (fun reached => env.endOffset - reached.offset) leads]
  apply exists_congr
  intro late
  apply and_congr_right
  intro _
  constructor
  · intro falls reached reaches goesOn back
    obtain ⟨branches, within, -⟩ := id back
    obtain ⟨after, is, -⟩ := exists_branch branches within
    rw [← evaluateNext_eq goesOn] at is
    have round : env.rounds.Round reached after := round_iff.mpr ⟨goesOn, is⟩
    exact (falls_iff round).mp (falls reached after reaches round) back
  · intro ahead reached after reaches round
    exact (falls_iff round).mpr (ahead reached reaches (round_iff.mp round).1)

def bare (bytes : List UInt8) : Environment where
  opcodes := ⟨bytes, .little, 8⟩
  opcodesOffset := 0
  opcodesLength := bytes.length
  arithmetic := default
  hasContext := false
  process := none
  frame := none
  thread := none
  module := none
  registers := none
  regKind := 1
  dwarfUnit := none
  initialValue := none
  objectAddress := none
  resolveTyped := id
  hostByteOrder := .little
  hostMemory := fun _ => 0
  bufferAddress := 0
  overlong := fun _ => 0
  overlongSigned := fun _ => 0

def derefNine : Environment :=
  { bare [0x9c, 0x94, 9] with
    hasContext := true
    process := some ⟨.little, fun _ size => List.replicate size 0, fun _ => 0, fun _ => ""⟩
    frame := some ⟨.error none, 0x1000⟩ }

end Environment

end Lldb.Evaluate
