import Lldb.Symbol.CallFrameInstructions

/-! The machine that call frame instructions describe: a location, the rules that hold from it on,
and the saved sets of rules. Numbers are exact.
-/

set_option autoImplicit false

namespace Lldb

open Library DWARFCallFrameInfo

structure CfaRules where
  cfa : CFAValue
  registers : Nat → Option RegisterLocation

def Row.rules (row : Row) : CfaRules := ⟨row.cfaValue, row.registerLocations⟩

namespace CfaRules

def empty : CfaRules := ⟨.unspecified, fun _ => none⟩

def setRegister (rules : CfaRules) (regNum : Nat) (location : RegisterLocation) : CfaRules :=
  { rules with registers := Function.update rules.registers regNum (some location) }

def setCFA (rules : CfaRules) (value : CFAValue) : CfaRules := { rules with cfa := value }

/-- A register gets back the rule that the initial rules have for it, or none. -/
def restore (rules initial : CfaRules) (regNum : Nat) : CfaRules :=
  { rules with registers := Function.update rules.registers regNum (initial.registers regNum) }

end CfaRules

def ExprBlock.expr (block : ExprBlock) : DWARFExpr := ⟨block.bytes, block.bytes.length⟩

/-- The rules after an instruction; it has none when there is no register or offset to keep. -/
def RowInstruction.step (dataAlign : Int) (rules : CfaRules) : RowInstruction → Option CfaRules
  | nop => some rules
  | offset regNum factored => some (rules.setRegister regNum.val (.atCFAPlusOffset (factored.unsigned * dataAlign)))
  | offsetExtended reg factored =>
    some (rules.setRegister reg.regNum (.atCFAPlusOffset (factored.unsigned * dataAlign)))
  | undefined reg => some (rules.setRegister reg.regNum .undefined)
  | sameValue reg => some (rules.setRegister reg.regNum .same)
  | .register reg other => some (rules.setRegister reg.regNum (.inOtherRegister other.regNum))
  | defCfa reg opOffset => some (rules.setCFA (.isRegisterPlusOffset reg.regNum opOffset.unsigned))
  | defCfaRegister reg =>
    match rules.cfa with
    | .isRegisterPlusOffset _ old => some (rules.setCFA (.isRegisterPlusOffset reg.regNum old))
    | .unspecified | .isRegisterDereferenced _ | .isDWARFExpression _ => none
  | defCfaOffset opOffset =>
    match rules.cfa with
    | .isRegisterPlusOffset old _ => some (rules.setCFA (.isRegisterPlusOffset old opOffset.unsigned))
    | .unspecified | .isRegisterDereferenced _ | .isDWARFExpression _ => none
  | defCfaExpression block => some (rules.setCFA (.isDWARFExpression block.expr))
  | expression reg block => some (rules.setRegister reg.regNum (.atDWARFExpression block.expr))
  | offsetExtendedSf reg factored =>
    some (rules.setRegister reg.regNum (.atCFAPlusOffset (factored.signed * dataAlign)))
  | defCfaSf reg factored => some (rules.setCFA (.isRegisterPlusOffset reg.regNum (factored.signed * dataAlign)))
  | defCfaOffsetSf factored =>
    match rules.cfa with
    | .isRegisterPlusOffset old _ => some (rules.setCFA (.isRegisterPlusOffset old (factored.signed * dataAlign)))
    | .unspecified | .isRegisterDereferenced _ | .isDWARFExpression _ => none
  | valExpression reg block => some (rules.setRegister reg.regNum (.isDWARFExpression block.expr))

def initialRules (dataAlign : Int) (initial : List RowInstruction) : Option CfaRules :=
  initial.foldlM (fun rules instruction => instruction.step dataAlign rules) .empty

structure CfaMachine where
  location : Nat
  rules : CfaRules
  saved : List CfaRules

structure CfaContext where
  codeAlign : Nat
  dataAlign : Int
  initial : CfaRules

namespace FrameInstruction

def delta : FrameInstruction → Option Nat
  | advanceLoc delta => some delta.val
  | advanceLoc1 delta => some delta.toNat
  | advanceLoc2 delta => some delta.toNat
  | advanceLoc4 delta => some delta.toNat
  | row _ | restore _ | restoreExtended _ | rememberState | restoreState => none

end FrameInstruction

namespace CfaMachine

def advance (context : CfaContext) (machine : CfaMachine) (delta : Nat) : CfaMachine :=
  { machine with location := machine.location + delta * context.codeAlign }

/-- One instruction; it has no meaning when there is no saved set of rules to restore. -/
def step (context : CfaContext) (machine : CfaMachine) : FrameInstruction → Option CfaMachine
  | .row instruction => (instruction.step context.dataAlign machine.rules).map fun rules => { machine with rules := rules }
  | .advanceLoc delta => some (machine.advance context delta.val)
  | .advanceLoc1 delta => some (machine.advance context delta.toNat)
  | .advanceLoc2 delta => some (machine.advance context delta.toNat)
  | .advanceLoc4 delta => some (machine.advance context delta.toNat)
  | .restore regNum => some { machine with rules := machine.rules.restore context.initial regNum.val }
  | .restoreExtended reg => some { machine with rules := machine.rules.restore context.initial reg.regNum }
  | .rememberState => some { machine with saved := machine.rules :: machine.saved }
  | .restoreState =>
    match machine.saved with
    | [] => none
    | rules :: rest => some { machine with rules := rules, saved := rest }

def run (context : CfaContext) : CfaMachine → List FrameInstruction → Option CfaMachine :=
  List.foldlM (step context)

/-- The rules at an offset into the function: those before the location passes it. -/
def rulesAt (context : CfaContext) (offset : Nat) : CfaMachine → List FrameInstruction → Option CfaRules
  | machine, [] => some machine.rules
  | machine, instruction :: rest => do
    let next ← machine.step context instruction
    if offset < next.location then return machine.rules else rulesAt context offset next rest

def start (context : CfaContext) : CfaMachine := ⟨0, context.initial, []⟩

end CfaMachine

/-! When an instruction means the same to the plan. -/

def FitsInt32 (value : Int) : Prop := -2 ^ 31 ≤ value ∧ value < 2 ^ 31

instance (value : Int) : Decidable (FitsInt32 value) := inferInstanceAs (Decidable (_ ∧ _))

def RowInstruction.Fits (dataAlign : Int) : RowInstruction → Prop
  | offset _ factored | offsetExtended _ factored => FitsInt32 (factored.unsigned * dataAlign)
  | offsetExtendedSf _ factored | defCfaSf _ factored | defCfaOffsetSf factored => FitsInt32 (factored.signed * dataAlign)
  | defCfa _ opOffset | defCfaOffset opOffset => FitsInt32 opOffset.unsigned
  | defCfaExpression block | expression _ block | valExpression _ block => block.bytes.length < 2 ^ 16
  | nop | undefined _ | sameValue _ | .register _ _ | defCfaRegister _ => True

instance (dataAlign : Int) (instruction : RowInstruction) : Decidable (instruction.Fits dataAlign) :=
  match instruction with
  | .offset .. | .offsetExtended .. | .offsetExtendedSf .. | .defCfaSf .. | .defCfaOffsetSf _ | .defCfa ..
  | .defCfaOffset _ => inferInstanceAs (Decidable (FitsInt32 _))
  | .defCfaExpression _ | .expression .. | .valExpression .. => inferInstanceAs (Decidable (_ < _))
  | .nop | .undefined _ | .sameValue _ | .register .. | .defCfaRegister _ => inferInstanceAs (Decidable True)

/-- The first row exists and gives the register its initial rule, or it has none for the register,
which has its initial rule already. -/
def RestoresInitial (initial : CfaRules) (first : Option CfaRules) (rules : CfaRules) (regNum : Nat) : Prop :=
  match first.bind fun first => first.registers regNum with
  | some location => initial.registers regNum = some location
  | none => rules.registers regNum = initial.registers regNum

def FrameInstruction.Exact (context : CfaContext) (first : Option CfaRules) (rules : CfaRules) : FrameInstruction → Prop
  | row instruction => instruction.Fits context.dataAlign
  | restore regNum => RestoresInitial context.initial first rules regNum.val
  | restoreExtended reg => RestoresInitial context.initial first rules reg.regNum
  | advanceLoc _ | advanceLoc1 _ | advanceLoc2 _ | advanceLoc4 _ | rememberState | restoreState => True

def firstRow (first : Option CfaRules) (machine : CfaMachine) (instruction : FrameInstruction) : Option CfaRules :=
  if instruction.delta.isSome ∧ machine.location = 0 then some machine.rules else first

def FaithfulRun (context : CfaContext) (limit : Nat) : Option CfaRules → CfaMachine → List FrameInstruction → Prop
  | _, _, [] => True
  | first, machine, instruction :: rest =>
    (machine.location < limit → instruction.Exact context first machine.rules) ∧
      ∀ next, machine.step context instruction = some next →
        FaithfulRun context limit (firstRow first machine instruction) next rest

end Lldb
