import Lldb.Expression.Evaluate
import Lldb.Utility.Leb128Encodings

/-! What each opcode does to the offset, and which of them touch what is not on the stack. -/

set_option autoImplicit false

namespace Lldb.Evaluate

open Library (Stoppable)
open Library.Stoppable (Leads)

def Stop.Returns : Stop → Prop
  | .returnsFalse _ => True
  | .fault _ => False

section

variable {state : EvaluateState} {stops : Stop → Prop} {α : Type}

@[simp] theorem leads_fail (text : String) (holds : α → EvaluateState → Prop) :
    Leads (fail text : Execution α) state Stop.Returns holds := trivial

@[simp] theorem returns_returnsFalse (text : Option String) : Stop.Returns (.returnsFalse text) := trivial

namespace Stack

variable {offset opPieceOffset : Nat} {top tmp pieces : Value} {rest : List Value} {error : Option String}

@[simp] theorem leads_size (holds : Nat → EvaluateState → Prop) :
    Leads size state stops holds ↔ holds state.stack.length state := Iff.rfl

@[simp] theorem leads_back (holds : Value → EvaluateState → Prop) :
    Leads back ⟨offset, top :: rest, tmp, opPieceOffset, pieces, error⟩ stops holds ↔
      holds top ⟨offset, top :: rest, tmp, opPieceOffset, pieces, error⟩ := Iff.rfl

@[simp] theorem leads_popBack (holds : Unit → EvaluateState → Prop) :
    Leads popBack ⟨offset, top :: rest, tmp, opPieceOffset, pieces, error⟩ stops holds ↔
      holds () ⟨offset, rest, tmp, opPieceOffset, pieces, error⟩ := Iff.rfl

@[simp] theorem leads_pushBack (value : Value) (holds : Unit → EvaluateState → Prop) :
    Leads (pushBack value) state stops holds ↔ holds () { state with stack := value :: state.stack } := Iff.rfl

@[simp] theorem leads_setBack (value : Value) (holds : Unit → EvaluateState → Prop) :
    Leads (setBack value) ⟨offset, top :: rest, tmp, opPieceOffset, pieces, error⟩ stops holds ↔
      holds () ⟨offset, value :: rest, tmp, opPieceOffset, pieces, error⟩ := Iff.rfl

@[simp] theorem leads_setScalar (scalar : ValueScalar) (holds : Unit → EvaluateState → Prop) :
    Leads (setScalar scalar) ⟨offset, top :: rest, tmp, opPieceOffset, pieces, error⟩ stops holds ↔
      holds () ⟨offset, { top with scalar := scalar } :: rest, tmp, opPieceOffset, pieces, error⟩ := Iff.rfl

@[simp] theorem leads_setValueType (valueType : ValueType) (holds : Unit → EvaluateState → Prop) :
    Leads (setValueType valueType) ⟨offset, top :: rest, tmp, opPieceOffset, pieces, error⟩ stops holds ↔
      holds () ⟨offset, { top with valueType := valueType } :: rest, tmp, opPieceOffset, pieces, error⟩ := Iff.rfl

@[simp] theorem leads_clearContext (holds : Unit → EvaluateState → Prop) :
    Leads clearContext ⟨offset, top :: rest, tmp, opPieceOffset, pieces, error⟩ stops holds ↔
      holds () ⟨offset, { top with contextType := false } :: rest, tmp, opPieceOffset, pieces, error⟩ := Iff.rfl

theorem leads_get {index : Nat} (inside : index < state.stack.length) (holds : Value → EvaluateState → Prop) :
    Leads (Stack.get index) state stops holds ↔ holds state.stack[state.stack.length - 1 - index] state := by
  have found : state.stack.reverse[index]? = some state.stack[state.stack.length - 1 - index] := by
    simp [List.getElem?_reverse inside]
  simp [Stack.get, Stoppable.leads_get, found]

theorem leads_set {index : Nat} (inside : index < state.stack.length) (value : Value)
    (holds : Unit → EvaluateState → Prop) :
    Leads (Stack.set index value) state stops holds ↔
      holds () { state with stack := state.stack.set (state.stack.length - 1 - index) value } := by
  rw [Stack.set, Stoppable.leads_bind, Stoppable.leads_get]
  rw [if_pos inside]
  rfl

end Stack

@[simp] theorem leads_getTmp (holds : Value → EvaluateState → Prop) :
    Leads getTmp state stops holds ↔ holds state.tmp state := Iff.rfl

@[simp] theorem leads_setTmp (value : Value) (holds : Unit → EvaluateState → Prop) :
    Leads (setTmp value) state stops holds ↔ holds () { state with tmp := value } := Iff.rfl

end

namespace Environment

variable (env : Environment)

/-! Reads. -/

/-- The offset behind an integer of fixed size, which is read only if all of it is there. -/
def fixedEnd (size offset : Nat) : Nat :=
  if env.opcodes.validOffsetForDataOfSize offset size then offset + size else offset

def fixedValue (size offset : Nat) : Nat := ((env.opcodes.getMaxU64 size offset).getD (0, offset)).1

def ulebValue (offset : Nat) : Nat := ((env.opcodes.getULEB128 offset).getD (env.overlong offset, env.skipped offset)).1

def slebValue (offset : Nat) : Int :=
  ((env.opcodes.getSLEB128 offset).getD (env.overlongSigned offset, env.skipped offset)).1

variable {env} {state : EvaluateState} {stops : Stop → Prop}

theorem getMaxU64_eq (size offset : Nat) :
    env.opcodes.getMaxU64 size offset = some (env.fixedValue size offset, env.fixedEnd size offset) := by
  obtain ⟨value, after, read⟩ := DataExtractor.exists_getMaxU64 env.opcodes size offset
  rw [fixedValue, fixedEnd, read, Option.getD_some]
  change (env.opcodes.getData size offset).bind _ = _ at read
  rw [DataExtractor.getData] at read
  split at read <;> rename_i room <;> cases read
  · rw [if_pos room]
  · rw [if_neg room]

theorem getULEB128_eq (offset : Nat) : (env.opcodes.getULEB128 offset).getD (env.overlong offset, env.skipped offset) =
      (env.ulebValue offset, env.skipped offset) := by
  unfold ulebValue
  cases read : env.opcodes.getULEB128 offset with
  | none => rfl
  | some found => exact Prod.ext rfl (DataExtractor.getULEB128_moves read)

theorem getSLEB128_eq (offset : Nat) :
    (env.opcodes.getSLEB128 offset).getD (env.overlongSigned offset, env.skipped offset) =
      (env.slebValue offset, env.skipped offset) := by
  unfold slebValue
  cases read : env.opcodes.getSLEB128 offset with
  | none => rfl
  | some found => exact Prod.ext rfl (DataExtractor.getSLEB128_moves read)

@[simp] theorem leads_getMaxU64 (size : Nat) (holds : Nat → EvaluateState → Prop) :
    Leads (env.getMaxU64 size) state stops holds ↔
      holds (env.fixedValue size state.offset) { state with offset := env.fixedEnd size state.offset } := by
  rw [getMaxU64, Stoppable.leads_bind, Stoppable.leads_get, getMaxU64_eq]
  rfl

@[simp] theorem leads_getULEB128 (holds : Nat → EvaluateState → Prop) : Leads env.getULEB128 state stops holds ↔
      holds (env.ulebValue state.offset) { state with offset := env.skipped state.offset } := by
  rw [getULEB128, Stoppable.leads_bind, Stoppable.leads_get, getULEB128_eq]
  rfl

@[simp] theorem leads_getSLEB128 (holds : Int → EvaluateState → Prop) : Leads env.getSLEB128 state stops holds ↔
      holds (env.slebValue state.offset) { state with offset := env.skipped state.offset } := by
  rw [getSLEB128, Stoppable.leads_bind, Stoppable.leads_get, getSLEB128_eq]
  rfl

theorem le_fixedEnd (size offset : Nat) : offset ≤ env.fixedEnd size offset := by
  unfold fixedEnd
  split
  · exact Nat.le_add_right _ _
  · exact le_refl _

theorem le_skipped (offset : Nat) : offset ≤ env.skipped offset := Nat.le_add_right _ _

end Environment

inductive Operands where
  | nothing
  | address
  | fixed (size : Nat)
  | leb128
  | twoLeb128s
  | block
  deriving DecidableEq, Repr

def evaluateOperands (op : Nat) : Operands :=
  match op with
  | 0x03 => .address
  | 0x08 | 0x09 | 0x15 | 0x94 => .fixed 1
  | 0x0a | 0x0b | 0x28 | 0x2f => .fixed 2
  | 0x0c | 0x0d => .fixed 4
  | 0x0e | 0x0f => .fixed 8
  | 0x10 | 0x11 | 0x23 | 0x90 | 0x91 | 0x93 | 0xfb | 0xfc => .leb128
  | 0x92 | 0x9d => .twoLeb128s
  | _ => if 0x70 ≤ op ∧ op ≤ 0x8f then .leb128 else .nothing

def Moves (program : Execution Unit) (state : EvaluateState) (offset : Nat) : Prop :=
  program.Leads state Stop.Returns fun _ after => after.offset = offset

namespace Environment

variable (env : Environment)

def operandsEnd (operands : Operands) (offset : Nat) : Nat :=
  match operands with
  | .nothing => offset
  | .address => env.fixedEnd env.opcodes.addrSize offset
  | .fixed size => env.fixedEnd size offset
  | .leb128 => env.skipped offset
  | .twoLeb128s => env.skipped (env.skipped offset)
  | .block => env.skipped offset + env.ulebValue offset

/-- More is copied from a load address than the eight bytes that there is room for. -/
def Overruns (state : EvaluateState) : Prop :=
  ∃ top rest process, state.stack = top :: rest ∧ top.valueType = .loadAddress ∧ env.hasContext = true ∧
    env.process = some process ∧
    8 < (process.read (env.uLongLong top.scalar invalidAddress) (env.fixedValue 1 state.offset)).length

variable {env} {state : EvaluateState}

/-! The opcodes one by one. The values on the stack are split as deep as an opcode asks for them. -/

open Stack

section

variable {offset opPieceOffset : Nat} {top tmp pieces : Value} {rest : List Value} {error : Option String}

theorem moves_derefLoadAddress :
    Moves env.derefLoadAddress ⟨offset, top :: rest, tmp, opPieceOffset, pieces, error⟩ offset := by
  unfold Moves derefLoadAddress
  cases env.process <;> simp

theorem leads_derefFileAddress {holds : Unit → EvaluateState → Prop}
    (onward : ∀ value, holds () ⟨offset, value :: rest, tmp, opPieceOffset, pieces, error⟩) :
    Leads env.derefFileAddress ⟨offset, top :: rest, tmp, opPieceOffset, pieces, error⟩ Stop.Returns holds := by
  unfold derefFileAddress
  cases env.module with
  | none => simp
  | some resolve =>
    cases found : resolve (env.uLongLong top.scalar invalidAddress) <;> simp [found, onward]

end

theorem moves_addr : Moves env.addr state (env.fixedEnd env.opcodes.addrSize state.offset) := by
  simp [Moves, addr]

theorem moves_deref : Moves env.deref state state.offset := by
  obtain ⟨offset, _ | ⟨top, rest⟩, tmp, opPieceOffset, pieces, error⟩ := state
  · simp [Moves, deref]
  · simp only [Moves, deref, Stoppable.leads_bind, leads_size, Stoppable.leads_ite, leads_back]
    refine ⟨fun _ => leads_fail _ _, fun _ => ?_⟩
    cases top.valueType with
    | scalar => simp
    | vector => simp
    | fileAddress =>
      rw [Stoppable.leads_bind]
      exact leads_derefFileAddress fun _ => moves_derefLoadAddress
    | loadAddress => exact moves_derefLoadAddress
    | hostAddress => simp

theorem moves_derefSize (fits : ¬ env.Overruns state) : Moves env.derefSize state (env.fixedEnd 1 state.offset) := by
  obtain ⟨offset, _ | ⟨top, rest⟩, tmp, opPieceOffset, pieces, error⟩ := state
  · simp [Moves, derefSize]
  · simp only [Moves, derefSize, Stoppable.leads_bind, leads_size, Stoppable.leads_ite, leads_getMaxU64, leads_back]
    refine ⟨fun _ => leads_fail _ _, fun _ => ?_⟩
    cases type : top.valueType with
    | scalar => simp
    | vector => simp
    | fileAddress => simp
    | hostAddress => simp
    | loadAddress =>
      unfold derefSizeLoadAddress
      cases running : env.process with
      | none => simp
      | some process =>
        simp only [Stoppable.leads_ite, Stoppable.leads_bind, leads_back, leads_setScalar, leads_clearContext]
        refine ⟨fun context => ⟨fun large => ?_, fun _ => ⟨fun _ => trivial, fun _ => leads_fail _ _⟩⟩,
          fun _ => leads_fail _ _⟩
        exact fits ⟨top, rest, process, rfl, type, context, running, large⟩

theorem moves_constant (size : Nat) (make : Nat → ValueScalar) :
    Moves (env.constant size make) state (env.fixedEnd size state.offset) := by
  simp [Moves, constant]

theorem moves_constu : Moves env.constu state (env.skipped state.offset) := by
  simp [Moves, constu]

theorem moves_consts : Moves env.consts state (env.skipped state.offset) := by
  simp [Moves, consts]

theorem moves_dup : Moves dup state state.offset := by
  obtain ⟨offset, _ | ⟨top, rest⟩, tmp, opPieceOffset, pieces, error⟩ := state <;> simp [Moves, dup]

theorem moves_drop : Moves drop state state.offset := by
  obtain ⟨offset, _ | ⟨top, rest⟩, tmp, opPieceOffset, pieces, error⟩ := state <;> simp [Moves, drop]

theorem moves_over : Moves over_ state state.offset := by
  obtain ⟨offset, _ | ⟨top, _ | ⟨second, rest⟩⟩, tmp, opPieceOffset, pieces, error⟩ := state
  · simp [Moves, over_]
  · simp [Moves, over_]
  · simp [Moves, over_, Stack.leads_get]

theorem moves_pick : Moves env.pick state (env.fixedEnd 1 state.offset) := by
  simp only [Moves, pick, Stoppable.leads_bind, leads_getMaxU64, Stoppable.leads_ite]
  refine ⟨fun inside => ?_, fun _ => leads_fail _ _⟩
  refine (Stack.leads_get ?_ _).mpr rfl
  exact inside

theorem moves_swap : Moves swap state state.offset := by
  obtain ⟨offset, _ | ⟨top, _ | ⟨second, rest⟩⟩, tmp, opPieceOffset, pieces, error⟩ := state
  · simp [Moves, swap]
  · simp [Moves, swap]
  · simp [Moves, swap, Stack.leads_get, Stack.leads_set]

theorem moves_rot : Moves rot state state.offset := by
  obtain ⟨offset, _ | ⟨top, _ | ⟨second, _ | ⟨third, rest⟩⟩⟩, tmp, opPieceOffset, pieces, error⟩ := state
  · simp [Moves, rot]
  · simp [Moves, rot]
  · simp [Moves, rot]
  · simp (disch := simp; try omega) [Moves, rot, Stack.leads_get, Stack.leads_set]

theorem moves_unary (opcode failed : String) (operation : ValueScalar → Option ValueScalar) :
    Moves (env.unary opcode failed operation) state state.offset := by
  obtain ⟨offset, _ | ⟨top, rest⟩, tmp, opPieceOffset, pieces, error⟩ := state
  · simp [Moves, unary]
  · simp only [Moves, unary, Stoppable.leads_bind, leads_size, Stoppable.leads_ite, leads_back]
    cases operation (env.resolveValue top).scalar <;> simp

variable (opcode : String)

theorem moves_binary (operation : ValueScalar → ValueScalar → ValueScalar) :
    Moves (env.binary opcode operation) state state.offset := by
  obtain ⟨offset, _ | ⟨top, _ | ⟨second, rest⟩⟩, tmp, opPieceOffset, pieces, error⟩ := state <;> simp [Moves, binary]

theorem moves_div : Moves env.div state state.offset := by
  obtain ⟨offset, _ | ⟨top, _ | ⟨second, rest⟩⟩, tmp, opPieceOffset, pieces, error⟩ := state <;> simp [Moves, div]

theorem moves_plus : Moves env.plus state state.offset := by
  obtain ⟨offset, _ | ⟨top, _ | ⟨second, rest⟩⟩, tmp, opPieceOffset, pieces, error⟩ := state <;> simp [Moves, plus]

theorem moves_plusUconst : Moves env.plusUconst state (env.skipped state.offset) := by
  obtain ⟨offset, _ | ⟨top, rest⟩, tmp, opPieceOffset, pieces, error⟩ := state <;> simp [Moves, plusUconst]

theorem moves_shr : Moves env.shr state state.offset := by
  obtain ⟨offset, _ | ⟨top, _ | ⟨second, rest⟩⟩, tmp, opPieceOffset, pieces, error⟩ := state
  · simp [Moves, shr]
  · simp [Moves, shr]
  · simp only [Moves, shr, Stoppable.leads_bind, leads_size, Stoppable.leads_ite, leads_back, leads_setTmp,
      leads_popBack, leads_getTmp]
    cases env.arithmetic.shiftRightLogical (env.resolveValue second).scalar (env.resolveValue top).scalar <;> simp

variable {holds : Unit → EvaluateState → Prop} {op : Nat}

theorem leads_readRegisterValueAsScalar (regNum : Nat)
    (onward : ∀ value error, holds () { state with tmp := value, error := error }) :
    Leads (env.readRegisterValueAsScalar regNum) state Stop.Returns holds := by
  unfold readRegisterValueAsScalar
  cases env.registers with
  | none => simp
  | some read => cases found : read regNum <;> simp [found, onward]

theorem moves_reg (regNum : Nat) : Moves (env.reg regNum) state state.offset := by
  simp only [Moves, reg, Stoppable.leads_bind]
  exact leads_readRegisterValueAsScalar regNum fun _ _ => by simp

theorem moves_regx : Moves env.regx state (env.skipped state.offset) := by
  simp only [Moves, regx, Stoppable.leads_bind, leads_getULEB128]
  exact moves_reg _

theorem moves_breg (regNum : Nat) : Moves (env.breg regNum) state (env.skipped state.offset) := by
  simp only [Moves, breg, Stoppable.leads_bind]
  exact leads_readRegisterValueAsScalar regNum fun _ _ => by simp

theorem moves_bregx : Moves env.bregx state (env.skipped (env.skipped state.offset)) := by
  simp only [Moves, bregx, Stoppable.leads_bind, leads_getULEB128]
  exact moves_breg _

theorem moves_fbreg : Moves env.fbreg state (env.skipped state.offset) := by
  unfold Moves fbreg
  cases env.frame with
  | none => simp
  | some frame => cases found : frame.frameBase <;> simp [found]

theorem moves_piece : Moves env.piece state (env.skipped state.offset) := by
  obtain ⟨offset, _ | ⟨top, rest⟩, tmp, opPieceOffset, pieces, error⟩ := state
  · simp [Moves, piece]
  · simp only [Moves, piece, Stoppable.leads_bind, leads_getULEB128, Stoppable.leads_ite, leads_size, leads_back]
    cases env.currPiece top (env.ulebValue offset) <;> simp [appendPiece]

theorem moves_bitPiece : Moves env.bitPiece state (env.skipped (env.skipped state.offset)) := by
  obtain ⟨offset, _ | ⟨top, rest⟩, tmp, opPieceOffset, pieces, error⟩ := state
  · simp [Moves, bitPiece]
  · simp only [Moves, bitPiece, Stoppable.leads_bind, leads_size, Stoppable.leads_ite, leads_getULEB128, leads_back]
    cases top.valueType with
    | scalar =>
      rw [Stoppable.leads_bind, leads_back]
      cases env.extractBitfield top.scalar (env.ulebValue offset) (env.ulebValue (env.skipped offset)) <;> simp
    | fileAddress | loadAddress | hostAddress | vector => simp

theorem moves_pushObjectAddress : Moves env.pushObjectAddress state state.offset := by
  unfold Moves pushObjectAddress
  cases env.objectAddress <;> simp

theorem moves_stackValue (some_ : state.stack ≠ []) : Moves stackValue state state.offset := by
  obtain ⟨offset, _ | ⟨top, rest⟩, tmp, opPieceOffset, pieces, error⟩ := state
  · exact absurd rfl some_
  · simp [Moves, stackValue]

theorem moves_callFrameCfa : Moves env.callFrameCfa state state.offset := by
  unfold Moves callFrameCfa
  cases env.frame with
  | none => exact leads_fail _ _
  | some frame => exact (Stoppable.leads_ite _ _ _ _).mpr ⟨fun _ => rfl, fun _ => rfl⟩

theorem moves_formTlsAddress : Moves (env.formTlsAddress opcode) state state.offset := by
  obtain ⟨offset, _ | ⟨top, rest⟩, tmp, opPieceOffset, pieces, error⟩ := state
  · simp [Moves, formTlsAddress]
  · unfold Moves formTlsAddress
    cases env.thread <;> simp

theorem moves_gnuAddrIndex : Moves env.gnuAddrIndex state (env.skipped state.offset) := by
  unfold Moves gnuAddrIndex
  cases env.dwarfUnit <;> simp

theorem moves_gnuConstIndex : Moves env.gnuConstIndex state (env.skipped state.offset) := by
  unfold Moves gnuConstIndex
  cases env.dwarfUnit <;> simp

/-! Branches. -/

variable (env) in
def branchTarget (offset : Nat) : Nat :=
  ((env.fixedEnd 2 offset + (BitVec.ofNat 16 (env.fixedValue 2 offset)).toInt) % 2 ^ 64).toNat

variable (env) in
def Branches (op : Nat) (state : EvaluateState) : Prop :=
  op = 0x2f ∨ op = 0x28 ∧ ∃ top rest, state.stack = top :: rest ∧
    env.arithmetic.ne (env.resolveValue top).scalar (.ofInt 0) = true

variable (env) in
def Within (offset : Nat) : Prop := env.opcodesOffset ≤ offset ∧ offset < env.endOffset

theorem leads_branch (delta : Nat) {stops : Stop → Prop}
    {target : Nat} (is : ((state.offset + (BitVec.ofNat 16 delta).toInt) % 2 ^ 64).toNat = target) :
    Leads (env.branch opcode delta) state stops holds ↔ (env.Within target → holds () { state with offset := target }) ∧
        (¬ env.Within target → stops (.returnsFalse (some ("Invalid opcode offset in " ++ opcode ++ ".")))) := by
  rw [branch, Stoppable.leads_bind, Stoppable.leads_get]
  rw [is, Stoppable.leads_ite]
  rfl

theorem leads_skip : Leads env.skip state Stop.Returns fun _ after =>
      after.offset = env.branchTarget state.offset ∧ env.Within (env.branchTarget state.offset) := by
  rw [skip, Stoppable.leads_bind, leads_getMaxU64, leads_branch _ _ rfl]
  exact ⟨fun within => ⟨rfl, within⟩, fun _ => trivial⟩

theorem leads_bra : Leads env.bra state Stop.Returns fun _ after =>
      (env.Branches 0x28 state →
          after.offset = env.branchTarget state.offset ∧ env.Within (env.branchTarget state.offset)) ∧
        (¬ env.Branches 0x28 state → after.offset = env.fixedEnd 2 state.offset) := by
  obtain ⟨offset, _ | ⟨top, rest⟩, tmp, opPieceOffset, pieces, error⟩ := state
  · simp [bra]
  · have branches : env.Branches 0x28 ⟨offset, top :: rest, tmp, opPieceOffset, pieces, error⟩ ↔
        env.arithmetic.ne (env.resolveValue top).scalar (.ofInt 0) = true := by
      simp [Branches]
    simp only [branches, bra, Stoppable.leads_bind, leads_size, Stoppable.leads_ite, leads_back, leads_setTmp,
      leads_popBack, leads_getMaxU64, leads_getTmp, leads_branch _ _ rfl, Stoppable.leads_pure]
    refine ⟨fun _ => leads_fail _ _, fun _ => ⟨fun taken => ?_, fun goesBy => ?_⟩⟩
    · exact ⟨fun within => ⟨fun _ => ⟨rfl, within⟩, fun goesBy => absurd taken goesBy⟩, fun _ => trivial⟩
    · exact ⟨fun taken => absurd taken goesBy, fun _ => trivial⟩

variable (env) in
/-- The opcode touches what is not on the stack, or copies more than there is room for. -/
def Faults (op : Nat) (state : EvaluateState) : Prop :=
  op = 0x9f ∧ state.stack = [] ∨ op = 0x94 ∧ env.Overruns state

/-- An opcode that is no branch moves the offset over its operands, whatever it does apart from that. -/
theorem moves_evaluateOpcode (skip_ : op ≠ 0x2f) (bra_ : op ≠ 0x28) (safe : ¬ env.Faults op state) :
    Moves (env.evaluateOpcode op) state (env.operandsEnd (evaluateOperands op) state.offset) := by
  unfold evaluateOpcode
  split
  case h_1 => exact moves_addr
  case h_2 => exact moves_deref
  case h_3 | h_4 | h_5 | h_6 | h_7 | h_8 | h_9 | h_10 => exact moves_constant _ _
  case h_11 => exact moves_constu
  case h_12 => exact moves_consts
  case h_13 => exact moves_dup
  case h_14 => exact moves_drop
  case h_15 => exact moves_over
  case h_16 => exact moves_pick
  case h_17 => exact moves_swap
  case h_18 => exact moves_rot
  case h_19 | h_48 | h_51 | h_52 => exact leads_fail _ _
  case h_20 | h_26 | h_27 => exact moves_unary _ _ _
  case h_21 | h_23 | h_24 | h_25 | h_28 | h_31 | h_33 | h_34 => exact moves_binary _ _
  case h_22 => exact moves_div
  case h_29 => exact moves_plus
  case h_30 => exact moves_plusUconst
  case h_32 => exact moves_shr
  case h_35 => exact absurd rfl bra_
  case h_36 | h_37 | h_38 | h_39 | h_40 | h_41 => exact moves_binary _ _
  case h_42 => exact absurd rfl skip_
  case h_43 => exact moves_regx
  case h_44 => exact moves_fbreg
  case h_45 => exact moves_bregx
  case h_46 => exact moves_piece
  case h_47 => exact moves_derefSize fun overruns => safe (.inr ⟨rfl, overruns⟩)
  case h_49 => rfl
  case h_50 => exact moves_pushObjectAddress
  case h_53 | h_57 => exact moves_formTlsAddress _
  case h_54 => exact moves_callFrameCfa
  case h_55 => exact moves_bitPiece
  case h_56 => exact moves_stackValue fun nothing => safe (.inl ⟨rfl, nothing⟩)
  case h_58 => exact moves_gnuAddrIndex
  case h_59 => exact moves_gnuConstIndex
  case h_60 =>
    have operands : evaluateOperands op = if 0x70 ≤ op ∧ op ≤ 0x8f then .leb128 else .nothing := by
      unfold evaluateOperands
      split <;> first | rfl | contradiction
    rw [operands]
    by_cases lit : 0x30 ≤ op ∧ op ≤ 0x4f
    · rw [if_pos lit, if_neg (by omega)]
      rfl
    by_cases reg : 0x50 ≤ op ∧ op ≤ 0x6f
    · rw [if_neg lit, if_pos reg, if_neg (by omega)]
      exact moves_reg _
    rw [if_neg lit, if_neg reg]
    by_cases breg : 0x70 ≤ op ∧ op ≤ 0x8f
    · rw [if_pos breg, if_pos breg]
      exact moves_breg _
    · rw [if_neg breg, if_neg breg]
      rfl

theorem exists_fault (faults : env.Faults op state) : ∃ fault, env.evaluateOpcode op state = .error (.fault fault) := by
  obtain ⟨offset, stack, tmp, opPieceOffset, pieces, error⟩ := state
  rcases faults with ⟨rfl, nothing⟩ | ⟨rfl, top, rest, process, stacked, type, context, running, large⟩
  · cases nothing
    exact ⟨.backOfEmptyStack, rfl⟩
  · cases stacked
    have stops : Leads env.derefSize ⟨offset, top :: rest, tmp, opPieceOffset, pieces, error⟩
        (fun stop => stop = .fault .addrBytesOverrun) fun _ _ => False := by
      simp only [derefSize, Stoppable.leads_bind, leads_size, Stoppable.leads_ite, leads_getMaxU64, leads_back, type,
        derefSizeLoadAddress, running, context, Stoppable.leads_throw]
      exact ⟨fun nothing => absurd nothing (Nat.succ_ne_zero _),
        fun _ => ⟨fun _ => ⟨fun _ => trivial, fun small => absurd large small⟩, fun other => absurd trivial other⟩⟩
    refine ⟨.addrBytesOverrun, ?_⟩
    change env.derefSize _ = _
    cases through : env.derefSize ⟨offset, top :: rest, tmp, opPieceOffset, pieces, error⟩ with
    | ok read => exact (stops.ok through).elim
    | error stop => rw [stops.error through]

theorem exists_branch (branches : env.Branches op state) (within : env.Within (env.branchTarget state.offset)) :
    ∃ after, env.evaluateOpcode op state = .ok ((), after) ∧ after.offset = env.branchTarget state.offset := by
  obtain ⟨offset, stack, tmp, opPieceOffset, pieces, error⟩ := state
  have through : Leads (env.evaluateOpcode op) ⟨offset, stack, tmp, opPieceOffset, pieces, error⟩ (fun _ => False)
      fun _ after => after.offset = env.branchTarget offset := by
    rcases branches with rfl | ⟨rfl, top, rest, stacked, nonzero⟩
    · change Leads env.skip _ _ _
      rw [skip, Stoppable.leads_bind, leads_getMaxU64, leads_branch _ _ rfl]
      exact ⟨fun _ => rfl, fun outside => outside within⟩
    · cases stacked
      change Leads env.bra _ _ _
      simp only [bra, Stoppable.leads_bind, Stoppable.leads_ite,
        leads_getMaxU64, leads_branch _ _ rfl]
      exact ⟨fun nothing => absurd nothing (Nat.succ_ne_zero _), fun _ =>
        ⟨fun _ => ⟨fun _ => rfl, fun outside => outside within⟩, fun goesBy => absurd nonzero goesBy⟩⟩
  cases is : env.evaluateOpcode op ⟨offset, stack, tmp, opPieceOffset, pieces, error⟩ with
  | ok read => exact ⟨read.2, rfl, through.ok is⟩
  | error stop => exact (through.error is).elim

/-- What an opcode that does not stop does to the offset. -/
theorem offset_of_evaluateOpcode {after : EvaluateState} (is : env.evaluateOpcode op state = .ok ((), after)) :
    (env.Branches op state →
        after.offset = env.branchTarget state.offset ∧ env.Within (env.branchTarget state.offset)) ∧
      (¬ env.Branches op state → after.offset = env.operandsEnd (evaluateOperands op) state.offset) := by
  have safe : ¬ env.Faults op state := fun faults => by
    obtain ⟨fault, stopped⟩ := exists_fault faults
    rw [stopped] at is
    cases is
  by_cases skip_ : op = 0x2f
  · subst skip_
    exact ⟨fun _ => leads_skip.ok is, fun goesBy => absurd (.inl rfl) goesBy⟩
  by_cases bra_ : op = 0x28
  · subst bra_
    exact leads_bra.ok is
  refine ⟨fun branches => ?_, fun _ => (moves_evaluateOpcode skip_ bra_ safe).ok is⟩
  rcases branches with rfl | ⟨rfl, -⟩ <;> contradiction

theorem returns_of_evaluateOpcode {stop : Stop} (safe : ¬ env.Faults op state)
    (is : env.evaluateOpcode op state = .error stop) : stop.Returns := by
  by_cases skip_ : op = 0x2f
  · subst skip_
    exact leads_skip.error is
  by_cases bra_ : op = 0x28
  · subst bra_
    exact leads_bra.error is
  exact (moves_evaluateOpcode skip_ bra_ safe).error is

theorem le_operandsEnd (op offset : Nat) : offset ≤ env.operandsEnd (evaluateOperands op) offset := by
  cases evaluateOperands op with
  | nothing => exact le_refl _
  | address => exact le_fixedEnd _ _
  | fixed size => exact le_fixedEnd _ _
  | leb128 => exact le_skipped _
  | twoLeb128s => exact (le_skipped _).trans (le_skipped _)
  | block => exact (le_skipped _).trans (Nat.le_add_right _ _)

end Environment

end Lldb.Evaluate
