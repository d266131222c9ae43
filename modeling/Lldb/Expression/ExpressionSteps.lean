import Lldb.Expression.DWARFExpression
import Lldb.Expression.StackMachine
import Lldb.Utility.ScalarArithmetic
import Mathlib.Tactic.FinCases

/-! One operation of the evaluation is one of the stack machine, where scalars are exact: the
result fits the C type that the operands have in common, and signs are those of words.
-/

set_option autoImplicit false

namespace Lldb.DWARFExpression

open Library DataExtractor Scalar

abbrev Words (stack : Stack) (words : List Word) : Prop := List.Forall₂ Scalar.Denotes stack words

def Constant.Exact : Constant → Prop
  | constu value => value.size ≤ 10
  | consts value => SignedReadable value
  | _ => True

instance (value : Constant) : Decidable value.Exact := by
  cases value <;> unfold Constant.Exact <;> infer_instance

def UnaryOp.Exact (scalar : Scalar) (op : UnaryOp) : Prop :=
  scalar.type.Holds (op.word scalar.word) ∧ (op = abs → scalar.type.isSigned ∨ op.word scalar.word = scalar.word)

instance (scalar : Scalar) (op : UnaryOp) : Decidable (op.Exact scalar) := by
  unfold UnaryOp.Exact
  infer_instance

def BinaryOp.Exact (second top : Scalar) (op : BinaryOp) : Prop :=
  let common := promoteToMaxType second top
  let (first, last) := (second.word, top.word)
  match op with
  | div => if common.isSigned then common.Holds (first.sdiv last) else first.msb = false ∧ last.msb = false
  | mod => common = .ulong ∨ first.msb = false ∧ last.msb = false
  | shl => second.type.Holds (first <<< last.toNat)
  | shr => second.type = .sint → first.msb = false ∨ last.toNat = 0 ∨ 64 ≤ last.toNat
  | shra => second.type = .uint → first.toNat < 2 ^ 31 ∨ last.toNat = 0
  | eq | ne => common = .uint → first.setWidth 32 = last.setWidth 32 → first = last
  | ge | gt | le | lt => common.isSigned ∨ first.msb = last.msb
  | and | minus | mul | or | plus | xor => common.Holds (op.word first last)

instance (second top : Scalar) (op : BinaryOp) : Decidable (op.Exact second top) := by
  cases op <;> unfold BinaryOp.Exact <;> infer_instance

/-- What an operation needs of the scalars on the stack to do what it does to words. -/
def Operation.Exact (stack : Stack) : Operation → Prop
  | constant value => value.Exact
  | pick index => ∀ picked ∈ stack.reverse[index.toNat]?, ∀ meant ∈ stack[index.toNat]?, picked.word = meant.word
  | unary op => ∀ top ∈ stack.head?, op.Exact top
  | binary op => ∀ top ∈ stack.head?, ∀ second ∈ stack[1]?, op.Exact second top
  | plusUconst value => value.size ≤ 10
  | dup | drop | over_ | swap | rot | skip _ | bra _ | nop => True

instance (stack : Stack) (operation : Operation) : Decidable (operation.Exact stack) := by
  cases operation <;> unfold Operation.Exact <;> infer_instance

variable {data : DataExtractor} {opcodesOffset endOffset offset : Nat} {other : Nat → Stack → Evaluation Stack}

theorem read_then {α β : Type} {read : Cursor α} {value : α} {after : Nat} (next : α → Evaluation β)
    (reads : read offset = some (value, after)) :
    (do next (← (read : Evaluation α)) : Evaluation β) offset = next value after := by
  change ((read offset).bind fun pair => some (Except.ok pair.1, pair.2)).bind _ = _
  rw [reads]
  rfl

theorem denotes_truth {holds expected : Bool} (same : holds = expected) :
    (ofBool holds).Denotes (BinaryOp.truth expected) := by
  subst same
  cases holds with
  | false => exact ⟨by decide, by decide⟩
  | true => exact ⟨by decide, by decide⟩

variable {width target : Nat} {top : Scalar} {delta : BitVec 16}

theorem setWidth_sub (a b : BitVec 64) (le : width ≤ 64) :
    (a - b).setWidth width = a.setWidth width - b.setWidth width := by
  simp [BitVec.sub_eq_add_neg, BitVec.setWidth_add _ _ le, BitVec.setWidth_neg_of_le le]

theorem binary_at (op : BinaryOp) {second : Scalar} (rest : Stack) (first : top.type ≠ .void)
    (last : second.type ≠ .void) (nonzero : ¬ (op.divides ∧ top.word = 0)) (exact_ : op.Exact second top) :
    ∃ value, evaluateOpcode data opcodesOffset endOffset other op.opcode.toNat (top :: second :: rest) offset =
      some (.ok (value :: rest), offset) ∧ value.Denotes (op.word second.word top.word) := by
  cases op with
  | and => exact ⟨_, rfl, (arithmetic_denotes_iff last first _ fun _ _ a b => by simp).mpr exact_⟩
  | or => exact ⟨_, rfl, (arithmetic_denotes_iff last first _ fun _ _ a b => by simp).mpr exact_⟩
  | xor => exact ⟨_, rfl, (arithmetic_denotes_iff last first _ fun _ _ a b => by simp).mpr exact_⟩
  | plus => exact ⟨_, rfl, (arithmetic_denotes_iff last first _ fun _ le a b => BitVec.setWidth_add a b le).mpr exact_⟩
  | minus => exact ⟨_, rfl, (arithmetic_denotes_iff last first _ fun _ le a b => setWidth_sub a b le).mpr exact_⟩
  | mul => exact ⟨_, rfl, (arithmetic_denotes_iff last first _ fun _ le a b => BitVec.setWidth_mul a b le).mpr exact_⟩
  | shl => exact ⟨_, rfl, (shiftLeft_denotes_iff last first).mpr exact_⟩
  | shra => exact ⟨_, rfl, (shiftRight_denotes_iff last first).mpr exact_⟩
  | mod => exact ⟨_, rfl, rem_denotes last first (fun zero => nonzero ⟨rfl, zero⟩) exact_⟩
  | shr =>
    have denotes := (shiftRightLogical_denotes_iff last first).mpr exact_
    refine ⟨_, ?_, denotes⟩
    exact congrFun (if_pos (decide_eq_true denotes.valid)) offset
  | div =>
    have nonzero : top.word ≠ 0 := fun zero => nonzero ⟨rfl, zero⟩
    have denotes := div_denotes last first nonzero exact_
    refine ⟨_, ?_, denotes⟩
    refine (congrFun (if_neg ((isZero_iff first).not.mpr nonzero)) offset).trans ?_
    exact congrFun (if_pos (decide_eq_true denotes.valid)) offset
  | eq => exact ⟨_, rfl, denotes_truth (eq_eq last first exact_)⟩
  | ne => exact ⟨_, rfl, denotes_truth (congrArg Bool.not (eq_eq last first exact_))⟩
  | ge => exact ⟨_, rfl, denotes_truth (ge_eq last first exact_)⟩
  | gt => exact ⟨_, rfl, denotes_truth (gt_eq last first exact_)⟩
  | le => exact ⟨_, rfl, denotes_truth (le_eq last first exact_)⟩
  | lt => exact ⟨_, rfl, denotes_truth (lt_eq last first exact_)⟩

theorem unary_some {operation : Scalar → Option Scalar} {value : Scalar} (opcode failed : String) (rest : Stack)
    (result : operation top = some value) :
    unary opcode failed operation (top :: rest) offset = some (.ok (value :: rest), offset) := by
  simp only [unary, result]
  rfl

theorem unary_at (op : UnaryOp) (rest : Stack) (valid : top.type ≠ .void) (exact_ : op.Exact top) :
    ∃ value, evaluateOpcode data opcodesOffset endOffset other op.opcode.toNat (top :: rest) offset =
      some (.ok (value :: rest), offset) ∧ value.Denotes (op.word top.word) := by
  cases op with
  | abs =>
    obtain ⟨value, result, denotes⟩ := absoluteValue_eq valid rfl ⟨exact_.1, exact_.2 rfl⟩
    refine ⟨value, ?_, denotes⟩
    exact unary_some "DW_OP_abs" "Failed to take the absolute value of the first stack item." rest result
  | neg =>
    obtain ⟨value, result, denotes⟩ := unaryNegate_eq valid exact_.1
    refine ⟨value, ?_, denotes⟩
    exact unary_some "DW_OP_neg" "Unary negate failed." rest result
  | not =>
    obtain ⟨value, result, denotes⟩ := onesComplement_eq valid exact_.1
    refine ⟨value, ?_, denotes⟩
    exact unary_some "DW_OP_not" "Logical NOT failed." rest result

/-! Constants: what is read, and the word that it is. -/

theorem push_fixed {size value : Nat} (stack : Stack) (make : Nat → Scalar) (fits : value < 256 ^ size)
    (at_ : data.At offset (data.byteOrder.encode size value)) :
    (do push stack (make (← (data.getMaxU64 size : Evaluation Nat))) : Evaluation Stack) offset =
      some (.ok (make value :: stack), offset + (data.byteOrder.encode size value).length) := by
  refine (read_then _ (getMaxU64_at fits at_)).trans ?_
  rw [ByteOrder.length_encode]
  rfl

theorem signExtend_small (value : BitVec width) (narrow : width < 32) :
    (BitVec.ofNat 32 value.toNat).signExtend 64 = value.setWidth 64 := by
  have room : 2 ^ width ≤ 2 ^ 31 := Nat.pow_le_pow_right (by decide) (by omega)
  have small : (BitVec.ofNat 32 value.toNat).toNat = value.toNat := by
    rw [BitVec.toNat_ofNat, Nat.mod_eq_of_lt (by omega)]
  rw [BitVec.signExtend_eq_setWidth_of_msb_false (by rw [BitVec.msb_eq_false_iff_two_mul_lt]; omega)]
  apply BitVec.eq_of_toNat_eq
  rw [BitVec.toNat_setWidth, BitVec.toNat_setWidth, small]

theorem signExtend_signExtend (value : BitVec width) (narrow : width ≤ 32) :
    (value.signExtend 32).signExtend 64 = value.signExtend 64 := by
  apply BitVec.eq_of_toInt_eq
  rw [BitVec.toInt_signExtend_of_le (by decide), BitVec.toInt_signExtend_of_le narrow,
    BitVec.toInt_signExtend_of_le (by omega)]

theorem constant_at (value : Constant) (stack : Stack) (at_ : data.At offset (value.operand data.byteOrder))
    (exact_ : value.Exact) :
    ∃ pushed, evaluateOpcode data opcodesOffset endOffset other value.opcode.toNat stack offset =
      some (.ok (pushed :: stack), offset + (value.operand data.byteOrder).length) ∧ pushed.Denotes value.word := by
  cases value with
  | lit value =>
    refine ⟨ofInt (BitVec.ofNat 32 value.val), ?_, nofun, ?_⟩
    · fin_cases value <;> rfl
    · fin_cases value <;> decide
  | const1u value =>
    refine ⟨_, push_fixed stack (fun read => ofInt (BitVec.ofNat 32 read)) value.isLt at_, nofun, ?_⟩
    exact signExtend_small value (by decide)
  | const1s value =>
    refine ⟨_, push_fixed stack (fun read => ofInt ((BitVec.ofNat 8 read).signExtend 32)) value.isLt at_, nofun, ?_⟩
    rw [BitVec.ofNat_toNat]
    exact signExtend_signExtend value (by decide)
  | const2u value =>
    refine ⟨_, push_fixed stack (fun read => ofInt (BitVec.ofNat 32 read)) value.isLt at_, nofun, ?_⟩
    exact signExtend_small value (by decide)
  | const2s value =>
    refine ⟨_, push_fixed stack (fun read => ofInt ((BitVec.ofNat 16 read).signExtend 32)) value.isLt at_, nofun, ?_⟩
    rw [BitVec.ofNat_toNat]
    exact signExtend_signExtend value (by decide)
  | const4u value =>
    refine ⟨_, push_fixed stack (fun read => ofUInt (BitVec.ofNat 32 read)) value.isLt at_, nofun, ?_⟩
    rw [BitVec.ofNat_toNat]
    rfl
  | const4s value =>
    refine ⟨_, push_fixed stack (fun read => ofInt (BitVec.ofNat 32 read)) value.isLt at_, nofun, ?_⟩
    rw [BitVec.ofNat_toNat]
    rfl
  | const8u value =>
    refine ⟨_, push_fixed stack (fun read => ofULong (BitVec.ofNat 64 read)) value.isLt at_, nofun, ?_⟩
    rw [BitVec.ofNat_toNat]
    exact word_ofULong value
  | const8s value =>
    refine ⟨_, push_fixed stack (fun read => ofLong (BitVec.ofNat 64 read)) value.isLt at_, nofun, ?_⟩
    rw [BitVec.ofNat_toNat]
    exact word_ofLong value
  | constu value =>
    refine ⟨ofULong (BitVec.ofNat 64 (value.unsigned % 2 ^ 64)), ?_, nofun, ?_⟩
    · have reads := (getULEB128_at at_).trans (if_pos exact_)
      refine (read_then _ reads).trans ?_
      rw [← Leb128.length_bytes]
      rfl
    · exact BitVec.eq_of_toNat_eq (by simp [Constant.word])
  | consts value =>
    refine ⟨ofLong (BitVec.ofInt 64 (value.signed.bmod (2 ^ 64))), ?_, nofun, ?_⟩
    · have reads := (getSLEB128_at at_).trans (if_pos exact_)
      refine (read_then _ reads).trans ?_
      rw [← Leb128.length_bytes]
      rfl
    · exact BitVec.eq_of_toInt_eq (by simp [Constant.word])

/-! Operations with their operands. -/

theorem promoteToMaxType_ofULong {scalar : Scalar} (valid : scalar.type ≠ .void) (value : Word) :
    promoteToMaxType scalar (ofULong value) = .ulong := by
  obtain ⟨type, integer⟩ := scalar
  cases type with
  | void => exact absurd rfl valid
  | sint => rfl
  | uint => rfl
  | slong => rfl
  | ulong => rfl

theorem plusUconst_at {value : Leb128} (rest : Stack) (valid : top.type ≠ .void)
    (at_ : data.At offset value.bytes) (exact_ : value.size ≤ 10) :
    ∃ sum, plusUconst data (top :: rest) offset = some (.ok (sum :: rest), offset + value.bytes.length) ∧
      sum.Denotes (top.word + BitVec.ofNat 64 value.unsigned) := by
  have reads := (getULEB128_at at_).trans (if_pos exact_)
  have same : BitVec.ofNat 64 (value.unsigned % 2 ^ 64) = BitVec.ofNat 64 value.unsigned :=
    BitVec.eq_of_toNat_eq (by simp)
  generalize BitVec.ofNat 64 value.unsigned = addend at same
  have denotes : (Scalar.add top (ofULong addend)).Denotes (top.word + (ofULong addend).word) := by
    refine (arithmetic_denotes_iff valid (show (ofULong addend).type ≠ .void from nofun) _ fun _ le a b => BitVec.setWidth_add a b le).mpr ?_
    rw [promoteToMaxType_ofULong valid]
    trivial
  refine ⟨_, ?_, denotes⟩
  refine (read_then _ reads).trans ?_
  rw [← Leb128.length_bytes, same]
  exact congrFun (if_pos (decide_eq_true denotes.valid)) _

/-- Where a branch by `delta` from an offset leads, inside the block. -/
structure Branches (opcodesOffset endOffset offset target : Nat) (delta : BitVec 16) : Prop where
  sum : (target : Int) = offset + delta.toInt
  small : target < 2 ^ 64
  begins : opcodesOffset ≤ target
  ends : target < endOffset

theorem branch_at (opcode : String) (inside : Branches opcodesOffset endOffset offset target delta) :
    branch opcodesOffset endOffset opcode delta.toNat offset = some (.ok (), target) := by
  have newOffset : (((offset : Int) + (BitVec.ofNat 16 delta.toNat).toInt) % 2 ^ 64).toNat = target := by
    have small := inside.small
    rw [BitVec.ofNat_toNat, BitVec.setWidth_eq, ← inside.sum]
    omega
  change (if _ ∧ _ then _ else _ : Evaluation Unit) offset = _
  rw [newOffset, if_pos ⟨inside.begins, inside.ends⟩]
  rfl

theorem ne_zero_iff (valid : top.type ≠ .void) : Scalar.ne top (ofInt 0) = true ↔ top.word ≠ 0 := by
  have equal : top.eq (ofInt 0) = (top.word == 0) := by
    refine eq_eq valid nofun fun unsigned cut => ?_
    have own : top.type = .uint := by
      obtain ⟨type, integer⟩ := top
      cases type <;> simp_all [promoteToMaxType, promote, ofInt, ScalarType.rank]
    have small := holds_word valid
    rw [own] at small
    rw [← (setWidth_setWidth_iff top.word).mpr small, cut]
    rfl
  rw [Scalar.ne, equal]
  simp

theorem skip_at (stack : Stack) (at_ : data.At offset (data.byteOrder.encode 2 delta.toNat))
    (inside : Branches opcodesOffset endOffset (offset + (data.byteOrder.encode 2 delta.toNat).length) target delta) :
    skip data opcodesOffset endOffset stack offset = some (.ok stack, target) := by
  rw [ByteOrder.length_encode] at inside
  refine (read_then _ (getMaxU64_at (show delta.toNat < 256 ^ 2 from delta.isLt) at_)).trans ?_
  change ((branch opcodesOffset endOffset "DW_OP_skip" delta.toNat (offset + 2)).bind _) = _
  rw [branch_at _ inside]
  rfl

theorem bra_at (rest : Stack) (valid : top.type ≠ .void) (at_ : data.At offset (data.byteOrder.encode 2 delta.toNat))
    (falls : top.word = 0 → target = offset + (data.byteOrder.encode 2 delta.toNat).length)
    (inside : top.word ≠ 0 →
      Branches opcodesOffset endOffset (offset + (data.byteOrder.encode 2 delta.toNat).length) target delta) :
    bra data opcodesOffset endOffset (top :: rest) offset = some (.ok rest, target) := by
  rw [ByteOrder.length_encode] at falls inside
  refine (read_then _ (getMaxU64_at (show delta.toNat < 256 ^ 2 from delta.isLt) at_)).trans ?_
  by_cases zero : top.word = 0
  · rw [if_neg ((ne_zero_iff valid).not.mpr (not_not.mpr zero)), falls zero]
    rfl
  · rw [if_pos ((ne_zero_iff valid).mpr zero)]
    change ((branch opcodesOffset endOffset "DW_OP_bra" delta.toNat (offset + 2)).bind _) = _
    rw [branch_at _ (inside zero)]
    rfl

theorem pick_at {index : BitVec 8} {stack : Stack} {words : List Word} {meant : Word} (follows : Words stack words)
    (at_ : data.At offset (data.byteOrder.encode 1 index.toNat)) (found : words[index.toNat]? = some meant)
    (exact_ : (Operation.pick index).Exact stack) :
    ∃ value, pick data stack offset = some (.ok (value :: stack), offset + (data.byteOrder.encode 1 index.toNat).length) ∧
      value.Denotes meant := by
  obtain ⟨inside, rfl⟩ := List.getElem?_eq_some_iff.mp found
  rw [← follows.length_eq] at inside
  have there : index.toNat < stack.reverse.length := by simpa using inside
  have picked : stack.reverse[index.toNat]? = some stack.reverse[index.toNat] := List.getElem?_eq_getElem there
  have same := exact_ _ picked _ (List.getElem?_eq_getElem inside)
  have denotes := follows.get inside (by omega)
  refine ⟨stack.reverse[index.toNat], ?_, ?_⟩
  · refine (read_then _ (getMaxU64_at (show index.toNat < 256 ^ 1 from index.isLt) at_)).trans ?_
    rw [picked, ByteOrder.length_encode]
    rfl
  · have reversed := List.forall₂_reverse_iff.mpr follows
    exact ⟨(reversed.get there (by simpa [follows.length_eq] using there)).valid, same.trans denotes.same⟩

theorem binary_becomes {op : BinaryOp} {top second : Word} {rest after : List Word}
    (becomes : (Operation.binary op).stackAfter (top :: second :: rest) = some after) :
    ¬ (op.divides ∧ top = 0) ∧ op.word second top :: rest = after := by
  change (if op.divides ∧ top = 0 then none else some (op.word second top :: rest)) = some after at becomes
  split at becomes
  · cases becomes
  · rename_i nonzero
    exact ⟨nonzero, Option.some.inj becomes⟩

/-- The operand is read, the stack is changed as that of the machine is, and the offset is at the
end of the operand or where the branch leads.
-/
theorem evaluateOpcode_at {operation : Operation} {stack : Stack} {words after : List Word}
    (follows : Words stack words) (becomes : operation.stackAfter words = some after) (exact_ : operation.Exact stack)
    (at_ : data.At offset (operation.operand data.byteOrder))
    (falls : operation.jump words = none → target = offset + (operation.operand data.byteOrder).length)
    (branches : ∀ delta, operation.jump words = some delta →
      Branches opcodesOffset endOffset (offset + (operation.operand data.byteOrder).length) target delta) :
    ∃ next, evaluateOpcode data opcodesOffset endOffset other operation.opcode.toNat stack offset =
      some (.ok next, target) ∧ Words next after := by
  cases operation with
  | constant value =>
    obtain ⟨pushed, result, denotes⟩ := constant_at value stack at_ exact_
    rw [falls rfl]
    cases becomes
    exact ⟨_, result, .cons denotes follows⟩
  | nop =>
    rw [falls rfl]
    cases becomes
    exact ⟨_, rfl, follows⟩
  | dup =>
    cases follows with
    | nil => cases becomes
    | cons top rest =>
      rw [falls rfl]
      cases becomes
      exact ⟨_, rfl, .cons top (.cons top rest)⟩
  | drop =>
    cases follows with
    | nil => cases becomes
    | cons top rest =>
      rw [falls rfl]
      cases becomes
      exact ⟨_, rfl, rest⟩
  | over_ =>
    cases follows with
    | nil => cases becomes
    | cons top rest =>
      cases rest with
      | nil => cases becomes
      | cons second rest =>
        rw [falls rfl]
        cases becomes
        exact ⟨_, rfl, .cons second (.cons top (.cons second rest))⟩
  | swap =>
    cases follows with
    | nil => cases becomes
    | cons top rest =>
      cases rest with
      | nil => cases becomes
      | cons second rest =>
        rw [falls rfl]
        cases becomes
        exact ⟨_, rfl, .cons second (.cons top rest)⟩
  | rot =>
    cases follows with
    | nil => cases becomes
    | cons top rest =>
      cases rest with
      | nil => cases becomes
      | cons second rest =>
        cases rest with
        | nil => cases becomes
        | cons third rest =>
          rw [falls rfl]
          cases becomes
          exact ⟨_, rfl, .cons second (.cons third (.cons top rest))⟩
  | pick index =>
    obtain ⟨meant, found, rfl⟩ := Option.map_eq_some_iff.mp becomes
    obtain ⟨value, result, denotes⟩ := pick_at follows at_ found exact_
    rw [falls rfl]
    exact ⟨_, result, .cons denotes follows⟩
  | unary op =>
    cases follows with
    | nil => cases becomes
    | cons top rest =>
      obtain ⟨value, result, denotes⟩ := unary_at op _ top.valid (exact_ _ rfl)
      rw [falls rfl]
      rw [top.same] at denotes
      cases becomes
      exact ⟨_, result, .cons denotes rest⟩
  | binary op =>
    cases follows with
    | nil => cases becomes
    | cons top rest =>
      cases rest with
      | nil => cases becomes
      | cons second rest =>
        obtain ⟨nonzero, rfl⟩ := binary_becomes becomes
        rw [← top.same] at nonzero
        obtain ⟨value, result, denotes⟩ := binary_at op _ top.valid second.valid nonzero (exact_ _ rfl _ rfl)
        rw [falls rfl]
        rw [top.same, second.same] at denotes
        exact ⟨_, result, .cons denotes rest⟩
  | plusUconst value =>
    cases follows with
    | nil => cases becomes
    | cons top rest =>
      obtain ⟨sum, result, denotes⟩ := plusUconst_at _ top.valid at_ exact_
      rw [falls rfl]
      rw [top.same] at denotes
      cases becomes
      exact ⟨_, result, .cons denotes rest⟩
  | skip delta =>
    have inside := branches delta rfl
    cases becomes
    exact ⟨stack, skip_at stack at_ inside, follows⟩
  | bra delta =>
    cases follows with
    | nil => cases becomes
    | cons top rest =>
      cases becomes
      refine ⟨_, bra_at _ top.valid at_ (fun zero => falls ?_) (fun nonzero => branches delta ?_), rest⟩
      · rw [Operation.jump, if_pos (top.same.symm.trans zero)]
      · rw [Operation.jump, if_neg (top.same ▸ nonzero)]

end Lldb.DWARFExpression
