import Lldb.Utility.DataExtractor
import Lldb.Utility.Scalar

/-! `DWARFExpression::Evaluate`: the opcodes that work on the stack alone.

A value without a type of its own resolves to its scalar. The other opcodes are a parameter.
-/

set_option autoImplicit false

namespace Lldb.DWARFExpression

/-- An evaluation ends with an error text; `none` is a read that C++ leaves undefined. -/
abbrev Evaluation := ExceptT String Cursor

abbrev Stack := List Scalar

def emptyStack (opcode : String) : String := "Expression stack empty for " ++ opcode ++ "."

def needsOneItem (opcode : String) : String := "Expression stack needs at least 1 item for " ++ opcode ++ "."

def needsTwoItems (opcode : String) : String := "Expression stack needs at least 2 items for " ++ opcode ++ "."

def binary (opcode : String) (operation : Scalar → Scalar → Scalar) : Stack → Evaluation Stack
  | top :: second :: rest => return operation second top :: rest
  | _ => throw (needsTwoItems opcode)

def unary (opcode failed : String) (operation : Scalar → Option Scalar) : Stack → Evaluation Stack
  | top :: rest =>
    match operation top with
    | some value => return value :: rest
    | none => throw failed
  | [] => throw (needsOneItem opcode)

def divide : Stack → Evaluation Stack
  | top :: second :: rest =>
    if top.isZero then throw "Divide by zero."
    else if (Scalar.div second top).isValid then return Scalar.div second top :: rest
    else throw "Divide failed."
  | _ => throw (needsTwoItems "DW_OP_div")

def shiftRightLogical : Stack → Evaluation Stack
  | top :: second :: rest =>
    if (Scalar.shiftRightLogical second top).isValid then return Scalar.shiftRightLogical second top :: rest
    else throw "DW_OP_shr failed."
  | _ => throw (needsTwoItems "DW_OP_shr")

variable (data : DataExtractor) (opcodesOffset endOffset : Nat)

def pick (stack : Stack) : Evaluation Stack := do
  let pickIdx ← data.getU8
  match stack.reverse[pickIdx]? with
  | some value => return value :: stack
  | none => throw ("Index " ++ toString pickIdx ++ " out of range for DW_OP_pick.\n")

def plusUconst : Stack → Evaluation Stack
  | top :: rest => do
    let uconstValue ← data.getULEB128
    let sum := Scalar.add top (.ofULong (BitVec.ofNat 64 uconstValue))
    if sum.isValid then return sum :: rest
    else throw "DW_OP_plus_uconst failed."
  | [] => throw (needsOneItem "DW_OP_plus_uconst")

/-- A branch by an `int16_t`, in the unsigned arithmetic of offsets. -/
def branch (opcode : String) (delta : Nat) : Evaluation Unit := do
  let newOffset := (((← get : Nat) + (BitVec.ofNat 16 delta).toInt) % 2 ^ 64).toNat
  if newOffset ≥ opcodesOffset ∧ newOffset < endOffset then set newOffset
  else throw ("Invalid opcode offset in " ++ opcode ++ ".")

def skip (stack : Stack) : Evaluation Stack := do
  let skipOffset ← data.getU16
  branch opcodesOffset endOffset "DW_OP_skip" skipOffset
  return stack

def bra : Stack → Evaluation Stack
  | top :: rest => do
    let braOffset ← data.getU16
    if Scalar.ne top (.ofInt 0) then branch opcodesOffset endOffset "DW_OP_bra" braOffset
    return rest
  | [] => throw (needsOneItem "DW_OP_bra")

def push (stack : Stack) (value : Scalar) : Evaluation Stack := return value :: stack

variable (other : Nat → Stack → Evaluation Stack)

def evaluateOpcode (op : Nat) (stack : Stack) : Evaluation Stack :=
  match op with
  | 0x08 => do push stack (.ofInt (BitVec.ofNat 32 (← data.getU8))) -- DW_OP_const1u
  | 0x09 => do push stack (.ofInt ((BitVec.ofNat 8 (← data.getU8)).signExtend 32)) -- DW_OP_const1s
  | 0x0a => do push stack (.ofInt (BitVec.ofNat 32 (← data.getU16))) -- DW_OP_const2u
  | 0x0b => do push stack (.ofInt ((BitVec.ofNat 16 (← data.getU16)).signExtend 32)) -- DW_OP_const2s
  | 0x0c => do push stack (.ofUInt (BitVec.ofNat 32 (← data.getU32))) -- DW_OP_const4u
  | 0x0d => do push stack (.ofInt (BitVec.ofNat 32 (← data.getU32))) -- DW_OP_const4s
  | 0x0e => do push stack (.ofULong (BitVec.ofNat 64 (← data.getU64))) -- DW_OP_const8u
  | 0x0f => do push stack (.ofLong (BitVec.ofNat 64 (← data.getU64))) -- DW_OP_const8s
  | 0x10 => do push stack (.ofULong (BitVec.ofNat 64 (← data.getULEB128))) -- DW_OP_constu
  | 0x11 => do push stack (.ofLong (BitVec.ofInt 64 (← data.getSLEB128))) -- DW_OP_consts
  | 0x12 => -- DW_OP_dup
    match stack with
    | top :: rest => return top :: top :: rest
    | [] => throw (emptyStack "DW_OP_dup")
  | 0x13 => -- DW_OP_drop
    match stack with
    | _ :: rest => return rest
    | [] => throw (emptyStack "DW_OP_drop")
  | 0x14 => -- DW_OP_over
    match stack with
    | top :: second :: rest => return second :: top :: second :: rest
    | _ => throw (needsTwoItems "DW_OP_over")
  | 0x15 => pick data stack -- DW_OP_pick
  | 0x16 => -- DW_OP_swap
    match stack with
    | top :: second :: rest => return second :: top :: rest
    | _ => throw (needsTwoItems "DW_OP_swap")
  | 0x17 => -- DW_OP_rot
    match stack with
    | top :: second :: third :: rest => return second :: third :: top :: rest
    | _ => throw "Expression stack needs at least 3 items for DW_OP_rot."
  | 0x19 => unary "DW_OP_abs" "Failed to take the absolute value of the first stack item." Scalar.absoluteValue stack
  | 0x1a => binary "DW_OP_and" Scalar.and stack
  | 0x1b => divide stack -- DW_OP_div
  | 0x1c => binary "DW_OP_minus" Scalar.sub stack
  | 0x1d => binary "DW_OP_mod" Scalar.rem stack
  | 0x1e => binary "DW_OP_mul" Scalar.mul stack
  | 0x1f => unary "DW_OP_neg" "Unary negate failed." Scalar.unaryNegate stack
  | 0x20 => unary "DW_OP_not" "Logical NOT failed." Scalar.onesComplement stack
  | 0x21 => binary "DW_OP_or" Scalar.or stack
  | 0x22 => binary "DW_OP_plus" Scalar.add stack
  | 0x23 => plusUconst data stack -- DW_OP_plus_uconst
  | 0x24 => binary "DW_OP_shl" Scalar.shiftLeft stack
  | 0x25 => shiftRightLogical stack -- DW_OP_shr
  | 0x26 => binary "DW_OP_shra" Scalar.shiftRight stack
  | 0x27 => binary "DW_OP_xor" Scalar.xor stack
  | 0x28 => bra data opcodesOffset endOffset stack -- DW_OP_bra
  | 0x29 => binary "DW_OP_eq" (fun second top => .ofBool (second.eq top)) stack
  | 0x2a => binary "DW_OP_ge" (fun second top => .ofBool (second.ge top)) stack
  | 0x2b => binary "DW_OP_gt" (fun second top => .ofBool (second.gt top)) stack
  | 0x2c => binary "DW_OP_le" (fun second top => .ofBool (second.le top)) stack
  | 0x2d => binary "DW_OP_lt" (fun second top => .ofBool (second.lt top)) stack
  | 0x2e => binary "DW_OP_ne" (fun second top => .ofBool (second.ne top)) stack
  | 0x2f => skip data opcodesOffset endOffset stack -- DW_OP_skip
  | 0x96 => return stack -- DW_OP_nop
  | _ =>
    -- DW_OP_lit0 to DW_OP_lit31
    if 0x30 ≤ op ∧ op ≤ 0x4f then push stack (.ofInt (BitVec.ofNat 32 (op - 0x30)))
    else other op stack

def evaluateNext (stack : Stack) : Evaluation Stack := do
  let op ← data.getU8
  evaluateOpcode data opcodesOffset endOffset other op stack

/-- The loop: branches may run it forever, so `fuel` bounds its rounds. -/
def evaluateLoop : Nat → Stack → Evaluation Stack
  | 0, _ => ExceptT.lift failure
  | fuel + 1, stack => do
    if data.validOffset (← get) ∧ (← get) < endOffset then
      evaluateLoop fuel (← evaluateNext data opcodesOffset endOffset other stack)
    else return stack

def evaluate (opcodesLength : Nat) (initialValue : Option Scalar) (fuel : Nat) : Option (Except String Scalar) :=
  if opcodesLength = 0 then some (.error "no location, value may have been optimized out")
  else if ¬ data.validOffsetForDataOfSize opcodesOffset opcodesLength then
    some (.error "invalid offset and/or length for opcodes buffer.")
  else
    (evaluateLoop data opcodesOffset (opcodesOffset + opcodesLength) other fuel initialValue.toList opcodesOffset).map
      fun
        | (.error text, _) => .error text
        | (.ok [], _) => .error "Stack empty after evaluation."
        | (.ok (top :: _), _) => .ok top

end Lldb.DWARFExpression
