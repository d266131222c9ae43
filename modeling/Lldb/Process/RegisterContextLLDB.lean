import Lldb.Expression.DWARFExpression
import Lldb.Symbol.UnwindPlan

/-! `RegisterContextLLDB`: the canonical frame address and the registers of the caller, from the row of an
unwind plan. Registers go by their numbers in the plan.
-/

set_option autoImplicit false

namespace Lldb

open DWARFExpression

structure UnwindFrame where
  /-- What the registers that can be read hold. -/
  registers : Nat → Option Nat
  /-- The sizes of the registers that there are. -/
  byteSize : Nat → Option Nat
  memory : Nat → Option UInt8
  byteOrder : ByteOrder
  addressByteSize : Nat
  isFrameZero : Bool
  /-- The register is the program counter or the return address. -/
  isPCOrRA : Nat → Bool
  /-- What the ABI says about registers that the plan says nothing about. -/
  getFallbackRegisterLocation : Nat → Option RegisterLocation
  /-- The opcodes that do more than work on the stack. -/
  otherOpcode : DataExtractor → Nat → Stack → Evaluation Stack

/-- `UnwindLLDB::RegisterLocation` -/
inductive SavedLocation where
  | inLiveRegisterContext (regNum : Nat)
  | inRegister (regNum : Nat)
  | savedAtMemoryLocation (address : Nat)
  | valueInferred (value : Nat)
  deriving DecidableEq, Repr

inductive RegisterSearchResult where
  | registerFound (location : SavedLocation)
  | registerNotFound
  | registerIsVolatile
  deriving DecidableEq, Repr

def Scalar.uLongLong (scalar : Scalar) : Nat := if scalar.isValid then (scalar.integer.setWidth 64).toNat else 0

/-- `LLDB_INVALID_ADDRESS` -/
def invalidUnwindAddress : Nat := 2 ^ 64 - 1

/-- An address and an `int32_t` -/
def addOffset (address : Nat) (offset : Int) : Nat := ((address + offset) % 2 ^ 64).toNat

def DWARFExpr.bytes (expr : DWARFExpr) : List UInt8 := expr.opcodes.take expr.length

def setUInt (value byteSize : Nat) : Option Nat :=
  if byteSize = 0 then some value
  else if byteSize = 1 then some (value % 2 ^ 8)
  else if byteSize ≤ 2 then some (value % 2 ^ 16)
  else if byteSize ≤ 4 then some (value % 2 ^ 32)
  else if byteSize ≤ 16 then some value
  else none

/-- `GetAsUInt64`, which fails for more than 64 bits. -/
def getAsUInt64 (value byteSize : Nat) : Nat := if byteSize ≤ 8 then value else 2 ^ 64 - 1

namespace UnwindFrame

variable (frame : UnwindFrame)

def readRegisterValueFromMemory (address byteSize : Nat) : Option Nat :=
  ((List.range byteSize).mapM fun index => frame.memory ((address + index) % 2 ^ 64)).map frame.byteOrder.decode

/-- The evaluation may fail, or not come to an end in `fuel` rounds. -/
def evaluateExpression (fuel : Nat) (expr : DWARFExpr) : Option (Option Nat) :=
  let data : DataExtractor := ⟨expr.bytes, frame.byteOrder, frame.addressByteSize⟩
  (evaluate data 0 (frame.otherOpcode data) expr.length none fuel).map
    fun
      | .ok result => some result.uLongLong
      | .error _ => none

def readCFAValueForRow (fuel : Nat) (row : Row) : Option (Option Nat) :=
  match row.cfaValue with
  | .isRegisterDereferenced regNum => some do
    let contents ← frame.registers regNum
    let byteSize ← frame.byteSize regNum
    return getAsUInt64 (← frame.readRegisterValueFromMemory contents byteSize) byteSize
  | .isRegisterPlusOffset regNum offset => some do
    let contents ← frame.registers regNum
    if contents = invalidUnwindAddress ∨ contents = 0 ∨ contents = 1 then failure
    return addOffset contents offset
  | .isDWARFExpression expr => frame.evaluateExpression fuel expr
  | .unspecified => some none

/-- What `SavedLocationForRegister` makes of the location in a row. -/
def savedLocation (fuel cfa regNum : Nat) : Option RegisterLocation → Option RegisterSearchResult
  | none =>
    -- Without a location the register of the innermost frame is the live one.
    some (if frame.isFrameZero then .registerFound (.inLiveRegisterContext regNum) else .registerNotFound)
  | some .unspecified => some .registerNotFound
  | some .undefined => some .registerIsVolatile
  | some .same =>
    some (if frame.isFrameZero = false ∧ frame.isPCOrRA regNum then .registerNotFound
      else .registerFound (.inRegister regNum))
  | some (.isCFAPlusOffset offset) => some (.registerFound (.valueInferred (addOffset cfa offset)))
  | some (.atCFAPlusOffset offset) => some (.registerFound (.savedAtMemoryLocation (addOffset cfa offset)))
  | some (.inOtherRegister other) =>
    some (if (frame.byteSize other).isSome then .registerFound (.inRegister other) else .registerNotFound)
  | some (.isDWARFExpression expr) => do
    match ← frame.evaluateExpression fuel expr with
    | some value => return .registerFound (.valueInferred value)
    | none => return .registerNotFound
  | some (.atDWARFExpression expr) => do
    match ← frame.evaluateExpression fuel expr with
    | some value => return .registerFound (.savedAtMemoryLocation value)
    | none => return .registerNotFound

def savedLocationForRegister (fuel cfa : Nat) (row : Row) (regNum : Nat) : Option RegisterSearchResult :=
  frame.savedLocation fuel cfa regNum (row.getRegisterInfo regNum <|> frame.getFallbackRegisterLocation regNum)

def readRegisterValueFromRegisterLocation (regNum : Nat) : SavedLocation → Option Nat
  | .inLiveRegisterContext other | .inRegister other => frame.registers other
  | .savedAtMemoryLocation address => do frame.readRegisterValueFromMemory address (← frame.byteSize regNum)
  | .valueInferred value => do setUInt value (← frame.byteSize regNum)

/-- A register of the caller: where it is found, and its value if it can be read from there. -/
def recover (fuel : Nat) (row : Row) (regNum : Nat) : Option (RegisterSearchResult × Option Nat) := do
  match ← frame.readCFAValueForRow fuel row with
  | none => return (.registerNotFound, none) -- The frame is not valid.
  | some cfa =>
    match ← frame.savedLocationForRegister fuel cfa row regNum with
    | .registerFound location =>
      return (.registerFound location, frame.readRegisterValueFromRegisterLocation regNum location)
    | missing => return (missing, none)

end UnwindFrame

end Lldb
