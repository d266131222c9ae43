import Lldb.Expression.DWARFExpression
import Lldb.Expression.LocationLists
import Lldb.Library.Stoppable
import Lldb.Target.MemoryIntegers

/-! `DWARFExpression::Evaluate` with all of its opcodes, and the parts of `Value` that it uses.

The arithmetic of scalars, the resolution of values that have a type and the memory of the host are parameters. So are
what llvm makes of a shift by more bits than an integer has, and what is read from a LEB128 number that is too long for
the shifts of its digits to be defined. The log is not modelled.
-/

set_option autoImplicit false

namespace Lldb.Evaluate

open Library (Stoppable)
open DWARFExpression (emptyStack needsOneItem needsTwoItems)

instance : Inhabited IntegerScalar := ⟨.void⟩

/-- A scalar is an integer or the bytes of a float, in the order of the host. -/
inductive ValueScalar where
  | integer (scalar : IntegerScalar)
  | float (bytes : List UInt8)
  deriving DecidableEq, Inhabited

namespace ValueScalar

def void : ValueScalar := .integer .void

def ofInt (value : Int) : ValueScalar := .integer ⟨.sint, .ofValue 32 value⟩

def ofUInt (value : Nat) : ValueScalar := .integer (.ofUInt value)

def ofLong (value : Int) : ValueScalar := .integer ⟨.slong, .ofValue 64 value⟩

def ofULong (value : Nat) : ValueScalar := .integer (.ofULong value)

def ofBool (value : Bool) : ValueScalar := ofInt (if value then 1 else 0)

def isValid : ValueScalar → Bool
  | integer scalar => scalar.type ≠ .void
  | float _ => true

def getByteSize : ValueScalar → Nat
  | integer scalar => scalar.getByteSize
  | float bytes => bytes.length

end ValueScalar

structure ScalarArithmetic where
  isZero : ValueScalar → Bool
  absoluteValue : ValueScalar → Option ValueScalar
  unaryNegate : ValueScalar → Option ValueScalar
  onesComplement : ValueScalar → Option ValueScalar
  and : ValueScalar → ValueScalar → ValueScalar
  or : ValueScalar → ValueScalar → ValueScalar
  xor : ValueScalar → ValueScalar → ValueScalar
  add : ValueScalar → ValueScalar → ValueScalar
  sub : ValueScalar → ValueScalar → ValueScalar
  mul : ValueScalar → ValueScalar → ValueScalar
  div : ValueScalar → ValueScalar → ValueScalar
  rem : ValueScalar → ValueScalar → ValueScalar
  shiftLeft : ValueScalar → ValueScalar → ValueScalar
  shiftRight : ValueScalar → ValueScalar → ValueScalar
  shiftRightLogical : ValueScalar → ValueScalar → Option ValueScalar
  eq : ValueScalar → ValueScalar → Bool
  ne : ValueScalar → ValueScalar → Bool
  lt : ValueScalar → ValueScalar → Bool
  le : ValueScalar → ValueScalar → Bool
  gt : ValueScalar → ValueScalar → Bool
  ge : ValueScalar → ValueScalar → Bool
  floatULongLong : List UInt8 → Nat
  /-- An integer shifted by more bits than it has. -/
  overshifted : IntegerScalar → Nat → Nat → IntegerScalar
  deriving Inhabited

inductive ValueType where
  | scalar
  | vector
  | fileAddress
  | loadAddress
  | hostAddress
  deriving DecidableEq, Repr

/-- A buffer is copied with its value, whether the scalar points to it or not: none but that of a piece is read. -/
structure Value where
  scalar : ValueScalar
  valueType : ValueType
  vector : List UInt8
  buffer : List UInt8
  /-- Whether the value has a type, and whether its context has one for it. -/
  compilerType : Bool
  contextType : Bool
  deriving DecidableEq

def Value.ofScalar (scalar : ValueScalar) : Value := ⟨scalar, .scalar, [], [], false, false⟩

def Value.empty : Value := .ofScalar .void

structure EvaluateProcess where
  byteOrder : ByteOrder
  readMemory : Nat → Nat → List UInt8
  readPointerFromMemory : Nat → Nat
  errorText : Nat → String

/-- The bytes that `ReadMemory` copies, of as many as are asked for. -/
def EvaluateProcess.read (process : EvaluateProcess) (address size : Nat) : List UInt8 :=
  (process.readMemory address size).take size

structure EvaluateFrame where
  frameBase : Except (Option String) ValueScalar
  cfa : Nat

inductive RegisterRead where
  | unknown
  | unavailable (name : String)
  | notScalar (name : String)
  | scalar (value : ValueScalar)

structure Environment where
  opcodes : DataExtractor
  opcodesOffset : Nat
  opcodesLength : Nat
  arithmetic : ScalarArithmetic
  hasContext : Bool
  process : Option EvaluateProcess
  frame : Option EvaluateFrame
  /-- `GetThreadLocalData` of the thread. -/
  thread : Option (Nat → Nat)
  /-- The load address of a file address that the module resolves. -/
  module : Option (Nat → Option Nat)
  registers : Option (Nat → RegisterRead)
  regKind : Nat
  dwarfUnit : Option LocationUnit
  initialValue : Option Value
  objectAddress : Option Value
  resolveTyped : Value → Value
  hostByteOrder : ByteOrder
  hostMemory : Nat → Int
  bufferAddress : Nat
  overlong : Nat → Nat
  overlongSigned : Nat → Int

inductive Fault where
  | backOfEmptyStack
  | indexOutOfRange
  | addrBytesOverrun
  deriving DecidableEq, Repr

inductive Stop where
  | returnsFalse (error : Option String)
  | fault (fault : Fault)
  deriving DecidableEq, Repr

structure EvaluateState where
  offset : Nat
  stack : List Value
  tmp : Value
  opPieceOffset : Nat
  pieces : Value
  error : Option String
  deriving DecidableEq

abbrev Execution := Stoppable EvaluateState Stop

def fail {α : Type} (text : String) : Execution α := throw (.returnsFalse (some text))

namespace Stack

def size : Execution Nat := return (← get).stack.length

def back : Execution Value := do
  match (← get).stack with
  | top :: _ => return top
  | [] => throw (.fault .backOfEmptyStack)

def popBack : Execution Unit := do
  match (← get).stack with
  | _ :: rest => modify fun state => { state with stack := rest }
  | [] => throw (.fault .backOfEmptyStack)

def pushBack (value : Value) : Execution Unit := modify fun state => { state with stack := value :: state.stack }

/-- An assignment to the value that `back` refers to. -/
def setBack (value : Value) : Execution Unit := do
  match (← get).stack with
  | _ :: rest => modify fun state => { state with stack := value :: rest }
  | [] => throw (.fault .backOfEmptyStack)

def get (index : Nat) : Execution Value := do
  match (← MonadState.get).stack.reverse[index]? with
  | some value => return value
  | none => throw (.fault .indexOutOfRange)

def set (index : Nat) (value : Value) : Execution Unit := do
  let stack := (← MonadState.get).stack
  if index < stack.length then
    modify fun state => { state with stack := stack.set (stack.length - 1 - index) value }
  else throw (.fault .indexOutOfRange)

def setScalar (scalar : ValueScalar) : Execution Unit := do
  let value ← back
  setBack { value with scalar := scalar }

def setValueType (valueType : ValueType) : Execution Unit := do
  let value ← back
  setBack { value with valueType := valueType }

def clearContext : Execution Unit := do
  let value ← back
  setBack { value with contextType := false }

end Stack

def getTmp : Execution Value := return (← get).tmp

def setTmp (value : Value) : Execution Unit := modify fun state => { state with tmp := value }

namespace Environment

variable (env : Environment)

def endOffset : Nat := env.opcodesOffset + env.opcodesLength

/-! Reading operands. -/

def getMaxU64 (size : Nat) : Execution Nat := do
  let state ← get
  let (value, offset) := (env.opcodes.getMaxU64 size state.offset).getD (0, state.offset)
  set { state with offset := offset }
  return value

def skipped (offset : Nat) : Nat := offset + DataExtractor.lebLength (env.opcodes.bytes.drop offset)

def getULEB128 : Execution Nat := do
  let state ← get
  let (value, offset) :=
    (env.opcodes.getULEB128 state.offset).getD (env.overlong state.offset, env.skipped state.offset)
  set { state with offset := offset }
  return value

def getSLEB128 : Execution Int := do
  let state ← get
  let (value, offset) :=
    (env.opcodes.getSLEB128 state.offset).getD (env.overlongSigned state.offset, env.skipped state.offset)
  set { state with offset := offset }
  return value

/-! Values. -/

def uLongLong (scalar : ValueScalar) (failValue : Nat) : Nat :=
  match scalar with
  | .integer scalar => (scalar.uLongLong failValue).toNat
  | .float bytes => env.arithmetic.floatULongLong bytes

/-- `none` where it returns false. Sizes and offsets have 32 bits. -/
def extractBitfield (scalar : ValueScalar) (bitSize bitOffset : Nat) : Option ValueScalar :=
  let bitSize := bitSize % 2 ^ 32
  let bitOffset := bitOffset % 2 ^ 32
  match scalar with
  | .integer scalar =>
    match scalar.extractBitfield bitSize bitOffset with
    | some (true, extracted) => some (.integer extracted)
    | some (false, _) => none
    | none => some (.integer (env.arithmetic.overshifted scalar bitSize bitOffset))
  | .float bytes => if bitSize = 0 then some (.float bytes) else none

def resolveValue (value : Value) : Value :=
  let value := { value with compilerType := value.compilerType || value.contextType }
  if value.compilerType ∧ value.valueType ≠ .scalar then env.resolveTyped value else value

def resizeData (value : Value) (length : Nat) : Value :=
  { value with
    valueType := .hostAddress
    buffer := value.buffer.take length ++ List.replicate (length - value.buffer.length) 0
    scalar := .ofULong env.bufferAddress }

def memoryData (scalar : ValueScalar) : List UInt8 :=
  match scalar with
  | .integer scalar =>
    (scalar.getAsMemoryData env.hostByteOrder (List.replicate scalar.getByteSize 0) env.hostByteOrder).2.1
  | .float bytes => bytes

def appendDataToHostBuffer (value rhs : Value) : Nat × Value :=
  let bytes :=
    match rhs.valueType with
    | .scalar => if 0 < rhs.scalar.getByteSize then env.memoryData rhs.scalar else []
    | .vector => rhs.vector
    | .fileAddress | .loadAddress | .hostAddress => rhs.buffer
  if 0 < bytes.length then
    let resized := env.resizeData value (value.buffer.length + bytes.length)
    (bytes.length, { resized with buffer := value.buffer ++ bytes })
  else (0, value)

def convertToLoadAddress (value : Value) : Value :=
  match env.module with
  | none => value
  | some resolve =>
    let fileAddr := env.uLongLong value.scalar invalidAddress
    if value.valueType ≠ .fileAddress ∨ fileAddr = invalidAddress then value
    else
      match resolve fileAddr with
      | none => value
      | some loadAddr =>
        if loadAddr = invalidAddress then value
        else { value with valueType := .loadAddress, scalar := .ofULong loadAddr }

def readRegisterValueAsScalar (regNum : Nat) : Execution Unit :=
  match env.registers with
  | none => fail "No register context in frame.\n"
  | some read =>
    match read regNum with
    | .unknown =>
      fail ("Unable to convert register kind=" ++ toString env.regKind ++ " reg_num=" ++ toString regNum ++
        " to a native register number.\n")
    | .unavailable name => fail ("register " ++ name ++ " is not available")
    | .notScalar name => fail ("register " ++ name ++ " can't be converted to a scalar value")
    | .scalar value =>
      modify fun state =>
        { state with
          tmp := { state.tmp with scalar := value, valueType := .scalar, contextType := false }
          error := none }

/-! The opcodes. -/

open Stack

def addr : Execution Unit := do
  pushBack (.ofScalar (.ofULong (← env.getMaxU64 env.opcodes.addrSize)))
  setValueType .fileAddress
  if env.frame.isSome then setBack (env.convertToLoadAddress (← back))

def failedToDereference (process : EvaluateProcess) (pointerAddr : Nat) : String :=
  "Failed to dereference pointer from 0x" ++ String.ofList (Nat.toDigits 16 pointerAddr) ++ " for DW_OP_deref: " ++
    process.errorText pointerAddr ++ "\n"

def derefLoadAddress : Execution Unit := do
  if env.hasContext then
    match env.process with
    | some process =>
      let pointerAddr := env.uLongLong (← back).scalar invalidAddress
      let pointerValue := process.readPointerFromMemory pointerAddr
      if pointerValue ≠ invalidAddress then
        setScalar (.ofULong pointerValue)
        clearContext
      else fail (failedToDereference process pointerAddr)
    | none => fail "NULL process for DW_OP_deref.\n"
  else fail "NULL execution context for DW_OP_deref.\n"

def derefFileAddress : Execution Unit := do
  let fileAddr := env.uLongLong (← back).scalar invalidAddress
  match env.module with
  | none => fail "need module to resolve file address for DW_OP_deref"
  | some resolve =>
    match resolve fileAddr with
    | none => fail "failed to resolve file address in module"
    | some loadAddr =>
      if loadAddr = invalidAddress then fail "failed to resolve load address"
      else
        setScalar (.ofULong loadAddr)
        setValueType .loadAddress

def deref : Execution Unit := do
  if (← size) = 0 then fail (emptyStack "DW_OP_deref")
  else
    match (← back).valueType with
    | .hostAddress =>
      let src := env.uLongLong (← back).scalar 0
      setScalar (.ofLong (env.hostMemory src))
      clearContext
    | .fileAddress =>
      env.derefFileAddress
      env.derefLoadAddress
    | .loadAddress => env.derefLoadAddress
    | .scalar | .vector => return ()

def maskPointer (size : Nat) (pointer : Int) : Int := if 1 ≤ size ∧ size ≤ 7 then pointer % 2 ^ (8 * size) else pointer

/-- The buffer has eight bytes; the scalar is made from those that were read. -/
def derefSizeLoadAddress (size : Nat) : Execution Unit := do
  if env.hasContext then
    match env.process with
    | some process =>
      let pointerAddr := env.uLongLong (← back).scalar invalidAddress
      let addrBytes := process.read pointerAddr size
      if 8 < addrBytes.length then throw (.fault .addrBytesOverrun)
      else if addrBytes.length = size then
        let value := process.byteOrder.decode addrBytes
        setScalar (if size = 1 ∨ size = 2 then .ofInt value else if size = 4 then .ofUInt value else .ofULong value)
        clearContext
      else fail (failedToDereference process pointerAddr)
    | none => fail "NULL process for DW_OP_deref.\n"
  else fail "NULL execution context for DW_OP_deref.\n"

def derefSize : Execution Unit := do
  if (← size) = 0 then fail (emptyStack "DW_OP_deref_size")
  else
    let size ← env.getMaxU64 1
    match (← back).valueType with
    | .hostAddress =>
      let src := env.uLongLong (← back).scalar 0
      setScalar (.ofLong (maskPointer size (env.hostMemory src)))
      clearContext
    | .loadAddress => env.derefSizeLoadAddress size
    | .fileAddress | .scalar | .vector => return ()

def constant (size : Nat) (make : Nat → ValueScalar) : Execution Unit := do
  pushBack (.ofScalar (make (← env.getMaxU64 size)))

def constu : Execution Unit := do pushBack (.ofScalar (.ofULong (← env.getULEB128)))

def consts : Execution Unit := do pushBack (.ofScalar (.ofLong (← env.getSLEB128)))

def dup : Execution Unit := do
  if (← size) = 0 then fail (emptyStack "DW_OP_dup")
  else pushBack (← back)

def drop : Execution Unit := do
  if (← size) = 0 then fail (emptyStack "DW_OP_drop")
  else popBack

def over_ : Execution Unit := do
  if (← size) < 2 then fail (needsTwoItems "DW_OP_over")
  else pushBack (← Stack.get ((← size) - 2))

def pick : Execution Unit := do
  let pickIdx ← env.getMaxU64 1
  if pickIdx < (← size) then pushBack (← Stack.get pickIdx)
  else fail ("Index " ++ toString pickIdx ++ " out of range for DW_OP_pick.\n")

def swap : Execution Unit := do
  if (← size) < 2 then fail (needsTwoItems "DW_OP_swap")
  else
    setTmp (← back)
    setBack (← Stack.get ((← size) - 2))
    Stack.set ((← size) - 2) (← getTmp)

def rot : Execution Unit := do
  if (← size) < 3 then fail "Expression stack needs at least 3 items for DW_OP_rot."
  else
    let lastIdx := (← size) - 1
    let oldTop ← Stack.get lastIdx
    Stack.set lastIdx (← Stack.get (lastIdx - 1))
    Stack.set (lastIdx - 1) (← Stack.get (lastIdx - 2))
    Stack.set (lastIdx - 2) oldTop

def unary (opcode failed : String) (operation : ValueScalar → Option ValueScalar) : Execution Unit := do
  if (← size) = 0 then fail (needsOneItem opcode)
  else
    let value := env.resolveValue (← back)
    match operation value.scalar with
    | some scalar => setBack { value with scalar := scalar }
    | none => fail failed

def binary (opcode : String) (operation : ValueScalar → ValueScalar → ValueScalar) : Execution Unit := do
  if (← size) < 2 then fail (needsTwoItems opcode)
  else
    setTmp (← back)
    popBack
    let value := env.resolveValue (← back)
    setTmp (env.resolveValue (← getTmp))
    setBack { value with scalar := operation value.scalar (← getTmp).scalar }

def compare (opcode : String) (operation : ValueScalar → ValueScalar → Bool) : Execution Unit :=
  env.binary opcode fun second top => .ofBool (operation second top)

def div : Execution Unit := do
  if (← size) < 2 then fail (needsTwoItems "DW_OP_div")
  else
    setTmp (env.resolveValue (← back))
    if env.arithmetic.isZero (← getTmp).scalar then fail "Divide by zero."
    else
      popBack
      let value := env.resolveValue (← back)
      let quotient := env.arithmetic.div value.scalar (← getTmp).scalar
      setBack (.ofScalar quotient)
      if ¬ quotient.isValid then fail "Divide failed."

def plus : Execution Unit := do
  if (← size) < 2 then fail (needsTwoItems "DW_OP_plus")
  else
    setTmp (← back)
    popBack
    setScalar (env.arithmetic.add (← back).scalar (← getTmp).scalar)

def plusUconst : Execution Unit := do
  if (← size) = 0 then fail (needsOneItem "DW_OP_plus_uconst")
  else
    let uconstValue ← env.getULEB128
    setScalar (env.arithmetic.add (← back).scalar (.ofULong uconstValue))
    if ¬ (← back).scalar.isValid then fail "DW_OP_plus_uconst failed."

def shr : Execution Unit := do
  if (← size) < 2 then fail (needsTwoItems "DW_OP_shr")
  else
    setTmp (← back)
    popBack
    let value := env.resolveValue (← back)
    setTmp (env.resolveValue (← getTmp))
    match env.arithmetic.shiftRightLogical value.scalar (← getTmp).scalar with
    | some scalar => setBack { value with scalar := scalar }
    | none => fail "DW_OP_shr failed."

/-- A branch by an `int16_t`, in the unsigned arithmetic of offsets. -/
def branch (opcode : String) (delta : Nat) : Execution Unit := do
  let newOffset := (((← get).offset + (BitVec.ofNat 16 delta).toInt) % 2 ^ 64).toNat
  if newOffset ≥ env.opcodesOffset ∧ newOffset < env.endOffset then
    modify fun state => { state with offset := newOffset }
  else fail ("Invalid opcode offset in " ++ opcode ++ ".")

def skip : Execution Unit := do
  let skipOffset ← env.getMaxU64 2
  env.branch "DW_OP_skip" skipOffset

def bra : Execution Unit := do
  if (← size) = 0 then fail (needsOneItem "DW_OP_bra")
  else
    setTmp (← back)
    popBack
    let braOffset ← env.getMaxU64 2
    setTmp (env.resolveValue (← getTmp))
    if env.arithmetic.ne (← getTmp).scalar (.ofInt 0) then env.branch "DW_OP_bra" braOffset

def reg (regNum : Nat) : Execution Unit := do
  env.readRegisterValueAsScalar regNum
  pushBack (← getTmp)

def regx : Execution Unit := do env.reg ((← env.getULEB128) % 2 ^ 32)

def breg (regNum : Nat) : Execution Unit := do
  env.readRegisterValueAsScalar regNum
  let bregOffset ← env.getSLEB128
  let value := env.resolveValue (← getTmp)
  let address := env.arithmetic.add value.scalar (.ofULong (bregOffset % 2 ^ 64).toNat)
  setTmp { value with scalar := address, contextType := false }
  pushBack (← getTmp)
  setValueType .loadAddress

def bregx : Execution Unit := do env.breg ((← env.getULEB128) % 2 ^ 32)

def fbreg : Execution Unit := do
  if env.hasContext then
    match env.frame with
    | some frame =>
      match frame.frameBase with
      | .ok value =>
        let fbregOffset ← env.getSLEB128
        pushBack (.ofScalar (env.arithmetic.add value (.ofLong fbregOffset)))
        setValueType .loadAddress
      | .error text => throw (.returnsFalse text)
    | none => fail "Invalid stack frame in context for DW_OP_fbreg opcode."
  else fail "NULL execution context for DW_OP_fbreg.\n"

/-- What `curr_piece` becomes from the value that was on top; a load address is read only from a process. -/
def currPiece (source : Value) (pieceByteSize : Nat) : Except String Value :=
  match source.valueType with
  | .loadAddress =>
    match env.process with
    | some process =>
      let loadAddr := env.uLongLong source.scalar invalidAddress
      let bytes := process.read loadAddr pieceByteSize
      if bytes.length ≠ pieceByteSize then
        .error ("failed to read memory DW_OP_piece(" ++ toString pieceByteSize ++ ") from 0x" ++
          String.ofList (Nat.toDigits 16 loadAddr))
      else .ok { env.resizeData .empty pieceByteSize with buffer := bytes }
    | none => .ok .empty
  | .fileAddress | .hostAddress =>
    .error ("failed to read memory DW_OP_piece(" ++ toString pieceByteSize ++ ") from " ++
      (if source.valueType = .fileAddress then "file" else "host") ++ " address 0x" ++
      String.ofList (Nat.toDigits 16 (env.uLongLong source.scalar invalidAddress)))
  | .scalar =>
    match env.extractBitfield source.scalar (pieceByteSize * 8) 0 with
    | some scalar => .ok { source with scalar := scalar }
    | none =>
      .error ("unable to extract " ++ toString pieceByteSize ++ " bytes from a " ++
        toString source.scalar.getByteSize ++ " byte scalar value.")
  | .vector =>
    -- The vector is cut to the piece, but `curr_piece` stays empty.
    if pieceByteSize ≤ source.vector.length then .ok .empty
    else
      .error ("unable to extract " ++ toString pieceByteSize ++ " bytes from a " ++ toString source.vector.length ++
        " byte vector value.")

def appendPiece (currPiece : Value) : Execution Unit := do
  let (count, pieces) := env.appendDataToHostBuffer (← get).pieces currPiece
  modify fun state => { state with pieces := pieces }
  if count = 0 then fail "failed to append piece data"

def piece : Execution Unit := do
  let pieceByteSize ← env.getULEB128
  if 0 < pieceByteSize then
    if (← size) = 0 then
      let zeros := env.resizeData .empty pieceByteSize
      modify fun state => { state with pieces := (env.appendDataToHostBuffer state.pieces zeros).2 }
    else
      let source ← back
      popBack
      match env.currPiece source pieceByteSize with
      | .error text => fail text
      | .ok currPiece =>
        let opPieceOffset := (← get).opPieceOffset
        if opPieceOffset = 0 then env.appendPiece currPiece
        else
          let byteSize := (← get).pieces.buffer.length
          if byteSize ≠ opPieceOffset then
            fail ("DW_OP_piece for offset " ++ toString opPieceOffset ++ " but top of stack is of size " ++
              toString byteSize)
          else env.appendPiece currPiece
        modify fun state => { state with opPieceOffset := (state.opPieceOffset + pieceByteSize) % 2 ^ 64 }

def bitPiece : Execution Unit := do
  if (← size) < 1 then fail (needsOneItem "DW_OP_bit_piece")
  else
    let pieceBitSize ← env.getULEB128
    let pieceBitOffset ← env.getULEB128
    match (← back).valueType with
    | .scalar =>
      let scalar := (← back).scalar
      match env.extractBitfield scalar pieceBitSize pieceBitOffset with
      | some extracted => setScalar extracted
      | none =>
        fail ("unable to extract " ++ toString pieceBitSize ++ " bit value with " ++ toString pieceBitOffset ++
          " bit offset from a " ++ toString (scalar.getByteSize * 8) ++ " bit scalar value.")
    | .fileAddress | .loadAddress | .hostAddress =>
      fail ("unable to extract DW_OP_bit_piece(bit_size = " ++ toString pieceBitSize ++ ", bit_offset = " ++
        toString pieceBitOffset ++ ") from an address value.")
    | .vector =>
      fail ("unable to extract DW_OP_bit_piece(bit_size = " ++ toString pieceBitSize ++ ", bit_offset = " ++
        toString pieceBitOffset ++ ") from a vector value.")

def pushObjectAddress : Execution Unit :=
  match env.objectAddress with
  | some address => pushBack address
  | none => fail "DW_OP_push_object_address used without specifying an object address"

def stackValue : Execution Unit := setValueType .scalar

def callFrameCfa : Execution Unit :=
  match env.frame with
  | some frame =>
    if frame.cfa ≠ invalidAddress then do
      pushBack (.ofScalar (.ofULong frame.cfa))
      setValueType .loadAddress
    else
      modify fun state =>
        { state with error := some ("Stack frame does not include a canonical " ++
            "frame address for DW_OP_call_frame_cfa opcode.") }
  | none => fail "Invalid stack frame in context for DW_OP_call_frame_cfa opcode."

def formTlsAddress (opcode : String) : Execution Unit := do
  if (← size) < 1 then fail (opcode ++ " needs an argument.")
  else if ¬ env.hasContext ∨ env.module.isNone then fail "No context to evaluate TLS within."
  else
    match env.thread with
    | none => fail "No thread to evaluate TLS within."
    | some getThreadLocalData =>
      let tlsFileAddr := env.uLongLong (← back).scalar invalidAddress
      let tlsLoadAddr := getThreadLocalData tlsFileAddr
      if tlsLoadAddr = invalidAddress then fail "No TLS data currently exists for this thread."
      else
        setScalar (.ofULong tlsLoadAddr)
        setValueType .loadAddress

/-- An entry of `.debug_addr`, with an index of 64 bits. -/
def debugAddr (unit : LocationUnit) (index : Nat) : Nat :=
  let offset := (unit.addrBase + index * unit.addressByteSize) % 2 ^ 64
  ((unit.debugAddrData.getMaxU64 unit.addressByteSize offset).map Prod.fst).getD 0

def gnuAddrIndex : Execution Unit :=
  match env.dwarfUnit with
  | none => fail "DW_OP_GNU_addr_index found without a compile unit being specified"
  | some unit => do
    let index ← env.getULEB128
    pushBack (.ofScalar (.ofULong (debugAddr unit index)))
    setValueType .fileAddress

def gnuConstIndex : Execution Unit :=
  match env.dwarfUnit with
  | none => fail "DW_OP_GNU_const_index found without a compile unit being specified"
  | some unit => do
    let index ← env.getULEB128
    if unit.addressByteSize = 4 then pushBack (.ofScalar (.ofUInt (debugAddr unit index)))
    else if unit.addressByteSize = 8 then pushBack (.ofScalar (.ofULong (debugAddr unit index)))
    else throw (.returnsFalse none)

def evaluateOpcode (op : Nat) : Execution Unit :=
  match op with
  | 0x03 => env.addr -- DW_OP_addr
  | 0x06 => env.deref -- DW_OP_deref
  | 0x08 => env.constant 1 fun value => .ofInt value -- DW_OP_const1u
  | 0x09 => env.constant 1 fun value => .ofInt (BitVec.ofNat 8 value).toInt -- DW_OP_const1s
  | 0x0a => env.constant 2 fun value => .ofInt value -- DW_OP_const2u
  | 0x0b => env.constant 2 fun value => .ofInt (BitVec.ofNat 16 value).toInt -- DW_OP_const2s
  | 0x0c => env.constant 4 .ofUInt -- DW_OP_const4u
  | 0x0d => env.constant 4 fun value => .ofInt (BitVec.ofNat 32 value).toInt -- DW_OP_const4s
  | 0x0e => env.constant 8 .ofULong -- DW_OP_const8u
  | 0x0f => env.constant 8 fun value => .ofLong (BitVec.ofNat 64 value).toInt -- DW_OP_const8s
  | 0x10 => env.constu -- DW_OP_constu
  | 0x11 => env.consts -- DW_OP_consts
  | 0x12 => dup -- DW_OP_dup
  | 0x13 => drop -- DW_OP_drop
  | 0x14 => over_ -- DW_OP_over
  | 0x15 => env.pick -- DW_OP_pick
  | 0x16 => swap -- DW_OP_swap
  | 0x17 => rot -- DW_OP_rot
  | 0x18 => fail "Unimplemented opcode: DW_OP_xderef." -- DW_OP_xderef
  | 0x19 => -- DW_OP_abs
    env.unary "DW_OP_abs" "Failed to take the absolute value of the first stack item." env.arithmetic.absoluteValue
  | 0x1a => env.binary "DW_OP_and" env.arithmetic.and -- DW_OP_and
  | 0x1b => env.div -- DW_OP_div
  | 0x1c => env.binary "DW_OP_minus" env.arithmetic.sub -- DW_OP_minus
  | 0x1d => env.binary "DW_OP_mod" env.arithmetic.rem -- DW_OP_mod
  | 0x1e => env.binary "DW_OP_mul" env.arithmetic.mul -- DW_OP_mul
  | 0x1f => env.unary "DW_OP_neg" "Unary negate failed." env.arithmetic.unaryNegate -- DW_OP_neg
  | 0x20 => env.unary "DW_OP_not" "Logical NOT failed." env.arithmetic.onesComplement -- DW_OP_not
  | 0x21 => env.binary "DW_OP_or" env.arithmetic.or -- DW_OP_or
  | 0x22 => env.plus -- DW_OP_plus
  | 0x23 => env.plusUconst -- DW_OP_plus_uconst
  | 0x24 => env.binary "DW_OP_shl" env.arithmetic.shiftLeft -- DW_OP_shl
  | 0x25 => env.shr -- DW_OP_shr
  | 0x26 => env.binary "DW_OP_shra" env.arithmetic.shiftRight -- DW_OP_shra
  | 0x27 => env.binary "DW_OP_xor" env.arithmetic.xor -- DW_OP_xor
  | 0x28 => env.bra -- DW_OP_bra
  | 0x29 => env.compare "DW_OP_eq" env.arithmetic.eq -- DW_OP_eq
  | 0x2a => env.compare "DW_OP_ge" env.arithmetic.ge -- DW_OP_ge
  | 0x2b => env.compare "DW_OP_gt" env.arithmetic.gt -- DW_OP_gt
  | 0x2c => env.compare "DW_OP_le" env.arithmetic.le -- DW_OP_le
  | 0x2d => env.compare "DW_OP_lt" env.arithmetic.lt -- DW_OP_lt
  | 0x2e => env.compare "DW_OP_ne" env.arithmetic.ne -- DW_OP_ne
  | 0x2f => env.skip -- DW_OP_skip
  | 0x90 => env.regx -- DW_OP_regx
  | 0x91 => env.fbreg -- DW_OP_fbreg
  | 0x92 => env.bregx -- DW_OP_bregx
  | 0x93 => env.piece -- DW_OP_piece
  | 0x94 => env.derefSize -- DW_OP_deref_size
  | 0x95 => fail "Unimplemented opcode: DW_OP_xderef_size." -- DW_OP_xderef_size
  | 0x96 => return () -- DW_OP_nop
  | 0x97 => env.pushObjectAddress -- DW_OP_push_object_address
  | 0x98 => fail "Unimplemented opcode DW_OP_call2." -- DW_OP_call2
  | 0x99 => fail "Unimplemented opcode DW_OP_call4." -- DW_OP_call4
  | 0x9b => env.formTlsAddress "DW_OP_form_tls_address" -- DW_OP_form_tls_address
  | 0x9c => env.callFrameCfa -- DW_OP_call_frame_cfa
  | 0x9d => env.bitPiece -- DW_OP_bit_piece
  | 0x9f => stackValue -- DW_OP_stack_value
  | 0xe0 => env.formTlsAddress "DW_OP_GNU_push_tls_address" -- DW_OP_GNU_push_tls_address
  | 0xfb => env.gnuAddrIndex -- DW_OP_GNU_addr_index
  | 0xfc => env.gnuConstIndex -- DW_OP_GNU_const_index
  | _ =>
    -- DW_OP_lit0 to DW_OP_lit31, DW_OP_reg0 to DW_OP_reg31 and DW_OP_breg0 to DW_OP_breg31
    if 0x30 ≤ op ∧ op ≤ 0x4f then pushBack (.ofScalar (.ofInt (op - 0x30)))
    else if 0x50 ≤ op ∧ op ≤ 0x6f then env.reg (op - 0x50)
    else if 0x70 ≤ op ∧ op ≤ 0x8f then env.breg (op - 0x70)
    else return ()

def evaluateNext : Execution Unit := do
  let op ← env.getMaxU64 1
  env.evaluateOpcode op

def goesOn (state : EvaluateState) : Bool := env.opcodes.validOffset state.offset && state.offset < env.endOffset

inductive Outcome where
  | returnsTrue (result : Value) (error : Option String)
  | stopped (stop : Stop)
  deriving DecidableEq

def finish (state : EvaluateState) : Outcome :=
  match state.stack with
  | top :: _ => .returnsTrue top state.error
  | [] =>
    if 0 < state.pieces.buffer.length then .returnsTrue state.pieces state.error
    else .stopped (.returnsFalse (some "Stack empty after evaluation."))

/-- Branches may run the loop forever, so `fuel` bounds its rounds. -/
def evaluateLoop : Nat → EvaluateState → Option Outcome
  | 0, _ => none
  | fuel + 1, state =>
    if env.goesOn state then
      match env.evaluateNext state with
      | .ok (_, after) => evaluateLoop fuel after
      | .error stop => some (.stopped stop)
    else some (finish state)

def start : EvaluateState where
  offset := env.opcodesOffset
  stack := env.initialValue.toList
  tmp := .empty
  opPieceOffset := 0
  pieces := .empty
  error := none

def evaluate (fuel : Nat) : Option Outcome :=
  if env.opcodesLength = 0 then
    some (.stopped (.returnsFalse (some "no location, value may have been optimized out")))
  else if ¬ env.opcodes.validOffsetForDataOfSize env.opcodesOffset env.opcodesLength then
    some (.stopped (.returnsFalse (some "invalid offset and/or length for opcodes buffer.")))
  else env.evaluateLoop fuel env.start

end Environment

end Lldb.Evaluate
