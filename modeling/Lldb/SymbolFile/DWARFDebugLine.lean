import Lldb.Utility.DataExtractor

/-! `DWARFDebugLine`: from a contribution to `.debug_line` to the rows of a line table. -/

set_option autoImplicit false

namespace Lldb.DebugLine

def uint16 (value : Nat) : Nat := value % 2 ^ 16

def uint32 (value : Nat) : Nat := value % 2 ^ 32

def int32 (value : Int) : Int := value.bmod (2 ^ 32)

structure FileNameEntry where
  name : Option (List UInt8)
  dirIdx : Int
  modTime : Int
  length : Int
  deriving DecidableEq, Repr

structure Prologue where
  totalLength : Nat
  version : Nat
  prologueLength : Nat
  minInstLength : Nat
  maximumOperationsPerInstruction : Nat
  defaultIsStmt : Nat
  lineBase : Int
  lineRange : Nat
  opcodeBase : Nat
  standardOpcodeLengths : List Nat
  includeDirectories : List (List UInt8)
  fileNames : List FileNameEntry
  deriving DecidableEq, Repr

structure Row where
  address : Nat
  line : Nat
  column : Nat
  file : Nat
  isStmt : Bool
  basicBlock : Bool
  endSequence : Bool
  prologueEnd : Bool
  epilogueBegin : Bool
  isa : Nat
  deriving DecidableEq, Repr

def Row.reset (defaultIsStmt : Bool) : Row where
  address := 0
  line := 1
  column := 0
  file := 1
  isStmt := defaultIsStmt
  basicBlock := false
  endSequence := false
  prologueEnd := false
  epilogueBegin := false
  isa := 0

def Row.postAppend (row : Row) : Row :=
  { row with basicBlock := false, prologueEnd := false, epilogueBegin := false }

/-- A call of the callback, with the row number that tells what it is for. -/
structure Call where
  offset : Nat
  row : Int
  state : Row
  deriving DecidableEq, Repr

def startParsingLineTable : Int := 0

def doneParsingLineTable : Int := -1

structure State extends Row where
  prologue : Prologue
  row : Int
  calls : List Call
  deriving DecidableEq, Repr

namespace State

def callback (offset : Nat) (state : State) : State :=
  { state with calls := state.calls ++ [⟨uint32 offset, state.row, state.toRow⟩] }

def start (prologue : Prologue) : State :=
  callback 0 { Row.reset (prologue.defaultIsStmt ≠ 0) with prologue, row := startParsingLineTable, calls := [] }

def reset (state : State) : State := { state with toRow := .reset (state.prologue.defaultIsStmt ≠ 0) }

/-- `++row` on an int that has its largest value is undefined. -/
def appendRowToMatrix (offset : Nat) (state : State) : Option State :=
  if state.row + 1 < 2 ^ 31 then
    let called := callback offset { state with row := state.row + 1 }
    some { called with toRow := called.toRow.postAppend }
  else none

def finalize (offset : Nat) (state : State) : State := callback offset { state with row := doneParsingLineTable }

end State

variable (data : DataExtractor)

def getDWARFInitialLength : Cursor (Nat × Bool) := do
  let length ← data.getU32
  if length = 2 ^ 32 - 1 then return (← data.getU64, true)
  return (length, false)

def getDWARFOffset (isDwarf64 : Bool) : Cursor Nat := do
  return uint32 (← data.getMaxU64 (if isDwarf64 then 8 else 4))

def sizeofInitialLength (isDwarf64 : Bool) : Nat := if isDwarf64 then 12 else 4

def getOpcodeLengths : Nat → Cursor (List Nat)
  | 0 => return []
  | count + 1 => do
    let opLen ← data.getU8
    return opLen :: (← getOpcodeLengths count)

/-- The loops over the header tables; `fuel` bounds the number of rounds, each of which moves the offset. -/
def getIncludeDirectories (endPrologueOffset : Nat) : Nat → Cursor (List (List UInt8))
  | 0 => failure
  | fuel + 1 => do
    if (← get) < endPrologueOffset then
      match ← data.getCStr with
      | some (first :: rest) => return (first :: rest) :: (← getIncludeDirectories endPrologueOffset fuel)
      | _ => return []
    else return []

def getFileNameEntry (name : Option (List UInt8)) : Cursor FileNameEntry := do
  let dirIdx ← data.getULEB128
  let modTime ← data.getULEB128
  let length ← data.getULEB128
  return ⟨name, int32 dirIdx, int32 modTime, int32 length⟩

def getFileNames (endPrologueOffset : Nat) : Nat → Cursor (List FileNameEntry)
  | 0 => failure
  | fuel + 1 => do
    if (← get) < endPrologueOffset then
      match ← data.getCStr with
      | some (first :: rest) =>
        let fileEntry ← getFileNameEntry data (some (first :: rest))
        return fileEntry :: (← getFileNames endPrologueOffset fuel)
      | _ => return []
    else return []

def getMaximumOperations (version : Nat) : Cursor Nat := if version ≥ 4 then data.getU8 else return 1

/-- The prologue, or `none` where parsing it fails. The offset stays where the tables end. -/
def parsePrologue : Cursor (Option (Prologue × Bool)) := do
  let (totalLength, isDwarf64) ← getDWARFInitialLength data
  let version ← data.getU16
  if version < 2 ∨ version > 4 then return none
  let prologueLength ← getDWARFOffset data isDwarf64
  let endPrologueOffset := prologueLength + (← get)
  let minInstLength ← data.getU8
  let maximumOperationsPerInstruction ← getMaximumOperations data version
  let defaultIsStmt ← data.getU8
  let lineBase ← data.getU8
  let lineRange ← data.getU8
  let opcodeBase ← data.getU8
  -- `reserve` throws on the size -1
  if opcodeBase = 0 then failure
  let standardOpcodeLengths ← getOpcodeLengths data (opcodeBase - 1)
  let includeDirectories ← getIncludeDirectories data endPrologueOffset (data.bytes.length + 1)
  let fileNames ← getFileNames data endPrologueOffset (data.bytes.length + 1)
  if endPrologueOffset = 0 then return none
  return some ({
    totalLength := uint32 totalLength, version, prologueLength, minInstLength, maximumOperationsPerInstruction,
    defaultIsStmt, lineBase := (lineBase : Int).bmod (2 ^ 8), lineRange, opcodeBase, standardOpcodeLengths,
    includeDirectories, fileNames }, isDwarf64)

def getArgSize (len lebSize : Nat) : Nat := (((len : Int) - lebSize) % 2 ^ 32).toNat

variable (state : State)

def extendedArguments (argSize subOpcode : Nat) : Cursor State := do
  match subOpcode with
  | 1 => -- DW_LNE_end_sequence
    let appended ← StateT.lift (State.appendRowToMatrix (← get) { state with endSequence := true })
    return appended.reset
  | 2 => -- DW_LNE_set_address
    if argSize = 4 then return { state with address := ← data.getU32 }
    else return { state with address := ← data.getU64 }
  | 3 => -- DW_LNE_define_file
    let fileEntry ← getFileNameEntry data (← data.getCStr)
    return { state with prologue := { state.prologue with fileNames := state.prologue.fileNames ++ [fileEntry] } }
  | _ =>
    modify (· + argSize)
    return state

def extendedOpcode : Cursor State := do
  let extOffset ← get
  let len := uint32 (← data.getULEB128)
  let argSize := getArgSize len ((← get) - extOffset)
  let subOpcode ← data.getU8
  extendedArguments data state argSize subOpcode

def skipLEB128s : Nat → Cursor Unit
  | 0 => return ()
  | count + 1 => do
    let _ ← data.skipLEB128
    skipLEB128s count

def addAddress (delta : Nat) : State := { state with address := (state.address + delta) % 2 ^ 64 }

def addLine (delta : Int) : State := { state with line := ((state.line + delta) % 2 ^ 32).toNat }

/-- Dividing by a `line_range` of zero is undefined. -/
def addrOffset (prologue : Prologue) (adjustOpcode : Nat) : Option Nat :=
  if prologue.lineRange = 0 then none
  else some (adjustOpcode / prologue.lineRange * prologue.minInstLength)

def standardOpcode (opcode : Nat) : Cursor State := do
  match opcode with
  | 1 => StateT.lift (state.appendRowToMatrix (← get)) -- DW_LNS_copy
  | 2 => return addAddress state ((← data.getULEB128) * state.prologue.minInstLength) -- DW_LNS_advance_pc
  | 3 => return addLine state (← data.getSLEB128) -- DW_LNS_advance_line
  | 4 => return { state with file := uint16 (← data.getULEB128) } -- DW_LNS_set_file
  | 5 => return { state with column := uint16 (← data.getULEB128) } -- DW_LNS_set_column
  | 6 => return { state with isStmt := !state.isStmt } -- DW_LNS_negate_stmt
  | 7 => return { state with basicBlock := true } -- DW_LNS_set_basic_block
  | 8 => -- DW_LNS_const_add_pc
    return addAddress state (← StateT.lift (addrOffset state.prologue (255 - state.prologue.opcodeBase)))
  | 9 => return addAddress state (← data.getU16) -- DW_LNS_fixed_advance_pc
  | 10 => return { state with prologueEnd := true } -- DW_LNS_set_prologue_end
  | 11 => return { state with epilogueBegin := true } -- DW_LNS_set_epilogue_begin
  | 12 => return { state with isa := uint32 (← data.getULEB128) } -- DW_LNS_set_isa
  | _ =>
    skipLEB128s data (← StateT.lift state.prologue.standardOpcodeLengths[opcode - 1]?)
    return state

def specialOpcode (opcode : Nat) : Cursor State := do
  let adjustOpcode := opcode - state.prologue.opcodeBase
  let addrOffset ← StateT.lift (addrOffset state.prologue adjustOpcode)
  let lineOffset := state.prologue.lineBase + (adjustOpcode % state.prologue.lineRange : Nat)
  StateT.lift ((addAddress (addLine state lineOffset) addrOffset).appendRowToMatrix (← get))

def parseOpcode : Cursor State := do
  let opcode ← data.getU8
  if opcode = 0 then extendedOpcode data state
  else if opcode < state.prologue.opcodeBase then standardOpcode data state opcode
  else specialOpcode state opcode

/-- Each round inside the data moves the offset; outside of it the loop does not end. -/
def statementLoop (endOffset : Nat) : Nat → State → Cursor State
  | 0, _ => failure
  | fuel + 1, state => do
    if (← get) < endOffset then statementLoop endOffset fuel (← parseOpcode data state)
    else return state

/-- The calls of the callback, or `none` where the prologue is not parsed. -/
def parseStatementTable : Cursor (Option (List Call)) := do
  let debugLineOffset ← get
  match ← parsePrologue data with
  | none =>
    set (uint32 debugLineOffset)
    return none
  | some (prologue, isDwarf64) =>
    let endOffset := uint32 (uint32 debugLineOffset + prologue.totalLength + sizeofInitialLength isDwarf64)
    let state ← statementLoop data endOffset (data.bytes.length + 1) (.start prologue)
    return some (state.finalize (← get)).calls

end Lldb.DebugLine
