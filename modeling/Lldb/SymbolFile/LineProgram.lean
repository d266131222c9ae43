import Lldb.SymbolFile.DWARFDebugLine

/-! Contributions to `.debug_line` as they are encoded, and what the parser does with each opcode. -/

set_option autoImplicit false

namespace Lldb.DebugLine

open Library

/-- A file, as the file table and `DW_LNE_define_file` give it. -/
structure FileName where
  name : List UInt8
  dirIdx : Leb128
  modTime : Leb128
  length : Leb128
  plain : 0 ∉ name
  deriving DecidableEq, Repr

namespace FileName

def numbers (file : FileName) : List UInt8 := file.dirIdx.bytes ++ (file.modTime.bytes ++ file.length.bytes)

def encode (file : FileName) : List UInt8 := file.name ++ [0] ++ file.numbers

def Readable (file : FileName) : Prop := file.dirIdx.size ≤ 10 ∧ file.modTime.size ≤ 10 ∧ file.length.size ≤ 10

instance (file : FileName) : Decidable file.Readable := by
  unfold Readable
  infer_instance

def entry (file : FileName) : FileNameEntry :=
  ⟨some file.name, int32 file.dirIdx.unsigned, int32 file.modTime.unsigned, int32 file.length.unsigned⟩

end FileName

/-- How many operands `DW_LNS_copy` to `DW_LNS_set_isa` have. -/
def standardLengths : List UInt8 := [0, 1, 1, 1, 1, 0, 0, 0, 1, 0, 0, 1]

/-- A header with one operation an instruction, and the bytes between its tables and the program. -/
structure LineHeader where
  dwarf64 : Bool
  version : Nat
  minInstLength : UInt8
  defaultIsStmt : UInt8
  lineBase : Int8
  lineRange : UInt8
  standardOpcodeLengths : List UInt8
  includeDirectories : List (List UInt8)
  fileNames : List FileName
  padding : List UInt8
  supported : 2 ≤ version ∧ version ≤ 4
  divides : lineRange ≠ 0
  opcodes : 9 ≤ standardOpcodeLengths.length ∧ standardOpcodeLengths.length < 255
  standard : standardOpcodeLengths.take 12 <+: standardLengths
  directories : ∀ directory ∈ includeDirectories, directory ≠ [] ∧ 0 ∉ directory
  files : ∀ file ∈ fileNames, file.name ≠ []
  deriving DecidableEq, Repr

def LineHeader.opcodeBase (header : LineHeader) : Nat := header.standardOpcodeLengths.length + 1

inductive StandardOp where
  | copy
  | advancePc (delta : Leb128)
  | advanceLine (delta : Leb128)
  | setFile (file : Leb128)
  | setColumn (column : Leb128)
  | negateStmt
  | setBasicBlock
  | constAddPc
  | fixedAdvancePc (delta : BitVec 16)
  | setPrologueEnd
  | setEpilogueBegin
  | setIsa (isa : Leb128)
  deriving DecidableEq, Repr

inductive ExtendedOp where
  | endSequence
  | setAddress4 (address : BitVec 32)
  | setAddress8 (address : BitVec 64)
  | defineFile (file : FileName)
  | unknown (subOpcode : UInt8) (other : subOpcode ∉ [1, 2, 3]) (arguments : List UInt8)
  deriving DecidableEq, Repr

namespace StandardOp

def opcode : StandardOp → UInt8
  | copy => 1
  | advancePc _ => 2
  | advanceLine _ => 3
  | setFile _ => 4
  | setColumn _ => 5
  | negateStmt => 6
  | setBasicBlock => 7
  | constAddPc => 8
  | fixedAdvancePc _ => 9
  | setPrologueEnd => 10
  | setEpilogueBegin => 11
  | setIsa _ => 12

def operands (order : ByteOrder) : StandardOp → List UInt8
  | advancePc operand | advanceLine operand | setFile operand | setColumn operand | setIsa operand => operand.bytes
  | fixedAdvancePc delta => order.encode 2 delta.toNat
  | copy | negateStmt | setBasicBlock | constAddPc | setPrologueEnd | setEpilogueBegin => []

def Readable : StandardOp → Prop
  | advancePc operand | setFile operand | setColumn operand | setIsa operand => operand.size ≤ 10
  | advanceLine delta => DataExtractor.SignedReadable delta
  | copy | negateStmt | setBasicBlock | constAddPc | fixedAdvancePc _ | setPrologueEnd | setEpilogueBegin => True

instance (op : StandardOp) : Decidable op.Readable := by
  cases op <;> unfold Readable <;> infer_instance

def apply (after : Nat) (state : State) : StandardOp → Option State
  | copy => state.appendRowToMatrix after
  | advancePc delta => some (addAddress state (delta.unsigned * state.prologue.minInstLength))
  | advanceLine delta => some (addLine state delta.signed)
  | setFile file => some { state with file := uint16 file.unsigned }
  | setColumn column => some { state with column := uint16 column.unsigned }
  | negateStmt => some { state with isStmt := !state.isStmt }
  | setBasicBlock => some { state with basicBlock := true }
  | constAddPc => (addrOffset state.prologue (255 - state.prologue.opcodeBase)).map (addAddress state)
  | fixedAdvancePc delta => some (addAddress state delta.toNat)
  | setPrologueEnd => some { state with prologueEnd := true }
  | setEpilogueBegin => some { state with epilogueBegin := true }
  | setIsa isa => some { state with isa := uint32 isa.unsigned }

end StandardOp

namespace ExtendedOp

def subOpcode : ExtendedOp → UInt8
  | endSequence => 1
  | setAddress4 _ | setAddress8 _ => 2
  | defineFile _ => 3
  | unknown subOpcode _ _ => subOpcode

def arguments (order : ByteOrder) : ExtendedOp → List UInt8
  | endSequence => []
  | setAddress4 address => order.encode 4 address.toNat
  | setAddress8 address => order.encode 8 address.toNat
  | defineFile file => file.encode
  | unknown _ _ arguments => arguments

def argSize : ExtendedOp → Nat
  | endSequence => 0
  | setAddress4 _ => 4
  | setAddress8 _ => 8
  | defineFile file => file.encode.length
  | unknown _ _ arguments => arguments.length

def Readable : ExtendedOp → Prop
  | defineFile file => file.Readable
  | endSequence | setAddress4 _ | setAddress8 _ | unknown _ _ _ => True

instance (op : ExtendedOp) : Decidable op.Readable := by
  cases op <;> unfold Readable <;> infer_instance

/-- The parser finds the end of the opcode when the length is encoded in so many bytes. -/
def Skipped (lebSize : Nat) : ExtendedOp → Prop
  | endSequence | defineFile _ => True
  | setAddress4 _ | unknown _ _ _ => lebSize = 1
  | setAddress8 _ => lebSize ≠ 5

instance (lebSize : Nat) (op : ExtendedOp) : Decidable (op.Skipped lebSize) := by
  cases op <;> unfold Skipped <;> infer_instance

def apply (after : Nat) (state : State) : ExtendedOp → Option State
  | endSequence => (State.appendRowToMatrix after { state with endSequence := true }).map State.reset
  | setAddress4 address => some { state with address := address.toNat }
  | setAddress8 address => some { state with address := address.toNat }
  | defineFile file =>
    some { state with prologue := { state.prologue with fileNames := state.prologue.fileNames ++ [file.entry] } }
  | unknown _ _ _ => some state

end ExtendedOp

inductive LineInstruction (header : LineHeader) where
  | special (opcode : UInt8) (above : header.opcodeBase ≤ opcode.toNat)
  | standard (op : StandardOp) (known : op.opcode.toNat < header.opcodeBase)
  | unknownStandard (opcode : UInt8) (above : 12 < opcode.toNat) (operands : List Leb128)
      (count : header.standardOpcodeLengths[opcode.toNat - 1]? = some (UInt8.ofNat operands.length))
      (few : operands.length < 256)
  | extended (length : Leb128) (op : ExtendedOp) (exact : length.unsigned = op.argSize + 1)
  deriving DecidableEq, Repr

namespace LineInstruction

variable {header : LineHeader}

def encode (order : ByteOrder) : LineInstruction header → List UInt8
  | special opcode _ => [opcode]
  | standard op _ => op.opcode :: op.operands order
  | unknownStandard opcode _ operands _ _ => opcode :: operands.flatMap Leb128.bytes
  | extended length op _ => 0 :: (length.bytes ++ (op.subOpcode :: op.arguments order))

def Readable : LineInstruction header → Prop
  | special _ _ | unknownStandard _ _ _ _ _ => True
  | standard op _ => op.Readable
  | extended length op _ => length.size ≤ 10 ∧ op.Readable

instance (instruction : LineInstruction header) : Decidable instruction.Readable := by
  cases instruction <;> unfold Readable <;> infer_instance

def Skipped : LineInstruction header → Prop
  | extended length op _ => op.Skipped length.size
  | special _ _ | standard _ _ | unknownStandard _ _ _ _ _ => True

instance (instruction : LineInstruction header) : Decidable instruction.Skipped := by
  cases instruction <;> unfold Skipped <;> infer_instance

def apply (after : Nat) (state : State) : LineInstruction header → Option State
  | special opcode _ => do
    let adjustOpcode := opcode.toNat - state.prologue.opcodeBase
    let delta ← addrOffset state.prologue adjustOpcode
    let lineOffset := state.prologue.lineBase + (adjustOpcode % state.prologue.lineRange : Nat)
    (addAddress (addLine state lineOffset) delta).appendRowToMatrix after
  | standard op _ => op.apply after state
  | unknownStandard _ _ _ _ _ => some state
  | extended _ op _ => op.apply after state

end LineInstruction

def encodeAll {header : LineHeader} (order : ByteOrder) (program : List (LineInstruction header)) : List UInt8 :=
  program.flatMap (LineInstruction.encode order)

namespace LineHeader

def offsetSize (header : LineHeader) : Nat := if header.dwarf64 then 8 else 4

/-- From `minimum_instruction_length` to `opcode_base`. -/
def fixedFields (header : LineHeader) : List UInt8 :=
  [header.minInstLength] ++ ((if 4 ≤ header.version then [1] else []) ++
    [header.defaultIsStmt, header.lineBase.toUInt8, header.lineRange, UInt8.ofNat header.opcodeBase])

def directoryTable (header : LineHeader) : List UInt8 := header.includeDirectories.flatMap (· ++ [0]) ++ [0]

def fileTable (header : LineHeader) : List UInt8 := header.fileNames.flatMap FileName.encode ++ [0]

def tables (header : LineHeader) : List UInt8 :=
  header.fixedFields ++ (header.standardOpcodeLengths ++ (header.directoryTable ++ header.fileTable))

def headerLength (header : LineHeader) : Nat := header.tables.length + header.padding.length

def initialLength (order : ByteOrder) (header : LineHeader) (totalLength : Nat) : List UInt8 :=
  if header.dwarf64 then order.encode 4 (2 ^ 32 - 1) ++ order.encode 8 totalLength else order.encode 4 totalLength

end LineHeader

structure Contribution where
  header : LineHeader
  program : List (LineInstruction header)

namespace Contribution

variable (contribution : Contribution)

def totalLength (order : ByteOrder) : Nat :=
  2 + contribution.header.offsetSize + contribution.header.headerLength + (encodeAll order contribution.program).length

def encode (order : ByteOrder) : List UInt8 :=
  contribution.header.initialLength order (contribution.totalLength order) ++
    (order.encode 2 contribution.header.version ++
      (order.encode contribution.header.offsetSize contribution.header.headerLength ++
        (contribution.header.tables ++ (contribution.header.padding ++ encodeAll order contribution.program))))

end Contribution

end Lldb.DebugLine
