import Lldb.Symbol.UnwindPlan
import Lldb.Utility.DataExtractor

/-! `DWARFCallFrameInfo`: from the CIEs and FDEs of a section to `UnwindPlan`s.

A failing assertion and an operation that C++ leaves undefined give `none`. The section is
there and not encrypted, and plans are made from new ones.
-/

set_option autoImplicit false

namespace Lldb

/-- `LLDB_INVALID_ADDRESS`, and `ULLONG_MAX` -/
def CallFrame.invalidAddress : Nat := 2 ^ 64 - 1

inductive DWARFCallFrameInfo.SectionType where
  | eh
  | dwarf
  deriving DecidableEq, Repr

structure CIE where
  cieOffset : Nat
  version : Nat
  augmentation : List UInt8
  addressSize : Nat
  segmentSize : Nat
  codeAlign : Nat
  dataAlign : Int
  returnAddrRegNum : Nat
  instOffset : Nat
  instLength : Nat
  ptrEncoding : Nat
  lsdaAddrEncoding : Nat
  personalityLoc : Nat
  initialRow : Row

/-- The map of CIEs is given by its keys: each CIE in it is the one `ParseCIE` makes there. -/
structure DWARFCallFrameInfo where
  cfiData : DataExtractor
  type : DWARFCallFrameInfo.SectionType
  sectionFileAddress : Nat
  cieMap : List Nat

namespace DWARFCallFrameInfo

open CallFrame

def uint32 (value : Nat) : Nat := value % 2 ^ 32

def int32 (value : Int) : Int := value.bmod (2 ^ 32)

/-- A value of `width` bits, sign extended to 64. -/
def signExtended (width value : Nat) : Nat := (((value : Int).bmod (2 ^ width)) % 2 ^ 64).toNat

variable (data : DataExtractor)

/-- The value part of `GetGNUEHPointer`. -/
def getEncodedValue (encoding : Nat) : Cursor Nat :=
  match encoding with
  | 0x0 => data.getAddress
  | 0x1 => data.getULEB128
  | 0x2 => data.getU16
  | 0x3 => data.getU32
  | 0x4 => data.getU64
  | 0x9 => do return ((← data.getSLEB128) % 2 ^ 64).toNat
  | 0xa => do return signExtended 16 (← data.getU16)
  | 0xb => do return signExtended 32 (← data.getU32)
  | 0xc => data.getU64
  | _ => pure 0

def getGNUEHPointer (encoding pcRelAddr textAddr dataAddr : Nat) : Cursor Nat := fun offset => do
  if encoding = 0xff then return (CallFrame.invalidAddress, offset)
  let base := match encoding &&& 0x70 with
    | 0x10 => if pcRelAddr ≠ CallFrame.invalidAddress then offset + pcRelAddr else offset
    | 0x20 => if textAddr ≠ CallFrame.invalidAddress then textAddr else 0
    | 0x30 => if dataAddr ≠ CallFrame.invalidAddress then dataAddr else 0
    | _ => 0
  let signExtend := (encoding &&& 0x70) ∈ [0x10, 0x20, 0x30, 0x40]
  -- `DW_EH_PE_aligned` moves the pointer to the offset, not the offset
  if encoding &&& 0x70 = 0x50 ∧ data.addrSize ≠ 0 ∧ offset % data.addrSize ≠ 0 then none
  let (value, offset) ← getEncodedValue data (encoding &&& 0x0f) offset
  let signBit := 2 ^ (data.addrSize * 8 - 1)
  if signExtend ∧ data.addrSize < 8 ∧ signBit &&& value ≠ 0 then
    return ((base + (value ||| (2 ^ 64 - signBit))) % 2 ^ 64, offset)
  return ((base + value) % 2 ^ 64, offset)

/-- The row after an instruction that works on a single row, or `none` when it is another one. -/
def handleCommonDwarfOpcode (primaryOpcode extendedOpcode : Nat) (dataAlign : Int) (row : Row) :
    Cursor (Option Row) :=
  if primaryOpcode ≠ 0 then
    match primaryOpcode with
    | 0x80 => do -- DW_CFA_offset
      let opOffset := int32 (int32 (← data.getULEB128) * dataAlign)
      return some (row.setRegisterInfo extendedOpcode (.atCFAPlusOffset opOffset))
    | _ => return none
  else
    match extendedOpcode with
    | 0x00 => return some row -- DW_CFA_nop
    | 0x05 => do -- DW_CFA_offset_extended
      let regNum := uint32 (← data.getULEB128)
      let opOffset := int32 (int32 (← data.getULEB128) * dataAlign)
      return some (row.setRegisterInfo regNum (.atCFAPlusOffset opOffset))
    | 0x07 => do -- DW_CFA_undefined
      let regNum := uint32 (← data.getULEB128)
      return some (row.setRegisterInfo regNum .undefined)
    | 0x08 => do -- DW_CFA_same_value
      let regNum := uint32 (← data.getULEB128)
      return some (row.setRegisterInfo regNum .same)
    | 0x09 => do -- DW_CFA_register
      let regNum := uint32 (← data.getULEB128)
      let otherRegNum := uint32 (← data.getULEB128)
      return some (row.setRegisterInfo regNum (.inOtherRegister otherRegNum))
    | 0x0c => do -- DW_CFA_def_cfa
      let regNum := uint32 (← data.getULEB128)
      let opOffset := int32 (← data.getULEB128)
      return some (row.setCFAValue (.isRegisterPlusOffset regNum opOffset))
    | 0x0d => do -- DW_CFA_def_cfa_register
      let regNum := uint32 (← data.getULEB128)
      return some (row.setCFAValue (.isRegisterPlusOffset regNum row.cfaValue.getOffset))
    | 0x0e => do -- DW_CFA_def_cfa_offset
      let opOffset := int32 (← data.getULEB128)
      return some (row.setCFAValue (.isRegisterPlusOffset row.cfaValue.getRegisterNumber opOffset))
    | 0x0f => do -- DW_CFA_def_cfa_expression
      let blockLen ← data.getULEB128
      let blockData := (← data.getData blockLen).getD []
      return some (row.setCFAValue (.isDWARFExpression ⟨blockData, blockLen % 2 ^ 16⟩))
    | 0x10 => do -- DW_CFA_expression
      let regNum := uint32 (← data.getULEB128)
      let blockLen := uint32 (← data.getULEB128)
      let blockData := (← data.getData blockLen).getD []
      return some (row.setRegisterInfo regNum (.atDWARFExpression ⟨blockData, blockLen % 2 ^ 16⟩))
    | 0x11 => do -- DW_CFA_offset_extended_sf
      let regNum := uint32 (← data.getULEB128)
      let opOffset := int32 (int32 (← data.getSLEB128) * dataAlign)
      return some (row.setRegisterInfo regNum (.atCFAPlusOffset opOffset))
    | 0x12 => do -- DW_CFA_def_cfa_sf
      let regNum := uint32 (← data.getULEB128)
      let opOffset := int32 (int32 (← data.getSLEB128) * dataAlign)
      return some (row.setCFAValue (.isRegisterPlusOffset regNum opOffset))
    | 0x13 => do -- DW_CFA_def_cfa_offset_sf
      let opOffset := int32 (int32 (← data.getSLEB128) * dataAlign)
      return some (row.setCFAValue (.isRegisterPlusOffset row.cfaValue.getRegisterNumber opOffset))
    | 0x16 => do -- DW_CFA_val_expression
      let regNum := uint32 (← data.getULEB128)
      let blockLen := uint32 (← data.getULEB128)
      let blockData := (← data.getData blockLen).getD []
      return some (row.setRegisterInfo regNum (.isDWARFExpression ⟨blockData, blockLen % 2 ^ 16⟩))
    | _ => return none

/-- The loop of `ParseCIE` over the initial instructions; it has no end where it runs out of fuel. -/
def initialInstructions (data : DataExtractor) (endOffset : Nat) (dataAlign : Int) : Nat → Row → Cursor Row
  | 0, _ => fun _ => none
  | fuel + 1, row => fun offset =>
    if offset < endOffset then
      (do
        let inst ← data.getU8
        match ← handleCommonDwarfOpcode data (inst &&& 0xc0) (inst &&& 0x3f) dataAlign row with
        | some row => initialInstructions data endOffset dataAlign fuel row
        | none => return row : Cursor Row) offset
    else some (row, offset)

/-- The augmentation string, of fewer than `room` characters. -/
def readAugmentation (data : DataExtractor) : Nat → Cursor (Option (List UInt8))
  | 0 => return none
  | room + 1 => do
    let byte ← data.getU8
    if byte = 0 then return some []
    return (← readAugmentation data room).map (UInt8.ofNat byte :: ·)

/-- Takes what each character of the augmentation string announces from the augmentation data. -/
def readAugmentationData (info : DWARFCallFrameInfo) : List UInt8 → CIE → Cursor CIE
  | [], cie => return cie
  | aug :: rest, cie => do
    match Char.ofNat aug.toNat with
    | 'L' => readAugmentationData info rest { cie with lsdaAddrEncoding := ← info.cfiData.getU8 }
    | 'P' =>
      let encoding ← info.cfiData.getU8
      let personalityLoc ← getGNUEHPointer info.cfiData encoding info.sectionFileAddress CallFrame.invalidAddress CallFrame.invalidAddress
      readAugmentationData info rest { cie with personalityLoc := personalityLoc }
    | 'R' => readAugmentationData info rest { cie with ptrEncoding := ← info.cfiData.getU8 }
    | _ => readAugmentationData info rest cie

variable (info : DWARFCallFrameInfo)

def readCIEAugmentation (cie : CIE) : Cursor CIE :=
  if cie.augmentation = [] then return cie
  else do
    let augDataLen ← info.cfiData.getULEB128
    let augDataEnd := (← get) + augDataLen
    let cie ← if cie.augmentation.head? = some 'z'.toUInt8 then readAugmentationData info cie.augmentation.tail cie
      else pure cie
    set (uint32 augDataEnd)
    return cie

/-- What precedes the instructions of a CIE: its fields, and where the instructions end. The CIE
is `none` for the null pointer. -/
def parseCIEHeader (cieOffset : Nat) : Cursor (Option CIE × Nat) := do
  let data := info.cfiData
  let cie : CIE := ⟨cieOffset, 255, [], 4, 0, 0, 0, invalidRegNum, 0, 0, 0, 0xff, CallFrame.invalidAddress, .empty⟩
  set cieOffset
  let length ← data.getU32
  let is64bit := length = 2 ^ 32 - 1
  let length ← if is64bit then uint32 <$> data.getU64 else pure length
  let cieId ← if is64bit then uint32 <$> data.getU64 else data.getU32
  let endOffset := uint32 (cieOffset + length + if is64bit then 12 else 4)
  if 0 < length ∧ (info.type = .dwarf ∧ cieId = 2 ^ 32 - 1 ∨ info.type = .eh ∧ cieId = 0) then
    let version ← data.getU8
    if 4 < version then return (none, 0)
    match ← readAugmentation data 8 with
    | none => return (none, 0)
    | some augmentation =>
      let v4 := info.type = .dwarf ∧ 4 ≤ version
      let addressSize ← if v4 then data.getU8 else pure cie.addressSize
      let segmentSize ← if v4 then data.getU8 else pure cie.segmentSize
      let codeAlign ← data.getULEB128
      let dataAlign ← data.getSLEB128
      let returnAddrRegNum ← if info.type = .dwarf ∧ 3 ≤ version then uint32 <$> data.getULEB128 else data.getU8
      let cie ← readCIEAugmentation info { cie with
        version := version
        augmentation := augmentation
        addressSize := addressSize
        segmentSize := segmentSize
        codeAlign := uint32 codeAlign
        dataAlign := int32 dataAlign
        returnAddrRegNum := returnAddrRegNum }
      return (some cie, endOffset)
  else return (some cie, 0)

/-- The CIE at an offset; `none` inside for the null pointer. -/
def parseCIE (cieOffset : Nat) : Option (Option CIE) := do
  match ← parseCIEHeader info cieOffset cieOffset with
  | ((none, _), _) => return none
  | ((some cie, endOffset), offset) =>
    let cie := if offset < endOffset then { cie with instOffset := offset, instLength := endOffset - offset } else cie
    -- the initial row of a new CIE is empty
    let (row, _) ← initialInstructions info.cfiData endOffset cie.dataAlign (info.cfiData.bytes.length + 1) .empty offset
    return some { cie with initialRow := row }

def getCIE (cieOffset : Nat) : Option (Option CIE) :=
  if cieOffset ∈ info.cieMap then parseCIE info cieOffset else some none

/-- What `FDEToUnwindPlan` keeps while it reads instructions: the rows of the plan, the current
row, and the remembered rows, the last one first. -/
structure PlanState where
  rowList : List Row
  row : Row
  stack : List Row

namespace PlanState

variable (state : PlanState)

def finishRow : PlanState :=
  { state with rowList := UnwindPlan.appendRow state.rowList state.row }

def advance (codeAlign delta : Nat) : PlanState :=
  { state.finishRow with row := state.row.slideOffset (uint32 (delta * codeAlign)) }

def restore (regNum : Nat) : PlanState :=
  match state.rowList.head? with
  | none => state
  | some first =>
    match first.getRegisterInfo regNum with
    | none => state
    | some location => { state with row := state.row.setRegisterInfo regNum location }

def rememberState : PlanState := { state with stack := state.row :: state.stack }

def restoreState : PlanState :=
  match state.stack with
  | [] => state
  | row :: rest => { state with row := row.setOffset state.row.offset, stack := rest }

end PlanState

def handleFDEOpcode (codeAlign startFileAddress primaryOpcode extendedOpcode : Nat)
    (state : PlanState) : Cursor PlanState :=
  if primaryOpcode ≠ 0 then
    match primaryOpcode with
    | 0x40 => return state.advance codeAlign extendedOpcode -- DW_CFA_advance_loc
    | 0xc0 => return state.restore extendedOpcode -- DW_CFA_restore
    | _ => return state
  else
    match extendedOpcode with
    | 0x01 => do -- DW_CFA_set_loc
      let location ← data.getPointer
      return { state.finishRow with
        row := state.row.setOffset ((location + 2 ^ 64 - startFileAddress % 2 ^ 64) % 2 ^ 64) }
    | 0x02 => return state.advance codeAlign (← data.getU8) -- DW_CFA_advance_loc1
    | 0x03 => return state.advance codeAlign (← data.getU16) -- DW_CFA_advance_loc2
    | 0x04 => return state.advance codeAlign (← data.getU32) -- DW_CFA_advance_loc4
    | 0x06 => return state.restore (uint32 (← data.getULEB128)) -- DW_CFA_restore_extended
    | 0x0a => return state.rememberState -- DW_CFA_remember_state
    | 0x0b => return state.restoreState -- DW_CFA_restore_state
    | 0x2e => do -- DW_CFA_GNU_args_size
      let _ ← data.getULEB128
      return state
    | _ => return state

/-- The loop of `FDEToUnwindPlan`. -/
def fdeInstructions (data : DataExtractor) (cie : CIE) (endOffset startFileAddress : Nat) :
    Nat → PlanState → Cursor PlanState
  | 0, _ => fun _ => none
  | fuel + 1, state => fun offset =>
    if data.validOffset offset ∧ offset < endOffset then
      (do
        let inst ← data.getU8
        match ← handleCommonDwarfOpcode data (inst &&& 0xc0) (inst &&& 0x3f) cie.dataAlign state.row with
        | some row => fdeInstructions data cie endOffset startFileAddress fuel { state with row := row }
        | none =>
          let state ← handleFDEOpcode data cie.codeAlign startFileAddress (inst &&& 0xc0) (inst &&& 0x3f) state
          fdeInstructions data cie endOffset startFileAddress fuel state : Cursor PlanState) offset
    else some (state, offset)

def planRows (cie : CIE) (offset endOffset startFileAddress : Nat) : Option (List Row) := do
  let (state, _) ← fdeInstructions info.cfiData cie endOffset startFileAddress (info.cfiData.bytes.length + 1)
    ⟨[], cie.initialRow, []⟩ offset
  return UnwindPlan.appendRow state.rowList state.row

structure FDEHeader where
  cie : CIE
  endOffset : Nat
  rangeBase : Nat
  rangeLen : Nat
  lsdaDataFileAddress : Nat

/-- The address of the language specific data of an FDE; the rest of the augmentation data is skipped. -/
def readFDEAugmentation (cie : CIE) : Cursor Nat :=
  if cie.augmentation.head? = some 'z'.toUInt8 then do
    let augDataLen := uint32 (← info.cfiData.getULEB128)
    let savedOffset ← get
    let address ← if augDataLen ≠ 0 ∧ cie.lsdaAddrEncoding ≠ 0xff then do
        let address ← getGNUEHPointer info.cfiData cie.lsdaAddrEncoding info.sectionFileAddress CallFrame.invalidAddress CallFrame.invalidAddress
        pure (if (← get) - savedOffset ≠ augDataLen then CallFrame.invalidAddress else address)
      else pure CallFrame.invalidAddress
    set (savedOffset + augDataLen)
    return address
  else return CallFrame.invalidAddress

def parseFDEHeader (dwarfOffset : Nat) : Cursor FDEHeader := do
  let data := info.cfiData
  set dwarfOffset
  let length ← data.getU32
  let is64bit := length = 2 ^ 32 - 1
  let length ← if is64bit then uint32 <$> data.getU64 else pure length
  let cieOffset ← if is64bit then uint32 <$> data.getU64 else data.getU32
  if info.type = .eh ∧ cieOffset = 0 ∨ cieOffset = 2 ^ 32 - 1 then failure
  let cieOffset := match info.type with
    | .eh => uint32 (dwarfOffset + (if is64bit then 12 else 4) + 2 ^ 32 - cieOffset)
    | .dwarf => cieOffset
  let some cie ← StateT.lift (getCIE info cieOffset) | failure
  let endOffset := uint32 (dwarfOffset + length + if is64bit then 12 else 4)
  let rangeBase ← getGNUEHPointer data cie.ptrEncoding info.sectionFileAddress CallFrame.invalidAddress CallFrame.invalidAddress
  let rangeLen ← getGNUEHPointer data (cie.ptrEncoding &&& 0x0f) info.sectionFileAddress CallFrame.invalidAddress CallFrame.invalidAddress
  let lsda ← readFDEAugmentation info cie
  return ⟨cie, endOffset, rangeBase, rangeLen, lsda⟩

def makePlan (header : FDEHeader) (offset startFileAddress : Nat) : Option UnwindPlan := do
  let rows ← planRows info header.cie offset header.endOffset startFileAddress
  let (base, size) := (header.rangeBase, header.rangeLen)
  return {
    rowList := rows
    sourceName := match info.type with | .eh => "eh_frame CFI" | .dwarf => "DWARF CFI"
    registerKind := match info.type with | .eh => .eHFrame | .dwarf => .dwarf
    returnAddrRegister := header.cie.returnAddrRegNum
    validAddressRange := if base ≠ CallFrame.invalidAddress ∧ size ≠ 0 then some (base, size) else none
    lsda := if header.lsdaDataFileAddress ≠ CallFrame.invalidAddress ∧ header.cie.personalityLoc ≠ CallFrame.invalidAddress then
        some (header.lsdaDataFileAddress, header.cie.personalityLoc)
      else none }

def fdeToUnwindPlan (dwarfOffset startFileAddress : Nat) : Option UnwindPlan := do
  let (header, offset) ← parseFDEHeader info dwarfOffset dwarfOffset
  makePlan info header offset startFileAddress

end DWARFCallFrameInfo

end Lldb
