import Lldb.Core.RangeDataArray

/-! `ProcessElfCore`: the memory of a process from the load segments of its core file.

The core module and its object file are there; notes, threads and modules are not modelled. Offsets and
addresses are 64-bit numbers.
-/

set_option autoImplicit false

namespace Lldb

/-- `SetRangeEnd` where sizes have 64 bits as well. -/
def Range.setRangeEnd64 (range : Range) (end_ : Nat) : Range :=
  if end_ > range.base then ⟨range.base, end_ - range.base⟩ else ⟨range.base, 0⟩

structure ELFProgramHeader where
  type : Nat
  flags : Nat
  offset : Nat
  vaddr : Nat
  filesz : Nat
  memsz : Nat
  deriving DecidableEq, Repr

def ptLoad : Nat := 1

namespace ELFProgramHeader

def ePermissionsWritable : Nat := 1
def ePermissionsReadable : Nat := 2
def ePermissionsExecutable : Nat := 4

/-- From `PF_R`, `PF_W` and `PF_X`. -/
def permissions (header : ELFProgramHeader) : Nat :=
  (if header.flags.testBit 2 then ePermissionsReadable else 0) |||
    (if header.flags.testBit 1 then ePermissionsWritable else 0) |||
    (if header.flags.testBit 0 then ePermissionsExecutable else 0)

def rangeEntry (header : ELFProgramHeader) : RangeData Range :=
  ⟨⟨header.vaddr, header.memsz⟩, ⟨header.offset, header.filesz⟩⟩

end ELFProgramHeader

structure ProcessElfCore where
  coreAranges : RangeDataArray Range
  coreRangeInfos : RangeDataArray Nat
  deriving DecidableEq, Repr

namespace ProcessElfCore

def touches (last entry : RangeData Range) : Bool :=
  last.range.rangeEnd = entry.range.base && last.data.rangeEnd = entry.data.base &&
    last.range.size = last.data.size

def extend (last entry : RangeData Range) : RangeData Range :=
  ⟨last.range.setRangeEnd64 entry.range.rangeEnd, last.data.setRangeEnd64 entry.data.rangeEnd⟩

def addRange (aranges : RangeDataArray Range) (entry : RangeData Range) : RangeDataArray Range :=
  match aranges.entries.getLast? with
  | some last =>
      if touches last entry then ⟨aranges.entries.dropLast ++ [extend last entry]⟩ else aranges.append entry
  | none => aranges.append entry

def addAddressRangeFromLoadSegment (core : ProcessElfCore) (header : ELFProgramHeader) : Nat × ProcessElfCore :=
  (header.vaddr, {
      coreAranges := addRange core.coreAranges header.rangeEntry
      coreRangeInfos := core.coreRangeInfos.append ⟨⟨header.vaddr, header.memsz⟩, header.permissions⟩ })

/-- The loop of `DoLoadCore` over the segments. -/
structure LoadState where
  core : ProcessElfCore
  vmAddr : Nat
  rangesAreSorted : Bool
  deriving DecidableEq, Repr

def LoadState.next (state : LoadState) (header : ELFProgramHeader) : LoadState :=
  if header.type = ptLoad then
    let (lastAddr, core) := state.core.addAddressRangeFromLoadSegment header
    ⟨core, lastAddr, if state.vmAddr > lastAddr then false else state.rangesAreSorted⟩
  else state

def loadSegments (headers : List ELFProgramHeader) : ProcessElfCore :=
  let state := headers.foldl LoadState.next ⟨⟨⟨[]⟩, ⟨[]⟩⟩, 0, true⟩
  if state.rangesAreSorted then state.core
  else ⟨state.core.coreAranges.sort Range.lt, state.core.coreRangeInfos.sort fun left right => left < right⟩

/-- `ObjectFile::CopyData`: all the bytes that are asked for, or none. -/
def copyData (file : List UInt8) (offset length : Nat) : List UInt8 :=
  if length ≤ file.length - offset then (file.drop offset).take length else []

structure MemoryRead where
  bytes : List UInt8
  error : Option String
  deriving DecidableEq, Repr

def doReadMemory (core : ProcessElfCore) (file : List UInt8) (addr size : Nat) : MemoryRead :=
  match core.coreAranges.findEntryThatContains addr with
  | none => ⟨[], some ("core file does not contain 0x" ++ String.ofList (Nat.toDigits 16 addr))⟩
  | some addressRange =>
      if addressRange.range.rangeEnd < addr then
        ⟨[], some ("core file does not contain 0x" ++ String.ofList (Nat.toDigits 16 addr))⟩
      else
        let offset := addr - addressRange.range.base
        let fileStart := addressRange.data.base
        let fileEnd := addressRange.data.rangeEnd
        if fileStart = fileEnd then ⟨[], none⟩
        else
          let place := (fileStart + offset) % 2 ^ 64
          let bytesLeft := if fileEnd > place then fileEnd - place else 0
          let zeroFillSize := if size > bytesLeft then size - bytesLeft else 0
          let bytesToRead := if size > bytesLeft then bytesLeft else size
          let bytesCopied := if bytesToRead ≠ 0 then copyData file place bytesToRead else []
          ⟨bytesCopied ++ List.replicate zeroFillSize 0, none⟩

end ProcessElfCore

end Lldb
