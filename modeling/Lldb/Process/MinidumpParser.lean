import Lldb.Process.ElfCore
import Lldb.Process.MinidumpTypes
import Mathlib.Data.List.Infix

/-! `MinidumpParser`: streams, lists, strings, module identifiers and memory of a minidump. -/

set_option autoImplicit false

namespace Lldb

open Library

namespace Minidump

structure FileRange where
  offset : UInt32
  size : UInt32
  deriving DecidableEq, Repr

def FileRange.end_ (range : FileRange) : UInt32 := range.offset + range.size

/-- What the parser takes from LLVM and the standard library. It is left open what a `DenseMap` does with
its two reserved keys, and how `std::sort` orders ranges with one offset. -/
structure Support (Map : Type) where
  empty : Map
  find : Map → UInt32 → Option LocationDescriptor
  insert : Map → UInt32 → LocationDescriptor → Map × Bool
  sort : List FileRange → List FileRange
  convertUTF16toUTF8 : List UInt16 → Nat → List UInt8

inductive ArchType where
  | x86 | x8664 | arm | aarch64
  deriving DecidableEq, Repr

inductive VendorType where
  | unknownVendor | apple
  deriving DecidableEq, Repr

inductive OSType where
  | unknownOS | win32 | linux | macOSX | ios
  deriving DecidableEq, Repr

structure Triple where
  arch : ArchType
  vendor : VendorType
  os : OSType
  android : Bool
  deriving DecidableEq, Repr

/-- A triple of an unknown architecture leaves nothing of an `ArchSpec`. -/
abbrev ArchSpec := Option Triple

def ArchSpec.vendor (arch : ArchSpec) : VendorType := (arch.map Triple.vendor).getD .unknownVendor

structure MinidumpParser (Map : Type) where
  dataSp : DataBuffer
  directoryMap : Map
  arch : ArchSpec

structure MemoryRange where
  start : UInt64
  rangeRef : Window
  deriving DecidableEq, Repr

structure MemoryRegionInfo where
  range : Range
  readable : Bool
  writable : Bool
  executable : Bool
  mapped : Bool
  deriving DecidableEq, Repr

namespace StreamType

def threadList : UInt32 := 3
def moduleList : UInt32 := 4
def memoryList : UInt32 := 5
def systemInfo : UInt32 := 7
def memory64List : UInt32 := 9
def memoryInfoList : UInt32 := 16

end StreamType

namespace CvSignature

def pdb70 : UInt32 := 0x53445352
def elfBuildId : UInt32 := 0x4270454c

end CvSignature

namespace MinidumpParser

variable {Map : Type} (support : Support Map)

def create (dataBufSp : DataBuffer) : Option (MinidumpParser Map) :=
  if dataBufSp.size < MinidumpHeader.sizeof then none else some ⟨dataBufSp, support.empty, none⟩

variable (parser : MinidumpParser Map)

def getData : Window := parser.dataSp.file

def getStream (streamType : UInt32) : Window :=
  match support.find parser.directoryMap streamType with
  | none => noBytes
  | some location =>
      if (location.rva + location.dataSize).toNat > parser.dataSp.size then noBytes
      else slice parser.getData location.rva.toNat location.dataSize.toNat

def getMinidumpString (rva : UInt32) : Reading (Option (List UInt8)) :=
  if rva.toNat > parser.dataSp.size then pure none
  else parseMinidumpString support.convertUTF16toUTF8 parser.dataSp (dropFront parser.getData rva.toNat)

def getThreads : Reading ObjectList :=
  let data := parser.getStream support StreamType.threadList
  if data.size = 0 then pure .none_ else MinidumpThread.parseThreadList parser.dataSp data

/-- Of the thread at `td`. -/
def getThreadContext (td : Nat) : Reading Window := do
  let location ← readLocation parser.dataSp (td + 40)
  if (location.rva + location.dataSize).toNat > parser.dataSp.size then pure noBytes
  else pure (slice parser.getData location.rva.toNat location.dataSize.toNat)

def getModuleList : Reading ObjectList :=
  let data := parser.getStream support StreamType.moduleList
  if data.size = 0 then pure .none_ else MinidumpModule.parseModuleList parser.dataSp data

def getSystemInfo : Option Nat :=
  let data := parser.getStream support StreamType.systemInfo
  if data.size = 0 then none else (consumeObject data MinidumpSystemInfo.sizeof).map Prod.fst

def archOfProcessor (processorArch : UInt16) : Option ArchType :=
  if processorArch = 0 then some .x86
  else if processorArch = 9 then some .x8664
  else if processorArch = 5 then some .arm
  else if processorArch = 0x8003 then some .aarch64
  else none

def osOfPlatform (platformId : UInt32) : Option (VendorType × OSType × Bool) :=
  if platformId.toNat ≤ 3 then some (.unknownVendor, .win32, false)
  else if platformId = 0x8201 then some (.unknownVendor, .linux, false)
  else if platformId = 0x8101 then some (.apple, .macOSX, false)
  else if platformId = 0x8102 then some (.apple, .ios, false)
  else if platformId = 0x8203 then some (.unknownVendor, .linux, true)
  else none

/-- `"Linux"`. -/
def linuxBytes : List UInt8 := [0x4c, 0x69, 0x6e, 0x75, 0x78]

def getArchitecture : Reading ArchSpec :=
  match parser.arch with
  | some triple => pure (some triple)
  | none =>
      match parser.getSystemInfo support with
      | none => pure none
      | some systemInfo => do
          let processorArch ← field16 parser.dataSp systemInfo
          let platformId ← field32 parser.dataSp (systemInfo + 20)
          let (vendor, os, android) ← match osOfPlatform platformId with
            | some system => pure system
            | none => do
                let csdVersionRva ← field32 parser.dataSp (systemInfo + 24)
                let csdVersion ← parser.getMinidumpString support csdVersionRva
                pure (.unknownVendor, if linuxBytes <:+: csdVersion.getD [] then .linux else .unknownOS, false)
          pure ((archOfProcessor processorArch).map fun arch => ⟨arch, vendor, os, android⟩)

def copyBytes (data : Window) : Reading (List UInt8) :=
  .record (.bytes data) (Memory.read parser.dataSp.byte data.offset data.size)

/-- The identifier of the module at `module_`, none if it is empty, and the architecture behind it. -/
def getModuleUUID (module_ : Nat) : Reading (List UInt8 × ArchSpec) := do
  let location ← readLocation parser.dataSp (module_ + 76)
  match consumeObject (slice parser.getData location.rva.toNat location.dataSize.toNat) 4 with
  | none => pure ([], parser.arch)
  | some (signaturePtr, cvRecord) => do
      let signature ← field32 parser.dataSp signaturePtr
      if signature = CvSignature.pdb70 then
        match consumeObject cvRecord CvRecordPdb70.sizeof with
        | none => pure ([], parser.arch)
        | some (pdb70Uuid, _) => do
            let arch ← parser.getArchitecture support
            let uuid ← parser.copyBytes ⟨pdb70Uuid, if arch.vendor = .apple then 16 else CvRecordPdb70.sizeof⟩
            pure (uuid, arch)
      else if signature = CvSignature.elfBuildId then do
        let uuid ← parser.copyBytes cvRecord
        pure (uuid, parser.arch)
      else pure ([], parser.arch)

def memoryTurn (list : ObjectList) (addr : UInt64) (index : Nat) (_ : Unit) :
    Reading (Traced.Turn (Option MemoryRange) Unit) := do
  let memoryDesc := list.at_ MinidumpMemoryDescriptor.sizeof index
  let rangeStart ← field64 parser.dataSp memoryDesc
  let location ← readLocation parser.dataSp (memoryDesc + 8)
  if (location.rva + location.dataSize).toNat > parser.dataSp.size then pure (.done none)
  else if rangeStart ≤ addr ∧ addr < rangeStart + location.dataSize.toUInt64 then
    pure (.done (some ⟨rangeStart, slice parser.getData location.rva.toNat location.dataSize.toNat⟩))
  else pure (.next ())

/-- A turn of the search through the 64-bit memory list, with the place of the range's memory. -/
def memory64Turn (list : ObjectList) (addr : UInt64) (index : Nat) (baseRva : UInt64) :
    Reading (Traced.Turn (Option MemoryRange) UInt64) := do
  let memoryDesc := list.at_ MinidumpMemoryDescriptor64.sizeof index
  let rangeStart ← field64 parser.dataSp memoryDesc
  let rangeSize ← field64 parser.dataSp (memoryDesc + 8)
  if (baseRva + rangeSize).toNat > parser.dataSp.size then pure (.done none)
  else if rangeStart ≤ addr ∧ addr < rangeStart + rangeSize then
    pure (.done (some ⟨rangeStart, slice parser.getData baseRva.toNat rangeSize.toNat⟩))
  else pure (.next (baseRva + rangeSize))

/-- From the first descriptor to the last, which the end pointer of the list is behind: that one wraps
around, so that 2^60 descriptors are as good as none. -/
def visited (list : ObjectList) : Nat := list.count % 2 ^ 60

def searchMemory64 (list : ObjectList) (baseRva addr : UInt64) :
    Reading (Option MemoryRange) :=
  if list.count = 0 then pure none
  else do
    match ← Traced.loop (parser.memory64Turn list addr) 0 (visited list) baseRva with
    | .done range => pure range
    | .next _ => pure none

def findMemoryRange64 (addr : UInt64) : Reading (Option MemoryRange) :=
  let data64 := parser.getStream support StreamType.memory64List
  if data64.size = 0 then pure none
  else do
    let (list, baseRva) ← MinidumpMemoryDescriptor64.parseMemory64List parser.dataSp data64
    parser.searchMemory64 list baseRva addr

/-- The second list is gone through when the first one has been, up to its end, or is not there. -/
def findMemoryRange (addr : UInt64) : Reading (Option MemoryRange) :=
  let data := parser.getStream support StreamType.memoryList
  if data.size = 0 then parser.findMemoryRange64 support addr
  else do
    let list ← MinidumpMemoryDescriptor.parseMemoryList parser.dataSp data
    if list.count = 0 then pure none
    else
      match ← Traced.loop (parser.memoryTurn list addr) 0 list.count () with
      | .done range => pure range
      | .next () => parser.findMemoryRange64 support addr

def getMemory (addr size : UInt64) : Reading Window := do
  match ← parser.findMemoryRange support addr with
  | none => pure noBytes
  | some range =>
      let offset := addr - range.start
      if addr < range.start ∨ offset.toNat ≥ range.rangeRef.size then pure noBytes
      else pure (slice range.rangeRef offset.toNat (min size.toNat (range.rangeRef.size - offset.toNat)))

namespace MemoryProtection

def pageNoAccess : UInt32 := 0x01
def pageWritable : UInt32 := 0x40 ||| 0x80 ||| 0x04 ||| 0x08
def pageExecutable : UInt32 := 0x10 ||| 0x20 ||| 0x40 ||| 0x80

end MemoryProtection

def memFree : UInt32 := 0x10000

/-- `LLDB_INVALID_ADDRESS`. -/
def invalidAddress : UInt64 := 0xffffffffffffffff

/-- Of the region from `head` up to `tail`. -/
def regionInfo (entry : Nat) (loadAddr head tail : UInt64) :
    Reading MemoryRegionInfo := do
  let state ← field32 parser.dataSp (entry + 32)
  let protect ← field32 parser.dataSp (entry + 36)
  let base := if state ≠ memFree then head else loadAddr
  pure
    { range := Range.setRangeEnd64 ⟨base.toNat, 0⟩ tail.toNat
      readable := protect &&& MemoryProtection.pageNoAccess = 0
      writable := protect &&& MemoryProtection.pageWritable ≠ 0
      executable := protect &&& MemoryProtection.pageExecutable ≠ 0
      mapped := state ≠ memFree }

def nearerEntry (parser : MinidumpParser Map) (entry : Nat) (head : UInt64) : Option Nat → Reading (Option Nat)
  | none => pure (some entry)
  | some next => do
      let nextBase ← field64 parser.dataSp next
      pure (some (if head < nextBase then entry else next))

/-- A turn of the search for a region, with the nearest entry behind the address so far. -/
def regionTurn (list : InfoList) (loadAddr : UInt64) (index : Nat)
    (nextEntry : Option Nat) : Reading (Traced.Turn MemoryRegionInfo (Option Nat)) := do
  let entry := list.at_ index
  let head ← field64 parser.dataSp entry
  let regionSize ← field64 parser.dataSp (entry + 24)
  let tail := head + regionSize
  if head ≤ loadAddr ∧ loadAddr < tail then do
    let info ← parser.regionInfo entry loadAddr head tail
    pure (.done info)
  else if head > loadAddr then do
    let nextEntry ← parser.nearerEntry entry head nextEntry
    pure (.next nextEntry)
  else pure (.next nextEntry)

def regionGap (loadAddr : UInt64) (nextEntry : Option Nat) :
    Reading MemoryRegionInfo := do
  let rangeEnd ← match nextEntry with
    | some next => field64 parser.dataSp next
    | none => pure invalidAddress
  pure ⟨Range.setRangeEnd64 ⟨loadAddr.toNat, 0⟩ rangeEnd.toNat, false, false, false, false⟩

def searchRegions (list : InfoList) (loadAddr : UInt64) : Reading MemoryRegionInfo := do
  match ← Traced.loop (parser.regionTurn list loadAddr) 0 list.numOfEntries.toNat none with
  | .done info => pure info
  | .next nextEntry => parser.regionGap loadAddr nextEntry

def getMemoryRegionInfo (loadAddr : UInt64) : Reading (Option MemoryRegionInfo) :=
  let data := parser.getStream support StreamType.memoryInfoList
  if data.size = 0 then pure none
  else do
    let list ← MinidumpMemoryInfo.parseMemoryInfoList parser.dataSp data
    if list.numOfEntries = 0 then pure none
    else do
      let info ← parser.searchRegions list loadAddr
      pure (some info)

structure DirectoryState (Map : Type) where
  directoryData : Window
  directoryMap : Map
  minidumpMap : List FileRange

def dummyEntry (buffer : DataBuffer) (entry : Nat) (directoryData : Window) (state : DirectoryState Map) :
    Reading (Traced.Turn (String × Map) (DirectoryState Map)) := do
  let dataSize ← field32 buffer (entry + 4)
  if dataSize = 0 then pure (.next { state with directoryData })
  else pure (.done ("invalid minidump: bad stream type", state.directoryMap))

def streamEntry (buffer : DataBuffer) (entry : Nat) (streamType : UInt32) (directoryData : Window)
    (state : DirectoryState Map) : Reading (Traced.Turn (String × Map) (DirectoryState Map)) := do
  let location ← readLocation buffer (entry + 4)
  let (directoryMap, inserted) := support.insert state.directoryMap streamType location
  if inserted = false then pure (.done ("invalid minidump: duplicate stream type", directoryMap))
  else
    pure (.next ⟨directoryData, directoryMap,
      if location.dataSize ≠ 0 then state.minidumpMap ++ [⟨location.rva, location.dataSize⟩] else state.minidumpMap⟩)

def directoryTurn (buffer : DataBuffer) (_ : Nat) (state : DirectoryState Map) :
    Reading (Traced.Turn (String × Map) (DirectoryState Map)) :=
  match consumeObject state.directoryData MinidumpDirectory.sizeof with
  | none => pure (.done ("Insufficient buffer!", state.directoryMap))
  | some (entry, directoryData) => do
      let streamType ← field32 buffer entry
      if streamType = 0 then dummyEntry buffer entry directoryData state
      else streamEntry support buffer entry streamType directoryData state

def layoutError (fileSize : UInt32) (ranges : List FileRange) : Option String :=
  if (ranges.zip ranges.tail).any fun (prevRange, range) => prevRange.end_ > range.offset then
    some "invalid minidump: overlapping streams"
  else
    match ranges.getLast? with
    | some lastRange => if lastRange.end_ > fileSize then some "invalid minidump: truncated stream" else none
    | none => none

def initialize_ : Reading (Option String × MinidumpParser Map) := do
  match ← MinidumpHeader.parse parser.dataSp ⟨0, MinidumpHeader.sizeof⟩ with
  | none => pure (some "invalid minidump: can't parse the header", parser)
  | some header => do
      let streamsCount ← field32 parser.dataSp (header + 8)
      if streamsCount = 0 then pure (some "invalid minidump: no streams present", parser)
      else
        let fileSize := UInt32.ofNat parser.dataSp.size
        if MinidumpHeader.sizeof > fileSize.toNat then pure (some "invalid minidump: truncated header", parser)
        else do
          let streamDirectoryRva ← field32 parser.dataSp (header + 12)
          -- The size of the directory is cut down to 32 bits.
          let directoryRange : FileRange :=
            ⟨streamDirectoryRva, UInt32.ofNat (streamsCount.toNat * MinidumpDirectory.sizeof)⟩
          if directoryRange.end_ > fileSize then
            pure (some "invalid minidump: truncated streams directory", parser)
          else do
            let directoryData := slice parser.getData directoryRange.offset.toNat directoryRange.size.toNat
            match ← Traced.loop (directoryTurn support parser.dataSp) 0 streamsCount.toNat
                ⟨directoryData, parser.directoryMap, [⟨0, UInt32.ofNat MinidumpHeader.sizeof⟩, directoryRange]⟩ with
            | .done (error, directoryMap) => pure (some error, { parser with directoryMap })
            | .next state =>
                pure (layoutError fileSize (support.sort state.minidumpMap),
                  { parser with directoryMap := state.directoryMap })

end MinidumpParser

end Minidump

end Lldb
