import Lldb.Core.RangeDataArray
import Lldb.SymbolFile.DWARFDebugLine

/-! `DWARFDebugArangeSet` and `DWARFDebugAranges`: the address ranges of compile units, from
`.debug_aranges`.
-/

set_option autoImplicit false

namespace Lldb

open Library DebugLine

structure ArangeHeader where
  length : Nat
  version : Nat
  cuOffset : Nat
  addrSize : Nat
  segSize : Nat
  deriving DecidableEq, Repr

structure ArangeDescriptor where
  address : Nat
  length : Nat
  deriving DecidableEq, Repr

namespace ArangeDescriptor

def endAddress (descriptor : ArangeDescriptor) : Nat := (descriptor.address + descriptor.length) % 2 ^ 64

end ArangeDescriptor

structure DWARFDebugArangeSet where
  offset : Nat
  header : ArangeHeader
  arangeDescriptors : List ArangeDescriptor
  deriving DecidableEq, Repr

namespace DWARFDebugArangeSet

def clear : DWARFDebugArangeSet := ⟨2 ^ 32 - 1, ⟨0, 0, 0, 0, 0⟩, []⟩

def getCompileUnitDIEOffset (arangeSet : DWARFDebugArangeSet) : Nat := arangeSet.header.cuOffset

/-- The loop that looks for the first offset of a tuple; `fuel` bounds its rounds. -/
def firstTupleOffset (tupleSize headerSize : Nat) : Nat → Nat → Nat
  | 0, offset => offset
  | fuel + 1, offset =>
    if offset < headerSize then firstTupleOffset tupleSize headerSize fuel (offset + tupleSize) else offset

def readDescriptors (data : DataExtractor) (addrSize : Nat) : Nat → Cursor (List ArangeDescriptor)
  | 0 => failure
  | fuel + 1 => do
    if data.validOffset (← get) then
      let address ← data.getMaxU64 addrSize
      let length ← data.getMaxU64 addrSize
      if address ≠ 0 ∨ length ≠ 0 then return ⟨address, length⟩ :: (← readDescriptors data addrSize fuel)
      else return []
    else return []

def readHeader (data : DataExtractor) : Cursor ArangeHeader := do
  let (length, isDwarf64) ← getDWARFInitialLength data
  let version ← data.getU16
  let cuOffset ← getDWARFOffset data isDwarf64
  let addrSize ← data.getU8
  let segSize ← data.getU8
  return ⟨uint32 length, version, cuOffset, addrSize, segSize⟩

/-- The tuples behind a header that looks well formed, in the 32-bit offsets of a set. -/
def readTuples (data : DataExtractor) (offset : Nat) (header : ArangeHeader) : Cursor (List ArangeDescriptor) := do
  if (2 ≤ header.version ∧ header.version ≤ 5) ∧ (header.addrSize = 4 ∨ header.addrSize = 8) ∧ 0 < header.length ∧
      data.validOffset (offset + 4 + header.length - 1) then
    let headerSize := uint32 ((← get) - offset)
    set (uint32 (offset + firstTupleOffset (2 * header.addrSize) headerSize headerSize 0))
    readDescriptors data header.addrSize (data.bytes.length + 1)
  else return []

def extract (data : DataExtractor) (arangeSet : DWARFDebugArangeSet) : Cursor (Bool × DWARFDebugArangeSet) := do
  let start ← get
  if data.validOffset start then
    let offset := uint32 start
    let header ← readHeader data
    let arangeDescriptors ← readTuples data offset header
    return (!arangeDescriptors.isEmpty, ⟨offset, header, arangeDescriptors⟩)
  else return (false, arangeSet)

def addDescriptor (range : ArangeDescriptor) (arangeDescriptors : List ArangeDescriptor) : List ArangeDescriptor :=
  let position := lowerBound (fun index => arangeDescriptors[index]?.any fun other => other.address < range.address)
    arangeDescriptors.length
  match arangeDescriptors[position]? with
  | some found =>
    if range.address < found.address then
      if range.endAddress < found.address then arangeDescriptors.insertIdx position range
      else if range.endAddress = found.address then
        arangeDescriptors.set position ⟨range.address, (found.length + range.length) % 2 ^ 64⟩
      else
        arangeDescriptors.set position
          ⟨range.address, (max found.endAddress range.endAddress + 2 ^ 64 - range.address) % 2 ^ 64⟩
    else if range.address = found.address then
      arangeDescriptors.set position ⟨found.address, max found.length range.length⟩
    else arangeDescriptors
  | none =>
    match arangeDescriptors.getLast? with
    | none => [range]
    | some last =>
      if last.endAddress < range.address then arangeDescriptors ++ [range]
      else if last.endAddress = range.address then
        arangeDescriptors.dropLast ++ [⟨last.address, (last.length + range.length) % 2 ^ 64⟩]
      else
        arangeDescriptors.dropLast ++
          [⟨last.address, (max last.endAddress range.endAddress + 2 ^ 64 - last.address) % 2 ^ 64⟩]

/-- The loop of `Compact`, whose index is of 32 bits; erasing the end of the vector is undefined. -/
def compactLoop : Nat → Nat → List ArangeDescriptor → Option (List ArangeDescriptor)
  | 0, _, _ => none
  | fuel + 1, index, arangeDescriptors =>
    if uint32 (index + 1) < arangeDescriptors.length then
      match arangeDescriptors[index]?, arangeDescriptors[uint32 (index + 1)]? with
      | some current, some next =>
        if current.endAddress ≥ next.address then
          if index + 1 < arangeDescriptors.length then
            compactLoop fuel index ((arangeDescriptors.set index
              ⟨current.address, (max current.endAddress next.endAddress + 2 ^ 64 - current.address) % 2 ^ 64⟩).eraseIdx
                (index + 1))
          else none
        else compactLoop fuel (uint32 (index + 1)) arangeDescriptors
      | _, _ => none
    else some arangeDescriptors

def compact (arangeDescriptors : List ArangeDescriptor) : Option (List ArangeDescriptor) :=
  compactLoop (arangeDescriptors.length + 1) 0 arangeDescriptors

end DWARFDebugArangeSet

/-- `m_aranges`; the sizes of its ranges are of 32 bits. -/
abbrev DWARFDebugAranges := RangeDataArray Nat

namespace DWARFDebugAranges

def appendSet (aranges : DWARFDebugAranges) (arangeSet : DWARFDebugArangeSet) : DWARFDebugAranges :=
  (arangeSet.arangeDescriptors.take (uint32 arangeSet.arangeDescriptors.length)).foldl
    (fun aranges descriptor =>
      aranges.append ⟨⟨descriptor.address, uint32 descriptor.length⟩, arangeSet.getCompileUnitDIEOffset⟩)
        aranges

/-- The loop of `Extract`; each round moves the offset. -/
def extractSets (data : DataExtractor) : Nat → DWARFDebugArangeSet → DWARFDebugAranges → Cursor DWARFDebugAranges
  | 0, _, _ => failure
  | fuel + 1, arangeSet, aranges => do
    let (extracted, arangeSet) ← arangeSet.extract data
    if extracted then extractSets data fuel .clear (appendSet aranges arangeSet) else return aranges

def extract (data : DataExtractor) : Option DWARFDebugAranges :=
  if data.validOffset 0 then (extractSets data (data.bytes.length + 1) .clear ⟨[]⟩ 0).map Prod.fst else some ⟨[]⟩

end DWARFDebugAranges

end Lldb
