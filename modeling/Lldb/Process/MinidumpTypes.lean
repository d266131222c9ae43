import Lldb.Library.Memory
import Lldb.Library.Traced
import Mathlib.Data.Nat.Digits.Defs

/-! The records of a minidump, with every read of the file that it takes to parse them.

A pointer is an offset from the first byte of the file. It may lead out of the file: what is read there is
what memory happens to hold. Pointers and sizes are 64-bit numbers.
-/

set_option autoImplicit false

namespace Lldb

open Library

namespace Minidump

structure DataBuffer where
  byte : Nat → UInt8
  size : Nat
  sizeBound : size < 2 ^ 64

variable (buffer : DataBuffer)

def DataBuffer.file : Window := ⟨0, buffer.size⟩

/-- A read of bytes, or one through a pointer that is null or was never set. -/
inductive Access where
  | bytes (window : Window)
  | wild
  deriving DecidableEq, Repr

def Access.InFile (buffer : DataBuffer) : Access → Prop
  | .bytes window => window.Within buffer.file
  | .wild => False

instance (buffer : DataBuffer) : DecidablePred (Access.InFile buffer)
  | .bytes window => inferInstanceAs (Decidable (window.Within buffer.file))
  | .wild => inferInstanceAs (Decidable False)

abbrev Reading := Traced Access

def number (pointer size : Nat) : Nat :=
  Nat.ofDigits 256 ((Memory.read buffer.byte pointer size).map UInt8.toNat)

def number16 (pointer : Nat) : UInt16 := .ofNat (number buffer pointer 2)

def number32 (pointer : Nat) : UInt32 := .ofNat (number buffer pointer 4)

def number64 (pointer : Nat) : UInt64 := .ofNat (number buffer pointer 8)

def field16 (pointer : Nat) : Reading UInt16 :=
  .record (.bytes ⟨pointer, 2⟩) (number16 buffer pointer)

def field32 (pointer : Nat) : Reading UInt32 :=
  .record (.bytes ⟨pointer, 4⟩) (number32 buffer pointer)

def field64 (pointer : Nat) : Reading UInt64 :=
  .record (.bytes ⟨pointer, 8⟩) (number64 buffer pointer)

/-! `ArrayRef`: its asserts are not there in a release build. -/

def dropFront (data : Window) (count : Nat) : Window :=
  ⟨(data.offset + count) % 2 ^ 64, (data.size + 2 ^ 64 - count) % 2 ^ 64⟩

def slice (data : Window) (offset size : Nat) : Window := ⟨(data.offset + offset) % 2 ^ 64, size⟩

/-- `{}`. -/
def noBytes : Window := ⟨0, 0⟩

/-- An object of `sizeof` bytes at the front, and the data behind it. -/
def consumeObject (data : Window) (sizeof : Nat) : Option (Nat × Window) :=
  if data.size < sizeof then none else some (data.offset, dropFront data sizeof)

structure LocationDescriptor where
  dataSize : UInt32
  rva : UInt32
  deriving DecidableEq, Repr

def locationAt (pointer : Nat) : LocationDescriptor :=
  ⟨number32 buffer pointer, number32 buffer (pointer + 4)⟩

def readLocation (pointer : Nat) : Reading LocationDescriptor := do
  let dataSize ← field32 buffer pointer
  let rva ← field32 buffer (pointer + 4)
  pure ⟨dataSize, rva⟩

namespace MinidumpHeader

def sizeof : Nat := 32
def signature : UInt32 := 0x504d444d
def version : UInt32 := 0x0000a793

/-- The signature is looked at before the error of `consumeObject` is. -/
def parse (buffer : DataBuffer) (data : Window) : Reading (Option Nat) :=
  match consumeObject data sizeof with
  | none => .record .wild none
  | some (header, _) => do
      let signature ← field32 buffer header
      let version ← field32 buffer (header + 4)
      if signature ≠ MinidumpHeader.signature ∨ version &&& 0x0000ffff ≠ MinidumpHeader.version then pure none
      else pure (some header)

end MinidumpHeader

/-- A string as UTF-8, by the conversion from UTF-16 code units into a limited number of bytes. -/
def parseMinidumpString (convertUTF16toUTF8 : List UInt16 → Nat → List UInt8) (buffer : DataBuffer)
    (data : Window) : Reading (Option (List UInt8)) :=
  match consumeObject data 4 with
  -- The length is copied from a pointer that `consumeObject` has left alone.
  | none => .record .wild none
  | some (sourceLengthPtr, data) => do
      let sourceLength ← field32 buffer sourceLengthPtr
      if sourceLength.toNat > data.size ∨ sourceLength.toNat % 2 ≠ 0 then pure none
      else
        let units := (List.range (sourceLength.toNat / 2)).map fun index => number16 buffer (data.offset + 2 * index)
        .record (.bytes ⟨data.offset, sourceLength.toNat⟩)
          (some (convertUTF16toUTF8 units (4 * sourceLength / 2).toNat))

/-- `count` objects, one behind the other. -/
structure ObjectList where
  data : Nat
  count : Nat
  deriving DecidableEq, Repr

namespace ObjectList

def none_ : ObjectList := ⟨0, 0⟩

def bytes (list : ObjectList) (sizeof : Nat) : Window := ⟨list.data, list.count * sizeof⟩

def at_ (list : ObjectList) (sizeof index : Nat) : Nat := list.data + sizeof * index

end ObjectList

def parseList (sizeof : Nat) (buffer : DataBuffer) (data : Window) : Reading ObjectList :=
  match consumeObject data 4 with
  | none => pure .none_
  | some (countPtr, rest) => do
      let count ← field32 buffer countPtr
      if count.toNat * sizeof > rest.size then pure .none_
      else
        let rest := if 4 + count.toNat * sizeof < data.size then dropFront rest 4 else rest
        pure ⟨rest.offset, count.toNat⟩

def MinidumpThread.sizeof : Nat := 48
def MinidumpModule.sizeof : Nat := 108
def MinidumpMemoryDescriptor.sizeof : Nat := 16
def MinidumpMemoryDescriptor64.sizeof : Nat := 16
def MinidumpDirectory.sizeof : Nat := 12
def MinidumpSystemInfo.sizeof : Nat := 56
def CvRecordPdb70.sizeof : Nat := 20

def MinidumpThread.parseThreadList : DataBuffer → Window → Reading ObjectList := parseList sizeof
def MinidumpModule.parseModuleList : DataBuffer → Window → Reading ObjectList := parseList sizeof
def MinidumpMemoryDescriptor.parseMemoryList : DataBuffer → Window → Reading ObjectList := parseList sizeof

def MinidumpMemoryDescriptor64.parseMemory64List (data : Window) :
    Reading (ObjectList × UInt64) :=
  match consumeObject data 8 with
  | none => pure (.none_, 0)
  | some (countPtr, rest) => do
      let count ← field64 buffer countPtr
      if (count * 16).toNat > rest.size then pure (.none_, 0)
      else
        match consumeObject rest 8 with
        | none => pure (.none_, 0)
        | some (baseRvaPtr, rest) => do
            let baseRva ← field64 buffer baseRvaPtr
            pure (⟨rest.offset, count.toNat⟩, baseRva)

structure InfoList where
  data : Nat
  sizeOfEntry : UInt32
  numOfEntries : UInt64
  deriving DecidableEq, Repr

namespace InfoList

def none_ : InfoList := ⟨0, 0, 0⟩

def at_ (list : InfoList) (index : Nat) : Nat := (list.data + index * list.sizeOfEntry.toNat) % 2 ^ 64

end InfoList

def MinidumpMemoryInfo.sizeof : Nat := 48
def MinidumpMemoryInfoListHeader.sizeof : Nat := 16

def MinidumpMemoryInfo.parseMemoryInfoList (data : Window) : Reading InfoList :=
  match consumeObject data MinidumpMemoryInfoListHeader.sizeof with
  | none => pure .none_
  | some (header, data) => do
      let sizeOfHeader ← field32 buffer header
      if sizeOfHeader.toNat < MinidumpMemoryInfoListHeader.sizeof then pure .none_
      else do
        let sizeOfEntry ← field32 buffer (header + 4)
        if sizeOfEntry.toNat < MinidumpMemoryInfo.sizeof then pure .none_
        else do
          let data := dropFront data (sizeOfHeader.toNat - MinidumpMemoryInfoListHeader.sizeof)
          let numOfEntries ← field64 buffer (header + 8)
          if (sizeOfEntry.toUInt64 * numOfEntries).toNat > data.size then pure .none_
          else pure ⟨data.offset, sizeOfEntry, numOfEntries⟩

end Minidump

end Lldb
