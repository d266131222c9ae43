import Lldb.Core.Range
import Lldb.Library.OrderedMap

/-! `SectionLoadList`: where the sections of a target are loaded, by address and by section.

The sections passed are not null. The log and the warning about shared addresses are not modelled.
-/

set_option autoImplicit false

namespace Lldb

open List

open Library (OrderedMap)

/-- A section as an object: its address in memory, whether its module is still there, its place in its
parent, and its children. -/
inductive Section where
  | mk (pointer : Nat) (hasModule : Bool) (offset byteSize : Nat) (children : List Section)

structure Address where
  sect : Section
  offset : Nat

namespace Section

def pointer : Section → Nat
  | mk pointer _ _ _ _ => pointer

def hasModule : Section → Bool
  | mk _ hasModule _ _ _ => hasModule

def offset : Section → Nat
  | mk _ _ offset _ _ => offset

def byteSize : Section → Nat
  | mk _ _ _ byteSize _ => byteSize

def children : Section → List Section
  | mk _ _ _ _ children => children

def limit (sect : Section) (allowSectionEnd : Bool) : Nat :=
  (sect.byteSize + if allowSectionEnd then 1 else 0) % 2 ^ 64

mutual

def resolveContainedAddress (allowSectionEnd : Bool) (offset : Nat) : Section → Address
  | mk pointer hasModule start byteSize children =>
    (resolveInChildren allowSectionEnd offset children).getD ⟨mk pointer hasModule start byteSize children, offset⟩

def resolveInChildren (allowSectionEnd : Bool) (offset : Nat) : List Section → Option Address
  | [] => none
  | child :: rest =>
    if child.offset ≤ offset ∧ offset - child.offset < child.limit allowSectionEnd then
      some (resolveContainedAddress allowSectionEnd (offset - child.offset) child)
    else resolveInChildren allowSectionEnd offset rest

end

/-- `Lies top start inner`: the inner section begins so many bytes into the top one. -/
inductive Lies : Section → Nat → Section → Prop
  | here (sect : Section) : Lies sect 0 sect
  | inside {sect child inner : Section} {start : Nat} : child ∈ sect.children → Lies child start inner →
      Lies sect (child.offset + start) inner

mutual

theorem resolveContainedAddress_lies (allowSectionEnd : Bool) (offset : Nat) (sect : Section) :
    ∃ start, sect.Lies start (resolveContainedAddress allowSectionEnd offset sect).sect ∧
      start + (resolveContainedAddress allowSectionEnd offset sect).offset = offset := by
  cases sect with
  | mk pointer hasModule start byteSize children =>
    rw [resolveContainedAddress]
    cases found : resolveInChildren allowSectionEnd offset children with
    | none => exact ⟨0, .here _, zero_add _⟩
    | some address =>
      obtain ⟨child, start, listed, lies, sum⟩ := resolveInChildren_lies allowSectionEnd offset children address found
      exact ⟨child.offset + start, .inside listed lies, sum⟩

theorem resolveInChildren_lies (allowSectionEnd : Bool) (offset : Nat) (children : List Section) (address : Address)
    (found : resolveInChildren allowSectionEnd offset children = some address) :
    ∃ child start, child ∈ children ∧ child.Lies start address.sect ∧
      child.offset + start + address.offset = offset := by
  cases children with
  | nil => cases found
  | cons child rest =>
    rw [resolveInChildren] at found
    split_ifs at found with inside
    · obtain ⟨start, lies, sum⟩ :=
        resolveContainedAddress_lies allowSectionEnd (offset - child.offset) child
      cases found
      exact ⟨child, start, mem_cons_self, lies, by omega⟩
    · obtain ⟨other, start, listed, lies, sum⟩ := resolveInChildren_lies allowSectionEnd offset rest address found
      exact ⟨other, start, .tail _ listed, lies, sum⟩

end

end Section

/-- `m_addr_to_sect` and `m_sect_to_addr`; sections are told apart by their pointers. -/
structure SectionLoadList where
  addrToSect : OrderedMap Nat Section
  sectToAddr : OrderedMap Nat Nat

namespace SectionLoadList

def empty : SectionLoadList := ⟨.empty, .empty⟩

variable (list : SectionLoadList)

def getSectionLoadAddress (sect : Section) : Nat :=
  (list.sectToAddr.find? sect.pointer).getD invalidAddress

def setSectionLoadAddress (sect : Section) (loadAddr : Nat) : Bool × SectionLoadList :=
  if sect.hasModule then
    if sect.byteSize = 0 then (false, list)
    else if list.sectToAddr.find? sect.pointer = some loadAddr then (false, list)
    else
      (true, {
          addrToSect := list.addrToSect.insert loadAddr sect
          sectToAddr := list.sectToAddr.insert sect.pointer loadAddr })
  else (false, list)

def setSectionUnloaded (sect : Section) : Nat × SectionLoadList :=
  match list.sectToAddr.find? sect.pointer with
  | none => (0, list)
  | some loadAddr =>
      (1, { addrToSect := list.addrToSect.erase loadAddr, sectToAddr := list.sectToAddr.erase sect.pointer })

/-- `SetSectionUnloaded` with a load address. -/
def setSectionUnloadedAt (sect : Section) (loadAddr : Nat) : Bool × SectionLoadList :=
  ((list.sectToAddr.find? sect.pointer).isSome || (list.addrToSect.find? loadAddr).isSome,
    { addrToSect := list.addrToSect.erase loadAddr, sectToAddr := list.sectToAddr.erase sect.pointer })

def topLevelEntry (loadAddr : Nat) : Option (Nat × Section) :=
  let entries := list.addrToSect.entries
  let position := list.addrToSect.lowerBound loadAddr
  match entries[position]? with
  | some entry =>
      if loadAddr ≠ entry.1 ∧ 0 < position then entries[position - 1]? else some entry
  | none => entries.getLast?

def resolveLoadAddress (loadAddr : Nat) (allowSectionEnd : Bool) : Option Address :=
  match list.topLevelEntry loadAddr with
  | none => none
  | some (base, sect) =>
      if base ≤ loadAddr ∧ loadAddr - base < sect.limit allowSectionEnd then
        some (sect.resolveContainedAddress allowSectionEnd (loadAddr - base))
      else none

theorem mem_of_topLevelEntry {list : SectionLoadList} {loadAddr : Nat} {entry : Nat × Section}
    (found : list.topLevelEntry loadAddr = some entry) : entry ∈ list.addrToSect.entries := by
  unfold topLevelEntry at found
  dsimp only at found
  split at found
  · rename_i here
    split_ifs at found with before
    · exact mem_of_getElem? found
    · cases found
      exact mem_of_getElem? here
  · exact mem_of_getLast? found

end SectionLoadList

end Lldb
