import Lldb.Library.LowerBound
import Mathlib.Data.List.Basic

/-! Line tables: their entries, how a sequence is inserted, how an address is found, and how a table
is linked with the help of a map of address ranges.

Addresses are below 2^64, and so are the ends of all ranges.
-/

set_option autoImplicit false

namespace Lldb

namespace LineTable

structure Entry where
  fileAddr : Nat
  line : Nat
  column : Nat
  fileIdx : Nat
  isStartOfStatement : Bool
  isStartOfBasicBlock : Bool
  isPrologueEnd : Bool
  isEpilogueBegin : Bool
  isTerminalEntry : Bool
  deriving DecidableEq, Repr

/-- `LessThanBinaryPredicate`. -/
def lessThan (a b : Entry) : Bool :=
  if a.fileAddr ≠ b.fileAddr then a.fileAddr < b.fileAddr
  else if b.isTerminalEntry ≠ a.isTerminalEntry then b.isTerminalEntry < a.isTerminalEntry
  else if a.line ≠ b.line then a.line < b.line
  else if a.column ≠ b.column then a.column < b.column
  else if a.isStartOfStatement ≠ b.isStartOfStatement then a.isStartOfStatement < b.isStartOfStatement
  else if a.isStartOfBasicBlock ≠ b.isStartOfBasicBlock then a.isStartOfBasicBlock < b.isStartOfBasicBlock
  else if b.isPrologueEnd ≠ a.isPrologueEnd then b.isPrologueEnd < a.isPrologueEnd
  else if a.isEpilogueBegin ≠ b.isEpilogueBegin then a.isEpilogueBegin < b.isEpilogueBegin
  else if a.fileIdx ≠ b.fileIdx then a.fileIdx < b.fileIdx
  else false

variable (entries : List Entry)

/-- `std::upper_bound`. -/
def upperBound (entry : Entry) : Nat :=
  Library.lowerBound (fun index => entries[index]?.any fun other => !lessThan entry other) entries.length

/-- Forward until the entry before is a terminal one; the fuel is the number of entries. -/
def behindSequence (entries : List Entry) : Nat → Nat → Nat
  | 0, pos => pos
  | fuel + 1, pos =>
    if pos < entries.length && !entries[pos - 1]?.any (·.isTerminalEntry) then behindSequence entries fuel (pos + 1) else pos

def insertSequence (entries sequence : List Entry) : List Entry :=
  match sequence, entries.getLast? with
  | [], _ => entries
  | _, none => entries ++ sequence
  | entry :: _, some last =>
    if ¬ entry.fileAddr < last.fileAddr then entries ++ sequence
    else
      let pos := upperBound entries entry
      let pos := if pos ≠ 0 then behindSequence entries entries.length pos else pos
      entries.take pos ++ sequence ++ entries.drop pos

def firstAt (entries : List Entry) (address : Nat) : Nat → Nat
  | 0 => 0
  | pos + 1 =>
    if entries[pos]?.any fun entry => entry.fileAddr = address && !entry.isTerminalEntry then firstAt entries address pos
    else pos + 1

/-- The position to look at from that of `std::lower_bound` on, whose entry is given. -/
def matchAt (address pos : Nat) (entry : Entry) : Option Nat :=
  if pos ≠ 0 then
    if entry.fileAddr ≠ address then some (pos - 1)
    else if entry.isTerminalEntry then
      match entries[pos + 1]? with
      | none => none
      | some next => if next.fileAddr ≠ address then none else some (firstAt entries address (pos + 1))
    else some (firstAt entries address pos)
  else if entry.fileAddr > address then none
  else some pos

abbrev matched (address : Nat) : Option Nat :=
  let pos := Library.lowerBound (fun index => entries[index]?.any (·.fileAddr < address)) entries.length
  entries[pos]?.bind (matchAt entries address pos)

/-- `FindLineEntryByAddress`, for an address of the module that is not the invalid one. -/
def findLineEntryByAddress (address : Nat) : Option Entry :=
  let pos := Library.lowerBound (fun index => entries[index]?.any (·.fileAddr < address)) entries.length
  (entries[pos]?.bind (matchAt entries address pos)).bind fun pos =>
    entries[pos]?.filter fun entry => !entry.isTerminalEntry

end LineTable

/-- `FileRangeMap::Entry`: a range and the address it is moved to. -/
structure FileRange where
  base : Nat
  size : Nat
  data : Nat
  deriving DecidableEq, Repr

namespace FileRange

def rangeEnd (range : FileRange) : Nat := range.base + range.size

def contains (range : FileRange) (address : Nat) : Bool := range.base ≤ address && address < range.rangeEnd

def link (range : FileRange) (address : Nat) : Nat := address - range.base + range.data

end FileRange

namespace LineTable

def firstContaining (ranges : List FileRange) (address : Nat) : Nat → Nat
  | 0 => 0
  | pos + 1 => if ranges[pos]?.any (·.contains address) then firstContaining ranges address pos else pos + 1

def findEntryThatContains (ranges : List FileRange) (address : Nat) : Option FileRange :=
  let pos := Library.lowerBound (fun index => ranges[index]?.any (·.base < address)) ranges.length
  ranges[firstContaining ranges address pos]?.filter (·.contains address)

structure Linking where
  entries : List Entry
  sequence : List Entry
  fileRangeEntry : Option FileRange
  prevFileRangeEntry : Option FileRange
  prevEntryWasLinked : Bool
  deriving DecidableEq, Repr

namespace Linking

def start : Linking := ⟨[], [], none, none, false⟩

variable (linking : Linking)

def flush : Linking :=
  { linking with entries := insertSequence linking.entries linking.sequence, sequence := [] }

def terminate (address : Nat) : Linking :=
  match linking.sequence.getLast? with
  | none => linking
  | some last =>
    { linking with sequence := linking.sequence ++ [{ last with fileAddr := address, isTerminalEntry := true }] }.flush

/-- The range of an entry is looked up where the last one does not contain the entry. -/
def lookUp (ranges : List FileRange) (linking : Linking) (address : Nat) : Linking × Bool :=
  if linking.fileRangeEntry.any (·.contains address) then (linking, false)
  else
    ({ linking with
        prevFileRangeEntry := linking.fileRangeEntry
        fileRangeEntry := findEntryThatContains ranges address }, true)

def prevEnd (address : Nat) (prev : FileRange) : Nat := prev.link (min address prev.rangeEnd)

/-- Where the entry before must be terminated. An entry that was linked has left its range behind. -/
def endOfPrevious (rangeChanged : Bool) (entry : Entry) : Option Nat :=
  match linking.fileRangeEntry, linking.prevFileRangeEntry with
  | some range, some prev =>
    if rangeChanged && linking.prevEntryWasLinked && prevEnd entry.fileAddr prev ≠ range.link entry.fileAddr then
      some (prevEnd entry.fileAddr prev)
    else none
  | none, some prev =>
    if linking.prevEntryWasLinked && linking.sequence.getLast?.any fun last => !last.isTerminalEntry then
      some (prevEnd entry.fileAddr prev)
    else none
  | _, none => none

def push (entry : Entry) : Linking :=
  match linking.fileRangeEntry with
  | none => linking
  | some range =>
    { linking with sequence := linking.sequence ++ [{ entry with fileAddr := range.link entry.fileAddr }] }

def finish : Linking :=
  if linking.sequence.getLast?.any (·.isTerminalEntry) then { linking.flush with prevEntryWasLinked := false }
  else { linking with prevEntryWasLinked := linking.fileRangeEntry.isSome }

def step (ranges : List FileRange) (linking : Linking) (entry : Entry) : Linking :=
  let (linking, rangeChanged) := linking.lookUp ranges (entry.fileAddr - if entry.isTerminalEntry then 1 else 0)
  let linking :=
    match linking.endOfPrevious rangeChanged entry with
    | none => linking
    | some address => linking.terminate address
  (linking.push entry).finish

end Linking

/-- No entries stand for the null pointer that is returned when nothing has been linked. -/
def linkLineTable (ranges : List FileRange) (entries : List Entry) : List Entry :=
  (entries.foldl (Linking.step ranges) Linking.start).entries

end LineTable

end Lldb
