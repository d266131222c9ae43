import Lldb.Core.Range
import Lldb.Utility.CursorMoves

/-! The four readers of location lists in `DWARFExpression.cpp`.

Offsets and lengths of sections stay below `2 ^ 64`.
-/

set_option autoImplicit false

namespace Lldb

open Library (Leb128)
open Cursor DataExtractor ByteOrder List Option

inductive LocationListFormat where
  | nonLocationList
  | regularLocationList
  | splitDwarfLocationList
  deriving DecidableEq, Repr

/-- What the readers ask of a `DWARFUnit`. -/
structure LocationUnit where
  locationListFormat : LocationListFormat
  addressByteSize : Nat
  addrBase : Nat
  debugAddrData : DataExtractor

namespace LocationUnit

variable (unit : LocationUnit) (data : DataExtractor)

def readAddressFromDebugAddrSection (index : Nat) : Cursor Nat :=
  let offset := (unit.addrBase + index % 2 ^ 32 * unit.addressByteSize) % 2 ^ 32
  StateT.lift ((unit.debugAddrData.getMaxU64 unit.addressByteSize offset).map Prod.fst)

def addressRangeForLocationListEntry : Cursor (Option (Nat × Nat)) := do
  if ¬ data.validOffset (← get) then return none
  match unit.locationListFormat with
  | .nonLocationList => return none
  | .regularLocationList =>
    let lowPc ← data.getAddress
    let highPc ← data.getAddress
    return some (lowPc, highPc)
  | .splitDwarfLocationList =>
    match ← data.getU8 with
    | 2 => -- DW_LLE_startx_endx
      let index ← data.getULEB128
      let lowPc ← unit.readAddressFromDebugAddrSection index
      let index ← data.getULEB128
      let highPc ← unit.readAddressFromDebugAddrSection index
      return some (lowPc, highPc)
    | 3 => -- DW_LLE_startx_length
      let index ← data.getULEB128
      let lowPc ← unit.readAddressFromDebugAddrSection index
      let length ← data.getU32
      return some (lowPc, (lowPc + length) % 2 ^ 64)
    | _ => return none -- DW_LLE_end_of_list, and the types that are not supported

/-- The loop that each of the readers has, around what it does with a range. A turn that does not end it moves on by a
byte at least, so as many turns as there are bytes are enough. -/
def readEntries {α : Type} (select : Nat → Nat → Cursor (Option α)) : Nat → Cursor (Option α)
  | 0 => StateT.lift none
  | fuel + 1 => do
    if ¬ data.validOffset (← get) then return none
    match ← unit.addressRangeForLocationListEntry data with
    | none => return none
    | some (lowPc, highPc) =>
      if lowPc = 0 ∧ highPc = 0 then return none
      match ← select lowPc highPc with
      | some found => return some found
      | none => readEntries select fuel

def skipExpression {α : Type} : Cursor (Option α) := do
  let length ← data.getU16
  modify (· + length)
  return none

variable (slide : Nat)

/-- The bounds of an entry from the base on, in the unsigned arithmetic of addresses. -/
def relocate (base address : Nat) : Nat := (address + (base + 2 ^ 64 - slide)) % 2 ^ 64

def locationListContainsAddress (base addr : Nat) : Option Bool :=
  if addr = invalidAddress then some false
  else if slide ≠ invalidAddress then
    if base = invalidAddress then some false
    else
      let select := fun lowPc highPc => do
        if relocate slide base lowPc ≤ addr ∧ addr < relocate slide base highPc then return some ()
        skipExpression data
      (unit.readEntries data select (data.bytes.length + 1) 0).map fun read => read.1.isSome
  else some false

def getLocation (base pc : Nat) : Option (Option (Nat × Nat)) :=
  if slide = invalidAddress then some (some (0, data.bytes.length))
  else if base ≠ invalidAddress ∧ pc ≠ invalidAddress then
    let select := fun lowPc highPc => do
      let length ← data.getU16
      if 0 < length ∧ relocate slide base lowPc ≤ pc ∧ pc < relocate slide base highPc then
        return some (← get, length)
      modify (· + length)
      return none
    (unit.readEntries data select (data.bytes.length + 1) 0).map Prod.fst
  else some none

/-- The offset and the length of the opcodes that `Evaluate` runs, or the error that it sets. -/
def evaluateLocation (base : Nat) (pc : Option Nat) : Option (Except (Option String) (Nat × Nat)) :=
  if slide = invalidAddress then some (.ok (0, data.bytes.length))
  else
    match pc with
    | none => some (.error none)
    | some pc =>
      if base ≠ invalidAddress then
        if pc = invalidAddress then some (.error (some "Invalid PC in frame."))
        else
          let select := fun lowPc highPc => do
            let length ← data.getU16
            if 0 < length ∧ relocate slide base lowPc ≤ pc ∧ pc < relocate slide base highPc then
              return some (← get, length)
            modify (· + length)
            return none
          (unit.readEntries data select (data.bytes.length + 1) 0).map fun
            | (some opcodes, _) => .ok opcodes
            | (none, _) => .error (some "variable not available")
      else some (.error (some "variable not available"))

def locationListSize (offset : Nat) : Option Nat :=
  let select := fun _ _ => (skipExpression data : Cursor (Option Empty))
  (unit.readEntries data select (data.bytes.length + 1) offset).map fun read =>
    if read.2 > offset then read.2 - offset else 0

end LocationUnit

/-! What the readers are to find in a list that was encoded. -/

structure LocationEntry where
  lowPc : Nat
  highPc : Nat
  header : List UInt8
  expression : List UInt8

namespace LocationUnit

structure Holds (unit : LocationUnit) (index : Leb128) (address : Nat) : Prop where
  size : index.size ≤ 10
  small : index.unsigned < 2 ^ 32
  place : unit.addrBase + index.unsigned * unit.addressByteSize < 2 ^ 32
  fits : address < 256 ^ unit.addressByteSize
  entry : unit.debugAddrData.At (unit.addrBase + index.unsigned * unit.addressByteSize)
    (unit.debugAddrData.byteOrder.encode unit.addressByteSize address)

inductive Header (unit : LocationUnit) (order : ByteOrder) (addrSize : Nat) : Nat → Nat → List UInt8 → Prop where
  | regular {lowPc highPc : Nat} (format : unit.locationListFormat = .regularLocationList)
    (low : lowPc < 256 ^ addrSize)
      (high : highPc < 256 ^ addrSize) :
      Header unit order addrSize lowPc highPc (order.encode addrSize lowPc ++ order.encode addrSize highPc)
  | startxEndx {lowPc highPc : Nat} (first last : Leb128) (format : unit.locationListFormat = .splitDwarfLocationList)
      (low : unit.Holds first lowPc) (high : unit.Holds last highPc) :
      Header unit order addrSize lowPc highPc ([2] ++ (first.bytes ++ last.bytes))
  | startxLength {lowPc length : Nat} (first : Leb128) (format : unit.locationListFormat = .splitDwarfLocationList)
      (low : unit.Holds first lowPc) (fits : length < 2 ^ 32) :
      Header unit order addrSize lowPc ((lowPc + length) % 2 ^ 64) ([3] ++ (first.bytes ++ order.encode 4 length))

def terminator (unit : LocationUnit) (order : ByteOrder) (addrSize : Nat) : List UInt8 :=
  match unit.locationListFormat with
  | .nonLocationList => []
  | .regularLocationList => order.encode addrSize 0 ++ order.encode addrSize 0
  | .splitDwarfLocationList => [0]

end LocationUnit

namespace LocationEntry

variable (order : ByteOrder)

def block (entry : LocationEntry) : List UInt8 := order.encode 2 entry.expression.length ++ entry.expression

def bytes (entry : LocationEntry) : List UInt8 := entry.header ++ entry.block order

def encode (entries : List LocationEntry) : List UInt8 := entries.flatMap (bytes order)

def located : Nat → List LocationEntry → List (Nat × LocationEntry)
  | _, [] => []
  | offset, entry :: rest => (offset, entry) :: located (offset + (entry.bytes order).length) rest

def Contains (slide base pc : Nat) (entry : LocationEntry) : Prop :=
  LocationUnit.relocate slide base entry.lowPc ≤ pc ∧ pc < LocationUnit.relocate slide base entry.highPc

instance (slide base pc : Nat) (entry : LocationEntry) : Decidable (entry.Contains slide base pc) :=
  inferInstanceAs (Decidable (_ ∧ _))

/-- The expression of the first entry that contains the address, unless it is empty. -/
def selected (slide base pc : Nat) (entries : List LocationEntry) : Option (Nat × Nat) :=
  if base = invalidAddress ∨ pc = invalidAddress then none
  else
    match (located order 0 entries).find? (fun placed => placed.2.Contains slide base pc) with
    | some (offset, entry) =>
      if entry.expression = [] then none else some (offset + entry.header.length + 2, entry.expression.length)
    | none => none

end LocationEntry

/-! What a range and an entry are read as. -/

namespace LocationUnit

variable {unit : LocationUnit} {data : DataExtractor} {offset : Nat}

theorem readAddress_at {index : Leb128} {address : Nat} (held : unit.Holds index address) (offset : Nat) :
    unit.readAddressFromDebugAddrSection (index.unsigned % 2 ^ 64) offset = some (address, offset) := by
  have small : index.unsigned % 2 ^ 64 % 2 ^ 32 = index.unsigned := by
    have small := held.small
    omega
  have read := getMaxU64_at held.fits held.entry
  unfold readAddressFromDebugAddrSection
  rw [small, Nat.mod_eq_of_lt held.place, read]
  rfl

theorem getULEB128_index {index : Leb128} {address : Nat} (held : unit.Holds index address)
    (at_ : data.At offset index.bytes) :
    data.getULEB128 offset = some (index.unsigned % 2 ^ 64, offset + index.bytes.length) := by
  simp [getULEB128_at at_, if_pos held.size]

theorem Header.length_pos {order : ByteOrder} {addrSize lowPc highPc : Nat} {bytes : List UInt8} (sized : 0 < addrSize)
    (header : Header unit order addrSize lowPc highPc bytes) : 0 < bytes.length := by
  cases header with
  | regular format low high =>
    rw [length_append, length_encode]
    omega
  | startxEndx first last format low high => exact Nat.succ_pos _
  | startxLength first format low fits => exact Nat.succ_pos _

theorem validOffset_at {bytes : List UInt8} (nonempty : 0 < bytes.length) (at_ : data.At offset bytes) :
    data.validOffset offset = true := by
  have bound := at_.bound
  exact decide_eq_true (by omega)

theorem addressRange_at {lowPc highPc : Nat} {bytes : List UInt8} (sized : 0 < data.addrSize)
    (header : Header unit data.byteOrder data.addrSize lowPc highPc bytes) (at_ : data.At offset bytes) :
    unit.addressRangeForLocationListEntry data offset = some (some (lowPc, highPc), offset + bytes.length) := by
  have valid := validOffset_at (header.length_pos sized) at_
  unfold addressRangeForLocationListEntry
  rw [bind_read (get_read offset), if_neg (not_not.mpr valid)]
  cases header with
  | regular format low high =>
    have lowRead : data.getAddress offset = _ := getMaxU64_at low at_.left
    have behind := at_.right
    rw [length_encode] at behind
    have highRead : data.getAddress (offset + data.addrSize) = _ := getMaxU64_at high behind
    rw [format]
    dsimp only
    rw [bind_read lowRead, bind_read highRead, length_append, length_encode, length_encode, add_assoc]
    rfl
  | startxEndx first last format low high =>
    have kind : data.getU8 offset = some (2, offset + 1) := getU8_at at_.left
    have firstAt : data.At (offset + 1) first.bytes := at_.right.left
    have lastAt : data.At (offset + 1 + first.bytes.length) last.bytes := at_.right.right
    rw [format]
    dsimp only
    rw [bind_read kind]
    change (data.getULEB128 >>= _) _ = _
    rw [bind_read (getULEB128_index low firstAt), bind_read (readAddress_at low _),
      bind_read (getULEB128_index high lastAt), bind_read (readAddress_at high _),
      length_append, length_append, ← add_assoc, ← add_assoc]
    rfl
  | startxLength first format low fits =>
    rename_i length
    have kind : data.getU8 offset = some (3, offset + 1) := getU8_at at_.left
    have firstAt : data.At (offset + 1) first.bytes := at_.right.left
    have behind : data.At (offset + 1 + first.bytes.length) (data.byteOrder.encode 4 length) := at_.right.right
    have lengthRead : data.getU32 _ = some (length, _ + 4) := getMaxU64_at fits behind
    rw [format]
    dsimp only
    rw [bind_read kind]
    change (data.getULEB128 >>= _) _ = _
    rw [bind_read (getULEB128_index low firstAt), bind_read (readAddress_at low _),
      bind_read lengthRead, length_append, length_append,
      length_encode, ← add_assoc]
    rfl

variable {α : Type} {select : Nat → Nat → Cursor (Option α)}

theorem readEntries_zero {bytes : List UInt8} (sized : 0 < data.addrSize)
    (header : Header unit data.byteOrder data.addrSize 0 0 bytes) (at_ : data.At offset bytes) (fuel : Nat) :
    unit.readEntries data select (fuel + 1) offset = some (none, offset + bytes.length) := by
  have valid := validOffset_at (header.length_pos sized) at_
  rw [readEntries, bind_read (get_read offset), if_neg (not_not.mpr valid),
    bind_read (addressRange_at sized header at_)]
  rfl

theorem addressRange_end (format : unit.locationListFormat = .splitDwarfLocationList) (at_ : data.At offset [0]) :
    unit.addressRangeForLocationListEntry data offset = some (none, offset + 1) := by
  have valid := validOffset_at (by decide) at_
  have kind : data.getU8 offset = some (0, offset + 1) := getU8_at at_
  unfold addressRangeForLocationListEntry
  rw [bind_read (get_read offset), if_neg (not_not.mpr valid), format]
  dsimp only
  rw [bind_read kind]
  rfl

theorem readEntries_terminator (sized : 0 < data.addrSize) (format : unit.locationListFormat ≠ .nonLocationList)
    (at_ : data.At offset (unit.terminator data.byteOrder data.addrSize)) (fuel : Nat) :
    unit.readEntries data select (fuel + 1) offset =
      some (none, offset + (unit.terminator data.byteOrder data.addrSize).length) := by
  unfold terminator at at_ ⊢
  cases kind : unit.locationListFormat with
  | nonLocationList => exact absurd kind format
  | regularLocationList =>
    rw [kind] at at_
    have room : 0 < 256 ^ data.addrSize := Nat.pow_pos (by decide)
    exact readEntries_zero sized (.regular kind room room) at_ fuel
  | splitDwarfLocationList =>
    have zero : data.At offset [0] := by rwa [kind] at at_
    have valid := validOffset_at (by decide) zero
    rw [readEntries, bind_read (get_read offset), if_neg (not_not.mpr valid), bind_read (addressRange_end kind zero)]
    rfl

theorem skipExpression_at {expression : List UInt8} (fits : expression.length < 2 ^ 16)
    (at_ : data.At offset (data.byteOrder.encode 2 expression.length ++ expression)) :
    (skipExpression data : Cursor (Option α)) offset = some (none, offset + 2 + expression.length) := by
  have read : data.getU16 offset = some (expression.length, offset + 2) := getMaxU64_at fits at_.left
  unfold skipExpression
  rw [bind_read read]
  rfl

structure Placed (unit : LocationUnit) (data : DataExtractor) (offset : Nat) (entries : List LocationEntry)
    (stop : List UInt8) : Prop where
  at_ : data.At offset (LocationEntry.encode data.byteOrder entries ++ stop)
  headers : ∀ entry ∈ entries, unit.Header data.byteOrder data.addrSize entry.lowPc entry.highPc entry.header
  lengths : ∀ entry ∈ entries, entry.expression.length < 2 ^ 16
  nonzero : ∀ entry ∈ entries, ¬ (entry.lowPc = 0 ∧ entry.highPc = 0)

variable {stop : List UInt8}

theorem Placed.next {entry : LocationEntry} {entries : List LocationEntry}
    (placed : unit.Placed data offset (entry :: entries) stop) :
    unit.Placed data (offset + (entry.bytes data.byteOrder).length) entries stop where
  at_ := by
    have at_ := placed.at_
    rw [LocationEntry.encode, flatMap_cons, append_assoc] at at_
    exact at_.right
  headers other member := placed.headers other (mem_cons_of_mem _ member)
  lengths other member := placed.lengths other (mem_cons_of_mem _ member)
  nonzero other member := placed.nonzero other (mem_cons_of_mem _ member)

/-- A reader ends with the first entry for which its choice is made, and otherwise behind the stop. -/
theorem readEntries_placed {entries : List LocationEntry} {fuel : Nat}
    (choice : Nat → LocationEntry → Option α) (sized : 0 < data.addrSize)
    (placed : unit.Placed data offset entries stop)
    (stops : ∀ place fuel, data.At place stop →
      unit.readEntries data select (fuel + 1) place = some (none, place + stop.length))
    (selects : ∀ place, ∀ entry ∈ entries, data.At place (entry.block data.byteOrder) →
      ∃ next, select entry.lowPc entry.highPc place = some (choice place entry, next) ∧
        (choice place entry = none → next = place + (entry.block data.byteOrder).length))
    (enough : entries.length < fuel) :
    let chosen := (LocationEntry.located data.byteOrder offset entries).findSome? fun (place, entry) =>
      choice (place + entry.header.length) entry
    ∃ final, unit.readEntries data select fuel offset = some (chosen, final) ∧
      (chosen = none → final = offset + (LocationEntry.encode data.byteOrder entries ++ stop).length) := by
  induction entries generalizing offset fuel with
  | nil =>
    obtain ⟨fuel, rfl⟩ := Nat.exists_eq_add_of_lt enough
    exact ⟨_, stops offset _ placed.at_, fun _ => rfl⟩
  | cons entry rest ih =>
    obtain ⟨fuel, rfl⟩ : ∃ more, fuel = more + 1 := ⟨fuel - 1, by omega⟩
    have at_ := placed.at_
    rw [LocationEntry.encode, flatMap_cons, append_assoc] at at_
    have entryAt : data.At offset (entry.header ++ entry.block data.byteOrder) := at_.left
    have header := placed.headers entry mem_cons_self
    have range := addressRange_at sized header entryAt.left
    have valid := validOffset_at (header.length_pos sized) entryAt.left
    obtain ⟨next, chosen, moved⟩ := selects (offset + entry.header.length) entry mem_cons_self entryAt.right
    have turn : unit.readEntries data select (fuel + 1) offset = match choice (offset + entry.header.length) entry with
        | some found => some (some found, next)
        | none => unit.readEntries data select fuel next := by
      rw [readEntries, bind_read (get_read offset), if_neg (not_not.mpr valid), bind_read range]
      dsimp only
      rw [if_neg (placed.nonzero entry mem_cons_self), bind_read chosen]
      cases choice (offset + entry.header.length) entry <;> rfl
    dsimp only
    rw [turn, LocationEntry.located, findSome?_cons]
    cases made : choice (offset + entry.header.length) entry with
    | some found => exact ⟨next, rfl, nofun⟩
    | none =>
      have there : next = offset + (entry.bytes data.byteOrder).length := by
        simp [moved made, LocationEntry.bytes, add_assoc]
      have later := ih placed.next (fun place other member => selects place other (mem_cons_of_mem _ member))
        (Nat.lt_of_succ_lt_succ enough)
      obtain ⟨final, read, ends⟩ := later
      refine ⟨final, by rw [there]; exact read, fun none => ?_⟩
      rw [ends none, LocationEntry.encode, LocationEntry.encode, flatMap_cons]
      simp only [length_append]
      omega

theorem length_le_encode {entries : List LocationEntry} (sized : 0 < data.addrSize)
    (placed : unit.Placed data offset entries stop) :
    entries.length ≤ (LocationEntry.encode data.byteOrder entries).length := by
  induction entries generalizing offset with
  | nil => exact Nat.zero_le _
  | cons entry rest ih =>
    have header := (placed.headers entry mem_cons_self).length_pos sized
    have later := ih placed.next
    rw [LocationEntry.encode] at later ⊢
    rw [flatMap_cons, length_append, length_cons, LocationEntry.bytes, length_append]
    omega

theorem enough_turns {entries : List LocationEntry} (sized : 0 < data.addrSize)
    (placed : unit.Placed data offset entries stop) : entries.length < data.bytes.length + 1 := by
  have length := length_le_encode sized placed
  have bound := placed.at_.left.bound
  omega

section

variable {entries : List LocationEntry} {slide base pc : Nat}

theorem findSome?_ite {β γ : Type} (list : List β) (holds : β → Prop) [DecidablePred holds] (make : β → γ) :
    (list.findSome? fun value => if holds value then some (make value) else none) =
      (list.find? fun value => holds value).map make := by
  induction list with
  | nil => rfl
  | cons value rest ih =>
    rw [findSome?_cons, find?_cons]
    by_cases first : holds value
    · rw [if_pos first, decide_eq_true first]
      rfl
    · rw [if_neg first, decide_eq_false first]
      exact ih

/-- What `LocationListContainsAddress` does with a range. -/
abbrev selectContaining (data : DataExtractor) (slide base pc lowPc highPc : Nat) : Cursor (Option Unit) := do
  if relocate slide base lowPc ≤ pc ∧ pc < relocate slide base highPc then return some ()
  skipExpression data

theorem selectsContaining (lengths : ∀ entry ∈ entries, entry.expression.length < 2 ^ 16) (place : Nat) :
    ∀ entry ∈ entries, data.At place (entry.block data.byteOrder) → ∃ next,
      selectContaining data slide base pc entry.lowPc entry.highPc place =
          some (if entry.Contains slide base pc then some () else none, next) ∧
        ((if entry.Contains slide base pc then some () else none) = none →
          next = place + (entry.block data.byteOrder).length) := by
  intro entry member at_
  by_cases inside : entry.Contains slide base pc
  · refine ⟨place, ?_, fun none => ?_⟩
    · have bounds : relocate slide base entry.lowPc ≤ pc ∧ pc < relocate slide base entry.highPc := inside
      rw [selectContaining, if_pos bounds, if_pos inside]
      rfl
    · rw [if_pos inside] at none
      cases none
  · refine ⟨_, ?_, fun _ => rfl⟩
    have bounds : ¬ (relocate slide base entry.lowPc ≤ pc ∧ pc < relocate slide base entry.highPc) := inside
    rw [selectContaining, if_neg bounds, if_neg inside, LocationEntry.block, length_append,
      length_encode, ← add_assoc]
    exact skipExpression_at (lengths entry member) at_

/-- The choice of the readers that look at the length of an expression first. -/
abbrev opcodesAt (slide base pc place : Nat) (entry : LocationEntry) : Option (Nat × Nat) :=
  if 0 < entry.expression.length ∧ entry.Contains slide base pc then some (place + 2, entry.expression.length) else none

/-- What `GetLocation` and `Evaluate` do with a range. -/
abbrev selectOpcodes (data : DataExtractor) (slide base pc lowPc highPc : Nat) : Cursor (Option (Nat × Nat)) := do
  let length ← data.getU16
  if 0 < length ∧ relocate slide base lowPc ≤ pc ∧ pc < relocate slide base highPc then
    return some (← get, length)
  modify (· + length)
  return none

theorem selectsOpcodes (lengths : ∀ entry ∈ entries, entry.expression.length < 2 ^ 16) (place : Nat) :
    ∀ entry ∈ entries, data.At place (entry.block data.byteOrder) → ∃ next,
      selectOpcodes data slide base pc entry.lowPc entry.highPc place =
          some (opcodesAt slide base pc place entry, next) ∧
        (opcodesAt slide base pc place entry = none → next = place + (entry.block data.byteOrder).length) := by
  intro entry member at_
  have read : data.getU16 place = some (entry.expression.length, place + 2) :=
    getMaxU64_at (lengths entry member) at_.left
  by_cases inside : 0 < entry.expression.length ∧ entry.Contains slide base pc
  · refine ⟨place + 2, ?_, fun none => ?_⟩
    · have bounds : 0 < entry.expression.length ∧ relocate slide base entry.lowPc ≤ pc ∧
          pc < relocate slide base entry.highPc := inside
      rw [selectOpcodes, bind_read read, if_pos bounds, opcodesAt, if_pos inside]
      rfl
    · rw [opcodesAt, if_pos inside] at none
      cases none
  · refine ⟨_, ?_, fun _ => rfl⟩
    have bounds : ¬ (0 < entry.expression.length ∧ relocate slide base entry.lowPc ≤ pc ∧
        pc < relocate slide base entry.highPc) := inside
    rw [selectOpcodes, bind_read read, if_neg bounds, opcodesAt, if_neg inside, LocationEntry.block, length_append,
      length_encode, ← add_assoc]
    rfl

variable (sized : 0 < data.addrSize) (format : unit.locationListFormat ≠ .nonLocationList)
  (placed : unit.Placed data 0 entries (unit.terminator data.byteOrder data.addrSize))
  (isLocationList : slide ≠ invalidAddress) (validBase : base ≠ invalidAddress) (validPc : pc ≠ invalidAddress)

include sized format placed isLocationList validBase validPc

theorem locationListContainsAddress_eq : unit.locationListContainsAddress data slide base pc =
      some ((LocationEntry.located data.byteOrder 0 entries).find? fun placed =>
        placed.2.Contains slide base pc).isSome := by
  obtain ⟨final, read, -⟩ := readEntries_placed
    (fun _ entry => if entry.Contains slide base pc then some () else none) sized placed
    (fun place fuel at_ => readEntries_terminator sized format at_ fuel)
    (fun place => selectsContaining placed.lengths place) (enough_turns sized placed)
  unfold locationListContainsAddress
  rw [if_neg validPc, if_pos isLocationList, if_neg validBase]
  dsimp only at read ⊢
  rw [read, map_some]
  rw [findSome?_ite _ (fun placed : Nat × LocationEntry => placed.2.Contains slide base pc), isSome_map]

theorem getLocation_eq : unit.getLocation data slide base pc =
      some ((LocationEntry.located data.byteOrder 0 entries).findSome? fun (place, entry) =>
        opcodesAt slide base pc (place + entry.header.length) entry) := by
  obtain ⟨final, read, -⟩ := readEntries_placed (opcodesAt slide base pc) sized placed
    (fun place fuel at_ => readEntries_terminator sized format at_ fuel)
    (fun place => selectsOpcodes placed.lengths place) (enough_turns sized placed)
  unfold getLocation
  rw [if_neg isLocationList, if_pos ⟨validBase, validPc⟩]
  dsimp only at read ⊢
  rw [read, map_some]

theorem evaluateLocation_eq : (unit.evaluateLocation data slide base (some pc)).map Except.toOption =
      some ((LocationEntry.located data.byteOrder 0 entries).findSome? fun (place, entry) =>
        opcodesAt slide base pc (place + entry.header.length) entry) := by
  obtain ⟨final, read, -⟩ := readEntries_placed (opcodesAt slide base pc) sized placed
    (fun place fuel at_ => readEntries_terminator sized format at_ fuel)
    (fun place => selectsOpcodes placed.lengths place) (enough_turns sized placed)
  unfold evaluateLocation
  rw [if_neg isLocationList]
  dsimp only at read ⊢
  rw [if_pos validBase, if_neg validPc, read]
  cases (LocationEntry.located data.byteOrder 0 entries).findSome? _ <;> rfl

end

theorem locationListSize_eq {entries : List LocationEntry} (sized : 0 < data.addrSize)
    (placed : unit.Placed data offset entries stop)
    (stops : ∀ place fuel, data.At place stop →
      unit.readEntries data (fun _ _ => (skipExpression data : Cursor (Option Empty))) (fuel + 1) place =
        some (none, place + stop.length)) :
    unit.locationListSize data offset = some (LocationEntry.encode data.byteOrder entries ++ stop).length := by
  obtain ⟨final, read, ends⟩ := readEntries_placed (fun _ _ => none) sized placed stops
    (fun place entry member at_ => ⟨_, skipExpression_at (placed.lengths entry member) at_, fun _ => by
      simp [LocationEntry.block, ← add_assoc]⟩)
    (enough_turns sized placed)
  have none : ((LocationEntry.located data.byteOrder offset entries).findSome? fun _ => (none : Option Empty)) = none :=
    findSome?_eq_none_iff.mpr fun _ _ => rfl
  unfold locationListSize
  dsimp only
  rw [read, ends none, map_some]
  split
  · rw [Nat.add_sub_cancel_left]
  · have zero : (LocationEntry.encode data.byteOrder entries ++ stop).length = 0 := by omega
    rw [zero]

/-! The readers' choices against the entry to be selected. -/

structure Encodes (unit : LocationUnit) (data : DataExtractor) (entries : List LocationEntry) : Prop where
  sized : 0 < data.addrSize
  format : unit.locationListFormat ≠ .nonLocationList
  list : LocationEntry.encode data.byteOrder entries ++ unit.terminator data.byteOrder data.addrSize <+: data.bytes
  headers : ∀ entry ∈ entries, unit.Header data.byteOrder data.addrSize entry.lowPc entry.highPc entry.header
  lengths : ∀ entry ∈ entries, entry.expression.length < 2 ^ 16

/-- The readers find the entry to be selected, and the size is found wherever in its section the list is. -/
structure ReadersAgree (unit : LocationUnit) (data : DataExtractor) (slide base pc : Nat)
    (entries : List LocationEntry) : Prop where
  contains : unit.locationListContainsAddress data slide base pc =
    some (LocationEntry.selected data.byteOrder slide base pc entries).isSome
  location : unit.getLocation data slide base pc = some (LocationEntry.selected data.byteOrder slide base pc entries)
  evaluated : (unit.evaluateLocation data slide base (some pc)).map Except.toOption =
    some (LocationEntry.selected data.byteOrder slide base pc entries)
  size : ∀ before, unit.locationListSize { data with bytes := before ++ data.bytes } before.length =
    some (LocationEntry.encode data.byteOrder entries ++ unit.terminator data.byteOrder data.addrSize).length

theorem find?_located (order : ByteOrder) (offset : Nat) (entries : List LocationEntry) (holds : LocationEntry → Bool) :
    ((LocationEntry.located order offset entries).find? fun placed => holds placed.2).map Prod.snd =
      entries.find? holds := by
  induction entries generalizing offset with
  | nil => rfl
  | cons entry rest ih =>
    rw [LocationEntry.located, find?_cons, find?_cons]
    cases holds entry with
    | true => rfl
    | false => exact ih _

theorem find?_and {β : Type} {list : List β} (holds more : β → Bool)
    (first : ∀ value, list.find? holds = some value → more value = true) :
    (list.find? fun value => more value && holds value) = list.find? holds := by
  induction list with
  | nil => rfl
  | cons value rest ih =>
    rw [find?_cons] at first ⊢
    rw [find?_cons]
    cases found : holds value with
    | true =>
      rw [found] at first
      rw [first value rfl]
      rfl
    | false =>
      rw [found] at first
      rw [Bool.and_false]
      exact ih first

section

variable {entries : List LocationEntry} {slide base pc : Nat}

theorem selected_eq (order : ByteOrder) (validBase : base ≠ invalidAddress) (validPc : pc ≠ invalidAddress) :
    LocationEntry.selected order slide base pc entries =
      ((LocationEntry.located order 0 entries).find? fun placed => placed.2.Contains slide base pc).bind fun placed =>
        if placed.2.expression = [] then none
        else some (placed.1 + placed.2.header.length + 2, placed.2.expression.length) := by
  unfold LocationEntry.selected
  rw [if_neg (not_or.mpr ⟨validBase, validPc⟩)]
  cases (LocationEntry.located order 0 entries).find? _ <;> rfl

/-- The expression of the first entry that contains the address is not empty. -/
def FirstNonempty (slide base pc : Nat) (entries : List LocationEntry) : Prop :=
  ∀ entry, (entries.find? fun entry => entry.Contains slide base pc) = some entry → entry.expression ≠ []

theorem FirstNonempty.placed (first : FirstNonempty slide base pc entries) (order : ByteOrder)
    (placed : Nat × LocationEntry)
    (found : ((LocationEntry.located order 0 entries).find? fun placed => placed.2.Contains slide base pc) =
      some placed) :
    placed.2.expression ≠ [] := by
  have plain := find?_located order 0 entries fun entry => decide (entry.Contains slide base pc)
  rw [found] at plain
  exact first placed.2 plain.symm

theorem findOpcodes_eq (order : ByteOrder) (validBase : base ≠ invalidAddress) (validPc : pc ≠ invalidAddress)
    (first : FirstNonempty slide base pc entries) :
    ((LocationEntry.located order 0 entries).findSome? fun (place, entry) =>
        opcodesAt slide base pc (place + entry.header.length) entry) =
      LocationEntry.selected order slide base pc entries := by
  have cut := find?_and (fun placed => decide (placed.2.Contains slide base pc))
    (fun placed : Nat × LocationEntry => decide (0 < placed.2.expression.length)) fun placed found =>
      decide_eq_true (length_pos_iff.mpr (first.placed order placed found))
  have chosen := findSome?_ite (LocationEntry.located order 0 entries)
    (fun placed => 0 < placed.2.expression.length ∧ placed.2.Contains slide base pc)
    fun placed => (placed.1 + placed.2.header.length + 2, placed.2.expression.length)
  simp only [Bool.decide_and] at chosen
  rw [cut] at chosen
  rw [selected_eq order validBase validPc]
  refine chosen.trans ?_
  cases found : (LocationEntry.located order 0 entries).find? fun placed => placed.2.Contains slide base pc with
  | none => rfl
  | some placed => simp [if_neg (first.placed order placed found)]

theorem isSome_selected_iff (order : ByteOrder) (validBase : base ≠ invalidAddress) (validPc : pc ≠ invalidAddress) :
    ((LocationEntry.located order 0 entries).find? fun placed => placed.2.Contains slide base pc).isSome =
        (LocationEntry.selected order slide base pc entries).isSome ↔ FirstNonempty slide base pc entries := by
  have plain := find?_located order 0 entries fun entry => decide (entry.Contains slide base pc)
  rw [selected_eq order validBase validPc]
  unfold FirstNonempty
  rw [← plain]
  cases (LocationEntry.located order 0 entries).find? fun placed => placed.2.Contains slide base pc with
  | none => exact iff_of_true rfl nofun
  | some placed =>
    rw [bind_some]
    by_cases empty : placed.2.expression = []
    · rw [if_pos empty]
      exact iff_of_false nofun fun first => first placed.2 rfl empty
    · rw [if_neg empty]
      exact iff_of_true rfl fun entry same => by cases same; exact empty

theorem Encodes.placed (encodes : unit.Encodes data entries)
    (nonzero : ∀ entry ∈ entries, ¬ (entry.lowPc = 0 ∧ entry.highPc = 0)) (before : List UInt8) :
    unit.Placed { data with bytes := before ++ data.bytes } before.length entries
      (unit.terminator data.byteOrder data.addrSize) where
  at_ := by
    unfold DataExtractor.At
    rw [drop_left]
    exact encodes.list
  headers := encodes.headers
  lengths := encodes.lengths
  nonzero := nonzero

theorem Encodes.nonzero_of_size (encodes : unit.Encodes data entries) (size : unit.locationListSize data 0 =
      some (LocationEntry.encode data.byteOrder entries ++ unit.terminator data.byteOrder data.addrSize).length) :
    ∀ entry ∈ entries, ¬ (entry.lowPc = 0 ∧ entry.highPc = 0) := by
  by_contra zero
  push Not at zero
  obtain ⟨first, found⟩ : ∃ first, (entries.find? fun entry => entry.lowPc = 0 ∧ entry.highPc = 0) = some first := by
    obtain ⟨entry, member, zeros⟩ := zero
    exact isSome_iff_exists.mp (find?_isSome.mpr ⟨entry, member, decide_eq_true zeros⟩)
  obtain ⟨zeros, front, back, split, others⟩ := find?_eq_some_iff_append.mp found
  obtain ⟨lowPc, highPc⟩ := of_decide_eq_true zeros
  have member : first ∈ entries := by rw [split]; exact mem_append_right _ mem_cons_self
  have header := encodes.headers first member
  rw [lowPc, highPc] at header
  have sum : LocationEntry.encode data.byteOrder entries = LocationEntry.encode data.byteOrder front ++ first.header ++
      (first.block data.byteOrder ++ LocationEntry.encode data.byteOrder back) := by
    unfold LocationEntry.encode
    rw [split, flatMap_append, flatMap_cons, LocationEntry.bytes]
    simp
  have placed : unit.Placed data 0 front first.header :=
    { at_ := by
        have list := encodes.list
        rw [sum, append_assoc] at list
        exact (prefix_append _ _).trans list
      headers := fun entry inside => encodes.headers entry (by rw [split]; exact mem_append_left _ inside)
      lengths := fun entry inside => encodes.lengths entry (by rw [split]; exact mem_append_left _ inside)
      nonzero := fun entry inside => not_and_or.mpr (by simpa using others entry inside) }
  have short := locationListSize_eq encodes.sized placed fun place fuel at_ =>
    readEntries_zero encodes.sized header at_ fuel
  rw [size, Option.some.injEq, sum, LocationEntry.block] at short
  simp only [length_append, length_encode] at short
  omega

/-- The readers agree just if no range is of two zeros and, where the addresses are valid, the expression of the first
entry that contains the address is not empty. -/
theorem readersAgree_iff (encodes : unit.Encodes data entries) (isLocationList : slide ≠ invalidAddress)
    (base pc : Nat) :
    unit.ReadersAgree data slide base pc entries ↔ (∀ entry ∈ entries, ¬ (entry.lowPc = 0 ∧ entry.highPc = 0)) ∧
      (base ≠ invalidAddress → pc ≠ invalidAddress → FirstNonempty slide base pc entries) := by
  constructor
  · intro agree
    have nonzero := encodes.nonzero_of_size (agree.size [])
    refine ⟨nonzero, fun validBase validPc => (isSome_selected_iff data.byteOrder validBase validPc).mp ?_⟩
    have contains := agree.contains
    rw [locationListContainsAddress_eq encodes.sized encodes.format (encodes.placed nonzero []) isLocationList validBase
      validPc] at contains
    exact Option.some.inj contains
  · rintro ⟨nonzero, nonempty⟩
    have placed := encodes.placed nonzero []
    have size (before : List UInt8) : unit.locationListSize { data with bytes := before ++ data.bytes } before.length =
        some (LocationEntry.encode data.byteOrder entries ++ unit.terminator data.byteOrder data.addrSize).length := by
      have sized : 0 < ({ data with bytes := before ++ data.bytes } : DataExtractor).addrSize := encodes.sized
      exact locationListSize_eq sized (encodes.placed nonzero before)
        fun place fuel at_ => readEntries_terminator sized encodes.format at_ fuel
    by_cases valid : base ≠ invalidAddress ∧ pc ≠ invalidAddress
    · obtain ⟨validBase, validPc⟩ := valid
      have first := nonempty validBase validPc
      have opcodes := findOpcodes_eq data.byteOrder validBase validPc first
      have some_ := (isSome_selected_iff data.byteOrder validBase validPc).mpr first
      refine ⟨?_, ?_, ?_, size⟩
      · rw [← some_]
        exact locationListContainsAddress_eq encodes.sized encodes.format placed isLocationList validBase validPc
      · rw [← opcodes]
        exact getLocation_eq encodes.sized encodes.format placed isLocationList validBase validPc
      · rw [← opcodes]
        exact evaluateLocation_eq encodes.sized encodes.format placed isLocationList validBase validPc
    · have invalid : base = invalidAddress ∨ pc = invalidAddress := by tauto
      have none : LocationEntry.selected data.byteOrder slide base pc entries = none := if_pos invalid
      refine ⟨?_, ?_, ?_, size⟩
      · rw [none]
        unfold locationListContainsAddress
        by_cases noPc : pc = invalidAddress
        · simp [if_pos noPc]
        · simp [if_neg noPc, if_pos isLocationList, if_pos (invalid.resolve_right noPc)]
      · rw [none]
        unfold getLocation
        rw [if_neg isLocationList, if_neg valid]
      · rw [none]
        unfold evaluateLocation
        rw [if_neg isLocationList]
        dsimp only
        by_cases validBase : base ≠ invalidAddress
        · rw [if_pos validBase, if_pos (invalid.resolve_left validBase)]
          rfl
        · rw [if_neg validBase]
          rfl

def optimizedOut : List LocationEntry := [⟨0x10, 0x20, [0x10, 0, 0, 0, 0x20, 0, 0, 0], []⟩]

def regularUnit : LocationUnit := ⟨.regularLocationList, 4, 0, ⟨[], .little, 4⟩⟩

def optimizedOutData : DataExtractor :=
  ⟨LocationEntry.encode .little optimizedOut ++ regularUnit.terminator .little 4, .little, 4⟩

theorem optimizedOut_encodes : regularUnit.Encodes optimizedOutData optimizedOut where
  sized := by decide
  format := by decide
  list := prefix_refl _
  headers := by
    have header : regularUnit.Header .little 4 0x10 0x20 [0x10, 0, 0, 0, 0x20, 0, 0, 0] :=
      .regular rfl (by decide) (by decide)
    simp only [optimizedOut, forall_mem_cons]
    exact ⟨header, fun _ member => absurd member not_mem_nil⟩
  lengths := by
    simp only [optimizedOut, forall_mem_cons]
    exact ⟨by decide, fun _ member => absurd member not_mem_nil⟩

theorem readersAgree_iff_behind : regularUnit.ReadersAgree optimizedOutData 0 0 0x30 optimizedOut :=
  (readersAgree_iff optimizedOut_encodes (by decide) 0 0x30).mpr
    ⟨by simp [optimizedOut], fun _ _ entry found => by
      cases found⟩

/-- The list is said to contain an address that it has no expression for. -/
theorem not_readersAgree : ¬ ∀ (unit : LocationUnit) (data : DataExtractor) (slide base pc : Nat)
    (entries : List LocationEntry), unit.Encodes data entries → slide ≠ invalidAddress →
      unit.ReadersAgree data slide base pc entries := by
  intro agree
  have agree := agree regularUnit optimizedOutData 0 0 0x18 optimizedOut optimizedOut_encodes (by decide)
  exact absurd agree.contains (by decide)

end

end LocationUnit

end Lldb
