import Lldb.Symbol.UnwindPlan
import Lldb.Utility.DataExtractor

/-! `ArmUnwindInfo::GetUnwindPlan`, from the words of an exception handling table entry on.

Words and `vsp` are 32 bits wide, and `int32_t` wraps. Registers have their DWARF numbers.
-/

set_option autoImplicit false

namespace Lldb.ArmUnwindInfo

open DataExtractor

def dwarfR0 : Nat := 0

def dwarfR4 : Nat := 4

def dwarfSp : Nat := 13

def dwarfLr : Nat := 14

def dwarfPc : Nat := 15

def dwarfD0 : Nat := 256

def dwarfD8 : Nat := dwarfD0 + 8

def dwarfD16 : Nat := dwarfD0 + 16

/-- `swapped` where the object file has not the byte order of the host. -/
def byteSwap32 (word : BitVec 32) : BitVec 32 :=
  word.extractLsb' 0 8 ++ word.extractLsb' 8 8 ++ word.extractLsb' 16 8 ++ word.extractLsb' 24 8

/-- The most significant byte of a word comes first; `none` is a read outside the entry. -/
def getByteAtOffset (swapped : Bool) (data : List (BitVec 32)) (offset : Nat) : Option UInt8 :=
  data[offset / 4]?.map fun word =>
    let value := if swapped then byteSwap32 word else word
    UInt8.ofNat (value >>> ((3 - offset % 4) * 8)).toNat

/-- `vsp` is an offset from the register `vspReg`, as the offsets of the registers are. -/
structure State where
  vspReg : Nat
  vsp : BitVec 32
  registerOffsets : List (Nat × BitVec 32)
  deriving DecidableEq, Repr

namespace State

def start : State := ⟨dwarfSp, 0, []⟩

def add (state : State) (delta : BitVec 32) : State := { state with vsp := state.vsp + delta }

def pop (state : State) (size : BitVec 32) (register : Nat) : State :=
  { state with registerOffsets := state.registerOffsets ++ [(register, state.vsp)], vsp := state.vsp + size }

def popAll (state : State) (size : BitVec 32) (registers : List Nat) : State := registers.foldl (pop · size) state

end State

/-- The registers from `base` on for the bits of a mask. -/
def masked (base count : Nat) (regs : Nat) : List Nat := ((List.range count).filter (regs.testBit ·)).map (base + ·)

def counted (base n : Nat) : List Nat := (List.range (n + 1)).map (base + ·)

inductive Step where
  | goOn (state : State) (rest : List UInt8)
  | finish
  | refuse
  deriving DecidableEq, Repr

def withByte2 (rest : List UInt8) (step : UInt8 → List UInt8 → Step) : Step :=
  match rest with
  | [] => .refuse
  | byte2 :: rest => step byte2 rest

/-- The tests of the loop, one after the other; `none` is a shift by more than the width. -/
def step (state : State) (byte1 : UInt8) (rest : List UInt8) : Option Step :=
  let low := byte1.toNat
  if byte1 &&& 0xc0 = 0x00 then
    some (.goOn (state.add (BitVec.ofNat 32 ((low &&& 0x3f) <<< 2 + 4))) rest)
  else if byte1 &&& 0xc0 = 0x40 then
    some (.goOn (state.add (-BitVec.ofNat 32 ((low &&& 0x3f) <<< 2 + 4))) rest)
  else if byte1 &&& 0xf0 = 0x80 then
    some <| withByte2 rest fun byte2 rest =>
      if byte1 = 0x80 ∧ byte2 = 0 then .refuse
      else .goOn (state.popAll 4 (masked dwarfR4 12 ((low &&& 0x0f) <<< 8 ||| byte2.toNat))) rest
  else if byte1 = 0x9d then some .refuse
  else if byte1 = 0x9f then some .refuse
  else if byte1 &&& 0xf0 = 0x90 then
    some (.goOn { state with vspReg := dwarfR0 + (low &&& 0x0f) } rest)
  else if byte1 &&& 0xf8 = 0xa0 then
    some (.goOn (state.popAll 4 (counted dwarfR4 (low &&& 0x7))) rest)
  else if byte1 &&& 0xf8 = 0xa8 then
    some (.goOn ((state.popAll 4 (counted dwarfR4 (low &&& 0x7))).pop 4 dwarfLr) rest)
  else if byte1 = 0xb0 then some .finish
  else if byte1 = 0xb1 then
    some <| withByte2 rest fun byte2 rest =>
      if byte2 = 0x00 then .refuse
      else if byte2 &&& 0xf0 = 0x00 then .goOn (state.popAll 4 (masked dwarfR0 4 byte2.toNat)) rest
      else .refuse
  else if byte1 = 0xb2 then
    (ulebLoop rest 0 0 0).map fun (uleb128, read) =>
      .goOn (state.add (BitVec.ofNat 32 (0x204 + uleb128 <<< 2))) (rest.drop read)
  else if byte1 = 0xb3 then
    some <| withByte2 rest fun byte2 rest =>
      .goOn ((state.popAll 8 (counted (dwarfD0 + (byte2.toNat &&& 0xf0) >>> 4) (byte2.toNat &&& 0x0f))).add 4) rest
  else if byte1 &&& 0xfc = 0xb4 then some .refuse
  else if byte1 &&& 0xf8 = 0xb8 then
    some (.goOn ((state.popAll 8 (counted dwarfD8 (low &&& 0x07))).add 4) rest)
  else if byte1 &&& 0xf8 = 0xc0 then some .refuse
  else if byte1 = 0xc8 then
    some <| withByte2 rest fun byte2 rest =>
      .goOn (state.popAll 8 (counted (dwarfD16 + (byte2.toNat &&& 0xf0) >>> 4) (byte2.toNat &&& 0x0f))) rest
  else if byte1 = 0xc9 then
    some <| withByte2 rest fun byte2 rest =>
      .goOn (state.popAll 8 (counted (dwarfD0 + (byte2.toNat &&& 0xf0) >>> 4) (byte2.toNat &&& 0x0f))) rest
  else if byte1 &&& 0xf8 = 0xc8 then some .refuse
  -- the test for 11010nnn: it is the one that has already failed above
  else if byte1 &&& 0xf8 = 0xc0 then
    some (.goOn (state.popAll 8 (counted dwarfD8 (low &&& 0x07))) rest)
  else if byte1 &&& 0xc0 = 0xc0 then some .refuse
  else some .refuse

/-- The loop over the bytes that are left; an opcode takes at least one of them. -/
def loop : Nat → State → List UInt8 → Option (Option State)
  | _, state, [] => some (some state)
  | 0, _, _ :: _ => none
  | fuel + 1, state, byte1 :: rest =>
    (step state byte1 rest).bind fun
      | .goOn state rest => loop fuel state rest
      | .finish => some (some state)
      | .refuse => some none

def row (state : State) : Row :=
  let row := (Row.empty.setOffset 0).setCFAValue (.isRegisterPlusOffset state.vspReg state.vsp.toInt)
  let row := state.registerOffsets.foldl
    (fun row offset => row.setRegisterInfo offset.1 (.atCFAPlusOffset (offset.2 - state.vsp).toInt)) row
  if state.registerOffsets.any fun offset => offset.1 = dwarfPc then row
  else
    match row.getRegisterInfo dwarfLr with
    | some location => row.setRegisterInfo dwarfPc location
    | none => row.setRegisterInfo dwarfPc (.inOtherRegister dwarfLr)

/-- Where the opcodes begin and end, in bytes; `none` for another personality routine. -/
def header (data : List (BitVec 32)) : Option (Option (Nat × Nat)) := do
  let first ← data[0]?
  if first = 1 then return none
  else if first.msb then
    match (first >>> 24).toNat &&& 0x0f with
    | 0 => return some (1, 4)
    | 1 | 2 => return some (2, 4 * ((first >>> 16).toNat &&& 0xff) + 4)
    | _ => return none
  else
    let second ← data[1]?
    return some (5, 4 * ((second >>> 24).toNat &&& 0xff) + 8)

/-- The plan with a row more, or `none` where `false` is returned. -/
def getUnwindPlan (swapped : Bool) (data : List (BitVec 32)) (plan : UnwindPlan) : Option (Option UnwindPlan) := do
  match ← header data with
  | none => return none
  | some (byteOffset, byteCount) =>
    let bytes ← (List.range' byteOffset (byteCount - byteOffset)).mapM (getByteAtOffset swapped data)
    let state ← loop bytes.length State.start bytes
    return state.map fun state => { plan with
      rowList := UnwindPlan.appendRow plan.rowList (row state)
      sourceName := "ARM.exidx unwind info"
      registerKind := .dwarf }

end Lldb.ArmUnwindInfo
