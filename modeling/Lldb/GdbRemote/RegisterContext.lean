import Lldb.GdbRemote.Packet
import Lldb.Library.Window

/-! The registers of a thread as `GDBRemoteRegisterContext` caches them: one buffer of bytes
for all registers, one bit for each that says whether its bytes there are valid, and the
stop ID of the process at the time they were read.

A register is given by its index, the number that its kinds hold for lldb and for the
remote. The remote keeps its registers in one array with the same offsets, which may go
on behind the last register. Byte orders are set, and how a `RegisterValue` represents the
bytes of a register is not modelled.
-/

set_option autoImplicit false

namespace Lldb.GdbRemote

open Library (Window)

structure RegisterInfo where
  name : String
  byteOffset : Nat
  byteSize : Nat
  /-- The registers that a slice is part of or made of. -/
  valueRegs : Option (List Nat)
  invalidateRegs : Option (List Nat)
  deriving DecidableEq, Repr

namespace RegisterInfo

def window (info : RegisterInfo) : Window := ⟨info.byteOffset, info.byteSize⟩

end RegisterInfo

/-- `DynamicRegisterInfo::GetRegisterDataByteSize`, as `AddRegister` counts it. -/
def getRegisterDataByteSize (regInfo : List RegisterInfo) : Nat :=
  regInfo.foldl (fun size info =>
    if size < info.byteOffset + info.byteSize then info.byteOffset + info.byteSize else size) 0

/-- `DataExtractor::CopyByteOrderedData` of so many bytes from the front of a source to a
destination of that size; the bytes turn round where the byte orders differ. -/
def copyByteOrderedData (source : Bytes) (swap : Bool) (length : Nat) : Option Bytes :=
  if length = 0 ∨ source.length < length then none
  else some (if swap then (source.take length).reverse else source.take length)

namespace Remote

inductive WriteFate where
  | done
  /-- The remote writes the registers, but no `OK` comes back. -/
  | unanswered
  /-- The packet is not sent, or the remote refuses it. -/
  | dropped
  deriving DecidableEq, Repr

/-- A `p` packet: nothing, or so many bytes of the register. -/
def readRegister (registers : Bytes) (info : RegisterInfo) (fate : Option Nat) : Option Bytes :=
  fate.map fun count => (info.window.read registers).take count

/-- A `g` packet. -/
def readAllRegisters (registers : Bytes) (fate : Option Nat) : Option Bytes :=
  fate.map fun count => registers.take count

/-- A `P` or a `G` packet with data for the registers from an offset on. -/
def write (registers : Bytes) (offset : Nat) (data : Bytes) : WriteFate → Bool × Bytes
  | .done => (true, Window.overwrite offset data registers)
  | .unanswered => (false, Window.overwrite offset data registers)
  | .dropped => (false, registers)

def writeRegister (registers : Bytes) (info : RegisterInfo) (data : Bytes) (fate : WriteFate) : Bool × Bytes :=
  write registers info.byteOffset data fate

def writeAllRegisters (registers data : Bytes) (fate : WriteFate) : Bool × Bytes :=
  write registers 0 data fate

end Remote

structure RegisterContext where
  regInfo : List RegisterInfo
  readAllAtOnce : Bool
  stopID : Nat
  regValid : List Bool
  regData : Bytes
  deriving DecidableEq, Repr

namespace RegisterContext

def new (regInfo : List RegisterInfo) (readAllAtOnce : Bool) (processStopID : Nat) : RegisterContext where
  regInfo := regInfo
  readAllAtOnce := readAllAtOnce
  stopID := processStopID
  regValid := List.replicate regInfo.length false
  regData := List.replicate (getRegisterDataByteSize regInfo) 0

variable (context : RegisterContext)

def setAllRegisterValid (valid : Bool) : RegisterContext :=
  { context with regValid := context.regValid.map fun _ => valid }

def invalidateAllRegisters : RegisterContext :=
  context.setAllRegisterValid false

def getRegisterIsValid (reg : Nat) : Bool := context.regValid.getD reg false

def setRegisterIsValid (reg : Nat) (valid : Bool) : RegisterContext :=
  { context with regValid := context.regValid.set reg valid }

/-- `memcpy` into `m_reg_data`. -/
def setData (offset : Nat) (data : Bytes) : RegisterContext :=
  { context with regData := Window.overwrite offset data context.regData }

/-- `RegisterContext::InvalidateIfNeeded`. -/
def invalidateIfNeeded (processStopID : Nat) (force : Bool) : RegisterContext :=
  if force || processStopID != context.stopID then
    { context.invalidateAllRegisters with stopID := processStopID }
  else context

def privateSetRegisterValue (processStopID reg : Nat) (data : Bytes) :
    Bool × RegisterContext :=
  match context.regInfo[reg]? with
  | none => (false, context)
  | some info =>
      let context := (context.invalidateIfNeeded processStopID false).setData info.byteOffset
        (data.take info.byteSize)
      -- Too few bytes are copied all the same; with none at all the bit stays as it was.
      if info.byteSize ≤ data.length then (true, context.setRegisterIsValid reg true)
      else if 0 < data.length then (false, context.setRegisterIsValid reg false)
      else (false, context)

/-- The overload for an integer, given by its eight bytes in the memory of the host. -/
def privateSetRegisterValueWord (processStopID reg : Nat) (word : Bytes)
    (swap : Bool) : Bool × RegisterContext :=
  match context.regInfo[reg]? with
  | none => (false, context)
  | some info =>
      let context := context.invalidateIfNeeded processStopID false
      if context.regData.length < info.byteOffset + info.byteSize then (false, context)
      else match copyByteOrderedData word swap info.byteSize with
        | none => (false, context)
        | some data => (true, (context.setData info.byteOffset data).setRegisterIsValid reg true)

def getPrimordialRegister (processStopID : Nat) (registers : Bytes)
    (reg : Nat) (info : RegisterInfo) (fate : Option Nat) : Bool × RegisterContext :=
  match Remote.readRegister registers info fate with
  | some data => context.privateSetRegisterValue processStopID reg data
  | none => (false, context)

/-- The loop of `ReadRegisterBytes` over the constituents of a slice. -/
def getValueRegs (processStopID : Nat) (registers : Bytes) :
    List Nat → List (Option Nat) → RegisterContext → Bool × RegisterContext
  | [], _, context => (true, context)
  | primReg :: regs, fates, context =>
      match context.regInfo[primReg]? with
      | none => (false, context)
      | some primRegInfo =>
          if context.getRegisterIsValid primReg then getValueRegs processStopID registers regs fates context
          else match context.getPrimordialRegister processStopID registers primReg primRegInfo
              (fates.head?.getD none) with
            | (true, context) => getValueRegs processStopID registers regs fates.tail context
            | (false, context) => (false, context)

/-- The packets it sends fare as the list says; what the list leaves out fails. -/
def readRegisterBytes (processStopID : Nat) (registers : Bytes) (reg : Nat)
    (fates : List (Option Nat)) : Bool × RegisterContext :=
  match context.regInfo[reg]? with
  | none => (false, context)
  | some info =>
      let context := context.invalidateIfNeeded processStopID false
      if context.getRegisterIsValid reg then (true, context)
      else if context.readAllAtOnce then
        match Remote.readAllRegisters registers (fates.head?.getD none) with
        | none => (false, context)
        | some buffer =>
            -- A reply that is too short is copied and leaves every bit as it was.
            let context := context.setData 0 (buffer.take context.regData.length)
            if context.regData.length ≤ buffer.length then (true, context.setAllRegisterValid true)
            else (false, context)
      else
        let context := match info.valueRegs with
          | some regs =>
              match getValueRegs processStopID registers regs fates context with
              | (true, context) => context.setRegisterIsValid reg true
              | (false, context) => context
          | none => (context.getPrimordialRegister processStopID registers reg info
              (fates.head?.getD none)).2
        -- Whatever the packets brought, the bit of the register decides.
        (context.getRegisterIsValid reg, context)

/-- The bytes that `RegisterValue::SetValueFromData` takes for a register. -/
def setValueFromData (info : RegisterInfo) (source : Bytes) : Option Bytes :=
  if source.length = 0 ∨ info.byteSize = 0 ∨ source.length - info.byteOffset < info.byteSize then none
  else some (info.window.read source)

def readRegister (processStopID : Nat) (registers : Bytes) (reg : Nat)
    (fates : List (Option Nat)) : Option Bytes × RegisterContext :=
  match context.readRegisterBytes processStopID registers reg fates with
  | (true, context) =>
      (context.regInfo[reg]?.bind fun info => setValueFromData info context.regData, context)
  | (false, context) => (none, context)

def setPrimordialRegister (registers : Bytes) (reg : Nat)
    (info : RegisterInfo) (fate : Remote.WriteFate) : Bool × RegisterContext × Bytes :=
  let (success, registers) := Remote.writeRegister registers info (info.window.read context.regData) fate
  (success, context.setRegisterIsValid reg false, registers)

/-- The loop of `WriteRegisterBytes` over the constituents of a slice. -/
def setValueRegs : List Nat → List Remote.WriteFate → RegisterContext → Bytes → Bool × RegisterContext × Bytes
  | [], _, context, registers => (true, context, registers)
  | reg :: regs, fates, context, registers =>
      match context.regInfo[reg]? with
      | none => (false, context, registers)
      | some valueRegInfo =>
          match context.setPrimordialRegister registers reg valueRegInfo (fates.head?.getD .dropped) with
          | (true, context, registers) => setValueRegs regs fates.tail context registers
          | (false, context, registers) => (false, context, registers)

def invalidateRegs (regs : List Nat) : RegisterContext :=
  regs.foldl (fun context reg => context.setRegisterIsValid reg false) context

/-- What `WriteRegisterBytes` sends once it has the lock. -/
def sendRegister (processStopID : Nat) (registers : Bytes) (reg : Nat)
    (info : RegisterInfo) (fates : List Remote.WriteFate) : Bool × RegisterContext × Bytes :=
  if context.readAllAtOnce then
    -- The stop ID is brought up to date here, and only in this mode.
    let context := context.invalidateIfNeeded processStopID true
    match Remote.writeAllRegisters registers context.regData (fates.head?.getD .dropped) with
    | (true, registers) => (true, context.setAllRegisterValid false, registers)
    | (false, registers) => (false, context, registers)
  else
    let (success, context, registers) := match info.valueRegs with
      | some regs => setValueRegs regs fates context registers
      | none => context.setPrimordialRegister registers reg info (fates.head?.getD .dropped)
    -- Also after a packet that failed.
    (success, context.invalidateRegs (info.invalidateRegs.getD []), registers)

def writeRegisterBytes (processStopID : Nat) (registers : Bytes) (reg : Nat)
    (data : Bytes) (swap locked : Bool) (fates : List Remote.WriteFate) :
    Bool × RegisterContext × Bytes :=
  match context.regInfo[reg]? with
  | none => (false, context, registers)
  | some info =>
      if context.regData.length < info.byteOffset + info.byteSize then (false, context, registers)
      else match copyByteOrderedData data swap info.byteSize with
        | none => (false, context, registers)
        | some bytes =>
            -- The buffer has the new bytes before it is known whether they can be sent.
            let context := context.setData info.byteOffset bytes
            if locked then context.sendRegister processStopID registers reg info fates
            else (false, context, registers)

end RegisterContext

end Lldb.GdbRemote
