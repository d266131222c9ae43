import Lldb.GdbRemote.RegisterCheckpoint
import Lldb.GdbRemote.RegisterWrites

/-! Restoring all registers from a buffer, and when a checkpoint brings them all back.

`WriteAllRegisterValues` sends the buffer in a `G` packet. Where that fails, or must not be
used, it writes the concrete registers one by one and is content if one of them was written.
-/

set_option autoImplicit false

namespace Lldb.GdbRemote

open Library (Window)
open Remote List

/-- Whether `WriteAllRegisterValues` gets the lock and may use `G`, and how the `G` packet and
the packet that writes each register fare. -/
structure RestoreFates where
  locked : Bool
  useGPacket : Bool
  all : Remote.WriteFate
  each : Nat → Remote.WriteFate

variable (regInfo : List RegisterInfo)

def sizeNotIncludingSliceRegisters : Nat :=
  regInfo.foldl (fun size info => if info.valueRegs = none then size + info.byteSize else size) 0

def sizeByHighestOffset : Nat :=
  regInfo.foldl (fun size info =>
    if size ≤ info.byteOffset then info.byteOffset + info.byteSize else size) 0

/-- With the slices included, and with none of the sizes expected, the running offset is used. -/
def useByteOffsetIntoBuffer (size : Nat) : Bool :=
  if sizeByHighestOffset regInfo = size then true
  else if sizeNotIncludingSliceRegisters regInfo = size then true
  else false

/-- Where the data of a `g` packet has a register, by the sizes of the registers before it. -/
def placeInPacket (size runningByteOffset : Nat) (info : RegisterInfo) : Option Nat :=
  let registerOffset :=
    if useByteOffsetIntoBuffer regInfo size then info.byteOffset else runningByteOffset
  if info.byteSize ≤ size - registerOffset then some registerOffset else none

/-- Where `m_reg_data` has a register; an old debugserver does not stand writes to two of them.
Bytes behind the end of the data are not sent. -/
def placeInBuffer (arm64Debugserver : Bool) (_runningByteOffset : Nat) (info : RegisterInfo) : Option Nat :=
  if arm64Debugserver && (info.name = "fpsr" || info.name = "fpcr") then none
  else some info.byteOffset

namespace RegisterContext

/-- Both loops over the concrete registers, with the place of each in the data; the result
starts with `num_restored`. -/
def restoreRegisters (data : Bytes) (place : Nat → RegisterInfo → Option Nat) (each : Nat → Remote.WriteFate) :
    List RegisterInfo → Nat → Nat → RegisterContext → Bytes → Nat × RegisterContext × Bytes
  | [], _, _, context, registers => (0, context, registers)
  | info :: infos, reg, runningByteOffset, context, registers =>
      let rest := restoreRegisters data place each infos (reg + 1) (runningByteOffset + info.byteSize)
      if info.valueRegs.isSome then rest context registers
      else match place runningByteOffset info with
        | none => rest context registers
        | some source =>
            let (written, registers) := writeRegister registers info
              ((⟨source, info.byteSize⟩ : Window).read data) (each reg)
            -- The bit goes before the write, whatever becomes of that.
            let (numRestored, context, registers) := rest (context.setRegisterIsValid reg false) registers
            (if written then numRestored + 1 else numRestored, context, registers)

def writeAllRegisterValues (context : RegisterContext) (registers : Bytes) (data : Option Bytes)
    (arm64Debugserver : Bool) (fates : RestoreFates) : Bool × RegisterContext × Bytes :=
  match data with
  | none => (false, context, registers)
  | some data =>
      if data.length = 0 then (false, context, registers)
      else if !fates.locked then (false, context, registers)
      else if fates.useGPacket then
        match writeAllRegisters registers data fates.all with
        -- No bit changes when the `G` packet is answered.
        | (true, registers) => (true, context, registers)
        | (false, registers) =>
            let (numRestored, context, registers) := restoreRegisters data
              (placeInPacket context.regInfo data.length) fates.each context.regInfo 0 0 context registers
            (0 < numRestored, context, registers)
      else
        let (numRestored, context, registers) := restoreRegisters data
          (placeInBuffer arm64Debugserver) fates.each context.regInfo 0 0 context registers
        (0 < numRestored, context, registers)

end RegisterContext

/-! The packets of a restore, and where each byte comes from. -/

structure RestorePacket where
  reg : Nat
  info : RegisterInfo
  source : Nat

namespace RestorePacket

def send (packet : RestorePacket) (data : Bytes) (each : Nat → Remote.WriteFate) (registers : Bytes) : Bytes :=
  (writeRegister registers packet.info
    ((⟨packet.source, packet.info.byteSize⟩ : Window).read data) (each packet.reg)).2

def writes (packet : RestorePacket) (length : Nat) (each : Nat → Remote.WriteFate) (index : Nat) : Bool :=
  each packet.reg ≠ .dropped ∧
    index ∈ (⟨packet.info.byteOffset, min packet.info.byteSize (length - packet.source)⟩ : Window)

end RestorePacket

def restorePackets (place : Nat → RegisterInfo → Option Nat) : List RegisterInfo → Nat → Nat → List RestorePacket
  | [], _, _ => []
  | info :: infos, reg, runningByteOffset =>
      let rest := restorePackets place infos (reg + 1) (runningByteOffset + info.byteSize)
      if info.valueRegs.isSome then rest
      else match place runningByteOffset info with
        | none => rest
        | some source => ⟨reg, info, source⟩ :: rest

def lastSource (packets : List RestorePacket) (length : Nat) (each : Nat → Remote.WriteFate) (index : Nat) :
    Option Nat :=
  (packets.filter (·.writes length each index)).getLast?.map fun packet =>
    packet.source + (index - packet.info.byteOffset)

section Packets

variable {data : Bytes} {each : Nat → Remote.WriteFate}

theorem restoreRegisters_eq (data : Bytes) (place : Nat → RegisterInfo → Option Nat)
    (each : Nat → Remote.WriteFate) (infos : List RegisterInfo) (reg runningByteOffset : Nat)
    (context : RegisterContext) (registers : Bytes) :
    let result := RegisterContext.restoreRegisters data place each infos reg runningByteOffset context registers
    let packets := restorePackets place infos reg runningByteOffset
    result.1 = packets.countP (each ·.reg = .done) ∧
      result.2.2 = packets.foldl (fun registers packet => packet.send data each registers) registers := by
  induction infos generalizing reg runningByteOffset context registers with
  | nil => exact ⟨rfl, rfl⟩
  | cons info infos ih =>
    unfold RegisterContext.restoreRegisters restorePackets
    split
    · exact ih _ _ _ _
    cases place runningByteOffset info with
    | none => exact ih _ _ _ _
    | some source =>
      -- On the registers in their order: what this packet leaves is what the others start from.
      obtain ⟨count, sent⟩ := ih (reg + 1) (runningByteOffset + info.byteSize)
        (context.setRegisterIsValid reg false) (RestorePacket.send ⟨reg, info, source⟩ data each registers)
      refine ⟨?_, sent⟩
      have written : (writeRegister registers info
          ((⟨source, info.byteSize⟩ : Window).read data) (each reg)).1 = decide (each reg = .done) := by
        cases each reg <;> rfl
      dsimp only
      rw [written, countP_cons, ← count]
      split <;> rfl

theorem lastSource_cons (packet : RestorePacket) (packets : List RestorePacket) (length index : Nat) :
    lastSource (packet :: packets) length each index = (lastSource packets length each index).or
      (if packet.writes length each index then some (packet.source + (index - packet.info.byteOffset))
        else none) := by
  unfold lastSource
  rw [filter_cons]
  split
  · rw [getLast?_cons]
    cases (packets.filter (·.writes length each index)).getLast? <;> rfl
  · rw [Option.or_none]

theorem send_length (registers : Bytes) (packet : RestorePacket) :
    (packet.send data each registers).length = registers.length :=
  write_length _ _ _ _

theorem send_byte (packet : RestorePacket) {registers : Bytes} {index : Nat} (here : index < registers.length) :
    (packet.send data each registers)[index]? =
      if packet.writes data.length each index then data[packet.source + (index - packet.info.byteOffset)]?
      else registers[index]? := by
  have length : ((⟨packet.source, packet.info.byteSize⟩ : Window).read data).length =
      min packet.info.byteSize (data.length - packet.source) := by
    simp [Window.read]
  have overwritten : (Window.overwrite packet.info.byteOffset
      ((⟨packet.source, packet.info.byteSize⟩ : Window).read data) registers)[index]? =
        if index ∈ (⟨packet.info.byteOffset, min packet.info.byteSize (data.length - packet.source)⟩ : Window)
          then data[packet.source + (index - packet.info.byteOffset)]? else registers[index]? := by
    rw [← length]
    split
    · next inside =>
      have bounds := Window.mem_mk.mp inside
      rw [Window.getElem?_overwrite_inside inside here, Window.getElem?_read,
        if_pos (show index - packet.info.byteOffset < packet.info.byteSize by omega)]
    · next outside => rw [Window.getElem?_overwrite_outside outside]
  unfold RestorePacket.send RestorePacket.writes writeRegister write
  cases each packet.reg with
  | done => simpa using overwritten
  | unanswered => simpa using overwritten
  | dropped => simp

theorem foldl_send_byte (packets : List RestorePacket) {registers : Bytes} {index : Nat}
    (here : index < registers.length) :
    (packets.foldl (fun registers packet => packet.send data each registers) registers)[index]? =
      (lastSource packets data.length each index).elim registers[index]? (data[·]?) := by
  induction packets generalizing registers with
  | nil => rfl
  | cons packet packets ih =>
    rw [foldl_cons, ih (by rwa [send_length]), lastSource_cons, send_byte packet here]
    cases lastSource packets data.length each index with
    | some source => rfl
    | none =>
      cases packet.writes data.length each index <;> rfl

end Packets

def RestoreFates.packets (fates : RestoreFates) (regInfo : List RegisterInfo) (length : Nat) : List RestorePacket :=
  restorePackets (if fates.useGPacket then placeInPacket regInfo length else placeInBuffer false) regInfo 0 0

def RestoreFates.Succeeds (fates : RestoreFates) (regInfo : List RegisterInfo) (length : Nat) : Prop :=
  fates.locked = true ∧ length ≠ 0 ∧
    (fates.useGPacket = true ∧ fates.all = .done ∨ ∃ packet ∈ fates.packets regInfo length,
      fates.each packet.reg = .done)

def RestoreFates.origin (fates : RestoreFates) (regInfo : List RegisterInfo) (length index : Nat) : Option Nat :=
  let packets := if fates.useGPacket && fates.all = .done then [] else fates.packets regInfo length
  (lastSource packets length fates.each index).or
    (if fates.useGPacket && fates.all ≠ .dropped && index < length then some index else none)

section Restore

variable {context : RegisterContext} {registers data : Bytes} {fates : RestoreFates}

theorem restoreRegisters_byte (context : RegisterContext) (registers data : Bytes)
    (place : Nat → RegisterInfo → Option Nat) (each : Nat → Remote.WriteFate) (regInfo : List RegisterInfo) :
    let result := RegisterContext.restoreRegisters data place each regInfo 0 0 context registers
    let packets := restorePackets place regInfo 0 0
    (0 < result.1 ↔ ∃ packet ∈ packets, each packet.reg = .done) ∧ ∀ index < registers.length,
      result.2.2[index]? = (lastSource packets data.length each index).elim registers[index]? (data[·]?) := by
  intro result packets
  obtain ⟨count, sent⟩ := restoreRegisters_eq data place each regInfo 0 0 context registers
  constructor
  · rw [count, countP_pos_iff]
    simp only [decide_eq_true_eq]
    rfl
  · intro index here
    rw [sent]
    exact foldl_send_byte packets here

theorem overwrite_all_byte (data : Bytes) {index : Nat} (here : index < registers.length) :
    (Window.overwrite 0 data registers)[index]? = if index < data.length then data[index]? else registers[index]? := by
  split
  · next inside =>
    exact Window.getElem?_overwrite_inside (Window.mem_mk.mpr (by omega)) here
  · next outside =>
    exact Window.getElem?_overwrite_outside fun inside => outside (by have := Window.mem_mk.mp inside; omega)

/-- The loop on top of what the `G` packet left behind. -/
theorem restoreRegisters_over {base : Bytes} (context : RegisterContext) (place : Nat → RegisterInfo → Option Nat)
    (each : Nat → Remote.WriteFate) (regInfo : List RegisterInfo) (front : Nat → Prop) [DecidablePred front]
    (length : base.length = registers.length)
    (bytes : ∀ index < registers.length, base[index]? = if front index then data[index]? else registers[index]?) :
    ∀ index < registers.length,
      (RegisterContext.restoreRegisters data place each regInfo 0 0 context base).2.2[index]? =
        ((lastSource (restorePackets place regInfo 0 0) data.length each index).or
          (if front index then some index else none)).elim registers[index]? (data[·]?) := by
  intro index here
  rw [(restoreRegisters_byte context base data place each regInfo).2 index (length.symm ▸ here)]
  cases lastSource (restorePackets place regInfo 0 0) data.length each index with
  | some source => rfl
  | none =>
    rw [bytes index here]
    split <;> rfl

/-- Whether a restore returns true depends on the packets only, and where each byte of the
remote comes from as well. -/
theorem writeAllRegisterValues_byte (context : RegisterContext) (registers data : Bytes) (fates : RestoreFates) :
    let result := context.writeAllRegisterValues registers (some data) false fates
    (result.1 = true ↔ fates.Succeeds context.regInfo data.length) ∧
      (fates.Succeeds context.regInfo data.length → ∀ index < registers.length, result.2.2[index]? =
        (fates.origin context.regInfo data.length index).elim registers[index]? (data[·]?)) := by
  obtain ⟨locked, used, all, each⟩ := fates
  unfold RegisterContext.writeAllRegisterValues RestoreFates.Succeeds RestoreFates.origin RestoreFates.packets
  dsimp only
  by_cases empty : data.length = 0
  · simp [empty]
  rw [if_neg empty]
  cases locked with
  | false => simp
  | true =>
    have untouched (index : Nat) (_ : index < registers.length) :
        registers[index]? = if False then data[index]? else registers[index]? := (if_neg id).symm
    cases used with
    | true =>
      have succeeds := fun base => (restoreRegisters_byte context base data
        (placeInPacket context.regInfo data.length) each context.regInfo).1
      -- An answered `G` packet ends the restore; otherwise the loop goes over what it may have written.
      cases all with
      | done =>
        refine ⟨by simp [writeAllRegisters, write, empty], fun _ index here => ?_⟩
        have front := overwrite_all_byte data here
        by_cases inside : index < data.length
        · simpa [writeAllRegisters, write, lastSource, inside] using front
        · simpa [writeAllRegisters, write, lastSource, inside] using front
      | unanswered =>
        refine ⟨by simpa [writeAllRegisters, write, empty] using succeeds _, fun _ => ?_⟩
        have layered := restoreRegisters_over context (placeInPacket context.regInfo data.length) each
          context.regInfo (· < data.length) (Window.length_overwrite 0 data registers)
          fun index here => overwrite_all_byte data here
        simpa [writeAllRegisters, write] using layered
      | dropped =>
        refine ⟨by simpa [writeAllRegisters, write, empty] using succeeds _, fun _ => ?_⟩
        have layered := restoreRegisters_over context (placeInPacket context.regInfo data.length) each
          context.regInfo (fun _ => False) rfl untouched
        simpa [writeAllRegisters, write] using layered
    | false =>
      refine ⟨by simpa [empty] using
        (restoreRegisters_byte context registers data (placeInBuffer false) each context.regInfo).1, fun _ => ?_⟩
      have layered := restoreRegisters_over context (placeInBuffer false) each context.regInfo (fun _ => False) rfl
        untouched
      simpa using layered

end Restore

end Lldb.GdbRemote
