import Lldb.GdbRemote.RegisterCoherence

/-! Saving all registers in a buffer, and which bytes of the buffer come from the remote.

`ReadAllRegisterValues` takes the reply to a `g` packet as it is. Without one it reads the
concrete registers one by one, whether or not each read succeeds, and takes `m_reg_data`.
Checkpoints that the remote keeps (`QSaveRegisterState`) are not modelled.
-/

set_option autoImplicit false

namespace Lldb.GdbRemote

open Library (Window)
open List Option

/-- Whether `ReadAllRegisterValues` gets the lock, may use `g` and has `QSyncThreadState`
answered, and how the `g` packet and the packet that reads each register fare. -/
structure SaveFates where
  locked : Bool
  useGPacket : Bool
  synced : Bool
  all : Option Nat
  each : Nat → Option Nat

/-- The reply to the `g` packet, if one is sent. -/
def SaveFates.whole (fates : SaveFates) : Option Nat := if fates.useGPacket then fates.all else none

namespace RegisterContext

def readConcreteRegisters (processStopID : Nat) (registers : Bytes) (each : Nat → Option Nat) :
    List Nat → RegisterContext → RegisterContext
  | [], context => context
  | reg :: regs, context =>
      match context.regInfo[reg]? with
      | none => context
      | some info =>
          -- Whether a read succeeds is not looked at.
          if info.valueRegs.isSome then readConcreteRegisters processStopID registers each regs context
          else readConcreteRegisters processStopID registers each regs
            (context.readRegisterBytes processStopID registers reg [each reg]).2

def synchronise (context : RegisterContext) (synced : Bool) : RegisterContext :=
  if synced then context.invalidateAllRegisters else context

def readAllRegisterValues (context : RegisterContext) (processStopID : Nat) (registers : Bytes)
    (fates : SaveFates) : Bool × Option Bytes × RegisterContext :=
  if fates.locked then
    let context := context.synchronise fates.synced
    match Remote.readAllRegisters registers fates.whole with
    | some data => (true, some data, context)
    | none =>
        let context := readConcreteRegisters processStopID registers fates.each
          (List.range context.regInfo.length) context
        -- The whole buffer, with whatever the reads left in it.
        (true, some context.regData, context)
  else (false, none, context)

section Save

variable {context : RegisterContext} {processStopID : Nat} {registers : Bytes}

def Brings (context : RegisterContext) (reg : Nat) (info : RegisterInfo) (fate : Option Nat) (index : Nat) : Prop :=
  context.getRegisterIsValid reg = false ∧ ∃ count, fate = some count ∧ if context.readAllAtOnce then index < count
    else index ∈ (⟨info.byteOffset, min count info.byteSize⟩ : Window)

/-- What one read of a concrete register does to the buffer, byte by byte, and to the bits. -/
structure ReadStep (context after : RegisterContext) (registers : Bytes) (reg : Nat) (brings : Nat → Prop) :
    Prop where
  layout : after.regInfo = context.regInfo
  mode : after.readAllAtOnce = context.readAllAtOnce
  stopID : after.stopID = context.stopID
  length : after.regData.length = context.regData.length
  brought : ∀ index < context.regData.length, brings index → after.regData[index]? = registers[index]?
  kept : ∀ index, ¬ brings index → after.regData[index]? = context.regData[index]?
  valid : ∀ other, context.getRegisterIsValid other = true → after.getRegisterIsValid other = true
  gained : ∀ other, after.getRegisterIsValid other = true → context.getRegisterIsValid other = true ∨
    other = reg ∨ ∀ index < context.regData.length, after.regData[index]? = registers[index]?

theorem ReadStep.idle (context : RegisterContext) (registers : Bytes) (reg : Nat) {brings : Nat → Prop}
    (none : ∀ index, ¬ brings index) : ReadStep context context registers reg brings :=
  ⟨rfl, rfl, rfl, rfl, fun index _ brought => absurd brought (none index), fun _ _ => rfl,
    fun _ valid => valid, fun _ valid => .inl valid⟩

theorem getElem?_setData_read (context : RegisterContext) (source : Window) (count : Nat)
    (fits : source.offset + source.size ≤ registers.length) (index : Nat) :
    (index ∈ (⟨source.offset, min count source.size⟩ : Window) → index < context.regData.length →
      (context.setData source.offset ((source.read registers).take count)).regData[index]? = registers[index]?) ∧
    (index ∉ (⟨source.offset, min count source.size⟩ : Window) →
      (context.setData source.offset ((source.read registers).take count)).regData[index]? =
        context.regData[index]?) := by
  have length : ((source.read registers).take count).length = min count source.size := by
    rw [length_take, Window.length_read fits]
  constructor
  · intro inside here
    have bounds := Window.mem_mk.mp inside
    rw [setData, Window.getElem?_overwrite_inside (length.symm ▸ inside) here, getElem?_take,
      Window.getElem?_read, if_pos (by omega), if_pos (by omega), Nat.add_sub_cancel' bounds.1]
  · intro outside
    rw [setData, Window.getElem?_overwrite_outside (length.symm ▸ outside)]

variable {reg index : Nat} {info : RegisterInfo} {each : Nat → Option Nat} {regs : List Nat} {after : RegisterContext}

theorem readStep_primordial (current : context.stopID = processStopID)
    (found : context.regInfo[reg]? = some info) (invalid : context.getRegisterIsValid reg = false)
    (single : context.readAllAtOnce = false) (remote : info.byteOffset + info.byteSize ≤ registers.length)
    (fate : Option Nat) :
    ReadStep context (context.getPrimordialRegister processStopID registers reg info fate).2
      registers reg (context.Brings reg info fate) := by
  cases fate with
  | none => exact .idle context registers reg fun index brings => nomatch brings.2
  | some count =>
    have bytes := getElem?_setData_read context info.window count remote
    have brings (index : Nat) : context.Brings reg info (some count) index ↔
        index ∈ (⟨info.byteOffset, min count info.byteSize⟩ : Window) := by
      simp [Brings, invalid, single]
    -- the bit of the register itself is all that the three outcomes differ in
    have step (after : RegisterContext)
        (same : after = context.setData info.byteOffset ((info.window.read registers).take count) ∨
          ∃ valid, after = (context.setData info.byteOffset
            ((info.window.read registers).take count)).setRegisterIsValid reg valid) :
        ReadStep context after registers reg (context.Brings reg info (some count)) := by
      have others (other : Nat) (ne : other ≠ reg) :
          after.getRegisterIsValid other = context.getRegisterIsValid other := by
        obtain rfl | ⟨valid, rfl⟩ := same
        · rfl
        · exact getRegisterIsValid_setRegisterIsValid_of_ne ne valid
      have data : after.regData =
          (context.setData info.byteOffset ((info.window.read registers).take count)).regData := by
        obtain rfl | ⟨valid, rfl⟩ := same <;> rfl
      refine ⟨?_, ?_, ?_, ?_, fun index here brought => ?_, fun index kept => ?_, fun other valid => ?_,
        fun other valid => ?_⟩
      · obtain rfl | ⟨valid, rfl⟩ := same <;> rfl
      · obtain rfl | ⟨valid, rfl⟩ := same <;> rfl
      · obtain rfl | ⟨valid, rfl⟩ := same <;> rfl
      · rw [data]
        exact Window.length_overwrite _ _ _
      · rw [data]
        exact (bytes index).1 ((brings index).mp brought) here
      · rw [data]
        exact (bytes index).2 (mt (brings index).mpr kept)
      · by_cases same : other = reg
        · rw [same, invalid] at valid
          cases valid
        · rw [others other same, valid]
      · by_cases same : other = reg
        · exact .inr (.inl same)
        · exact .inl (others other same ▸ valid)
    unfold getPrimordialRegister privateSetRegisterValue
    rw [found]
    dsimp only [Remote.readRegister, map_some]
    rw [invalidateIfNeeded_current current, take_take_read]
    split
    · exact step _ (.inr ⟨true, rfl⟩)
    split
    · exact step _ (.inr ⟨false, rfl⟩)
    · exact step _ (.inl rfl)

theorem readStep_whole (info : RegisterInfo) (invalid : context.getRegisterIsValid reg = false)
    (all : context.readAllAtOnce = true) (remote : context.regData.length ≤ registers.length) (count : Nat) :
    let copied := context.setData 0 ((registers.take count).take context.regData.length)
    ReadStep context (if context.regData.length ≤ (registers.take count).length
      then copied.setAllRegisterValid true else copied) registers reg (context.Brings reg info (some count)) := by
  intro copied
  have bytes := getElem?_setData_read context ⟨0, context.regData.length⟩ count
    (show 0 + context.regData.length ≤ registers.length by omega)
  rw [Window.read, take_take, min_comm, ← take_take] at bytes
  dsimp only at bytes
  have brings (index : Nat) : context.Brings reg info (some count) index ↔ index < count := by
    simp [Brings, invalid, all]
  have brought (index : Nat) (here : index < context.regData.length) (below : index < count) :
      copied.regData[index]? = registers[index]? :=
    (bytes index).1 (Window.mem_mk.mpr ⟨Nat.zero_le _, by omega⟩) here
  have kept (index : Nat) (beyond : ¬ index < count) : copied.regData[index]? = context.regData[index]? := by
    apply (bytes index).2
    intro inside
    have bounds := Window.mem_mk.mp inside
    omega
  have length : copied.regData.length = context.regData.length := Window.length_overwrite _ _ _
  split
  · next long =>
    rw [length_take] at long
    refine ⟨rfl, rfl, rfl, length, fun index here => ?_, fun index => ?_, fun other valid => ?_, fun _ _ => ?_⟩
    · rw [brings]
      exact brought index here
    · rw [brings]
      exact kept index
    · rw [getRegisterIsValid, setAllRegisterValid, getD_eq_getElem?_getD, getElem?_map]
      change (Option.map _ context.regValid[other]?).getD false = true
      rw [getRegisterIsValid, getD_eq_getElem?_getD] at valid
      cases bit : context.regValid[other]? with
      | none =>
        rw [bit] at valid
        cases valid
      | some _ => rfl
    · exact .inr (.inr fun index here => brought index here (by omega))
  · refine ⟨rfl, rfl, rfl, length, fun index here => ?_, fun index => ?_, fun _ valid => valid,
      fun _ valid => .inl valid⟩
    · rw [brings]
      exact brought index here
    · rw [brings]
      exact kept index

theorem readStep_concrete (current : context.stopID = processStopID)
    (found : context.regInfo[reg]? = some info) (concrete : info.valueRegs = none)
    (size : context.regData.length = getRegisterDataByteSize context.regInfo)
    (remote : getRegisterDataByteSize context.regInfo ≤ registers.length) (fate : Option Nat) :
    ReadStep context (context.readRegisterBytes processStopID registers reg [fate]).2 registers reg
      (context.Brings reg info fate) := by
  have fits := le_getRegisterDataByteSize (mem_of_getElem? found)
  unfold readRegisterBytes
  rw [found]
  dsimp only
  rw [invalidateIfNeeded_current current]
  split
  · next valid =>
    exact .idle context registers reg fun index brings => nomatch valid.symm.trans brings.1
  next invalid =>
  rw [Bool.not_eq_true] at invalid
  split
  · next all =>
    cases fate with
    | none => exact .idle context registers reg fun index brings => nomatch brings.2
    | some count =>
      have step := readStep_whole info invalid all (by omega : _ ≤ registers.length) count
      dsimp only at step
      have length : (context.setData 0 ((registers.take count).take context.regData.length)).regData.length =
        context.regData.length := Window.length_overwrite _ _ _
      dsimp only [head?_cons, getD_some, Remote.readAllRegisters, map_some]
      rw [length]
      split
      · next long => rwa [if_pos long] at step
      · next short => rwa [if_neg short] at step
  · next single =>
    rw [concrete]
    exact readStep_primordial current found invalid (Bool.eq_false_iff.mpr single)
      (le_trans fits remote) fate

def Fetches (context : RegisterContext) (each : Nat → Option Nat) (regs : List Nat) (index : Nat) : Prop :=
  ∃ reg ∈ regs, ∃ info, context.regInfo[reg]? = some info ∧ info.valueRegs = none ∧
    context.Brings reg info (each reg) index

theorem fetches_cons : context.Fetches each (reg :: regs) index ↔
      (∃ info, context.regInfo[reg]? = some info ∧ info.valueRegs = none ∧
        context.Brings reg info (each reg) index) ∨ context.Fetches each regs index := by
  simp only [Fetches, mem_cons, or_and_right, exists_or, exists_eq_left]

/-- What a later read brings, it brings after this one as well, unless the byte is there by then. -/
theorem ReadStep.fetches (step : ReadStep context after registers reg (context.Brings reg info (each reg)))
    (found : context.regInfo[reg]? = some info)
    (here : index < context.regData.length) (fetched : context.Fetches each regs index) :
    after.Fetches each regs index ∨ after.regData[index]? = registers[index]? := by
  obtain ⟨other, member, otherInfo, there, concrete, invalid, brought⟩ := fetched
  cases still : after.getRegisterIsValid other with
  | false =>
    left
    refine ⟨other, member, otherInfo, step.layout ▸ there, concrete, still, ?_⟩
    rw [step.mode]
    exact brought
  | true =>
    right
    obtain valid | rfl | whole := step.gained other still
    · exact nomatch invalid.symm.trans valid
    · cases found.symm.trans there
      exact step.brought index here ⟨invalid, brought⟩
    · exact whole index here

theorem ReadStep.fetches_iff {brings : Nat → Prop} (step : ReadStep context after registers reg brings)
    (fetched : after.Fetches each regs index) : context.Fetches each regs index := by
  obtain ⟨other, member, info, there, concrete, invalid, brought⟩ := fetched
  refine ⟨other, member, info, step.layout ▸ there, concrete, ?_, ?_⟩
  · by_contra valid
    rw [Bool.not_eq_false] at valid
    exact nomatch invalid.symm.trans (step.valid other valid)
  · rw [step.mode] at brought
    exact brought

theorem readConcreteRegisters_slice (found : context.regInfo[reg]? = some info) (slice : info.valueRegs.isSome = true) :
    readConcreteRegisters processStopID registers each (reg :: regs) context =
      readConcreteRegisters processStopID registers each regs context := by
  rw [readConcreteRegisters, found]
  exact if_pos slice

theorem readConcreteRegisters_concrete (found : context.regInfo[reg]? = some info) (concrete : info.valueRegs = none) :
    readConcreteRegisters processStopID registers each (reg :: regs) context =
      readConcreteRegisters processStopID registers each regs
        (context.readRegisterBytes processStopID registers reg [each reg]).2 := by
  rw [readConcreteRegisters, found]
  exact if_neg (by rw [concrete]; exact Bool.noConfusion)

theorem readConcreteRegisters_byte (current : context.stopID = processStopID) (each : Nat → Option Nat)
    (known : ∀ reg ∈ regs, reg < context.regInfo.length)
    (size : context.regData.length = getRegisterDataByteSize context.regInfo)
    (remote : getRegisterDataByteSize context.regInfo ≤ registers.length) :
    let after := readConcreteRegisters processStopID registers each regs context
    after.regData.length = context.regData.length ∧ ∀ index < context.regData.length,
      (context.Fetches each regs index → after.regData[index]? = registers[index]?) ∧
      (¬ context.Fetches each regs index → after.regData[index]? = context.regData[index]?) := by
  induction regs generalizing context with
  | nil =>
    refine ⟨rfl, fun index here => ⟨?_, fun _ => rfl⟩⟩
    rintro ⟨_, member, -⟩
    cases member
  | cons reg regs ih =>
    obtain ⟨info, found⟩ : ∃ info, context.regInfo[reg]? = some info :=
      ⟨_, getElem?_eq_getElem (known reg (.head regs))⟩
    have later (other : Nat) (member : other ∈ regs) : other < context.regInfo.length :=
      known other (.tail reg member)
    cases concrete : info.valueRegs with
    | some slices =>
      rw [readConcreteRegisters_slice found (by rw [concrete]; rfl)]
      obtain ⟨length, bytes⟩ := ih current later size remote
      refine ⟨length, fun index here => ?_⟩
      have skip : context.Fetches each (reg :: regs) index ↔ context.Fetches each regs index := by
        rw [fetches_cons, or_iff_right]
        rintro ⟨other, same, none, -⟩
        cases found.symm.trans same
        cases concrete.symm.trans none
      rw [skip]
      exact bytes index here
    | none =>
      rw [readConcreteRegisters_concrete found concrete]
      have step := readStep_concrete current found concrete size remote (each reg)
      -- A byte is there after the first read, or is brought later; none is overwritten with another's.
      obtain ⟨length, bytes⟩ := ih (step.stopID.trans current)
        (fun other member => step.layout ▸ later other member)
        (step.length.trans (step.layout ▸ size)) (step.layout ▸ remote)
      refine ⟨length.trans step.length, fun index here => ?_⟩
      obtain ⟨fetched, kept⟩ := bytes index (step.length.symm ▸ here)
      have closer (agree : (context.readRegisterBytes processStopID registers reg [each reg]).2.regData[index]? =
          registers[index]?) : (readConcreteRegisters processStopID registers each regs
            (context.readRegisterBytes processStopID registers reg [each reg]).2).regData[index]? =
              registers[index]? := by
        by_cases again : Fetches (context.readRegisterBytes processStopID registers reg [each reg]).2 each
            regs index
        · exact fetched again
        · exact (kept again).trans agree
      refine ⟨fun brought => ?_, fun none => ?_⟩
      · obtain ⟨other, same, -, brings⟩ | brought := fetches_cons.mp brought
        · cases found.symm.trans same
          exact closer (step.brought index here brings)
        · obtain brought | agree := step.fetches found here brought
          · exact fetched brought
          · exact closer agree
      · refine (kept fun brought => none ?_).trans (step.kept index fun brings => none ?_)
        · exact fetches_cons.mpr (.inr (step.fetches_iff brought))
        · exact fetches_cons.mpr (.inl ⟨info, found, concrete, brings⟩)

theorem readRegisterBytes_invalidated (found : context.regInfo[reg]? = some info) (fates : List (Option Nat)) :
    (context.invalidateIfNeeded processStopID false).readRegisterBytes processStopID registers reg fates =
      context.readRegisterBytes processStopID registers reg fates := by
  rw [readRegisterBytes, regInfo_invalidateIfNeeded, readRegisterBytes, found]
  rw [invalidateIfNeeded_current (stopID_invalidateIfNeeded processStopID false)]

/-- The first read of the loop checks the stop ID, so that it might be checked in front of it. -/
theorem readConcreteRegisters_invalidated (each : Nat → Option Nat)
    (known : ∀ reg ∈ regs, reg < context.regInfo.length) :
    (readConcreteRegisters processStopID registers each regs
        (context.invalidateIfNeeded processStopID false)).regData =
      (readConcreteRegisters processStopID registers each regs context).regData := by
  induction regs with
  | nil => exact regData_invalidateIfNeeded processStopID false
  | cons reg regs ih =>
    obtain ⟨info, found⟩ : ∃ info, context.regInfo[reg]? = some info :=
      ⟨_, getElem?_eq_getElem (known reg (.head regs))⟩
    have same : (context.invalidateIfNeeded processStopID false).regInfo[reg]? = some info := by
      simp [found]
    cases concrete : info.valueRegs with
    | some slices =>
      have slice : info.valueRegs.isSome = true := by rw [concrete]; rfl
      rw [readConcreteRegisters_slice found slice, readConcreteRegisters_slice same slice]
      exact ih fun other member => known other (.tail reg member)
    | none =>
      rw [readConcreteRegisters_concrete found concrete, readConcreteRegisters_concrete same concrete,
        readRegisterBytes_invalidated found]

def begun (context : RegisterContext) (processStopID : Nat) (synced : Bool) : RegisterContext :=
  (context.synchronise synced).invalidateIfNeeded processStopID false

theorem regInfo_synchronise (synced : Bool) : (context.synchronise synced).regInfo = context.regInfo := by
  cases synced <;> rfl

theorem regData_begun (synced : Bool) : (context.begun processStopID synced).regData = context.regData := by
  rw [begun, regData_invalidateIfNeeded]
  cases synced <;> rfl

def Saves (context : RegisterContext) (processStopID total : Nat) (fates : SaveFates) (index : Nat) : Prop :=
  match fates.whole with
  | some count => index < min count total
  | none =>
      (∃ reg, (context.begun processStopID fates.synced).getRegisterIsValid reg = true ∧
        ∃ info, context.regInfo[reg]? = some info ∧ index ∈ info.window) ∨
      (context.begun processStopID fates.synced).Fetches fates.each
        (List.range context.regInfo.length) index

def savedLength (context : RegisterContext) (total : Nat) (fates : SaveFates) : Nat :=
  match fates.whole with
  | some count => min count total
  | none => getRegisterDataByteSize context.regInfo

theorem readAllRegisterValues_byte {fates : SaveFates}
    (agrees : (context.synchronise fates.synced).Agrees context.regInfo processStopID registers)
    {data : Option Bytes}
    (success : context.readAllRegisterValues processStopID registers fates = (true, data, after)) :
    fates.locked = true ∧ ∃ bytes, data = some bytes ∧ bytes.length = context.savedLength registers.length fates ∧
      ∀ index < bytes.length,
        (context.Saves processStopID registers.length fates index → bytes[index]? = registers[index]?) ∧
        (¬ context.Saves processStopID registers.length fates index → bytes[index]? = context.regData[index]?) := by
  unfold readAllRegisterValues at success
  split at success
  case isFalse => cases success
  next locked =>
  refine ⟨locked, ?_⟩
  unfold savedLength Saves
  cases whole : fates.whole with
  | some count =>
    rw [whole] at success
    cases success
    have length := length_take (i := count) (l := registers)
    refine ⟨_, rfl, length, fun index here => ⟨fun below => ?_, fun beyond => absurd here ?_⟩⟩
    · rw [getElem?_take, if_pos (by omega)]
    · rwa [length]
  | none =>
    rw [whole] at success
    cases success
    have checked : (context.begun processStopID fates.synced).Agrees context.regInfo processStopID registers :=
      agrees.invalidateIfNeeded
    have current : (context.begun processStopID fates.synced).stopID = processStopID :=
      stopID_invalidateIfNeeded processStopID false
    have inside : ∀ reg ∈ List.range context.regInfo.length,
        reg < (context.synchronise fates.synced).regInfo.length := by
      intro reg member
      rw [regInfo_synchronise]
      exact mem_range.mp member
    have known : ∀ reg ∈ List.range context.regInfo.length,
        reg < (context.begun processStopID fates.synced).regInfo.length := by
      intro reg member
      rw [checked.layout]
      exact mem_range.mp member
    obtain ⟨length, bytes⟩ := readConcreteRegisters_byte current fates.each known
      (checked.layout.symm ▸ checked.size) (checked.layout.symm ▸ checked.remote)
    rw [begun, readConcreteRegisters_invalidated fates.each inside, ← begun] at length bytes
    rw [regInfo_synchronise]
    refine ⟨_, rfl, length.trans checked.size, fun index here => ?_⟩
    obtain ⟨fetched, kept⟩ := bytes index (length ▸ here)
    rw [regData_begun] at kept
    constructor
    · rintro (⟨reg, valid, info, found, within⟩ | fetches)
      · by_cases again : (context.begun processStopID fates.synced).Fetches fates.each
            (List.range context.regInfo.length) index
        · exact fetched again
        · have agree := checked.window current found valid index within
          rw [regData_begun] at agree
          exact (kept again).trans agree
      · exact fetched fetches
    · exact fun none => kept fun fetches => none (.inr fetches)

end Save

end RegisterContext

end Lldb.GdbRemote
