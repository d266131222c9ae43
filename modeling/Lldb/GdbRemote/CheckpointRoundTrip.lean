import Lldb.GdbRemote.RegisterRestore

/-! When a checkpoint brings back every concrete register. -/

set_option autoImplicit false

namespace Lldb.GdbRemote

open List

open Library (Window)

namespace RegisterContext

variable {context later : RegisterContext} {processStopID total : Nat} {save : SaveFates}
  {restore : RestoreFates}

/-- For all contents of the cache and of the remote, and whatever the remote's registers are
changed to: where saving and restoring return true, the concrete registers are back. -/
def RestoresAll (context later : RegisterContext) (processStopID total : Nat) (save : SaveFates)
    (restore : RestoreFates) : Prop :=
  ∀ cached registers changed : Bytes, registers.length = total → changed.length = total →
    ({ context with regData := cached }.synchronise save.synced).Agrees context.regInfo processStopID
      registers →
    ∀ data after, { context with regData := cached }.readAllRegisterValues processStopID registers save =
        (true, data, after) →
      ∀ last written, later.writeAllRegisterValues changed data false restore = (true, last, written) →
        ∀ info ∈ context.regInfo, info.valueRegs = none → info.window.Agree written registers

/-- Every byte of a concrete register is saved and comes back from its own place. -/
def CheckpointComplete (context : RegisterContext) (processStopID total : Nat) (save : SaveFates)
    (restore : RestoreFates) : Prop :=
  let length := context.savedLength total save
  save.locked = true → restore.Succeeds context.regInfo length →
    ∀ info ∈ context.regInfo, info.valueRegs = none → ∀ index ∈ info.window,
      context.Saves processStopID total save index ∧ restore.origin context.regInfo length index = some index

theorem invalidateIfNeeded_withData (context : RegisterContext) (cached : Bytes) (force : Bool) :
    { context with regData := cached }.invalidateIfNeeded processStopID force =
      { context.invalidateIfNeeded processStopID force with regData := cached } := by
  unfold invalidateIfNeeded
  cases force || processStopID != context.stopID with
  | true => rfl
  | false => rfl

theorem begun_withData (context : RegisterContext) (cached : Bytes) (synced : Bool) :
    { context with regData := cached }.begun processStopID synced =
      { context.begun processStopID synced with regData := cached } := by
  cases synced with
  | false => exact invalidateIfNeeded_withData context cached false
  | true => exact invalidateIfNeeded_withData context.invalidateAllRegisters cached false

theorem saves_withData (context : RegisterContext) (cached : Bytes) (index : Nat) :
    { context with regData := cached }.Saves processStopID total save index ↔
      context.Saves processStopID total save index := by
  unfold Saves
  rw [begun_withData]
  rfl

theorem saves_lt {index : Nat} (saves : context.Saves processStopID total save index)
    (here : index < getRegisterDataByteSize context.regInfo) : index < context.savedLength total save := by
  unfold Saves at saves
  unfold savedLength
  cases whole : save.whole with
  | some count => rwa [whole] at saves
  | none => exact here

theorem agrees_withData {cached registers : Bytes} {synced : Bool}
    (size : cached.length = getRegisterDataByteSize context.regInfo)
    (long : getRegisterDataByteSize context.regInfo ≤ registers.length) (past : context.stopID ≤ processStopID)
    (agree : ∀ reg, (context.begun processStopID synced).getRegisterIsValid reg = true → ∀ info,
      context.regInfo[reg]? = some info → info.window.Agree cached registers) :
    ({ context with regData := cached }.synchronise synced).Agrees context.regInfo processStopID registers := by
  have valid (reg : Nat) (current : context.stopID = processStopID)
      (valid : (context.synchronise synced).getRegisterIsValid reg = true) :
      (context.begun processStopID synced).getRegisterIsValid reg = true := by
    rw [begun, invalidateIfNeeded_current (by cases synced <;> exact current)]
    exact valid
  cases synced with
  | false =>
    exact ⟨rfl, size, long, past, fun current reg info found held index inside _ =>
      agree reg (valid reg current held) info found index inside⟩
  | true =>
    exact ⟨rfl, size, long, past, fun current reg info found held index inside _ =>
      agree reg (valid reg current held) info found index inside⟩

theorem readAllRegisterValues_locked (context : RegisterContext) (processStopID : Nat) (registers : Bytes)
    (locked : save.locked = true) :
    ∃ data after, context.readAllRegisterValues processStopID registers save = (true, data, after) := by
  unfold readAllRegisterValues
  rw [if_pos locked]
  split <;> exact ⟨_, _, rfl⟩

theorem RestoresAll.byte (restores : context.RestoresAll later processStopID total save restore)
    (same : later.regInfo = context.regInfo) (locked : save.locked = true)
    (succeeds : restore.Succeeds context.regInfo (context.savedLength total save))
    {cached registers changed : Bytes} (remote : registers.length = total) (changes : changed.length = total)
    (agrees : ({ context with regData := cached }.synchronise save.synced).Agrees context.regInfo processStopID
      registers) :
    ∃ bytes : Bytes, bytes.length = context.savedLength total save ∧ (∀ index < bytes.length,
        (context.Saves processStopID total save index → bytes[index]? = registers[index]?) ∧
        (¬ context.Saves processStopID total save index → bytes[index]? = cached[index]?)) ∧
      ∀ info ∈ context.regInfo, info.valueRegs = none → ∀ index ∈ info.window, index < total →
        (restore.origin context.regInfo (context.savedLength total save) index).elim changed[index]?
          (bytes[·]?) = registers[index]? := by
  subst remote
  obtain ⟨data, after, saved⟩ := readAllRegisterValues_locked { context with regData := cached }
    processStopID registers locked
  obtain ⟨-, bytes, rfl, length, held⟩ := readAllRegisterValues_byte agrees saved
  change bytes.length = context.savedLength registers.length save at length
  obtain ⟨done, written⟩ := writeAllRegisterValues_byte later changed bytes restore
  rw [same, length] at done written
  refine ⟨bytes, length, fun index here => ?_, fun info member concrete index inside here => ?_⟩
  · have byte := held index here
    rw [saves_withData] at byte
    exact byte
  · rw [← written succeeds index (changes ▸ here)]
    exact restores cached registers changed rfl changes agrees (some bytes) after saved _ _
      (Prod.ext (done.mpr succeeds) rfl) info member concrete index inside

theorem CheckpointComplete.restoresAll (complete : context.CheckpointComplete processStopID total save restore)
    (same : later.regInfo = context.regInfo)
    (long : getRegisterDataByteSize context.regInfo ≤ total) :
    context.RestoresAll later processStopID total save restore := by
  rintro cached registers changed rfl changes agrees data after saved last written rewritten info member concrete
    index inside
  obtain ⟨locked, bytes, rfl, length, held⟩ := readAllRegisterValues_byte agrees saved
  change bytes.length = context.savedLength registers.length save at length
  obtain ⟨done, sent⟩ := writeAllRegisterValues_byte later changed bytes restore
  rw [rewritten, same, length] at done sent
  have succeeds := done.mp rfl
  obtain ⟨saves, origin⟩ := complete locked succeeds info member concrete index inside
  have bounds := Window.mem_iff.mp inside
  have fits := le_getRegisterDataByteSize member
  have byte := sent succeeds index (by rw [changes]; exact lt_of_lt_of_le bounds.2 (le_trans fits long))
  rw [origin] at byte
  have here : index < bytes.length := length ▸ saves_lt saves (lt_of_lt_of_le bounds.2 fits)
  exact byte.trans ((held index here).1 ((saves_withData context cached index).mpr saves))

def oneAt (length index : Nat) : Bytes := (replicate length 0).set index 1

theorem length_oneAt (length index : Nat) : (oneAt length index).length = length := by
  simp [oneAt]

theorem getElem?_oneAt_self {length index : Nat} (here : index < length) : (oneAt length index)[index]? = some 1 := by
  rw [oneAt, getElem?_set_self (by rwa [length_replicate])]

theorem getElem?_oneAt_ne {length index other : Nat} (ne : other ≠ index) : (oneAt length index)[other]? ≠ some 1 := by
  rw [oneAt, getElem?_set_ne ne.symm, getElem?_replicate]
  split <;> decide

section

variable (restores : context.RestoresAll later processStopID total save restore)
  (same : later.regInfo = context.regInfo) (long : getRegisterDataByteSize context.regInfo ≤ total)
  (past : context.stopID ≤ processStopID) (locked : save.locked = true)
  (succeeds : restore.Succeeds context.regInfo (context.savedLength total save)) {info : RegisterInfo}
  (member : info ∈ context.regInfo) (concrete : info.valueRegs = none) {index : Nat}
  (inside : index ∈ info.window)

include restores same long past locked succeeds member concrete inside

/-- A byte that is not put back into its place gives the checkpoint away: where the registers
are zero but for this byte, or the remote is changed to ones. -/
theorem RestoresAll.origin :
    restore.origin context.regInfo (context.savedLength total save) index = some index := by
  have here : index < getRegisterDataByteSize context.regInfo :=
    lt_of_lt_of_le (Window.mem_iff.mp inside).2 (le_getRegisterDataByteSize member)
  have there := lt_of_lt_of_le here long
  have registers := length_oneAt total index
  have size : ((oneAt total index).take (getRegisterDataByteSize context.regInfo)).length =
      getRegisterDataByteSize context.regInfo := by
    rw [length_take, registers, min_eq_left long]
  have agrees : ({ context with
      regData := (oneAt total index).take (getRegisterDataByteSize context.regInfo)
      }.synchronise save.synced).Agrees context.regInfo processStopID (oneAt total index) := by
    refine agrees_withData size (registers.symm ▸ long) past fun reg _ other found byte within => ?_
    have fits := le_getRegisterDataByteSize (mem_of_getElem? found)
    have bounds := Window.mem_iff.mp within
    rw [getElem?_take, if_pos (by exact lt_of_lt_of_le bounds.2 fits)]
  obtain ⟨bytes, length, held, back⟩ := restores.byte same locked succeeds registers
    (length_replicate : (replicate total (0 : UInt8)).length = total) agrees
  have byte := back info member concrete index inside there
  rw [getElem?_oneAt_self there] at byte
  cases origin : restore.origin context.regInfo (context.savedLength total save) index with
  | none =>
    rw [origin, Option.elim_none, getElem?_replicate, if_pos there] at byte
    exact absurd byte (by decide)
  | some source =>
    rw [origin] at byte
    -- The byte comes from another place of the data, where there is no one.
    by_contra elsewhere
    have ne : source ≠ index := fun same => elsewhere (congrArg some same)
    obtain ⟨saved, unsaved⟩ := held source (List.getElem?_eq_some_iff.mp byte).1
    by_cases saves : context.Saves processStopID total save source
    · exact getElem?_oneAt_ne ne ((saved saves).symm.trans byte)
    · have cached := (unsaved saves).symm.trans byte
      rw [getElem?_take] at cached
      split at cached
      · exact getElem?_oneAt_ne ne cached
      · cases cached

/-- A byte that no read brings and that is not valid in the cache gives the checkpoint away:
where the remote's registers are zero and the cache has a one there. -/
theorem RestoresAll.saves : context.Saves processStopID total save index := by
  have here : index < getRegisterDataByteSize context.regInfo :=
    lt_of_lt_of_le (Window.mem_iff.mp inside).2 (le_getRegisterDataByteSize member)
  have there := lt_of_lt_of_le here long
  have origin := restores.origin same long past locked succeeds member concrete inside
  have zeros : (replicate total (0 : UInt8)).length = total := length_replicate
  -- the byte that ends up in its place is the one that was saved
  have saved {cached : Bytes} (agrees : ({ context with regData := cached }.synchronise save.synced).Agrees
      context.regInfo processStopID (replicate total 0)) : ∃ bytes : Bytes,
        bytes.length = context.savedLength total save ∧ bytes[index]? = some 0 ∧
          (¬ context.Saves processStopID total save index → bytes[index]? = cached[index]?) := by
    obtain ⟨bytes, length, held, back⟩ := restores.byte same locked succeeds zeros zeros agrees
    have byte := back info member concrete index inside there
    rw [origin, getElem?_replicate, if_pos there] at byte
    exact ⟨bytes, length, byte, (held index (List.getElem?_eq_some_iff.mp byte).1).2⟩
  by_contra none
  -- Short `g` replies lack the byte; in the buffer it is a byte that was never read.
  cases whole : save.whole with
  | some count =>
    have agrees : ({ context with regData := replicate (getRegisterDataByteSize context.regInfo) 0
        }.synchronise save.synced).Agrees context.regInfo processStopID (replicate total 0) := by
      refine agrees_withData length_replicate (zeros.symm ▸ long) past
        fun reg _ other found byte within => ?_
      have fits := le_getRegisterDataByteSize (mem_of_getElem? found)
      have bounds := Window.mem_iff.mp within
      have below := lt_of_lt_of_le bounds.2 fits
      simp [getElem?_replicate, if_pos below, if_pos (lt_of_lt_of_le below long)]
    obtain ⟨bytes, length, byte, -⟩ := saved agrees
    apply none
    have inside := (List.getElem?_eq_some_iff.mp byte).1
    rw [length, savedLength, whole] at inside
    rw [Saves, whole]
    exact inside
  | none =>
    have agrees : ({ context with regData := oneAt (getRegisterDataByteSize context.regInfo) index
        }.synchronise save.synced).Agrees context.regInfo processStopID (replicate total 0) := by
      refine agrees_withData (length_oneAt _ _) (zeros.symm ▸ long) past
        fun reg valid other found byte within => ?_
      have fits := le_getRegisterDataByteSize (mem_of_getElem? found)
      have bounds := Window.mem_iff.mp within
      have below := lt_of_lt_of_le bounds.2 fits
      have apart : byte ≠ index := by
        rintro rfl
        apply none
        rw [Saves, whole]
        exact .inl ⟨reg, valid, other, found, within⟩
      simp [oneAt, getElem?_set_ne apart.symm, getElem?_replicate, if_pos below, if_pos (lt_of_lt_of_le below long)]
    obtain ⟨bytes, -, byte, cached⟩ := saved agrees
    have one := (cached none).symm.trans byte
    rw [getElem?_oneAt_self here] at one
    exact absurd one (by decide)

end

theorem checkpoint_restores_iff (same : later.regInfo = context.regInfo)
    (long : getRegisterDataByteSize context.regInfo ≤ total) (past : context.stopID ≤ processStopID) :
    context.RestoresAll later processStopID total save restore ↔
      context.CheckpointComplete processStopID total save restore := by
  constructor
  · intro restores locked succeeds info member concrete index inside
    exact ⟨restores.saves same long past locked succeeds member concrete inside,
      restores.origin same long past locked succeeds member concrete inside⟩
  · exact fun complete => complete.restoresAll same long

def twoRegisters : RegisterContext := .new [⟨"r0", 0, 1, none, none⟩, ⟨"r1", 1, 1, none, none⟩] false 1

def readEach (fails : Nat → Bool) : SaveFates :=
  ⟨true, false, false, none, fun reg => if fails reg then none else some 1⟩

def writeEach (fails : Nat → Bool) : RestoreFates :=
  ⟨true, false, .dropped, fun reg => if fails reg then .dropped else .done⟩

theorem checkpoint_restores_two :
    twoRegisters.RestoresAll twoRegisters 1 2 (readEach fun _ => false) (writeEach fun _ => false) := by
  apply (checkpoint_restores_iff rfl (by decide) (by decide)).mpr
  intro locked succeeds info member concrete index inside
  simp only [twoRegisters, new, mem_cons, not_mem_nil, or_false] at member
  obtain rfl | rfl := member
  · have first : index = 0 := Nat.lt_one_iff.mp (Window.mem_mk.mp inside).2
    subst first
    exact ⟨.inr ⟨0, by decide, _, rfl, rfl, rfl, 1, rfl, by decide⟩, rfl⟩
  · have bounds : 1 ≤ index ∧ index < 1 + 1 := inside
    have second : index = 1 := by omega
    subst second
    exact ⟨.inr ⟨1, by decide, _, rfl, rfl, rfl, 1, rfl, by decide⟩, rfl⟩

/-- A low byte listed in front of the register it is part of, and a `g` packet one byte longer
than the register: the offsets are then taken from the sizes. -/
def sliceFirst : RegisterContext := .new [⟨"al", 0, 1, some [1], some [1]⟩, ⟨"ax", 0, 2, none, some [0]⟩] false 1

/-- One failed read, one failed write, and offsets that count the slices each lose a register,
and both functions return true. -/
theorem checkpoint_not_always_restored :
    ¬ twoRegisters.RestoresAll twoRegisters 1 2 (readEach (· == 1)) (writeEach fun _ => false) ∧
    ¬ twoRegisters.RestoresAll twoRegisters 1 2 (readEach fun _ => false) (writeEach (· == 1)) ∧
    ¬ sliceFirst.RestoresAll sliceFirst 1 3 ⟨true, true, false, some 3, fun _ => none⟩
      ⟨true, true, .dropped, fun _ => .done⟩ := by
  refine ⟨fun restores => ?_, fun restores => ?_, fun restores => ?_⟩
  · have restored := restores [0, 0] [5, 6] [9, 9] rfl rfl (agrees_new false (by decide)) _ _ rfl _ _ rfl
      _ (.tail _ (.head _)) rfl 1 (by decide)
    exact absurd restored (by decide)
  · have restored := restores [0, 0] [5, 6] [9, 9] rfl rfl (agrees_new false (by decide)) _ _ rfl _ _ rfl
      _ (.tail _ (.head _)) rfl 1 (by decide)
    exact absurd restored (by decide)
  · have restored := restores [0, 0] [5, 6, 7] [9, 9, 9] rfl rfl (agrees_new false (by decide)) _ _ rfl _ _ rfl
      _ (.tail _ (.head _)) rfl 0 (by decide)
    exact absurd restored (by decide)

end RegisterContext

end Lldb.GdbRemote
