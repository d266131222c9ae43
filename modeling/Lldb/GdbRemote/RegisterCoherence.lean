import Lldb.GdbRemote.RegisterContext

/-! Coherence of the register cache with the remote: what is valid at the current stop ID
is what the remote holds. -/

set_option autoImplicit false

namespace Lldb.GdbRemote

open Library (Window)
open List

theorem le_foldl_dataByteSize (regInfo : List RegisterInfo) (size : Nat) : size ≤ regInfo.foldl (fun size info =>
      if size < info.byteOffset + info.byteSize then info.byteOffset + info.byteSize else size) size := by
  induction regInfo generalizing size with
  | nil => exact le_refl size
  | cons first infos ih =>
    rw [foldl_cons]
    exact le_trans (by split <;> omega) (ih _)

theorem le_getRegisterDataByteSize {regInfo : List RegisterInfo} {info : RegisterInfo}
    (member : info ∈ regInfo) : info.byteOffset + info.byteSize ≤ getRegisterDataByteSize regInfo := by
  unfold getRegisterDataByteSize
  generalize 0 = size
  induction regInfo generalizing size with
  | nil => cases member
  | cons first infos ih =>
    rw [foldl_cons]
    cases member with
    | head => exact le_trans (by split <;> omega) (le_foldl_dataByteSize infos _)
    | tail _ member => exact ih member _

/-- Register layouts: slices are made of concrete registers, and `invalidate_regs` names every
other register that shares a byte. -/
structure RegisterLayout where
  regInfo : List RegisterInfo
  concrete : ∀ slice ∈ regInfo, ∀ regs, slice.valueRegs = some regs → ∀ reg ∈ regs,
    ∃ info, regInfo[reg]? = some info ∧ info.valueRegs = none
  covered : ∀ slice ∈ regInfo, ∀ regs, slice.valueRegs = some regs → ∀ index ∈ slice.window,
    ∃ reg ∈ regs, ∃ info, regInfo[reg]? = some info ∧ index ∈ info.window
  invalidates : ∀ (reg : Nat) (info : RegisterInfo), regInfo[reg]? = some info →
    ∀ (other : Nat) (otherInfo : RegisterInfo), regInfo[other]? = some otherInfo → other ≠ reg → ¬ otherInfo.window.Apart info.window →
      other ∈ info.invalidateRegs.getD []

namespace RegisterContext

variable {context : RegisterContext}

@[simp] theorem regInfo_invalidateIfNeeded (processStopID : Nat) (force : Bool) :
    (context.invalidateIfNeeded processStopID force).regInfo = context.regInfo := by
  unfold invalidateIfNeeded
  split <;> rfl

@[simp] theorem regData_invalidateIfNeeded (processStopID : Nat) (force : Bool) :
    (context.invalidateIfNeeded processStopID force).regData = context.regData := by
  unfold invalidateIfNeeded
  split <;> rfl

@[simp] theorem stopID_invalidateIfNeeded (processStopID : Nat) (force : Bool) :
    (context.invalidateIfNeeded processStopID force).stopID = processStopID := by
  unfold invalidateIfNeeded
  split
  · rfl
  · next current =>
    simp only [Bool.or_eq_true, bne_iff_ne, not_or, Decidable.not_not] at current
    exact current.2.symm

theorem invalidateIfNeeded_current {processStopID : Nat} (current : context.stopID = processStopID) :
    context.invalidateIfNeeded processStopID false = context := by
  simp [invalidateIfNeeded, current]

theorem getRegisterIsValid_setAllRegisterValid_false (reg : Nat) :
    (context.setAllRegisterValid false).getRegisterIsValid reg = false := by
  rw [getRegisterIsValid, setAllRegisterValid, getD_eq_getElem?_getD, getElem?_map]
  cases context.regValid[reg]? <;> rfl

theorem getRegisterIsValid_setRegisterIsValid_of_ne {reg other : Nat} (ne : other ≠ reg) (valid : Bool) :
    (context.setRegisterIsValid reg valid).getRegisterIsValid other = context.getRegisterIsValid other := by
  simp [getRegisterIsValid, setRegisterIsValid, getElem?_set_ne (Ne.symm ne)]

theorem getRegisterIsValid_setRegisterIsValid_false (reg : Nat) :
    (context.setRegisterIsValid reg false).getRegisterIsValid reg = false := by
  rw [getRegisterIsValid, setRegisterIsValid, getD_eq_getElem?_getD, getElem?_set]
  split
  · split <;> rfl
  · contradiction

theorem valid_of_setRegisterIsValid_false {reg other : Nat}
    (valid : (context.setRegisterIsValid reg false).getRegisterIsValid other = true) :
    other ≠ reg ∧ context.getRegisterIsValid other = true := by
  have ne : other ≠ reg := by
    rintro rfl
    rw [getRegisterIsValid_setRegisterIsValid_false] at valid
    cases valid
  exact ⟨ne, by rwa [getRegisterIsValid_setRegisterIsValid_of_ne ne] at valid⟩

/-- What is valid at the current stop ID agrees with the remote, but for an excepted window. -/
structure AgreesBut (excepted : Window) (context : RegisterContext) (regInfo : List RegisterInfo)
    (processStopID : Nat) (registers : Bytes) : Prop where
  layout : context.regInfo = regInfo
  size : context.regData.length = getRegisterDataByteSize regInfo
  remote : getRegisterDataByteSize regInfo ≤ registers.length
  past : context.stopID ≤ processStopID
  agree : context.stopID = processStopID → ∀ (reg : Nat) (info : RegisterInfo),
    regInfo[reg]? = some info → context.getRegisterIsValid reg = true → ∀ index ∈ info.window, index ∉ excepted →
      context.regData[index]? = registers[index]?

abbrev Agrees : RegisterContext → List RegisterInfo → Nat → Bytes → Prop := AgreesBut ⟨0, 0⟩

theorem not_mem_empty (index : Nat) : index ∉ (⟨0, 0⟩ : Window) := by
  rw [Window.mem_mk]
  omega

section Read

variable {regInfo : List RegisterInfo} {processStopID : Nat} {registers : Bytes} {excepted : Window}

variable {reg : Nat} {info : RegisterInfo}

theorem Agrees.window (agrees : context.Agrees regInfo processStopID registers)
    (current : context.stopID = processStopID)
    (found : regInfo[reg]? = some info) (valid : context.getRegisterIsValid reg = true) :
    info.window.Agree context.regData registers :=
  fun index inside => agrees.agree current reg info found valid index inside (not_mem_empty index)

theorem agrees_of_invalid (layout : context.regInfo = regInfo)
    (size : context.regData.length = getRegisterDataByteSize regInfo)
    (remote : getRegisterDataByteSize regInfo ≤ registers.length) (past : context.stopID ≤ processStopID)
    (invalid : ∀ reg, context.getRegisterIsValid reg = false) :
    context.Agrees regInfo processStopID registers :=
  ⟨layout, size, remote, past, fun _ reg _ _ valid => by rw [invalid reg] at valid; cases valid⟩

theorem agrees_new (readAllAtOnce : Bool) (remote : getRegisterDataByteSize regInfo ≤ registers.length) :
    (new regInfo readAllAtOnce processStopID).Agrees regInfo processStopID registers := by
  apply agrees_of_invalid rfl length_replicate remote (le_refl _)
  intro reg
  rw [getRegisterIsValid, new, getD_eq_getElem?_getD, getElem?_replicate]
  split <;> rfl

theorem AgreesBut.invalidateAll (agrees : context.AgreesBut excepted regInfo processStopID registers) :
    (context.setAllRegisterValid false).Agrees regInfo processStopID registers :=
  agrees_of_invalid agrees.layout agrees.size agrees.remote agrees.past
    getRegisterIsValid_setAllRegisterValid_false

theorem AgreesBut.invalidate (agrees : context.AgreesBut excepted regInfo processStopID registers) (reg : Nat) :
    (context.setRegisterIsValid reg false).AgreesBut excepted regInfo processStopID registers where
  layout := agrees.layout
  size := agrees.size
  remote := agrees.remote
  past := agrees.past
  agree := fun current other info found valid =>
    agrees.agree current other info found (valid_of_setRegisterIsValid_false valid).2

theorem AgreesBut.validate (agrees : context.AgreesBut excepted regInfo processStopID registers)
    (agree : ∀ info, regInfo[reg]? = some info → info.window.Agree context.regData registers) :
    (context.setRegisterIsValid reg true).AgreesBut excepted regInfo processStopID registers where
  layout := agrees.layout
  size := agrees.size
  remote := agrees.remote
  past := agrees.past
  agree := by
    intro current other info found valid index inside outside
    by_cases same : other = reg
    · subst same
      exact agree info found index inside
    · rw [getRegisterIsValid_setRegisterIsValid_of_ne same] at valid
      exact agrees.agree current other info found valid index inside outside

theorem AgreesBut.validateAll (agrees : context.AgreesBut excepted regInfo processStopID registers)
    (agree : ∀ info ∈ regInfo, info.window.Agree context.regData registers) :
    (context.setAllRegisterValid true).AgreesBut excepted regInfo processStopID registers where
  layout := agrees.layout
  size := agrees.size
  remote := agrees.remote
  past := agrees.past
  agree := fun _ _ _ found _ index inside _ => agree _ (mem_of_getElem? found) index inside

theorem AgreesBut.invalidateForced (agrees : context.AgreesBut excepted regInfo processStopID registers) :
    (context.invalidateIfNeeded processStopID true).Agrees regInfo processStopID registers :=
  agrees_of_invalid agrees.layout agrees.size agrees.remote (le_refl _)
    getRegisterIsValid_setAllRegisterValid_false

theorem Agrees.invalidateIfNeeded (agrees : context.Agrees regInfo processStopID registers) :
    (context.invalidateIfNeeded processStopID false).Agrees regInfo processStopID registers := by
  unfold RegisterContext.invalidateIfNeeded
  split
  · exact agrees_of_invalid agrees.layout agrees.size agrees.remote (le_refl _)
      getRegisterIsValid_setAllRegisterValid_false
  · exact agrees

theorem Agrees.refresh (agrees : context.Agrees regInfo processStopID registers) (source : Window) (count : Nat) :
    (context.setData source.offset ((source.read registers).take count)).Agrees regInfo processStopID
      registers where
  layout := agrees.layout
  size := (Window.length_overwrite _ _ _).trans agrees.size
  remote := agrees.remote
  past := agrees.past
  agree := fun current _ _ found valid index inside _ =>
    (agrees.window current found valid).overwrite_read count index inside

/-- What an operation that only reads the remote does: the buffer comes closer to it. -/
structure Refreshed (before after : RegisterContext) (regInfo : List RegisterInfo) (processStopID : Nat)
    (registers : Bytes) : Prop where
  agrees : after.Agrees regInfo processStopID registers
  current : after.stopID = processStopID
  closer : ∀ window : Window, window.Agree before.regData registers → window.Agree after.regData registers

theorem Refreshed.trans {before middle after : RegisterContext}
    (first : Refreshed before middle regInfo processStopID registers)
    (second : Refreshed middle after regInfo processStopID registers) :
    Refreshed before after regInfo processStopID registers :=
  ⟨second.agrees, second.current, fun window agree => second.closer window (first.closer window agree)⟩

theorem Agrees.refreshed (agrees : context.Agrees regInfo processStopID registers)
    (current : context.stopID = processStopID) :
    Refreshed context context regInfo processStopID registers :=
  ⟨agrees, current, fun _ agree => agree⟩

theorem privateSetRegisterValue_invalidated (found : context.regInfo[reg]? = some info) (data : Bytes) :
    (context.invalidateIfNeeded processStopID false).privateSetRegisterValue processStopID reg data =
      context.privateSetRegisterValue processStopID reg data := by
  rw [privateSetRegisterValue, regInfo_invalidateIfNeeded, privateSetRegisterValue, found]
  rw [invalidateIfNeeded_current (stopID_invalidateIfNeeded processStopID false)]

theorem take_take_read (info : RegisterInfo) (count : Nat) :
    ((info.window.read registers).take count).take info.byteSize = (info.window.read registers).take count := by
  rw [take_of_length_le]
  rw [length_take, Window.read, length_take]
  exact le_trans (min_le_right _ _) (min_le_left _ _)

/-- `PrivateSetRegisterValue` with bytes of the remote; it returns true when it got them all. -/
theorem Agrees.privateSet (agrees : context.Agrees regInfo processStopID registers)
    (current : context.stopID = processStopID)
    (found : regInfo[reg]? = some info) (count : Nat) :
    let result := context.privateSetRegisterValue processStopID reg
      ((info.window.read registers).take count)
    Refreshed context result.2 regInfo processStopID registers ∧
      (result.1 = true → info.window.Agree result.2.regData registers) := by
  intro result
  have fits := le_getRegisterDataByteSize (mem_of_getElem? found)
  have copied := agrees.refresh info.window count
  have closer (window : Window) (agree : window.Agree context.regData registers) :
      window.Agree (context.setData info.window.offset ((info.window.read registers).take count)).regData
        registers := agree.overwrite_read count
  have unfolded : result = context.privateSetRegisterValue processStopID reg
    ((info.window.read registers).take count) := rfl
  simp only [privateSetRegisterValue, agrees.layout, found, invalidateIfNeeded_current current,
    take_take_read] at unfolded
  rw [unfolded]
  split
  -- All its bytes came, so the window agrees and the bit may be set.
  · next whole =>
    have agree : info.window.Agree (context.setData info.byteOffset
        ((info.window.read registers).take count)).regData registers := by
      rw [length_take] at whole
      rw [take_of_length_le (by
        rw [Window.length_read (le_trans fits agrees.remote)]; exact le_trans whole (min_le_left _ _))]
      exact Window.agree_overwrite_read (agrees.size ▸ fits) (le_trans fits agrees.remote)
    refine ⟨⟨copied.validate ?_, current, closer⟩, fun _ => agree⟩
    intro other same
    cases found.symm.trans same
    exact agree
  · split
    · exact ⟨⟨copied.invalidate reg, current, closer⟩, nofun⟩
    · exact ⟨⟨copied, current, closer⟩, nofun⟩

theorem Agrees.getPrimordial (agrees : context.Agrees regInfo processStopID registers)
    (current : context.stopID = processStopID)
    (found : regInfo[reg]? = some info) (fate : Option Nat) :
    let result := context.getPrimordialRegister processStopID registers reg info fate
    Refreshed context result.2 regInfo processStopID registers ∧
      (result.1 = true → info.window.Agree result.2.regData registers) := by
  cases fate with
  | none => exact ⟨agrees.refreshed current, nofun⟩
  | some count => exact agrees.privateSet current found count

theorem Agrees.getValueRegs (agrees : context.Agrees regInfo processStopID registers)
    (current : context.stopID = processStopID) (regs : List Nat) (fates : List (Option Nat)) :
    let result := RegisterContext.getValueRegs processStopID registers regs fates context
    Refreshed context result.2 regInfo processStopID registers ∧
      (result.1 = true → ∀ reg ∈ regs, ∀ info, regInfo[reg]? = some info →
        info.window.Agree result.2.regData registers) := by
  -- On the constituents still to be read; the ones read before must keep agreeing.
  induction regs generalizing context fates with
  | nil => exact ⟨agrees.refreshed current, fun _ _ member => nomatch member⟩
  | cons reg regs ih =>
    unfold RegisterContext.getValueRegs
    rw [agrees.layout]
    cases found : regInfo[reg]? with
    | none => exact ⟨agrees.refreshed current, nofun⟩
    | some info =>
      -- whatever made this constituent agree, the ones read after it leave it so
      have tail {middle : RegisterContext} (first : Refreshed context middle regInfo processStopID registers)
          (agree : info.window.Agree middle.regData registers) (fates : List (Option Nat)) :
          let result := RegisterContext.getValueRegs processStopID registers regs fates middle
          Refreshed context result.2 regInfo processStopID registers ∧
            (result.1 = true → ∀ other ∈ reg :: regs, ∀ otherInfo, regInfo[other]? = some otherInfo →
              otherInfo.window.Agree result.2.regData registers) := by
        intro result
        obtain ⟨second, rest⟩ := ih first.agrees first.current fates
        refine ⟨first.trans second, fun success other member otherInfo same => ?_⟩
        cases member with
        | head =>
          cases found.symm.trans same
          exact second.closer _ agree
        | tail _ member => exact rest success other member otherInfo same
      dsimp only
      split
      · next valid => exact tail (agrees.refreshed current) (agrees.window current found valid) fates
      · obtain ⟨first, agree⟩ := agrees.getPrimordial current found (fates.head?.getD none)
        split
        · next middle got =>
          rw [got] at first agree
          exact tail first (agree rfl) fates.tail
        · next middle got =>
          rw [got] at first
          exact ⟨first, nofun⟩

/-- A reply to `g` that is as long as the buffer fills it with the bytes of the remote. -/
theorem Agrees.whole (agrees : context.Agrees regInfo processStopID registers) {count : Nat}
    (whole : context.regData.length ≤ (registers.take count).length) :
    ∀ info ∈ regInfo, info.window.Agree
      (context.setData 0 ((registers.take count).take context.regData.length)).regData registers := by
  intro info member index inside
  have fits := le_getRegisterDataByteSize member
  obtain ⟨-, below⟩ := Window.mem_mk.mp inside
  have here : index < context.regData.length := by rw [agrees.size]; omega
  rw [setData, Window.getElem?_overwrite_front whole here, getElem?_take, if_pos]
  rw [length_take] at whole
  omega

theorem Agrees.readRegisterBytes (layout : RegisterLayout)
    (agrees : context.Agrees layout.regInfo processStopID registers) (reg : Nat) (fates : List (Option Nat)) :
    let result := context.readRegisterBytes processStopID registers reg fates
    result.2.Agrees layout.regInfo processStopID registers ∧
      (result.1 = true → ∀ info, layout.regInfo[reg]? = some info → info.window.Agree result.2.regData registers) := by
  unfold RegisterContext.readRegisterBytes
  rw [agrees.layout]
  cases found : layout.regInfo[reg]? with
  | none => exact ⟨agrees, Bool.noConfusion⟩
  | some info =>
    have checked := agrees.invalidateIfNeeded
    have current := context.stopID_invalidateIfNeeded processStopID false
    revert checked current
    generalize context.invalidateIfNeeded processStopID false = context
    intro agrees current
    have valid_agrees {after : RegisterContext} (agrees : after.Agrees layout.regInfo processStopID registers)
        (current : after.stopID = processStopID) (valid : after.getRegisterIsValid reg = true) :
        ∀ other, some info = some other → other.window.Agree after.regData registers := by
      intro other same
      cases same
      exact agrees.window current found valid
    dsimp only
    split
    · next valid => exact ⟨agrees, fun _ => valid_agrees agrees current valid⟩
    split
    · cases fates.head?.getD none with
      | none => exact ⟨agrees, Bool.noConfusion⟩
      | some count =>
        have copied := agrees.refresh ⟨0, context.regData.length⟩ count
        rw [Window.read, take_take, min_comm, ← take_take] at copied
        dsimp only [Remote.readAllRegisters, Option.map_some]
        split
        · next long =>
          have every := agrees.whole (le_trans (le_of_eq (Window.length_overwrite _ _ _).symm) long)
          exact ⟨copied.validateAll every, fun _ _ same => every _ (mem_of_getElem? (found.trans same))⟩
        · exact ⟨copied, Bool.noConfusion⟩
    · cases slice : info.valueRegs with
      | none =>
        obtain ⟨refreshed, -⟩ := agrees.getPrimordial current found (fates.head?.getD none)
        exact ⟨refreshed.agrees, valid_agrees refreshed.agrees refreshed.current⟩
      | some regs =>
        obtain ⟨refreshed, parts⟩ := agrees.getValueRegs current regs fates
        dsimp only
        split
        · next after got =>
          rw [got] at refreshed parts
          have whole : ∀ other, layout.regInfo[reg]? = some other → other.window.Agree after.regData registers := by
            intro other same index inside
            cases found.symm.trans same
            obtain ⟨part, member, partInfo, there, within⟩ :=
              layout.covered info (mem_of_getElem? found) _ slice index inside
            exact parts rfl part member partInfo there index within
          exact ⟨refreshed.agrees.validate whole, fun _ other same => whole other (found.trans same)⟩
        · next after got =>
          rw [got] at refreshed
          exact ⟨refreshed.agrees, valid_agrees refreshed.agrees refreshed.current⟩

theorem readRegister_context (context : RegisterContext) (processStopID : Nat) (registers : Bytes)
    (reg : Nat) (fates : List (Option Nat)) :
    (context.readRegister processStopID registers reg fates).2 =
      (context.readRegisterBytes processStopID registers reg fates).2 := by
  unfold readRegister
  split <;> next read => rw [read]

end Read

end RegisterContext

end Lldb.GdbRemote
