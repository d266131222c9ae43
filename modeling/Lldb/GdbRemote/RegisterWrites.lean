import Lldb.GdbRemote.RegisterCoherence

/-! Writes through the register cache.

A write changes the buffer first and then sends whole registers from it, whether or not
the rest of their bytes was ever read.
-/

set_option autoImplicit false

namespace Lldb.GdbRemote

open List

open Library (Window)

namespace Remote

theorem write_bytes (registers source : Bytes) (window : Window) (fate : WriteFate) (index : Nat) :
    (write registers window.offset (window.read source) fate).2[index]? = registers[index]? ∨
      (write registers window.offset (window.read source) fate).2[index]? = source[index]? := by
  have copied := Window.overwrite_read window (window.read source).length source registers index
  rw [take_length] at copied
  cases fate with
  | done => exact copied
  | unanswered => exact copied
  | dropped => exact .inl rfl

theorem write_length (registers data : Bytes) (offset : Nat) (fate : WriteFate) :
    (write registers offset data fate).2.length = registers.length := by
  cases fate with
  | done => exact Window.length_overwrite _ _ _
  | unanswered => exact Window.length_overwrite _ _ _
  | dropped => rfl

theorem write_agree (registers source : Bytes) (window : Window) {fate : WriteFate}
    (fits : window.offset + window.size ≤ registers.length)
    (there : window.offset + window.size ≤ source.length)
    (success : (write registers window.offset (window.read source) fate).1 = true) :
    window.Agree (write registers window.offset (window.read source) fate).2 source := by
  cases fate with
  | done => exact Window.agree_overwrite_read fits there
  | unanswered => cases success
  | dropped => cases success

theorem write_outside {registers data : Bytes} (window : Window) (length : data.length ≤ window.size)
    (fate : WriteFate) {index : Nat} (outside : index ∉ window) :
    (write registers window.offset data fate).2[index]? = registers[index]? := by
  have beyond : index ∉ (⟨window.offset, data.length⟩ : Window) := by
    intro inside
    rw [Window.mem_mk] at inside
    exact outside (Window.mem_iff.mpr ⟨inside.1, by omega⟩)
  cases fate with
  | done => exact Window.getElem?_overwrite_outside beyond
  | unanswered => exact Window.getElem?_overwrite_outside beyond
  | dropped => rfl

theorem writeAllRegisters_eq (registers data : Bytes) (fate : WriteFate) :
    writeAllRegisters registers data fate = write registers (⟨0, data.length⟩ : Window).offset
      ((⟨0, data.length⟩ : Window).read data) fate := by
  rw [Window.read_all, writeAllRegisters]

end Remote

namespace RegisterContext

variable {context : RegisterContext} {regInfo : List RegisterInfo} {processStopID : Nat}
  {registers : Bytes} {excepted : Window}

/-- What sending bytes of the buffer does to the context and to the remote. -/
structure Sent (context after : RegisterContext) (registers written : Bytes) : Prop where
  layout : after.regInfo = context.regInfo
  data : after.regData = context.regData
  stopID : after.stopID = context.stopID
  length : written.length = registers.length
  valid : ∀ reg, after.getRegisterIsValid reg = true → context.getRegisterIsValid reg = true
  bytes : ∀ index : Nat, written[index]? = registers[index]? ∨ written[index]? = context.regData[index]?

theorem Sent.refl (context : RegisterContext) (registers : Bytes) : Sent context context registers registers :=
  ⟨rfl, rfl, rfl, rfl, fun _ valid => valid, fun _ => .inl rfl⟩

theorem Sent.trans {middle after : RegisterContext} {between written : Bytes}
    (first : Sent context middle registers between) (second : Sent middle after between written) :
    Sent context after registers written where
  layout := second.layout.trans first.layout
  data := second.data.trans first.data
  stopID := second.stopID.trans first.stopID
  length := second.length.trans first.length
  valid := fun reg valid => first.valid reg (second.valid reg valid)
  bytes := by
    intro index
    obtain same | sent := second.bytes index
    · rw [same]
      exact first.bytes index
    · right
      rw [sent, first.data]

theorem Sent.keeps {after : RegisterContext} {written : Bytes} (sent : Sent context after registers written)
    {index : Nat} (agree : context.regData[index]? = registers[index]?) :
    context.regData[index]? = written[index]? := by
  obtain same | copied := sent.bytes index
  · exact agree.trans same.symm
  · exact copied.symm

theorem AgreesBut.sent (agrees : context.AgreesBut excepted regInfo processStopID registers)
    {after : RegisterContext} {written : Bytes} (sent : Sent context after registers written) :
    after.AgreesBut excepted regInfo processStopID written where
  layout := sent.layout.trans agrees.layout
  size := sent.data ▸ agrees.size
  remote := le_trans agrees.remote (le_of_eq sent.length.symm)
  past := sent.stopID ▸ agrees.past
  agree := by
    intro current reg info found valid index inside outside
    rw [sent.data]
    exact sent.keeps (agrees.agree (sent.stopID ▸ current) reg info found (sent.valid reg valid) index
      inside outside)

theorem sent_setRegisterIsValid_false (context : RegisterContext) (registers : Bytes) (reg : Nat) :
    Sent context (context.setRegisterIsValid reg false) registers registers :=
  ⟨rfl, rfl, rfl, rfl, fun _ valid => (valid_of_setRegisterIsValid_false valid).2, fun _ => .inl rfl⟩

theorem sent_invalidateRegs (context : RegisterContext) (registers : Bytes) (regs : List Nat) :
    Sent context (context.invalidateRegs regs) registers registers ∧
      ∀ reg ∈ regs, (context.invalidateRegs regs).getRegisterIsValid reg = false := by
  induction regs generalizing context with
  | nil => exact ⟨.refl context registers, nofun⟩
  | cons reg regs ih =>
    obtain ⟨rest, invalid⟩ := ih (context.setRegisterIsValid reg false)
    refine ⟨(sent_setRegisterIsValid_false context registers reg).trans rest, fun other member => ?_⟩
    cases member with
    | head =>
      -- It was switched off first, and nothing after that switches it on.
      by_contra valid
      have earlier := rest.valid reg ((Bool.not_eq_false _).mp valid)
      rw [getRegisterIsValid_setRegisterIsValid_false] at earlier
      cases earlier
    | tail _ member => exact invalid other member

variable {info : RegisterInfo} {fates : List Remote.WriteFate}

theorem AgreesBut.setPrimordial (agrees : context.AgreesBut excepted regInfo processStopID registers)
    {reg : Nat} (found : regInfo[reg]? = some info) (fate : Remote.WriteFate) :
    let result := context.setPrimordialRegister registers reg info fate
    Sent context result.2.1 registers result.2.2 ∧ result.2.1.getRegisterIsValid reg = false ∧
      (∀ index, index ∉ info.window → result.2.2[index]? = registers[index]?) ∧
      (result.1 = true → info.window.Agree result.2.2 context.regData) := by
  have fits := le_getRegisterDataByteSize (mem_of_getElem? found)
  refine ⟨⟨rfl, rfl, rfl, Remote.write_length _ _ _ fate, ?_, ?_⟩, ?_, ?_, ?_⟩
  · intro other valid
    exact (valid_of_setRegisterIsValid_false valid).2
  · exact Remote.write_bytes registers context.regData info.window fate
  · exact getRegisterIsValid_setRegisterIsValid_false reg
  · intro index outside
    exact Remote.write_outside info.window (length_take_le _ _) fate outside
  · exact Remote.write_agree registers context.regData info.window (le_trans fits agrees.remote) (agrees.size ▸ fits)

theorem AgreesBut.setValueRegs (agrees : context.AgreesBut excepted regInfo processStopID registers)
    (regs : List Nat) (fates : List Remote.WriteFate) :
    let result := RegisterContext.setValueRegs regs fates context registers
    Sent context result.2.1 registers result.2.2 ∧
      (∀ index, (∀ reg ∈ regs, ∀ info, regInfo[reg]? = some info → index ∉ info.window) →
        result.2.2[index]? = registers[index]?) ∧
      (result.1 = true → ∀ reg ∈ regs, ∀ info, regInfo[reg]? = some info →
        info.window.Agree result.2.2 context.regData) := by
  induction regs generalizing context registers fates with
  | nil => exact ⟨.refl context registers, fun _ _ => rfl, fun _ _ member => nomatch member⟩
  | cons reg regs ih =>
    unfold RegisterContext.setValueRegs
    rw [agrees.layout]
    cases found : regInfo[reg]? with
    | none => exact ⟨.refl context registers, fun _ _ => rfl, nofun⟩
    | some info =>
      obtain ⟨first, -, outside, agree⟩ := agrees.setPrimordial found (fates.head?.getD .dropped)
      dsimp only
      split
      · next middle between sent =>
        rw [sent] at first outside agree
        obtain ⟨second, rest, later⟩ := ih (agrees.sent first) fates.tail
        refine ⟨first.trans second, fun index none => ?_, fun success other member otherInfo same => ?_⟩
        · rw [rest index fun other member => none other (.tail reg member)]
          exact outside index (none reg (.head regs) info found)
        · cases member with
          | head =>
            cases found.symm.trans same
            intro index inside
            rw [← first.data]
            refine (second.keeps ?_).symm
            rw [first.data]
            exact (agree rfl index inside).symm
          | tail _ member =>
            rw [← first.data]
            exact later success other member otherInfo same
      · next middle between sent =>
        rw [sent] at first outside
        exact ⟨first, fun index none => outside index (none reg (.head regs) info found), nofun⟩

theorem setValueRegs_done {regs : List Nat} (known : ∀ reg ∈ regs, ∃ info, context.regInfo[reg]? = some info)
    (done : fates.take regs.length = replicate regs.length .done) :
    (RegisterContext.setValueRegs regs fates context registers).1 = true := by
  induction regs generalizing context registers fates with
  | nil => rfl
  | cons reg regs ih =>
    cases fates with
    | nil => cases done
    | cons fate fates =>
      rw [length_cons, take_succ_cons, replicate_succ, List.cons.injEq] at done
      obtain ⟨rfl, done⟩ := done
      obtain ⟨info, found⟩ := known reg (.head regs)
      unfold RegisterContext.setValueRegs
      rw [found]
      exact ih (fun other member => known other (.tail reg member)) done

theorem Agrees.setData (agrees : context.Agrees regInfo processStopID registers)
    {bytes : Bytes} (length : bytes.length = info.byteSize) :
    (context.setData info.byteOffset bytes).AgreesBut info.window regInfo processStopID registers where
  layout := agrees.layout
  size := (Window.length_overwrite _ _ _).trans agrees.size
  remote := agrees.remote
  past := agrees.past
  agree := by
    intro current reg other found valid index inside outside
    rw [RegisterContext.setData, Window.getElem?_overwrite_outside]
    · exact agrees.window current found valid index inside
    · rw [length]
      exact outside

theorem AgreesBut.agrees (agrees : context.AgreesBut excepted regInfo processStopID registers)
    (apart : context.stopID = processStopID → ∀ (reg : Nat) (info : RegisterInfo),
      regInfo[reg]? = some info → context.getRegisterIsValid reg = true →
        info.window.Apart excepted ∨ info.window.Agree context.regData registers) :
    context.Agrees regInfo processStopID registers where
  layout := agrees.layout
  size := agrees.size
  remote := agrees.remote
  past := agrees.past
  agree := by
    intro current reg info found valid index inside _
    obtain separate | whole := apart current reg info found valid
    · exact agrees.agree current reg info found valid index inside (separate index inside)
    · exact whole index inside

def Sends (context : RegisterContext) (reg : Nat) (info : RegisterInfo) (index : Nat) : Prop :=
  context.readAllAtOnce = true ∨ ∃ target ∈ info.valueRegs.getD [reg], ∃ targetInfo,
    context.regInfo[target]? = some targetInfo ∧ index ∈ targetInfo.window

/-- A slice that is not among the registers it invalidates keeps its bit, so that its packets
have to come through if it is set. -/
def SliceSettled (context : RegisterContext) (processStopID reg : Nat) (info : RegisterInfo)
    (fates : List Remote.WriteFate) : Prop :=
  ∀ regs, info.valueRegs = some regs → context.readAllAtOnce = true ∨
    context.stopID ≠ processStopID ∨ context.getRegisterIsValid reg = false ∨ reg ∈ info.invalidateRegs.getD [] ∨
        fates.take regs.length = replicate regs.length .done

/-- What `WriteRegisterBytes` achieves by sending the buffer. -/
structure Delivered (context : RegisterContext) (processStopID : Nat) (registers : Bytes) (reg : Nat)
    (info : RegisterInfo) (result : Bool × RegisterContext × Bytes) : Prop where
  agrees : result.2.1.Agrees context.regInfo processStopID result.2.2
  bytes : ∀ index : Nat, result.2.2[index]? = registers[index]? ∨
    context.Sends reg info index ∧ result.2.2[index]? = context.regData[index]?
  success : result.1 = true → info.window.Agree result.2.2 context.regData

theorem AgreesBut.sendAll (agrees : context.AgreesBut excepted regInfo processStopID registers)
    (all : context.readAllAtOnce = true) (reg : Nat) (member : info ∈ regInfo)
    (fates : List Remote.WriteFate) :
    context.Delivered processStopID registers reg info
      (context.sendRegister processStopID registers reg info fates) := by
  have fits := le_getRegisterDataByteSize member
  have invalid := agrees.invalidateForced
  have bytes := Remote.write_bytes registers context.regData ⟨0, context.regData.length⟩
    (fates.head?.getD .dropped)
  have length := Remote.write_length registers context.regData 0 (fates.head?.getD .dropped)
  have agree := @Remote.write_agree registers context.regData ⟨0, context.regData.length⟩
    (fates.head?.getD .dropped)
  rw [← Remote.writeAllRegisters_eq] at bytes agree
  change (Remote.writeAllRegisters _ _ _).2.length = _ at length
  have data : (context.invalidateIfNeeded processStopID true).regData = context.regData := rfl
  unfold sendRegister
  rw [if_pos all]
  dsimp only
  rw [data]
  cases sent : Remote.writeAllRegisters registers context.regData (fates.head?.getD .dropped) with
  | mk success written =>
    rw [sent] at bytes length agree
    have quiet : Sent (context.invalidateIfNeeded processStopID true)
        (context.invalidateIfNeeded processStopID true) registers written :=
      ⟨rfl, rfl, rfl, length, fun _ valid => valid, bytes⟩
    have settled := agrees.layout ▸ invalid.sent quiet
    -- A failed packet leaves all bits off too: they were invalidated before it was sent.
    cases success with
    | true =>
      refine ⟨settled.invalidateAll, fun index => (bytes index).imp_right fun same => ⟨.inl all, same⟩, ?_⟩
      intro _ index inside
      obtain ⟨-, below⟩ := Window.mem_mk.mp inside
      refine agree ?_ ?_ rfl index (Window.mem_mk.mpr ⟨Nat.zero_le index, ?_⟩)
      · exact le_trans (le_of_eq ((zero_add _).trans agrees.size)) agrees.remote
      · exact Nat.le_of_eq (Nat.zero_add _)
      · have whole := le_of_eq ((zero_add _).trans agrees.size).symm
        exact lt_of_lt_of_le below (le_trans fits whole)
    | false =>
      exact ⟨settled, fun index => (bytes index).imp_right fun same => ⟨.inl all, same⟩, nofun⟩

def sendTargets (context : RegisterContext) (registers : Bytes) (reg : Nat) (info : RegisterInfo)
    (fates : List Remote.WriteFate) : Bool × RegisterContext × Bytes :=
  match info.valueRegs with
  | some regs => RegisterContext.setValueRegs regs fates context registers
  | none => context.setPrimordialRegister registers reg info (fates.head?.getD .dropped)

theorem sendRegister_single (single : context.readAllAtOnce = false) (reg : Nat) (info : RegisterInfo)
    (fates : List Remote.WriteFate) :
    context.sendRegister processStopID registers reg info fates =
      let sent := context.sendTargets registers reg info fates
      (sent.1, sent.2.1.invalidateRegs (info.invalidateRegs.getD []), sent.2.2) := by
  refine (if_neg ?_).trans rfl
  rw [single]
  exact Bool.noConfusion

theorem AgreesBut.sendTargets (layout : RegisterLayout)
    (agrees : context.AgreesBut excepted layout.regInfo processStopID registers)
    (single : context.readAllAtOnce = false) {reg : Nat}
    (found : layout.regInfo[reg]? = some info)
    (settled : context.SliceSettled processStopID reg info fates) :
    let sent := context.sendTargets registers reg info fates
    Sent context sent.2.1 registers sent.2.2 ∧
      (∀ index, ¬ context.Sends reg info index → sent.2.2[index]? = registers[index]?) ∧
      (sent.1 = true → info.window.Agree sent.2.2 context.regData) ∧
      (context.stopID = processStopID → sent.2.1.getRegisterIsValid reg = true →
        reg ∈ info.invalidateRegs.getD [] ∨ sent.1 = true) := by
  unfold RegisterContext.sendTargets
  cases slice : info.valueRegs with
  | none =>
    obtain ⟨sent, invalid, outside, agree⟩ := agrees.setPrimordial found (fates.head?.getD .dropped)
    refine ⟨sent, fun index quiet => outside index fun inside => quiet (.inr ?_), agree, ?_⟩
    · rw [slice]
      exact ⟨reg, .head [], info, agrees.layout ▸ found, inside⟩
    · intro _ valid
      rw [invalid] at valid
      cases valid
  | some regs =>
    obtain ⟨sent, outside, agree⟩ := agrees.setValueRegs regs fates
    refine ⟨sent, fun index quiet => outside index ?_, ?_, ?_⟩
    · intro target member targetInfo there inside
      refine quiet (.inr ?_)
      rw [slice]
      exact ⟨target, member, targetInfo, agrees.layout ▸ there, inside⟩
    · intro success index inside
      obtain ⟨target, member, targetInfo, there, within⟩ :=
        layout.covered info (mem_of_getElem? found) regs slice index inside
      exact agree success target member targetInfo there index within
    · intro current valid
      -- A slice whose bit survives the write was sent whole.
      obtain all | stale | invalid | listed | done := settled regs slice
      · rw [single] at all
        cases all
      · exact absurd current stale
      · rw [sent.valid reg valid] at invalid
        cases invalid
      · exact .inl listed
      · refine .inr (setValueRegs_done (fun target member => ?_) done)
        obtain ⟨targetInfo, there, -⟩ :=
          layout.concrete info (mem_of_getElem? found) regs slice target member
        exact ⟨targetInfo, agrees.layout ▸ there⟩

theorem AgreesBut.sendEach (layout : RegisterLayout) {reg : Nat}
    (agrees : context.AgreesBut info.window layout.regInfo processStopID registers)
    (single : context.readAllAtOnce = false) (found : layout.regInfo[reg]? = some info)
    (settled : context.SliceSettled processStopID reg info fates) :
    context.Delivered processStopID registers reg info
      (context.sendRegister processStopID registers reg info fates) := by
  rw [sendRegister_single single]
  obtain ⟨sent, quiet, success, slice⟩ := agrees.sendTargets layout single found settled
  revert sent quiet success slice
  generalize context.sendTargets registers reg info fates = result
  -- From here on only what the packets did matters, not which they were.
  obtain ⟨succeeded, after, written⟩ := result
  intro sent quiet success slice
  obtain ⟨cleared, invalid⟩ := sent_invalidateRegs after written (info.invalidateRegs.getD [])
  have done := sent.trans cleared
  refine ⟨?_, fun index => ?_, success⟩
  · rw [agrees.layout]
    apply (agrees.sent done).agrees
    intro current other otherInfo there valid
    have unlisted : other ∉ info.invalidateRegs.getD [] := by
      intro listed
      rw [invalid other listed] at valid
      cases valid
    by_cases same : other = reg
    · subst same
      cases found.symm.trans there
      right
      rw [done.data]
      obtain listed | succeeded := slice (done.stopID ▸ current) (cleared.valid other valid)
      · exact absurd listed unlisted
      · exact (success succeeded).symm
    · left
      -- A register that shares a byte is listed, and lost its bit.
      by_contra overlap
      exact unlisted (layout.invalidates reg info found other otherInfo there same overlap)
  · by_cases sends : context.Sends reg info index
    · exact (sent.bytes index).imp_right fun copied => ⟨sends, copied⟩
    · exact .inl (quiet index sends)

end RegisterContext

end Lldb.GdbRemote
