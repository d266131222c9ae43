import Lldb.GdbRemote.RegisterWrites

/-! Runs of reads and writes of registers, with stops of the process in between. -/

set_option autoImplicit false

namespace Lldb.GdbRemote

open Library (Window)
open RegisterContext List

/-- A register context, the registers of its remote, and the stop ID of the process. -/
structure RegisterSession where
  context : RegisterContext
  registers : Bytes
  processStopID : Nat

inductive RegisterAction where
  | read (reg : Nat) (fates : List (Option Nat))
  | write (reg : Nat) (data : Bytes) (swap locked : Bool) (fates : List Remote.WriteFate)
  /-- `PrivateSetRegisterValue` with so many bytes of what the remote holds. -/
  | set (reg count : Nat)
  | setWord (reg : Nat) (word : Bytes) (swap : Bool)
  /-- The process runs and stops again. -/
  | stop (registers : Bytes)

namespace RegisterSession

variable {session : RegisterSession}

def read (session : RegisterSession) (reg : Nat) (fates : List (Option Nat)) : Option Bytes × RegisterContext :=
  session.context.readRegister session.processStopID session.registers reg fates

def write (session : RegisterSession) (reg : Nat) (data : Bytes) (swap locked : Bool)
    (fates : List Remote.WriteFate) : Bool × RegisterContext × Bytes :=
  session.context.writeRegisterBytes session.processStopID session.registers reg data swap locked fates

def perform (session : RegisterSession) : RegisterAction → RegisterSession
  | .read reg fates => { session with context := (session.read reg fates).2 }
  | .write reg data swap locked fates =>
      let (_, context, registers) := session.write reg data swap locked fates
      { session with context, registers }
  | .set reg count =>
      let data := ((session.context.regInfo[reg]?.map fun info =>
        info.window.read session.registers).getD []).take count
      { session with
        context := (session.context.privateSetRegisterValue session.processStopID reg data).2 }
  | .setWord reg word swap =>
      { session with
        context := (session.context.privateSetRegisterValueWord session.processStopID reg word swap).2 }
  | .stop registers => { session with registers, processStopID := session.processStopID + 1 }

/-- A word is the value that the remote holds, and the remote keeps its set of registers. -/
def Allowed (session : RegisterSession) : RegisterAction → Prop
  | .setWord reg word swap => ∀ info, session.context.regInfo[reg]? = some info →
      ∀ data, copyByteOrderedData word swap info.byteSize = some data → data = info.window.read session.registers
  | .stop registers => registers.length = session.registers.length
  | _ => True

/-- The register's bytes in the buffer are valid and not from an earlier stop. -/
def Current (session : RegisterSession) (reg : Nat) : Prop :=
  session.context.stopID = session.processStopID ∧ session.context.getRegisterIsValid reg = true

def Cached (session : RegisterSession) (index : Nat) : Prop :=
  ∃ reg, session.Current reg ∧ ∃ info, session.context.regInfo[reg]? = some info ∧ index ∈ info.window

/-- A byte that a write of the register must leave alone: another register has it that does
not overlap the register or that contains it. -/
def Protected (regInfo : List RegisterInfo) (info : RegisterInfo) (index : Nat) : Prop :=
  index ∉ info.window ∧ ∃ other ∈ regInfo, index ∈ other.window ∧
    (other.window.Apart info.window ∨ info.window.Within other.window)

/-- The writes that go well: with the lock, the buffer has every byte that is sent along with
the register; without it, the buffer has no byte of the register. -/
def Handled (session : RegisterSession) : RegisterAction → Prop
  | .write reg data swap locked fates => ∀ info, session.context.regInfo[reg]? = some info →
      copyByteOrderedData data swap info.byteSize ≠ none → if locked then
          (∀ index, session.context.Sends reg info index →
            Protected session.context.regInfo info index → session.Cached index) ∧
          session.context.SliceSettled session.processStopID reg info fates
        else ∀ other, session.Current other → ∀ otherInfo,
          session.context.regInfo[other]? = some otherInfo → otherInfo.window.Apart info.window
  | _ => True

/-- The registers after a write hold the data in the register, and elsewhere what they held. -/
def Written (regInfo : List RegisterInfo) (info : RegisterInfo) (bytes before after : Bytes) : Prop :=
  info.window.read after = bytes ∧ ∀ index, Protected regInfo info index → after[index]? = before[index]?

def Step (session next : RegisterSession) : Prop :=
  ∃ action, session.Allowed action ∧ session.Handled action ∧ next = session.perform action

def Coherent (layout : RegisterLayout) (session : RegisterSession) : Prop :=
  session.context.Agrees layout.regInfo session.processStopID session.registers

theorem length_copyByteOrderedData {source bytes : Bytes} {swap : Bool} {length : Nat}
    (copied : copyByteOrderedData source swap length = some bytes) : bytes.length = length := by
  unfold copyByteOrderedData at copied
  split at copied
  · cases copied
  · cases copied
    have taken : (source.take length).length = length := by rw [length_take]; omega
    cases swap with
    | true => rw [if_pos rfl, length_reverse, taken]
    | false => exact taken

section

variable {layout : RegisterLayout}

theorem coherent_new (layout : RegisterLayout) (readAllAtOnce : Bool) (processStopID : Nat) {registers : Bytes}
    (remote : getRegisterDataByteSize layout.regInfo ≤ registers.length) :
    Coherent layout ⟨.new layout.regInfo readAllAtOnce processStopID, registers, processStopID⟩ :=
  agrees_new readAllAtOnce remote

theorem Coherent.read (coherent : session.Coherent layout) (reg : Nat) (fates : List (Option Nat)) :
    (session.perform (.read reg fates)).Coherent layout := by
  have read := (RegisterContext.Agrees.readRegisterBytes layout coherent reg fates).1
  rw [← readRegister_context] at read
  exact read

variable {reg : Nat} {bytes data : Bytes} {swap : Bool} {fates : List Remote.WriteFate}

variable (coherent : session.Coherent layout)
include coherent

theorem Coherent.read_value {fates : List (Option Nat)} (success : (session.read reg fates).1 = some bytes) :
    ∃ info, layout.regInfo[reg]? = some info ∧ bytes = info.window.read session.registers := by
  obtain ⟨after, agree⟩ := RegisterContext.Agrees.readRegisterBytes layout coherent reg fates
  unfold RegisterSession.read readRegister at success
  split at success
  · next context got =>
    rw [got] at after agree
    rw [after.layout] at success
    obtain ⟨info, found, taken⟩ := Option.bind_eq_some_iff.mp success
    refine ⟨info, found, ?_⟩
    unfold setValueFromData at taken
    split at taken
    · cases taken
    · cases taken
      exact Window.agree_iff_read.mp (agree rfl info found)
  · cases success

theorem Coherent.set (reg count : Nat) : (session.perform (.set reg count)).Coherent layout := by
  unfold Coherent perform
  dsimp only
  rw [coherent.layout]
  cases found : layout.regInfo[reg]? with
  | none =>
    rw [privateSetRegisterValue, coherent.layout, found]
    exact coherent
  | some info =>
    -- The stop ID is checked inside the function; checking it once before changes nothing.
    have first := (coherent.invalidateIfNeeded.privateSet
      (stopID_invalidateIfNeeded _ _) found count).1.agrees
    rw [privateSetRegisterValue_invalidated (coherent.layout ▸ found)] at first
    exact first

theorem Coherent.setWord {word : Bytes} (allowed : session.Allowed (.setWord reg word swap)) :
    (session.perform (.setWord reg word swap)).Coherent layout := by
  unfold Coherent perform privateSetRegisterValueWord
  dsimp only
  rw [coherent.layout]
  cases found : layout.regInfo[reg]? with
  | none => exact coherent
  | some info =>
    have agrees := coherent.invalidateIfNeeded
    dsimp only
    split
    · exact agrees
    split
    · exact agrees
    · next data copied =>
      have fits := le_getRegisterDataByteSize (mem_of_getElem? found)
      rw [allowed info (coherent.layout ▸ found) data copied]
      have whole := agrees.refresh info.window (info.window.read session.registers).length
      rw [take_length] at whole
      apply whole.validate
      intro other same
      cases found.symm.trans same
      exact Window.agree_overwrite_read (agrees.size ▸ fits) (le_trans fits agrees.remote)

/-- At a new stop nothing is valid any more, although the bits still say so. -/
theorem Coherent.stop {registers : Bytes}
    (allowed : session.Allowed (.stop registers)) : (session.perform (.stop registers)).Coherent layout where
  layout := coherent.layout
  size := coherent.size
  remote := le_trans coherent.remote (le_of_eq (Eq.symm allowed))
  past := Nat.le_succ_of_le coherent.past
  agree := by
    intro current
    have past := coherent.past
    change session.context.stopID = session.processStopID + 1 at current
    omega

theorem Coherent.cached {index : Nat} (cached : session.Cached index) :
    session.context.regData[index]? = session.registers[index]? := by
  obtain ⟨reg, ⟨current, valid⟩, info, found, inside⟩ := cached
  exact coherent.window current (coherent.layout ▸ found) valid index inside

theorem Coherent.delivered {info : RegisterInfo} (found : layout.regInfo[reg]? = some info)
    (copied : copyByteOrderedData data swap info.byteSize = some bytes)
    (settled : session.context.SliceSettled session.processStopID reg info fates) :
    (session.context.setData info.byteOffset bytes).Delivered session.processStopID session.registers reg info
      ((session.context.setData info.byteOffset bytes).sendRegister session.processStopID session.registers
        reg info fates) := by
  have pending := RegisterContext.Agrees.setData coherent (length_copyByteOrderedData copied)
  cases mode : session.context.readAllAtOnce with
  | true => exact pending.sendAll mode reg (mem_of_getElem? found) fates
  | false => exact pending.sendEach layout mode found settled

theorem Coherent.written {info : RegisterInfo} (found : layout.regInfo[reg]? = some info)
    (copied : copyByteOrderedData data swap info.byteSize = some bytes)
    (handled : session.Handled (.write reg data swap true fates)) :
    let result := (session.context.setData info.byteOffset bytes).sendRegister session.processStopID
      session.registers reg info fates
    result.1 = true → Written layout.regInfo info bytes session.registers result.2.2 := by
  intro result success
  have length := length_copyByteOrderedData copied
  have fits := le_getRegisterDataByteSize (mem_of_getElem? found)
  obtain ⟨cached, settled⟩ := handled info (coherent.layout ▸ found) (by rw [copied]; exact nofun)
  have delivered := coherent.delivered found copied settled
  constructor
  · rw [Window.agree_iff_read.mp (delivered.success success)]
    exact Window.read_overwrite info.window length (coherent.size ▸ fits)
  · intro index guarded
    obtain same | ⟨sends, sent⟩ := delivered.bytes index
    · exact same
    · apply sent.trans
      -- the byte was sent from the buffer, which had it from the remote
      have outside : index ∉ (⟨info.byteOffset, bytes.length⟩ : Window) := length ▸ guarded.1
      rw [setData, Window.getElem?_overwrite_outside outside]
      exact coherent.cached (cached index sends (coherent.layout ▸ guarded))

theorem Coherent.write {locked : Bool} (handled : session.Handled (.write reg data swap locked fates)) :
    (session.perform (.write reg data swap locked fates)).Coherent layout ∧
      ((session.write reg data swap locked fates).1 = true → ∃ info bytes,
        layout.regInfo[reg]? = some info ∧ copyByteOrderedData data swap info.byteSize = some bytes ∧
          Written layout.regInfo info bytes session.registers (session.write reg data swap locked fates).2.2) := by
  unfold Coherent perform RegisterSession.write writeRegisterBytes
  dsimp only
  rw [coherent.layout]
  cases found : layout.regInfo[reg]? with
  | none => exact ⟨coherent, nofun⟩
  | some info =>
    dsimp only
    split
    · exact ⟨coherent, nofun⟩
    cases copied : copyByteOrderedData data swap info.byteSize with
    | none => exact ⟨coherent, nofun⟩
    | some bytes =>
      have given := handled info (coherent.layout ▸ found) (by rw [copied]; exact nofun)
      cases locked with
      | true =>
        exact ⟨coherent.layout ▸ (coherent.delivered found copied given.2).agrees,
          fun success => ⟨info, bytes, rfl, copied, coherent.written found copied handled success⟩⟩
      | false =>
        have pending := RegisterContext.Agrees.setData coherent (length_copyByteOrderedData copied)
        -- Nothing is sent, so the new bytes must lie where no valid register does.
        refine ⟨pending.agrees fun current other otherInfo there valid => .inl ?_, nofun⟩
        exact given other ⟨current, valid⟩ otherInfo (coherent.layout ▸ there)

omit coherent

theorem Coherent.step {next : RegisterSession} (coherent : session.Coherent layout)
    (step : session.Step next) : next.Coherent layout := by
  obtain ⟨action, allowed, handled, rfl⟩ := step
  cases action with
  | read reg fates => exact coherent.read reg fates
  | write reg data swap locked fates => exact (coherent.write handled).1
  | set reg count => exact coherent.set reg count
  | setWord reg word swap => exact coherent.setWord allowed
  | stop registers => exact coherent.stop allowed

theorem run_coherent {last : RegisterSession} (coherent : session.Coherent layout)
    (run : Relation.ReflTransGen Step session last) : last.Coherent layout := by
  induction run with
  | refl => exact coherent
  | tail _ step ih => exact ih.step step

/-- In every run of handled actions a read returns what the remote holds, and a write that
succeeds writes the register and nothing else. -/
theorem reads_and_writes_coherent {readAllAtOnce : Bool} {processStopID : Nat} {registers : Bytes}
    (remote : getRegisterDataByteSize layout.regInfo ≤ registers.length)
    (run : Relation.ReflTransGen Step
      ⟨.new layout.regInfo readAllAtOnce processStopID, registers, processStopID⟩ session) :
    (∀ reg fates bytes, (session.read reg fates).1 = some bytes →
      ∃ info, layout.regInfo[reg]? = some info ∧ bytes = info.window.read session.registers) ∧
    (∀ reg data swap locked fates, session.Handled (.write reg data swap locked fates) →
      (session.write reg data swap locked fates).1 = true → ∃ info bytes,
        layout.regInfo[reg]? = some info ∧ copyByteOrderedData data swap info.byteSize = some bytes ∧
          Written layout.regInfo info bytes session.registers
            (session.write reg data swap locked fates).2.2) := by
  have coherent := run_coherent (coherent_new layout readAllAtOnce processStopID remote) run
  exact ⟨fun reg fates bytes success => coherent.read_value success,
    fun reg data swap locked fates handled => (coherent.write handled).2⟩

end

def lowByteLayout : RegisterLayout where
  regInfo := [⟨"ax", 0, 2, none, some [1]⟩, ⟨"al", 0, 1, some [0], some [0]⟩]
  concrete := by simp
  covered := by
    simp only [forall_mem_cons, reduceCtorEq, false_implies, implies_true, Option.some.injEq, true_and]
    refine ⟨?_, nofun⟩
    rintro _ rfl index inside
    refine ⟨0, .head [], _, rfl, ?_⟩
    have below : 0 ≤ index ∧ index < 0 + 1 := inside
    change 0 ≤ index ∧ index < 0 + 2
    omega
  invalidates := by
    intro reg info found other otherInfo there ne _
    match reg, other with
    | 0, 0 | 1, 1 => exact absurd rfl ne
    | 0, 1 => cases found; exact .head []
    | 1, 0 => cases found; exact .head []
    | 0, other + 2 | 1, other + 2 => cases there
    | reg + 2, _ => cases found

/-- Nothing is read yet; the register holds `0x0201`. -/
def unread (readAllAtOnce : Bool) : RegisterSession :=
  ⟨.new lowByteLayout.regInfo readAllAtOnce 1, [1, 2], 1⟩

theorem reads_and_writes_coherent_low_byte : let session := (unread false).perform (.read 0 [some 2])
    (∃ info, lowByteLayout.regInfo[0]? = some info ∧ [1, 2] = info.window.read session.registers) ∧
      ∃ info bytes, lowByteLayout.regInfo[1]? = some info ∧ copyByteOrderedData [9] false info.byteSize = some bytes ∧
          Written lowByteLayout.regInfo info bytes [1, 2] [9, 2] := by
  intro session
  have run : Relation.ReflTransGen Step (unread false) session :=
    .single ⟨.read 0 [some 2], trivial, trivial, rfl⟩
  have long : getRegisterDataByteSize lowByteLayout.regInfo ≤ (unread false).registers.length := by decide
  obtain ⟨reads, writes⟩ := reads_and_writes_coherent long run
  refine ⟨reads 0 [] [1, 2] rfl, writes 1 [9] false true [.done] ?_ rfl⟩
  intro info found _
  cases found
  refine ⟨?_, fun regs slice => .inr (.inr (.inl rfl))⟩
  intro index sends _
  obtain all | ⟨target, member, targetInfo, there, inside⟩ := sends
  · cases all
  · cases mem_singleton.mp member
    exact ⟨0, ⟨rfl, rfl⟩, targetInfo, there, inside⟩

/-- A write that does not get the lock leaves its data in the buffer as if it had been read.
A write to the low byte sends the high byte along, zero if it was never read, in both modes. -/
theorem not_always_coherent : (¬ ∀ session : RegisterSession, Relation.ReflTransGen (fun session next =>
          ∃ action, session.Allowed action ∧ next = session.perform action) (unread false) session →
        ∀ reg fates bytes, (session.read reg fates).1 = some bytes →
          ∃ info, lowByteLayout.regInfo[reg]? = some info ∧ bytes = info.window.read session.registers) ∧
    ∀ readAllAtOnce, ¬ ∀ reg data swap locked fates,
      ((unread readAllAtOnce).write reg data swap locked fates).1 = true → ∃ info bytes,
        lowByteLayout.regInfo[reg]? = some info ∧ copyByteOrderedData data swap info.byteSize = some bytes ∧
          Written lowByteLayout.regInfo info bytes (unread readAllAtOnce).registers
            ((unread readAllAtOnce).write reg data swap locked fates).2.2 := by
  constructor
  · intro always
    have read := always _ (.tail (.single ⟨.read 0 [some 2], trivial, rfl⟩)
      ⟨.write 0 [7, 7] false false [], trivial, rfl⟩) 0 [] [7, 7] rfl
    obtain ⟨info, found, same⟩ := read
    cases found
    exact absurd same (by decide)
  · intro readAllAtOnce always
    have high : Protected lowByteLayout.regInfo ⟨"al", 0, 1, some [0], some [0]⟩ 1 :=
      ⟨by decide, _, .head _, by decide, .inr (by decide)⟩
    cases readAllAtOnce with
    | true =>
      obtain ⟨info, bytes, found, -, written⟩ := always 1 [9] false true [.done] rfl
      cases found
      exact absurd (written.2 1 high) (by decide)
    | false =>
      obtain ⟨info, bytes, found, -, written⟩ := always 1 [9] false true [.done] rfl
      cases found
      exact absurd (written.2 1 high) (by decide)

end RegisterSession

end Lldb.GdbRemote
