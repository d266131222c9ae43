import Lldb.Host.DebugRegistersArm64
import Lldb.Host.HardwareBreakpoints

/-! Requests to all threads: when they leave all of them with a slot, or none. -/

set_option autoImplicit false

namespace Lldb

open Library HardwareBreakpoints List

variable {registers : DebugRegisters}

namespace HardwareBreakpoints.Command

def kind : Command → DebugKind
  | setWatchpoint .. | removeWatchpoint _ => .watchpoint
  | setHardwareBreakpoint .. | removeHardwareBreakpoint _ => .breakpoint

def addr : Command → Nat
  | setWatchpoint addr .. | removeWatchpoint addr | setHardwareBreakpoint addr _ | removeHardwareBreakpoint addr => addr

def Sets : Command → Prop
  | setWatchpoint .. | setHardwareBreakpoint .. => True
  | removeWatchpoint _ | removeHardwareBreakpoint _ => False

def Listed (process : NativeProcess registers) : Command → Prop
  | setWatchpoint addr size watchFlags hardware =>
      process.watchpointList.find? addr = some ⟨addr, size, watchFlags, hardware⟩
  | setHardwareBreakpoint addr size => process.hwBreakpointsMap.find? addr = some ⟨addr, size⟩
  | _ => True

end HardwareBreakpoints.Command

structure AllOrNothing (before : NativeProcess registers) (command : Command) (outcome : Outcome registers) : Prop where
  granted : command.Sets → outcome.status = .ok () →
    (∀ thread ∈ outcome.process.threads, thread.EnabledFor command.kind command.addr) ∧ command.Listed outcome.process
  refused : command.Sets → outcome.status ≠ .ok () → (∀ status ∈ outcome.rollBack, status = .ok ()) →
    outcome.process.threads.map NativeThread.slots = before.threads.map NativeThread.slots ∧
      outcome.process.watchpointList = before.watchpointList ∧
      outcome.process.hwBreakpointsMap = before.hwBreakpointsMap
  removed : ¬ command.Sets → outcome.status = .ok () →
    ∀ thread ∈ outcome.process.threads, ¬ thread.EnabledFor command.kind command.addr
  recorded : ∀ thread ∈ outcome.process.threads, thread.Recorded

/-! ## What a request needs -/

def NativeThread.Takes (thread : NativeThread registers) (kind : DebugKind) (answers : Answers registers)
    (request : DebugRequest) : Prop :=
  thread.ClearsOld kind answers.old request.addr ∧ (thread.granted kind answers request).1.isSome = true

/-- Where the first thread that does not take the slot is, nothing has been lost up to it. -/
def SetSuits (kind : DebugKind) (request : DebugRequest) (environment : Environment registers)
    (threads : List (NativeThread registers)) : Prop :=
  ∀ front thread back, threads = front ++ thread :: back →
    (∀ other ∈ front, other.Takes kind (environment.thread other.tid) request) →
    ¬ thread.Takes kind (environment.thread thread.tid) request →
      (kind = .watchpoint → thread.ClearsOld kind (environment.thread thread.tid).old request.addr ∧
        ∀ other ∈ front, other.GivesBack kind (environment.thread other.tid) request) ∧
      ((∀ other ∈ front, other.GivesBack kind (environment.thread other.tid) request) →
        (∀ other ∈ front, other.recorded kind request.addr = none) ∧ (thread.recorded kind request.addr = none ∨
            ¬ thread.ClearsOld kind (environment.thread thread.tid).old request.addr))

def NativeProcess.Suits (process : NativeProcess registers) (environment : Environment registers) : Command → Prop
  | .setWatchpoint addr size watchFlags hardware =>
      hardware = true → SetSuits .watchpoint ⟨addr, size, watchFlags⟩ environment process.threads
  | .removeWatchpoint addr =>
      ∀ thread ∈ process.threads, thread.ClearsOld .watchpoint (environment.thread thread.tid).old addr
  | .setHardwareBreakpoint addr size =>
      SetSuits .breakpoint ⟨addr, size, 0⟩ environment (process.getHardwareDebugSupportInfo environment).2.threads
  | .removeHardwareBreakpoint addr =>
      (∀ thread ∈ process.threads.getLast?, thread.ClearsOld .breakpoint (environment.thread thread.tid).old addr) →
        ∀ thread ∈ process.threads, thread.ClearsOld .breakpoint (environment.thread thread.tid).old addr

namespace NativeThread

theorem Removal.not_enabled {kind : DebugKind} {answer : registers.Answer} {addr : Nat} {thread : NativeThread registers}
    {result : Status × NativeThread registers} (removal : Removal kind answer addr thread result)
    (before : thread.Recorded) (clears : thread.ClearsOld kind answer addr) : ¬ result.2.EnabledFor kind addr := by
  rintro ⟨index, slot, there, same⟩
  rw [slots, removal.context] at there
  exact address_ne_of_cleared before clears there same

end NativeThread

namespace NativeProcess

open NativeThread

structure SetLoop (kind : DebugKind) (addr : Nat) (threads : List (NativeThread registers))
    (result : Status × List Status × List (NativeThread registers)) : Prop where
  granted : result.1 = .ok () → ∀ thread ∈ result.2.2, thread.EnabledFor kind addr
  refused : result.1 ≠ .ok () → (∀ status ∈ result.2.1, status = .ok ()) → result.2.2.map slots = threads.map slots
  kept : ∀ thread ∈ result.2.2, thread.Recorded ∧ ∃ before ∈ threads, thread.state = before.state

variable {environment : Environment registers} {process : NativeProcess registers}

theorem setAll_loop {kind : DebugKind} {request : DebugRequest}
    {threads : List (NativeThread registers)} {set rollBack : NativeThread registers → Status × NativeThread registers}
    (recorded : ∀ thread ∈ threads, thread.Recorded)
    (setting : ∀ thread ∈ threads, Setting kind (environment.thread thread.tid) request thread (set thread))
    (removal : ∀ thread, Removal kind (environment.thread thread.tid).rollBack request.addr thread (rollBack thread))
    (suits : SetSuits kind request environment threads) :
    SetLoop kind request.addr threads (setAll set rollBack [] threads) := by
  rcases setAll_cases set rollBack [] threads with ⟨all, result⟩ | ⟨front, failing, back, text, split, all, fails, result⟩
  · rw [result]
    refine ⟨fun _ => forall_mem_map.mpr fun thread member => ?_, fun failed => absurd rfl failed,
      forall_mem_map.mpr fun thread member => ?_⟩
    · exact (setting thread member).enabled (all thread member)
    · have clears := ((setting thread member).status.mp (all thread member)).1
      exact ⟨(setting thread member).recorded (recorded thread member) (.inl clears), thread, member,
        (setting thread member).state⟩
  · rw [result, nil_append]
    subst split
    rw [forall_mem_append, forall_mem_cons] at recorded setting
    obtain ⟨frontRecorded, failingRecorded, backRecorded⟩ := recorded
    obtain ⟨frontSetting, failingSetting, -⟩ := setting
    have takes (other : NativeThread registers) (member : other ∈ front) :=
      (frontSetting other member).status.mp (all other member)
    have refuses : ¬ failing.Takes kind (environment.thread failing.tid) request := by
      intro both
      rw [failingSetting.status.mpr both] at fails
      cases fails
    obtain ⟨forWatchpoint, nothingLost⟩ := suits front failing back rfl takes refuses
    have removing (other : NativeThread registers) (member : other ∈ front) :
        Removal kind (environment.thread other.tid).rollBack request.addr (set other).2 (rollBack (set other).2) := by
      have this := removal (set other).2
      rwa [(frontSetting other member).tid] at this
    have rolledBack (other : NativeThread registers) (member : other ∈ front) :=
      (frontSetting other member).rolledBack (all other member) _ (removing other member)
    refine ⟨nofun, fun _ backDone => ?_, ?_⟩
    · rw [map_map, forall_mem_map] at backDone
      have gives (other : NativeThread registers) (member : other ∈ front) :=
        (rolledBack other member).1.mp (backDone other member)
      obtain ⟨unrecorded, failingKept⟩ := nothingLost gives
      rw [map_append, map_append, map_cons, map_map, map_map]
      congr 1
      · refine map_congr_left fun other member => ?_
        have slots := (rolledBack other member).2 (backDone other member)
        rw [cleared_none (unrecorded other member)] at slots
        exact slots
      · congr 1
        rw [failingSetting.refused fun done => by rw [done] at fails; cases fails]
        rcases failingKept with absent | stays
        · rw [cleared_none absent]
          rfl
        · exact slots_cleared_of_failed stays
    · dsimp only
      rw [map_map, forall_mem_append, forall_mem_map, forall_mem_cons]
      refine ⟨fun other member => ⟨?_, other, mem_append_left _ member, ?_⟩, ⟨?_, failing, by simp, failingSetting.state⟩,
        fun other member => ⟨backRecorded other member, other, by simp [member], rfl⟩⟩
      · have held := (frontSetting other member).recorded (frontRecorded other member) (.inl (takes other member).1)
        refine (removing other member).recorded held ?_
        cases kind with
        | watchpoint => exact .inl ((rolledBack other member).1.mpr ((forWatchpoint rfl).2 other member))
        | breakpoint => exact .inr rfl
      · exact (removing other member).state.trans (frontSetting other member).state
      · refine failingSetting.recorded failingRecorded ?_
        cases kind with
        | watchpoint => exact .inl (forWatchpoint rfl).1
        | breakpoint => exact .inr rfl

def Sound (process : NativeProcess registers) : Prop :=
  ∀ thread ∈ process.threads, thread.Recorded ∧ thread.state = .stopped

theorem watchThread_setting {thread : NativeThread registers} (stopped : thread.state = .stopped)
    (environment : Environment registers) (request : DebugRequest) :
    Setting .watchpoint (environment.thread thread.tid) request thread (watchThread environment request true thread) := by
  have setting := setWatchpoint_setting stopped (environment.thread thread.tid) request
  cases result : thread.setWatchpoint (environment.thread thread.tid) request true with
  | mk status next =>
    rw [result] at setting
    cases status with
    | ok _ =>
      rw [watchThread, result]
      exact setting
    | error text =>
      have same : watchThread environment request true thread = (.error "not implemented", next) := by
        rw [watchThread, result]
        rfl
      have refused := setting.refused nofun
      have status : ¬ thread.Takes .watchpoint (environment.thread thread.tid) request := fun both => by
        cases setting.status.mpr both
      rw [same]
      exact ⟨setting.tid, setting.state, iff_of_false nofun status, setting.recorded, nofun, fun _ => refused, nofun⟩

theorem watchLoop (sound : process.Sound) {addr size watchFlags : Nat} {hardware : Bool}
    (suits : process.Suits environment (.setWatchpoint addr size watchFlags hardware)) :
    SetLoop .watchpoint addr process.threads (setAll (watchThread environment ⟨addr, size, watchFlags⟩ hardware)
      (fun thread => thread.removeWatchpoint (environment.thread thread.tid).rollBack addr) [] process.threads) := by
  cases hardware with
  | true =>
    exact setAll_loop (fun thread member => (sound thread member).1)
      (fun thread member => watchThread_setting (sound thread member).2 environment ⟨addr, size, watchFlags⟩)
      (fun thread => thread.removeWatchpoint_removal _ addr) (suits rfl)
  | false =>
    cases threads : process.threads with
    | nil => exact ⟨fun _ _ member => absurd member not_mem_nil, fun failed => absurd rfl failed,
        fun _ member => absurd member not_mem_nil⟩
    | cons thread rest =>
      have refused : ¬ (Except.error "not implemented" : Status) = .ok () := by
        intro set
        cases set
      refine ⟨fun set => absurd set refused, fun _ _ => rfl, fun other member => ⟨(sound other ?_).1, other, member, rfl⟩⟩
      rw [threads]
      exact member

theorem SetLoop.sound {kind : DebugKind} {addr : Nat}
    {result : Status × List Status × List (NativeThread registers)} (loop : SetLoop kind addr process.threads result)
    (before : process.Sound) : ∀ thread ∈ result.2.2, thread.Recorded ∧ thread.state = .stopped := by
  intro thread member
  obtain ⟨recorded, other, listed, same⟩ := loop.kept thread member
  exact ⟨recorded, same.trans (before other listed).2⟩

theorem setWatchpoint_allOrNothing (sound : process.Sound) {addr size watchFlags : Nat} {hardware : Bool}
    (suits : process.Suits environment (.setWatchpoint addr size watchFlags hardware)) :
    AllOrNothing process (.setWatchpoint addr size watchFlags hardware)
        (process.setWatchpoint environment addr size watchFlags hardware) ∧
      (process.setWatchpoint environment addr size watchFlags hardware).process.Sound := by
  have loop := watchLoop sound suits
  have after := loop.sound sound
  rw [setWatchpoint]
  generalize setAll (watchThread environment ⟨addr, size, watchFlags⟩ hardware)
    (fun thread => thread.removeWatchpoint (environment.thread thread.tid).rollBack addr) [] process.threads = result
    at loop after ⊢
  obtain ⟨status, rollBack, threads⟩ := result
  cases status with
  | ok _ =>
    refine ⟨⟨fun _ _ => ⟨loop.granted rfl, ?_⟩, fun _ failed => absurd rfl failed, fun other => absurd trivial other,
      fun thread member => (after thread member).1⟩, after⟩
    exact process.watchpointList.find?_insert_self addr _
  | error text =>
    exact ⟨⟨nofun, fun _ _ done => ⟨loop.refused nofun done, rfl, rfl⟩, nofun,
      fun thread member => (after thread member).1⟩, after⟩

theorem getHardwareDebugSupportInfo_keeps (process : NativeProcess registers) (environment : Environment registers) :
    (process.getHardwareDebugSupportInfo environment).2.threads.map slots = process.threads.map slots ∧
      (process.getHardwareDebugSupportInfo environment).2.watchpointList = process.watchpointList ∧
      (process.getHardwareDebugSupportInfo environment).2.hwBreakpointsMap = process.hwBreakpointsMap ∧
      (process.Sound → (process.getHardwareDebugSupportInfo environment).2.Sound) := by
  rw [getHardwareDebugSupportInfo]
  cases threads : process.threads with
  | nil => exact ⟨congrArg (map slots) threads, rfl, rfl, id⟩
  | cons thread rest =>
    have first := registers.numSupported_keeps .breakpoint environment.breakpoints thread.context
    have second := registers.numSupported_keeps .watchpoint environment.watchpoints
      (registers.numSupported .breakpoint environment.breakpoints thread.context).2
    have same := second.trans first
    refine ⟨congrArg (· :: rest.map slots) same, rfl, rfl, fun sound other member => ?_⟩
    rw [Sound, threads, forall_mem_cons] at sound
    rcases mem_cons.mp member with rfl | later
    · refine ⟨fun kind index slot there => ?_, sound.1.2⟩
      exact sound.1.1 kind index slot ((congrFun same _).symm.trans there)
    · exact sound.2 other later

variable (sound : process.Sound)
include sound

theorem setHardwareBreakpoint_allOrNothing {addr size : Nat}
    (suits : process.Suits environment (.setHardwareBreakpoint addr size)) :
    AllOrNothing process (.setHardwareBreakpoint addr size) (process.setHardwareBreakpoint environment addr size) ∧
      (process.setHardwareBreakpoint environment addr size).process.Sound := by
  obtain ⟨sameSlots, sameWatchpoints, sameBreakpoints, keepsSound⟩ :=
    process.getHardwareDebugSupportInfo_keeps environment
  have asked := keepsSound sound
  rw [NativeProcess.Suits] at suits
  rw [setHardwareBreakpoint]
  generalize process.getHardwareDebugSupportInfo environment = query
    at sameSlots sameWatchpoints sameBreakpoints asked suits ⊢
  obtain ⟨support, next⟩ := query
  dsimp only at sameSlots sameWatchpoints sameBreakpoints asked suits ⊢
  split_ifs with unsupported
  · exact ⟨⟨nofun, fun _ _ _ => ⟨sameSlots, sameWatchpoints, sameBreakpoints⟩, nofun,
      fun thread member => (asked thread member).1⟩, asked⟩
  · have loop := setAll_loop (fun thread member => (asked thread member).1)
      (fun thread member => setHardwareBreakpoint_setting (asked thread member).2 (environment.thread thread.tid) _)
      (fun thread => thread.removeHardwareBreakpoint_removal _ addr) suits
    have after := loop.sound asked
    generalize setAll (fun thread => thread.setHardwareBreakpoint (environment.thread thread.tid) ⟨addr, size, 0⟩)
      (fun thread => thread.removeHardwareBreakpoint (environment.thread thread.tid).rollBack addr) [] next.threads =
        result at loop after ⊢
    obtain ⟨status, rollBack, threads⟩ := result
    cases status with
    | ok _ =>
      refine ⟨⟨fun _ _ => ⟨loop.granted rfl, ?_⟩, fun _ failed => absurd rfl failed, fun other => absurd trivial other,
        fun thread member => (after thread member).1⟩, after⟩
      exact next.hwBreakpointsMap.find?_insert_self addr _
    | error text =>
      exact ⟨⟨nofun, fun _ _ done => ⟨(loop.refused nofun done).trans sameSlots, sameWatchpoints, sameBreakpoints⟩, nofun,
        fun thread member => (after thread member).1⟩, after⟩

theorem removeWatchpoint_allOrNothing {addr : Nat} (suits : process.Suits environment (.removeWatchpoint addr)) :
    AllOrNothing process (.removeWatchpoint addr) (process.removeWatchpoint environment addr) ∧
      (process.removeWatchpoint environment addr).process.Sound := by
  have removal (thread : NativeThread registers) :=
    thread.removeWatchpoint_removal (environment.thread thread.tid).old addr
  have after : (process.removeWatchpoint environment addr).process.Sound := by
    rw [Sound, removeWatchpoint, map_map, forall_mem_map]
    intro thread member
    obtain ⟨recorded, stopped⟩ := sound thread member
    have done := (removal thread).status.mpr (suits thread member)
    exact ⟨(removal thread).recorded recorded (.inl done), (removal thread).state.trans stopped⟩
  refine ⟨⟨nofun, nofun, fun _ _ => ?_, fun thread member => (after thread member).1⟩, after⟩
  rw [removeWatchpoint, map_map, forall_mem_map]
  intro thread member
  exact (removal thread).not_enabled (sound thread member).1 (suits thread member)

theorem removeHardwareBreakpoint_allOrNothing {addr : Nat}
    (suits : process.Suits environment (.removeHardwareBreakpoint addr)) :
    AllOrNothing process (.removeHardwareBreakpoint addr) (process.removeHardwareBreakpoint environment addr) ∧
      (process.removeHardwareBreakpoint environment addr).process.Sound := by
  have removal (thread : NativeThread registers) :=
    thread.removeHardwareBreakpoint_removal (environment.thread thread.tid).old addr
  have after : (process.removeHardwareBreakpoint environment addr).process.Sound := by
    rw [Sound, removeHardwareBreakpoint, map_map, forall_mem_map]
    intro thread member
    obtain ⟨recorded, stopped⟩ := sound thread member
    exact ⟨(removal thread).recorded recorded (.inr rfl), (removal thread).state.trans stopped⟩
  refine ⟨⟨nofun, nofun, fun _ success => ?_, fun thread member => (after thread member).1⟩, after⟩
  -- The status is that of the last thread.
  have clears := suits fun last member => by
    rw [removeHardwareBreakpoint] at success
    rw [lastError_eq, getLast?_map, Option.mem_def.mp member] at success
    exact (removal last).status.mp success
  rw [removeHardwareBreakpoint, map_map, forall_mem_map]
  intro thread member
  exact (removal thread).not_enabled (sound thread member).1 (clears thread member)

theorem execute_allOrNothing {command : Command} (suits : process.Suits environment command) :
    AllOrNothing process command (process.execute environment command) ∧
      (process.execute environment command).process.Sound := by
  cases command with
  | setWatchpoint addr size watchFlags hardware => exact setWatchpoint_allOrNothing sound suits
  | removeWatchpoint addr => exact removeWatchpoint_allOrNothing sound suits
  | setHardwareBreakpoint addr size => exact setHardwareBreakpoint_allOrNothing sound suits
  | removeHardwareBreakpoint addr => exact removeHardwareBreakpoint_allOrNothing sound suits

omit sound

def Throughout (holds : NativeProcess registers → Environment registers → Command → Prop)
    (process : NativeProcess registers) : List (Environment registers × Command) → Prop
  | [] => True
  | (environment, command) :: rest =>
      holds process environment command ∧ Throughout holds (process.execute environment command).process rest

def oneThread : NativeProcess arm64 :=
  ⟨[⟨1, .stopped, ⟨fun _ _ => ⟨0, 0, 0⟩, fun _ => 16, true⟩, fun _ => .empty⟩], .empty, .empty⟩

def calm : Environment arm64 :=
  ⟨⟨some 4, some 4, true⟩, ⟨some 4, some 4, true⟩,
    fun _ => ⟨⟨some 4, some 4, true⟩, ⟨some 4, some 4, true⟩, ⟨some 4, some 4, true⟩⟩⟩

theorem oneThread_sound : oneThread.Sound := by
  intro thread member
  cases mem_singleton.mp member
  refine ⟨fun kind index slot there => ?_, rfl⟩
  have off : ¬ DREG.enabled ⟨0, 0, 0⟩ = true := by decide
  cases there.symm.trans (if_neg off)

end NativeProcess

end Lldb
