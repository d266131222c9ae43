import Lldb.Host.DebugRegisters

/-! Hardware watchpoints and breakpoints of a `NativeProcessProtocol`: one request to all the threads. -/

set_option autoImplicit false

namespace Lldb

open Library HardwareBreakpoints List

structure NativeWatchpoint where
  addr : Nat
  size : Nat
  watchFlags : Nat
  hardware : Bool
  deriving DecidableEq, Repr

structure HardwareBreakpoint where
  addr : Nat
  size : Nat
  deriving DecidableEq, Repr

structure NativeProcess (registers : DebugRegisters) where
  threads : List (NativeThread registers)
  watchpointList : OrderedMap Nat NativeWatchpoint
  hwBreakpointsMap : OrderedMap Nat HardwareBreakpoint

/-- What is answered during a request to the process: to the two queries of its first thread's registers, and
for each thread. -/
structure Environment (registers : DebugRegisters) where
  breakpoints : registers.Answer
  watchpoints : registers.Answer
  thread : Nat → Answers registers

/-- The status of a request, and those of its roll-back, which are logged. -/
structure Outcome (registers : DebugRegisters) where
  status : Status
  rollBack : List Status
  process : NativeProcess registers

namespace NativeProcess

variable {registers : DebugRegisters}

/-- The loop over the threads; those before the one that fails are rolled back. -/
def setAll (set rollBack : NativeThread registers → Status × NativeThread registers)
    (established : List (NativeThread registers)) :
    List (NativeThread registers) → Status × List Status × List (NativeThread registers)
  | [] => (.ok (), [], established)
  | thread :: rest =>
      match set thread with
      | (.ok (), thread) => setAll set rollBack (established ++ [thread]) rest
      | (.error text, thread) =>
          (.error text, established.map fun other => (rollBack other).1,
            (established.map fun other => (rollBack other).2) ++ thread :: rest)

/-- The turn for one thread in `SetWatchpoint`, with the second attempt. -/
def watchThread (environment : Environment registers) (request : DebugRequest) (hardware : Bool)
    (thread : NativeThread registers) : Status × NativeThread registers :=
  match thread.setWatchpoint (environment.thread thread.tid) request hardware with
  | (.error text, thread) =>
      if hardware then thread.setWatchpoint (environment.thread thread.tid) request false else (.error text, thread)
  | (.ok (), thread) => (.ok (), thread)

def setWatchpoint (process : NativeProcess registers) (environment : Environment registers)
    (addr size watchFlags : Nat) (hardware : Bool) : Outcome registers :=
  let (status, rollBack, threads) := setAll (watchThread environment ⟨addr, size, watchFlags⟩ hardware)
    (fun thread => thread.removeWatchpoint (environment.thread thread.tid).rollBack addr) [] process.threads
  match status with
  | .error text => ⟨.error text, rollBack, { process with threads }⟩
  | .ok () =>
      ⟨.ok (), rollBack, { process with
        threads, watchpointList := process.watchpointList.insert addr ⟨addr, size, watchFlags, hardware⟩ }⟩

def removeWatchpoint (process : NativeProcess registers) (environment : Environment registers) (addr : Nat) :
    Outcome registers :=
  let results := process.threads.map fun thread =>
    thread.removeWatchpoint (environment.thread thread.tid).old addr
  let overallError := results.foldl (fun overall result => match overall with
    | .error text => .error text
    | .ok () => result.1) (.ok ())
  ⟨overallError, [], { process with
    threads := results.map Prod.snd, watchpointList := process.watchpointList.erase addr }⟩

def getHardwareDebugSupportInfo (process : NativeProcess registers) (environment : Environment registers) :
    Option (Nat × Nat) × NativeProcess registers :=
  match process.threads with
  | [] => (none, process)
  | thread :: rest =>
      let (breakpoints, context) := registers.numSupported .breakpoint environment.breakpoints thread.context
      let (watchpoints, context) := registers.numSupported .watchpoint environment.watchpoints context
      (some (breakpoints, watchpoints), { process with threads := { thread with context } :: rest })

def setHardwareBreakpoint (process : NativeProcess registers) (environment : Environment registers)
    (addr size : Nat) : Outcome registers :=
  let (support, process) := process.getHardwareDebugSupportInfo environment
  if support.all fun support => support.1 = 0 || support.1 ≤ process.hwBreakpointsMap.entries.length then
    ⟨.error "Target does not have required no of hardware breakpoints", [], process⟩
  else
    let (status, rollBack, threads) := setAll
      (fun thread => thread.setHardwareBreakpoint (environment.thread thread.tid) ⟨addr, size, 0⟩)
      (fun thread => thread.removeHardwareBreakpoint (environment.thread thread.tid).rollBack addr) [] process.threads
    match status with
    | .error text => ⟨.error text, rollBack, { process with threads }⟩
    | .ok () =>
        ⟨.ok (), rollBack, { process with
          threads, hwBreakpointsMap := process.hwBreakpointsMap.insert addr ⟨addr, size⟩ }⟩

def removeHardwareBreakpoint (process : NativeProcess registers) (environment : Environment registers) (addr : Nat) :
    Outcome registers :=
  let results := process.threads.map fun thread =>
    thread.removeHardwareBreakpoint (environment.thread thread.tid).old addr
  let error := results.foldl (fun _ result => result.1) (.ok ())
  ⟨error, [], { process with
    threads := results.map Prod.snd, hwBreakpointsMap := process.hwBreakpointsMap.erase addr }⟩

end NativeProcess

namespace HardwareBreakpoints

inductive Command where
  | setWatchpoint (addr size watchFlags : Nat) (hardware : Bool)
  | removeWatchpoint (addr : Nat)
  | setHardwareBreakpoint (addr size : Nat)
  | removeHardwareBreakpoint (addr : Nat)
  deriving DecidableEq, Repr

end HardwareBreakpoints

namespace NativeProcess

variable {registers : DebugRegisters}

def execute (process : NativeProcess registers) (environment : Environment registers) : Command → Outcome registers
  | .setWatchpoint addr size watchFlags hardware => process.setWatchpoint environment addr size watchFlags hardware
  | .removeWatchpoint addr => process.removeWatchpoint environment addr
  | .setHardwareBreakpoint addr size => process.setHardwareBreakpoint environment addr size
  | .removeHardwareBreakpoint addr => process.removeHardwareBreakpoint environment addr

/-! ## The loops -/

/-- All threads take the slot, or the first that does not ends the loop. -/
theorem setAll_cases (set rollBack : NativeThread registers → Status × NativeThread registers)
    (established threads : List (NativeThread registers)) :
    (∀ thread ∈ threads, (set thread).1 = .ok ()) ∧
        setAll set rollBack established threads = (.ok (), [], established ++ threads.map fun thread => (set thread).2) ∨
      ∃ front thread back text, threads = front ++ thread :: back ∧ (∀ other ∈ front, (set other).1 = .ok ()) ∧
        (set thread).1 = .error text ∧ setAll set rollBack established threads = (.error text,
          (established ++ front.map fun other => (set other).2).map fun other => (rollBack other).1,
          ((established ++ front.map fun other => (set other).2).map fun other => (rollBack other).2) ++
            (set thread).2 :: back) := by
  induction threads generalizing established with
  | nil => exact .inl ⟨fun _ member => absurd member not_mem_nil, by rw [map_nil, append_nil]; rfl⟩
  | cons thread rest ih =>
    cases status : (set thread).1 with
    | error text =>
      have pair : set thread = (.error text, (set thread).2) := by rw [← status]
      refine .inr ⟨[], thread, rest, text, rfl, fun _ member => absurd member not_mem_nil, status, ?_⟩
      rw [setAll, pair, map_nil, append_nil]
    | ok _ =>
      have pair : set thread = (.ok (), (set thread).2) := by rw [← status]
      have step : setAll set rollBack established (thread :: rest) =
          setAll set rollBack (established ++ [(set thread).2]) rest := by
        rw [setAll, pair]
      rw [step]
      rcases ih (established ++ [(set thread).2]) with ⟨all, result⟩ | ⟨front, failing, back, text, split, all, fails, result⟩
      · refine .inl ⟨forall_mem_cons.mpr ⟨status, all⟩, ?_⟩
        simp [result]
      · refine .inr ⟨thread :: front, failing, back, text, by rw [split, cons_append],
          forall_mem_cons.mpr ⟨status, all⟩, fails, ?_⟩
        simp [result]

theorem lastError_eq (results : List (Status × NativeThread registers)) (error : Status) :
    results.foldl (fun _ result => result.1) error = (results.getLast?.map Prod.fst).getD error := by
  induction results generalizing error with
  | nil => rfl
  | cons result rest ih =>
    rw [foldl_cons, ih, getLast?_cons]
    cases rest.getLast? <;> rfl

end NativeProcess

end Lldb
