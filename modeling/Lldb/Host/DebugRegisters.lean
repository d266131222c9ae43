import Lldb.Library.OrderedMap

/-! Debug registers of a thread's register context, and the hardware watchpoints and breakpoints of a
`NativeThreadLinux` in them.

What the system answers to a call is an input to it, so any call may be refused or fail.
-/

set_option autoImplicit false

namespace Lldb

open Library

inductive DebugKind where
  | watchpoint
  | breakpoint
  deriving DecidableEq, Repr

structure DebugRequest where
  addr : Nat
  size : Nat
  watchFlags : Nat
  deriving DecidableEq, Repr

/-- A kind of register context: a slot is empty, or it is enabled for an address. -/
structure DebugRegisters where
  Context : Type
  Answer : Type
  Slot : Type
  address : Slot → Nat
  slots : Context → DebugKind × Nat → Option Slot
  /-- `SetHardwareWatchpoint` and `SetHardwareBreakpoint`, with `none` for the invalid index. -/
  set : DebugKind → Answer → Context → DebugRequest → Option Nat × Context
  /-- `ClearHardwareWatchpoint` and `ClearHardwareBreakpoint`. -/
  clear : DebugKind → Answer → Context → Nat → Bool × Context
  /-- `NumSupportedHardwareBreakpoints` and `NumSupportedHardwareWatchpoints`. -/
  numSupported : DebugKind → Answer → Context → Nat × Context
  set_refused : ∀ kind answer context request, (set kind answer context request).1 = none →
    slots (set kind answer context request).2 = slots context
  set_granted : ∀ kind answer context request index, (set kind answer context request).1 = some index →
    slots context (kind, index) = none ∧ ∃ slot, address slot = request.addr ∧
      slots (set kind answer context request).2 = Function.update (slots context) (kind, index) (some slot)
  clear_failed : ∀ kind answer context index, (clear kind answer context index).1 = false →
    slots (clear kind answer context index).2 = slots context
  clear_done : ∀ kind answer context index, (clear kind answer context index).1 = true →
    slots (clear kind answer context index).2 = Function.update (slots context) (kind, index) none
  numSupported_keeps : ∀ kind answer context, slots (numSupported kind answer context).2 = slots context

namespace HardwareBreakpoints

abbrev Status := Except String Unit

inductive StateType where
  | invalid
  | unloaded
  | connected
  | attaching
  | launching
  | stopped
  | running
  | stepping
  | crashed
  | detached
  | exited
  | suspended
  deriving DecidableEq, Repr

end HardwareBreakpoints

open HardwareBreakpoints

/-- The index maps are `m_watchpoint_index_map` and `m_hw_break_index_map`. -/
structure NativeThread (registers : DebugRegisters) where
  tid : Nat
  state : StateType
  context : registers.Context
  indexMap : DebugKind → OrderedMap Nat Nat

/-- What is answered while a thread sets a slot: to the clear of an old slot for the address, to the set, and
to the clear of the new slot in a roll-back. -/
structure Answers (registers : DebugRegisters) where
  old : registers.Answer
  set : registers.Answer
  rollBack : registers.Answer

namespace NativeThread

variable {registers : DebugRegisters}

def withMap (thread : NativeThread registers) (kind : DebugKind) (map : OrderedMap Nat Nat) : NativeThread registers :=
  { thread with indexMap := Function.update thread.indexMap kind map }

def removeWatchpoint (thread : NativeThread registers) (answer : registers.Answer) (addr : Nat) :
    Status × NativeThread registers :=
  match (thread.indexMap .watchpoint).find? addr with
  | none => (.ok (), thread)
  | some wpIndex =>
      let thread := thread.withMap .watchpoint ((thread.indexMap .watchpoint).erase addr)
      let (cleared, context) := registers.clear .watchpoint answer thread.context wpIndex
      if cleared then (.ok (), { thread with context })
      else (.error "Clearing hardware watchpoint failed.", { thread with context })

def removeHardwareBreakpoint (thread : NativeThread registers) (answer : registers.Answer) (addr : Nat) :
    Status × NativeThread registers :=
  match (thread.indexMap .breakpoint).find? addr with
  | none => (.ok (), thread)
  | some bpIndex =>
      let (cleared, context) := registers.clear .breakpoint answer thread.context bpIndex
      let thread := { thread with context }
      if cleared then (.ok (), thread.withMap .breakpoint ((thread.indexMap .breakpoint).erase addr))
      else (.error "Clearing hardware breakpoint failed.", thread)

def establish (kind : DebugKind) (failed : String) (answer : registers.Answer) (request : DebugRequest)
    (removed : Status × NativeThread registers) : Status × NativeThread registers :=
  let (error, thread) := removed
  match error with
  | .error _ => (error, thread)
  | .ok () =>
      match registers.set kind answer thread.context request with
      | (none, context) => (.error failed, { thread with context })
      | (some index, context) =>
          (.ok (), { thread with context }.withMap kind ((thread.indexMap kind).insertNew request.addr index))

def setWatchpoint (thread : NativeThread registers) (answers : Answers registers) (request : DebugRequest)
    (hardware : Bool) : Status × NativeThread registers :=
  if ¬ hardware then (.error "not implemented", thread)
  else if thread.state = .launching then (.ok (), thread)
  else
    establish .watchpoint "Setting hardware watchpoint failed." answers.set request
      (thread.removeWatchpoint answers.old request.addr)

def setHardwareBreakpoint (thread : NativeThread registers) (answers : Answers registers) (request : DebugRequest) :
    Status × NativeThread registers :=
  if thread.state = .launching then (.ok (), thread)
  else
    establish .breakpoint "Setting hardware breakpoint failed." answers.set request
      (thread.removeHardwareBreakpoint answers.old request.addr)

def slots (thread : NativeThread registers) : DebugKind × Nat → Option registers.Slot :=
  registers.slots thread.context

def recorded (thread : NativeThread registers) (kind : DebugKind) (addr : Nat) : Option Nat :=
  (thread.indexMap kind).find? addr

def EnabledFor (thread : NativeThread registers) (kind : DebugKind) (addr : Nat) : Prop :=
  ∃ index slot, thread.slots (kind, index) = some slot ∧ registers.address slot = addr

def Recorded (thread : NativeThread registers) : Prop :=
  ∀ kind index slot, thread.slots (kind, index) = some slot → thread.recorded kind (registers.address slot) = some index

/-! ## What the calls do -/

def ClearsOld (thread : NativeThread registers) (kind : DebugKind) (answer : registers.Answer) (addr : Nat) : Prop :=
  ∀ index, thread.recorded kind addr = some index → (registers.clear kind answer thread.context index).1 = true

def cleared (thread : NativeThread registers) (kind : DebugKind) (answer : registers.Answer) (addr : Nat) :
    registers.Context :=
  match thread.recorded kind addr with
  | none => thread.context
  | some index => (registers.clear kind answer thread.context index).2

def granted (thread : NativeThread registers) (kind : DebugKind) (answers : Answers registers)
    (request : DebugRequest) : Option Nat × registers.Context :=
  registers.set kind answers.set (thread.cleared kind answers.old request.addr) request

def GivesBack (thread : NativeThread registers) (kind : DebugKind) (answers : Answers registers)
    (request : DebugRequest) : Prop :=
  ∀ index, (thread.granted kind answers request).1 = some index →
    (registers.clear kind answers.rollBack (thread.granted kind answers request).2 index).1 = true

structure Removal (kind : DebugKind) (answer : registers.Answer) (addr : Nat) (thread : NativeThread registers)
    (result : Status × NativeThread registers) : Prop where
  tid : result.2.tid = thread.tid
  state : result.2.state = thread.state
  status : result.1 = .ok () ↔ thread.ClearsOld kind answer addr
  context : result.2.context = thread.cleared kind answer addr
  others : ∀ other key, (other, key) ≠ (kind, addr) → result.2.recorded other key = thread.recorded other key
  forgotten : result.1 = .ok () ∨ kind = .watchpoint → result.2.recorded kind addr = none
  kept : result.1 ≠ .ok () → kind = .breakpoint → result.2.recorded kind addr = thread.recorded kind addr

theorem recorded_withMap_of_ne (thread : NativeThread registers) {kind other : DebugKind} (ne : other ≠ kind)
    (map : OrderedMap Nat Nat) (key : Nat) :
    (thread.withMap kind map).recorded other key = thread.recorded other key := by
  rw [recorded, withMap]
  dsimp only
  rw [Function.update_of_ne ne]
  rfl

theorem recorded_withMap_self (thread : NativeThread registers) (kind : DebugKind) (map : OrderedMap Nat Nat)
    (key : Nat) : (thread.withMap kind map).recorded kind key = map.find? key := by
  rw [recorded, withMap]
  dsimp only
  rw [Function.update_self]

/-- A map that is changed at one address leaves what is recorded of all others. -/
theorem recorded_withMap_others {thread : NativeThread registers} {kind : DebugKind} {addr : Nat}
    {map : OrderedMap Nat Nat}
    (same : ∀ key ≠ addr, map.find? key = (thread.indexMap kind).find? key) (other : DebugKind) (key : Nat)
    (ne : (other, key) ≠ (kind, addr)) : (thread.withMap kind map).recorded other key = thread.recorded other key := by
  by_cases equal : other = kind
  · subst equal
    rw [recorded_withMap_self]
    exact same key fun equal => ne (equal ▸ rfl)
  · exact recorded_withMap_of_ne thread equal _ key

theorem recorded_erase (thread : NativeThread registers) (kind : DebugKind) (addr : Nat) :
    (thread.withMap kind ((thread.indexMap kind).erase addr)).recorded kind addr = none ∧
      ∀ other key, (other, key) ≠ (kind, addr) →
        (thread.withMap kind ((thread.indexMap kind).erase addr)).recorded other key = thread.recorded other key := by
  rw [recorded_withMap_self]
  exact ⟨(thread.indexMap kind).find?_erase_self addr,
    recorded_withMap_others fun _ differs => OrderedMap.find?_erase_of_ne _ differs⟩

variable {addr : Nat} {answer : registers.Answer}

theorem cleared_none {thread : NativeThread registers} {kind : DebugKind}
    (absent : thread.recorded kind addr = none) (answer : registers.Answer) :
    thread.cleared kind answer addr = thread.context := by
  rw [cleared, absent]

theorem cleared_some {thread : NativeThread registers} {kind : DebugKind} {index : Nat}
    (there : thread.recorded kind addr = some index) (answer : registers.Answer) :
    thread.cleared kind answer addr = (registers.clear kind answer thread.context index).2 := by
  rw [cleared, there]

theorem clearsOld_none {thread : NativeThread registers} {kind : DebugKind}
    (absent : thread.recorded kind addr = none) (answer : registers.Answer) : thread.ClearsOld kind answer addr := by
  intro index there
  rw [absent] at there
  cases there

theorem clearsOld_some {thread : NativeThread registers} {kind : DebugKind} {addr index : Nat}
    (there : thread.recorded kind addr = some index) (answer : registers.Answer) :
    thread.ClearsOld kind answer addr ↔ (registers.clear kind answer thread.context index).1 = true := by
  refine ⟨fun clears => clears index there, fun done other same => ?_⟩
  cases there.symm.trans same
  exact done

/-- Both removals clear the slot and forget the address; where the slot is not cleared, only a watchpoint is forgotten. -/
theorem removal_of_eq {thread : NativeThread registers} {kind : DebugKind} (text : String)
    {result : Status × NativeThread registers}
    (is : result = match thread.recorded kind addr with
      | none => (.ok (), thread)
      | some index =>
        let (cleared, context) := registers.clear kind answer thread.context index
        let forgets := { thread with context }.withMap kind ((thread.indexMap kind).erase addr)
        if cleared then (.ok (), forgets)
        else (.error text, if kind = .watchpoint then forgets else { thread with context })) :
    Removal kind answer addr thread result := by
  have erase := thread.recorded_erase kind addr
  cases there : thread.recorded kind addr with
  | none =>
    obtain rfl : result = (.ok (), thread) := by rw [is, there]
    exact ⟨rfl, rfl, iff_of_true rfl (clearsOld_none there answer), (cleared_none there answer).symm,
      fun _ _ _ => rfl, fun _ => there, fun _ _ => rfl⟩
  | some index =>
    simp only [there] at is
    cases clears : (registers.clear kind answer thread.context index).1 with
    | true =>
      rw [if_pos clears] at is
      subst is
      exact ⟨rfl, rfl, iff_of_true rfl ((clearsOld_some there answer).mpr clears), (cleared_some there answer).symm,
        erase.2, fun _ => erase.1, fun failed => absurd rfl failed⟩
    | false =>
      have stays : ¬ thread.ClearsOld kind answer addr := by
        rw [clearsOld_some there answer, clears]
        exact Bool.false_ne_true
      rw [if_neg (by rw [clears]; exact Bool.false_ne_true)] at is
      subst is
      cases kind with
      | watchpoint =>
        exact ⟨rfl, rfl, iff_of_false nofun stays, (cleared_some there answer).symm, erase.2, fun _ => erase.1, nofun⟩
      | breakpoint =>
        exact ⟨rfl, rfl, iff_of_false nofun stays, (cleared_some there answer).symm, fun _ _ _ => rfl, nofun,
          fun _ _ => rfl⟩

theorem removeWatchpoint_removal (thread : NativeThread registers) (answer : registers.Answer) (addr : Nat) :
    Removal .watchpoint answer addr thread (thread.removeWatchpoint answer addr) :=
  removal_of_eq "Clearing hardware watchpoint failed." rfl

theorem removeHardwareBreakpoint_removal (thread : NativeThread registers) (answer : registers.Answer) (addr : Nat) :
    Removal .breakpoint answer addr thread (thread.removeHardwareBreakpoint answer addr) := by
  refine removal_of_eq "Clearing hardware breakpoint failed." ?_
  unfold removeHardwareBreakpoint recorded
  split <;> rfl

/-! ## Slots and index maps -/

theorem slots_of_cleared (thread : NativeThread registers) (kind : DebugKind) (answer : registers.Answer) (addr : Nat)
    {place : DebugKind × Nat} {slot : registers.Slot}
    (there : registers.slots (thread.cleared kind answer addr) place = some slot) : thread.slots place = some slot := by
  cases found : thread.recorded kind addr with
  | none => rwa [cleared_none found] at there
  | some index =>
    rw [cleared_some found] at there
    cases done : (registers.clear kind answer thread.context index).1 with
    | false => rwa [registers.clear_failed _ _ _ _ done] at there
    | true =>
      rw [registers.clear_done _ _ _ _ done] at there
      by_cases same : place = (kind, index)
      · rw [same, Function.update_self] at there
        cases there
      · rwa [Function.update_of_ne same] at there

theorem slots_cleared_of_failed {thread : NativeThread registers} {kind : DebugKind}
    (failed : ¬ thread.ClearsOld kind answer addr) :
    registers.slots (thread.cleared kind answer addr) = thread.slots := by
  cases found : thread.recorded kind addr with
  | none => exact absurd (clearsOld_none found answer) failed
  | some index =>
    rw [clearsOld_some found, Bool.not_eq_true] at failed
    rw [cleared_some found, registers.clear_failed _ _ _ _ failed]
    rfl

theorem address_ne_of_cleared {thread : NativeThread registers} (recorded : thread.Recorded) {kind : DebugKind}
    (clears : thread.ClearsOld kind answer addr) {index : Nat}
    {slot : registers.Slot} (there : registers.slots (thread.cleared kind answer addr) (kind, index) = some slot) :
    registers.address slot ≠ addr := by
  intro same
  have found := recorded kind index slot (slots_of_cleared thread kind answer addr there)
  rw [same] at found
  rw [cleared_some found, registers.clear_done _ _ _ _ (clears index found), Function.update_self] at there
  cases there

/-- A removal keeps the index map true, unless it forgets a slot that stays. -/
theorem Removal.recorded {kind : DebugKind} {thread : NativeThread registers}
    {result : Status × NativeThread registers} (removal : Removal kind answer addr thread result)
    (before : thread.Recorded) (kept : result.1 = .ok () ∨ kind = .breakpoint) : result.2.Recorded := by
  intro other index slot there
  rw [NativeThread.slots, removal.context] at there
  have found := before other index slot (slots_of_cleared thread kind answer addr there)
  by_cases same : (other, registers.address slot) = (kind, addr)
  · obtain ⟨rfl, here⟩ := Prod.mk.inj same
    by_cases done : result.1 = .ok ()
    · exact absurd here (address_ne_of_cleared before (removal.status.mp done) there)
    · rw [here, removal.kept done (kept.resolve_left done), ← here]
      exact found
  · rw [removal.others _ _ same]
    exact found

/-! ## Setting -/

variable {kind : DebugKind} {failed : String} {answers : Answers registers} {request : DebugRequest}
  {thread : NativeThread registers} {removed : Status × NativeThread registers}

theorem establish_cases (removal : Removal kind answers.old request.addr thread removed) :
    (¬ thread.ClearsOld kind answers.old request.addr ∧
        ∃ text, establish kind failed answers.set request removed = (.error text, removed.2)) ∨
      (thread.ClearsOld kind answers.old request.addr ∧ (thread.granted kind answers request).1 = none ∧
        establish kind failed answers.set request removed =
          (.error failed, { removed.2 with context := (thread.granted kind answers request).2 })) ∨
      (thread.ClearsOld kind answers.old request.addr ∧ ∃ index, (thread.granted kind answers request).1 = some index ∧
        establish kind failed answers.set request removed =
          (.ok (), { removed.2 with context := (thread.granted kind answers request).2 }.withMap kind
            ((removed.2.indexMap kind).insert request.addr index))) := by
  have status := removal.status
  have context := removal.context
  have forgotten := removal.forgotten
  obtain ⟨error, result⟩ := removed
  cases error with
  | error text =>
    refine .inl ⟨fun clears => ?_, text, rfl⟩
    cases status.mpr clears
  | ok _ =>
    have clears := status.mp rfl
    have answer : registers.set kind answers.set result.context request = thread.granted kind answers request := by
      rw [context, granted]
    cases grant : (thread.granted kind answers request).1 with
    | none =>
      refine .inr (.inl ⟨clears, rfl, ?_⟩)
      have pair : thread.granted kind answers request = (none, (thread.granted kind answers request).2) := by
        rw [← grant]
      rw [establish, answer, pair]
    | some index =>
      refine .inr (.inr ⟨clears, index, rfl, ?_⟩)
      have pair : thread.granted kind answers request = (some index, (thread.granted kind answers request).2) := by
        rw [← grant]
      rw [establish, answer, pair]
      exact congrArg (fun map => (Except.ok (), NativeThread.withMap _ kind map))
        (OrderedMap.insertNew_eq_insert (forgotten (.inl rfl)) index)

structure Setting (kind : DebugKind) (answers : Answers registers) (request : DebugRequest)
    (thread : NativeThread registers) (result : Status × NativeThread registers) : Prop where
  tid : result.2.tid = thread.tid
  state : result.2.state = thread.state
  status : result.1 = .ok () ↔
    thread.ClearsOld kind answers.old request.addr ∧ (thread.granted kind answers request).1.isSome = true
  recorded : thread.Recorded → thread.ClearsOld kind answers.old request.addr ∨ kind = .breakpoint → result.2.Recorded
  enabled : result.1 = .ok () → result.2.EnabledFor kind request.addr
  refused : result.1 ≠ .ok () → result.2.slots = registers.slots (thread.cleared kind answers.old request.addr)
  rolledBack : result.1 = .ok () → ∀ back, Removal kind answers.rollBack request.addr result.2 back →
    (back.1 = .ok () ↔ thread.GivesBack kind answers request) ∧
      (back.1 = .ok () → back.2.slots = registers.slots (thread.cleared kind answers.old request.addr))

theorem recorded_insert (thread : NativeThread registers) (kind : DebugKind) (addr index : Nat) :
    (thread.withMap kind ((thread.indexMap kind).insert addr index)).recorded kind addr = some index ∧
      ∀ other key, (other, key) ≠ (kind, addr) →
        (thread.withMap kind ((thread.indexMap kind).insert addr index)).recorded other key =
          thread.recorded other key := by
  rw [recorded_withMap_self]
  exact ⟨(thread.indexMap kind).find?_insert_self addr index,
    recorded_withMap_others fun _ differs => OrderedMap.find?_insert_of_ne _ _ differs⟩

theorem establish_setting (removal : Removal kind answers.old request.addr thread removed) :
    Setting kind answers request thread (establish kind failed answers.set request removed) := by
  rcases establish_cases removal with ⟨stays, text, same⟩ | ⟨clears, grant, same⟩ | ⟨clears, index, grant, same⟩
  · rw [same]
    refine ⟨removal.tid, removal.state, iff_of_false nofun fun both => stays both.1, fun before either => ?_, nofun,
      fun _ => ?_, nofun⟩
    · exact removal.recorded before (.inr (either.resolve_left stays))
    · exact congrArg registers.slots removal.context
  · have slots := registers.set_refused _ _ _ _ grant
    rw [same]
    refine ⟨removal.tid, removal.state, iff_of_false nofun fun both => ?_, fun before either => ?_, nofun,
      fun _ => slots, nofun⟩
    · rw [grant] at both
      cases both.2
    · have kept := removal.recorded before (.inl (removal.status.mpr clears))
      intro other place slot there
      rw [NativeThread.slots, granted, slots, ← removal.context] at there
      exact kept other place slot there
  · obtain ⟨free, slot, address, slots⟩ := registers.set_granted _ _ _ _ _ grant
    have ⟨here, others⟩ := recorded_insert { removed.2 with context := (thread.granted kind answers request).2 } kind
      request.addr index
    rw [same]
    refine ⟨removal.tid, removal.state, iff_of_true rfl ⟨clears, by rw [grant]; rfl⟩, fun before _ => ?_, fun _ => ?_,
      fun failed => absurd rfl failed, fun _ back removing => ?_⟩
    · intro other place held there
      have there : Function.update (registers.slots (thread.cleared kind answers.old request.addr)) (kind, index)
          (some slot) (other, place) = some held := slots ▸ there
      by_cases new : (other, place) = (kind, index)
      · rw [new, Function.update_self] at there
        cases there
        cases new
        rw [address]
        exact here
      · rw [Function.update_of_ne new] at there
        have ne : (other, registers.address held) ≠ (kind, request.addr) := by
          intro equal
          obtain ⟨rfl, target⟩ := Prod.mk.inj equal
          exact address_ne_of_cleared before clears there target
        rw [others _ _ ne]
        exact (removal.others _ _ ne).trans (before other place held (slots_of_cleared thread _ _ _ there))
    · exact ⟨index, slot, (congrFun slots _).trans (Function.update_self _ _ _), address⟩
    · have backContext := removing.context.trans (cleared_some here answers.rollBack)
      refine ⟨removing.status.trans ((clearsOld_some here answers.rollBack).trans ?_), fun done => ?_⟩
      · refine ⟨fun clear other grantOther => ?_, fun gives => gives index grant⟩
        cases grant.symm.trans grantOther
        exact clear
      · have clear := (clearsOld_some here answers.rollBack).mp (removing.status.mp done)
        have empty := registers.clear_done _ _ _ _ clear
        rw [NativeThread.slots, backContext, empty]
        refine (congrArg (fun all => Function.update all (kind, index) none) slots).trans ?_
        rw [Function.update_idem, Function.update_eq_self_iff]
        exact free.symm

theorem setWatchpoint_setting {thread : NativeThread registers} (stopped : thread.state = .stopped)
    (answers : Answers registers) (request : DebugRequest) :
    Setting .watchpoint answers request thread (thread.setWatchpoint answers request true) := by
  rw [setWatchpoint, if_neg (not_not.mpr rfl), if_neg (by rw [stopped]; exact StateType.noConfusion)]
  exact establish_setting (thread.removeWatchpoint_removal answers.old request.addr)

theorem setHardwareBreakpoint_setting {thread : NativeThread registers} (stopped : thread.state = .stopped)
    (answers : Answers registers) (request : DebugRequest) :
    Setting .breakpoint answers request thread (thread.setHardwareBreakpoint answers request) := by
  rw [setHardwareBreakpoint, if_neg (by rw [stopped]; exact StateType.noConfusion)]
  exact establish_setting (thread.removeHardwareBreakpoint_removal answers.old request.addr)

end NativeThread

end Lldb
