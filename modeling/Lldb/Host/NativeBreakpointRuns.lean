import Lldb.Host.NativeBreakpointList

/-! What a list of counted breakpoints says of the memory, and the runs in which it stays true:
traps where breakpoints are enabled, and the original bytes everywhere else.
-/

set_option autoImplicit false

namespace Lldb.NativeBreakpointList

open Library SoftwareBreakpoint Memory OrderedMap

abbrev References := Nat → Int

namespace Operation

def account (references : References) (status : Status) : Operation → References
  | addRef addr _ =>
    match status with
    | .ok () => Function.update references addr (references addr + 1)
    | .error _ => references
  | decRef addr =>
    match status with
    | .ok () => Function.update references addr (references addr - 1)
    | .error _ => references
  | enableBreakpoint _ => references
  | disableBreakpoint _ => references

end Operation

/-- The list and the memory are what the references say, for the original bytes of the memory. -/
structure Faithful (original : Nat → UInt8) (references : References) (list : NativeBreakpointList) : Prop where
  held : ∀ addr, (list.breakpoints.find? addr).isSome ↔ 0 < references addr
  memory : ∀ addr breakpoint, list.breakpoints.find? addr = some breakpoint →
    read list.memory addr breakpoint.trapOpcodes.length =
      if breakpoint.enabled then breakpoint.trapOpcodes else read original addr breakpoint.trapOpcodes.length
  restored : ∀ place, (∀ addr breakpoint, list.breakpoints.find? addr = some breakpoint →
    place ∉ (⟨addr, breakpoint.trapOpcodes.length⟩ : Window)) → list.memory place = original place

variable (trapOpcode : Nat → Except String (List UInt8))

/-- An operation keeps the list faithful; one that adds a reference leaves the trap in memory. -/
def Meets (original : Nat → UInt8) (references : References) (list : NativeBreakpointList) (operation : Operation) :
    Prop :=
  ∃ status next, list.apply trapOpcode operation = some (status, next) ∧
    Faithful original (operation.account references status) next ∧
    ∀ addr sizeHint, operation = .addRef addr sizeHint → status = .ok () →
      ∃ breakpoint, next.breakpoints.find? addr = some breakpoint ∧
        read next.memory addr breakpoint.trapOpcodes.length = breakpoint.trapOpcodes

/-- A reference is added to a breakpoint that is enabled (or whose trap is what it replaces), and
that has not as many references as an int can count.
-/
def Suits (list : NativeBreakpointList) : Operation → Prop
  | .addRef addr _ => ∀ breakpoint, list.breakpoints.find? addr = some breakpoint →
    (breakpoint.enabled ∨ breakpoint.savedOpcodes = breakpoint.trapOpcodes) ∧ breakpoint.refCount < 2 ^ 31 - 1
  | .decRef _ | .enableBreakpoint _ | .disableBreakpoint _ => True

/-- A property of every operation of a run, with the references and the list before it. -/
def Throughout (holds : References → NativeBreakpointList → Operation → Prop) :
    References → NativeBreakpointList → List Operation → Prop
  | _, _, [] => True
  | references, list, operation :: rest =>
    holds references list operation ∧ ∀ status next, list.apply trapOpcode operation = some (status, next) →
      Throughout holds (operation.account references status) next rest

def Separate (operations : List Operation) : Prop :=
  ∀ addr sizeHint other otherHint trap otherTrap, .addRef addr sizeHint ∈ operations →
    .addRef other otherHint ∈ operations → addr ≠ other → trapOpcode sizeHint = .ok trap →
    trapOpcode otherHint = .ok otherTrap → (⟨addr, trap.length⟩ : Window).Apart ⟨other, otherTrap.length⟩

/-- What holds of each breakpoint in the list, for the operations that may have put it there. -/
structure Tracked (operations : List Operation) (original : Nat → UInt8) (references : References) (addr : Nat)
    (breakpoint : SoftwareBreakpoint) (memory : Nat → UInt8) : Prop where
  counted : references addr = breakpoint.refCount
  positive : 0 < breakpoint.refCount
  asked : ∃ sizeHint, .addRef addr sizeHint ∈ operations ∧ trapOpcode sizeHint = .ok breakpoint.trapOpcodes
  saved : breakpoint.savedOpcodes = read original addr breakpoint.trapOpcodes.length
  trapped : read memory addr breakpoint.trapOpcodes.length =
    if breakpoint.enabled then breakpoint.trapOpcodes else breakpoint.savedOpcodes

structure Invariant (operations : List Operation) (original : Nat → UInt8) (references : References)
    (list : NativeBreakpointList) : Prop where
  absent : ∀ addr, list.breakpoints.find? addr = none → references addr = 0
  tracked : ∀ addr breakpoint, list.breakpoints.find? addr = some breakpoint →
    Tracked trapOpcode operations original references addr breakpoint list.memory
  restored : ∀ place, (∀ addr breakpoint, list.breakpoints.find? addr = some breakpoint →
    place ∉ (⟨addr, breakpoint.trapOpcodes.length⟩ : Window)) → list.memory place = original place

variable {trapOpcode} {operations : List Operation} {original : Nat → UInt8} {references : References}
  {list : NativeBreakpointList}

theorem Invariant.faithful (invariant : Invariant trapOpcode operations original references list) :
    Faithful original references list where
  held addr := by
    cases found : list.breakpoints.find? addr with
    | none => simp [invariant.absent addr found]
    | some breakpoint =>
      obtain ⟨counted, positive, -⟩ := invariant.tracked addr breakpoint found
      simp [counted, positive]
  memory addr breakpoint found := by
    obtain ⟨-, -, -, saved, trapped⟩ := invariant.tracked addr breakpoint found
    rw [trapped, saved]
  restored := invariant.restored

/-- An operation changes the breakpoint, the references and the opcode at one address. -/
structure Change (trapOpcode : Nat → Except String (List UInt8)) (operations : List Operation) (addr size : Nat) (references after : References)
    (list next : NativeBreakpointList) : Prop where
  asked : ∃ sizeHint trap, .addRef addr sizeHint ∈ operations ∧ trapOpcode sizeHint = .ok trap ∧ trap.length = size
  before : ∀ breakpoint, list.breakpoints.find? addr = some breakpoint → breakpoint.trapOpcodes.length = size
  others : ∀ other ≠ addr, next.breakpoints.find? other = list.breakpoints.find? other
  kept : ∀ other ≠ addr, after other = references other
  outside : ∀ place ∉ (⟨addr, size⟩ : Window), next.memory place = list.memory place

variable {next : NativeBreakpointList} {sizeHint : Nat} {operation : Operation}

theorem Invariant.change (separate : Separate trapOpcode operations)
    (invariant : Invariant trapOpcode operations original references list) {addr size : Nat} {after : References}
    (changed : Change trapOpcode operations addr size references after list next)
    (dropped : next.breakpoints.find? addr = none →
      after addr = 0 ∧ read next.memory addr size = read original addr size)
    (here : ∀ breakpoint, next.breakpoints.find? addr = some breakpoint → breakpoint.trapOpcodes.length = size ∧
      Tracked trapOpcode operations original after addr breakpoint next.memory) :
    Invariant trapOpcode operations original after next where
  absent other absent := by
    by_cases same : other = addr
    · subst same
      exact (dropped absent).1
    · rw [changed.kept other same]
      exact invariant.absent other (changed.others other same ▸ absent)
  tracked other breakpoint found := by
    by_cases same : other = addr
    · subst same
      exact (here breakpoint found).2
    · rw [changed.others other same] at found
      obtain ⟨counted, positive, ⟨otherHint, otherAsked, otherTrap⟩, saved, trapped⟩ :=
        invariant.tracked other breakpoint found
      obtain ⟨sizeHint, trap, asked, gives, length⟩ := changed.asked
      have apart := separate other otherHint addr sizeHint _ _ otherAsked asked same otherTrap gives
      rw [length] at apart
      refine ⟨(changed.kept other same).trans counted, positive, ⟨otherHint, otherAsked, otherTrap⟩, saved, ?_⟩
      rw [← trapped]
      exact read_congr fun place inside => changed.outside place (apart place inside)
  restored place outside := by
    by_cases inside : place ∈ (⟨addr, size⟩ : Window)
    · cases found : next.breakpoints.find? addr with
      | none => exact of_read_eq (dropped found).2 inside
      | some breakpoint =>
        have covered := outside addr breakpoint found
        rw [(here breakpoint found).1] at covered
        exact absurd inside covered
    · rw [changed.outside place inside]
      refine invariant.restored place fun other breakpoint found => ?_
      by_cases same : other = addr
      · subst same
        rw [changed.before breakpoint found]
        exact inside
      · exact outside other breakpoint ((changed.others other same).trans found)

section Traps

variable {addr : Nat} {breakpoint : SoftwareBreakpoint} {memory : Nat → UInt8}

theorem enableSoftwareBreakpoint_eq (memory : Nat → UInt8) (addr : Nat) (trap : List UInt8) :
    enableSoftwareBreakpoint memory addr trap = (.ok (), read memory addr trap.length, write memory addr trap) := by
  unfold enableSoftwareBreakpoint
  simp only
  simp [read_write]

theorem Tracked.disable (tracked : Tracked trapOpcode operations original references addr breakpoint memory) :
    ∃ after, breakpoint.disable memory addr = (.ok (), { breakpoint with enabled := false }, after) ∧
      read after addr breakpoint.trapOpcodes.length = breakpoint.savedOpcodes ∧
      ∀ place ∉ (⟨addr, breakpoint.trapOpcodes.length⟩ : Window), after place = memory place := by
  have trapped := tracked.trapped
  have length : breakpoint.savedOpcodes.length = breakpoint.trapOpcodes.length := by
    rw [tracked.saved, length_read]
  cases enabled : breakpoint.enabled with
  | false =>
    rw [enabled] at trapped
    refine ⟨memory, ?_, trapped, fun _ _ => rfl⟩
    rw [SoftwareBreakpoint.disable, if_pos (by simp [enabled]), ← enabled]
  | true =>
    rw [enabled, if_pos rfl] at trapped
    have back : read (write memory addr breakpoint.savedOpcodes) addr breakpoint.trapOpcodes.length =
        breakpoint.savedOpcodes := by
      rw [← length, read_write]
    have done : breakpoint.doDisable memory addr = (.ok (), write memory addr breakpoint.savedOpcodes) := by
      unfold doDisable
      simp only
      rw [if_pos trapped, if_pos back.symm]
    refine ⟨_, ?_, back, fun place outside => write_outside memory (length ▸ outside)⟩
    rw [SoftwareBreakpoint.disable, if_neg (by simp [enabled]), done]

theorem Tracked.enable (tracked : Tracked trapOpcode operations original references addr breakpoint memory) :
    ∃ after, breakpoint.enable memory addr = (.ok (), { breakpoint with enabled := true }, after) ∧
      read after addr breakpoint.trapOpcodes.length = breakpoint.trapOpcodes ∧
      ∀ place ∉ (⟨addr, breakpoint.trapOpcodes.length⟩ : Window), after place = memory place := by
  have trapped := tracked.trapped
  cases enabled : breakpoint.enabled with
  | true =>
    rw [enabled] at trapped
    refine ⟨memory, ?_, trapped, fun _ _ => rfl⟩
    simp [SoftwareBreakpoint.enable, ← enabled]
  | false =>
    rw [enabled, if_neg Bool.false_ne_true] at trapped
    refine ⟨_, ?_, read_write memory addr breakpoint.trapOpcodes, fun place outside =>
      write_outside memory outside⟩
    rw [SoftwareBreakpoint.enable, if_neg (by simp [enabled]), enableSoftwareBreakpoint_eq, trapped]

theorem disable_of_enabled (breakpoint : SoftwareBreakpoint) (memory : Nat → UInt8) (addr : Nat) :
    (if breakpoint.enabled then breakpoint.disable memory addr else (.ok (), breakpoint, memory)) =
      breakpoint.disable memory addr := by
  by_cases enabled : breakpoint.enabled
  · rw [if_pos enabled]
  · rw [if_neg enabled, SoftwareBreakpoint.disable, if_pos enabled]

end Traps

/-! The operations. -/

theorem decRef_none {addr : Nat} (absent : list.breakpoints.find? addr = none) :
    list.decRef addr = (notFound, list) := by
  simp [decRef, absent]

variable (separate : Separate trapOpcode operations)
  (invariant : Invariant trapOpcode operations original references list)
include separate invariant

theorem decRef_keeps (addr : Nat) :
    let (status, next) := list.decRef addr
    Invariant trapOpcode operations original ((Operation.decRef addr).account references status) next := by
  cases found : list.breakpoints.find? addr with
  | none =>
    rw [decRef_none found]
    exact invariant
  | some breakpoint =>
    have tracked := invariant.tracked addr breakpoint found
    obtain ⟨sizeHint, asked, gives⟩ := tracked.asked
    have before (other : SoftwareBreakpoint) (there : list.breakpoints.find? addr = some other) :
        other.trapOpcodes.length = breakpoint.trapOpcodes.length := by
      rw [found, Option.some.injEq] at there
      rw [there]
    have kept (other : Nat) (apart : other ≠ addr) :
        Function.update references addr (references addr - 1) other = references other :=
      Function.update_of_ne apart _ _
    have counted := tracked.counted
    simp only [decRef, found]
    by_cases more : breakpoint.refCount - 1 > 0
    · rw [if_pos more]
      refine invariant.change separate ⟨⟨sizeHint, _, asked, gives, rfl⟩, before,
        fun other apart => find?_insert_of_ne _ _ apart, kept, fun _ _ => rfl⟩ ?_ ?_
      · intro absent
        rw [find?_insert_self] at absent
        cases absent
      · intro held there
        rw [find?_insert_self] at there
        cases there
        refine ⟨rfl, ?_, more, tracked.asked, tracked.saved, tracked.trapped⟩
        change Function.update references addr (references addr - 1) addr = breakpoint.refCount - 1
        simp [counted]
    · rw [if_neg more]
      have last : references addr - 1 = 0 := by
        have positive := tracked.positive
        omega
      obtain ⟨after, disabled, back, outside⟩ := tracked.disable
      rw [disable_of_enabled, disabled]
      refine invariant.change separate ⟨⟨sizeHint, _, asked, gives, rfl⟩, before,
        fun other apart => find?_erase_of_ne _ apart, kept, outside⟩ ?_ ?_
      · intro _
        refine ⟨?_, back.trans tracked.saved⟩
        change Function.update references addr (references addr - 1) addr = 0
        simp [last]
      · intro held there
        rw [find?_erase_self] at there
        cases there

theorem insert_keeps {addr : Nat} {breakpoint : SoftwareBreakpoint}
    (found : list.breakpoints.find? addr = some breakpoint) {enabled : Bool} {memory : Nat → UInt8}
    (trapped : read memory addr breakpoint.trapOpcodes.length =
      if enabled then breakpoint.trapOpcodes else breakpoint.savedOpcodes)
    (outside : ∀ place ∉ (⟨addr, breakpoint.trapOpcodes.length⟩ : Window), memory place = list.memory place) :
    Invariant trapOpcode operations original references
      ⟨list.breakpoints.insert addr { breakpoint with enabled }, memory⟩ := by
  have tracked := invariant.tracked addr breakpoint found
  obtain ⟨sizeHint, asked, gives⟩ := tracked.asked
  refine invariant.change separate ⟨⟨sizeHint, _, asked, gives, rfl⟩, fun other there => ?_,
    fun other apart => find?_insert_of_ne _ _ apart, fun _ _ => rfl, outside⟩ ?_ ?_
  · rw [found, Option.some.injEq] at there
    rw [there]
  · intro absent
    rw [find?_insert_self] at absent
    cases absent
  · intro held there
    rw [find?_insert_self] at there
    cases there
    exact ⟨rfl, tracked.counted, tracked.positive, tracked.asked, tracked.saved, trapped⟩

theorem enableBreakpoint_keeps (addr : Nat) :
    Invariant trapOpcode operations original references (list.enableBreakpoint addr).2 := by
  cases found : list.breakpoints.find? addr with
  | none =>
    simp only [enableBreakpoint, found]
    exact invariant
  | some breakpoint =>
    obtain ⟨after, enabled, trapped, outside⟩ := (invariant.tracked addr breakpoint found).enable
    simp only [enableBreakpoint, found, enabled]
    exact insert_keeps separate invariant found trapped outside

theorem disableBreakpoint_keeps (addr : Nat) :
    Invariant trapOpcode operations original references (list.disableBreakpoint addr).2 := by
  cases found : list.breakpoints.find? addr with
  | none =>
    simp only [disableBreakpoint, found]
    exact invariant
  | some breakpoint =>
    obtain ⟨after, disabled, trapped, outside⟩ := (invariant.tracked addr breakpoint found).disable
    simp only [disableBreakpoint, found, disabled]
    exact insert_keeps separate invariant found trapped outside

omit separate invariant

theorem createSoftwareBreakpoint_cases (trapOpcode : Nat → Except String (List UInt8)) (memory : Nat → UInt8) (addr sizeHint : Nat) :
    (∃ text, createSoftwareBreakpoint trapOpcode memory addr sizeHint = (.error text, memory)) ∨
      ∃ trap, trapOpcode sizeHint = .ok trap ∧ createSoftwareBreakpoint trapOpcode memory addr sizeHint =
        (.ok ⟨read memory addr trap.length, trap, 1, true⟩, write memory addr trap) := by
  unfold createSoftwareBreakpoint
  split
  · exact .inl ⟨_, rfl⟩
  split
  · exact .inl ⟨_, rfl⟩
  rename_i trap gives
  split
  · exact .inl ⟨_, rfl⟩
  split
  · exact .inl ⟨_, rfl⟩
  rw [enableSoftwareBreakpoint_eq]
  exact .inr ⟨trap, gives, rfl⟩

theorem addRef_held {addr : Nat} {breakpoint : SoftwareBreakpoint}
    (found : list.breakpoints.find? addr = some breakpoint) (room : breakpoint.refCount < 2 ^ 31 - 1) :
    list.addRef trapOpcode addr sizeHint = some (.ok (), { list with
      breakpoints := list.breakpoints.insert addr { breakpoint with refCount := breakpoint.refCount + 1 } }) := by
  simp only [addRef, found, if_pos room]

variable (separate : Separate trapOpcode operations)
  (invariant : Invariant trapOpcode operations original references list)
include separate invariant

/-- Where it does not overflow, the count goes up, or the trap is put in place. -/
theorem addRef_keeps {addr : Nat} {status : Status}
    (asked : .addRef addr sizeHint ∈ operations)
    (adds : list.addRef trapOpcode addr sizeHint = some (status, next)) :
    Invariant trapOpcode operations original ((Operation.addRef addr sizeHint).account references status) next := by
  have kept (other : Nat) (apart : other ≠ addr) :
      Function.update references addr (references addr + 1) other = references other :=
    Function.update_of_ne apart _ _
  have counts : Function.update references addr (references addr + 1) addr = references addr + 1 :=
    Function.update_self _ _ _
  cases found : list.breakpoints.find? addr with
  | some breakpoint =>
    by_cases room : breakpoint.refCount < 2 ^ 31 - 1
    · rw [addRef_held found room] at adds
      cases adds
      have tracked := invariant.tracked addr breakpoint found
      obtain ⟨otherHint, otherAsked, gives⟩ := tracked.asked
      have positive := tracked.positive
      refine invariant.change separate ⟨⟨otherHint, _, otherAsked, gives, rfl⟩, fun other there => ?_,
        fun other apart => find?_insert_of_ne _ _ apart, kept, fun _ _ => rfl⟩ ?_ ?_
      · rw [found, Option.some.injEq] at there
        rw [there]
      · intro absent
        rw [find?_insert_self] at absent
        cases absent
      · intro held there
        rw [find?_insert_self] at there
        cases there
        refine ⟨rfl, ?_, ?_, tracked.asked, tracked.saved, tracked.trapped⟩
        · exact counts.trans (congrArg (· + 1) tracked.counted)
        · change 0 < breakpoint.refCount + 1
          omega
    · simp only [addRef, found, if_neg room, reduceCtorEq] at adds
  | none =>
    have zero := invariant.absent addr found
    rcases createSoftwareBreakpoint_cases trapOpcode list.memory addr sizeHint with ⟨text, refused⟩ | ⟨trap, gives, created⟩
    · simp only [addRef, found, refused] at adds
      obtain ⟨rfl, rfl⟩ := adds
      exact invariant
    · simp only [addRef, found, created] at adds
      obtain ⟨rfl, rfl⟩ := adds
      refine invariant.change separate ⟨⟨sizeHint, trap, asked, gives, rfl⟩, fun other there => ?_,
        fun other apart => find?_insert_of_ne _ _ apart, kept,
        fun place outside => write_outside _ outside⟩ ?_ ?_
      · rw [found] at there
        cases there
      · intro absent
        rw [find?_insert_self] at absent
        cases absent
      · intro held there
        rw [find?_insert_self] at there
        cases there
        refine ⟨rfl, ?_, Int.one_pos, ⟨sizeHint, asked, gives⟩, ?_, read_write _ _ _⟩
        · exact counts.trans (by rw [zero]; rfl)
        · refine read_congr fun place inside => invariant.restored place fun other breakpoint there => ?_
          obtain ⟨otherHint, otherAsked, otherTrap⟩ := (invariant.tracked other breakpoint there).asked
          have apart : addr ≠ other := by
            rintro rfl
            rw [found] at there
            cases there
          exact separate addr sizeHint other otherHint _ _ asked otherAsked apart gives otherTrap place inside

theorem apply_keeps {status : Status}
    (asked : operation ∈ operations)
    (applies : list.apply trapOpcode operation = some (status, next)) :
    Invariant trapOpcode operations original (operation.account references status) next := by
  cases operation with
  | addRef addr sizeHint => exact addRef_keeps separate invariant asked applies
  | decRef addr =>
    have keeps := decRef_keeps separate invariant addr
    rw [Option.some.inj applies] at keeps
    exact keeps
  | enableBreakpoint addr =>
    have keeps := enableBreakpoint_keeps separate invariant addr
    rw [Option.some.inj applies] at keeps
    exact keeps
  | disableBreakpoint addr =>
    have keeps := disableBreakpoint_keeps separate invariant addr
    rw [Option.some.inj applies] at keeps
    exact keeps

theorem addRef_held_iff {addr : Nat}
    (asked : .addRef addr sizeHint ∈ operations) {breakpoint : SoftwareBreakpoint}
    (found : list.breakpoints.find? addr = some breakpoint) :
    list.Meets trapOpcode original references (.addRef addr sizeHint) ↔
      (breakpoint.enabled ∨ breakpoint.savedOpcodes = breakpoint.trapOpcodes) ∧ breakpoint.refCount < 2 ^ 31 - 1 := by
  have trapped := (invariant.tracked addr breakpoint found).trapped
  constructor
  · rintro ⟨status, next, applies, -, there⟩
    have room : breakpoint.refCount < 2 ^ 31 - 1 := by
      by_contra full
      simp only [apply, addRef, found, if_neg full, reduceCtorEq] at applies
    refine ⟨?_, room⟩
    rw [apply, addRef_held found room] at applies
    cases applies
    obtain ⟨held, heldFound, inMemory⟩ := there addr sizeHint rfl rfl
    rw [find?_insert_self] at heldFound
    cases heldFound
    cases enabled : breakpoint.enabled with
    | true => exact .inl rfl
    | false =>
      rw [enabled] at trapped
      exact .inr (trapped.symm.trans inMemory)
  · rintro ⟨either, room⟩
    have applies : list.addRef trapOpcode addr sizeHint = _ := addRef_held found room
    refine ⟨_, _, applies, (apply_keeps separate invariant asked applies).faithful, ?_⟩
    intro other otherHint same _
    cases same
    refine ⟨_, find?_insert_self _ _ _, ?_⟩
    rcases either with enabled | same
    · rw [enabled] at trapped
      exact trapped
    · rw [same, ite_self] at trapped
      exact trapped

theorem addRef_absent {addr : Nat}
    (asked : .addRef addr sizeHint ∈ operations) (found : list.breakpoints.find? addr = none) :
    list.Meets trapOpcode original references (.addRef addr sizeHint) := by
  rcases createSoftwareBreakpoint_cases trapOpcode list.memory addr sizeHint with ⟨text, refused⟩ | ⟨trap, gives, created⟩
  · have applies : list.addRef trapOpcode addr sizeHint = some (.error text, { list with memory := list.memory }) := by
      simp [addRef, found, refused]
    refine ⟨_, _, applies, (apply_keeps separate invariant asked applies).faithful, ?_⟩
    intro other otherHint _ succeeds
    cases succeeds
  · have applies : list.addRef trapOpcode addr sizeHint = some (.ok (), ⟨list.breakpoints.insert addr
        ⟨read list.memory addr trap.length, trap, 1, true⟩, write list.memory addr trap⟩) := by
      simp [addRef, found, created]
    refine ⟨_, _, applies, (apply_keeps separate invariant asked applies).faithful, ?_⟩
    intro other otherHint same _
    cases same
    exact ⟨_, find?_insert_self _ _ _, read_write _ _ _⟩

theorem meets_of_apply (asked : operation ∈ operations) {result : Status × NativeBreakpointList}
    (applies : list.apply trapOpcode operation = some result) (adds : ∀ addr sizeHint, operation ≠ .addRef addr sizeHint) :
    list.Meets trapOpcode original references operation :=
  ⟨result.1, result.2, applies, (apply_keeps separate invariant asked applies).faithful,
    fun addr sizeHint same => absurd same (adds addr sizeHint)⟩

theorem meets_iff (asked : operation ∈ operations) :
    list.Meets trapOpcode original references operation ↔ list.Suits operation := by
  cases operation with
  | addRef addr sizeHint =>
    cases found : list.breakpoints.find? addr with
    | none =>
      refine iff_of_true (addRef_absent separate invariant asked found) fun breakpoint there => ?_
      rw [found] at there
      cases there
    | some breakpoint =>
      refine (addRef_held_iff separate invariant asked found).trans ⟨fun suits other there => ?_, fun suits => ?_⟩
      · rw [found] at there
        cases there
        exact suits
      · exact suits breakpoint found
  | decRef addr => exact iff_of_true (meets_of_apply separate invariant asked rfl nofun) trivial
  | enableBreakpoint addr => exact iff_of_true (meets_of_apply separate invariant asked rfl nofun) trivial
  | disableBreakpoint addr => exact iff_of_true (meets_of_apply separate invariant asked rfl nofun) trivial

omit invariant

theorem throughout_iff {rest : List Operation}
    (invariant : Invariant trapOpcode operations original references list) (part : ∀ operation ∈ rest, operation ∈ operations) :
    Throughout trapOpcode (fun references list operation => list.Meets trapOpcode original references operation)
        references list rest ↔
      Throughout trapOpcode (fun _ list operation => list.Suits operation) references list rest := by
  induction rest generalizing references list with
  | nil => exact Iff.rfl
  | cons operation rest ih =>
    have asked := part operation List.mem_cons_self
    refine and_congr (meets_iff separate invariant asked) (forall₃_congr fun status next applies => ?_)
    exact ih (apply_keeps separate invariant asked applies) fun other there => part other (List.mem_cons_of_mem _ there)

omit separate

/-- From an empty list on, every operation keeps the list and the memory faithful to the
references, and adds references to traps in memory only, exactly when all of them suit.
-/
theorem breakpoints_faithful_iff (trapOpcode : Nat → Except String (List UInt8)) (original : Nat → UInt8)
    (operations : List Operation) (separate : Separate trapOpcode operations) :
    Throughout trapOpcode (fun references list operation => list.Meets trapOpcode original references operation)
        (fun _ => 0) ⟨.empty, original⟩ operations ↔
      Throughout trapOpcode (fun _ list operation => list.Suits operation) (fun _ => 0) ⟨.empty, original⟩ operations :=
  throughout_iff separate ⟨fun _ _ => rfl, nofun, fun _ _ => rfl⟩ fun _ => id

def int3 : Nat → Except String (List UInt8) := fun _ => .ok [0xcc]

theorem breakpoints_faithful_iff_int3 :
    Throughout int3 (fun references list operation => list.Meets int3 (fun _ => 0x90) references operation)
        (fun _ => 0) ⟨.empty, fun _ => 0x90⟩ [.addRef 16 0, .disableBreakpoint 16, .addRef 17 0] ↔
      Throughout int3 (fun _ list operation => list.Suits operation) (fun _ => 0) ⟨.empty, fun _ => 0x90⟩
        [.addRef 16 0, .disableBreakpoint 16, .addRef 17 0] := by
  refine breakpoints_faithful_iff int3 _ _ ?_
  intro addr sizeHint other otherHint trap otherTrap asked otherAsked apart gives otherGives
  cases gives
  cases otherGives
  rw [Window.apart_iff one_pos one_pos]
  simp only [List.length_singleton]
  omega

/-- A disabled breakpoint that gets a second reference leaves the original byte in memory. -/
theorem breakpoints_not_always_faithful : let original : Nat → UInt8 := fun _ => 0x90
    ∃ next, (NativeBreakpointList.mk .empty original).apply int3 (.addRef 16 0) = some next ∧
      ∃ disabled, next.2.apply int3 (.disableBreakpoint 16) = some disabled ∧
        ∃ again, disabled.2.apply int3 (.addRef 16 0) = some again ∧ again.1 = .ok () ∧ again.2.memory 16 ≠ 0xcc := by
  decide

end Lldb.NativeBreakpointList
