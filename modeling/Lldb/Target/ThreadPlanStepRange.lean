import Mathlib.Algebra.Ring.Nat
import Mathlib.Data.List.Infix
import Mathlib.Logic.Relation

/-! The address ranges of a `ThreadPlanStepRange`, the disassemblies it keeps beside them and the
breakpoint at the next branch. -/

set_option autoImplicit false

namespace Lldb

open List Option

/-- The last load address stands for none. -/
def stepInvalidAddress : Nat := 2 ^ 64 - 1

namespace ThreadPlanStepRange

structure AddressRange where
  loadAddress : Nat
  byteSize : Nat
  deriving DecidableEq

def AddressRange.containsLoadAddress (range : AddressRange) (loadAddr : Nat) : Bool :=
  loadAddr != stepInvalidAddress && range.loadAddress != stepInvalidAddress &&
    range.loadAddress ≤ loadAddr && loadAddr - range.loadAddress < range.byteSize

structure LineEntry where
  range : AddressRange
  originalFile : String
  line : Nat
  deriving DecidableEq

def LineEntry.isValid (entry : LineEntry) : Bool :=
  entry.range.loadAddress != stepInvalidAddress && entry.line != 2 ^ 32 - 1

structure Instruction where
  address : Nat
  opcodeByteSize : Nat
  doesBranch : Bool

def getIndexOfNextBranchInstruction (instructions : List Instruction) (start : Nat) : Nat :=
  match (instructions.drop start).findIdx? Instruction.doesBranch with
  | some count => (start + count) % 2 ^ 32
  | none => 2 ^ 32 - 1

def getIndexOfInstructionAtAddress (instructions : List Instruction) (address : Nat) : Nat :=
  match instructions.findIdx? (·.address == address) with
  | some index => index % 2 ^ 32
  | none => 2 ^ 32 - 1

/-- Instructions that follow one another from one address up to another. -/
def Follow : Nat → List Instruction → Nat → Prop
  | first, [], last => first = last
  | first, instruction :: rest, last =>
    instruction.address = first ∧ Follow (first + instruction.opcodeByteSize) rest last

/-- What is given for a range: at most `UINT32_MAX` instructions that follow one another inside it. -/
structure Disassembly (range : AddressRange) (instructions : List Instruction) : Prop where
  few : instructions.length < 2 ^ 32
  follow : ∃ last ≤ range.loadAddress + range.byteSize, Follow range.loadAddress instructions last
  inside : ∀ instruction ∈ instructions, instruction.address < 2 ^ 64

structure Disassembler where
  disassembleRange : AddressRange → Option (List Instruction)
  sound : ∀ range instructions, disassembleRange range = some instructions → Disassembly range instructions

end ThreadPlanStepRange

open ThreadPlanStepRange in
/-- A branch breakpoint is known by its address; `sameLine` is `GetSameLineContiguousAddressRange`. -/
structure ThreadPlanStepRange where
  addrContext : LineEntry
  addressRanges : List AddressRange
  instructionRanges : List (Option (List Instruction))
  nextBranchBp : Option Nat
  useFastStep : Bool
  givenRangesOnly : Bool

namespace ThreadPlanStepRange

variable (plan : ThreadPlanStepRange) (disassembler : Disassembler) (sameLine : LineEntry → AddressRange)

def addRange (newRange : AddressRange) : ThreadPlanStepRange :=
  { plan with
    addressRanges := plan.addressRanges ++ [newRange]
    instructionRanges := plan.instructionRanges ++ [none] }

def init (range : AddressRange) (addrContext : LineEntry) (givenRangesOnly useFastStep : Bool) :
    ThreadPlanStepRange :=
  addRange ⟨addrContext, [], [], none, useFastStep, givenRangesOnly⟩ range

/-- The middle of another line of the same file: the range of that line replaces all others. -/
def replaces (pc : Nat) (newContext : LineEntry) : Bool :=
  !plan.addressRanges.any (·.containsLoadAddress pc) && !plan.givenRangesOnly &&
    plan.addrContext.isValid && newContext.isValid &&
    plan.addrContext.originalFile == newContext.originalFile && plan.addrContext.line != newContext.line &&
    newContext.line != 0 && newContext.range.loadAddress != pc

def inRange (pc : Nat) (newContext : LineEntry) : Bool × ThreadPlanStepRange :=
  if plan.addressRanges.any (·.containsLoadAddress pc) then (true, plan)
  else if plan.givenRangesOnly then (false, plan)
  else if plan.addrContext.isValid && newContext.isValid then
    if plan.addrContext.originalFile == newContext.originalFile then
      if plan.addrContext.line == newContext.line then
        (true, { plan with addrContext := newContext }.addRange (sameLine newContext))
      else if newContext.line == 0 then
        let newContext := { newContext with line := plan.addrContext.line }
        (true, { plan with addrContext := newContext }.addRange (sameLine newContext))
      else if newContext.range.loadAddress != pc then
        -- `m_address_ranges` is cleared, `m_instruction_ranges` is not
        (true, { plan with addrContext := newContext, addressRanges := [] }.addRange newContext.range)
      else (false, plan)
    else (false, plan)
  else (false, plan)

/-- The disassembly of a range, made where its slot is empty. -/
def disassembly (i : Nat) (range : AddressRange) : Option (List Instruction) :=
  plan.instructionRanges[i]?.join.or (disassembler.disassembleRange range)

/-- The instructions with the index of their range and of the instruction at the address. -/
def getInstructionsForAddress (addr : Nat) :
    Option (List Instruction × Nat × Nat) × ThreadPlanStepRange :=
  match plan.addressRanges.findIdx? (·.containsLoadAddress addr) with
  | none => (none, plan)
  | some i =>
    match plan.addressRanges[i]? with
    | none => (none, plan)
    | some range =>
      if range.byteSize = 0 then (none, plan)
      else
        let disassembled := plan.disassembly disassembler i range
        let plan := { plan with instructionRanges := plan.instructionRanges.set i disassembled }
        match disassembled with
        | none => (none, plan)
        | some instructions =>
          let insnOffset := getIndexOfInstructionAtAddress instructions addr
          if insnOffset = 2 ^ 32 - 1 then (none, plan) else (some (instructions, i, insnOffset), plan)

/-- The run-to address, `stepInvalidAddress` where single-stepping is as good. -/
def runToAddress (instructions : List Instruction) (pcIndex : Nat) : Nat :=
  let branchIndex := getIndexOfNextBranchInstruction instructions pcIndex
  if branchIndex = 2 ^ 32 - 1 then
    let lastIndex := (instructions.length - 1) % 2 ^ 32
    if lastIndex - pcIndex > 1 then
      match instructions[lastIndex]? with
      | some last => (last.address + last.opcodeByteSize) % 2 ^ 64
      | none => stepInvalidAddress
    else stepInvalidAddress
  else if branchIndex - pcIndex > 1 then
    match instructions[branchIndex]? with
    | some branch => branch.address
    | none => stepInvalidAddress
  else stepInvalidAddress

/-- `created` says whether the target makes the breakpoint. -/
def setNextBranchBreakpoint (pc : Nat) (created : Bool) : Bool × ThreadPlanStepRange :=
  if plan.nextBranchBp.isSome then (true, plan)
  else if !plan.useFastStep then (false, plan)
  else
    match plan.getInstructionsForAddress disassembler pc with
    | (none, plan) => (false, plan)
    | (some (instructions, _, pcIndex), plan) =>
      let address := runToAddress instructions pcIndex
      if address != stepInvalidAddress && created then (true, { plan with nextBranchBp := some address })
      else (false, plan)

def clearNextBranchBreakpoint : ThreadPlanStepRange := { plan with nextBranchBp := none }

inductive Call where
  | inRange (pc : Nat) (newContext : LineEntry)
  | setNextBranchBreakpoint (pc : Nat) (created : Bool)
  | clearNextBranchBreakpoint

def after : Call → ThreadPlanStepRange
  | .inRange pc newContext => (plan.inRange sameLine pc newContext).2
  | .setNextBranchBreakpoint pc created => (plan.setNextBranchBreakpoint disassembler pc created).2
  | .clearNextBranchBreakpoint => plan.clearNextBranchBreakpoint

/-- The plans that calls meeting a condition lead to. -/
inductive Reached (condition : ThreadPlanStepRange → Call → Prop) : ThreadPlanStepRange → Prop
  | init (range : AddressRange) (addrContext : LineEntry) (givenRangesOnly useFastStep : Bool) :
    Reached condition (init range addrContext givenRangesOnly useFastStep)
  | after {plan : ThreadPlanStepRange} {call : Call} (reached : Reached condition plan)
    (meets : condition plan call) : Reached condition (plan.after disassembler sameLine call)

/-- The instructions from the program counter up to the breakpoint lie in the range, without a branch. -/
def Passes (range : AddressRange) (instructions : List Instruction) (pc breakpoint : Nat) : Prop :=
  ∃ before passed rest last, instructions = before ++ passed ++ rest ∧ passed ≠ [] ∧
    Follow pc passed last ∧ breakpoint = last % 2 ^ 64 ∧
    ∀ instruction ∈ passed, instruction.doesBranch = false ∧ range.loadAddress ≤ instruction.address ∧
      instruction.address + instruction.opcodeByteSize ≤ range.loadAddress + range.byteSize

/-- A current range has the address and the instructions, and the instruction starts at the address. -/
def Locates (addr : Nat) (instructions : List Instruction) (i insnOffset : Nat) : Prop :=
  ∃ range instruction, plan.addressRanges[i]? = some range ∧ range.containsLoadAddress addr ∧
    disassembler.disassembleRange range = some instructions ∧
    instructions[insnOffset]? = some instruction ∧ instruction.address = addr

structure Consistent : Prop where
  paired : ∀ (i : Nat) range instructions, plan.addressRanges[i]? = some range →
    plan.instructionRanges[i]? = some (some instructions) →
    disassembler.disassembleRange range = some instructions
  located : ∀ addr instructions i insnOffset,
    (plan.getInstructionsForAddress disassembler addr).1 = some (instructions, i, insnOffset) →
    plan.Locates disassembler addr instructions i insnOffset
  passes : ∀ pc created breakpoint, plan.nextBranchBp = none →
    (plan.setNextBranchBreakpoint disassembler pc created).2.nextBranchBp = some breakpoint →
    ∃ range ∈ plan.addressRanges, range.containsLoadAddress pc ∧
      ∃ instructions, disassembler.disassembleRange range = some instructions ∧
        Passes range instructions pc breakpoint

/-- Where the ranges are replaced, none of them has been disassembled. -/
def Keeps : Call → Prop
  | .inRange pc newContext => plan.replaces pc newContext → ∀ slot ∈ plan.instructionRanges, slot = none
  | _ => True

theorem follow_append {first last : Nat} {xs ys : List Instruction} :
    Follow first (xs ++ ys) last ↔ ∃ middle, Follow first xs middle ∧ Follow middle ys last := by
  induction xs generalizing first with
  | nil => simp [Follow]
  | cons x xs ih => simp [Follow, ih, and_assoc]

theorem Follow.inside {first last : Nat} {xs : List Instruction} (follow : Follow first xs last) :
    first ≤ last ∧ ∀ x ∈ xs, first ≤ x.address ∧ x.address + x.opcodeByteSize ≤ last := by
  induction xs generalizing first with
  | nil => exact ⟨follow.le, by simp⟩
  | cons x xs ih =>
    obtain ⟨start, follow⟩ := follow
    obtain ⟨below, inside⟩ := ih follow
    refine ⟨by omega, fun y member => ?_⟩
    rcases mem_cons.mp member with rfl | member
    · omega
    · have := inside y member
      omega

theorem Follow.end_of_last {first last : Nat} {xs : List Instruction} (follow : Follow first xs last)
    {x : Instruction} (final : xs.getLast? = some x) : x.address + x.opcodeByteSize = last := by
  obtain ⟨ys, rfl⟩ := getLast?_eq_some_iff.mp final
  obtain ⟨middle, -, start, stop⟩ := follow_append.mp follow
  exact start ▸ stop

theorem getIndexOfInstructionAtAddress_spec {instructions : List Instruction} {address : Nat}
    (few : instructions.length < 2 ^ 32)
    (found : getIndexOfInstructionAtAddress instructions address ≠ 2 ^ 32 - 1) :
    ∃ instruction, instructions[getIndexOfInstructionAtAddress instructions address]? = some instruction ∧
      instruction.address = address := by
  unfold getIndexOfInstructionAtAddress at found ⊢
  split at found
  next index at_ =>
    obtain ⟨below, same, -⟩ := findIdx?_eq_some_iff_getElem.mp at_
    exact ⟨instructions[index], by rw [Nat.mod_eq_of_lt (below.trans few), List.getElem?_eq_getElem below],
      by simpa using same⟩
  next => exact absurd rfl found

/-- Up to the first branch, or to the end, nothing branches. -/
theorem runToAddress_passes {range : AddressRange} {instructions : List Instruction} {pcIndex : Nat}
    {instruction : Instruction} (disassembly : Disassembly range instructions)
    (here : instructions[pcIndex]? = some instruction)
    (valid : runToAddress instructions pcIndex ≠ stepInvalidAddress) :
    Passes range instructions instruction.address (runToAddress instructions pcIndex) := by
  obtain ⟨few, ⟨last, below, follow⟩, small⟩ := disassembly
  obtain ⟨short, rfl⟩ := List.getElem?_eq_some_iff.mp here
  have parts := take_append_drop pcIndex instructions
  rw [← parts] at follow
  obtain ⟨first, -, tail⟩ := follow_append.mp follow
  have start : instructions[pcIndex].address = first := by
    rw [drop_eq_getElem_cons short] at tail
    exact tail.1
  -- whatever part of the tail is passed lies in the range
  have passes : ∀ passed rest middle, instructions.drop pcIndex = passed ++ rest → passed ≠ [] →
      Follow first passed middle → (∀ x ∈ passed, x.doesBranch = false) →
      Passes range instructions instructions[pcIndex].address (middle % 2 ^ 64) := by
    intro passed rest middle split some_ passing straight
    refine ⟨instructions.take pcIndex, passed, rest, middle, ?_, some_, start ▸ passing, rfl,
      fun x member => ⟨straight x member, ?_⟩⟩
    · simp [← split]
    · have inside := follow.inside.2 x (by simp [split, member])
      omega
  unfold runToAddress getIndexOfNextBranchInstruction at valid ⊢
  cases branchAt : (instructions.drop pcIndex).findIdx? Instruction.doesBranch with
  | none =>
    have lastIndex : (instructions.length - 1) % 2 ^ 32 = instructions.length - 1 := Nat.mod_eq_of_lt (by omega)
    simp only [branchAt, if_true, lastIndex, ← getLast?_eq_getElem?] at valid ⊢
    split at valid
    next =>
      cases final : instructions.getLast? with
      | none => simp [final] at valid
      | some x =>
        have ends := tail.end_of_last (x := x) (by rw [getLast?_drop, if_neg (by omega), final])
        rw [if_pos ‹_›]
        change Passes _ _ _ ((x.address + x.opcodeByteSize) % 2 ^ 64)
        rw [ends]
        refine passes _ [] last (by simp) (fun none => ?_) tail (findIdx?_eq_none_iff.mp branchAt)
        have := drop_eq_nil_iff.mp none
        omega
    next => exact absurd rfl valid
  | some count =>
    obtain ⟨early, -, straight⟩ := findIdx?_eq_some_iff_getElem.mp branchAt
    have bound : pcIndex + count < instructions.length := by
      rw [length_drop] at early
      omega
    have branchIndex : (pcIndex + count) % 2 ^ 32 = pcIndex + count := Nat.mod_eq_of_lt (by omega)
    have behind := take_append_drop count (instructions.drop pcIndex)
    simp only [branchAt, branchIndex, if_neg (show ¬pcIndex + count = 2 ^ 32 - 1 by omega),
      getElem?_eq_getElem bound] at valid ⊢
    split at valid
    next far =>
      rw [if_pos far]
      rw [← behind] at tail
      obtain ⟨middle, passing, stop⟩ := follow_append.mp tail
      rw [drop_eq_getElem_cons early, getElem_drop] at stop
      have := passes _ _ middle behind.symm (fun none => ?_) passing fun x member => ?_
      · rwa [← stop.1, Nat.mod_eq_of_lt (small _ (getElem_mem bound))] at this
      · have := congrArg length none
        simp at this
        omega
      · obtain ⟨j, below_, rfl⟩ := mem_iff_getElem.mp member
        simpa using straight j (by simp at below_; omega)
    next => exact absurd rfl valid

/-- A slot that is set holds the disassembly of the range beside it. -/
def Matched : Prop := ∀ (i : Nat) instructions, plan.instructionRanges[i]? = some (some instructions) →
  ∃ range, plan.addressRanges[i]? = some range ∧ disassembler.disassembleRange range = some instructions

variable {plan disassembler sameLine}

theorem Matched.addRange (matched : plan.Matched disassembler) (newRange : AddressRange) :
    (plan.addRange newRange).Matched disassembler := by
  intro i instructions slot
  simp only [ThreadPlanStepRange.addRange] at slot ⊢
  rcases lt_or_ge i plan.instructionRanges.length with old | new
  · rw [getElem?_append_left old] at slot
    obtain ⟨range, here, same⟩ := matched i instructions slot
    exact ⟨range, by rw [getElem?_append_left (List.getElem?_eq_some_iff.mp here).1, here], same⟩
  · -- the slot of the new range is empty
    rw [getElem?_append_right new] at slot
    have := mem_of_getElem? slot
    simp at this

theorem Matched.inRange {pc : Nat} {newContext : LineEntry} (matched : plan.Matched disassembler)
    (keeps : plan.Keeps (.inRange pc newContext)) :
    (plan.inRange sameLine pc newContext).2.Matched disassembler := by
  unfold ThreadPlanStepRange.inRange
  split
  · exact matched
  split
  · exact matched
  split
  · split
    · split
      · exact @addRange { plan with addrContext := newContext } _ matched _
      split
      · exact @addRange { plan with addrContext := _ } _ matched _
      split
      · refine @addRange { plan with addrContext := newContext, addressRanges := [] } _ ?_ _
        intro i instructions slot
        have unset := keeps (by simp_all [replaces]) _ (mem_of_getElem? slot)
        cases unset
      · exact matched
    · exact matched
  · exact matched

/-- What is found is a range with its own disassembly; no field but the disassemblies changes. -/
theorem Matched.getInstructionsForAddress (matched : plan.Matched disassembler) (addr : Nat) :
    (plan.getInstructionsForAddress disassembler addr).2.Matched disassembler ∧
      (plan.getInstructionsForAddress disassembler addr).2.nextBranchBp = plan.nextBranchBp ∧
      ∀ instructions i insnOffset,
        (plan.getInstructionsForAddress disassembler addr).1 = some (instructions, i, insnOffset) →
        plan.Locates disassembler addr instructions i insnOffset := by
  unfold ThreadPlanStepRange.getInstructionsForAddress
  split
  · exact ⟨matched, rfl, nofun⟩
  next i first =>
  obtain ⟨bound, contains, -⟩ := findIdx?_eq_some_iff_getElem.mp first
  rw [getElem?_eq_getElem bound]
  have here := getElem?_eq_getElem bound
  generalize plan.addressRanges[i] = range at contains here
  simp only
  split
  · exact ⟨matched, rfl, nofun⟩
  -- a slot that is set holds what the disassembler would give
  have same : ∀ instructions, plan.disassembly disassembler i range = some instructions →
      disassembler.disassembleRange range = some instructions := by
    intro instructions given
    rcases or_eq_some_iff.mp given with slot | ⟨-, fresh⟩
    · obtain ⟨other, at_, disassembly⟩ := matched i instructions (join_eq_some_iff.mp slot)
      rw [here, Option.some.injEq] at at_
      exact at_ ▸ disassembly
    · exact fresh
  have kept : Matched { plan with
      instructionRanges := plan.instructionRanges.set i (plan.disassembly disassembler i range) } disassembler := by
    intro j instructions slot
    rw [getElem?_set] at slot
    split at slot
    next equal =>
      subst equal
      split at slot
      · exact ⟨range, here, same _ (Option.some.inj slot)⟩
      · cases slot
    next => exact matched j instructions slot
  split
  · exact ⟨kept, rfl, nofun⟩
  next instructions given =>
  split
  · exact ⟨kept, rfl, nofun⟩
  next found =>
  refine ⟨kept, rfl, ?_⟩
  rintro _ _ _ ⟨⟩
  have disassembly := same instructions given
  obtain ⟨instruction, at_, start⟩ := getIndexOfInstructionAtAddress_spec (disassembler.sound _ _ disassembly).few found
  exact ⟨range, instruction, here, contains, disassembly, at_, start⟩

theorem Matched.setNextBranchBreakpoint (matched : plan.Matched disassembler) (pc : Nat) (created : Bool) :
    (plan.setNextBranchBreakpoint disassembler pc created).2.Matched disassembler ∧
      ∀ breakpoint, plan.nextBranchBp = none →
        (plan.setNextBranchBreakpoint disassembler pc created).2.nextBranchBp = some breakpoint →
        ∃ range ∈ plan.addressRanges, range.containsLoadAddress pc ∧
          ∃ instructions, disassembler.disassembleRange range = some instructions ∧
            Passes range instructions pc breakpoint := by
  obtain ⟨kept, unchanged, located⟩ := matched.getInstructionsForAddress pc
  unfold ThreadPlanStepRange.setNextBranchBreakpoint
  split
  · exact ⟨matched, fun breakpoint unset set_ => by simp [unset] at set_⟩
  split
  · exact ⟨matched, fun breakpoint unset set_ => by simp [unset] at set_⟩
  split
  next plan' result =>
    rw [result] at kept unchanged
    exact ⟨kept, fun breakpoint unset set_ => by simp_all⟩
  next instructions i pcIndex plan' result =>
    rw [result] at kept unchanged located
    obtain ⟨range, instruction, at_, contains, disassembly, here, start⟩ := located instructions i pcIndex rfl
    simp only
    split
    next valid =>
      refine ⟨kept, ?_⟩
      rintro breakpoint unset ⟨⟩
      refine ⟨range, mem_of_getElem? at_, contains, instructions, disassembly, ?_⟩
      have passes := runToAddress_passes (disassembler.sound _ _ disassembly) here (by simp at valid; exact valid.1)
      exact start ▸ passes
    next => exact ⟨kept, fun breakpoint unset set_ => by simp_all⟩

theorem Matched.after {call : Call} (matched : plan.Matched disassembler) (keeps : plan.Keeps call) :
    (plan.after disassembler sameLine call).Matched disassembler := by
  cases call with
  | inRange pc newContext => exact matched.inRange keeps
  | setNextBranchBreakpoint pc created => exact (matched.setNextBranchBreakpoint pc created).1
  | clearNextBranchBreakpoint => exact matched

theorem Reached.matched (reached : Reached disassembler sameLine Keeps plan) : plan.Matched disassembler := by
  induction reached with
  | init range addrContext givenRangesOnly useFastStep =>
    intro i instructions slot
    have := mem_of_getElem? slot
    simp [ThreadPlanStepRange.init, ThreadPlanStepRange.addRange] at this
  | after reached keeps ih => exact ih.after keeps

/-- Takes a range for one instruction. -/
def oneInstruction : Disassembler where
  disassembleRange range := if range.loadAddress < 2 ^ 64 then some [⟨range.loadAddress, range.byteSize, false⟩] else none
  sound range instructions given := by
    simp only [ite_none_right_eq_some, Option.some.injEq] at given
    obtain ⟨small, rfl⟩ := given
    exact ⟨by simp, ⟨_, le_refl _, rfl, rfl⟩, by simpa using small⟩

end ThreadPlanStepRange

end Lldb
