import Lldb.Host.DebugRegisters

/-! The debug registers of `NativeRegisterContextLinux_arm64`.

The answers of `ptrace` are inputs. The registers are an array of 16, and the system reports at most as many;
here their number is not bounded. Hit addresses are not modelled.
-/

set_option autoImplicit false

namespace Lldb

structure DREG where
  address : Nat
  realAddr : Nat
  control : BitVec 32
  deriving DecidableEq, Repr

namespace DREG

def enabled (reg : DREG) : Bool := reg.control.getLsbD 0

end DREG

/-- The registers for `DebugKind.watchpoint` are `m_hwp_regs`, the others `m_hbr_regs`. -/
structure RegisterContextArm64 where
  regs : DebugKind → Nat → DREG
  maxSupported : DebugKind → Nat
  refreshHwdebugInfo : Bool

/-- The numbers of registers that are read, or `none` where the call fails, and whether registers are written. -/
structure PtraceAnswers where
  watchInfo : Option Nat
  breakInfo : Option Nat
  written : Bool
  deriving DecidableEq, Repr

namespace RegisterContextArm64

variable (answers : PtraceAnswers) (context : RegisterContextArm64)

variable (kind : DebugKind)

def withRegs (index : Nat) (reg : DREG) : RegisterContextArm64 :=
  { context with regs := Function.update context.regs kind (Function.update (context.regs kind) index reg) }

def withMaxSupported (count : Nat) : RegisterContextArm64 :=
  { context with maxSupported := Function.update context.maxSupported kind count }

def readHardwareDebugInfo : Bool × RegisterContextArm64 :=
  if ¬ context.refreshHwdebugInfo then (true, context)
  else
    match answers.watchInfo with
    | none => (false, context)
    | some watch =>
        let context := context.withMaxSupported .watchpoint watch
        match answers.breakInfo with
        | none => (false, context)
        | some break_ => (true, { context.withMaxSupported .breakpoint break_ with refreshHwdebugInfo := false })

def numSupported : Nat × RegisterContextArm64 :=
  let (read, context) := context.readHardwareDebugInfo answers
  if read then (context.maxSupported kind, context) else (0, context)

/-- The last free register below the number supported, unless the address is there already. -/
def findFree (regs : Nat → DREG) (addr : Nat) : List Nat → Option Nat → Option Nat
  | [], index => index
  | i :: rest, index =>
      if ¬ (regs i).enabled then findFree regs addr rest (some i)
      else if (regs i).address = addr then none
      else findFree regs addr rest index

/-- The end of `SetHardwareWatchpoint` and `SetHardwareBreakpoint`. -/
def setRegister (realAddr addr : Nat) (control : BitVec 32) : Option Nat × RegisterContextArm64 :=
  match findFree (context.regs kind) addr (List.range (context.maxSupported kind)) none with
  | none => (none, context)
  | some index =>
      if answers.written then (some index, context.withRegs kind index ⟨addr, realAddr, control⟩)
      else (none, context.withRegs kind index ⟨0, realAddr, control &&& ~~~1#32⟩)

def setHardwareBreakpoint (request : DebugRequest) : Option Nat × RegisterContextArm64 :=
  let (read, context) := context.readHardwareDebugInfo answers
  if ¬ read then (none, context)
  else if request.size ≠ 4 then (none, context)
  else if request.addr % 4 ≠ 0 then (none, context)
  else
    context.setRegister answers .breakpoint request.addr request.addr
      ((1#32 <<< request.size - 1#32) <<< 5 ||| (2#32 <<< 1 ||| 1#32))

def setHardwareWatchpoint (request : DebugRequest) : Option Nat × RegisterContextArm64 :=
  let (read, context) := context.readHardwareDebugInfo answers
  if ¬ read then (none, context)
  else
    match (match request.watchFlags with | 1 => some 2#32 | 2 => some 1#32 | 3 => some 3#32 | _ => none) with
    | none => (none, context)
    | some watchFlags =>
        if request.size ≠ 1 ∧ request.size ≠ 2 ∧ request.size ≠ 4 ∧ request.size ≠ 8 then (none, context)
        else
          -- An address that is not aligned is watched through the aligned one below it.
          let watchMask := request.addr % 8 + request.size
          if request.addr % 8 ≠ 0 ∧ watchMask > 8 then (none, context)
          else
            let size :=
              if request.addr % 8 = 0 then request.size
              else if watchMask ≤ 2 then 2 else if watchMask ≤ 4 then 4 else 8
            context.setRegister answers .watchpoint request.addr (request.addr - request.addr % 8)
              (watchFlags <<< 3 ||| (1#32 <<< size - 1#32) <<< 5 ||| (2#32 <<< 1 ||| 1#32))

/-- `ClearHardwareWatchpoint` and `ClearHardwareBreakpoint`. -/
def clearHardware (index : Nat) : Bool × RegisterContextArm64 :=
  let (read, context) := context.readHardwareDebugInfo answers
  if ¬ read then (false, context)
  else if context.maxSupported kind ≤ index then (false, context)
  else
    let reg := context.regs kind index
    if answers.written then (true, context.withRegs kind index ⟨0, reg.realAddr, reg.control &&& ~~~1#32⟩)
    else (false, context.withRegs kind index reg)

def set (request : DebugRequest) : Option Nat × RegisterContextArm64 :=
  match kind with
  | .watchpoint => context.setHardwareWatchpoint answers request
  | .breakpoint => context.setHardwareBreakpoint answers request

def slots (place : DebugKind × Nat) : Option DREG :=
  if (context.regs place.1 place.2).enabled then some (context.regs place.1 place.2) else none

variable {answers} {context}

theorem slots_withRegs (context : RegisterContextArm64) (kind : DebugKind) (index : Nat) (reg : DREG) :
    (context.withRegs kind index reg).slots =
      Function.update context.slots (kind, index) (if reg.enabled then some reg else none) := by
  funext place
  obtain ⟨other, i⟩ := place
  by_cases same : (other, i) = (kind, index)
  · cases same
    simp [slots, withRegs]
  · by_cases kinds : other = kind
    · subst kinds
      have ne : i ≠ index := fun equal => same (equal ▸ rfl)
      simp [slots, withRegs, ne]
    · simp [slots, withRegs, kinds]

theorem slots_readHardwareDebugInfo (answers : PtraceAnswers) (context : RegisterContextArm64) :
    (context.readHardwareDebugInfo answers).2.slots = context.slots := by
  unfold readHardwareDebugInfo
  split_ifs
  · split
    · rfl
    · split <;> rfl
  · rfl

theorem findFree_free (regs : Nat → DREG) (addr : Nat) {indices : List Nat} {start : Option Nat} {index : Nat}
    (found : findFree regs addr indices start = some index) : (regs index).enabled = false ∨ start = some index := by
  induction indices generalizing start with
  | nil => exact .inr found
  | cons i rest ih =>
    rw [findFree] at found
    split_ifs at found with used same
    · exact ih found
    · rcases ih found with free | here
      · exact .inl free
      · cases here
        exact .inl (Bool.eq_false_iff.mpr used)

/-- What a set comes to: nothing, or a register that was free and is enabled for the address. -/
def Sets (request : DebugRequest) (kind : DebugKind) (before : RegisterContextArm64)
    (result : Option Nat × RegisterContextArm64) : Prop :=
  (result.1 = none ∧ result.2.slots = before.slots) ∨
    ∃ index reg, result.1 = some index ∧ before.slots (kind, index) = none ∧ reg.realAddr = request.addr ∧
      result.2.slots = Function.update before.slots (kind, index) (some reg)

theorem slots_eq_none {kind : DebugKind} {index : Nat} (free : (context.regs kind index).enabled = false) :
    context.slots (kind, index) = none := by
  simp [slots, free]

theorem enabled_control (control : BitVec 32) : (control ||| (2#32 <<< 1 ||| 1#32)).getLsbD 0 = true := by
  simp

theorem setRegister_sets (answers : PtraceAnswers) (context : RegisterContextArm64) {kind : DebugKind} {realAddr : Nat}
    {request : DebugRequest} (same : realAddr = request.addr) (addr : Nat) {control : BitVec 32}
    (enables : control.getLsbD 0 = true) :
    Sets request kind context (context.setRegister answers kind realAddr addr control) := by
  rw [setRegister]
  split
  · exact .inl ⟨rfl, rfl⟩
  · rename_i index found
    have free := slots_eq_none ((findFree_free _ _ found).resolve_right nofun)
    split_ifs
    · refine .inr ⟨index, ⟨addr, realAddr, control⟩, rfl, free, same, ?_⟩
      rw [slots_withRegs]
      exact congrArg (Function.update context.slots (kind, index)) (if_pos enables)
    · refine .inl ⟨rfl, ?_⟩
      have off : DREG.enabled ⟨0, realAddr, control &&& ~~~1#32⟩ = false := by
        simp [DREG.enabled]
      rw [slots_withRegs, off, Function.update_eq_self_iff]
      exact free.symm

theorem Sets.of_slots {request : DebugRequest} {kind : DebugKind} {next : RegisterContextArm64}
    {result : Option Nat × RegisterContextArm64} (same : next.slots = context.slots)
    (sets : Sets request kind next result) : Sets request kind context result := by
  rwa [Sets, same] at sets

theorem set_sets (answers : PtraceAnswers) (context : RegisterContextArm64)
    (request : DebugRequest) : Sets request kind context (context.set answers kind request) := by
  have same : (context.readHardwareDebugInfo answers).2.slots = context.slots :=
    slots_readHardwareDebugInfo answers context
  cases kind with
  | watchpoint =>
    rw [set, setHardwareWatchpoint]
    generalize context.readHardwareDebugInfo answers = result at same ⊢
    obtain ⟨read, next⟩ := result
    dsimp only at same ⊢
    split
    · exact .inl ⟨rfl, same⟩
    · split
      · exact .inl ⟨rfl, same⟩
      · split_ifs
        · exact .inl ⟨rfl, same⟩
        · exact .inl ⟨rfl, same⟩
        all_goals exact (setRegister_sets answers next rfl _ (enabled_control _)).of_slots same
  | breakpoint =>
    rw [set, setHardwareBreakpoint]
    generalize context.readHardwareDebugInfo answers = result at same ⊢
    obtain ⟨read, next⟩ := result
    dsimp only at same ⊢
    split
    · exact .inl ⟨rfl, same⟩
    · split
      · exact .inl ⟨rfl, same⟩
      · split
        · exact .inl ⟨rfl, same⟩
        · exact (setRegister_sets answers next rfl _ (enabled_control _)).of_slots same

def Clears (index : Nat) (before : RegisterContextArm64) (result : Bool × RegisterContextArm64) :
    Prop :=
  (result.1 = false ∧ result.2.slots = before.slots) ∨
    (result.1 = true ∧ result.2.slots = Function.update before.slots (kind, index) none)

theorem clearHardware_clears (answers : PtraceAnswers) (context : RegisterContextArm64)
    (index : Nat) : Clears kind index context (context.clearHardware answers kind index) := by
  have same := slots_readHardwareDebugInfo answers context
  rw [clearHardware]
  dsimp only at same ⊢
  split
  · exact .inl ⟨rfl, same⟩
  · split
    · exact .inl ⟨rfl, same⟩
    · split
      · refine .inr ⟨rfl, ?_⟩
        have off (reg : DREG) : DREG.enabled ⟨0, reg.realAddr, reg.control &&& ~~~1#32⟩ = false := by
          simp [DREG.enabled]
        rw [slots_withRegs, off, if_neg Bool.false_ne_true, same]
      · refine .inl ⟨rfl, ?_⟩
        rw [slots_withRegs, ← same, Function.update_eq_self_iff]
        rfl

end RegisterContextArm64

open RegisterContextArm64 in
def arm64 : DebugRegisters where
  Context := RegisterContextArm64
  Answer := PtraceAnswers
  Slot := DREG
  address := DREG.realAddr
  slots := RegisterContextArm64.slots
  set kind answers context request := context.set answers kind request
  clear kind answers context index := context.clearHardware answers kind index
  numSupported kind answers context := context.numSupported answers kind
  set_refused kind answers context request refused := by
    rcases set_sets kind answers context request with ⟨-, same⟩ | ⟨index, reg, granted, -⟩
    · exact same
    · rw [refused] at granted
      cases granted
  set_granted kind answers context request index granted := by
    rcases set_sets kind answers context request with ⟨refused, -⟩ | ⟨other, reg, here, free, address, after⟩
    · rw [granted] at refused
      cases refused
    · cases granted.symm.trans here
      exact ⟨free, reg, address, after⟩
  clear_failed kind answers context index failed := by
    rcases clearHardware_clears kind answers context index with ⟨-, same⟩ | ⟨done, -⟩
    · exact same
    · rw [failed] at done
      cases done
  clear_done kind answers context index done := by
    rcases clearHardware_clears kind answers context index with ⟨failed, -⟩ | ⟨-, after⟩
    · rw [done] at failed
      cases failed
    · exact after
  numSupported_keeps kind answers context := by
    have read := slots_readHardwareDebugInfo answers context
    rw [RegisterContextArm64.numSupported]
    generalize context.readHardwareDebugInfo answers = result at read ⊢
    obtain ⟨success, next⟩ := result
    cases success
    · exact read
    · exact read

end Lldb
