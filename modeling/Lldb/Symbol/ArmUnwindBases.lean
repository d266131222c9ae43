import Lldb.Symbol.ArmUnwindTable
import Mathlib.Data.BitVec

/-! When the virtual stack pointer is an offset from the register that the row names: the opcodes
before the one that last sets it must neither have moved it nor have popped its register.
-/

set_option autoImplicit false

namespace Lldb.ArmUnwindInfo

open List

namespace Opcode

def base : Opcode → Option Nat
  | setVsp register _ => some register.val
  | _ => none

def registers : Opcode → List Nat
  | popMask high low _ => masked dwarfR4 12 (256 * high.val + low.toNat)
  | popRange n => counted dwarfR4 n.val
  | popRangeLr n => counted dwarfR4 n.val ++ [dwarfLr]
  | popLow mask _ => masked dwarfR0 4 mask.val
  | popVfpX s c | popVfp s c => counted (dwarfD0 + s.val) c.val
  | popVfp16 s c => counted (dwarfD16 + s.val) c.val
  | popVfpX8 n | popVfp8 n => counted dwarfD8 n.val
  | increment _ | decrement _ | setVsp _ _ | incrementUleb _ => []

def size : Opcode → Word
  | popVfpX _ _ | popVfpX8 _ | popVfp16 _ _ | popVfp _ _ | popVfp8 _ => 8
  | _ => 4

def extra : Opcode → Word
  | increment x => BitVec.ofNat 32 (4 * x.val + 4)
  | decrement x => -BitVec.ofNat 32 (4 * x.val + 4)
  | incrementUleb number => BitVec.ofNat 32 (0x204 + 4 * number.unsigned)
  | popVfpX _ _ | popVfpX8 _ => 4
  | _ => 0

end Opcode

def span (size : Word) : List Nat → Word
  | [] => 0
  | _ :: registers => size + span size registers

def Opcode.delta (opcode : Opcode) : Word := span opcode.size opcode.registers + opcode.extra

def moved : List Opcode → Word
  | [] => 0
  | opcode :: opcodes => opcode.delta + moved opcodes

theorem moved_append (front back : List Opcode) : moved (front ++ back) = moved front + moved back := by
  induction front with
  | nil => exact (BitVec.zero_add _).symm
  | cons opcode front ih =>
    simp [moved, ih, BitVec.add_assoc]

/-- Where a register is popped from last, from the stack pointer before all pops on. -/
def within (size : Word) : List Nat → Nat → Option Word
  | [], _ => none
  | register :: registers, other =>
    ((within size registers other).map (size + ·)).or (if other = register then some 0 else none)

theorem within_eq_none {size : Word} {registers : List Nat} {register : Nat} :
    within size registers register = none ↔ register ∉ registers := by
  induction registers with
  | nil => simp [within]
  | cons first registers ih =>
    rw [within, Option.or_eq_none_iff, Option.map_eq_none_iff, ih]
    by_cases same : register = first
    · simp [same]
    · simp [same]

/-! What the loop does. -/

def lastOffset (offsets : List (Nat × BitVec 32)) (register : Nat) : Option (BitVec 32) :=
  (offsets.reverse.find? fun offset => offset.1 = register).map Prod.snd

theorem lastOffset_concat (offsets : List (Nat × BitVec 32)) (register other : Nat) (offset : BitVec 32) :
    lastOffset (offsets ++ [(register, offset)]) other = if other = register then some offset else lastOffset offsets other := by
  unfold lastOffset
  by_cases same : other = register
  · simp [same]
  · simp [same, Ne.symm same]

namespace State

variable (state : State)
include state

theorem popAll_vsp (size : Word) (registers : List Nat) :
    (state.popAll size registers).vsp = state.vsp + span size registers := by
  induction registers generalizing state with
  | nil => exact (BitVec.add_zero _).symm
  | cons register registers ih =>
    change ((state.pop size register).popAll size registers).vsp = _
    rw [ih, span, ← BitVec.add_assoc]
    rfl

theorem popAll_vspReg (size : Word) (registers : List Nat) : (state.popAll size registers).vspReg = state.vspReg := by
  induction registers generalizing state with
  | nil => rfl
  | cons register registers ih => exact ih (state.pop size register)

theorem lastOffset_popAll (size : Word) (registers : List Nat) (register : Nat) :
    lastOffset (state.popAll size registers).registerOffsets register =
      ((within size registers register).map (state.vsp + ·)).or (lastOffset state.registerOffsets register) := by
  induction registers generalizing state with
  | nil => rfl
  | cons first registers ih =>
    change lastOffset ((state.pop size first).popAll size registers).registerOffsets register = _
    rw [ih, within]
    change ((within size registers register).map (state.vsp + size + ·)).or
      (lastOffset (state.registerOffsets ++ [(first, state.vsp)]) register) = _
    rw [lastOffset_concat]
    cases within size registers register with
    | some inside => simp [BitVec.add_assoc]
    | none => split <;> simp

theorem execute_eq (opcode : Opcode) :
    state.execute opcode = { (state.popAll opcode.size opcode.registers).add opcode.extra with
      vspReg := opcode.base.getD state.vspReg } := by
  have zero (after : State) : after.add 0 = after :=
    congrArg (fun vsp => { after with vsp := vsp }) (BitVec.add_zero after.vsp)
  have all (size : Word) (registers : List Nat) :
      { state.popAll size registers with vspReg := state.vspReg } = state.popAll size registers := by
    rw [← popAll_vspReg state size registers]
  cases opcode with
  | increment x => rfl
  | decrement x => rfl
  | incrementUleb number => rfl
  | setVsp register other => exact congrArg (fun vsp => State.mk register.val vsp state.registerOffsets) (BitVec.add_zero _).symm
  | popVfpX s c => exact congrArg (State.add · 4) (all _ _).symm
  | popVfpX8 n => exact congrArg (State.add · 4) (all _ _).symm
  | popMask | popRange | popRangeLr | popLow | popVfp16 | popVfp | popVfp8 =>
    exact (all _ _).symm.trans (congrArg (fun after : State => { after with vspReg := state.vspReg }) (zero _).symm)

theorem execute_vsp (opcode : Opcode) : (state.execute opcode).vsp = state.vsp + opcode.delta := by
  rw [execute_eq]
  change (state.popAll opcode.size opcode.registers).vsp + opcode.extra = _
  rw [popAll_vsp, Opcode.delta, BitVec.add_assoc]

theorem lastOffset_execute (opcode : Opcode) (register : Nat) :
    lastOffset (state.execute opcode).registerOffsets register =
      ((within opcode.size opcode.registers register).map (state.vsp + ·)).or (lastOffset state.registerOffsets register) := by
  rw [execute_eq]
  exact lastOffset_popAll state opcode.size opcode.registers register

theorem foldl_vsp (opcodes : List Opcode) : (opcodes.foldl execute state).vsp = state.vsp + moved opcodes := by
  induction opcodes generalizing state with
  | nil => exact (BitVec.add_zero _).symm
  | cons opcode opcodes ih => rw [foldl_cons, ih, execute_vsp, moved, BitVec.add_assoc]

theorem foldl_vspReg {opcodes : List Opcode} (none_ : ∀ opcode ∈ opcodes, opcode.base = none) :
    (opcodes.foldl execute state).vspReg = state.vspReg := by
  induction opcodes generalizing state with
  | nil => rfl
  | cons opcode opcodes ih =>
    simp [ih _ fun later there => none_ later (mem_cons_of_mem _ there), execute_eq, none_ opcode mem_cons_self]

theorem lastOffset_foldl {opcodes : List Opcode} {register : Nat}
    (apart : ∀ opcode ∈ opcodes, register ∉ opcode.registers) :
    lastOffset (opcodes.foldl execute state).registerOffsets register = lastOffset state.registerOffsets register := by
  induction opcodes generalizing state with
  | nil => rfl
  | cons opcode opcodes ih =>
    simp [ih _ fun later there => apart later (mem_cons_of_mem _ there), lastOffset_execute, within_eq_none.mpr (apart opcode mem_cons_self)]

end State

/-! What the virtual execution does. -/

namespace Virtual

variable (memory : Word → Word)

variable (virtual : Virtual)
include virtual

theorem popAll_vsp (size : Word) (registers : List Nat) :
    (virtual.popAll memory size registers).vsp = virtual.vsp + span size registers := by
  induction registers generalizing virtual with
  | nil => exact (BitVec.add_zero _).symm
  | cons register registers ih =>
    change ((virtual.pop memory size register).popAll memory size registers).vsp = _
    rw [ih, span, ← BitVec.add_assoc]
    rfl

theorem popAll_slots (size : Word) (registers : List Nat) (register : Nat) :
    (virtual.popAll memory size registers).slots register =
      ((within size registers register).map (virtual.vsp + ·)).or (virtual.slots register) := by
  induction registers generalizing virtual with
  | nil => rfl
  | cons first registers ih =>
    change ((virtual.pop memory size first).popAll memory size registers).slots register = _
    rw [ih, within]
    change ((within size registers register).map (virtual.vsp + size + ·)).or
      (Function.update virtual.slots first (some virtual.vsp) register) = _
    rw [Function.update_apply]
    cases within size registers register with
    | some inside => simp [BitVec.add_assoc]
    | none => split <;> simp

variable {register : Nat} {opcode : Opcode} {opcodes : List Opcode}

theorem popAll_core (size : Word) {registers : List Nat}
    (apart : register ∉ registers) : (virtual.popAll memory size registers).core register = virtual.core register := by
  induction registers generalizing virtual with
  | nil => rfl
  | cons first registers ih =>
    rw [mem_cons, not_or] at apart
    refine (ih (virtual.pop memory size first) apart.2).trans ?_
    unfold pop
    split
    · exact Function.update_of_ne apart.1 _ _
    · rfl

theorem popAll_constant (size value : Word) {registers : List Nat} (core : register < 16)
    (held : register ∈ registers ∨ virtual.core register = value) :
    (virtual.popAll (fun _ => value) size registers).core register = value := by
  induction registers generalizing virtual with
  | nil => exact held.resolve_left not_mem_nil
  | cons first registers ih =>
    apply ih (virtual.pop (fun _ => value) size first)
    rw [mem_cons] at held
    unfold pop
    by_cases same : register = first
    · right
      simp only [← same, if_pos core, Function.update_self]
    · refine (held.imp_left fun there => there.resolve_left same).imp_right fun before => ?_
      split
      · exact (Function.update_of_ne same _ _).trans before
      · exact before

theorem execute_eq (none_ : opcode.base = none) :
    virtual.execute memory opcode = (virtual.popAll memory opcode.size opcode.registers).add opcode.extra := by
  have zero (after : Virtual) : after = after.add 0 :=
    congrArg (fun vsp => { after with vsp := vsp }) (BitVec.add_zero after.vsp).symm
  cases opcode with
  | increment x => rfl
  | decrement x => rfl
  | incrementUleb number => rfl
  | setVsp register other => cases none_
  | popVfpX s c => rfl
  | popVfpX8 n => rfl
  | popMask | popRange | popRangeLr | popLow | popVfp16 | popVfp | popVfp8 => exact zero _

theorem execute_base (base : opcode.base = some register) : register < 16 ∧ opcode.registers = [] ∧ opcode.delta = 0 ∧
      virtual.execute memory opcode = { virtual with vsp := virtual.core register } := by
  cases opcode with
  | setVsp number other =>
    cases base
    exact ⟨number.isLt, rfl, rfl, rfl⟩
  | _ => cases base

theorem execute_vsp (none_ : opcode.base = none) :
    (virtual.execute memory opcode).vsp = virtual.vsp + opcode.delta := by
  rw [execute_eq memory virtual none_, add, popAll_vsp, Opcode.delta, BitVec.add_assoc]

theorem execute_slots (opcode : Opcode) (register : Nat) : (virtual.execute memory opcode).slots register =
      ((within opcode.size opcode.registers register).map (virtual.vsp + ·)).or (virtual.slots register) := by
  cases base : opcode.base with
  | none =>
    rw [execute_eq memory virtual base]
    exact popAll_slots memory virtual opcode.size opcode.registers register
  | some number =>
    obtain ⟨-, none_, -, executed⟩ := execute_base memory virtual base
    rw [none_, executed]
    rfl

theorem execute_core (apart : register ∉ opcode.registers) :
    (virtual.execute memory opcode).core register = virtual.core register := by
  cases base : opcode.base with
  | none =>
    rw [execute_eq memory virtual base]
    exact popAll_core memory virtual opcode.size apart
  | some number => rw [(execute_base memory virtual base).2.2.2]

theorem execute_constant {value : Word} (core : register < 16)
    (held : register ∈ opcode.registers ∨ virtual.core register = value) :
    (virtual.execute (fun _ => value) opcode).core register = value := by
  cases base : opcode.base with
  | none =>
    rw [execute_eq _ virtual base]
    exact popAll_constant virtual opcode.size value core held
  | some number =>
    obtain ⟨-, none_, -, executed⟩ := execute_base (fun _ => value) virtual base
    rw [executed]
    rw [none_] at held
    exact held.resolve_left not_mem_nil

theorem foldl_vsp (none_ : ∀ opcode ∈ opcodes, opcode.base = none) :
    (opcodes.foldl (execute memory) virtual).vsp = virtual.vsp + moved opcodes := by
  induction opcodes generalizing virtual with
  | nil => exact (BitVec.add_zero _).symm
  | cons opcode opcodes ih =>
    simp [ih _ fun later there => none_ later (mem_cons_of_mem _ there), execute_vsp memory virtual (none_ opcode mem_cons_self), moved, BitVec.add_assoc]

theorem foldl_slots (apart : ∀ opcode ∈ opcodes, register ∉ opcode.registers) :
    (opcodes.foldl (execute memory) virtual).slots register = virtual.slots register := by
  induction opcodes generalizing virtual with
  | nil => rfl
  | cons opcode opcodes ih =>
    simp [ih _ fun later there => apart later (mem_cons_of_mem _ there), execute_slots, within_eq_none.mpr (apart opcode mem_cons_self)]

theorem foldl_core (apart : ∀ opcode ∈ opcodes, register ∉ opcode.registers) :
    (opcodes.foldl (execute memory) virtual).core register = virtual.core register := by
  induction opcodes generalizing virtual with
  | nil => rfl
  | cons opcode opcodes ih =>
    simp [ih _ fun later there => apart later (mem_cons_of_mem _ there), execute_core memory virtual (apart opcode mem_cons_self)]

theorem foldl_constant {value : Word} (core : register < 16)
    (held : (∃ opcode ∈ opcodes, register ∈ opcode.registers) ∨ virtual.core register = value) :
    (opcodes.foldl (execute fun _ => value) virtual).core register = value := by
  induction opcodes generalizing virtual with
  | nil => exact held.resolve_left fun ⟨_, there, _⟩ => not_mem_nil there
  | cons opcode opcodes ih =>
    apply ih (virtual.execute (fun _ => value) opcode)
    rcases held with ⟨other, there, popped⟩ | before
    · rcases mem_cons.mp there with rfl | later
      · exact .inr (execute_constant virtual core (.inl popped))
      · exact .inl ⟨other, later, popped⟩
    · exact .inr (execute_constant virtual core (.inr before))

end Virtual

end Lldb.ArmUnwindInfo
