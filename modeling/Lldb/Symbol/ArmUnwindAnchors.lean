import Lldb.Symbol.ArmUnwindBases
import Mathlib.Tactic.LinearCombination

/-! Which sequences of opcodes the row of the loop gives: those that end with the stack pointer as a
plain offset from the register it was last set to, and had it so when a register was last popped.
-/

set_option autoImplicit false

namespace Lldb.ArmUnwindInfo

open Virtual List Option BitVec

/-- The stack pointer is never set, or it is last set to a register that has not been popped, when
the opcodes have not moved it.
-/
def Based (opcodes : List Opcode) (register : Nat) : Prop :=
  (register = dwarfSp ∧ ∀ opcode ∈ opcodes, opcode.base = none) ∨
    ∃ front opcode back, opcodes = front ++ opcode :: back ∧ opcode.base = some register ∧
      (∀ later ∈ back, later.base = none) ∧ (∀ earlier ∈ front, register ∉ earlier.registers) ∧ moved front = 0

/-- So it is at the end, from the register from which it was an offset at each last pop. -/
def Anchored (opcodes : List Opcode) : Prop :=
  ∃ register, Based opcodes register ∧
    ∀ front opcode back popped, opcodes = front ++ opcode :: back → popped ∈ opcode.registers →
      (∀ later ∈ back, popped ∉ later.registers) → Based front register

theorem last_split {α : Type} (p : α → Prop) (items : List α) :
    (∀ item ∈ items, ¬ p item) ∨ ∃ front item back, items = front ++ item :: back ∧ p item ∧ ∀ later ∈ back, ¬ p later := by
  induction items with
  | nil => exact .inl fun _ there => absurd there not_mem_nil
  | cons first items ih =>
    rcases ih with none_ | ⟨front, item, back, rfl, holds, after⟩
    · by_cases holds : p first
      · exact .inr ⟨[], first, items, rfl, holds, none_⟩
      · exact .inl (forall_mem_cons.mpr ⟨holds, none_⟩)
    · exact .inr ⟨first :: front, item, back, rfl, holds, after⟩

def run (core : Nat → Word) (memory : Word → Word) (opcodes : List Opcode) : Virtual :=
  opcodes.foldl (execute memory) (start core)

variable {core : Nat → Word} {memory : Word → Word}

variable {back opcodes : List Opcode} {opcode : Opcode} {register : Nat}

theorem run_vsp_base {front : List Opcode} (base : opcode.base = some register)
    (after : ∀ later ∈ back, later.base = none) :
    (run core memory (front ++ opcode :: back)).vsp = (run core memory front).core register + moved back := by
  obtain ⟨-, -, -, executed⟩ := execute_base memory (run core memory front) base
  rw [run, foldl_append, foldl_cons, foldl_vsp memory _ after]
  change ((run core memory front).execute memory opcode).vsp + _ = _
  rw [executed]

theorem moved_base {front : List Opcode} (base : opcode.base = some register) :
    moved (front ++ opcode :: back) = moved front + moved back := by
  obtain ⟨-, -, still, -⟩ := execute_base (fun _ => 0) (start fun _ => 0) base
  rw [moved_append, moved, still, zero_add]

theorem Based.vsp (based : Based opcodes register) : (run core memory opcodes).vsp = core register + moved opcodes := by
  rcases based with ⟨rfl, none_⟩ | ⟨front, opcode, back, rfl, base, after, kept, still⟩
  · exact foldl_vsp memory _ none_
  · rw [run_vsp_base base after, moved_base base, still, zero_add]
    exact congrArg (· + moved back) (foldl_core memory _ kept)

/-- Registers and a memory can be chosen so that nothing else is an offset from the register. -/
theorem based_of_vsp
    (vsp : ∀ core memory, (run core memory opcodes).vsp = core register + moved opcodes) : Based opcodes register := by
  rcases last_split (·.base ≠ none) opcodes with none_ | ⟨front, opcode, back, rfl, set, after⟩
  · have never : ∀ opcode ∈ opcodes, opcode.base = none := fun opcode there => not_not.mp (none_ opcode there)
    refine .inl ⟨?_, never⟩
    by_contra other
    have here := vsp (Function.update (fun _ => 0) dwarfSp 1) (fun _ => 0)
    rw [run, foldl_vsp _ _ never, Function.update_of_ne other] at here
    simp [start] at here
  · obtain ⟨number, base⟩ := ne_none_iff_exists'.mp set
    have plain : ∀ later ∈ back, later.base = none := fun later there => not_not.mp (after later there)
    have there (core : Nat → Word) (memory : Word → Word) :
        (run core memory front).core number = core register + moved front := by
      have here := vsp core memory
      rw [run_vsp_base base plain, moved_base base, ← add_assoc] at here
      exact add_right_cancel here
    have kept : ∀ earlier ∈ front, number ∉ earlier.registers := by
      intro earlier member popped
      have low := (execute_base (fun _ => 0) (start fun _ => 0) base).1
      have here := there (fun _ => 0) (fun _ => moved front + 1)
      rw [run, foldl_constant _ low (.inl ⟨earlier, member, popped⟩)] at here
      simp at here
    have offset (core : Nat → Word) : core number = core register + moved front :=
      (foldl_core (fun _ => 0) (start core) kept).symm.trans (there core fun _ => 0)
    have still : moved front = 0 := by simpa using (offset fun _ => 0).symm
    have same : number = register := by
      by_contra other
      have here := offset (Function.update (fun _ => 0) number 1)
      rw [Function.update_of_ne (Ne.symm other), still] at here
      simp at here
    subst same
    exact .inr ⟨front, opcode, back, rfl, base, plain, kept, still⟩

/-! The state of the loop after all opcodes. -/

def final (opcodes : List Opcode) : State := opcodes.foldl State.execute State.start

theorem final_vsp (opcodes : List Opcode) : (final opcodes).vsp = moved opcodes :=
  (State.foldl_vsp State.start opcodes).trans (zero_add _)

theorem Based.vspReg (based : Based opcodes register) : (final opcodes).vspReg = register := by
  rcases based with ⟨rfl, none_⟩ | ⟨front, opcode, back, rfl, base, after, -, -⟩
  · exact State.foldl_vspReg State.start none_
  · simp [final, State.foldl_vspReg _ after, State.execute_eq, base]

theorem last_pop (front : List Opcode) (popped : register ∈ opcode.registers)
    (after : ∀ later ∈ back, register ∉ later.registers) :
    ∃ inside, lastOffset (final (front ++ opcode :: back)).registerOffsets register = some (moved front + inside) ∧
      ∀ core memory, (run core memory (front ++ opcode :: back)).slots register =
        some ((run core memory front).vsp + inside) := by
  have found : within opcode.size opcode.registers register ≠ none := fun none_ => within_eq_none.mp none_ popped
  obtain ⟨inside, place⟩ := ne_none_iff_exists'.mp found
  refine ⟨inside, ?_, ?_⟩
  · rw [final, foldl_append, foldl_cons, State.lastOffset_foldl _ after, State.lastOffset_execute, place]
    exact congrArg (fun vsp => some (vsp + inside)) (final_vsp front)
  · intro core memory
    simp [run, foldl_slots memory _ after, execute_slots, place]

theorem never_popped (never : ∀ opcode ∈ opcodes, register ∉ opcode.registers) :
    (run core memory opcodes).slots register = none :=
  foldl_slots memory (start core) never

/-! The row. -/

theorem foldl_setRegisterInfo (offsets : List (Nat × BitVec 32)) (location : BitVec 32 → RegisterLocation) (row : Row) :
    (offsets.foldl (fun row offset => row.setRegisterInfo offset.1 (location offset.2)) row).cfaValue = row.cfaValue ∧
      ∀ register, (offsets.foldl (fun row offset => row.setRegisterInfo offset.1 (location offset.2)) row).registerLocations
        register = ((lastOffset offsets register).map location).or (row.registerLocations register) := by
  induction offsets using reverseRecOn with
  | nil => exact ⟨rfl, fun _ => rfl⟩
  | append_singleton offsets offset ih =>
    rw [foldl_append]
    refine ⟨ih.1, fun register => ?_⟩
    change Function.update (offsets.foldl _ row).registerLocations offset.1 (some (location offset.2)) register = _
    rw [lastOffset_concat, Function.update_apply, ih.2]
    split <;> rfl

theorem row_cfaValue (state : State) : (row state).cfaValue = .isRegisterPlusOffset state.vspReg state.vsp.toInt := by
  have plain := (foldl_setRegisterInfo state.registerOffsets (fun offset => .atCFAPlusOffset (offset - state.vsp).toInt)
    ((Row.empty.setOffset 0).setCFAValue (.isRegisterPlusOffset state.vspReg state.vsp.toInt))).1
  unfold row
  simp only
  split
  · exact plain
  · split <;> exact plain

theorem lastOffset_eq_some {offsets : List (Nat × BitVec 32)} {offset : BitVec 32}
    (last : lastOffset offsets register = some offset) : (register, offset) ∈ offsets := by
  obtain ⟨entry, found, rfl⟩ := map_eq_some_iff.mp last
  have named : entry.1 = register := by simpa using find?_some found
  rw [← named]
  exact mem_reverse.mp (mem_of_find?_eq_some found)

theorem row_registerLocations {state : State} {offset : BitVec 32}
    (last : lastOffset state.registerOffsets register = some offset) :
    (row state).registerLocations register = some (.atCFAPlusOffset (offset - state.vsp).toInt) := by
  have plain := (foldl_setRegisterInfo state.registerOffsets (fun offset => .atCFAPlusOffset (offset - state.vsp).toInt)
    ((Row.empty.setOffset 0).setCFAValue (.isRegisterPlusOffset state.vspReg state.vsp.toInt))).2 register
  rw [last] at plain
  unfold row
  simp only
  split
  case isTrue => exact plain
  case isFalse without =>
    -- the location of the program counter is set only where it has not been popped
    have other : register ≠ dwarfPc := by
      rintro rfl
      exact without (any_eq_true.mpr ⟨_, lastOffset_eq_some last, by simp⟩)
    split <;> exact (Function.update_of_ne other _ _).trans plain

theorem gives_iff (opcodes : List Opcode) : Gives (row (final opcodes)) opcodes ↔ Anchored opcodes := by
  constructor
  · rintro ⟨vspReg, offset, cfa, right⟩
    rw [row_cfaValue] at cfa
    cases cfa
    have vsp (core : Nat → Word) (memory : Word → Word) :
        (run core memory opcodes).vsp = core (final opcodes).vspReg + moved opcodes := by
      have here := (right core memory).1
      rw [ofInt_toInt, final_vsp] at here
      exact here.symm
    refine ⟨(final opcodes).vspReg, based_of_vsp vsp, ?_⟩
    rintro front opcode back popped rfl there after
    obtain ⟨inside, last, slots⟩ := last_pop front there after
    apply based_of_vsp
    intro core memory
    obtain ⟨slot, location, address⟩ := (right core memory).2 popped _ (slots core memory)
    rw [row_registerLocations last, final_vsp] at location
    cases location
    rw [ofInt_toInt] at address
    change (run core memory _).vsp + _ = _ at address
    rw [vsp] at address
    linear_combination -address
  · rintro ⟨register, based, pops⟩
    refine ⟨register, (moved opcodes).toInt, ?_, fun core memory => ⟨?_, ?_⟩⟩
    · rw [row_cfaValue, based.vspReg, final_vsp]
    · rw [ofInt_toInt]
      exact based.vsp.symm
    · intro popped address slot
      rcases last_split (popped ∈ ·.registers) opcodes with never | ⟨front, opcode, back, rfl, there, after⟩
      · cases (never_popped never).symm.trans slot
      · obtain ⟨inside, last, slots⟩ := last_pop front there after
        cases (slots core memory).symm.trans slot
        refine ⟨_, row_registerLocations last, ?_⟩
        rw [ofInt_toInt, final_vsp, (pops front opcode back popped rfl there after).vsp]
        change (run core memory _).vsp + _ = _
        rw [based.vsp]
        ring

end Lldb.ArmUnwindInfo
