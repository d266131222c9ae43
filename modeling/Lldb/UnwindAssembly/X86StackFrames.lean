import Lldb.UnwindAssembly.X86Decoding

/-! The stack frame of a function, followed over its instructions, and what the analysis of the bytes knows of it. -/

set_option autoImplicit false

namespace Lldb

open Library.X86

/-! Offsets are integers of 32 bits, also where words have 64. -/

def FitsInt (offset : Int) : Prop := -2 ^ 31 ≤ offset ∧ offset < 2 ^ 31

instance (offset : Int) : Decidable (FitsInt offset) := inferInstanceAs (Decidable (_ ∧ _))

structure Denotes (size : WordSize) (offset : Int) (word : Word size) : Prop where
  fits : FitsInt offset
  same : BitVec.ofInt size.bits offset = word

theorem fitsInt_bmod (offset : Int) : FitsInt (offset.bmod (2 ^ 32)) :=
  ⟨Int.le_bmod (by decide), Int.bmod_lt (by decide)⟩

theorem Denotes.bmod {size : WordSize} {offset : Int} {word : Word size} (low : -2 ^ 40 ≤ offset)
    (high : offset < 2 ^ 40) (same : BitVec.ofInt size.bits offset = word) (fits : FitsInt word.toInt) :
    Denotes size (offset.bmod (2 ^ 32)) word := by
  refine ⟨fitsInt_bmod offset, ?_⟩
  rw [← same]
  apply BitVec.eq_of_toInt_eq
  cases size with
  | four =>
    rw [BitVec.toInt_ofInt, BitVec.toInt_ofInt]
    exact Int.bmod_bmod
  | eight =>
    have wide : (BitVec.ofInt 64 offset).toInt = offset :=
      BitVec.toInt_ofInt_eq_self (by decide) (by omega) (by omega)
    have narrow : offset.bmod (2 ^ 32) = offset := by
      have inside : FitsInt (BitVec.ofInt 64 offset).toInt := same ▸ fits
      unfold FitsInt at inside
      exact Int.bmod_eq_of_le (by omega) (by omega)
    rw [narrow]

/-- What a function has done with its stack, as far as it matters to the analysis. -/
structure StackFrame (size : WordSize) where
  /-- The frame pointer tells the canonical frame address. -/
  framed : Bool
  /-- The analysis knows how far the stack pointer is from it. -/
  following : Bool
  /-- Where registers are saved. -/
  slots : Register → Option (Word size)

namespace StackFrame

variable {size : WordSize}

def onEntry : StackFrame size := ⟨false, true, fun _ => none⟩

def base (frame : StackFrame size) : Register := if frame.framed then bp else sp

def Unsaved (frame : StackFrame size) (reg : Register) : Prop :=
  X86AssemblyInspectionEngine.nonvolatileReg size reg.val = true ∧ frame.slots reg = none

instance (frame : StackFrame size) (reg : Register) : Decidable (frame.Unsaved reg) :=
  inferInstanceAs (Decidable (_ ∧ _))

/-- The register that an instruction is taken to save, and where. A push of the frame pointer always is. -/
def saved (frame : StackFrame size) (before : Machine size) : Instruction → Option (Register × Word size)
  | .pushReg reg =>
      if reg = bp ∨ frame.Unsaved reg then some (reg, before.regs sp - Machine.wordBytes size) else none
  | .store src base displacement =>
      if low base = 5 ∧ displacement.toInt ≤ 0 ∧ frame.Unsaved src then
        some (src, before.regs base + Machine.word displacement)
      else none
  | _ => none

def restored (frame : StackFrame size) : Instruction → Option Register
  | .popReg reg => if (frame.slots reg).isSome then some reg else none
  | .leave => some bp
  | _ => none

def nextSlots (frame : StackFrame size) (before : Machine size) (instruction : Instruction) :
    Register → Option (Word size) :=
  match frame.saved before instruction, frame.restored instruction with
  | some (reg, slot), _ => Function.update frame.slots reg (some slot)
  | none, some reg => Function.update frame.slots reg none
  | none, none => frame.slots

def nextFramed (frame : StackFrame size) : Instruction → Bool
  | .movSpBp _ => true
  | .leave => false
  | .popReg reg => frame.framed && !(reg = bp && (frame.slots bp).isSome)
  | _ => frame.framed

/-- What is pushed but not seen, or popped to the stack pointer, is lost track of. -/
def nextFollowing (frame : StackFrame size) : Instruction → Bool
  | .pushImm value => frame.following && value ≠ .byte 0
  | .pushRm rex _ _ _ => frame.following && rex.isNone
  | .popReg reg => frame.following && (reg ≠ sp || !frame.framed)
  | .leaBpSp _ => frame.following || frame.framed
  | .leave => true
  | _ => frame.following

def next (frame : StackFrame size) (before : Machine size) (instruction : Instruction) : StackFrame size where
  framed := frame.nextFramed instruction
  following := frame.nextFollowing instruction
  slots := frame.nextSlots before instruction

/-- What the analysis takes for granted at an instruction: that the frame pointer and the stack pointer stand where it
thinks, and that a slot is addressed from where it thinks.
-/
def Expected (frame : StackFrame size) (before after : Machine size) : Instruction → Prop
  | .pushReg reg =>
      if reg = bp then
        frame.framed = true → frame.following = true ∧ before.regs bp = before.regs sp - Machine.wordBytes size
      else frame.Unsaved reg → frame.following = true
  | .popReg reg =>
      (reg = bp → frame.framed = true →
        if (frame.slots bp).isSome then frame.following = true else after.regs bp = before.regs bp) ∧
      (reg = sp → frame.framed = false → after.regs sp = before.regs sp + Machine.wordBytes size)
  | .pushImm value => value = .byte 0 → frame.framed = true
  | .pushRm rex _ _ _ => rex.isSome = true → frame.framed = true
  | .movSpBp _ => frame.framed = true → before.regs sp = before.regs bp
  | .leaBpSp _ => frame.framed = false → after.regs sp = before.regs sp
  | .leave => frame.framed = false → before.regs bp = before.regs sp
  | .store src base displacement =>
      low base = 5 → displacement.toInt ≤ 0 → frame.Unsaved src → before.regs base = before.regs frame.base
  | _ => True

section Next

variable {frame : StackFrame size} {before : Machine size}

theorem next_pushReg (reg : Register) : frame.next before (.pushReg reg) = { frame with
        slots :=
          if reg = bp ∨ frame.Unsaved reg then
            Function.update frame.slots reg (some (before.regs sp - Machine.wordBytes size))
          else frame.slots } := by
  unfold next nextSlots saved
  dsimp only
  by_cases saves : reg = bp ∨ frame.Unsaved reg
  · rw [if_pos saves, if_pos saves]
    rfl
  · rw [if_neg saves, if_neg saves]
    rfl

theorem next_popReg (reg : Register) : frame.next before (.popReg reg) =
      { framed := frame.framed && !(reg = bp && (frame.slots bp).isSome)
        following := frame.following && (reg ≠ sp || !frame.framed)
        slots := if (frame.slots reg).isSome then Function.update frame.slots reg none else frame.slots } := by
  unfold next nextSlots saved restored
  dsimp only
  by_cases held : (frame.slots reg).isSome = true
  · rw [if_pos held, if_pos held]
    rfl
  · rw [if_neg held, if_neg held]
    rfl

theorem next_store (src base : Register) (displacement : Displacement) :
    frame.next before (.store src base displacement) = { frame with
        slots :=
          if low base = 5 ∧ displacement.toInt ≤ 0 ∧ frame.Unsaved src then
            Function.update frame.slots src (some (before.regs base + Machine.word displacement))
          else frame.slots } := by
  unfold next nextSlots saved
  dsimp only
  by_cases saves : low base = 5 ∧ displacement.toInt ≤ 0 ∧ frame.Unsaved src
  · rw [if_pos saves, if_pos saves]
    rfl
  · rw [if_neg saves, if_neg saves]
    rfl

end Next

end StackFrame

namespace X86AssemblyInspectionEngine

structure Numbered (engine : X86AssemblyInspectionEngine) : Prop where
  distinct : ∀ first second, Addressable engine.size first → Addressable engine.size second →
    engine.lldbRegnum first = engine.lldbRegnum second → first = second
  ip : ∀ reg, Addressable engine.size reg → engine.lldbRegnum reg ≠ engine.lldbIpRegnum

theorem addressable_sp (size : WordSize) : Addressable size sp := fun _ => by decide

theorem addressable_bp (size : WordSize) : Addressable size bp := fun _ => by decide

theorem nonvolatile_bp (size : WordSize) : nonvolatileReg size bp.val = true := by cases size <;> rfl

theorem Numbered.sp_ne_fp {engine : X86AssemblyInspectionEngine} (numbered : engine.Numbered) :
    engine.lldbRegnum sp ≠ engine.lldbRegnum bp := fun same =>
  absurd (numbered.distinct _ _ (addressable_sp _) (addressable_bp _) same) (by decide)

theorem machineRegnoToLldbRegno_eq (engine : X86AssemblyInspectionEngine) {reg : Register}
    (addressable : Addressable engine.size reg) :
    engine.machineRegnoToLldbRegno reg.val = some (engine.lldbRegnum reg) := by
  have same : Fin.ofNat 16 reg.val = reg := Fin.ext (Nat.mod_eq_of_lt reg.isLt)
  unfold machineRegnoToLldbRegno
  split
  · rename_i four
    rw [if_pos (addressable four), same]
  · simp

variable (engine : X86AssemblyInspectionEngine) (cfa : Word engine.size)

/-- The canonical frame address of a row, and the distance of the stack pointer from it where that is known. -/
structure Stands (framed following : Bool) (regs : Register → Word engine.size) (cfaValue : CFAValue)
    (spOffset : Int) : Prop where
  value : ∃ offset, cfaValue = .isRegisterPlusOffset (engine.lldbRegnum (if framed then bp else sp)) offset ∧
    Denotes engine.size offset (cfa - regs (if framed then bp else sp))
  current : FitsInt spOffset
  follows : following = true → BitVec.ofInt engine.size.bits spOffset = cfa - regs sp
  unframed : framed = false → following = true

structure Lists (slots : Register → Option (Word engine.size)) (locations : Nat → Option RegisterLocation)
    (savedRegisters : Nat → Bool) : Prop where
  marked : ∀ reg, Addressable engine.size reg → nonvolatileReg engine.size reg.val = true →
    savedRegisters reg.val = (slots reg).isSome
  nonvolatile : ∀ reg, (slots reg).isSome = true → nonvolatileReg engine.size reg.val = true
  located : ∀ reg, Addressable engine.size reg → ∀ offset,
    locations (engine.lldbRegnum reg) = some (.atCFAPlusOffset offset) →
      slots reg = some (cfa + BitVec.ofInt engine.size.bits offset)
  returnAddress : locations engine.lldbIpRegnum = some (.atCFAPlusOffset (-engine.wordsize))

structure Tracks (frame : StackFrame engine.size) (regs : Register → Word engine.size) (analysis : Analysis) :
    Prop where
  stands : engine.Stands cfa frame.framed frame.following regs analysis.row.cfaValue
    analysis.currentSpBytesOffsetFromCfa
  lists : engine.Lists cfa frame.slots analysis.row.registerLocations analysis.savedRegisters

variable {engine cfa}

namespace Stands

variable {framed following : Bool} {regs : Register → Word engine.size} {cfaValue : CFAValue} {spOffset : Int}

theorem framed_iff (stands : engine.Stands cfa framed following regs cfaValue spOffset) (numbered : engine.Numbered) :
    cfaValue.getRegisterNumber = engine.lldbFpRegnum ↔ framed = true := by
  obtain ⟨offset, rfl, -⟩ := stands.value
  cases framed with
  | false => exact iff_of_false numbered.sp_ne_fp Bool.false_ne_true
  | true => exact iff_of_true rfl rfl

theorem unframed_iff (stands : engine.Stands cfa framed following regs cfaValue spOffset) (numbered : engine.Numbered) :
    cfaValue.getRegisterNumber = engine.lldbSpRegnum ↔ framed = false := by
  obtain ⟨offset, rfl, -⟩ := stands.value
  cases framed with
  | false => exact iff_of_true rfl rfl
  | true => exact iff_of_false (fun same => numbered.sp_ne_fp same.symm) nofun

theorem offset (stands : engine.Stands cfa framed following regs cfaValue spOffset) :
    Denotes engine.size cfaValue.getOffset (cfa - regs (if framed then bp else sp)) := by
  obtain ⟨offset, rfl, denotes⟩ := stands.value
  exact denotes

theorem bySp {regs : Register → Word engine.size} {spOffset : Int}
    (denotes : Denotes engine.size spOffset (cfa - regs sp)) :
    engine.Stands cfa false true regs (.isRegisterPlusOffset engine.lldbSpRegnum spOffset) spOffset :=
  ⟨⟨spOffset, rfl, denotes⟩, denotes.fits, fun _ => denotes.same, fun _ => rfl⟩

theorem byFp {following : Bool} {regs : Register → Word engine.size} {offset spOffset : Int}
    (denotes : Denotes engine.size offset (cfa - regs bp)) (current : FitsInt spOffset)
    (follows : following = true → BitVec.ofInt engine.size.bits spOffset = cfa - regs sp) :
    engine.Stands cfa true following regs (.isRegisterPlusOffset engine.lldbFpRegnum offset) spOffset :=
  ⟨⟨offset, rfl, denotes⟩, current, follows, nofun⟩

theorem moved (stands : engine.Stands cfa framed following regs cfaValue spOffset) {amount : Int}
    (low : -2 ^ 32 ≤ amount) (high : amount ≤ 2 ^ 32) {place : Word engine.size} (known : following = true)
    (moves : cfa - place = cfa - regs sp + BitVec.ofInt engine.size.bits amount)
    (fits : FitsInt (cfa - place).toInt) :
    Denotes engine.size ((spOffset + amount).bmod (2 ^ 32)) (cfa - place) := by
  obtain ⟨lower, upper⟩ := stands.current
  apply Denotes.bmod (by omega) (by omega)
  · rw [BitVec.ofInt_add, stands.follows known, moves]
  · exact fits

variable {analysis : Analysis}

theorem moveSp_of_sp {amount : Int} (bySp : analysis.row.cfaValue.getRegisterNumber = engine.lldbSpRegnum) :
    engine.moveSp analysis amount =
      (analysis.setSp (analysis.currentSpBytesOffsetFromCfa + amount)).setOffset := if_pos bySp

theorem moveSp_of_not {amount : Int} (other : analysis.row.cfaValue.getRegisterNumber ≠ engine.lldbSpRegnum) :
    engine.moveSp analysis amount = analysis.setSp (analysis.currentSpBytesOffsetFromCfa + amount) := if_neg other

theorem moveSp (numbered : engine.Numbered) (stands : engine.Stands cfa framed following regs analysis.row.cfaValue
      analysis.currentSpBytesOffsetFromCfa) {amount : Int} (low : -2 ^ 32 ≤ amount) (high : amount ≤ 2 ^ 32)
    {regs' : Register → Word engine.size} {following' : Bool} (kept : framed = true → regs' bp = regs bp)
    (moves : following' = true → following = true ∧
      cfa - regs' sp = cfa - regs sp + BitVec.ofInt engine.size.bits amount ∧ FitsInt (cfa - regs' sp).toInt)
    (known : framed = false → following' = true) :
    engine.Stands cfa framed following' regs' (engine.moveSp analysis amount).row.cfaValue
      (engine.moveSp analysis amount).currentSpBytesOffsetFromCfa := by
  have denotes : following' = true → Denotes engine.size
      ((analysis.currentSpBytesOffsetFromCfa + amount).bmod (2 ^ 32)) (cfa - regs' sp) := by
    intro follows
    obtain ⟨before, further, fits⟩ := moves follows
    exact stands.moved low high before further fits
  have inSp := stands.unframed_iff numbered
  cases framed with
  | false =>
    obtain rfl := known rfl
    obtain ⟨offset, value, -⟩ := stands.value
    rw [moveSp_of_sp (inSp.mpr rfl)]
    unfold Analysis.setOffset Analysis.setSp Row.setCFAValue
    rw [value]
    exact bySp (denotes rfl)
  | true =>
    obtain ⟨offset, value, same⟩ := stands.value
    rw [moveSp_of_not fun bySp => nomatch inSp.mp bySp]
    unfold Analysis.setSp
    rw [value]
    rw [if_pos rfl, ← kept rfl] at same
    exact byFp same (fitsInt_bmod _) fun follows => (denotes follows).same

end Stands

namespace Lists

variable {slots : Register → Option (Word engine.size)} {locations : Nat → Option RegisterLocation}
  {savedRegisters : Nat → Bool} {reg : Register}

theorem marked_update (lists : engine.Lists cfa slots locations savedRegisters) (reg : Register)
    (slot : Option (Word engine.size)) (other : Register) (valid : Addressable engine.size other)
    (notVolatile : nonvolatileReg engine.size other.val = true) :
    Function.update savedRegisters reg.val slot.isSome other.val = (Function.update slots reg slot other).isSome := by
  by_cases same : other = reg
  · subst same
    simp
  · rw [Function.update_of_ne fun equal => same (Fin.ext equal), Function.update_of_ne same]
    exact lists.marked other valid notVolatile

theorem located_update (numbered : engine.Numbered) (lists : engine.Lists cfa slots locations savedRegisters)
    (addressable : Addressable engine.size reg) {other : Register} (apart : other ≠ reg)
    (valid : Addressable engine.size other) {location : Option RegisterLocation} {slot : Option (Word engine.size)}
    {place : Int} (listed : Function.update locations (engine.lldbRegnum reg) location (engine.lldbRegnum other) =
      some (.atCFAPlusOffset place)) :
    Function.update slots reg slot other = some (cfa + BitVec.ofInt engine.size.bits place) := by
  rw [Function.update_of_ne fun equal => apart (numbered.distinct _ _ valid addressable equal)] at listed
  rw [Function.update_of_ne apart]
  exact lists.located other valid place listed

theorem save (numbered : engine.Numbered) (lists : engine.Lists cfa slots locations savedRegisters)
    (addressable : Addressable engine.size reg) (isNonvolatile : nonvolatileReg engine.size reg.val = true)
    {slot : Word engine.size} {offset : Int} (denotes : Denotes engine.size offset (slot - cfa)) :
    engine.Lists cfa (Function.update slots reg (some slot))
      (Function.update locations (engine.lldbRegnum reg) (some (.atCFAPlusOffset offset)))
      (Function.update savedRegisters reg.val true) where
  marked := lists.marked_update reg (some slot)
  nonvolatile other known := by
    by_cases same : other = reg
    · rw [same]
      exact isNonvolatile
    · rw [Function.update_of_ne same] at known
      exact lists.nonvolatile other known
  located other valid place listed := by
    by_cases same : other = reg
    · subst same
      rw [Function.update_self, Option.some_inj, RegisterLocation.atCFAPlusOffset.injEq] at listed
      simp [← listed, denotes.same]
    · exact located_update numbered lists addressable same valid listed
  returnAddress := by
    rw [Function.update_of_ne (numbered.ip reg addressable).symm]
    exact lists.returnAddress

theorem restore (numbered : engine.Numbered) (lists : engine.Lists cfa slots locations savedRegisters)
    (addressable : Addressable engine.size reg) :
    engine.Lists cfa (Function.update slots reg none) (Function.update locations (engine.lldbRegnum reg) none)
      (Function.update savedRegisters reg.val false) where
  marked := lists.marked_update reg none
  nonvolatile other known := by
    by_cases same : other = reg
    · rw [same, Function.update_self] at known
      cases known
    · rw [Function.update_of_ne same] at known
      exact lists.nonvolatile other known
  located other valid place listed := by
    by_cases same : other = reg
    · subst same
      rw [Function.update_self] at listed
      cases listed
    · exact located_update numbered lists addressable same valid listed
  returnAddress := by
    rw [Function.update_of_ne (numbered.ip reg addressable).symm]
    exact lists.returnAddress

end Lists

/-! One instruction. -/

theorem Tracks.turn {frame : StackFrame engine.size} {regs : Register → Word engine.size} {analysis : Analysis}
    (tracks : engine.Tracks cfa frame regs analysis) : engine.Tracks cfa frame regs analysis.turn :=
  ⟨tracks.stands, tracks.lists⟩

/-- The instructions that the analysis is made for, as far as they can be encoded. -/
def Listed (size : WordSize) : Instruction → Prop
  | .pushReg reg | .popReg reg => Addressable size reg
  | .store src base _ => Addressable size src ∧ Addressable size base
  | .pushRm rex _ _ _ => rex.isSome = true → size = .eight
  | .callNext | .other _ => False
  | .pushImm _ | .movSpBp _ | .subSp _ | .addSp _ | .leaSp _ _ | .leaBpSp _ | .leave | .ret | .retImm _ => True

theorem moveSp_lists (analysis : Analysis) (amount : Int) :
    (engine.moveSp analysis amount).row.registerLocations = analysis.row.registerLocations ∧
      (engine.moveSp analysis amount).savedRegisters = analysis.savedRegisters := by
  unfold moveSp
  dsimp only
  split <;> exact ⟨rfl, rfl⟩

theorem Lists.moveSp {slots : Register → Option (Word engine.size)} {analysis : Analysis} (amount : Int)
    (lists : engine.Lists cfa slots analysis.row.registerLocations analysis.savedRegisters) :
    engine.Lists cfa slots (engine.moveSp analysis amount).row.registerLocations
      (engine.moveSp analysis amount).savedRegisters := by
  obtain ⟨locations, saved⟩ := moveSp_lists analysis amount
  rw [locations, saved]
  exact lists

theorem displacement_bounds (amount : Displacement) : -2 ^ 31 ≤ amount.toInt ∧ amount.toInt < 2 ^ 31 := by
  cases amount with
  | byte value =>
    have lower := value.le_toInt
    have upper := value.toInt_lt
    unfold Displacement.toInt
    dsimp only
    omega
  | dword value => exact ⟨value.le_toInt, value.toInt_lt⟩

end X86AssemblyInspectionEngine

end Lldb
