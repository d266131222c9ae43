import Mathlib.Algebra.Ring.Nat
import Mathlib.Order.Monotone.Basic
import Mathlib.Tactic.Common

/-! The x86 instructions that move the stack and frame pointers, with their encodings, in 32-bit and
64-bit mode.

Registers have their hardware numbers. An instruction stands for its usual encoding: a REX prefix
only where the operands need one.
-/

set_option autoImplicit false

namespace Library.X86

open List

inductive WordSize where
  | four
  | eight
  deriving DecidableEq, Repr

namespace WordSize

def bytes : WordSize → Nat
  | four => 4
  | eight => 8

def bits (size : WordSize) : Nat := 8 * size.bytes

end WordSize

abbrev Byte := BitVec 8

abbrev Word (size : WordSize) := BitVec size.bits

instance neZero_registers : NeZero 16 := ⟨by decide⟩

abbrev Register := Fin 16

/-- `esp` and `rsp` -/
def sp : Register := 4

/-- `ebp` and `rbp` -/
def bp : Register := 5

def littleEndian4 (value : BitVec 32) : List Byte :=
  [value.extractLsb' 0 8, value.extractLsb' 8 8, value.extractLsb' 16 8, value.extractLsb' 24 8]

inductive Displacement where
  | byte (value : BitVec 8)
  | dword (value : BitVec 32)
  deriving DecidableEq, Repr

namespace Displacement

def toInt : Displacement → Int
  | byte value => value.toInt
  | dword value => value.toInt

def encode : Displacement → List Byte
  | byte value => [value]
  | dword value => littleEndian4 value

def mode : Displacement → BitVec 2
  | byte _ => 1
  | dword _ => 2

end Displacement

inductive Instruction where
  | pushReg (reg : Register)
  | popReg (reg : Register)
  | pushImm (value : Displacement)
  /-- The four low bits of the REX prefix, if there is one, and what follows the ModR/M byte. -/
  | pushRm (rex : Option (BitVec 4)) (mode : BitVec 2) (rm : BitVec 3) (rest : List Byte)
  /-- Both encodings. -/
  | movSpBp (load : Bool)
  | subSp (amount : Displacement)
  | addSp (amount : Displacement)
  | leaSp (scale : BitVec 2) (amount : Displacement)
  | leaBpSp (amount : Displacement)
  | leave
  | ret
  | retImm (amount : BitVec 16)
  | store (src base : Register) (displacement : Displacement)
  | callNext
  /-- An instruction that leaves both pointers alone. -/
  | other (bytes : List Byte)
  deriving DecidableEq, Repr

def rexW : WordSize → List Byte
  | .four => []
  | .eight => [0x48]

def rexB (reg : Register) : List Byte := if reg.val < 8 then [] else [0x41]

def low (reg : Register) : BitVec 3 := BitVec.ofNat 3 reg.val

def high (reg : Register) : BitVec 1 := BitVec.ofBool (8 ≤ reg.val)

def modRM (mode : BitVec 2) (reg rm : BitVec 3) : Byte := mode ++ reg ++ rm

def rexStore (src base : Register) : WordSize → List Byte
  | .four => []
  | .eight => [(0b01001#5 ++ high src ++ 0#1 ++ high base : BitVec 8)]

def Instruction.encode (size : WordSize) : Instruction → List Byte
  | pushReg reg => rexB reg ++ [0x50 + (low reg).setWidth 8]
  | popReg reg => rexB reg ++ [0x58 + (low reg).setWidth 8]
  | pushImm (.byte value) => [0x6a, value]
  | pushImm (.dword value) => 0x68 :: littleEndian4 value
  | pushRm rex mode rm rest =>
    (rex.map fun bits => (4#4 ++ bits : BitVec 8)).toList ++ 0xff :: modRM mode 6 rm :: rest
  | movSpBp true => rexW size ++ [0x8b, 0xec]
  | movSpBp false => rexW size ++ [0x89, 0xe5]
  | subSp (.byte value) => rexW size ++ [0x83, 0xec, value]
  | subSp (.dword value) => rexW size ++ 0x81 :: 0xec :: littleEndian4 value
  | addSp (.byte value) => rexW size ++ [0x83, 0xc4, value]
  | addSp (.dword value) => rexW size ++ 0x81 :: 0xc4 :: littleEndian4 value
  | leaSp scale amount => rexW size ++ 0x8d :: modRM amount.mode 4 4 :: (scale ++ 0x24#6 : BitVec 8) :: amount.encode
  | leaBpSp amount => rexW size ++ 0x8d :: modRM amount.mode 4 5 :: amount.encode
  | leave => [0xc9]
  | ret => [0xc3]
  | retImm amount => [0xc2, amount.extractLsb' 0 8, amount.extractLsb' 8 8]
  | store src base displacement =>
    rexStore src base size ++ 0x89 :: modRM displacement.mode (low src) (low base) ::
      ((if low base = 4 then [0x24] else []) ++ displacement.encode)
  | callNext => [0xe8, 0, 0, 0, 0]
  | other bytes => bytes

/-! Code in memory. -/

def code (size : WordSize) (program : List Instruction) : List Byte := program.flatMap (·.encode size)

def start (size : WordSize) (program : List Instruction) (index : Nat) : Nat :=
  (code size (program.take index)).length

section Layout

variable {size : WordSize} {program : List Instruction} {index : Nat} {instruction : Instruction}

theorem start_succ (fetched : program[index]? = some instruction) :
    start size program (index + 1) = start size program index + (instruction.encode size).length := by
  unfold start code
  rw [take_add_one, fetched]
  simp

theorem start_succ_le (index : Nat) : start size program index ≤ start size program (index + 1) := by
  cases fetched : program[index]? with
  | none =>
    rw [List.getElem?_eq_none_iff] at fetched
    unfold start
    rw [List.take_of_length_le fetched, List.take_of_length_le (Nat.le_succ_of_le fetched)]
  | some instruction =>
    rw [start_succ fetched]
    exact Nat.le_add_right _ _

theorem start_mono {first second : Nat} (ordered : first ≤ second) :
    start size program first ≤ start size program second := monotone_nat_of_le_succ start_succ_le ordered

theorem code_drop_start (fetched : program[index]? = some instruction) :
    (code size program).drop (start size program index) =
      instruction.encode size ++ code size (program.drop (index + 1)) := by
  obtain ⟨bound, rfl⟩ := List.getElem?_eq_some_iff.mp fetched
  have split : code size program = code size (program.take index) ++ code size (program.drop index) := by
    unfold code
    simp [← flatMap_append]
  have front : code size (program.drop index) = program[index].encode size ++ code size (program.drop (index + 1)) := by
    unfold code
    rw [drop_eq_getElem_cons bound, flatMap_cons]
  rw [split, start, drop_left, front]

theorem start_length : start size program program.length = (code size program).length := by
  unfold start
  rw [take_length]

end Layout

/-! Machines. -/

structure Machine (size : WordSize) where
  regs : Register → Word size
  memory : Word size → Byte

namespace Machine

variable {size : WordSize}

variable (memory : Word size → Byte)

def Holds (address value : Word size) : Prop :=
  ∀ index < size.bytes, memory (address + BitVec.ofNat _ index) = value.extractLsb' (8 * index) 8

instance (memory : Word size → Byte) (address value : Word size) : Decidable (Holds memory address value) :=
  inferInstanceAs (Decidable (∀ index < size.bytes, _))

def store (address value : Word size) : Word size → Byte := fun place =>
  if (place - address).toNat < size.bytes then value.extractLsb' (8 * (place - address).toNat) 8 else memory place

def Apart (first second : Word size) : Prop :=
  ∀ index < size.bytes, size.bytes ≤ (first + BitVec.ofNat _ index - second).toNat

instance (first second : Word size) : Decidable (Apart first second) :=
  inferInstanceAs (Decidable (∀ index < size.bytes, _))

theorem holds_store (address value : Word size) :
    Holds (store memory address value) address value := by
  intro index bound
  have small : index < 2 ^ size.bits :=
    lt_of_lt_of_le bound (by cases size <;> decide)
  have inside : (address + BitVec.ofNat size.bits index - address).toNat = index := by
    rw [BitVec.add_comm, BitVec.add_sub_cancel, BitVec.toNat_ofNat, Nat.mod_eq_of_lt small]
  unfold store
  simp only [inside]
  rw [if_pos bound]

theorem Holds.store_apart {memory : Word size → Byte} {address value : Word size} (holds : Holds memory address value)
    {other : Word size} (apart : Apart address other) (written : Word size) :
    Holds (store memory other written) address value := by
  intro index bound
  unfold Machine.store
  rw [if_neg (not_lt.mpr (apart index bound))]
  exact holds index bound

def wordBytes (size : WordSize) : Word size := BitVec.ofNat _ size.bytes

variable (machine : Machine size)

def push (value : Word size) : Machine size where
  regs := Function.update machine.regs sp (machine.regs sp - wordBytes size)
  memory := store machine.memory (machine.regs sp - wordBytes size) value

def moveSp (value : Word size) : Machine size :=
  { machine with regs := Function.update machine.regs sp value }

def word (amount : Displacement) : Word size := BitVec.ofInt _ amount.toInt

/-- What an instruction does when the next is reached by falling through; a return is not left that way.
The operand of a push from memory, and the address a call pushes, may be anything.
-/
def Step (before : Machine size) : Instruction → Machine size → Prop
  | .pushReg reg, after => after = before.push (before.regs reg)
  | .popReg reg, after => ∃ value, Holds before.memory (before.regs sp) value ∧ after = { before with
        regs := Function.update (Function.update before.regs sp (before.regs sp + wordBytes size)) reg value }
  | .pushImm value, after => after = before.push (word value)
  | .pushRm .., after => ∃ value, after = before.push value
  | .movSpBp _, after => after = { before with regs := Function.update before.regs bp (before.regs sp) }
  | .subSp amount, after => after = before.moveSp (before.regs sp - word amount)
  | .addSp amount, after => after = before.moveSp (before.regs sp + word amount)
  | .leaSp _ amount, after => after = before.moveSp (before.regs sp + word amount)
  | .leaBpSp amount, after => after = before.moveSp (before.regs bp + word amount)
  | .leave, after => ∃ value, Holds before.memory (before.regs bp) value ∧ after = { before with
        regs := Function.update (Function.update before.regs sp (before.regs bp + wordBytes size)) bp value }
  | .ret, _ | .retImm _, _ => False
  | .store src base displacement, after =>
      after = { before with memory := store before.memory (before.regs base + word displacement) (before.regs src) }
  | .callNext, after => ∃ value, after = before.push value
  | .other _, after => after.regs sp = before.regs sp ∧ after.regs bp = before.regs bp

/-- The states before the instructions of a program that are run one behind the other, up to the one at
`last`.
-/
def Run (program : List Instruction) (states : Nat → Machine size) (last : Nat) : Prop :=
  ∀ index < last, ∃ instruction, program[index]? = some instruction ∧ (states index).Step instruction (states (index + 1))

end Machine

end Library.X86
