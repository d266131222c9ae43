import Lldb.Library.X86
import Mathlib.Data.BitVec

/-! The byte patterns of `x86AssemblyInspectionEngine`, on the bytes from the current instruction on.

The bytes behind the buffer are taken for zero; no pattern looks behind an instruction it can be of.
-/

set_option autoImplicit false

namespace Lldb.X86AssemblyInspectionEngine

open Library.X86

variable (code : List Byte)

def byteAt (index : Nat) : Byte := code.getD index 0

def extract4 : BitVec 32 :=
  byteAt code 3 ++ byteAt code 2 ++ byteAt code 1 ++ byteAt code 0

def behindRexW (size : WordSize) (code : List Byte) : List Byte :=
  if size = .eight ∧ byteAt code 0 = 0x48 then code.drop 1 else code

def pushRbpPattern : Bool := byteAt code 0 = 0x55

def push0Pattern : Bool := byteAt code 0 = 0x6a ∧ byteAt code 1 = 0

def pushImmPattern : Bool := byteAt code 0 = 0x68 ∨ byteAt code 0 = 0x6a

def pushExtendedPattern : Bool := byteAt code 0 = 0xff ∧ byteAt code 1 >>> 3 &&& 7 = 6

def pushMiscReg (size : WordSize) (code : List Byte) : Bool := size = .four ∧ byteAt code 0 ∈ [0x0e, 0x16, 0x1e, 0x06]

def opcodeReg (opcode : Byte) (size : WordSize) (code : List Byte) : Option Nat :=
  let extended := size = .eight ∧ byteAt code 0 = 0x41
  let byte := if extended then byteAt code 1 else byteAt code 0
  if opcode ≤ byte ∧ byte ≤ opcode + 7 then some ((byte - opcode).toNat ||| if extended then 8 else 0) else none

def pushReg (size : WordSize) (code : List Byte) : Option Nat := opcodeReg 0x50 size code

def popReg (size : WordSize) (code : List Byte) : Option Nat := opcodeReg 0x58 size code

def popRbpPattern : Bool := byteAt code 0 = 0x5d

def popMiscReg (size : WordSize) (code : List Byte) : Bool := size = .four ∧ byteAt code 0 ∈ [0x1f, 0x07, 0x17]

def movRspRbpPattern (size : WordSize) (code : List Byte) : Bool :=
  let code := behindRexW size code
  byteAt code 0 = 0x8b ∧ byteAt code 1 = 0xec ∨ byteAt code 0 = 0x89 ∧ byteAt code 1 = 0xe5

/-- An immediate operand of one byte or of four behind an opcode and a ModR/M byte. -/
def immediatePattern (modRM : Byte) (size : WordSize) (code : List Byte) : Option Int :=
  let code := behindRexW size code
  if byteAt code 0 = 0x83 ∧ byteAt code 1 = modRM then some (byteAt code 2).toInt
  else if byteAt code 0 = 0x81 ∧ byteAt code 1 = modRM then some (extract4 (code.drop 2)).toInt
  else none

def subRspPattern (size : WordSize) (code : List Byte) : Option Int := immediatePattern 0xec size code

def addRspPattern (size : WordSize) (code : List Byte) : Option Int := immediatePattern 0xc4 size code

def leaRspPattern (size : WordSize) (code : List Byte) : Option Int :=
  let code := behindRexW size code
  if byteAt code 0 ≠ 0x8d then none
  else if byteAt code 1 = 0x64 ∧ byteAt code 2 &&& 0x3f = 0x24 then some (byteAt code 3).toInt
  else if byteAt code 1 = 0xa4 ∧ byteAt code 2 &&& 0x3f = 0x24 then some (extract4 (code.drop 3)).toInt
  else none

def leaRbpRspPattern (size : WordSize) (code : List Byte) : Option Int :=
  let code := behindRexW size code
  if byteAt code 0 ≠ 0x8d then none
  else if byteAt code 1 = 0x65 then some (byteAt code 2).toInt
  else if byteAt code 1 = 0xa5 then some (extract4 (code.drop 2)).toInt
  else none

def leavePattern : Bool := byteAt code 0 = 0xc9

def callNextInsnPattern : Bool :=
  byteAt code 0 = 0xe8 ∧ byteAt code 1 = 0 ∧ byteAt code 2 = 0 ∧ byteAt code 3 = 0 ∧ byteAt code 4 = 0

def retPattern : Bool := byteAt code 0 ∈ [0xc9, 0xc2, 0xca, 0xc3]

/-- The register stored and the distance of its slot below the frame pointer. -/
def movRegToLocalStackFrame (size : WordSize) (code : List Byte) : Option (Nat × Int) :=
  let rex := byteAt code 0
  let prefixed := size = .eight ∧ rex &&& ~~~0x5 = 0x48
  let srcRegPrefixBit := if prefixed then (rex &&& 0x4).toNat >>> 2 <<< 3 else 0
  let targetRegPrefixBit := if prefixed then (rex &&& 0x1).toNat <<< 3 else 0
  let code := if prefixed then code.drop 1 else code
  if prefixed ∧ targetRegPrefixBit = 1 then none
  else if byteAt code 0 ≠ 0x89 then none
  else
    let opcodeDestregMaskedOut := byteAt code 1 &&& ~~~0x38
    let offset :=
      if opcodeDestregMaskedOut = 0x45 then some (byteAt code 2).toInt
      else if opcodeDestregMaskedOut = 0x85 then some (extract4 (code.drop 2)).toInt
      else none
    match offset with
    | none => none
    | some offset =>
      if 0 < offset then none else some ((byteAt code 1 >>> 3 &&& 7).toNat ||| srcRegPrefixBit, -offset)

end Lldb.X86AssemblyInspectionEngine

/-! `x86AssemblyInspectionEngine` and the functions it is given.

The disassembler, which tells the length of an instruction, is a parameter.
-/

namespace Lldb

open Library.X86

structure X86AssemblyInspectionEngine where
  size : WordSize
  /-- The numbers the debugger has for the registers. -/
  lldbRegnum : Register → Nat
  lldbIpRegnum : Nat
  /-- The length of the instruction at the front of some bytes, zero for none. -/
  instructionLength : List Byte → Nat

namespace X86AssemblyInspectionEngine

variable (engine : X86AssemblyInspectionEngine)

def wordsize : Int := engine.size.bytes

def lldbSpRegnum : Nat := engine.lldbRegnum sp

def lldbFpRegnum : Nat := engine.lldbRegnum bp

def maxInstructionByteSize : Nat := 32

end X86AssemblyInspectionEngine

structure AssembledFunction where
  engine : X86AssemblyInspectionEngine
  program : List Instruction

namespace AssembledFunction

abbrev size (function : AssembledFunction) : WordSize := function.engine.size

abbrev State (function : AssembledFunction) : Type := Machine function.size

variable (function : AssembledFunction)

def data : List Byte := code function.size function.program

def place (index : Nat) : Nat := start function.size function.program index

def codeAt (index : Nat) : List Byte := function.data.drop (function.place index)

def Disassembled : Prop :=
  ∀ index instruction, function.program[index]? = some instruction →
    0 < (instruction.encode function.size).length ∧ (instruction.encode function.size).length ≤ 15 ∧
      function.engine.instructionLength (function.codeAt index) = (instruction.encode function.size).length

/-- The states before the first instructions, which are run one behind the other. -/
structure Execution (function : AssembledFunction) where
  states : Nat → function.State
  last : Nat
  inside : last < function.program.length
  run : Machine.Run function.program states last

def cfa (states : Nat → function.State) : Word function.size :=
  (states 0).regs sp + Machine.wordBytes function.size

def distance (states : Nat → function.State) (index : Nat) : Int :=
  (function.cfa states - (states index).regs sp).toInt

variable {function}

namespace Disassembled

variable (disassembled : function.Disassembled)
include disassembled

theorem fetch {index : Nat} (inside : index < function.program.length) :
    ∃ instruction, function.program[index]? = some instruction ∧ 0 < (instruction.encode function.size).length ∧
      function.place (index + 1) = function.place index + (instruction.encode function.size).length := by
  have fetched := List.getElem?_eq_getElem inside
  exact ⟨_, fetched, (disassembled _ _ fetched).1, start_succ fetched⟩

theorem place_lt {index : Nat} (inside : index < function.program.length) :
    function.place index < function.place (index + 1) := by
  obtain ⟨instruction, _, positive, next⟩ := disassembled.fetch inside
  omega

theorem place_lt_length {index : Nat} (inside : index < function.program.length) :
    function.place index < function.data.length := by
  have next := disassembled.place_lt inside
  have bound : function.place (index + 1) ≤ function.data.length := by
    calc function.place (index + 1) ≤ function.place function.program.length := start_mono inside
      _ = function.data.length := start_length
  omega

theorem length_eq {index : Nat} (inside : index < function.program.length) :
    ∃ length, function.engine.instructionLength (function.data.drop (function.place index)) = length ∧
      ¬ (length = 0 ∨ X86AssemblyInspectionEngine.maxInstructionByteSize < length) ∧
      function.place index + length = function.place (index + 1) := by
  obtain ⟨instruction, fetched, positive, forward⟩ := disassembled.fetch inside
  obtain ⟨_, short, length⟩ := disassembled index instruction fetched
  refine ⟨_, length, ?_, forward.symm⟩
  unfold X86AssemblyInspectionEngine.maxInstructionByteSize
  omega

end Disassembled

theorem toInt_ofInt_of_int32 (size : WordSize) {offset : Int} (low : -2 ^ 31 ≤ offset) (high : offset < 2 ^ 31) :
    (BitVec.ofInt size.bits offset).toInt = offset := by
  rw [BitVec.toInt_ofInt]
  apply Int.bmod_eq_of_le
  · cases size <;> simp only [WordSize.bits, WordSize.bytes] <;> omega
  · cases size <;> simp only [WordSize.bits, WordSize.bytes] <;> omega

theorem wordsize_eq (size : WordSize) : BitVec.ofInt size.bits (size.bytes : Int) = Machine.wordBytes size :=
  BitVec.ofInt_natCast _ _

end AssembledFunction

end Lldb
