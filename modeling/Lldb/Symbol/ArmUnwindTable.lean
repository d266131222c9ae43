import Lldb.Symbol.ArmUnwindInfo
import Mathlib.Tactic.FinCases

/-! The opcodes of an exception handling table entry, and what executing them one after the other
on a virtual stack pointer gives.
-/

set_option autoImplicit false

namespace Lldb.ArmUnwindInfo

open Library

abbrev Word := BitVec 32

instance neZero_registers : NeZero 16 := ⟨by decide⟩

inductive Opcode where
  | increment (x : Fin 64)
  | decrement (x : Fin 64)
  /-- Under a mask of {r15-r12} and one of {r11-r4}. -/
  | popMask (high : Fin 16) (low : UInt8) (nonzero : ¬ (high = 0 ∧ low = 0))
  | setVsp (register : Fin 16) (other : register ≠ 13 ∧ register ≠ 15)
  | popRange (n : Fin 8)
  | popRangeLr (n : Fin 8)
  /-- Under a mask of {r3-r0}. -/
  | popLow (mask : Fin 16) (nonzero : mask ≠ 0)
  | incrementUleb (number : Leb128)
  /-- As if saved by FSTMFDX. -/
  | popVfpX (s c : Fin 16)
  | popVfpX8 (n : Fin 8)
  /-- As if saved by FSTMFDD. -/
  | popVfp16 (s c : Fin 16)
  | popVfp (s c : Fin 16)
  | popVfp8 (n : Fin 8)
  deriving DecidableEq, Repr

namespace Opcode

def pair (s c : Fin 16) : UInt8 := UInt8.ofNat (16 * s.val + c.val)

def encode : Opcode → List UInt8
  | increment x => [UInt8.ofNat x.val]
  | decrement x => [UInt8.ofNat (0x40 + x.val)]
  | popMask high low _ => [UInt8.ofNat (0x80 + high.val), low]
  | setVsp register _ => [UInt8.ofNat (0x90 + register.val)]
  | popRange n => [UInt8.ofNat (0xa0 + n.val)]
  | popRangeLr n => [UInt8.ofNat (0xa8 + n.val)]
  | popLow mask _ => [0xb1, UInt8.ofNat mask.val]
  | incrementUleb number => 0xb2 :: number.bytes
  | popVfpX s c => [0xb3, pair s c]
  | popVfpX8 n => [UInt8.ofNat (0xb8 + n.val)]
  | popVfp16 s c => [0xc8, pair s c]
  | popVfp s c => [0xc9, pair s c]
  | popVfp8 n => [UInt8.ofNat (0xd0 + n.val)]

def encodeAll (opcodes : List Opcode) : List UInt8 := opcodes.flatMap encode

end Opcode

/-- The stack pointer, the core registers and where registers have been popped from. -/
structure Virtual where
  vsp : Word
  core : Nat → Word
  slots : Nat → Option Word

namespace Virtual

def start (core : Nat → Word) : Virtual := ⟨core dwarfSp, core, fun _ => none⟩

variable (memory : Word → Word)

def add (virtual : Virtual) (delta : Word) : Virtual := { virtual with vsp := virtual.vsp + delta }

def pop (virtual : Virtual) (size : Word) (register : Nat) : Virtual where
  vsp := virtual.vsp + size
  core := if register < 16 then Function.update virtual.core register (memory virtual.vsp) else virtual.core
  slots := Function.update virtual.slots register (some virtual.vsp)

def popAll (virtual : Virtual) (size : Word) (registers : List Nat) : Virtual :=
  registers.foldl (pop memory · size) virtual

def execute (virtual : Virtual) : Opcode → Virtual
  | .increment x => virtual.add (BitVec.ofNat 32 (4 * x.val + 4))
  | .decrement x => virtual.add (-BitVec.ofNat 32 (4 * x.val + 4))
  | .popMask high low _ => virtual.popAll memory 4 (masked dwarfR4 12 (256 * high.val + low.toNat))
  | .setVsp register _ => { virtual with vsp := virtual.core register.val }
  | .popRange n => virtual.popAll memory 4 (counted dwarfR4 n.val)
  | .popRangeLr n => virtual.popAll memory 4 (counted dwarfR4 n.val ++ [dwarfLr])
  | .popLow mask _ => virtual.popAll memory 4 (masked dwarfR0 4 mask.val)
  | .incrementUleb number => virtual.add (BitVec.ofNat 32 (0x204 + 4 * number.unsigned))
  | .popVfpX s c => (virtual.popAll memory 8 (counted (dwarfD0 + s.val) c.val)).add 4
  | .popVfpX8 n => (virtual.popAll memory 8 (counted dwarfD8 n.val)).add 4
  | .popVfp16 s c => virtual.popAll memory 8 (counted (dwarfD16 + s.val) c.val)
  | .popVfp s c => virtual.popAll memory 8 (counted (dwarfD0 + s.val) c.val)
  | .popVfp8 n => virtual.popAll memory 8 (counted dwarfD8 n.val)

end Virtual

/-- The personality routine: an index, or a place relative address with the top bit clear. -/
inductive Personality where
  | zero
  | one
  | two
  | generic (prel31 : BitVec 31)
  deriving DecidableEq, Repr

/-- The bytes of an entry, each word from its most significant byte on. The opcodes fill it, with
the number of words behind the first where the personality routine reads one.
-/
def Personality.bytes (personality : Personality) (opcodes : List UInt8) : List UInt8 :=
  match personality with
  | zero => 0x80 :: opcodes
  | one => 0x81 :: UInt8.ofNat ((opcodes.length - 2) / 4) :: opcodes
  | two => 0x82 :: UInt8.ofNat ((opcodes.length - 2) / 4) :: opcodes
  | generic prel31 =>
    ByteOrder.big.encode 4 prel31.toNat ++ UInt8.ofNat ((opcodes.length - 3) / 4) :: opcodes

def Personality.Room (personality : Personality) (length : Nat) : Prop :=
  match personality with
  | zero => length = 3
  | one | two => ∃ words < 256, length = 2 + 4 * words
  | generic _ => ∃ words < 256, length = 3 + 4 * words

def wordOf (bytes : List UInt8) : Word := BitVec.ofNat 32 (ByteOrder.big.decode bytes)

def wordsOf (bytes : List UInt8) : List Word :=
  (List.range (bytes.length / 4)).map fun index => wordOf ((bytes.drop (4 * index)).take 4)

/-- An entry that has the opcodes, and a finish opcode where it has more bytes than they. -/
structure Entry where
  personality : Personality
  opcodes : List Opcode
  padding : List UInt8
  room : personality.Room (Opcode.encodeAll opcodes ++ padding).length
  finish : ∀ byte ∈ padding.head?, byte = 0xb0

def Entry.words (entry : Entry) : List Word :=
  wordsOf (entry.personality.bytes (Opcode.encodeAll entry.opcodes ++ entry.padding))

/-- The row gives the canonical frame address and the popped registers of the virtual execution,
whatever the registers and the memory hold.
-/
def Gives (row : Row) (opcodes : List Opcode) : Prop :=
  ∃ vspReg offset, row.cfaValue = .isRegisterPlusOffset vspReg offset ∧ ∀ core memory,
    let final := opcodes.foldl (Virtual.execute memory) (Virtual.start core)
    core vspReg + BitVec.ofInt 32 offset = final.vsp ∧ ∀ register address, final.slots register = some address → ∃ slot,
        row.registerLocations register = some (.atCFAPlusOffset slot) ∧ final.vsp + BitVec.ofInt 32 slot = address

/-! The loop of `GetUnwindPlan` on a sequence of opcodes: one step for each that it supports, and no
row where it does not support one.
-/

open Library DataExtractor Opcode List

/-- The opcodes that the loop reads as the table says: not the last pop, whose test is that of
another opcode, and no number with a shift by more than the width.
-/
def Opcode.Supported : Opcode → Prop
  | popVfp8 _ => False
  | incrementUleb number => number.size ≤ 10
  | _ => True

instance (opcode : Opcode) : Decidable opcode.Supported := by
  cases opcode <;> unfold Opcode.Supported <;> infer_instance

namespace State

def execute (state : State) : Opcode → State
  | .increment x => state.add (BitVec.ofNat 32 (4 * x.val + 4))
  | .decrement x => state.add (-BitVec.ofNat 32 (4 * x.val + 4))
  | .popMask high low _ => state.popAll 4 (masked dwarfR4 12 (256 * high.val + low.toNat))
  | .setVsp register _ => { state with vspReg := register.val }
  | .popRange n => state.popAll 4 (counted dwarfR4 n.val)
  | .popRangeLr n => state.popAll 4 (counted dwarfR4 n.val ++ [dwarfLr])
  | .popLow mask _ => state.popAll 4 (masked dwarfR0 4 mask.val)
  | .incrementUleb number => state.add (BitVec.ofNat 32 (0x204 + 4 * number.unsigned))
  | .popVfpX s c => (state.popAll 8 (counted (dwarfD0 + s.val) c.val)).add 4
  | .popVfpX8 n => (state.popAll 8 (counted dwarfD8 n.val)).add 4
  | .popVfp16 s c => state.popAll 8 (counted (dwarfD16 + s.val) c.val)
  | .popVfp s c => state.popAll 8 (counted (dwarfD0 + s.val) c.val)
  | .popVfp8 n => state.popAll 8 (counted dwarfD8 n.val)

end State

theorem pair_parts (s c : Fin 16) : ((pair s c).toNat &&& 0xf0) >>> 4 = s.val ∧ (pair s c).toNat &&& 0x0f = c.val := by
  revert s c
  decide

variable (state : State)

theorem step_popMask (high : Fin 16) (low : UInt8) (nonzero : ¬ (high = 0 ∧ low = 0)) (rest : List UInt8) :
    step state (UInt8.ofNat (0x80 + high.val)) (low :: rest) =
      some (.goOn (state.popAll 4 (masked dwarfR4 12 (256 * high.val + low.toNat))) rest) := by
  have first : ∀ high : Fin 16, UInt8.ofNat (0x80 + high.val) &&& 0xc0 ≠ 0x00 ∧ UInt8.ofNat (0x80 + high.val) &&& 0xc0 ≠ 0x40 ∧
      UInt8.ofNat (0x80 + high.val) &&& 0xf0 = 0x80 ∧ (UInt8.ofNat (0x80 + high.val)).toNat &&& 0x0f = high.val ∧
      (UInt8.ofNat (0x80 + high.val) = 0x80 → high = 0) := by decide
  obtain ⟨increments, decrements, here, bits, zero⟩ := first high
  have joined : (high.val <<< 8 ||| low.toNat) = 256 * high.val + low.toNat := by
    rw [← Nat.shiftLeft_add_eq_or_of_lt (show low.toNat < 2 ^ 8 from low.toNat_lt)]
    omega
  unfold step
  rw [if_neg increments, if_neg decrements, if_pos here, withByte2, if_neg fun both => nonzero ⟨zero both.1, both.2⟩,
    bits, joined]

theorem ulebLoop_bytes (number : Leb128) (rest : List UInt8) :
    ulebLoop (number.bytes ++ rest) 0 0 0 = if number.size ≤ 10 then some (number.unsigned % 2 ^ 64, number.size) else none := by
  have loop := slebLoop_digits [] number.init number.last rest 0 0
  simp only [length_nil, Nat.zero_add, show Leb128.value [] = 0 from rfl] at loop
  have bytes : number.bytes ++ rest = number.init.map Leb128.continued ++ UInt8.ofNat number.last.val :: rest := by
    simp [Leb128.bytes]
  rw [bytes, ulebLoop_eq _ _ _ _ 0, loop]
  by_cases short : number.init.length ≤ 9
  · rw [if_pos short, if_pos (show number.size ≤ 10 by unfold Leb128.size; omega)]
    rfl
  · rw [if_neg short, if_neg (show ¬ number.size ≤ 10 by unfold Leb128.size; omega)]
    rfl

theorem step_uleb (number : Leb128) (rest : List UInt8) :
    step state 0xb2 (number.bytes ++ rest) = if number.size ≤ 10 then
      some (.goOn (state.add (BitVec.ofNat 32 (0x204 + 4 * number.unsigned))) rest) else none := by
  have read := ulebLoop_bytes number rest
  change (ulebLoop (number.bytes ++ rest) 0 0 0).map _ = _
  rw [read]
  by_cases short : number.size ≤ 10
  · rw [if_pos short, if_pos short]
    have shifted : BitVec.ofNat 32 (0x204 + (number.unsigned % 2 ^ 64) <<< 2) = BitVec.ofNat 32 (0x204 + 4 * number.unsigned) := by
      apply BitVec.eq_of_toNat_eq
      rw [BitVec.toNat_ofNat, BitVec.toNat_ofNat]
      omega
    change some (Step.goOn (state.add (BitVec.ofNat 32 (0x204 + (number.unsigned % 2 ^ 64) <<< 2)))
      ((number.bytes ++ rest).drop number.size)) = _
    rw [shifted, ← Leb128.length_bytes, drop_left]
  · simp [if_neg short]

theorem step_encode (opcode : Opcode) (supported : opcode.Supported) (rest : List UInt8) :
    ∃ byte1 more, opcode.encode = byte1 :: more ∧ step state byte1 (more ++ rest) = some (.goOn (state.execute opcode) rest) := by
  cases opcode with
  | increment x =>
    refine ⟨_, _, rfl, ?_⟩
    fin_cases x <;> rfl
  | decrement x =>
    refine ⟨_, _, rfl, ?_⟩
    fin_cases x <;> rfl
  | popMask high low nonzero => exact ⟨_, _, rfl, step_popMask state high low nonzero rest⟩
  | setVsp register other =>
    refine ⟨_, _, rfl, ?_⟩
    fin_cases register <;> first | rfl | simp at other
  | popRange n =>
    refine ⟨_, _, rfl, ?_⟩
    fin_cases n <;> rfl
  | popRangeLr n =>
    refine ⟨_, _, rfl, ?_⟩
    fin_cases n <;> rfl
  | popLow mask nonzero =>
    refine ⟨_, _, rfl, ?_⟩
    fin_cases mask <;> first | rfl | exact absurd rfl nonzero
  | incrementUleb number => exact ⟨_, _, rfl, (step_uleb state number rest).trans (if_pos supported)⟩
  | popVfpX s c =>
    refine ⟨_, _, rfl, ?_⟩
    obtain ⟨first, count⟩ := pair_parts s c
    change some (Step.goOn ((state.popAll 8 (counted (dwarfD0 + _) _)).add 4) rest) = _
    rw [first, count]
    rfl
  | popVfpX8 n =>
    refine ⟨_, _, rfl, ?_⟩
    fin_cases n <;> rfl
  | popVfp16 s c =>
    refine ⟨_, _, rfl, ?_⟩
    obtain ⟨first, count⟩ := pair_parts s c
    change some (Step.goOn (state.popAll 8 (counted (dwarfD16 + _) _)) rest) = _
    rw [first, count]
    rfl
  | popVfp s c =>
    refine ⟨_, _, rfl, ?_⟩
    obtain ⟨first, count⟩ := pair_parts s c
    change some (Step.goOn (state.popAll 8 (counted (dwarfD0 + _) _)) rest) = _
    rw [first, count]
    rfl
  | popVfp8 n => exact supported.elim

/-- What it does not support it does not read. -/
theorem step_unsupported (opcode : Opcode) (unsupported : ¬ opcode.Supported) (rest : List UInt8) :
    ∃ byte1 more, opcode.encode = byte1 :: more ∧
      (step state byte1 (more ++ rest) = none ∨ step state byte1 (more ++ rest) = some .refuse) := by
  cases opcode with
  | incrementUleb number => exact ⟨_, _, rfl, .inl ((step_uleb state number rest).trans (if_neg unsupported))⟩
  | popVfp8 n =>
    refine ⟨_, _, rfl, .inr ?_⟩
    fin_cases n <;> rfl
  | _ => exact absurd trivial unsupported

theorem encodeAll_cons {opcode : Opcode} {byte1 : UInt8} {more : List UInt8} (encoded : opcode.encode = byte1 :: more)
    (opcodes : List Opcode) (rest : List UInt8) :
    encodeAll (opcode :: opcodes) ++ rest = byte1 :: (more ++ (encodeAll opcodes ++ rest)) := by
  simp [encodeAll, encoded]

theorem loop_encodeAll {opcodes : List Opcode} (supported : ∀ opcode ∈ opcodes, opcode.Supported) {padding : List UInt8}
    (finish : ∀ byte ∈ padding.head?, byte = 0xb0) (state : State) {fuel : Nat}
    (enough : (encodeAll opcodes ++ padding).length ≤ fuel) :
    loop fuel state (encodeAll opcodes ++ padding) = some (some (opcodes.foldl State.execute state)) := by
  induction opcodes generalizing state fuel with
  | nil =>
    cases padding with
    | nil => cases fuel <;> rfl
    | cons byte padding =>
      obtain ⟨fuel, rfl⟩ : ∃ less, fuel = less + 1 := ⟨fuel - 1, by simp [encodeAll] at enough; omega⟩
      rw [finish byte rfl]
      rfl
  | cons opcode opcodes ih =>
    obtain ⟨byte1, more, encoded, steps⟩ :=
      step_encode state opcode (supported opcode mem_cons_self) (encodeAll opcodes ++ padding)
    rw [encodeAll_cons encoded] at enough ⊢
    simp only [length_cons, length_append] at enough
    obtain ⟨fuel, rfl⟩ : ∃ less, fuel = less + 1 := ⟨fuel - 1, by omega⟩
    rw [loop, steps]
    exact ih (fun other there => supported other (mem_cons_of_mem _ there)) _ (by simp; omega)

theorem loop_unsupported {opcodes : List Opcode} {opcode : Opcode} (there : opcode ∈ opcodes)
    (unsupported : ¬ opcode.Supported) (rest : List UInt8) (state after : State) (fuel : Nat) :
    loop fuel state (encodeAll opcodes ++ rest) ≠ some (some after) := by
  induction opcodes generalizing state fuel with
  | nil => cases there
  | cons first opcodes ih =>
    by_cases supported : first.Supported
    · obtain ⟨byte1, more, encoded, steps⟩ := step_encode state first supported (encodeAll opcodes ++ rest)
      have later : opcode ∈ opcodes := by
        refine (mem_cons.mp there).resolve_left ?_
        rintro rfl
        exact unsupported supported
      rw [encodeAll_cons encoded]
      cases fuel with
      | zero => nofun
      | succ fuel =>
        rw [loop, steps]
        exact ih later _ fuel
    · obtain ⟨byte1, more, encoded, steps⟩ := step_unsupported state first supported (encodeAll opcodes ++ rest)
      rw [encodeAll_cons encoded]
      cases fuel with
      | zero => nofun
      | succ fuel =>
        rw [loop]
        rcases steps with steps | steps
        · rw [steps]
          nofun
        · rw [steps]
          nofun

end Lldb.ArmUnwindInfo
