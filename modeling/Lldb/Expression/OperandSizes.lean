import Lldb.Expression.EvaluateRuns

/-! The sizes of operands in the two switches over opcodes: the one that evaluates and the one that steps over. -/

set_option autoImplicit false

namespace Lldb.Evaluate

open Library List
open Library.Stoppable (Leads)
open DataExtractor Operands Environment

/-- `none` for `LLDB_INVALID_OFFSET`. -/
def getOpcodeDataSize (data : DataExtractor) (dataOffset op : Nat) : Option Nat :=
  match op with
  | 0x03 | 0x9a => some data.addrSize -- DW_OP_addr, DW_OP_call_ref
  | 0x06 -- DW_OP_deref
  | 0x12 | 0x13 | 0x14 | 0x16 | 0x17 | 0x18 -- DW_OP_dup to DW_OP_xderef, but DW_OP_pick
  | 0x19 | 0x1a | 0x1b | 0x1c | 0x1d | 0x1e | 0x1f | 0x20 | 0x21 | 0x22 -- DW_OP_abs to DW_OP_plus
  | 0x24 | 0x25 | 0x26 | 0x27 -- DW_OP_shl to DW_OP_xor
  | 0x29 | 0x2a | 0x2b | 0x2c | 0x2d | 0x2e -- DW_OP_eq to DW_OP_ne
  | 0x96 | 0x97 -- DW_OP_nop, DW_OP_push_object_address
  | 0x9b | 0x9c | 0x9f | 0xe0 => some 0 -- DW_OP_form_tls_address to DW_OP_GNU_push_tls_address
  | 0x08 | 0x09 | 0x15 | 0x94 | 0x95 => some 1 -- DW_OP_const1u to DW_OP_xderef_size
  | 0x0a | 0x0b | 0x2f | 0x28 | 0x98 => some 2 -- DW_OP_const2u to DW_OP_call2
  | 0x0c | 0x0d | 0x99 => some 4 -- DW_OP_const4u to DW_OP_call4
  | 0x0e | 0x0f => some 8 -- DW_OP_const8u, DW_OP_const8s
  | 0x10 | 0x11 | 0x23 | 0x90 | 0x91 | 0x93 | 0xfb | 0xfc => do -- DW_OP_constu to DW_OP_GNU_const_index
    let (_, offset) ← data.skipLEB128 dataOffset
    return offset - dataOffset
  | 0x92 | 0x9d => do -- DW_OP_bregx, DW_OP_bit_piece
    let (_, offset) ← data.skipLEB128 dataOffset
    let (_, offset) ← data.skipLEB128 offset
    return offset - dataOffset
  | 0x9e => do -- DW_OP_implicit_value
    let (blockLen, offset) ← data.skipLEB128 dataOffset
    return offset + blockLen - dataOffset
  | _ =>
    -- DW_OP_lit0 to DW_OP_reg31, and DW_OP_breg0 to DW_OP_breg31
    if 0x30 ≤ op ∧ op ≤ 0x6f then some 0
    else if 0x70 ≤ op ∧ op ≤ 0x8f then do
      let (_, offset) ← data.skipLEB128 dataOffset
      return offset - dataOffset
    else none

/-- What DWARF has behind an opcode; `none` where it assigns none. -/
def dwarfOperands (op : Nat) : Option Operands :=
  match op with
  | 0x03 | 0x9a => some .address
  | 0x08 | 0x09 | 0x15 | 0x94 | 0x95 => some (.fixed 1)
  | 0x0a | 0x0b | 0x28 | 0x2f | 0x98 => some (.fixed 2)
  | 0x0c | 0x0d | 0x99 => some (.fixed 4)
  | 0x0e | 0x0f => some (.fixed 8)
  | 0x10 | 0x11 | 0x23 | 0x90 | 0x91 | 0x93 | 0xfb | 0xfc => some .leb128
  | 0x92 | 0x9d => some .twoLeb128s
  | 0x9e => some .block
  | 0x06 | 0x96 | 0x97 | 0x9b | 0x9c | 0x9f | 0xe0 => some .nothing
  | _ =>
    if 0x12 ≤ op ∧ op ≤ 0x6f then some .nothing else if 0x70 ≤ op ∧ op ≤ 0x8f then some .leb128 else none

def Operands.Encodes (addrSize : Nat) (bytes : List UInt8) : Operands → Prop
  | .nothing => bytes = []
  | .address => bytes.length = addrSize
  | .fixed size => bytes.length = size
  | .leb128 => ∃ number : Leb128, bytes = number.bytes
  | .twoLeb128s => ∃ first second : Leb128, bytes = first.bytes ++ second.bytes
  | .block => ∃ (number : Leb128) (block : List UInt8), bytes = number.bytes ++ block ∧ block.length = number.unsigned

def HasCase (op : Nat) : Prop :=
  op = 0x03 ∨ op = 0x06 ∨ 0x08 ≤ op ∧ op ≤ 0x99 ∨ 0x9b ≤ op ∧ op ≤ 0x9d ∨ op = 0x9f ∨ op = 0xe0 ∨ op = 0xfb ∨ op = 0xfc

instance (op : Nat) : Decidable (HasCase op) := inferInstanceAs (Decidable (_ ∨ _))

def Operands.fixedSize (data : DataExtractor) : Operands → Option Nat
  | .address => some data.addrSize
  | .fixed size => some size
  | .nothing | .leb128 | .twoLeb128s | .block => none

def FixedFits (data : DataExtractor) (offset op : Nat) : Prop :=
  ∀ size, (dwarfOperands op).bind (fixedSize data) = some size → data.validOffsetForDataOfSize offset size = true

def NeverGoesOn (op : Nat) : Prop := op = 0x2f ∨ op = 0x95 ∨ op = 0x98 ∨ op = 0x99

instance (op : Nat) : Decidable (NeverGoesOn op) := inferInstanceAs (Decidable (_ ∨ _))

/-- The two switches agree on an opcode and what is behind it, and with DWARF. -/
structure SizesAgree (data : DataExtractor) (offset op : Nat) : Prop where
  /-- Every step without a branch that does not fail moves the offset by the size. -/
  evaluated : ∀ (env : Environment) (state after : EvaluateState), env.opcodes = data → state.offset = offset →
    ¬ env.Branches op state → env.evaluateOpcode op state = .ok ((), after) →
    ∃ size, getOpcodeDataSize data offset op = some size ∧ after.offset = offset + size
  assigned : ∀ operands bytes, dwarfOperands op = some operands → operands.Encodes data.addrSize bytes →
    data.At offset bytes → getOpcodeDataSize data offset op = some bytes.length
  /-- The case for all other opcodes moves over no operands. -/
  neverSteppedOver : ¬ HasCase op → ∀ (env : Environment) (state after : EvaluateState), env.opcodes = data →
    state.offset = offset → env.evaluateOpcode op state ≠ .ok ((), after)

def Agreeable (data : DataExtractor) (offset op : Nat) : Prop :=
  HasCase op ∧ (NeverGoesOn op ∨ FixedFits data offset op)

/-! Sizes by operands. -/

def Operands.size (data : DataExtractor) (offset : Nat) : Operands → Nat
  | .nothing => 0
  | .address => data.addrSize
  | .fixed size => size
  | .leb128 => lebLength (data.bytes.drop offset)
  | .twoLeb128s =>
    let first := lebLength (data.bytes.drop offset)
    first + lebLength (data.bytes.drop (offset + first))
  | .block =>
    lebLength (data.bytes.drop offset) + lebContinued (data.bytes.drop offset) % 2 ^ 32

variable {data : DataExtractor} {offset op : Nat}

theorem getOpcodeDataSize_eq (data : DataExtractor) (offset op : Nat) :
    getOpcodeDataSize data offset op = (dwarfOperands op).map (size data offset) := by
  have one : (do
      let (_, next) ← data.skipLEB128 offset
      return next - offset : Option Nat) = some (leb128.size data offset) :=
    congrArg some (Nat.add_sub_cancel_left _ _)
  have two : (do
      let (_, next) ← data.skipLEB128 offset
      let (_, next) ← data.skipLEB128 next
      return next - offset : Option Nat) = some (twoLeb128s.size data offset) := by
    refine congrArg some ?_
    dsimp only [size]
    omega
  have counted : (do
      let (blockLen, next) ← data.skipLEB128 offset
      return next + blockLen - offset : Option Nat) = some (block.size data offset) := by
    refine congrArg some ?_
    dsimp only [size]
    omega
  unfold getOpcodeDataSize
  split
  case h_62 =>
    have others : dwarfOperands op =
        if 0x12 ≤ op ∧ op ≤ 0x6f then some .nothing else if 0x70 ≤ op ∧ op ≤ 0x8f then some .leb128 else none := by
      unfold dwarfOperands
      split <;> first | rfl | contradiction
    rw [others]
    by_cases literal : 0x30 ≤ op ∧ op ≤ 0x6f
    · rw [if_pos literal, if_pos ⟨le_trans (by decide) literal.1, literal.2⟩]
      rfl
    have narrow : ¬ (0x12 ≤ op ∧ op ≤ 0x6f) := by
      -- all of the opcodes below DW_OP_lit0 have been named
      rintro ⟨low, high⟩
      have below : op < 0x30 := Nat.lt_of_not_le fun above => literal ⟨above, high⟩
      interval_cases op <;> contradiction
    by_cases breg : 0x70 ≤ op ∧ op ≤ 0x8f
    · rw [if_neg literal, if_pos breg, if_neg narrow, if_pos breg]
      exact one
    · rw [if_neg literal, if_neg breg, if_neg narrow, if_neg breg]
      rfl
  all_goals first | rfl | exact one | exact two | exact counted

theorem hasCase_of_evaluateOpcode {env : Environment} {state : EvaluateState} (without : ¬ HasCase op) :
    env.evaluateOpcode op state = .ok ((), state) := by
  have neither : ¬ (0x30 ≤ op ∧ op ≤ 0x4f) ∧ ¬ (0x50 ≤ op ∧ op ≤ 0x6f) ∧ ¬ (0x70 ≤ op ∧ op ≤ 0x8f) := by
    unfold HasCase at without
    omega
  unfold evaluateOpcode
  split
  case h_60 =>
    rw [if_neg neither.1, if_neg neither.2.1, if_neg neither.2.2]
    rfl
  all_goals exact absurd (by decide) without

theorem dwarfOperands_eq (case_ : HasCase op) (reads : op = 0x2f ∨ ¬ NeverGoesOn op) :
    dwarfOperands op = some (evaluateOperands op) := by
  have small : op < 256 := by
    unfold HasCase at case_
    omega
  have same : ∀ op < 256, HasCase op → op = 0x2f ∨ ¬ NeverGoesOn op →
      dwarfOperands op = some (evaluateOperands op) := by
    decide +kernel
  exact same op small case_ reads

theorem evaluateOperands_ne_block (op : Nat) : evaluateOperands op ≠ .block := by
  unfold evaluateOperands
  split
  all_goals first
    | decide
    | split_ifs <;> decide

theorem operandsEnd_eq {env : Environment} {operands : Operands} (small : operands ≠ .block)
    (fits : ∀ size, operands.fixedSize env.opcodes = some size →
      env.opcodes.validOffsetForDataOfSize offset size = true) :
    env.operandsEnd operands offset = offset + operands.size env.opcodes offset := by
  cases operands with
  | nothing => rfl
  | address => exact if_pos (fits _ rfl)
  | fixed size => exact if_pos (fits _ rfl)
  | leb128 => rfl
  | twoLeb128s => exact add_assoc _ _ _
  | block => exact absurd rfl small

theorem Operands.size_of_encodes {operands : Operands} {bytes : List UInt8} (small : operands ≠ .block)
    (encodes : operands.Encodes data.addrSize bytes) (at_ : data.At offset bytes) :
    operands.size data offset = bytes.length := by
  obtain ⟨rest, there⟩ := at_
  cases operands with
  | nothing =>
    cases encodes
    rfl
  | address => exact encodes.symm
  | fixed size => exact encodes.symm
  | leb128 =>
    obtain ⟨number, rfl⟩ := encodes
    simp [size, ← there, lebLength_bytes]
  | twoLeb128s =>
    obtain ⟨first, second, rfl⟩ := encodes
    rw [append_assoc] at there
    have behind : data.bytes.drop (offset + first.size) = second.bytes ++ rest := by
      simp [← drop_drop, ← there]
    rw [size, ← there, lebLength_bytes]
    simp [behind, lebLength_bytes]
  | block => exact absurd rfl small

theorem SizesAgree.of_agreeable (agreeable : Agreeable data offset op) : SizesAgree data offset op := by
  obtain ⟨case_, fits⟩ := agreeable
  refine ⟨?_, ?_, fun without => absurd case_ without⟩
  · rintro env ⟨_, stack, tmp, opPieceOffset, pieces, error⟩ after rfl rfl straight is
    have goesOn : ¬ NeverGoesOn op := by
      rintro (rfl | rfl | rfl | rfl)
      · exact straight (.inl rfl)
      all_goals cases is
    have operands := dwarfOperands_eq case_ (.inr goesOn)
    have fits := fits.resolve_left goesOn
    rw [FixedFits, operands] at fits
    have moved := (offset_of_evaluateOpcode is).2 straight
    refine ⟨_, ?_, moved.trans (operandsEnd_eq (evaluateOperands_ne_block op) fits)⟩
    rw [getOpcodeDataSize_eq, operands]
    rfl
  · intro operands bytes assigned encodes at_
    rw [getOpcodeDataSize_eq, assigned, Option.map_some, size_of_encodes ?_ encodes at_]
    rintro rfl
    have counted : op = 0x9e := by
      unfold dwarfOperands at assigned
      split at assigned
      all_goals first
        | rfl
        | cases assigned
        | split_ifs at assigned <;> cases assigned
    subst counted
    exact absurd case_ (by decide)

def readsFixed (op : Nat) : Bool := op = 0x03 ∨ 0x08 ≤ op ∧ op ≤ 0x0f ∨ op = 0x15 ∨ op = 0x28 ∨ op = 0x94

theorem readsFixed_of_not_fits (case_ : HasCase op) (goesOn : ¬ NeverGoesOn op) (short : ¬ FixedFits data offset op) :
    readsFixed op = true := by
  have small : op < 256 := by
    unfold HasCase at case_
    omega
  have listed : ∀ op < 256, ¬ NeverGoesOn op → HasCase op → readsFixed op = false →
      evaluateOperands op = .nothing ∨ evaluateOperands op = .leb128 ∨ evaluateOperands op = .twoLeb128s := by
    decide +kernel
  by_contra other
  apply short
  rw [FixedFits, dwarfOperands_eq case_ (.inr goesOn)]
  rcases listed op small goesOn case_ (Bool.eq_false_iff.mpr other) with is | is |
    is <;> rw [is] <;> intro size fixed <;>
    cases fixed

namespace Environment

def reading (data : DataExtractor) : Environment := { bare [] with opcodes := data }

theorem fixedValue_of_not_valid {env : Environment} {size : Nat}
    (short : ¬ env.opcodes.validOffsetForDataOfSize offset size = true) : env.fixedValue size offset = 0 := by
  have read : env.opcodes.getMaxU64 size offset = some (0, offset) := by
    change (env.opcodes.getData size offset).bind _ = _
    rw [getData, if_neg short]
    rfl
  rw [fixedValue, read]
  rfl

theorem leads_readsFixed (reads : readsFixed op = true) (short : ¬ FixedFits data offset op) :
    Leads ((reading data).evaluateOpcode op) ⟨offset, [.empty], .empty, 0, .empty, none⟩ (fun _ => False)
      fun _ _ => True := by
  have cases_ := of_decide_eq_true reads
  rcases cases_ with rfl | ⟨low, high⟩ | rfl | rfl | rfl
  · change Leads (addr _) _ _ _
    simp [addr]
  · interval_cases op
    all_goals
      change Leads (constant _ _ _) _ _ _
      simp [constant]
  · have zero : (reading data).fixedValue 1 offset = 0 :=
      fixedValue_of_not_valid fun valid => short fun size fixed => by cases fixed; exact valid
    change Leads (pick _) _ _ _
    simp [pick, zero, Stack.leads_get]
  · change Leads (bra _) _ _ _
    simp only [bra, Stoppable.leads_bind, Stoppable.leads_ite]
    exact ⟨fun nothing => absurd nothing one_ne_zero, fun _ => ⟨fun taken => absurd taken Bool.false_ne_true,
      fun _ => trivial⟩⟩
  · change Leads (derefSize _) _ _ _
    simp [derefSize, Value.empty, Value.ofScalar]

end Environment

theorem SizesAgree.agreeable (agree : SizesAgree data offset op) : Agreeable data offset op := by
  have case_ : HasCase op := by
    by_contra without
    exact agree.neverSteppedOver without (reading data) ⟨offset, [], .empty, 0, .empty, none⟩ _ rfl rfl
      (hasCase_of_evaluateOpcode without)
  refine ⟨case_, ?_⟩
  by_contra neither
  obtain ⟨goesOn, short⟩ := not_or.mp neither
  have reads := readsFixed_of_not_fits case_ goesOn short
  have operands := dwarfOperands_eq case_ (.inr goesOn)
  have straight : ¬ (reading data).Branches op ⟨offset, [.empty], .empty, 0, .empty, none⟩ := by
    rintro (rfl | ⟨-, top, rest, -, nonzero⟩)
    · exact goesOn (.inl rfl)
    · cases nonzero
  have leads := leads_readsFixed reads short
  cases is : (reading data).evaluateOpcode op ⟨offset, [.empty], .empty, 0, .empty, none⟩ with
  | error stop => exact leads.error is
  | ok read =>
    -- the step stays where it is, but the size is not zero
    obtain ⟨size, found, moved⟩ := agree.evaluated _ _ read.2 rfl rfl straight is
    have stays := (offset_of_evaluateOpcode is).2 straight
    apply short
    intro fixed is_
    rw [operands] at is_
    rw [getOpcodeDataSize_eq, operands] at found
    cases kind : evaluateOperands op with
    | nothing | leb128 | twoLeb128s | block =>
      rw [kind] at is_
      cases is_
    | address =>
      rw [kind] at is_ found stays
      cases is_
      cases found
      by_contra cut
      have there : read.2.offset = offset := stays.trans (if_neg cut)
      change read.2.offset = offset + data.addrSize at moved
      apply cut
      exact decide_eq_true (by omega)
    | fixed width =>
      rw [kind] at is_ found stays
      cases is_
      cases found
      by_contra cut
      have there : read.2.offset = offset := stays.trans (if_neg cut)
      change read.2.offset = offset + fixed at moved
      apply cut
      exact decide_eq_true (by omega)

end Lldb.Evaluate
