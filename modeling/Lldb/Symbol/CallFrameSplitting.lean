import Lldb.Symbol.CallFrameOperands

/-! Which call frame instructions the loops take whole, and how they split bytes into instructions.
-/

set_option autoImplicit false

namespace Lldb

open Library DWARFCallFrameInfo DataExtractor List Option

namespace Cursor

variable {α β : Type}

theorem moves_bind {first : Cursor α} {next : α → Cursor β} {rest : Nat → Option Nat}
    (same : ∀ read, (next read).moves = rest)
    (offset : Nat) : (first >>= next).moves offset = (first.moves offset).bind rest := by
  change ((first offset).bind fun read => next read.1 read.2).map (·.2) = ((first offset).map (·.2)).bind rest
  cases first offset with
  | none => rfl
  | some read => exact congrFun (same read.1) read.2

def outline (cursor : Cursor (Option α)) (offset : Nat) : Option (Bool × Nat) :=
  (cursor offset).map fun read => (read.1.isSome, read.2)

theorem outline_bind {first : Cursor β} {next : β → Cursor (Option α)} {rest : Nat → Option (Bool × Nat)}
    (same : ∀ read, (next read).outline = rest) (offset : Nat) :
    (first >>= next).outline offset = (first.moves offset).bind rest := by
  change ((first offset).bind fun read => next read.1 read.2).map _ = ((first offset).map (·.2)).bind rest
  cases first offset with
  | none => rfl
  | some read => exact congrFun (same read.1) read.2

end Cursor

namespace CallFrame

/-- How the code moves over an operand; `held` is the length of a block as it is held. -/
def readOperand (data : DataExtractor) (held : Nat → Nat) : OperandKind → Nat → Option Nat
  | .unsigned => data.getULEB128.moves
  | .signed => data.getSLEB128.moves
  | .block => fun offset => (data.getULEB128 offset).bind fun (length, next) => (data.getData (held length)).moves next
  | .fixed size => (data.getMaxU64 size).moves

def readOperands (data : DataExtractor) (held : Nat → Nat) : List OperandKind → Nat → Option Nat
  | [], offset => some offset
  | kind :: kinds, offset => (readOperand data held kind offset).bind (readOperands data held kinds)

/-- The length of a block is a `size_t` in DW_CFA_def_cfa_expression, and a `uint32_t` elsewhere. -/
def heldLength (extendedOpcode length : Nat) : Nat := if extendedOpcode = 0x0f then length else uint32 length

/-- The opcodes of `HandleCommonDwarfOpcode`. -/
def commonOpcode (primaryOpcode extendedOpcode : Nat) : Bool :=
  if primaryOpcode ≠ 0 then primaryOpcode = 0x80
  else extendedOpcode ∈ [0x00, 0x05, 0x07, 0x08, 0x09, 0x0c, 0x0d, 0x0e, 0x0f, 0x10, 0x11, 0x12, 0x13, 0x16]

def skippedOpcode (primaryOpcode extendedOpcode : Nat) : Bool := primaryOpcode = 0 ∧ extendedOpcode ∈ [0x14, 0x15]

variable {data : DataExtractor}

theorem readOperands_one (held : Nat → Nat) (kind : OperandKind) (offset : Nat) :
    readOperands data held [kind] offset = readOperand data held kind offset := by
  exact bind_fun_some _

variable {α : Type}

variable {kinds : List OperandKind} {held : Nat → Nat} {addressSize primaryOpcode extendedOpcode offset : Nat}

theorem outline_operand {first : Cursor α} {next : α → Cursor (Option Row)} {kind : OperandKind}
    (reads : first.moves = readOperand data held kind)
    (rest : ∀ read, (next read).outline = fun offset => (readOperands data held kinds offset).map (true, ·)) :
    (first >>= next).outline = fun offset => (readOperands data held (kind :: kinds) offset).map (true, ·) := by
  funext offset
  simp [Cursor.outline_bind rest, reads, readOperands]

theorem outline_block (make : Nat → Option (List UInt8) → Row) : ((do
      let length ← data.getULEB128
      let bytes ← data.getData (held length)
      return some (make length bytes)) : Cursor (Option Row)).outline =
      fun offset => (readOperands data held [.block] offset).map (true, ·) := by
  funext offset
  rw [readOperands_one]
  change ((data.getULEB128 offset).bind fun read => Option.bind (data.getData (held read.1) read.2) fun _ =>
    some _).map _ =
    ((data.getULEB128 offset).bind fun read => (data.getData (held read.1) read.2).map (·.2)).map (true, ·)
  cases data.getULEB128 offset with
  | none => rfl
  | some read =>
    simp only [bind_some]
    cases data.getData (held read.1) read.2 <;> rfl

theorem outline_operands_nil (row : Row) : (pure (some row) : Cursor (Option Row)).outline =
      fun offset => (readOperands data held [] offset).map (true, ·) := rfl

/-- What `HandleCommonDwarfOpcode` reads are the operands. -/
theorem handleCommonDwarfOpcode_outline {addressSize primaryOpcode extendedOpcode : Nat} {kinds : List OperandKind}
    (known : operandKinds addressSize primaryOpcode extendedOpcode = some kinds)
    (common : commonOpcode primaryOpcode extendedOpcode = true) (dataAlign : Int) (row : Row) :
    (handleCommonDwarfOpcode data primaryOpcode extendedOpcode dataAlign row).outline =
      fun offset => (readOperands data (heldLength extendedOpcode) kinds offset).map (true, ·) := by
  unfold commonOpcode at common
  unfold operandKinds at known
  unfold handleCommonDwarfOpcode
  split at common
  · rename_i primary
    rw [decide_eq_true_eq] at common
    subst common
    cases known
    exact outline_operand rfl fun _ => outline_operands_nil _
  · rename_i extended
    rw [if_neg extended] at known ⊢
    rw [decide_eq_true_eq] at common
    simp only [mem_cons, not_mem_nil, or_false] at common
    rcases common with rfl | rfl | rfl | rfl | rfl | rfl | rfl | rfl | rfl | rfl | rfl | rfl | rfl | rfl <;> cases known
    · rfl
    · exact outline_operand rfl fun _ => outline_operand rfl fun _ => outline_operands_nil _
    · exact outline_operand rfl fun _ => outline_operands_nil _
    · exact outline_operand rfl fun _ => outline_operands_nil _
    · exact outline_operand rfl fun _ => outline_operand rfl fun _ => outline_operands_nil _
    · exact outline_operand rfl fun _ => outline_operand rfl fun _ => outline_operands_nil _
    · exact outline_operand rfl fun _ => outline_operands_nil _
    · exact outline_operand rfl fun _ => outline_operands_nil _
    · exact outline_block _
    · exact outline_operand rfl fun _ => outline_block _
    · exact outline_operand rfl fun _ => outline_operand rfl fun _ => outline_operands_nil _
    · exact outline_operand rfl fun _ => outline_operand rfl fun _ => outline_operands_nil _
    · exact outline_operand rfl fun _ => outline_operands_nil _
    · exact outline_operand rfl fun _ => outline_block _

/-- The opcodes that `HandleCommonDwarfOpcode` leaves alone. -/
theorem otherOpcode_cases (known : operandKinds addressSize primaryOpcode extendedOpcode = some kinds)
    (other : commonOpcode primaryOpcode extendedOpcode = false) :
    primaryOpcode ≠ 0 ∧ primaryOpcode ≠ 0x80 ∧ kinds = [] ∨
      primaryOpcode = 0 ∧ extendedOpcode ∈ [0x01, 0x02, 0x03, 0x04, 0x06, 0x0a, 0x0b, 0x14, 0x15, 0x2e] := by
  unfold commonOpcode at other
  unfold operandKinds at known
  split at other
  · rename_i primary
    rw [if_pos primary] at known
    rw [decide_eq_false_iff_not] at other
    split at known
    · exact absurd rfl other
    · cases known
      exact .inl ⟨primary, other, rfl⟩
  · rename_i primary
    rw [if_neg primary] at known
    refine .inr ⟨not_not.mp primary, ?_⟩
    split at known <;> first | decide | (exact absurd other (by decide)) | cases known

theorem handleCommonDwarfOpcode_none (known : operandKinds addressSize primaryOpcode extendedOpcode = some kinds)
    (other : commonOpcode primaryOpcode extendedOpcode = false) (dataAlign : Int) (row : Row) (offset : Nat) :
    handleCommonDwarfOpcode data primaryOpcode extendedOpcode dataAlign row offset = some (none, offset) := by
  unfold handleCommonDwarfOpcode
  rcases otherOpcode_cases known other with ⟨primary, notOffset, -⟩ | ⟨rfl, extended⟩
  · rw [if_pos primary]
    split
    · exact absurd rfl notOffset
    · rfl
  · simp only [mem_cons, not_mem_nil, or_false] at extended
    rcases extended with rfl | rfl | rfl | rfl | rfl | rfl | rfl | rfl | rfl | rfl <;> rfl

theorem moves_operand {first : Cursor α} {kind : OperandKind} {next : α → Cursor PlanState}
    (reads : first.moves = readOperand data held kind) (rest : ∀ read, (next read).moves = some) :
    (first >>= next).moves = readOperands data held [kind] := by
  funext offset
  simp [Cursor.moves_bind rest, reads, readOperands_one]

/-- What `FDEToUnwindPlan` reads itself are the operands, or nothing. -/
theorem handleFDEOpcode_moves (known : operandKinds data.addrSize primaryOpcode extendedOpcode = some kinds)
    (other : commonOpcode primaryOpcode extendedOpcode = false) (held : Nat → Nat) (codeAlign startFileAddress : Nat)
    (state : PlanState) :
    (handleFDEOpcode data codeAlign startFileAddress primaryOpcode extendedOpcode state).moves =
      if skippedOpcode primaryOpcode extendedOpcode then some else readOperands data held kinds := by
  unfold handleFDEOpcode
  rcases otherOpcode_cases known other with ⟨primary, -, rfl⟩ | ⟨rfl, extended⟩
  · have kept : skippedOpcode primaryOpcode extendedOpcode = false := decide_eq_false fun both => primary both.1
    rw [if_pos primary, kept]
    split <;> rfl
  · simp only [mem_cons, not_mem_nil, or_false] at extended
    rcases extended with rfl | rfl | rfl | rfl | rfl | rfl | rfl | rfl | rfl | rfl <;> cases known
    · exact moves_operand rfl fun _ => rfl
    · exact moves_operand rfl fun _ => rfl
    · exact moves_operand rfl fun _ => rfl
    · exact moves_operand rfl fun _ => rfl
    · exact moves_operand rfl fun _ => rfl
    · rfl
    · rfl
    · rfl
    · rfl
    · exact moves_operand rfl fun _ => rfl

theorem block_last (known : operandKinds addressSize primaryOpcode extendedOpcode = some kinds) :
      OperandKind.block ∉ kinds.dropLast := by
  unfold operandKinds at known
  split at known <;> split at known <;> cases known <;> simp

/-! Operands that are read whole. -/

def lengthLimit (extendedOpcode : Nat) : Nat := if extendedOpcode = 0x0f then 2 ^ 64 else 2 ^ 32

/-- No LEB128 number needs an undefined shift, and the length of a block is held. -/
def Operand.Readable (limit : Nat) : Operand → Prop
  | unsigned number => number.size ≤ 10
  | signed number => SignedReadable number
  | block length bytes _ => length.size ≤ 10 ∧ bytes.length < limit
  | fixed _ => True

instance (limit : Nat) (operand : Operand) : Decidable (operand.Readable limit) := by
  cases operand <;> unfold Operand.Readable <;> infer_instance

theorem heldLength_eq_iff (extendedOpcode length : Nat) :
    heldLength extendedOpcode (length % 2 ^ 64) = length ↔ length < lengthLimit extendedOpcode := by
  unfold heldLength lengthLimit uint32
  split <;> omega

theorem heldLength_le (extendedOpcode length : Nat) : heldLength extendedOpcode (length % 2 ^ 64) ≤ length := by
  unfold heldLength uint32
  split <;> omega

theorem readOperand_plain {operand : Operand} (at_ : data.At offset operand.bytes) (plain : operand.kind ≠ .block)
    (held : Nat → Nat) (limit : Nat) :
    readOperand data held operand.kind offset =
      if operand.Readable limit then some (offset + operand.bytes.length) else none := by
  cases operand with
  | unsigned number =>
    change (data.getULEB128 offset).map (·.2) = if number.size ≤ 10 then some (offset + number.bytes.length) else none
    rw [getULEB128_at at_, Leb128.length_bytes]
    split <;> rfl
  | signed number =>
    change (data.getSLEB128 offset).map (·.2) =
      if SignedReadable number then some (offset + number.bytes.length) else none
    rw [getSLEB128_at at_, Leb128.length_bytes]
    split <;> rfl
  | block => exact absurd rfl plain
  | fixed bytes =>
    have read : data.getData bytes.length offset = some (some bytes, offset + bytes.length) := getData_at at_
    change ((data.getData bytes.length offset).bind fun _ => _).map (fun next : Nat × Nat => next.2) = _
    rw [read]
    rfl

theorem readOperand_block {length : Leb128} {bytes : List UInt8} (at_ : data.At offset (length.bytes ++ bytes))
    (exact : length.unsigned = bytes.length) (extendedOpcode : Nat) :
    readOperand data (heldLength extendedOpcode) .block offset = some (offset + (length.bytes ++ bytes).length) ↔
      length.size ≤ 10 ∧ bytes.length < lengthLimit extendedOpcode := by
  change (data.getULEB128 offset).bind
    (fun read => (data.getData (heldLength extendedOpcode read.1) read.2).map (·.2)) = _ ↔ _
  rw [getULEB128_at at_.left, length_append, Leb128.length_bytes, ← heldLength_eq_iff, exact]
  by_cases short : length.size ≤ 10
  · have behind := at_.right.bound
    rw [Leb128.length_bytes] at behind
    have less := heldLength_le extendedOpcode bytes.length
    rw [if_pos short, bind_some]
    generalize heldLength extendedOpcode (bytes.length % 2 ^ 64) = held at less
    have valid : data.validOffsetForDataOfSize (offset + length.size) held = true := decide_eq_true (by omega)
    rw [getData]
    rw [if_pos valid, map_some, some_inj]
    omega
  · rw [if_neg short]
    exact iff_of_false nofun fun both => short both.1

theorem readOperands_iff {operands : List Operand} (last : OperandKind.block ∉ (operands.map Operand.kind).dropLast)
    (at_ : data.At offset (operands.flatMap Operand.bytes)) (extendedOpcode : Nat) :
    readOperands data (heldLength extendedOpcode) (operands.map Operand.kind) offset =
        some (offset + (operands.flatMap Operand.bytes).length) ↔
      ∀ operand ∈ operands, operand.Readable (lengthLimit extendedOpcode) := by
  induction operands generalizing offset with
  | nil => exact iff_of_true rfl nofun
  | cons operand operands ih =>
    rw [flatMap_cons] at at_ ⊢
    rw [map_cons, forall_mem_cons]
    by_cases block : operand.kind = .block
    · -- a block is the last operand
      have none_ : operands = [] := by
        cases operands with
        | nil => rfl
        | cons next rest =>
          refine absurd ?_ last
          rw [map_cons, block]
          exact mem_cons_self
      subst none_
      cases operand with
      | block length bytes exact =>
        rw [flatMap_nil, append_nil] at at_ ⊢
        rw [map_nil, readOperands_one]
        exact (readOperand_block at_ exact extendedOpcode).trans ⟨fun readable => ⟨readable, nofun⟩, And.left⟩
      | unsigned | signed | fixed => cases block
    · rw [readOperands, readOperand_plain at_.left block _ (lengthLimit extendedOpcode)]
      by_cases readable : operand.Readable (lengthLimit extendedOpcode)
      · have rest : OperandKind.block ∉ (operands.map Operand.kind).dropLast := by
          intro there
          refine last ?_
          cases operands with
          | nil => cases there
          | cons next rest =>
            exact mem_cons_of_mem _ there
        rw [if_pos readable, bind_some, length_append, ← add_assoc, ih rest at_.right]
        exact ⟨fun all => ⟨readable, all⟩, And.right⟩
      · rw [if_neg readable]
        exact iff_of_false nofun fun both => readable both.1

end CallFrame

end Lldb
