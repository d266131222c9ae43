import Lldb.SymbolFile.LineProgramHeader

/-! The line-number machine of DWARF, with registers that have no bounds, and the parser's state against it. -/

set_option autoImplicit false

namespace Lldb.DebugLine

open Library List

structure Registers where
  address : Nat
  line : Int
  column : Nat
  file : Nat
  isStmt : Bool
  basicBlock : Bool
  endSequence : Bool
  prologueEnd : Bool
  epilogueBegin : Bool
  isa : Nat
  deriving DecidableEq, Repr

namespace Registers

variable {header : LineHeader}

def initial (header : LineHeader) : Registers where
  address := 0
  line := 1
  column := 0
  file := 1
  isStmt := header.defaultIsStmt ≠ 0
  basicBlock := false
  endSequence := false
  prologueEnd := false
  epilogueBegin := false
  isa := 0

def appended (registers : Registers) : Registers :=
  { registers with basicBlock := false, prologueEnd := false, epilogueBegin := false }

def advance (registers : Registers) (addressDelta : Nat) (lineDelta : Int) : Registers :=
  { registers with address := registers.address + addressDelta, line := registers.line + lineDelta }

def addressAdvance (header : LineHeader) (adjusted : Nat) : Nat :=
  adjusted / header.lineRange.toNat * header.minInstLength.toNat

def special (header : LineHeader) (registers : Registers) (adjusted : Nat) : Registers :=
  registers.advance (addressAdvance header adjusted) (header.lineBase.toInt + (adjusted % header.lineRange.toNat : Nat))

def step (registers : Registers) : LineInstruction header → Registers × List Registers
  | .special opcode _ =>
    let row := special header registers (opcode.toNat - header.opcodeBase)
    (row.appended, [row])
  | .standard .copy _ => (registers.appended, [registers])
  | .standard (.advancePc delta) _ => (registers.advance (delta.unsigned * header.minInstLength.toNat) 0, [])
  | .standard (.advanceLine delta) _ => (registers.advance 0 delta.signed, [])
  | .standard (.setFile file) _ => ({ registers with file := file.unsigned }, [])
  | .standard (.setColumn column) _ => ({ registers with column := column.unsigned }, [])
  | .standard .negateStmt _ => ({ registers with isStmt := !registers.isStmt }, [])
  | .standard .setBasicBlock _ => ({ registers with basicBlock := true }, [])
  | .standard .constAddPc _ => (registers.advance (addressAdvance header (255 - header.opcodeBase)) 0, [])
  | .standard (.fixedAdvancePc delta) _ => (registers.advance delta.toNat 0, [])
  | .standard .setPrologueEnd _ => ({ registers with prologueEnd := true }, [])
  | .standard .setEpilogueBegin _ => ({ registers with epilogueBegin := true }, [])
  | .standard (.setIsa isa) _ => ({ registers with isa := isa.unsigned }, [])
  | .unknownStandard _ _ _ _ _ => (registers, [])
  | .extended _ .endSequence _ => (initial header, [{ registers with endSequence := true }])
  | .extended _ (.setAddress4 address) _ => ({ registers with address := address.toNat }, [])
  | .extended _ (.setAddress8 address) _ => ({ registers with address := address.toNat }, [])
  | .extended _ (.defineFile _) _ => (registers, [])
  | .extended _ (.unknown _ _ _) _ => (registers, [])

def rows (registers : Registers) : List (LineInstruction header) → List Registers
  | [] => []
  | instruction :: rest => (registers.step instruction).2 ++ (registers.step instruction).1.rows rest

def marks : LineInstruction header → List Bool
  | .special _ _ => [false]
  | .standard .copy _ => [false]
  | .extended _ .endSequence _ => [true]
  | _ => []

theorem step_endSequence {registers : Registers} (running : registers.endSequence = false)
    (instruction : LineInstruction header) : (registers.step instruction).1.endSequence = false ∧
      (registers.step instruction).2.map endSequence = marks instruction := by
  cases instruction with
  | special opcode above => exact ⟨running, congrArg (fun mark => [mark]) running⟩
  | standard op known =>
    cases op with
    | copy => exact ⟨running, congrArg (fun mark => [mark]) running⟩
    | _ => exact ⟨running, rfl⟩
  | unknownStandard opcode above operands count few => exact ⟨running, rfl⟩
  | extended length op exact_ =>
    cases op with
    | endSequence => exact ⟨rfl, rfl⟩
    | _ => exact ⟨running, rfl⟩

/-- The rows of `DW_LNE_end_sequence` end their sequences, and no others do. -/
theorem rows_endSequence {registers : Registers} (running : registers.endSequence = false)
    (program : List (LineInstruction header)) : (registers.rows program).map endSequence = program.flatMap marks := by
  induction program generalizing registers with
  | nil => rfl
  | cons instruction rest ih =>
    obtain ⟨onward, mark⟩ := step_endSequence running instruction
    simp [rows, mark, ih onward]

def wrapped (registers : Registers) : Row where
  address := registers.address % 2 ^ 64
  line := (registers.line % 2 ^ 32).toNat
  column := uint16 registers.column
  file := uint16 registers.file
  isStmt := registers.isStmt
  basicBlock := registers.basicBlock
  endSequence := registers.endSequence
  prologueEnd := registers.prologueEnd
  epilogueBegin := registers.epilogueBegin
  isa := uint32 registers.isa

structure Fits (registers : Registers) : Prop where
  address : registers.address < 2 ^ 64
  line : 0 ≤ registers.line ∧ registers.line < 2 ^ 32
  column : registers.column < 2 ^ 16
  file : registers.file < 2 ^ 16
  isa : registers.isa < 2 ^ 32

end Registers

def Row.registers (row : Row) : Registers where
  address := row.address
  line := row.line
  column := row.column
  file := row.file
  isStmt := row.isStmt
  basicBlock := row.basicBlock
  endSequence := row.endSequence
  prologueEnd := row.prologueEnd
  epilogueBegin := row.epilogueBegin
  isa := row.isa

theorem Registers.registers_wrapped_iff (registers : Registers) :
    registers.wrapped.registers = registers ↔ registers.Fits := by
  constructor
  · intro same
    have address := congrArg Registers.address same
    have line := congrArg Registers.line same
    have column := congrArg Registers.column same
    have file := congrArg Registers.file same
    have isa := congrArg Registers.isa same
    simp only [Row.registers, wrapped, uint16, uint32] at address line column file isa
    exact ⟨by omega, by omega, by omega, by omega, by omega⟩
  · intro fits
    obtain ⟨address, line, column, file, isa⟩ := fits
    cases registers
    simp only [Row.registers, wrapped, uint16, uint32, mk.injEq, true_and] at *
    omega

/-- The rows among the calls: the start and the end of the table have other row numbers. -/
def rowsOf (calls : List Call) : List Row := (calls.filter fun call => 0 < call.row).map Call.state

/-- The parser's state holds the machine's registers, and its calls are the rows appended so far. -/
structure Follows (header : LineHeader) (state : State) (registers : Registers) (rows : List Registers) : Prop where
  holds : state.prologue.Holds header
  row : state.toRow = registers.wrapped
  count : state.row = rows.length
  bounded : rows.length < 2 ^ 31
  calls : rowsOf state.calls = rows.map Registers.wrapped

namespace Follows

variable {header : LineHeader} {state : State} {registers : Registers} {rows : List Registers}

theorem start {prologue : Prologue} (holds : prologue.Holds header) :
    Follows header (.start prologue) (.initial header) [] where
  holds := holds
  row := by
    have same : decide (prologue.defaultIsStmt ≠ 0) = decide (header.defaultIsStmt ≠ 0) := by
      rw [decide_eq_decide, holds.defaultIsStmt]
      exact not_congr (UInt8.toNat_inj (b := 0))
    change Row.reset (decide (prologue.defaultIsStmt ≠ 0)) = _
    rw [same]
    rfl
  count := rfl
  bounded := by decide
  calls := rfl

variable (follows : Follows header state registers rows)
include follows

/-- A row is appended, unless the row number overflows. -/
theorem append (after : Nat) :
    (∃ next, state.appendRowToMatrix after = some next ∧ Follows header next registers.appended (rows ++ [registers])) ∨
      state.appendRowToMatrix after = none ∧ 2 ^ 31 ≤ (rows ++ [registers]).length := by
  have count := follows.count
  rw [length_append, length_singleton]
  unfold State.appendRowToMatrix
  by_cases room : state.row + 1 < 2 ^ 31
  · rw [if_pos room]
    refine .inl ⟨_, rfl, follows.holds, ?_, ?_, ?_, ?_⟩
    · rw [follows.row]
      rfl
    · rw [count, length_append]
      rfl
    · rw [length_append, length_singleton]
      omega
    · change rowsOf (state.calls ++ [⟨uint32 after, state.row + 1, state.toRow⟩]) = _
      have numbered : 0 < state.row + 1 := by omega
      have calls := follows.calls
      unfold rowsOf at calls ⊢
      rw [filter_append, map_append, calls, follows.row]
      simp [numbered]
  · rw [if_neg room]
    exact .inr ⟨rfl, by omega⟩

theorem update {next : State} {moved : Registers}
    (holds : next.prologue.Holds header) (count : next.row = state.row) (calls : next.calls = state.calls)
    (row : next.toRow = moved.wrapped) : Follows header next moved (rows ++ []) := by
  rw [append_nil]
  exact ⟨holds, row, count.trans follows.count, follows.bounded, calls ▸ follows.calls⟩

theorem addAddress_row (delta : Nat) : (addAddress state delta).toRow = (registers.advance delta 0).wrapped := by
  change { state.toRow with address := (state.address + delta) % 2 ^ 64 } = _
  rw [follows.row]
  simp [Registers.advance, Registers.wrapped]

theorem addLine_row (delta : Int) : (addLine state delta).toRow = (registers.advance 0 delta).wrapped := by
  have line : state.line = (registers.line % 2 ^ 32).toNat := congrArg Row.line follows.row
  have same : (((state.line : Int) + delta) % 2 ^ 32).toNat = ((registers.line + delta) % 2 ^ 32).toNat := by omega
  change { state.toRow with line := (((state.line : Int) + delta) % 2 ^ 32).toNat } = _
  rw [same, follows.row]
  simp [Registers.advance, Registers.wrapped]

theorem addAddress (delta : Nat) : Follows header (addAddress state delta) (registers.advance delta 0) (rows ++ []) :=
  follows.update follows.holds rfl rfl (follows.addAddress_row delta)

theorem addLine (delta : Int) : Follows header (addLine state delta) (registers.advance 0 delta) (rows ++ []) :=
  follows.update follows.holds rfl rfl (follows.addLine_row delta)

theorem setAddress {address : Nat} (fits : address < 2 ^ 64) :
    Follows header { state with address } { registers with address } (rows ++ []) := by
  refine follows.update follows.holds rfl rfl ?_
  rw [follows.row]
  simp only [Registers.wrapped, Nat.mod_eq_of_lt fits]

theorem addrOffset_eq (adjusted : Nat) :
    addrOffset state.prologue adjusted = some (Registers.addressAdvance header adjusted) := by
  have nonzero : header.lineRange.toNat ≠ 0 := fun zero => header.divides (UInt8.toNat_inj (b := 0).mp zero)
  rw [addrOffset, follows.holds.lineRange, follows.holds.minInstLength, if_neg nonzero]
  rfl

/-- What follows an instruction, in the words of the parser and of the machine. -/
def Steps (header : LineHeader) (applied : Option State) (rows : List Registers)
    (stepped : Registers × List Registers) : Prop :=
  (∃ next, applied = some next ∧ Follows header next stepped.1 (rows ++ stepped.2)) ∨
    applied = none ∧ 2 ^ 31 ≤ (rows ++ stepped.2).length

theorem standard (op : StandardOp) (known : op.opcode.toNat < header.opcodeBase) (after : Nat) :
    Steps header (op.apply after state) rows (registers.step (.standard op known)) := by
  cases op with
  | copy => exact follows.append after
  | advancePc delta =>
    have factor := follows.holds.minInstLength
    refine .inl ⟨_, rfl, ?_⟩
    rw [factor]
    exact follows.addAddress _
  | advanceLine delta => exact .inl ⟨_, rfl, follows.addLine _⟩
  | constAddPc =>
    refine .inl ⟨_, congrArg (Option.map _) (follows.addrOffset_eq _), ?_⟩
    rw [follows.holds.opcodeBase]
    exact follows.addAddress _
  | fixedAdvancePc delta => exact .inl ⟨_, rfl, follows.addAddress _⟩
  | setFile file => exact .inl ⟨_, rfl, follows.update follows.holds rfl rfl (by rw [follows.row]; rfl)⟩
  | setColumn column => exact .inl ⟨_, rfl, follows.update follows.holds rfl rfl (by rw [follows.row]; rfl)⟩
  | negateStmt =>
    refine .inl ⟨_, rfl, follows.update follows.holds rfl rfl ?_⟩
    rw [follows.row]
    rfl
  | setBasicBlock => exact .inl ⟨_, rfl, follows.update follows.holds rfl rfl (by rw [follows.row]; rfl)⟩
  | setPrologueEnd => exact .inl ⟨_, rfl, follows.update follows.holds rfl rfl (by rw [follows.row]; rfl)⟩
  | setEpilogueBegin => exact .inl ⟨_, rfl, follows.update follows.holds rfl rfl (by rw [follows.row]; rfl)⟩
  | setIsa isa => exact .inl ⟨_, rfl, follows.update follows.holds rfl rfl (by rw [follows.row]; rfl)⟩

theorem special {opcode : UInt8} (above : header.opcodeBase ≤ opcode.toNat) (after : Nat) :
    Steps header ((LineInstruction.special opcode above).apply after state) rows
      (registers.step (.special opcode above)) := by
  have moved := follows.addLine (header.lineBase.toInt +
    ((opcode.toNat - header.opcodeBase) % header.lineRange.toNat : Nat))
  have here := moved.addAddress (Registers.addressAdvance header (opcode.toNat - header.opcodeBase))
  simp only [append_nil] at here
  have row : (registers.advance 0
      (header.lineBase.toInt + ((opcode.toNat - header.opcodeBase) % header.lineRange.toNat : Nat))).advance
        (Registers.addressAdvance header (opcode.toNat - header.opcodeBase)) 0 =
          Registers.special header registers (opcode.toNat - header.opcodeBase) := by
    simp [Registers.special, Registers.advance]
  rw [row] at here
  have applied : (LineInstruction.special opcode above).apply after state =
      (DebugLine.addAddress (DebugLine.addLine state
        (header.lineBase.toInt + ((opcode.toNat - header.opcodeBase) % header.lineRange.toNat : Nat)))
        (Registers.addressAdvance header (opcode.toNat - header.opcodeBase))).appendRowToMatrix after := by
    change (addrOffset state.prologue (opcode.toNat - state.prologue.opcodeBase)).bind _ = _
    simp [follows.addrOffset_eq, follows.holds.lineBase, follows.holds.lineRange, follows.holds.opcodeBase]
  rw [applied]
  exact here.append after

theorem reset : Follows header state.reset (.initial header) rows := by
  have begun := (Follows.start follows.holds).row
  exact ⟨follows.holds, begun, follows.count, follows.bounded, follows.calls⟩

theorem extended {length : Leb128} {op : ExtendedOp} (exact_ : length.unsigned = op.argSize + 1) (after : Nat) :
    Steps header (op.apply after state) rows
      (registers.step (.extended length op exact_ : LineInstruction header)) := by
  cases op with
  | endSequence =>
    have ended : Follows header { state with endSequence := true } { registers with endSequence := true } rows := by
      rw [← append_nil rows]
      exact follows.update follows.holds rfl rfl (by rw [follows.row]; rfl)
    rcases ended.append after with ⟨next, appended, onward⟩ | ⟨overflow, many⟩
    · exact .inl ⟨next.reset, congrArg (Option.map State.reset) appended, onward.reset⟩
    · exact .inr ⟨congrArg (Option.map State.reset) overflow, many⟩
  | setAddress4 address => exact .inl ⟨_, rfl, follows.setAddress (by omega)⟩
  | setAddress8 address => exact .inl ⟨_, rfl, follows.setAddress address.isLt⟩
  | defineFile file => exact .inl ⟨_, rfl, follows.update (follows.holds.addFile _) rfl rfl follows.row⟩
  | unknown subOpcode other arguments => exact .inl ⟨_, rfl, follows.update follows.holds rfl rfl follows.row⟩

omit follows

theorem step (follows : Follows header state registers rows) (instruction : LineInstruction header) (after : Nat) :
    Steps header (instruction.apply after state) rows (registers.step instruction) := by
  cases instruction with
  | special opcode above => exact follows.special above after
  | standard op known => exact follows.standard op known after
  | unknownStandard opcode above operands count few =>
    exact .inl ⟨_, rfl, follows.update follows.holds rfl rfl follows.row⟩
  | extended length op exact_ => exact follows.extended exact_ after

/-- A whole program appends the machine's rows, unless their number overflows. -/
theorem run (follows : Follows header state registers rows) (order : ByteOrder) (offset : Nat)
    (program : List (LineInstruction header)) :
    (∃ next, applyAll order offset state program = some next ∧
      rowsOf next.calls = (rows ++ registers.rows program).map Registers.wrapped ∧
        (rows ++ registers.rows program).length < 2 ^ 31) ∨
      applyAll order offset state program = none ∧ 2 ^ 31 ≤ (rows ++ registers.rows program).length := by
  induction program generalizing offset state registers rows with
  | nil =>
    refine .inl ⟨state, rfl, ?_, ?_⟩
    · simpa [Registers.rows] using follows.calls
    · simpa [Registers.rows] using follows.bounded
  | cons instruction rest ih =>
    rw [Registers.rows, ← append_assoc]
    rcases follows.step instruction (offset + (instruction.encode order).length) with
      ⟨next, applied, onward⟩ | ⟨overflow, many⟩
    · rw [applyAll, applied]
      exact ih onward _
    · rw [applyAll, overflow]
      refine .inr ⟨rfl, ?_⟩
      rw [length_append]
      omega

end Follows

end Lldb.DebugLine
