import Lldb.SymbolFile.LineMachine

/-! The rows of a line table against the machine: what is decoded where the program is found and
each opcode is skipped by its length.
-/

set_option autoImplicit false

namespace Lldb.DebugLine

open Library DataExtractor Registers List

variable {data : DataExtractor} {offset : Nat} {contribution : Contribution}

namespace Contribution

def rows (contribution : Contribution) : List Registers :=
  (initial contribution.header).rows contribution.program

def front (order : ByteOrder) (contribution : Contribution) : List UInt8 :=
  contribution.header.initialLength order (contribution.totalLength order) ++
    (order.encode 2 contribution.header.version ++
      (order.encode contribution.header.offsetSize contribution.header.headerLength ++ contribution.header.tables))

variable (order : ByteOrder)

theorem encode_eq_front (contribution : Contribution) : contribution.encode order =
      contribution.front order ++ (contribution.header.padding ++ encodeAll order contribution.program) := by
  simp [encode, front]

theorem length_initialLength (header : LineHeader) (totalLength : Nat) :
    (header.initialLength order totalLength).length = sizeofInitialLength header.dwarf64 := by
  unfold LineHeader.initialLength
  cases header.dwarf64 <;> simp [sizeofInitialLength]

theorem length_front (contribution : Contribution) : (contribution.front order).length =
      (contribution.header.initialLength order (contribution.totalLength order)).length + 2 +
        contribution.header.offsetSize + contribution.header.tables.length := by
  simp only [front, length_append, ByteOrder.length_encode]
  omega

theorem length_encode (contribution : Contribution) : (contribution.encode order).length =
      contribution.totalLength order + sizeofInitialLength contribution.header.dwarf64 := by
  rw [encode_eq_front, length_append, length_front, length_initialLength]
  simp only [totalLength, LineHeader.headerLength, length_append]
  omega

end Contribution

/-- The callback is given the rows of the machine, in order, and those of `DW_LNE_end_sequence` are marked. -/
def RowsFollow (data : DataExtractor) (offset : Nat) (contribution : Contribution) : Prop :=
  ∃ calls after, parseStatementTable data offset = some (some calls, after) ∧
    (rowsOf calls).map Row.registers = contribution.rows ∧
      (rowsOf calls).map Row.endSequence = contribution.program.flatMap marks

theorem Contribution.endSequence_of_registers {rows : List Row} (same : rows.map Row.registers = contribution.rows) :
    rows.map Row.endSequence = contribution.program.flatMap marks := by
  have marked := congrArg (List.map endSequence) same
  rw [map_map] at marked
  exact marked.trans (rows_endSequence rfl contribution.program)

theorem registers_wrapped_map_iff (rows : List Registers) :
    (rows.map wrapped).map Row.registers = rows ↔ ∀ row ∈ rows, row.Fits := by
  have whole := map_inj_left (l := rows) (f := Row.registers ∘ wrapped) (g := id)
  rw [map_id] at whole
  rw [map_map, whole]
  exact forall₂_congr fun row _ => row.registers_wrapped_iff

theorem rowsOf_finalize (after : Nat) (state : State) : rowsOf (state.finalize after).calls = rowsOf state.calls := by
  change rowsOf (state.calls ++ [⟨uint32 after, doneParsingLineTable, state.toRow⟩]) = _
  simp [rowsOf, doneParsingLineTable]

theorem parseStatementTable_at (encoded : data.At offset (contribution.encode data.byteOrder))
    (narrow : offset + (contribution.encode data.byteOrder).length < 2 ^ 32)
      (unpadded : contribution.header.padding = [])
    (skipped : ∀ instruction ∈ contribution.program, instruction.Skipped) :
    parseStatementTable data offset = if (∀ file ∈ contribution.header.fileNames, file.Readable) ∧
          ∀ instruction ∈ contribution.program, instruction.Readable then
        (applyAll data.byteOrder (offset + (contribution.front data.byteOrder).length)
          (.start (contribution.header.prologue (contribution.totalLength data.byteOrder)))
          contribution.program).map fun state =>
            (some (state.finalize (offset + (contribution.encode data.byteOrder).length)).calls,
              offset + (contribution.encode data.byteOrder).length)
      else none := by
  have length := Contribution.length_encode data.byteOrder contribution
  have split := Contribution.encode_eq_front data.byteOrder contribution
  have total : contribution.totalLength data.byteOrder < 2 ^ 32 - 4 := by
    have size : 4 ≤ sizeofInitialLength contribution.header.dwarf64 := by
      unfold sizeofInitialLength
      split <;> omega
    omega
  have header : contribution.header.headerLength < 2 ^ 32 := by
    unfold Contribution.totalLength at total
    omega
  rw [split] at encoded
  have program := encoded.right
  rw [unpadded, nil_append] at program
  have prologue := parsePrologue_at encoded.left (by split <;> omega) header
  have ends : uint32 (uint32 offset + uint32 (contribution.totalLength data.byteOrder) +
      sizeofInitialLength contribution.header.dwarf64) = offset + (contribution.front data.byteOrder).length +
          (encodeAll data.byteOrder contribution.program).length := by
    rw [split, unpadded, nil_append, length_append] at length narrow
    simp only [uint32]
    omega
  have enough : contribution.program.length < data.bytes.length + 1 := by
    have few := length_le_encodeAll data.byteOrder contribution.program
    have inside := program.bound
    omega
  have holds : (State.start (contribution.header.prologue (contribution.totalLength data.byteOrder))).prologue.Holds
      _ :=
    LineHeader.holds_prologue contribution.header _
  have loop := statementLoop_at holds program ends enough skipped
  have last : offset + (contribution.front data.byteOrder).length +
    (encodeAll data.byteOrder contribution.program).length = offset + (contribution.encode data.byteOrder).length := by
    simp [split, unpadded, add_assoc]
  have tables :
      offset + (contribution.header.initialLength data.byteOrder (contribution.totalLength data.byteOrder)).length + 2 +
        contribution.header.offsetSize + contribution.header.tables.length =
          offset + (contribution.front data.byteOrder).length := by
    rw [Contribution.length_front]
    omega
  rw [tables] at prologue
  refine (Cursor.bind_read (Cursor.get_read offset)).trans ?_
  rw [ite_and]
  by_cases readable : ∀ file ∈ contribution.header.fileNames, file.Readable
  · rw [if_pos readable] at prologue ⊢
    refine (Cursor.bind_read prologue).trans ?_
    change (statementLoop data (uint32 (uint32 offset + uint32 (contribution.totalLength data.byteOrder) +
      sizeofInitialLength contribution.header.dwarf64)) (data.bytes.length + 1) (.start _) _).bind
        (fun read => some (some (read.1.finalize read.2).calls, read.2)) = _
    rw [loop, ends, last]
    by_cases program : ∀ instruction ∈ contribution.program, instruction.Readable
    · rw [if_pos program, if_pos program, Option.bind_map, Option.map_eq_bind]
      rfl
    · simp [if_neg program]
  · rw [if_neg readable] at prologue ⊢
    exact congrArg (fun read => Option.bind read _) prologue

/-- Where nothing stands between the tables and the program, and each extended opcode is skipped by
its length, the rows are the machine's exactly when all operands can be read and the rows fit. -/
theorem rows_follow_line_machine_iff (encoded : data.At offset (contribution.encode data.byteOrder))
    (narrow : offset + (contribution.encode data.byteOrder).length < 2 ^ 32)
      (unpadded : contribution.header.padding = [])
    (skipped : ∀ instruction ∈ contribution.program, instruction.Skipped) :
    RowsFollow data offset contribution ↔ ((∀ file ∈ contribution.header.fileNames, file.Readable) ∧
          ∀ instruction ∈ contribution.program, instruction.Readable) ∧
        contribution.rows.length < 2 ^ 31 ∧ ∀ row ∈ contribution.rows, row.Fits := by
  have parsed := parseStatementTable_at encoded narrow unpadded skipped
  have start := Follows.start (LineHeader.holds_prologue contribution.header (contribution.totalLength data.byteOrder))
  rw [← registers_wrapped_map_iff]
  by_cases readable : (∀ file ∈ contribution.header.fileNames, file.Readable) ∧
      ∀ instruction ∈ contribution.program, instruction.Readable
  · rw [if_pos readable] at parsed
    rw [and_iff_right readable, RowsFollow, parsed]
    rcases start.run data.byteOrder (offset + (contribution.front data.byteOrder).length) contribution.program with
      ⟨next, applied, rows, few⟩ | ⟨overflow, many⟩
    · rw [applied, and_iff_right (show contribution.rows.length < 2 ^ 31 from few)]
      have given : rowsOf (next.finalize (offset + (contribution.encode data.byteOrder).length)).calls =
          contribution.rows.map wrapped := (rowsOf_finalize _ next).trans rows
      constructor
      · rintro ⟨calls, after, made, same, -⟩
        have called := Option.some.inj (Prod.mk.inj (Option.some.inj made)).1
        rwa [← given, called]
      · intro same
        rw [← given] at same
        exact ⟨_, _, rfl, same, Contribution.endSequence_of_registers same⟩
    · rw [overflow]
      refine iff_of_false ?_ fun both => absurd both.1 (not_lt.mpr many)
      rintro ⟨calls, after, made, -⟩
      exact absurd made (by simp)
  · rw [if_neg readable] at parsed
    refine iff_of_false ?_ fun both => readable both.1
    rintro ⟨calls, after, made, -⟩
    rw [parsed] at made
    exact absurd made (by simp)

/-! A contribution with one line, with and without bytes between its tables and its program. -/

def sampleHeader (padding : List UInt8) : LineHeader where
  dwarf64 := false
  version := 2
  minInstLength := 1
  defaultIsStmt := 1
  lineBase := -5
  lineRange := 14
  standardOpcodeLengths := [0, 1, 1, 1, 1, 0, 0, 0, 1]
  includeDirectories := []
  fileNames := []
  padding := padding
  supported := by decide
  divides := by decide
  opcodes := by decide
  standard := by decide
  directories := by simp
  files := by simp

def sampleContribution (padding : List UInt8) : Contribution where
  header := sampleHeader padding
  program := [ .extended ⟨[], 9⟩ (.setAddress8 0x1000) rfl, .special 19 (Nat.le_of_ble_eq_true rfl),
    .standard (.advancePc ⟨[], 4⟩) (Nat.le_of_ble_eq_true rfl),
    .extended ⟨[], 1⟩ .endSequence rfl]

def sampleData (contribution : Contribution) : DataExtractor := ⟨contribution.encode .little, .little, 8⟩

theorem sampleData_at (contribution : Contribution) : (sampleData contribution).At 0 (contribution.encode .little) :=
  prefix_refl _

/-- Without padding, the two rows are given. -/
theorem rows_follow_line_machine_iff_unpadded :
    RowsFollow (sampleData (sampleContribution [])) 0 (sampleContribution []) := by
  have narrow : 0 + ((sampleContribution []).encode .little).length < 2 ^ 32 := by decide
  have skipped : ∀ instruction ∈ (sampleContribution []).program, instruction.Skipped := by decide
  have readable : (∀ file ∈ (sampleContribution []).header.fileNames, file.Readable) ∧
      ∀ instruction ∈ (sampleContribution []).program, instruction.Readable := by decide
  have fits : ∀ row ∈ (sampleContribution []).rows, row.Fits := by
    apply (registers_wrapped_map_iff _).mp
    decide
  exact (rows_follow_line_machine_iff (sampleData_at _) narrow rfl skipped).mpr ⟨readable, by decide, fits⟩

/-- An unknown extended opcode with 127 arguments, so that its length takes two bytes. -/
def longContribution : Contribution where
  header := sampleHeader []
  program := [ .extended ⟨[0], 1⟩ (.unknown 0x80 (by decide) (replicate 127 1)) (by decide +kernel),
    .extended ⟨[], 1⟩ .endSequence rfl]

def givenRows (contribution : Contribution) : Option (List Registers) :=
  (parseStatementTable (sampleData contribution) 0).bind fun read =>
    read.1.map fun calls => (rowsOf calls).map Row.registers

theorem not_rowsFollow_of_given {contribution : Contribution} {rows : List Registers}
    (given : givenRows contribution = some rows) (other : rows ≠ contribution.rows) :
    ¬ RowsFollow (sampleData contribution) 0 contribution := by
  rintro ⟨calls, after, parsed, same, -⟩
  rw [givenRows, parsed] at given
  exact other ((Option.some.inj given).symm.trans same)

/-- A header whose tables end four bytes before its program: those bytes are taken for an extended
opcode that is skipped beyond the contribution, and no row is given. Without them, the last
argument of the long opcode is taken for a `DW_LNS_copy`. -/
theorem rows_not_always_follow_line_machine :
    (sampleContribution [0, 0, 0, 0]).rows.map (fun row => (row.address, row.line)) = [(0x1000, 5), (0x1004, 5)] ∧
      givenRows (sampleContribution [0, 0, 0, 0]) = some [] ∧
      ¬ RowsFollow (sampleData (sampleContribution [0, 0, 0, 0])) 0 (sampleContribution [0, 0, 0, 0]) ∧
      ¬ RowsFollow (sampleData longContribution) 0 longContribution := by
  have padded : givenRows (sampleContribution [0, 0, 0, 0]) = some [] := by decide +kernel
  have copied : givenRows longContribution = some [.initial (sampleHeader []),
      { initial (sampleHeader []) with endSequence := true }] := by decide +kernel
  exact ⟨by decide, padded, not_rowsFollow_of_given padded (by decide), not_rowsFollow_of_given copied (by decide)⟩

end Lldb.DebugLine
