import Lldb.SymbolFile.LineProgramRounds

/-! When a line table is parsed to its end, whatever is in `.debug_line`. -/

set_option autoImplicit false

namespace Lldb.DebugLine

open Library DataExtractor Cursor

variable {data : DataExtractor} {offset : Nat}

/-! The tables of the prologue. -/

/-- The string of a table's next entry, or `none` at the end of the table. -/
def tableEntry (data : DataExtractor) (offset : Nat) : Option (Option (List UInt8 × Nat)) :=
  (data.getCStr offset).map fun
    | (some (first :: rest), after) => some (first :: rest, after)
    | _ => none

def tableRounds (data : DataExtractor) (endPrologueOffset : Nat) (behind : List UInt8 → Nat → Option Nat) :
    Rounds Nat where
  goesOn offset := offset < endPrologueOffset ∧ tableEntry data offset ≠ some none
  next offset := (tableEntry data offset).join.bind fun entry => behind entry.1 entry.2

def directoryRounds (data : DataExtractor) (endPrologueOffset : Nat) : Rounds Nat :=
  tableRounds data endPrologueOffset fun _ after => some after

def fileRounds (data : DataExtractor) (endPrologueOffset : Nat) : Rounds Nat :=
  tableRounds data endPrologueOffset fun name after => (getFileNameEntry data (some name) after).map Prod.snd

theorem lt_of_tableEntry {name : List UInt8} {after : Nat} (is : tableEntry data offset = some (some (name, after))) :
    offset < after ∧ offset < data.bytes.length := by
  obtain ⟨⟨string, behind⟩, read, same⟩ := Option.map_eq_some_iff.mp is
  split at same
  · rename_i pair
    cases same
    cases pair
    refine ⟨lt_of_getCStr read, ?_⟩
    unfold getCStr at read
    split at read
    · rename_i valid
      have room := of_decide_eq_true valid
      omega
    · cases read
  · cases same

section tableRounds

variable {endPrologueOffset : Nat} {behind : List UInt8 → Nat → Option Nat}

theorem table_ends_beyond (beyond : ¬ offset < endPrologueOffset) (fuel : Nat) :
    (tableRounds data endPrologueOffset behind).ends (fuel + 1) offset = true := by
  rw [Rounds.ends_succ]
  simp [tableRounds, beyond]

theorem table_ends_unread (inside : offset < endPrologueOffset) (unread : data.getCStr offset = none) (fuel : Nat) :
    (tableRounds data endPrologueOffset behind).ends (fuel + 1) offset = false := by
  have entry : tableEntry data offset = none := by rw [tableEntry, unread, Option.map_none]
  rw [Rounds.ends_succ, if_pos (by simp [tableRounds, inside, entry])]
  simp [tableRounds, entry]

theorem table_ends_last {string : Option (List UInt8)} {after : Nat} (read : data.getCStr offset = some (string, after))
    (last : string = none ∨ string = some []) (fuel : Nat) :
    (tableRounds data endPrologueOffset behind).ends (fuel + 1) offset = true := by
  have entry : tableEntry data offset = some none := by
    rw [tableEntry, read]
    rcases last with rfl | rfl <;> rfl
  rw [Rounds.ends_succ]
  simp [tableRounds, entry]

theorem table_ends_entry (inside : offset < endPrologueOffset) {first : UInt8} {rest : List UInt8} {after : Nat}
    (read : data.getCStr offset = some (some (first :: rest), after)) (fuel : Nat) :
    (tableRounds data endPrologueOffset behind).ends (fuel + 1) offset =
      (behind (first :: rest) after).any ((tableRounds data endPrologueOffset behind).ends fuel) := by
  have entry : tableEntry data offset = some (some (first :: rest, after)) := by rw [tableEntry, read]; rfl
  rw [Rounds.ends_succ, if_pos (by simp [tableRounds, inside, entry])]
  simp [tableRounds, entry]

theorem table_falls (ahead : ∀ name start after, behind name start = some after → start ≤ after) (state after : Nat)
    (round : (tableRounds data endPrologueOffset behind).Round state after) (_ : after ≠ state) :
    data.bytes.length - after < data.bytes.length - state := by
  obtain ⟨entry, found, moves⟩ := Option.bind_eq_some_iff.mp round.2
  obtain ⟨moved, inside⟩ := lt_of_tableEntry (Option.join_eq_some_iff.mp found)
  have further := ahead _ _ _ moves
  omega

end tableRounds

theorem getIncludeDirectories_isSome (endPrologueOffset fuel offset : Nat) :
    (getIncludeDirectories data endPrologueOffset fuel offset).isSome =
      (directoryRounds data endPrologueOffset).ends fuel offset := by
  induction fuel generalizing offset with
  | zero => rfl
  | succ fuel ih =>
    rw [getIncludeDirectories, bind_read (get_read offset)]
    by_cases inside : offset < endPrologueOffset
    · rw [if_pos inside]
      cases read : data.getCStr offset with
      | none =>
        rw [directoryRounds, table_ends_unread inside read]
        change ((data.getCStr offset).bind _).isSome = false
        rw [read]
        rfl
      | some string =>
        obtain ⟨string, after⟩ := string
        rw [bind_read read]
        rcases string with _ | _ | ⟨first, rest⟩
        · exact (table_ends_last read (.inl rfl) fuel).symm
        · exact (table_ends_last read (.inr rfl) fuel).symm
        · rw [directoryRounds, table_ends_entry inside read]
          exact (map_isSome ((first :: rest) :: ·) after).trans (ih after)
    · rw [if_neg inside]
      exact (table_ends_beyond inside fuel).symm

theorem getFileNames_isSome (endPrologueOffset fuel offset : Nat) :
    (getFileNames data endPrologueOffset fuel offset).isSome =
      (fileRounds data endPrologueOffset).ends fuel offset := by
  induction fuel generalizing offset with
  | zero => rfl
  | succ fuel ih =>
    rw [getFileNames, bind_read (get_read offset)]
    by_cases inside : offset < endPrologueOffset
    · rw [if_pos inside]
      cases read : data.getCStr offset with
      | none =>
        rw [fileRounds, table_ends_unread inside read]
        change ((data.getCStr offset).bind _).isSome = false
        rw [read]
        rfl
      | some string =>
        obtain ⟨string, after⟩ := string
        rw [bind_read read]
        rcases string with _ | _ | ⟨first, rest⟩
        · exact (table_ends_last read (.inl rfl) fuel).symm
        · exact (table_ends_last read (.inr rfl) fuel).symm
        · rw [fileRounds, table_ends_entry inside read]
          change ((getFileNameEntry data (some (first :: rest)) after).bind _).isSome = _
          cases getFileNameEntry data (some (first :: rest)) after with
          | none => rfl
          | some entry => exact (map_isSome (entry.1 :: ·) entry.2).trans (ih entry.2)
    · rw [if_neg inside]
      exact (table_ends_beyond inside fuel).symm

/-- The loop over the directories, which has rounds enough, ends if every string it comes to does. -/
theorem directories_end_iff (endPrologueOffset offset : Nat) :
    (getIncludeDirectories data endPrologueOffset (data.bytes.length + 1) offset).isSome = true ↔
      (directoryRounds data endPrologueOffset).Passes offset := by
  rw [getIncludeDirectories_isSome]
  exact Rounds.ends_iff (table_falls fun _ _ _ same => (Option.some.inj same).le) (by omega)

theorem files_end_iff (endPrologueOffset offset : Nat) :
    (getFileNames data endPrologueOffset (data.bytes.length + 1) offset).isSome = true ↔
      (fileRounds data endPrologueOffset).Passes offset := by
  rw [getFileNames_isSome]
  refine Rounds.ends_iff (table_falls fun name start after moves => ?_) (by omega)
  obtain ⟨⟨entry, behind⟩, read, rfl⟩ := Option.map_eq_some_iff.mp moves
  exact forward_getFileNameEntry _ _ _ _ read

/-! The prologue. -/

/-- The fields in front of the tables, as a prologue without them, with the offset behind them that the
prologue's length gives; `none` for a version that is not known. -/
def readPrologueFields (data : DataExtractor) : Cursor (Option (Prologue × Nat × Bool)) := do
  let (totalLength, isDwarf64) ← getDWARFInitialLength data
  let version ← data.getU16
  if version < 2 ∨ version > 4 then return none
  let prologueLength ← getDWARFOffset data isDwarf64
  let endPrologueOffset := prologueLength + (← get)
  let minInstLength ← data.getU8
  let maximumOperationsPerInstruction ← getMaximumOperations data version
  let defaultIsStmt ← data.getU8
  let lineBase ← data.getU8
  let lineRange ← data.getU8
  let opcodeBase ← data.getU8
  return some ({
    totalLength := uint32 totalLength, version, prologueLength, minInstLength, maximumOperationsPerInstruction,
    defaultIsStmt, lineBase := (lineBase : Int).bmod (2 ^ 8), lineRange, opcodeBase, standardOpcodeLengths := [],
    includeDirectories := [], fileNames := [] }, endPrologueOffset, isDwarf64)

def readTables (data : DataExtractor) (prologue : Prologue) (endPrologueOffset : Nat) (isDwarf64 : Bool) :
    Cursor (Option (Prologue × Bool)) := do
  if prologue.opcodeBase = 0 then failure
  let standardOpcodeLengths ← getOpcodeLengths data (prologue.opcodeBase - 1)
  let includeDirectories ← getIncludeDirectories data endPrologueOffset (data.bytes.length + 1)
  let fileNames ← getFileNames data endPrologueOffset (data.bytes.length + 1)
  if endPrologueOffset = 0 then return none
  return some ({ prologue with standardOpcodeLengths, includeDirectories, fileNames }, isDwarf64)

theorem parsePrologue_eq : parsePrologue data = (do
    match ← readPrologueFields data with
    | none => return none
    | some (prologue, endPrologueOffset, isDwarf64) => readTables data prologue endPrologueOffset isDwarf64) := by
  unfold parsePrologue readPrologueFields readTables
  funext offset
  rw [bind_assoc]
  refine congrFun (congrArg _ (funext fun length => ?_)) offset
  dsimp only
  rw [bind_assoc]
  refine congrArg _ (funext fun version => ?_)
  split
  · rfl
  · iterate 8
      rw [bind_assoc]
      refine congrArg _ (funext fun _ => ?_)
    rw [pure_bind]

theorem exists_getOpcodeLengths (data : DataExtractor) (count offset : Nat) :
    ∃ lengths after, getOpcodeLengths data count offset = some (lengths, after) ∧ lengths.length = count := by
  induction count generalizing offset with
  | zero => exact ⟨[], offset, rfl, rfl⟩
  | succ count ih =>
    obtain ⟨opLen, next, read⟩ := exists_getMaxU64 data 1 offset
    obtain ⟨lengths, after, others, length⟩ := ih next
    refine ⟨opLen :: lengths, after, ?_, congrArg Nat.succ length⟩
    rw [getOpcodeLengths, getU8, bind_read read, bind_read others]
    rfl

/-- There is a standard opcode's length to make room for, and the tables' strings and numbers can be read. -/
def TablesPass (data : DataExtractor) (prologue : Prologue) (endPrologueOffset offset : Nat) : Prop :=
  prologue.opcodeBase ≠ 0 ∧
    ∀ lengths start, getOpcodeLengths data (prologue.opcodeBase - 1) offset = some (lengths, start) →
      (directoryRounds data endPrologueOffset).Passes start ∧ ∀ directories after,
          getIncludeDirectories data endPrologueOffset (data.bytes.length + 1) start = some (directories, after) →
            (fileRounds data endPrologueOffset).Passes after

theorem readTables_isSome (prologue : Prologue) (endPrologueOffset : Nat) (isDwarf64 : Bool) :
    (readTables data prologue endPrologueOffset isDwarf64 offset).isSome = true ↔
      TablesPass data prologue endPrologueOffset offset := by
  obtain ⟨lengths, start, reads, -⟩ := exists_getOpcodeLengths data (prologue.opcodeBase - 1) offset
  have only : ∀ {others from_}, getOpcodeLengths data (prologue.opcodeBase - 1) offset = some (others, from_) →
      from_ = start := fun is => (Prod.mk.inj (Option.some.inj (is.symm.trans reads))).2
  unfold readTables TablesPass
  by_cases none_ : prologue.opcodeBase = 0
  · rw [if_pos none_]
    exact iff_of_false (fun is => nomatch is) fun both => both.1 none_
  · rw [if_neg none_, and_iff_right none_]
    beta_reduce
    rw [bind_read reads, bind_isSome]
    constructor
    · rintro ⟨directories, after, read, rest⟩ others from_ is
      rw [only is]
      refine ⟨(directories_end_iff endPrologueOffset start).mp (by rw [read]; rfl), fun _ behind is => ?_⟩
      rw [read] at is
      cases is
      obtain ⟨files, last, read, -⟩ := bind_isSome.mp rest
      exact (files_end_iff endPrologueOffset after).mp (by rw [read]; rfl)
    · intro passes
      obtain ⟨directories_, files_⟩ := passes lengths start reads
      obtain ⟨⟨directories, after⟩, read⟩ :=
        Option.isSome_iff_exists.mp ((directories_end_iff endPrologueOffset start).mpr directories_)
      obtain ⟨⟨files, last⟩, read_⟩ :=
        Option.isSome_iff_exists.mp ((files_end_iff endPrologueOffset after).mpr (files_ directories after read))
      refine ⟨directories, after, read, bind_isSome.mpr ⟨files, last, read_, ?_⟩⟩
      split <;> rfl

theorem total_getMaximumOperations (version : Nat) : (getMaximumOperations data version).Total := by
  unfold getMaximumOperations
  split
  · exact total_getMaxU64 1
  · exact .pure _

theorem total_getDWARFInitialLength : (getDWARFInitialLength data).Total := by
  refine (total_getMaxU64 4).bind fun length => ?_
  split
  · exact (total_getMaxU64 8).bind fun _ => .pure _
  · exact .pure _

theorem total_readPrologueFields : (readPrologueFields data).Total := by
  refine total_getDWARFInitialLength.bind fun length => (total_getMaxU64 2).bind fun version => ?_
  split
  · exact .pure _
  · refine ((total_getMaxU64 _).bind fun _ => .pure _).bind fun prologueLength => Total.get.bind fun _ => ?_
    refine (total_getMaxU64 1).bind fun _ => (total_getMaximumOperations version).bind fun _ => ?_
    exact (total_getMaxU64 1).bind fun _ => (total_getMaxU64 1).bind fun _ => (total_getMaxU64 1).bind fun _ =>
      (total_getMaxU64 1).bind fun _ => .pure _

theorem parsePrologue_isSome : (parsePrologue data offset).isSome = true ↔ ∀ prologue endPrologueOffset isDwarf64 start,
      readPrologueFields data offset = some (some (prologue, endPrologueOffset, isDwarf64), start) →
        TablesPass data prologue endPrologueOffset start := by
  obtain ⟨⟨fields, start⟩, read⟩ := Option.isSome_iff_exists.mp (total_readPrologueFields offset)
  rw [parsePrologue_eq, bind_read read]
  rcases fields with _ | ⟨prologue, endPrologueOffset, isDwarf64⟩
  · refine iff_of_true rfl fun _ _ _ _ is => ?_
    rw [read] at is
    cases is
  · refine (readTables_isSome prologue endPrologueOffset isDwarf64).trans
      ⟨fun passes _ _ _ _ is => ?_, fun passes => ?_⟩
    · rw [read] at is
      cases is
      exact passes
    · exact passes _ _ _ _ read

theorem lengths_of_parsePrologue {prologue : Prologue} {isDwarf64 : Bool} {start : Nat}
    (is : parsePrologue data offset = some (some (prologue, isDwarf64), start)) :
    prologue.standardOpcodeLengths.length = prologue.opcodeBase - 1 := by
  rw [parsePrologue_eq] at is
  obtain ⟨fields, from_, -, tables⟩ := bind_eq_some.mp is
  rcases fields with _ | ⟨fields, endPrologueOffset, isDwarf64'⟩
  · cases tables
  · dsimp only at tables
    unfold readTables at tables
    split at tables
    · cases tables
    · obtain ⟨lengths, behind, read, tables⟩ := bind_eq_some.mp tables
      obtain ⟨directories, _, -, tables⟩ := bind_eq_some.mp tables
      obtain ⟨files, _, -, tables⟩ := bind_eq_some.mp tables
      split at tables
      · cases tables
      · cases tables
        obtain ⟨known, _, reads, length⟩ := exists_getOpcodeLengths data (fields.opcodeBase - 1) from_
        rw [reads] at read
        cases read
        exact length

/-! The statement table. -/

def opcodeRounds (data : DataExtractor) (endOffset : Nat) : Rounds (State × Nat) where
  goesOn at_ := at_.2 < endOffset
  next at_ := parseOpcode data at_.1 at_.2

theorem statementLoop_isSome (endOffset fuel : Nat) (state : State) (offset : Nat) :
    (statementLoop data endOffset fuel state offset).isSome =
      (opcodeRounds data endOffset).ends fuel (state, offset) := by
  induction fuel generalizing state offset with
  | zero => rfl
  | succ fuel ih =>
    rw [statementLoop, Rounds.ends_succ, bind_read (get_read offset)]
    by_cases inside : offset < endOffset
    · have goesOn : (opcodeRounds data endOffset).goesOn (state, offset) = true := decide_eq_true inside
      rw [if_pos inside, if_pos goesOn]
      change ((parseOpcode data state offset).bind _).isSome = (parseOpcode data state offset).any _
      cases parseOpcode data state offset with
      | none => rfl
      | some next => exact ih next.1 next.2
    · rw [if_neg inside, if_neg (by simpa [opcodeRounds] using inside)]
      rfl

theorem opcode_falls {endOffset : Nat} (state after : State × Nat)
    (round : (opcodeRounds data endOffset).Round state after) (leads : after ≠ state) :
    data.bytes.length - after.2 < data.bytes.length - state.2 := by
  by_cases inside : state.2 < data.bytes.length
  · have parsed : parseOpcode data state.1 state.2 = some (after.1, after.2) := round.2
    have ahead := lt_of_parseOpcode inside parsed
    omega
  · have stays := parseOpcode_behind (Nat.le_of_not_lt inside) state.1
    exact absurd (Option.some.inj (round.2.symm.trans stays)) leads

def ProgramPasses (data : DataExtractor) (endOffset : Nat) (begin : State × Nat) : Prop :=
  ∀ state offset, (opcodeRounds data endOffset).Reaches begin (state, offset) → offset < endOffset →
    ∃ opcode, data.bytes[offset]? = some opcode ∧ OpcodePasses data state opcode.toNat (offset + 1)

theorem program_passes_iff {endOffset start : Nat} {state : State} (known : LengthsKnown state) :
    (opcodeRounds data endOffset).Passes (state, start) ↔ ProgramPasses data endOffset (state, start) := by
  have kept {next : State} {offset : Nat}
    (reaches : (opcodeRounds data endOffset).Reaches (state, start) (next, offset)) :
      LengthsKnown next := by
    have keeps : KeepsPrologue state next := by
      refine reaches.invariant (fun at_ => KeepsPrologue state at_.1) rfl fun before after keeps round => ?_
      exact (keeps_parseOpcode before.1 _ _ _ round.2).trans keeps
    have lengths := congrArg Prologue.standardOpcodeLengths keeps
    have base := congrArg Prologue.opcodeBase keeps
    exact (congrArg List.length lengths).trans (known.trans (congrArg (· - 1) base.symm))
  constructor
  · intro passes next offset reaches inside
    obtain ⟨after, round, leads⟩ := passes (next, offset) reaches (decide_eq_true inside)
    have present : offset < data.bytes.length := by
      by_contra behind
      exact leads (Option.some.inj (round.symm.trans (parseOpcode_behind (Nat.le_of_not_lt behind) next)))
    have is := List.getElem?_eq_getElem present
    refine ⟨_, is, (parseOpcode_isSome (kept reaches) is).mp ?_⟩
    exact Option.isSome_of_eq_some round
  · intro passes at_ reaches inside
    obtain ⟨opcode, is, opcode_⟩ := passes at_.1 at_.2 reaches (of_decide_eq_true inside)
    obtain ⟨after, round⟩ := Option.isSome_iff_exists.mp ((parseOpcode_isSome (kept reaches) is).mpr opcode_)
    refine ⟨after, round, fun same => ?_⟩
    have ahead := lt_of_parseOpcode (List.getElem?_eq_some_iff.mp is).1 (show _ = some (after.1, after.2) from round)
    rw [same] at ahead
    exact lt_irrefl _ ahead

/-- Where the program of a prologue ends, in the 32 bits of a `dw_offset_t`. -/
def endOffset (offset : Nat) (prologue : Prologue) (isDwarf64 : Bool) : Nat :=
  uint32 (uint32 offset + prologue.totalLength + sizeofInitialLength isDwarf64)

/-- The line table is parsed to its end, and each round of the program leads ahead. -/
structure LineTableEnds (data : DataExtractor) (offset : Nat) : Prop where
  returns : (parseStatementTable data offset).isSome
  advances : ∀ prologue isDwarf64 start, parsePrologue data offset = some (some (prologue, isDwarf64), start) →
    ∀ before after, (opcodeRounds data (endOffset offset prologue isDwarf64)).Reaches (.start prologue, start) before →
      (opcodeRounds data (endOffset offset prologue isDwarf64)).Round before after → before.2 < after.2

/-- The header has what its tables need, and the program has what its opcodes need. -/
structure LineTablePasses (data : DataExtractor) (offset : Nat) : Prop where
  tables : ∀ prologue endPrologueOffset isDwarf64 start,
    readPrologueFields data offset = some (some (prologue, endPrologueOffset, isDwarf64), start) →
      TablesPass data prologue endPrologueOffset start
  program : ∀ prologue isDwarf64 start, parsePrologue data offset = some (some (prologue, isDwarf64), start) →
    ProgramPasses data (endOffset offset prologue isDwarf64) (.start prologue, start)

theorem parseStatementTable_isSome : (parseStatementTable data offset).isSome = true ↔
      (parsePrologue data offset).isSome = true ∧
        ∀ prologue isDwarf64 start, parsePrologue data offset = some (some (prologue, isDwarf64), start) →
          ProgramPasses data (endOffset offset prologue isDwarf64) (.start prologue, start) := by
  unfold parseStatementTable
  rw [bind_read (get_read offset), bind_isSome]
  have program {prologue : Prologue} {isDwarf64 : Bool} {start : Nat}
      (is : parsePrologue data offset = some (some (prologue, isDwarf64), start)) :
      (statementLoop data (endOffset offset prologue isDwarf64) (data.bytes.length + 1) (.start prologue)
        start).isSome = true ↔
        ProgramPasses data (endOffset offset prologue isDwarf64) (.start prologue, start) := by
    rw [statementLoop_isSome, Rounds.ends_iff opcode_falls (by dsimp only; omega)]
    exact program_passes_iff (lengths_of_parsePrologue is)
  constructor
  · rintro ⟨parsed, start, read, rest⟩
    refine ⟨by rw [read]; rfl, fun prologue isDwarf64 from_ is => ?_⟩
    rw [read] at is
    cases is
    refine (program read).mp ?_
    obtain ⟨state, last, ends, -⟩ := bind_isSome.mp rest
    exact Option.isSome_of_eq_some ends
  · rintro ⟨some_, passes⟩
    obtain ⟨⟨parsed, start⟩, read⟩ := Option.isSome_iff_exists.mp some_
    refine ⟨parsed, start, read, ?_⟩
    rcases parsed with _ | ⟨prologue, isDwarf64⟩
    · rfl
    · obtain ⟨⟨state, last⟩, ends⟩ := Option.isSome_iff_exists.mp ((program read).mpr (passes _ _ _ read))
      refine bind_isSome.mpr ⟨state, last, ends, ?_⟩
      rfl

/-- When a line table is parsed to its end: all that is read is there, and nothing is divided by zero. -/
theorem parseStatementTable_ends_iff (data : DataExtractor) (offset : Nat) :
    LineTableEnds data offset ↔ LineTablePasses data offset := by
  constructor
  · intro ends
    obtain ⟨parsed, program⟩ := parseStatementTable_isSome.mp ends.returns
    exact ⟨parsePrologue_isSome.mp parsed, program⟩
  · intro passes
    refine ⟨parseStatementTable_isSome.mpr ⟨parsePrologue_isSome.mpr passes.tables, passes.program⟩, ?_⟩
    intro prologue isDwarf64 start is before after reaches round
    obtain ⟨opcode, there, -⟩ := passes.program prologue isDwarf64 start is before.1 before.2 reaches
      (of_decide_eq_true round.1)
    exact lt_of_parseOpcode (List.getElem?_eq_some_iff.mp there).1 (show _ = some (after.1, after.2) from round.2)

/-- A header of version 2 without directories and files, with one byte of program. -/
def tinyTable (lineRange opcodeBase : UInt8) (program : List UInt8) : DataExtractor :=
  ⟨[14, 0, 0, 0, 2, 0, 7, 0, 0, 0, 1, 1, 0xfb, lineRange, opcodeBase, 0, 0] ++ program, .little, 8⟩

/-- A special opcode divides by a `line_range` of zero; no room can be made for the lengths below an
`opcode_base` of zero; and a table that ends behind the section is read for ever. -/
theorem lineTable_not_ends : ¬ LineTableEnds (tinyTable 0 1 [1]) 0 ∧ ¬ LineTableEnds (tinyTable 14 0 [1]) 0 ∧
      parsePrologue (tinyTable 14 1 []) 0 = some (some (⟨14, 2, 7, 1, 1, 1, -5, 14, 1, [], [], []⟩, false), 17) ∧
      ∀ fuel, statementLoop (tinyTable 14 1 []) 18 fuel (.start ⟨14, 2, 7, 1, 1, 1, -5, 14, 1, [], [], []⟩) 17 =
        none := by
  refine ⟨fun ends => ?_, fun ends => ?_, by decide, fun fuel => ?_⟩
  · exact absurd ends.returns (by decide)
  · exact absurd ends.returns (by decide)
  · have stays : (opcodeRounds (tinyTable 14 1 []) 18).Round
        (.start ⟨14, 2, 7, 1, 1, 1, -5, 14, 1, [], [], []⟩, 17)
          (.start ⟨14, 2, 7, 1, 1, 1, -5, 14, 1, [], [], []⟩, 17) :=
      ⟨rfl, parseOpcode_behind (by decide) _⟩
    have never := (statementLoop_isSome 18 fuel _ 17).trans (Rounds.not_ends_of_stays stays fuel)
    exact Option.not_isSome_iff_eq_none.mp (by rw [never]; exact Bool.false_ne_true)

end Lldb.DebugLine
