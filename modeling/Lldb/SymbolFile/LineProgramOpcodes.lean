import Lldb.SymbolFile.LineProgram

/-! Each opcode is read to its end, and the program with it. -/

set_option autoImplicit false

namespace Lldb.DebugLine

open Library DataExtractor Option List

/-- The fields of a prologue that the program uses are those of the header. -/
structure Prologue.Holds (prologue : Prologue) (header : LineHeader) : Prop where
  minInstLength : prologue.minInstLength = header.minInstLength.toNat
  defaultIsStmt : prologue.defaultIsStmt = header.defaultIsStmt.toNat
  lineBase : prologue.lineBase = header.lineBase.toInt
  lineRange : prologue.lineRange = header.lineRange.toNat
  opcodeBase : prologue.opcodeBase = header.opcodeBase
  lengths : prologue.standardOpcodeLengths = header.standardOpcodeLengths.map UInt8.toNat

variable {data : DataExtractor} {offset : Nat} {header : LineHeader}

/-! Operands in the widths of the rows. -/

theorem uint16_mod (value : Nat) : uint16 (value % 2 ^ 64) = uint16 value :=
  Nat.mod_mod_of_dvd _ (by decide)

theorem uint32_mod (value : Nat) : uint32 (value % 2 ^ 64) = uint32 value :=
  Nat.mod_mod_of_dvd _ (by decide)

theorem int32_mod (value : Nat) : int32 ((value % 2 ^ 64 : Nat) : Int) = int32 value := by
  unfold int32
  rw [← Int.bmod_bmod_of_dvd (show (2 : Nat) ^ 32 ∣ 2 ^ 64 by decide), Int.natCast_emod, Int.emod_bmod,
    Int.bmod_bmod_of_dvd (by decide)]

theorem addAddress_mod (state : State) (value factor : Nat) :
    addAddress state (value % 2 ^ 64 * factor) = addAddress state (value * factor) := by
  unfold addAddress
  simp [Nat.add_mod]

theorem addLine_bmod (state : State) (value : Int) : addLine state (value.bmod (2 ^ 64)) = addLine state value := by
  have low : value.bmod (2 ^ 64) % ((2 ^ 64 : Nat) : Int) = value % ((2 ^ 64 : Nat) : Int) := Int.bmod_emod
  have same : ((state.line : Int) + value.bmod (2 ^ 64)) % 2 ^ 32 = (state.line + value) % 2 ^ 32 := by omega
  simp only [addLine, same]

theorem read_file {file : FileName} (at_ : data.At offset file.numbers) :
    getFileNameEntry data (some file.name) offset =
      if file.Readable then some (file.entry, offset + file.numbers.length) else none := by
  refine (read_unsigned_then at_ _ fun dirIdx => read_unsigned_then at_.right _ fun modTime =>
    read_unsigned at_.right.right fun length =>
      FileNameEntry.mk (some file.name) (int32 dirIdx) (int32 modTime) (int32 length)).trans ?_
  simp only [int32_mod, FileName.Readable, FileName.entry, FileName.numbers]

theorem standardOpcode_at {op : StandardOp} (state : State) (at_ : data.At offset (op.operands data.byteOrder)) :
    let after := offset + (op.operands data.byteOrder).length
    standardOpcode data state op.opcode.toNat offset =
      if op.Readable then (op.apply after state).map (·, after) else none := by
  cases op with
  | copy => exact map_eq_bind.symm
  | advancePc delta =>
    refine (read_unsigned at_ _).trans ?_
    rw [addAddress_mod]
    rfl
  | advanceLine delta =>
    refine (read_signed at_ _).trans ?_
    rw [addLine_bmod]
    rfl
  | setFile file =>
    refine (read_unsigned at_ fun value => { state with file := uint16 value }).trans ?_
    rw [uint16_mod]
    rfl
  | setColumn column =>
    refine (read_unsigned at_ fun value => { state with column := uint16 value }).trans ?_
    rw [uint16_mod]
    rfl
  | constAddPc =>
    change ((addrOffset state.prologue _).bind fun delta => some (delta, offset)).bind _ = _
    cases offsets : addrOffset state.prologue (255 - state.prologue.opcodeBase) with
    | none => simp [StandardOp.apply, offsets]
    | some delta =>
      simp only [StandardOp.apply, offsets]
      rfl
  | fixedAdvancePc delta => exact read_fixed (show delta.toNat < 256 ^ 2 from delta.isLt) at_ _
  | setIsa isa =>
    refine (read_unsigned at_ fun value => { state with isa := uint32 value }).trans ?_
    rw [uint32_mod]
    rfl
  | negateStmt => rfl
  | setBasicBlock => rfl
  | setPrologueEnd => rfl
  | setEpilogueBegin => rfl

variable {length : Leb128} {state next : State} {instruction : LineInstruction header}

theorem getArgSize_one {argSize : Nat} (exact_ : length.unsigned = argSize + 1) (single : length.size = 1) :
    getArgSize (uint32 (length.unsigned % 2 ^ 64)) length.size = argSize := by
  have bound := unsigned_lt_two_pow length
  rw [single] at bound ⊢
  unfold getArgSize uint32
  omega

theorem getArgSize_setAddress8 (exact_ : length.unsigned = 9) (other : length.size ≠ 5)
    (short : length.size ≤ 10) : getArgSize (uint32 (length.unsigned % 2 ^ 64)) length.size ≠ 4 := by
  unfold getArgSize uint32
  omega

theorem extendedArguments_unknown {subOpcode : Nat} (state : State) (argSize : Nat)
    (unlike : subOpcode ≠ 1 ∧ subOpcode ≠ 2 ∧ subOpcode ≠ 3) :
    extendedArguments data state argSize subOpcode offset = some (state, offset + argSize) := by
  match subOpcode, unlike with
  | 0, _ => rfl
  | _ + 4, _ => rfl

theorem extendedArguments_at {op : ExtendedOp} (state : State)
    (at_ : data.At offset (op.arguments data.byteOrder)) (exact_ : length.unsigned = op.argSize + 1)
    (skipped : op.Skipped length.size) (short : length.size ≤ 10) :
    let after := offset + (op.arguments data.byteOrder).length
    let argSize := getArgSize (uint32 (length.unsigned % 2 ^ 64)) length.size
    extendedArguments data state argSize op.subOpcode.toNat offset =
      if op.Readable then (op.apply after state).map (·, after) else none := by
  intro after argSize
  cases op with
  | endSequence =>
    let appended := State.appendRowToMatrix offset { state with endSequence := true }
    change (appended.bind fun appended => some (appended, offset)).bind _ =
      (appended.map State.reset).map fun state => (state, offset)
    cases appended <;> rfl
  | setAddress4 address =>
    have four : argSize = 4 := getArgSize_one exact_ skipped
    refine (congrFun (if_pos four) offset).trans ?_
    exact read_fixed (show address.toNat < 256 ^ 4 from address.isLt) at_ fun address => { state with address }
  | setAddress8 address =>
    have eight : argSize ≠ 4 := getArgSize_setAddress8 exact_ skipped short
    refine (congrFun (if_neg eight) offset).trans ?_
    exact read_fixed (show address.toNat < 256 ^ 8 from address.isLt) at_ fun address => { state with address }
  | defineFile file =>
    have next : offset + file.name.length + 1 = offset + (file.name ++ [0]).length := by
      simp [add_assoc]
    have ends : after = offset + (file.name ++ [0]).length + file.numbers.length := by
      simp only [after, ExtendedOp.arguments, FileName.encode, length_append, add_assoc]
    have read := read_file at_.right
    change (data.getCStr offset).bind (fun read => (getFileNameEntry data read.1 read.2).bind fun entry =>
      some ({ state with
        prologue := { state.prologue with fileNames := state.prologue.fileNames ++ [entry.1] } }, entry.2)) =
      if file.Readable then some (_, after) else none
    rw [getCStr_at file.plain at_.left, bind_some, next, read, ends]
    by_cases readable : file.Readable
    · simp [if_pos readable]
    · simp [if_neg readable]
  | unknown subOpcode other arguments =>
    have whole : argSize = arguments.length := getArgSize_one exact_ skipped
    have unlike : subOpcode.toNat ≠ 1 ∧ subOpcode.toNat ≠ 2 ∧ subOpcode.toNat ≠ 3 := by
      simp only [mem_cons, not_mem_nil, or_false, not_or] at other
      exact ⟨fun same => other.1 (UInt8.toNat_inj.mp same), fun same => other.2.1 (UInt8.toNat_inj.mp same),
        fun same => other.2.2 (UInt8.toNat_inj.mp same)⟩
    change extendedArguments data state argSize subOpcode.toNat offset = some (state, offset + arguments.length)
    rw [extendedArguments_unknown state argSize unlike, whole]

theorem extendedOpcode_at {op : ExtendedOp} (state : State)
    (at_ : data.At offset (length.bytes ++ (op.subOpcode :: op.arguments data.byteOrder)))
    (exact_ : length.unsigned = op.argSize + 1) (skipped : op.Skipped length.size) :
    let after := offset + (length.bytes ++ (op.subOpcode :: op.arguments data.byteOrder)).length
    extendedOpcode data state offset =
      if length.size ≤ 10 ∧ op.Readable then (op.apply after state).map (·, after) else none := by
  have sub : data.At (offset + length.size) ([op.subOpcode] ++ op.arguments data.byteOrder) := by
    have right := at_.right
    rwa [Leb128.length_bytes] at right
  have ends : offset + (length.bytes ++ (op.subOpcode :: op.arguments data.byteOrder)).length =
      offset + length.size + 1 + (op.arguments data.byteOrder).length := by
    simp only [length_append, length_cons, Leb128.length_bytes]
    omega
  have behind := sub.right
  rw [length_singleton] at behind
  change (data.getULEB128 offset).bind (fun read => (data.getU8 read.2).bind fun sub =>
    extendedArguments data state (getArgSize (uint32 read.1) (read.2 - offset)) sub.1 sub.2) = _
  rw [getULEB128_at at_.left]
  by_cases short : length.size ≤ 10
  · have read := extendedArguments_at state behind exact_ skipped short
    rw [if_pos short, bind_some, getU8_at sub.left, bind_some, Nat.add_sub_cancel_left, read, ends]
    simp [short]
  · rw [if_neg short, if_neg fun both => short both.1, bind_none]

theorem skipLEB128s_at {operands : List Leb128} (at_ : data.At offset (operands.flatMap Leb128.bytes)) :
    skipLEB128s data operands.length offset = some ((), offset + (operands.flatMap Leb128.bytes).length) := by
  induction operands generalizing offset with
  | nil => rfl
  | cons operand rest ih =>
    have behind := at_.right
    rw [Leb128.length_bytes] at behind
    change (data.skipLEB128 offset).bind (fun read => skipLEB128s data rest.length read.2) = _
    simp [skipLEB128_at at_.left, ih behind, add_assoc]

theorem StandardOp.opcode_pos (op : StandardOp) : op.opcode.toNat ≠ 0 := by
  cases op <;> simp [opcode]

theorem standardOpcode_unknown {opcode : Nat} {operands : List Leb128} (above : 12 < opcode)
    (count : state.prologue.standardOpcodeLengths[opcode - 1]? = some operands.length)
    (at_ : data.At offset (operands.flatMap Leb128.bytes)) :
    standardOpcode data state opcode offset = some (state, offset + (operands.flatMap Leb128.bytes).length) := by
  obtain ⟨more, rfl⟩ : ∃ more, opcode = more + 13 := ⟨opcode - 13, by omega⟩
  change ((state.prologue.standardOpcodeLengths[more + 13 - 1]?).bind fun opcodeLength =>
    some (opcodeLength, offset)).bind
    (fun read => (skipLEB128s data read.1 read.2).bind fun skipped => some (state, skipped.2)) = _
  rw [count, bind_some, bind_some, skipLEB128s_at at_, bind_some]

theorem parseOpcode_read {opcode : UInt8} (state : State) (at_ : data.At offset [opcode]) :
    parseOpcode data state offset = if opcode.toNat = 0 then extendedOpcode data state (offset + 1)
      else if opcode.toNat < state.prologue.opcodeBase then standardOpcode data state opcode.toNat (offset + 1)
      else specialOpcode state opcode.toNat (offset + 1) := by
  change (data.getU8 offset).bind _ = _
  rw [getU8_at at_, bind_some]
  simp only
  split
  · rfl
  · split <;> rfl

theorem specialOpcode_eq (state : State) (opcode : UInt8) (above : header.opcodeBase ≤ opcode.toNat) (after : Nat) :
    specialOpcode state opcode.toNat after =
      ((LineInstruction.special opcode above).apply after state).map (·, after) := by
  change ((addrOffset state.prologue _).bind fun delta => some (delta, after)).bind _ = Option.map _ (Option.bind _ _)
  cases addrOffset state.prologue (opcode.toNat - state.prologue.opcodeBase) with
  | none => rfl
  | some delta => exact map_eq_bind.symm

theorem parseOpcode_at (holds : state.prologue.Holds header)
    (at_ : data.At offset (instruction.encode data.byteOrder)) (skipped : instruction.Skipped) :
    let after := offset + (instruction.encode data.byteOrder).length
    parseOpcode data state offset =
      if instruction.Readable then (instruction.apply after state).map (·, after) else none := by
  have base := holds.opcodeBase
  cases instruction with
  | special opcode above =>
    have positive : opcode.toNat ≠ 0 := by
      unfold LineHeader.opcodeBase at above
      omega
    rw [parseOpcode_read state at_, if_neg positive, if_neg (by omega)]
    exact specialOpcode_eq state opcode above (offset + 1)
  | standard op known =>
    have split : data.At offset ([op.opcode] ++ op.operands data.byteOrder) := at_
    have read := standardOpcode_at state split.right
    have ends : offset + (op.opcode :: op.operands data.byteOrder).length =
        offset + [op.opcode].length + (op.operands data.byteOrder).length := by
      simp only [length_cons, length_nil]
      omega
    rw [parseOpcode_read state split.left, if_neg op.opcode_pos, if_pos (by omega)]
    simp only [LineInstruction.encode, ends]
    exact read
  | unknownStandard opcode above operands count few =>
    have split : data.At offset ([opcode] ++ operands.flatMap Leb128.bytes) := at_
    have below : opcode.toNat < state.prologue.opcodeBase := by
      have inside := (List.getElem?_eq_some_iff.mp count).1
      unfold LineHeader.opcodeBase at base
      omega
    have lengths : state.prologue.standardOpcodeLengths[opcode.toNat - 1]? = some operands.length := by
      simp [holds.lengths, count, Nat.mod_eq_of_lt few]
    have ends : offset + (opcode :: operands.flatMap Leb128.bytes).length =
        offset + [opcode].length + (operands.flatMap Leb128.bytes).length := by
      simp only [length_cons, length_nil]
      omega
    rw [parseOpcode_read state split.left, if_neg (by omega), if_pos below]
    simp only [LineInstruction.encode, ends]
    exact standardOpcode_unknown above lengths split.right
  | extended length op exact_ =>
    have split : data.At offset ([0] ++ (length.bytes ++ (op.subOpcode :: op.arguments data.byteOrder))) := at_
    have ends : offset + (0 :: (length.bytes ++ (op.subOpcode :: op.arguments data.byteOrder))).length =
        offset + 1 + (length.bytes ++ (op.subOpcode :: op.arguments data.byteOrder)).length := by
      rw [length_cons]
      omega
    rw [parseOpcode_read state split.left]
    simp only [LineInstruction.encode, ends]
    exact extendedOpcode_at state split.right exact_ skipped

/-! Programs. -/

def applyAll (order : ByteOrder) (offset : Nat) (state : State) : List (LineInstruction header) → Option State
  | [] => some state
  | instruction :: rest => do
    let after := offset + (instruction.encode order).length
    applyAll order after (← instruction.apply after state) rest

theorem appendRowToMatrix_prologue (appended : state.appendRowToMatrix offset = some next) :
    next.prologue = state.prologue := by
  unfold State.appendRowToMatrix at appended
  split at appended
  · rw [← Option.some.inj appended]
    rfl
  · exact absurd appended (by simp)

theorem StandardOp.apply_prologue {op : StandardOp} (applied : op.apply offset state = some next) :
    next.prologue = state.prologue := by
  cases op with
  | copy => exact appendRowToMatrix_prologue applied
  | constAddPc =>
    obtain ⟨delta, -, same⟩ := map_eq_some_iff.mp applied
    rw [← same]
    rfl
  | advancePc | advanceLine | setFile | setColumn | negateStmt | setBasicBlock | fixedAdvancePc | setPrologueEnd
  | setEpilogueBegin | setIsa => exact Option.some.inj applied ▸ rfl

theorem Prologue.Holds.addFile {prologue : Prologue} (holds : prologue.Holds header) (fileEntry : FileNameEntry) :
    Prologue.Holds { prologue with fileNames := prologue.fileNames ++ [fileEntry] } header :=
  ⟨holds.minInstLength, holds.defaultIsStmt, holds.lineBase, holds.lineRange, holds.opcodeBase, holds.lengths⟩

theorem Prologue.Holds.apply
    (holds : state.prologue.Holds header) (applied : instruction.apply offset state = some next) :
    next.prologue.Holds header := by
  cases instruction with
  | special opcode above =>
    obtain ⟨delta, -, appended⟩ := bind_eq_some_iff.mp applied
    rwa [appendRowToMatrix_prologue appended]
  | standard op known => rwa [StandardOp.apply_prologue applied]
  | unknownStandard opcode above operands count few => rwa [← Option.some.inj applied]
  | extended length op exact_ =>
    cases op with
    | endSequence =>
      obtain ⟨appended, row, same⟩ := map_eq_some_iff.mp applied
      have kept : next.prologue = state.prologue := by
        rw [← same]
        exact (appendRowToMatrix_prologue row :)
      rwa [kept]
    | setAddress4 | setAddress8 | unknown => rwa [← Option.some.inj applied]
    | defineFile file =>
      rw [← Option.some.inj applied]
      exact holds.addFile _

theorem length_encode_pos (order : ByteOrder) (instruction : LineInstruction header) :
    0 < (instruction.encode order).length := by
  cases instruction <;> simp [LineInstruction.encode]

theorem length_le_encodeAll (order : ByteOrder) (program : List (LineInstruction header)) :
    program.length ≤ (encodeAll order program).length := by
  induction program with
  | nil => exact Nat.zero_le _
  | cons instruction rest ih =>
    have positive := length_encode_pos order instruction
    simp only [encodeAll, flatMap_cons, length_append, length_cons] at ih ⊢
    omega

theorem statementLoop_at {program : List (LineInstruction header)} {endOffset fuel : Nat}
    (holds : state.prologue.Holds header) (at_ : data.At offset (encodeAll data.byteOrder program))
    (ends : endOffset = offset + (encodeAll data.byteOrder program).length) (enough : program.length < fuel)
    (skipped : ∀ instruction ∈ program, instruction.Skipped) :
    statementLoop data endOffset fuel state offset = if ∀ instruction ∈ program, instruction.Readable then
        (applyAll data.byteOrder offset state program).map (·, endOffset)
      else none := by
  induction program generalizing offset fuel state with
  | nil =>
    obtain ⟨fuel, rfl⟩ : ∃ less, fuel = less + 1 := ⟨fuel - 1, by simp at enough; omega⟩
    rw [ends]
    change (if offset < offset then _ else _ : Cursor State) offset = _
    rw [if_neg (lt_irrefl _)]
    rfl
  | cons instruction rest ih =>
    obtain ⟨fuel, rfl⟩ : ∃ less, fuel = less + 1 := ⟨fuel - 1, by simp at enough; omega⟩
    simp only [encodeAll, flatMap_cons, length_append] at at_ ends
    have inside : offset < endOffset := by
      have positive := length_encode_pos data.byteOrder instruction
      omega
    rw [forall_mem_cons] at skipped
    have read := parseOpcode_at holds at_.left skipped.1
    change (if offset < endOffset then _ else _ : Cursor State) offset = _
    rw [if_pos inside]
    change (parseOpcode data state offset).bind (fun read => statementLoop data endOffset fuel read.1 read.2) = _
    rw [read]
    by_cases readable : instruction.Readable
    · simp only [forall_mem_cons, readable, true_and, applyAll]
      cases applied : instruction.apply (offset + (instruction.encode data.byteOrder).length) state with
      | none => simp
      | some next =>
        exact ih (holds.apply applied) at_.right (by simp only [encodeAll]; omega)
          (by simp only [length_cons] at enough; omega) skipped.2
    · rw [if_neg readable, if_neg fun all => readable (forall_mem_cons.mp all).1]
      rfl

end Lldb.DebugLine
