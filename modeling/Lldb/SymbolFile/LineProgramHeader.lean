import Lldb.SymbolFile.LineProgramOpcodes
import Lldb.Utility.CursorMoves

/-! The prologue that is parsed from a header. -/

set_option autoImplicit false

namespace Lldb.DebugLine

open Library DataExtractor Cursor FileName List

variable {data : DataExtractor} {offset : Nat} {header : LineHeader}

theorem getU8_cons {byte : UInt8} {rest : List UInt8} (at_ : data.At offset (byte :: rest)) :
    data.getU8 offset = some (byte.toNat, offset + 1) ∧ data.At (offset + 1) rest := by
  have split : data.At offset ([byte] ++ rest) := at_
  exact ⟨getU8_at split.left, split.right⟩

theorem getOpcodeLengths_at {lengths : List UInt8} (at_ : data.At offset lengths) :
    getOpcodeLengths data lengths.length offset = some (lengths.map UInt8.toNat, offset + lengths.length) := by
  induction lengths generalizing offset with
  | nil => rfl
  | cons length rest ih =>
    obtain ⟨read, behind⟩ := getU8_cons at_
    change (data.getU8 offset).bind (fun read => (getOpcodeLengths data rest.length read.2).bind _) = _
    rw [read, Option.bind_some, ih behind, add_assoc, add_comm 1]
    rfl

theorem getIncludeDirectories_at {directories : List (List UInt8)} {endPrologueOffset fuel : Nat}
    (wellFormed : ∀ directory ∈ directories, directory ≠ [] ∧ 0 ∉ directory)
    (at_ : data.At offset (directories.flatMap (· ++ [0]) ++ [0])) (enough : directories.length < fuel)
    (inside : offset + (directories.flatMap (· ++ [0]) ++ [0]).length ≤ endPrologueOffset) :
    getIncludeDirectories data endPrologueOffset fuel offset =
      some (directories, offset + (directories.flatMap (· ++ [0]) ++ [0]).length) := by
  induction directories generalizing offset fuel with
  | nil =>
    obtain ⟨fuel, rfl⟩ : ∃ less, fuel = less + 1 := ⟨fuel - 1, by simp at enough; omega⟩
    change (if offset < endPrologueOffset then _ else _ : Cursor (List (List UInt8))) offset = _
    rw [if_pos (by simp at inside; omega)]
    change (data.getCStr offset).bind _ = _
    rw [getCStr_at (show (0 : UInt8) ∉ [] by simp) at_]
    rfl
  | cons directory rest ih =>
    obtain ⟨fuel, rfl⟩ : ∃ less, fuel = less + 1 := ⟨fuel - 1, by simp at enough; omega⟩
    rw [forall_mem_cons] at wellFormed
    obtain ⟨⟨nonempty, plain⟩, others⟩ := wellFormed
    obtain ⟨first, more, rfl⟩ := exists_cons_of_ne_nil nonempty
    rw [flatMap_cons, append_assoc] at at_ inside
    have next : offset + (first :: more).length + 1 = offset + (first :: more ++ [0]).length := by
      simp [add_assoc]
    rw [length_append, ← add_assoc] at inside
    have fewer : rest.length < fuel := by
      simp only [length_cons] at enough
      omega
    have read := ih others at_.right fewer inside
    change (if offset < endPrologueOffset then _ else _ : Cursor (List (List UInt8))) offset = _
    rw [if_pos (by omega)]
    change (data.getCStr offset).bind _ = _
    rw [getCStr_at plain at_.left, next]
    change (getIncludeDirectories data endPrologueOffset fuel _).bind _ = _
    have ends : offset + (((first :: more) :: rest).flatMap (· ++ [0]) ++ [0]).length =
        offset + (first :: more ++ [0]).length + (rest.flatMap (· ++ [0]) ++ [0]).length := by
      rw [flatMap_cons, append_assoc, length_append, add_assoc]
    rw [read, ends]
    rfl

theorem getFileNames_at {files : List FileName} {endPrologueOffset fuel : Nat}
    (nonempty : ∀ file ∈ files, file.name ≠ []) (at_ : data.At offset (files.flatMap encode ++ [0]))
    (enough : files.length < fuel)
    (inside : offset + (files.flatMap encode ++ [0]).length ≤ endPrologueOffset) :
    getFileNames data endPrologueOffset fuel offset = if ∀ file ∈ files, file.Readable then
        some (files.map entry, offset + (files.flatMap encode ++ [0]).length)
      else none := by
  induction files generalizing offset fuel with
  | nil =>
    obtain ⟨fuel, rfl⟩ : ∃ less, fuel = less + 1 := ⟨fuel - 1, by simp at enough; omega⟩
    change (if offset < endPrologueOffset then _ else _ : Cursor (List FileNameEntry)) offset = _
    rw [if_pos (by simp at inside; omega)]
    change (data.getCStr offset).bind _ = _
    rw [getCStr_at (show (0 : UInt8) ∉ [] by simp) at_]
    rfl
  | cons file rest ih =>
    obtain ⟨fuel, rfl⟩ : ∃ less, fuel = less + 1 := ⟨fuel - 1, by simp at enough; omega⟩
    rw [forall_mem_cons] at nonempty
    obtain ⟨first, more, name⟩ := exists_cons_of_ne_nil nonempty.1
    rw [flatMap_cons, append_assoc] at at_ inside
    rw [length_append, ← add_assoc] at inside
    have entry : data.At offset (file.name ++ [0] ++ file.numbers) := at_.left
    have next : offset + file.name.length + 1 = offset + (file.name ++ [0]).length := by
      simp [add_assoc]
    have ends : offset + (file.name ++ [0]).length + file.numbers.length = offset + file.encode.length := by
      simp only [encode, length_append]
      omega
    have numbers := read_file entry.right
    have fewer : rest.length < fuel := by
      simp only [length_cons] at enough
      omega
    have read := ih nonempty.2 at_.right fewer inside
    have whole : offset + ((file :: rest).flatMap encode ++ [0]).length =
        offset + file.encode.length + (rest.flatMap encode ++ [0]).length := by
      simp [add_assoc]
    change (if offset < endPrologueOffset then _ else _ : Cursor (List FileNameEntry)) offset = _
    rw [if_pos (by omega)]
    change (data.getCStr offset).bind _ = _
    rw [getCStr_at file.plain entry.left, next, name]
    rw [name] at numbers ends
    change (getFileNameEntry data (some (first :: more)) _).bind (fun read =>
      (getFileNames data endPrologueOffset fuel read.2).bind fun others => some (read.1 :: others.1, others.2)) = _
    rw [numbers, whole]
    simp only [forall_mem_cons]
    by_cases readable : file.Readable
    · rw [if_pos readable, Option.bind_some, ends, read]
      by_cases others : ∀ file ∈ rest, file.Readable
      · rw [if_pos others, if_pos ⟨readable, others⟩]
        rfl
      · rw [if_neg others, if_neg fun both => others both.2]
        rfl
    · rw [if_neg readable, if_neg fun both => readable both.1]
      rfl

theorem getDWARFInitialLength_at {totalLength : Nat}
    (at_ : data.At offset (header.initialLength data.byteOrder totalLength))
    (fits : totalLength < if header.dwarf64 then 2 ^ 64 else 2 ^ 32 - 1) :
    getDWARFInitialLength data offset =
      some ((totalLength, header.dwarf64), offset + (header.initialLength data.byteOrder totalLength).length) := by
  unfold LineHeader.initialLength at at_ ⊢
  cases format : header.dwarf64 with
  | true =>
    rw [format] at at_ fits
    have escape := getMaxU64_at (by decide) at_.left
    have long := getMaxU64_at (show totalLength < 256 ^ 8 from fits) (by simpa using at_.right)
    refine (bind_read escape).trans ?_
    refine (bind_read long).trans ?_
    simp
    rfl
  | false =>
    rw [format, if_neg (by simp)] at at_ fits
    have short := getMaxU64_at (show totalLength < 256 ^ 4 by omega) at_
    refine (bind_read short).trans ?_
    rw [if_neg (by omega)]
    simp
    rfl

theorem getDWARFOffset_at {value : Nat} (at_ : data.At offset (data.byteOrder.encode header.offsetSize value))
    (narrow : value < 2 ^ 32) : getDWARFOffset data header.dwarf64 offset =
      some (value, offset + header.offsetSize) := by
  have fits : value < 256 ^ header.offsetSize := by
    unfold LineHeader.offsetSize
    split <;> omega
  refine (bind_read (getMaxU64_at fits at_)).trans ?_
  rw [show uint32 value = value from Nat.mod_eq_of_lt narrow]
  rfl

def LineHeader.prologue (header : LineHeader) (totalLength : Nat) : Prologue where
  totalLength := uint32 totalLength
  version := header.version
  prologueLength := header.headerLength
  minInstLength := header.minInstLength.toNat
  maximumOperationsPerInstruction := 1
  defaultIsStmt := header.defaultIsStmt.toNat
  lineBase := header.lineBase.toInt
  lineRange := header.lineRange.toNat
  opcodeBase := header.opcodeBase
  standardOpcodeLengths := header.standardOpcodeLengths.map UInt8.toNat
  includeDirectories := header.includeDirectories
  fileNames := header.fileNames.map entry

theorem LineHeader.holds_prologue (header : LineHeader) (totalLength : Nat) :
    (header.prologue totalLength).Holds header :=
  ⟨rfl, rfl, rfl, rfl, rfl, rfl⟩

/-- `maximum_operations_per_instruction` is there from version 4 on. -/
theorem getMaximumOperations_at {rest : List UInt8} {version : Nat}
    (at_ : data.At offset ((if 4 ≤ version then [1] else []) ++ rest)) :
    ∃ after, getMaximumOperations data version offset = some (1, after) ∧
      after = offset + (if 4 ≤ version then [(1 : UInt8)] else []).length ∧ data.At after rest := by
  by_cases late : 4 ≤ version
  · rw [if_pos late] at at_
    obtain ⟨read, behind⟩ := getU8_cons at_
    exact ⟨offset + 1, (congrFun (if_pos late) offset).trans read, by rw [if_pos late]; rfl, behind⟩
  · rw [if_neg late] at at_
    exact ⟨offset, congrFun (if_neg late) offset, by rw [if_neg late]; rfl, at_⟩

theorem length_le_directoryTable (header : LineHeader) :
    header.includeDirectories.length ≤ header.directoryTable.length := by
  unfold LineHeader.directoryTable
  induction header.includeDirectories with
  | nil => simp
  | cons directory rest ih =>
    simp only [flatMap_cons, length_append, length_cons] at ih ⊢
    omega

theorem length_le_fileTable (header : LineHeader) : header.fileNames.length ≤ header.fileTable.length := by
  unfold LineHeader.fileTable
  induction header.fileNames with
  | nil => simp
  | cons file rest ih =>
    simp only [flatMap_cons, encode, length_append, length_cons] at ih ⊢
    omega

theorem parsePrologue_at {totalLength : Nat} (at_ : data.At offset (header.initialLength data.byteOrder totalLength ++
      (data.byteOrder.encode 2 header.version ++
        (data.byteOrder.encode header.offsetSize header.headerLength ++ header.tables))))
    (fits : totalLength < if header.dwarf64 then 2 ^ 64 else 2 ^ 32 - 1) (narrow : header.headerLength < 2 ^ 32) :
    parsePrologue data offset = if ∀ file ∈ header.fileNames, file.Readable then
        some (some (header.prologue totalLength, header.dwarf64),
          offset + (header.initialLength data.byteOrder totalLength).length + 2 + header.offsetSize +
            header.tables.length)
      else none := by
  obtain ⟨supported, latest⟩ := header.supported
  obtain ⟨many, few⟩ := header.opcodes
  have version := getMaxU64_at (show header.version < 256 ^ 2 by omega) at_.right.left
  have behindVersion := at_.right.right
  rw [ByteOrder.length_encode] at behindVersion
  have length := getDWARFOffset_at behindVersion.left narrow
  have tables := behindVersion.right
  rw [ByteOrder.length_encode] at tables
  refine (bind_read (getDWARFInitialLength_at at_.left fits)).trans ?_
  refine (bind_read version).trans ?_
  rw [if_neg (by omega)]
  refine (bind_read length).trans ?_
  refine (bind_read (get_read _)).trans ?_
  generalize offset + (header.initialLength data.byteOrder totalLength).length + 2 + header.offsetSize =
    start at tables ⊢
  let behindFixed := header.standardOpcodeLengths ++ (header.directoryTable ++ header.fileTable)
  have first : data.At start (header.minInstLength :: ((if 4 ≤ header.version then [1] else []) ++
      (header.defaultIsStmt :: header.lineBase.toUInt8 :: header.lineRange :: UInt8.ofNat header.opcodeBase ::
        behindFixed))) := by
    simpa [LineHeader.tables, LineHeader.fixedFields] using tables
  obtain ⟨minInstLength, first⟩ := getU8_cons first
  obtain ⟨after, maximumOperations, here, first⟩ := getMaximumOperations_at first
  obtain ⟨defaultIsStmt, first⟩ := getU8_cons first
  obtain ⟨lineBase, first⟩ := getU8_cons first
  obtain ⟨lineRange, first⟩ := getU8_cons first
  obtain ⟨opcodeBase, first⟩ := getU8_cons first
  have base : (UInt8.ofNat header.opcodeBase).toNat = header.opcodeBase := by
    rw [UInt8.toNat_ofNat']
    unfold LineHeader.opcodeBase
    omega
  rw [base] at opcodeBase
  refine (bind_read minInstLength).trans ?_
  refine (bind_read maximumOperations).trans ?_
  refine (bind_read defaultIsStmt).trans ?_
  refine (bind_read lineBase).trans ?_
  refine (bind_read lineRange).trans ?_
  refine (bind_read opcodeBase).trans ?_
  refine (bind_read (getOpcodeLengths_at first.left)).trans ?_
  have directories := first.right.left
  have files := first.right.right
  have whole : header.tables.length = 5 + (if 4 ≤ header.version then [(1 : UInt8)] else []).length +
      header.standardOpcodeLengths.length + header.directoryTable.length + header.fileTable.length := by
    simp only [LineHeader.tables, LineHeader.fixedFields, length_append, length_cons, length_nil]
    omega
  have ends : header.headerLength = header.tables.length + header.padding.length := rfl
  have directoriesBound := directories.bound
  have filesBound := files.bound
  have fewDirectories := length_le_directoryTable header
  have fewFiles := length_le_fileTable header
  refine (bind_read (getIncludeDirectories_at header.directories directories (by omega)
    (show _ + header.directoryTable.length ≤ _ by omega))).trans ?_
  have enough : header.fileNames.length < data.bytes.length + 1 := by omega
  have names := getFileNames_at header.files files enough
    (show _ + header.fileTable.length ≤ header.headerLength + start by omega)
  by_cases readable : ∀ file ∈ header.fileNames, file.Readable
  · rw [if_pos readable] at names ⊢
    refine (bind_read names).trans ?_
    rw [if_neg (by omega)]
    have position : after + 1 + 1 + 1 + 1 + header.standardOpcodeLengths.length + header.directoryTable.length +
        header.fileTable.length = start + header.tables.length := by omega
    have sign : ((header.lineBase.toUInt8.toNat : Nat) : Int).bmod (2 ^ 8) = header.lineBase.toInt :=
      (BitVec.toInt_eq_toNat_bmod header.lineBase.toBitVec).symm
    rw [sign, ← position]
    rfl
  · rw [if_neg readable] at names ⊢
    exact congrArg (fun read => Option.bind read _) names

end Lldb.DebugLine
