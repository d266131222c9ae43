import Lldb.Process.MinidumpParser

/-! Which numbers in a minidump keep the reads of its parser, and the views that it returns, in the file. -/

set_option autoImplicit false

namespace Lldb

open Library Traced

namespace Minidump

theorem within_file {buffer : DataBuffer} {offset size : Nat} :
    (⟨offset, size⟩ : Window).Within buffer.file ↔ size = 0 ∨ offset + size ≤ buffer.size := by
  rw [Window.within_iff]
  simp only [DataBuffer.file, zero_le, true_and, zero_add]

@[simp] theorem inFile_bytes {buffer : DataBuffer} {offset size : Nat} :
    Access.InFile buffer (.bytes ⟨offset, size⟩) ↔ size = 0 ∨ offset + size ≤ buffer.size := within_file

@[simp] theorem not_inFile_wild {buffer : DataBuffer} : ¬Access.InFile buffer .wild := fun inFile => inFile

section Fields

variable {buffer : DataBuffer} {pointer : Nat}

@[simp] theorem meets_field16 {Q : UInt16 → Prop} : (field16 buffer pointer).Meets (Access.InFile buffer) Q ↔
    pointer + 2 ≤ buffer.size ∧ Q (number16 buffer pointer) := by
  simp [field16]

@[simp] theorem meets_field32 {Q : UInt32 → Prop} : (field32 buffer pointer).Meets (Access.InFile buffer) Q ↔
    pointer + 4 ≤ buffer.size ∧ Q (number32 buffer pointer) := by
  simp [field32]

@[simp] theorem meets_field64 {Q : UInt64 → Prop} : (field64 buffer pointer).Meets (Access.InFile buffer) Q ↔
    pointer + 8 ≤ buffer.size ∧ Q (number64 buffer pointer) := by
  simp [field64]

@[simp] theorem meets_readLocation {Q : LocationDescriptor → Prop} :
    (readLocation buffer pointer).Meets (Access.InFile buffer) Q ↔
      pointer + 8 ≤ buffer.size ∧ Q (locationAt buffer pointer) := by
  simp only [readLocation, meets_bind, meets_field32, meets_pure]
  constructor
  · intro meets
    exact ⟨by omega, meets.2.2⟩
  · intro good
    exact ⟨by omega, by omega, good.2⟩

end Fields

theorem dropFront_of_le {data : Window} {count : Nat} (some_ : count ≤ data.size) (small : data.size < 2 ^ 64)
    (low : data.offset + count < 2 ^ 64) : dropFront data count = ⟨data.offset + count, data.size - count⟩ := by
  unfold dropFront
  rw [Nat.mod_eq_of_lt low]
  congr 1
  omega

namespace LocationDescriptor

variable (buffer : DataBuffer) (location : LocationDescriptor)

def bytes : Window := ⟨location.rva.toNat, location.dataSize.toNat⟩

def ending : Nat := location.rva.toNat + location.dataSize.toNat

def Accepted : Prop := location.ending % 2 ^ 32 ≤ buffer.size

instance : Decidable (location.Accepted buffer) := inferInstanceAs (Decidable (_ ≤ _))

def Wraps : Prop :=
  location.dataSize ≠ 0 ∧ buffer.size < location.ending ∧ location.ending % 2 ^ 32 ≤ buffer.size

instance : Decidable (location.Wraps buffer) := inferInstanceAs (Decidable (_ ∧ _))

variable {buffer location}

theorem accepted_iff : (location.rva + location.dataSize).toNat > buffer.size ↔ ¬location.Accepted buffer := by
  rw [Accepted, ending, UInt32.toNat_add, not_le]

theorem within_iff_not_wraps :
    (location.Accepted buffer → location.bytes.Within buffer.file) ↔ ¬location.Wraps buffer := by
  have zero : location.dataSize.toNat = 0 ↔ location.dataSize = 0 := by
    rw [← UInt32.toNat_inj]
    rfl
  rw [bytes, within_file, zero, Wraps, Accepted]
  change _ → (_ ∨ location.ending ≤ _) ↔ _
  constructor
  · rintro inside ⟨some_, outside, accepted⟩
    rcases inside accepted with none_ | low
    · exact some_ none_
    · omega
  · intro straight accepted
    by_cases none_ : location.dataSize = 0
    · exact Or.inl none_
    · refine Or.inr ?_
      by_contra outside
      exact straight ⟨none_, by omega, accepted⟩

end LocationDescriptor

namespace MinidumpParser

variable {Map : Type} (support : Support Map)

@[simp] theorem slice_getData (parser : MinidumpParser Map) (location : LocationDescriptor) :
    slice parser.getData location.rva.toNat location.dataSize.toNat = location.bytes := by
  have small := location.rva.toNat_lt
  rw [slice, LocationDescriptor.bytes, getData, DataBuffer.file, Nat.zero_add, Nat.mod_eq_of_lt (by omega)]

def located (parser : MinidumpParser Map) (streamType : UInt32) : Option LocationDescriptor :=
  match support.find parser.directoryMap streamType with
  | none => none
  | some location => if location.Accepted parser.dataSp then some location else none

theorem getStream_eq (parser : MinidumpParser Map) (streamType : UInt32) : parser.getStream support streamType =
      ((parser.located support streamType).map LocationDescriptor.bytes).getD noBytes := by
  unfold getStream located
  cases support.find parser.directoryMap streamType with
  | none => rfl
  | some location =>
      dsimp only
      rw [slice_getData]
      by_cases accepted : location.Accepted parser.dataSp
      · rw [if_neg (by rw [LocationDescriptor.accepted_iff, not_not]; exact accepted), if_pos accepted]
        rfl
      · rw [if_pos (LocationDescriptor.accepted_iff.mpr accepted), if_neg accepted]
        rfl

def StreamStraight (parser : MinidumpParser Map) (streamType : UInt32) : Prop :=
  ∀ location, support.find parser.directoryMap streamType = some location → ¬location.Wraps parser.dataSp

theorem within_getStream_iff (parser : MinidumpParser Map) (streamType : UInt32) :
    (parser.getStream support streamType).Within parser.dataSp.file ↔ parser.StreamStraight support streamType := by
  rw [getStream_eq, located, StreamStraight]
  cases support.find parser.directoryMap streamType with
  | none =>
      simp only [reduceCtorEq, false_implies, implies_true, iff_true]
      exact within_file.mpr (Or.inl rfl)
  | some location =>
      have straight : (location.Accepted parser.dataSp → location.bytes.Within parser.dataSp.file) ↔
          ¬location.Wraps parser.dataSp := LocationDescriptor.within_iff_not_wraps
      simp only [Option.some.injEq, forall_eq']
      rw [← straight]
      by_cases accepted : location.Accepted parser.dataSp
      · rw [if_pos accepted]
        simp only [accepted, forall_true_left]
        rfl
      · rw [if_neg accepted]
        simp only [accepted, false_implies, iff_true]
        exact within_file.mpr (Or.inl rfl)

end MinidumpParser

/-! Lists with a 32-bit count. -/

section Lists

variable (sizeof : Nat) (buffer : DataBuffer) (location : LocationDescriptor)

def listCount : Nat := (number32 buffer location.rva.toNat).toNat

def ListAccepted : Prop := 4 ≤ location.dataSize.toNat ∧
  listCount buffer location * sizeof ≤ location.dataSize.toNat - 4

instance : Decidable (ListAccepted sizeof buffer location) := inferInstanceAs (Decidable (_ ∧ _))

/-- Behind the count, and four bytes that are taken for padding if anything is left of the stream. -/
def listEntries : Nat := location.rva.toNat + 4 +
  if 4 + listCount buffer location * sizeof < location.dataSize.toNat then 4 else 0

def listOf : ObjectList :=
  if ListAccepted sizeof buffer location then ⟨listEntries sizeof buffer location, listCount buffer location⟩
  else .none_

def CountInFile : Prop := 4 ≤ location.dataSize.toNat → location.rva.toNat + 4 ≤ buffer.size

def ListInFile : Prop := CountInFile buffer location ∧
  (ListAccepted sizeof buffer location → listCount buffer location = 0 ∨
    listEntries sizeof buffer location + listCount buffer location * sizeof ≤ buffer.size)

variable {sizeof buffer location}

theorem consumeObject_location {size : Nat} : consumeObject location.bytes size =
    if location.dataSize.toNat < size then none
    else some (location.rva.toNat, ⟨location.rva.toNat + size, location.dataSize.toNat - size⟩) := by
  have rvaSmall := location.rva.toNat_lt
  have sizeSmall := location.dataSize.toNat_lt
  unfold consumeObject LocationDescriptor.bytes
  dsimp only
  split
  · rfl
  · rw [dropFront_of_le (by dsimp only; omega) (by dsimp only; omega) (by dsimp only; omega)]

theorem offset_entries : (if 4 + listCount buffer location * sizeof < location.bytes.size then
      dropFront ⟨location.rva.toNat + 4, location.dataSize.toNat - 4⟩ 4
      else ⟨location.rva.toNat + 4, location.dataSize.toNat - 4⟩ : Window).offset =
    listEntries sizeof buffer location := by
  have rvaSmall := location.rva.toNat_lt
  have same : location.bytes.size = location.dataSize.toNat := rfl
  unfold listEntries dropFront
  rw [same]
  split
  · dsimp only
    omega
  · rfl

theorem meets_parseList {Q : ObjectList → Prop} :
    (parseList sizeof buffer location.bytes).Meets (Access.InFile buffer) Q ↔
      CountInFile buffer location ∧ Q (listOf sizeof buffer location) := by
  unfold parseList
  rw [consumeObject_location]
  by_cases short : location.dataSize.toNat < 4
  · have unaccepted : ¬ListAccepted sizeof buffer location := fun accepted => by
      have long := accepted.1
      omega
    have inFile : CountInFile buffer location := fun long => by omega
    rw [if_pos short, listOf, if_neg unaccepted]
    simp only [meets_pure, inFile, true_and]
  · have long : 4 ≤ location.dataSize.toNat := not_lt.mp short
    have inFile : CountInFile buffer location ↔ location.rva.toNat + 4 ≤ buffer.size := by
      simp only [CountInFile, long, forall_true_left]
    rw [if_neg short, inFile]
    simp only [meets_bind, meets_field32]
    change _ ∧ Traced.Meets (if listCount buffer location * sizeof > _ then _ else _) _ _ ↔ _
    by_cases fits : listCount buffer location * sizeof ≤ location.dataSize.toNat - 4
    · have accepted : listOf sizeof buffer location =
          ⟨listEntries sizeof buffer location, listCount buffer location⟩ := if_pos ⟨long, fits⟩
      rw [if_neg (not_lt.mpr fits), accepted, ← offset_entries]
      exact and_congr_right' meets_pure
    · have unaccepted : ¬ListAccepted sizeof buffer location := fun accepted => fits accepted.2
      rw [if_pos (not_le.mp fits), listOf, if_neg unaccepted, meets_pure]

end Lists

def StringReadable (buffer : DataBuffer) (rva : UInt32) : Prop :=
  rva.toNat ≤ buffer.size → rva.toNat + 4 ≤ buffer.size

namespace MinidumpParser

variable {Map : Type} {support : Support Map} {parser : MinidumpParser Map}

theorem meets_streamList {sizeof : Nat} {streamType : UInt32} {Q : ObjectList → Prop} :
    (if (parser.getStream support streamType).size = 0 then pure .none_
      else parseList sizeof parser.dataSp (parser.getStream support streamType)).Meets (Access.InFile parser.dataSp) Q ↔
    match parser.located support streamType with
    | none => Q .none_
    | some location => CountInFile parser.dataSp location ∧ Q (listOf sizeof parser.dataSp location) := by
  rw [getStream_eq]
  cases parser.located support streamType with
  | none => exact meets_pure
  | some location =>
      change (if location.dataSize.toNat = 0 then _ else parseList sizeof parser.dataSp location.bytes).Meets _ _ ↔
        CountInFile parser.dataSp location ∧ Q (listOf sizeof parser.dataSp location)
      by_cases empty : location.dataSize.toNat = 0
      · have inFile : CountInFile parser.dataSp location := fun long => by omega
        have unlisted : listOf sizeof parser.dataSp location = .none_ := if_neg fun accepted => by
          have long := accepted.1
          omega
        rw [if_pos empty, meets_pure, unlisted]
        simp only [inFile, true_and]
      · rw [if_neg empty, meets_parseList]

theorem reads_getMinidumpString {rva : UInt32} :
    (parser.getMinidumpString support rva).Meets (Access.InFile parser.dataSp) (fun _ => True) ↔
      StringReadable parser.dataSp rva := by
  have bound := parser.dataSp.sizeBound
  unfold getMinidumpString StringReadable
  by_cases outside : rva.toNat > parser.dataSp.size
  · rw [if_pos outside, meets_pure]
    simp only [not_le.mpr outside, false_implies]
  · have low : rva.toNat ≤ parser.dataSp.size := not_lt.mp outside
    have data : dropFront parser.getData rva.toNat = ⟨rva.toNat, parser.dataSp.size - rva.toNat⟩ := by
      rw [getData, DataBuffer.file, dropFront_of_le low bound (by dsimp only; omega), zero_add]
    rw [if_neg outside, data]
    simp only [low, forall_true_left]
    unfold parseMinidumpString consumeObject
    by_cases short : parser.dataSp.size - rva.toNat < 4
    · rw [if_pos short]
      simp only [meets_record, not_inFile_wild, false_and, false_iff]
      omega
    · rw [if_neg short, dropFront_of_le (by dsimp only; omega) (by dsimp only; omega) (by dsimp only; omega)]
      simp only [meets_bind, meets_field32, meets_ite, meets_pure, meets_record, inFile_bytes,
        implies_true, true_and, and_true]
      omega

/-- The context of the thread at `td` is where a 32-bit end does not hide that it is outside of the file. -/
def ContextReadable (parser : MinidumpParser Map) (td : Nat) : Prop :=
  td + 48 ≤ parser.dataSp.size ∧ ¬(locationAt parser.dataSp (td + 40)).Wraps parser.dataSp

theorem meets_getThreadContext {td : Nat} :
    (parser.getThreadContext td).Meets (Access.InFile parser.dataSp) (fun view => view.Within parser.dataSp.file) ↔
      parser.ContextReadable td := by
  unfold getThreadContext ContextReadable
  rw [meets_bind, meets_readLocation, ← LocationDescriptor.within_iff_not_wraps, meets_ite]
  rw [LocationDescriptor.accepted_iff, meets_pure, meets_pure, slice_getData, not_not]
  have nothing : noBytes.Within parser.dataSp.file := within_file.mpr (Or.inl rfl)
  simp only [nothing, implies_true, true_and]

variable (support parser)

/-- The numbers of the system information that are looked at are in the file. -/
def SystemInfoReadable : Prop :=
  parser.arch = none → ∀ location, parser.located support StreamType.systemInfo = some location →
    MinidumpSystemInfo.sizeof ≤ location.dataSize.toNat → location.rva.toNat + 24 ≤ parser.dataSp.size ∧
      (osOfPlatform (number32 parser.dataSp (location.rva.toNat + 20)) = none →
        location.rva.toNat + 28 ≤ parser.dataSp.size ∧
          StringReadable parser.dataSp (number32 parser.dataSp (location.rva.toNat + 24)))

def pdb70Size : Nat := if (parser.getArchitecture support).value.vendor = .apple then 16 else CvRecordPdb70.sizeof

/-- The module at `module_`, and as much of its CodeView record as is looked at, is in the file. -/
def IdentifierReadable (module_ : Nat) : Prop :=
  let record := locationAt parser.dataSp (module_ + 76)
  let signature := number32 parser.dataSp record.rva.toNat
  module_ + 84 ≤ parser.dataSp.size ∧ (4 ≤ record.dataSize.toNat → record.rva.toNat + 4 ≤ parser.dataSp.size ∧
    (signature = CvSignature.pdb70 → 24 ≤ record.dataSize.toNat → parser.SystemInfoReadable support ∧
      record.rva.toNat + 4 + parser.pdb70Size support ≤ parser.dataSp.size) ∧
    (signature = CvSignature.elfBuildId → record.dataSize = 4 ∨ record.ending ≤ parser.dataSp.size))

variable {support parser}

theorem getSystemInfo_eq : parser.getSystemInfo support = match parser.located support StreamType.systemInfo with
    | none => none
    | some location =>
        if location.dataSize.toNat < MinidumpSystemInfo.sizeof then none else some location.rva.toNat := by
  unfold getSystemInfo
  rw [getStream_eq]
  cases parser.located support StreamType.systemInfo with
  | none => rfl
  | some location =>
      change (if location.dataSize.toNat = 0 then none else (consumeObject location.bytes _).map Prod.fst) =
        if location.dataSize.toNat < MinidumpSystemInfo.sizeof then none else some location.rva.toNat
      rw [consumeObject_location]
      unfold MinidumpSystemInfo.sizeof
      split_ifs
      · rfl
      · omega
      · rfl
      · rfl

theorem reads_getArchitecture : (parser.getArchitecture support).Meets (Access.InFile parser.dataSp) (fun _ => True) ↔
      parser.SystemInfoReadable support := by
  unfold getArchitecture SystemInfoReadable
  cases parser.arch with
  | some triple => simp only [meets_pure, reduceCtorEq, false_implies]
  | none =>
      rw [getSystemInfo_eq]
      cases parser.located support StreamType.systemInfo with
      | none => simp only [meets_pure, reduceCtorEq, false_implies, implies_true]
      | some location =>
          simp only [Option.some.injEq, forall_eq', forall_true_left]
          by_cases short : location.dataSize.toNat < MinidumpSystemInfo.sizeof
          · simp only [short, if_true, meets_pure, not_le.mpr short, false_implies]
          · simp only [short, if_false, not_lt.mp short, forall_true_left, meets_bind, meets_field16, meets_field32]
            cases known : osOfPlatform (number32 parser.dataSp (location.rva.toNat + 20)) with
            | some system =>
                simp only [meets_bind, meets_pure, reduceCtorEq, false_implies, and_true]
                omega
            | none =>
                simp only [meets_bind, meets_field32, meets_pure, reads_getMinidumpString, forall_true_left]
                have low : location.rva.toNat + 28 ≤ parser.dataSp.size → location.rva.toNat + 2 ≤ parser.dataSp.size ∧
                    location.rva.toNat + 24 ≤ parser.dataSp.size := fun low => by omega
                constructor
                · intro good
                  exact ⟨good.2.1, good.2.2⟩
                · intro good
                  exact ⟨(low good.2.1).1, good.1, good.2⟩

theorem meets_copyBytes {offset size : Nat} {Q : List UInt8 → Prop} :
    (parser.copyBytes ⟨offset, size⟩).Meets (Access.InFile parser.dataSp) Q ↔
      (size = 0 ∨ offset + size ≤ parser.dataSp.size) ∧ Q (Memory.read parser.dataSp.byte offset size) := by
  rw [copyBytes, meets_record, inFile_bytes]

theorem reads_getModuleUUID {module_ : Nat} :
    (parser.getModuleUUID support module_).Meets (Access.InFile parser.dataSp) (fun _ => True) ↔
      parser.IdentifierReadable support module_ := by
  unfold getModuleUUID IdentifierReadable
  rw [meets_bind, meets_readLocation, slice_getData, consumeObject_location]
  generalize locationAt parser.dataSp (module_ + 76) = record
  have low : module_ + 76 + 8 ≤ parser.dataSp.size ↔ module_ + 84 ≤ parser.dataSp.size := by
    omega
  rw [low]
  apply and_congr_right'
  by_cases short : record.dataSize.toNat < 4
  · simp only [short, if_true, meets_pure, not_le.mpr short, false_implies]
  · simp only [short, if_false, not_lt.mp short, forall_true_left, meets_bind, meets_field32]
    apply and_congr_right'
    generalize number32 parser.dataSp record.rva.toNat = signature
    by_cases pdb70 : signature = CvSignature.pdb70
    · have other : signature ≠ CvSignature.elfBuildId := by
        rw [pdb70]
        decide
      rw [if_pos pdb70]
      simp only [other, false_implies, and_true]
      simp only [pdb70, forall_true_left]
      by_cases truncated : record.dataSize.toNat < 24
      · have consumed : consumeObject ⟨record.rva.toNat + 4, record.dataSize.toNat - 4⟩ CvRecordPdb70.sizeof = none :=
          if_pos (show record.dataSize.toNat - 4 < 20 by omega)
        simp only [consumed, meets_pure, not_le.mpr truncated, false_implies]
      · have consumed : consumeObject ⟨record.rva.toNat + 4, record.dataSize.toNat - 4⟩ CvRecordPdb70.sizeof =
            some (record.rva.toNat + 4, dropFront ⟨record.rva.toNat + 4, record.dataSize.toNat - 4⟩ 20) :=
          if_neg (show ¬record.dataSize.toNat - 4 < 20 by omega)
        have some_ : ¬(if (parser.getArchitecture support).value.vendor = .apple then 16 else CvRecordPdb70.sizeof) =
            0 := by
          split <;> decide
        simp only [consumed, not_lt.mp truncated, forall_true_left, meets_bind, meets_copyBytes, meets_pure, and_true]
        rw [meets_value, reads_getArchitecture, pdb70Size, or_iff_right some_]
    · rw [if_neg pdb70]
      simp only [pdb70, false_implies, true_and]
      by_cases elfBuildId : signature = CvSignature.elfBuildId
      · have four : record.dataSize = 4 ↔ record.dataSize.toNat - 4 = 0 := by
          rw [← UInt32.toNat_inj]
          change record.dataSize.toNat = 4 ↔ _
          omega
        have ending : record.rva.toNat + 4 + (record.dataSize.toNat - 4) = record.ending := by
          unfold LocationDescriptor.ending
          omega
        rw [if_pos elfBuildId]
        simp only [elfBuildId, forall_true_left, meets_bind, meets_copyBytes, meets_pure, and_true, four, ending]
      · simp only [elfBuildId, if_false, meets_pure, false_implies]

end MinidumpParser

end Minidump

end Lldb
