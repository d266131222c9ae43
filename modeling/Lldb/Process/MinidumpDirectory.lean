import Lldb.Process.MinidumpSearches

/-! Which directories of a minidump keep the parser in the file when it is set up. -/

set_option autoImplicit false

namespace Lldb

open Library Traced

namespace Minidump

namespace MinidumpParser

variable {Map : Type} (support : Support Map)

section Directory

variable (buffer : DataBuffer) (directory : FileRange)

variable (index : Nat)

def entryAt : Nat := directory.offset.toNat + 12 * index

def entryType : UInt32 := number32 buffer (entryAt directory index)

def entryLocation : LocationDescriptor := locationAt buffer (entryAt directory index + 4)

def streamsBefore : Nat → Map
  | 0 => support.empty
  | index + 1 =>
      if entryType buffer directory index = 0 then streamsBefore index
      else (support.insert (streamsBefore index) (entryType buffer directory index)
        (entryLocation buffer directory index)).1

def rangesBefore : Nat → List FileRange
  | 0 => [⟨0, UInt32.ofNat MinidumpHeader.sizeof⟩, directory]
  | index + 1 =>
      if entryType buffer directory index = 0 then rangesBefore index
      else if (entryLocation buffer directory index).dataSize ≠ 0 then
        rangesBefore index ++
          [⟨(entryLocation buffer directory index).rva, (entryLocation buffer directory index).dataSize⟩]
      else rangesBefore index

def Refused : Prop :=
  if entryType buffer directory index = 0 then (entryLocation buffer directory index).dataSize ≠ 0
  else (support.insert (streamsBefore support buffer directory index) (entryType buffer directory index)
    (entryLocation buffer directory index)).2 = false

instance (index : Nat) : Decidable (Refused support buffer directory index) := by
  unfold Refused
  infer_instance

def EntryInFile : Prop :=
  entryAt directory index + (if entryType buffer directory index = 0 then 8 else 12) ≤ buffer.size

def directoryState : DirectoryState Map :=
  ⟨⟨entryAt directory index, directory.size.toNat - 12 * index⟩, streamsBefore support buffer directory index,
    rangesBefore buffer directory index⟩

def EndsDirectory : Prop :=
  directory.size.toNat < 12 * (index + 1) ∨ Refused support buffer directory index

variable {support buffer directory}

theorem consumeObject_directory :
    consumeObject (directoryState support buffer directory index).directoryData MinidumpDirectory.sizeof =
      if directory.size.toNat < 12 * (index + 1) then none
      else some (entryAt directory index, (directoryState support buffer directory (index + 1)).directoryData) := by
  have offsetSmall := directory.offset.toNat_lt
  have sizeSmall := directory.size.toNat_lt
  unfold consumeObject directoryState MinidumpDirectory.sizeof entryAt
  dsimp only
  by_cases short : directory.size.toNat < 12 * (index + 1)
  · rw [if_pos short, if_pos (by omega)]
  · rw [if_neg short, if_neg (by omega),
      dropFront_of_le (by dsimp only; omega) (by dsimp only; omega) (by dsimp only; omega)]
    congr 3

theorem directoryTurn_of_lt {index : Nat} (short : directory.size.toNat < 12 * (index + 1)) :
    directoryTurn support buffer index (directoryState support buffer directory index) =
      pure (.done ("Insufficient buffer!", streamsBefore support buffer directory index)) := by
  unfold directoryTurn
  rw [consumeObject_directory, if_pos short]
  rfl

theorem directoryTurn_of_le {index : Nat} (long : 12 * (index + 1) ≤ directory.size.toNat) :
    directoryTurn support buffer index (directoryState support buffer directory index) =
      field32 buffer (entryAt directory index) >>= fun streamType =>
        if streamType = 0 then dummyEntry buffer (entryAt directory index)
          (directoryState support buffer directory (index + 1)).directoryData
          (directoryState support buffer directory index)
        else streamEntry support buffer (entryAt directory index) streamType
          (directoryState support buffer directory (index + 1)).directoryData
          (directoryState support buffer directory index) := by
  unfold directoryTurn
  rw [consumeObject_directory, if_neg (not_lt.mpr long)]

theorem value_directoryTurn {index : Nat} (long : 12 * (index + 1) ≤ directory.size.toNat) :
    (directoryTurn support buffer index (directoryState support buffer directory index)).value =
      (if entryType buffer directory index = 0 then dummyEntry buffer (entryAt directory index)
          (directoryState support buffer directory (index + 1)).directoryData
          (directoryState support buffer directory index)
        else streamEntry support buffer (entryAt directory index) (entryType buffer directory index)
          (directoryState support buffer directory (index + 1)).directoryData
          (directoryState support buffer directory index)).value := by
  rw [directoryTurn_of_le long]
  rfl

theorem value_dummyEntry {entry : Nat} {directoryData : Window} {state : DirectoryState Map} :
    (dummyEntry buffer entry directoryData state).value =
      if (locationAt buffer (entry + 4)).dataSize = 0 then .next { state with directoryData }
      else .done ("invalid minidump: bad stream type", state.directoryMap) := by
  have dataSize : (field32 buffer (entry + 4)).value = (locationAt buffer (entry + 4)).dataSize := rfl
  unfold dummyEntry
  rw [value_bind, dataSize]
  split_ifs <;> rfl

theorem value_streamEntry {entry : Nat} {streamType : UInt32} {directoryData : Window} {state : DirectoryState Map} :
    (streamEntry support buffer entry streamType directoryData state).value =
      if (support.insert state.directoryMap streamType (locationAt buffer (entry + 4))).2 = false then
        .done ("invalid minidump: duplicate stream type",
          (support.insert state.directoryMap streamType (locationAt buffer (entry + 4))).1)
      else .next ⟨directoryData, (support.insert state.directoryMap streamType (locationAt buffer (entry + 4))).1,
        if (locationAt buffer (entry + 4)).dataSize ≠ 0 then
          state.minidumpMap ++ [⟨(locationAt buffer (entry + 4)).rva, (locationAt buffer (entry + 4)).dataSize⟩]
        else state.minidumpMap⟩ := by
  change value (if (support.insert state.directoryMap streamType (locationAt buffer (entry + 4))).2 = false
    then _ else _) = _
  by_cases known : (support.insert state.directoryMap streamType (locationAt buffer (entry + 4))).2 = false
  · simp [if_pos known]
  · rw [if_neg known, if_neg known]
    rfl

theorem follows_directoryTurn : Traced.Follows (directoryTurn support buffer)
    (directoryState support buffer directory) (EndsDirectory support buffer directory) where
  stops := by
    intro index ends
    by_cases short : directory.size.toNat < 12 * (index + 1)
    · rw [directoryTurn_of_lt short]
      exact ⟨_, rfl⟩
    · have refused := ends.resolve_left short
      unfold Refused at refused
      rw [value_directoryTurn (not_lt.mp short)]
      by_cases dummy : entryType buffer directory index = 0
      · rw [if_pos dummy] at refused
        rw [if_pos dummy, value_dummyEntry]
        exact ⟨_, if_neg refused⟩
      · rw [if_neg dummy] at refused
        rw [if_neg dummy, value_streamEntry]
        exact ⟨_, if_pos refused⟩
  goesOn := by
    intro index goesOn
    obtain ⟨short, accepted⟩ := not_or.mp goesOn
    unfold Refused at accepted
    rw [value_directoryTurn (not_lt.mp short)]
    by_cases dummy : entryType buffer directory index = 0
    · rw [if_pos dummy, not_not] at accepted
      rw [if_pos dummy, value_dummyEntry]
      refine (if_pos accepted).trans ?_
      simp [directoryState, streamsBefore, rangesBefore, dummy]
    · rw [if_neg dummy] at accepted
      rw [if_neg dummy, value_streamEntry]
      refine (if_neg accepted).trans ?_
      simp only [directoryState, streamsBefore, rangesBefore, dummy]
      rfl

theorem reads_directoryTurn {index : Nat} :
    (directoryTurn support buffer index (directoryState support buffer directory index)).Meets (Access.InFile buffer)
        (fun _ => True) ↔
      (12 * (index + 1) ≤ directory.size.toNat → EntryInFile buffer directory index) := by
  by_cases short : directory.size.toNat < 12 * (index + 1)
  · rw [directoryTurn_of_lt short, meets_pure]
    simp [not_le.mpr short]
  · rw [directoryTurn_of_le (not_lt.mp short), meets_bind, meets_field32]
    unfold EntryInFile
    change _ + 4 ≤ _ ∧ Traced.Meets (if entryType buffer directory index = 0 then _ else _) _ _ ↔ _
    by_cases dummy : entryType buffer directory index = 0
    · rw [if_pos dummy, if_pos dummy, dummyEntry]
      simp only [meets_bind, meets_field32, meets_ite, meets_pure, implies_true, and_true]
      omega
    · rw [if_neg dummy, if_neg dummy, streamEntry]
      simp only [meets_bind, meets_readLocation, meets_ite, meets_pure, implies_true, and_true]
      omega

theorem reads_directoryLoop {count : Nat} {Q : Traced.Turn (String × Map) (DirectoryState Map) → Prop}
    (any : ∀ ending, Q ending) :
    (loop (directoryTurn support buffer) 0 count (directoryState support buffer directory 0)).Meets
        (Access.InFile buffer) Q ↔
      ∀ index, index < count → 12 * (index + 1) ≤ directory.size.toNat →
        (∀ before, before < index → ¬Refused support buffer directory before) → EntryInFile buffer directory index := by
  rw [meets_loop follows_directoryTurn 0 count]
  simp only [zero_le, forall_true_left, zero_add, any, implies_true, and_true, reads_directoryTurn]
  constructor
  · intro good index bound long others
    refine good index bound (fun before below ends => ?_) long
    rcases ends with short | refused
    · omega
    · exact others before below refused
  · intro good index bound others long
    exact good index bound long fun before below refused => others before below (Or.inr refused)

end Directory

section Initialize

variable (buffer : DataBuffer)

def streamsCount : Nat := (number32 buffer 8).toNat

def directoryRange : FileRange :=
  ⟨number32 buffer 12, UInt32.ofNat (streamsCount buffer * MinidumpDirectory.sizeof)⟩

/-- The header is one of a minidump, and its directory seems to be in the file. -/
structure HeaderAccepted : Prop where
  signature : number32 buffer 0 = MinidumpHeader.signature
  version : number32 buffer 4 &&& 0x0000ffff = MinidumpHeader.version
  someStreams : number32 buffer 8 ≠ 0
  fileSize : MinidumpHeader.sizeof ≤ (UInt32.ofNat buffer.size).toNat
  directory : (directoryRange buffer).end_ ≤ UInt32.ofNat buffer.size

def DirectoryInFile : Prop :=
  HeaderAccepted buffer → ∀ index, index < streamsCount buffer → 12 * (index + 1) ≤ (directoryRange buffer).size.toNat →
    (∀ before, before < index → ¬Refused support buffer (directoryRange buffer) before) →
    EntryInFile buffer (directoryRange buffer) index

variable {support buffer}

theorem meets_parseHeader (large : MinidumpHeader.sizeof ≤ buffer.size) {Q : Option Nat → Prop} :
    (MinidumpHeader.parse buffer ⟨0, MinidumpHeader.sizeof⟩).Meets (Access.InFile buffer) Q ↔
      Q (if number32 buffer 0 ≠ MinidumpHeader.signature ∨
        number32 buffer 4 &&& 0x0000ffff ≠ MinidumpHeader.version then none else some 0) := by
  have consumed : consumeObject ⟨0, MinidumpHeader.sizeof⟩ MinidumpHeader.sizeof =
      some (0, dropFront ⟨0, MinidumpHeader.sizeof⟩ MinidumpHeader.sizeof) := if_neg (lt_irrefl _)
  unfold MinidumpHeader.sizeof at large
  unfold MinidumpHeader.parse
  rw [consumed]
  simp only [meets_bind, meets_field32]
  rw [and_iff_right (by omega), and_iff_right (by omega)]
  by_cases other : number32 buffer 0 ≠ MinidumpHeader.signature ∨
      number32 buffer 4 &&& 0x0000ffff ≠ MinidumpHeader.version
  · simp [if_pos other]
  · simp [if_neg other]

theorem reads_initialize (large : MinidumpHeader.sizeof ≤ buffer.size) :
    ((⟨buffer, support.empty, none⟩ : MinidumpParser Map).initialize_ support).Meets (Access.InFile buffer)
      (fun _ => True) ↔ DirectoryInFile support buffer := by
  have low : 16 ≤ buffer.size := le_trans (by decide) large
  unfold initialize_ DirectoryInFile
  dsimp only
  rw [meets_bind, meets_parseHeader large]
  by_cases other : number32 buffer 0 ≠ MinidumpHeader.signature ∨
      number32 buffer 4 &&& 0x0000ffff ≠ MinidumpHeader.version
  · rw [if_pos other]
    refine iff_of_true (meets_pure.mpr trivial) fun accepted => ?_
    exact absurd other (not_or.mpr ⟨not_not.mpr accepted.signature, not_not.mpr accepted.version⟩)
  rw [if_neg other]
  rw [meets_bind, meets_field32, and_iff_right (by omega)]
  by_cases none_ : number32 buffer (0 + 8) = 0
  · rw [if_pos none_, meets_pure]
    exact iff_of_true trivial fun accepted => absurd none_ accepted.someStreams
  rw [if_neg none_]
  by_cases small : MinidumpHeader.sizeof > (UInt32.ofNat buffer.size).toNat
  · rw [if_pos small, meets_pure]
    exact iff_of_true trivial fun accepted => absurd accepted.fileSize (not_le.mpr small)
  rw [if_neg small, meets_bind, meets_field32, and_iff_right (by omega)]
  have range : (⟨number32 buffer (0 + 12), UInt32.ofNat ((number32 buffer (0 + 8)).toNat * MinidumpDirectory.sizeof)⟩ :
      FileRange) = directoryRange buffer := by
    unfold directoryRange streamsCount
    rw [zero_add]
  rw [range]
  by_cases truncated : (directoryRange buffer).end_ > UInt32.ofNat buffer.size
  · rw [if_pos truncated, meets_pure]
    exact iff_of_true trivial fun accepted => absurd accepted.directory (UInt32.not_le.mpr truncated)
  obtain ⟨signature, version⟩ := not_or.mp other
  have accepted : HeaderAccepted buffer :=
    ⟨not_not.mp signature, not_not.mp version, none_, not_lt.mp small, UInt32.not_lt.mp truncated⟩
  have start : slice (⟨buffer, support.empty, none⟩ : MinidumpParser Map).getData (directoryRange buffer).offset.toNat
      (directoryRange buffer).size.toNat = (directoryState support buffer (directoryRange buffer) 0).directoryData := by
    have offsetSmall := (directoryRange buffer).offset.toNat_lt
    unfold slice getData DataBuffer.file directoryState entryAt
    simp
  rw [if_neg truncated, forall_prop_of_true accepted, meets_bind]
  change (loop (directoryTurn support buffer) 0 (streamsCount buffer) (DirectoryState.mk (slice
    (⟨buffer, support.empty, none⟩ : MinidumpParser Map).getData (directoryRange buffer).offset.toNat
    (directoryRange buffer).size.toNat) _ _)).Meets _ _ ↔ _
  rw [start]
  exact reads_directoryLoop fun ending => by
    cases ending with
    | done error => exact meets_pure.mpr trivial
    | next state => exact meets_pure.mpr trivial

end Initialize

end MinidumpParser

end Minidump

end Lldb
