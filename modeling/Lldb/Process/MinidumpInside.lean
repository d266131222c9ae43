import Lldb.Process.MinidumpDirectory
import Mathlib.Data.List.Sort

/-! When the parser of a minidump stays inside of the file: for setting it up, and for each call after that,
the exact numbers in the file that it takes.
-/

set_option autoImplicit false

namespace Lldb

open Library Traced List

namespace Minidump

inductive Call where
  | getStream (streamType : UInt32)
  | getThreads
  | getThreadContext (td : Nat)
  | getModuleList
  | getMinidumpString (rva : UInt32)
  | getModuleUUID (module_ : Nat)
  | findMemoryRange (addr : UInt64)
  | getMemory (addr size : UInt64)
  | getMemoryRegionInfo (loadAddr : UInt64)
  deriving DecidableEq, Repr

section Calls

variable {Map : Type} (support : Support Map)

/-- The views that a call returns, and the architecture that the parser then keeps. -/
def Call.answer (parser : MinidumpParser Map) : Call → Reading (List Window × ArchSpec)
  | .getStream streamType => pure ([parser.getStream support streamType], parser.arch)
  | .getThreads => do
      let threads ← parser.getThreads support
      pure ([threads.bytes MinidumpThread.sizeof], parser.arch)
  | .getThreadContext td => do
      let context ← parser.getThreadContext td
      pure ([context], parser.arch)
  | .getModuleList => do
      let modules ← parser.getModuleList support
      pure ([modules.bytes MinidumpModule.sizeof], parser.arch)
  | .getMinidumpString rva => do
      let _ ← parser.getMinidumpString support rva
      pure ([], parser.arch)
  | .getModuleUUID module_ => do
      let (_, arch) ← parser.getModuleUUID support module_
      pure ([], arch)
  | .findMemoryRange addr => do
      let range ← parser.findMemoryRange support addr
      pure ((range.map MemoryRange.rangeRef).toList, parser.arch)
  | .getMemory addr size => do
      let memory ← parser.getMemory support addr size
      pure ([memory], parser.arch)
  | .getMemoryRegionInfo loadAddr => do
      let _ ← parser.getMemoryRegionInfo support loadAddr
      pure ([], parser.arch)

def Call.Inside (buffer : DataBuffer) (parser : MinidumpParser Map) (call : Call) : Prop :=
  (call.answer support parser).Meets (Access.InFile buffer) fun answer => ∀ view ∈ answer.1, view.Within buffer.file

instance (buffer : DataBuffer) (parser : MinidumpParser Map) (call : Call) :
    Decidable (call.Inside support buffer parser) := inferInstanceAs (Decidable (Traced.Meets _ _ _))

def Call.Possible (parser : MinidumpParser Map) : Call → Prop
  | .getThreadContext td => ∃ index, index < (parser.getThreads support).value.count ∧
      td = (parser.getThreads support).value.at_ MinidumpThread.sizeof index
  | .getModuleUUID module_ => ∃ index, index < (parser.getModuleList support).value.count ∧
      module_ = (parser.getModuleList support).value.at_ MinidumpModule.sizeof index
  | _ => True

variable (parser : MinidumpParser Map)

def MinidumpParser.after (calls : List Call) : MinidumpParser Map :=
  calls.foldl (fun parser call => { parser with arch := (call.answer support parser).value.2 }) parser

/-- What is asked of the parser: setting it up, and every call after that, stays inside of the file. -/
def StaysInside (buffer : DataBuffer) : Prop :=
  ∀ parser, MinidumpParser.create support buffer = some parser →
    (parser.initialize_ support).Meets (Access.InFile buffer) (fun _ => True) ∧
      ∀ initialized, (parser.initialize_ support).value = (none, initialized) →
        ∀ (calls : List Call) (call : Call), call.Possible support (initialized.after support calls) →
          call.Inside support buffer (initialized.after support calls)

def MinidumpParser.ListSound (streamType : UInt32) (sizeof : Nat) : Prop :=
  ∀ location, parser.located support streamType = some location → ListInFile sizeof parser.dataSp location

def Call.Sound (parser : MinidumpParser Map) : Call → Prop
  | .getStream streamType => parser.StreamStraight support streamType
  | .getThreads => parser.ListSound support StreamType.threadList MinidumpThread.sizeof
  | .getThreadContext td => parser.ContextReadable td
  | .getModuleList => parser.ListSound support StreamType.moduleList MinidumpModule.sizeof
  | .getMinidumpString rva => StringReadable parser.dataSp rva
  | .getModuleUUID module_ => parser.IdentifierReadable support module_
  | .findMemoryRange addr =>
      parser.MemorySound support addr fun range => range.rangeRef.Within parser.dataSp.file
  | .getMemory addr size =>
      parser.MemorySound support addr fun range => (range.part addr size).Within parser.dataSp.file
  | .getMemoryRegionInfo loadAddr => parser.RegionSound support loadAddr

variable {support}

theorem within_listOf {sizeof : Nat} (some_ : 0 < sizeof) {buffer : DataBuffer} {location : LocationDescriptor} :
    ((listOf sizeof buffer location).bytes sizeof).Within buffer.file ↔
      (ListAccepted sizeof buffer location → listCount buffer location = 0 ∨
        listEntries sizeof buffer location + listCount buffer location * sizeof ≤ buffer.size) := by
  unfold listOf ObjectList.bytes
  rw [within_file]
  by_cases accepted : ListAccepted sizeof buffer location
  · rw [if_pos accepted]
    simp [accepted, some_.ne']
  · simp only [accepted, false_implies, iff_true]
    exact Or.inl (zero_mul _)

theorem MinidumpParser.meets_list {parser : MinidumpParser Map} {streamType : UInt32} {sizeof : Nat}
    (some_ : 0 < sizeof) :
    (if (parser.getStream support streamType).size = 0 then pure .none_
      else parseList sizeof parser.dataSp (parser.getStream support streamType)).Meets (Access.InFile parser.dataSp)
        (fun list => (list.bytes sizeof).Within parser.dataSp.file) ↔
      parser.ListSound support streamType sizeof := by
  rw [meets_streamList]
  unfold ListSound
  cases parser.located support streamType with
  | none =>
      simp only [reduceCtorEq, false_implies, implies_true, iff_true]
      exact within_file.mpr (Or.inl (zero_mul _))
  | some location =>
      simp [ListInFile, within_listOf some_]

theorem Call.inside_iff (call : Call) :
    call.Inside support parser.dataSp parser ↔ call.Sound support parser := by
  unfold Call.Inside
  cases call with
  | getStream streamType =>
      unfold Call.answer Call.Sound
      simp [parser.within_getStream_iff]
  | getThreads =>
      unfold Call.answer Call.Sound
      simp only [meets_bind, meets_pure, forall_mem_singleton]
      exact MinidumpParser.meets_list (by decide)
  | getThreadContext td =>
      unfold Call.answer Call.Sound
      simp only [meets_bind, meets_pure, forall_mem_singleton]
      exact MinidumpParser.meets_getThreadContext
  | getModuleList =>
      unfold Call.answer Call.Sound
      simp only [meets_bind, meets_pure, forall_mem_singleton]
      exact MinidumpParser.meets_list (by decide)
  | getMinidumpString rva =>
      unfold Call.answer Call.Sound
      simp only [meets_bind, meets_pure, not_mem_nil, false_implies, implies_true]
      exact MinidumpParser.reads_getMinidumpString
  | getModuleUUID module_ =>
      unfold Call.answer Call.Sound
      simp only [meets_bind, meets_pure, not_mem_nil, false_implies, implies_true]
      exact MinidumpParser.reads_getModuleUUID
  | findMemoryRange addr =>
      unfold Call.answer Call.Sound
      rw [meets_bind]
      refine Iff.trans ?_ MinidumpParser.meets_findMemoryRange
      apply meets_congr
      intro found
      cases found with
      | none => simp
      | some range => simp
  | getMemory addr size =>
      unfold Call.answer Call.Sound
      simp only [meets_bind, meets_pure, forall_mem_singleton]
      exact MinidumpParser.meets_getMemory
  | getMemoryRegionInfo loadAddr =>
      unfold Call.answer Call.Sound
      simp only [meets_bind, meets_pure, not_mem_nil, false_implies, implies_true]
      exact MinidumpParser.reads_getMemoryRegionInfo

namespace MinidumpParser

theorem after_dataSp (parser : MinidumpParser Map) (calls : List Call) :
    (parser.after support calls).dataSp = parser.dataSp := by
  induction calls generalizing parser with
  | nil => rfl
  | cons call calls ih => exact ih _

theorem initialize_dataSp (parser : MinidumpParser Map) :
    (parser.initialize_ support).value.2.dataSp = parser.dataSp := by
  unfold initialize_
  rw [value_bind]
  split
  · rfl
  rw [value_bind]
  split
  · rfl
  dsimp only
  split
  · rfl
  rw [value_bind]
  split
  · rfl
  rw [value_bind]
  split
  · rfl
  · rfl

/-- Before that there is nothing but the file. -/
theorem create_eq {buffer : DataBuffer} {parser : MinidumpParser Map} (created : create support buffer = some parser) :
    parser = ⟨buffer, support.empty, none⟩ ∧ MinidumpHeader.sizeof ≤ buffer.size := by
  unfold create at created
  split at created
  · exact absurd created (by simp)
  · exact ⟨(Option.some.inj created).symm, by omega⟩

end MinidumpParser

/-- Setting up the parser stays inside of the file if the entries of the directory that it comes to do, and
each call after that, whatever calls were made before, if its numbers do. -/
theorem parsing_inside_iff (support : Support Map) (buffer : DataBuffer) (parser : MinidumpParser Map)
    (created : MinidumpParser.create support buffer = some parser) :
    ((parser.initialize_ support).Meets (Access.InFile buffer) (fun _ => True) ↔
      MinidumpParser.DirectoryInFile support buffer) ∧
    ∀ initialized, (parser.initialize_ support).value = (none, initialized) → ∀ (calls : List Call) (call : Call),
      (call.Inside support buffer (initialized.after support calls) ↔
        call.Sound support (initialized.after support calls)) := by
  obtain ⟨rfl, large⟩ := MinidumpParser.create_eq created
  constructor
  · exact MinidumpParser.reads_initialize large
  · intro initialized ready calls call
    have file : (initialized.after support calls).dataSp = buffer := by
      have kept : ((⟨buffer, support.empty, none⟩ : MinidumpParser Map).initialize_ support).value.2.dataSp = buffer :=
        MinidumpParser.initialize_dataSp _
      rw [ready] at kept
      exact (MinidumpParser.after_dataSp initialized calls).trans kept
    have exact_ : call.Inside support (initialized.after support calls).dataSp (initialized.after support calls) ↔
        call.Sound support (initialized.after support calls) := Call.inside_iff _ call
    rw [file] at exact_
    exact exact_

end Calls

/-! A dump on its own: the bytes in front of and behind it are zeros. -/

def listSupport : Support (List (UInt32 × LocationDescriptor)) where
  empty := []
  find map streamType := map.lookup streamType
  insert map streamType location :=
    if (map.lookup streamType).isSome then (map, false) else ((streamType, location) :: map, true)
  sort := insertionSort fun left right => left.offset ≤ right.offset
  convertUTF16toUTF8 units room := (units.map fun unit => unit.toUInt8).take room

def fileOf (bytes : List UInt8) (small : bytes.length < 2 ^ 64) : DataBuffer :=
  ⟨fun offset => bytes.getD offset 0, bytes.length, small⟩

def dumpBytes (streamType : UInt8) (dataSize rva : List UInt8) : List UInt8 :=
  [0x4d, 0x44, 0x4d, 0x50, 0x93, 0xa7, 0, 0, 1, 0, 0, 0, 32, 0, 0, 0] ++ replicate 16 0 ++
    [streamType, 0, 0, 0] ++ dataSize ++ rva

def threadDump : DataBuffer :=
  fileOf (dumpBytes 3 [4, 0, 0, 0] [44, 0, 0, 0] ++ [0, 0, 0, 0]) (by decide)

theorem parsing_inside_iff_threads : (Call.getThreads).Inside listSupport threadDump
      (((⟨threadDump, [], none⟩ : MinidumpParser _).initialize_ listSupport).value.2.after listSupport []) := by
  refine ((parsing_inside_iff listSupport threadDump ⟨threadDump, [], none⟩ rfl).2 _
    (Prod.ext (by decide) rfl) [] .getThreads).mpr ?_
  intro location found
  have located : MinidumpParser.located listSupport
      (((⟨threadDump, [], none⟩ : MinidumpParser _).initialize_ listSupport).value.2.after listSupport [])
      StreamType.threadList = some ⟨4, 44⟩ := by
    decide
  cases located.symm.trans found
  exact ⟨fun _ => by decide, fun _ => Or.inl (by decide)⟩

def wrappingDump : DataBuffer := fileOf (dumpBytes 3 [32, 0, 0, 0] [0xf0, 0xff, 0xff, 0xff]) (by decide)

theorem wrapping_not_staysInside : ¬StaysInside listSupport wrappingDump := by
  intro inside
  have ready : ((⟨wrappingDump, [], none⟩ : MinidumpParser _).initialize_ listSupport).value.1 = none := by
    decide
  have stream := (inside ⟨wrappingDump, [], none⟩ rfl).2 _ (Prod.ext ready rfl) [] (.getStream 3) trivial
  exact absurd stream (by decide)

end Minidump

end Lldb
