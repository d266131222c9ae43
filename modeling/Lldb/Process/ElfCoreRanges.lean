import Lldb.Process.ElfCore
import Mathlib.Data.List.Chain

/-! What the ranges of a core file are made of: stretches of load segments. -/

set_option autoImplicit false

namespace Lldb

open List

namespace ELFProgramHeader

variable (header : ELFProgramHeader)

def Holds (address : Nat) : Prop :=
  header.vaddr ≤ address ∧ address < header.vaddr + header.memsz

def place (address : Nat) : Nat := header.offset + (address - header.vaddr)

def byte (file : List UInt8) (address : Nat) : UInt8 :=
  if address - header.vaddr < header.filesz then file.getD (header.place address) 0 else 0

/-- The second segment goes on where the first one ends, in memory and in the file. -/
def Continues (first second : ELFProgramHeader) : Prop :=
  first.vaddr + first.memsz = second.vaddr ∧ first.offset + first.filesz = second.offset ∧ first.memsz = first.filesz

instance (first second : ELFProgramHeader) : Decidable (first.Continues second) :=
  inferInstanceAs (Decidable (_ ∧ _ ∧ _))

structure Fits (file : List UInt8) (header : ELFProgramHeader) : Prop where
  memory : header.vaddr + header.memsz < 2 ^ 64
  filled : 0 < header.filesz
  within : header.filesz ≤ header.memsz
  file : header.offset + header.filesz ≤ file.length

end ELFProgramHeader

open ELFProgramHeader

structure Loadable (file : List UInt8) (headers : List ELFProgramHeader) : Prop where
  apart : headers.Pairwise fun first second => ∀ address, first.Holds address → ¬ second.Holds address
  fits : ∀ header ∈ headers, header.Fits file
  small : file.length < 2 ^ 64

theorem Loadable.eq_of_holds {file : List UInt8} {headers : List ELFProgramHeader} (loadable : Loadable file headers)
    {first second : ELFProgramHeader} (member : first ∈ headers) (listed : second ∈ headers) {address : Nat}
    (holds : first.Holds address) (held : second.Holds address) : first = second := by
  have : Std.Symm fun first second : ELFProgramHeader => ∀ address, first.Holds address → ¬ second.Holds address :=
    ⟨fun _ _ separate address holds held => separate address held holds⟩
  by_contra different
  exact loadable.apart.forall member listed different address holds held

structure Piece where
  entry : RangeData Range
  front : List ELFProgramHeader
  last : ELFProgramHeader

namespace Piece

def run (piece : Piece) : List ELFProgramHeader := piece.front ++ [piece.last]

structure Describes (piece : Piece) : Prop where
  chain : piece.run.IsChain Continues
  aligned : ∀ header ∈ piece.run, header.offset + piece.entry.range.base = header.vaddr + piece.entry.data.base
  base : ∀ header ∈ piece.run, piece.entry.range.base ≤ header.vaddr
  full : ∀ header ∈ piece.front, header.memsz = header.filesz ∧ header.vaddr + header.memsz ≤ piece.last.vaddr
  memoryEnd : piece.entry.range.base + piece.entry.range.size = piece.last.vaddr + piece.last.memsz
  fileEnd : piece.entry.data.base + piece.entry.data.size = piece.last.offset + piece.last.filesz
  covers : ∀ address, piece.entry.range.base ≤ address →
    address < piece.entry.range.base + piece.entry.range.size → ∃ header ∈ piece.run, header.Holds address

def single (header : ELFProgramHeader) : Piece := ⟨header.rangeEntry, [], header⟩

def extended (piece : Piece) (header : ELFProgramHeader) : Piece :=
  ⟨ProcessElfCore.extend piece.entry header.rangeEntry, piece.run, header⟩

theorem single_describes (header : ELFProgramHeader) : (single header).Describes where
  chain := .singleton header
  aligned other member := by
    cases mem_singleton.mp member
    exact add_comm _ _
  base other member := by
    cases mem_singleton.mp member
    exact le_refl _
  full other member := absurd member not_mem_nil
  memoryEnd := rfl
  fileEnd := rfl
  covers address first last := ⟨header, mem_singleton_self _, first, last⟩

variable {file : List UInt8} {piece : Piece}

theorem last_mem (piece : Piece) : piece.last ∈ piece.run := mem_append_right _ (mem_singleton_self _)

theorem touches_iff (describes : piece.Describes) (small : file.length < 2 ^ 64) (last : piece.last.Fits file)
    (header : ELFProgramHeader) :
    ProcessElfCore.touches piece.entry header.rangeEntry = true ↔ piece.last.Continues header := by
  have aligned := describes.aligned _ piece.last_mem
  have ⟨memoryEnd, fileEnd⟩ := And.intro describes.memoryEnd describes.fileEnd
  have ⟨memory, filled, within, inFile⟩ := last
  have range : piece.entry.range.rangeEnd = piece.last.vaddr + piece.last.memsz := by
    rw [Range.rangeEnd, memoryEnd, Nat.mod_eq_of_lt memory]
  have data : piece.entry.data.rangeEnd = piece.last.offset + piece.last.filesz := by
    rw [Range.rangeEnd, fileEnd, Nat.mod_eq_of_lt (by omega)]
  simp only [ProcessElfCore.touches, range, data, Bool.and_eq_true, decide_eq_true_eq, and_assoc]
  refine and_congr_right fun _ => and_congr_right fun _ => ?_
  omega

theorem extended_describes (describes : piece.Describes) {header : ELFProgramHeader}
    (small : file.length < 2 ^ 64) (last : piece.last.Fits file) (fits : header.Fits file)
    (continues : piece.last.Continues header) : (piece.extended header).Describes := by
  have aligned := describes.aligned _ piece.last_mem
  have ⟨memoryEnd, fileEnd⟩ := And.intro describes.memoryEnd describes.fileEnd
  have ⟨touch, fileTouch, whole⟩ := continues
  have ⟨nextMemory, nextFilled, nextWithin, nextInFile⟩ := fits
  have range : (piece.extended header).entry.range =
      ⟨piece.entry.range.base, header.vaddr + header.memsz - piece.entry.range.base⟩ := by
    have end_ : header.rangeEntry.range.rangeEnd = header.vaddr + header.memsz := Nat.mod_eq_of_lt nextMemory
    have above : header.vaddr + header.memsz > piece.entry.range.base := by omega
    exact (congrArg piece.entry.range.setRangeEnd64 end_).trans (if_pos above)
  have data : (piece.extended header).entry.data =
      ⟨piece.entry.data.base, header.offset + header.filesz - piece.entry.data.base⟩ := by
    have bound : header.offset + header.filesz < 2 ^ 64 := by omega
    have end_ : header.rangeEntry.data.rangeEnd = header.offset + header.filesz := Nat.mod_eq_of_lt bound
    have above : header.offset + header.filesz > piece.entry.data.base := by omega
    exact (congrArg piece.entry.data.setRangeEnd64 end_).trans (if_pos above)
  have members {other : ELFProgramHeader} (member : other ∈ (piece.extended header).run) :
      other ∈ piece.run ∨ other = header := by
    rwa [run, mem_append, mem_singleton] at member
  refine ⟨?_, fun other member => ?_, fun other member => ?_, fun other member => ?_, ?_, ?_,
    fun address first below => ?_⟩
  · rw [run, extended, run, append_assoc, singleton_append, isChain_append_cons_cons]
    exact ⟨describes.chain, continues, .singleton header⟩
  · rw [range, data]
    rcases members member with early | rfl
    · exact describes.aligned other early
    · dsimp only
      omega
  · rw [range]
    rcases members member with early | rfl
    · exact describes.base other early
    · dsimp only
      omega
  · rcases mem_append.mp member with early | same
    · have := describes.full other early
      have next : (piece.extended header).last = header := rfl
      rw [next]
      omega
    · cases mem_singleton.mp same
      exact ⟨whole, le_of_eq touch⟩
  · rw [range]
    have next : (piece.extended header).last = header := rfl
    rw [next]
    dsimp only
    omega
  · rw [data]
    have next : (piece.extended header).last = header := rfl
    rw [next]
    dsimp only
    omega
  · rw [range] at first below
    dsimp only at first below
    by_cases early : address < piece.entry.range.base + piece.entry.range.size
    · obtain ⟨other, member, holds⟩ := describes.covers address first early
      exact ⟨other, mem_append_left _ member, holds⟩
    · exact ⟨header, mem_append_right _ (mem_singleton_self _), by omega, by omega⟩

def joinFrom (piece : Piece) : List ELFProgramHeader → List Piece
  | [] => [piece]
  | header :: rest =>
      if piece.last.Continues header then joinFrom (piece.extended header) rest
      else piece :: joinFrom (single header) rest

theorem joinFrom_flatten (piece : Piece) (headers : List ELFProgramHeader) :
    (joinFrom piece headers).flatMap run = piece.run ++ headers := by
  induction headers generalizing piece with
  | nil => simp [joinFrom]
  | cons header rest ih =>
    rw [joinFrom]
    split_ifs
    · simp [ih, run, extended]
    · rw [flatMap_cons, ih]
      rfl

theorem joinFrom_describes (small : file.length < 2 ^ 64) (describes : piece.Describes) (last : piece.last.Fits file)
    {headers : List ELFProgramHeader} (fits : ∀ header ∈ headers, header.Fits file) :
    ∀ other ∈ joinFrom piece headers, other.Describes ∧ other.last.Fits file := by
  induction headers generalizing piece with
  | nil =>
    intro other member
    cases mem_singleton.mp member
    exact ⟨describes, last⟩
  | cons header rest ih =>
    rw [forall_mem_cons] at fits
    rw [joinFrom]
    split_ifs with continues
    · exact ih (extended_describes describes small last fits.1 continues) fits.1 fits.2
    · rw [forall_mem_cons]
      exact ⟨⟨describes, last⟩, ih (single_describes header) fits.1 fits.2⟩

theorem joinFrom_closed (piece : Piece) {headers : List ELFProgramHeader} {first second : ELFProgramHeader}
    (next : [first, second] <:+: piece.run ++ headers) (continues : first.Continues second) :
    ∃ other ∈ joinFrom piece headers, first ∈ other.run ∧ second ∈ other.run := by
  induction headers generalizing piece with
  | nil =>
    rw [append_nil] at next
    exact ⟨piece, mem_singleton_self _, next.subset mem_cons_self, next.subset (.tail _ mem_cons_self)⟩
  | cons header rest ih =>
    rw [joinFrom]
    split_ifs with joined
    · apply ih
      rwa [run, extended, append_assoc, singleton_append]
    · rcases infix_append_iff_ne_nil.mp next with
        inside | later | ⟨left, right, leftFilled, rightFilled, same, ends, starts⟩
      · exact ⟨piece, mem_cons_self, inside.subset mem_cons_self, inside.subset (.tail _ mem_cons_self)⟩
      · obtain ⟨other, member, both⟩ := ih (single header) later
        exact ⟨other, .tail _ member, both⟩
      · -- The two are the last of this piece and the first behind it.
        have alone : left = [first] ∧ right = [second] := by
          cases left with
          | nil => exact absurd rfl leftFilled
          | cons _ left =>
            cases left with
            | nil =>
              cases same
              exact ⟨rfl, rfl⟩
            | cons _ left =>
              have length := congrArg length same
              have := length_pos_iff.mpr rightFilled
              simp only [length_append, length_cons, length_nil] at length
              omega
        obtain ⟨rfl, rfl⟩ := alone
        cases singleton_suffix_append_singleton_iff.mp ends
        cases (cons_prefix_cons.mp starts).1
        exact absurd continues joined

end Piece

namespace ProcessElfCore

theorem foldl_addRange {file : List UInt8} (small : file.length < 2 ^ 64) {headers : List ELFProgramHeader}
    (fits : ∀ header ∈ headers, header.Fits file) {piece : Piece} (describes : piece.Describes)
    (last : piece.last.Fits file) (front : List (RangeData Range)) :
    (headers.foldl (fun aranges header => addRange aranges header.rangeEntry) ⟨front ++ [piece.entry]⟩).entries =
      front ++ (piece.joinFrom headers).map Piece.entry := by
  induction headers generalizing piece front with
  | nil => rfl
  | cons header rest ih =>
    rw [forall_mem_cons] at fits
    rw [foldl_cons, Piece.joinFrom]
    by_cases continues : piece.last.Continues header
    · have touch := (Piece.touches_iff describes small last header).mpr continues
      rw [if_pos continues, ← ih fits.2 (Piece.extended_describes describes small last fits.1 continues) fits.1]
      rw [addRange, getLast?_concat]
      simp only [touch, dropLast_concat]
      rfl
    · have touch : touches piece.entry header.rangeEntry = false := by
        rw [Bool.eq_false_iff, Ne, Piece.touches_iff describes small last header]
        exact continues
      have ih := ih fits.2 (Piece.single_describes header) fits.1 (front ++ [piece.entry])
      rw [if_neg continues, map_cons, append_cons front _ (map _ _), ← ih, addRange, getLast?_concat]
      simp only [touch]
      rfl

end ProcessElfCore

structure CutInto (headers : List ELFProgramHeader) (pieces : List Piece) : Prop where
  describes : ∀ piece ∈ pieces, piece.Describes
  flatten : pieces.flatMap Piece.run = headers
  closed : ∀ first second, [first, second] <:+: headers → first.Continues second →
    ∃ piece ∈ pieces, first ∈ piece.run ∧ second ∈ piece.run

namespace ProcessElfCore

theorem addRanges_cutInto {file : List UInt8} {headers : List ELFProgramHeader} (loadable : Loadable file headers) :
    ∃ pieces, CutInto headers pieces ∧
      (headers.foldl (fun aranges header => addRange aranges header.rangeEntry) ⟨[]⟩).entries =
        pieces.map Piece.entry := by
  cases headers with
  | nil =>
    refine ⟨[], ⟨fun _ member => absurd member not_mem_nil, rfl, fun first second next => ?_⟩, rfl⟩
    cases infix_nil.mp next
  | cons header rest =>
    have fits := loadable.fits
    rw [forall_mem_cons] at fits
    have described := Piece.joinFrom_describes loadable.small (Piece.single_describes header) fits.1 fits.2
    have folded := foldl_addRange loadable.small fits.2 (Piece.single_describes header) fits.1 []
    refine ⟨(Piece.single header).joinFrom rest, ⟨fun piece member => (described piece member).1,
      Piece.joinFrom_flatten _ _, fun first second next => Piece.joinFrom_closed (Piece.single header) next⟩, ?_⟩
    exact folded

/-- The entries that `DoLoadCore` adds ranges for. -/
def loadHeaders (headers : List ELFProgramHeader) : List ELFProgramHeader := headers.filter (·.type = ptLoad)

theorem loadHeaders_cons_pos {header : ELFProgramHeader} (load : header.type = ptLoad)
    (rest : List ELFProgramHeader) : loadHeaders (header :: rest) = header :: loadHeaders rest :=
  filter_cons_of_pos (decide_eq_true load)

theorem loadHeaders_cons_neg {header : ELFProgramHeader} (other : header.type ≠ ptLoad)
    (rest : List ELFProgramHeader) : loadHeaders (header :: rest) = loadHeaders rest :=
  filter_cons_of_neg (by rwa [decide_eq_true_eq])

theorem foldl_next (state : LoadState) (headers : List ELFProgramHeader) :
    (headers.foldl LoadState.next state).core.coreAranges =
      (loadHeaders headers).foldl (fun aranges header => addRange aranges header.rangeEntry) state.core.coreAranges := by
  induction headers generalizing state with
  | nil => rfl
  | cons header rest ih =>
    rw [foldl_cons, ih]
    by_cases load : header.type = ptLoad
    · rw [LoadState.next, if_pos load, loadHeaders_cons_pos load]
      rfl
    · rw [LoadState.next, if_neg load, loadHeaders_cons_neg load]

theorem foldl_next_sorted (state : LoadState) (headers : List ELFProgramHeader)
    (sorted : (headers.foldl LoadState.next state).rangesAreSorted = true) :
    state.rangesAreSorted = true ∧ (state.vmAddr :: (loadHeaders headers).map vaddr).IsChain (· ≤ ·) := by
  induction headers generalizing state with
  | nil => exact ⟨sorted, .singleton _⟩
  | cons header rest ih =>
    obtain ⟨before, chain⟩ := ih _ sorted
    by_cases load : header.type = ptLoad
    · rw [LoadState.next, if_pos load] at before chain
      dsimp only [addAddressRangeFromLoadSegment] at before chain
      rw [loadHeaders_cons_pos load]
      split_ifs at before with below
      exact ⟨before, .cons_cons (not_lt.mp below) chain⟩
    · rw [LoadState.next, if_neg load] at before chain
      rw [loadHeaders_cons_neg load]
      exact ⟨before, chain⟩

theorem range_weak : RangeDataArray.Weak Range.lt where
  asymm left right less := by
    rw [Range.lt] at less ⊢
    split_ifs at less ⊢ <;> first | omega | simp only [decide_eq_true_eq, decide_eq_false_iff_not] at less ⊢; omega
  trans left middle right first second := by
    rw [Range.lt] at first second ⊢
    split_ifs at first second ⊢ <;> simp only [decide_eq_false_iff_not] at first second ⊢ <;> omega

end ProcessElfCore

def RangeData.Covers {T : Type} (entry : RangeData T) (address : Nat) : Prop :=
  entry.range.base ≤ address ∧ address < entry.range.base + entry.range.size

namespace CutInto

variable {file : List UInt8} {headers : List ELFProgramHeader} {pieces : List Piece}

theorem fits (loadable : Loadable file headers) (cut : CutInto headers pieces) {piece : Piece} (member : piece ∈ pieces)
    {header : ELFProgramHeader} (inRun : header ∈ piece.run) : header.Fits file :=
  loadable.fits header (cut.flatten ▸ mem_flatMap.mpr ⟨piece, member, inRun⟩)

theorem entries_apart (loadable : Loadable file headers) (cut : CutInto headers pieces) :
    (pieces.map Piece.entry).Pairwise fun left right => ∀ address, left.Covers address → ¬ right.Covers address := by
  have apart := loadable.apart
  rw [← cut.flatten, flatMap_def, pairwise_flatten, pairwise_map] at apart
  rw [pairwise_map]
  refine apart.2.imp_of_mem fun {left right} inLeft inRight separate address covered also => ?_
  obtain ⟨header, member, holds⟩ := (cut.describes left inLeft).covers address covered.1 covered.2
  obtain ⟨other, listed, held⟩ := (cut.describes right inRight).covers address also.1 also.2
  exact separate header member other listed address holds held

theorem eq_of_mem (loadable : Loadable file headers) (cut : CutInto headers pieces) {piece other : Piece}
    (member : piece ∈ pieces) (listed : other ∈ pieces) {header : ELFProgramHeader} (inRun : header ∈ piece.run)
    (inOther : header ∈ other.run) : piece = other := by
  have apart := loadable.apart
  rw [← cut.flatten, flatMap_def, pairwise_flatten, pairwise_map] at apart
  have : Std.Symm fun piece other : Piece => ∀ first ∈ piece.run, ∀ second ∈ other.run,
      ∀ address, first.Holds address → ¬ second.Holds address :=
    ⟨fun _ _ separate first member second listed address holds held =>
      separate second listed first member address held holds⟩
  have ⟨_, filled, within, _⟩ := cut.fits loadable member inRun
  have holds : header.Holds header.vaddr := ⟨le_refl _, by omega⟩
  by_contra different
  exact apart.2.forall member listed different header inRun header inOther _ holds holds

theorem run_infix (cut : CutInto headers pieces) {piece : Piece} (member : piece ∈ pieces) : piece.run <:+: headers := by
  obtain ⟨front, back, split⟩ := append_of_mem member
  refine ⟨front.flatMap Piece.run, back.flatMap Piece.run, ?_⟩
  simp [← cut.flatten, split]

theorem stretch_mem (loadable : Loadable file headers) (cut : CutInto headers pieces) {first : ELFProgramHeader}
    {rest : List ELFProgramHeader} (part : first :: rest <:+: headers) (chain : (first :: rest).IsChain Continues) :
    ∃ piece ∈ pieces, ∀ header ∈ first :: rest, header ∈ piece.run := by
  induction rest generalizing first with
  | nil =>
    have member := part.subset mem_cons_self
    rw [← cut.flatten] at member
    obtain ⟨piece, listed, inRun⟩ := mem_flatMap.mp member
    exact ⟨piece, listed, fun header same => mem_singleton.mp same ▸ inRun⟩
  | cons second rest ih =>
    obtain ⟨continues, chain⟩ := isChain_cons_cons.mp chain
    obtain ⟨piece, listed, all⟩ := ih ((suffix_cons _ _).isInfix.trans part) chain
    have pair : [first, second] <:+: headers := (prefix_append [first, second] rest).isInfix.trans part
    obtain ⟨other, member, inFirst, inSecond⟩ := cut.closed first second pair continues
    cases cut.eq_of_mem loadable listed member (all second mem_cons_self) inSecond
    refine ⟨piece, listed, fun header member => ?_⟩
    rcases mem_cons.mp member with rfl | later
    · exact inFirst
    · exact all header later

theorem entry_fits (loadable : Loadable file headers) (cut : CutInto headers pieces) {piece : Piece}
    (member : piece ∈ pieces) :
    0 < piece.entry.range.size ∧ piece.entry.range.base + piece.entry.range.size < 2 ^ 64 := by
  obtain ⟨memory, filled, within, -⟩ := cut.fits loadable member piece.last_mem
  have describes := cut.describes piece member
  have base := describes.base _ piece.last_mem
  have memoryEnd := describes.memoryEnd
  omega

theorem entry_base (loadable : Loadable file headers) (cut : CutInto headers pieces) {piece : Piece}
    (member : piece ∈ pieces) : ∃ header ∈ piece.run, header.vaddr = piece.entry.range.base := by
  have describes := cut.describes piece member
  have positive := (cut.entry_fits loadable member).1
  obtain ⟨header, inRun, holds⟩ := describes.covers _ (Nat.le_refl _) (Nat.lt_add_of_pos_right positive)
  exact ⟨header, inRun, le_antisymm holds.1 (describes.base header inRun)⟩

end CutInto

namespace ProcessElfCore

theorem loadSegments_pieces {file : List UInt8} {headers : List ELFProgramHeader}
    (loadable : Loadable file (loadHeaders headers)) :
    ∃ pieces, CutInto (loadHeaders headers) pieces ∧
      (loadSegments headers).coreAranges.entries.Perm (pieces.map Piece.entry) ∧
      (loadSegments headers).coreAranges.entries.Pairwise RangeDataArray.Apart := by
  obtain ⟨pieces, cut, entries⟩ := addRanges_cutInto loadable
  have folded := foldl_next ⟨⟨⟨[]⟩, ⟨[]⟩⟩, 0, true⟩ headers
  have inOrder := foldl_next_sorted ⟨⟨⟨[]⟩, ⟨[]⟩⟩, 0, true⟩ headers
  have ⟨perm, sorted⟩ : (loadSegments headers).coreAranges.entries.Perm (pieces.map Piece.entry) ∧
      (loadSegments headers).coreAranges.entries.Pairwise fun left right => left.range.base ≤ right.range.base := by
    rw [loadSegments]
    split_ifs with sorted
    · rw [folded, entries]
      refine ⟨.refl _, pairwise_map.mpr ?_⟩
      have chain := pairwise_map.mp (isChain_iff_pairwise.mp (inOrder sorted).2).of_cons
      rw [← cut.flatten, flatMap_def, pairwise_flatten, pairwise_map] at chain
      refine chain.2.imp_of_mem fun {left right} inLeft inRight below => ?_
      obtain ⟨header, member, base⟩ := cut.entry_base loadable inLeft
      obtain ⟨other, listed, otherBase⟩ := cut.entry_base loadable inRight
      rw [← base, ← otherBase]
      exact below header member other listed
    · rw [folded]
      exact ⟨(RangeDataArray.sort_perm _ _).trans (entries ▸ .refl _), RangeDataArray.sort_sorted range_weak _⟩
  refine ⟨pieces, cut, perm, ?_⟩
  have apart := (perm.pairwise_iff (fun {left right} separate address covered also =>
    separate address also covered)).mpr (cut.entries_apart loadable)
  refine (sorted.and apart).imp_of_mem fun {left right} inLeft inRight both => ?_
  obtain ⟨piece, member, rfl⟩ := mem_map.mp (perm.mem_iff.mp inLeft)
  obtain ⟨other, listed, rfl⟩ := mem_map.mp (perm.mem_iff.mp inRight)
  obtain ⟨positive, bound⟩ := cut.entry_fits loadable member
  obtain ⟨otherPositive, -⟩ := cut.entry_fits loadable listed
  have separate := both.2 other.entry.range.base
  simp only [RangeData.Covers] at separate
  rw [RangeDataArray.Apart, Range.rangeEnd]
  omega

end ProcessElfCore

end Lldb
