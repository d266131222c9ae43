import Lldb.Process.ElfCoreRanges

/-! When a read from a core file gives the memory that the segments describe. -/

set_option autoImplicit false

namespace Lldb

open ELFProgramHeader List Option

/-- What is delivered for a byte that is not read from the segment at `addr` or one joined to it: the file
from a place that wrapped around, and zeros behind the segment's part of the file. -/
def ELFProgramHeader.strayByte (header : ELFProgramHeader) (file : List UInt8) (addr index : Nat) : UInt8 :=
  if header.place addr < 2 ^ 64 then 0
  else if header.place addr % 2 ^ 64 + index < header.offset + header.filesz then
    file.getD (header.place addr % 2 ^ 64 + index) 0
  else 0

/-- Both are in one stretch of segments each of which continues the one in front of it. -/
def Joined (headers : List ELFProgramHeader) (first second : ELFProgramHeader) : Prop :=
  ∃ stretch, stretch <:+: headers ∧ stretch.IsChain Continues ∧ first ∈ stretch ∧ second ∈ stretch

/-- The read stays within segments that are joined, or what it finds behind them is what is delivered anyway. -/
def ReadsInside (file : List UInt8) (headers : List ELFProgramHeader) (addr size : Nat) : Prop :=
  ∀ header ∈ headers, header.Holds addr → ∀ index < size, ∃ other ∈ headers, other.Holds (addr + index) ∧
    (header.place addr < 2 ^ 64 ∧ Joined headers header other ∨
      other.byte file (addr + index) = header.strayByte file addr index)

/-- The bytes are those of the memory from `addr` on, and there are some if `addr` is in a segment. -/
structure Faithful (file : List UInt8) (headers : List ELFProgramHeader) (addr size : Nat) (bytes : List UInt8) :
    Prop where
  count : bytes.length ≤ size
  described : ∀ index byte, bytes[index]? = some byte →
    ∃ header ∈ headers, header.Holds (addr + index) ∧ byte = header.byte file (addr + index)
  progress : (∃ header ∈ headers, header.Holds addr) → 0 < size → 0 < bytes.length

namespace ProcessElfCore

/-- The byte at an index from a place on, for a range that ends in the file at `fileEnd`. -/
def delivered (file : List UInt8) (place fileEnd index : Nat) : UInt8 :=
  if place + index < fileEnd then file.getD (place + index) 0 else 0

theorem copied_padded (file : List UInt8) {place fileEnd size left : Nat} (inFile : fileEnd ≤ file.length)
    (bytesLeft : left = fileEnd - place) :
    (if (if size > left then left else size) ≠ 0 then copyData file place (if size > left then left else size)
      else []) ++ replicate (if size > left then size - left else 0) 0 =
      (List.range size).map (delivered file place fileEnd) := by
  have copied : (if (if size > left then left else size) ≠ 0 then
      copyData file place (if size > left then left else size) else []) = (file.drop place).take (min size left) := by
    have least : (if size > left then left else size) = min size left := by
      split_ifs <;> omega
    rw [least]
    by_cases none_ : min size left = 0
    · simp [none_]
    · rw [if_pos none_, copyData, if_pos (by omega)]
  have zeros : (if size > left then size - left else 0) = size - left := by
    split_ifs <;> omega
  rw [copied, zeros]
  apply ext_getElem?
  intro index
  have length : ((file.drop place).take (min size left)).length = min size left := by
    rw [length_take, length_drop]
    omega
  rw [getElem?_append, length, getElem?_map]
  split_ifs with inside
  · have small : index < size := by omega
    have here : place + index < fileEnd := by omega
    have bound : place + index < file.length := by omega
    rw [getElem?_take_of_lt inside, getElem?_drop, getElem?_range small, map_some, delivered,
      if_pos here, getD_eq_getElem?_getD, getElem?_eq_getElem bound]
    rfl
  · rw [getElem?_replicate]
    by_cases small : index < size
    · have behind : ¬ place + index < fileEnd := by omega
      rw [getElem?_range small, map_some, delivered, if_neg behind, if_pos (by omega)]
    · rw [getElem?_eq_none (by rw [length_range]; omega), if_neg (by omega)]
      rfl

variable {file : List UInt8} {headers : List ELFProgramHeader} {pieces : List Piece}

variable {core : ProcessElfCore} {piece : Piece} {addr index : Nat} {header other : ELFProgramHeader}

theorem doReadMemory_found (describes : piece.Describes)
    (fits : ∀ header ∈ piece.run, header.Fits file) (small : file.length < 2 ^ 64)
    (found : core.coreAranges.findEntryThatContains addr = some piece.entry)
    (member : header ∈ piece.run) (holds : header.Holds addr) (size : Nat) :
    (core.doReadMemory file addr size).bytes = (List.range size).map
        (delivered file (header.place addr % 2 ^ 64) (piece.last.offset + piece.last.filesz)) := by
  obtain ⟨memory, filled, within, inFile⟩ := fits _ piece.last_mem
  have contains := (RangeDataArray.findEntryThatContains_spec found).2
  simp only [Range.contains, Bool.and_eq_true, decide_eq_true_eq] at contains
  have aligned := describes.aligned _ piece.last_mem
  have base := describes.base _ piece.last_mem
  have fileEnd := describes.fileEnd
  have place : piece.entry.data.base + (addr - piece.entry.range.base) = header.place addr := by
    have aligned := describes.aligned _ member
    have first := holds.1
    rw [ELFProgramHeader.place]
    omega
  have end_ : piece.entry.data.rangeEnd = piece.last.offset + piece.last.filesz := by
    rw [Range.rangeEnd, fileEnd, Nat.mod_eq_of_lt (by omega)]
  have notEmpty : piece.entry.data.base ≠ piece.last.offset + piece.last.filesz := by
    omega
  rw [doReadMemory, found]
  dsimp only
  rw [if_neg (by omega), end_, if_neg notEmpty, place]
  refine copied_padded file inFile ?_
  split_ifs <;> omega

theorem joined_iff (loadable : Loadable file headers) (cut : CutInto headers pieces)
    (member : piece ∈ pieces) (inRun : header ∈ piece.run) (other : ELFProgramHeader) :
    Joined headers header other ↔ other ∈ piece.run := by
  constructor
  · rintro ⟨stretch, part, chain, first, second⟩
    cases stretch with
    | nil => cases first
    | cons head rest =>
      obtain ⟨joined, listed, all⟩ := cut.stretch_mem loadable part chain
      cases cut.eq_of_mem loadable member listed inRun (all header first)
      exact all other second
  · intro inPiece
    exact ⟨piece.run, cut.run_infix member, (cut.describes piece member).chain, inRun, inPiece⟩

/-- Where the place wraps around, the file is read from there. -/
theorem delivered_stray (describes : piece.Describes) (fits : ∀ header ∈ piece.run, header.Fits file)
    (small : file.length < 2 ^ 64) (member : header ∈ piece.run)
    (holds : header.Holds addr) (wraps : ¬ header.place addr < 2 ^ 64) (index : Nat) :
    delivered file (header.place addr % 2 ^ 64) (piece.last.offset + piece.last.filesz) index =
      header.strayByte file addr index := by
  obtain ⟨-, -, -, inFile⟩ := fits header member
  -- Only the last segment of a piece has memory behind its part of the file.
  have last : header = piece.last := by
    rcases mem_append.mp member with early | same
    · have full := (describes.full header early).1
      have ⟨first, below⟩ := holds
      rw [ELFProgramHeader.place] at wraps
      omega
    · exact mem_singleton.mp same
  rw [delivered, ELFProgramHeader.strayByte, if_neg wraps, last]

theorem delivered_inside (describes : piece.Describes) (fits : ∀ header ∈ piece.run, header.Fits file)
    (member : header ∈ piece.run) (holds : header.Holds addr)
    (straight : header.place addr < 2 ^ 64) (listed : other ∈ piece.run) (held : other.Holds (addr + index)) :
    delivered file (header.place addr % 2 ^ 64) (piece.last.offset + piece.last.filesz) index =
      other.byte file (addr + index) := by
  have aligned := describes.aligned header member
  have otherAligned := describes.aligned other listed
  have ⟨first, _⟩ := holds
  have ⟨otherFirst, otherBelow⟩ := held
  have place : header.place addr + index = other.place (addr + index) := by
    rw [ELFProgramHeader.place, ELFProgramHeader.place]
    omega
  rw [delivered, Nat.mod_eq_of_lt straight, place]
  refine if_congr ?_ rfl rfl
  rw [ELFProgramHeader.place]
  rcases mem_append.mp listed with early | same
  · have ⟨full, before⟩ := describes.full other early
    have lastAligned := describes.aligned _ piece.last_mem
    omega
  · cases mem_singleton.mp same
    omega

variable (loadable : Loadable file headers)
include loadable

theorem delivered_outside (cut : CutInto headers pieces) (inPieces : piece ∈ pieces) (member : header ∈ piece.run)
    (holds : header.Holds addr) (straight : header.place addr < 2 ^ 64) (listed : other ∈ headers)
    (outside : other ∉ piece.run) (held : other.Holds (addr + index)) :
    delivered file (header.place addr % 2 ^ 64) (piece.last.offset + piece.last.filesz) index =
      header.strayByte file addr index := by
  have describes := cut.describes piece inPieces
  obtain ⟨-, -, within, -⟩ := cut.fits loadable inPieces piece.last_mem
  have aligned := describes.aligned header member
  have lastAligned := describes.aligned _ piece.last_mem
  have base := describes.base header member
  have memoryEnd := describes.memoryEnd
  have ⟨first, _⟩ := holds
  have behind : piece.entry.range.base + piece.entry.range.size ≤ addr + index := by
    by_contra inside
    obtain ⟨same, inRun, covers⟩ := describes.covers (addr + index) (by omega) (by omega)
    have inHeaders := (cut.run_infix inPieces).subset inRun
    exact outside (loadable.eq_of_holds inHeaders listed covers held ▸ inRun)
  have notFile : ¬ header.place addr + index < piece.last.offset + piece.last.filesz := by
    rw [ELFProgramHeader.place]
    omega
  rw [delivered, Nat.mod_eq_of_lt straight, if_neg notFile, ELFProgramHeader.strayByte, if_pos straight]

theorem found_of_holds (cut : CutInto headers pieces) (perm : core.coreAranges.entries.Perm (pieces.map Piece.entry))
    (ordered : core.coreAranges.entries.Pairwise RangeDataArray.Apart) (inPieces : piece ∈ pieces)
    (member : header ∈ piece.run) (holds : header.Holds addr) :
    core.coreAranges.findEntryThatContains addr = some piece.entry := by
  refine RangeDataArray.findEntryThatContains_eq ordered (perm.mem_iff.mpr (mem_map_of_mem inPieces)) ?_
  have describes := cut.describes piece inPieces
  have base := describes.base header member
  have memoryEnd := describes.memoryEnd
  have ⟨_, bound⟩ := cut.entry_fits loadable inPieces
  have ⟨first, below⟩ := holds
  have inside : addr < piece.entry.range.base + piece.entry.range.size := by
    rcases mem_append.mp member with early | same
    · have := (describes.full header early).2
      omega
    · cases mem_singleton.mp same
      omega
  simp only [Range.contains, Range.rangeEnd, Nat.mod_eq_of_lt bound, Bool.and_eq_true, decide_eq_true_eq]
  omega

theorem not_found (cut : CutInto headers pieces) (perm : core.coreAranges.entries.Perm (pieces.map Piece.entry))
    (unmapped : ¬ ∃ header ∈ headers, header.Holds addr) : core.coreAranges.findEntryThatContains addr = none := by
  refine eq_none_iff_forall_ne_some.mpr fun entry found => unmapped ?_
  obtain ⟨member, contains⟩ := RangeDataArray.findEntryThatContains_spec found
  obtain ⟨piece, inPieces, rfl⟩ := mem_map.mp (perm.mem_iff.mp member)
  have ⟨_, bound⟩ := cut.entry_fits loadable inPieces
  simp only [Range.contains, Range.rangeEnd, Nat.mod_eq_of_lt bound, Bool.and_eq_true, decide_eq_true_eq] at contains
  obtain ⟨header, inRun, holds⟩ := (cut.describes piece inPieces).covers addr contains.1 contains.2
  exact ⟨header, (cut.run_infix inPieces).subset inRun, holds⟩

theorem delivered_eq_iff (cut : CutInto headers pieces) (inPieces : piece ∈ pieces) (member : header ∈ piece.run)
    (listed : other ∈ headers) (holds : header.Holds addr) (held : other.Holds (addr + index)) :
    delivered file (header.place addr % 2 ^ 64) (piece.last.offset + piece.last.filesz) index =
        other.byte file (addr + index) ↔
      header.place addr < 2 ^ 64 ∧ Joined headers header other ∨
        other.byte file (addr + index) = header.strayByte file addr index := by
  have describes := cut.describes piece inPieces
  have fits : ∀ header ∈ piece.run, header.Fits file := fun _ inRun => cut.fits loadable inPieces inRun
  rw [joined_iff loadable cut inPieces member]
  by_cases straight : header.place addr < 2 ^ 64
  · by_cases inRun : other ∈ piece.run
    · exact iff_of_true (delivered_inside describes fits member holds straight inRun held) (.inl ⟨straight, inRun⟩)
    · rw [delivered_outside loadable cut inPieces member holds straight listed inRun held, eq_comm]
      exact (or_iff_right fun both => inRun both.2).symm
  · rw [delivered_stray describes fits loadable.small member holds straight, eq_comm]
    exact (or_iff_right fun both => straight both.1).symm

end ProcessElfCore

open ProcessElfCore

theorem core_read_faithful_iff (file : List UInt8) (headers : List ELFProgramHeader)
    (loadable : Loadable file (loadHeaders headers)) (addr size : Nat) :
    Faithful file (loadHeaders headers) addr size ((loadSegments headers).doReadMemory file addr size).bytes ↔
      ReadsInside file (loadHeaders headers) addr size := by
  obtain ⟨pieces, cut, perm, ordered⟩ := loadSegments_pieces loadable
  by_cases mapped : ∃ header ∈ loadHeaders headers, header.Holds addr
  · obtain ⟨header, listed, holds⟩ := mapped
    obtain ⟨piece, inPieces, member⟩ := mem_flatMap.mp (cut.flatten ▸ listed)
    have found := found_of_holds loadable cut perm ordered inPieces member holds
    have bytes := doReadMemory_found (cut.describes piece inPieces) (fun _ inRun => cut.fits loadable inPieces inRun)
      loadable.small found member holds size
    have byteAt {index : Nat} (small : index < size) :
        ((loadSegments headers).doReadMemory file addr size).bytes[index]? = some
          (delivered file (header.place addr % 2 ^ 64) (piece.last.offset + piece.last.filesz) index) := by
      simp [bytes, getElem?_range small]
    have length : ((loadSegments headers).doReadMemory file addr size).bytes.length = size := by
      simp [bytes]
    constructor
    · intro faithful first inHeaders also index small
      cases loadable.eq_of_holds listed inHeaders holds also
      obtain ⟨other, otherListed, held, same⟩ := faithful.described index _ (byteAt small)
      exact ⟨other, otherListed, held, (delivered_eq_iff loadable cut inPieces member otherListed holds held).mp same⟩
    · intro inside
      refine ⟨le_of_eq length, fun index byte read => ?_, fun _ positive => length.symm ▸ positive⟩
      have small : index < size := length ▸ (List.getElem?_eq_some_iff.mp read).1
      obtain ⟨other, otherListed, held, same⟩ := inside header listed holds index small
      rw [byteAt small] at read
      cases read
      exact ⟨other, otherListed, held, (delivered_eq_iff loadable cut inPieces member otherListed holds held).mpr same⟩
  · have none_ : ((loadSegments headers).doReadMemory file addr size).bytes = [] := by
      rw [doReadMemory, not_found loadable cut perm mapped]
    rw [none_]
    refine iff_of_true ⟨Nat.zero_le _, fun index byte read => ?_, fun there => absurd there mapped⟩ ?_
    · cases read
    · intro header inHeaders holds
      exact absurd ⟨header, inHeaders, holds⟩ mapped

/-- Two segments that touch in memory but not in the file, read within the first one. -/
theorem core_read_faithful_iff_within :
    Faithful [1, 2, 3, 4] (loadHeaders [⟨1, 4, 0, 16, 2, 2⟩, ⟨1, 4, 3, 18, 1, 4⟩]) 16 2
        ((loadSegments [⟨1, 4, 0, 16, 2, 2⟩, ⟨1, 4, 3, 18, 1, 4⟩]).doReadMemory [1, 2, 3, 4] 16 2).bytes ↔
      ReadsInside [1, 2, 3, 4] (loadHeaders [⟨1, 4, 0, 16, 2, 2⟩, ⟨1, 4, 3, 18, 1, 4⟩]) 16 2 := by
  have both : loadHeaders [⟨1, 4, 0, 16, 2, 2⟩, ⟨1, 4, 3, 18, 1, 4⟩] = [⟨1, 4, 0, 16, 2, 2⟩, ⟨1, 4, 3, 18, 1, 4⟩] := rfl
  refine core_read_faithful_iff _ _ ⟨?_, ?_, by decide⟩ 16 2 <;> rw [both]
  · refine pairwise_pair.mpr fun address holds held => ?_
    have := holds.2
    have := held.1
    dsimp only at *
    omega
  · rw [forall_mem_cons, forall_mem_singleton]
    exact ⟨⟨by decide, by decide, by decide, by decide⟩, ⟨by decide, by decide, by decide, by decide⟩⟩

/-- A read over the end of the only segment gives a byte of memory that no segment has. -/
theorem read_over_end_not_faithful : Loadable [7] (loadHeaders [⟨1, 4, 0, 16, 1, 1⟩]) ∧
      ¬ Faithful [7] (loadHeaders [⟨1, 4, 0, 16, 1, 1⟩]) 16 2
        ((loadSegments [⟨1, 4, 0, 16, 1, 1⟩]).doReadMemory [7] 16 2).bytes := by
  have only : loadHeaders [⟨1, 4, 0, 16, 1, 1⟩] = [⟨1, 4, 0, 16, 1, 1⟩] := rfl
  rw [only]
  refine ⟨⟨pairwise_singleton _ _, ?_, by decide⟩, fun faithful => ?_⟩
  · rw [forall_mem_singleton]
    exact ⟨by decide, by decide, by decide, by decide⟩
  · have read : ((loadSegments [⟨1, 4, 0, 16, 1, 1⟩]).doReadMemory [7] 16 2).bytes = [7, 0] := by decide
    obtain ⟨header, member, holds, -⟩ := faithful.described 1 0 (by rw [read]; rfl)
    cases mem_singleton.mp member
    exact absurd holds.2 (by decide)

end Lldb
