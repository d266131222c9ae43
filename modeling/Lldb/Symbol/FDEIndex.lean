import Lldb.Symbol.DWARFCallFrameInfo
import Lldb.Utility.CursorMoves

/-! `GetFDEIndex`: the scan of a section for its CIEs and FDEs. -/

set_option autoImplicit false

namespace Lldb

namespace DWARFCallFrameInfo

structure FDEEntry where
  base : Nat
  size : Nat
  data : Nat
  deriving DecidableEq, Repr

/-- What the scan keeps: the CIEs in the map and the index, which is sorted in the end. -/
structure Scan where
  cieMap : List Nat
  fdeIndex : List FDEEntry
  deriving DecidableEq, Repr

/-- How an entry begins: its length, the size of its length field and its identifier. -/
structure EntryHeader where
  len : Nat
  lengthSize : Nat
  cieId : Nat
  deriving DecidableEq, Repr

def readEntryHeader (data : DataExtractor) : Cursor EntryHeader := do
  let len ← data.getU32
  if len = 2 ^ 32 - 1 then
    let len ← data.getU64
    let cieId ← data.getU64
    return ⟨uint32 len, 12, uint32 cieId⟩
  else
    let cieId ← data.getU32
    return ⟨len, 4, cieId⟩

namespace EntryHeader

def nextEntry (header : EntryHeader) (currentEntry : Nat) :
    Nat := uint32 (currentEntry + header.len + header.lengthSize)

def IsCIE (header : EntryHeader) (type : SectionType) : Prop :=
  header.cieId = 0 ∧ type = .eh ∨ header.cieId = 2 ^ 32 - 1 ∨ header.len = 0

instance (header : EntryHeader) (type : SectionType) : Decidable (header.IsCIE type) :=
  inferInstanceAs (Decidable (_ ∨ _))

def cieOffset (header : EntryHeader) (type : SectionType) (currentEntry : Nat) : Nat :=
  match type with
  | .dwarf => header.cieId
  | .eh => uint32 (currentEntry + header.lengthSize + 2 ^ 32 - header.cieId)

end EntryHeader

def readFDERange (info : DWARFCallFrameInfo) (clearAddressZerothBit : Bool) (cie : CIE) : Cursor (Nat × Nat) := do
  let addr ← getGNUEHPointer info.cfiData cie.ptrEncoding info.sectionFileAddress CallFrame.invalidAddress
    CallFrame.invalidAddress
  let addr := if clearAddressZerothBit then addr &&& (2 ^ 64 - 2) else addr
  let length ← getGNUEHPointer info.cfiData (cie.ptrEncoding &&& 0x0f) info.sectionFileAddress CallFrame.invalidAddress
    CallFrame.invalidAddress
  return (addr, length)

/-- One turn of the loop of `GetFDEIndex`; `none` inside is a return with the index cleared. -/
def scanEntry (info : DWARFCallFrameInfo) (clearAddressZerothBit : Bool) (scan : Scan) : Cursor (Option Scan) := do
  let currentEntry := uint32 (← get)
  let header ← readEntryHeader info.cfiData
  if info.cfiData.bytes.length + 1 < header.nextEntry currentEntry then return none
  if header.IsCIE info.type then
    match ← StateT.lift (info.parseCIE currentEntry) with
    | none => return none
    | some _ =>
      set (header.nextEntry currentEntry)
      return some { scan with cieMap := currentEntry :: scan.cieMap }
  else
    if info.cfiData.bytes.length < header.cieOffset info.type currentEntry then return none
    match ← StateT.lift (getCIE { info with cieMap := scan.cieMap } (header.cieOffset info.type currentEntry)) with
    | none =>
      set (header.nextEntry currentEntry)
      return some scan
    | some cie =>
      let (addr, length) ← readFDERange info clearAddressZerothBit cie
      set (header.nextEntry currentEntry)
      return some { scan with fdeIndex := scan.fdeIndex ++ [⟨addr, uint32 length, currentEntry⟩] }

/-- The loop of `GetFDEIndex`, from an offset on; it has no end where it runs out of fuel. -/
def scanEntries (info : DWARFCallFrameInfo) (clearAddressZerothBit : Bool) : Nat → Scan → Nat → Option (List FDEEntry)
  | 0, _, _ => none
  | fuel + 1, scan, offset =>
    if info.cfiData.validOffsetForDataOfSize offset 8 then do
      match ← scanEntry info clearAddressZerothBit scan offset with
      | (none, _) => return []
      | (some scan, next) => scanEntries info clearAddressZerothBit fuel scan next
    else some scan.fdeIndex

def scanOffsets (info : DWARFCallFrameInfo) (clearAddressZerothBit : Bool) : Nat → Scan → Nat → Option (List Nat)
  | 0, _, _ => none
  | fuel + 1, scan, offset =>
    if info.cfiData.validOffsetForDataOfSize offset 8 then do
      match ← scanEntry info clearAddressZerothBit scan offset with
      | (none, _) => return [offset]
      | (some scan, next) => return offset :: (← scanOffsets info clearAddressZerothBit fuel scan next)
    else some [offset]

end DWARFCallFrameInfo

/-! When the scan for CIEs and FDEs comes to an end. -/

namespace DWARFCallFrameInfo

open DataExtractor Option List

variable {info : DWARFCallFrameInfo} {clearAddressZerothBit : Bool} {scan : Scan} {offset : Nat}

/-! One turn. -/

variable {header : EntryHeader} {next : Nat}

theorem scanEntry_eq (small : offset < 2 ^ 32) (read : readEntryHeader info.cfiData offset = some (header, next)) :
    scanEntry info clearAddressZerothBit scan offset =
      if info.cfiData.bytes.length + 1 < header.nextEntry offset then some (none, next)
      else if header.IsCIE info.type then
        (info.parseCIE offset).map fun cie =>
          match cie with
          | none => (none, next)
          | some _ => (some { scan with cieMap := offset :: scan.cieMap }, header.nextEntry offset)
      else if info.cfiData.bytes.length < header.cieOffset info.type offset then some (none, next)
      else
        (getCIE { info with cieMap := scan.cieMap } (header.cieOffset info.type offset)).bind fun cie =>
          match cie with
          | none => some (some scan, header.nextEntry offset)
          | some cie => (readFDERange info clearAddressZerothBit cie next).map fun read =>
            (some { scan with fdeIndex := scan.fdeIndex ++ [⟨read.1.1, uint32 read.1.2, offset⟩] },
              header.nextEntry offset) := by
  have current : uint32 offset = offset := Nat.mod_eq_of_lt small
  change (readEntryHeader info.cfiData offset).bind _ = _
  rw [read, bind_some, current]
  dsimp only
  split
  · rfl
  · split
    · cases info.parseCIE offset with
      | none => rfl
      | some cie => cases cie <;> rfl
    · split
      · rfl
      · cases getCIE { info with cieMap := scan.cieMap } (header.cieOffset info.type offset) with
        | none => rfl
        | some cie =>
          cases cie with
          | none => rfl
          | some cie =>
            change (readFDERange info clearAddressZerothBit cie next).bind _ =
              (readFDERange info clearAddressZerothBit cie next).map _
            cases readFDERange info clearAddressZerothBit cie next <;> rfl

theorem exists_header (data : DataExtractor) (offset : Nat) :
    ∃ header next, readEntryHeader data offset = some (header, next) := by
  obtain ⟨len, start, first⟩ := exists_getMaxU64 data 4 offset
  change ∃ header next, (data.getMaxU64 4 offset).bind _ = some (header, next)
  rw [first, bind_some]
  dsimp only
  split
  · obtain ⟨long, start', second⟩ := exists_getMaxU64 data 8 start
    obtain ⟨cieId, start'', third⟩ := exists_getMaxU64 data 8 start'
    refine ⟨⟨uint32 long, 12, uint32 cieId⟩, start'', ?_⟩
    change (data.getMaxU64 8 start).bind _ = _
    rw [second]
    change (data.getMaxU64 8 start').bind _ = _
    rw [third]
    rfl
  · obtain ⟨cieId, start', second⟩ := exists_getMaxU64 data 4 start
    refine ⟨⟨len, 4, cieId⟩, start', ?_⟩
    change (data.getMaxU64 4 start).bind _ = _
    rw [second]
    rfl

/-- The length of an entry, with that of its length field in 32 bits, leads ahead within 32 bits. -/
def EntryHeader.Advances (header : EntryHeader) (offset : Nat) : Prop :=
  0 < uint32 (header.len + header.lengthSize) ∧ offset + uint32 (header.len + header.lengthSize) < 2 ^ 32

theorem EntryHeader.lt_nextEntry_iff (small : offset < 2 ^ 32) :
    offset < header.nextEntry offset ↔ header.Advances offset := by
  unfold nextEntry Advances uint32
  omega

/-- The scan is given up at the entry: the CIE is of a kind that is not known, or that of the FDE would be behind the
section.
-/
def Rejected (info : DWARFCallFrameInfo) (header : EntryHeader) (offset : Nat) : Prop :=
  if header.IsCIE info.type then info.parseCIE offset = some none
  else info.cfiData.bytes.length < header.cieOffset info.type offset

/-- A CIE is parsed to its end, and so is the range of an FDE, with nothing undefined. -/
def Readable (info : DWARFCallFrameInfo) (clearAddressZerothBit : Bool) (scan : Scan) (header : EntryHeader)
    (offset next : Nat) : Prop :=
  header.nextEntry offset ≤ info.cfiData.bytes.length + 1 → if header.IsCIE info.type then info.parseCIE offset ≠ none
    else header.cieOffset info.type offset ≤ info.cfiData.bytes.length →
      ∃ cie, getCIE { info with cieMap := scan.cieMap } (header.cieOffset info.type offset) = some cie ∧
        ∀ known ∈ cie, readFDERange info clearAddressZerothBit known next ≠ none

theorem scanEntry_ne_none (small : offset < 2 ^ 32) (read : readEntryHeader info.cfiData offset = some (header, next)) :
    scanEntry info clearAddressZerothBit scan offset ≠ none ↔
      Readable info clearAddressZerothBit scan header offset next := by
  rw [scanEntry_eq small read, Readable]
  split
  · exact iff_of_true (some_ne_none _) fun inside => by omega
  · rename_i inside
    rw [imp_iff_right (Nat.le_of_not_lt inside)]
    split
    · simp
    · split
      · exact iff_of_true (some_ne_none _) fun inside => by omega
      · rename_i near
        rw [imp_iff_right (Nat.le_of_not_lt near)]
        cases getCIE { info with cieMap := scan.cieMap } (header.cieOffset info.type offset) with
        | none => exact iff_of_false (fun some_ => some_ rfl) nofun
        | some cie =>
          cases cie with
          | none => exact iff_of_true (some_ne_none _) ⟨none, rfl, nofun⟩
          | some cie =>
            rw [bind_some, Ne, map_eq_none_iff]
            exact ⟨fun readable => ⟨some cie, rfl, fun known is => Option.some.inj is ▸ readable⟩,
              fun ⟨_, is, readable⟩ => readable cie (Option.some.inj is ▸ rfl)⟩

theorem scanEntry_goesOn (small : offset < 2 ^ 32) {after : Nat} {scan' : Scan}
    (read : readEntryHeader info.cfiData offset = some (header, next))
    (turn : scanEntry info clearAddressZerothBit scan offset = some (some scan', after)) :
    after = header.nextEntry offset ∧ after ≤ info.cfiData.bytes.length + 1 ∧ ¬ Rejected info header offset := by
  rw [scanEntry_eq small read] at turn
  unfold Rejected
  split at turn
  · cases turn
  · rename_i inside
    split at turn
    · rename_i isCIE
      rw [if_pos isCIE]
      obtain ⟨cie, parsed, is⟩ := map_eq_some_iff.mp turn
      cases cie with
      | none => cases is
      | some cie =>
        cases is
        exact ⟨rfl, Nat.le_of_not_lt inside, fun rejected => by rw [parsed] at rejected; cases rejected⟩
    · rename_i isFDE
      rw [if_neg isFDE]
      split at turn
      · cases turn
      · rename_i near
        refine ⟨?_, ?_, near⟩ <;>
        · obtain ⟨cie, -, is⟩ := bind_eq_some_iff.mp turn
          cases cie with
          | none =>
            cases is
            first | rfl | exact Nat.le_of_not_lt inside
          | some cie =>
            obtain ⟨read, -, is⟩ := map_eq_some_iff.mp is
            cases is
            first | rfl | exact Nat.le_of_not_lt inside

theorem scanEntry_givesUp (small : offset < 2 ^ 32) {after : Nat}
    (read : readEntryHeader info.cfiData offset = some (header, next))
    (turn : scanEntry info clearAddressZerothBit scan offset = some (none, after)) :
    info.cfiData.bytes.length + 1 < header.nextEntry offset ∨ Rejected info header offset := by
  rw [scanEntry_eq small read] at turn
  unfold Rejected
  split at turn
  · rename_i outside
    exact .inl outside
  · split at turn
    · rename_i isCIE
      rw [if_pos isCIE]
      obtain ⟨cie, parsed, is⟩ := map_eq_some_iff.mp turn
      cases cie with
      | none => exact .inr parsed
      | some cie => cases is
    · rename_i isFDE
      rw [if_neg isFDE]
      split at turn
      · rename_i far
        exact .inr far
      · obtain ⟨cie, -, is⟩ := bind_eq_some_iff.mp turn
        cases cie with
        | none => cases is
        | some cie =>
          obtain ⟨read, -, is⟩ := map_eq_some_iff.mp is
          cases is

/-! The whole scan. -/

inductive Reaches (info : DWARFCallFrameInfo) (clearAddressZerothBit : Bool) : Scan → Nat → Prop where
  | start : Reaches info clearAddressZerothBit ⟨[], []⟩ 0
  | next {scan scan' : Scan} {offset after : Nat} : Reaches info clearAddressZerothBit scan offset →
      info.cfiData.validOffsetForDataOfSize offset 8 = true →
      scanEntry info clearAddressZerothBit scan offset = some (some scan', after) →
        Reaches info clearAddressZerothBit scan' after

/-- An entry that the scan comes to can be read, and it leads ahead or is rejected. -/
def Passable (info : DWARFCallFrameInfo) (clearAddressZerothBit : Bool) (scan : Scan) (offset : Nat) : Prop :=
  ∀ header next, readEntryHeader info.cfiData offset = some (header, next) →
    Readable info clearAddressZerothBit scan header offset next ∧ (header.Advances offset ∨ Rejected info header offset)

theorem scanOffsets_turn (fuel : Nat) : scanOffsets info clearAddressZerothBit (fuel + 1) scan offset =
      if info.cfiData.validOffsetForDataOfSize offset 8 then
        (scanEntry info clearAddressZerothBit scan offset).bind fun turn =>
          match turn.1 with
          | none => some [offset]
          | some scan => (scanOffsets info clearAddressZerothBit fuel scan turn.2).map (offset :: ·)
      else some [offset] := by
  rw [scanOffsets]
  split
  · refine bind_congr fun turn _ => ?_
    obtain ⟨scan, after⟩ := turn
    cases scan with
    | none => rfl
    | some scan =>
      simp only
      cases scanOffsets info clearAddressZerothBit fuel scan after <;> rfl
  · rfl

theorem scanOffsets_head {fuel : Nat} {offsets : List Nat}
    (is : scanOffsets info clearAddressZerothBit fuel scan offset = some offsets) : ∃ rest, offsets =
      offset :: rest := by
  cases fuel with
  | zero => cases is
  | succ fuel =>
    rw [scanOffsets_turn] at is
    split at is
    · obtain ⟨turn, -, is⟩ := bind_eq_some_iff.mp is
      split at is
      · cases is
        exact ⟨[], rfl⟩
      · obtain ⟨rest, -, rfl⟩ := map_eq_some_iff.mp is
        exact ⟨rest, rfl⟩
    · cases is
      exact ⟨[], rfl⟩

theorem Reaches.small (short : info.cfiData.bytes.length < 2 ^ 32)
    (valid : info.cfiData.validOffsetForDataOfSize offset 8 = true) :
    offset < 2 ^ 32 := by
  have room := of_decide_eq_true valid
  omega

theorem Reaches.ends (short : info.cfiData.bytes.length < 2 ^ 32)
    (passable : ∀ scan offset, Reaches info clearAddressZerothBit scan offset →
      info.cfiData.validOffsetForDataOfSize offset 8 = true → Passable info clearAddressZerothBit scan offset)
    (reaches : Reaches info clearAddressZerothBit scan offset) {fuel : Nat}
      (enough : info.cfiData.bytes.length ≤ offset + fuel) :
    ∃ offsets, scanOffsets info clearAddressZerothBit (fuel + 1) scan offset = some offsets ∧
      offsets.IsChain (· < ·) := by
  induction fuel generalizing scan offset with
  | zero =>
    rw [scanOffsets_turn, if_neg]
    · exact ⟨_, rfl, isChain_singleton _⟩
    · intro valid
      have room := of_decide_eq_true valid
      omega
  | succ fuel ih =>
    rw [scanOffsets_turn]
    split
    · rename_i valid
      have small := Reaches.small short valid
      obtain ⟨header, next, read⟩ := exists_header info.cfiData offset
      obtain ⟨readable, leads⟩ := passable scan offset reaches valid header next read
      obtain ⟨⟨goesOn, after⟩, turn⟩ := ne_none_iff_exists'.mp ((scanEntry_ne_none small read).mpr readable)
      rw [turn, bind_some]
      cases goesOn with
      | none => exact ⟨_, rfl, isChain_singleton _⟩
      | some scan' =>
        obtain ⟨is, -, kept⟩ := scanEntry_goesOn small read turn
        have ahead := (header.lt_nextEntry_iff small).mpr (leads.resolve_right kept)
        rw [← is] at ahead
        obtain ⟨offsets, found, rises⟩ := ih (reaches.next valid turn) (by omega)
        obtain ⟨rest, rfl⟩ := scanOffsets_head found
        dsimp only
        rw [found]
        exact ⟨_, rfl, isChain_cons_cons.mpr ⟨ahead, rises⟩⟩
    · exact ⟨_, rfl, isChain_singleton _⟩

theorem Reaches.offsets {fuel : Nat} {offsets : List Nat}
    (found : scanOffsets info clearAddressZerothBit fuel ⟨[], []⟩ 0 = some offsets)
    (rises : offsets.IsChain (· < ·)) (reaches : Reaches info clearAddressZerothBit scan offset) :
    ∃ fuel offsets, scanOffsets info clearAddressZerothBit fuel scan offset = some offsets ∧
      offsets.IsChain (· < ·) := by
  induction reaches with
  | start => exact ⟨fuel, offsets, found, rises⟩
  | next before valid turn ih =>
    obtain ⟨fuel, offsets, found, rises⟩ := ih
    cases fuel with
    | zero => cases found
    | succ fuel =>
      rw [scanOffsets_turn, if_pos valid, turn] at found
      obtain ⟨rest, goesOn, rfl⟩ := map_eq_some_iff.mp found
      exact ⟨fuel, rest, goesOn, rises.tail⟩

/-- The loop of `GetFDEIndex` ends where its offsets do. -/
theorem scanEntries_isSome (fuel : Nat) (scan : Scan) (offset : Nat) :
    (scanEntries info clearAddressZerothBit fuel scan offset).isSome =
      (scanOffsets info clearAddressZerothBit fuel scan offset).isSome := by
  induction fuel generalizing scan offset with
  | zero => rfl
  | succ fuel ih =>
    rw [scanOffsets_turn, scanEntries]
    split
    · change (Option.bind (scanEntry info clearAddressZerothBit scan offset) _).isSome = _
      cases scanEntry info clearAddressZerothBit scan offset with
      | none => rfl
      | some turn =>
        obtain ⟨goesOn, after⟩ := turn
        cases goesOn with
        | none => rfl
        | some scan' =>
          rw [bind_some, bind_some]
          rw [isSome_map]
          exact ih scan' after
    · rfl

/-- The scan of a section ends, further ahead with each turn, if each entry that it comes to can be
read and leads ahead or is rejected. -/
theorem scan_ends_iff (info : DWARFCallFrameInfo) (clearAddressZerothBit : Bool)
    (short : info.cfiData.bytes.length < 2 ^ 32) :
    (∃ fuel offsets, scanOffsets info clearAddressZerothBit fuel ⟨[], []⟩ 0 = some offsets ∧ offsets.IsChain (· < ·)) ↔
      ∀ scan offset, Reaches info clearAddressZerothBit scan offset →
        info.cfiData.validOffsetForDataOfSize offset 8 = true → Passable info clearAddressZerothBit scan offset := by
  constructor
  · rintro ⟨fuel, offsets, found, rises⟩ scan offset reaches valid header next read
    have small := Reaches.small short valid
    obtain ⟨fuel, offsets, found, rises⟩ := reaches.offsets found rises
    cases fuel with
    | zero => cases found
    | succ fuel =>
      rw [scanOffsets_turn, if_pos valid] at found
      obtain ⟨⟨goesOn, after⟩, turn, found⟩ := bind_eq_some_iff.mp found
      have readable := (scanEntry_ne_none small read).mp (by rw [turn]; exact some_ne_none _)
      refine ⟨readable, ?_⟩
      cases goesOn with
      | none =>
        refine (scanEntry_givesUp small read turn).imp_left fun outside => (header.lt_nextEntry_iff small).mp ?_
        have room := of_decide_eq_true valid
        omega
      | some scan' =>
        obtain ⟨is, -, -⟩ := scanEntry_goesOn small read turn
        obtain ⟨rest, goesOn, rfl⟩ := map_eq_some_iff.mp found
        obtain ⟨rest, rfl⟩ := scanOffsets_head goesOn
        have ahead : offset < after := (isChain_cons_cons.mp rises).1
        rw [is] at ahead
        exact .inl ((header.lt_nextEntry_iff small).mp ahead)
  · intro passable
    obtain ⟨offsets, found, rises⟩ := Reaches.start.ends short passable (Nat.le_add_left _ 0)
    exact ⟨_, offsets, found, rises⟩

def terminated : DWARFCallFrameInfo := ⟨⟨[0, 0, 0, 0, 0, 0, 0, 0], .little, 8⟩, .eh, 0, []⟩

theorem scan_ends_iff_terminated :
    (∃ fuel offsets, scanOffsets terminated false fuel ⟨[], []⟩ 0 = some offsets ∧ offsets.IsChain (· < ·)) ↔
      ∀ scan offset, Reaches terminated false scan offset →
        terminated.cfiData.validOffsetForDataOfSize offset 8 = true → Passable terminated false scan offset :=
  scan_ends_iff terminated false (by decide)

/-- Behind the end of the data nothing but DW_CFA_nop is read, without an end. -/
theorem initialInstructions_endless {data : DataExtractor} {endOffset : Nat} (behind : data.bytes.length ≤ offset)
    (inside : offset < endOffset) (dataAlign : Int) (fuel : Nat) (row : Row) :
    initialInstructions data endOffset dataAlign fuel row offset = none := by
  induction fuel with
  | zero => rfl
  | succ fuel ih =>
    rw [initialInstructions]
    beta_reduce
    rw [if_pos inside]
    change (data.getU8 offset).bind _ = none
    rw [getU8_behind behind]
    exact ih

def wrapping : DWARFCallFrameInfo := ⟨⟨[0xfc, 0xff, 0xff, 0xff, 4, 0, 0, 0], .little, 8⟩, .eh, 0, []⟩

def overlong : DWARFCallFrameInfo := ⟨⟨[10, 0, 0, 0, 0, 0, 0, 0, 1, 0, 1, 1, 1], .little, 8⟩, .eh, 0, []⟩

/-- The first section is scanned at the same place for ever, and the second one's CIE is parsed for ever. -/
theorem scan_endless : (∀ fuel, scanOffsets wrapping false fuel ⟨[], []⟩ 0 = none) ∧
    (parseCIEHeader overlong 0 0).map (fun parsed => (parsed.1.2, parsed.2)) = some (14, 13) ∧
    ∀ dataAlign fuel row, initialInstructions overlong.cfiData 14 dataAlign fuel row 13 = none := by
  refine ⟨fun fuel => ?_, by decide, fun dataAlign => initialInstructions_endless (by decide) (by decide) dataAlign⟩
  induction fuel with
  | zero => rfl
  | succ fuel ih =>
    have turn : scanEntry wrapping false ⟨[], []⟩ 0 = some (some ⟨[], []⟩, 0) := by decide
    rw [scanOffsets_turn, turn, bind_some]
    dsimp only
    rw [ih]
    rfl

end DWARFCallFrameInfo

end Lldb
