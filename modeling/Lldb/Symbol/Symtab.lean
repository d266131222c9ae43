import Lldb.Core.NearestRange
import Lldb.Target.SectionLoadList

/-! `Symtab`: symbols, and the index of the file addresses that they have. -/

set_option autoImplicit false

namespace Lldb

open List

/-- The address of a symbol, with the file address of its section if it is in one. -/
structure SymbolAddress where
  sectionFileAddress : Option Nat
  offset : Nat
  deriving DecidableEq, Repr

namespace SymbolAddress

def getFileAddress (address : SymbolAddress) : Nat :=
  match address.sectionFileAddress with
  | some sectFileAddr =>
    if sectFileAddr = invalidAddress then invalidAddress else (sectFileAddr + address.offset) % 2 ^ 64
  | none => address.offset

end SymbolAddress

structure Symbol where
  address : SymbolAddress
  byteSize : Nat
  sizeIsValid : Bool
  sizeIsSynthesized : Bool
  deriving DecidableEq, Repr

namespace Symbol

variable (symbol : Symbol)

def valueIsAddress : Bool := symbol.address.sectionFileAddress.isSome

def fileAddress : Nat := symbol.address.getFileAddress

def setByteSize (size : Nat) : Symbol := { symbol with byteSize := size, sizeIsValid := 0 < size }

def setSizeIsSynthesized (synthesized : Bool) : Symbol :=
  { symbol with sizeIsSynthesized := synthesized }

/-- `AddressRange::ContainsFileAddress`. -/
def containsFileAddress (fileAddr : Nat) : Bool :=
  fileAddr ≠ invalidAddress && symbol.fileAddress ≠ invalidAddress && symbol.fileAddress ≤ fileAddr &&
    fileAddr - symbol.fileAddress < symbol.byteSize

end Symbol

mutual

/-- The range of a section without children, or those of its children, which are in it by offset. -/
def Section.fileRanges (parent : Nat) : Section → List Range
  | .mk _ _ offset byteSize children =>
    if children.isEmpty then if 0 < byteSize then [⟨(parent + offset) % 2 ^ 64, byteSize⟩] else []
    else addSectionsToRangeMap ((parent + offset) % 2 ^ 64) children

def addSectionsToRangeMap (parent : Nat) : List Section → List Range
  | [] => []
  | sect :: rest => sect.fileRanges parent ++ addSectionsToRangeMap parent rest

end

structure Symtab where
  symbols : List Symbol
  fileAddrToIndex : RangeDataVector 64 Nat
  fileAddrToIndexComputed : Bool

namespace Symtab

def empty : Symtab := ⟨[], ⟨[]⟩, false⟩

def addSymbol (symtab : Symtab) (symbol : Symbol) : Nat × Symtab :=
  (symtab.symbols.length % 2 ^ 32, ⟨symtab.symbols ++ [symbol], ⟨[]⟩, false⟩)

def symbolAtIndex (symtab : Symtab) (index : Nat) : Option Symbol := symtab.symbols[index]?

def addressEntries (symbols : List Symbol) : List (RangeData Nat) :=
  symbols.zipIdx.filterMap fun (symbol, index) =>
    if symbol.valueIsAddress then some ⟨⟨symbol.fileAddress, symbol.byteSize⟩, index % 2 ^ 32⟩ else none

/-- The size of a symbol at a base: up to the end of the section, or up to the next base if that is nearer. -/
def sizeUpTo (sectionRanges : RangeVector 64) (base : Nat) (next : Option Nat) : Nat :=
  let symSize := match sectionRanges.findEntryThatContains base with
    | some containing => containing.size - (base - containing.base)
    | none => 0
  match next with
  | some nextBase => if symSize = 0 ∨ nextBase - base < symSize then nextBase - base else symSize
  | none => symSize

def fillSizes (sectionRanges : RangeVector 64) : List (RangeData Nat) → List Symbol → List (RangeData Nat) × List Symbol
  | [], symbols => ([], symbols)
  | entry :: rest, symbols =>
    let next := ((entry :: rest).find? fun next => entry.range.base < next.range.base).map (·.range.base)
    let symSize := if entry.range.size = 0 then sizeUpTo sectionRanges entry.range.base next else 0
    if 0 < symSize then
      let (filled, symbols) := fillSizes sectionRanges rest
        (symbols.modify entry.data fun symbol => (symbol.setByteSize symSize).setSizeIsSynthesized true)
      (⟨⟨entry.range.base, symSize⟩, entry.data⟩ :: filled, symbols)
    else
      let (filled, symbols) := fillSizes sectionRanges rest symbols
      (entry :: filled, symbols)

def sectionRanges (sections : Option (List Section)) : RangeVector 64 :=
  match sections with
  | some sectlist => RangeVector.sort ⟨addSectionsToRangeMap 0 sectlist⟩
  | none => ⟨[]⟩

def lessIndex (left right : Nat) : Bool := left < right

/-- `sections` is the section list of the object file, if it has one. -/
def initAddressIndexes (sections : Option (List Section)) (symtab : Symtab) : Symtab :=
  if symtab.fileAddrToIndexComputed || symtab.symbols.isEmpty then symtab
  else
    let appended : RangeDataVector 64 Nat := ⟨symtab.fileAddrToIndex.entries ++ addressEntries symtab.symbols⟩
    if 0 < appended.entries.length then
      let (filled, symbols) :=
        fillSizes (sectionRanges sections) (appended.sort lessIndex).entries symtab.symbols
      ⟨symbols, RangeDataVector.sort lessIndex ⟨filled⟩, true⟩
    else ⟨symtab.symbols, appended, true⟩

def indexed (sections : Option (List Section)) (symtab : Symtab) : Symtab :=
  if symtab.fileAddrToIndexComputed then symtab else symtab.initAddressIndexes sections

def findSymbolContainingFileAddress (sections : Option (List Section)) (symtab : Symtab) (fileAddr : Nat) :
    Option Nat × Symtab :=
  let symtab := symtab.indexed sections
  let found := (symtab.fileAddrToIndex.findEntryThatContains fileAddr).bind fun entry =>
    (symtab.symbolAtIndex entry.data).bind fun symbol =>
      if symbol.containsFileAddress fileAddr then some entry.data else none
  (found, symtab)

def findEntryIndexesThatContain (vector : RangeDataVector 64 Nat) (address : Nat) : Nat × List Nat :=
  let indexes := (vector.entries.filter (·.range.contains address)).map (·.data)
  (indexes.length % 2 ^ 32, indexes)

/-- The indexes of the symbols for which the callback is called, up to the first one where it returns false. -/
def visit (symtab : Symtab) (fileAddr : Nat) (callback : Nat → Bool) : List Nat → List Nat
  | [] => []
  | index :: rest =>
    match symtab.symbolAtIndex index with
    | some symbol =>
      if symbol.containsFileAddress fileAddr then
        if callback index then index :: visit symtab fileAddr callback rest else [index]
      else visit symtab fileAddr callback rest
    | none => []

def forEachSymbolContainingFileAddress (sections : Option (List Section)) (symtab : Symtab) (fileAddr : Nat)
    (callback : Nat → Bool) : List Nat × Symtab :=
  let symtab := symtab.indexed sections
  let (addrMatchCount, allAddrIndexes) := findEntryIndexesThatContain symtab.fileAddrToIndex fileAddr
  (visit symtab fileAddr callback (allAddrIndexes.take addrMatchCount), symtab)

end Symtab

/-! What `InitAddressIndexes` makes of the symbols of a table.

Every symbol with an address gets one entry, with its own size or with the one up to what follows; the entry and
the symbol agree.
-/

namespace Symtab

def nextBase (bases : List Nat) (base : Nat) : Option Nat := (bases.filter (base < ·)).min?

def filledSize (sectionRanges : RangeVector 64) (bases : List Nat) (range : Range) : Nat :=
  if range.size = 0 then sizeUpTo sectionRanges range.base (nextBase bases range.base) else range.size

def filledRange (sectionRanges : RangeVector 64) (bases : List Nat) (range : Range) : Range :=
  ⟨range.base, filledSize sectionRanges bases range⟩

def addressRanges (symbols : List Symbol) : List Range :=
  (symbols.filter (·.valueIsAddress)).map fun symbol => ⟨symbol.fileAddress, symbol.byteSize⟩

def symbolRanges (sections : Option (List Section)) (symbols : List Symbol) : List Range :=
  (addressRanges symbols).map (filledRange (sectionRanges sections) ((addressRanges symbols).map (·.base)))

variable {bases : List Nat} {rest : List (RangeData Nat)} {entry : RangeData Nat}

theorem nextBase_perm {others : List Nat} (perm : bases.Perm others) (base : Nat) :
    nextBase bases base = nextBase others base := by
  have all := perm.filter (base < ·)
  unfold nextBase
  ext next
  simp only [min?_eq_some_iff, all.mem_iff]

theorem filledRange_perm {sectionRanges : RangeVector 64} {others : List Nat} (perm : bases.Perm others) :
    filledRange sectionRanges bases = filledRange sectionRanges others := by
  funext range
  simp [filledRange, filledSize, nextBase_perm perm]

theorem find?_eq_nextBase {front : List (RangeData Nat)}
    (ascending : RangeDataVector.Ascending (front ++ entry :: rest)) :
    ((entry :: rest).find? fun next => entry.range.base < next.range.base).map (·.range.base) =
      nextBase ((front ++ entry :: rest).map (·.range.base)) entry.range.base := by
  obtain ⟨-, behind, before⟩ := pairwise_append.mp ascending
  have none_ : (front.map (·.range.base)).filter (entry.range.base < ·) = [] := by
    refine filter_eq_nil_iff.mpr (forall_mem_map.mpr fun other member => ?_)
    have below := before other member entry mem_cons_self
    simpa using below
  have sorted : (((entry :: rest).map (·.range.base)).filter (entry.range.base < ·)).Pairwise fun first second =>
      min first second = first := by
    refine List.Pairwise.filter _ (pairwise_map.mpr (behind.imp fun {first second} order => ?_))
    exact min_eq_left order
  rw [nextBase, map_append, filter_append, none_, nil_append, min?_eq_head? sorted, filter_map,
    head?_map, head?_filter]
  rfl

variable {sectionRanges : RangeVector 64}

def storeSize (entry : RangeData Nat) (size : Nat) (symbols : List Symbol) : List Symbol :=
  if entry.range.size = 0 ∧ 0 < size then
    symbols.modify entry.data fun symbol => (symbol.setByteSize size).setSizeIsSynthesized true
  else symbols

theorem fillSizes_cons {front : List (RangeData Nat)}
    (ascending : RangeDataVector.Ascending (front ++ entry :: rest)) (symbols : List Symbol)
    (all : bases = (front ++ entry :: rest).map (·.range.base)) :
    fillSizes sectionRanges (entry :: rest) symbols = (⟨filledRange sectionRanges bases entry.range, entry.data⟩ ::
        (fillSizes sectionRanges rest (storeSize entry (filledSize sectionRanges bases entry.range) symbols)).1,
        (fillSizes sectionRanges rest (storeSize entry (filledSize sectionRanges bases entry.range) symbols)).2) := by
  have next := (find?_eq_nextBase ascending).trans (congrArg (nextBase · _) all.symm)
  rw [fillSizes, next, filledRange, filledSize, storeSize]
  by_cases unsized : entry.range.size = 0
  · rw [if_pos unsized, if_pos unsized]
    by_cases sized : 0 < sizeUpTo sectionRanges entry.range.base (nextBase bases entry.range.base)
    · rw [if_pos sized, if_pos ⟨unsized, sized⟩]
    · have zero : sizeUpTo sectionRanges entry.range.base (nextBase bases entry.range.base) =
          entry.range.size := by omega
      rw [if_neg sized, if_neg fun both => sized both.2, zero]
  · rw [if_neg unsized, if_neg unsized, if_neg (lt_irrefl 0), if_neg fun both => unsized both.1]

theorem fillSizes_entries {front rest : List (RangeData Nat)}
    (ascending : RangeDataVector.Ascending (front ++ rest)) (symbols : List Symbol) {bases : List Nat}
    (all : bases = (front ++ rest).map (·.range.base)) :
    (fillSizes sectionRanges rest symbols).1 =
      rest.map fun entry => ⟨filledRange sectionRanges bases entry.range, entry.data⟩ := by
  induction rest generalizing front symbols with
  | nil => rfl
  | cons entry rest ih =>
    rw [fillSizes_cons ascending symbols all, map_cons]
    rw [append_cons] at ascending all
    rw [ih ascending _ all]

theorem fillSizes_unlisted (symbols : List Symbol) {index : Nat} (unlisted : ∀ entry ∈ rest, entry.data ≠ index) :
    (fillSizes sectionRanges rest symbols).2[index]? = symbols[index]? := by
  induction rest generalizing symbols with
  | nil => rfl
  | cons entry rest ih =>
    obtain ⟨other, unlisted⟩ := forall_mem_cons.mp unlisted
    rw [fillSizes]
    generalize (if entry.range.size = 0 then _ else 0) = symSize
    split_ifs
    · exact (ih _ unlisted).trans (getElem?_modify_ne _ _ other)
    · exact ih _ unlisted

def EntryOf (symbols : List Symbol) (entry : RangeData Nat) : Prop :=
  ∃ symbol, symbols[entry.data]? = some symbol ∧ symbol.fileAddress = entry.range.base ∧
    symbol.byteSize = entry.range.size

theorem fillSizes_entryOf {front rest : List (RangeData Nat)}
    (ascending : RangeDataVector.Ascending (front ++ rest)) {symbols : List Symbol} {bases : List Nat}
    (all : bases = (front ++ rest).map (·.range.base)) (once : (rest.map (·.data)).Nodup)
    (agree : ∀ entry ∈ rest, EntryOf symbols entry) :
    ∀ entry ∈ (fillSizes sectionRanges rest symbols).1, EntryOf (fillSizes sectionRanges rest symbols).2 entry := by
  induction rest generalizing front symbols with
  | nil => exact fun _ member => absurd member not_mem_nil
  | cons entry rest ih =>
    rw [fillSizes_cons ascending symbols all]
    rw [append_cons] at ascending all
    rw [map_cons, nodup_cons] at once
    obtain ⟨⟨symbol, listed, base, size⟩, others⟩ := forall_mem_cons.mp agree
    have unlisted (other) (member : other ∈ rest) : other.data ≠ entry.data :=
      fun same => once.1 (mem_map.mpr ⟨other, member, same⟩)
    refine forall_mem_cons.mpr ⟨?_, ih ascending all once.2 fun other member => ?_⟩
    · unfold EntryOf
      rw [fillSizes_unlisted _ unlisted, storeSize]
      split_ifs with stored
      · rw [getElem?_modify_eq, listed]
        exact ⟨_, rfl, base, rfl⟩
      · refine ⟨symbol, listed, base, ?_⟩
        rw [size, filledRange]
        unfold filledSize at stored ⊢
        dsimp only
        split_ifs at stored ⊢ with unsized
        · omega
        · rfl
    · obtain ⟨otherSymbol, otherListed, same⟩ := others other member
      refine ⟨otherSymbol, ?_, same⟩
      rw [storeSize]
      split_ifs
      · rw [getElem?_modify_ne _ _ (unlisted other member).symm, otherListed]
      · exact otherListed

/-! The entries before they are sorted. -/

def entriesFrom (first : Nat) (symbols : List Symbol) : List (RangeData Nat) :=
  (symbols.zipIdx first).filterMap fun (symbol, index) =>
    if symbol.valueIsAddress then some ⟨⟨symbol.fileAddress, symbol.byteSize⟩, index % 2 ^ 32⟩ else none

theorem entriesFrom_cons (first : Nat) (symbol : Symbol) (rest : List Symbol) : entriesFrom first (symbol :: rest) =
      (if symbol.valueIsAddress then [⟨⟨symbol.fileAddress, symbol.byteSize⟩, first % 2 ^ 32⟩] else []) ++
        entriesFrom (first + 1) rest := by
  unfold entriesFrom
  rw [zipIdx_cons, filterMap_cons]
  dsimp only
  split_ifs <;> rfl

theorem ranges_entriesFrom (first : Nat) (symbols : List Symbol) :
    (entriesFrom first symbols).map (·.range) = addressRanges symbols := by
  induction symbols generalizing first with
  | nil => rfl
  | cons symbol rest ih =>
    rw [entriesFrom_cons, map_append, ih, addressRanges, addressRanges, filter_cons]
    split_ifs <;> rfl

theorem mem_entriesFrom {first : Nat} {symbols : List Symbol} (few : first + symbols.length ≤ 2 ^ 32)
    (member : entry ∈ entriesFrom first symbols) :
    ∃ position symbol, symbols[position]? = some symbol ∧
      entry = ⟨⟨symbol.fileAddress, symbol.byteSize⟩, first + position⟩ := by
  obtain ⟨⟨symbol, index⟩, listed, made⟩ := mem_filterMap.mp member
  obtain ⟨above, found⟩ := List.mk_mem_zipIdx_iff_le_and_getElem?_sub.mp listed
  have small := (List.getElem?_eq_some_iff.mp found).1
  dsimp only at made
  split_ifs at made
  refine ⟨index - first, symbol, found, ?_⟩
  rw [← Option.some_inj.mp made, Nat.mod_eq_of_lt (by omega), Nat.add_sub_cancel' above]

theorem nodup_entriesFrom {first : Nat} {symbols : List Symbol} (few : first + symbols.length ≤ 2 ^ 32) :
    ((entriesFrom first symbols).map (·.data)).Nodup := by
  induction symbols generalizing first with
  | nil => exact .nil
  | cons symbol rest ih =>
    rw [length_cons] at few
    rw [entriesFrom_cons]
    have later := @ih (first + 1) (by omega)
    split_ifs
    · refine nodup_cons.mpr ⟨fun listed => ?_, later⟩
      obtain ⟨entry, member, same⟩ := mem_map.mp listed
      obtain ⟨position, other, -, rfl⟩ := mem_entriesFrom (by omega) member
      dsimp only at same
      omega
    · exact later

theorem length_entriesFrom (first : Nat) (symbols : List Symbol) :
    (entriesFrom first symbols).length ≤ symbols.length := by
  refine (length_filterMap_le _ _).trans ?_
  rw [length_zipIdx]

/-! The index. -/

/-- A table whose index has not been built, as `AddSymbol` leaves it. -/
def unindexed (symbols : List Symbol) : Symtab := ⟨symbols, ⟨[]⟩, false⟩

structure Built (sections : Option (List Section)) (symbols : List Symbol) (symtab : Symtab) : Prop where
  settled : symtab.indexed sections = symtab
  inOrder : RangeDataVector.InOrder symtab.fileAddrToIndex.entries
  ranges : (symtab.fileAddrToIndex.entries.map (·.range)).Perm (symbolRanges sections symbols)
  agree : ∀ entry ∈ symtab.fileAddrToIndex.entries, EntryOf symtab.symbols entry
  count : symtab.fileAddrToIndex.entries.length ≤ symbols.length

variable (sections : Option (List Section))

theorem indexed_initAddressIndexes (symbols : List Symbol) :
    ((unindexed symbols).initAddressIndexes sections).indexed sections =
      (unindexed symbols).initAddressIndexes sections := by
  cases symbols with
  | nil => rfl
  | cons first rest =>
    have computed : ((unindexed (first :: rest)).initAddressIndexes sections).fileAddrToIndexComputed = true := by
      unfold initAddressIndexes unindexed
      dsimp only
      rw [Bool.false_or, isEmpty_cons, if_neg Bool.false_ne_true]
      split_ifs <;> rfl
    rw [indexed, if_pos computed]

theorem weak_lessIndex : RangeDataArray.Weak lessIndex := by
  constructor <;> simp only [lessIndex, decide_eq_true_eq, decide_eq_false_iff_not] <;> omega

section

variable {symbols : List Symbol} {sorted : List (RangeData Nat)} (perm : sorted.Perm (addressEntries symbols))
  (ascending : RangeDataVector.Ascending sorted)

include perm ascending

theorem ranges_fillSizes (sections : Option (List Section)) :
    ((fillSizes (Symtab.sectionRanges sections) sorted symbols).1.map (·.range)).Perm
      (symbolRanges sections symbols) := by
  have ranges : (sorted.map (·.range)).Perm (addressRanges symbols) :=
    (perm.map (·.range)).trans (.of_eq (ranges_entriesFrom 0 symbols))
  have bases : (sorted.map (·.range.base)).Perm ((addressRanges symbols).map (·.base)) := by
    have both := ranges.map (·.base)
    rw [map_map] at both
    exact both
  have mapped (fill : Range → Range) :
      (sorted.map fun entry => (⟨fill entry.range, entry.data⟩ : RangeData Nat)).map (·.range) =
        (sorted.map (·.range)).map fill := by
    simp
  rw [@fillSizes_entries _ [] sorted ascending symbols _ rfl, mapped, nil_append,
    filledRange_perm bases]
  exact ranges.map _

theorem agree_fillSizes (few : symbols.length ≤ 2 ^ 32) :
    ∀ entry ∈ (fillSizes sectionRanges sorted symbols).1, EntryOf (fillSizes sectionRanges sorted symbols).2 entry := by
  have once : (sorted.map (·.data)).Nodup := (perm.map _).nodup_iff.mpr (nodup_entriesFrom (by omega))
  refine @fillSizes_entryOf sectionRanges [] sorted ascending symbols _ rfl once fun entry member => ?_
  obtain ⟨position, symbol, listed, rfl⟩ := mem_entriesFrom (by omega) (perm.mem_iff.mp member)
  exact ⟨symbol, by rw [zero_add]; exact listed, rfl, rfl⟩

theorem length_fillSizes : (fillSizes sectionRanges sorted symbols).1.length ≤ symbols.length := by
  rw [@fillSizes_entries sectionRanges [] sorted ascending symbols _ rfl, length_map, perm.length_eq]
  exact length_entriesFrom 0 symbols

end

theorem initAddressIndexes_built {symbols : List Symbol}
    (few : symbols.length ≤ 2 ^ 32) : Built sections symbols ((unindexed symbols).initAddressIndexes sections) := by
  have settled := indexed_initAddressIndexes sections symbols
  unfold initAddressIndexes unindexed at settled ⊢
  dsimp only at settled ⊢
  split_ifs at settled ⊢ with none_ some_
  · obtain rfl := isEmpty_iff.mp none_
    exact ⟨settled, .nil, .nil, fun _ member => absurd member not_mem_nil, le_refl _⟩
  · have perm := RangeDataArray.sort_perm lessIndex ⟨addressEntries symbols⟩
    have ascending : RangeDataVector.Ascending (RangeDataArray.sort lessIndex ⟨addressEntries symbols⟩).entries :=
      RangeDataArray.sort_sorted weak_lessIndex ⟨addressEntries symbols⟩
    have filledPerm (filled : List (RangeData Nat)) := RangeDataArray.sort_perm lessIndex ⟨filled⟩
    have inOrder (filled : List (RangeData Nat)) := @RangeDataVector.sort_inOrder 64 _ _ weak_lessIndex ⟨filled⟩
    refine ⟨settled, inOrder _, ((filledPerm _).map _).trans (ranges_fillSizes perm ascending sections),
      fun entry member => agree_fillSizes perm ascending few entry ((filledPerm _).mem_iff.mp member), ?_⟩
    exact (filledPerm _).length_eq.trans_le (length_fillSizes perm ascending)
  · have nothing : addressEntries symbols = [] := List.eq_nil_of_length_eq_zero (Nat.eq_zero_of_not_pos some_)
    have ranges : (addressEntries symbols).map (·.range) = addressRanges symbols := ranges_entriesFrom 0 symbols
    rw [nothing] at settled ranges ⊢
    refine ⟨settled, .nil, ?_, fun _ member => absurd member List.not_mem_nil, Nat.zero_le _⟩
    rw [symbolRanges, ← ranges]
    exact .nil

end Symtab

end Lldb
