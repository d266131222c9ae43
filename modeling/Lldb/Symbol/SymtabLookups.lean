import Lldb.Symbol.Symtab

/-! The two lookups of a symbol by a file address, and when they agree.

The lookup of one symbol sees the entries directly before an address; the other one goes through all of them.
-/

set_option autoImplicit false

namespace Lldb

open List

namespace RangeDataVector

theorem mem_of_findEntryThatContains {width : Nat} {T : Type} {vector : RangeDataVector width T} {address : Nat}
    {entry : RangeData T} (found : vector.findEntryThatContains address = some entry) : entry ∈ vector.entries := by
  unfold findEntryThatContains at found
  dsimp only at found
  split at found
  case h_1 last lower =>
    obtain rfl := Option.some.inj found
    have before := mem_reverse.mp ((takeWhile_sublist _).mem (mem_of_getLast? lower))
    exact (takeWhile_sublist _).mem before
  case h_2 =>
    have first := (Option.filter_eq_some_iff.mp found).1
    exact (dropWhile_sublist _).mem (mem_of_head? first)

end RangeDataVector

namespace Symtab

theorem containsFileAddress_of_entryOf {symbols : List Symbol} {entry : RangeData Nat} (agree : EntryOf symbols entry)
    {fileAddr : Nat} (inside : entry.range.contains fileAddr) :
    ∃ symbol, symbols[entry.data]? = some symbol ∧ symbol.containsFileAddress fileAddr = true := by
  obtain ⟨symbol, listed, base, size⟩ := agree
  obtain ⟨above, below⟩ := Range.contains_iff.mp inside
  have last : entry.range.rangeEnd < 2 ^ 64 := Nat.mod_lt _ (by decide)
  have reach : entry.range.rangeEnd ≤ entry.range.base + entry.range.size := Nat.mod_le _ _
  have valid : fileAddr ≠ invalidAddress := by
    unfold invalidAddress
    omega
  have baseValid : entry.range.base ≠ invalidAddress := by
    unfold invalidAddress
    omega
  have within : fileAddr - entry.range.base < entry.range.size := by omega
  refine ⟨symbol, listed, ?_⟩
  rw [Symbol.containsFileAddress, base, size, decide_eq_true valid, decide_eq_true baseValid, decide_eq_true above,
    decide_eq_true within]
  rfl

/-- `FindSymbolContainingFileAddress` returns one of the symbols that the other lookup visits, if there are any. -/
structure Agrees (sections : Option (List Section)) (symtab : Symtab) (fileAddr : Nat) : Prop where
  isSome_iff : (symtab.findSymbolContainingFileAddress sections fileAddr).1.isSome ↔
    (symtab.forEachSymbolContainingFileAddress sections fileAddr fun _ => true).1 ≠ []
  visited : ∀ index, (symtab.findSymbolContainingFileAddress sections fileAddr).1 = some index →
    index ∈ (symtab.forEachSymbolContainingFileAddress sections fileAddr fun _ => true).1

namespace Built

variable {sections : Option (List Section)} {symbols : List Symbol} {symtab : Symtab}

theorem find_eq (built : Built sections symbols symtab) (fileAddr : Nat) :
    (symtab.findSymbolContainingFileAddress sections fileAddr).1 =
      (symtab.fileAddrToIndex.findEntryThatContains fileAddr).map (·.data) := by
  rw [findSymbolContainingFileAddress, built.settled]
  cases found : symtab.fileAddrToIndex.findEntryThatContains fileAddr with
  | none => rfl
  | some entry =>
    have agree := built.agree entry (RangeDataVector.mem_of_findEntryThatContains found)
    obtain ⟨symbol, listed, holds⟩ :=
      containsFileAddress_of_entryOf agree (RangeDataVector.contains_of_findEntryThatContains found)
    simp [symbolAtIndex, listed, if_pos holds]

theorem visit_eq {fileAddr : Nat} {indexes : List Nat}
    (all : ∀ index ∈ indexes, ∃ symbol, symtab.symbols[index]? = some symbol ∧
      symbol.containsFileAddress fileAddr = true) :
    visit symtab fileAddr (fun _ => true) indexes = indexes := by
  induction indexes with
  | nil => rfl
  | cons index rest ih =>
    obtain ⟨⟨symbol, listed, holds⟩, others⟩ := forall_mem_cons.mp all
    rw [visit, symbolAtIndex, listed]
    dsimp only
    rw [if_pos holds, if_pos rfl, ih others]

theorem visits_eq (built : Built sections symbols symtab) (few : symbols.length < 2 ^ 32) (fileAddr : Nat) :
    (symtab.forEachSymbolContainingFileAddress sections fileAddr fun _ => true).1 =
      (symtab.fileAddrToIndex.entries.filter (·.range.contains fileAddr)).map (·.data) := by
  have count := length_filter_le (fun entry : RangeData Nat => entry.range.contains fileAddr)
    symtab.fileAddrToIndex.entries
  have most := built.count
  rw [forEachSymbolContainingFileAddress, built.settled, findEntryIndexesThatContain]
  dsimp only
  rw [length_map, Nat.mod_eq_of_lt (by omega), take_of_length_le (by rw [length_map])]
  refine visit_eq (forall_mem_map.mpr fun entry member => ?_)
  obtain ⟨listed, inside⟩ := mem_filter.mp member
  exact containsFileAddress_of_entryOf (built.agree entry listed) inside

theorem agrees_iff (built : Built sections symbols symtab) (few : symbols.length < 2 ^ 32) (fileAddr : Nat) :
    Agrees sections symtab fileAddr ↔ ((∃ range ∈ symbolRanges sections symbols, range.contains fileAddr) →
        HasNearest (symbolRanges sections symbols) fileAddr) := by
  have found : (symtab.findSymbolContainingFileAddress sections fileAddr).1.isSome ↔
      HasNearest (symbolRanges sections symbols) fileAddr := by
    simp [built.find_eq, RangeDataVector.findEntryThatContains_iff_nearest built.inOrder, HasNearest.perm built.ranges]
  have visits : (symtab.forEachSymbolContainingFileAddress sections fileAddr fun _ => true).1 ≠ [] ↔
      ∃ range ∈ symbolRanges sections symbols, range.contains fileAddr := by
    rw [built.visits_eq few, ne_eq, map_eq_nil_iff, filter_eq_nil_iff]
    simp only [← built.ranges.mem_iff, mem_map, exists_exists_and_eq_and, not_forall, not_not, exists_prop]
  constructor
  · intro agrees some_
    exact found.mp (agrees.isSome_iff.mpr (visits.mpr some_))
  · intro near
    have member (index : Nat) (same : (symtab.findSymbolContainingFileAddress sections fileAddr).1 = some index) :
        index ∈ (symtab.forEachSymbolContainingFileAddress sections fileAddr fun _ => true).1 := by
      rw [built.find_eq, Option.map_eq_some_iff] at same
      obtain ⟨entry, looked, rfl⟩ := same
      rw [built.visits_eq few]
      exact mem_map_of_mem (mem_filter.mpr ⟨RangeDataVector.mem_of_findEntryThatContains looked,
        RangeDataVector.contains_of_findEntryThatContains looked⟩)
    refine ⟨⟨fun isSome => ?_, fun some_ => found.mpr (near (visits.mp some_))⟩, member⟩
    obtain ⟨index, same⟩ := Option.isSome_iff_exists.mp isSome
    exact ne_nil_of_mem (member index same)

end Built

/-! Every table that is built by adding symbols, with lookups in between. -/

inductive Call where
  | addSymbol (symbol : Symbol)
  | lookUp
  deriving DecidableEq, Repr

def call (sections : Option (List Section)) (symtab : Symtab) : Call → Symtab
  | .addSymbol symbol => (symtab.addSymbol symbol).2
  | .lookUp => symtab.indexed sections

def calls (sections : Option (List Section)) (list : List Call) : Symtab := list.foldl (call sections) empty

theorem fillSizes_keeps (ranges : RangeVector 64) (entries : List (RangeData Nat)) (symbols : List Symbol) :
    (fillSizes ranges entries symbols).2.length = symbols.length := by
  induction entries generalizing symbols with
  | nil => rfl
  | cons entry rest ih =>
    simp only [fillSizes]
    generalize (if entry.range.size = 0 then _ else 0) = symSize
    split_ifs <;> simp [ih]

theorem initAddressIndexes_keeps (sections : Option (List Section)) (symbols : List Symbol) :
    ((unindexed symbols).initAddressIndexes sections).symbols.length = symbols.length := by
  unfold initAddressIndexes unindexed
  dsimp only
  split_ifs <;> simp [fillSizes_keeps]

theorem indexed_calls (sections : Option (List Section)) (list : List Call) :
    (calls sections list).symbols.length ≤ list.length ∧ ∃ symbols, symbols.length ≤ list.length ∧
      (calls sections list).indexed sections = (unindexed symbols).initAddressIndexes sections := by
  induction list using reverseRecOn with
  | nil => exact ⟨le_refl 0, [], le_refl 0, rfl⟩
  | append_singleton list last ih =>
    obtain ⟨short, symbols, few, same⟩ := ih
    rw [calls, foldl_concat, length_append, length_singleton]
    cases last with
    | addSymbol symbol =>
      have more : ((calls sections list).symbols ++ [symbol]).length ≤ list.length + 1 := by simpa using short
      exact ⟨more, _, more, rfl⟩
    | lookUp =>
      change ((calls sections list).indexed sections).symbols.length ≤ _ ∧ _
      rw [call, ← calls, same, initAddressIndexes_keeps]
      exact ⟨by omega, symbols, by omega, indexed_initAddressIndexes sections symbols⟩

/-- The index is in order, and its entries have the addresses and sizes of their symbols. -/
def Current (symtab : Symtab) : Prop :=
  RangeDataVector.InOrder symtab.fileAddrToIndex.entries ∧
    ∀ entry ∈ symtab.fileAddrToIndex.entries, EntryOf symtab.symbols entry

theorem current_calls (sections : Option (List Section)) (list : List Call) (few : list.length ≤ 2 ^ 32) :
    Current ((calls sections list).indexed sections) := by
  obtain ⟨-, symbols, short, same⟩ := indexed_calls sections list
  have built := initAddressIndexes_built sections (short.trans few)
  rw [same]
  exact ⟨built.inOrder, built.agree⟩

theorem current_calls_late : Current ((calls none [.lookUp, .addSymbol ⟨⟨none, 0⟩, 8, true, false⟩]).indexed none) :=
  current_calls none _ (by decide)

/-- The lookups agree about an address unless a symbol has it and none of the nearest ones below or at it does. -/
theorem lookups_agree_iff (sections : Option (List Section)) {symbols : List Symbol} (few : symbols.length < 2 ^ 32)
    (fileAddr : Nat) :
    Agrees sections ((unindexed symbols).initAddressIndexes sections) fileAddr ↔
      ((∃ range ∈ symbolRanges sections symbols, range.contains fileAddr) →
        HasNearest (symbolRanges sections symbols) fileAddr) :=
  (initAddressIndexes_built sections few.le).agrees_iff few fileAddr

def sizedSymbol (base size : Nat) : Symbol := ⟨⟨some 0, base⟩, size, decide (0 < size), false⟩

theorem lookups_agree_iff_two : Agrees none ((unindexed [sizedSymbol 0 8, sizedSymbol 8 8]).initAddressIndexes none) 4 ↔
      ((∃ range ∈ symbolRanges none [sizedSymbol 0 8, sizedSymbol 8 8], range.contains 4) →
        HasNearest (symbolRanges none [sizedSymbol 0 8, sizedSymbol 8 8]) 4) :=
  lookups_agree_iff none (by decide) 4

/-- A symbol that ends before the address hides the one around it, and one without a size the one at its address. -/
theorem not_lookups_agree : ¬ Agrees (some [.mk 0 true 0 200 []])
        ((unindexed [sizedSymbol 0 100, sizedSymbol 10 10]).initAddressIndexes (some [.mk 0 true 0 200 []])) 50 ∧
      ¬ Agrees none ((unindexed [sizedSymbol 0 0, sizedSymbol 0 8]).initAddressIndexes none) 0 := by
  constructor
  · rw [(initAddressIndexes_built _ (by decide)).agrees_iff (by decide)]
    unfold HasNearest
    decide
  · rw [(initAddressIndexes_built _ (by decide)).agrees_iff (by decide)]
    unfold HasNearest
    decide

end Symtab

end Lldb
