import Lldb.Core.CombinedRanges
import Lldb.Target.MemoryCacheRead
import Mathlib.Data.List.DropRight

/-! Ranges that are added to a memory cache as invalid and removed from it again.

They are sorted, and never merged.
-/

set_option autoImplicit false

namespace Lldb

open List Option

namespace RangeArray

def append (array : RangeArray) (entry : Range) : RangeArray := ⟨array.entries ++ [entry]⟩

def indexNotFound : Nat := 2 ^ 32 - 1

def findEntryIndexThatContains (array : RangeArray) (address : Nat) : Nat :=
  let position := array.lowerBound address
  if array.entries[position]?.any (·.contains address) then position % 2 ^ 32
  else if position ≠ 0 ∧ array.entries[position - 1]?.any (·.contains address) then (position - 1) % 2 ^ 32
  else indexNotFound

def removeEntrtAtIndex (array : RangeArray) (idx : Nat) : Bool × RangeArray :=
  if idx < array.entries.length then (true, ⟨array.entries.eraseIdx idx⟩) else (false, array)

end RangeArray

namespace MemoryCache

def addInvalidRange (cache : MemoryCache) (baseAddr byteSize : Nat) : MemoryCache :=
  if byteSize > 0 then { cache with invalidRanges := (cache.invalidRanges.append ⟨baseAddr, byteSize⟩).sort } else cache

def removeInvalidRange (cache : MemoryCache) (baseAddr byteSize : Nat) : Bool × MemoryCache :=
  if byteSize > 0 then
    let idx := cache.invalidRanges.findEntryIndexThatContains baseAddr
    if idx ≠ RangeArray.indexNotFound then
      match cache.invalidRanges.entries[idx]? with
      | some entry =>
        if entry.base = baseAddr ∧ entry.size = byteSize then
          let (removed, invalidRanges) := cache.invalidRanges.removeEntrtAtIndex idx
          (removed, { cache with invalidRanges := invalidRanges })
        else (false, cache)
      | none => (false, cache)
    else (false, cache)
  else (false, cache)

def clear (cache : MemoryCache) (clearInvalidRanges : Bool) (cacheLineSize : Nat) : MemoryCache where
  l1Cache := .empty
  l2Cache := .empty
  invalidRanges := if clearInvalidRanges then ⟨[]⟩ else cache.invalidRanges
  l2CacheLineByteSize := cacheLineSize

end MemoryCache

/-! Lookups among sorted ranges. -/

namespace Range

def Holds (range : Range) (address : Nat) : Prop := range.base ≤ address ∧ address < range.base + range.size

def Fits (range : Range) : Prop := range.base + range.size < 2 ^ 64

theorem contains_iff_holds {range : Range} (bounded : range.size < 2 ^ 64) (address : Nat) :
    range.contains address ↔ range.Holds address ∧ range.Fits := by
  rw [contains_iff, rangeEnd, Holds, Fits]
  omega

end Range

/-- An address is found in a range that begins there, or in the one that begins last, and is the longest, of those that
begin below it.
-/
def Visible (ranges : List Range) (address : Nat) : Prop :=
  ∃ range ∈ ranges, range.Holds address ∧ range.Fits ∧ (range.base = address ∨ ∀ other ∈ ranges, other.base < address →
      other.base < range.base ∨ other.base = range.base ∧ other.size ≤ range.size)

/-- A range is found for removal that is the shortest of those with its base. -/
def Removable (ranges : List Range) (range : Range) : Prop :=
  range.Fits ∧ (∀ other ∈ ranges, other.base = range.base → range.size ≤ other.size) ∧
    (ranges.filter (·.base < range.base)).length < 2 ^ 32 - 1

theorem Visible.perm {first second : List Range} (perm : first.Perm second) (address : Nat) :
    Visible first address ↔ Visible second address := by
  unfold Visible
  simp only [perm.mem_iff]

theorem Removable.perm {first second : List Range} (perm : first.Perm second) (range : Range) :
    Removable first range ↔ Removable second range := by
  unfold Removable
  simp only [perm.mem_iff, (perm.filter _).length_eq]

namespace RangeArray

structure Ordered (entries : List Range) : Prop where
  sorted : entries.Pairwise fun left right => right.lt left = false
  sized : ∀ entry ∈ entries, 0 < entry.size ∧ entry.size < 2 ^ 64

theorem lt_eq_false_iff (left right : Range) :
    right.lt left = false ↔ left.base < right.base ∨ left.base = right.base ∧ left.size ≤ right.size := by
  unfold Range.lt
  split_ifs with same
  · rw [decide_eq_false_iff_not]
    omega
  · rw [decide_eq_false_iff_not]
    omega

variable {entries : List Range}

theorem Ordered.eraseIdx (ordered : Ordered entries) (idx : Nat) : Ordered (entries.eraseIdx idx) :=
  ⟨ordered.sorted.sublist (eraseIdx_sublist entries idx), fun entry member =>
    ordered.sized entry (mem_of_mem_eraseIdx member)⟩

theorem Ordered.split (ordered : Ordered entries) (address : Nat) :
    ∃ low high, entries = low ++ high ∧ (RangeArray.mk entries).lowerBound address = low.length ∧
      (∀ entry ∈ low, entry.base < address) ∧ ∀ entry ∈ high, address ≤ entry.base := by
  refine ⟨entries.takeWhile (·.base < address), entries.dropWhile (·.base < address),
    takeWhile_append_dropWhile.symm, rfl, fun entry member => ?_, fun entry member => ?_⟩
  · have holds := mem_takeWhile_imp member
    exact of_decide_eq_true holds
  · have stops := head?_dropWhile_not (fun entry : Range => decide (entry.base < address)) entries
    have sorted := ordered.sorted.sublist (dropWhile_sublist (fun entry => decide (entry.base < address)))
    cases behind : entries.dropWhile (·.base < address) with
    | nil =>
      rw [behind] at member
      cases member
    | cons first rest =>
      rw [behind] at member stops sorted
      have start : address ≤ first.base := by simpa using stops
      rcases mem_cons.mp member with rfl | later
      · exact start
      · have order := (lt_eq_false_iff first entry).mp ((pairwise_cons.mp sorted).1 entry later)
        omega

theorem findEntryThatContains_split {low high : List Range} {address : Nat}
    (position : (RangeArray.mk (low ++ high)).lowerBound address = low.length) :
    ((RangeArray.mk (low ++ high)).findEntryThatContains address).isSome ↔
      (∃ entry ∈ high.head?, entry.contains address) ∨ ∃ entry ∈ low.getLast?, entry.contains address := by
  have first : (low ++ high)[low.length]? = high.head? := by
    simp [getElem?_append_right (Nat.le_refl _), head?_eq_getElem?]
  unfold findEntryThatContains
  dsimp only
  rw [position, first]
  cases here : high.head?.filter (·.contains address) with
  | some entry =>
    obtain ⟨head, inside⟩ := filter_eq_some_iff.mp here
    exact iff_of_true rfl (.inl ⟨entry, head, inside⟩)
  | none =>
    have notHere : ¬ ∃ entry ∈ high.head?, entry.contains address := by
      rintro ⟨entry, head, inside⟩
      exact filter_eq_none_iff.mp here entry head inside
    rw [or_iff_right notHere]
    cases low using reverseRecOn with
    | nil => exact iff_of_false nofun nofun
    | append_singleton low last =>
      rw [length_append, length_singleton, if_neg (Nat.succ_ne_zero _), Nat.add_sub_cancel,
        append_assoc, getElem?_append_right (Nat.le_refl _), Nat.sub_self, getLast?_concat]
      change (Option.filter _ (some last)).isSome ↔ _
      rw [filter_some]
      split_ifs with inside
      · exact iff_of_true rfl ⟨last, rfl, inside⟩
      · refine iff_of_false nofun ?_
        rintro ⟨_, same, contains⟩
        obtain rfl := Option.some.inj same
        exact inside contains

theorem found_iff_visible (ordered : Ordered entries) (address : Nat) :
    ((RangeArray.mk entries).findEntryThatContains address).isSome ↔ Visible entries address := by
  obtain ⟨low, high, rfl, position, below, above⟩ := ordered.split address
  obtain ⟨sorted, sized⟩ := ordered
  have order := pairwise_append.mp sorted
  rw [findEntryThatContains_split position]
  constructor
  · rintro (⟨entry, head, inside⟩ | ⟨entry, last, inside⟩)
    · have member : entry ∈ low ++ high := mem_append_right _ (mem_of_mem_head? head)
      obtain ⟨holds, fits⟩ := (Range.contains_iff_holds (sized entry member).2 address).mp inside
      have start := above entry (mem_of_mem_head? head)
      exact ⟨entry, member, holds, fits, .inl (le_antisymm holds.1 start)⟩
    · have member : entry ∈ low ++ high := mem_append_left _ (mem_of_getLast? last)
      obtain ⟨holds, fits⟩ := (Range.contains_iff_holds (sized entry member).2 address).mp inside
      refine ⟨entry, member, holds, fits, .inr fun other listed less => ?_⟩
      obtain ⟨front, rfl⟩ := getLast?_eq_some_iff.mp last
      rcases mem_append.mp listed with inLow | inHigh
      · rcases mem_append.mp inLow with early | same
        · exact (lt_eq_false_iff other entry).mp
            ((pairwise_append.mp order.1).2.2 other early entry (mem_singleton_self entry))
        · rw [mem_singleton.mp same]
          exact .inr ⟨rfl, le_refl _⟩
      · exact absurd less (not_lt.mpr (above other inHigh))
  · rintro ⟨entry, member, holds, fits, visible⟩
    rcases lt_or_eq_of_le holds.1 with less | start
    · have furthest := visible.resolve_left (ne_of_lt less)
      have inLow : entry ∈ low := by
        rcases mem_append.mp member with inLow | inHigh
        · exact inLow
        · exact absurd less (not_lt.mpr (above entry inHigh))
      cases low using reverseRecOn with
      | nil => cases inLow
      | append_singleton front last =>
        refine .inr ⟨last, getLast?_concat, ?_⟩
        have within : last ∈ front ++ [last] := mem_append_right _ (mem_singleton_self last)
        have size := sized last (mem_append_left _ within)
        rw [Range.contains_iff_holds size.2]
        rcases mem_append.mp inLow with early | same
        · have between := (lt_eq_false_iff entry last).mp
            ((pairwise_append.mp order.1).2.2 entry early last (mem_singleton_self last))
          have most := furthest last (mem_append_left _ within) (below last within)
          unfold Range.Holds Range.Fits at *
          omega
        · rw [← mem_singleton.mp same]
          exact ⟨holds, fits⟩
    · -- The first range that begins at the address is the shortest of them.
      have inHigh : entry ∈ high := by
        rcases mem_append.mp member with inLow | inHigh
        · exact absurd start (ne_of_lt (below entry inLow))
        · exact inHigh
      cases high with
      | nil => cases inHigh
      | cons first rest =>
        have first_ := above first mem_cons_self
        have size := sized first (mem_append_right _ mem_cons_self)
        refine .inl ⟨first, rfl, (Range.contains_iff_holds size.2 address).mpr ?_⟩
        rcases mem_cons.mp inHigh with rfl | later
        · exact ⟨holds, fits⟩
        · have less := (lt_eq_false_iff first entry).mp ((pairwise_cons.mp order.2.1).1 entry later)
          unfold Range.Holds Range.Fits at *
          omega

theorem findEntryIndexThatContains_split {low high : List Range} {address : Nat}
    (position : (RangeArray.mk (low ++ high)).lowerBound address = low.length) :
    (RangeArray.mk (low ++ high)).findEntryIndexThatContains address =
      if high.head?.any (·.contains address) then low.length % 2 ^ 32
      else if low.getLast?.any (·.contains address) then (low.length - 1) % 2 ^ 32
      else indexNotFound := by
  have first : (low ++ high)[low.length]? = high.head? := by
    simp [getElem?_append_right (Nat.le_refl _), head?_eq_getElem?]
  unfold findEntryIndexThatContains
  dsimp only
  rw [position, first]
  congr 1
  cases low using reverseRecOn with
  | nil => rfl
  | append_singleton low last =>
    rw [length_append, length_singleton, Nat.add_sub_cancel, append_assoc,
      getElem?_append_right (Nat.le_refl _), Nat.sub_self, getLast?_concat]
    exact if_congr (and_iff_right (Nat.succ_ne_zero _)) rfl rfl

theorem indexed_iff_removable (ordered : Ordered entries) (range : Range) (sized : 0 < range.size) :
    (RangeArray.mk entries).findEntryIndexThatContains range.base ≠ indexNotFound ∧
        entries[(RangeArray.mk entries).findEntryIndexThatContains range.base]? = some range ↔
      range ∈ entries ∧ Removable entries range := by
  obtain ⟨low, high, rfl, position, below, above⟩ := ordered.split range.base
  have order := pairwise_append.mp ordered.sorted
  have begins : (low ++ high).filter (·.base < range.base) = low := by
    rw [filter_append, filter_eq_self.mpr fun entry member => decide_eq_true (below entry member),
      filter_eq_nil_iff.mpr, append_nil]
    intro entry member
    rw [decide_eq_true_eq, not_lt]
    exact above entry member
  have self : range.Holds range.base := ⟨Nat.le_refl _, Nat.lt_add_of_pos_right sized⟩
  rw [findEntryIndexThatContains_split position, Removable, begins]
  constructor
  · rintro ⟨notNone, listed⟩
    -- The ranges before the split do not have the base.
    have behind (idx : Nat) (found : (low ++ high)[idx]? = some range) : low.length ≤ idx := by
      by_contra early
      rw [getElem?_append_left (Nat.lt_of_not_le early)] at found
      exact absurd (below range (mem_of_getElem? found)) (lt_irrefl _)
    split_ifs at notNone listed with here before
    · have far := behind _ listed
      have index : low.length % 2 ^ 32 = low.length := Nat.le_antisymm (Nat.mod_le _ _) far
      rw [index, getElem?_append_right (Nat.le_refl _), Nat.sub_self, ← head?_eq_getElem?] at listed
      have member : range ∈ low ++ high := mem_append_right _ (mem_of_mem_head? listed)
      obtain ⟨rest, rfl⟩ := head?_eq_some_iff.mp listed
      have fits := ((Range.contains_iff_holds (ordered.sized range member).2 _).mp here).2
      refine ⟨member, fits, fun other inside base => ?_, ?_⟩
      · rcases mem_append.mp inside with inLow | inHigh
        · exact absurd base (ne_of_lt (below other inLow))
        · rcases mem_cons.mp inHigh with rfl | later
          · exact le_refl _
          · have less := (lt_eq_false_iff range other).mp ((pairwise_cons.mp order.2.1).1 other later)
            omega
      · unfold indexNotFound at notNone
        omega
    · have far := behind _ listed
      have less := Nat.mod_le (low.length - 1) (2 ^ 32)
      cases low with
      | nil => cases before
      | cons first rest =>
        rw [length_cons] at far less
        omega
    · exact absurd rfl notNone
  · rintro ⟨member, fits, shortest, few⟩
    have inHigh : range ∈ high := by
      rcases mem_append.mp member with inLow | inHigh
      · exact absurd (below range inLow) (lt_irrefl _)
      · exact inHigh
    cases high with
    | nil => cases inHigh
    | cons first rest =>
      have same : first = range := by
        rcases mem_cons.mp inHigh with same | later
        · exact same.symm
        · have less := (lt_eq_false_iff first range).mp ((pairwise_cons.mp order.2.1).1 range later)
          have start := above first mem_cons_self
          have most := shortest first (mem_append_right _ mem_cons_self)
          have base : first.base = range.base := by omega
          have size : first.size = range.size := by omega
          calc first = ⟨first.base, first.size⟩ := rfl
            _ = range := by rw [base, size]
      subst same
      have size := (ordered.sized first member).2
      have here : (first :: rest).head?.any (·.contains first.base) = true :=
        (Range.contains_iff_holds size _).mpr ⟨self, fits⟩
      rw [if_pos here, Nat.mod_eq_of_lt (by omega), getElem?_append_right (Nat.le_refl _), Nat.sub_self]
      exact ⟨ne_of_lt few, rfl⟩

end RangeArray

end Lldb
