import Lldb.Core.RangeDataVector

/-! When a lookup in a sorted `RangeDataVector` finds an entry, whatever the entries overlap. -/

set_option autoImplicit false

namespace Lldb

open List

/-- Of the ranges that begin nearest below the address the largest one has it, or the smallest of those that begin
there does.
-/
def HasNearest (ranges : List Range) (address : Nat) : Prop :=
  (∃ range ∈ ranges, range.base < address ∧ range.contains address ∧ ∀ other ∈ ranges, other.base < address →
    other.base < range.base ∨ other.base = range.base ∧ other.size ≤ range.size) ∨
  ∃ range ∈ ranges, range.base = address ∧ range.contains address ∧ ∀ other ∈ ranges, other.base = address →
    range.size ≤ other.size

theorem HasNearest.perm {ranges others : List Range} (perm : ranges.Perm others) (address : Nat) :
    HasNearest ranges address ↔ HasNearest others address := by
  simp only [HasNearest, perm.mem_iff]

namespace RangeDataVector

variable {width : Nat} {T : Type}

def InOrder (entries : List (RangeData T)) : Prop :=
  entries.Pairwise fun left right => left.range.base < right.range.base ∨
    left.range.base = right.range.base ∧ left.range.size ≤ right.range.size

theorem sort_inOrder {less : T → T → Bool} (weak : RangeDataArray.Weak less) (vector : RangeDataVector width T) :
    InOrder (vector.sort less).entries := by
  apply (RangeDataArray.sort_notLt weak ⟨vector.entries⟩).imp
  intro left right ordered
  rw [RangeDataArray.lt_eq_false_iff] at ordered
  omega

/-- The lookup looks at the last entry that begins below the address, and at the one behind it. -/
theorem isSome_findEntryThatContains (vector : RangeDataVector width T) (address : Nat) :
    (vector.findEntryThatContains address).isSome ↔
      (∃ entry, (vector.entries.takeWhile fun entry => entry.range.base < address).getLast? = some entry ∧
        entry.range.contains address) ∨
      ∃ entry, (vector.entries.dropWhile fun entry => entry.range.base < address).head? = some entry ∧
        entry.range.contains address := by
  unfold findEntryThatContains
  dsimp only
  generalize (vector.entries.takeWhile fun entry => entry.range.base < address) = lower
  generalize (vector.entries.dropWhile fun entry => entry.range.base < address) = upper
  have behind : (upper.head?.filter (·.range.contains address)).isSome ↔
      ∃ entry, upper.head? = some entry ∧ entry.range.contains address := by
    rw [Option.isSome_iff_exists]
    simp only [Option.filter_eq_some_iff]
  rcases eq_nil_or_concat lower with rfl | ⟨front, last, rfl⟩
  · simpa using behind
  · rw [concat_eq_append, reverse_append, reverse_singleton, singleton_append, getLast?_concat]
    by_cases inside : last.range.contains address = true
    · rw [takeWhile_cons, if_pos inside]
      exact iff_of_true rfl (.inl ⟨last, rfl, inside⟩)
    · rw [takeWhile_cons, if_neg inside]
      refine behind.trans (or_iff_right ?_).symm
      rintro ⟨entry, same, holds⟩
      cases same
      exact inside holds

section

variable {lower upper : List (RangeData T)} {address : Nat}

theorem getLast_iff (inOrder : InOrder lower) (low : ∀ other ∈ lower, other.range.base < address)
    (high : ∀ other ∈ upper, address ≤ other.range.base) :
    (∃ entry, lower.getLast? = some entry ∧ entry.range.contains address) ↔
      ∃ range ∈ (lower ++ upper).map (·.range), range.base < address ∧ range.contains address ∧
        ∀ other ∈ (lower ++ upper).map (·.range), other.base < address →
          other.base < range.base ∨ other.base = range.base ∧ other.size ≤ range.size := by
  have inLower {entry : RangeData T} (member : entry ∈ lower ++ upper) (below : entry.range.base < address) :
      entry ∈ lower :=
    (mem_append.mp member).resolve_right fun behind => not_lt.mpr (high entry behind) below
  constructor
  · rintro ⟨last, found, inside⟩
    obtain ⟨front, rfl⟩ := getLast?_eq_some_iff.mp found
    have member : last ∈ front ++ [last] := mem_append_right _ mem_cons_self
    refine ⟨last.range, mem_map_of_mem (mem_append_left _ member), low last member, inside, ?_⟩
    refine forall_mem_map.mpr fun other listed below => ?_
    rcases mem_append.mp (inLower listed below) with before | same
    · exact (pairwise_append.mp inOrder).2.2 other before last mem_cons_self
    · cases mem_singleton.mp same
      exact .inr ⟨rfl, le_refl _⟩
  · rintro ⟨range, listed, below, inside, largest⟩
    obtain ⟨entry, entryListed, rfl⟩ := mem_map.mp listed
    have member := inLower entryListed below
    rcases eq_nil_or_concat lower with rfl | ⟨front, last, rfl⟩
    · cases member
    · rw [concat_eq_append] at *
      have lastMember : last ∈ front ++ [last] := mem_append_right _ mem_cons_self
      have same : last.range = entry.range := by
        have upTo := largest last.range (mem_map_of_mem (mem_append_left _ lastMember)) (low last lastMember)
        rcases mem_append.mp member with before | same
        · have order := (pairwise_append.mp inOrder).2.2 entry before last mem_cons_self
          cases entryRange : entry.range
          cases lastRange : last.range
          rw [entryRange, lastRange] at upTo order
          rw [Range.mk.injEq]
          dsimp only at upTo order
          omega
        · rw [mem_singleton.mp same]
      exact ⟨last, getLast?_concat, by rw [same]; exact inside⟩

theorem head_iff (inOrder : InOrder upper) (low : ∀ other ∈ lower, other.range.base < address)
    (high : ∀ other ∈ upper, address ≤ other.range.base) :
    (∃ entry, upper.head? = some entry ∧ entry.range.contains address) ↔
      ∃ range ∈ (lower ++ upper).map (·.range), range.base = address ∧ range.contains address ∧
        ∀ other ∈ (lower ++ upper).map (·.range), other.base = address → range.size ≤ other.size := by
  have inUpper {entry : RangeData T} (member : entry ∈ lower ++ upper) (here : entry.range.base = address) :
      entry ∈ upper :=
    (mem_append.mp member).resolve_left fun before => ne_of_lt (low entry before) here
  constructor
  · rintro ⟨first, found, inside⟩
    obtain ⟨rest, rfl⟩ := head?_eq_some_iff.mp found
    have here : first.range.base = address :=
      le_antisymm (Range.contains_iff.mp inside).1 (high first mem_cons_self)
    refine ⟨first.range, mem_map_of_mem (mem_append_right _ mem_cons_self), here, inside, ?_⟩
    refine forall_mem_map.mpr fun other listed otherHere => ?_
    rcases mem_cons.mp (inUpper listed otherHere) with rfl | behind
    · exact le_refl _
    · have order := (pairwise_cons.mp inOrder).1 other behind
      omega
  · rintro ⟨range, listed, here, inside, smallest⟩
    obtain ⟨entry, entryListed, rfl⟩ := mem_map.mp listed
    have member := inUpper entryListed here
    cases upper with
    | nil => cases member
    | cons first rest =>
      have same : first.range = entry.range := by
        rcases mem_cons.mp member with rfl | behind
        · rfl
        · have order := (pairwise_cons.mp inOrder).1 entry behind
          have above := high first mem_cons_self
          have upTo := smallest first.range (mem_map_of_mem (mem_append_right _ mem_cons_self))
          cases entryRange : entry.range
          cases firstRange : first.range
          rw [entryRange, firstRange] at upTo order
          rw [entryRange] at here
          rw [firstRange] at above
          rw [Range.mk.injEq]
          dsimp only at *
          omega
      exact ⟨first, rfl, by rw [same]; exact inside⟩

end

theorem findEntryThatContains_iff_nearest {vector : RangeDataVector width T} (inOrder : InOrder vector.entries)
    (address : Nat) :
    (vector.findEntryThatContains address).isSome ↔ HasNearest (vector.entries.map (·.range)) address := by
  rw [isSome_findEntryThatContains]
  have whole := takeWhile_append_dropWhile (p := fun entry => decide (entry.range.base < address))
    (l := vector.entries)
  have ascending : Ascending vector.entries := inOrder.imp fun order => by omega
  obtain ⟨low, high⟩ := ascending.split address
  generalize vector.entries.takeWhile (fun entry => decide (entry.range.base < address)) = lower at *
  generalize vector.entries.dropWhile (fun entry => decide (entry.range.base < address)) = upper at *
  rw [← whole] at inOrder ⊢
  obtain ⟨below, above, -⟩ := pairwise_append.mp inOrder
  exact or_congr (getLast_iff below low high) (head_iff above low high)

end RangeDataVector

end Lldb
