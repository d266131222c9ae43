import Lldb.Core.RangeVector
import Mathlib.Data.List.Sort

/-! `CombineConsecutiveRanges`, which is the same in `RangeVector` and `RangeArray`. -/

set_option autoImplicit false

namespace Lldb

open List

namespace Range

/-- Sizes have `width` bits. -/
def setRangeEnd (width : Nat) (range : Range) (rangeEnd : Nat) : Range :=
  if range.base < rangeEnd then ⟨range.base, (rangeEnd - range.base) % 2 ^ width⟩ else ⟨range.base, 0⟩

end Range

/-- A stable sort by `operator<`. -/
def sortRanges (entries : List Range) : List Range := entries.mergeSort fun left right => !right.lt left

def canCombine : List Range → Bool
  | prev :: pos :: rest => prev.doesAdjoinOrIntersect pos || canCombine (pos :: rest)
  | [_] | [] => false

/-- The entry before in the old list decides; the end is set in the last entry of the new one. -/
def minimalRanges (width : Nat) (minimal : List Range) (prev : Option Range) : List Range → List Range
  | [] => minimal
  | pos :: rest =>
    match prev.filter (·.doesAdjoinOrIntersect pos), minimal.getLast? with
    | some prev, some back =>
      minimalRanges width
        (minimal.dropLast ++ [back.setRangeEnd width (max prev.rangeEnd pos.rangeEnd)]) (some pos) rest
    | _, _ => minimalRanges width (minimal ++ [pos]) (some pos) rest

def combineConsecutive (width : Nat) (entries : List Range) : List Range :=
  if canCombine entries then minimalRanges width [] none entries else entries

namespace RangeVector

variable {width : Nat}

variable (vector : RangeVector width)

def sort : RangeVector width := ⟨sortRanges vector.entries⟩

def combineConsecutiveRanges : RangeVector width :=
  ⟨combineConsecutive width vector.entries⟩

def findEntryThatContains (address : Nat) : Option Range :=
  (vector.findEntryIndexThatContains address).bind (vector.entries[·]?)

end RangeVector

namespace RangeArray

def sort (array : RangeArray) : RangeArray := ⟨sortRanges array.entries⟩

def combineConsecutiveRanges (array : RangeArray) : RangeArray := ⟨combineConsecutive 64 array.entries⟩

end RangeArray

structure Combined (before after : List Range) (find : Nat → Option Range) : Prop where
  covered : ∀ address, (∃ entry ∈ after, entry.contains address) ↔ ∃ entry ∈ before, entry.contains address
  separate : after.Pairwise fun left right => left.rangeEnd < right.base
  found : ∀ address, (find address).isSome ↔ ∃ entry ∈ before, entry.contains address

/-- Chains of entries each of which reaches the next: no entry reaches further than the last two of its
chain, nor to the chain behind it. A chain starts at `base`; its entries reach up to `furthest`, the last
two up to `reach`.
-/
def Suits (width base furthest reach : Nat) (prev : Range) : List Range → Prop
  | [] => furthest ≤ reach ∧ reach - base < 2 ^ width
  | pos :: rest =>
    if prev.doesAdjoinOrIntersect pos then
      Suits width base (max furthest pos.rangeEnd) (max prev.rangeEnd pos.rangeEnd) pos rest
    else
      furthest ≤ reach ∧ reach - base < 2 ^ width ∧ reach < pos.base ∧
        Suits width pos.base pos.rangeEnd pos.rangeEnd pos rest

def SuitsAll (width : Nat) : List Range → Prop
  | [] => True
  | first :: rest => Suits width first.base first.rangeEnd first.rangeEnd first rest

def combineFrom (width : Nat) (back prev : Range) : List Range → List Range
  | [] => [back]
  | pos :: rest =>
    if prev.doesAdjoinOrIntersect pos then
      combineFrom width (back.setRangeEnd width (max prev.rangeEnd pos.rangeEnd)) pos rest
    else back :: combineFrom width pos pos rest

theorem minimalRanges_eq (width : Nat) (front : List Range) (back prev : Range) (rest : List Range) :
    minimalRanges width (front ++ [back]) (some prev) rest = front ++ combineFrom width back prev rest := by
  induction rest generalizing front back prev with
  | nil => rfl
  | cons pos rest ih =>
    rw [minimalRanges, combineFrom, getLast?_concat]
    by_cases reached : prev.doesAdjoinOrIntersect pos
    · simp only [Option.filter_some, reached, dropLast_concat]
      exact ih front _ pos
    · simp only [Option.filter_some, reached, Bool.false_eq_true, if_false]
      rw [ih (front ++ [back]) pos pos, append_assoc, singleton_append]

variable {prev back : Range} {rest entries : List Range} {address base reach : Nat}

theorem combineFrom_of_not (width : Nat) (apart : canCombine (prev :: rest) = false) :
    combineFrom width prev prev rest = prev :: rest := by
  induction rest generalizing prev with
  | nil => rfl
  | cons pos rest ih =>
    rw [canCombine, Bool.or_eq_false_iff] at apart
    rw [combineFrom, if_neg (Bool.eq_false_iff.mp apart.1), ih apart.2]

theorem combineConsecutive_cons (width : Nat) (first : Range) (rest : List Range) :
    combineConsecutive width (first :: rest) = combineFrom width first first rest := by
  unfold combineConsecutive
  by_cases can : canCombine (first :: rest)
  · rw [if_pos can]
    exact minimalRanges_eq width [] first first rest
  · rw [if_neg can, combineFrom_of_not width (Bool.eq_false_iff.mpr can)]

/-! Coverage. -/

/-- Ends do not wrap, and sizes have `width` bits. -/
def Sized (width : Nat) (entries : List Range) : Prop :=
  ∀ entry ∈ entries, entry.base + entry.size < 2 ^ 64 ∧ entry.size < 2 ^ width

def Ascending (entries : List Range) : Prop := entries.Pairwise fun left right => left.base ≤ right.base

theorem Range.rangeEnd_eq {range : Range} (fits : range.base + range.size < 2 ^ 64) :
    range.rangeEnd = range.base + range.size := Nat.mod_eq_of_lt fits

theorem Range.contains_iff {range : Range} :
    range.contains address ↔ range.base ≤ address ∧ address < range.rangeEnd := by
  unfold Range.contains
  simp

theorem Range.adjoins_iff {left right : Range} (fits : right.base + right.size < 2 ^ 64)
    (ordered : left.base ≤ right.base) : left.doesAdjoinOrIntersect right ↔ right.base ≤ left.rangeEnd := by
  unfold Range.doesAdjoinOrIntersect
  rw [Bool.and_eq_true, decide_eq_true_eq, decide_eq_true_eq, Range.rangeEnd_eq fits]
  constructor
  · exact fun both => both.2
  · exact fun reached => ⟨by omega, reached⟩

/-- The last entry of the new list, whose end was set to `reach`. -/
structure Back (width base reach : Nat) (back : Range) : Prop where
  start : back.base = base
  size : back.size = (reach - base) % 2 ^ width
  le : base ≤ reach
  fits : reach < 2 ^ 64

theorem Back.setRangeEnd {width : Nat} (isBack : Back width base reach back) (next : Nat)
    (le : base ≤ next) (fits : next < 2 ^ 64) : Back width base next (back.setRangeEnd width next) := by
  refine ⟨?_, ?_, le, fits⟩
  · unfold Range.setRangeEnd
    split <;> exact isBack.start
  · unfold Range.setRangeEnd
    rw [isBack.start]
    split
    · rfl
    · simp [show next - base = 0 by omega]

theorem Back.rangeEnd {width : Nat} (isBack : Back width base reach back) :
    back.rangeEnd = base + (reach - base) % 2 ^ width := by
  have less := Nat.mod_le (reach - base) (2 ^ width)
  have le := isBack.le
  have fits := isBack.fits
  rw [Range.rangeEnd_eq (by rw [isBack.start, isBack.size]; omega), isBack.start, isBack.size]

theorem Back.self {width : Nat} {entry : Range} (fits : entry.base + entry.size < 2 ^ 64) (size : entry.size < 2 ^ width) :
    Back width entry.base entry.rangeEnd entry := by
  rw [Range.rangeEnd_eq fits]
  refine ⟨rfl, ?_, Nat.le_add_right _ _, fits⟩
  simp [Nat.mod_eq_of_lt size]

/-- The end is as far as the entries reach just if no bit of the size is lost and the last two reach so far. -/
theorem Back.furthest_le {width furthest : Nat} (isBack : Back width base reach back)
    (within : reach ≤ furthest) : furthest ≤ back.rangeEnd ↔ furthest ≤ reach ∧ reach - base < 2 ^ width := by
  have less := Nat.mod_le (reach - base) (2 ^ width)
  have le := isBack.le
  rw [isBack.rangeEnd]
  constructor
  · intro far
    exact ⟨by omega, by omega⟩
  · rintro ⟨far, fits⟩
    rw [Nat.mod_eq_of_lt fits]
    omega

theorem Back.rangeEnd_le {width : Nat} (isBack : Back width base reach back) : back.rangeEnd ≤ reach := by
  have less := Nat.mod_le (reach - base) (2 ^ width)
  have le := isBack.le
  rw [isBack.rangeEnd]
  omega

theorem Back.base_le {width : Nat} (isBack : Back width base reach back) : back.base ≤ back.rangeEnd := by
  rw [isBack.rangeEnd, isBack.start]
  exact Nat.le_add_right _ _

theorem base_of_combineFrom {width : Nat}
    (isBack : Back width base reach back) (le : base ≤ prev.base) (sized : Sized width (prev :: rest))
    (ordered : Ascending (prev :: rest)) :
    (∀ entry ∈ combineFrom width back prev rest, base ≤ entry.base ∧ entry.base ≤ entry.rangeEnd) ∧
      ∃ entry ∈ combineFrom width back prev rest, entry.base = base := by
  induction rest generalizing base reach back prev with
  | nil =>
    simp only [combineFrom, mem_singleton, forall_eq, exists_eq_left]
    exact ⟨⟨isBack.start.ge, isBack.base_le⟩, isBack.start⟩
  | cons pos rest ih =>
    obtain ⟨first, later⟩ := pairwise_cons.mp ordered
    have before := first pos mem_cons_self
    have prevEnd := Range.rangeEnd_eq (sized prev mem_cons_self).1
    have posFits := sized pos (mem_cons_of_mem _ mem_cons_self)
    have prevFits := sized prev mem_cons_self
    have posEnd := Range.rangeEnd_eq posFits.1
    have laterSized : Sized width (pos :: rest) := fun entry member => sized entry (mem_cons_of_mem _ member)
    rw [combineFrom]
    split
    · exact ih (isBack.setRangeEnd _ (by omega) (by omega)) (by omega) laterSized later
    · obtain ⟨all, _⟩ := ih (Back.self posFits.1 posFits.2) (le_refl _) laterSized later
      refine ⟨?_, back, mem_cons_self, isBack.start⟩
      intro entry member
      rcases mem_cons.mp member with rfl | member
      · exact ⟨isBack.start.ge, isBack.base_le⟩
      · have beyond := all entry member
        omega

def Covered (entries : List Range) (address : Nat) : Prop := ∃ entry ∈ entries, entry.contains address

theorem covered_cons {first : Range} :
    Covered (first :: rest) address ↔ first.base ≤ address ∧ address < first.rangeEnd ∨ Covered rest address := by
  unfold Covered
  simp [Range.contains_iff]

theorem Covered.base_le (covered : Covered entries address)
    (bounded : ∀ entry ∈ entries, base ≤ entry.base) : base ≤ address := by
  obtain ⟨entry, member, inside⟩ := covered
  have bound := bounded entry member
  have first := (Range.contains_iff.mp inside).1
  omega

theorem combineFrom_iff {width furthest : Nat}
    (isBack : Back width base reach back) (within : reach ≤ furthest) (prevWithin : prev.rangeEnd ≤ furthest)
    (fits : furthest < 2 ^ 64) (le : base ≤ prev.base) (sized : Sized width (prev :: rest))
    (ordered : Ascending (prev :: rest)) :
    ((∀ address, Covered (combineFrom width back prev rest) address ↔
        base ≤ address ∧ address < furthest ∨ Covered rest address) ∧
      (combineFrom width back prev rest).Pairwise fun left right => left.rangeEnd < right.base) ↔
      Suits width base furthest reach prev rest := by
  have start := isBack.start
  have backLe := isBack.rangeEnd_le
  have baseLe : base ≤ back.rangeEnd := by
    rw [isBack.rangeEnd]
    exact Nat.le_add_right _ _
  induction rest generalizing base furthest reach back prev with
  | nil =>
    simp only [combineFrom, Suits, covered_cons, pairwise_singleton, and_true, ← isBack.furthest_le within]
    constructor
    · intro same
      by_contra short
      have lost := (same back.rangeEnd).mpr (.inl ⟨baseLe, by omega⟩)
      rcases lost with ⟨_, below⟩ | ⟨_, none, _⟩
      · omega
      · exact absurd none not_mem_nil
    · intro far address
      rw [show furthest = back.rangeEnd by omega, start]
  | cons pos rest ih =>
    obtain ⟨first, later⟩ := pairwise_cons.mp ordered
    have before := first pos mem_cons_self
    have posFits := sized pos (mem_cons_of_mem _ mem_cons_self)
    have posEnd := Range.rangeEnd_eq posFits.1
    have laterSized : Sized width (pos :: rest) := fun entry member => sized entry (mem_cons_of_mem _ member)
    have adjoins := Range.adjoins_iff posFits.1 before
    rw [combineFrom, Suits]
    by_cases reached : prev.doesAdjoinOrIntersect pos
    · rw [if_pos reached, if_pos reached]
      rw [adjoins] at reached
      have isBack' := isBack.setRangeEnd (max prev.rangeEnd pos.rangeEnd) (by omega) (by omega)
      have chain : _ ↔ Suits width base (max furthest pos.rangeEnd) (max prev.rangeEnd pos.rangeEnd) pos rest :=
        ih isBack' (by omega) (by omega) (by omega) (by omega) laterSized later isBack'.start isBack'.rangeEnd_le
          (by rw [isBack'.rangeEnd]; exact Nat.le_add_right _ _)
      refine Iff.trans ?_ chain
      refine and_congr_left fun _ => forall_congr' fun address => iff_congr Iff.rfl ?_
      rw [covered_cons, ← or_assoc]
      exact or_congr_left (by omega)
    · rw [if_neg reached, if_neg reached]
      have isBack' : Back width pos.base pos.rangeEnd pos := Back.self posFits.1 posFits.2
      have tail := ih isBack' (Nat.le_refl _) (Nat.le_refl _) (by omega) (Nat.le_refl _) laterSized later rfl
        isBack'.rangeEnd_le (by omega)
      obtain ⟨tailBase, head, headMember, headBase⟩ := base_of_combineFrom isBack' (Nat.le_refl _) laterSized later
      have restBase : ∀ entry ∈ rest, pos.base ≤ entry.base := (pairwise_cons.mp later).1
      have tailFrom (address : Nat) (covered : Covered (combineFrom width pos pos rest) address) :
          pos.base ≤ address := covered.base_le fun entry member => (tailBase entry member).1
      have oldFrom (address : Nat) (covered : Covered (pos :: rest) address) : pos.base ≤ address :=
        covered.base_le (forall_mem_cons.mpr ⟨Nat.le_refl _, restBase⟩)
      rw [pairwise_cons]
      constructor
      · rintro ⟨same, apart, separate⟩
        have gap : back.rangeEnd < pos.base := headBase ▸ apart head headMember
        -- Nothing but the entry itself covers what lies behind its end.
        have far : furthest ≤ back.rangeEnd := by
          by_contra short
          rcases covered_cons.mp ((same back.rangeEnd).mpr (.inl ⟨baseLe, by omega⟩)) with ⟨_, below⟩ | beyond
          · omega
          · have := tailFrom _ beyond
            omega
        obtain ⟨furthestLe, size⟩ := (isBack.furthest_le within).mp far
        refine ⟨furthestLe, size, by omega, tail.mp ⟨fun address => ?_, separate⟩⟩
        rw [← covered_cons]
        constructor
        · intro covered
          have beyond := tailFrom address covered
          rcases (same address).mp (covered_cons.mpr (.inr covered)) with ⟨_, below⟩ | old
          · omega
          · exact old
        · intro covered
          have beyond := oldFrom address covered
          rcases covered_cons.mp ((same address).mpr (.inr covered)) with ⟨_, below⟩ | new
          · omega
          · exact new
      · rintro ⟨furthestLe, size, gap, suits⟩
        have far := (isBack.furthest_le within).mpr ⟨furthestLe, size⟩
        obtain ⟨same, separate⟩ := tail.mpr suits
        refine ⟨fun address => ?_, fun entry member => ?_, separate⟩
        · simp [covered_cons, same address, start, show back.rangeEnd = furthest by omega]
        · have beyond := tailBase entry member
          omega

/-! The whole operation. -/

theorem sortRanges_perm (entries : List Range) : (sortRanges entries).Perm entries := mergeSort_perm _ _

theorem sortRanges_sorted (entries : List Range) :
    (sortRanges entries).Pairwise fun left right => right.lt left = false := by
  have sorted := @pairwise_mergeSort Range (fun left right => !right.lt left) (by
    intro first second third
    unfold Range.lt
    grind) (by
    intro first second
    unfold Range.lt
    grind) entries
  refine sorted.imp fun {left right} le => ?_
  rwa [Bool.not_eq_true'] at le

theorem sortRanges_ascending (entries : List Range) : Ascending (sortRanges entries) := by
  refine (sortRanges_sorted entries).imp fun {left right} le => ?_
  unfold Range.lt at le
  grind

theorem Covered.perm {first second : List Range} (perm : first.Perm second) (address : Nat) :
    Covered first address ↔ Covered second address := by
  exact exists_congr fun entry => and_congr_left fun _ => perm.mem_iff

theorem covered_iff_position (ends : ∀ entry ∈ entries, entry.base ≤ entry.rangeEnd)
    (separate : entries.Pairwise fun left right => left.rangeEnd < right.base) (address position : Nat)
    (isPosition : position = (entries.takeWhile fun entry => entry.base < address).length) :
    Covered entries address ↔ (entries[position]?.any (·.contains address)) = true ∨
      0 < position ∧ (entries[position - 1]?.any (·.contains address)) = true := by
  constructor
  · rintro ⟨entry, member, inside⟩
    obtain ⟨front, back, rfl⟩ := append_of_mem member
    rw [pairwise_append, pairwise_cons] at separate
    obtain ⟨_, ⟨behind, _⟩, ahead⟩ := separate
    obtain ⟨first, last⟩ := Range.contains_iff.mp inside
    have less : ∀ other ∈ front, decide (other.base < address) = true := by
      intro other early
      have before := ahead other early entry mem_cons_self
      have own := ends other (mem_append_left _ early)
      exact decide_eq_true (by omega)
    have stops : back.takeWhile (fun other => decide (other.base < address)) = [] := by
      cases back with
      | nil => rfl
      | cons next back =>
        have after := behind next mem_cons_self
        exact takeWhile_cons_of_neg (by rw [decide_eq_true_eq]; omega)
    rw [takeWhile_append_of_pos less] at isPosition
    by_cases here : entry.base < address
    · rw [takeWhile_cons_of_pos (p := fun other : Range => decide (other.base < address)) (decide_eq_true here),
        stops] at isPosition
      rw [length_append, length_singleton] at isPosition
      refine .inr ⟨by omega, ?_⟩
      rw [isPosition, Nat.add_sub_cancel, getElem?_append_right (Nat.le_refl _), Nat.sub_self]
      exact inside
    · rw [takeWhile_cons_of_neg (by rw [decide_eq_true_eq]; exact here), append_nil] at isPosition
      refine .inl ?_
      rw [isPosition, getElem?_append_right (Nat.le_refl _), Nat.sub_self]
      exact inside
  · rintro (found | ⟨_, found⟩)
    · obtain ⟨entry, listed, inside⟩ := (Option.any_eq_true _ _).mp found
      exact ⟨entry, mem_of_getElem? listed, inside⟩
    · obtain ⟨entry, listed, inside⟩ := (Option.any_eq_true _ _).mp found
      exact ⟨entry, mem_of_getElem? listed, inside⟩

theorem RangeVector.found_iff {width : Nat} (vector : RangeVector width)
    (ends : ∀ entry ∈ vector.entries, entry.base ≤ entry.rangeEnd)
    (separate : vector.entries.Pairwise fun left right => left.rangeEnd < right.base) (address : Nat) :
    (vector.findEntryThatContains address).isSome ↔ Covered vector.entries address := by
  rw [covered_iff_position ends separate address _ rfl]
  unfold findEntryThatContains findEntryIndexThatContains
  simp only
  split_ifs with here before
  · simp only [Option.bind_some, here, true_or, iff_true]
    obtain ⟨entry, listed, _⟩ := (Option.any_eq_true _ _).mp here
    rw [listed]
    rfl
  · simp only [Option.bind_some, before, and_self, or_true, iff_true]
    obtain ⟨entry, listed, _⟩ := (Option.any_eq_true _ _).mp before.2
    rw [listed]
    rfl
  · simp only [Option.bind_none, Option.isSome_none, Bool.false_eq_true, false_iff, not_or]
    exact ⟨here, before⟩

theorem RangeArray.found_iff (array : RangeArray) (ends : ∀ entry ∈ array.entries, entry.base ≤ entry.rangeEnd)
    (separate : array.entries.Pairwise fun left right => left.rangeEnd < right.base) (address : Nat) :
    (array.findEntryThatContains address).isSome ↔ Covered array.entries address := by
  rw [covered_iff_position ends separate address _ rfl]
  unfold findEntryThatContains lowerBound
  generalize (array.entries.takeWhile fun entry => decide (entry.base < address)).length = position
  simp only
  cases here : array.entries[position]?.filter (·.contains address) with
  | some entry =>
    obtain ⟨listed, inside⟩ := Option.filter_eq_some_iff.mp here
    simp only [Option.isSome_some, true_iff]
    exact .inl ((Option.any_eq_true _ _).mpr ⟨entry, listed, inside⟩)
  | none =>
    have notHere : ¬ (array.entries[position]?.any (·.contains address)) = true := by
      intro found
      obtain ⟨entry, listed, inside⟩ := (Option.any_eq_true _ _).mp found
      exact absurd inside (Option.filter_eq_none_iff.mp here entry listed)
    simp only [notHere]
    by_cases first : position = 0
    · simp [first]
    · rw [if_neg first, and_iff_right (Nat.pos_of_ne_zero first)]
      cases array.entries[position - 1]? with
      | none => simp
      | some entry => simp [Option.filter_some]

/-- Sorting and combining keep the coverage and leave separate entries, just if the chains suit. -/
theorem combineConsecutive_iff (width : Nat) (sized : Sized width entries) (find : Nat → Option Range)
    (finds : (∀ entry ∈ combineConsecutive width (sortRanges entries), entry.base ≤ entry.rangeEnd) →
      (combineConsecutive width (sortRanges entries)).Pairwise (fun left right => left.rangeEnd < right.base) →
      ∀ address, (find address).isSome ↔ Covered (combineConsecutive width (sortRanges entries)) address) :
    Combined entries (combineConsecutive width (sortRanges entries)) find ↔ SuitsAll width (sortRanges entries) := by
  have perm := sortRanges_perm entries
  have ordered := sortRanges_ascending entries
  have sortedSized : Sized width (sortRanges entries) := fun entry member => sized entry (perm.mem_iff.mp member)
  have old (address : Nat) := Covered.perm perm address
  generalize sortRanges entries = sorted at perm ordered sortedSized old finds ⊢
  cases sorted with
  | nil =>
    rw [nil_perm.mp perm] at old ⊢
    exact iff_of_true ⟨fun _ => Iff.rfl, .nil, finds nofun .nil⟩ trivial
  | cons first rest =>
    have firstFits := sortedSized first mem_cons_self
    have isBack : Back width first.base first.rangeEnd first := Back.self firstFits.1 firstFits.2
    have chains := combineFrom_iff isBack (le_refl _) (le_refl _) isBack.fits (le_refl _) sortedSized ordered
    have ends := (base_of_combineFrom isBack (le_refl _) sortedSized ordered).1
    rw [combineConsecutive_cons] at finds ⊢
    rw [SuitsAll, ← chains]
    constructor
    · intro combined
      refine ⟨fun address => ?_, combined.separate⟩
      rw [← covered_cons]
      exact (combined.covered address).trans (old address).symm
    · rintro ⟨covered, separate⟩
      have same (address : Nat) : Covered (combineFrom width first first rest) address ↔ Covered entries address := by
        rw [covered address, ← covered_cons]
        exact old address
      exact ⟨same, separate, fun address =>
        (finds (fun entry member => (ends entry member).2) separate address).trans (same address)⟩

/-- Both classes. -/
theorem combineConsecutiveRanges_iff {width : Nat} (vector : RangeVector width) (array : RangeArray)
    (sized : Sized width vector.entries) (arraySized : Sized 64 array.entries) :
    (Combined vector.entries vector.sort.combineConsecutiveRanges.entries
        vector.sort.combineConsecutiveRanges.findEntryThatContains ↔ SuitsAll width (sortRanges vector.entries)) ∧
      (Combined array.entries array.sort.combineConsecutiveRanges.entries
        array.sort.combineConsecutiveRanges.findEntryThatContains ↔ SuitsAll 64 (sortRanges array.entries)) :=
  ⟨combineConsecutive_iff width sized _ (RangeVector.found_iff _),
    combineConsecutive_iff 64 arraySized _ (RangeArray.found_iff _)⟩

theorem sortRanges_of_sorted
    (sorted : entries.Pairwise fun left right => (!right.lt left) = true) : sortRanges entries = entries :=
  mergeSort_of_pairwise sorted

def adjoining : RangeVector 32 := ⟨[⟨0, 16⟩, ⟨16, 16⟩, ⟨20, 30⟩, ⟨64, 8⟩]⟩

theorem combineConsecutiveRanges_iff_adjoining :
    Combined adjoining.entries adjoining.sort.combineConsecutiveRanges.entries
        adjoining.sort.combineConsecutiveRanges.findEntryThatContains ∧
      Combined adjoining.entries (RangeArray.mk adjoining.entries).sort.combineConsecutiveRanges.entries
        (RangeArray.mk adjoining.entries).sort.combineConsecutiveRanges.findEntryThatContains := by
  have suits (width : Nat) (wide : 32 ≤ width) : SuitsAll width (sortRanges adjoining.entries) := by
    have power : 2 ^ 32 ≤ 2 ^ width := Nat.pow_le_pow_right (by decide) wide
    rw [sortRanges_of_sorted (by decide)]
    simp [SuitsAll, Suits, adjoining, Range.doesAdjoinOrIntersect, Range.rangeEnd]
    omega
  have both := combineConsecutiveRanges_iff adjoining ⟨adjoining.entries⟩ (by simp [Sized, adjoining])
    (by simp [Sized, adjoining])
  exact ⟨both.1.mpr (suits 32 (le_refl 32)), both.2.mpr (suits 64 (by decide))⟩

/-- The second and third range lie within the first, whose end is lost. -/
theorem combineConsecutiveRanges_loses : ¬ ∀ vector : RangeVector 64, Sized 64 vector.entries →
    Combined vector.entries vector.sort.combineConsecutiveRanges.entries
      vector.sort.combineConsecutiveRanges.findEntryThatContains := by
  intro claim
  have combined := claim ⟨[⟨0, 100⟩, ⟨10, 10⟩, ⟨15, 15⟩]⟩ (by simp [Sized])
  obtain ⟨entry, member, inside⟩ := (combined.covered 50).mpr ⟨⟨0, 100⟩, mem_cons_self, by decide⟩
  rw [RangeVector.combineConsecutiveRanges, RangeVector.sort, sortRanges_of_sorted (by decide),
    show combineConsecutive 64 [⟨0, 100⟩, ⟨10, 10⟩, ⟨15, 15⟩] = [⟨0, 30⟩] by decide, mem_singleton] at member
  subst member
  exact absurd inside (by decide)

end Lldb
