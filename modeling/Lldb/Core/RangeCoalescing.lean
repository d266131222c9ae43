import Lldb.Core.RangeVector
import Mathlib.Data.List.Chain

/-! Lists of ranges without neighbours that touch, and how often a list has a place.

Insertion with combining leaves no two neighbours that touch when there were none before.
-/

set_option autoImplicit false

namespace Lldb

open Library (Window)
open List Option

def covering (entries : List Range) (place : Nat) : Nat := entries.countP fun entry => place ∈ entry.window

theorem covering_append (left right : List Range) (place : Nat) :
    covering (left ++ right) place = covering left place + covering right place := countP_append

theorem covering_cons (entry : Range) (rest : List Range) (place : Nat) :
    covering (entry :: rest) place = covering [entry] place + covering rest place :=
  covering_append [entry] rest place

theorem covering_single (entry : Range) (place : Nat) :
    covering [entry] place = if place ∈ entry.window then 1 else 0 := by
  simp [covering]

theorem covering_perm {left right : List Range} (perm : left.Perm right) (place : Nat) :
    covering left place = covering right place := perm.countP_eq _

variable {entries front rest : List Range} {entry : Range}

theorem covering_pos {place : Nat} : 0 < covering entries place ↔ ∃ entry ∈ entries, place ∈ entry.window := by
  simp [covering]

theorem covering_cut (base left right place : Nat) :
    covering [⟨base, left + right⟩] place = covering [⟨base, left⟩] place + covering [⟨base + left, right⟩] place := by
  simp only [covering_single, Range.window, Window.mem_mk]
  split_ifs <;> omega

theorem covering_empty (base place : Nat) : covering [⟨base, 0⟩] place = 0 := by
  simp only [covering_single]
  exact if_neg fun inside => not_lt.mpr inside.1 inside.2

theorem Joins.covering {next : List Range} (joins : Joins entries next) (place : Nat) :
    covering next place = covering entries place := by
  induction joins with
  | refl => rfl
  | tail _ step ih =>
    obtain ⟨front, left, right, rest, rfl, touch, rfl⟩ := step
    rw [← ih]
    have cut := covering_cut left.base left.size right.size place
    rw [touch] at cut
    rw [covering_append, covering_append, covering_cons, covering_cons left, covering_cons right, cut, add_assoc]

theorem Joins.base {entries next : List Range} (joins : Joins entries next) {holds : Nat → Prop}
    (all : ∀ entry ∈ entries, holds entry.base) : ∀ entry ∈ next, holds entry.base := by
  induction joins with
  | refl => exact all
  | tail _ step ih =>
    obtain ⟨front, left, right, rest, rfl, touch, rfl⟩ := step
    simp only [mem_append, mem_cons, or_imp, forall_and, forall_eq] at ih ⊢
    exact ⟨ih.1, ih.2.1, ih.2.2.2⟩

/-- The places of a list that has each place at most once are those of ranges that lie apart. -/
theorem apart_of_covering (once : ∀ place, covering entries place ≤ 1) :
    entries.Pairwise fun left right => left.window.Apart right.window := by
  induction entries with
  | nil => exact .nil
  | cons entry rest ih =>
    refine pairwise_cons.mpr ⟨fun other member place here there => ?_, ih fun place => ?_⟩
    · have both := once place
      have behind := covering_pos.mpr ⟨other, member, there⟩
      rw [covering_cons, covering_single, if_pos here] at both
      omega
    · have both := once place
      rw [covering_cons] at both
      omega

def Spaced (entries : List Range) : Prop :=
  entries.IsChain fun left right => left.base + left.size < right.base

theorem Spaced.pairwise {entries : List Range} (spaced : Spaced entries) :
    entries.Pairwise fun left right => left.base + left.size < right.base := by
  refine @List.IsChain.pairwise _ _ _ ⟨?_⟩ spaced
  intro left middle right first second
  omega

theorem Spaced.laid {region : Range} (spaced : Spaced entries)
    (inside : ∀ entry ∈ entries, region.base ≤ entry.base ∧ entry.base + entry.size ≤ region.base + region.size)
    (nonempty : ∀ entry ∈ entries, 0 < entry.size) : Laid region entries where
  chain := spaced.pairwise.imp le_of_lt
  inside := inside
  nonempty := nonempty

theorem Spaced.grow {next : Range} (spaced : Spaced (front ++ [entry]))
    (base : next.base = entry.base) : Spaced (front ++ [next]) := by
  unfold Spaced at spaced ⊢
  rw [isChain_append] at spaced ⊢
  refine ⟨spaced.1, isChain_singleton _, fun left last right head => ?_⟩
  cases head
  rw [base]
  exact spaced.2.2 left last entry rfl

theorem spaced_split : Spaced (front ++ entry :: rest) ↔ Spaced (front ++ [entry]) ∧ Spaced (entry :: rest) :=
  isChain_split

theorem Spaced.shrink {part : Range} (spaced : Spaced (front ++ entry :: rest))
    (first : entry.base ≤ part.base) (last : part.base + part.size ≤ entry.base + entry.size) :
    Spaced (front ++ part :: rest) := by
  unfold Spaced at spaced ⊢
  rw [isChain_append, isChain_cons] at spaced ⊢
  obtain ⟨before, ⟨next, after⟩, across⟩ := spaced
  refine ⟨before, ⟨fun other head => ?_, after⟩, fun left final right head => ?_⟩
  · have := next other head
    omega
  · cases head
    have := across left final entry rfl
    omega

theorem Spaced.tail (spaced : Spaced (entry :: rest)) : Spaced rest :=
  List.IsChain.tail spaced

theorem Spaced.drop (spaced : Spaced (front ++ entry :: rest)) : Spaced (front ++ rest) := by
  have pairs := spaced.pairwise.sublist ((sublist_cons_self entry rest).append_left front)
  exact pairs.isChain

theorem Spaced.apart (spaced : Spaced entries) (nonempty : ∀ entry ∈ entries, 0 < entry.size)
    {left right : Range} (leftListed : left ∈ entries) (rightListed : right ∈ entries) :
    left.base + left.size ≠ right.base := by
  refine List.Pairwise.forall_of_forall_of_flip (R := fun left right => left.base + left.size ≠ right.base) ?_
    (spaced.pairwise.imp ne_of_lt) ?_ leftListed rightListed
  · intro entry member
    have := nonempty entry member
    omega
  · refine spaced.pairwise.imp_of_mem fun {first second} here there gap => ?_
    simp only [flip]
    omega

theorem Range.lt_iff {left right : Range} :
    left.lt right = true ↔ left.base < right.base ∨ left.base = right.base ∧ left.size < right.size := by
  unfold Range.lt
  split_ifs with same <;> simp [same]

def Sorted (entries : List Range) : Prop := entries.Pairwise fun left right => ¬ right.lt left

theorem Spaced.sorted (spaced : Spaced entries) : Sorted entries := by
  refine spaced.pairwise.imp fun gap less => ?_
  rw [Range.lt_iff] at less
  omega

namespace RangeVector

variable {width : Nat} {region : Range}

variable {vector : RangeVector width}

theorem lowerBound_parts (sorted : Sorted vector.entries) (entry : Range) :
    (∀ other ∈ vector.entries.take (vector.lowerBound entry), other.lt entry) ∧
      ∀ other ∈ vector.entries.drop (vector.lowerBound entry), ¬ other.lt entry := by
  have split := takeWhile_append_dropWhile (p := (·.lt entry)) (l := vector.entries)
  have less : ∀ other ∈ vector.entries.takeWhile (·.lt entry), other.lt entry = true :=
    fun other member => mem_takeWhile_imp (p := fun other : Range => other.lt entry) member
  have stop := head?_dropWhile_not (·.lt entry) vector.entries
  dsimp only [lowerBound]
  generalize vector.entries.takeWhile (·.lt entry) = before at *
  generalize vector.entries.dropWhile (·.lt entry) = behind at *
  rw [← split] at sorted ⊢
  rw [take_left, drop_left]
  refine ⟨less, ?_⟩
  cases behind with
  | nil => nofun
  | cons first rest =>
    have notLess : ¬ first.lt entry = true := by simpa using stop
    intro other member
    rcases mem_cons.mp member with rfl | further
    · exact notLess
    · have ordered := (pairwise_cons.mp (pairwise_append.mp sorted).2.1).1 other further
      rw [Range.lt_iff] at notLess ordered ⊢
      omega

theorem insert_sorted (sorted : Sorted vector.entries) (entry : Range) : Sorted (vector.insert entry false).entries := by
  have split := take_append_drop (vector.lowerBound entry) vector.entries
  obtain ⟨less, later⟩ := lowerBound_parts sorted entry
  rw [← split] at sorted
  obtain ⟨front, back, across⟩ := pairwise_append.mp sorted
  refine pairwise_append.mpr ⟨front, pairwise_cons.mpr ⟨later, back⟩, fun other here next there => ?_⟩
  rcases mem_cons.mp there with rfl | further
  · have := less other here
    rw [Range.lt_iff] at this ⊢
    omega
  · exact across other here next further

variable (narrow : region.Narrow width)
include narrow

theorem union_none_of_gap {left right : Range}
    (gap : left.base + left.size < right.base) (leftInside : region.base ≤ left.base)
    (rightInside : right.base + right.size ≤ region.base + region.size) :
    left.union width right = none ∧ right.union width left = none := by
  constructor
  · cases union : left.union width right with
    | none => rfl
    | some joined =>
      have touch := (union_below narrow (le_of_lt gap) leftInside rightInside (.inl union)).1
      omega
  · cases union : right.union width left with
    | none => rfl
    | some joined =>
      have touch := (union_below narrow (le_of_lt gap) leftInside rightInside (.inr union)).1
      omega

theorem gap_of_union_none {left right : Range} (below : left.base + left.size ≤ right.base)
    (rightInside : right.base + right.size ≤ region.base + region.size)
    (apart : left.union width right = none ∨ right.union width left = none) :
    left.base + left.size < right.base := by
  have fits := narrow.fits
  have leftEnd : left.rangeEnd = left.base + left.size := Nat.mod_eq_of_lt (by omega)
  have rightEnd : right.rangeEnd = right.base + right.size := Nat.mod_eq_of_lt (by omega)
  unfold Range.union Range.doesAdjoinOrIntersect at apart
  by_contra touch
  rcases apart with apart | apart
  · rw [if_pos (by simp only [Bool.and_eq_true, decide_eq_true_eq]; omega)] at apart
    cases apart
  · rw [if_pos (by simp only [Bool.and_eq_true, decide_eq_true_eq]; omega)] at apart
    cases apart

theorem combineNext_spaced {front after : List Range} {position : Range}
    (laid : Laid region (front ++ position :: after)) (spaced : Spaced (position :: after)) :
    combineNext width front position after = front ++ position :: after := by
  cases after with
  | nil => rfl
  | cons next rest =>
    rw [combineNext, (union_none_of_gap narrow (isChain_cons_cons.mp spaced).1
      (laid.inside position (by simp)).1 (laid.inside next (by simp)).2).1]

theorem combinePrevAndNext_spaced {before after : List Range} {position : Range}
    (laid : Laid region (before ++ position :: after)) (chain : Spaced before)
    (back : Spaced (position :: after)) : Spaced (combinePrevAndNext width before position after) := by
  rcases eq_nil_or_concat before with rfl | ⟨front, previous, rfl⟩
  · rw [combinePrevAndNext]
    exact (combineNext_spaced narrow laid back).symm ▸ back
  · rw [concat_eq_append] at chain laid ⊢
    rw [append_assoc, singleton_append] at laid
    simp only [combinePrevAndNext, getLast?_append, getLast?_singleton, some_or, dropLast_concat]
    have below := (pairwise_cons.mp (pairwise_append.mp laid.chain).2.1).1 position mem_cons_self
    have leftInside := (laid.inside previous (by simp)).1
    have rightInside := (laid.inside position (by simp)).2
    split
    · rename_i joined union
      obtain ⟨touch, rfl⟩ := union_below narrow below leftInside rightInside (.inl union)
      have behind : Spaced (⟨previous.base, previous.size + position.size⟩ :: after) := by
        refine isChain_cons.mpr ⟨fun next head => ?_, back.tail⟩
        have := (isChain_cons.mp back).1 next head
        simp only
        omega
      rw [combineNext_spaced narrow (laid.step (join_neighbours narrow laid (.inl union))) behind]
      exact spaced_split.mpr ⟨chain.grow rfl, behind⟩
    · rename_i union
      have gap := gap_of_union_none narrow below rightInside (.inl union)
      have behind : Spaced (previous :: position :: after) := isChain_cons_cons.mpr ⟨gap, back⟩
      rw [combineNext_spaced narrow laid behind]
      exact spaced_split.mpr ⟨chain, behind⟩

theorem insert_spaced {entry : Range} (spaced : Spaced vector.entries)
    (laid : Laid region (vector.entries.take (vector.lowerBound entry) ++ entry ::
      vector.entries.drop (vector.lowerBound entry))) :
    Spaced (vector.insert entry true).entries := by
  have split := take_append_drop (vector.lowerBound entry) vector.entries
  rw [← split] at spaced
  dsimp only [insert]
  generalize vector.entries.take (vector.lowerBound entry) = before at laid spaced ⊢
  generalize vector.entries.drop (vector.lowerBound entry) = after at laid spaced ⊢
  rw [if_pos rfl]
  have chainBefore : Spaced before := List.IsChain.left_of_append spaced
  have chainAfter : Spaced after := List.IsChain.right_of_append spaced
  split
  · rename_i joined found
    obtain ⟨next, first, union⟩ := bind_eq_some_iff.mp found
    obtain ⟨rest, rfl⟩ := head?_eq_some_iff.mp first
    have below := (pairwise_cons.mp (pairwise_append.mp laid.chain).2.1).1 next mem_cons_self
    have step := laid.step (join_neighbours narrow laid (.inr union))
    obtain ⟨touch, rfl⟩ := union_below narrow below (laid.inside entry (by simp)).1
      (laid.inside next (by simp)).2 (.inr union)
    refine combinePrevAndNext_spaced narrow step chainBefore
      (isChain_cons.mpr ⟨fun other head => ?_, chainAfter.tail⟩)
    have := (isChain_cons.mp chainAfter).1 other head
    simp only
    omega
  · rename_i apart
    have gapAfter : Spaced (entry :: after) := by
      refine isChain_cons.mpr ⟨fun next head => ?_, chainAfter⟩
      obtain ⟨rest, rfl⟩ := head?_eq_some_iff.mp head
      have below := (pairwise_cons.mp (pairwise_append.mp laid.chain).2.1).1 next mem_cons_self
      exact gap_of_union_none narrow below (laid.inside next (by simp)).2 (.inr apart)
    split
    · rename_i joined found
      obtain ⟨previous, last, union⟩ := bind_eq_some_iff.mp found
      obtain ⟨front, rfl⟩ := getLast?_eq_some_iff.mp last
      rw [append_assoc, singleton_append] at laid
      have below := (pairwise_cons.mp (pairwise_append.mp laid.chain).2.1).1 entry mem_cons_self
      have step := laid.step (join_neighbours narrow laid (.inl union))
      obtain ⟨touch, rfl⟩ := union_below narrow below (laid.inside previous (by simp)).1
        (laid.inside entry (by simp)).2 (.inl union)
      rw [dropLast_concat]
      refine combinePrevAndNext_spaced narrow step (List.IsChain.left_of_append chainBefore)
        (isChain_cons.mpr ⟨fun other head => ?_, chainAfter⟩)
      have := (isChain_cons.mp gapAfter).1 other head
      simp only
      omega
    · rename_i alone
      refine isChain_append.mpr ⟨chainBefore, gapAfter, fun left last right head => ?_⟩
      cases head
      obtain ⟨front, rfl⟩ := getLast?_eq_some_iff.mp last
      rw [append_assoc] at laid
      have below := (pairwise_cons.mp (pairwise_append.mp laid.chain).2.1).1 entry mem_cons_self
      refine gap_of_union_none narrow below (laid.inside entry (by simp)).2 (.inl ?_)
      rwa [getLast?_concat] at alone

end RangeVector

end Lldb
