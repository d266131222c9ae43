import Lldb.Core.Range
import Lldb.Library.Window
import Mathlib.Data.List.Perm.Basic
import Mathlib.Data.List.TakeWhile

/-! Vectors of ranges that are kept sorted, with insertion that combines neighbours.

Sizes have a width of their own, which may be less than that of the bases.
-/

set_option autoImplicit false

namespace Lldb

open List Option

open Library (Window)

namespace Range

def window (range : Range) : Window := ⟨range.base, range.size⟩

/-- `operator<`. -/
def lt (left right : Range) : Bool :=
  if left.base = right.base then left.size < right.size else left.base < right.base

def doesAdjoinOrIntersect (left right : Range) : Bool :=
  left.base ≤ right.rangeEnd && left.rangeEnd ≥ right.base

/-- `Union`, for sizes of `width` bits; nothing when the ranges are apart. -/
def union (width : Nat) (range other : Range) : Option Range :=
  if range.doesAdjoinOrIntersect other then
    let newEnd := max range.rangeEnd other.rangeEnd
    let base := min range.base other.base
    some ⟨base, (newEnd + 2 ^ 64 - base) % 2 ^ 64 % 2 ^ width⟩
  else none

end Range

structure RangeVector (width : Nat) where
  entries : List Range
  deriving DecidableEq, Repr

namespace RangeVector

variable {width : Nat}

variable (vector : RangeVector width)

def append (entry : Range) : RangeVector width := ⟨vector.entries ++ [entry]⟩

def lowerBound (entry : Range) : Nat :=
  (vector.entries.takeWhile (·.lt entry)).length

/-- The end of `CombinePrevAndNext`, at a position with entries in front of it. -/
def combineNext (width : Nat) (front : List Range) (position : Range) : List Range → List Range
  | [] => front ++ [position]
  | next :: rest =>
      match position.union width next with
      | some joined => front ++ joined :: rest
      | none => front ++ position :: next :: rest

/-- The position moves to the previous entry whether it was joined to it or not. -/
def combinePrevAndNext (width : Nat) (before : List Range) (position : Range) (after : List Range) : List Range :=
  match before.getLast? with
  | none => combineNext width [] position after
  | some previous =>
      match previous.union width position with
      | some joined => combineNext width before.dropLast joined after
      | none => combineNext width before.dropLast previous (position :: after)

def insert (entry : Range) (combine : Bool) : RangeVector width :=
  let position := vector.lowerBound entry
  let before := vector.entries.take position
  let after := vector.entries.drop position
  if combine then
    match after.head?.bind (·.union width entry) with
    | some joined => ⟨combinePrevAndNext width before joined after.tail⟩
    | none =>
        match before.getLast?.bind (·.union width entry) with
        | some joined => ⟨combinePrevAndNext width before.dropLast joined after⟩
        | none => ⟨before ++ entry :: after⟩
  else ⟨before ++ entry :: after⟩

def getEntryRef (index : Nat) : Range := vector.entries.getD index ⟨0, 0⟩

def removeEntryAtIndex (index : Nat) : RangeVector width :=
  ⟨vector.entries.eraseIdx index⟩

def findEntryIndexThatContains (address : Nat) : Option Nat :=
  let position := (vector.entries.takeWhile fun entry => entry.base < address).length
  if (vector.entries[position]?.any (·.contains address)) then some position
  else if 0 < position ∧ vector.entries[position - 1]?.any (·.contains address) then some (position - 1)
  else none

theorem findEntryIndexThatContains_spec {vector : RangeVector width} {address index : Nat}
    (found : vector.findEntryIndexThatContains address = some index) :
    ∃ entry, vector.entries[index]? = some entry ∧ entry.contains address := by
  unfold findEntryIndexThatContains at found
  dsimp only at found
  split_ifs at found with here before
  · cases found
    exact (any_eq_true _ _).mp here
  · cases found
    exact (any_eq_true _ _).mp before.2

theorem removeEntryAtIndex_perm {vector : RangeVector width} {index : Nat} {entry : Range}
    (listed : vector.entries[index]? = some entry) :
    vector.entries.Perm (entry :: (vector.removeEntryAtIndex index).entries) := by
  obtain ⟨bound, rfl⟩ := List.getElem?_eq_some_iff.mp listed
  exact (getElem_cons_eraseIdx_perm bound).symm

theorem insert_false (entry : Range) :
    (vector.insert entry false).entries.Perm (entry :: vector.entries) := by
  have split := take_append_drop (vector.lowerBound entry) vector.entries
  calc (vector.insert entry false).entries
    _ |>.Perm (entry :: (vector.entries.take (vector.lowerBound entry) ++ vector.entries.drop (vector.lowerBound entry))) :=
        perm_middle
    _ = entry :: vector.entries := by rw [split]

end RangeVector

def JoinStep (entries next : List Range) : Prop :=
  ∃ front left right rest, entries = front ++ left :: right :: rest ∧ left.base + left.size = right.base ∧
    next = front ++ ⟨left.base, left.size + right.size⟩ :: rest

abbrev Joins := Relation.ReflTransGen JoinStep

/-- Nonempty ranges within a region, in ascending order, none of which reaches into the next. -/
structure Laid (region : Range) (entries : List Range) : Prop where
  chain : entries.Pairwise fun left right => left.base + left.size ≤ right.base
  inside : ∀ entry ∈ entries, region.base ≤ entry.base ∧ entry.base + entry.size ≤ region.base + region.size
  nonempty : ∀ entry ∈ entries, 0 < entry.size

theorem Range.apart_of_le {left right : Range} (below : left.base + left.size ≤ right.base) :
    left.window.Apart right.window := by
  intro place inLeft inRight
  have last := inLeft.2
  have first := inRight.1
  simp only [Range.window] at last first
  omega

theorem Range.within_of_le {inner outer : Range} (first : outer.base ≤ inner.base)
    (last : inner.base + inner.size ≤ outer.base + outer.size) : inner.window.Within outer.window :=
  Window.within_iff.mpr (.inr ⟨first, last⟩)

theorem Laid.sublist {region : Range} {entries next : List Range} (laid : Laid region entries)
    (sub : next.Sublist entries) : Laid region next where
  chain := laid.chain.sublist sub
  inside entry member := laid.inside entry (sub.subset member)
  nonempty entry member := laid.nonempty entry (sub.subset member)

theorem Laid.shrink {region : Range} {front rest : List Range} {entry part : Range}
    (laid : Laid region (front ++ entry :: rest)) (first : entry.base ≤ part.base)
    (last : part.base + part.size ≤ entry.base + entry.size) (nonempty : 0 < part.size) :
    Laid region (front ++ part :: rest) := by
  obtain ⟨ordered, tail, across⟩ := pairwise_append.mp laid.chain
  obtain ⟨head, later⟩ := pairwise_cons.mp tail
  have inside := laid.inside
  have positive := laid.nonempty
  rw [forall_mem_append, forall_mem_cons] at inside positive
  refine ⟨pairwise_append.mpr ⟨ordered, pairwise_cons.mpr ⟨?_, later⟩, ?_⟩, ?_, ?_⟩
  · intro other member
    have := head other member
    omega
  · intro other member next listed
    rcases mem_cons.mp listed with rfl | behind
    · have := across other member entry mem_cons_self
      omega
    · exact across other member next (mem_cons_of_mem _ behind)
  · rw [forall_mem_append, forall_mem_cons]
    exact ⟨inside.1, ⟨by omega, by omega⟩, inside.2.2⟩
  · rw [forall_mem_append, forall_mem_cons]
    exact ⟨positive.1, nonempty, positive.2.2⟩

theorem Laid.step {region : Range} {entries next : List Range} (laid : Laid region entries)
    (step : JoinStep entries next) : Laid region next := by
  obtain ⟨front, left, right, rest, rfl, touch, rfl⟩ := step
  obtain ⟨chain, inside, nonempty⟩ := laid
  simp only [pairwise_append, pairwise_cons, mem_cons, forall_eq_or_imp] at chain
  obtain ⟨ordered, ⟨⟨-, -⟩, rightFirst, restOrdered⟩, across⟩ := chain
  refine ⟨?_, ?_, ?_⟩
  · simp only [pairwise_append, pairwise_cons, mem_cons, forall_eq_or_imp]
    refine ⟨ordered, ⟨fun entry member => ?_, restOrdered⟩, fun entry member => ?_⟩
    · have beyond := rightFirst entry member
      omega
    · exact ⟨(across entry member).1, fun other later => (across entry member).2.2 other later⟩
  · grind
  · grind

theorem Laid.joins {region : Range} {entries next : List Range} (laid : Laid region entries)
    (joins : Joins entries next) : Laid region next := by
  induction joins with
  | refl => exact laid
  | tail _ step ih => exact ih.step step

theorem Joins.covered {entries next : List Range} (joins : Joins entries next) {place : Nat}
    (covered : ∃ entry ∈ next, place ∈ entry.window) : ∃ entry ∈ entries, place ∈ entry.window := by
  induction joins with
  | refl => exact covered
  | tail _ step ih =>
    obtain ⟨front, left, right, rest, rfl, touch, rfl⟩ := step
    apply ih
    obtain ⟨entry, member, inside⟩ := covered
    rw [mem_append, mem_cons] at member
    rcases member with before | rfl | after
    · exact ⟨entry, mem_append_left _ before, inside⟩
    · by_cases below : place < right.base
      · refine ⟨left, by simp, Window.mem_iff.mpr ⟨inside.1, ?_⟩⟩
        exact touch ▸ below
      · refine ⟨right, by simp, Window.mem_iff.mpr ⟨Nat.le_of_not_lt below, ?_⟩⟩
        have reach := inside.2
        simp only [Range.window] at reach ⊢
        omega
    · exact ⟨entry, mem_append_right _ (.tail _ (.tail _ after)), inside⟩

theorem Joins.size {entries next : List Range} (joins : Joins entries next) {divisor : Nat}
    (divides : ∀ entry ∈ entries, divisor ∣ entry.size) : ∀ entry ∈ next, divisor ∣ entry.size := by
  induction joins with
  | refl => exact divides
  | tail _ step ih =>
    obtain ⟨front, left, right, rest, rfl, touch, rfl⟩ := step
    simp only [mem_append, mem_cons, or_imp, forall_and, forall_eq] at ih ⊢
    exact ⟨ih.1, Nat.dvd_add ih.2.1 ih.2.2.1, ih.2.2.2⟩

/-- A region whose ranges `Union` and `Contains` compute with exactly. -/
structure Range.Narrow (width : Nat) (region : Range) : Prop where
  fits : region.base + region.size < 2 ^ 64
  size : region.size < 2 ^ width

namespace RangeVector

variable {width : Nat} {region : Range}

variable (narrow : region.Narrow width)
include narrow

theorem union_below {left right joined : Range} (below : left.base + left.size ≤ right.base)
    (leftInside : region.base ≤ left.base) (rightInside : right.base + right.size ≤ region.base + region.size)
    (union : left.union width right = some joined ∨ right.union width left = some joined) :
    left.base + left.size = right.base ∧ joined = ⟨left.base, left.size + right.size⟩ := by
  obtain ⟨fits, size⟩ := narrow
  have leftEnd : left.rangeEnd = left.base + left.size := Nat.mod_eq_of_lt (by omega)
  have rightEnd : right.rangeEnd = right.base + right.size := Nat.mod_eq_of_lt (by omega)
  have span (touch : left.base + left.size = right.base) :
      (right.base + right.size + 2 ^ 64 - left.base) % 2 ^ 64 % 2 ^ width = left.size + right.size := by
    rw [show right.base + right.size + 2 ^ 64 - left.base = left.size + right.size + 2 ^ 64 by omega,
      Nat.add_mod_right, Nat.mod_eq_of_lt (by omega), Nat.mod_eq_of_lt (by omega)]
  rcases union with union | union
  · unfold Range.union Range.doesAdjoinOrIntersect at union
    split_ifs at union with adjoin
    rw [Bool.and_eq_true, decide_eq_true_eq, decide_eq_true_eq] at adjoin
    have touch : left.base + left.size = right.base := by omega
    rw [rightEnd, max_eq_right (by omega), min_eq_left (by omega), Option.some.injEq] at union
    exact ⟨touch, by rw [← union, span touch]⟩
  · unfold Range.union Range.doesAdjoinOrIntersect at union
    split_ifs at union with adjoin
    rw [Bool.and_eq_true, decide_eq_true_eq] at adjoin
    have touch : left.base + left.size = right.base := by omega
    rw [rightEnd, max_eq_left (by omega), min_eq_right (by omega), Option.some.injEq] at union
    exact ⟨touch, by rw [← union, span touch]⟩

theorem join_neighbours {front rest : List Range} {left right joined : Range}
    (laid : Laid region (front ++ left :: right :: rest))
    (union : left.union width right = some joined ∨ right.union width left = some joined) :
    JoinStep (front ++ left :: right :: rest) (front ++ joined :: rest) := by
  have below := (pairwise_append.mp laid.chain).2.1
  obtain ⟨touch, rfl⟩ := union_below narrow ((pairwise_cons.mp below).1 right mem_cons_self)
    (laid.inside left (by simp)).1 (laid.inside right (by simp)).2 union
  exact ⟨front, left, right, rest, rfl, touch, rfl⟩

theorem combineNext_joins {front : List Range} {position : Range}
    {after : List Range} (laid : Laid region (front ++ position :: after)) :
    Joins (front ++ position :: after) (combineNext width front position after) := by
  cases after with
  | nil => exact .refl
  | cons next rest =>
    rw [combineNext]
    cases union : position.union width next with
    | none => exact .refl
    | some joined => exact .single (join_neighbours narrow laid (.inl union))

theorem combinePrevAndNext_joins {before : List Range} {position : Range}
    {after : List Range} (laid : Laid region (before ++ position :: after)) :
    Joins (before ++ position :: after) (combinePrevAndNext width before position after) := by
  rcases eq_nil_or_concat before with rfl | ⟨front, previous, rfl⟩
  · exact combineNext_joins narrow laid
  · simp only [concat_eq_append, append_assoc] at laid ⊢
    simp only [combinePrevAndNext, getLast?_append, getLast?_singleton, some_or, dropLast_concat]
    split
    · rename_i joined union
      have step := join_neighbours narrow laid (.inl union)
      exact .head step (combineNext_joins narrow (laid.step step))
    · exact combineNext_joins narrow laid

omit narrow

/-- The entries before the lower bound end before a new range starts, and the others start after it. -/
theorem laid_insert {vector : RangeVector width} {entry : Range} (laid : Laid region vector.entries)
    (nonempty : 0 < entry.size)
    (inside : region.base ≤ entry.base ∧ entry.base + entry.size ≤ region.base + region.size)
    (apart : ∀ other ∈ vector.entries, entry.window.Apart other.window) :
    Laid region (vector.entries.take (vector.lowerBound entry) ++ entry ::
      vector.entries.drop (vector.lowerBound entry)) := by
  have beside (other : Range) (member : other ∈ vector.entries) :
      entry.base + entry.size ≤ other.base ∨ other.base + other.size ≤ entry.base :=
    (Window.apart_iff nonempty (laid.nonempty other member)).mp (apart other member)
  have split := takeWhile_append_dropWhile (p := (·.lt entry)) (l := vector.entries)
  rw [lowerBound]
  generalize parted : vector.entries.takeWhile (·.lt entry) = before at split ⊢
  generalize rest : vector.entries.dropWhile (·.lt entry) = after at split
  have less (other : Range) (member : other ∈ before) : other.base + other.size ≤ entry.base := by
    have lower := mem_takeWhile_imp (p := fun other : Range => other.lt entry) (parted ▸ member)
    have parts := beside other (split ▸ mem_append_left _ member)
    unfold Range.lt at lower
    split_ifs at lower with same
    · omega
    · have := of_decide_eq_true lower
      omega
  obtain ⟨chain, within, positive⟩ := laid
  rw [← split] at chain within positive beside ⊢
  rw [take_left, drop_left]
  have greater : ∀ other ∈ after, entry.base + entry.size ≤ other.base := by
    cases after with
    | nil => nofun
    | cons first later =>
      have notLess : ¬ first.lt entry := by
        have stop := dropWhile_get_zero_not (·.lt entry) vector.entries (by rw [rest]; simp)
        simpa [rest] using stop
      have firstAfter : entry.base + entry.size ≤ first.base := by
        have parts := beside first (by simp)
        have size := positive first (by simp)
        unfold Range.lt at notLess
        split_ifs at notLess with same
        · omega
        · rw [decide_eq_true_eq] at notLess
          omega
      intro other member
      rcases mem_cons.mp member with rfl | behind
      · exact firstAfter
      · have ordered := (pairwise_cons.mp (pairwise_append.mp chain).2.1).1 other behind
        omega
  obtain ⟨left, right, across⟩ := pairwise_append.mp chain
  refine ⟨?_, ?_, ?_⟩
  · refine pairwise_append.mpr ⟨left, pairwise_cons.mpr ⟨greater, right⟩, ?_⟩
    intro other member later listed
    rcases mem_cons.mp listed with rfl | behind
    · exact less other member
    · exact across other member later behind
  · rw [forall_mem_append] at within ⊢
    exact ⟨within.1, forall_mem_cons.mpr ⟨inside, within.2⟩⟩
  · rw [forall_mem_append] at positive ⊢
    exact ⟨positive.1, forall_mem_cons.mpr ⟨nonempty, positive.2⟩⟩

/-- Insertion with combining joins neighbours of the list that has the new range in its place. -/
theorem insert_joins (narrow : region.Narrow width) {vector : RangeVector width} {entry : Range}
    (laid : Laid region (vector.entries.take (vector.lowerBound entry) ++ entry ::
      vector.entries.drop (vector.lowerBound entry))) :
    Joins (vector.entries.take (vector.lowerBound entry) ++ entry ::
      vector.entries.drop (vector.lowerBound entry)) (vector.insert entry true).entries := by
  dsimp only [insert]
  generalize vector.entries.take (vector.lowerBound entry) = before at laid ⊢
  generalize vector.entries.drop (vector.lowerBound entry) = after at laid ⊢
  rw [if_pos rfl]
  split
  · rename_i joined found
    obtain ⟨next, first, union⟩ := bind_eq_some_iff.mp found
    obtain ⟨rest, rfl⟩ := head?_eq_some_iff.mp first
    have step := join_neighbours narrow laid (.inr union)
    exact .head step (combinePrevAndNext_joins narrow (laid.step step))
  · split
    · rename_i joined found
      obtain ⟨previous, last, union⟩ := bind_eq_some_iff.mp found
      obtain ⟨front, rfl⟩ := getLast?_eq_some_iff.mp last
      rw [append_assoc] at laid ⊢
      rw [dropLast_concat]
      have step := join_neighbours narrow laid (.inl union)
      exact .head step (combinePrevAndNext_joins narrow (laid.step step))
    · exact .refl

end RangeVector

end Lldb
