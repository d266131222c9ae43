import Lldb.Core.RangeVector
import Lldb.Library.LowerBound

/-! Arrays of ranges with data. -/

set_option autoImplicit false

namespace Lldb

open List Option

structure RangeData (T : Type) where
  range : Range
  data : T
  deriving DecidableEq, Repr

structure RangeDataArray (T : Type) where
  entries : List (RangeData T)
  deriving DecidableEq, Repr

variable {T : Type}

/-- `operator<`, with that of the data. -/
def RangeData.lt (less : T → T → Bool) (left right : RangeData T) : Bool :=
  if left.range.base = right.range.base then
    if left.range.size = right.range.size then less left.data right.data
    else left.range.size < right.range.size
  else left.range.base < right.range.base

namespace RangeDataArray

def append (array : RangeDataArray T) (entry : RangeData T) : RangeDataArray T := ⟨array.entries ++ [entry]⟩

/-- `std::stable_sort`. -/
def sort (less : T → T → Bool) (array : RangeDataArray T) : RangeDataArray T :=
  ⟨array.entries.mergeSort fun left right => !right.lt less left⟩

/-- `std::lower_bound` by base. -/
def lowerBound (array : RangeDataArray T) (address : Nat) : Nat :=
  Library.lowerBound (fun index => array.entries[index]?.any fun entry => entry.range.base < address)
    array.entries.length

def findEntryThatContains (array : RangeDataArray T) (address : Nat) : Option (RangeData T) :=
  let position := array.lowerBound address
  match array.entries[position]?.filter (·.range.contains address) with
  | some entry => some entry
  | none =>
      if position = 0 then none
      else array.entries[position - 1]?.filter (·.range.contains address)

/-- What the comparison of the data must be for sorting to order the entries. -/
structure Weak (less : T → T → Bool) : Prop where
  asymm : ∀ left right, less left right = true → less right left = false
  trans : ∀ left middle right, less middle left = false → less right middle = false → less right left = false

theorem sort_perm (less : T → T → Bool) (array : RangeDataArray T) :
    (array.sort less).entries.Perm array.entries := mergeSort_perm _ _

theorem lt_eq_false_iff (less : T → T → Bool) (left right : RangeData T) :
    right.lt less left = false ↔ left.range.base < right.range.base ∨ left.range.base = right.range.base ∧
      (left.range.size < right.range.size ∨ left.range.size = right.range.size ∧
        less right.data left.data = false) := by
  rw [RangeData.lt]
  split_ifs with base size
  · simp [base, size]
  · rw [decide_eq_false_iff_not]
    omega
  · rw [decide_eq_false_iff_not]
    omega

variable {less : T → T → Bool}

theorem notLt_trans (weak : Weak less) {left middle right : RangeData T}
    (first : middle.lt less left = false) (second : right.lt less middle = false) : right.lt less left = false := by
  rw [lt_eq_false_iff] at first second ⊢
  rcases first with first | ⟨base, size | ⟨size, first⟩⟩ <;>
    rcases second with second | ⟨otherBase, otherSize | ⟨otherSize, second⟩⟩ <;> first
    | omega
    | exact .inr ⟨base.trans otherBase, .inr ⟨size.trans otherSize, weak.trans _ _ _ first second⟩⟩

theorem notLt_total (weak : Weak less) (left right : RangeData T) :
    right.lt less left = false ∨ left.lt less right = false := by
  rw [lt_eq_false_iff, lt_eq_false_iff]
  by_cases data : less right.data left.data = true
  · simp only [weak.asymm _ _ data, and_true]
    omega
  · simp only [Bool.eq_false_iff.mpr data, and_true]
    omega

theorem sort_notLt (weak : Weak less) (array : RangeDataArray T) :
    (array.sort less).entries.Pairwise fun left right => right.lt less left = false := by
  have ordered : (array.sort less).entries.Pairwise fun left right => (!right.lt less left) = true := by
    apply pairwise_mergeSort
    · intro left middle right first second
      rw [Bool.not_eq_true'] at first second ⊢
      exact notLt_trans weak first second
    · intro left right
      rw [Bool.or_eq_true, Bool.not_eq_true', Bool.not_eq_true']
      exact notLt_total weak left right
  exact ordered.imp fun inOrder => (Bool.not_eq_true' _).mp inOrder

theorem sort_sorted (weak : Weak less) (array : RangeDataArray T) :
    (array.sort less).entries.Pairwise fun left right => left.range.base ≤ right.range.base := by
  apply (sort_notLt weak array).imp
  intro left right inOrder
  rw [lt_eq_false_iff] at inOrder
  omega

abbrev Apart (left right : RangeData T) : Prop :=
  left.range.base < right.range.base ∧ left.range.rangeEnd ≤ right.range.base

theorem findEntryThatContains_spec {array : RangeDataArray T} {address : Nat} {entry : RangeData T}
    (found : array.findEntryThatContains address = some entry) :
    entry ∈ array.entries ∧ entry.range.contains address = true := by
  unfold findEntryThatContains at found
  dsimp only at found
  split at found
  · rename_i other here
    cases found
    obtain ⟨listed, holds⟩ := filter_eq_some_iff.mp here
    exact ⟨mem_of_getElem? listed, holds⟩
  · split_ifs at found
    obtain ⟨listed, holds⟩ := filter_eq_some_iff.mp found
    exact ⟨mem_of_getElem? listed, holds⟩

theorem findEntryThatContains_eq {array : RangeDataArray T} {address : Nat} {entry : RangeData T}
    (ordered : array.entries.Pairwise Apart) (member : entry ∈ array.entries)
    (contains : entry.range.contains address = true) : array.findEntryThatContains address = some entry := by
  obtain ⟨front, back, split⟩ := append_of_mem member
  have inside := contains
  simp only [Range.contains, Bool.and_eq_true, decide_eq_true_eq] at inside
  rw [split] at ordered
  obtain ⟨-, tail, across⟩ := pairwise_append.mp ordered
  have below (other : RangeData T) (early : other ∈ front) : other.range.base < address := by
    have := (across other early entry mem_cons_self).1
    omega
  have above (other : RangeData T) (late : other ∈ back) : address < other.range.base := by
    have := ((pairwise_cons.mp tail).1 other late).2
    omega
  obtain ⟨position, within, place⟩ : ∃ position, front.length ≤ position ∧ array.lowerBound address = position ∧
      (position = front.length ∧ entry.range.base = address ∨
        position = front.length + 1 ∧ entry.range.base < address) := by
    have bound (here : Nat) (spot : here = front.length ∧ entry.range.base = address ∨
        here = front.length + 1 ∧ entry.range.base < address) : array.lowerBound address = here := by
      rw [lowerBound, split]
      apply Library.lowerBound_eq
      · simp only [length_append, length_cons]
        omega
      · intro index small
        simp only [length_append, length_cons] at small
        rcases Nat.lt_trichotomy index front.length with early | same | late
        · have := below front[index] (getElem_mem early)
          simp only [getElem?_append_left early, getElem?_eq_getElem early, Option.any_some, decide_eq_true_eq]
          omega
        · subst same
          simp only [getElem?_append_right (Nat.le_refl _), Nat.sub_self, getElem?_cons_zero, Option.any_some,
            decide_eq_true_eq]
          omega
        · obtain ⟨behind, rfl⟩ := Nat.exists_eq_add_of_lt late
          have later : behind < back.length := by omega
          have := above back[behind] (getElem_mem later)
          have same : (front ++ entry :: back)[front.length + behind + 1]? = some back[behind] := by
            rw [getElem?_append_right (by omega), Nat.add_assoc, Nat.add_sub_cancel_left, getElem?_cons_succ,
              getElem?_eq_getElem later]
          simp only [same, Option.any_some, decide_eq_true_eq]
          omega
    by_cases atBase : entry.range.base = address
    · exact ⟨_, Nat.le_refl _, bound _ (.inl ⟨rfl, atBase⟩), .inl ⟨rfl, atBase⟩⟩
    · have less : entry.range.base < address := by omega
      exact ⟨_, Nat.le_succ _, bound _ (.inr ⟨rfl, less⟩), .inr ⟨rfl, less⟩⟩
  obtain ⟨lower, ⟨rfl, -⟩ | ⟨rfl, -⟩⟩ := place
  · simp only [findEntryThatContains, lower, split, getElem?_append_right (Nat.le_refl _), Nat.sub_self,
      getElem?_cons_zero, Option.filter_some, contains, if_true]
  · have next : (back.head?.filter (·.range.contains address)) = none := by
      rw [Option.filter_eq_none_iff]
      intro other head
      have := above other (mem_of_head? head)
      simp only [Range.contains, Bool.and_eq_true, decide_eq_true_eq]
      omega
    have behind : (front ++ entry :: back)[front.length + 1]? = back.head? := by
      rw [getElem?_append_right (by omega), Nat.add_sub_cancel_left, getElem?_cons_succ, head?_eq_getElem?]
    have here : (front ++ entry :: back)[front.length + 1 - 1]? = some entry := by
      simp
    simp [findEntryThatContains, lower, split, behind, next, here, contains, if_true]

end RangeDataArray

end Lldb
