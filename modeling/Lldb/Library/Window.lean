import Mathlib.Algebra.Order.Ring.Int
import Mathlib.Data.List.GetD

/-! Windows of an array: reading one, copying into one, and two arrays that agree on one. -/

set_option autoImplicit false

namespace Library

open List

structure Window where
  offset : Nat
  size : Nat
  deriving DecidableEq, Repr

namespace Window

variable {α : Type}

instance : Membership Nat Window where
  mem window index := window.offset ≤ index ∧ index < window.offset + window.size

instance (index : Nat) (window : Window) : Decidable (index ∈ window) :=
  inferInstanceAs (Decidable (_ ∧ _))

variable {window left right : Window} {index offset : Nat} {cells values : List α}

theorem mem_iff : index ∈ window ↔ window.offset ≤ index ∧ index < window.offset + window.size := Iff.rfl

theorem mem_mk {size : Nat} : index ∈ (⟨offset, size⟩ : Window) ↔ offset ≤ index ∧ index < offset + size := Iff.rfl

def Apart (left right : Window) : Prop := ∀ index ∈ left, index ∉ right

def Within (left right : Window) : Prop := ∀ index ∈ left, index ∈ right

theorem within_iff : left.Within right ↔ left.size = 0 ∨
      right.offset ≤ left.offset ∧ left.offset + left.size ≤ right.offset + right.size := by
  constructor
  · intro within
    by_contra outside
    have first := within left.offset (mem_iff.mpr (by omega))
    have last := within (left.offset + left.size - 1) (mem_iff.mpr (by omega))
    rw [mem_iff] at first last
    omega
  · intro inside index member
    rw [mem_iff] at member ⊢
    omega

instance (left right : Window) : Decidable (left.Within right) := decidable_of_iff' _ within_iff

theorem Apart.symm (apart : left.Apart right) : right.Apart left :=
  fun index inRight inLeft => apart index inLeft inRight

theorem apart_iff (leftSome : 0 < left.size) (rightSome : 0 < right.size) :
    left.Apart right ↔ left.offset + left.size ≤ right.offset ∨ right.offset + right.size ≤ left.offset := by
  constructor
  · intro apart
    by_contra overlap
    have first := apart (max left.offset right.offset) (mem_iff.mpr (by omega))
    rw [mem_iff] at first
    omega
  · intro order index inLeft inRight
    rw [mem_iff] at inLeft inRight
    omega

theorem Apart.mono {inner : Window} (apart : left.Apart right) (within : inner.Within left) :
    inner.Apart right := fun index member => apart index (within index member)

def read (window : Window) (cells : List α) : List α := (cells.drop window.offset).take window.size

theorem getElem?_read (window : Window) (cells : List α) (index : Nat) :
    (window.read cells)[index]? = if index < window.size then cells[window.offset + index]? else none := by
  rw [read, getElem?_take, getElem?_drop]

theorem length_read (fits : window.offset + window.size ≤ cells.length) : (window.read cells).length = window.size := by
  rw [read, length_take, length_drop]
  omega

theorem read_all (cells : List α) : (⟨0, cells.length⟩ : Window).read cells = cells := by
  simp [read]

/-- Copies values into an array, cell by cell; cells past its end do not exist. -/
def overwrite (offset : Nat) (values cells : List α) : List α :=
  cells.mapIdx fun index cell => if offset ≤ index then values.getD (index - offset) cell else cell

@[simp] theorem length_overwrite (offset : Nat) (values cells : List α) :
    (overwrite offset values cells).length = cells.length := length_mapIdx

theorem getElem?_overwrite_inside (inside : index ∈ (⟨offset, values.length⟩ : Window)) (fits : index < cells.length) :
    (overwrite offset values cells)[index]? = values[index - offset]? := by
  rw [mem_mk] at inside
  have bound : index - offset < values.length := by omega
  simp [overwrite, getElem?_eq_getElem fits, if_pos inside.1, getElem?_eq_getElem bound]

theorem getElem?_overwrite_outside (outside : index ∉ (⟨offset, values.length⟩ : Window)) :
    (overwrite offset values cells)[index]? = cells[index]? := by
  rw [overwrite, getElem?_mapIdx]
  cases cells[index]? with
  | none => rfl
  | some cell =>
    rw [Option.map_some]
    split
    · next above =>
      rw [getD_eq_default _ _ (Nat.le_of_not_lt fun below =>
        outside (mem_mk.mpr ⟨above, by omega⟩))]
    · rfl

theorem overwrite_eq {offset : Nat} {values cells : List α} (fits : offset + values.length ≤ cells.length) :
    overwrite offset values cells = cells.take offset ++ values ++ cells.drop (offset + values.length) := by
  apply ext_getElem?
  intro index
  have front : (cells.take offset).length = offset := length_take_of_le (by omega)
  by_cases inside : index ∈ (⟨offset, values.length⟩ : Window)
  · have bounds := mem_mk.mp inside
    rw [getElem?_overwrite_inside inside (by omega), append_assoc,
      getElem?_append_right (by omega), front, getElem?_append_left (by omega)]
  · rw [getElem?_overwrite_outside inside]
    rw [mem_mk] at inside
    by_cases below : index < offset
    · rw [append_assoc, getElem?_append_left (by omega), getElem?_take, if_pos below]
    · rw [getElem?_append_right (by rw [length_append]; omega), length_append, getElem?_drop]
      congr 1
      omega

theorem read_overwrite (window : Window) (length : values.length = window.size)
    (fits : window.offset + window.size ≤ cells.length) :
    window.read (overwrite window.offset values cells) = values := by
  apply ext_getElem?
  intro index
  rw [getElem?_read]
  split
  · next below =>
    rw [getElem?_overwrite_inside (mem_mk.mpr (by omega)) (by omega), Nat.add_sub_cancel_left]
  · next beyond => rw [getElem?_eq_none (by omega)]

theorem getElem?_overwrite_front (long : cells.length ≤ values.length) (fits : index < cells.length) :
    (overwrite 0 (values.take cells.length) cells)[index]? = values[index]? := by
  have length : (values.take cells.length).length = cells.length := by
    rw [length_take, min_eq_left long]
  rw [getElem?_overwrite_inside (mem_mk.mpr (by omega)) fits, Nat.sub_zero, getElem?_take, if_pos fits]

def Agree (window : Window) (left right : List α) : Prop :=
  ∀ index ∈ window, left[index]? = right[index]?

theorem Agree.symm {left right : List α} (agree : window.Agree left right) :
    window.Agree right left := fun index inside => (agree index inside).symm

theorem agree_iff_read {left right : List α} : window.Agree left right ↔ window.read left = window.read right := by
  constructor
  · intro agree
    apply ext_getElem?
    intro index
    rw [getElem?_read, getElem?_read]
    split
    · exact agree _ (mem_iff.mpr (by omega))
    · rfl
  · intro same index inside
    rw [mem_iff] at inside
    have cell := congrArg (fun values => values[index - window.offset]?) same
    simp only [getElem?_read] at cell
    rwa [if_pos (by omega), if_pos (by omega), show window.offset + (index - window.offset) = index by omega] at cell

/-- Copying cells of another array to where they stand there only ever brings the two closer. -/
theorem overwrite_read (window : Window) (count : Nat) (source cells : List α) (index : Nat) :
    (overwrite window.offset ((window.read source).take count) cells)[index]? = cells[index]? ∨
      (overwrite window.offset ((window.read source).take count) cells)[index]? = source[index]? := by
  by_cases inside : index ∈ (⟨window.offset, ((window.read source).take count).length⟩ : Window)
  · by_cases fits : index < cells.length
    · right
      rw [getElem?_overwrite_inside inside fits]
      rw [mem_mk, length_take, read, length_take] at inside
      rw [getElem?_take, getElem?_read, if_pos (by omega), if_pos (by omega), Nat.add_sub_cancel' inside.1]
    · left
      rw [getElem?_eq_none (by simpa using fits), getElem?_eq_none (by simpa using fits)]
  · exact .inl (getElem?_overwrite_outside inside)

theorem Agree.overwrite_read {source : Window} {other : List α} (agree : window.Agree cells other)
    (count : Nat) : window.Agree (overwrite source.offset ((source.read other).take count) cells) other := by
  intro index inside
  obtain same | copied := Window.overwrite_read source count other cells index
  · exact same.trans (agree index inside)
  · exact copied

theorem agree_overwrite_read {other : List α}
    (fits : window.offset + window.size ≤ cells.length) (there : window.offset + window.size ≤ other.length) :
    window.Agree (overwrite window.offset (window.read other) cells) other := by
  intro index inside
  rw [mem_iff] at inside
  rw [getElem?_overwrite_inside (mem_mk.mpr (by rw [length_read there]; exact inside)) (by omega),
    getElem?_read, if_pos (by omega), Nat.add_sub_cancel' inside.1]

end Window

end Library
