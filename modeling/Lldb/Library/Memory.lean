import Lldb.Library.Window

/-! Memories as functions from addresses to cells: storing a list of values from an address on,
and reading a list of cells.
-/

set_option autoImplicit false

namespace Library

open List

namespace Memory

variable {α : Type}

/-- The memory with `values` stored from `address` on. -/
def write (memory : Nat → α) (address : Nat) (values : List α) : Nat → α :=
  fun other => if address ≤ other then values.getD (other - address) (memory other) else memory other

def read (memory : Nat → α) (address size : Nat) : List α := (List.range size).map fun index => memory (address + index)

@[simp] theorem length_read (memory : Nat → α) (address size : Nat) : (read memory address size).length = size := by
  simp [read]

theorem getElem?_read (memory : Nat → α) (address : Nat) {size index : Nat} (inside : index < size) :
    (read memory address size)[index]? = some (memory (address + index)) := by
  simp [read, inside]

variable {address : Nat} {other memory : Nat → α}

theorem write_outside (memory : Nat → α) {other : Nat} {values : List α}
    (outside : other ∉ (⟨address, values.length⟩ : Window)) : write memory address values other = memory other := by
  rw [Window.mem_mk] at outside
  unfold write
  split
  · rw [getD_eq_default _ _ (by omega)]
  · rfl

theorem write_inside (memory : Nat → α) {other : Nat} {values : List α}
    (inside : other ∈ (⟨address, values.length⟩ : Window)) :
    some (write memory address values other) = values[other - address]? := by
  rw [Window.mem_mk] at inside
  have bound : other - address < values.length := by omega
  simp [write, if_pos inside.1, getElem?_eq_getElem bound]

@[simp] theorem write_nil (memory : Nat → α) (address : Nat) : write memory address [] = memory := by
  funext other
  apply write_outside
  rw [Window.mem_mk, length_nil]
  omega

theorem write_congr (address : Nat) (values : List α) {place : Nat}
    (same : memory place = other place) : write memory address values place = write other address values place := by
  unfold write
  rw [same]

theorem read_congr {size : Nat} (same : ∀ place ∈ (⟨address, size⟩ : Window), memory place = other place) :
    read memory address size = read other address size := by
  apply map_congr_left
  intro index inside
  rw [mem_range] at inside
  exact same (address + index) (Window.mem_mk.mpr (by omega))

theorem of_read_eq {size place : Nat}
    (same : read memory address size = read other address size) (inside : place ∈ (⟨address, size⟩ : Window)) :
    memory place = other place := by
  rw [Window.mem_mk] at inside
  have cell := congrArg (·[place - address]?) same
  simp only [getElem?_read _ _ (show place - address < size by omega), Nat.add_sub_cancel' inside.1] at cell
  exact Option.some.inj cell

theorem read_write (memory : Nat → α) (address : Nat) (values : List α) :
    read (write memory address values) address values.length = values := by
  apply ext_getElem?
  intro index
  by_cases inside : index < values.length
  · rw [getElem?_read _ _ inside, write_inside memory (Window.mem_mk.mpr (by omega)), Nat.add_sub_cancel_left]
  · rw [getElem?_eq_none (by rw [length_read]; omega), getElem?_eq_none (by omega)]

theorem write_append (memory : Nat → α) (address : Nat) (front back : List α) :
    write (write memory address front) (address + front.length) back = write memory address (front ++ back) := by
  funext other
  unfold write
  by_cases before : address ≤ other
  · by_cases inFront : other - address < front.length
    · rw [if_neg (by omega), if_pos before, if_pos before, getD_append _ _ _ _ inFront]
    · rw [if_pos (by omega), if_pos before, getD_append_right _ _ _ _ (by omega),
        getD_eq_default _ _ (show front.length ≤ other - address by omega), if_pos before]
      congr 1
      omega
  · rw [if_neg (by omega), if_neg before, if_neg before]

def writeAll (memory : Nat → α) (writes : List (Nat × List α)) : Nat → α :=
  writes.foldl (fun memory values => write memory values.1 values.2) memory

def places (values : Nat × List α) : Window := ⟨values.1, values.2.length⟩

variable {writes : List (Nat × List α)} {place : Nat}

theorem writeAll_outside (memory : Nat → α) (outside : ∀ values ∈ writes, place ∉ places values) :
    writeAll memory writes place = memory place := by
  induction writes generalizing memory with
  | nil => rfl
  | cons values rest ih =>
    have others : ∀ other ∈ rest, place ∉ places other := fun other member => outside other (.tail _ member)
    exact (ih _ others).trans (write_outside memory (outside values mem_cons_self))

theorem writeAll_inside (memory : Nat → α)
    (apart : writes.Pairwise fun first second => (places first).Apart (places second)) {values : Nat × List α}
    (member : values ∈ writes) (inside : place ∈ places values) :
    some (writeAll memory writes place) = values.2[place - values.1]? := by
  induction writes generalizing memory with
  | nil => cases member
  | cons first rest ih =>
    obtain ⟨behind, others⟩ := pairwise_cons.mp apart
    rcases mem_cons.mp member with rfl | later
    · have kept : ∀ other ∈ rest, place ∉ places other := fun other there => behind other there place inside
      have last := writeAll_outside (write memory values.1 values.2) kept
      exact (congrArg some last).trans (write_inside memory inside)
    · exact ih _ others later

end Memory

end Library
