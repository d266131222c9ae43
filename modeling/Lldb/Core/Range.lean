import Mathlib.Algebra.Order.Ring.Int

/-! Address ranges with 64-bit bases, and the sorted arrays that hold them.

Ends are computed in 64-bit arithmetic, so a range that reaches the end of the
address space ends at zero or below its base.
-/

set_option autoImplicit false

namespace Lldb

def invalidAddress : Nat := 2 ^ 64 - 1

structure Range where
  base : Nat
  size : Nat
  deriving DecidableEq, Repr

namespace Range

def rangeEnd (range : Range) : Nat := (range.base + range.size) % 2 ^ 64

def contains (range : Range) (address : Nat) : Bool :=
  range.base ≤ address && address < range.rangeEnd

def containsEndInclusive (range : Range) (address : Nat) : Bool :=
  range.base ≤ address && address ≤ range.rangeEnd

def containsRange (range other : Range) : Bool :=
  range.contains other.base && range.containsEndInclusive other.rangeEnd

def doesIntersect (left right : Range) : Bool :=
  left.base < right.rangeEnd && left.rangeEnd > right.base

end Range

/-- `RangeArray`: entries in the order of the vector, sorted by the operations that add to it. -/
structure RangeArray where
  entries : List Range
  deriving DecidableEq, Repr

namespace RangeArray

/-- `std::lower_bound` by base: the entries before the position start below `address`. -/
def lowerBound (array : RangeArray) (address : Nat) : Nat :=
  (array.entries.takeWhile fun entry => entry.base < address).length

def findEntryThatContains (array : RangeArray) (address : Nat) : Option Range :=
  let position := array.lowerBound address
  match array.entries[position]?.filter (·.contains address) with
  | some entry => some entry
  | none =>
      if position = 0 then none
      else array.entries[position - 1]?.filter (·.contains address)

end RangeArray

end Lldb
