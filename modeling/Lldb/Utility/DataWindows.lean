import Lldb.Utility.DataExtractor

/-! `DataExtractor` as it is stored: a window on a shared buffer, or on bytes that someone else owns, that is set to
a part of another one or has another one appended.
-/

set_option autoImplicit false

namespace Lldb.DataExtractor

open List

abbrev Block := { bytes : List UInt8 // bytes.length < 2 ^ 63 }

structure Extent where
  block : Block
  start : Nat
  stop : Nat
  ordered : start ≤ stop
  inside : stop ≤ block.val.length

namespace Extent

variable (extent : Extent)

def byteSize : Nat := extent.stop - extent.start

def window : List UInt8 := (extent.block.val.drop extent.start).take extent.byteSize

def whole (block : Block) : Extent := ⟨block, 0, block.val.length, Nat.zero_le _, Nat.le_refl _⟩

@[simp] theorem window_whole (block : Block) : (whole block).window = block.val := take_length

@[simp] theorem length_window : extent.window.length = extent.byteSize := by
  have inside := extent.inside
  unfold window byteSize
  rw [length_take, length_drop]
  omega

def part (offset length : Nat) (valid : offset < extent.byteSize) : Extent where
  block := extent.block
  start := extent.start + offset
  stop := extent.start + offset + min length (extent.byteSize - offset)
  ordered := Nat.le_add_right _ _
  inside := by
    have ordered := extent.ordered
    have inside := extent.inside
    unfold byteSize at valid ⊢
    omega

theorem drop_take_window (offset length : Nat) : (extent.window.drop offset).take length =
    (extent.block.val.drop (extent.start + offset)).take (min length (extent.byteSize - offset)) := by
  unfold window
  rw [drop_take, drop_drop, take_take]

theorem window_part {offset length : Nat} (valid : offset < extent.byteSize) :
    (extent.part offset length valid).window = (extent.window.drop offset).take length := by
  rw [drop_take_window]
  change (extent.block.val.drop (extent.start + offset)).take
    (extent.start + offset + min length (extent.byteSize - offset) - (extent.start + offset)) = _
  rw [Nat.add_sub_cancel_left]

end Extent

/-- The pointers of an extractor: null, into the shared buffer that it holds, or into bytes it does not own. -/
inductive Held where
  | null
  | shared (extent : Extent)
  | unshared (extent : Extent)

namespace Held

def byteSize : Held → Nat
  | null => 0
  | shared extent | unshared extent => extent.byteSize

def window : Held → List UInt8
  | null => []
  | shared extent | unshared extent => extent.window

@[simp] theorem length_window (held : Held) : held.window.length = held.byteSize := by
  cases held with
  | null => rfl
  | shared extent => exact extent.length_window
  | unshared extent => exact extent.length_window

end Held

structure Stored where
  held : Held
  byteOrder : ByteOrder
  addrSize : Nat

namespace Stored

def getByteSize (data : Stored) : Nat := data.held.byteSize

def window (data : Stored) : List UInt8 := data.held.window

def extractor (data : Stored) : DataExtractor := ⟨data.window, data.byteOrder, data.addrSize⟩

/-- `SetData` of bytes that are not owned. -/
def setBytes (extent : Extent) : Held := if extent.byteSize = 0 then .null else .unshared extent

/-- `SetData` of a part of a shared buffer, which is not held where there are no bytes. -/
def setBuffer (block : Block) (offset length : Nat) : Held :=
  if length > 0 then
    if inside : offset < block.val.length then
      if fits : length ≤ block.val.length - offset then
        .shared ⟨block, offset, offset + length, Nat.le_add_right _ _, by omega⟩
      else .shared ⟨block, offset, offset + (block.val.length - offset), Nat.le_add_right _ _, by omega⟩
    else .null
  else .null

/-- `SetData` of a part of another extractor. -/
def setData (self data : Stored) (dataOffset dataLength : UInt64) : Nat × Stored :=
  match data.held with
  | .shared extent =>
    let held := setBuffer extent.block ((extent.start + dataOffset.toNat) % 2 ^ 64) dataLength.toNat
    (held.byteSize, ⟨held, data.byteOrder, data.addrSize⟩)
  | .null => (0, { self with addrSize := data.addrSize })
  | .unshared extent =>
    if valid : dataOffset.toNat < extent.byteSize then
      let held := setBytes (extent.part dataOffset.toNat dataLength.toNat valid)
      (held.byteSize, ⟨held, data.byteOrder, data.addrSize⟩)
    else (0, { self with addrSize := data.addrSize })

def setHeap (self : Stored) (block : Block) : Stored := { self with held := setBuffer block 0 (2 ^ 64 - 1) }

def copy (data dest : Stored) : Nat × Stored :=
  match data.held with
  | .shared extent => (data.getByteSize, dest.setHeap extent.block)
  | .null => (data.getByteSize, dest.setHeap ⟨[], by decide⟩)
  | .unshared extent =>
    (data.getByteSize, dest.setHeap ⟨extent.window, by
      have inside := extent.inside
      have small := extent.block.property
      rw [Extent.length_window, Extent.byteSize]
      omega⟩)

/-- `Append` of an extractor; a buffer that no vector can be as large as is not filled, and written to all the same. -/
def append (self rhs : Stored) : Option (Bool × Stored) :=
  if rhs.byteOrder ≠ self.byteOrder then some (false, self)
  else if rhs.getByteSize = 0 then some (true, self)
  else if self.getByteSize = 0 then some (decide ((rhs.copy self).1 > 0), (rhs.copy self).2)
  else if fits : (self.window ++ rhs.window).length < 2 ^ 63 - 1 then
    some (true, self.setHeap ⟨self.window ++ rhs.window, by omega⟩)
  else none

/-! Windows of windows. -/

theorem window_setBytes (extent : Extent) : (setBytes extent).window = extent.window := by
  unfold setBytes
  split_ifs with none_
  · exact (length_eq_zero_iff.mp (extent.length_window.trans none_)).symm
  · rfl

theorem window_setBuffer (block : Block) (offset length : Nat) :
    (setBuffer block offset length).window = (block.val.drop offset).take length := by
  unfold setBuffer
  split_ifs with some_ inside fits
  · change (block.val.drop offset).take (offset + length - offset) = _
    rw [Nat.add_sub_cancel_left]
  · change (block.val.drop offset).take (offset + (block.val.length - offset) - offset) = _
    rw [take_eq_take_iff, length_drop]
    omega
  · rw [drop_eq_nil_of_le (Nat.le_of_not_lt inside), take_nil]
    rfl
  · rw [Nat.eq_zero_of_not_pos some_]
    rfl

theorem window_setHeap (self : Stored) (block : Block) : (self.setHeap block).window = block.val := by
  change (setBuffer block 0 (2 ^ 64 - 1)).window = _
  rw [window_setBuffer, drop_zero, take_of_length_le (by omega)]

/-- A part of a shared buffer: of no bytes, within the window or up to the end of the buffer, or out of both. -/
def InsideBuffer (extent : Extent) (offset length : Nat) : Prop :=
  length = 0 ∨ (offset < extent.byteSize ∧
      (offset + length ≤ extent.byteSize ∨ extent.stop = extent.block.val.length)) ∨
    (extent.byteSize ≤ offset ∧ extent.block.val.length ≤ (extent.start + offset) % 2 ^ 64)

/-- What `SetData` makes a part of the other window. -/
def SetsInside (self data : Stored) (offset length : UInt64) : Prop :=
  match data.held with
  | .shared extent => InsideBuffer extent offset.toNat length.toNat
  | .null | .unshared _ => offset.toNat < data.getByteSize ∨ self.getByteSize = 0

theorem setBuffer_iff (extent : Extent) (offset length : Nat) :
    (setBuffer extent.block ((extent.start + offset) % 2 ^ 64) length).window =
      (extent.window.drop offset).take length ↔ InsideBuffer extent offset length := by
  have small := extent.block.property
  have inside := extent.inside
  unfold InsideBuffer
  rw [window_setBuffer, Extent.drop_take_window]
  by_cases valid : offset < extent.byteSize
  · unfold Extent.byteSize at valid ⊢
    rw [Nat.mod_eq_of_lt (by omega), take_eq_take_iff, length_drop]
    omega
  · have none_ : min length (extent.byteSize - offset) = 0 := by omega
    rw [none_, take_zero, take_eq_nil_iff, drop_eq_nil_iff]
    omega

theorem setData_iff (self data : Stored) (offset length : UInt64) :
    (self.setData data offset length).2.window = (data.window.drop offset.toNat).take length.toNat ↔
      self.SetsInside data offset length := by
  obtain ⟨held, byteOrder, addrSize⟩ := data
  have unchanged : self.held.window = [] ↔ self.getByteSize = 0 := by
    rw [← length_eq_zero_iff, Held.length_window]
    rfl
  cases held with
  | null =>
    change self.held.window = (([] : List UInt8).drop offset.toNat).take length.toNat ↔
      offset.toNat < 0 ∨ self.getByteSize = 0
    simp [unchanged]
  | shared extent => exact setBuffer_iff extent offset.toNat length.toNat
  | unshared extent =>
    change (self.setData ⟨.unshared extent, byteOrder, addrSize⟩ offset length).2.window =
      (extent.window.drop offset.toNat).take length.toNat ↔ offset.toNat < extent.byteSize ∨ self.getByteSize = 0
    unfold setData
    dsimp only
    by_cases valid : offset.toNat < extent.byteSize
    · rw [dif_pos valid]
      refine iff_of_true ?_ (.inl valid)
      exact (window_setBytes _).trans (extent.window_part valid)
    · rw [dif_neg valid, or_iff_right valid, drop_eq_nil_of_le, take_nil]
      · exact unchanged
      · rw [Extent.length_window]
        exact Nat.le_of_not_lt valid

/-! Windows one after the other. -/

def Appends (self rhs : Stored) : Prop :=
  match rhs.held with
  | .shared extent => rhs.byteOrder = self.byteOrder → self.getByteSize = 0 → 0 < extent.byteSize →
      extent.byteSize = extent.block.val.length
  | .null | .unshared _ => True

/-- A copy has the window of what is copied, unless that is a part of a shared buffer. -/
theorem copy_iff (self rhs : Stored) : (rhs.copy self).2.window = rhs.window ↔ match rhs.held with
    | .shared extent => extent.byteSize = extent.block.val.length
    | .null | .unshared _ => True := by
  obtain ⟨held, byteOrder, addrSize⟩ := rhs
  cases held with
  | null => exact iff_of_true (window_setHeap _ _) trivial
  | shared extent =>
    change (self.setHeap extent.block).window = extent.window ↔ extent.byteSize = extent.block.val.length
    rw [window_setHeap]
    constructor
    · intro same
      simp [same]
    · intro whole
      have ordered := extent.ordered
      have inside := extent.inside
      unfold Extent.window
      unfold Extent.byteSize at whole ⊢
      rw [show extent.start = 0 by omega, drop_zero, take_of_length_le (by omega)]
  | unshared extent => exact iff_of_true (window_setHeap _ _) trivial

theorem append_iff (self rhs : Stored) :
    (∀ after, self.append rhs = some (true, after) → after.window = self.window ++ rhs.window) ↔ self.Appends rhs := by
  have selfSize : self.getByteSize = self.window.length := (Held.length_window _).symm
  have rhsSize : rhs.getByteSize = rhs.window.length := (Held.length_window _).symm
  unfold append
  by_cases order : rhs.byteOrder = self.byteOrder
  · rw [if_neg (not_not.mpr order)]
    by_cases rhsNone : rhs.getByteSize = 0
    · rw [if_pos rhsNone]
      have nothing : rhs.window = [] := length_eq_zero_iff.mp (rhsSize ▸ rhsNone)
      refine iff_of_true ?_ ?_
      · rintro after same
        obtain rfl : self = after := by simpa using same
        rw [nothing, append_nil]
      · obtain ⟨held, byteOrder, addrSize⟩ := rhs
        cases held with
        | null => trivial
        | shared extent => exact fun _ _ some_ => absurd rhsNone some_.ne'
        | unshared extent => trivial
    · rw [if_neg rhsNone]
      by_cases selfNone : self.getByteSize = 0
      · rw [if_pos selfNone]
        have nothing : self.window = [] := length_eq_zero_iff.mp (selfSize ▸ selfNone)
        have copied : (rhs.copy self).1 = rhs.getByteSize := by
          unfold copy
          split <;> rfl
        have one : (∀ after, some (decide ((rhs.copy self).1 > 0), (rhs.copy self).2) = some (true, after) →
            after.window = [] ++ rhs.window) ↔ (rhs.copy self).2.window = rhs.window := by
          rw [copied, decide_eq_true (pos_of_ne_zero rhsNone)]
          constructor
          · intro all
            exact all _ rfl
          · rintro window after same
            obtain rfl : (rhs.copy self).2 = after := by simpa using same
            exact window
        rw [nothing, one, copy_iff]
        obtain ⟨held, byteOrder, addrSize⟩ := rhs
        cases held with
        | null => rfl
        | shared extent =>
          constructor
          · intro whole _ _ _
            exact whole
          · intro whole
            exact whole order selfNone (pos_of_ne_zero rhsNone)
        | unshared extent => rfl
      · refine iff_of_true ?_ ?_
        · intro after same
          split_ifs at same with fits
          · obtain rfl : self.setHeap ⟨self.window ++ rhs.window, by omega⟩ = after := by simpa using same
            exact window_setHeap _ _
        · obtain ⟨held, byteOrder, addrSize⟩ := rhs
          cases held with
          | null => trivial
          | shared extent => exact fun _ none_ => absurd none_ selfNone
          | unshared extent => trivial
  · rw [if_pos order]
    refine iff_of_true nofun ?_
    unfold Appends
    split
    · exact fun same => absurd same order
    · trivial
    · trivial

/-- Setting to a part of another window gives that part just if a shared buffer ends with the window or the part
does not reach its end, and an offset behind the end is behind that of the buffer, or nothing was read before;
appending gives both windows just if it is not a part of a shared buffer that is appended to nothing.
-/
theorem windows_iff (self data : Stored) (offset length : UInt64) :
    ((self.setData data offset length).2.window = (data.window.drop offset.toNat).take length.toNat ↔
      self.SetsInside data offset length) ∧
    ((∀ after, self.append data = some (true, after) → after.window = self.window ++ data.window) ↔
      self.Appends data) :=
  ⟨setData_iff self data offset length, append_iff self data⟩

def front : Stored := ⟨.shared ⟨⟨[1, 2, 3], by decide⟩, 0, 2, by decide, by decide⟩, .little, 8⟩

def nothing : Stored := ⟨.null, .little, 8⟩

/-- The third byte gets into the window, when it is asked for and when two bytes are appended to nothing. -/
theorem windows_not_inside : (nothing.setData front 1 2).2.window ≠ (front.window.drop 1).take 2 ∧
      ¬ ∀ after, nothing.append front = some (true, after) → after.window = nothing.window ++ front.window := by
  constructor
  · decide
  · intro claim
    exact absurd (claim _ rfl) (by decide)

end Stored

end Lldb.DataExtractor
