import Lldb.Library.Window
import Lldb.Utility.HostOrder

/-! `CopyByteOrderedData`: an integer of any length is copied into a buffer of another length and byte order.
-/

set_option autoImplicit false

namespace Lldb.DataExtractor

open Library (Window)
open ByteOrder List

/-- What the assertions of `CopyByteOrderedData` ask for. -/
structure CopyAsserts (data : DataExtractor) (srcOffset srcLen : Nat) (dst : List UInt8) (dstByteOrder : ByteOrder) :
    Prop where
  valid : data.validOffsetForDataOfSize srcOffset srcLen = true
  srcLen : 0 < srcLen
  dstLen : 0 < dst.length
  register : dstByteOrder = data.byteOrder ∨ dst.length ∈ [1, 2, 4, 8, 10, 16, 32]

/-- `memset` to zero. -/
def memset (offset count : Nat) (dst : List UInt8) : List UInt8 := Window.overwrite offset (replicate count 0) dst

def memcpy (offset : Nat) (src dst : List UInt8) : List UInt8 := Window.overwrite offset src dst

/-- The loops: `dst[i + target] = src[last - i]` for each `i` below `count`, which the assertions keep below 32 bits. -/
def swapLoop (target last count : Nat) (src dst : List UInt8) : List UInt8 :=
  (range count).foldl (fun dst i => dst.set (i + target) (src.getD (last - i) 0)) dst

/-- Returns how many bytes of the value were copied; `dst` has `dst_len` bytes. -/
def copyByteOrderedData (data : DataExtractor) (srcOffset srcLen : Nat) (dst : List UInt8) (dstByteOrder : ByteOrder) :
    Nat × List UInt8 :=
  if data.validOffsetForDataOfSize srcOffset srcLen then
    let src := (data.bytes.drop srcOffset).take srcLen
    let dstLen := dst.length
    if srcLen ≤ dstLen then
      let numZeroes := dstLen - srcLen
      match dstByteOrder, data.byteOrder with
      | .big, .big => (srcLen, memcpy numZeroes src (memset 0 numZeroes dst))
      | .big, .little => (srcLen, swapLoop numZeroes (srcLen - 1) srcLen src (memset 0 numZeroes dst))
      | .little, .big => (srcLen, memset srcLen numZeroes (swapLoop 0 (srcLen - 1) srcLen src dst))
      | .little, .little => (srcLen, memset srcLen numZeroes (memcpy 0 src dst))
    else
      match dstByteOrder, data.byteOrder with
      | .big, .big => (dstLen, memcpy 0 ((src.drop (srcLen - dstLen)).take dstLen) dst)
      | .big, .little => (dstLen, swapLoop 0 (dstLen - 1) dstLen src dst)
      | .little, .big => (dstLen, swapLoop 0 (srcLen - 1) dstLen src dst)
      | .little, .little => (dstLen, memcpy 0 (src.take dstLen) dst)
  else (0, dst)

/-! What each step leaves in the buffer. -/

variable {target count length : Nat} {src dst values : List UInt8}

theorem swapLoop_eq {last : Nat} (fits : target + count ≤ dst.length) : swapLoop target last count src dst =
      dst.take target ++ (range count).map (fun i => src.getD (last - i) 0) ++ dst.drop (target + count) := by
  induction count with
  | zero => simp [swapLoop]
  | succ count ih =>
    have step : swapLoop target last (count + 1) src dst =
        (swapLoop target last count src dst).set (count + target) (src.getD (last - count) 0) := by
      simp [swapLoop, range_succ]
    have front :
        (dst.take target ++ (range count).map fun i => src.getD (last - i) 0).length = count + target := by
      rw [length_append, length_map, length_range, length_take_of_le (by omega), add_comm]
    have next : dst.drop (target + count) = dst.get ⟨target + count, by omega⟩ :: dst.drop (target + (count + 1)) :=
      drop_eq_getElem_cons (by omega)
    rw [step, ih (by omega), set_append_right _ _ front.le, front, Nat.sub_self, next, set_cons_zero,
      range_succ, map_append, map_singleton]
    simp only [append_assoc, singleton_append]

/-- Counting down from the end of the first `last + 1` bytes reverses them. -/
theorem map_getD_reverse (inside : length ≤ src.length) (fits : count ≤ length) :
    (range count).map (fun i => src.getD (length - 1 - i) 0) = (src.take length).reverse.take count := by
  apply ext_getElem?
  intro index
  rw [getElem?_map, getElem?_take]
  by_cases below : index < count
  · have whole : (src.take length).length = length := length_take_of_le inside
    rw [if_pos below, getElem?_range below, Option.map_some, getElem?_reverse (by omega), whole,
      getElem?_take, if_pos (by omega), getD_eq_getElem _ _ (by omega), getElem?_eq_getElem (by omega)]
  · simp [if_neg below, getElem?_eq_none (by rwa [length_range, ← not_lt])]

theorem swapLoop_whole (inside : length ≤ src.length)
    (fits : count ≤ length) (room : target + count ≤ dst.length) : swapLoop target (length - 1) count src dst =
      dst.take target ++ (src.take length).reverse.take count ++ dst.drop (target + count) := by
  rw [swapLoop_eq room, map_getD_reverse inside fits]

/-! The bytes that are left: those of the value from its least significant one on, as many as the buffer has. -/

def arrange : ByteOrder → List UInt8 → List UInt8
  | .little, bytes => bytes
  | .big, bytes => bytes.reverse

def fit (length : Nat) (bytes : List UInt8) : List UInt8 := bytes.take length ++ replicate (length - bytes.length) 0

variable (order : ByteOrder)

@[simp] theorem littleValue_arrange (bytes : List UInt8) :
    littleValue (arrange order bytes) = order.decode bytes := by
  cases order with
  | little => rfl
  | big => rfl

@[simp] theorem decode_arrange (bytes : List UInt8) :
    order.decode (arrange order bytes) = littleValue bytes := by
  cases order with
  | little => rfl
  | big => exact congrArg littleValue (reverse_reverse bytes)

@[simp] theorem length_arrange (bytes : List UInt8) :
    (arrange order bytes).length = bytes.length := by
  cases order with
  | little => rfl
  | big => exact length_reverse

theorem littleValue_fit (length : Nat) (bytes : List UInt8) :
    littleValue (fit length bytes) = littleValue bytes % 256 ^ length := by
  rw [fit, littleValue_append, littleValue_zeros, mul_zero, add_zero]
  rcases le_total length bytes.length with long | short
  · exact littleValue_take long
  · rw [take_of_length_le short, Nat.mod_eq_of_lt]
    exact (littleValue_lt bytes).trans_le (Nat.pow_le_pow_right (by decide) short)

theorem fit_short {bytes : List UInt8} (short : bytes.length ≤ length) :
    fit length bytes = bytes ++ replicate (length - bytes.length) 0 := by
  rw [fit, take_of_length_le short]

theorem fit_long {bytes : List UInt8} (long : length < bytes.length) : fit length bytes = bytes.take length := by
  simp [fit, Nat.sub_eq_zero_of_le long.le]

theorem swapLoop_reverse (room : target + src.length ≤ dst.length) :
    swapLoop target (src.length - 1) src.length src dst =
      dst.take target ++ src.reverse ++ dst.drop (target + src.length) := by
  simp [swapLoop_whole (le_refl _) (le_refl _) room]

theorem memset_front (fits : values.length ≤ dst.length) :
    (memset 0 (dst.length - values.length) dst).take (dst.length - values.length) ++ values ++
        (memset 0 (dst.length - values.length) dst).drop (dst.length - values.length + values.length) =
      replicate (dst.length - values.length) 0 ++ values := by
  have zeros : (replicate (dst.length - values.length) (0 : UInt8)).length = dst.length - values.length :=
    length_replicate
  have length : (memset 0 (dst.length - values.length) dst).length = dst.length := Window.length_overwrite _ _ _
  have zeroed := @Window.overwrite_eq _ 0 (replicate (dst.length - values.length) 0) dst (by omega)
  rw [take_zero, nil_append] at zeroed
  rw [drop_eq_nil_of_le (by omega), append_nil, memset, zeroed, take_left' zeros]

theorem memset_behind (values dst : List UInt8) :
    memset values.length (dst.length - values.length) (values ++ dst.drop values.length) =
      values ++ replicate (dst.length - values.length) 0 := by
  have length : (values ++ dst.drop values.length).length = values.length + (dst.length - values.length) := by
    simp
  rw [memset, Window.overwrite_eq (by simp), length_replicate,
    drop_eq_nil_of_le length.le, append_nil, take_left' rfl]

theorem memcpy_front (fits : values.length ≤ dst.length) : memcpy 0 values dst = values ++ dst.drop values.length := by
  rw [memcpy, Window.overwrite_eq (by omega), take_zero, nil_append, zero_add]

theorem memcpy_whole (whole : values.length = dst.length) : memcpy 0 values dst = values := by
  simp [memcpy_front whole.le, whole]

theorem swapLoop_front (inside : length ≤ src.length) (fits : dst.length ≤ length) :
    swapLoop 0 (length - 1) dst.length src dst = (src.take length).reverse.take dst.length := by
  rw [swapLoop_whole inside fits (by omega), take_zero, nil_append, zero_add, drop_length, append_nil]

theorem copyByteOrderedData_eq {data : DataExtractor} {srcOffset srcLen : Nat} {dstByteOrder : ByteOrder}
    (valid : data.validOffsetForDataOfSize srcOffset srcLen = true) :
    data.copyByteOrderedData srcOffset srcLen dst dstByteOrder = (min srcLen dst.length,
      arrange dstByteOrder (fit dst.length (arrange data.byteOrder ((data.bytes.drop srcOffset).take srcLen)))) := by
  have length := length_bytesAt valid
  unfold copyByteOrderedData
  rw [if_pos valid]
  generalize (data.bytes.drop srcOffset).take srcLen = src at length ⊢
  subst length
  -- Each of the eight cases is the value cut or filled up, once the source is read from its least significant byte on.
  by_cases wide : src.length ≤ dst.length
  · have zeroed : (memset 0 (dst.length - src.length) dst).length = dst.length := Window.length_overwrite _ _ _
    have reversed : src.reverse.length = src.length := length_reverse
    rw [if_pos wide, min_eq_left wide, fit_short (by rwa [length_arrange]), length_arrange]
    cases dstByteOrder with
    | big =>
      cases data.byteOrder with
      | big =>
        dsimp only [arrange]
        rw [memcpy, Window.overwrite_eq (by omega), memset_front wide, reverse_append, reverse_replicate,
          reverse_reverse]
      | little =>
        dsimp only [arrange]
        have filled := memset_front (reversed.le.trans wide)
        rw [reversed] at filled
        rw [swapLoop_reverse (by omega), filled, reverse_append, reverse_replicate]
    | little =>
      cases data.byteOrder with
      | big =>
        dsimp only [arrange]
        have filled := memset_behind src.reverse dst
        rw [reversed] at filled
        rw [swapLoop_reverse (by omega), take_zero, nil_append, zero_add, filled]
      | little =>
        dsimp only [arrange]
        rw [memcpy_front wide, memset_behind]
  · rw [if_neg wide, min_eq_right (by omega), fit_long (by rw [length_arrange]; omega)]
    cases dstByteOrder with
    | big =>
      cases data.byteOrder with
      | big =>
        dsimp only [arrange]
        rw [memcpy_whole (by rw [length_take, length_drop]; omega), take_reverse, reverse_reverse,
          take_of_length_le (by rw [length_drop]; omega)]
      | little =>
        dsimp only [arrange]
        rw [swapLoop_front (by omega) (le_refl _), take_of_length_le (by rw [length_reverse, length_take]; omega)]
    | little =>
      cases data.byteOrder with
      | big =>
        dsimp only [arrange]
        rw [swapLoop_front (le_refl _) (by omega), take_length]
      | little =>
        dsimp only [arrange]
        rw [memcpy_whole (by rw [length_take]; omega)]

theorem copyByteOrderedData_value (data : DataExtractor) {srcOffset srcLen : Nat} {dst : List UInt8}
    {dstByteOrder : ByteOrder} (asserts : CopyAsserts data srcOffset srcLen dst dstByteOrder) :
    dstByteOrder.decode (data.copyByteOrderedData srcOffset srcLen dst dstByteOrder).2 =
        data.byteOrder.decode ((data.bytes.drop srcOffset).take srcLen) % 256 ^ dst.length ∧
      (data.copyByteOrderedData srcOffset srcLen dst dstByteOrder).2.length = dst.length ∧
      (data.copyByteOrderedData srcOffset srcLen dst dstByteOrder).1 = min srcLen dst.length := by
  rw [copyByteOrderedData_eq asserts.valid]
  refine ⟨?_, ?_, rfl⟩
  · simp [littleValue_fit]
  · rw [length_arrange, fit, length_append, length_take, length_replicate]
    omega

/-- Three little-endian bytes of four go into two big-endian ones. -/
theorem copyByteOrderedData_value_truncated :
    big.decode ((⟨[9, 1, 2, 3], .little, 8⟩ : DataExtractor).copyByteOrderedData 1 3 [7, 7] .big).2 =
        little.decode ((([9, 1, 2, 3] : List UInt8).drop 1).take 3) % 256 ^ 2 ∧
      ((⟨[9, 1, 2, 3], .little, 8⟩ : DataExtractor).copyByteOrderedData 1 3 [7, 7] .big).2.length = 2 ∧
      ((⟨[9, 1, 2, 3], .little, 8⟩ : DataExtractor).copyByteOrderedData 1 3 [7, 7] .big).1 = min 3 2 :=
  copyByteOrderedData_value ⟨[9, 1, 2, 3], .little, 8⟩ ⟨by decide, by decide, by decide, .inr (by decide)⟩

end Lldb.DataExtractor
