import Lldb.Utility.HostOrder
import Mathlib.Data.BitVec

/-! Bit fields of `DataExtractor`: a field of an integer is shifted down, masked, and for a signed one extended
again. A shift by the whole width has no value.
-/

set_option autoImplicit false

namespace Lldb.DataExtractor

open BitVec

variable (value : BitVec 64)

def shiftLeft? (count : Nat) :
    Option (BitVec 64) := if count < 64 then some (value <<< count) else none

def shiftRight? (count : Nat) :
    Option (BitVec 64) := if count < 64 then some (value >>> count) else none

/-- Of an `int64_t`. -/
def sshiftRight? (count : Nat) : Option (BitVec 64) :=
  if count < 64 then some (value.sshiftRight count) else none

/-- `llvm::SignExtend64` -/
def signExtend64 (bits : Nat) : BitVec 64 := (value <<< (64 - bits)).sshiftRight (64 - bits)

/-- `lsbcount`, an `int32_t`. -/
def lsbCount (order : ByteOrder) (size bitSize bitOffset : Nat) : Int :=
  match order with
  | .little => (bitOffset : Int).bmod (2 ^ 32)
  | .big => (size * 8 - bitOffset - bitSize : Int).bmod (2 ^ 32)

variable (host : ByteOrder) (data : DataExtractor)

def getMaxS64On (size : Nat) : Cursor (BitVec 64) := do
  let u64 ← data.getMaxU64On host size
  return signExtend64 (BitVec.ofNat 64 u64) (8 * size)

/-- `1ul` has 64 bits. -/
def getMaxU64Bitfield (size bitSize bitOffset : Nat) : Cursor (BitVec 64) := do
  let uval64 := BitVec.ofNat 64 (← data.getMaxU64On host size)
  if 0 < bitSize then
    let lsbcount := lsbCount data.byteOrder size bitSize bitOffset
    let uval64 ← StateT.lift (if 0 < lsbcount then shiftRight? uval64 lsbcount.toNat else some uval64)
    let bitfieldMask := (← StateT.lift (shiftLeft? 1 bitSize)) - 1
    if bitfieldMask = 0 ∧ bitOffset = 0 ∧ bitSize = 64 then return uval64
    else return uval64 &&& bitfieldMask
  else return uval64

def getMaxS64Bitfield (size bitSize bitOffset : Nat) : Cursor (BitVec 64) := do
  let sval64 ← data.getMaxS64On host size
  if 0 < bitSize then
    let lsbcount := lsbCount data.byteOrder size bitSize bitOffset
    let sval64 ← StateT.lift (if 0 < lsbcount then sshiftRight? sval64 lsbcount.toNat else some sval64)
    let bitfieldMask := (← StateT.lift (shiftLeft? 1 bitSize)) - 1
    let sval64 := sval64 &&& bitfieldMask
    let signBit ← StateT.lift (shiftLeft? 1 (bitSize - 1))
    if sval64 &&& signBit ≠ 0 then return sval64 ||| ~~~bitfieldMask
    else return sval64
  else return sval64

/-! The field itself. -/

def bitsBelow (order : ByteOrder) (size bitSize bitOffset : Nat) : Nat :=
  match order with
  | .little => bitOffset
  | .big => 8 * size - bitOffset - bitSize

def integerAt (size offset : Nat) : BitVec (8 * size) :=
  BitVec.ofNat (8 * size) (data.byteOrder.decode ((data.bytes.drop offset).take size))

/-- The bits are counted from the least significant one for little-endian data, and from the most significant one for
big-endian data. -/
def bitfieldAt (size bitSize bitOffset offset : Nat) : BitVec bitSize :=
  (data.integerAt size offset).extractLsb' (bitsBelow data.byteOrder size bitSize bitOffset) bitSize

structure FieldFits (size bitSize bitOffset : Nat) : Prop where
  positive : 1 ≤ size
  bytes : size ≤ 8
  bits : 1 ≤ bitSize
  inside : bitOffset + bitSize ≤ 8 * size

variable {host data}

variable {size bitSize bitOffset bits offset : Nat}

theorem FieldFits.below (fits : FieldFits size bitSize bitOffset) (order : ByteOrder) :
    bitsBelow order size bitSize bitOffset + bitSize ≤ 8 * size := by
  have inside := fits.inside
  cases order with
  | little => exact inside
  | big =>
    unfold bitsBelow
    dsimp only
    omega

theorem FieldFits.lsbCount_eq (fits : FieldFits size bitSize bitOffset)
    (order : ByteOrder) : lsbCount order size bitSize bitOffset = bitsBelow order size bitSize bitOffset := by
  obtain ⟨positive, bytes, bits, inside⟩ := fits
  cases order with
  | little =>
    unfold lsbCount bitsBelow
    rw [Int.bmod_eq_of_le (by omega) (by omega)]
  | big =>
    unfold lsbCount bitsBelow
    dsimp only
    rw [Int.bmod_eq_of_le (by omega) (by omega)]
    omega

theorem mask_getLsbD (short : bits < 64) (index : Nat) :
    ((1 : BitVec 64) <<< bits - 1).getLsbD index = decide (index < bits) := by
  have power : 2 ^ bits < 2 ^ 64 := Nat.pow_lt_pow_right (by decide) short
  have positive := Nat.two_pow_pos bits
  have mask : ((1 : BitVec 64) <<< bits - 1).toNat = 2 ^ bits - 1 := by
    have one : ((1 : BitVec 64) <<< bits).toNat = 2 ^ bits := by
      rw [toNat_shiftLeft, show (1 : BitVec 64).toNat = 1 from rfl, Nat.one_shiftLeft, Nat.mod_eq_of_lt power]
    rw [toNat_sub_of_le (by rw [le_def, one]; exact positive), one]
    rfl
  rw [← testBit_toNat, mask, Nat.testBit_two_pow_sub_one]

theorem and_mask (short : bits < 64) (word : BitVec 64) :
    word &&& ((1 : BitVec 64) <<< bits - 1) = (word.setWidth bits).setWidth 64 := by
  apply eq_of_getLsbD_eq
  intro index inside
  rw [getLsbD_and, mask_getLsbD short, Bool.and_comm]
  simp [inside]

theorem signExtend64_eq (short : bits ≤ 64) (value : BitVec bits) :
    signExtend64 (value.setWidth 64) bits = value.signExtend 64 := by
  apply eq_of_getLsbD_eq
  intro index inside
  unfold signExtend64
  grind

theorem setWidth_ushiftRight {width below : Nat} (wide : width ≤ 64)
    (value : BitVec width) : ((value.setWidth 64) >>> below).setWidth bits = value.extractLsb' below bits := by
  apply eq_of_getLsbD_eq
  intro index inside
  grind

theorem setWidth_sshiftRight {width below : Nat} (fits : below + bits ≤ width) (wide : width ≤ 64)
    (value : BitVec width) :
    ((value.signExtend 64).sshiftRight below).setWidth bits = value.extractLsb' below bits := by
  apply eq_of_getLsbD_eq
  intro index inside
  grind

theorem fill_sign (positive : 0 < bits) (short : bits < 64) (field : BitVec bits) :
    (if field.setWidth 64 &&& (1 : BitVec 64) <<< (bits - 1) ≠ 0 then
        field.setWidth 64 ||| ~~~((1 : BitVec 64) <<< bits - 1) else field.setWidth 64) = field.signExtend 64 := by
  have sign : field.setWidth 64 &&& (1 : BitVec 64) <<< (bits - 1) ≠ 0 ↔ field.msb = true := by
    rw [show (1 : BitVec 64) <<< (bits - 1) = twoPow 64 (bits - 1) from rfl, and_twoPow,
      getLsbD_setWidth, msb_eq_getLsbD_last]
    have inside : bits - 1 < 64 := by omega
    simp only [inside]
    cases field.getLsbD (bits - 1) with
    | false => simp
    | true =>
      have nonzero : twoPow 64 (bits - 1) ≠ 0 := by
        intro zero
        have bit := congrArg (fun word => word.getLsbD (bits - 1)) zero
        simp [inside] at bit
      simpa using nonzero
  apply eq_of_getLsbD_eq
  intro index inside
  rw [getLsbD_signExtend]
  -- The mask decides about the bits below the field's width, the sign about those from there on.
  by_cases negative : field.msb = true
  · rw [if_pos (sign.mpr negative), getLsbD_or, getLsbD_not, mask_getLsbD short, negative]
    by_cases low : index < bits
    · simp [low]
    · simp [inside, low]
  · rw [if_neg (fun set => negative (sign.mp set))]
    by_cases low : index < bits
    · simp [low]
    · simp [getLsbD_of_ge field index (Nat.le_of_not_lt low), Bool.not_eq_true _ ▸ negative]

theorem getMaxU64On_integer (host : ByteOrder) (short : size ≤ 8)
    (valid : data.validOffsetForDataOfSize offset size = true) : ∃ value, data.getMaxU64On host size offset =
      some (value, offset + size) ∧ BitVec.ofNat 64 value = (data.integerAt size offset).setWidth 64 := by
  have small := data.byteOrder.decode_lt ((data.bytes.drop offset).take size)
  rw [length_bytesAt valid, show 256 = 2 ^ 8 from rfl, ← pow_mul] at small
  refine ⟨data.byteOrder.decode ((data.bytes.drop offset).take size), ?_, ?_⟩
  · rw [getMaxU64On_eq host short, getMaxU64_valid valid]
  · apply eq_of_toNat_eq
    simp [integerAt, Nat.mod_eq_of_lt small]

theorem shift_of_below {shift : BitVec 64 → Nat → Option (BitVec 64)} {result : BitVec 64 → Nat → BitVec 64}
    {value : BitVec 64}
    {below : Nat} (defined : shift value below = some (result value below)) (still : result value 0 = value) :
    (if (0 : Int) < below then shift value (below : Int).toNat else some value) = some (result value below) := by
  rw [Int.toNat_natCast]
  rcases eq_zero_or_pos below with rfl | positive
  · rw [still]
    rfl
  · rw [if_pos (by omega), defined]

theorem getMaxU64Bitfield_eq (host : ByteOrder)
    (fits : FieldFits size bitSize bitOffset) (valid : data.validOffsetForDataOfSize offset size = true) :
    data.getMaxU64Bitfield host size bitSize bitOffset offset = if bitSize < 64 then
      some ((data.bitfieldAt size bitSize bitOffset offset).setWidth 64, offset + size) else none := by
  obtain ⟨value, read, integer⟩ := getMaxU64On_integer host fits.bytes valid
  have below := fits.below data.byteOrder
  have bits := fits.bits
  have bytes := fits.bytes
  have shifted : shiftRight? (BitVec.ofNat 64 value) (bitsBelow data.byteOrder size bitSize bitOffset) =
      some (BitVec.ofNat 64 value >>> bitsBelow data.byteOrder size bitSize bitOffset) := if_pos (by omega)
  have down := @shift_of_below shiftRight? (fun word count => word >>> count) _ _ shifted (ushiftRight_zero _)
  change (data.getMaxU64On host size offset).bind _ = _
  rw [read, Option.bind_some]
  dsimp only
  rw [if_pos (show 0 < bitSize from bits), fits.lsbCount_eq, down]
  by_cases short : bitSize < 64
  · have mask : shiftLeft? 1 bitSize = some ((1 : BitVec 64) <<< bitSize) := if_pos short
    rw [mask, if_pos short]
    change (if _ then (pure _ : Cursor (BitVec 64)) else pure _) (offset + size) = _
    rw [if_neg fun whole => absurd whole.2.2 short.ne, and_mask short, integer, setWidth_ushiftRight (by omega)]
    rfl
  · -- The mask is shifted by 64 before anything asks for a field of that width.
    have mask : shiftLeft? 1 bitSize = none := if_neg short
    rw [mask, if_neg short]
    rfl

theorem getMaxS64Bitfield_eq (host : ByteOrder)
    (fits : FieldFits size bitSize bitOffset) (valid : data.validOffsetForDataOfSize offset size = true) :
    data.getMaxS64Bitfield host size bitSize bitOffset offset = if bitSize < 64 then
      some ((data.bitfieldAt size bitSize bitOffset offset).signExtend 64, offset + size) else none := by
  obtain ⟨value, read, integer⟩ := getMaxU64On_integer host fits.bytes valid
  have below := fits.below data.byteOrder
  have bits := fits.bits
  have bytes := fits.bytes
  have extended : signExtend64 (BitVec.ofNat 64 value) (8 * size) = (data.integerAt size offset).signExtend 64 := by
    rw [integer, signExtend64_eq (by omega)]
  have shifted : sshiftRight? (signExtend64 (BitVec.ofNat 64 value) (8 * size))
      (bitsBelow data.byteOrder size bitSize bitOffset) =
        some ((signExtend64 (BitVec.ofNat 64 value) (8 * size)).sshiftRight
          (bitsBelow data.byteOrder size bitSize bitOffset)) := if_pos (by omega)
  have down := @shift_of_below sshiftRight? sshiftRight _ _ shifted sshiftRight_zero
  change ((data.getMaxU64On host size offset).bind _).bind _ = _
  rw [read]
  change (if 0 < bitSize then _ else _ : Cursor (BitVec 64)) (offset + size) = _
  rw [if_pos (show 0 < bitSize from bits), fits.lsbCount_eq, down]
  by_cases short : bitSize < 64
  · have mask : shiftLeft? 1 bitSize = some ((1 : BitVec 64) <<< bitSize) := if_pos short
    have sign : shiftLeft? 1 (bitSize - 1) = some ((1 : BitVec 64) <<< (bitSize - 1)) := if_pos (by omega)
    rw [mask, sign]
    change (if _ then (pure _ : Cursor (BitVec 64)) else pure _) (offset + size) = _
    rw [and_mask short, extended, setWidth_sshiftRight below (by omega), ← fill_sign bits short]
    unfold bitfieldAt
    split
    · rfl
    · rfl
  · have mask : shiftLeft? 1 bitSize = none := if_neg short
    rw [mask, if_neg short]
    rfl

def Exact (host : ByteOrder) (data : DataExtractor) (size bitSize bitOffset offset : Nat) : Prop :=
  data.getMaxU64Bitfield host size bitSize bitOffset offset =
      some ((data.bitfieldAt size bitSize bitOffset offset).setWidth 64, offset + size) ∧
    data.getMaxS64Bitfield host size bitSize bitOffset offset =
      some ((data.bitfieldAt size bitSize bitOffset offset).signExtend 64, offset + size)

theorem bitfields_exact_iff (host : ByteOrder) (data : DataExtractor) {size bitSize bitOffset offset : Nat}
    (fits : FieldFits size bitSize bitOffset) (valid : data.validOffsetForDataOfSize offset size = true) :
    data.Exact host size bitSize bitOffset offset ↔ bitSize < 64 := by
  unfold Exact
  rw [getMaxU64Bitfield_eq host fits valid, getMaxS64Bitfield_eq host fits valid]
  by_cases short : bitSize < 64
  · rw [if_pos short, if_pos short]
    exact iff_of_true ⟨rfl, rfl⟩ short
  · rw [if_neg short]
    refine iff_of_false ?_ short
    rintro ⟨unsigned, -⟩
    cases unsigned

/-- Three bits in the middle of a big-endian integer of two bytes. -/
theorem bitfields_exact_iff_middle : Exact .little ⟨[0, 0xb4, 0x01], .big, 8⟩ 2 3 2 1 ↔ 3 < 64 :=
  bitfields_exact_iff .little ⟨[0, 0xb4, 0x01], .big, 8⟩ ⟨by decide, by decide, by decide, by decide⟩ (by decide)

/-- A field that is the whole integer. -/
theorem bitfields_not_exact : ¬ ∀ (host : ByteOrder) (data : DataExtractor) (size bitSize bitOffset offset : Nat),
    FieldFits size bitSize bitOffset → data.validOffsetForDataOfSize offset size = true →
      data.Exact host size bitSize bitOffset offset := by
  intro always
  have exact_ := always .little ⟨[1, 2, 3, 4, 5, 6, 7, 8], .little, 8⟩ 8 64 0 0
    ⟨by decide, by decide, by decide, by decide⟩ (by decide)
  cases exact_.1

end Lldb.DataExtractor
