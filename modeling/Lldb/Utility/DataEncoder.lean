import Lldb.Library.Window
import Lldb.Utility.HostOrder

/-! `DataEncoder`: storing integers into bytes at an offset. The host's byte order decides which way a word is
written, and on some hosts it is not the way that `DataExtractor` reads it.
-/

set_option autoImplicit false

namespace Lldb

open Library (Window)
open ByteOrder

/-- No constructor takes more bytes than a `uint32_t` counts. -/
structure DataEncoder where
  bytes : List UInt8
  byteOrder : ByteOrder
  addrSize : Nat
  small : bytes.length < 2 ^ 32

namespace DataEncoder

def uint32Max : Nat := 2 ^ 32 - 1

variable (host : ByteOrder) (encoder : DataEncoder)

def extractor : DataExtractor := ⟨encoder.bytes, encoder.byteOrder, encoder.addrSize⟩

variable (offset : Nat)

def validOffset : Bool := offset < encoder.bytes.length

def validOffsetForDataOfSize (offset length : Nat) : Bool := length ≤ encoder.bytes.length - offset

def store (values : List UInt8) : DataEncoder where
  bytes := Window.overwrite offset values encoder.bytes
  byteOrder := encoder.byteOrder
  addrSize := encoder.addrSize
  small := by
    rw [Window.length_overwrite]
    exact encoder.small

def putU8 (value : UInt8) : Nat × DataEncoder :=
  if encoder.validOffset offset then (offset + 1, encoder.store offset [value]) else (uint32Max, encoder)

/-- What `PutU16`, `PutU32` and `PutU64` do. -/
def putWord (size offset value : Nat) : Nat × DataEncoder :=
  if encoder.validOffsetForDataOfSize offset size then
    if encoder.byteOrder ≠ host then (offset + size, encoder.store offset (big.encode size value))
    else (offset + size, encoder.store offset (little.encode size value))
  else (uint32Max, encoder)

def putU16 (value : UInt16) : Nat × DataEncoder := encoder.putWord host 2 offset value.toNat

def putU32 (value : UInt32) : Nat × DataEncoder := encoder.putWord host 4 offset value.toNat

def putU64 (value : UInt64) : Nat × DataEncoder := encoder.putWord host 8 offset value.toNat

def putMaxU64 (offset byteSize : Nat) (value : UInt64) : Option (Nat × DataEncoder) :=
  match byteSize with
  | 1 => some (encoder.putU8 offset value.toUInt8)
  | 2 => some (encoder.putU16 host offset value.toUInt16)
  | 4 => some (encoder.putU32 host offset value.toUInt32)
  | 8 => some (encoder.putU64 host offset value)
  | _ => none

/-! What is put, and what is read back. -/

def IsSize (size : Nat) : Prop := size = 1 ∨ size = 2 ∨ size = 4 ∨ size = 8

instance (size : Nat) : Decidable (IsSize size) := inferInstanceAs (Decidable (_ ∨ _))

/-- The bytes that are put for an integer: the order of the data on a little-endian host, and the other
one on a big-endian host. -/
def putBytes (size value : Nat) : List UInt8 :=
  if encoder.byteOrder ≠ host then big.encode size value else little.encode size value

variable {host encoder}

@[simp] theorem length_putBytes (size value : Nat) : (encoder.putBytes host size value).length = size := by
  unfold putBytes
  split
  · exact length_encode _ _ _
  · exact length_encode _ _ _

variable (size value : Nat)

theorem littleBytes_mod : littleBytes size (value % 256 ^ size) = littleBytes size value := by
  rw [← littleValue_inj (by simp),
    littleValue_littleBytes_mod, littleValue_littleBytes_mod, Nat.mod_mod]

theorem putBytes_mod :
    encoder.putBytes host size (value % 256 ^ size) = encoder.putBytes host size value := by
  simp only [putBytes, encode, littleBytes_mod]

theorem putWord_eq {size offset : Nat} (valid : offset + size ≤ encoder.bytes.length) (positive : 0 < size)
    (value : Nat) :
    encoder.putWord host size offset value =
      (offset + size, encoder.store offset (encoder.putBytes host size value)) := by
  have room : encoder.validOffsetForDataOfSize offset size = true := decide_eq_true (by omega)
  unfold putWord putBytes
  rw [if_pos room]
  split
  · rfl
  · rfl

theorem putMaxU64_eq {size offset : Nat} (known : IsSize size) (valid : offset + size ≤ encoder.bytes.length)
    (value : UInt64) : encoder.putMaxU64 host offset size value =
      some (offset + size, encoder.store offset (encoder.putBytes host size value.toNat)) := by
  rcases known with rfl | rfl | rfl | rfl
  · -- A single byte is put as it is, whatever the host.
    have single : encoder.putBytes host 1 value.toNat = [value.toUInt8] := by
      unfold putBytes
      split
      · rfl
      · rfl
    have room : encoder.validOffset offset = true := decide_eq_true (by omega)
    rw [single]
    exact congrArg some (if_pos room)
  · have truncated : value.toUInt16.toNat = value.toNat % 256 ^ 2 := UInt64.toNat_toUInt16 value
    change some (encoder.putWord host 2 offset value.toUInt16.toNat) = _
    rw [putWord_eq valid (by decide), truncated, putBytes_mod]
  · have truncated : value.toUInt32.toNat = value.toNat % 256 ^ 4 := UInt64.toNat_toUInt32 value
    change some (encoder.putWord host 4 offset value.toUInt32.toNat) = _
    rw [putWord_eq valid (by decide), truncated, putBytes_mod]
  · exact congrArg some (putWord_eq valid (by decide) value.toNat)

theorem getMaxU64_store {size offset : Nat} (valid : offset + size ≤ encoder.bytes.length) {values : List UInt8}
    (length : values.length = size) : (encoder.store offset values).extractor.getMaxU64 size offset =
      some (encoder.byteOrder.decode values, offset + size) := by
  have fits : offset + size ≤ (Window.overwrite offset values encoder.bytes).length := by rwa [Window.length_overwrite]
  have room : (encoder.store offset values).extractor.validOffsetForDataOfSize offset size = true :=
    decide_eq_true (by change size ≤ (Window.overwrite offset values encoder.bytes).length - offset; omega)
  have stored := Window.read_overwrite ⟨offset, size⟩ length valid
  rw [DataExtractor.getMaxU64_valid room]
  exact congrArg (fun bytes => some (encoder.byteOrder.decode bytes, offset + size)) stored

theorem decode_putBytes : encoder.byteOrder.decode (encoder.putBytes host size value) = littleValue
      (if host = .little then littleBytes size value else (littleBytes size value).reverse) := by
  unfold putBytes
  cases host with
  | little =>
    cases encoder.byteOrder with
    | little => rfl
    | big => simp [decode, encode]
  | big =>
    cases encoder.byteOrder with
    | little => simp [decode, encode]
    | big => simp [decode, encode]

def Agrees (host : ByteOrder) (encoder : DataEncoder) (offset size : Nat) (value : UInt64) : Prop :=
  ∃ after, encoder.putMaxU64 host offset size value = some (offset + size, after) ∧
    after.extractor.getMaxU64On host size offset = some (value.toNat % 256 ^ size, offset + size) ∧
    after.byteOrder = encoder.byteOrder ∧ after.bytes.length = encoder.bytes.length ∧
    ∀ index, ¬ (offset ≤ index ∧ index < offset + size) → after.bytes[index]? = encoder.bytes[index]?

def Palindromic (size value : Nat) : Prop :=
  (littleBytes size value).reverse = littleBytes size value

theorem putMaxU64_agrees_iff (host : ByteOrder) (encoder : DataEncoder) {size offset : Nat} (known : IsSize size)
    (valid : offset + size ≤ encoder.bytes.length) (value : UInt64) :
    encoder.Agrees host offset size value ↔ host = .little ∨ Palindromic size value.toNat := by
  have short : size ≤ 8 := by
    rcases known with rfl | rfl | rfl | rfl <;> decide
  have put := @putMaxU64_eq host encoder _ _ known valid value
  have read := getMaxU64_store valid (@length_putBytes host encoder size value.toNat)
  rw [decode_putBytes, ← DataExtractor.getMaxU64On_eq host short] at read
  have comesBack : encoder.Agrees host offset size value ↔ littleValue (if host = .little then
      littleBytes size value.toNat else (littleBytes size value.toNat).reverse) =
        littleValue (littleBytes size value.toNat) := by
    rw [littleValue_littleBytes_mod]
    constructor
    · rintro ⟨after, stored, found, -⟩
      rw [put, Option.some.injEq, Prod.mk.injEq] at stored
      rw [← stored.2, read, Option.some.injEq, Prod.mk.injEq] at found
      exact found.1
    · intro same
      rw [same] at read
      refine ⟨_, put, read, rfl, Window.length_overwrite _ _ _, fun index outside => ?_⟩
      apply Window.getElem?_overwrite_outside
      rwa [length_putBytes]
  rw [comesBack]
  -- On a big-endian host the order of the data does not matter: the bytes are always put the other way round.
  by_cases little : host = .little
  · rw [if_pos little]
    exact iff_of_true rfl (.inl little)
  · rw [if_neg little, littleValue_inj (List.length_reverse), Palindromic, or_iff_right little]

/-- Two bytes on a little-endian host. -/
theorem putMaxU64_agrees_iff_two : Agrees .little ⟨[1, 2, 3, 4], .big, 8, by decide⟩ 1 2 0x1122 ↔
    little = .little ∨ Palindromic 2 (0x1122 : UInt64).toNat :=
  putMaxU64_agrees_iff .little ⟨[1, 2, 3, 4], .big, 8, by decide⟩ (by decide) (by decide) 0x1122

/-- On a big-endian host the bytes of a big-endian integer come back swapped. -/
theorem putMaxU64_not_agrees : ¬ ∀ (host : ByteOrder) (encoder : DataEncoder) (size offset : Nat) (value : UInt64),
    IsSize size → offset + size ≤ encoder.bytes.length → encoder.Agrees host offset size value := by
  intro always
  have agrees := always .big ⟨[0, 0], .big, 8, by decide⟩ 2 0 0x0102 (by decide) (by decide)
  obtain ⟨after, stored, found, -⟩ := agrees
  rw [show (⟨[0, 0], .big, 8, by decide⟩ : DataEncoder).putMaxU64 .big 0 2 0x0102 =
    some (2, ⟨[2, 1], .big, 8, by decide⟩) from rfl, Option.some.injEq, Prod.mk.injEq] at stored
  rw [← stored.2] at found
  exact absurd found (by decide)

end DataEncoder

end Lldb
