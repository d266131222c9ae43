import Lldb.GdbRemote.StringExtractor
import Lldb.Utility.DataEncoder

/-! Integers and bytes that `Stream` writes in hex, and the three decoders of `StringExtractor` for them.
-/

set_option autoImplicit false

namespace Lldb

open GdbRemote ByteOrder List

/-- What is written, and the flag `eBinary`. -/
structure Stream where
  text : Bytes
  binary : Bool
  byteOrder : ByteOrder
  deriving DecidableEq, Repr

namespace Stream

def write (bytes : Bytes) (stream : Stream) : Nat × Stream :=
  (bytes.length, { stream with text := stream.text ++ bytes })

def hexToAsciiHexChar : Bytes := ascii "0123456789abcdef"

/-- `_PutHex8` without a prefix. -/
def putHex8 (uvalue : UInt8) (stream : Stream) : Nat × Stream :=
  if stream.binary then stream.write [uvalue]
  else stream.write [hexToAsciiHexChar.getD (uvalue.toNat / 16 % 16) 0, hexToAsciiHexChar.getD (uvalue.toNat % 16) 0]

/-- The loops over `_PutHex8`, which add up what they have written. -/
def putHex8s : List UInt8 → Stream → Nat × Stream
  | [], stream => (0, stream)
  | uvalue :: rest, stream =>
    let (first, stream) := stream.putHex8 uvalue
    let (others, stream) := putHex8s rest stream
    (first + others, stream)

/-- What `PutHex16`, `PutHex32` and `PutHex64` do; no byte order is `eByteOrderInvalid`. -/
def putHexWord (size uvalue : Nat) (byteOrder : Option ByteOrder) (stream : Stream) : Nat × Stream :=
  match byteOrder.getD stream.byteOrder with
  | .little => stream.putHex8s ((range size).map fun byte => UInt8.ofNat (uvalue >>> (byte * 8)))
  | .big => stream.putHex8s ((range size).reverse.map fun byte => UInt8.ofNat (uvalue >>> (byte * 8)))

def putHex16 (uvalue : UInt16) (byteOrder : Option ByteOrder) (stream : Stream) : Nat × Stream :=
  stream.putHexWord 2 uvalue.toNat byteOrder

def putHex32 (uvalue : UInt32) (byteOrder : Option ByteOrder) (stream : Stream) : Nat × Stream :=
  stream.putHexWord 4 uvalue.toNat byteOrder

def putHex64 (uvalue : UInt64) (byteOrder : Option ByteOrder) (stream : Stream) : Nat × Stream :=
  stream.putHexWord 8 uvalue.toNat byteOrder

def putMaxHex64 (uvalue : UInt64) (byteSize : Nat) (byteOrder : Option ByteOrder) (stream : Stream) : Nat × Stream :=
  match byteSize with
  | 1 => stream.putHex8 uvalue.toUInt8
  | 2 => stream.putHex16 uvalue.toUInt16 byteOrder
  | 4 => stream.putHex32 uvalue.toUInt32 byteOrder
  | 8 => stream.putHex64 uvalue byteOrder
  | _ => (0, stream)

def putBytesAsRawHex8 (src : Bytes) (srcByteOrder dstByteOrder : Option ByteOrder) (stream : Stream) : Nat × Stream :=
  let cleared := { stream with binary := false }
  let (written, stream') :=
    if srcByteOrder.getD stream.byteOrder = dstByteOrder.getD stream.byteOrder then cleared.putHex8s src
    else cleared.putHex8s src.reverse
  (written, { stream' with binary := stream.binary })

end Stream

namespace GdbRemote.StringExtractor

/-- The loop of `GetHexMaxU64` over little-endian digits, which come in pairs. -/
def hexLoopLittle (failValue : Nat) : Nat → Nat → Nat → Bytes → Nat × StringExtractor
  | result, _, _, [] => (result, some [])
  | result, nibbleCount, shiftAmount, hi :: rest =>
    match hexDigit? hi with
    | none => (result, some (hi :: rest))
    | some nibbleHi =>
      if 16 ≤ nibbleCount then (failValue, none)
      else
        match rest with
        | [] => (result ||| nibbleHi <<< shiftAmount % 2 ^ 64, some [])
        | lo :: rest =>
          match hexDigit? lo with
          | some nibbleLo =>
            hexLoopLittle failValue
              (result ||| nibbleHi <<< (shiftAmount + 4) % 2 ^ 64 ||| nibbleLo <<< shiftAmount % 2 ^ 64)
              (nibbleCount + 2) (shiftAmount + 8) rest
          | none => (result ||| nibbleHi <<< shiftAmount % 2 ^ 64, some (lo :: rest))

/-- `GetHexMaxU64` in either order. -/
def getHexMaxU64In (littleEndian : Bool) (failValue : Nat) (extractor : StringExtractor) : Nat × StringExtractor :=
  if littleEndian then
    match extractor.skipSpaces with
    | none => (0, none)
    | some rest => hexLoopLittle failValue 0 0 0 rest
  else extractor.getHexMaxU64 failValue

/-- The loops of `GetHexWithFixedSize`. -/
def fixedLoop (littleEndian : Bool) : Nat → Nat → Nat → StringExtractor → Nat × StringExtractor
  | 0, _, result, extractor => (result, extractor)
  | count + 1, shiftAmount, result, extractor =>
    if extractor.isGood then
      let (byte, next) := extractor.getHexU8 0
      let result :=
        if littleEndian then result ||| byte.toNat <<< shiftAmount % 2 ^ 64
        else (result <<< 8 % 2 ^ 64) ||| byte.toNat
      fixedLoop littleEndian count (shiftAmount + 8) result next
    else (result, extractor)

def getHexWithFixedSize (byteSize : Nat) (littleEndian : Bool) (failValue : Nat) (extractor : StringExtractor) :
    Nat × StringExtractor :=
  let _result := if byteSize ≤ 8 ∧ byteSize * 2 ≤ extractor.getBytesLeft then
    (fixedLoop littleEndian byteSize 0 0 extractor).1 else 0
  (failValue, none)

end GdbRemote.StringExtractor

/-! What is written. -/

namespace Stream

variable {stream : Stream}

theorem length_putHex8s (bytes : List UInt8) : (bytes.flatMap GdbRemote.putHex8).length = bytes.length * 2 := by
  simp [GdbRemote.putHex8]

theorem hexToAsciiHexChar_getD {nibble : Nat} (small : nibble < 16) :
    hexToAsciiHexChar.getD nibble 0 = nibbleChar nibble := by
  have table : ∀ nibble : Fin 16, hexToAsciiHexChar.getD nibble.val 0 = nibbleChar nibble.val := by decide
  exact table ⟨nibble, small⟩

theorem putHex8_text (text : stream.binary = false) (uvalue : UInt8) :
    stream.putHex8 uvalue = stream.write (GdbRemote.putHex8 uvalue) := by
  have small := uvalue.toNat_lt
  unfold putHex8
  rw [text, hexToAsciiHexChar_getD (Nat.mod_lt _ (by decide)), hexToAsciiHexChar_getD (Nat.mod_lt _ (by decide)),
    Nat.mod_eq_of_lt (show uvalue.toNat / 16 < 16 by omega)]
  rfl

theorem putHex8s_text (text : stream.binary = false) (bytes : List UInt8) :
    stream.putHex8s bytes = stream.write (bytes.flatMap GdbRemote.putHex8) := by
  induction bytes generalizing stream with
  | nil => simp [putHex8s, write]
  | cons byte bytes ih =>
    have next := @ih (stream.putHex8 byte).2 (by rw [putHex8_text text]; exact text)
    rw [putHex8s, putHex8_text text]
    rw [putHex8_text text] at next
    simp only [next]
    simp [write]

theorem map_shiftRight (size uvalue : Nat) :
    (range size).map (fun byte => UInt8.ofNat (uvalue >>> (byte * 8))) = littleBytes size uvalue := by
  induction size generalizing uvalue with
  | zero => rfl
  | succ size ih =>
    rw [range_succ_eq_map, map_cons, map_map, littleBytes, ← ih (uvalue / 256)]
    congr 1
    apply map_congr_left
    intro byte _
    have shifted : uvalue >>> ((byte + 1) * 8) = (uvalue / 256) >>> (byte * 8) := by
      have first : uvalue >>> 8 = uvalue / 256 := Nat.shiftRight_eq_div_pow uvalue 8
      rw [Nat.add_mul, Nat.add_comm, Nat.shiftRight_add, first]
    exact congrArg UInt8.ofNat shifted

theorem putHexWord_text (text : stream.binary = false) (size uvalue : Nat) (byteOrder : ByteOrder) :
    stream.putHexWord size uvalue (some byteOrder) =
      stream.write ((byteOrder.encode size uvalue).flatMap GdbRemote.putHex8) := by
  cases byteOrder with
  | little => exact (putHex8s_text text _).trans (by rw [map_shiftRight]; rfl)
  | big => exact (putHex8s_text text _).trans (by rw [map_reverse, map_shiftRight]; rfl)

theorem putMaxHex64_text (text : stream.binary = false) {size : Nat} (known : DataEncoder.IsSize size) (uvalue : UInt64)
    (byteOrder : ByteOrder) : stream.putMaxHex64 uvalue size (some byteOrder) =
      stream.write ((byteOrder.encode size uvalue.toNat).flatMap GdbRemote.putHex8) := by
  have truncated (value : Nat) (size : Nat) :
      byteOrder.encode size (value % 256 ^ size) = byteOrder.encode size value := by
    cases byteOrder with
    | little => exact DataEncoder.littleBytes_mod size value
    | big => exact congrArg reverse (DataEncoder.littleBytes_mod size value)
  rcases known with rfl | rfl | rfl | rfl
  · have single : byteOrder.encode 1 uvalue.toNat = [uvalue.toUInt8] := by
      cases byteOrder with
      | little => rfl
      | big => rfl
    rw [single]
    exact putHex8_text text _
  · rw [← truncated uvalue.toNat 2]
    exact (putHexWord_text text 2 _ byteOrder).trans (by rw [UInt64.toNat_toUInt16]; rfl)
  · rw [← truncated uvalue.toNat 4]
    exact (putHexWord_text text 4 _ byteOrder).trans (by rw [UInt64.toNat_toUInt32]; rfl)
  · exact putHexWord_text text 8 _ byteOrder

theorem putBytesAsRawHex8_text (bytes : Bytes) : stream.putBytesAsRawHex8 bytes none none =
    (bytes.length * 2, { stream with text := stream.text ++ bytes.flatMap GdbRemote.putHex8 }) := by
  have cleared := @putHex8s_text { stream with binary := false } rfl bytes
  unfold putBytesAsRawHex8
  dsimp only
  rw [if_pos rfl, cleared]
  simp only [write, length_putHex8s]

end Stream

/-! What the decoders make of it. -/

namespace GdbRemote.StringExtractor

theorem skipSpaces_putHex8s (bytes : List UInt8) :
    skipSpaces (some (bytes.flatMap GdbRemote.putHex8)) = some (bytes.flatMap GdbRemote.putHex8) := by
  cases bytes with
  | nil => rfl
  | cons byte bytes =>
    have small := byte.toNat_lt
    exact skipSpaces_nibbles [byte.toNat / 16, byte.toNat % 16] (by simp; omega) (by simp) _

/-- A pair of digits behind `shift` bits that are filled. -/
theorem or_pair {front shift high low : Nat} (below : front < 2 ^ shift) (room : shift + 8 ≤ 64) (highSmall : high < 16)
    (lowSmall : low < 16) : front ||| high <<< (shift + 4) % 2 ^ 64 ||| low <<< shift % 2 ^ 64 =
      front + 2 ^ shift * (16 * high + low) := by
  have power : 2 ^ (shift + 4) = 16 * 2 ^ shift := by ring
  have power8 : 2 ^ (shift + 8) = 256 * 2 ^ shift := by ring
  have most : 2 ^ (shift + 8) ≤ 2 ^ 64 := Nat.pow_le_pow_right (by decide) room
  have lowPart : front + 2 ^ shift * low < 2 ^ (shift + 4) := by nlinarith
  have whole : front + 2 ^ shift * (16 * high + low) < 2 ^ 64 := by nlinarith
  have highPart : front + 2 ^ shift * low + 2 ^ (shift + 4) * high = front + 2 ^ shift * (16 * high + low) := by
    ring
  rw [Nat.or_assoc, Nat.or_comm (high <<< (shift + 4) % 2 ^ 64), ← Nat.or_assoc,
    DataExtractor.or_digit below (by omega), Nat.mod_eq_of_lt (by nlinarith),
    DataExtractor.or_digit lowPart (by omega), highPart, Nat.mod_eq_of_lt whole]

theorem hexLoopLittle_putHex8s (failValue : Nat) {bytes : List UInt8} {count front : Nat}
    (short : count + bytes.length ≤ 8)
    (below : front < 2 ^ (8 * count)) :
    hexLoopLittle failValue front (2 * count) (8 * count) (bytes.flatMap GdbRemote.putHex8) =
      (front + 2 ^ (8 * count) * littleValue bytes, some []) := by
  induction bytes generalizing count front with
  | nil => rw [flatMap_nil, hexLoopLittle, littleValue_nil, mul_zero, add_zero]
  | cons byte bytes ih =>
    have small := byte.toNat_lt
    rw [length_cons] at short
    have high : hexDigit? (nibbleChar (byte.toNat / 16)) = some (byte.toNat / 16) := hexDigit?_nibbleChar (by omega)
    have low : hexDigit? (nibbleChar (byte.toNat % 16)) = some (byte.toNat % 16) := hexDigit?_nibbleChar (by omega)
    have value : 16 * (byte.toNat / 16) + byte.toNat % 16 = byte.toNat := Nat.div_add_mod _ _
    have power : 2 ^ (8 * (count + 1)) = 2 ^ (8 * count) * 256 := by ring
    have more : front + 2 ^ (8 * count) * byte.toNat < 2 ^ (8 * (count + 1)) := by nlinarith
    -- The pair of digits fills the eight bits above those that are there.
    have next := ih (show count + 1 + bytes.length ≤ 8 by omega) more
    rw [flatMap_cons, GdbRemote.putHex8, cons_append, cons_append, hexLoopLittle, high]
    simp only [low]
    rw [if_neg (by omega), or_pair below (by omega) (by omega) (by omega), value]
    refine Eq.trans next ?_
    rw [littleValue_cons]
    ring_nf

theorem foldl_nibbles (bytes : List UInt8) (front : Nat) :
    (bytes.flatMap fun byte => [byte.toNat / 16, byte.toNat % 16]).foldl
        (fun value nibble => 16 * value + nibble) front =
      256 ^ bytes.length * front + littleValue bytes.reverse := by
  induction bytes generalizing front with
  | nil => rw [length_nil, pow_zero, one_mul]; rfl
  | cons byte bytes ih =>
    have step : 16 * (16 * front + byte.toNat / 16) + byte.toNat % 16 = 256 * front + byte.toNat := by omega
    rw [flatMap_cons, foldl_append, foldl_cons, foldl_cons, foldl_nil, step, ih,
      reverse_cons, littleValue_append, length_reverse, littleValue_cons,
      littleValue_nil, length_cons]
    ring

theorem getHexMaxU64_putHex8s (failValue : Nat) {bytes : List UInt8} (short : bytes.length ≤ 8) :
    getHexMaxU64 failValue (some (bytes.flatMap GdbRemote.putHex8)) = (littleValue bytes.reverse, some []) := by
  have small : ∀ nibble ∈ bytes.flatMap fun byte => [byte.toNat / 16, byte.toNat % 16], nibble < 16 := by
    intro nibble member
    obtain ⟨byte, -, digit⟩ := mem_flatMap.mp member
    have bound := byte.toNat_lt
    rcases mem_cons.mp digit with rfl | second
    · omega
    · rw [mem_singleton.mp second]
      omega
  have nibbles : bytes.flatMap GdbRemote.putHex8 =
      (bytes.flatMap fun byte => [byte.toNat / 16, byte.toNat % 16]).map nibbleChar := by
    rw [map_flatMap]
    rfl
  have length : (bytes.flatMap fun byte => [byte.toNat / 16, byte.toNat % 16]).length = bytes.length * 2 := by
    simp [length_flatMap]
  have loop := @hexLoop_nibbles 16 failValue 0 0 _ [] small (by omega) (by simp [NoDigitFirst])
  rw [foldl_nibbles, mul_zero, zero_add, ← nibbles, append_nil] at loop
  rw [getHexMaxU64, getHexMax, skipSpaces_putHex8s]
  exact loop

theorem getHexMaxU64In_putHex8s (order : ByteOrder) (failValue : Nat) {bytes : List UInt8} (short : bytes.length ≤ 8) :
    getHexMaxU64In (order = .little) failValue (some (bytes.flatMap GdbRemote.putHex8)) =
      (order.decode bytes, some []) := by
  cases order with
  | little =>
    have loop := @hexLoopLittle_putHex8s failValue bytes 0 0 (by omega) (by decide)
    rw [pow_zero, one_mul, zero_add] at loop
    rw [getHexMaxU64In, skipSpaces_putHex8s]
    exact loop
  | big => exact getHexMaxU64_putHex8s failValue short

end GdbRemote.StringExtractor

namespace Stream

open GdbRemote.StringExtractor

/-- An integer that is written comes back from both decoders, and bytes that are written from the third. -/
structure CodecsAgree (stream : Stream) (value failValue : UInt64) (size : Nat) (order : ByteOrder) : Prop where
  integer : ∃ text,
    stream.putMaxHex64 value size (some order) = (size * 2, { stream with text := stream.text ++ text }) ∧
    (getHexMaxU64In (order = .little) failValue.toNat (some text)).1 = value.toNat ∧
    (getHexWithFixedSize size (order = .little) failValue.toNat (some text)).1 = value.toNat
  bytes : ∀ (bytes : Bytes) (failFillValue : UInt8), ∃ text, stream.putBytesAsRawHex8 bytes none none =
      (bytes.length * 2, { stream with text := stream.text ++ text }) ∧
    (getHexBytes failFillValue bytes.length (some text)).1 = bytes

theorem codecsAgree_iff (stream : Stream) (text : stream.binary = false) {size : Nat} (known : DataEncoder.IsSize size)
    (order : ByteOrder) (value failValue : UInt64) (fits : value.toNat < 256 ^ size) :
    stream.CodecsAgree value failValue size order ↔ failValue = value := by
  have short : size ≤ 8 := by
    rcases known with rfl | rfl | rfl | rfl <;> decide
  have written := putMaxHex64_text text known value order
  rw [write, length_putHex8s, length_encode] at written
  have decoded := getHexMaxU64In_putHex8s order failValue.toNat
    ((order.length_encode size value.toNat).le.trans short)
  rw [order.decode_encode fits] at decoded
  constructor
  · -- Whatever has been decoded, the fail value comes back.
    rintro ⟨⟨found, -, -, fixed⟩, -⟩
    exact UInt64.toNat_inj.mp fixed
  · rintro rfl
    refine ⟨⟨_, written, by rw [decoded], rfl⟩, fun bytes failFillValue => ⟨_, putBytesAsRawHex8_text bytes, ?_⟩⟩
    rw [getHexBytes_putHex8 failFillValue (le_refl _)]

/-- Two little-endian bytes, with the value itself as the fail value. -/
theorem codecsAgree_iff_two : CodecsAgree ⟨[], false, .big⟩ 0x1234 0x1234 2 .little ↔ (0x1234 : UInt64) = 0x1234 :=
  codecsAgree_iff ⟨[], false, .big⟩ rfl (by decide) .little 0x1234 0x1234 (by decide)

/-- What `GetHexWithFixedSize` returns is the fail value. -/
theorem codecs_not_agree : ¬ ∀ (stream : Stream) (size : Nat) (order : ByteOrder) (value failValue : UInt64),
    stream.binary = false → DataEncoder.IsSize size → value.toNat < 256 ^ size →
      stream.CodecsAgree value failValue size order := by
  intro always
  obtain ⟨text, -, -, fixed⟩ := (always ⟨[], false, .little⟩ 1 .little 0x2a 0 rfl (by decide) (by decide)).integer
  exact absurd (show 0 = 42 from fixed) (by decide)

end Stream

end Lldb
