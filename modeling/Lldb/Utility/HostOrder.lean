import Lldb.Utility.DataExtractor

/-! The integers of `DataExtractor` as a host loads them: bytes are swapped where the order of the data is
not the host's, and the value is the same on every host.
-/

set_option autoImplicit false

namespace Lldb

open List

namespace ByteOrder

theorem littleValue_nil : littleValue [] = 0 := rfl

theorem littleValue_cons (byte : UInt8) (bytes : List UInt8) :
    littleValue (byte :: bytes) = byte.toNat + 256 * littleValue bytes := Nat.ofDigits_cons ..

theorem littleValue_append (front back : List UInt8) :
    littleValue (front ++ back) = littleValue front + 256 ^ front.length * littleValue back := by
  simp [littleValue, Nat.ofDigits_append]

variable (bytes : List UInt8)

theorem littleValue_lt : littleValue bytes < 256 ^ bytes.length := by
  have digits : ∀ digit ∈ bytes.map UInt8.toNat, digit < 256 := by
    intro digit member
    obtain ⟨byte, -, rfl⟩ := mem_map.mp member
    exact byte.toNat_lt
  have bound := Nat.ofDigits_lt_base_pow_length (by decide : 1 < 256) digits
  rwa [length_map] at bound

@[simp] theorem littleValue_zeros (count : Nat) : littleValue (replicate count 0) = 0 := by
  induction count with
  | zero => rfl
  | succ count ih => rw [replicate_succ, littleValue_cons, ih]; rfl

theorem littleValue_take {bytes : List UInt8} {count : Nat} (fits : count ≤ bytes.length) :
    littleValue (bytes.take count) = littleValue bytes % 256 ^ count := by
  have split := littleValue_append (bytes.take count) (bytes.drop count)
  have small := littleValue_lt (bytes.take count)
  rw [length_take, min_eq_left fits] at split small
  rw [take_append_drop] at split
  simp [split, Nat.mod_eq_of_lt small]

theorem littleValue_littleBytes_mod (size value : Nat) : littleValue (littleBytes size value) = value % 256 ^ size := by
  induction size generalizing value with
  | zero => rw [Nat.pow_zero, Nat.mod_one, littleBytes, littleValue_nil]
  | succ size ih =>
    simp [littleBytes, littleValue_cons, ih, pow_succ', Nat.mod_mul]

theorem littleBytes_littleValue : littleBytes bytes.length (littleValue bytes) = bytes := by
  induction bytes with
  | nil => rfl
  | cons byte bytes ih =>
    have small := byte.toNat_lt
    rw [length_cons, littleBytes, littleValue_cons, Nat.add_mul_div_left _ _ (by decide : 0 < 256),
      Nat.div_eq_of_lt small, Nat.zero_add]
    congr 1
    apply UInt8.toNat_inj.mp
    simp

theorem littleValue_inj {left right : List UInt8} (length : left.length = right.length) :
    littleValue left = littleValue right ↔ left = right := by
  constructor
  · intro same
    rw [← littleBytes_littleValue left, same, length, littleBytes_littleValue]
  · exact congrArg littleValue

theorem decode_lt (order : ByteOrder) (bytes : List UInt8) : order.decode bytes < 256 ^ bytes.length := by
  cases order with
  | little => exact littleValue_lt bytes
  | big =>
    have reversed := littleValue_lt bytes.reverse
    rwa [length_reverse] at reversed

/-- `llvm::ByteSwap` of an integer of `size` bytes. -/
def byteSwap (size value : Nat) : Nat := littleValue (littleBytes size value).reverse

theorem byteSwap_littleValue :
    byteSwap bytes.length (littleValue bytes) = littleValue bytes.reverse := by
  rw [byteSwap, littleBytes_littleValue]

theorem byteSwap_decode {host order : ByteOrder} (other : order ≠ host) (bytes : List UInt8) :
    byteSwap bytes.length (host.decode bytes) = order.decode bytes := by
  cases host with
  | big =>
    cases order with
    | big => exact absurd rfl other
    | little =>
      have swapped := byteSwap_littleValue bytes.reverse
      rwa [length_reverse, reverse_reverse] at swapped
  | little =>
    cases order with
    | big => exact byteSwap_littleValue bytes
    | little => exact absurd rfl other

end ByteOrder

namespace DataExtractor

open ByteOrder

variable (host : ByteOrder) (data : DataExtractor)

def getU8On : Cursor Nat := do
  match ← data.getData 1 with
  | some bytes => return (bytes.headD 0).toNat
  | none => return 0

/-- What `GetU16`, `GetU32` and `GetU64` do: `memcpy` into an integer of the host, or `ReadSwapInt`. -/
def getWordOn (size : Nat) : Cursor Nat := do
  match ← data.getData size with
  | some bytes =>
    if data.byteOrder ≠ host then return byteSwap size (host.decode bytes)
    else return host.decode bytes
  | none => return 0

def getU16On : Cursor Nat := data.getWordOn host 2

def getU32On : Cursor Nat := data.getWordOn host 4

def getU64On : Cursor Nat := data.getWordOn host 8

def readMaxInt64 (bytes : List UInt8) : ByteOrder → Nat
  | big => bytes.foldl (fun res byte => (res <<< 8 % 2 ^ 64) ||| byte.toNat) 0
  | little => bytes.reverse.foldl (fun res byte => (res <<< 8 % 2 ^ 64) ||| byte.toNat) 0

def getMaxU64On (byteSize : Nat) : Cursor Nat :=
  match byteSize with
  | 1 => data.getU8On
  | 2 => data.getU16On host
  | 4 => data.getU32On host
  | 8 => data.getU64On host
  | byteSize => do
    match ← data.getData byteSize with
    | some bytes => return readMaxInt64 bytes data.byteOrder
    | none => return 0

variable {host data}

theorem shift_or_byte {front : Nat} (byte : UInt8) (room : front < 256 ^ 7) :
    (front <<< 8 % 2 ^ 64) ||| byte.toNat = 256 * front + byte.toNat := by
  have small := byte.toNat_lt
  rw [Nat.shiftLeft_eq, Nat.mod_eq_of_lt (by omega), Nat.mul_comm]
  exact (Nat.two_pow_add_eq_or_of_lt small front).symm

theorem foldl_readMaxInt64 (bytes : List UInt8) {front : Nat} (short : bytes.length ≤ 8)
    (room : front < 256 ^ (8 - bytes.length)) :
    bytes.foldl (fun res byte => (res <<< 8 % 2 ^ 64) ||| byte.toNat) front =
      256 ^ bytes.length * front + littleValue bytes.reverse := by
  induction bytes generalizing front with
  | nil => rw [length_nil, pow_zero, one_mul]; rfl
  | cons byte bytes ih =>
    rw [length_cons] at short room
    have small := byte.toNat_lt
    have long : front < 256 ^ 7 := room.trans_le (Nat.pow_le_pow_right (by decide) (by omega))
    have power : 256 ^ (8 - bytes.length) = 256 * 256 ^ (8 - (bytes.length + 1)) := by
      rw [← pow_succ']
      congr 1
      omega
    rw [foldl_cons, shift_or_byte byte long, ih (by omega) (by omega), reverse_cons, littleValue_append,
      length_reverse, littleValue_cons, littleValue_nil, length_cons]
    ring

theorem readMaxInt64_eq {bytes : List UInt8} (short : bytes.length ≤ 8) (order : ByteOrder) :
    readMaxInt64 bytes order = order.decode bytes := by
  cases order with
  | big =>
    rw [readMaxInt64, foldl_readMaxInt64 bytes short (by positivity), mul_zero, zero_add]
    rfl
  | little =>
    have reversed : bytes.reverse.length ≤ 8 := by rwa [length_reverse]
    rw [readMaxInt64, foldl_readMaxInt64 _ reversed (by positivity), mul_zero, zero_add, reverse_reverse]
    rfl

theorem length_bytesAt {size offset : Nat} (valid : data.validOffsetForDataOfSize offset size = true) :
    ((data.bytes.drop offset).take size).length = size := by
  rw [length_take, length_drop]
  exact min_eq_left (of_decide_eq_true valid)

theorem getMaxU64_valid {size offset : Nat} (valid : data.validOffsetForDataOfSize offset size = true) :
    data.getMaxU64 size offset = some (data.byteOrder.decode ((data.bytes.drop offset).take size), offset + size) := by
  have read : data.getData size offset = some (some ((data.bytes.drop offset).take size), offset + size) := if_pos valid
  change (data.getData size offset).bind _ = _
  rw [read]
  rfl

theorem length_of_getData {size offset next : Nat} {bytes : List UInt8}
    (found : data.getData size offset = some (some bytes, next)) : bytes.length = size := by
  unfold getData at found
  split at found
  · next valid =>
    rw [Option.some.injEq, Prod.mk.injEq, Option.some.injEq] at found
    rw [← found.1]
    exact length_bytesAt valid
  · cases found

theorem getData_congr {size offset : Nat} {first second : List UInt8 → Nat}
    (same : ∀ bytes, bytes.length = size → first bytes = second bytes) :
    (do match ← data.getData size with
        | some bytes => return first bytes
        | none => return 0 : Cursor Nat) offset =
      (do match ← data.getData size with
          | some bytes => return second bytes
          | none => return 0 : Cursor Nat) offset := by
  change (data.getData size offset).bind _ = (data.getData size offset).bind _
  cases found : data.getData size offset with
  | none => rfl
  | some read =>
    obtain ⟨bytes?, next⟩ := read
    cases bytes? with
    | none => rfl
    | some bytes =>
      have length := length_of_getData found
      change some (first bytes, next) = some (second bytes, next)
      rw [same bytes length]

theorem getWordOn_eq (size offset : Nat) : data.getWordOn host size offset = data.getMaxU64 size offset := by
  have order (bytes : List UInt8) (length : bytes.length = size) :
      (if data.byteOrder ≠ host then byteSwap size (host.decode bytes) else host.decode bytes) =
        data.byteOrder.decode bytes := by
    split
    · next other =>
      rw [← length, byteSwap_decode other]
    · next same => rw [not_not.mp same]
  refine Eq.trans ?_ (getData_congr order)
  change (data.getData size offset).bind _ = (data.getData size offset).bind _
  congr 1
  funext read
  obtain ⟨bytes?, next⟩ := read
  cases bytes? with
  | none => rfl
  | some bytes =>
    by_cases other : data.byteOrder ≠ host
    · simp only [if_pos other]
    · simp only [if_neg other]

theorem getU8On_eq (offset : Nat) : data.getU8On offset = data.getMaxU64 1 offset := by
  refine getData_congr fun bytes length => ?_
  obtain ⟨byte, rfl⟩ := length_eq_one_iff.mp length
  cases data.byteOrder with
  | big => exact (littleValue_cons byte []).symm
  | little => exact (littleValue_cons byte []).symm

theorem getMaxU64On_eq (host : ByteOrder) {size : Nat} (short : size ≤ 8) (offset : Nat) :
    data.getMaxU64On host size offset = data.getMaxU64 size offset := by
  unfold getMaxU64On
  -- Only the odd sizes are read byte by byte, and these must fit into 64 bits.
  split
  · exact getU8On_eq offset
  · exact getWordOn_eq 2 offset
  · exact getWordOn_eq 4 offset
  · exact getWordOn_eq 8 offset
  · exact getData_congr fun bytes length => readMaxInt64_eq (length.le.trans short) data.byteOrder

end DataExtractor

end Lldb
