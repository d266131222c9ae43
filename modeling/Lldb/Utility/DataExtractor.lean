import Lldb.Library.Leb128

/-! `DataExtractor`: reading integers, strings and LEB128 numbers from bytes at an offset. -/

set_option autoImplicit false

namespace Lldb

open Library List

inductive ByteOrder where
  | big
  | little
  deriving DecidableEq, Repr

namespace ByteOrder

def littleValue (bytes : List UInt8) : Nat := Nat.ofDigits 256 (bytes.map UInt8.toNat)

def littleBytes : Nat → Nat → List UInt8
  | 0, _ => []
  | size + 1, value => UInt8.ofNat value :: littleBytes size (value / 256)

def decode : ByteOrder → List UInt8 → Nat
  | little, bytes => littleValue bytes
  | big, bytes => littleValue bytes.reverse

/-- The bytes of an integer of `size` bytes. -/
def encode : ByteOrder → Nat → Nat → List UInt8
  | little, size, value => littleBytes size value
  | big, size, value => (littleBytes size value).reverse

@[simp] theorem length_littleBytes (size value : Nat) : (littleBytes size value).length = size := by
  induction size generalizing value with
  | zero => rfl
  | succ size ih => simp [littleBytes, ih]

@[simp] theorem length_encode (order : ByteOrder) (size value : Nat) : (order.encode size value).length = size := by
  cases order <;> simp [encode]

theorem littleValue_littleBytes {size value : Nat} (fits : value < 256 ^ size) :
    littleValue (littleBytes size value) = value := by
  induction size generalizing value with
  | zero =>
    have : value = 0 := by simpa using fits
    simp [littleBytes, littleValue, this]
  | succ size ih =>
    have rest : value / 256 < 256 ^ size := Nat.div_lt_of_lt_mul (by rwa [pow_succ, mul_comm] at fits)
    have tail := ih rest
    unfold littleValue at tail ⊢
    simp only [littleBytes, map_cons, Nat.ofDigits_cons, UInt8.toNat_ofNat']
    omega

@[simp] theorem decode_encode (order : ByteOrder) {size value : Nat} (fits : value < 256 ^ size) :
    order.decode (order.encode size value) = value := by
  cases order <;> simp [encode, decode, littleValue_littleBytes fits]

end ByteOrder

structure DataExtractor where
  bytes : List UInt8
  byteOrder : ByteOrder
  addrSize : Nat
  deriving DecidableEq, Repr

/-- Reading at an offset and moving it; `none` where C++ leaves undefined what is read. -/
abbrev Cursor := StateT Nat Option

namespace DataExtractor

variable (data : DataExtractor)

def validOffset (offset : Nat) : Bool := offset < data.bytes.length

def validOffsetForDataOfSize (offset length : Nat) : Bool := length ≤ data.bytes.length - offset

/-- The bytes at the offset, or `none` for the null pointer. -/
def getData (length : Nat) : Cursor (Option (List UInt8)) := fun offset =>
  if data.validOffsetForDataOfSize offset length then
    some (some ((data.bytes.drop offset).take length), offset + length)
  else some (none, offset)

/-- Reads an integer of `byteSize` bytes, or zero without moving the offset. -/
def getMaxU64 (byteSize : Nat) : Cursor Nat := do
  match ← data.getData byteSize with
  | some bytes => return data.byteOrder.decode bytes
  | none => return 0

def getU8 : Cursor Nat := data.getMaxU64 1

def getU16 : Cursor Nat := data.getMaxU64 2

def getU32 : Cursor Nat := data.getMaxU64 4

def getU64 : Cursor Nat := data.getMaxU64 8

def getAddress : Cursor Nat := data.getMaxU64 data.addrSize

def getPointer : Cursor Nat := data.getMaxU64 data.addrSize

/-- The string up to its terminator, or the null pointer at the end of the data. Without a terminator
the byte behind the data is looked at. -/
def getCStr : Cursor (Option (List UInt8)) := fun offset =>
  if data.validOffsetForDataOfSize offset 1 then
    if 0 ∈ data.bytes.drop offset then
      let string := (data.bytes.drop offset).takeWhile (· ≠ 0)
      some (some string, offset + string.length + 1)
    else none
  else some (none, offset)

/-- Bits shifted out of the 64 are lost, and a shift by 64 or more is undefined. -/
def ulebLoop : List UInt8 → Nat → Nat → Nat → Option (Nat × Nat)
  | [], result, _, count => some (result, count)
  | byte :: rest, result, shift, count =>
    if shift < 64 then
      let result := result ||| (byte.toNat &&& 0x7f) <<< shift % 2 ^ 64
      if byte.toNat &&& 0x80 = 0 then some (result, count + 1)
      else ulebLoop rest result (shift + 7) (count + 1)
    else none

def getULEB128 : Cursor Nat := fun offset =>
  match data.bytes.drop offset with
  | [] => some (0, offset)
  | byte :: rest =>
    if 0x80 ≤ byte.toNat then
      (ulebLoop rest (byte.toNat &&& 0x7f) 7 1).map fun (result, count) => (result, offset + count)
    else some (byte.toNat, offset + 1)

def slebLoop : List UInt8 → Nat → Nat → UInt8 → Nat → Option (Nat × Nat × UInt8 × Nat)
  | [], result, shift, byte, count => some (result, shift, byte, count)
  | byte :: rest, result, shift, _, count =>
    if shift < 64 then
      let result := result ||| (byte.toNat &&& 0x7f) <<< shift % 2 ^ 64
      if byte.toNat &&& 0x80 = 0 then some (result, shift + 7, byte, count + 1)
      else slebLoop rest result (shift + 7) byte (count + 1)
    else none

def getSLEB128 : Cursor Int := fun offset =>
  if data.bytes.drop offset = [] then some (0, offset)
  else do
    let (result, shift, byte, count) ← slebLoop (data.bytes.drop offset) 0 0 0 0
    if shift < 64 ∧ byte.toNat &&& 0x40 ≠ 0 then
      -- the `1` that is shifted is an int of 32 bits
      if shift < 32 then return (((result ||| (2 ^ 64 - 2 ^ shift) : Nat) : Int).bmod (2 ^ 64), offset + count)
      else none
    else return ((result : Int).bmod (2 ^ 64), offset + count)

def lebLength : List UInt8 → Nat
  | [] => 0
  | byte :: rest => if byte.toNat &&& 0x80 = 0 then 1 else lebLength rest + 1

def lebContinued : List UInt8 → Nat
  | [] => 0
  | byte :: rest => if byte.toNat &&& 0x80 = 0 then 0 else lebContinued rest + 1

def skipLEB128 : Cursor Nat := fun offset =>
  some (lebContinued (data.bytes.drop offset) % 2 ^ 32, offset + lebLength (data.bytes.drop offset))

/-! What is read where bytes are known. -/

def At (offset : Nat) (bytes : List UInt8) : Prop := bytes <+: data.bytes.drop offset

variable {data}

theorem At.left {offset : Nat} {front back : List UInt8} (at_ : data.At offset (front ++ back)) : data.At offset front :=
  (prefix_append front back).trans at_

theorem At.right {offset : Nat} {front back : List UInt8} (at_ : data.At offset (front ++ back)) :
    data.At (offset + front.length) back := by
  obtain ⟨rest, split⟩ := at_
  refine ⟨rest, ?_⟩
  simp [← drop_drop, ← split]

variable {byte : UInt8} {number : Leb128}

theorem At.tail {offset : Nat} {rest : List UInt8} (at_ : data.At offset (byte :: rest)) : data.At (offset + 1) rest :=
  @At.right data offset [byte] rest at_

theorem At.bound {offset : Nat} {bytes : List UInt8} (at_ : data.At offset bytes) :
    bytes.length ≤ data.bytes.length - offset := by
  simpa using List.IsPrefix.length_le at_

theorem getData_at {offset : Nat} {bytes : List UInt8} (at_ : data.At offset bytes) :
    data.getData bytes.length offset = some (some bytes, offset + bytes.length) := by
  unfold getData
  rw [if_pos (by simpa [validOffsetForDataOfSize] using at_.bound), ← prefix_iff_eq_take.mp at_]

theorem getMaxU64_at {offset size value : Nat} (fits : value < 256 ^ size)
    (at_ : data.At offset (data.byteOrder.encode size value)) :
    data.getMaxU64 size offset = some (value, offset + size) := by
  have read := getData_at at_
  rw [ByteOrder.length_encode] at read
  simp [getMaxU64, StateT.bind, bind, read, ByteOrder.decode_encode _ fits]
  rfl

theorem getU8_at {offset : Nat} (at_ : data.At offset [byte]) : data.getU8 offset = some (byte.toNat, offset + 1) := by
  have read := getData_at at_
  have single : data.byteOrder.decode [byte] = byte.toNat := by
    cases data.byteOrder <;> simp [ByteOrder.decode, ByteOrder.littleValue]
  simp only [length_singleton] at read
  simp [getU8, getMaxU64, StateT.bind, bind, read, single]
  rfl

/-! LEB128 numbers. -/

theorem or_digit {front shift digit : Nat} (below : front < 2 ^ shift) (room : shift < 64) :
    front ||| digit <<< shift % 2 ^ 64 = (front + 2 ^ shift * digit) % 2 ^ 64 := by
  have split : 2 ^ 64 = 2 ^ shift * 2 ^ (64 - shift) := by
    rw [← pow_add, Nat.add_sub_cancel' room.le]
  have shifted : digit <<< shift % 2 ^ 64 = 2 ^ shift * (digit % 2 ^ (64 - shift)) := by
    rw [Nat.shiftLeft_eq, mul_comm, split, Nat.mul_mod_mul_left]
  have low : (front + 2 ^ shift * digit) % 2 ^ shift = front := by
    simp [Nat.mod_eq_of_lt below]
  have high : (front + 2 ^ shift * digit) / 2 ^ shift = digit := by
    simp [Nat.add_mul_div_left _ _ (Nat.two_pow_pos shift), Nat.div_eq_of_lt below]
  rw [shifted, Nat.or_comm, ← Nat.two_pow_add_eq_or_of_lt below, split, Nat.mod_mul, low, high, Nat.add_comm]

variable (digit : Fin 128)

theorem continued_digit :
    (Leb128.continued digit).toNat &&& 0x7f = digit.val ∧ (Leb128.continued digit).toNat &&& 0x80 ≠ 0 := by
  revert digit
  decide

theorem last_digit :
    (UInt8.ofNat digit.val).toNat = digit.val ∧ digit.val &&& 0x7f = digit.val ∧ digit.val &&& 0x80 = 0 := by
  revert digit
  decide

theorem sign_digit : (UInt8.ofNat digit.val).toNat &&& 0x40 ≠ 0 ↔ 64 ≤ digit.val := by
  revert digit
  decide

theorem slebLoop_late (bytes : List UInt8) (nonempty : bytes ≠ []) {result shift count : Nat}
    (late : 64 ≤ shift) : slebLoop bytes result shift byte count = none := by
  cases bytes with
  | nil => exact absurd rfl nonempty
  | cons byte rest => rw [slebLoop, if_neg (by omega)]

theorem slebLoop_digits (front init : List (Fin 128)) (last : Fin 128) (tail : List UInt8) (byte : UInt8) (count : Nat) :
    slebLoop (init.map Leb128.continued ++ UInt8.ofNat last.val :: tail) (Leb128.value front) (7 * front.length) byte count =
      if front.length + init.length ≤ 9 then
        some (Leb128.value (front ++ init ++ [last]) % 2 ^ 64, 7 * (front.length + init.length + 1),
          UInt8.ofNat last.val, count + init.length + 1)
      else none := by
  induction init generalizing front byte count with
  | nil =>
    obtain ⟨read, digit, ends⟩ := last_digit last
    by_cases room : front.length ≤ 9
    · have shift : 7 * front.length < 64 := by omega
      simp only [map_nil, nil_append, slebLoop, read, digit, ends, if_pos shift,
        or_digit (Leb128.value_lt front) shift, append_nil, Leb128.value_append_singleton,
        length_nil, add_zero, if_pos room, if_true, mul_add]
    · rw [if_neg (by simpa using room)]
      exact slebLoop_late _ (by simp) (by omega)
  | cons digit init ih =>
    obtain ⟨payload, goes⟩ := continued_digit digit
    by_cases room : front.length ≤ 9
    · have shift : 7 * front.length < 64 := by omega
      simp only [map_cons, cons_append, slebLoop, payload, if_neg goes, if_pos shift,
        or_digit (Leb128.value_lt front) shift, ← Leb128.value_append_singleton]
      by_cases more : front.length + 1 ≤ 9
      · have exact : Leb128.value (front ++ [digit]) % 2 ^ 64 = Leb128.value (front ++ [digit]) := by
          apply Nat.mod_eq_of_lt
          calc Leb128.value (front ++ [digit]) < 2 ^ (7 * (front ++ [digit]).length) := Leb128.value_lt _
            _ ≤ 2 ^ 64 := Nat.pow_le_pow_right (by decide) (by simp; omega)
        have step := ih (front ++ [digit]) (Leb128.continued digit) (count + 1)
        simp only [length_append, length_singleton, append_assoc, singleton_append] at step
        rw [exact, show 7 * front.length + 7 = 7 * (front.length + 1) by omega, step]
        simp [add_assoc, add_comm 1]
      · rw [if_neg (by simp only [length_cons]; omega)]
        exact slebLoop_late _ (by simp) (by omega)
    · rw [if_neg (by simp only [length_cons]; omega)]
      exact slebLoop_late _ (by simp) (by omega)

theorem ulebLoop_eq (bytes : List UInt8) (result shift count : Nat) (byte : UInt8) : ulebLoop bytes result shift count =
      (slebLoop bytes result shift byte count).map fun (result, _, _, count) => (result, count) := by
  induction bytes generalizing result shift count byte with
  | nil => rfl
  | cons next rest ih =>
    simp only [ulebLoop, slebLoop]
    split
    · split
      · rfl
      · exact ih _ _ _ _
    · rfl

theorem getULEB128_at {offset : Nat} (at_ : data.At offset number.bytes) : data.getULEB128 offset =
      if number.size ≤ 10 then some (number.unsigned % 2 ^ 64, offset + number.size) else none := by
  obtain ⟨tail, split⟩ := at_
  obtain ⟨init, last⟩ := number
  cases init with
  | nil =>
    obtain ⟨read, -, -⟩ := last_digit last
    simp only [Leb128.bytes, map_nil, nil_append, singleton_append] at split
    simp only [getULEB128, ← split, read, Leb128.size, Leb128.unsigned_eq]
    simp [Leb128.value, Nat.mod_eq_of_lt (show last.val < 18446744073709551616 by omega)]
  | cons digit init =>
    obtain ⟨payload, -⟩ := continued_digit digit
    have above : 0x80 ≤ (Leb128.continued digit).toNat := by
      simp only [Leb128.continued, UInt8.toNat_ofNat']
      omega
    have loop := slebLoop_digits [digit] init last tail 0 1
    simp only [Leb128.bytes, map_cons, cons_append, append_assoc, nil_append] at split
    have first : Leb128.value [digit] = digit.val := by simp [Leb128.value]
    rw [first, length_singleton] at loop
    have size : (⟨digit :: init, last⟩ : Leb128).size = 1 + init.length + 1 := by
      simp only [Leb128.size, length_cons]
      omega
    simp only [getULEB128, ← split, if_pos above, payload, ulebLoop_eq _ _ _ _ 0, loop, size]
    by_cases room : 1 + init.length ≤ 9
    · rw [if_pos room, if_pos (by omega)]
      rfl
    · rw [if_neg room, if_neg (by omega)]
      rfl

/-- The encodings that `GetSLEB128` reads: a negative number is extended with an int. -/
def SignedReadable (number : Leb128) : Prop :=
  number.size ≤ 10 ∧ (64 ≤ number.last.val → number.size ≤ 4 ∨ number.size = 10)

instance (number : Leb128) : Decidable (SignedReadable number) := by
  unfold SignedReadable
  infer_instance

theorem unsigned_lt_two_pow (number : Leb128) : number.unsigned < 2 ^ (7 * number.size) := by
  have bound := Leb128.value_lt (number.init ++ [number.last])
  rwa [length_append] at bound

theorem extended_bmod (short : number.size ≤ 4) (negative : 64 ≤ number.last.val) :
    ((number.unsigned % 2 ^ 64 ||| (2 ^ 64 - 2 ^ (7 * number.size)) : Nat) : Int).bmod (2 ^ 64) =
      number.signed.bmod (2 ^ 64) := by
  have below := unsigned_lt_two_pow number
  have room : 2 ^ (7 * number.size) ≤ 2 ^ 64 := Nat.pow_le_pow_right (by decide) (by omega)
  have mask : 2 ^ 64 - 2 ^ (7 * number.size) = 2 ^ (7 * number.size) * (2 ^ (64 - 7 * number.size) - 1) := by
    rw [Nat.mul_sub, Nat.mul_one, ← pow_add, Nat.add_sub_cancel' (by omega)]
  have power : (128 : Int) ^ number.size = ((2 ^ (7 * number.size) : Nat) : Int) := by
    rw [pow_mul]
    norm_num
  rw [Nat.mod_eq_of_lt (by omega), mask, Nat.or_comm, ← Nat.two_pow_add_eq_or_of_lt below, ← mask,
    Leb128.signed, if_neg (by omega), power]
  have shifted : (((2 ^ 64 - 2 ^ (7 * number.size) + number.unsigned : Nat)) : Int) =
      (number.unsigned : Int) - ((2 ^ (7 * number.size) : Nat) : Int) + ((2 ^ 64 : Nat) : Int) := by
    omega
  rw [shifted, Int.add_bmod_right]

theorem unextended_bmod (plain : number.size = 10 ∨ number.last.val < 64) :
    ((number.unsigned % 2 ^ 64 : Nat) : Int).bmod (2 ^ 64) = number.signed.bmod (2 ^ 64) := by
  rw [Int.natCast_emod, Int.emod_bmod]
  unfold Leb128.signed
  split
  · rfl
  · rename_i negative
    have long := plain.resolve_right negative
    have power : (128 : Int) ^ number.size = ((2 ^ 64 : Nat) : Int) * 64 := by
      rw [long]
      norm_num
    rw [power, Int.sub_mul_bmod_self_left]

theorem getSLEB128_at {offset : Nat} (at_ : data.At offset number.bytes) : data.getSLEB128 offset =
      if SignedReadable number then some (number.signed.bmod (2 ^ 64), offset + number.size) else none := by
  obtain ⟨tail, split⟩ := at_
  have loop := slebLoop_digits [] number.init number.last tail 0 0
  have nonempty : data.bytes.drop offset ≠ [] := by
    rw [← split]
    simp [Leb128.bytes]
  simp only [Leb128.bytes, append_assoc, singleton_append] at split
  simp only [length_nil, zero_add, nil_append, show Leb128.value [] = 0 from rfl] at loop
  have size : number.size = number.init.length + 1 := rfl
  rw [← size, ← Leb128.unsigned] at loop
  rw [getSLEB128, if_neg nonempty, ← split, loop]
  by_cases short : number.init.length ≤ 9
  · rw [if_pos short]
    change (if 7 * number.size < 64 ∧ (UInt8.ofNat number.last.val).toNat &&& 0x40 ≠ 0 then
      if 7 * number.size < 32 then some (_, offset + number.size) else none else some (_, offset + number.size)) = _
    simp only [sign_digit]
    by_cases negative : 7 * number.size < 64 ∧ 64 ≤ number.last.val
    · rw [if_pos negative]
      by_cases narrow : 7 * number.size < 32
      · rw [if_pos narrow, if_pos ⟨by omega, fun _ => .inl (by omega)⟩]
        rw [extended_bmod (by omega) negative.2]
      · rw [if_neg narrow, if_neg (by unfold SignedReadable; omega)]
    · rw [if_neg negative, if_pos ⟨by omega, by omega⟩]
      rw [unextended_bmod (by omega)]
  · rw [if_neg short, if_neg (by unfold SignedReadable; omega)]
    rfl

/-! Numbers read one after the other. -/

section

variable {offset : Nat} {α : Type}

theorem read_fixed {size value : Nat} (fits : value < 256 ^ size) (at_ : data.At offset (data.byteOrder.encode size value))
    (make : Nat → α) : (do return make (← data.getMaxU64 size) : Cursor α) offset =
      some (make value, offset + (data.byteOrder.encode size value).length) := by
  change (data.getMaxU64 size offset).bind _ = _
  rw [getMaxU64_at fits at_, ByteOrder.length_encode]
  rfl

variable {first : Leb128}

theorem read_unsigned (at_ : data.At offset first.bytes) (make : Nat → α) :
    (do return make (← data.getULEB128) : Cursor α) offset =
      if first.size ≤ 10 then some (make (first.unsigned % 2 ^ 64), offset + first.bytes.length) else none := by
  change (data.getULEB128 offset).bind _ = _
  rw [getULEB128_at at_, Leb128.length_bytes]
  split <;> rfl

theorem read_signed (at_ : data.At offset first.bytes) (make : Int → α) :
    (do return make (← data.getSLEB128) : Cursor α) offset =
      if SignedReadable first then some (make (first.signed.bmod (2 ^ 64)), offset + first.bytes.length) else none := by
  change (data.getSLEB128 offset).bind _ = _
  rw [getSLEB128_at at_, Leb128.length_bytes]
  split <;> rfl

/-- An unsigned operand, and what is read behind it when `rest` can be read. -/
theorem read_unsigned_then {rest : List UInt8} {readable : Prop} [Decidable readable] {value : Nat → α}
    (at_ : data.At offset (first.bytes ++ rest)) (next : Nat → Cursor α)
    (behind : ∀ read, next read (offset + first.bytes.length) =
      if readable then some (value read, offset + first.bytes.length + rest.length) else none) :
    (data.getULEB128 >>= next) offset = if first.size ≤ 10 ∧ readable then
        some (value (first.unsigned % 2 ^ 64), offset + (first.bytes ++ rest).length)
      else none := by
  change (data.getULEB128 offset).bind (fun read => next read.1 read.2) = _
  rw [getULEB128_at at_.left, ite_and, length_append, ← add_assoc]
  by_cases short : first.size ≤ 10
  · rw [if_pos short, if_pos short, ← Leb128.length_bytes]
    exact behind _
  · simp [if_neg short]

end

/-! Numbers that are skipped, and strings. -/

theorem lebContinued_bytes (number : Leb128) (rest : List UInt8) :
    lebContinued (number.bytes ++ rest) = number.init.length := by
  obtain ⟨init, last⟩ := number
  induction init with
  | nil =>
    obtain ⟨read, -, ends⟩ := last_digit last
    simp [Leb128.bytes, lebContinued, read, ends]
  | cons digit init ih =>
    obtain ⟨-, goes⟩ := continued_digit digit
    simp only [Leb128.bytes, append_assoc, cons_append, nil_append] at ih
    simp [Leb128.bytes, lebContinued, if_neg goes, ih]

theorem lebLength_bytes (number : Leb128) (rest : List UInt8) : lebLength (number.bytes ++ rest) = number.size := by
  obtain ⟨init, last⟩ := number
  induction init with
  | nil =>
    obtain ⟨read, -, ends⟩ := last_digit last
    simp [Leb128.bytes, lebLength, read, ends, Leb128.size]
  | cons digit init ih =>
    obtain ⟨-, goes⟩ := continued_digit digit
    simp only [Leb128.bytes, append_assoc, cons_append, nil_append] at ih
    simp [Leb128.bytes, Leb128.size, lebLength, if_neg goes, ih]

theorem skipLEB128_at {offset : Nat} (at_ : data.At offset number.bytes) :
    data.skipLEB128 offset = some (number.init.length % 2 ^ 32, offset + number.size) := by
  obtain ⟨rest, split⟩ := at_
  rw [skipLEB128, ← split, lebLength_bytes, lebContinued_bytes]

theorem getCStr_at {offset : Nat} {string : List UInt8} (plain : 0 ∉ string) (at_ : data.At offset (string ++ [0])) :
    data.getCStr offset = some (some string, offset + string.length + 1) := by
  have valid : data.validOffsetForDataOfSize offset 1 = true := by
    have room := at_.bound
    rw [length_append, length_singleton] at room
    exact decide_eq_true (by omega)
  obtain ⟨rest, split⟩ := at_
  have front : (string ++ [0] ++ rest).takeWhile (· ≠ 0) = string := by
    rw [append_assoc, takeWhile_append_of_pos]
    · simp
    · intro byte inside
      simpa using fun zero : byte = 0 => plain (zero ▸ inside)
  rw [getCStr, if_pos valid, ← split, if_pos (by simp), front]

end DataExtractor

end Lldb
