import Lldb.Target.MemoryCacheRead
import Lldb.Utility.DataCopies
import Lldb.Utility.IntegerScalar

/-! Integers in the memory of a process without breakpoints: `ReadScalarIntegerFromMemory`, the two readers over it, and
`WriteScalarToMemory`. The errors that reading and writing memory set are not modelled.
-/

set_option autoImplicit false

namespace Lldb

open Library (APInt)
open DataExtractor ByteOrder BitVec Option List

namespace IntegerScalar

/-- The scalar's bytes as the host holds them. A host that is big-endian takes the integer to have its type's width. -/
def getData (host : ByteOrder) (scalar : IntegerScalar) : Option DataExtractor :=
  if 0 < scalar.getByteSize then some ⟨host.encode scalar.getByteSize scalar.integer.bits.toNat, host, 8⟩ else none

def getAsMemoryData (host : ByteOrder) (scalar : IntegerScalar) (dst : List UInt8) (dstByteOrder : ByteOrder) :
    Nat × List UInt8 × Option String :=
  match scalar.getData host with
  | none => (0, dst, some "invalid scalar value")
  | some data =>
      let (copied, dst) := data.copyByteOrderedData 0 data.bytes.length dst dstByteOrder
      (copied, dst, if copied = 0 then some "failed to copy data" else none)

end IntegerScalar

namespace Inferior

structure ScalarRead where
  bytesRead : Nat
  scalar : IntegerScalar
  error : Option String

variable (inferior : Inferior) (order : ByteOrder) (address : Nat)

/-- `none` where extending the sign combines integers of different widths. -/
def readScalarIntegerFromMemory (byteSize : Nat) (isSigned : Bool) (scalar : IntegerScalar) : Option ScalarRead :=
  if byteSize = 0 then some ⟨0, scalar, some "byte size is zero"⟩
  else if byteSize &&& (byteSize - 1) ≠ 0 then
    some ⟨0, scalar, some ("byte size " ++ toString byteSize ++ " is not a power of 2")⟩
  else if byteSize ≤ 8 then
    let bytes := inferior.readMemoryFromInferior address byteSize
    if bytes.length = byteSize then do
      -- `uval` has 8 bytes, and the first ones are read in the order of the process.
      let data : DataExtractor := ⟨bytes ++ List.replicate (8 - byteSize) 0, order, 8⟩
      let (value, _) ← data.getMaxU64 byteSize 0
      let scalar := if byteSize ≤ 4 then IntegerScalar.ofUInt value else IntegerScalar.ofULong value
      let scalar ← if isSigned then (scalar.signExtend (byteSize * 8)).map Prod.snd else some scalar
      return ⟨bytes.length, scalar, none⟩
    else some ⟨0, scalar, none⟩
  else some ⟨0, scalar, some ("byte size of " ++ toString byteSize ++ " is too large for integer scalar type")⟩

def readUnsignedIntegerFromMemory (integerByteSize : Nat) (failValue : Int) : Option (BitVec 64) := do
  let read ← inferior.readScalarIntegerFromMemory order address integerByteSize false .void
  return if read.bytesRead ≠ 0 then read.scalar.uLongLong failValue else BitVec.ofInt 64 failValue

def readSignedIntegerFromMemory (integerByteSize : Nat) (failValue : Int) : Option (BitVec 64) := do
  let read ← inferior.readScalarIntegerFromMemory order address integerByteSize true .void
  return if read.bytesRead ≠ 0 then read.scalar.sLongLong failValue else BitVec.ofInt 64 failValue

/-- The bytes written, the memory and the error; `none` where the buffer of 32 bytes is overrun. -/
def writeScalarToMemory (host : ByteOrder) (scalar : IntegerScalar) (byteSize : Nat) :
    Option (Nat × Inferior × Option String) :=
  let byteSize := if byteSize = 2 ^ 32 - 1 then scalar.getByteSize else byteSize
  if 0 < byteSize then
    if 32 < byteSize then none
    else
      let (memSize, buf, error) := scalar.getAsMemoryData host (replicate byteSize 0) order
      if 0 < memSize then some (memSize, inferior.write address (buf.take memSize), error)
      else some (0, inferior, some "failed to get scalar as memory data")
  else some (0, inferior, some "invalid scalar value")

/-! What is read. -/

variable {inferior order address} {byteSize : Nat} {bytes : List UInt8} {failValue : Int}

theorem getMaxU64_front (bytes filler : List UInt8) (order : ByteOrder) :
    (⟨bytes ++ filler, order, 8⟩ : DataExtractor).getMaxU64 bytes.length 0 =
      some (order.decode bytes, bytes.length) := by
  have valid : (⟨bytes ++ filler, order, 8⟩ : DataExtractor).validOffsetForDataOfSize 0 bytes.length = true := by
    apply decide_eq_true
    rw [length_append]
    omega
  rw [getMaxU64_valid valid, zero_add]
  simp

theorem readScalar_eq (sized : byteSize ∈ [1, 2, 4, 8])
    (readable : (inferior.readMemoryFromInferior address byteSize).length = byteSize) (isSigned : Bool)
    (scalar : IntegerScalar) :
    inferior.readScalarIntegerFromMemory order address byteSize isSigned scalar =
      let value := order.decode (inferior.readMemoryFromInferior address byteSize)
      let scalar := if byteSize ≤ 4 then IntegerScalar.ofUInt value else IntegerScalar.ofULong value
      (if isSigned then (scalar.signExtend (byteSize * 8)).map Prod.snd else some scalar).map
        fun scalar => ⟨byteSize, scalar, none⟩ := by
  have passes : ∀ size ∈ [1, 2, 4, 8], size ≠ 0 ∧ size &&& (size - 1) = 0 ∧ size ≤ 8 := by decide
  have checks := passes byteSize sized
  have front := getMaxU64_front (inferior.readMemoryFromInferior address byteSize)
  rw [readable] at front
  unfold readScalarIntegerFromMemory
  rw [if_neg checks.1, if_neg (not_not.mpr checks.2.1), if_pos checks.2.2]
  dsimp only
  rw [if_pos readable, front, readable]
  cases isSigned with
  | false => rfl
  | true =>
    exact map_eq_bind.symm

theorem decode_lt_of_sized (readable : (inferior.readMemoryFromInferior address byteSize).length = byteSize) :
    order.decode (inferior.readMemoryFromInferior address byteSize) < 256 ^ byteSize := by
  have bound := order.decode_lt (inferior.readMemoryFromInferior address byteSize)
  rwa [readable] at bound

theorem uLongLong_ofUInt {value : Nat} (small : value < 2 ^ 32) :
    (IntegerScalar.ofUInt value).uLongLong failValue = BitVec.ofNat 64 value := by
  change (BitVec.ofInt 32 (value : Int)).setWidth 64 = _
  rw [ofInt_natCast]
  apply eq_of_toNat_eq
  rw [toNat_setWidth, toNat_ofNat, toNat_ofNat, Nat.mod_eq_of_lt small]

theorem uLongLong_ofULong (value : Nat) :
    (IntegerScalar.ofULong value).uLongLong failValue = BitVec.ofNat 64 value := by
  change (BitVec.ofInt 64 (value : Int)).setWidth 64 = _
  simp

/-- A mask of 9 or 17 bits does not fit the 32 bits of the scalar. -/
theorem signExtend_ofUInt (value position : Nat) : (IntegerScalar.ofUInt value).signExtend position =
    if position + 1 < 32 then none else some (false, IntegerScalar.ofUInt value) := by
  have bytes : (IntegerScalar.ofUInt value).getByteSize = 4 := by
    simp [IntegerScalar.getByteSize, IntegerScalar.ofUInt]
  rw [IntegerScalar.signExtend_eq, bytes]

theorem signExtend_ofULong (value position : Nat) : (IntegerScalar.ofULong value).signExtend position =
    if position + 1 < 64 then none else some (false, IntegerScalar.ofULong value) := by
  have bytes : (IntegerScalar.ofULong value).getByteSize = 8 := by
    simp [IntegerScalar.getByteSize, IntegerScalar.ofULong]
  rw [IntegerScalar.signExtend_eq, bytes]

theorem sLongLong_ofUInt (value : Nat) :
    (IntegerScalar.ofUInt value).sLongLong failValue = BitVec.ofInt 64 (Int.bmod value (2 ^ 32)) := by
  change BitVec.ofInt 64 (BitVec.ofInt 32 (value : Int)).toInt = _
  rw [toInt_ofInt]

theorem sLongLong_ofULong (value : Nat) :
    (IntegerScalar.ofULong value).sLongLong failValue = BitVec.ofInt 64 (Int.bmod value (2 ^ 64)) := by
  change BitVec.ofInt 64 (BitVec.ofInt 64 (value : Int)).toInt = _
  rw [toInt_ofInt]

theorem readUnsigned_eq (sized : byteSize ∈ [1, 2, 4, 8])
    (readable : (inferior.readMemoryFromInferior address byteSize).length = byteSize) :
    inferior.readUnsignedIntegerFromMemory order address byteSize failValue =
      some (BitVec.ofNat 64 (order.decode (inferior.readMemoryFromInferior address byteSize))) := by
  have positive : ∀ size ∈ [1, 2, 4, 8], size ≠ 0 := by decide
  have bound : order.decode _ < _ := decode_lt_of_sized readable
  unfold readUnsignedIntegerFromMemory
  rw [readScalar_eq sized readable]
  simp only [Bool.false_eq_true, if_false, map_some, bind_eq_bind, bind_some, ne_eq,
    positive byteSize sized, not_false_eq_true, if_true]
  split
  · rename_i small
    have fits : 256 ^ byteSize ≤ 2 ^ 32 := Nat.pow_le_pow_right (show 0 < 256 by decide) small
    exact congrArg some (uLongLong_ofUInt (bound.trans_le fits))
  · exact congrArg some (uLongLong_ofULong _)

/-- Two's complement of the bytes, where the sign is in the scalar already; shorter ones are not extended. -/
theorem readSigned_eq (sized : byteSize ∈ [1, 2, 4, 8])
    (readable : (inferior.readMemoryFromInferior address byteSize).length = byteSize) :
    inferior.readSignedIntegerFromMemory order address byteSize failValue = if byteSize ∈ [4, 8] then
        some (BitVec.ofInt 64 (Int.bmod (order.decode (inferior.readMemoryFromInferior address byteSize))
          (256 ^ byteSize)))
      else none := by
  unfold readSignedIntegerFromMemory
  rw [readScalar_eq sized readable]
  simp only [mem_cons, not_mem_nil, or_false] at sized
  rcases sized with rfl | rfl | rfl | rfl
  · simp [signExtend_ofUInt]
  · simp [signExtend_ofUInt]
  · simp [signExtend_ofUInt, sLongLong_ofUInt]
  · simp [signExtend_ofULong, sLongLong_ofULong]

/-! What is written. -/

theorem readMemoryFromInferior_of_reproduces {address : Nat} {buffer : DataBuffer}
    (held : inferior.Reproduces address buffer) : inferior.readMemoryFromInferior address buffer.length = buffer := by
  induction buffer generalizing address with
  | nil => rfl
  | cons byte rest ih =>
    have first : inferior (address % 2 ^ 64) = some byte := held 0 byte rfl
    have others : inferior.Reproduces (address + 1) rest := by
      intro index other read
      rw [add_assoc, add_comm 1 index]
      exact held (index + 1) other read
    simp only [length_cons, readMemoryFromInferior, first, ih others]

theorem readMemoryFromInferior_write (bounded : byteSize < 2 ^ 64)
    (readable : (inferior.readMemoryFromInferior address byteSize).length = byteSize) (fits : bytes.length ≤ byteSize) :
    (inferior.write address bytes).readMemoryFromInferior address byteSize =
      bytes ++ (inferior.readMemoryFromInferior address byteSize).drop bytes.length := by
  have length : (bytes ++ (inferior.readMemoryFromInferior address byteSize).drop bytes.length).length = byteSize := by
    simp [readable, Nat.add_sub_cancel' fits]
  have held : (inferior.write address bytes).Reproduces address
      (bytes ++ (inferior.readMemoryFromInferior address byteSize).drop bytes.length) := by
    intro index byte read
    have inside := (List.getElem?_eq_some_iff.mp read).1
    rw [inferior.write_eq address bytes (by omega)]
    by_cases front : index < bytes.length
    · rw [getElem?_append_left front] at read
      rw [read]
      rfl
    · rw [getElem?_append_right (not_lt.mp front), getElem?_drop,
        Nat.add_sub_cancel' (Nat.not_lt.mp front)] at read
      rw [List.getElem?_eq_none (Nat.not_lt.mp front)]
      exact inferior.reproduces_readMemoryFromInferior address byteSize index byte read
  have whole := readMemoryFromInferior_of_reproduces held
  rwa [length] at whole

end Inferior

namespace ByteOrder

theorem littleBytes_mod (size value : Nat) : littleBytes size (value % 256 ^ size) = littleBytes size value := by
  apply (littleValue_inj (by simp)).mp
  simp [littleValue_littleBytes_mod]

theorem take_littleBytes {size count : Nat} (le : count ≤ size) (value : Nat) :
    (littleBytes size value).take count = littleBytes count value := by
  apply (littleValue_inj (by simp [min_eq_left le])).mp
  rw [littleValue_take (by rwa [length_littleBytes]), littleValue_littleBytes_mod, littleValue_littleBytes_mod]
  exact Nat.mod_mod_of_dvd value (Nat.pow_dvd_pow 256 le)

theorem encode_eq_arrange (order : ByteOrder) (size value : Nat) :
    order.encode size value = arrange order (littleBytes size value) := by
  cases order with
  | big => rfl
  | little => rfl

end ByteOrder

namespace IntegerScalar

variable {scalar : IntegerScalar} {size : Nat}

def memoryBytes (order : ByteOrder) (size : Nat) (value : Int) : List UInt8 :=
  order.encode size (value % 256 ^ size).toNat

theorem littleBytes_value {count : Nat} (le : count ≤ size) (fits : 8 * count ≤ scalar.integer.width) :
    littleBytes count scalar.integer.bits.toNat = littleBytes count (scalar.value % 256 ^ size).toNat := by
  have power : (256 : Int) ^ count = 2 ^ (8 * count) := by rw [pow_mul]; rfl
  have divides : (256 ^ count : Int) ∣ 256 ^ size := pow_dvd_pow 256 le
  have positive : 0 ≤ scalar.value % (256 ^ size : Int) := Int.emod_nonneg _ (pow_ne_zero _ (by decide))
  rw [← littleBytes_mod, ← littleBytes_mod count (Int.toNat _)]
  congr 1
  have same : (scalar.value % 256 ^ size) % 256 ^ count = (scalar.integer.bits.toNat : Int) % 256 ^ count := by
    rw [Int.emod_emod_of_dvd _ divides, power]
    exact APInt.value_emod _ fits
  zify
  rw [Int.toNat_of_nonneg positive, same]

/-- The memory behind the scalar's bytes, which is left as it is, is right already, and so are the zeros that a
big-endian process gets in front of them. -/
structure Complete (order : ByteOrder) (memory bytes : List UInt8) (scalarSize : Nat) : Prop where
  behind : memory.drop scalarSize = bytes.drop scalarSize
  front : order = .big → ∀ byte ∈ bytes.take (min scalarSize (bytes.length - scalarSize)), byte = 0

theorem take_append_eq_iff {α : Type} {front other rest : List α} (length : front.length = other.length) (count : Nat) :
    (front ++ rest).take count = (other ++ rest).take count ↔ front.take count = other.take count := by
  simp [take_append, length]

theorem take_eq_zeros_iff (bytes : List UInt8) (count : Nat) :
    (List.replicate bytes.length 0).take count = bytes.take count ↔ ∀ byte ∈ bytes.take count, byte = 0 := by
  rw [take_replicate, eq_comm, eq_replicate_iff, length_take]
  exact and_iff_right rfl

theorem append_eq_iff_take {α : Type} {front rest bytes : List α} (length : (front ++ rest).length = bytes.length) :
    front ++ rest = bytes ↔ front = bytes.take front.length ∧ rest = bytes.drop front.length := by
  constructor
  · rintro rfl
    exact ⟨(take_left' rfl).symm, (drop_left' rfl).symm⟩
  · rintro ⟨front_eq, rest_eq⟩
    conv_lhs => rw [front_eq, rest_eq]
    exact take_append_drop _ _

/-- What the buffer has of a scalar whose bytes are too few, in front of the memory that is left. -/
theorem filled_iff {own more memory : List UInt8} (order : ByteOrder)
    (length : memory.length = own.length + more.length) :
    (arrange order (own ++ List.replicate more.length 0)).take own.length ++ memory.drop own.length =
        arrange order (own ++ more) ↔
      Complete order memory (arrange order (own ++ more)) own.length := by
  have filled : (own ++ replicate more.length (0 : UInt8)).length = own.length + more.length := by simp
  have taken : ((arrange order (own ++ List.replicate more.length 0)).take own.length).length = own.length := by
    rw [length_take, length_arrange]
    omega
  have whole : ((arrange order (own ++ List.replicate more.length 0)).take own.length ++
      memory.drop own.length).length = (arrange order (own ++ more)).length := by
    rw [length_append, length_drop, length_arrange, length_append]
    omega
  rw [append_eq_iff_take whole, taken]
  cases order with
  | little =>
    dsimp only [arrange]
    rw [take_left' rfl, take_left' rfl]
    exact ⟨fun same => ⟨same.2, nofun⟩, fun complete => ⟨rfl, complete.behind⟩⟩
  | big =>
    dsimp only [arrange]
    rw [List.reverse_append, List.reverse_append, List.reverse_replicate,
      take_append_eq_iff (by simp)]
    have zeros := take_eq_zeros_iff more.reverse own.length
    rw [length_reverse] at zeros
    have front : (more.reverse ++ own.reverse).take
        (min own.length ((more.reverse ++ own.reverse).length - own.length)) = more.reverse.take own.length := by
      rw [List.length_append, List.length_reverse, List.length_reverse, Nat.add_sub_cancel,
        take_append_of_le_length (by rw [length_reverse]; exact min_le_right ..)]
      conv_rhs => rw [take_eq_take_min, length_reverse]
    rw [zeros]
    constructor
    · rintro ⟨zero, behind⟩
      exact ⟨behind, fun _ => by rwa [front]⟩
    · intro complete
      exact ⟨by have zero := complete.front rfl; rwa [front] at zero, complete.behind⟩

theorem complete_of_le {memory bytes : List UInt8} {own : Nat} (order : ByteOrder)
    (length : memory.length = bytes.length)
    (le : bytes.length ≤ own) : Complete order memory bytes own where
  behind := by rw [drop_eq_nil_of_le (length.le.trans le), drop_eq_nil_of_le le]
  front := by
    intro _ byte member
    rw [Nat.sub_eq_zero_of_le le, Nat.min_zero] at member
    exact absurd member not_mem_nil

theorem written_eq_iff (order : ByteOrder) {memory : List UInt8} (length : memory.length = size)
    (fits : 8 * scalar.getByteSize ≤ scalar.integer.width) :
    (arrange order (fit size
          (littleBytes scalar.getByteSize scalar.integer.bits.toNat))).take (min scalar.getByteSize size) ++
        memory.drop (min scalar.getByteSize size) = memoryBytes order size scalar.value ↔
      Complete order memory (memoryBytes order size scalar.value) scalar.getByteSize := by
  unfold memoryBytes
  rw [encode_eq_arrange]
  generalize scalar.getByteSize = own at fits ⊢
  rcases lt_or_ge own size with short | long
  · have front : littleBytes own scalar.integer.bits.toNat = _ := littleBytes_value short.le fits
    have split := take_append_drop own (littleBytes size (scalar.value % 256 ^ size).toNat)
    rw [take_littleBytes short.le, ← front] at split
    have more : ((littleBytes size (scalar.value % 256 ^ size).toNat).drop own).length = size - own := by
      simp
    generalize (littleBytes size (scalar.value % 256 ^ size).toNat).drop own = rest at split more
    have count : (littleBytes own scalar.integer.bits.toNat).length = own := length_littleBytes ..
    have lengths : memory.length = (littleBytes own scalar.integer.bits.toNat).length + rest.length := by
      omega
    have complete := filled_iff order lengths
    rw [count, split] at complete
    rw [min_eq_left short.le, fit_short (by rw [count]; exact short.le), count, ← more]
    exact complete
  · have front : littleBytes size scalar.integer.bits.toNat = _ := littleBytes_value (le_refl size) (by omega)
    have length_little : (littleBytes size (scalar.value % 256 ^ size).toNat).length = size :=
      length_littleBytes ..
    have cut : fit size (littleBytes own scalar.integer.bits.toNat) =
        littleBytes size (scalar.value % 256 ^ size).toNat := by
      simp [fit, take_littleBytes long, front, Nat.sub_eq_zero_of_le long]
    rw [cut, min_eq_right long, take_of_length_le (by simp),
      drop_eq_nil_of_le length.le, List.append_nil]
    have whole : (arrange order (littleBytes size
        (scalar.value % 256 ^ size).toNat)).length = size := by simp
    exact iff_of_true rfl (complete_of_le order (length.trans whole.symm) (whole.trans_le long))

end IntegerScalar

namespace Inferior

variable {inferior : Inferior} {order host : ByteOrder} {address byteSize : Nat} {scalar : IntegerScalar}

theorem arrange_encode (order : ByteOrder) (size value : Nat) :
    arrange order (order.encode size value) = littleBytes size value := by
  cases order with
  | little => rfl
  | big => exact reverse_reverse _

theorem getAsMemoryData_eq (host order : ByteOrder) {dst : List UInt8} (room : dst ≠ []) :
    scalar.getAsMemoryData host dst order = if scalar.getByteSize = 0 then (0, dst, some "invalid scalar value")
      else (min scalar.getByteSize dst.length, arrange order (fit dst.length
        (littleBytes scalar.getByteSize scalar.integer.bits.toNat)), none) := by
  have space := length_pos_iff.mpr room
  unfold IntegerScalar.getAsMemoryData IntegerScalar.getData
  rcases eq_zero_or_pos scalar.getByteSize with none | positive
  · simp [none]
  · rw [if_pos positive, if_neg positive.ne']
    dsimp only
    rw [copyByteOrderedData_eq (decide_eq_true (by rw [Nat.sub_zero])), List.drop_zero, List.take_length,
      arrange_encode, length_encode]
    rw [if_neg (by omega)]

theorem write_nil (inferior : Inferior) (address : Nat) : inferior.write address [] = inferior := by
  funext other
  rfl

theorem writeScalar_eq (inferior : Inferior) (order : ByteOrder) (address : Nat) (host : ByteOrder)
    (scalar : IntegerScalar) (positive : 0 < byteSize) (small : byteSize ≤ 32) :
    ∃ count error, inferior.writeScalarToMemory order address host scalar byteSize = some (count,
      inferior.write address ((arrange order (fit byteSize
        (littleBytes scalar.getByteSize scalar.integer.bits.toNat))).take (min scalar.getByteSize byteSize)),
      error) := by
  have room : replicate byteSize (0 : UInt8) ≠ [] := by
    rw [ne_eq, replicate_eq_nil_iff]
    exact positive.ne'
  unfold writeScalarToMemory
  dsimp only
  rw [if_neg (show byteSize ≠ 2 ^ 32 - 1 by omega), if_pos positive, if_neg (not_lt.mpr small),
    getAsMemoryData_eq host order room, length_replicate]
  by_cases none : scalar.getByteSize = 0
  · rw [none]
    exact ⟨_, _, rfl⟩
  · rw [if_neg none]
    rw [if_pos (by omega)]
    exact ⟨_, _, rfl⟩

theorem encode_decode (order : ByteOrder) (bytes : List UInt8) :
    order.encode bytes.length (order.decode bytes) = bytes := by
  cases order with
  | little => exact littleBytes_littleValue bytes
  | big =>
    have back := littleBytes_littleValue bytes.reverse
    rw [length_reverse] at back
    exact (congrArg List.reverse back).trans (reverse_reverse bytes)

theorem emod_power (value : Int) (size : Nat) :
    (((value % 256 ^ size).toNat : Nat) : Int) = value % 256 ^ size ∧ (value % 256 ^ size).toNat < 256 ^ size := by
  have positive : (0 : Int) < 256 ^ size := Int.pow_pos (by decide)
  have cast := Int.toNat_of_nonneg (Int.emod_nonneg value positive.ne')
  have below := Int.emod_lt_of_pos value positive
  refine ⟨cast, ?_⟩
  zify
  rwa [cast]

theorem decode_eq_iff (order : ByteOrder) (memory : List UInt8) (value : Int) :
    (order.decode memory : Int) = value % 256 ^ memory.length ↔
      memory = IntegerScalar.memoryBytes order memory.length value := by
  obtain ⟨cast, below⟩ := emod_power value memory.length
  unfold IntegerScalar.memoryBytes
  constructor
  · intro same
    simp [← same, encode_decode]
  · intro same
    have decoded := (congrArg order.decode same).trans (order.decode_encode below)
    rw [decoded, cast]

theorem power_le {size : Nat} (sized : size ∈ [1, 2, 4, 8]) : 256 ^ size ≤ 2 ^ 64 ∧ 2 ∣ 256 ^ size := by
  have all : ∀ size ∈ [1, 2, 4, 8], 256 ^ size ≤ 2 ^ 64 ∧ 2 ∣ 256 ^ size := by decide
  exact all size sized

theorem unsigned_iff {memory : List UInt8} (sized : memory.length ∈ [1, 2, 4, 8]) (order : ByteOrder) (value : Int) :
    BitVec.ofNat 64 (order.decode memory) = BitVec.ofInt 64 (value % 256 ^ memory.length) ↔
      memory = IntegerScalar.memoryBytes order memory.length value := by
  obtain ⟨cast, below⟩ := emod_power value memory.length
  have bound := order.decode_lt memory
  have large := (power_le sized).1
  rw [← decode_eq_iff, ← cast, ofInt_natCast, ← toNat_inj, toNat_ofNat, toNat_ofNat,
    Nat.mod_eq_of_lt (by omega), Nat.mod_eq_of_lt (by omega), Int.natCast_inj]

theorem toInt_bmod {modulus : Nat} (large : modulus ≤ 2 ^ 64) (positive : 0 < modulus) (even : 2 ∣ modulus)
    (value : Int) :
    (BitVec.ofInt 64 (Int.bmod value modulus)).toInt = Int.bmod value modulus := by
  have low := Int.le_bmod (x := value) positive
  have high := Int.bmod_lt (x := value) positive
  rw [toInt_ofInt]
  exact Int.bmod_eq_of_le (by omega) (by omega)

theorem signed_iff {memory : List UInt8} (sized : memory.length ∈ [1, 2, 4, 8]) (order : ByteOrder) (value : Int) :
    BitVec.ofInt 64 (Int.bmod (order.decode memory) (256 ^ memory.length)) =
        BitVec.ofInt 64 (Int.bmod value (256 ^ memory.length)) ↔
      memory = IntegerScalar.memoryBytes order memory.length value := by
  have bound := order.decode_lt memory
  obtain ⟨large, even⟩ := power_le sized
  have positive : 0 < 256 ^ memory.length := Nat.pow_pos (by decide)
  have power : ((256 ^ memory.length : Nat) : Int) = 256 ^ memory.length := by push_cast; rfl
  have small : (order.decode memory : Int) % (256 ^ memory.length : Nat) = order.decode memory :=
    Int.emod_eq_of_lt (Int.natCast_nonneg _) (by exact_mod_cast bound)
  rw [← decode_eq_iff, ← power]
  constructor
  · intro same
    have equal := congrArg BitVec.toInt same
    rw [toInt_bmod large positive even, toInt_bmod large positive even] at equal
    rw [← small, ← Int.bmod_emod, equal, Int.bmod_emod]
  · intro same
    rw [same, Int.emod_bmod]

/-- Both readers after the bytes of a scalar have been written. -/
theorem integers_survive_iff (inferior : Inferior) (order host : ByteOrder) (address : Nat) (scalar : IntegerScalar)
    (failValue : Int) (valid : scalar.type ≠ .void) (sized : byteSize ∈ [1, 2, 4, 8])
    (readable : (inferior.readMemoryFromInferior address byteSize).length = byteSize) :
    let memory := inferior.readMemoryFromInferior address byteSize
    let complete := IntegerScalar.Complete order memory (IntegerScalar.memoryBytes order byteSize scalar.value)
      scalar.getByteSize
    inferior.readUnsignedIntegerFromMemory order address byteSize failValue =
        some (BitVec.ofNat 64 (order.decode memory)) ∧
      (inferior.readSignedIntegerFromMemory order address byteSize failValue =
        some (BitVec.ofInt 64 (Int.bmod (order.decode memory) (256 ^ byteSize))) ↔ byteSize ∈ [4, 8]) ∧
      ∃ count after error,
        inferior.writeScalarToMemory order address host scalar byteSize = some (count, after, error) ∧
        (after.readUnsignedIntegerFromMemory order address byteSize failValue =
          some (BitVec.ofInt 64 (scalar.value % 256 ^ byteSize)) ↔ complete) ∧
        (after.readSignedIntegerFromMemory order address byteSize failValue =
          some (BitVec.ofInt 64 (Int.bmod scalar.value (256 ^ byteSize))) ↔ byteSize ∈ [4, 8] ∧ complete) := by
  have range : ∀ size ∈ [1, 2, 4, 8], 0 < size ∧ size ≤ 32 := by decide
  obtain ⟨positive, small⟩ := range byteSize sized
  have fits : 8 * scalar.getByteSize ≤ scalar.integer.width := by
    rw [IntegerScalar.getByteSize, if_neg valid]
    omega
  have complete := IntegerScalar.written_eq_iff order readable fits
  obtain ⟨count, error, wrote⟩ := inferior.writeScalar_eq order address host scalar positive small
  -- What the write leaves is read over the bytes of the scalar and the memory behind them.
  have filled : (arrange order (fit byteSize (littleBytes scalar.getByteSize
      scalar.integer.bits.toNat))).length = byteSize := by
    rw [length_arrange, fit, length_append, length_take, length_replicate]
    omega
  have taken := length_take (i := min scalar.getByteSize byteSize) (l := arrange order
    (fit byteSize (littleBytes scalar.getByteSize scalar.integer.bits.toNat)))
  rw [filled, Nat.min_eq_left (Nat.min_le_right ..)] at taken
  have after := readMemoryFromInferior_write (show byteSize < 2 ^ 64 by omega) readable
    (taken.trans_le (min_le_right ..))
  rw [taken] at after
  rw [← after] at complete
  generalize inferior.write address _ = written at wrote after complete
  have length : (written.readMemoryFromInferior address byteSize).length = byteSize := by
    rw [after, length_append, length_drop]
    omega
  have whole : (written.readMemoryFromInferior address byteSize).length ∈ [1, 2, 4, 8] := length.symm ▸ sized
  have unsigned := unsigned_iff whole order scalar.value
  have signed := signed_iff whole order scalar.value
  rw [length] at unsigned signed
  refine ⟨readUnsigned_eq sized readable, ?_, count, written, error, wrote, ?_, ?_⟩
  · rw [readSigned_eq sized readable]
    split
    · rename_i wide
      exact iff_of_true rfl wide
    · rename_i narrow
      exact iff_of_false (some_ne_none _).symm narrow
  · rw [readUnsigned_eq sized length, some_inj, unsigned, complete]
  · rw [readSigned_eq sized length]
    split
    · rename_i wide
      rw [some_inj, signed, complete]
      exact (and_iff_right wide).symm
    · rename_i narrow
      exact iff_of_false (some_ne_none _).symm fun both => narrow both.1

theorem integers_survive_iff_int : readSignedIntegerFromMemory (fun _ => some 254) .little 8 4 0 =
      some (BitVec.ofInt 64 (Int.bmod (little.decode (readMemoryFromInferior (fun _ => some 254) 8 4))
        (256 ^ 4))) :=
  (integers_survive_iff (fun _ => some 254) .little .little 8 ⟨.sint, .ofValue 32 (-1)⟩ 0 (by decide) (by decide)
    rfl).2.1.mpr (by decide)

theorem not_integers_survive : ¬ ∀ (inferior : Inferior) (order : ByteOrder) (address byteSize : Nat) (failValue : Int),
    byteSize ∈ [1, 2, 4, 8] → (inferior.readMemoryFromInferior address byteSize).length = byteSize →
    inferior.readSignedIntegerFromMemory order address byteSize failValue = some (BitVec.ofInt 64 (Int.bmod
      (order.decode (inferior.readMemoryFromInferior address byteSize)) (256 ^ byteSize))) := by
  intro always
  have read := always (fun _ => some 255) .little 8 1 0 (by decide) rfl
  exact nomatch read

end Inferior

end Lldb
