import Lldb.Utility.HostOrder
import Lldb.Utility.IntegerScalar

/-! The integer views of a `RegisterValue`: of its scalar, and of the words that are read from its buffer. -/

set_option autoImplicit false

namespace Lldb

open Library (APInt)
open ByteOrder List

/-- The types that integers and bytes give. -/
inductive RegisterType where
  | invalid
  | uint8
  | uint16
  | uint32
  | uint64
  | uint128
  | bytes
  deriving DecidableEq

/-- The buffer has `kMaxRegisterByteSize` bytes, of which the first `length` are the value's. -/
structure RegisterValue where
  type : RegisterType
  scalar : IntegerScalar
  bytes : List UInt8
  length : Nat

/-- An integer of a width that there is a type for. `isSignedIntN` holds of each, so the type is signed. -/
def IntegerScalar.ofAPInt (integer : APInt) : IntegerScalar :=
  ⟨match integer.width with
    | 8 | 16 | 32 => .sint
    | 64 => .slonglong
    | 128 => .sint128
    | 256 => .sint256
    | _ => .void, integer⟩

namespace RegisterValue

def kMaxRegisterByteSize : Nat := 64

/-- The buffer is not initialised. -/
def new (bytes : List UInt8) : RegisterValue := ⟨.invalid, .ofULong 0, bytes, 0⟩

variable (register : RegisterValue)

def setBytes (data : List UInt8) : RegisterValue :=
  if data = [] then { register with type := .invalid, length := 0 }
  else { register with type := .bytes, bytes := data ++ register.bytes.drop data.length, length := data.length }

/-- The argument is converted to the type that is stored, and an `int` is made of the short ones. -/
def setUInt (uint : UInt64) (byteSize : Nat) : Bool × RegisterValue :=
  let uint := uint.toNat
  if byteSize = 0 then (true, { register with type := .uint64, scalar := .ofULong uint })
  else if byteSize = 1 then (true, { register with type := .uint8, scalar := ⟨.sint, .ofValue 32 (uint % 2 ^ 8 : Nat)⟩ })
  else if byteSize ≤ 2 then (true, { register with type := .uint16, scalar := ⟨.sint, .ofValue 32 (uint % 2 ^ 16 : Nat)⟩ })
  else if byteSize ≤ 4 then (true, { register with type := .uint32, scalar := .ofUInt (uint % 2 ^ 32) })
  else if byteSize ≤ 8 then (true, { register with type := .uint64, scalar := .ofULong uint })
  else if byteSize ≤ 16 then (true, { register with type := .uint128, scalar := .ofAPInt (.ofValue 128 uint) })
  else (false, register)

def copyValue (rhs : RegisterValue) : Bool × RegisterValue :=
  match rhs.type with
  | .invalid => (false, { register with type := .invalid })
  | .bytes => (true, { register with type := .bytes, bytes := rhs.bytes, length := rhs.length })
  | type => (true, { register with type := type, scalar := rhs.scalar })

variable (host : ByteOrder)

/-- The `count` words of an integer, the least significant first. -/
def words (host : ByteOrder) : Nat → List UInt8 → Nat
  | 0, _ => 0
  | count + 1, bytes => host.decode (bytes.take 8) + 2 ^ 64 * words host count (bytes.drop 8)

def getAsUInt16 : Option Nat :=
  match register.type with
  | .uint8 | .uint16 => some (register.scalar.access false 16 0).toNat
  | .bytes =>
    match register.length with
    | 1 | 2 => some (host.decode (register.bytes.take 2))
    | _ => none
  | _ => none

def getAsUInt32 : Option Nat :=
  match register.type with
  | .uint8 | .uint16 | .uint32 => some (register.scalar.uInt 0).toNat
  | .bytes =>
    match register.length with
    | 1 | 2 | 4 => some (host.decode (register.bytes.take 4))
    | _ => none
  | _ => none

def getAsUInt64 : Option Nat :=
  match register.type with
  | .uint8 | .uint16 | .uint32 | .uint64 => some (register.scalar.uLongLong 0).toNat
  | .bytes =>
    match register.length with
    | 1 => some (host.decode (register.bytes.take 1))
    | 2 => some (host.decode (register.bytes.take 2))
    | 4 => some (host.decode (register.bytes.take 4))
    | 8 => some (host.decode (register.bytes.take 8))
    | _ => none
  | _ => none

def getAsUInt128 : Option APInt :=
  match register.type with
  | .invalid => none
  | .bytes =>
    match register.length with
    | 1 | 2 | 4 | 8 | 16 => some (.ofValue 128 (words host 2 register.bytes))
    | _ => none
  | _ => some register.scalar.integer

def getScalarValue : Option IntegerScalar :=
  match register.type with
  | .invalid => none
  | .bytes =>
    match register.length with
    | 1 => some ⟨.sint, .ofValue 32 (host.decode (register.bytes.take 1))⟩
    | 2 => some ⟨.sint, .ofValue 32 (host.decode (register.bytes.take 2))⟩
    | 4 => some (.ofUInt (host.decode (register.bytes.take 4)))
    | 8 => some (.ofULong (host.decode (register.bytes.take 8)))
    | 16 => some (.ofAPInt (.ofValue 128 (words host 2 register.bytes)))
    | 32 => some (.ofAPInt (.ofValue 256 (words host 4 register.bytes)))
    | _ => none
  | _ => some register.scalar

/-- The numbers of the views that succeed. -/
def Views (number : Int) : Prop :=
  (register.getAsUInt16 host).map Nat.cast = some number ∨ (register.getAsUInt32 host).map Nat.cast = some number ∨
    (register.getAsUInt64 host).map Nat.cast = some number ∨ (register.getAsUInt128 host).map (·.value false) = some number ∨
    (register.getScalarValue host).map IntegerScalar.value = some number

structure Agrees : Prop where
  same : ∀ m n, register.Views host m → register.Views host n → m = n
  exact_ : register.type = .bytes → ∀ n, register.Views host n → n = host.decode (register.bytes.take register.length)

/-- A history of a register: every value that is copied has one of its own. -/
inductive History where
  | new (bytes : List UInt8) (size : bytes.length = kMaxRegisterByteSize)
  | setBytes (past : History) (data : List UInt8) (fits : data.length ≤ kMaxRegisterByteSize)
  | setUInt (past : History) (uint : UInt64) (byteSize : Nat)
  | copyValue (past other : History)

namespace History

def value : History → RegisterValue
  | .new bytes _ => .new bytes
  | .setBytes past data _ => past.value.setBytes data
  | .setUInt past uint byteSize => (past.value.setUInt uint byteSize).2
  | .copyValue past other => (past.value.copyValue other.value).2

/-- At every point of the history the views agree. -/
def Agree (host : ByteOrder) : History → Prop
  | .new bytes size => (History.new bytes size).value.Agrees host
  | .setBytes past data fits => past.Agree host ∧ (past.setBytes data fits).value.Agrees host
  | .setUInt past uint byteSize => past.Agree host ∧ (past.setUInt uint byteSize).value.Agrees host
  | .copyValue past other => past.Agree host ∧ other.Agree host ∧ (past.copyValue other).value.Agrees host

end History

/-- Nothing that was stored before shows behind the bytes of a short value (on a big-endian host, where those are the high
bytes of a longer word, they are zero, too). The words of a wide value are the number of its bytes, and its top bit is
clear, since a signed scalar is made of it. -/
def Clean (bytes : List UInt8) (length : Nat) : Prop :=
  (length ∈ [1, 2, 4, 8] → ∀ byte ∈ (bytes.take 16).drop (if host = .little ∨ length = 8 then length else 0), byte = 0) ∧
    (length ∈ [16, 32] → words host (length / 8) bytes = host.decode (bytes.take length) ∧
      host.decode (bytes.take length) < 2 ^ (8 * length - 1))

/-- Every value that is stored as bytes is clean in the buffer it is stored into. -/
def History.Meets (host : ByteOrder) : History → Prop
  | .new _ _ => True
  | .setBytes past data _ => past.Meets host ∧ Clean host (data ++ past.value.bytes.drop data.length) data.length
  | .setUInt past _ _ => past.Meets host
  | .copyValue past other => past.Meets host ∧ other.Meets host

/-! Words and bytes. -/

theorem littleValue_eq_zero_iff (bytes : List UInt8) : littleValue bytes = 0 ↔ ∀ byte ∈ bytes, byte = 0 := by
  induction bytes with
  | nil => simp [littleValue_nil]
  | cons byte bytes ih =>
    have zero : byte.toNat = 0 ↔ byte = 0 := UInt8.toNat_inj (b := 0)
    simp [littleValue_cons, ih, zero]

variable {bytes : List UInt8} {register host}

theorem littleValue_take_split (count : Nat) {total : Nat} (inside : count ≤ total) (fits : total ≤ bytes.length) :
    littleValue (bytes.take total) =
      littleValue (bytes.take count) + 256 ^ count * littleValue ((bytes.take total).drop count) := by
  have split := littleValue_append ((bytes.take total).take count) ((bytes.take total).drop count)
  rwa [take_append_drop, take_take, min_eq_left inside, length_take_of_le (inside.trans fits)] at split

theorem bigValue_take_split (count : Nat) {total : Nat} (inside : count ≤ total) (fits : total ≤ bytes.length) :
    littleValue (bytes.take total).reverse = littleValue ((bytes.take total).drop count).reverse +
      256 ^ (total - count) * littleValue (bytes.take count).reverse := by
  have split := littleValue_append ((bytes.take total).drop count).reverse ((bytes.take total).take count).reverse
  rwa [← reverse_append, take_append_drop, take_take, min_eq_left inside, length_reverse, length_drop,
    length_take_of_le fits] at split

theorem zero_of_take {count wide total : Nat} (zero : ∀ byte ∈ (bytes.take total).drop count, byte = 0)
    (inside : wide ≤ total) : littleValue ((bytes.take wide).drop count) = 0 := by
  refine (littleValue_eq_zero_iff _).mpr fun byte member => zero byte ?_
  rw [← min_eq_left inside, ← take_take, drop_take] at member
  exact mem_of_mem_take member

theorem words_two : words host 2 bytes = host.decode (bytes.take 8) + 2 ^ 64 * host.decode ((bytes.take 16).drop 8) := by
  simp [words, drop_take]

/-- The two words are the number of the bytes exactly if the value is clean. -/
theorem words_eq_iff {count : Nat} (short : count ∈ [1, 2, 4, 8]) (fits : 16 ≤ bytes.length) :
    words host 2 bytes = host.decode (bytes.take count) ↔ Clean host bytes count := by
  have wide : count ∉ [16, 32] := by simp at short ⊢; omega
  simp only [Clean, short, wide]
  rw [words_two]
  cases host with
  | little =>
    have whole := littleValue_take_split 8 (by decide : 8 ≤ 16) fits
    have split := littleValue_take_split count (by simp at short; omega : count ≤ 16) fits
    simp only [decode, ← littleValue_eq_zero_iff]
    rw [show 2 ^ 64 = 256 ^ 8 by decide, ← whole, split]
    simp
  | big =>
    have first := bigValue_take_split count (by simp at short; omega : count ≤ 8)
      (by omega : 8 ≤ bytes.length)
    have whole := bigValue_take_split 8 (by decide : 8 ≤ 16) fits
    have zero (list : List UInt8) : (∀ byte ∈ list, byte = 0) ↔ littleValue list.reverse = 0 := by
      simp [littleValue_eq_zero_iff]
    simp only [decode, zero]
    -- the bytes of the value are the high ones of the word
    simp only [mem_cons, not_mem_nil, or_false] at short
    rcases short with rfl | rfl | rfl | rfl <;> simp at first ⊢ <;> omega

theorem Clean.decode_take {count wide : Nat} (clean : Clean host bytes count) (short : count ∈ [1, 2, 4])
    (inside : count ≤ wide ∧ wide ≤ 16) (fits : 16 ≤ bytes.length) :
    host.decode (bytes.take wide) = host.decode (bytes.take count) := by
  have zero := clean.1 (by simp at short ⊢; omega)
  cases host with
  | little =>
    simp only [true_or, if_true] at zero
    rw [decode, decode, littleValue_take_split _ inside.1 (by omega), zero_of_take zero inside.2, mul_zero, add_zero]
  | big =>
    rw [if_neg (by simp at short ⊢; omega)] at zero
    have none (wide) (inside : wide ≤ 16) : littleValue (bytes.take wide).reverse = 0 :=
      (littleValue_eq_zero_iff _).mpr fun byte member =>
        zero byte ((take_sublist_take_left inside).subset (mem_reverse.mp member))
    rw [decode, decode, none _ inside.2, none _ (inside.1.trans inside.2)]

theorem decode_take_lt (host : ByteOrder) (count : Nat) (bytes : List UInt8) : host.decode (bytes.take count) < 256 ^ count :=
  (decode_lt host _).trans_le (Nat.pow_le_pow_right (by decide) (length_take_le count bytes))

theorem value_eq_iff {type : IntegerType} {n : Nat} :
    (⟨type, .ofValue type.width n⟩ : IntegerScalar).value = n ↔ type.Fits n := by
  rw [IntegerType.fits_iff, ← IntegerType.value_ofValue]
  rfl

theorem words_lt (host : ByteOrder) (count : Nat) (bytes : List UInt8) : words host count bytes < 2 ^ (64 * count) := by
  induction count generalizing bytes with
  | zero => simp [words]
  | succ count ih =>
    have first := decode_take_lt host 8 bytes
    have rest := ih (bytes.drop 8)
    rw [words, mul_add, pow_add]
    omega

theorem agrees_bytes (type : register.type = .bytes) (size : register.bytes.length = kMaxRegisterByteSize) :
    register.Agrees host ↔ Clean host register.bytes register.length := by
  have exact_iff : register.Agrees host ↔
      ∀ n, register.Views host n → n = host.decode (register.bytes.take register.length) :=
    ⟨fun agrees => agrees.exact_ type, fun all => ⟨fun m n left right => (all m left).trans (all n right).symm, fun _ => all⟩⟩
  have fits : 16 ≤ register.bytes.length := by rw [size]; decide
  have bound := fun count => decode_take_lt host count register.bytes
  have view : (APInt.ofValue 128 (words host 2 register.bytes)).value false = words host 2 register.bytes := by
    have := words_lt host 2 register.bytes
    rw [APInt.value_false_ofValue]
    omega
  have sint : ∀ n : Nat, n < 2 ^ 16 → IntegerType.sint.Fits n := by
    simp [IntegerType.Fits, IntegerType.isSigned, IntegerType.width]
    omega
  rw [exact_iff]
  by_cases known : register.length ∈ [1, 2, 4, 8, 16, 32]
  · have short := fun small => @words_eq_iff host register.bytes register.length small fits
    have reads := fun clean small wide inside => @Clean.decode_take host register.bytes register.length wide clean small inside fits
    have wide : ∀ count ∈ [16, 32], (Clean host register.bytes count ↔
        words host (count / 8) register.bytes = host.decode (register.bytes.take count) ∧
          host.decode (register.bytes.take count) < 2 ^ (8 * count - 1)) := by
      simp [Clean]
    simp only [mem_cons, not_mem_nil, or_false] at known
    rcases known with length | length | length | length | length | length
    all_goals
      rw [length] at short reads ⊢
      simp [Views, getAsUInt16, getAsUInt32, getAsUInt64, getAsUInt128, getScalarValue, type, length, or_imp, forall_and, view]
    · have iff := short (by decide)
      exact ⟨fun all => iff.mp all.2.2.1, fun clean => ⟨reads clean (by decide) 2 (by decide), reads clean (by decide) 4 (by decide),
        iff.mpr clean, value_eq_iff.mpr (sint _ ((bound 1).trans (by decide)))⟩⟩
    · have iff := short (by decide)
      exact ⟨fun all => iff.mp all.2.1, fun clean => ⟨reads clean (by decide) 4 (by decide), iff.mpr clean,
        value_eq_iff.mpr (sint _ (bound 2))⟩⟩
    · rw [← short (by decide)]
      exact and_iff_left (value_eq_iff.mpr ⟨by omega, by exact_mod_cast bound 4⟩)
    · rw [← short (by decide)]
      exact and_iff_left (value_eq_iff.mpr ⟨by omega, by exact_mod_cast bound 8⟩)
    · rw [wide 16 (by decide)]
      refine and_congr_right fun same => ?_
      rw [same]
      refine (@value_eq_iff .sint128 _).trans ?_
      simp [IntegerType.Fits, IntegerType.isSigned, IntegerType.width]
    · have low := words_lt host 4 register.bytes
      have number : (IntegerScalar.ofAPInt (.ofValue 256 (words host 4 register.bytes))).value =
          Int.bmod (words host 4 register.bytes) (2 ^ 256) := APInt.value_true_ofValue
      rw [wide 32 (by decide), show 32 / 8 = 4 from rfl, number, Int.bmod_def]
      split <;> omega
  · simp only [mem_cons, not_or] at known
    simp [Views, getAsUInt16, getAsUInt32, getAsUInt64, getAsUInt128, getScalarValue, Clean, type, known]

/-! Scalars. -/

def limit : RegisterType → Nat
  | .invalid | .bytes => 1
  | .uint8 | .uint16 => 2 ^ 16
  | .uint32 => 2 ^ 32
  | .uint64 | .uint128 => 2 ^ 64

/-- The scalar of an integer denotes a number below the limit of the type. -/
def Denotes (register : RegisterValue) : Prop :=
  register.type ≠ .invalid → register.type ≠ .bytes →
    register.scalar.type ≠ .void ∧ register.scalar.value = register.scalar.integer.bits.toNat ∧
      register.scalar.integer.bits.toNat < limit register.type

theorem Denotes.agrees (denotes : register.Denotes) (scalar : register.type ≠ .bytes) : register.Agrees host := by
  suffices only : ∀ n, register.Views host n → n = register.scalar.integer.bits.toNat from
    ⟨fun m n left right => (only m left).trans (only n right).symm, fun type => absurd type scalar⟩
  intro n view
  unfold Denotes at denotes
  cases type : register.type <;>
    simp [Views, getAsUInt16, getAsUInt32, getAsUInt64, getAsUInt128, getScalarValue, type] at view denotes scalar
  all_goals
    obtain ⟨some_, value, small⟩ := denotes
    simp [IntegerScalar.uInt, IntegerScalar.uLongLong, IntegerScalar.access, some_, limit, APInt.value] at view small
    omega

theorem denotes_setUInt (denotes : register.Denotes) (uint : UInt64) (byteSize : Nat) :
    (register.setUInt uint byteSize).2.Denotes := by
  have fits (type : IntegerType) {n : Nat} (limit : Nat) (small : n < limit)
      (room : limit ≤ 2 ^ (if type.isSigned then type.width - 1 else type.width)) :
      (⟨type, .ofValue type.width n⟩ : IntegerScalar).value = (BitVec.ofInt type.width n).toNat ∧
        (BitVec.ofInt type.width n).toNat < limit := by
    have inside : type.Fits n ∧ n < 2 ^ type.width := by
      cases type <;> simp [IntegerType.Fits, IntegerType.isSigned, IntegerType.width] at room ⊢ <;> omega
    have number : (BitVec.ofInt type.width n).toNat = n := by simp [Nat.mod_eq_of_lt inside.2]
    exact ⟨(value_eq_iff.mpr inside.1).trans (congrArg _ number.symm), number.trans_lt small⟩
  have small := uint.toNat_lt
  unfold setUInt
  split_ifs
  · exact fun _ _ => ⟨by rintro ⟨⟩, fits .ulong (2 ^ 64) small (by decide)⟩
  · exact fun _ _ => ⟨by rintro ⟨⟩, fits .sint (2 ^ 16) (by omega) (by decide)⟩
  · exact fun _ _ => ⟨by rintro ⟨⟩, fits .sint (2 ^ 16) (by omega) (by decide)⟩
  · exact fun _ _ => ⟨by rintro ⟨⟩, fits .uint (2 ^ 32) (by omega) (by decide)⟩
  · exact fun _ _ => ⟨by rintro ⟨⟩, fits .ulong (2 ^ 64) small (by decide)⟩
  · exact fun _ _ => ⟨by rintro ⟨⟩, fits .sint128 (2 ^ 64) small (by decide)⟩
  · exact denotes

namespace History

theorem denotes (history : History) : history.value.Denotes := by
  induction history with
  | new => exact fun valid => absurd rfl valid
  | setBytes past data fits ih =>
    unfold value RegisterValue.setBytes
    split
    · exact fun valid => absurd rfl valid
    · exact fun _ scalar => absurd rfl scalar
  | setUInt past uint byteSize ih => exact denotes_setUInt ih uint byteSize
  | copyValue past other _ ih =>
    unfold value RegisterValue.copyValue
    cases type : other.value.type <;> simp_all [Denotes]

theorem length_bytes (history : History) : history.value.bytes.length = kMaxRegisterByteSize := by
  induction history with
  | new bytes size => exact size
  | setBytes past data fits ih =>
    unfold value RegisterValue.setBytes
    split
    · exact ih
    · simp [ih, fits]
  | setUInt past uint byteSize ih =>
    unfold value RegisterValue.setUInt
    split_ifs <;> exact ih
  | copyValue past other ih copied =>
    unfold value RegisterValue.copyValue
    cases other.value.type <;> assumption

theorem agrees_iff (history : History) : history.value.Agrees host ↔
    (history.value.type = .bytes → Clean host history.value.bytes history.value.length) := by
  by_cases type : history.value.type = .bytes
  · simp [type, agrees_bytes type history.length_bytes]
  · simp [type, history.denotes.agrees type]

theorem Agree.agrees {history : History} (agree : history.Agree host) : history.value.Agrees host := by
  cases history with
  | new => exact agree
  | setBytes | setUInt => exact agree.2
  | copyValue => exact agree.2.2

end History

/-- The views agree throughout a history exactly if every value is stored clean. -/
theorem readings_agree_iff (host : ByteOrder) (history : History) : history.Agree host ↔ history.Meets host := by
  induction history with
  | new bytes size =>
    exact iff_of_true ((History.agrees_iff (.new bytes size)).mpr fun type => by cases type) trivial
  | setBytes past data fits ih =>
    refine and_congr ih ((History.agrees_iff _).trans ?_)
    by_cases none_ : data = []
    · cases host <;> simp [History.value, RegisterValue.setBytes, none_, Clean]
    · simp [History.value, RegisterValue.setBytes, none_]
  | setUInt past uint byteSize ih =>
    refine (and_congr_left' ih).trans (and_iff_left_of_imp fun meets => (History.agrees_iff _).mpr fun type => ?_)
    have kept := (History.agrees_iff past).mp (ih.mpr meets).agrees
    unfold History.value RegisterValue.setUInt at type ⊢
    split_ifs at type ⊢
    exact kept type
  | copyValue past other ih copied =>
    refine (and_congr ih (and_congr_left' copied)).trans (and_congr_right fun _ =>
      and_iff_left_of_imp fun meets => (History.agrees_iff _).mpr fun type => ?_)
    have kept := (History.agrees_iff other).mp (copied.mpr meets).agrees
    unfold History.value RegisterValue.copyValue at type ⊢
    cases own : other.value.type <;> simp_all

/-- A byte stored over two others: the sixteen-bit view takes in the second of them. -/
theorem readings_disagree : ¬∀ host (history : History), history.Agree host := by
  intro all
  have agrees := (all .little (.setBytes (.setBytes (.new (replicate 64 0) rfl) [1, 2] (by decide)) [3] (by decide))).agrees
  have number := agrees.same 515 3 (.inl rfl) (.inr (.inr (.inl rfl)))
  exact absurd number (by decide)

end RegisterValue

end Lldb
