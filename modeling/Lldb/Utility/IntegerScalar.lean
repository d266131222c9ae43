import Lldb.Library.APInt
import Lldb.Utility.ScalarWords

/-! `Scalar`: integers of all the types it has, where the stored integer has a width of its own. Values come
with other widths than their types' from an `APInt` of 8 or 16 bits and from `ExtractBitfield` with more
bits than there are.
-/

set_option autoImplicit false

namespace Lldb

open Library (APInt)

inductive IntegerType where
  | void
  | sint
  | uint
  | slong
  | ulong
  | slonglong
  | ulonglong
  | sint128
  | uint128
  | sint256
  | uint256
  deriving DecidableEq, Repr

namespace IntegerType

def width : IntegerType → Nat
  | void => 1
  | sint | uint => 32
  | slong | ulong | slonglong | ulonglong => 64
  | sint128 | uint128 => 128
  | sint256 | uint256 => 256

def isSigned : IntegerType → Bool
  | sint | slong | slonglong | sint128 | sint256 => true
  | void | uint | ulong | ulonglong | uint128 | uint256 => false

def rank : IntegerType → Nat
  | void => 0
  | sint => 1
  | uint => 2
  | slong => 3
  | ulong => 4
  | slonglong => 5
  | ulonglong => 6
  | sint128 => 7
  | uint128 => 8
  | sint256 => 9
  | uint256 => 10

/-- An integer modulo the power of two that the type has, as a value of the type. -/
def reduce (type : IntegerType) (value : Int) : Int :=
  if type.isSigned then Int.bmod value (2 ^ type.width) else value % 2 ^ type.width

def Fits (type : IntegerType) (value : Int) : Prop :=
  if type.isSigned then -2 ^ (type.width - 1) ≤ value ∧ value < 2 ^ (type.width - 1)
  else 0 ≤ value ∧ value < 2 ^ type.width

instance (type : IntegerType) (value : Int) : Decidable (type.Fits value) := by
  unfold Fits
  split <;> infer_instance

end IntegerType

structure IntegerScalar where
  type : IntegerType
  integer : APInt
  deriving DecidableEq, Repr

namespace IntegerScalar

def void : IntegerScalar := ⟨.void, .ofValue 1 0⟩

def ofUInt (value : Nat) : IntegerScalar := ⟨.uint, .ofValue 32 value⟩

def ofULong (value : Nat) : IntegerScalar := ⟨.ulong, .ofValue 64 value⟩

def value (scalar : IntegerScalar) : Int := scalar.integer.value scalar.type.isSigned

def getByteSize (scalar : IntegerScalar) : Nat := if scalar.type = .void then 0 else scalar.integer.width / 8

/-- The cases of the switches differ in the types only: none is promoted to one before it, and the type itself
is left as it is. -/
def promote (scalar : IntegerScalar) (type : IntegerType) : Option IntegerScalar :=
  if scalar.type = .void ∨ type.rank < scalar.type.rank then none
  else if type = scalar.type then some scalar
  else if scalar.type.isSigned then some ⟨type, scalar.integer.sextOrTrunc type.width⟩
  else some ⟨type, scalar.integer.zextOrTrunc type.width⟩

/-- An accessor of the type `int`, `unsigned`, `long long` or `unsigned long long`, as the bits it returns; the
signed ones extend the sign of every type. -/
def access (signed : Bool) (width : Nat) (scalar : IntegerScalar) (failValue : Int) : BitVec width :=
  if scalar.type = .void then BitVec.ofInt width failValue
  else if signed then scalar.integer.bits.signExtend width
  else scalar.integer.bits.setWidth width

def sInt : IntegerScalar → Int → BitVec 32 := access true 32

def uInt : IntegerScalar → Int → BitVec 32 := access false 32

def sLongLong : IntegerScalar → Int → BitVec 64 := access true 64

def uLongLong : IntegerScalar → Int → BitVec 64 := access false 64

/-- What is returned and what becomes of the scalar; `none` where integers of different widths are combined. -/
def signExtend (scalar : IntegerScalar) (signBitPos : Nat) : Option (Bool × IntegerScalar) :=
  let maxBitPos := scalar.getByteSize * 8
  if signBitPos < maxBitPos then
    if scalar.type = .void then some (false, scalar)
    else if maxBitPos = signBitPos then some (true, scalar)
    else if signBitPos < maxBitPos - 1 then do
      let signBit := APInt.getSignMask (signBitPos + 1)
      let bitwiseAnd ← scalar.integer.and signBit
      if bitwiseAnd.bits ≠ 0 then
        let mask ← signBit.not.add (.ofValue scalar.integer.width 1)
        let integer ← scalar.integer.or mask
        return (true, { scalar with integer := integer })
      else return (true, scalar)
    else some (false, scalar)
  else some (false, scalar)

/-- `none` where an integer is shifted by more than its width. -/
def extractBitfield (scalar : IntegerScalar) (bitSize bitOffset : Nat) : Option (Bool × IntegerScalar) :=
  if bitSize = 0 then some (true, scalar)
  else if scalar.type = .void then some (false, scalar)
  else do
    let integer ←
      if scalar.type.isSigned then
        (scalar.integer.ashr bitOffset).map fun shifted =>
          (shifted.sextOrTrunc bitSize).sextOrSelf (8 * scalar.getByteSize)
      else
        (scalar.integer.lshr bitOffset).map fun shifted =>
          (shifted.zextOrTrunc bitSize).zextOrSelf (8 * scalar.getByteSize)
    return (true, { scalar with integer := integer })

end IntegerScalar

/-! The scalars of integer opcodes are those of the first four types whose integers have the types' widths. -/

def ScalarType.toIntegerType : ScalarType → IntegerType
  | .void => .void
  | .sint => .sint
  | .uint => .uint
  | .slong => .slong
  | .ulong => .ulong

namespace Scalar

def toInteger (scalar : Scalar) : IntegerScalar := ⟨scalar.type.toIntegerType, ⟨scalar.type.width, scalar.integer⟩⟩

theorem toInteger_promote (scalar : Scalar) (type : ScalarType) :
    scalar.toInteger.promote type.toIntegerType = (scalar.promote type).map toInteger := by
  obtain ⟨own, integer⟩ := scalar
  cases own <;> cases type <;> simp [IntegerScalar.promote, promote, extend, toInteger, ScalarType.toIntegerType,
    IntegerType.rank, ScalarType.rank, IntegerType.isSigned, ScalarType.isSigned, IntegerType.width, ScalarType.width,
    APInt.sextOrTrunc, APInt.zextOrTrunc]
  -- What is left is the extension to the integer's own width.
  case sint.sint => exact congrArg (APInt.mk 32) (BitVec.signExtend_eq integer).symm
  case uint.uint => exact congrArg (APInt.mk 32) (BitVec.setWidth_eq integer).symm
  case slong.slong => exact congrArg (APInt.mk 64) (BitVec.signExtend_eq integer).symm
  case ulong.ulong => exact congrArg (APInt.mk 64) (BitVec.setWidth_eq integer).symm

theorem word_eq (scalar : Scalar) : scalar.word = BitVec.ofInt 64 scalar.toInteger.value := by
  obtain ⟨own, integer⟩ := scalar
  cases own with
  | sint | slong => rfl
  | void | uint | ulong =>
    change integer.setWidth 64 = BitVec.ofInt 64 (integer.toNat : Int)
    simp

end Scalar

/-! Conversion by value. -/

namespace IntegerType

theorem two_pow_width (type : IntegerType) : (2 : Int) ^ type.width = 2 * 2 ^ (type.width - 1) := by
  rw [← pow_succ', Nat.sub_add_cancel (by cases type <;> decide)]

theorem fits_iff {type : IntegerType} (value : Int) : type.Fits value ↔ type.reduce value = value := by
  unfold Fits reduce
  split
  · have half := type.two_pow_width
    have cast : ((2 ^ type.width : Nat) : Int) = 2 ^ type.width := by push_cast; rfl
    constructor
    · rintro ⟨low, high⟩
      exact Int.bmod_eq_of_le (by omega) (by omega)
    · intro same
      have low := Int.le_bmod (x := value) (m := 2 ^ type.width) (Nat.two_pow_pos _)
      have high := Int.bmod_lt (x := value) (m := 2 ^ type.width) (Nat.two_pow_pos _)
      omega
  · constructor
    · rintro ⟨low, high⟩
      exact Int.emod_eq_of_lt low high
    · intro same
      rw [← same]
      have positive : (0 : Int) < 2 ^ type.width := Int.pow_pos (by decide)
      exact ⟨Int.emod_nonneg _ positive.ne', Int.emod_lt_of_pos _ positive⟩

theorem value_ofValue (type : IntegerType) (value : Int) :
    (APInt.ofValue type.width value).value type.isSigned = type.reduce value := by
  unfold reduce
  cases type.isSigned with
  | false => exact APInt.value_false_ofValue
  | true => exact APInt.value_true_ofValue

theorem width_le {type other : IntegerType} (valid : type ≠ .void) (le : type.rank ≤ other.rank) :
    32 ≤ type.width ∧ type.width ≤ other.width := by
  cases type <;> cases other <;> simp_all [rank, width]

theorem uint_or_wide {type : IntegerType} (valid : type ≠ .void) : type = .sint ∨ type = .uint ∨ 64 ≤ type.width := by
  cases type <;> simp_all [width]

end IntegerType

namespace IntegerScalar

variable {scalar promoted : IntegerScalar} {type : IntegerType}

theorem promote_eq (scalar : IntegerScalar) (type : IntegerType) : scalar.promote type =
    if scalar.type = .void ∨ type.rank < scalar.type.rank then none
    else if type = scalar.type then some scalar
    else some ⟨type, .ofValue type.width scalar.value⟩ := by
  unfold promote value
  cases scalar.type.isSigned with
  | false => rw [if_neg (show ¬ false = true by decide), APInt.zextOrTrunc_eq]
  | true => rw [if_pos rfl, APInt.sextOrTrunc_eq]

theorem promoted_of_eq (promotes : scalar.promote type = some promoted) :
    scalar.type ≠ .void ∧ scalar.type.rank ≤ type.rank ∧ (type = scalar.type ∧ promoted = scalar ∨
        type ≠ scalar.type ∧ promoted = ⟨type, .ofValue type.width scalar.value⟩) := by
  rw [promote_eq] at promotes
  split_ifs at promotes with stays own
  · rw [not_or, Nat.not_lt] at stays
    exact ⟨stays.1, stays.2, .inl ⟨own, (Option.some.inj promotes).symm⟩⟩
  · rw [not_or, Nat.not_lt] at stays
    exact ⟨stays.1, stays.2, .inr ⟨own, (Option.some.inj promotes).symm⟩⟩

theorem mk_access (valid : scalar.type ≠ .void) (signed : Bool) (width : Nat) (failValue : Int) :
    APInt.mk width (scalar.access signed width failValue) =
      if signed then scalar.integer.sextOrTrunc width else scalar.integer.zextOrTrunc width := by
  unfold access
  rw [if_neg valid]
  cases signed with
  | false => rfl
  | true => rfl

variable {signed : Bool} {failValue : Int}

/-- An accessor returns the value where its extension is that of the type, or none is needed. -/
theorem access_eq (valid : scalar.type ≠ .void) {width : Nat}
    (clear : scalar.integer.bits.msb = false ∨ width ≤ scalar.integer.width) :
    scalar.access signed width failValue = BitVec.ofInt width scalar.value := by
  have whole := mk_access valid signed width failValue
  rw [APInt.ext_eq_ofValue clear signed scalar.type.isSigned] at whole
  injection whole

theorem access_agree_iff (valid : scalar.type ≠ .void) {width : Nat} :
    scalar.access true width failValue = scalar.access false width failValue ↔
      scalar.integer.bits.msb = false ∨ width ≤ scalar.integer.width := by
  rw [← APInt.sext_eq_zext_iff]
  have sext : APInt.mk width _ = scalar.integer.sextOrTrunc width := mk_access valid true width failValue
  have zext : APInt.mk width _ = scalar.integer.zextOrTrunc width := mk_access valid false width failValue
  rw [← sext, ← zext]
  exact ⟨congrArg (APInt.mk width), fun same => by injection same⟩

theorem access_ofValue (valid : type ≠ .void) {width : Nat} {value : Int}
    (fits : width ≤ type.width ∨ 0 ≤ value ∧ value < 2 ^ (type.width - 1)) :
    access signed width ⟨type, .ofValue type.width value⟩ failValue = BitVec.ofInt width value := by
  rcases fits with cut | ⟨positive, small⟩
  · have whole : APInt.mk width (access signed width ⟨type, .ofValue type.width value⟩ failValue) = _ :=
      mk_access valid signed width failValue
    rw [APInt.zextOrTrunc_ofValue cut, APInt.sextOrTrunc_ofValue cut, ite_self] at whole
    injection whole
  · have clear := APInt.msb_ofValue positive small
    have double := type.two_pow_width
    have kept : type.reduce value = value := by
      apply (IntegerType.fits_iff value).mp
      unfold IntegerType.Fits
      split <;> omega
    rw [access_eq valid (.inl clear)]
    exact congrArg (BitVec.ofInt width) ((type.value_ofValue value).trans kept)

/-- `value` is the integer that the scalar denotes. -/
structure ConvertsByValue (scalar : IntegerScalar) : Prop where
  promotes : ∀ type promoted, scalar.promote type = some promoted → promoted.value = type.reduce scalar.value
  sInt : ∀ failValue, scalar.sInt failValue = BitVec.ofInt 32 scalar.value
  uInt : ∀ failValue, scalar.uInt failValue = BitVec.ofInt 32 scalar.value
  sLongLong : ∀ failValue, scalar.sLongLong failValue = BitVec.ofInt 64 scalar.value
  uLongLong : ∀ failValue, scalar.uLongLong failValue = BitVec.ofInt 64 scalar.value
  promotedFirst : ∀ type promoted, scalar.promote type = some promoted → ∀ failValue,
    promoted.sInt failValue = scalar.sInt failValue ∧ promoted.uInt failValue = scalar.uInt failValue ∧
      promoted.sLongLong failValue = scalar.sLongLong failValue ∧
      promoted.uLongLong failValue = scalar.uLongLong failValue

/-- No accessor and no accessor of a promoted scalar extends a sign that is set. -/
def NoSignToExtend (scalar : IntegerScalar) : Prop :=
  scalar.integer.bits.msb = false ∨ 64 ≤ scalar.integer.width ∧ 64 ≤ scalar.type.width

instance (scalar : IntegerScalar) : Decidable scalar.NoSignToExtend := inferInstanceAs (Decidable (_ ∨ _ ∧ _))

theorem promote_own (valid : scalar.type ≠ .void) : scalar.promote scalar.type = some scalar := by
  unfold promote
  rw [if_neg (by rw [not_or]; exact ⟨valid, Nat.lt_irrefl _⟩), if_pos rfl]

theorem value_neg (signed : scalar.type.isSigned = true) (set : scalar.integer.bits.msb = true) : scalar.value < 0 := by
  unfold value
  rw [signed]
  exact BitVec.toInt_neg_of_msb_true set

theorem value_ge (unsigned : scalar.type.isSigned = false) (set : scalar.integer.bits.msb = true) :
    (2 : Int) ^ (scalar.integer.width - 1) ≤ scalar.value := by
  unfold value
  rw [unsigned]
  rw [BitVec.msb_eq_decide, decide_eq_true_eq] at set
  change _ ≤ (scalar.integer.bits.toNat : Int)
  exact_mod_cast set

theorem uLongLong_promoted_ne {value : Int} (negative : value < 0) (low : -2 ^ 31 ≤ value) :
    uLongLong ⟨.uint, .ofValue 32 value⟩ 0 ≠ BitVec.ofInt 64 value := by
  intro same
  have promoted : (uLongLong ⟨.uint, .ofValue 32 value⟩ 0).toNat < 2 ^ 32 := by
    change ((BitVec.ofInt 32 value).setWidth 64).toNat < 2 ^ 32
    rw [BitVec.toNat_setWidth]
    exact (Nat.mod_le _ _).trans_lt (BitVec.ofInt 32 value).isLt
  rw [same, BitVec.toNat_ofInt] at promoted
  omega

theorem ConvertsByValue.noSignToExtend (valid : scalar.type ≠ .void) (converts : scalar.ConvertsByValue) :
    scalar.NoSignToExtend := by
  have fits : scalar.type.Fits scalar.value :=
    (IntegerType.fits_iff _).mpr (converts.promotes _ _ (promote_own valid)).symm
  have agree : scalar.sLongLong 0 = scalar.uLongLong 0 := (converts.sLongLong 0).trans (converts.uLongLong 0).symm
  rcases (access_agree_iff valid).mp agree with clear | wide
  · exact .inl clear
  · cases set : scalar.integer.bits.msb with
    | false => exact .inl set
    | true =>
      rcases IntegerType.uint_or_wide valid with own | own | wideType
      · have negative := value_neg (by rw [own]; rfl) set
        rw [own] at fits
        have promotes : scalar.promote .uint = some ⟨.uint, .ofValue 32 scalar.value⟩ := by
          rw [promote_eq, own]
          rfl
        have first := (converts.promotedFirst _ _ promotes 0).2.2.2
        rw [converts.uLongLong 0] at first
        exact absurd first (uLongLong_promoted_ne negative fits.1)
      · have large := value_ge (by rw [own]; rfl) set
        rw [own] at fits
        have power : (2 : Int) ^ 63 ≤ 2 ^ (scalar.integer.width - 1) := by
          exact_mod_cast Nat.pow_le_pow_right (by decide) (show 63 ≤ scalar.integer.width - 1 by omega)
        exact absurd fits.2 (by change ¬ scalar.value < 2 ^ 32; omega)
      · exact .inr ⟨wide, wideType⟩

theorem value_nonneg (clear : scalar.integer.bits.msb = false) : 0 ≤ scalar.value := by
  unfold value
  rw [APInt.value_eq_toNat clear]
  exact Int.natCast_nonneg _

/-- A value that is not negative has the top bit of no larger type, unless the type has 64 bits. -/
theorem cut_or_small (valid : scalar.type ≠ .void) (fits : scalar.type.Fits scalar.value)
    (clear : scalar.NoSignToExtend) (le : scalar.type.rank ≤ type.rank) (other : type ≠ scalar.type) :
    64 ≤ type.width ∨ 0 ≤ scalar.value ∧ scalar.value < 2 ^ (type.width - 1) := by
  have wider := (IntegerType.width_le valid le).2
  rcases clear with clear | ⟨-, wide⟩
  · have positive := value_nonneg clear
    cases own : scalar.type with
    | sint =>
      rw [own] at fits
      cases type with
      | uint => exact .inr ⟨positive, fits.2⟩
      | sint => exact absurd own.symm other
      | void => exact absurd le (by rw [own]; decide)
      | _ => exact .inl (by decide)
    | uint =>
      rw [own] at le
      cases type with
      | uint => exact absurd own.symm other
      | void | sint => exact absurd le (by decide)
      | _ => exact .inl (by decide)
    | void => exact absurd own valid
    | _ =>
      rw [own] at wider
      exact .inl (le_trans (by decide) wider)
  · exact .inl (wide.trans wider)

theorem access_promoted (fits : scalar.type.Fits scalar.value) (clear : scalar.NoSignToExtend)
    (promotes : scalar.promote type = some promoted) {width : Nat}
    (narrow : width ≤ 64) : promoted.access signed width failValue = BitVec.ofInt width scalar.value := by
  obtain ⟨valid, le, ⟨-, rfl⟩ | ⟨other, rfl⟩⟩ := promoted_of_eq promotes
  · exact access_eq valid (clear.imp_right fun wide => narrow.trans wide.1)
  · have typed : type ≠ .void := by
      rintro rfl
      exact absurd ((IntegerType.width_le valid le).1.trans (IntegerType.width_le valid le).2) (by decide)
    apply access_ofValue typed
    exact (cut_or_small valid fits clear le other).imp_left narrow.trans

theorem value_promoted (fits : scalar.type.Fits scalar.value) (promotes : scalar.promote type = some promoted) :
    promoted.value = type.reduce scalar.value := by
  obtain ⟨-, -, ⟨rfl, rfl⟩ | ⟨-, rfl⟩⟩ := promoted_of_eq promotes
  · exact ((IntegerType.fits_iff _).mp fits).symm
  · exact type.value_ofValue scalar.value

theorem convertsByValue_iff (scalar : IntegerScalar) (valid : scalar.type ≠ .void) :
    scalar.ConvertsByValue ↔ scalar.type.Fits scalar.value ∧ scalar.NoSignToExtend := by
  constructor
  · intro converts
    exact ⟨(IntegerType.fits_iff _).mpr (converts.promotes _ _ (promote_own valid)).symm, converts.noSignToExtend valid⟩
  · rintro ⟨fits, clear⟩
    have direct (signed : Bool) {width : Nat} (narrow : width ≤ 64) (failValue : Int) :
        scalar.access signed width failValue = BitVec.ofInt width scalar.value :=
      access_eq valid (clear.imp_right fun wide => narrow.trans wide.1)
    have through (signed : Bool) {width : Nat} (narrow : width ≤ 64) {type : IntegerType} {promoted : IntegerScalar}
        (promotes : scalar.promote type = some promoted) (failValue : Int) :
        promoted.access signed width failValue = scalar.access signed width failValue :=
      (access_promoted fits clear promotes narrow).trans (direct signed narrow failValue).symm
    constructor
    · exact fun type promoted promotes => value_promoted fits promotes
    · exact direct true (by decide)
    · exact direct false (by decide)
    · exact direct true (by decide)
    · exact direct false (by decide)
    · intro type promoted promotes failValue
      exact ⟨through true (by decide) promotes failValue, through false (by decide) promotes failValue,
        through true (by decide) promotes failValue, through false (by decide) promotes failValue⟩

theorem convertsByValue_iff_int : (⟨.sint, .ofValue 32 5⟩ : IntegerScalar).ConvertsByValue ↔ True :=
  (convertsByValue_iff ⟨.sint, .ofValue 32 5⟩ (by decide)).trans (iff_true_intro (by decide))

theorem not_convertsByValue : ¬ ∀ scalar : IntegerScalar, scalar.type ≠ .void → scalar.ConvertsByValue :=
  fun always => absurd ((always ⟨.sint, .ofValue 32 (-1)⟩ (by decide)).uLongLong 0) (by decide)

/-! Bit fields. -/

variable {bitSize bitOffset position : Nat}

def field (scalar : IntegerScalar) (signed : Bool) (bitSize bitOffset : Nat) : BitVec scalar.integer.width :=
  let bits := scalar.integer.bits.extractLsb' bitOffset bitSize
  if signed then bits.signExtend scalar.integer.width else bits.setWidth scalar.integer.width

def setBits (scalar : IntegerScalar) (bits : BitVec scalar.integer.width) : IntegerScalar :=
  ⟨scalar.type, ⟨scalar.integer.width, bits⟩⟩

def ExtractsField (scalar : IntegerScalar) (bitSize bitOffset : Nat) : Prop :=
  scalar.extractBitfield bitSize bitOffset =
    some (true, scalar.setBits (scalar.field scalar.type.isSigned bitSize bitOffset))

def SignExtendsFrom (scalar : IntegerScalar) (position : Nat) : Prop :=
  scalar.signExtend position = some (true, scalar.setBits (scalar.field true (position + 1) 0))

def ExtractsSigned (scalar : IntegerScalar) (bitSize bitOffset : Nat) : Prop :=
  ∃ extracted, scalar.extractBitfield bitSize bitOffset = some (true, extracted) ∧
    extracted.signExtend (bitSize - 1) = some (true, scalar.setBits (scalar.field true bitSize bitOffset))

/-- What the shift leaves and the cut keeps, whichever way the shift fills up. -/
theorem signExtend_sshiftRight {width : Nat} (bits : BitVec width) (inside : bitOffset + bitSize ≤ width) :
    (bits.sshiftRight bitOffset).signExtend bitSize = bits.extractLsb' bitOffset bitSize := by
  apply BitVec.eq_of_getLsbD_eq
  intro index below
  rw [BitVec.getLsbD_signExtend, BitVec.getLsbD_sshiftRight]
  simp [below, show index < width by omega, show bitOffset + index < width by omega]

theorem setWidth_ushiftRight {width : Nat} (bits : BitVec width) :
    (bits >>> bitOffset).setWidth bitSize = bits.extractLsb' bitOffset bitSize := by
  apply BitVec.eq_of_getLsbD_eq
  intro index below
  simp

theorem extractBitfield_eq (valid : scalar.type ≠ .void) (positive : 0 < bitSize)
    (inside : bitOffset + bitSize ≤ scalar.integer.width) :
    scalar.extractBitfield bitSize bitOffset =
      let bits : APInt := ⟨bitSize, scalar.integer.bits.extractLsb' bitOffset bitSize⟩
      let width := 8 * (scalar.integer.width / 8)
      some (true, ⟨scalar.type, if scalar.type.isSigned then bits.sextOrSelf width else bits.zextOrSelf width⟩) := by
  have bytes : scalar.getByteSize = scalar.integer.width / 8 := if_neg valid
  have reach : bitOffset ≤ scalar.integer.width := by omega
  unfold extractBitfield
  rw [if_neg positive.ne', if_neg valid, bytes]
  cases scalar.type.isSigned with
  | false =>
    simp only [APInt.lshr, if_pos reach, APInt.zextOrTrunc, Option.map_some,
      setWidth_ushiftRight]
    rfl
  | true =>
    simp only [APInt.ashr, if_pos reach, APInt.sextOrTrunc, Option.map_some, signExtend_sshiftRight _ inside]
    rfl

/-- A field of all the bits is the integer itself, and the bytes of the scalar make up its width just where that
is a multiple of 8. -/
theorem extractsField_iff (valid : scalar.type ≠ .void) (positive : 0 < bitSize)
    (inside : bitOffset + bitSize ≤ scalar.integer.width) :
    scalar.ExtractsField bitSize bitOffset ↔ 8 ∣ scalar.integer.width ∨ bitSize = scalar.integer.width := by
  unfold ExtractsField field setBits
  rw [extractBitfield_eq valid positive inside]
  dsimp only
  constructor
  · intro same
    simp only [Option.some.injEq, Prod.mk.injEq, true_and, IntegerScalar.mk.injEq] at same
    have widths := congrArg APInt.width same
    rw [apply_ite APInt.width, APInt.width_sextOrSelf, APInt.width_zextOrSelf, ite_self] at widths
    have whole : max bitSize (8 * (scalar.integer.width / 8)) = scalar.integer.width := widths
    omega
  · intro whole
    have extended (bits : APInt) (size : bits.width = bitSize) :
        bits.sextOrSelf (8 * (scalar.integer.width / 8)) = bits.sextOrTrunc scalar.integer.width ∧
          bits.zextOrSelf (8 * (scalar.integer.width / 8)) = bits.zextOrTrunc scalar.integer.width := by
      rcases whole with divides | full
      · rw [Nat.mul_div_cancel' divides]
        exact ⟨APInt.sextOrSelf_of_le (by omega), APInt.zextOrSelf_of_le (by omega)⟩
      · have self : bits.width = scalar.integer.width := size.trans full
        have less : ¬ bits.width < 8 * (scalar.integer.width / 8) := by omega
        rw [← self, APInt.sextOrTrunc_self, APInt.zextOrTrunc_self]
        exact ⟨if_neg (self ▸ less), if_neg (self ▸ less)⟩
    have both := extended ⟨bitSize, scalar.integer.bits.extractLsb' bitOffset bitSize⟩ rfl
    rw [both.1, both.2]
    cases scalar.type.isSigned with
    | false => rfl
    | true => rfl

/-- The highest bit is left out, and for each other one a mask of fewer bits is made than the integer has. -/
theorem signExtend_eq (scalar : IntegerScalar) (position : Nat) : scalar.signExtend position =
    if position + 1 < scalar.getByteSize * 8 then none else some (false, scalar) := by
  have bytes : scalar.getByteSize * 8 ≤ scalar.integer.width := by
    unfold getByteSize
    split <;> omega
  unfold signExtend
  dsimp only
  by_cases before : position + 1 < scalar.getByteSize * 8
  · have typed : scalar.type ≠ .void := by
      intro void
      rw [getByteSize, if_pos void] at before
      omega
    have mixed : scalar.integer.and (APInt.getSignMask (position + 1)) = none :=
      APInt.both_of_ne (show position + 1 ≠ scalar.integer.width by omega)
    rw [if_pos (by omega), if_neg typed, if_neg (by omega), if_pos (by omega), mixed, if_pos before]
    rfl
  · split_ifs <;> first | rfl | omega

theorem signExtend_ne_true (scalar result : IntegerScalar) (position : Nat) :
    scalar.signExtend position ≠ some (true, result) := by
  rw [signExtend_eq]
  split <;> simp

theorem extractsFields_iff (scalar : IntegerScalar) (valid : scalar.type ≠ .void) :
    (∀ bitSize bitOffset, 0 < bitSize → bitOffset + bitSize ≤ scalar.integer.width →
      (scalar.ExtractsField bitSize bitOffset ↔ 8 ∣ scalar.integer.width ∨ bitSize = scalar.integer.width)) ∧
    (∀ position < scalar.integer.width, ¬ scalar.SignExtendsFrom position) ∧
    ∀ bitSize bitOffset, 0 < bitSize → bitOffset + bitSize ≤ scalar.integer.width →
      ¬ scalar.ExtractsSigned bitSize bitOffset := by
  refine ⟨fun bitSize bitOffset positive inside => extractsField_iff valid positive inside,
    fun position _ => scalar.signExtend_ne_true _ position, ?_⟩
  rintro bitSize bitOffset - - ⟨extracted, -, signs⟩
  exact extracted.signExtend_ne_true _ _ signs

theorem extractsFields_iff_int : (⟨.sint, .ofValue 32 200⟩ : IntegerScalar).ExtractsField 8 0 ∧
    ¬ (⟨.sint, .ofValue 32 200⟩ : IntegerScalar).SignExtendsFrom 7 :=
  have exact_iff := extractsFields_iff ⟨.sint, .ofValue 32 200⟩ (by decide)
  ⟨(exact_iff.1 8 0 (by decide) (by decide)).mpr (.inl (by decide)), exact_iff.2.1 7 (by decide)⟩

theorem not_extractsFields : ¬ ∀ scalar : IntegerScalar, scalar.type ≠ .void →
    (∀ bitSize bitOffset, 0 < bitSize → bitOffset + bitSize ≤ scalar.integer.width →
      scalar.ExtractsField bitSize bitOffset) ∧
    (∀ position < scalar.integer.width, scalar.SignExtendsFrom position) ∧
    ∀ bitSize bitOffset, 0 < bitSize → bitOffset + bitSize ≤ scalar.integer.width →
      scalar.ExtractsSigned bitSize bitOffset :=
  fun always => absurd ((always ⟨.sint, .ofValue 32 1⟩ (by decide)).2.1 31 (by decide)) (by
    unfold SignExtendsFrom
    decide)

end IntegerScalar

end Lldb
