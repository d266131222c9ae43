import Lldb.Utility.Scalar

/-! The words of 64 bits that scalars stand for, and which operations on scalars are operations on
words: where the result fits the type that the operands have in common.
-/

set_option autoImplicit false

namespace Lldb

open BitVec

namespace ScalarType

def Holds (word : BitVec 64) : ScalarType → Prop
  | void => False
  | sint => -2 ^ 31 ≤ word.toInt ∧ word.toInt < 2 ^ 31
  | uint => word.toNat < 2 ^ 32
  | slong | ulong => True

instance (word : BitVec 64) (type : ScalarType) : Decidable (type.Holds word) := by
  cases type <;> unfold Holds <;> infer_instance

end ScalarType

namespace Scalar

def word (scalar : Scalar) : BitVec 64 :=
  if scalar.type.isSigned then scalar.integer.signExtend 64 else scalar.integer.setWidth 64

structure Denotes (scalar : Scalar) (word : BitVec 64) : Prop where
  valid : scalar.type ≠ .void
  same : scalar.word = word

variable {type : ScalarType}

theorem denotes_iff (valid : type ≠ .void) (integer : BitVec type.width) (word : BitVec 64) :
    (⟨type, integer⟩ : Scalar).Denotes word ↔ (⟨type, integer⟩ : Scalar).word = word :=
  ⟨Denotes.same, fun same => ⟨valid, same⟩⟩

@[simp] theorem word_ofLong (value : BitVec 64) : (ofLong value).word = value := BitVec.signExtend_eq value

@[simp] theorem word_ofULong (value : BitVec 64) : (ofULong value).word = value := setWidth_eq value

theorem toNat_word_ofUInt (value : BitVec 32) : (ofUInt value).word.toNat = value.toNat :=
  toNat_setWidth_of_le (show 32 ≤ 64 by decide)

theorem msb_eq_false_iff (value : BitVec 32) : value.msb = false ↔ (ofUInt value).word.toNat < 2 ^ 31 := by
  rw [msb_eq_false_iff_two_mul_lt, toNat_word_ofUInt]
  omega

theorem setWidth_signExtend {small large : Nat} (bits : BitVec small) (le : small ≤ large) :
    (bits.signExtend large).setWidth small = bits := by
  rw [← signExtend_eq_setWidth_of_le _ le]
  apply eq_of_getLsbD_eq
  intro index inside
  simp only [getLsbD_signExtend, inside]
  simp [show index < large by omega]

theorem setWidth_word (scalar : Scalar) : scalar.word.setWidth scalar.type.width = scalar.integer := by
  have le : scalar.type.width ≤ 64 := by cases scalar.type <;> decide
  unfold word
  split
  · exact setWidth_signExtend scalar.integer le
  · rw [setWidth_setWidth_of_le _ le, setWidth_eq]

theorem extend_eq {scalar : Scalar} (valid : scalar.type ≠ .void) (le : scalar.type.rank ≤ type.rank) :
    scalar.extend type = scalar.word.setWidth type.width := by
  have own := scalar.setWidth_word
  obtain ⟨kind, integer⟩ := scalar
  cases type with
  | slong => exact (setWidth_eq _).symm
  | ulong => exact (setWidth_eq _).symm
  | void => cases kind <;> simp_all [ScalarType.rank]
  | sint =>
    cases kind with
    | sint => exact (BitVec.signExtend_eq integer).trans own.symm
    | _ => simp_all [ScalarType.rank]
  | uint =>
    cases kind with
    | sint => exact (BitVec.signExtend_eq integer).trans own.symm
    | uint => exact (setWidth_eq integer).trans own.symm
    | _ => simp_all [ScalarType.rank]

theorem isSome_promote {scalar : Scalar} (valid : scalar.type ≠ .void)
    (le : scalar.type.rank ≤ type.rank) : (scalar.promote type).isSome := by
  rw [promote, if_pos ⟨valid, le⟩]
  rfl

theorem promoteToMaxType_spec {lhs rhs : Scalar} (left : lhs.type ≠ .void) (right : rhs.type ≠ .void) :
    promoteToMaxType lhs rhs ≠ .void ∧ lhs.type.rank ≤ (promoteToMaxType lhs rhs).rank ∧
      rhs.type.rank ≤ (promoteToMaxType lhs rhs).rank := by
  unfold promoteToMaxType
  by_cases above : lhs.type.rank > rhs.type.rank
  · rw [if_pos above, if_pos (isSome_promote right above.le)]
    exact ⟨left, le_rfl, above.le⟩
  · rw [if_neg above]
    by_cases below : lhs.type.rank < rhs.type.rank
    · rw [if_pos below, if_pos (isSome_promote left below.le)]
      exact ⟨right, below.le, le_rfl⟩
    · rw [if_neg below]
      exact ⟨left, le_rfl, by omega⟩

theorem word_of_signed (integer : BitVec type.width) (signed : type.isSigned) :
    (⟨type, integer⟩ : Scalar).word = integer.signExtend 64 := if_pos signed

theorem word_of_unsigned (integer : BitVec type.width) (unsigned : ¬ type.isSigned) :
    (⟨type, integer⟩ : Scalar).word = integer.setWidth 64 := if_neg unsigned

/-- Cutting a word to 32 bits and extending its sign loses nothing when it is a small integer. -/
theorem signExtend_setWidth_iff (word : BitVec 64) :
    (word.setWidth 32).signExtend 64 = word ↔ -2 ^ 31 ≤ word.toInt ∧ word.toInt < 2 ^ 31 := by
  have bits := toInt_eq_toNat_bmod word
  rw [← toInt_inj, toInt_signExtend_of_le (by decide), BitVec.toInt_setWidth]
  unfold Int.bmod at bits ⊢
  simp only [Nat.cast_pow] at bits ⊢
  split at bits <;> split <;> omega

theorem setWidth_setWidth_iff (word : BitVec 64) : (word.setWidth 32).setWidth 64 = word ↔ word.toNat < 2 ^ 32 := by
  rw [← toNat_inj, BitVec.toNat_setWidth, BitVec.toNat_setWidth]
  omega

theorem denotes_setWidth_iff (valid : type ≠ .void) (word : BitVec 64) :
    (⟨type, word.setWidth type.width⟩ : Scalar).Denotes word ↔ type.Holds word := by
  rw [denotes_iff valid]
  cases type with
  | void => exact absurd rfl valid
  | sint => exact signExtend_setWidth_iff word
  | uint => exact setWidth_setWidth_iff word
  | slong => exact iff_of_true ((BitVec.signExtend_eq _).trans (setWidth_eq _)) trivial
  | ulong => exact iff_of_true ((setWidth_eq _).trans (setWidth_eq _)) trivial

theorem holds_word {scalar : Scalar} (valid : scalar.type ≠ .void) : scalar.type.Holds scalar.word := by
  rw [← denotes_setWidth_iff valid, setWidth_word]
  exact ⟨valid, rfl⟩

section

variable {lhs rhs : Scalar}

theorem arithmetic_denotes_iff (left : lhs.type ≠ .void) (right : rhs.type ≠ .void)
    (operation : (width : Nat) → BitVec width → BitVec width → BitVec width)
    (low : ∀ width ≤ 64, ∀ a b, (operation 64 a b).setWidth width = operation width (a.setWidth width) (b.setWidth width)) :
    (arithmetic operation lhs rhs).Denotes (operation 64 lhs.word rhs.word) ↔
      (promoteToMaxType lhs rhs).Holds (operation 64 lhs.word rhs.word) := by
  obtain ⟨valid, leftRank, rightRank⟩ := promoteToMaxType_spec left right
  have narrow : (promoteToMaxType lhs rhs).width ≤ 64 := by cases promoteToMaxType lhs rhs <;> decide
  unfold arithmetic
  rw [if_neg valid, extend_eq left leftRank, extend_eq right rightRank, ← low _ narrow]
  exact denotes_setWidth_iff valid _

variable (bits : BitVec 32)

theorem toNat_signExtend :
    (bits.signExtend 64).toNat = if bits.msb then 2 ^ 64 - 2 ^ 32 + bits.toNat else bits.toNat := by
  rw [BitVec.toNat_signExtend]
  split
  · exact add_comm _ _
  · rfl

theorem count_signExtend : bits.toNat = (bits.signExtend 64).toNat ∨
    64 ≤ bits.toNat ∧ 64 ≤ (bits.signExtend 64).toNat := by
  rw [toNat_signExtend]
  cases sign : bits.msb with
  | false => exact .inl rfl
  | true =>
    have large : 2 * bits.toNat ≥ 2 ^ 32 := msb_eq_true_iff_two_mul_ge.mp sign
    rw [if_pos rfl]
    omega

theorem count_eq (scalar : Scalar) : scalar.integer.toNat = scalar.word.toNat ∨
    64 ≤ scalar.integer.toNat ∧ 64 ≤ scalar.word.toNat := by
  obtain ⟨kind, integer⟩ := scalar
  cases kind with
  | void => exact .inl (toNat_setWidth_of_le (show 1 ≤ 64 by decide)).symm
  | uint => exact .inl (toNat_setWidth_of_le (show 32 ≤ 64 by decide)).symm
  | slong => exact .inl (congrArg BitVec.toNat (BitVec.signExtend_eq integer)).symm
  | ulong => exact .inl (congrArg BitVec.toNat (BitVec.setWidth_eq integer)).symm
  | sint => exact count_signExtend integer

theorem shift_eq (left : lhs.type ≠ .void) (right : rhs.type ≠ .void)
    (operation : (width : Nat) → BitVec width → Nat → BitVec width)
    (saturates : ∀ width ≤ 64, ∀ a, ∀ count ≥ 64, ∀ other ≥ 64, operation width a count = operation width a other) :
    shift operation lhs rhs = ⟨lhs.type, operation lhs.type.width lhs.integer rhs.word.toNat⟩ := by
  have narrow : lhs.type.width ≤ 64 := by cases lhs.type <;> decide
  unfold shift
  rw [if_neg (by simp [left, right])]
  rcases rhs.count_eq with same | ⟨far, away⟩
  · rw [same]
  · rw [saturates _ narrow _ _ far _ away]

theorem shiftLeft_denotes_iff (left : lhs.type ≠ .void) (right : rhs.type ≠ .void) :
    (shiftLeft lhs rhs).Denotes (lhs.word <<< rhs.word.toNat) ↔ lhs.type.Holds (lhs.word <<< rhs.word.toNat) := by
  have narrow : lhs.type.width ≤ 64 := by cases lhs.type <;> decide
  have shifted : shiftLeft lhs rhs = ⟨lhs.type, (lhs.word <<< rhs.word.toNat).setWidth lhs.type.width⟩ := by
    rw [setWidth_shiftLeft_of_le narrow, setWidth_word]
    apply shift_eq left right
    intro width le a count far other away
    rw [shiftLeft_eq_zero (by omega), shiftLeft_eq_zero (by omega)]
  rw [shifted]
  exact denotes_setWidth_iff left _

theorem toNat_shiftRight_le (value : Nat) {count : Nat} (shifts : 0 < count) : value >>> count ≤ value / 2 := by
  have doubled : 2 ^ 1 ≤ 2 ^ count := Nat.pow_le_pow_right (by decide) shifts
  rw [Nat.shiftRight_eq_div_pow]
  exact Nat.div_le_div_left doubled (by decide)

theorem setWidth_ushiftRight (count : Nat) : (bits >>> count).setWidth 64 = bits.setWidth 64 >>> count := by
  apply eq_of_toNat_eq
  have less := Nat.shiftRight_le bits.toNat count
  simp only [BitVec.toNat_setWidth, toNat_ushiftRight]
  rw [Nat.mod_eq_of_lt (by omega), Nat.mod_eq_of_lt (show bits.toNat < 2 ^ 64 by omega)]

theorem signExtend_ushiftRight_iff (count : Nat) :
    (bits >>> count).signExtend 64 = bits.signExtend 64 >>> count ↔ bits.msb = false ∨ count = 0 ∨ 64 ≤ count := by
  rcases Nat.eq_zero_or_pos count with rfl | shifts
  · simp
  have halved := toNat_shiftRight_le bits.toNat shifts
  have small : (bits >>> count).msb = false := by
    rw [msb_eq_false_iff_two_mul_lt, toNat_ushiftRight]
    omega
  rw [← toNat_inj, toNat_signExtend, small]
  cases sign : bits.msb with
  | false =>
    refine iff_of_true ?_ (.inl rfl)
    simp [toNat_signExtend, sign]
  | true =>
    by_cases far : 64 ≤ count
    · refine iff_of_true ?_ (.inr (.inr far))
      rw [ushiftRight_eq_zero (show 32 ≤ count by omega), ushiftRight_eq_zero far]
      rfl
    · refine iff_of_false ?_ (by simp; omega)
      have large : 2 ^ count ≤ 2 ^ 63 := Nat.pow_le_pow_right (by decide) (by omega)
      have more := Nat.add_div_right bits.toNat (Nat.two_pow_pos count)
      have carried : (bits.toNat + 2 ^ count) / 2 ^ count ≤ (2 ^ 64 - 2 ^ 32 + bits.toNat) / 2 ^ count :=
        Nat.div_le_div_right (by omega)
      rw [toNat_ushiftRight, toNat_ushiftRight, toNat_signExtend, sign, if_pos rfl, if_neg (by decide)]
      omega

theorem setWidth_sshiftRight_iff (count : Nat) :
    (bits.sshiftRight count).setWidth 64 = (bits.setWidth 64).sshiftRight count ↔ bits.msb = false ∨ count = 0 := by
  have widened : (bits.setWidth 64).msb = false := by
    rw [msb_eq_false_iff_two_mul_lt, toNat_setWidth_of_le (by decide)]
    omega
  rw [sshiftRight_eq_of_msb_false widened]
  cases sign : bits.msb with
  | false =>
    rw [sshiftRight_eq_of_msb_false sign]
    exact iff_of_true (setWidth_ushiftRight bits count) (.inl rfl)
  | true =>
    rcases Nat.eq_zero_or_pos count with rfl | shifts
    · simp
    refine iff_of_false ?_ (by simp; omega)
    have halved := toNat_shiftRight_le bits.toNat shifts
    have filled := toNat_shiftRight_le (2 ^ 32 - 1 - bits.toNat) shifts
    rw [← toNat_inj, toNat_setWidth_of_le (by decide), toNat_sshiftRight_of_msb_true sign,
      toNat_ushiftRight, toNat_setWidth_of_le (by decide)]
    omega

theorem signExtend_sshiftRight (count : Nat) :
    (bits.sshiftRight count).signExtend 64 = (bits.signExtend 64).sshiftRight count := by
  apply eq_of_toInt_eq
  rw [toInt_signExtend_of_le (by decide), toInt_sshiftRight, toInt_sshiftRight,
    toInt_signExtend_of_le (by decide)]

theorem msb_word_ofInt (value : BitVec 32) : (ofInt value).word.msb = value.msb := by
  change (value.signExtend 64).msb = value.msb
  rw [msb_eq_toInt, msb_eq_toInt, toInt_signExtend_of_le (by decide)]

theorem shiftRightLogical_denotes_iff (left : lhs.type ≠ .void) (right : rhs.type ≠ .void) :
    (shiftRightLogical lhs rhs).Denotes (lhs.word >>> rhs.word.toNat) ↔
      (lhs.type = .sint → lhs.word.msb = false ∨ rhs.word.toNat = 0 ∨ 64 ≤ rhs.word.toNat) := by
  have shifted : shiftRightLogical lhs rhs = ⟨lhs.type, lhs.integer >>> rhs.word.toNat⟩ := by
    apply shift_eq left right
    intro width le a count far other away
    rw [ushiftRight_eq_zero (by omega), ushiftRight_eq_zero (by omega)]
  rw [shifted, denotes_iff left]
  obtain ⟨kind, integer⟩ := lhs
  cases kind with
  | void => exact absurd rfl left
  | sint =>
    have sign := msb_word_ofInt integer
    refine (signExtend_ushiftRight_iff integer rhs.word.toNat).trans ?_
    exact ⟨fun exact_ _ => exact_.imp_left sign.trans, fun exact_ => (exact_ rfl).imp_left sign.symm.trans⟩
  | uint => exact iff_of_true (setWidth_ushiftRight integer _) nofun
  | slong =>
    refine iff_of_true ?_ nofun
    exact (word_ofLong _).trans (congrArg (fun bits : BitVec 64 => bits >>> rhs.word.toNat) (word_ofLong integer).symm)
  | ulong =>
    refine iff_of_true ?_ nofun
    exact (word_ofULong _).trans (congrArg (fun bits : BitVec 64 => bits >>> rhs.word.toNat) (word_ofULong integer).symm)

theorem shiftRight_denotes_iff (left : lhs.type ≠ .void) (right : rhs.type ≠ .void) :
    (shiftRight lhs rhs).Denotes (lhs.word.sshiftRight rhs.word.toNat) ↔
      (lhs.type = .uint → lhs.word.toNat < 2 ^ 31 ∨ rhs.word.toNat = 0) := by
  have shifted : shiftRight lhs rhs = ⟨lhs.type, lhs.integer.sshiftRight rhs.word.toNat⟩ := by
    apply shift_eq left right
    intro width le a count far other away
    apply eq_of_getLsbD_eq
    intro index inside
    rw [getLsbD_sshiftRight, getLsbD_sshiftRight]
    simp [show ¬ count + index < width by omega, show ¬ other + index < width by omega]
  rw [shifted, denotes_iff left]
  obtain ⟨kind, integer⟩ := lhs
  cases kind with
  | void => exact absurd rfl left
  | sint => exact iff_of_true (signExtend_sshiftRight integer _) nofun
  | uint =>
    refine (setWidth_sshiftRight_iff integer rhs.word.toNat).trans ?_
    have sign := msb_eq_false_iff integer
    exact ⟨fun exact_ _ => exact_.imp_left sign.mp, fun exact_ => (exact_ rfl).imp_left sign.mpr⟩
  | slong =>
    refine iff_of_true ?_ nofun
    exact (word_ofLong _).trans (congrArg (fun bits : BitVec 64 => bits.sshiftRight rhs.word.toNat) (word_ofLong integer).symm)
  | ulong =>
    refine iff_of_true ?_ nofun
    exact (word_ofULong _).trans (congrArg (fun bits : BitVec 64 => bits.sshiftRight rhs.word.toNat) (word_ofULong integer).symm)

end

end Scalar

end Lldb
