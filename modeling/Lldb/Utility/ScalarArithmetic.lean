import Lldb.Utility.ScalarWords

/-! Division, remainder, comparison and the unary operations on scalars, against those on words.
What depends on the sign of a word is right where the common type is signed, or no word is negative.
-/

set_option autoImplicit false

namespace Lldb.Scalar

open ScalarType

variable {type : ScalarType} {word : BitVec 64}

theorem toInt_setWidth (signed : type.isSigned) (holds : type.Holds word) :
    (word.setWidth type.width).toInt = word.toInt := by
  cases type with
  | void => exact holds.elim
  | sint =>
    have extended := (signExtend_setWidth_iff word).mpr holds
    have kept : ((word.setWidth 32).signExtend 64).toInt = (word.setWidth 32).toInt :=
      BitVec.toInt_signExtend_of_le (by decide)
    rw [extended] at kept
    exact kept.symm
  | slong => exact congrArg BitVec.toInt (BitVec.setWidth_eq word)
  | uint => cases signed
  | ulong => cases signed

theorem toInt_setWidth_of_le {width : Nat} (word : BitVec 64) (narrow : width ≤ 64) :
    (word.setWidth width).toInt = word.toInt.bmod (2 ^ width) := by
  rw [BitVec.toInt_setWidth, BitVec.toInt_eq_toNat_bmod, Int.bmod_bmod_of_dvd (pow_dvd_pow 2 narrow)]

theorem toInt_of_nonnegative (nonnegative : word.msb = false) : word.toInt = word.toNat ∧ word.toNat < 2 ^ 63 := by
  have half := BitVec.msb_eq_false_iff_two_mul_lt.mp nonnegative
  exact ⟨BitVec.toInt_eq_toNat_of_msb nonnegative, by omega⟩

theorem toNat_setWidth (nonnegative : word.msb = false) (holds : type.Holds word) :
    (word.setWidth type.width).toNat = word.toNat := by
  obtain ⟨integer, half⟩ := toInt_of_nonnegative nonnegative
  cases type with
  | void => exact holds.elim
  | sint =>
    have small : word.toInt < 2 ^ 31 := holds.2
    exact (BitVec.toNat_setWidth 32 word).trans (Nat.mod_eq_of_lt (by omega))
  | uint => exact (BitVec.toNat_setWidth 32 word).trans (Nat.mod_eq_of_lt holds)
  | slong => exact congrArg BitVec.toNat (BitVec.setWidth_eq word)
  | ulong => exact congrArg BitVec.toNat (BitVec.setWidth_eq word)

theorem holds_common {scalar : Scalar} (valid : scalar.type ≠ .void) (le : scalar.type.rank ≤ type.rank)
    (fits : type.isSigned ∨ scalar.word.msb = false) : type.Holds scalar.word := by
  have own := holds_word valid
  generalize scalar.word = word at own fits
  cases type with
  | slong => trivial
  | ulong => trivial
  | void => cases scalar with | mk kind _ => cases kind <;> simp_all [rank]
  | sint => cases scalar with | mk kind _ => cases kind <;> simp_all [rank]
  | uint =>
    obtain ⟨integer, -⟩ := toInt_of_nonnegative (fits.resolve_left (by decide))
    cases scalar with | mk kind _ =>
    cases kind with
    | sint =>
      have small : word.toInt < 2 ^ 31 := own.2
      change word.toNat < 2 ^ 32
      omega
    | uint => exact own
    | _ => simp_all [rank]

theorem promoteToMaxType_eq {lhs rhs : Scalar} (left : lhs.type ≠ .void) (right : rhs.type ≠ .void) :
    promoteToMaxType lhs rhs = lhs.type ∨ promoteToMaxType lhs rhs = rhs.type := by
  unfold promoteToMaxType
  by_cases above : lhs.type.rank > rhs.type.rank
  · rw [if_pos above, if_pos (isSome_promote right above.le)]
    exact .inl rfl
  · rw [if_neg above]
    by_cases below : lhs.type.rank < rhs.type.rank
    · rw [if_pos below, if_pos (isSome_promote left below.le)]
      exact .inr rfl
    · rw [if_neg below]
      exact .inl rfl

theorem nonnegative_of_uint {scalar : Scalar} (unsigned : scalar.type = .uint) : scalar.word.msb = false := by
  have small : scalar.type.Holds scalar.word := holds_word (by rw [unsigned]; decide)
  rw [unsigned] at small
  have small : scalar.word.toNat < 2 ^ 32 := small
  rw [BitVec.msb_eq_false_iff_two_mul_lt]
  omega

section

variable {lhs rhs : Scalar}

variable (left : lhs.type ≠ .void)
include left

/-- An order that does not change when both sides are moved, on the signed and the unsigned integers. -/
theorem compare_eq (right : rhs.type ≠ .void) (order : Int → Int → Bool)
    (moved : ∀ a b c, order (a + c) (b + c) = order a b)
    {signed unsigned : (width : Nat) → BitVec width → BitVec width → Bool}
    (onSigned : ∀ width a b, signed width a b = order a.toInt b.toInt)
    (onUnsigned : ∀ width a b, unsigned width a b = order a.toNat b.toNat)
    (alike : (promoteToMaxType lhs rhs).isSigned ∨ lhs.word.msb = rhs.word.msb) :
    compare signed unsigned lhs rhs = order lhs.word.toInt rhs.word.toInt := by
  obtain ⟨valid, leftRank, rightRank⟩ := promoteToMaxType_spec left right
  have one := promoteToMaxType_eq left right
  unfold compare
  rw [if_neg valid, extend_eq left leftRank, extend_eq right rightRank]
  generalize promoteToMaxType lhs rhs = common at alike valid leftRank rightRank one ⊢
  by_cases sign : common.isSigned
  · rw [if_pos sign, onSigned, toInt_setWidth sign (holds_common left leftRank (.inl sign)),
      toInt_setWidth sign (holds_common right rightRank (.inl sign))]
  · rw [if_neg sign, onUnsigned]
    have alike := alike.resolve_left sign
    cases negative : lhs.word.msb with
    | false =>
      have also := alike.symm.trans negative
      simp [toNat_setWidth negative (holds_common left leftRank (.inr negative)), toNat_setWidth also (holds_common right rightRank (.inr also)), (toInt_of_nonnegative negative).1, (toInt_of_nonnegative also).1]
    | true =>
      have also := alike.symm.trans negative
      cases common with
      | void => exact absurd rfl valid
      | sint => exact absurd rfl sign
      | slong => exact absurd rfl sign
      | uint =>
        rcases one with one | one
        · rw [nonnegative_of_uint one.symm] at negative
          cases negative
        · rw [nonnegative_of_uint one.symm] at also
          cases also
      | ulong =>
        have above (word : BitVec 64) (below : word.msb = true) : (word.toNat : Int) = word.toInt + 2 ^ 64 := by
          have bound := BitVec.msb_eq_true_iff_two_mul_ge.mp below
          rw [BitVec.toInt_eq_toNat_cond]
          omega
        change order (lhs.word.setWidth 64).toNat (rhs.word.setWidth 64).toNat = _
        simp [above _ negative, above _ also, moved]

theorem lt_eq (right : rhs.type ≠ .void) (alike : (promoteToMaxType lhs rhs).isSigned ∨ lhs.word.msb = rhs.word.msb) :
    lhs.lt rhs = lhs.word.slt rhs.word :=
  compare_eq left right (fun a b => decide (a < b)) (by simp) (fun _ _ _ => rfl) (fun _ a b => by simp [BitVec.ult]) alike

theorem le_eq (right : rhs.type ≠ .void) (alike : (promoteToMaxType lhs rhs).isSigned ∨ lhs.word.msb = rhs.word.msb) :
    lhs.le rhs = lhs.word.sle rhs.word :=
  compare_eq left right (fun a b => decide (a ≤ b)) (by simp) (fun _ _ _ => rfl) (fun _ a b => by simp [BitVec.ule]) alike

theorem gt_eq (right : rhs.type ≠ .void) (alike : (promoteToMaxType lhs rhs).isSigned ∨ lhs.word.msb = rhs.word.msb) :
    lhs.gt rhs = rhs.word.slt lhs.word :=
  compare_eq left right (fun a b => decide (b < a)) (by simp) (fun _ _ _ => rfl) (fun _ a b => by simp [BitVec.ult]) alike

theorem ge_eq (right : rhs.type ≠ .void) (alike : (promoteToMaxType lhs rhs).isSigned ∨ lhs.word.msb = rhs.word.msb) :
    lhs.ge rhs = rhs.word.sle lhs.word :=
  compare_eq left right (fun a b => decide (b ≤ a)) (by simp) (fun _ _ _ => rfl) (fun _ a b => by simp [BitVec.ule]) alike

theorem eq_eq (right : rhs.type ≠ .void) (apart : promoteToMaxType lhs rhs = .uint →
      lhs.word.setWidth 32 = rhs.word.setWidth 32 → lhs.word = rhs.word) :
    lhs.eq rhs = (lhs.word == rhs.word) := by
  obtain ⟨valid, leftRank, rightRank⟩ := promoteToMaxType_spec left right
  unfold eq compare
  rw [if_neg (by simp [left, right]), if_neg valid, extend_eq left leftRank, extend_eq right rightRank, ite_self]
  have cut : lhs.word.setWidth (promoteToMaxType lhs rhs).width = rhs.word.setWidth (promoteToMaxType lhs rhs).width ↔
      lhs.word = rhs.word := by
    refine ⟨fun same => ?_, fun same => by rw [same]⟩
    generalize promoteToMaxType lhs rhs = common at apart valid leftRank rightRank same
    cases common with
    | void => exact absurd rfl valid
    | uint => exact apart rfl same
    | slong => rwa [show slong.width = 64 from rfl] at same
    | ulong => rwa [show ulong.width = 64 from rfl] at same
    | sint =>
      have inside := (signExtend_setWidth_iff lhs.word).mpr (holds_common left leftRank (.inl rfl))
      have also := (signExtend_setWidth_iff rhs.word).mpr (holds_common right rightRank (.inl rfl))
      have same : lhs.word.setWidth 32 = rhs.word.setWidth 32 := same
      rw [← inside, ← also, same]
  rw [Bool.eq_iff_iff, beq_iff_eq, beq_iff_eq]
  exact cut

omit left

theorem isZero_iff (valid : lhs.type ≠ .void) : lhs.isZero ↔ lhs.word = 0 := by
  have own := lhs.setWidth_word
  unfold isZero word
  rw [decide_eq_true_iff]
  refine ⟨fun zero => ?_, fun zero => ⟨valid, ?_⟩⟩
  · rw [zero.2, BitVec.signExtend_eq_setWidth_of_msb_false (by simp)]
    simp
  · rw [← own]
    unfold word
    rw [zero]
    simp

theorem extend_eq_zero_iff {type : ScalarType} (right : rhs.type ≠ .void) (le : rhs.type.rank ≤ type.rank) :
    rhs.extend type = 0 ↔ rhs.word = 0 := by
  rw [extend_eq right le]
  refine ⟨fun zero => ?_, fun zero => by rw [zero]; simp⟩
  cases type with
  | slong => rwa [show slong.width = 64 from rfl] at zero
  | ulong => rwa [show ulong.width = 64 from rfl] at zero
  | void => cases rhs with | mk kind _ => cases kind <;> simp_all [rank]
  | sint =>
    have inside := (signExtend_setWidth_iff rhs.word).mpr (holds_common right le (.inl rfl))
    rw [← inside, show rhs.word.setWidth 32 = 0 from zero]
    rfl
  | uint =>
    have own := holds_word right
    change rhs.word.setWidth 32 = 0 at zero
    generalize rhs.word = word at own zero ⊢
    cases rhs with | mk kind _ =>
    cases kind with
    | sint =>
      have inside := (signExtend_setWidth_iff word).mpr own
      rw [zero] at inside
      exact inside.symm
    | uint =>
      have inside := (setWidth_setWidth_iff word).mpr own
      rw [zero] at inside
      exact inside.symm
    | _ => simp_all [rank]

/-- Where the common type is signed the quotient has to fit it; where it is not, no word may be negative. -/
theorem div_denotes (left : lhs.type ≠ .void) (right : rhs.type ≠ .void) (nonzero : rhs.word ≠ 0)
    (fits : if (promoteToMaxType lhs rhs).isSigned then (promoteToMaxType lhs rhs).Holds (lhs.word.sdiv rhs.word)
      else lhs.word.msb = false ∧ rhs.word.msb = false) :
    (div lhs rhs).Denotes (lhs.word.sdiv rhs.word) := by
  obtain ⟨valid, leftRank, rightRank⟩ := promoteToMaxType_spec left right
  have divisor := (extend_eq_zero_iff right rightRank).not.mpr nonzero
  unfold div divide
  simp only
  rw [if_neg (not_or.mpr ⟨valid, divisor⟩), extend_eq left leftRank, extend_eq right rightRank]
  generalize promoteToMaxType lhs rhs = common at fits valid leftRank rightRank ⊢
  have narrow : common.width ≤ 64 := by cases common <;> decide
  by_cases sign : common.isSigned
  · rw [if_pos sign] at fits ⊢
    have cut : (lhs.word.setWidth common.width).sdiv (rhs.word.setWidth common.width) =
        (lhs.word.sdiv rhs.word).setWidth common.width := by
      apply BitVec.eq_of_toInt_eq
      rw [BitVec.toInt_sdiv, toInt_setWidth sign (holds_common left leftRank (.inl sign)),
        toInt_setWidth sign (holds_common right rightRank (.inl sign)), toInt_setWidth_of_le _ narrow, BitVec.toInt_sdiv,
        Int.bmod_bmod_of_dvd (pow_dvd_pow 2 narrow)]
    rw [cut]
    exact (denotes_setWidth_iff valid _).mpr fits
  · rw [if_neg sign] at fits ⊢
    have quotient : lhs.word.sdiv rhs.word = lhs.word.udiv rhs.word := by rw [BitVec.sdiv_eq, fits.1, fits.2]
    rw [denotes_iff valid, word_of_unsigned _ sign, quotient]
    apply BitVec.eq_of_toNat_eq
    simp [BitVec.toNat_setWidth_of_le narrow, toNat_setWidth fits.1 (holds_common left leftRank (.inr fits.1)), toNat_setWidth fits.2 (holds_common right rightRank (.inr fits.2))]

theorem msb_setWidth {type : ScalarType} (signed : type.isSigned) (nonnegative : word.msb = false) (holds : type.Holds word) :
    (word.setWidth type.width).msb = false := by
  rw [BitVec.msb_eq_toInt, toInt_setWidth signed holds, ← BitVec.msb_eq_toInt]
  exact nonnegative

theorem rem_denotes (left : lhs.type ≠ .void) (right : rhs.type ≠ .void) (nonzero : rhs.word ≠ 0)
    (fits : promoteToMaxType lhs rhs = .ulong ∨ lhs.word.msb = false ∧ rhs.word.msb = false) :
    (rem lhs rhs).Denotes (lhs.word.umod rhs.word) := by
  obtain ⟨valid, leftRank, rightRank⟩ := promoteToMaxType_spec left right
  have divisor := (extend_eq_zero_iff right rightRank).not.mpr nonzero
  unfold rem divide
  simp only
  rw [if_neg (not_or.mpr ⟨valid, divisor⟩), extend_eq left leftRank, extend_eq right rightRank]
  generalize promoteToMaxType lhs rhs = common at fits valid leftRank rightRank ⊢
  have narrow : common.width ≤ 64 := by cases common <;> decide
  rcases fits with rfl | ⟨first, second⟩
  · refine (denotes_iff valid _ _).mpr ((word_ofULong _).trans ?_)
    rfl
  have dividend := holds_common left leftRank (.inr first)
  have modulus := holds_common right rightRank (.inr second)
  have remainder : ((lhs.word.setWidth common.width).umod (rhs.word.setWidth common.width)).setWidth 64 =
      lhs.word.umod rhs.word := by
    apply BitVec.eq_of_toNat_eq
    simp [BitVec.toNat_setWidth_of_le narrow, toNat_setWidth first dividend, toNat_setWidth second modulus]
  by_cases sign : common.isSigned
  · have small := msb_setWidth sign first dividend
    have unsigned : (lhs.word.setWidth common.width).srem (rhs.word.setWidth common.width) =
        (lhs.word.setWidth common.width).umod (rhs.word.setWidth common.width) := by
      rw [BitVec.srem_eq, small, msb_setWidth sign second modulus]
      rfl
    have below : ((lhs.word.setWidth common.width).umod (rhs.word.setWidth common.width)).msb = false := by
      have half := BitVec.msb_eq_false_iff_two_mul_lt.mp small
      have less := Nat.mod_le (lhs.word.setWidth common.width).toNat (rhs.word.setWidth common.width).toNat
      rw [BitVec.msb_eq_false_iff_two_mul_lt, BitVec.umod_eq, BitVec.toNat_umod]
      omega
    rw [if_pos sign, unsigned, denotes_iff valid, word_of_signed _ sign,
      BitVec.signExtend_eq_setWidth_of_msb_false below, remainder]
  · rw [if_neg sign, denotes_iff valid, word_of_unsigned _ sign, remainder]

theorem unaryNegate_eq (valid : lhs.type ≠ .void) (fits : lhs.type.Holds (-lhs.word)) :
    ∃ value, unaryNegate lhs = some value ∧ value.Denotes (-lhs.word) := by
  have narrow : lhs.type.width ≤ 64 := by cases lhs.type <;> decide
  refine ⟨_, if_neg valid, ?_⟩
  rw [← setWidth_word lhs, ← BitVec.setWidth_neg_of_le narrow]
  exact (denotes_setWidth_iff valid _).mpr fits

theorem onesComplement_eq (valid : lhs.type ≠ .void) (fits : lhs.type.Holds (~~~lhs.word)) :
    ∃ value, onesComplement lhs = some value ∧ value.Denotes (~~~lhs.word) := by
  have narrow : lhs.type.width ≤ 64 := by cases lhs.type <;> decide
  refine ⟨_, if_neg valid, ?_⟩
  rw [← setWidth_word lhs, ← BitVec.setWidth_not narrow]
  exact (denotes_setWidth_iff valid _).mpr fits

theorem absoluteValue_eq (valid : lhs.type ≠ .void) {magnitude : BitVec 64}
    (absolute : magnitude = if lhs.word.msb then -lhs.word else lhs.word)
    (fits : lhs.type.Holds magnitude ∧ (lhs.type.isSigned ∨ magnitude = lhs.word)) :
    ∃ value, absoluteValue lhs = some value ∧ value.Denotes magnitude := by
  have narrow : lhs.type.width ≤ 64 := by cases lhs.type <;> decide
  have own := setWidth_word lhs
  have sign (signed : lhs.type.isSigned) : lhs.integer.msb = lhs.word.msb := by
    rw [← own, BitVec.msb_eq_toInt, toInt_setWidth signed (holds_word valid), ← BitVec.msb_eq_toInt]
  unfold absoluteValue
  rw [if_neg valid]
  by_cases negative : lhs.type.isSigned ∧ lhs.integer.msb
  · rw [if_pos negative]
    refine ⟨_, rfl, ?_⟩
    rw [sign negative.1] at negative
    rw [if_pos negative.2] at absolute
    rw [← own, ← BitVec.setWidth_neg_of_le narrow, ← absolute]
    exact (denotes_setWidth_iff valid _).mpr fits.1
  · rw [if_neg negative]
    refine ⟨_, rfl, valid, ?_⟩
    rcases fits.2 with signed | same
    · rw [not_and, sign signed] at negative
      rw [absolute, if_neg (negative signed)]
    · exact same.symm

end

end Lldb.Scalar
