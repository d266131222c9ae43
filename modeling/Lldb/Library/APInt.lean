import Mathlib.Data.BitVec

/-! Integers that carry their width. Operations on two of them are defined for equal widths only, and
shifts up to the width.
-/

set_option autoImplicit false

namespace Library

structure APInt where
  width : Nat
  bits : BitVec width
  deriving DecidableEq, Repr

namespace APInt

def value (signed : Bool) (integer : APInt) : Int := if signed then integer.bits.toInt else integer.bits.toNat

def ofValue (width : Nat) (value : Int) : APInt := ⟨width, BitVec.ofInt width value⟩

def sextOrTrunc (width : Nat) (integer : APInt) : APInt := ⟨width, integer.bits.signExtend width⟩

def zextOrTrunc (width : Nat) (integer : APInt) : APInt := ⟨width, integer.bits.setWidth width⟩

def sextOrSelf (width : Nat) (integer : APInt) : APInt :=
  if integer.width < width then integer.sextOrTrunc width else integer

def zextOrSelf (width : Nat) (integer : APInt) : APInt :=
  if integer.width < width then integer.zextOrTrunc width else integer

def ashr (amount : Nat) (integer : APInt) : Option APInt :=
  if amount ≤ integer.width then some ⟨integer.width, integer.bits.sshiftRight amount⟩ else none

def lshr (amount : Nat) (integer : APInt) : Option APInt :=
  if amount ≤ integer.width then some ⟨integer.width, integer.bits >>> amount⟩ else none

def getSignMask (width : Nat) : APInt := ⟨width, BitVec.twoPow width (width - 1)⟩

def not (integer : APInt) : APInt := ⟨integer.width, ~~~integer.bits⟩

def both (operation : (width : Nat) → BitVec width → BitVec width → BitVec width) (left right : APInt) : Option APInt :=
  if same : right.width = left.width then some ⟨left.width, operation left.width left.bits (right.bits.cast same)⟩
  else none

def and : APInt → APInt → Option APInt := both fun _ a b => a &&& b

def or : APInt → APInt → Option APInt := both fun _ a b => a ||| b

def add : APInt → APInt → Option APInt := both fun _ a b => a + b

variable {integer : APInt} {width : Nat} {value : Int}

theorem both_of_ne {operation : (width : Nat) → BitVec width → BitVec width → BitVec width} {left right : APInt}
    (differ : right.width ≠ left.width) : both operation left right = none := dif_neg differ

@[simp] theorem width_ofValue : (ofValue width value).width = width := rfl

@[simp] theorem width_sextOrTrunc : (integer.sextOrTrunc width).width = width := rfl

@[simp] theorem width_zextOrTrunc : (integer.zextOrTrunc width).width = width := rfl

@[simp] theorem width_sextOrSelf : (integer.sextOrSelf width).width = max integer.width width := by
  unfold sextOrSelf
  rcases lt_or_ge integer.width width with narrow | wide
  · simp [if_pos narrow, max_eq_right narrow.le]
  · rw [if_neg (not_lt.mpr wide), max_eq_left wide]

@[simp] theorem width_zextOrSelf : (integer.zextOrSelf width).width = max integer.width width := by
  unfold zextOrSelf
  rcases lt_or_ge integer.width width with narrow | wide
  · simp [if_pos narrow, max_eq_right narrow.le]
  · rw [if_neg (not_lt.mpr wide), max_eq_left wide]

@[simp] theorem sextOrTrunc_self : integer.sextOrTrunc integer.width = integer :=
  congrArg (APInt.mk integer.width) (BitVec.signExtend_eq integer.bits)

@[simp] theorem zextOrTrunc_self : integer.zextOrTrunc integer.width = integer :=
  congrArg (APInt.mk integer.width) (BitVec.setWidth_eq integer.bits)

theorem sextOrSelf_of_le (le : integer.width ≤ width) : integer.sextOrSelf width = integer.sextOrTrunc width := by
  unfold sextOrSelf
  split
  · rfl
  · simp [show width = integer.width by omega]

theorem zextOrSelf_of_le (le : integer.width ≤ width) : integer.zextOrSelf width = integer.zextOrTrunc width := by
  unfold zextOrSelf
  split
  · rfl
  · simp [show width = integer.width by omega]

theorem sextOrTrunc_eq : integer.sextOrTrunc width = ofValue width (integer.value true) := rfl

theorem zextOrTrunc_eq : integer.zextOrTrunc width = ofValue width (integer.value false) := by
  apply congrArg (APInt.mk width)
  change integer.bits.setWidth width = BitVec.ofInt width (integer.bits.toNat : Int)
  simp

theorem value_true_ofValue : (ofValue width value).value true = Int.bmod value (2 ^ width) :=
  BitVec.toInt_ofInt ..

theorem value_false_ofValue : (ofValue width value).value false = value % 2 ^ width := by
  have small : 0 ≤ value % (2 ^ width : Int) := Int.emod_nonneg _ (pow_ne_zero _ (by decide))
  have bits : (BitVec.ofInt width value).toNat = (value % (2 ^ width : Nat)).toNat := BitVec.toNat_ofInt ..
  rw [Nat.cast_pow, Nat.cast_ofNat] at bits
  change ((BitVec.ofInt width value).toNat : Int) = _
  rw [bits, Int.toNat_of_nonneg small]

theorem value_emod (signed : Bool) {count : Nat} (le : count ≤ integer.width) :
    integer.value signed % 2 ^ count = (integer.bits.toNat : Int) % 2 ^ count := by
  have divides : (2 ^ count : Int) ∣ ((2 ^ integer.width : Nat) : Int) := by
    exact pow_dvd_pow 2 le
  cases signed with
  | false => rfl
  | true =>
    change integer.bits.toInt % 2 ^ count = _
    rw [BitVec.toInt_eq_toNat_bmod, ← Int.emod_emod_of_dvd _ divides, Int.bmod_emod, Int.emod_emod_of_dvd _ divides]

theorem value_eq_toNat (clear : integer.bits.msb = false) (signed : Bool) :
    integer.value signed = integer.bits.toNat := by
  cases signed with
  | false => rfl
  | true => exact BitVec.toInt_eq_toNat_of_msb clear

theorem sext_eq_zext_iff :
    integer.sextOrTrunc width = integer.zextOrTrunc width ↔ integer.bits.msb = false ∨ width ≤ integer.width := by
  constructor
  · intro same
    by_contra wrong
    rw [not_or, Bool.not_eq_false] at wrong
    obtain ⟨set, wider⟩ := wrong
    have bits : integer.bits.signExtend width = integer.bits.setWidth width := by injection same with _ bits
    have bit := congrArg (fun bits => bits.getLsbD integer.width) bits
    rw [BitVec.getLsbD_signExtend, set] at bit
    simp [wider] at bit
  · rintro (clear | le)
    · exact congrArg (APInt.mk width) (BitVec.signExtend_eq_setWidth_of_msb_false clear)
    · exact congrArg (APInt.mk width) (BitVec.signExtend_eq_setWidth_of_le _ le)

theorem ext_eq_ofValue (clear : integer.bits.msb = false ∨ width ≤ integer.width) (signed reading : Bool) :
    (if signed then integer.sextOrTrunc width else integer.zextOrTrunc width) =
      ofValue width (integer.value reading) := by
  have same := sext_eq_zext_iff.mpr clear
  cases signed <;> cases reading
  · exact zextOrTrunc_eq
  · exact same.symm
  · exact same.trans zextOrTrunc_eq
  · rfl

theorem msb_ofValue (positive : 0 ≤ value) (small : value < 2 ^ (width - 1)) :
    (ofValue width value).bits.msb = false := by
  have below : (2 : Int) ^ (width - 1) ≤ 2 ^ width := by
    exact_mod_cast Nat.pow_le_pow_right (by decide) (Nat.sub_le width 1)
  have read : ((ofValue width value).bits.toNat : Int) = value :=
    value_false_ofValue.trans (Int.emod_eq_of_lt positive (by omega))
  have cast : ((2 ^ (width - 1) : Nat) : Int) = 2 ^ (width - 1) := by push_cast; rfl
  rw [BitVec.msb_eq_decide, decide_eq_false_iff_not]
  change ¬ 2 ^ (width - 1) ≤ (ofValue width value).bits.toNat
  omega

theorem sextOrTrunc_ofValue {small : Nat} (le : small ≤ width) :
    (ofValue width value).sextOrTrunc small = ofValue small value := by
  apply congrArg (APInt.mk small)
  apply BitVec.eq_of_toInt_eq
  change ((BitVec.ofInt width value).signExtend small).toInt = _
  rw [BitVec.toInt_signExtend, min_eq_left le, BitVec.toInt_ofInt, BitVec.toInt_ofInt]
  exact Int.bmod_bmod_of_dvd (pow_dvd_pow 2 le)

theorem zextOrTrunc_ofValue {small : Nat} (le : small ≤ width) :
    (ofValue width value).zextOrTrunc small = ofValue small value :=
  (sext_eq_zext_iff.mpr (.inr le)).symm.trans (sextOrTrunc_ofValue le)

end APInt

end Library
