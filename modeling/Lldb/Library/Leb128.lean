import Mathlib.Data.Nat.Digits.Lemmas

/-! Numbers in the LEB128 format: seven bits a byte, the least significant first, every byte but
the last with its high bit set. An encoding may be longer than its number needs.
-/

set_option autoImplicit false

namespace Library

instance neZero_base : NeZero 128 := ⟨by decide⟩

structure Leb128 where
  init : List (Fin 128)
  last : Fin 128
  deriving DecidableEq, Repr

namespace Leb128

variable (number : Leb128)

def size : Nat := number.init.length + 1

def continued (digit : Fin 128) : UInt8 := UInt8.ofNat (digit.val + 128)

def bytes : List UInt8 := number.init.map continued ++ [UInt8.ofNat number.last.val]

@[simp] theorem length_bytes : number.bytes.length = number.size := by
  simp [bytes, size]

def value (digits : List (Fin 128)) : Nat := Nat.ofDigits 128 (digits.map Fin.val)

def unsigned : Nat := value (number.init ++ [number.last])

def signed : Int :=
  if number.last.val < 64 then number.unsigned else number.unsigned - 128 ^ number.size

theorem value_append_singleton (front : List (Fin 128)) (digit : Fin 128) :
    value (front ++ [digit]) = value front + 2 ^ (7 * front.length) * digit := by
  simp [value, Nat.ofDigits_append, pow_mul]

theorem value_lt (digits : List (Fin 128)) : value digits < 2 ^ (7 * digits.length) := by
  have bound := Nat.ofDigits_lt_base_pow_length (by decide : 1 < 128) (l := digits.map Fin.val) (by simp)
  simpa [value, pow_mul] using bound

theorem unsigned_eq :
    number.unsigned = value number.init + 2 ^ (7 * number.init.length) * number.last :=
  value_append_singleton number.init number.last

def cons (digit : Fin 128) (number : Leb128) : Leb128 := ⟨digit :: number.init, number.last⟩

@[simp] theorem size_cons (digit : Fin 128) (number : Leb128) : (cons digit number).size = number.size + 1 := rfl

theorem unsigned_cons (digit : Fin 128) (number : Leb128) :
    (cons digit number).unsigned = digit + 128 * number.unsigned := by
  unfold unsigned value cons
  simp [Nat.ofDigits_cons]

theorem signed_cons (digit : Fin 128) (number : Leb128) : (cons digit number).signed = digit + 128 * number.signed := by
  unfold signed
  rw [unsigned_cons, size_cons]
  change (if number.last.val < 64 then _ else _) = _
  split_ifs
  · rfl
  · push_cast
    ring

def digit (value : Nat) : Fin 128 := ⟨value % 128, Nat.mod_lt value (by decide)⟩

def ofNat (value : Nat) : Leb128 :=
  if value < 128 then ⟨[], digit value⟩ else cons (digit value) (ofNat (value / 128))
termination_by value

def signedDigit (value : Int) : Fin 128 := ⟨(value % 128).toNat, by omega⟩

def ofInt (value : Int) : Leb128 :=
  if -64 ≤ value ∧ value < 64 then ⟨[], signedDigit value⟩ else cons (signedDigit value) (ofInt (value / 128))
termination_by value.natAbs
decreasing_by omega

theorem unsigned_ofNat (value : Nat) : (ofNat value).unsigned = value := by
  induction value using ofNat.induct with
  | case1 value small =>
    rw [ofNat, if_pos small, unsigned_eq]
    change 0 + 1 * (value % 128) = value
    omega
  | case2 value large ih =>
    rw [ofNat, if_neg large, unsigned_cons, ih]
    change value % 128 + 128 * (value / 128) = value
    omega

theorem size_ofNat_le (value : Nat) {count : Nat} (fits : value < 128 ^ (count + 1)) :
    (ofNat value).size ≤ count + 1 := by
  induction count generalizing value with
  | zero =>
    rw [ofNat, if_pos (by omega)]
    exact le_refl 1
  | succ count ih =>
    rw [ofNat]
    split_ifs
    · exact Nat.le_add_left 1 _
    · apply Nat.succ_le_succ (ih (value / 128) _)
      apply Nat.div_lt_of_lt_mul
      rwa [pow_succ, mul_comm] at fits

theorem signed_ofInt (value : Int) : (ofInt value).signed = value := by
  induction value using ofInt.induct with
  | case1 value small =>
    rw [ofInt, if_pos small]
    change (if (value % 128).toNat < 64 then (unsigned ⟨[], signedDigit value⟩ : Int) else _) = value
    rw [unsigned_eq]
    change (if (value % 128).toNat < 64 then ((0 + 1 * (value % 128).toNat : Nat) : Int) else
      ((0 + 1 * (value % 128).toNat : Nat) : Int) - 128) = value
    split_ifs <;> omega
  | case2 value large ih =>
    rw [ofInt, if_neg large, signed_cons, ih]
    change ((value % 128).toNat : Int) + 128 * (value / 128) = value
    omega

theorem last_ofInt (value : Int) : 64 ≤ (ofInt value).last.val ↔ value < 0 := by
  induction value using ofInt.induct with
  | case1 value small =>
    rw [ofInt, if_pos small]
    change 64 ≤ (value % 128).toNat ↔ _
    omega
  | case2 value large ih =>
    rw [ofInt, if_neg large]
    refine ih.trans ?_
    omega

theorem size_ofInt_le (value : Int) (count : Nat) :
    (ofInt value).size ≤ count + 1 ↔ -(64 * 128 ^ count) ≤ value ∧ value < 64 * 128 ^ count := by
  induction count generalizing value with
  | zero =>
    rw [ofInt]
    split_ifs with small
    · exact iff_of_true (le_refl 1) (by simpa using small)
    · rw [size_cons]
      have more : 0 < (ofInt (value / 128)).size := Nat.succ_pos _
      omega
  | succ count ih =>
    have room : (1 : Int) ≤ 128 ^ count := one_le_pow₀ (by decide)
    rw [ofInt]
    split_ifs with small
    · refine iff_of_true (Nat.le_add_left 1 _) ?_
      omega
    · rw [size_cons, add_le_add_iff_right, ih]
      omega

end Leb128

end Library
