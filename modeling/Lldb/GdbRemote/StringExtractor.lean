import Lldb.GdbRemote.Checksum
import Mathlib.Data.Nat.Digits.Lemmas

/-! `StringExtractor`, which takes hex numbers and bytes off the front of a packet, and
the hex text that `printf` writes into one.

An extractor is the part of its packet behind `m_index`, and `none` once the index is
`UINT64_MAX`: that is how a failed extraction is marked.
-/

set_option autoImplicit false

namespace Lldb.GdbRemote

open List Option

def ascii (text : String) : Bytes := text.toList.map fun c => UInt8.ofNat c.toNat

/-- The digits of a number, most significant first, after enough zeros to make `precision`. -/
def hexNibbles (precision value : Nat) : List Nat :=
  let digits := Nat.digits 16 value
  List.replicate (precision - digits.length) 0 ++ digits.reverse

/-- `%x` with a precision. -/
def hexText (precision value : Nat) : Bytes := (hexNibbles precision value).map nibbleChar

abbrev StringExtractor := Option Bytes

namespace StringExtractor

variable (extractor : StringExtractor)

def getBytesLeft : Nat := (extractor.getD []).length

def isGood : Bool := extractor.isSome

def getChar (failValue : UInt8) : StringExtractor → UInt8 × StringExtractor
  | some (c :: rest) => (c, some rest)
  | _ => (failValue, none)

def skipSpaces : StringExtractor := extractor.map (·.dropWhile isspace)

/-- The loop of `GetHexMaxU32` and `GetHexMaxU64` over big-endian digits. -/
def hexLoop (maxNibbles failValue : Nat) : Nat → Nat → Bytes → Nat × StringExtractor
  | result, _, [] => (result, some [])
  | result, nibbleCount, c :: rest =>
      match hexDigit? c with
      | none => (result, some (c :: rest))
      | some nibble =>
          if maxNibbles ≤ nibbleCount then (failValue, none)
          else hexLoop maxNibbles failValue (16 * result + nibble) (nibbleCount + 1) rest

def getHexMax (maxNibbles failValue : Nat) (extractor : StringExtractor) : Nat × StringExtractor :=
  match extractor.skipSpaces with
  | none => (0, none)
  | some rest => hexLoop maxNibbles failValue 0 0 rest

def getHexMaxU32 (failValue : Nat) (extractor : StringExtractor) : Nat × StringExtractor :=
  extractor.getHexMax 8 failValue

def getHexMaxU64 (failValue : Nat) (extractor : StringExtractor) : Nat × StringExtractor :=
  extractor.getHexMax 16 failValue

def decodeHexU8 : Option (UInt8 × StringExtractor) :=
  match extractor.skipSpaces with
  | some (hi :: lo :: rest) => do
      let hiNibble ← hexDigit? hi
      let loNibble ← hexDigit? lo
      some (UInt8.ofNat (16 * hiNibble + loNibble), some rest)
  | _ => none

/-- `GetHexU8` with `set_eof_on_fail`, as it is by default. -/
def getHexU8 (failValue : UInt8) (extractor : StringExtractor) : UInt8 × StringExtractor :=
  (extractor.decodeHexU8).getD (failValue, none)

/-- The bytes that `GetHexBytes` extracts for a destination of `size` bytes; it fills
the others with its fail value. -/
def getHexBytes (failFillValue : UInt8) : Nat → StringExtractor → Bytes × StringExtractor
  | 0, extractor => ([], extractor)
  | size + 1, extractor =>
      if extractor.getBytesLeft = 0 then ([], extractor)
      else
        let (byte, next) := extractor.getHexU8 failFillValue
        if next.isGood then
          let (extracted, last) := getHexBytes failFillValue size next
          (byte :: extracted, last)
        else ([], next)

end StringExtractor

/-! What is printed is read back. -/

theorem hexDigit?_nibbleChar {nibble : Nat} (small : nibble < 16) : hexDigit? (nibbleChar nibble) = some nibble :=
  hexDigit_nibbleChar nibble small

theorem not_isspace_of_digit {c : UInt8} {digit : Nat} (found : hexDigit? c = some digit) : isspace c = false := by
  obtain ⟨-, low, -, -⟩ := hexDigit_range found
  simp only [isspace, UInt8.le_iff_toNat_le, ← UInt8.toNat_inj]
  grind

def NoDigitFirst (rest : Bytes) : Prop := ∀ c ∈ rest.head?, hexDigit? c = none

namespace StringExtractor

theorem hexLoop_stop (maxNibbles failValue result nibbleCount : Nat) {rest : Bytes} (stop : NoDigitFirst rest) :
    hexLoop maxNibbles failValue result nibbleCount rest = (result, some rest) := by
  cases rest with
  | nil => rfl
  | cons c rest =>
    have none : hexDigit? c = none := stop c rfl
    simp [hexLoop, none]

theorem hexLoop_nibbles (maxNibbles failValue result nibbleCount : Nat)
    {nibbles : List Nat} {rest : Bytes} (small : ∀ nibble ∈ nibbles, nibble < 16)
    (fits : nibbleCount + nibbles.length ≤ maxNibbles) (stop : NoDigitFirst rest) :
    hexLoop maxNibbles failValue result nibbleCount (nibbles.map nibbleChar ++ rest) =
      (nibbles.foldl (fun value nibble => 16 * value + nibble) result, some rest) := by
  induction nibbles generalizing result nibbleCount with
  | nil => exact hexLoop_stop maxNibbles failValue result nibbleCount stop
  | cons nibble nibbles ih =>
    rw [length_cons] at fits
    have digit : hexDigit? (nibbleChar nibble) = some nibble :=
      hexDigit?_nibbleChar (small nibble mem_cons_self)
    have more : ¬ maxNibbles ≤ nibbleCount := by omega
    have next := ih (16 * result + nibble) (nibbleCount + 1)
      (fun other member => small other (mem_cons_of_mem nibble member)) (by omega)
    rw [map_cons, cons_append, hexLoop, digit]
    simp only [more]
    exact next

end StringExtractor

theorem hexNibbles_small {precision value nibble : Nat} (member : nibble ∈ hexNibbles precision value) :
    nibble < 16 := by
  rcases mem_append.mp member with zero | digit
  · rw [eq_of_mem_replicate zero]
    decide
  · exact Nat.digits_lt_base (by decide) (mem_reverse.mp digit)

theorem length_hexNibbles (precision value : Nat) :
    (hexNibbles precision value).length = max precision (Nat.digits 16 value).length := by
  rw [hexNibbles, length_append, length_replicate, length_reverse]
  omega

theorem foldl_hexNibbles (precision value : Nat) :
    (hexNibbles precision value).foldl (fun value nibble => 16 * value + nibble) 0 = value := by
  have padding : ∀ zeros : Nat,
      (replicate zeros 0).foldl (fun value nibble => 16 * value + nibble) 0 = 0 := by
    intro zeros
    induction zeros with
    | zero => rfl
    | succ zeros ih => rw [replicate_succ]; exact ih
  have number := Nat.ofDigits_digits 16 value
  rw [Nat.ofDigits_eq_foldr] at number
  rw [hexNibbles, foldl_append, padding, foldl_reverse]
  refine Eq.trans ?_ number
  congr 1
  funext digit rest
  exact add_comm (16 * rest) digit

namespace StringExtractor

theorem skipSpaces_nibbles (nibbles : List Nat) (small : ∀ nibble ∈ nibbles, nibble < 16)
    (some : nibbles ≠ []) (rest : Bytes) :
    skipSpaces (.some (nibbles.map nibbleChar ++ rest)) = .some (nibbles.map nibbleChar ++ rest) := by
  cases nibbles with
  | nil => exact absurd rfl some
  | cons nibble nibbles =>
    have noSpace : isspace (nibbleChar nibble) = false :=
      not_isspace_of_digit (hexDigit?_nibbleChar (small nibble mem_cons_self))
    simp [skipSpaces, noSpace]

variable {precision value : Nat} {rest : Bytes}

variable (failValue : Nat)

theorem getHexMax_hexText {maxNibbles : Nat}
    (digits : 0 < precision) (fits : precision ≤ maxNibbles) (bounded : value < 16 ^ maxNibbles)
    (stop : NoDigitFirst rest) :
    getHexMax maxNibbles failValue (some (hexText precision value ++ rest)) = (value, some rest) := by
  have small : ∀ nibble ∈ hexNibbles precision value, nibble < 16 := fun _ member => hexNibbles_small member
  have length := length_hexNibbles precision value
  have few : (Nat.digits 16 value).length ≤ maxNibbles :=
    (Nat.digits_length_le_iff (by decide) value).mpr bounded
  have loop := hexLoop_nibbles maxNibbles failValue 0 0 small (by omega) stop
  rw [foldl_hexNibbles] at loop
  rw [getHexMax, hexText, skipSpaces_nibbles _ small (by rw [← length_pos_iff]; omega)]
  exact loop

theorem getHexMaxU64_hexText
    (digits : 0 < precision) (fits : precision ≤ 16) (bounded : value < 2 ^ 64)
    (stop : NoDigitFirst rest) :
    getHexMaxU64 failValue (some (hexText precision value ++ rest)) = (value, some rest) :=
  getHexMax_hexText failValue digits fits (by simpa using bounded) stop

theorem getHexMaxU32_hexText
    (digits : 0 < precision) (fits : precision ≤ 8) (bounded : value < 2 ^ 32)
    (stop : NoDigitFirst rest) :
    getHexMaxU32 failValue (some (hexText precision value ++ rest)) = (value, some rest) :=
  getHexMax_hexText failValue digits fits (by simpa using bounded) stop

theorem getHexU8_putHex8 (failValue byte : UInt8) (rest : Bytes) :
    getHexU8 failValue (some (putHex8 byte ++ rest)) = (byte, some rest) := by
  have bounded := byte.toNat_lt
  have high : hexDigit? (nibbleChar (byte.toNat / 16)) = some (byte.toNat / 16) :=
    hexDigit?_nibbleChar (by omega)
  have low : hexDigit? (nibbleChar (byte.toNat % 16)) = some (byte.toNat % 16) :=
    hexDigit?_nibbleChar (by omega)
  have skip : skipSpaces (some (putHex8 byte ++ rest)) = some (putHex8 byte ++ rest) :=
    skipSpaces_nibbles [byte.toNat / 16, byte.toNat % 16] (by simp; omega) (by simp) rest
  have value : UInt8.ofNat (16 * (byte.toNat / 16) + byte.toNat % 16) = byte := by
    simp [Nat.div_add_mod]
  rw [getHexU8, decodeHexU8, skip]
  simp only [putHex8, cons_append, nil_append, high, low, bind_eq_bind,
    bind_some, value, getD_some]

theorem getHexBytes_putHex8 (failFillValue : UInt8) {data : Bytes} {size : Nat} (fits : data.length ≤ size) :
    getHexBytes failFillValue size (some (data.flatMap putHex8)) = (data, some []) := by
  induction data generalizing size with
  | nil => cases size <;> simp [getHexBytes, getBytesLeft]
  | cons byte data ih =>
    obtain ⟨size, rfl⟩ : ∃ larger, size = larger + 1 := ⟨size - 1, by rw [length_cons] at fits; omega⟩
    have more : ¬ getBytesLeft (some (putHex8 byte ++ data.flatMap putHex8)) = 0 := by
      simp [getBytesLeft, putHex8]
    have next := ih (Nat.le_of_succ_le_succ fits)
    rw [flatMap_cons, getHexBytes, if_neg more, getHexU8_putHex8]
    simp [isGood, next]

end StringExtractor

end Lldb.GdbRemote
