import Lldb.Utility.DataExtractor
import Mathlib.Data.Nat.Bitwise

/-! LEB128 numbers in their shortest encodings, as `Stream` puts them, read and skipped by a `DataExtractor`. -/

set_option autoImplicit false

namespace Lldb.DataExtractor

open Library Leb128 List

variable {data : DataExtractor} {offset : Nat}

variable {value : Nat} {bytes : List UInt8}

theorem getULEB128_ofNat (fits : value < 2 ^ 64) (at_ : data.At offset (ofNat value).bytes) :
    data.getULEB128 offset = some (value, offset + (ofNat value).bytes.length) := by
  have short : (ofNat value).size ≤ 10 := size_ofNat_le value (lt_trans fits (by decide))
  rw [getULEB128_at at_, if_pos short, unsigned_ofNat, Nat.mod_eq_of_lt fits, length_bytes]

/-- A number that needs no sign, or whose sign is extended within an int, or not at all. -/
def SignExtends (value : Int) : Prop := 0 ≤ value ∨ -2 ^ 27 ≤ value ∨ value < -2 ^ 62

instance (value : Int) : Decidable (SignExtends value) := inferInstanceAs (Decidable (_ ∨ _ ∨ _))

theorem signedReadable_ofInt {value : Int} (low : -2 ^ 63 ≤ value) (high : value < 2 ^ 63) :
    SignedReadable (ofInt value) ↔ SignExtends value := by
  have ten : (ofInt value).size ≤ 10 := (size_ofInt_le value 9).mpr (by omega)
  have nine : (ofInt value).size ≤ 9 ↔ _ := size_ofInt_le value 8
  have four : (ofInt value).size ≤ 4 ↔ _ := size_ofInt_le value 3
  unfold SignedReadable SignExtends
  rw [last_ofInt]
  omega

theorem getSLEB128_ofInt {value : Int} (low : -2 ^ 63 ≤ value) (high : value < 2 ^ 63)
    (at_ : data.At offset (ofInt value).bytes) :
    data.getSLEB128 offset = if SignExtends value then some (value, offset + (ofInt value).bytes.length) else none := by
  have small : value.bmod (2 ^ 64) = value := Int.bmod_eq_of_le (by omega) (by omega)
  rw [getSLEB128_at at_, signed_ofInt, small, length_bytes]
  exact if_congr (signedReadable_ofInt low high) rfl rfl

/-! Bytes that need not be a number. -/

def SkipsAlike (data : DataExtractor) (offset : Nat) : Prop :=
  ∃ value count next, data.getULEB128 offset = some (value, next) ∧ data.skipLEB128 offset = some (count, next) ∧
    next = offset + count

/-- Nothing but bytes with another one to follow up to the end, as many as fit into 64 bits. -/
def Unfinished (data : DataExtractor) (offset : Nat) : Prop :=
  (∀ byte ∈ data.bytes.drop offset, byte.toNat &&& 0x80 ≠ 0) ∧ (data.bytes.drop offset).length ≤ 10

theorem lebLength_unfinished (goesOn : ∀ byte ∈ bytes, byte.toNat &&& 0x80 ≠ 0) :
    lebLength bytes = bytes.length ∧ lebContinued bytes = bytes.length := by
  induction bytes with
  | nil => exact ⟨rfl, rfl⟩
  | cons byte rest ih =>
    rw [forall_mem_cons] at goesOn
    obtain ⟨length, continued⟩ := ih goesOn.2
    rw [lebLength, lebContinued, if_neg goesOn.1, if_neg goesOn.1, length, continued]
    exact ⟨rfl, rfl⟩

theorem lebLength_finished (ends : ∃ byte ∈ bytes, byte.toNat &&& 0x80 = 0) :
    lebLength bytes = lebContinued bytes + 1 := by
  induction bytes with
  | nil =>
    obtain ⟨byte, member, -⟩ := ends
    cases member
  | cons byte rest ih =>
    rw [lebLength, lebContinued]
    split_ifs with last
    · rfl
    · rw [ih]
      obtain ⟨other, member, ends⟩ := ends
      rcases mem_cons.mp member with rfl | later
      · exact absurd ends last
      · exact ⟨other, later, ends⟩

theorem ulebLoop_unfinished (goesOn : ∀ byte ∈ bytes, byte.toNat &&& 0x80 ≠ 0) (result index count : Nat) :
    (index + bytes.length ≤ 10 →
        ∃ value, ulebLoop bytes result (7 * index) count = some (value, count + bytes.length)) ∧
      (10 < index + bytes.length → bytes ≠ [] → ulebLoop bytes result (7 * index) count = none) := by
  induction bytes generalizing result index count with
  | nil => exact ⟨fun _ => ⟨result, rfl⟩, fun _ some_ => absurd rfl some_⟩
  | cons byte rest ih =>
    rw [forall_mem_cons] at goesOn
    obtain ⟨short, long⟩ := ih goesOn.2 (result ||| (byte.toNat &&& 0x7f) <<< (7 * index) % 2 ^ 64) (index + 1)
      (count + 1)
    rw [mul_add] at short long
    rw [ulebLoop, if_neg goesOn.1, length_cons]
    constructor
    · intro fits
      rw [if_pos (by omega)]
      obtain ⟨value, read⟩ := short (by omega)
      exact ⟨value, by rw [read, add_assoc, add_comm 1]⟩
    · intro tooMany _
      by_cases room : 7 * index < 64
      · rw [if_pos room]
        apply long (by omega)
        rintro rfl
        rw [length_nil] at tooMany
        omega
      · rw [if_neg room]

theorem skipsAlike_iff : SkipsAlike data offset ↔ Unfinished data offset := by
  unfold SkipsAlike Unfinished skipLEB128
  by_cases goesOn : ∀ byte ∈ data.bytes.drop offset, byte.toNat &&& 0x80 ≠ 0
  · obtain ⟨length, continued⟩ := lebLength_unfinished goesOn
    rw [and_iff_right goesOn, length, continued]
    cases rest : data.bytes.drop offset with
    | nil =>
      refine iff_of_true ⟨0, 0, offset, ?_, rfl, rfl⟩ (Nat.zero_le _)
      rw [getULEB128, rest]
    | cons byte bytes =>
      rw [rest, forall_mem_cons] at goesOn
      have first : 0x80 ≤ byte.toNat := by
        by_contra small
        apply goesOn.1
        rw [show (0x80 : Nat) = 2 ^ 7 from rfl, Nat.and_two_pow, Nat.testBit_lt_two_pow (Nat.lt_of_not_le small)]
        rfl
      have read : data.getULEB128 offset =
          (ulebLoop bytes (byte.toNat &&& 0x7f) (7 * 1) 1).map fun read => (read.1, offset + read.2) := by
        rw [getULEB128, rest]
        exact if_pos first
      obtain ⟨short, long⟩ := ulebLoop_unfinished goesOn.2 (byte.toNat &&& 0x7f) 1 1
      rw [read, length_cons]
      constructor
      · rintro ⟨value, count, next, found, -, -⟩
        by_contra tooMany
        have some_ : bytes ≠ [] := by
          rintro rfl
          exact tooMany (by decide)
        rw [long (by omega) some_] at found
        cases found
      · intro few
        obtain ⟨value, found⟩ := short (by omega)
        rw [add_comm] at found
        refine ⟨value, _, _, by rw [found]; rfl, rfl, ?_⟩
        rw [Nat.mod_eq_of_lt (by omega)]
  · refine iff_of_false ?_ fun both => goesOn both.1
    rintro ⟨value, count, next, -, skipped, moved⟩
    rw [Option.some.injEq, Prod.mk.injEq] at skipped
    push Not at goesOn
    have more := lebLength_finished goesOn
    omega

/-! Whatever is read, the offset moves over the bytes of a number. -/

theorem ulebLoop_moves {result shift count moved : Nat}
    (read : ulebLoop bytes result shift count = some (value, moved)) : moved = count + lebLength bytes := by
  induction bytes generalizing result shift count with
  | nil =>
    cases read
    rfl
  | cons byte rest ih =>
    rw [ulebLoop] at read
    rw [lebLength]
    split at read
    · split at read
      · rename_i last
        cases read
        rw [if_pos last]
      · rename_i more
        rw [ih read, if_neg more]
        omega
    · cases read

theorem slebLoop_moves {result shift count reached moved : Nat} {byte last : UInt8}
    (read : slebLoop bytes result shift byte count = some (value, reached, last, moved)) :
    moved = count + lebLength bytes := by
  have unsigned : ulebLoop bytes result shift count = some (value, moved) := by
    rw [ulebLoop_eq bytes result shift count byte, read]
    rfl
  exact ulebLoop_moves unsigned

theorem and_continued_eq_zero {byte : UInt8} : byte.toNat &&& 0x80 = 0 ↔ byte.toNat < 0x80 := by
  have fits : byte.toNat < 2 ^ 8 := byte.toNat_lt
  rw [show (0x80 : Nat) = 2 ^ 7 from rfl, Nat.and_two_pow]
  constructor
  · intro clear
    by_contra large
    have set_ : byte.toNat.testBit 7 = true := by
      rw [Nat.testBit_eq_decide_div_mod_eq]
      exact decide_eq_true (by omega)
    rw [set_] at clear
    cases clear
  · intro small
    rw [Nat.testBit_lt_two_pow small]
    rfl

theorem getULEB128_moves {next : Nat} (read : data.getULEB128 offset = some (value, next)) :
    next = offset + lebLength (data.bytes.drop offset) := by
  unfold getULEB128 at read
  cases rest : data.bytes.drop offset with
  | nil =>
    rw [rest] at read
    cases read
    rfl
  | cons byte bytes =>
    rw [rest] at read
    dsimp only at read
    rw [lebLength]
    split at read
    · rename_i more
      obtain ⟨⟨_, moved⟩, loop, same⟩ := Option.map_eq_some_iff.mp read
      cases same
      rw [ulebLoop_moves loop, if_neg (and_continued_eq_zero.not.mpr (not_lt.mpr more))]
      omega
    · rename_i last
      cases read
      rw [if_pos (and_continued_eq_zero.mpr (Nat.lt_of_not_le last))]

theorem getSLEB128_moves {value : Int} {next : Nat} (read : data.getSLEB128 offset = some (value, next)) :
    next = offset + lebLength (data.bytes.drop offset) := by
  unfold getSLEB128 at read
  split at read
  · rename_i nothing
    cases read
    rw [nothing]
    rfl
  · obtain ⟨⟨result, shift, byte, moved⟩, loop, rest⟩ := Option.bind_eq_some_iff.mp read
    have moves := slebLoop_moves loop
    dsimp only at rest
    split at rest
    · split at rest
      · obtain ⟨-, rfl⟩ := Prod.mk.inj (Option.some.inj rest)
        omega
      · cases rest
    · obtain ⟨-, rfl⟩ := Prod.mk.inj (Option.some.inj rest)
      omega

/-- Unsigned numbers always come back; one with a sign just if it is not negative, or so small or so large that its
sign is not extended beyond an int; and what is skipped is counted just if it runs into the end of the data.
-/
theorem leb128_inverts (data : DataExtractor) (offset : Nat) : (∀ value < 2 ^ 64, data.At offset (ofNat value).bytes →
      data.getULEB128 offset = some (value, offset + (ofNat value).bytes.length)) ∧
    (∀ value : Int, -2 ^ 63 ≤ value → value < 2 ^ 63 → data.At offset (ofInt value).bytes →
      (data.getSLEB128 offset = some (value, offset + (ofInt value).bytes.length) ↔ SignExtends value)) ∧
    (SkipsAlike data offset ↔ Unfinished data offset) := by
  refine ⟨fun value fits at_ => getULEB128_ofNat fits at_, fun value low high at_ => ?_, skipsAlike_iff⟩
  rw [getSLEB128_ofInt low high at_]
  split_ifs with extends_
  · exact iff_of_true rfl extends_
  · exact iff_of_false nofun extends_

/-- A negative number of five bytes, and a number of one byte that is skipped as none. -/
theorem leb128_not_inverted :
    (¬ ∀ (data : DataExtractor) (offset : Nat) (value : Int), -2 ^ 63 ≤ value → value < 2 ^ 63 →
      data.At offset (ofInt value).bytes →
      data.getSLEB128 offset = some (value, offset + (ofInt value).bytes.length)) ∧
    ¬ SkipsAlike ⟨[1], .little, 8⟩ 0 := by
  constructor
  · intro claim
    have there : (⟨(ofInt (-2 ^ 28)).bytes, .little, 8⟩ : DataExtractor).At 0 (ofInt (-2 ^ 28)).bytes :=
      prefix_refl _
    have read := claim _ 0 (-2 ^ 28) (by decide) (by decide) there
    rw [getSLEB128_ofInt (by decide) (by decide) there] at read
    cases read
  · rw [skipsAlike_iff]
    exact fun unfinished => absurd (unfinished.1 1 mem_cons_self) (by decide)

end Lldb.DataExtractor
