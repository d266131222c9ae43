import Lldb.Utility.Json

/-! The tokens that what is written is cut into again. -/

set_option autoImplicit false

namespace Lldb.Json

open GdbRemote (Bytes ascii cString isspace hexDigit? hexText signedChar lowByte minus)
open List

namespace JSONParser

variable (index : Nat) (tail : Bytes)

theorem skipSpaces_of_not {ch : UInt8} (visible : isspace ch = false) :
    skipSpaces ⟨index, ch :: tail⟩ = ⟨index, ch :: tail⟩ := by
  simp [skipSpaces, visible]

theorem getToken_objectStart : getToken ⟨index, braceOpen :: tail⟩ = (.objectStart, [], ⟨index + 1, tail⟩) := rfl

theorem getToken_objectEnd : getToken ⟨index, braceClose :: tail⟩ = (.objectEnd, [], ⟨index + 1, tail⟩) := rfl

theorem getToken_comma : getToken ⟨index, comma :: tail⟩ = (.comma, [], ⟨index + 1, tail⟩) := rfl

theorem getToken_colon : getToken ⟨index, colon :: tail⟩ = (.colon, [], ⟨index + 1, tail⟩) := rfl

theorem getToken_trueValue : getToken ⟨index, ascii "true" ++ tail⟩ = (.trueValue, [], ⟨index + 4, tail⟩) := rfl

theorem getToken_falseValue : getToken ⟨index, ascii "false" ++ tail⟩ = (.falseValue, [], ⟨index + 5, tail⟩) := rfl

theorem getToken_nullValue : getToken ⟨index, ascii "null" ++ tail⟩ = (.nullValue, [], ⟨index + 4, tail⟩) := rfl

theorem lowByte_signedChar (c : UInt8) : lowByte (signedChar c) = c := by
  have small := c.toNat_lt
  rw [← UInt8.toNat_inj]
  unfold lowByte signedChar
  split_ifs <;> simp <;> omega

theorem signedChar_range (c : UInt8) : -128 ≤ signedChar c ∧ signedChar c ≤ 127 := by
  have small := c.toNat_lt
  unfold signedChar
  split_ifs <;> omega

theorem signedChar_eq_iff (c : UInt8) {value : Int} (low : -128 ≤ value) (high : value ≤ 127) :
    signedChar c = value ↔ c = lowByte value := by
  constructor
  · rintro rfl
    exact (lowByte_signedChar c).symm
  · rintro rfl
    unfold lowByte signedChar
    split_ifs <;> simp at * <;> omega

theorem getString_char {startIndex : Nat} {value : Bytes} {parser : JSONParser} {escaped : EscapedChar}
    (read : parser.getEscapedChar = escaped) (valid : escaped.char ≠ -1)
    (inside : escaped.wasEscaped = true ∨ (escaped.char ≠ 0x22 ∧ escaped.char ≠ 0))
    (range : -128 ≤ escaped.char ∧ escaped.char ≤ 127) :
    getString startIndex value parser = getString startIndex (value ++ [lowByte escaped.char]) escaped.parser := by
  rw [getString.eq_def, read]
  simp [if_neg valid, if_pos inside, if_pos range]

theorem getString_escaped {startIndex : Nat} {value : Bytes} {parser next : JSONParser} {char : Int}
    (read : parser.getEscapedChar = ⟨char, true, next⟩) (range : 0 ≤ char ∧ char ≤ 127) :
    getString startIndex value parser = getString startIndex (value ++ [lowByte char]) next :=
  getString_char read (by dsimp only; omega) (.inl rfl) ⟨by dsimp only; omega, range.2⟩

variable (startIndex : Nat)

theorem getString_end (value : Bytes) :
    getString startIndex value ⟨index, doubleQuote :: tail⟩ = (.string, value, ⟨index + 1, tail⟩) := by
  rw [getString.eq_def]
  rfl

theorem getString_quoted (value : Bytes) {data : Bytes} (noNul : 0 ∉ data) (noError : 0xff ∉ data) :
    ∃ last, getString startIndex value ⟨index, quoteMetachars data ++ doubleQuote :: tail⟩ =
      (.string, value ++ data, ⟨last, tail⟩) := by
  induction data generalizing index value with
  | nil => exact ⟨index + 1, by rw [append_nil]; exact getString_end index tail startIndex value⟩
  | cons c data ih =>
    rw [mem_cons, not_or] at noNul noError
    have rest (index : Nat) := ih index (value ++ [c]) noNul.2 noError.2
    simp only [append_assoc, singleton_append] at rest
    rw [quoteMetachars, flatMap_cons]
    by_cases quoted : c = doubleQuote ∨ c = backslash
    · obtain ⟨last, next⟩ := rest (index + 2)
      refine ⟨last, ?_⟩
      rw [← next]
      rcases quoted with rfl | rfl
      · have read : getEscapedChar ⟨index, backslash :: doubleQuote :: (quoteMetachars data ++ doubleQuote :: tail)⟩ =
            ⟨0x22, true, ⟨index + 2, quoteMetachars data ++ doubleQuote :: tail⟩⟩ := rfl
        exact getString_escaped read (by decide)
      · have read : getEscapedChar ⟨index, backslash :: backslash :: (quoteMetachars data ++ doubleQuote :: tail)⟩ =
            ⟨0x5c, true, ⟨index + 2, quoteMetachars data ++ doubleQuote :: tail⟩⟩ := rfl
        exact getString_escaped read (by decide)
    · by_cases newline : c = 0x0a
      · obtain ⟨last, next⟩ := rest (index + 2)
        refine ⟨last, ?_⟩
        subst newline
        rw [← next]
        have read : getEscapedChar ⟨index, backslash :: 0x6e :: (quoteMetachars data ++ doubleQuote :: tail)⟩ =
            ⟨0x0a, true, ⟨index + 2, quoteMetachars data ++ doubleQuote :: tail⟩⟩ := rfl
        exact getString_escaped read (by decide)
      · obtain ⟨last, next⟩ := rest (index + 1)
        refine ⟨last, ?_⟩
        rw [not_or] at quoted
        rw [if_neg (not_or.mpr quoted), if_neg newline, ← next]
        have read : getEscapedChar ⟨index, c :: (quoteMetachars data ++ doubleQuote :: tail)⟩ =
            ⟨signedChar c, false, ⟨index + 1, quoteMetachars data ++ doubleQuote :: tail⟩⟩ := by
          unfold getEscapedChar getChar
          simp [if_neg quoted.2]
        have step := @getString_char startIndex value _ _ read
        rw [lowByte_signedChar] at step
        refine step ?_ (.inr ⟨?_, ?_⟩) (signedChar_range c)
        · rw [Ne, signedChar_eq_iff c (by decide) (by decide)]
          exact Ne.symm noError.1
        · rw [Ne, signedChar_eq_iff c (by decide) (by decide)]
          exact quoted.1
        · rw [Ne, signedChar_eq_iff c (by decide) (by decide)]
          exact Ne.symm noNul.1

theorem cString_quoteMetachars (data : Bytes) : cString (quoteMetachars data) = quoteMetachars (cString data) := by
  induction data with
  | nil => rfl
  | cons c data ih =>
    unfold cString at ih ⊢
    by_cases nul : c = 0
    · subst nul
      rfl
    · rw [takeWhile_cons_of_pos (by simpa using nul), quoteMetachars, quoteMetachars, flatMap_cons,
        flatMap_cons, ← quoteMetachars, ← quoteMetachars, ← ih, takeWhile_append_of_pos]
      intro piece member
      split_ifs at member with quoted newline
      · rcases mem_cons.mp member with rfl | same
        · rfl
        · cases mem_singleton.mp same
          simpa using nul
      · rcases mem_cons.mp member with rfl | same
        · rfl
        · cases mem_singleton.mp same
          rfl
      · cases mem_singleton.mp member
        simpa using nul

theorem nul_notMem_cString (data : Bytes) : 0 ∉ cString data := by
  intro member
  have := mem_takeWhile_imp member
  simp at this

theorem getToken_writeString {data : Bytes} (noError : 0xff ∉ cString data) :
    ∃ last, getToken ⟨index, writeString data ++ tail⟩ = (.string, cString data, ⟨last, tail⟩) := by
  rw [writeString, cons_append, cString_quoteMetachars, append_assoc]
  have read := getString_quoted (index + 1) tail index [] (nul_notMem_cString data) noError
  rwa [nil_append] at read

def Delimited (text : Bytes) : Prop := ∀ c ∈ text.head?, c = comma ∨ c = bracketClose ∨ c = braceClose

theorem ne_of_isDigit {c d : UInt8} (digit : isDigit c = true) (other : isDigit d = false) : c ≠ d := by
  rintro rfl
  rw [digit] at other
  cases other

theorem isspace_of_isDigit {c : UInt8} (digit : isDigit c = true) : isspace c = false := by
  simp only [isDigit, isspace, Bool.and_eq_true, Bool.or_eq_false_iff, Bool.and_eq_false_iff, decide_eq_true_eq,
    decide_eq_false_iff_not, UInt8.le_iff_toNat_le, ← UInt8.toNat_inj, UInt8.reduceToNat] at digit ⊢
  omega

theorem getToken_number {ch : UInt8} (number : ch = minus ∨ isDigit ch = true) :
    getToken ⟨index, ch :: tail⟩ = getNumber ⟨index, ch :: tail⟩ ch tail := by
  rcases number with rfl | digit
  · rfl
  · have other {d : UInt8} (noDigit : isDigit d = false) : ¬ ch = d := ne_of_isDigit digit noDigit
    have braces := And.intro (@other braceOpen rfl) (@other braceClose rfl)
    have brackets := And.intro (@other bracketOpen rfl) (@other bracketClose rfl)
    have marks := And.intro (@other comma rfl) (And.intro (@other colon rfl) (@other doubleQuote rfl))
    have nul := @other 0 rfl
    have words := And.intro (@other 0x74 rfl) (And.intro (@other 0x66 rfl) (@other 0x6e rfl))
    simp [getToken, skipSpaces_of_not index tail (isspace_of_isDigit digit), getChar, braces, brackets, marks, nul, words, digit]

theorem scanNumber_stop (scan : NumberScan) {tail : Bytes} (delimited : Delimited tail) :
    scanNumber startIndex scan index tail = .ok (scan, ⟨index, tail⟩) := by
  cases tail with
  | nil => rfl
  | cons c tail => rcases delimited c rfl with rfl | rfl | rfl <;> rfl

theorem scanNumber_digits (startIndex : Nat) {got : Bool} {digits tail : Bytes}
    (all : ∀ c ∈ digits, isDigit c = true) (some_ : got = true ∨ digits ≠ []) (delimited : Delimited tail) :
    scanNumber startIndex ⟨false, 0, got, false, false⟩ index (digits ++ tail) =
      .ok (⟨false, 0, true, false, false⟩, ⟨index + digits.length, tail⟩) := by
  induction digits generalizing index got with
  | nil =>
    rw [some_.resolve_right fun other => other rfl]
    exact scanNumber_stop index startIndex _ delimited
  | cons c digits ih =>
    rw [forall_mem_cons] at all
    rw [cons_append, scanNumber, if_pos all.1, length_cons, add_comm digits.length, ← add_assoc]
    exact ih (index + 1) all.2 (.inl rfl)

theorem toUInt8_digit {number : Nat} {char : Char} (member : char ∈ Nat.toDigits 10 number) :
    char.toUInt8.toNat = char.toNat ∧ 48 ≤ char.toNat ∧ char.toNat ≤ 57 := by
  have digit := Nat.isDigit_of_mem_toDigits (by decide) (by decide) member
  simp only [Char.isDigit, Bool.and_eq_true, decide_eq_true_eq] at digit
  have low : 48 ≤ char.toNat := digit.1
  have high : char.toNat ≤ 57 := digit.2
  have byte : char.toUInt8.toNat = char.toNat % 2 ^ 8 := UInt32.toNat_toUInt8 char.val
  omega

theorem isDigit_of_mem_decimal {number : Nat} {c : UInt8} (member : c ∈ decimal number) : isDigit c = true := by
  obtain ⟨char, listed, rfl⟩ := mem_map.mp member
  obtain ⟨byte, low, high⟩ := toUInt8_digit listed
  simp only [isDigit, Bool.and_eq_true, decide_eq_true_eq, UInt8.le_iff_toNat_le, UInt8.reduceToNat]
  omega

theorem decimal_ne_nil (number : Nat) : decimal number ≠ [] := by
  rw [decimal, Ne, map_eq_nil_iff]
  exact Nat.toDigits_ne_nil

theorem getToken_decimal (number : Nat) {tail : Bytes} (delimited : Delimited tail) :
    ∃ last, getToken ⟨index, decimal number ++ tail⟩ = (.integer, decimal number, ⟨last, tail⟩) := by
  have digits (c : UInt8) := @isDigit_of_mem_decimal number c
  cases text : decimal number with
  | nil => exact absurd text (decimal_ne_nil number)
  | cons ch rest =>
    rw [text] at digits
    have scan := @scanNumber_digits (index + 1) index (isDigit ch) rest tail
      (fun c member => digits c (.tail _ member)) (.inl (digits ch mem_cons_self)) delimited
    refine ⟨index + 1 + rest.length, ?_⟩
    rw [cons_append, getToken_number index _ (.inr (digits ch mem_cons_self)), getNumber, scan]
    have length : index + 1 + rest.length - index = (ch :: rest).length := by
      rw [length_cons]
      omega
    dsimp only
    rw [length, ← cons_append, take_left]
    rfl

theorem getToken_minus (number : Nat) {tail : Bytes} (delimited : Delimited tail) :
    ∃ last, getToken ⟨index, minus :: decimal number ++ tail⟩ = (.integer, minus :: decimal number, ⟨last, tail⟩) := by
  have scan := @scanNumber_digits (index + 1) index (isDigit minus) (decimal number) tail
    (fun c => isDigit_of_mem_decimal) (.inr (decimal_ne_nil number)) delimited
  refine ⟨index + 1 + (decimal number).length, ?_⟩
  rw [cons_append, getToken_number index _ (.inl rfl), getNumber, scan]
  have length : index + 1 + (decimal number).length - index = (minus :: decimal number).length := by
    rw [length_cons]
    omega
  dsimp only
  rw [length, ← cons_append, take_left]
  rfl

end JSONParser

end Lldb.Json
