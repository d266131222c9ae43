import Lldb.Utility.Args
import Mathlib.Data.List.TakeWhile

/-! `Args::EncodeEscapeSequences`, which replaces the escape sequences in a C string.

The string is the text and its terminator, and the cursor what is left of it. Nothing can be read
behind the terminator: a read there has no result.
-/

set_option autoImplicit false

namespace Lldb.Args

open List

def zero : UInt8 := 0x30
def letterX : UInt8 := 0x78

def namedEscapes : List (UInt8 × UInt8) :=
  [(0x61, 0x07), (0x62, 0x08), (0x66, 0x0c), (0x6e, 0x0a), (0x72, 0x0d), (0x74, 0x09), (0x76, 0x0b),
    (backslash, backslash), (singleQuote, singleQuote), (doubleQuote, doubleQuote)]

def octalDigit (c : UInt8) : Bool := 0x30 ≤ c && c ≤ 0x37

def isxdigit (c : UInt8) : Bool :=
  (0x30 ≤ c && c ≤ 0x39) || (0x41 ≤ c && c ≤ 0x46) || (0x61 ≤ c && c ≤ 0x66)

/-- `strtoul` to the base 8. -/
def octalValue (digits : Bytes) : Nat := digits.foldl (fun value c => 8 * value + (c.toNat - 0x30)) 0

def digitValue (c : UInt8) : Nat :=
  if c ≤ 0x39 then c.toNat - 0x30 else if c ≤ 0x46 then c.toNat - 0x37 else c.toNat - 0x57

/-- `strtoul` to the base 16. -/
def hexValue (digits : Bytes) : Nat := digits.foldl (fun value c => 16 * value + digitValue c) 0

/-- The octal digits in front, `count` at most; a character is read before it is counted. -/
def octalDigits : Nat → Bytes → Option Bytes
  | _, [] => none
  | 0, _ :: _ => some []
  | count + 1, c :: p => if octalDigit c then (octalDigits count p).map (c :: ·) else some []

/-- The switch behind a backslash: what is appended, and how many characters are taken. -/
def escapeSequence (p : Bytes) : Option (Bytes × Nat) := do
  let c ← p[0]?
  match namedEscapes.lookup c with
  | some value => return ([value], 1)
  | none =>
    if c = zero then
      let octStr ← octalDigits 4 p
      return (if octalValue octStr ≤ 255 then [UInt8.ofNat (octalValue octStr)] else [], octStr.length)
    else if c = letterX then
      let first ← p[1]?
      if isxdigit first then
        let second ← p[2]?
        if isxdigit second then return ([UInt8.ofNat (hexValue [first, second])], 3)
        else return ([UInt8.ofNat (hexValue [first])], 2)
      else return ([letterX], 1)
    -- This is the branch for the terminator, too, which the loop then steps over.
    else return ([c], 1)

/-- The runs of characters without a backslash, which are copied at once, are copied one by one. -/
def encodeLoop (p : Bytes) : Option Bytes :=
  match p with
  | [] => none
  | c :: p =>
      if c = 0 then some []
      else if c = backslash then
        match escapeSequence p with
        | some (appended, taken) => (encodeLoop (p.drop taken)).map (appended ++ ·)
        | none => none
      else (encodeLoop p).map (c :: ·)
termination_by p.length
decreasing_by
  · simp only [length_drop, length_cons]
    omega
  · simp

def encodeEscapeSequences (src : Bytes) : Option Bytes := encodeLoop (src ++ [0])

/-! What the parts of a string stand for. -/

inductive Stands : Bytes → Bytes → Prop where
  | character {c : UInt8} : c ≠ backslash → Stands [c] [c]
  | named {letter value : UInt8} : namedEscapes.lookup letter = some value → Stands [backslash, letter] [value]
  | octal {digits : Bytes} : (∀ c ∈ digits, octalDigit c = true) → digits.length ≤ 3 →
      Stands (backslash :: zero :: digits)
        (if octalValue (zero :: digits) ≤ 255 then [UInt8.ofNat (octalValue (zero :: digits))] else [])
  | hex {digits : Bytes} : (∀ c ∈ digits, isxdigit c = true) → 0 < digits.length → digits.length ≤ 2 →
      Stands (backslash :: letterX :: digits) [UInt8.ofNat (hexValue digits)]
  | other {c : UInt8} : namedEscapes.lookup c = none → c ≠ zero → Stands [backslash, c] [c]

inductive Decodes : Bytes → Bytes → Prop where
  | nil : Decodes [] []
  | cons {text value src dst : Bytes} : Stands text value → Decodes src dst → Decodes (text ++ src) (value ++ dst)

theorem encodeLoop_nul (p : Bytes) : encodeLoop (0 :: p) = some [] := by
  rw [encodeLoop.eq_def]
  rfl

variable {c first : UInt8}

theorem encodeLoop_regular (some_ : c ≠ 0) (regular : c ≠ backslash) (p : Bytes) :
    encodeLoop (c :: p) = (encodeLoop p).map (c :: ·) := by
  rw [encodeLoop.eq_def]
  simp only [if_neg some_, if_neg regular]

theorem encodeLoop_escape {p appended : Bytes} {taken : Nat} (switch : escapeSequence p = some (appended, taken)) :
    encodeLoop (backslash :: p) = (encodeLoop (p.drop taken)).map (appended ++ ·) := by
  rw [encodeLoop.eq_def]
  simp only [switch]
  rfl

def octalRun : Nat → Bytes → Bytes
  | 0, _ | _, [] => []
  | count + 1, c :: text => if octalDigit c then c :: octalRun count text else []

variable (count : Nat)

variable (text : Bytes)

theorem octalRun_length : (octalRun count text).length ≤ count := by
  induction count generalizing text with
  | zero => exact le_refl 0
  | succ count ih =>
    cases text with
    | nil => exact Nat.zero_le _
    | cons c text =>
      rw [octalRun]
      split
      · exact Nat.succ_le_succ (ih text)
      · exact Nat.zero_le _

theorem octalRun_octal : ∀ c ∈ octalRun count text, octalDigit c = true := by
  induction count generalizing text with
  | zero => exact nofun
  | succ count ih =>
    cases text with
    | nil => exact nofun
    | cons first text =>
      rw [octalRun]
      split
      · next isOctal =>
        rw [forall_mem_cons]
        exact ⟨isOctal, ih text⟩
      · exact nofun

theorem octalRun_prefix : octalRun count text <+: text := by
  induction count generalizing text with
  | zero => exact nil_prefix
  | succ count ih =>
    cases text with
    | nil => exact nil_prefix
    | cons c text =>
      rw [octalRun]
      split
      · exact cons_prefix_cons.mpr ⟨rfl, ih text⟩
      · exact nil_prefix

theorem octalDigits_eq : octalDigits count (text ++ [0]) = some (octalRun count text) := by
  induction count generalizing text with
  | zero => cases text <;> rfl
  | succ count ih =>
    cases text with
    | nil => rfl
    | cons c text =>
      rw [cons_append, octalDigits, octalRun, ih]
      split <;> rfl

theorem not_named_zero : namedEscapes.lookup zero = none := by decide

theorem not_named_letterX : namedEscapes.lookup letterX = none := by decide

theorem octalDigit_zero : octalDigit zero = true := by decide

theorem escapeSequence_named {letter value : UInt8} (listed : namedEscapes.lookup letter = some value) (p : Bytes) :
    escapeSequence (letter :: p) = some ([value], 1) := by
  simp [escapeSequence, listed]

theorem escapeSequence_octal : escapeSequence (zero :: text ++ [0]) =
    some (if octalValue (zero :: octalRun 3 text) ≤ 255
        then [UInt8.ofNat (octalValue (zero :: octalRun 3 text))] else [],
      (octalRun 3 text).length + 1) := by
  have digits : octalDigits 4 (zero :: text ++ [0]) = some (zero :: octalRun 3 text) := by
    rw [octalDigits_eq, octalRun, if_pos octalDigit_zero]
  rw [cons_append] at digits
  simp [escapeSequence, not_named_zero, digits]

theorem escapeSequence_other (unlisted : namedEscapes.lookup c = none) (notZero : c ≠ zero)
    (notX : c ≠ letterX) (p : Bytes) : escapeSequence (c :: p) = some ([c], 1) := by
  simp [escapeSequence, unlisted, notZero, notX]

theorem escapeSequence_hex_none (notHex : isxdigit first = false) (p : Bytes) :
    escapeSequence (letterX :: first :: p) = some ([letterX], 1) := by
  simp [escapeSequence, not_named_letterX, notHex, show letterX ≠ zero by decide]

theorem escapeSequence_hex_one {second : UInt8} (isHex : isxdigit first = true) (notHex : isxdigit second = false)
    (p : Bytes) : escapeSequence (letterX :: first :: second :: p) = some ([UInt8.ofNat (hexValue [first])], 2) := by
  simp [escapeSequence, not_named_letterX, isHex, notHex, show letterX ≠ zero by decide]

theorem escapeSequence_hex_two {second : UInt8} (isHex : isxdigit first = true) (alsoHex : isxdigit second = true)
    (p : Bytes) :
    escapeSequence (letterX :: first :: second :: p) = some ([UInt8.ofNat (hexValue [first, second])], 3) := by
  simp [escapeSequence, not_named_letterX, isHex, alsoHex, show letterX ≠ zero by decide]

theorem not_backslash_of_octal (isOctal : octalDigit c = true) : c ≠ backslash := by
  rintro rfl
  cases isOctal

theorem not_backslash_of_hex (isHex : isxdigit c = true) : c ≠ backslash := by
  rintro rfl
  cases isHex

theorem not_hex_nul : isxdigit 0 = false := by decide

theorem escapeSequence_hex : ∃ digits back, text = digits ++ back ∧ (∀ c ∈ digits, isxdigit c = true) ∧
    digits.length ≤ 2 ∧ escapeSequence (letterX :: text ++ [0]) =
      some (if digits = [] then [letterX] else [UInt8.ofNat (hexValue digits)], digits.length + 1) := by
  cases text with
  | nil => exact ⟨[], [], rfl, nofun, Nat.zero_le _, escapeSequence_hex_none not_hex_nul []⟩
  | cons first text =>
    cases isHex : isxdigit first with
    | false => exact ⟨[], first :: text, rfl, nofun, Nat.zero_le _, escapeSequence_hex_none isHex _⟩
    | true =>
      cases text with
      | nil =>
        refine ⟨[first], [], rfl, ?_, Nat.le_succ 1, escapeSequence_hex_one isHex not_hex_nul []⟩
        rwa [forall_mem_singleton]
      | cons second text =>
        cases alsoHex : isxdigit second with
        | false =>
          refine ⟨[first], second :: text, rfl, ?_, Nat.le_succ 1, escapeSequence_hex_one isHex alsoHex _⟩
          rwa [forall_mem_singleton]
        | true =>
          refine ⟨[first, second], text, rfl, ?_, le_refl 2, escapeSequence_hex_two isHex alsoHex _⟩
          rw [forall_mem_cons, forall_mem_singleton]
          exact ⟨isHex, alsoHex⟩

/-- Behind a backslash with a character behind it the switch takes a part of the text, in which there is
no backslash unless it is the character.
-/
theorem escapeSequence_spec (e : UInt8) (text : Bytes) : ∃ front back appended, e :: text = front ++ back ∧
    front ≠ [] ∧ (front = [backslash] ∨ backslash ∉ front) ∧ Stands (backslash :: front) appended ∧
    escapeSequence (e :: text ++ [0]) = some (appended, front.length) := by
  cases listed : namedEscapes.lookup e with
  | some value =>
    refine ⟨[e], text, [value], rfl, cons_ne_nil _ _, ?_, .named listed, escapeSequence_named listed _⟩
    by_cases same : e = backslash
    · exact .inl (same ▸ rfl)
    · exact .inr fun member => same (mem_singleton.mp member).symm
  | none =>
    by_cases isZero : e = zero
    · subst isZero
      obtain ⟨back, split⟩ := octalRun_prefix 3 text
      refine ⟨zero :: octalRun 3 text, back, _, ?_, cons_ne_nil _ _, .inr ?_,
        .octal (octalRun_octal 3 text) (octalRun_length 3 text), escapeSequence_octal text⟩
      · rw [cons_append, split]
      · rw [mem_cons, not_or]
        exact ⟨by decide, fun member => not_backslash_of_octal (octalRun_octal 3 text _ member) rfl⟩
    · by_cases isX : e = letterX
      · subst isX
        obtain ⟨digits, back, rfl, hex, short, switch⟩ := escapeSequence_hex text
        refine ⟨letterX :: digits, back, _, rfl, cons_ne_nil _ _, .inr ?_, ?_, switch⟩
        · rw [mem_cons, not_or]
          exact ⟨by decide, fun member => not_backslash_of_hex (hex _ member) rfl⟩
        · by_cases none_ : digits = []
          · subst none_
            exact .other listed isZero
          · rw [if_neg none_]
            exact .hex hex (length_pos_iff.mpr none_) short
      · refine ⟨[e], text, [e], rfl, cons_ne_nil _ _, .inr ?_, .other listed isZero,
          escapeSequence_other listed isZero isX _⟩
        rw [mem_singleton]
        rintro rfl
        cases listed

/-! Backslashes at the end. -/

def trailing : Nat := (text.reverse.takeWhile (· = backslash)).length

theorem trailing_append_cons (regular : c ≠ backslash) (front back : Bytes) :
    trailing (front ++ c :: back) = trailing back := by
  unfold trailing
  rw [reverse_append, reverse_cons, append_assoc, singleton_append, takeWhile_append]
  split
  · next all =>
    rw [takeWhile_cons_of_neg (by simpa using regular), append_nil, all]
  · rfl

theorem trailing_pair (back : Bytes) : trailing (backslash :: backslash :: back) % 2 = trailing back % 2 := by
  unfold trailing
  rw [reverse_cons, reverse_cons, append_assoc, takeWhile_append]
  split
  · next all =>
    rw [all]
    simp
  · rfl

theorem trailing_escape {front : Bytes} (some_ : front ≠ []) (plain : front = [backslash] ∨ backslash ∉ front)
    (back : Bytes) : trailing (backslash :: (front ++ back)) % 2 = trailing back % 2 := by
  rcases plain with rfl | absent
  · exact trailing_pair back
  · obtain ⟨init, last, rfl⟩ : ∃ init last, front = init ++ [last] :=
      ⟨front.dropLast, front.getLast some_, (dropLast_append_getLast some_).symm⟩
    have regular : last ≠ backslash := fun same => absent (by simp [same])
    rw [append_assoc, singleton_append, ← cons_append, trailing_append_cons regular]

/-- The loop ends at the terminator unless the last backslash is left alone with it. -/
theorem encodeLoop_spec {text : Bytes} (noNul : 0 ∉ text) :
    (trailing text % 2 = 0 → ∃ dst, encodeLoop (text ++ [0]) = some dst ∧ Decodes text dst) ∧
      (trailing text % 2 ≠ 0 → encodeLoop (text ++ [0]) = none) := by
  induction length : text.length using Nat.strong_induction_on generalizing text with
  | _ length_ ih =>
    cases text with
    | nil => exact ⟨fun _ => ⟨[], encodeLoop_nul [], .nil⟩, fun odd => absurd rfl odd⟩
    | cons c rest =>
      rw [mem_cons, not_or] at noNul
      rw [length_cons] at length
      by_cases isBackslash : c = backslash
      · subst isBackslash
        cases rest with
        | nil =>
          refine ⟨fun even => absurd even (by decide), fun _ => ?_⟩
          have switch : escapeSequence [0] = some ([0], 1) :=
            escapeSequence_other (by decide) (by decide) (by decide) []
          simp [encodeLoop_escape switch, encodeLoop.eq_def]
        | cons e text =>
          obtain ⟨front, back, appended, split, some_, plain, stands, switch⟩ := escapeSequence_spec e text
          have shorter : back.length < length_ := by
            have lengths := congrArg List.length split
            rw [length_append] at lengths
            omega
          have absent : 0 ∉ back := fun member => noNul.2 (split ▸ mem_append_right _ member)
          obtain ⟨even, odd⟩ := ih back.length shorter absent rfl
          have behind : (e :: text ++ [0]).drop front.length = back ++ [0] := by
            simp [split]
          rw [cons_append, encodeLoop_escape switch, behind, split, trailing_escape some_ plain]
          constructor
          · intro isEven
            obtain ⟨dst, encoded, decodes⟩ := even isEven
            exact ⟨appended ++ dst, by rw [encoded]; rfl, .cons stands decodes⟩
          · intro isOdd
            simp [odd isOdd]
      · obtain ⟨even, odd⟩ := ih rest.length (by omega) noNul.2 rfl
        have same : trailing (c :: rest) = trailing rest := trailing_append_cons isBackslash [] rest
        rw [cons_append, encodeLoop_regular (Ne.symm noNul.1) isBackslash, same]
        constructor
        · intro isEven
          obtain ⟨dst, encoded, decodes⟩ := even isEven
          exact ⟨c :: dst, by rw [encoded]; rfl, .cons (.character isBackslash) decodes⟩
        · intro isOdd
          simp [odd isOdd]

/-- Only the string is read, and only what it stands for is written, just if it ends in an even number of
backslashes.
-/
theorem encodeEscapeSequences_inside_iff {src : Bytes} (noNul : 0 ∉ src) :
    (∃ dst, encodeEscapeSequences src = some dst ∧ Decodes src dst) ↔ trailing src % 2 = 0 := by
  obtain ⟨even, odd⟩ := encodeLoop_spec noNul
  constructor
  · rintro ⟨dst, encoded, -⟩
    by_contra isOdd
    rw [encodeEscapeSequences, odd isOdd] at encoded
    cases encoded
  · exact even

theorem encodeEscapeSequences_inside_iff_pair :
    ∃ dst, encodeEscapeSequences [letterX, backslash, backslash] = some dst ∧
      Decodes [letterX, backslash, backslash] dst :=
  (encodeEscapeSequences_inside_iff (by decide)).mpr (by decide)

/-- The terminator behind a lone backslash is stepped over. -/
theorem encodeEscapeSequences_not_inside : ¬ ∃ dst, encodeEscapeSequences [backslash] = some dst ∧
    Decodes [backslash] dst := by
  rintro ⟨dst, encoded, -⟩
  rw [encodeEscapeSequences, (encodeLoop_spec (by decide)).2 (by decide)] at encoded
  cases encoded

end Lldb.Args
