import Lldb.Utility.EscapeSequences
import Mathlib.Tactic.Ring

/-! `Args::ExpandEscapedCharacters`, and what `EncodeEscapeSequences` makes of its result.

Whether `char` is signed is up to the host.
-/

set_option autoImplicit false

namespace Lldb.Args

open List Option

def isprint (c : UInt8) : Bool := 0x20 ≤ c && c ≤ 0x7e

/-- The octal digits of a number, `count` at most. -/
def octalChars : Nat → Nat → Bytes
  | 0, _ => []
  | count + 1, value => (if value < 8 then [] else octalChars count (value / 8)) ++ [UInt8.ofNat (0x30 + value % 8)]

def high (signedChar : Bool) (c : UInt8) : Bool := signedChar && 0x80 ≤ c

/-- `%o`, for a character that was made an `int`. -/
def octalStr (signedChar : Bool) (c : UInt8) : Bytes :=
  octalChars 11 (if high signedChar c then 2 ^ 32 - 2 ^ 8 + c.toNat else c.toNat)

def expandCharacter (signedChar : Bool) (c : UInt8) : Bytes :=
  if isprint c then [c]
  else
    match namedEscapes.find? (·.2 = c) with
    | some (letter, _) => [backslash, letter]
    | none => backslash :: zero :: octalStr signedChar c

def expandEscapedCharacters (signedChar : Bool) (src : Bytes) : Bytes := src.flatMap (expandCharacter signedChar)

def shortCode (c : UInt8) : Bool := !isprint c && (namedEscapes.find? (·.2 = c)).isNone && c < 0x40

/-- No backslash, no number with a sign, and no digit behind a code that has room for it. -/
def Faithful (signedChar : Bool) : Bytes → Prop
  | [] => True
  | c :: rest =>
      c ≠ backslash ∧ high signedChar c = false ∧ (shortCode c = true → rest.head?.any octalDigit = false) ∧
        Faithful signedChar rest

instance (signedChar : Bool) (src : Bytes) : Decidable (Faithful signedChar src) := by
  induction src with
  | nil => exact isTrue trivial
  | cons c rest ih => exact instDecidableAnd

/-! Single characters. -/

theorem forall_char {P : UInt8 → Prop} (all : ∀ index : Fin 256, P (UInt8.ofFin index)) (c : UInt8) : P c := all c.toFin

theorem named_letter (c : UInt8) : ∀ entry, namedEscapes.find? (·.2 = c) = some entry → isprint c = false →
    namedEscapes.lookup entry.1 = some c ∧ isprint entry.1 = true ∧ entry.1 ≠ backslash ∧ c ≠ backslash ∧ c < 0x40 := by
  intro entry found
  have listed := mem_of_find?_eq_some found
  have same := find?_some found
  simp only [decide_eq_true_eq] at same
  subst same
  simp only [namedEscapes, mem_cons, not_mem_nil, or_false] at listed
  rcases listed with rfl | rfl | rfl | rfl | rfl | rfl | rfl | rfl | rfl | rfl <;> decide

theorem octalStr_plain : ∀ c : UInt8, (octalStr false c).length = (if c < 8 then 1 else if c < 0x40 then 2 else 3) ∧
    (octalStr false c).all octalDigit = true ∧ octalValue (zero :: octalStr false c) = c.toNat := by
  apply forall_char
  decide +kernel

theorem octalStr_high : ∀ c : UInt8, high true c = true →
    (octalStr true c).take 3 = [0x33, 0x37, 0x37] ∧ ((octalStr true c).drop 3).all octalDigit = true ∧
      ((octalStr true c).drop 3).length = 8 := by
  apply forall_char
  decide +kernel

theorem octalDigit_front : ∀ digit ∈ ([0x33, 0x37, 0x37] : Bytes), octalDigit digit = true := all_eq_true.mp rfl

variable {c : UInt8}

theorem octalStr_of_not_high {signedChar : Bool} (notHigh : high signedChar c = false) :
    octalStr signedChar c = octalStr false c := by
  unfold octalStr
  rw [notHigh]
  rfl

theorem isprint_of_octal (isOctal : octalDigit c = true) : isprint c = true := by
  unfold octalDigit at isOctal
  unfold isprint
  rw [Bool.and_eq_true, decide_eq_true_eq, decide_eq_true_eq, UInt8.le_iff_toNat_le, UInt8.le_iff_toNat_le] at isOctal ⊢
  exact ⟨le_trans (by decide) isOctal.1, le_trans isOctal.2 (by decide)⟩

theorem not_high_of_isprint (signedChar : Bool) (printable : isprint c = true) : high signedChar c = false := by
  unfold isprint at printable
  unfold high
  rw [Bool.and_eq_true, decide_eq_true_eq, decide_eq_true_eq, UInt8.le_iff_toNat_le, UInt8.le_iff_toNat_le] at printable
  rw [Bool.and_eq_false_iff, decide_eq_false_iff_not]
  exact .inr fun large => absurd (le_trans large printable.2) (by decide)

theorem nonzero_of_isprint (printable : isprint c = true) : c ≠ 0 := by
  rintro rfl
  cases printable

theorem octalRun_append {front : Bytes} (octal : ∀ c ∈ front, octalDigit c = true) (count : Nat) (back : Bytes) :
    octalRun (front.length + count) (front ++ back) = front ++ octalRun count back := by
  induction front with
  | nil => rw [length_nil, zero_add, nil_append, nil_append]
  | cons c front ih =>
    rw [forall_mem_cons] at octal
    simp [add_right_comm, octalRun, if_pos octal.1, ih octal.2]

theorem octalRun_eq_nil {count : Nat} {text : Bytes} (ends : text.head?.any octalDigit = false) :
    octalRun count text = [] := by
  cases count with
  | zero => rfl
  | succ count =>
    cases text with
    | nil => rfl
    | cons c text =>
      rw [head?_cons, any_some] at ends
      rw [octalRun, if_neg (by rw [ends]; exact Bool.false_ne_true)]

section

variable (signedChar : Bool)

theorem expand_cons (c : UInt8) (src : Bytes) : expandEscapedCharacters signedChar (c :: src) =
    expandCharacter signedChar c ++ expandEscapedCharacters signedChar src := flatMap_cons

theorem expandCharacter_isprint {c : UInt8} (printable : isprint c = true) : expandCharacter signedChar c = [c] :=
  if_pos printable

theorem expandCharacter_not_isprint {c : UInt8} (notPrintable : isprint c = false) :
    ∃ plain, expandCharacter signedChar c = backslash :: plain ∧
      ∀ other ∈ plain, isprint other = true ∧ other ≠ backslash := by
  unfold expandCharacter
  rw [if_neg (by rw [notPrintable]; exact Bool.false_ne_true)]
  cases found : namedEscapes.find? (·.2 = c) with
  | some entry =>
    obtain ⟨-, printable, regular, -⟩ := named_letter c entry found notPrintable
    refine ⟨[entry.1], rfl, ?_⟩
    rw [forall_mem_singleton]
    exact ⟨printable, regular⟩
  | none =>
    refine ⟨zero :: octalStr signedChar c, rfl, ?_⟩
    have octal : ∀ other ∈ octalStr signedChar c, octalDigit other = true := by
      cases isHigh : high signedChar c with
      | false =>
        rw [octalStr_of_not_high isHigh]
        exact all_eq_true.mp (octalStr_plain c).2.1
      | true =>
        obtain rfl : signedChar = true := (Bool.and_eq_true_iff.mp isHigh).1
        obtain ⟨front, back, -⟩ := octalStr_high c isHigh
        rw [← take_append_drop 3 (octalStr true c), front]
        intro other member
        rcases mem_append.mp member with first | later
        · exact octalDigit_front other first
        · exact all_eq_true.mp back other later
    rw [forall_mem_cons]
    refine ⟨by decide, fun other member => ?_⟩
    exact ⟨isprint_of_octal (octal other member), not_backslash_of_octal (octal other member)⟩

theorem encode_regular {c : UInt8} (some_ : c ≠ 0) (regular : c ≠ backslash) (text : Bytes) :
    encodeEscapeSequences (c :: text) = (encodeEscapeSequences text).map (c :: ·) :=
  encodeLoop_regular some_ regular _

theorem encode_plain {plain : Bytes} (regular : ∀ c ∈ plain, isprint c = true ∧ c ≠ backslash) (text : Bytes) :
    encodeEscapeSequences (plain ++ text) = (encodeEscapeSequences text).map (plain ++ ·) := by
  induction plain with
  | nil => simp
  | cons c plain ih =>
    rw [forall_mem_cons] at regular
    rw [cons_append, encode_regular (nonzero_of_isprint regular.1.1) regular.1.2, ih regular.2, Option.map_map]
    rfl

/-- What stands in front of an expanded string without a backslash stands in front of the string. -/
theorem expand_split {src front back : Bytes} (regular : backslash ∉ front)
    (split : expandEscapedCharacters signedChar src = front ++ back) :
    ∃ rest, src = front ++ rest ∧ back = expandEscapedCharacters signedChar rest ∧ ∀ c ∈ front, isprint c = true := by
  induction front generalizing src with
  | nil => exact ⟨src, rfl, split.symm, nofun⟩
  | cons d front ih =>
    rw [mem_cons, not_or] at regular
    cases src with
    | nil => cases split
    | cons c src =>
      cases printable : isprint c with
      | true =>
        rw [expand_cons, expandCharacter_isprint signedChar printable, cons_append,
          cons_append, List.cons.injEq] at split
        obtain ⟨rest, rfl, behind, others⟩ := ih regular.2 split.2
        refine ⟨rest, by rw [split.1]; rfl, behind, ?_⟩
        rw [forall_mem_cons]
        exact ⟨split.1 ▸ printable, others⟩
      | false =>
        obtain ⟨plain, expanded, -⟩ := expandCharacter_not_isprint signedChar printable
        rw [expand_cons, expanded, cons_append, cons_append, List.cons.injEq] at split
        exact absurd split.1 regular.1

theorem octalRun_expand (count : Nat) (src : Bytes) :
    octalRun count (expandEscapedCharacters signedChar src) = octalRun count src := by
  induction count generalizing src with
  | zero => rfl
  | succ count ih =>
    cases src with
    | nil => rfl
    | cons c src =>
      cases printable : isprint c with
      | true =>
        simp [expand_cons, expandCharacter_isprint signedChar printable, octalRun, ih]
      | false =>
        obtain ⟨plain, expanded, -⟩ := expandCharacter_not_isprint signedChar printable
        have notOctal : ¬ octalDigit c = true := fun isOctal => by
          rw [isprint_of_octal isOctal] at printable
          cases printable
        rw [expand_cons, expanded, cons_append, octalRun, if_neg (by decide), octalRun, if_neg notOctal]

end

/-! One turn: the next characters of a string, which are expanded and encoded again. -/

section

variable (signedChar : Bool)

def comesBackAs (src : Bytes) : Option Bytes := encodeEscapeSequences (expandEscapedCharacters signedChar src)

theorem comesBackAs_nil : comesBackAs signedChar [] = some [] := encodeLoop_nul []

variable {c : UInt8} {src : Bytes}

theorem comesBackAs_coded (notPrintable : isprint c = false)
    (unnamed : namedEscapes.find? (·.2 = c) = none) (notHigh : high signedChar c = false) (rest : Bytes) :
    ∃ back, rest = octalRun (3 - (octalStr false c).length) rest ++ back ∧
      comesBackAs signedChar (c :: rest) = (comesBackAs signedChar back).map
        ((if octalValue (zero :: (octalStr false c ++ octalRun (3 - (octalStr false c).length) rest)) ≤ 255 then
          [UInt8.ofNat (octalValue (zero :: (octalStr false c ++ octalRun (3 - (octalStr false c).length) rest)))]
        else []) ++ ·) := by
  obtain ⟨length, octal, -⟩ := octalStr_plain c
  have short : (octalStr false c).length ≤ 3 := by
    rw [length]
    split_ifs <;> decide
  have run := octalRun_append (all_eq_true.mp octal) (3 - (octalStr false c).length)
    (expandEscapedCharacters signedChar rest)
  have switch := escapeSequence_octal (octalStr false c ++ expandEscapedCharacters signedChar rest)
  rw [Nat.add_sub_cancel' short, octalRun_expand] at run
  obtain ⟨expanded, split⟩ := octalRun_prefix (3 - (octalStr false c).length) (expandEscapedCharacters signedChar rest)
  rw [octalRun_expand] at split
  have regular : backslash ∉ octalRun (3 - (octalStr false c).length) rest := fun member =>
    not_backslash_of_octal (octalRun_octal _ _ _ member) rfl
  obtain ⟨back, rest_, rfl, -⟩ := expand_split signedChar regular split.symm
  refine ⟨back, rest_, ?_⟩
  rw [run, ← split] at switch
  unfold comesBackAs
  rw [expand_cons, expandCharacter, if_neg (by rw [notPrintable]; exact Bool.false_ne_true), unnamed,
    octalStr_of_not_high notHigh, ← split, cons_append, cons_append, encodeEscapeSequences, cons_append,
    encodeLoop_escape switch]
  rw [cons_append, drop_succ_cons, ← append_assoc, append_assoc, drop_left]
  rfl

theorem comesBackAs_kept {rest : Bytes} (some_ : c ≠ 0) (regular : c ≠ backslash)
    (notHigh : high signedChar c = false) (apart : shortCode c = true → rest.head?.any octalDigit = false) :
    comesBackAs signedChar (c :: rest) = (comesBackAs signedChar rest).map (c :: ·) := by
  cases printable : isprint c with
  | true =>
    unfold comesBackAs
    simp [expand_cons, expandCharacter_isprint signedChar printable, encode_regular some_ regular]
  | false =>
    cases found : namedEscapes.find? (·.2 = c) with
    | some entry =>
      obtain ⟨listed, -⟩ := named_letter c entry found printable
      have switch := escapeSequence_named listed (expandEscapedCharacters signedChar rest ++ [0])
      unfold comesBackAs
      rw [expand_cons, expandCharacter, if_neg (by rw [printable]; exact Bool.false_ne_true), found]
      exact encodeLoop_escape switch
    | none =>
      obtain ⟨length, -, value⟩ := octalStr_plain c
      have none_ : octalRun (3 - (octalStr false c).length) rest = [] := by
        by_cases isShort : c < 0x40
        · apply octalRun_eq_nil
          apply apart
          unfold shortCode
          simp [printable, found, decide_eq_true isShort]
        · have notTiny : ¬ c < 8 := by
            exact fun tiny => isShort (lt_trans tiny (show (8 : UInt8).toNat < (0x40 : UInt8).toNat by decide))
          rw [length, if_neg notTiny, if_neg isShort, octalRun]
      obtain ⟨back, split, comes⟩ := comesBackAs_coded signedChar printable found notHigh rest
      rw [none_, nil_append] at split
      have small : c.toNat ≤ 255 := Nat.le_of_lt_succ c.toNat_lt
      rw [none_, append_nil, value, if_pos small, UInt8.ofNat_toNat, ← split] at comes
      exact comes

theorem comesBackAs_high (isHigh : high signedChar c = true) (rest : Bytes) : comesBackAs signedChar (c :: rest) =
      (comesBackAs signedChar rest).map (0xff :: (octalStr true c).drop 3 ++ ·) := by
  obtain rfl : signedChar = true := (Bool.and_eq_true_iff.mp isHigh).1
  obtain ⟨front, back, -⟩ := octalStr_high c isHigh
  have notPrintable : isprint c = false := by
    cases printable : isprint c with
    | true => exact absurd (not_high_of_isprint true printable) (by rw [isHigh]; decide)
    | false => rfl
  have unnamed : namedEscapes.find? (·.2 = c) = none := by
    cases found : namedEscapes.find? (·.2 = c) with
    | none => rfl
    | some entry =>
      obtain ⟨-, -, -, -, small⟩ := named_letter c entry found notPrintable
      have large := of_decide_eq_true (Bool.and_eq_true_iff.mp isHigh).2
      exact absurd (Nat.lt_of_le_of_lt large small) (by decide)
  have expanded : expandCharacter true c = backslash :: zero :: ([0x33, 0x37, 0x37] ++ (octalStr true c).drop 3) := by
    unfold expandCharacter
    rw [if_neg (by rw [notPrintable]; exact Bool.false_ne_true), unnamed, ← front, take_append_drop]
  have switch := escapeSequence_octal
    ([0x33, 0x37, 0x37] ++ ((octalStr true c).drop 3 ++ expandEscapedCharacters true rest))
  have plain : ∀ digit ∈ (octalStr true c).drop 3, isprint digit = true ∧ digit ≠ backslash := fun digit member =>
    have octal := all_eq_true.mp back digit member
    ⟨isprint_of_octal octal, not_backslash_of_octal octal⟩
  have behind := encode_plain plain (expandEscapedCharacters true rest)
  unfold comesBackAs
  rw [expand_cons, expanded, cons_append, cons_append, append_assoc, encodeEscapeSequences,
    cons_append, encodeLoop_escape switch]
  change ((encodeEscapeSequences ((octalStr true c).drop 3 ++ expandEscapedCharacters true rest)).map _) = _
  rw [behind, Option.map_map]
  rfl

theorem stands_length {text value : Bytes} (stands : Stands text value) : value.length ≤ 1 := by
  cases stands with
  | octal =>
    split
    · exact le_refl 1
    · exact Nat.zero_le 1
  | _ => exact le_refl 1

/-- A backslash and the printable characters that are taken with it give one character at most. -/
theorem comesBackAs_escape {e : UInt8} (printable : isprint e = true) (src : Bytes) :
    ∃ front back out, e :: src = front ++ back ∧ front ≠ [] ∧ out.length ≤ 1 ∧ (∀ c ∈ front, isprint c = true) ∧
      comesBackAs signedChar (backslash :: e :: src) = (comesBackAs signedChar back).map (out ++ ·) := by
  have expanded : expandEscapedCharacters signedChar (e :: src) = e :: expandEscapedCharacters signedChar src := by
    simp [expand_cons, expandCharacter_isprint signedChar printable]
  obtain ⟨front, behind, out, split, some_, plain, stands, switch⟩ :=
    escapeSequence_spec e (expandEscapedCharacters signedChar src)
  have rests : ∃ back, e :: src = front ++ back ∧ behind = expandEscapedCharacters signedChar back ∧
      ∀ c ∈ front, isprint c = true := by
    rcases plain with rfl | regular
    · rw [singleton_append, List.cons.injEq] at split
      refine ⟨src, by rw [split.1]; rfl, split.2.symm, ?_⟩
      rw [forall_mem_singleton]
      exact split.1 ▸ printable
    · rw [← expanded] at split
      exact expand_split signedChar regular split
  obtain ⟨back, source, rfl, printables⟩ := rests
  refine ⟨front, back, out, source, some_, stands_length stands, printables, ?_⟩
  unfold comesBackAs
  rw [expand_cons, expandCharacter_isprint signedChar (show isprint backslash = true by decide), expanded,
    singleton_append, encodeEscapeSequences, cons_append, encodeLoop_escape switch, split, append_assoc,
    drop_left]
  rfl

/-- A backslash takes the one from the code of the next character; the rest of the code is left as text. -/
theorem comesBackAs_swallowed {e : UInt8} (notPrintable : isprint e = false) (src : Bytes) :
    ∃ plain, (∀ c ∈ plain, isprint c = true ∧ c ≠ backslash) ∧
      comesBackAs signedChar (backslash :: e :: src) = (comesBackAs signedChar src).map (backslash :: plain ++ ·) := by
  obtain ⟨plain, expanded, regular⟩ := expandCharacter_not_isprint signedChar notPrintable
  refine ⟨plain, regular, ?_⟩
  have listed : namedEscapes.lookup backslash = some backslash := by decide
  have switch := escapeSequence_named listed (plain ++ expandEscapedCharacters signedChar src ++ [0])
  unfold comesBackAs
  rw [expand_cons, expandCharacter_isprint signedChar (show isprint backslash = true by decide), expand_cons, expanded,
    singleton_append, encodeEscapeSequences, cons_append, cons_append, cons_append,
    encodeLoop_escape switch]
  change (encodeEscapeSequences (plain ++ _)).map _ = _
  rw [encode_plain regular, Option.map_map]
  rfl

theorem comesBackAs_lone : comesBackAs signedChar [backslash] = none := by
  change encodeLoop ([backslash] ++ [0]) = none
  exact (encodeLoop_spec (by decide)).2 (by decide)

/-- The characters that are not printed as they are, or not read as they are. -/
def heavy (c : UInt8) : Bool := c = backslash || !isprint c

/-- What is taken from the front of a string, what follows, and what is written. -/
inductive Turn (signedChar : Bool) : Bytes → Bytes → Bytes → Prop where
  | kept {c : UInt8} {back : Bytes} : c ≠ backslash → high signedChar c = false →
      (shortCode c = true → back.head?.any octalDigit = false) → Turn signedChar [c] back [c]
  | signed {c : UInt8} {back : Bytes} : high signedChar c = true →
      Turn signedChar [c] back (0xff :: (octalStr true c).drop 3)
  | lost {taken back out : Bytes} : out.countP heavy < taken.countP heavy → Turn signedChar taken back out
  | shortened {taken back out : Bytes} : out.countP heavy ≤ taken.countP heavy → out.length < taken.length →
      (∀ c ∈ taken, high signedChar c = false) → Turn signedChar taken back out

theorem countP_plain {plain : Bytes} (regular : ∀ c ∈ plain, isprint c = true ∧ c ≠ backslash) :
    plain.countP heavy = 0 := by
  rw [countP_eq_zero]
  intro c member
  simp [heavy, regular c member]

theorem heavy_of_high (isHigh : high signedChar c = true) : heavy c = true := by
  unfold heavy
  cases printable : isprint c with
  | true => exact absurd (not_high_of_isprint signedChar printable) (by rw [isHigh]; decide)
  | false => simp

theorem turn_backslash (rest : Bytes) : comesBackAs signedChar (backslash :: rest) = none ∨
    ∃ taken back out, backslash :: rest = taken ++ back ∧ taken ≠ [] ∧ Turn signedChar taken back out ∧
      comesBackAs signedChar (backslash :: rest) = (comesBackAs signedChar back).map (out ++ ·) := by
  cases rest with
  | nil => exact .inl (comesBackAs_lone signedChar)
  | cons e src =>
    right
    have first : heavy backslash = true := by decide
    cases printable : isprint e with
    | true =>
      obtain ⟨front, back, out, split, some_, short, printables, comes⟩ := comesBackAs_escape signedChar printable src
      refine ⟨backslash :: front, back, out, by rw [split]; rfl, cons_ne_nil _ _, .shortened ?_ ?_ ?_, comes⟩
      · have few := countP_le_length (p := heavy) (l := out)
        rw [countP_cons_of_pos first]
        omega
      · have more := length_pos_iff.mpr some_
        rw [length_cons]
        omega
      · rw [forall_mem_cons]
        exact ⟨not_high_of_isprint signedChar (by decide), fun c member =>
          not_high_of_isprint signedChar (printables c member)⟩
    | false =>
      obtain ⟨plain, regular, comes⟩ := comesBackAs_swallowed signedChar printable src
      refine ⟨[backslash, e], src, backslash :: plain, rfl, cons_ne_nil _ _, .lost ?_, comes⟩
      have second : heavy e = true := by simp [heavy, printable]
      rw [countP_cons_of_pos first, countP_cons_of_pos first, countP_cons_of_pos second,
        countP_plain regular]
      decide

theorem turn_cases (some_ : c ≠ 0) (rest : Bytes) : comesBackAs signedChar (c :: rest) = none ∨
    ∃ taken back out, c :: rest = taken ++ back ∧ taken ≠ [] ∧ Turn signedChar taken back out ∧
      comesBackAs signedChar (c :: rest) = (comesBackAs signedChar back).map (out ++ ·) := by
  by_cases isBackslash : c = backslash
  · subst isBackslash
    exact turn_backslash signedChar rest
  · right
    cases isHigh : high signedChar c with
    | true => exact ⟨[c], rest, _, rfl, cons_ne_nil _ _, .signed isHigh, comesBackAs_high signedChar isHigh rest⟩
    | false =>
      by_cases apart : shortCode c = true → rest.head?.any octalDigit = false
      · exact ⟨[c], rest, [c], rfl, cons_ne_nil _ _, .kept isBackslash isHigh apart,
          comesBackAs_kept signedChar some_ isBackslash isHigh apart⟩
      · -- A digit is taken along.
        rw [Classical.not_imp, Bool.not_eq_false] at apart
        obtain ⟨short, digit⟩ := apart
        have parts := short
        unfold shortCode at parts
        rw [Bool.and_eq_true, Bool.and_eq_true, Bool.not_eq_true', isNone_iff_eq_none,
          decide_eq_true_eq] at parts
        obtain ⟨⟨notPrintable, unnamed⟩, small⟩ := parts
        obtain ⟨back, split, comes⟩ := comesBackAs_coded signedChar notPrintable unnamed isHigh rest
        have room : ∃ count, 3 - (octalStr false c).length = count + 1 := by
          rw [(octalStr_plain c).1]
          split_ifs
          · exact ⟨1, rfl⟩
          · exact ⟨0, rfl⟩
        obtain ⟨count, counted⟩ := room
        cases rest with
        | nil => cases digit
        | cons d rest =>
          rw [head?_cons, any_some] at digit
          rw [counted, octalRun, if_pos digit] at split comes
          refine ⟨c :: d :: octalRun count rest, back, _, by rw [split]; rfl, cons_ne_nil _ _,
            .shortened ?_ ?_ ?_, comes⟩
          · have first : heavy c = true := by simp [heavy, notPrintable]
            rw [countP_cons_of_pos first]
            refine le_trans countP_le_length (le_trans ?_ (Nat.le_add_left 1 _))
            split_ifs
            · exact le_refl 1
            · exact Nat.zero_le 1
          · rw [length_cons, length_cons]
            split_ifs
            · exact Nat.succ_lt_succ (Nat.succ_pos _)
            · exact Nat.succ_pos _
          · rw [forall_mem_cons, forall_mem_cons]
            refine ⟨isHigh, not_high_of_isprint signedChar (isprint_of_octal digit), fun other member => ?_⟩
            exact not_high_of_isprint signedChar (isprint_of_octal (octalRun_octal _ _ other member))

/-- What is written weighs no more than the string. If it weighs the same then up to the first number with
a sign less is written, or just what stands there.
-/
theorem weighs {out : Bytes} (noNul : 0 ∉ src) (comes : comesBackAs signedChar src = some out) :
    out.countP heavy ≤ src.countP heavy ∧ (out.countP heavy = src.countP heavy →
      ∃ front back written rest, src = front ++ back ∧ out = written ++ rest ∧ comesBackAs signedChar back = some rest ∧
        (∀ c ∈ front, high signedChar c = false) ∧ (back = [] ∨ back.head?.any (high signedChar) = true) ∧
        (written.length < front.length ∨ written = front ∧ (back = [] → Faithful signedChar front))) := by
  induction length : src.length using Nat.strong_induction_on generalizing src out with
  | _ length_ ih =>
    cases src with
    | nil =>
      rw [comesBackAs_nil, Option.some.injEq] at comes
      subst comes
      exact ⟨le_refl _, fun _ => ⟨[], [], [], [], rfl, rfl, comesBackAs_nil signedChar, nofun, .inl rfl,
        .inr ⟨rfl, fun _ => trivial⟩⟩⟩
    | cons c src =>
      have firstSome : c ≠ 0 := fun same => noNul (same ▸ mem_cons_self)
      rcases turn_cases signedChar firstSome src with none_ | ⟨taken, next, read, split, some_, turn, later⟩
      · rw [none_] at comes
        cases comes
      · rw [later, map_eq_some_iff] at comes
        obtain ⟨after, comes, rfl⟩ := comes
        have shorter : next.length < length_ := by
          have lengths := congrArg List.length split
          have more := length_pos_iff.mpr some_
          rw [length_append] at lengths
          omega
        have absent : 0 ∉ next := fun member => noNul (split ▸ mem_append_right _ member)
        obtain ⟨lighter, same⟩ := ih next.length shorter absent comes rfl
        rw [split, countP_append, countP_append]
        cases turn with
        | kept regular notHigh apart =>
          refine ⟨Nat.add_le_add_left lighter _, fun equal => ?_⟩
          obtain ⟨front, back, written, rest, rfl, rfl, behind, low, stops, fits⟩ := same (by omega)
          refine ⟨_ :: front, back, _ :: written, rest, rfl, rfl, behind, ?_, stops, ?_⟩
          · rw [forall_mem_cons]
            exact ⟨notHigh, low⟩
          · rcases fits with less | ⟨rfl, faithful⟩
            · exact .inl (Nat.succ_lt_succ less)
            · refine .inr ⟨rfl, ?_⟩
              rintro rfl
              rw [append_nil] at apart
              exact ⟨regular, notHigh, apart, faithful rfl⟩
        | signed isHigh =>
          obtain rfl : signedChar = true := (Bool.and_eq_true_iff.mp isHigh).1
          obtain ⟨-, digits, -⟩ := octalStr_high _ isHigh
          have plain := countP_plain fun digit member =>
            ⟨isprint_of_octal (all_eq_true.mp digits digit member),
              not_backslash_of_octal (all_eq_true.mp digits digit member)⟩
          have weight := heavy_of_high true isHigh
          rw [countP_cons_of_pos (show heavy 0xff = true by decide), plain, countP_cons_of_pos weight]
          have here : comesBackAs true _ = some _ := split ▸ later.trans (congrArg _ comes)
          refine ⟨Nat.add_le_add_left lighter _, fun _ =>
            ⟨[], _, [], _, rfl, rfl, here, nofun, .inr isHigh, .inr ⟨rfl, ?_⟩⟩⟩
          exact fun none_ => absurd none_ (cons_ne_nil _ _)
        | lost light => exact ⟨by omega, fun equal => by omega⟩
        | shortened light short low =>
          refine ⟨by omega, fun equal => ?_⟩
          obtain ⟨front, back, written, rest, rfl, rfl, behind, lows, stops, fits⟩ := same (by omega)
          refine ⟨taken ++ front, back, read ++ written, rest, (append_assoc _ _ _).symm,
            (append_assoc _ _ _).symm, behind, ?_, stops, .inl ?_⟩
          · exact forall_mem_append.mpr ⟨low, lows⟩
          · rw [length_append, length_append]
            rcases fits with less | ⟨rfl, -⟩
            · omega
            · omega

/-- Digits are never ahead of themselves. -/
theorem sevens_ahead {count : Nat} (some_ : 0 < count) {out : Bytes} (comes : comesBackAs signedChar src = some out) :
    src ≠ replicate count 0x37 ++ out := by
  induction src generalizing out with
  | nil =>
    intro same
    have lengths := congrArg List.length same
    rw [length_append, length_replicate, length_nil] at lengths
    omega
  | cons c src ih =>
    intro same
    obtain ⟨less, rfl⟩ := Nat.exists_eq_succ_of_ne_zero some_.ne'
    rw [replicate_succ, cons_append] at same
    obtain ⟨rfl, rfl⟩ := same
    have seven : comesBackAs signedChar (0x37 :: (replicate less 0x37 ++ out)) =
        (comesBackAs signedChar (replicate less 0x37 ++ out)).map (0x37 :: ·) :=
      comesBackAs_kept signedChar (by decide) (by decide) (not_high_of_isprint signedChar (by decide))
        fun short => absurd short (by decide)
    rw [seven, map_eq_some_iff] at comes
    obtain ⟨after, comes, rfl⟩ := comes
    refine ih comes ?_
    simp [replicate_succ']

theorem comesBackAs_of_faithful (noNul : 0 ∉ src) (faithful : Faithful signedChar src) :
    comesBackAs signedChar src = some src := by
  induction src with
  | nil => exact comesBackAs_nil signedChar
  | cons c src ih =>
    rw [mem_cons, not_or] at noNul
    obtain ⟨regular, notHigh, apart, rest⟩ := faithful
    rw [comesBackAs_kept signedChar (Ne.symm noNul.1) regular notHigh apart, ih noNul.2 rest]
    rfl

theorem faithful_of_comesBack (noNul : 0 ∉ src) (comes : comesBackAs signedChar src = some src) :
    Faithful signedChar src := by
  obtain ⟨front, back, written, rest, split, same, behind, low, stops, fits⟩ := (weighs signedChar noNul comes).2 rfl
  rcases stops with rfl | number
  · rw [comesBackAs_nil, Option.some.injEq] at behind
    subst behind
    rw [append_nil] at split same
    obtain rfl := split.symm.trans same
    rcases fits with less | ⟨-, faithful⟩
    · exact absurd less (lt_irrefl _)
    · rw [split]
      exact faithful rfl
  · cases back with
    | nil => cases number
    | cons c back =>
      rw [head?_cons, any_some] at number
      obtain rfl : signedChar = true := (Bool.and_eq_true_iff.mp number).1
      rw [comesBackAs_high true number, map_eq_some_iff] at behind
      obtain ⟨after, comes, rfl⟩ := behind
      rcases fits with less | ⟨rfl, -⟩
      · -- What was written in place of the number stands before it.
        have early : front[written.length]? = some 0xff := by
          have here := congrArg (fun text => text[written.length]?) (split.symm.trans same)
          simp only [cons_append] at here
          rwa [getElem?_append_left less, getElem?_append_right (Nat.le_refl _), Nat.sub_self,
            getElem?_cons_zero] at here
        have notHigh := low _ (mem_of_getElem? early)
        cases notHigh
      · have here := append_cancel_left (split.symm.trans same)
        rw [cons_append, List.cons.injEq] at here
        obtain ⟨rfl, digits⟩ := here
        exact absurd digits (sevens_ahead true (by decide : 0 < 8) comes)

/-- What is expanded and encoded comes back just if there is no backslash in it, no character that is taken for
a negative number, and no octal digit behind a character whose code has room for one.
-/
theorem encode_expand_iff {src : Bytes} (noNul : 0 ∉ src) :
    encodeEscapeSequences (expandEscapedCharacters signedChar src) = some src ↔ Faithful signedChar src := by
  constructor
  · exact faithful_of_comesBack signedChar noNul
  · exact comesBackAs_of_faithful signedChar noNul

/-- A newline, a letter and a character with a code. -/
theorem encode_expand_iff_newline :
    encodeEscapeSequences (expandEscapedCharacters true [0x0a, letterX, 0x01]) = some [0x0a, letterX, 0x01] :=
  (encode_expand_iff true (by decide)).mpr (by decide)

/-- A backslash and a letter come back as a newline. -/
theorem encode_expand_not_same : ¬ ∀ src : Bytes, 0 ∉ src →
    encodeEscapeSequences (expandEscapedCharacters true src) = some src := by
  intro claim
  have same := faithful_of_comesBack true (by decide) (claim [backslash, 0x6e] (by decide))
  exact absurd same (by decide)

end

end Lldb.Args
