import Mathlib.Data.List.Basic

/-! `Args`: a command string cut into arguments, and an argument escaped for a command string.

The runs of regular characters that the parser copies at once are copied one by one.
-/

set_option autoImplicit false

namespace Lldb.Args

open List

abbrev Bytes := List UInt8

def space : UInt8 := 0x20
def tab : UInt8 := 0x09
def backslash : UInt8 := 0x5c
def singleQuote : UInt8 := 0x27
def doubleQuote : UInt8 := 0x22
def backtick : UInt8 := 0x60
def dollar : UInt8 := 0x24

/-- `strchr`, which finds the end of the set, too. -/
def strchr (chars : Bytes) (c : UInt8) : Bool := c = 0 || chars.contains c

/-- The pair of a backslash and a character, which loses the backslash if the character can be escaped. -/
def unescaped (chars : Bytes) (c : UInt8) : Bytes := if strchr chars c then [c] else [backslash, c]

def parseDoubleQuotes (result : Bytes) : Bytes → Bytes × Bytes
  | [] => (result, [])
  | c :: quoted =>
      if c = doubleQuote then (result, c :: quoted)
      else if c = backslash then
        match quoted with
        | [] => (result ++ [backslash], [])
        | escaped :: quoted => parseDoubleQuotes (result ++ unescaped [doubleQuote, backslash] escaped) quoted
      else parseDoubleQuotes (result ++ [c]) quoted

theorem unescaped_length (chars : Bytes) (c : UInt8) : (unescaped chars c).length ≤ 2 := by
  unfold unescaped
  split_ifs <;> simp

variable (result quoted : Bytes)

/-- What is unescaped never grows. -/
theorem parseDoubleQuotes_length :
    (parseDoubleQuotes result quoted).1.length + (parseDoubleQuotes result quoted).2.length ≤
      result.length + quoted.length := by
  induction result, quoted using parseDoubleQuotes.induct with
  | case1 result => exact Nat.le_refl _
  | case2 result quoted =>
    rw [parseDoubleQuotes.eq_def]
    simp
  | case3 result other =>
    rw [parseDoubleQuotes.eq_def]
    simp [other]
  | case4 result escaped quoted other ih =>
    have short := unescaped_length [doubleQuote, backslash] escaped
    rw [parseDoubleQuotes.eq_def]
    simp only [if_neg other, if_true, length_cons, length_append] at ih ⊢
    omega
  | case5 result c quoted notQuote notBackslash ih =>
    rw [parseDoubleQuotes.eq_def]
    simp only [if_neg notQuote, if_neg notBackslash, length_cons, length_append, length_nil] at ih ⊢
    omega

theorem le_parseDoubleQuotes : result.length ≤ (parseDoubleQuotes result quoted).1.length := by
  induction result, quoted using parseDoubleQuotes.induct with
  | case1 result => exact Nat.le_refl _
  | case2 result quoted =>
    rw [parseDoubleQuotes.eq_def]
    simp
  | case3 result other =>
    rw [parseDoubleQuotes.eq_def]
    simp [other]
  | case4 result escaped quoted other ih =>
    rw [parseDoubleQuotes.eq_def]
    simp only [if_neg other, if_true, length_append] at ih ⊢
    omega
  | case5 result c quoted notQuote notBackslash ih =>
    rw [parseDoubleQuotes.eq_def]
    simp only [if_neg notQuote, if_neg notBackslash, length_append] at ih ⊢
    omega

theorem parseDoubleQuotes_rest :
    (parseDoubleQuotes result quoted).2.length ≤ quoted.length := by
  have total := parseDoubleQuotes_length result quoted
  have more := le_parseDoubleQuotes result quoted
  omega

def blank (c : UInt8) : Bool := c = space || c = tab

def ltrimForArgs (str : Bytes) : Bytes := str.dropWhile blank

def escapable : Bytes := [space, tab, backslash, singleQuote, doubleQuote, backtick]

/-- The argument, the quote character used, and the rest of the command. -/
structure Parsed where
  arg : Bytes
  firstQuoteChar : UInt8
  command : Bytes
  deriving DecidableEq, Repr

/-- The loop of `ParseSingleArgument`. -/
def parseArgument (arg : Bytes) (firstQuoteChar : UInt8) (command : Bytes) : Parsed :=
  match command with
  | [] => ⟨arg, firstQuoteChar, []⟩
  | special :: command =>
      if special = backslash then
        match command with
        | [] => ⟨arg ++ [backslash], firstQuoteChar, []⟩
        | c :: command => parseArgument (arg ++ unescaped escapable c) firstQuoteChar command
      else if blank special then ⟨arg, firstQuoteChar, command⟩
      else if special = doubleQuote then
        parseArgument (parseDoubleQuotes arg command).1 (if firstQuoteChar = 0 then special else firstQuoteChar)
          ((parseDoubleQuotes arg command).2.drop 1)
      else if special = singleQuote ∨ special = backtick then
        parseArgument (arg ++ command.takeWhile (· ≠ special))
          (if firstQuoteChar = 0 then special else firstQuoteChar)
          ((command.dropWhile (· ≠ special)).drop 1)
      else parseArgument (arg ++ [special]) firstQuoteChar command
termination_by command.length
decreasing_by
  · simp only [length_cons]
    omega
  · have := parseDoubleQuotes_rest arg command
    simp only [length_drop, length_cons]
    omega
  · have := (dropWhile_sublist (l := command) (p := fun c => decide (c ≠ special))).length_le
    simp only [length_drop, length_cons]
    omega
  · simp

theorem span_length (special : UInt8) (command : Bytes) :
    (command.takeWhile (· ≠ special)).length + (command.dropWhile (· ≠ special)).length = command.length := by
  simp [← length_append]

section

variable (arg : Bytes) (firstQuoteChar : UInt8) (command : Bytes)

def noted (special : UInt8) : UInt8 := if firstQuoteChar = 0 then special else firstQuoteChar

theorem parseArgument_nil : parseArgument arg firstQuoteChar [] = ⟨arg, firstQuoteChar, []⟩ := by
  rw [parseArgument.eq_def]

theorem parseArgument_lone :
    parseArgument arg firstQuoteChar [backslash] = ⟨arg ++ [backslash], firstQuoteChar, []⟩ := by
  rw [parseArgument.eq_def]
  rfl

theorem parseArgument_escape (c : UInt8) : parseArgument arg firstQuoteChar (backslash :: c :: command) =
    parseArgument (arg ++ unescaped escapable c) firstQuoteChar command := by
  rw [parseArgument.eq_def]
  rfl

theorem parseArgument_blank {special : UInt8} (isBlank : blank special = true) :
    parseArgument arg firstQuoteChar (special :: command) = ⟨arg, firstQuoteChar, command⟩ := by
  have other : ¬ special = backslash := by
    rintro rfl
    cases isBlank
  rw [parseArgument.eq_def]
  simp [if_neg other, if_pos isBlank]

theorem parseArgument_double : parseArgument arg firstQuoteChar (doubleQuote :: command) =
    parseArgument (parseDoubleQuotes arg command).1 (noted firstQuoteChar doubleQuote)
      ((parseDoubleQuotes arg command).2.drop 1) := by
  rw [parseArgument.eq_def]
  rfl

theorem parseArgument_quote {special : UInt8} (quote : special = singleQuote ∨ special = backtick) :
    parseArgument arg firstQuoteChar (special :: command) =
      parseArgument (arg ++ command.takeWhile (· ≠ special)) (noted firstQuoteChar special)
        ((command.dropWhile (· ≠ special)).drop 1) := by
  rw [parseArgument.eq_def]
  rcases quote with rfl | rfl <;> rfl

theorem parseArgument_regular {special : UInt8} (notBackslash : ¬ special = backslash)
    (notBlank : ¬ blank special = true) (notDouble : ¬ special = doubleQuote)
    (notQuote : ¬ (special = singleQuote ∨ special = backtick)) :
    parseArgument arg firstQuoteChar (special :: command) = parseArgument (arg ++ [special]) firstQuoteChar command := by
  rw [parseArgument.eq_def]
  simp [if_neg notBackslash, if_neg notBlank, if_neg notDouble, if_neg notQuote]

end

theorem parseArgument_length (arg : Bytes) (firstQuoteChar : UInt8) (command : Bytes) :
    (parseArgument arg firstQuoteChar command).arg.length + (parseArgument arg firstQuoteChar command).command.length ≤
      arg.length + command.length ∧
    ((parseArgument arg firstQuoteChar command).command ≠ [] ∨ singleQuote ∈ command →
      (parseArgument arg firstQuoteChar command).arg.length + (parseArgument arg firstQuoteChar command).command.length <
        arg.length + command.length) := by
  induction arg, firstQuoteChar, command using parseArgument.induct with
  | case1 arg firstQuoteChar =>
    rw [parseArgument_nil]
    exact ⟨Nat.le_refl _, by simp⟩
  | case2 arg firstQuoteChar =>
    rw [parseArgument_lone]
    refine ⟨by simp, fun strict => ?_⟩
    rcases strict with some_ | quote
    · exact absurd rfl some_
    · exact absurd quote (by decide)
  | case3 arg firstQuoteChar c command ih =>
    rw [parseArgument_escape]
    simp only [length_append, length_cons] at ih ⊢
    by_cases special : strchr escapable c = true
    · have one : (unescaped escapable c).length = 1 := by rw [unescaped, if_pos special, length_singleton]
      omega
    · have two : (unescaped escapable c).length = 2 := by rw [unescaped, if_neg special]; rfl
      refine ⟨by omega, fun strict => ?_⟩
      have tail := ih.2 (strict.imp_right fun quote => ?_)
      · omega
      · have ne : c ≠ singleQuote := by
          rintro rfl
          exact special (by decide)
        rcases mem_cons.mp quote with first | quote
        · exact absurd first (by decide)
        · exact (mem_cons.mp quote).resolve_left ne.symm
  | case4 arg firstQuoteChar special command other isBlank =>
    rw [parseArgument_blank arg firstQuoteChar command isBlank]
    simp only [length_cons]
    omega
  | case5 arg firstQuoteChar command other notBlank ih =>
    have inner := parseDoubleQuotes_length arg command
    rw [parseArgument_double]
    simp only [length_drop, length_cons, dite_eq_ite] at ih ⊢
    unfold noted
    omega
  | case6 arg firstQuoteChar special command other notBlank notDouble quote ih =>
    have inner := span_length special command
    rw [parseArgument_quote arg firstQuoteChar command quote]
    simp only [length_append, length_drop, length_cons, dite_eq_ite] at ih ⊢
    unfold noted
    omega
  | case7 arg firstQuoteChar special command notBackslash notBlank notDouble notQuote ih =>
    rw [parseArgument_regular arg firstQuoteChar command notBackslash notBlank notDouble notQuote]
    simp only [length_append, length_cons, length_nil] at ih ⊢
    refine ⟨by omega, fun strict => ?_⟩
    have tail := ih.2 (strict.imp_right fun quote => ?_)
    · omega
    · refine (mem_cons.mp quote).resolve_left fun same => notQuote (.inl same.symm)

theorem parseArgument_rest (arg : Bytes) (firstQuoteChar : UInt8) (command : Bytes) :
    (parseArgument arg firstQuoteChar command).command.length ≤ command.length - 1 := by
  induction arg, firstQuoteChar, command using parseArgument.induct with
  | case1 arg firstQuoteChar =>
    rw [parseArgument_nil]
    exact Nat.le_refl _
  | case2 arg firstQuoteChar =>
    rw [parseArgument_lone]
    exact Nat.zero_le _
  | case3 arg firstQuoteChar c command ih =>
    rw [parseArgument_escape]
    simp only [length_cons] at ih ⊢
    omega
  | case4 arg firstQuoteChar special command other isBlank =>
    rw [parseArgument_blank arg firstQuoteChar command isBlank]
    exact Nat.le_refl _
  | case5 arg firstQuoteChar command other notBlank ih =>
    have inner := parseDoubleQuotes_rest arg command
    rw [parseArgument_double]
    simp only [length_drop, length_cons, dite_eq_ite] at ih ⊢
    unfold noted
    omega
  | case6 arg firstQuoteChar special command other notBlank notDouble quote ih =>
    have inner := span_length special command
    rw [parseArgument_quote arg firstQuoteChar command quote]
    simp only [length_drop, length_cons, dite_eq_ite] at ih ⊢
    unfold noted
    omega
  | case7 arg firstQuoteChar special command notBackslash notBlank notDouble notQuote ih =>
    rw [parseArgument_regular arg firstQuoteChar command notBackslash notBlank notDouble notQuote]
    simp only [length_cons] at ih ⊢
    omega

def parseSingleArgument (command : Bytes) : Parsed := parseArgument [] 0 command

structure ArgEntry where
  ref : Bytes
  quote : UInt8
  deriving DecidableEq, Repr

/-- The loop of `SetCommandString` over a command without blanks in front. -/
def arguments (command : Bytes) : List ArgEntry :=
  match command with
  | [] => []
  | c :: rest =>
      ⟨(parseSingleArgument (c :: rest)).arg, (parseSingleArgument (c :: rest)).firstQuoteChar⟩ ::
        arguments (ltrimForArgs (parseSingleArgument (c :: rest)).command)
termination_by command.length
decreasing_by
  have less := parseArgument_rest [] 0 (c :: rest)
  have trimmed := (dropWhile_sublist (l := (parseSingleArgument (c :: rest)).command) (p := blank)).length_le
  simp only [length_cons, ltrimForArgs, parseSingleArgument] at less trimmed ⊢
  omega

def setCommandString (command : Bytes) : List ArgEntry := arguments (ltrimForArgs command)

/-- The characters that are escaped for a quote character; of another one nothing is known. -/
def charsToEscape (quoteChar : UInt8) : Option Bytes :=
  if quoteChar = 0 then some escapable
  else if quoteChar = singleQuote then some []
  else if quoteChar = doubleQuote then some [dollar, doubleQuote, backtick, backslash]
  else none

def escapeLLDBCommandArgument (arg : Bytes) (quoteChar : UInt8) : Option Bytes :=
  (charsToEscape quoteChar).map fun chars => arg.flatMap fun c => if strchr chars c then [backslash, c] else [c]

end Lldb.Args
