import Lldb.Utility.Args
import Mathlib.Data.List.DropRight

/-! The parser looks no further than the blank behind an argument: a command cut behind it is parsed
the same way up to there.
-/

set_option autoImplicit false

namespace Lldb.Args

open List

theorem span_at {special : UInt8} {front : Bytes} (rest : Bytes) (absent : special ∉ front) :
    (front ++ special :: rest).takeWhile (· ≠ special) = front ∧
      (front ++ special :: rest).dropWhile (· ≠ special) = special :: rest := by
  have all : ∀ c ∈ front, decide (c ≠ special) = true :=
    fun c member => decide_eq_true fun same => absent (same ▸ member)
  rw [takeWhile_append_of_pos all, dropWhile_append_of_pos all]
  simp

theorem span_cases (special : UInt8) (command : Bytes) : command.dropWhile (· ≠ special) = [] ∨
      ∃ front rest, command = front ++ special :: rest ∧ special ∉ front := by
  by_cases member : special ∈ command
  · obtain ⟨front, rest, split, absent⟩ := eq_append_cons_of_mem member
    exact .inr ⟨front, rest, split, absent⟩
  · left
    rw [dropWhile_eq_nil_iff]
    intro c inside
    exact decide_eq_true fun same => member (same ▸ inside)

theorem parseDoubleQuotes_lone (result : Bytes) :
    parseDoubleQuotes result [backslash] = (result ++ [backslash], []) := by
  rfl

variable (result quoted : Bytes)

theorem parseDoubleQuotes_escape (c : UInt8) :
    parseDoubleQuotes result (backslash :: c :: quoted) =
      parseDoubleQuotes (result ++ unescaped [doubleQuote, backslash] c) quoted := by
  rfl

theorem parseDoubleQuotes_regular {c : UInt8} (notQuote : ¬ c = doubleQuote)
    (notBackslash : ¬ c = backslash) :
    parseDoubleQuotes result (c :: quoted) = parseDoubleQuotes (result ++ [c]) quoted := by
  rw [parseDoubleQuotes.eq_def]
  simp only [if_neg notQuote, if_neg notBackslash]

theorem parseDoubleQuotes_split : (parseDoubleQuotes result quoted).2 = [] ∨
    ∃ inner rest, quoted = inner ++ doubleQuote :: rest ∧ (parseDoubleQuotes result quoted).2 = doubleQuote :: rest ∧
      ∀ tail, parseDoubleQuotes result (inner ++ doubleQuote :: tail) =
        ((parseDoubleQuotes result quoted).1, doubleQuote :: tail) := by
  induction result, quoted using parseDoubleQuotes.induct with
  | case1 result => exact .inl rfl
  | case2 result quoted =>
    right
    refine ⟨[], quoted, rfl, ?_, fun tail => ?_⟩
    · rw [parseDoubleQuotes.eq_def]
      simp
    · rw [parseDoubleQuotes.eq_def, parseDoubleQuotes.eq_def result (doubleQuote :: quoted)]
      simp
  | case3 result other =>
    left
    rw [parseDoubleQuotes_lone]
  | case4 result escaped quoted other ih =>
    rcases ih with ends | ⟨inner, rest, split, left_, same⟩
    · exact .inl ends
    · refine .inr ⟨backslash :: escaped :: inner, rest, ?_, left_, fun tail => ?_⟩
      · rw [split]
        rfl
      · exact same tail
  | case5 result c quoted notQuote notBackslash ih =>
    rw [parseDoubleQuotes_regular _ _ notQuote notBackslash]
    rcases ih with ends | ⟨inner, rest, split, left_, same⟩
    · exact .inl ends
    · refine .inr ⟨c :: inner, rest, ?_, left_, fun tail => ?_⟩
      · rw [split]
        rfl
      · rw [cons_append, parseDoubleQuotes_regular _ _ notQuote notBackslash]
        exact same tail

theorem countP_blank_backslash (text : Bytes) : (backslash :: text).countP blank = text.countP blank :=
  countP_cons_of_neg (by decide)

theorem countP_blank_doubleQuote (text : Bytes) : (doubleQuote :: text).countP blank = text.countP blank :=
  countP_cons_of_neg (by decide)

theorem unescaped_blanks (chars : Bytes) (c : UInt8) : (unescaped chars c).countP blank = [c].countP blank := by
  unfold unescaped
  split_ifs
  · rfl
  · exact countP_blank_backslash [c]

theorem parseDoubleQuotes_blanks :
    (parseDoubleQuotes result quoted).1.countP blank + (parseDoubleQuotes result quoted).2.countP blank =
      result.countP blank + quoted.countP blank := by
  induction result, quoted using parseDoubleQuotes.induct with
  | case1 result => rfl
  | case2 result quoted =>
    rw [parseDoubleQuotes.eq_def]
    simp
  | case3 result other =>
    simp [parseDoubleQuotes_lone]
  | case4 result escaped quoted other ih =>
    rw [parseDoubleQuotes_escape, ih, countP_append, unescaped_blanks, countP_blank_backslash, Nat.add_assoc,
      ← countP_append, singleton_append]
  | case5 result c quoted notQuote notBackslash ih =>
    simp [parseDoubleQuotes_regular _ _ notQuote notBackslash, ih, ← countP_append]

/-- What an argument is read from: all that is left, or what stands before a blank. The blanks in it are those
of the argument.
-/
def Taken (arg : Bytes) (firstQuoteChar : UInt8) (command : Bytes) (parsed : Parsed) : Prop :=
  ∃ consumed, parsed.arg.countP blank = arg.countP blank + consumed.countP blank ∧
    parseArgument arg firstQuoteChar consumed = ⟨parsed.arg, parsed.firstQuoteChar, []⟩ ∧
    ((command = consumed ∧ parsed.command = []) ∨
      ∃ separator, blank separator = true ∧ command = consumed ++ separator :: parsed.command ∧
        ∀ other tail, blank other = true → parseArgument arg firstQuoteChar (consumed ++ other :: tail) =
          ⟨parsed.arg, parsed.firstQuoteChar, tail⟩)

variable {arg command : Bytes} {firstQuoteChar : UInt8}

theorem taken_last {parsed : Parsed}
    (ends : parseArgument arg firstQuoteChar command = parsed) (none_ : parsed.command = [])
    (blanks : parsed.arg.countP blank = arg.countP blank + command.countP blank) :
    Taken arg firstQuoteChar command parsed := by
  refine ⟨command, blanks, ?_, .inl ⟨rfl, none_⟩⟩
  rw [ends, ← none_]

theorem Taken.step {arg next front command : Bytes} {firstQuoteChar quote : UInt8} {parsed : Parsed}
    (taken : Taken next quote command parsed)
    (piece : ∀ tail, parseArgument arg firstQuoteChar (front ++ tail) = parseArgument next quote tail)
    (blanks : next.countP blank = arg.countP blank + front.countP blank) :
    Taken arg firstQuoteChar (front ++ command) parsed := by
  obtain ⟨consumed, counted, alone, rest⟩ := taken
  refine ⟨front ++ consumed, ?_, (piece consumed).trans alone, ?_⟩
  · simp [counted, blanks, Nat.add_assoc]
  · rcases rest with ⟨same, none_⟩ | ⟨separator, isBlank, split, local_⟩
    · exact .inl ⟨congrArg _ same, none_⟩
    · refine .inr ⟨separator, isBlank, ?_, fun other tail otherBlank => ?_⟩
      · simp [split]
      · simp [piece, local_ other tail otherBlank]

theorem taken_double (ih : Taken (parseDoubleQuotes arg command).1 (noted firstQuoteChar doubleQuote)
      ((parseDoubleQuotes arg command).2.drop 1)
      (parseArgument (parseDoubleQuotes arg command).1 (noted firstQuoteChar doubleQuote)
        ((parseDoubleQuotes arg command).2.drop 1))) :
    Taken arg firstQuoteChar (doubleQuote :: command) (parseArgument arg firstQuoteChar (doubleQuote :: command)) := by
  have blanks := parseDoubleQuotes_blanks arg command
  rcases parseDoubleQuotes_split arg command with ends | ⟨inner, rest, split, left_, closed⟩
  · have whole := parseArgument_double arg firstQuoteChar command
    rw [ends, drop_nil, parseArgument_nil] at whole
    rw [ends] at blanks
    apply taken_last rfl
    · rw [whole]
    · rw [whole]
      exact blanks
  · have stays : (parseDoubleQuotes arg command).2.drop 1 = rest := by rw [left_, drop_one, tail_cons]
    rw [parseArgument_double]
    rw [stays] at ih ⊢
    have same : doubleQuote :: command = (doubleQuote :: (inner ++ [doubleQuote])) ++ rest := by
      simp [split]
    rw [same]
    apply ih.step
    · intro tail
      simp [parseArgument_double, closed]
    · have counted : command.countP blank = inner.countP blank + rest.countP blank := by
        simp [split, countP_blank_doubleQuote]
      rw [left_, countP_blank_doubleQuote] at blanks
      rw [countP_blank_doubleQuote, countP_append, countP_blank_doubleQuote, countP_nil]
      omega

theorem taken_quote {special : UInt8}
    (quote : special = singleQuote ∨ special = backtick) (notBlank : ¬ blank special = true)
    (ih : Taken (arg ++ command.takeWhile (· ≠ special)) (noted firstQuoteChar special)
      ((command.dropWhile (· ≠ special)).drop 1)
      (parseArgument (arg ++ command.takeWhile (· ≠ special)) (noted firstQuoteChar special)
        ((command.dropWhile (· ≠ special)).drop 1))) :
    Taken arg firstQuoteChar (special :: command) (parseArgument arg firstQuoteChar (special :: command)) := by
  rcases span_cases special command with ends | ⟨front, rest, rfl, absent⟩
  · have whole := parseArgument_quote arg firstQuoteChar command quote
    have all : command.takeWhile (· ≠ special) = command := by
      have both := takeWhile_append_dropWhile (p := (· ≠ special)) (l := command)
      rwa [ends, append_nil] at both
    rw [ends, drop_nil, parseArgument_nil, all] at whole
    apply taken_last rfl
    · rw [whole]
    · rw [whole, countP_cons_of_neg notBlank]
      exact countP_append
  · obtain ⟨taken, dropped⟩ := span_at rest absent
    rw [parseArgument_quote _ _ _ quote]
    rw [taken, dropped] at ih ⊢
    have same : special :: (front ++ special :: rest) = (special :: (front ++ [special])) ++ rest := by
      simp
    rw [same]
    apply ih.step
    · intro tail
      obtain ⟨taken, dropped⟩ := span_at tail absent
      rw [cons_append, append_assoc, singleton_append, parseArgument_quote _ _ _ quote, taken, dropped,
        drop_one, tail_cons]
    · simp [countP_cons_of_neg notBlank]

theorem parseArgument_taken (arg : Bytes) (firstQuoteChar : UInt8) (command : Bytes) :
    Taken arg firstQuoteChar command (parseArgument arg firstQuoteChar command) := by
  induction arg, firstQuoteChar, command using parseArgument.induct with
  | case1 arg firstQuoteChar =>
    apply taken_last rfl
    · rw [parseArgument_nil]
    · rw [parseArgument_nil]
      rfl
  | case2 arg firstQuoteChar =>
    apply taken_last rfl
    · rw [parseArgument_lone]
    · rw [parseArgument_lone]
      exact countP_append
  | case3 arg firstQuoteChar c command ih =>
    rw [parseArgument_escape]
    change Taken arg firstQuoteChar ([backslash, c] ++ command) _
    apply ih.step
    · intro tail
      exact parseArgument_escape arg firstQuoteChar tail c
    · simp [unescaped_blanks, countP_blank_backslash]
  | case4 arg firstQuoteChar special command other isBlank =>
    rw [parseArgument_blank _ _ _ isBlank]
    refine ⟨[], rfl, parseArgument_nil _ _, .inr ⟨special, isBlank, rfl, fun another tail anotherBlank => ?_⟩⟩
    exact parseArgument_blank _ _ _ anotherBlank
  | case5 arg firstQuoteChar command other notBlank ih =>
    exact taken_double ih
  | case6 arg firstQuoteChar special command other notBlank notDouble quote ih =>
    exact taken_quote quote notBlank ih
  | case7 arg firstQuoteChar special command notBackslash notBlank notDouble notQuote ih =>
    rw [parseArgument_regular _ _ _ notBackslash notBlank notDouble notQuote]
    change Taken arg firstQuoteChar ([special] ++ command) _
    apply ih.step
    · intro tail
      exact parseArgument_regular arg firstQuoteChar tail notBackslash notBlank notDouble notQuote
    · exact countP_append

theorem parseArgument_split (arg : Bytes) (firstQuoteChar : UInt8) (command : Bytes) :
    (parseArgument arg firstQuoteChar command).command = [] ∨
      ∃ consumed, command = consumed ++ (parseArgument arg firstQuoteChar command).command ∧
        ∀ tail, parseArgument arg firstQuoteChar (consumed ++ tail) =
          ⟨(parseArgument arg firstQuoteChar command).arg, (parseArgument arg firstQuoteChar command).firstQuoteChar,
            tail⟩ := by
  obtain ⟨consumed, -, -, ⟨-, none_⟩ | ⟨separator, isBlank, split, local_⟩⟩ :=
    parseArgument_taken arg firstQuoteChar command
  · exact .inl none_
  · right
    refine ⟨consumed ++ [separator], ?_, fun tail => ?_⟩
    · rw [append_assoc]
      exact split
    · rw [append_assoc]
      exact local_ separator tail isBlank

/-! A command, one argument on. -/

theorem setCommandString_nil : setCommandString [] = [] := by
  exact arguments.eq_def _

theorem setCommandString_trimmed (command : Bytes) :
    setCommandString (ltrimForArgs command) = setCommandString command := by
  unfold setCommandString ltrimForArgs
  rw [dropWhile_idempotent]

theorem setCommandString_cons {c : UInt8} (notBlank : ¬ blank c = true) (rest : Bytes) : setCommandString (c :: rest) =
      ⟨(parseSingleArgument (c :: rest)).arg, (parseSingleArgument (c :: rest)).firstQuoteChar⟩ ::
        setCommandString (parseSingleArgument (c :: rest)).command := by
  rw [setCommandString, ltrimForArgs, dropWhile_cons_of_neg notBlank, arguments.eq_def, setCommandString]

theorem ltrimForArgs_head {rest : Bytes} {c : UInt8} (trimmed : ltrimForArgs command = c :: rest) :
    ¬ blank c = true := by
  have head := head?_dropWhile_not blank command
  rw [show command.dropWhile blank = c :: rest from trimmed] at head
  simpa using head

end Lldb.Args
