import Lldb.Utility.ArgsPrefixes
import Mathlib.Algebra.BigOperators.Group.List.Basic
import Mathlib.Algebra.Ring.Nat

/-! `Args::GetQuotedCommandString`, and what `SetCommandString` makes of it.

A blank of a command stands in one of the arguments, or apart from them: that shows where an argument is read from.
-/

set_option autoImplicit false

namespace Lldb.Args

open List

def quoted (entry : ArgEntry) : Bytes :=
  if entry.quote ≠ 0 then entry.quote :: (entry.ref ++ [entry.quote]) else entry.ref

def joined : List ArgEntry → Bytes
  | [] => []
  | [entry] => quoted entry
  | entry :: next :: rest => quoted entry ++ space :: joined (next :: rest)

def getQuotedCommandString (entries : List ArgEntry) : Bool × Bytes := (!entries.isEmpty, joined entries)

def isQuote (c : UInt8) : Bool := c = doubleQuote || c = singleQuote || c = backtick

/-- A character behind a backslash that is neither one itself nor the end of a set. -/
def follows (rest : Bytes) : Bool := rest.head?.any fun d => d != backslash && d != 0

def plain : Bytes → Bool
  | [] => true
  | c :: rest => !blank c && !isQuote c && (c != backslash || follows rest) && plain rest

/-- No double quote, and no backslash that would escape something, the closing quote among it. -/
def plainQuoted : Bytes → Bool
  | [] => true
  | c :: rest => c != doubleQuote && (c != backslash || follows rest) && plainQuoted rest

def chopped (text : Bytes) : Bytes := if text.getLast? = some backslash then text.dropLast else text

variable (last : Bool)

/-- Whether an argument comes back, the last one or one with others behind it. -/
def keeps (entry : ArgEntry) : Bool :=
  if entry.quote = 0 then plain (if last then chopped entry.ref else entry.ref)
  else if entry.quote = doubleQuote then plainQuoted entry.ref
  else entry.quote ∉ entry.ref

def keepsAll : List ArgEntry → Bool
  | [] => true
  | [entry] => keeps true entry
  | entry :: next :: rest => keeps false entry && keepsAll (next :: rest)

/-! What an argument of a command can be. -/

structure Regular (entry : ArgEntry) : Prop where
  quote : entry.quote = 0 ∨ isQuote entry.quote = true
  some : entry.quote = 0 → entry.ref ≠ []

theorem unescaped_ne_nil (chars : Bytes) (c : UInt8) : unescaped chars c ≠ [] := by
  unfold unescaped
  split_ifs <;> exact cons_ne_nil _ _

theorem parseArgument_quotes (arg : Bytes) (firstQuoteChar : UInt8) (command : Bytes) :
    (firstQuoteChar = 0 ∨ isQuote firstQuoteChar = true →
      (parseArgument arg firstQuoteChar command).firstQuoteChar = 0 ∨
        isQuote (parseArgument arg firstQuoteChar command).firstQuoteChar = true) ∧
    ((parseArgument arg firstQuoteChar command).firstQuoteChar = 0 →
      firstQuoteChar = 0 ∧ (arg ≠ [] → (parseArgument arg firstQuoteChar command).arg ≠ [])) := by
  induction arg, firstQuoteChar, command using parseArgument.induct with
  | case1 arg firstQuoteChar =>
    rw [parseArgument_nil]
    exact ⟨id, fun none_ => ⟨none_, id⟩⟩
  | case2 arg firstQuoteChar =>
    rw [parseArgument_lone]
    exact ⟨id, fun none_ => ⟨none_, fun _ => append_ne_nil_of_left_ne_nil ‹_› _⟩⟩
  | case3 arg firstQuoteChar c command ih =>
    rw [parseArgument_escape]
    refine ⟨ih.1, fun none_ => ⟨(ih.2 none_).1, fun some_ => (ih.2 none_).2 ?_⟩⟩
    exact append_ne_nil_of_left_ne_nil some_ _
  | case4 arg firstQuoteChar special command other isBlank =>
    rw [parseArgument_blank _ _ _ isBlank]
    exact ⟨id, fun none_ => ⟨none_, id⟩⟩
  | case5 arg firstQuoteChar command other notBlank ih =>
    rw [parseArgument_double]
    have noted_ : noted firstQuoteChar doubleQuote ≠ 0 := by
      unfold noted
      split_ifs with none_
      · decide
      · exact none_
    refine ⟨fun quotes => ih.1 ?_, fun none_ => absurd (ih.2 none_).1 noted_⟩
    split_ifs
    · exact .inr (by decide)
    · exact quotes
  | case6 arg firstQuoteChar special command other notBlank notDouble quote ih =>
    rw [parseArgument_quote _ _ _ quote]
    have isQuote_ : isQuote special = true := by rcases quote with rfl | rfl <;> decide
    have noted_ : noted firstQuoteChar special ≠ 0 := by
      unfold noted
      split_ifs with none_
      · rcases quote with rfl | rfl <;> decide
      · exact none_
    refine ⟨fun quotes => ih.1 ?_, fun none_ => absurd (ih.2 none_).1 noted_⟩
    split_ifs
    · exact .inr isQuote_
    · exact quotes
  | case7 arg firstQuoteChar special command notBackslash notBlank notDouble notQuote ih =>
    rw [parseArgument_regular _ _ _ notBackslash notBlank notDouble notQuote]
    refine ⟨ih.1, fun none_ => ⟨(ih.2 none_).1, fun some_ => (ih.2 none_).2 ?_⟩⟩
    exact append_ne_nil_of_left_ne_nil some_ _

variable {c : UInt8} {rest text front : Bytes} {entry : ArgEntry} {entries : List ArgEntry}

theorem parseSingleArgument_regular (notBlank : ¬ blank c = true) (rest : Bytes) :
    Regular ⟨(parseSingleArgument (c :: rest)).arg, (parseSingleArgument (c :: rest)).firstQuoteChar⟩ := by
  refine ⟨(parseArgument_quotes [] 0 (c :: rest)).1 (.inl rfl), fun none_ => ?_⟩
  unfold parseSingleArgument at none_ ⊢
  by_cases isBackslash : c = backslash
  · subst isBackslash
    cases rest with
    | nil =>
      rw [parseArgument_lone]
      exact cons_ne_nil _ _
    | cons d rest =>
      rw [parseArgument_escape] at none_ ⊢
      exact ((parseArgument_quotes _ _ _).2 none_).2 (unescaped_ne_nil _ _)
  · by_cases isDouble : c = doubleQuote
    · subst isDouble
      rw [parseArgument_double] at none_
      exact absurd ((parseArgument_quotes _ _ _).2 none_).1 (by decide)
    · by_cases quote : c = singleQuote ∨ c = backtick
      · rw [parseArgument_quote _ _ _ quote] at none_
        have noted_ : noted 0 c ≠ 0 := by rcases quote with rfl | rfl <;> decide
        exact absurd ((parseArgument_quotes _ _ _).2 none_).1 noted_
      · rw [parseArgument_regular _ _ _ isBackslash notBlank isDouble quote] at none_ ⊢
        exact ((parseArgument_quotes _ _ _).2 none_).2 (cons_ne_nil _ _)

/-! Text without quotes. -/

theorem plain_cons : plain (c :: rest) = true ↔
    ¬ blank c = true ∧ ¬ isQuote c = true ∧ (c = backslash → follows rest = true) ∧ plain rest = true := by
  rw [plain, Bool.and_eq_true, Bool.and_eq_true, Bool.and_eq_true, Bool.or_eq_true, bne_iff_ne, Bool.not_eq_true',
    Bool.not_eq_true', Bool.eq_false_iff, Bool.eq_false_iff, and_assoc, and_assoc, ← imp_iff_not_or]

theorem plainQuoted_cons : plainQuoted (c :: rest) = true ↔
    c ≠ doubleQuote ∧ (c = backslash → follows rest = true) ∧ plainQuoted rest = true := by
  simp [plainQuoted, and_assoc, ← imp_iff_not_or]

theorem follows_cons {d : UInt8} : follows (d :: rest) = true ↔ d ≠ backslash ∧ d ≠ 0 := by
  unfold follows
  simp

theorem isQuote_iff : isQuote c = true ↔ c = doubleQuote ∨ c = singleQuote ∨ c = backtick := by
  simp [isQuote, or_assoc]

/-- A character that a backslash does not escape. -/
theorem unescaped_of_plain {d : UInt8} (notBlank : ¬ blank d = true) (notQuote : ¬ isQuote d = true)
    (notBackslash : d ≠ backslash) (some_ : d ≠ 0) : unescaped escapable d = [backslash, d] := by
  rw [isQuote_iff, not_or] at notQuote
  unfold blank at notBlank
  apply if_neg
  simp [strchr, escapable, some_, notBlank, notQuote, notBackslash]

theorem plain_of_unescaped {d : UInt8} (kept : ¬ strchr escapable d = true) :
    ¬ blank d = true ∧ ¬ isQuote d = true ∧ d ≠ backslash ∧ d ≠ 0 := by
  unfold strchr escapable at kept
  simp only [Bool.or_eq_true, decide_eq_true_eq, contains_eq_mem, mem_cons] at kept
  rw [isQuote_iff]
  unfold blank
  rw [Bool.or_eq_true, decide_eq_true_eq, decide_eq_true_eq]
  tauto

theorem parseArgument_plain (isPlain : plain text = true) (arg : Bytes) (firstQuoteChar : UInt8) (tail : Bytes) :
    parseArgument arg firstQuoteChar (text ++ tail) = parseArgument (arg ++ text) firstQuoteChar tail := by
  induction text using twoStepInduction generalizing arg with
  | nil => rw [nil_append, append_nil]
  | singleton c =>
    obtain ⟨notBlank, notQuote, behind, -⟩ := plain_cons.mp isPlain
    have notBackslash : c ≠ backslash := fun same => absurd (behind same) (by decide)
    rw [isQuote_iff, not_or] at notQuote
    exact parseArgument_regular _ _ _ notBackslash notBlank notQuote.1 notQuote.2
  | cons_cons c d rest skip step =>
    obtain ⟨notBlank, notQuote, behind, plainRest⟩ := plain_cons.mp isPlain
    by_cases isBackslash : c = backslash
    · subst isBackslash
      obtain ⟨nextBackslash, some_⟩ := follows_cons.mp (behind rfl)
      obtain ⟨nextBlank, nextQuote, -, last⟩ := plain_cons.mp plainRest
      simp [parseArgument_escape, unescaped_of_plain nextBlank nextQuote nextBackslash some_, skip last]
    · rw [isQuote_iff, not_or] at notQuote
      rw [cons_append, parseArgument_regular _ _ _ isBackslash notBlank notQuote.1 notQuote.2,
        step d plainRest, append_assoc, singleton_append]

/-- Where nothing is removed there was nothing but plain text, and perhaps a backslash at its end. -/
theorem parseArgument_kept {arg : Bytes} {firstQuoteChar : UInt8} {command : Bytes}
    (kept : (parseArgument arg firstQuoteChar command).arg.length +
      (parseArgument arg firstQuoteChar command).command.length = arg.length + command.length) :
    ∃ text tail, command = text ++ tail ∧ plain text = true ∧ (tail = [] ∨ tail = [backslash]) := by
  induction arg, firstQuoteChar, command using parseArgument.induct with
  | case1 arg firstQuoteChar => exact ⟨[], [], rfl, rfl, .inl rfl⟩
  | case2 arg firstQuoteChar => exact ⟨[], [backslash], rfl, rfl, .inr rfl⟩
  | case3 arg firstQuoteChar c command ih =>
    rw [parseArgument_escape] at kept
    have less := (parseArgument_length (arg ++ unescaped escapable c) firstQuoteChar command).1
    rw [length_append] at ih less
    have whole : ¬ strchr escapable c = true := fun special => by
      rw [unescaped, if_pos special] at less kept
      simp only [length_cons, length_nil] at less kept
      omega
    have two : (unescaped escapable c).length = 2 := by
      rw [unescaped, if_neg whole]
      rfl
    rw [length_cons, length_cons] at kept
    obtain ⟨text, tail, rfl, isPlain, ends⟩ := ih (by omega)
    obtain ⟨notBlank, notQuote, notBackslash, some_⟩ := plain_of_unescaped whole
    refine ⟨backslash :: c :: text, tail, rfl, plain_cons.mpr ⟨by decide, by decide, fun _ => ?_, ?_⟩, ends⟩
    · exact follows_cons.mpr ⟨notBackslash, some_⟩
    · exact plain_cons.mpr ⟨notBlank, notQuote, fun same => absurd same notBackslash, isPlain⟩
  | case4 arg firstQuoteChar special command other isBlank =>
    rw [parseArgument_blank _ _ _ isBlank] at kept
    change arg.length + command.length = arg.length + (command.length + 1) at kept
    omega
  | case5 arg firstQuoteChar command other notBlank ih =>
    have inner := parseDoubleQuotes_length arg command
    have less := (parseArgument_length (parseDoubleQuotes arg command).1 (noted firstQuoteChar doubleQuote)
      ((parseDoubleQuotes arg command).2.drop 1)).1
    rw [parseArgument_double] at kept
    rw [length_drop] at less
    rw [length_cons] at kept
    omega
  | case6 arg firstQuoteChar special command other notBlank notDouble quote ih =>
    have inner := span_length special command
    have less := (parseArgument_length (arg ++ command.takeWhile (· ≠ special)) (noted firstQuoteChar special)
      ((command.dropWhile (· ≠ special)).drop 1)).1
    rw [parseArgument_quote _ _ _ quote] at kept
    rw [length_drop, length_append] at less
    rw [length_cons] at kept
    omega
  | case7 arg firstQuoteChar special command notBackslash notBlank notDouble notQuote ih =>
    rw [parseArgument_regular _ _ _ notBackslash notBlank notDouble notQuote] at kept
    rw [length_append, length_singleton] at ih
    rw [length_cons] at kept
    obtain ⟨text, tail, rfl, isPlain, ends⟩ := ih (by omega)
    refine ⟨special :: text, tail, rfl, plain_cons.mpr ⟨notBlank, ?_, fun same => absurd same notBackslash, isPlain⟩,
      ends⟩
    rw [isQuote_iff]
    tauto

theorem not_quote_of_plain (isPlain : plain text = true) : ∀ c ∈ text, ¬ isQuote c = true := by
  induction text with
  | nil => nofun
  | cons c text ih =>
    obtain ⟨-, notQuote, -, rest⟩ := plain_cons.mp isPlain
    rw [forall_mem_cons]
    exact ⟨notQuote, ih rest⟩

theorem parseArgument_not_kept (arg : Bytes) (firstQuoteChar : UInt8) (front : Bytes) (quote : isQuote c = true) :
    (parseArgument arg firstQuoteChar (front ++ [c])).arg.length +
      (parseArgument arg firstQuoteChar (front ++ [c])).command.length ≠ arg.length + (front ++ [c]).length := by
  intro kept
  obtain ⟨text, tail, split, isPlain, ends⟩ := parseArgument_kept kept
  rcases ends with rfl | rfl
  · rw [append_nil] at split
    exact not_quote_of_plain isPlain c (split ▸ mem_append_right _ mem_cons_self) quote
  · have last := (append_inj' split rfl).2
    rw [cons.injEq] at last
    rw [last.1] at quote
    exact absurd quote (by decide)

theorem getLast_of_plain (isPlain : plain text = true) : text.getLast? ≠ some backslash := by
  induction text with
  | nil => nofun
  | cons c text ih =>
    obtain ⟨-, -, behind, rest⟩ := plain_cons.mp isPlain
    cases text with
    | nil =>
      intro last
      exact absurd (behind (Option.some.inj last)) (by decide)
    | cons d text =>
      exact ih rest

/-! Single arguments. -/

/-- Parsed alone the rendering is the argument, and so it is in front of others. -/
def ComesBack (entry : ArgEntry) : Prop :=
  parseArgument [] 0 (quoted entry) = ⟨entry.ref, entry.quote, []⟩ ∧
    (last = false → ∀ tail, parseArgument [] 0 (quoted entry ++ space :: tail) = ⟨entry.ref, entry.quote, tail⟩)

theorem comesBack_unquoted (text : Bytes) : ComesBack last ⟨text, 0⟩ ↔ keeps last ⟨text, 0⟩ = true := by
  change (parseArgument [] 0 text = ⟨text, 0, []⟩ ∧
    (last = false → ∀ tail, parseArgument [] 0 (text ++ space :: tail) = ⟨text, 0, tail⟩)) ↔
      plain (if last = true then chopped text else text) = true
  constructor
  · rintro ⟨alone, followed⟩
    have kept : (parseArgument [] 0 text).arg.length + (parseArgument [] 0 text).command.length =
        ([] : Bytes).length + text.length := by
      rw [alone]
      exact add_comm _ _
    obtain ⟨front, tail, rfl, isPlain, ends⟩ := parseArgument_kept kept
    rcases ends with rfl | rfl
    · rw [append_nil, chopped, if_neg (getLast_of_plain isPlain), ite_self]
      exact isPlain
    · cases last with
      | true =>
        rw [chopped, if_pos getLast?_concat, dropLast_concat]
        exact isPlain
      | false =>
        -- The backslash would escape the separator.
        have escaped := followed rfl []
        rw [append_assoc, parseArgument_plain isPlain] at escaped
        have text_ := congrArg Parsed.arg ((parseArgument_escape _ _ _ _).symm.trans escaped)
        rw [parseArgument_nil] at text_
        have lasts := (append_inj' text_ rfl).2
        exact absurd lasts (by decide)
  · intro kept
    have closed (isPlain : plain text = true) (tail : Bytes) :
        parseArgument [] 0 (text ++ space :: tail) = ⟨text, 0, tail⟩ := by
      rw [parseArgument_plain isPlain, nil_append, parseArgument_blank _ _ _ (by decide)]
    have alone (isPlain : plain text = true) : parseArgument [] 0 text = ⟨text, 0, []⟩ := by
      have whole := parseArgument_plain isPlain [] 0 []
      rwa [append_nil, parseArgument_nil] at whole
    cases last with
    | false => exact ⟨alone kept, fun _ => closed kept⟩
    | true =>
      refine ⟨?_, nofun⟩
      rw [if_pos rfl, chopped] at kept
      split_ifs at kept with isBackslash
      · obtain ⟨front, rfl⟩ := getLast?_eq_some_iff.mp isBackslash
        rw [dropLast_concat] at kept
        rw [parseArgument_plain kept, nil_append, parseArgument_lone]
      · exact alone kept

theorem comesBack_single (text : Bytes) {special : UInt8}
    (quote : special = singleQuote ∨ special = backtick) :
    ComesBack last ⟨text, special⟩ ↔ special ∉ text := by
  have some_ : special ≠ 0 := by rcases quote with rfl | rfl <;> decide
  have isQuote_ : isQuote special = true := by rcases quote with rfl | rfl <;> decide
  have rendered : quoted ⟨text, special⟩ = special :: (text ++ [special]) := if_pos some_
  unfold ComesBack
  rw [rendered]
  constructor
  · rintro ⟨alone, -⟩ member
    obtain ⟨front, back, rfl, absent⟩ := eq_append_cons_of_mem member
    rw [append_assoc, cons_append, parseArgument_quote _ _ _ quote] at alone
    obtain ⟨taken, dropped⟩ := span_at (back ++ [special]) absent
    rw [taken, dropped, drop_one, tail_cons, nil_append] at alone
    apply parseArgument_not_kept front (noted 0 special) back isQuote_
    rw [alone]
    simp
  · intro absent
    have closed (tail : Bytes) : parseArgument [] 0 (special :: (text ++ special :: tail)) =
        parseArgument text special tail := by
      obtain ⟨taken, dropped⟩ := span_at tail absent
      rw [parseArgument_quote _ _ _ quote, taken, dropped]
      rfl
    refine ⟨(closed []).trans (parseArgument_nil _ _), fun _ tail => ?_⟩
    rw [cons_append, append_assoc, singleton_append, closed]
    exact parseArgument_blank _ _ _ (by decide)

theorem parseDoubleQuotes_plain (isPlain : plainQuoted text = true) (result tail : Bytes) :
    parseDoubleQuotes result (text ++ doubleQuote :: tail) = (result ++ text, doubleQuote :: tail) := by
  induction text using twoStepInduction generalizing result with
  | nil =>
    simp [parseDoubleQuotes.eq_def]
  | singleton c =>
    obtain ⟨notQuote, behind, -⟩ := plainQuoted_cons.mp isPlain
    have notBackslash : c ≠ backslash := fun same => absurd (behind same) (by decide)
    simp [parseDoubleQuotes_regular _ _ notQuote notBackslash, parseDoubleQuotes.eq_def]
  | cons_cons c d rest skip step =>
    obtain ⟨notQuote, behind, plainRest⟩ := plainQuoted_cons.mp isPlain
    by_cases isBackslash : c = backslash
    · subst isBackslash
      obtain ⟨nextBackslash, some_⟩ := follows_cons.mp (behind rfl)
      obtain ⟨nextQuote, -, last⟩ := plainQuoted_cons.mp plainRest
      have stays : unescaped [doubleQuote, backslash] d = [backslash, d] :=
        if_neg (by simp [strchr, some_, nextQuote, nextBackslash])
      simp [parseDoubleQuotes_escape, stays, skip last]
    · rw [cons_append, parseDoubleQuotes_regular _ _ notQuote isBackslash, step d plainRest, append_assoc,
        singleton_append]

theorem parseDoubleQuotes_kept {result : Bytes} (closed : (parseDoubleQuotes result text).2 ≠ [])
    (kept : (parseDoubleQuotes result text).1.length + (parseDoubleQuotes result text).2.length =
      result.length + text.length) :
    ∃ inner, text = inner ++ (parseDoubleQuotes result text).2 ∧ plainQuoted inner = true := by
  induction result, text using parseDoubleQuotes.induct with
  | case1 result => exact absurd rfl closed
  | case2 result text =>
    refine ⟨[], ?_, rfl⟩
    rw [parseDoubleQuotes.eq_def]
    rfl
  | case3 result other =>
    exact absurd rfl closed
  | case4 result c text other ih =>
    rw [parseDoubleQuotes_escape] at closed kept ⊢
    have less := parseDoubleQuotes_length (result ++ unescaped [doubleQuote, backslash] c) text
    rw [length_append] at ih less
    rw [length_cons, length_cons] at kept
    have whole : ¬ strchr [doubleQuote, backslash] c = true := fun special => by
      rw [unescaped, if_pos special] at less kept
      rw [length_singleton] at less
      omega
    have two : (unescaped [doubleQuote, backslash] c).length = 2 := by
      rw [unescaped, if_neg whole]
      rfl
    obtain ⟨inner, split, isPlain⟩ := ih closed (by omega)
    simp only [strchr, Bool.or_eq_true, decide_eq_true_eq, contains_eq_mem, mem_cons, not_mem_nil,
      or_false, not_or] at whole
    refine ⟨backslash :: c :: inner, congrArg (fun rest => backslash :: c :: rest) split,
      plainQuoted_cons.mpr ⟨by decide, fun _ => follows_cons.mpr ⟨whole.2.2, whole.1⟩, ?_⟩⟩
    exact plainQuoted_cons.mpr ⟨whole.2.1, fun same => absurd same whole.2.2, isPlain⟩
  | case5 result c text notQuote notBackslash ih =>
    rw [parseDoubleQuotes_regular _ _ notQuote notBackslash] at closed kept ⊢
    rw [length_append, length_singleton] at ih
    rw [length_cons] at kept
    obtain ⟨inner, split, isPlain⟩ := ih closed (by omega)
    exact ⟨c :: inner, congrArg (c :: ·) split,
      plainQuoted_cons.mpr ⟨notQuote, fun same => absurd same notBackslash, isPlain⟩⟩

theorem parseDoubleQuotes_open {result : Bytes} (split : text = front ++ [doubleQuote])
    (opened : (parseDoubleQuotes result text).2 = []) :
    (∃ before, front = before ++ [backslash]) ∧
      ∃ before, (parseDoubleQuotes result text).1 = before ++ [doubleQuote] := by
  induction result, text using parseDoubleQuotes.induct generalizing front with
  | case1 result => exact absurd split.symm (append_ne_nil_of_right_ne_nil _ (cons_ne_nil _ _))
  | case2 result text =>
    rw [parseDoubleQuotes.eq_def] at opened
    cases opened
  | case3 result other =>
    have last := congrArg getLast? split
    rw [getLast?_concat] at last
    exact absurd last (by decide)
  | case4 result c text other ih =>
    cases front with
    | nil => cases split
    | cons e front =>
      cases front with
      | nil =>
        cases split
        exact ⟨⟨[], rfl⟩, result, rfl⟩
      | cons d front =>
        rw [cons_append, cons_append, cons.injEq, cons.injEq] at split
        obtain ⟨⟨before, rfl⟩, last⟩ := ih split.2.2 opened
        exact ⟨⟨e :: d :: before, rfl⟩, last⟩
  | case5 result c text notQuote notBackslash ih =>
    rw [parseDoubleQuotes_regular _ _ notQuote notBackslash] at opened ⊢
    cases front with
    | nil =>
      rw [nil_append, cons.injEq] at split
      exact absurd split.1 notQuote
    | cons e front =>
      rw [cons_append, cons.injEq] at split
      obtain ⟨⟨before, rfl⟩, last⟩ := ih split.2 opened
      exact ⟨⟨e :: before, rfl⟩, last⟩

theorem comesBack_double (text : Bytes) :
    ComesBack last ⟨text, doubleQuote⟩ ↔ plainQuoted text = true := by
  change (parseArgument [] 0 (doubleQuote :: (text ++ [doubleQuote])) = ⟨text, doubleQuote, []⟩ ∧
    (last = false → ∀ tail, parseArgument [] 0 (doubleQuote :: (text ++ [doubleQuote]) ++ space :: tail) =
      ⟨text, doubleQuote, tail⟩)) ↔ _
  constructor
  · rintro ⟨alone, -⟩
    rw [parseArgument_double] at alone
    cases left_ : (parseDoubleQuotes [] (text ++ [doubleQuote])).2 with
    | nil =>
      obtain ⟨⟨before, rfl⟩, read, result⟩ := parseDoubleQuotes_open rfl left_
      rw [left_, result, drop_nil, parseArgument_nil] at alone
      have lasts := (append_inj' (congrArg Parsed.arg alone) rfl).2
      exact absurd lasts (by decide)
    | cons closing rest =>
      have inside := parseDoubleQuotes_length [] (text ++ [doubleQuote])
      have behind := (parseArgument_length (parseDoubleQuotes [] (text ++ [doubleQuote])).1
        (noted 0 doubleQuote) rest).1
      rw [left_, drop_one, tail_cons] at alone
      rw [alone] at behind
      rw [left_, length_append, length_cons, length_singleton, length_nil] at inside
      rw [length_nil] at behind
      have closed : (parseDoubleQuotes [] (text ++ [doubleQuote])).2 ≠ [] := by
        rw [left_]
        exact cons_ne_nil _ _
      obtain ⟨inner, split, isPlain⟩ := parseDoubleQuotes_kept closed (by
        rw [left_, length_append, length_cons, length_singleton, length_nil]
        change text.length + 0 ≤ _ at behind
        omega)
      rw [left_] at split
      rcases eq_nil_or_concat rest with rfl | ⟨before, final, rfl⟩
      · obtain rfl := (append_inj' split rfl).1
        exact isPlain
      · -- Something behind the closing quote would keep the last one.
        rw [concat_eq_append] at split alone behind inside
        rw [← cons_append, ← append_assoc] at split
        have final_ : [doubleQuote] = [final] := (append_inj' split rfl).2
        rw [cons.injEq] at final_
        obtain ⟨rfl, -⟩ := final_
        refine absurd ?_ (parseArgument_not_kept (parseDoubleQuotes [] (text ++ [doubleQuote])).1
          (noted 0 doubleQuote) before (by decide : isQuote doubleQuote = true))
        rw [alone]
        change text.length + 0 = _
        change text.length + 0 ≤ _ at behind
        omega
  · intro isPlain
    have closed (tail : Bytes) : parseArgument [] 0 (doubleQuote :: (text ++ doubleQuote :: tail)) =
        parseArgument text doubleQuote tail := by
      rw [parseArgument_double, parseDoubleQuotes_plain isPlain, drop_one, tail_cons, nil_append]
      rfl
    refine ⟨(closed []).trans (parseArgument_nil _ _), fun _ tail => ?_⟩
    rw [cons_append, append_assoc, singleton_append, closed]
    exact parseArgument_blank _ _ _ (by decide)

theorem comesBack_iff (regular : Regular entry) (last : Bool) : ComesBack last entry ↔ keeps last entry = true := by
  obtain ⟨text, quote⟩ := entry
  rcases regular.quote with rfl | isQuote_
  · exact comesBack_unquoted last text
  · rcases isQuote_iff.mp isQuote_ with rfl | other
    · exact comesBack_double last text
    · refine (comesBack_single last text other).trans ?_
      have some_ : quote ≠ 0 := by rcases other with rfl | rfl <;> decide
      have notDouble : quote ≠ doubleQuote := by rcases other with rfl | rfl <;> decide
      unfold keeps
      simp [if_neg some_, if_neg notDouble]

/-! Commands. -/

theorem setCommandString_eq_cons {command : Bytes} {rest : List ArgEntry}
    (parsed : setCommandString command = entry :: rest) :
    ∃ front consumed, Regular entry ∧ (∀ c ∈ front, blank c = true) ∧ entry.ref.countP blank = consumed.countP blank ∧
      parseArgument [] 0 consumed = ⟨entry.ref, entry.quote, []⟩ ∧
      ((command = front ++ consumed ∧ rest = []) ∨
        ∃ separator behind, blank separator = true ∧ command = front ++ (consumed ++ separator :: behind) ∧
          setCommandString behind = rest ∧
          ∀ tail, parseArgument [] 0 (consumed ++ space :: tail) = ⟨entry.ref, entry.quote, tail⟩) := by
  have whole := takeWhile_append_dropWhile (p := blank) (l := command)
  have blanks : ∀ c ∈ command.takeWhile blank, blank c = true := fun _ => mem_takeWhile_imp
  rw [← setCommandString_trimmed] at parsed
  change _ ++ ltrimForArgs command = _ at whole
  cases trimmed : ltrimForArgs command with
  | nil =>
    rw [trimmed, setCommandString_nil] at parsed
    cases parsed
  | cons c tail =>
    have notBlank := ltrimForArgs_head trimmed
    rw [trimmed, setCommandString_cons notBlank, cons.injEq] at parsed
    rw [trimmed] at whole
    obtain ⟨rfl, later⟩ := parsed
    obtain ⟨consumed, counted, alone, taken⟩ := parseArgument_taken [] 0 (c :: tail)
    refine ⟨command.takeWhile blank, consumed, parseSingleArgument_regular notBlank tail, blanks, ?_, alone, ?_⟩
    · rw [countP_nil, zero_add] at counted
      exact counted
    · rcases taken with ⟨same, none_⟩ | ⟨separator, isBlank, split, local_⟩
      · left
        rw [parseSingleArgument, none_, setCommandString_nil] at later
        exact ⟨by rw [← same, whole], later.symm⟩
      · right
        refine ⟨separator, _, isBlank, ?_, later, fun tail => local_ space tail (by decide)⟩
        exact whole.symm.trans (congrArg _ split)

def spaces (entries : List ArgEntry) : Nat := (entries.map fun entry => entry.ref.countP blank + 1).sum

theorem spaces_cons (entry : ArgEntry) (rest : List ArgEntry) :
    spaces (entry :: rest) = entry.ref.countP blank + 1 + spaces rest := by
  unfold spaces
  simp

theorem countP_all (blanks : ∀ c ∈ front, blank c = true) : front.countP blank = front.length :=
  countP_eq_length.mpr blanks

theorem setCommandString_blanks (command : Bytes) : spaces (setCommandString command) ≤ command.countP blank + 1 := by
  induction length : command.length using Nat.strong_induction_on generalizing command with
  | _ length_ ih =>
    cases parsed : setCommandString command with
    | nil => exact Nat.zero_le _
    | cons entry rest =>
      obtain ⟨front, consumed, -, -, counted, -, ends⟩ := setCommandString_eq_cons parsed
      rw [spaces_cons, counted]
      rcases ends with ⟨rfl, rfl⟩ | ⟨separator, behind, isBlank, rfl, rfl, -⟩
      · rw [countP_append]
        exact Nat.add_le_add_right (Nat.le_add_left _ _) 1
      · have later := ih behind.length (by
          rw [← length, length_append, length_append, length_cons]
          omega) behind rfl
        rw [countP_append, countP_append, countP_cons_of_pos isBlank]
        omega

theorem setCommandString_regular (command : Bytes) : ∀ entry ∈ setCommandString command, Regular entry := by
  induction length : command.length using Nat.strong_induction_on generalizing command with
  | _ length_ ih =>
    cases parsed : setCommandString command with
    | nil => nofun
    | cons entry rest =>
      obtain ⟨front, consumed, regular, -, -, -, ends⟩ := setCommandString_eq_cons parsed
      rw [forall_mem_cons]
      refine ⟨regular, ?_⟩
      rcases ends with ⟨rfl, rfl⟩ | ⟨separator, behind, isBlank, rfl, rfl, -⟩
      · nofun
      · apply ih behind.length ?_ behind rfl
        rw [← length, length_append, length_append, length_cons]
        omega

theorem quoted_blanks (regular : Regular entry) : (quoted entry).countP blank = entry.ref.countP blank := by
  unfold quoted
  rcases regular.quote with none_ | isQuote_
  · rw [if_neg (fun some_ => some_ none_)]
  · have some_ : entry.quote ≠ 0 := by
      intro none_
      rw [none_] at isQuote_
      exact absurd isQuote_ (by decide)
    have notBlank : ¬ blank entry.quote = true := by
      rcases isQuote_iff.mp isQuote_ with same | same | same
      · rw [same]
        decide
      · rw [same]
        decide
      · rw [same]
        decide
    simp [if_pos some_, countP_cons_of_neg notBlank]

theorem joined_blanks (regular : ∀ entry ∈ entries, Regular entry) (some_ : entries ≠ []) :
    (joined entries).countP blank + 1 = spaces entries := by
  induction entries with
  | nil => exact absurd rfl some_
  | cons entry rest ih =>
    rw [forall_mem_cons] at regular
    rw [spaces_cons, ← quoted_blanks regular.1]
    cases rest with
    | nil => rfl
    | cons next rest =>
      rw [joined, countP_append, countP_cons_of_pos (by decide : blank space = true), ← ih regular.2 (cons_ne_nil _ _)]
      omega

theorem same_front {other behind : Bytes} {separator delimiter : UInt8}
    (split : front ++ separator :: behind = other ++ delimiter :: rest) (first : blank separator = true)
    (second : blank delimiter = true) (same : front.countP blank = other.countP blank) :
    front = other ∧ behind = rest := by
  rcases append_eq_append_iff.mp split with ⟨more, rfl, tail⟩ | ⟨more, rfl, tail⟩
  · cases more with
    | nil =>
      rw [nil_append, cons.injEq] at tail
      exact ⟨(append_nil _).symm, tail.2⟩
    | cons c more =>
      rw [cons_append, cons.injEq] at tail
      rw [countP_append, ← tail.1, countP_cons_of_pos first] at same
      omega
  · cases more with
    | nil =>
      rw [nil_append, cons.injEq] at tail
      exact ⟨append_nil _, tail.2.symm⟩
    | cons c more =>
      rw [cons_append, cons.injEq] at tail
      rw [countP_append, ← tail.1, countP_cons_of_pos second] at same
      omega

theorem quoted_head (regular : Regular entry)
    (alone : parseArgument [] 0 (quoted entry) = ⟨entry.ref, entry.quote, []⟩) :
    ∃ c rest, quoted entry = c :: rest ∧ ¬ blank c = true := by
  cases rendered : quoted entry with
  | nil =>
    rw [rendered, parseArgument_nil, Parsed.mk.injEq] at alone
    exact absurd alone.1.symm (regular.some alone.2.1.symm)
  | cons c rest =>
    refine ⟨c, rest, rfl, fun isBlank => ?_⟩
    rw [rendered, parseArgument_blank _ _ _ isBlank, Parsed.mk.injEq] at alone
    exact absurd alone.1.symm (regular.some alone.2.1.symm)

theorem setCommandString_joined (regular : ∀ entry ∈ entries, Regular entry)
    (keep : keepsAll entries = true) : setCommandString (joined entries) = entries := by
  induction entries with
  | nil => exact setCommandString_nil
  | cons entry rest ih =>
    rw [forall_mem_cons] at regular
    cases rest with
    | nil =>
      have comes := (comesBack_iff regular.1 true).mpr keep
      obtain ⟨c, tail, rendered, notBlank⟩ := quoted_head regular.1 comes.1
      have alone := comes.1
      change setCommandString (quoted entry) = _
      rw [rendered] at alone ⊢
      rw [setCommandString_cons notBlank, parseSingleArgument, alone, setCommandString_nil]
    | cons next rest =>
      rw [keepsAll, Bool.and_eq_true] at keep
      have comes := (comesBack_iff regular.1 false).mpr keep.1
      obtain ⟨c, tail, rendered, notBlank⟩ := quoted_head regular.1 comes.1
      have followed := comes.2 rfl (joined (next :: rest))
      rw [joined]
      rw [rendered, cons_append] at followed ⊢
      rw [setCommandString_cons notBlank, parseSingleArgument, followed, ih regular.2 keep.2]

theorem keepsAll_of_setCommandString (regular : ∀ entry ∈ entries, Regular entry)
    (same : setCommandString (joined entries) = entries) : keepsAll entries = true := by
  induction entries with
  | nil => rfl
  | cons entry rest ih =>
    have blanks := joined_blanks regular (cons_ne_nil _ _)
    rw [forall_mem_cons] at regular
    rw [spaces_cons] at blanks
    obtain ⟨front, consumed, -, inFront, counted, alone, ends⟩ := setCommandString_eq_cons same
    have allBlank := countP_all inFront
    rcases ends with ⟨split, rfl⟩ | ⟨separator, behind, isBlank, split, later, followed⟩
    · -- Nothing is trimmed.
      rw [split, countP_append, allBlank, ← counted] at blanks
      change _ = _ + 1 + 0 at blanks
      obtain rfl : front = [] := length_eq_zero_iff.mp (by omega)
      change quoted entry = consumed at split
      refine (comesBack_iff regular.1 true).mp ⟨?_, nofun⟩
      rwa [split]
    · have enough := setCommandString_blanks behind
      rw [later] at enough
      have total := congrArg (countP blank) split
      rw [countP_append, countP_append, countP_cons_of_pos isBlank, allBlank, ← counted] at total
      obtain rfl : front = [] := length_eq_zero_iff.mp (by omega)
      cases rest with
      | nil =>
        change _ + 1 = _ + 1 + 0 at blanks
        omega
      | cons next rest =>
        rw [joined, nil_append] at split
        have counts : (quoted entry).countP blank = consumed.countP blank := by
          rw [quoted_blanks regular.1, counted]
        obtain ⟨rfl, rfl⟩ := same_front split (by decide) isBlank counts
        rw [keepsAll, Bool.and_eq_true]
        exact ⟨(comesBack_iff regular.1 false).mp ⟨alone, fun _ => followed⟩, ih regular.2 later⟩

/-- The rendering of a parsed command is parsed the same way just if no argument has its own quote in it, none
in double quotes a backslash that escapes something, and none without quotes a blank, a quote or such a backslash.
-/
theorem setCommandString_quoted_iff (command : Bytes) :
    setCommandString (getQuotedCommandString (setCommandString command)).2 = setCommandString command ↔
      keepsAll (setCommandString command) = true :=
  ⟨keepsAll_of_setCommandString (setCommandString_regular command),
    setCommandString_joined (setCommandString_regular command)⟩

theorem setCommandString_escaped_blank :
    setCommandString [0x61, backslash, space, 0x62] = [⟨[0x61, space, 0x62], 0⟩] := by
  have regular (c : UInt8) (arg command : Bytes) (isPlain : plain [c] = true) :
      parseArgument arg 0 (c :: command) = parseArgument (arg ++ [c]) 0 command :=
    parseArgument_plain isPlain arg 0 command
  rw [setCommandString_cons (by decide), parseSingleArgument, regular 0x61 _ _ (by decide), parseArgument_escape,
    regular 0x62 _ _ (by decide), parseArgument_nil, setCommandString_nil]
  rfl

/-- A blank that was escaped separates two arguments of the rendering. -/
theorem escaped_blank_not_quoted :
    ¬ setCommandString (getQuotedCommandString (setCommandString [0x61, backslash, space, 0x62])).2 =
      setCommandString [0x61, backslash, space, 0x62] := by
  intro same
  have keep := keepsAll_of_setCommandString (setCommandString_regular _) same
  rw [setCommandString_escaped_blank] at keep
  exact absurd keep (by decide)

end Lldb.Args
