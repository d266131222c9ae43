import Lldb.Utility.ArgsPrefixes

/-! An argument that is escaped, quoted and parsed again. -/

set_option autoImplicit false

namespace Lldb.Args

open List

def quotedCommand (arg : Bytes) (quoteChar : UInt8) : Option Bytes :=
  (escapeLLDBCommandArgument arg quoteChar).map fun escaped =>
    if quoteChar = 0 then escaped else quoteChar :: (escaped ++ [quoteChar])

def parsed (command : Bytes) : List Bytes := (setCommandString command).map ArgEntry.ref

theorem arguments_cons (c : UInt8) (rest : Bytes) : arguments (c :: rest) =
    ⟨(parseSingleArgument (c :: rest)).arg, (parseSingleArgument (c :: rest)).firstQuoteChar⟩ ::
      arguments (ltrimForArgs (parseSingleArgument (c :: rest)).command) := by
  rw [arguments.eq_def]

theorem arguments_eq_nil {command : Bytes} : arguments command = [] ↔ command = [] := by
  cases command with
  | nil => simp [arguments.eq_def]
  | cons c rest => simp [arguments_cons]

/-- A command that begins with no blank is a single argument just if that takes all of it up to blanks. -/
theorem parsed_eq_singleton {c : UInt8} (notBlank : ¬ blank c = true) (rest arg : Bytes) : parsed (c :: rest) = [arg] ↔
      (parseSingleArgument (c :: rest)).arg = arg ∧ ltrimForArgs (parseSingleArgument (c :: rest)).command = [] := by
  have trimmed : ltrimForArgs (c :: rest) = c :: rest := dropWhile_cons_of_neg notBlank
  simp [parsed, setCommandString, trimmed, arguments_cons, arguments_eq_nil]

theorem strchr_of_ne {chars : Bytes} {c : UInt8} (some_ : c ≠ 0) : strchr chars c = true ↔ c ∈ chars := by
  simp [strchr, some_]

variable {text : Bytes}

theorem parseArgument_escaped (arg : Bytes) (firstQuoteChar : UInt8) (noNul : 0 ∉ text) :
    parseArgument arg firstQuoteChar
        (text.flatMap fun c => if strchr escapable c then [backslash, c] else [c]) =
      ⟨arg ++ text, firstQuoteChar, []⟩ := by
  induction text generalizing arg with
  | nil => rw [flatMap_nil, parseArgument_nil, append_nil]
  | cons c text ih =>
    rw [mem_cons, not_or] at noNul
    rw [flatMap_cons]
    by_cases special : strchr escapable c = true
    · simp [if_pos special, parseArgument_escape, ih _ noNul.2, unescaped]
    · rw [if_neg special, singleton_append]
      rw [strchr_of_ne (Ne.symm noNul.1)] at special
      simp only [escapable, mem_cons, not_mem_nil, or_false, not_or] at special
      obtain ⟨notSpace, notTab, notBackslash, notSingle, notDouble, notBacktick⟩ := special
      simp [parseArgument_regular _ _ _ notBackslash (by simp [blank, notSpace, notTab]) notDouble
        (not_or.mpr ⟨notSingle, notBacktick⟩), ih _ noNul.2]

theorem parsed_unquoted (noNul : 0 ∉ text) (some_ : text ≠ []) : (quotedCommand text 0).map parsed = some [text] := by
  have whole := parseArgument_escaped [] 0 noNul
  cases text with
  | nil => exact absurd rfl some_
  | cons first text =>
    have head : ∃ c rest, ((first :: text).flatMap fun c => if strchr escapable c then [backslash, c] else [c]) =
        c :: rest ∧ ¬ blank c = true := by
      rw [flatMap_cons]
      by_cases special : strchr escapable first = true
      · rw [if_pos special]
        exact ⟨backslash, _, rfl, by decide⟩
      · rw [if_neg special]
        refine ⟨first, _, rfl, fun isBlank => special ?_⟩
        rcases Bool.or_eq_true_iff.mp isBlank with same | same
        · rw [of_decide_eq_true same]
          rfl
        · rw [of_decide_eq_true same]
          rfl
    obtain ⟨c, rest, split, notBlank⟩ := head
    change some (parsed (flatMap _ _)) = _
    rw [split] at whole ⊢
    rw [(parsed_eq_singleton notBlank rest (first :: text)).mpr]
    rw [parseSingleArgument, whole]
    exact ⟨rfl, rfl⟩

theorem escape_single (noNul : 0 ∉ text) :
    quotedCommand text singleQuote = some (singleQuote :: (text ++ [singleQuote])) := by
  have same : (text.flatMap fun c => if strchr [] c then [backslash, c] else [c]) = text := by
    induction text with
    | nil => rfl
    | cons c text ih =>
      rw [mem_cons, not_or] at noNul
      rw [flatMap_cons, ih noNul.2, if_neg (by simp [strchr, Ne.symm noNul.1]), singleton_append]
  change some (singleQuote :: (flatMap _ _ ++ [singleQuote])) = _
  rw [same]

theorem parsed_single (noNul : 0 ∉ text) :
    (quotedCommand text singleQuote).map parsed = some [text] ↔ singleQuote ∉ text := by
  have notBlank : ¬ blank singleQuote = true := by decide
  rw [escape_single noNul, Option.map_some, Option.some.injEq, parsed_eq_singleton notBlank, parseSingleArgument,
    parseArgument_quote _ _ _ (.inl rfl), nil_append]
  constructor
  · rintro ⟨whole, -⟩ member
    obtain ⟨front, back, rfl, absent⟩ := eq_append_cons_of_mem member
    obtain ⟨taken, dropped⟩ := span_at (back ++ [singleQuote]) absent
    rw [append_assoc, cons_append, taken, dropped, drop_one, tail_cons] at whole
    -- The closing quote opens another one, or is escaped; a character is lost either way.
    have short := (parseArgument_length front (noted 0 singleQuote) (back ++ [singleQuote])).2 (.inr (by simp))
    rw [whole] at short
    simp only [length_append, length_cons, length_nil] at short
    omega
  · intro absent
    obtain ⟨taken, dropped⟩ := span_at [] absent
    rw [taken, dropped, drop_one, tail_cons, parseArgument_nil]
    exact ⟨rfl, rfl⟩

/-- What comes out of double quotes: the backslash before a dollar or a backtick stays. -/
def doubled (text : Bytes) : Bytes :=
  text.flatMap fun c => if c = dollar ∨ c = backtick then [backslash, c] else [c]

theorem parseDoubleQuotes_escaped (result rest : Bytes) (noNul : 0 ∉ text) :
    parseDoubleQuotes result ((text.flatMap fun c =>
        if strchr [dollar, doubleQuote, backtick, backslash] c then [backslash, c] else [c]) ++ doubleQuote :: rest) =
      (result ++ doubled text, doubleQuote :: rest) := by
  induction text generalizing result with
  | nil =>
    rw [parseDoubleQuotes.eq_def]
    simp [doubled]
  | cons c text ih =>
    rw [mem_cons, not_or] at noNul
    have unnul : c ≠ 0 := Ne.symm noNul.1
    rw [flatMap_cons, doubled, flatMap_cons, ← doubled]
    by_cases special : strchr [dollar, doubleQuote, backtick, backslash] c = true
    · rw [if_pos special, append_assoc, cons_append, singleton_append, parseDoubleQuotes_escape,
        ih _ noNul.2, append_assoc]
      rw [strchr_of_ne unnul] at special
      simp only [mem_cons, not_mem_nil, or_false] at special
      rcases special with rfl | rfl | rfl | rfl <;> rfl
    · rw [if_neg special]
      rw [strchr_of_ne unnul] at special
      simp only [mem_cons, not_mem_nil, or_false, not_or] at special
      simp [parseDoubleQuotes_regular _ _ special.2.1 special.2.2.2, ih _ noNul.2, if_neg (not_or.mpr ⟨special.1, special.2.2.1⟩)]

theorem doubled_eq : doubled text = text ↔ dollar ∉ text ∧ backtick ∉ text := by
  have longer (text : Bytes) : text.length ≤ (doubled text).length := by
    induction text with
    | nil => exact le_refl _
    | cons c text ih =>
      rw [doubled, flatMap_cons, ← doubled, length_append]
      split_ifs
      · simp only [length_cons]
        omega
      · simp only [length_cons]
        omega
  induction text with
  | nil => simp [doubled]
  | cons c text ih =>
    rw [doubled, flatMap_cons, ← doubled]
    by_cases special : c = dollar ∨ c = backtick
    · rw [if_pos special]
      refine iff_of_false (fun same => ?_) fun absent => ?_
      · have lengths := congrArg length same
        have more := longer text
        simp only [cons_append, nil_append, length_cons] at lengths
        omega
      · rcases special with rfl | rfl
        · exact absent.1 mem_cons_self
        · exact absent.2 mem_cons_self
    · rw [if_neg special, singleton_append, cons.injEq, and_iff_right rfl]
      rw [not_or] at special
      refine ih.trans ?_
      simp [Ne.symm special.1, Ne.symm special.2]

theorem parsed_double (noNul : 0 ∉ text) :
    (quotedCommand text doubleQuote).map parsed = some [text] ↔ dollar ∉ text ∧ backtick ∉ text := by
  have notBlank : ¬ blank doubleQuote = true := by decide
  change some (parsed (doubleQuote :: (flatMap _ _ ++ [doubleQuote]))) = _ ↔ _
  rw [Option.some.injEq, parsed_eq_singleton notBlank, parseSingleArgument, parseArgument_double,
    parseDoubleQuotes_escaped _ _ noNul, drop_one, tail_cons, parseArgument_nil, ← doubled_eq]
  exact and_iff_left rfl

/-- An argument that is escaped, quoted and parsed comes back just if it has no quote inside single
quotes, and no dollar and no backtick inside double quotes. -/
theorem parsed_quotedCommand_iff {text : Bytes} {quoteChar : UInt8}
    (quotes : quoteChar = 0 ∨ quoteChar = singleQuote ∨ quoteChar = doubleQuote) (noNul : 0 ∉ text)
    (some_ : quoteChar = 0 → text ≠ []) :
    (quotedCommand text quoteChar).map parsed = some [text] ↔ (quoteChar = singleQuote → singleQuote ∉ text) ∧
        (quoteChar = doubleQuote → dollar ∉ text ∧ backtick ∉ text) := by
  rcases quotes with rfl | rfl | rfl
  · exact iff_of_true (parsed_unquoted noNul (some_ rfl)) ⟨nofun, nofun⟩
  · rw [parsed_single noNul]
    exact ⟨fun absent => ⟨fun _ => absent, nofun⟩, fun both => both.1 rfl⟩
  · rw [parsed_double noNul]
    exact ⟨fun absent => ⟨nofun, fun _ => absent⟩, fun both => both.2 rfl⟩

theorem parsed_quotedCommand_iff_plain :
    (quotedCommand [0x61, singleQuote] doubleQuote).map parsed = some [[0x61, singleQuote]] ↔
      (doubleQuote = singleQuote → singleQuote ∉ [0x61, singleQuote]) ∧
        (doubleQuote = doubleQuote → dollar ∉ [0x61, singleQuote] ∧ backtick ∉ [0x61, singleQuote]) :=
  parsed_quotedCommand_iff (.inr (.inr rfl)) (by decide) (by decide)

/-- A dollar in double quotes comes back behind a backslash. -/
theorem dollar_not_parsed : ¬ (quotedCommand [dollar] doubleQuote).map parsed = some [[dollar]] := by
  intro same
  exact ((parsed_double (by decide)).mp same).1 mem_cons_self

end Lldb.Args
