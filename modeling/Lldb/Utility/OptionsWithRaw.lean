import Lldb.Utility.ArgsPrefixes

/-! `OptionsWithRaw`: options, a double dash, and a raw string behind it that is left as it is. -/

set_option autoImplicit false

namespace Lldb

open Args List

structure OptionsWithRaw where
  hasArgs : Bool
  args : List ArgEntry
  argString : Bytes
  argStringWithDelimiter : Bytes
  suffix : Bytes
  deriving DecidableEq, Repr

namespace OptionsWithRaw

def dash : UInt8 := 0x2d

def delimiter : ArgEntry := ⟨[dash, dash], 0⟩

def raw (originalArgs : Bytes) : OptionsWithRaw := ⟨false, [], [], [], originalArgs⟩

/-- The loop of `SetFromString`; lengths of what is parsed come from those of what remains. -/
def optionsLoop (originalArgs argString : Bytes) : OptionsWithRaw :=
  match argString with
  | [] => raw originalArgs
  | c :: rest =>
      if (parseSingleArgument (c :: rest)).firstQuoteChar = 0 ∧
          (parseSingleArgument (c :: rest)).arg = [dash, dash] then
        let argPrefix := originalArgs.take (originalArgs.length - (c :: rest).length)
        let suffix := (parseSingleArgument (c :: rest)).command
        { hasArgs := true
          args := setCommandString argPrefix
          argString := argPrefix
          argStringWithDelimiter := originalArgs.take (originalArgs.length - suffix.length)
          suffix := suffix }
      else optionsLoop originalArgs (ltrimForArgs (parseSingleArgument (c :: rest)).command)
termination_by argString.length
decreasing_by
  have less := parseArgument_rest [] 0 (c :: rest)
  have trimmed := (dropWhile_sublist (l := (parseSingleArgument (c :: rest)).command) (p := blank)).length_le
  simp only [length_cons, ltrimForArgs, parseSingleArgument] at less trimmed ⊢
  omega

def startsWithDash (argString : Bytes) : Prop := (ltrimForArgs argString).head? = some dash

instance (argString : Bytes) : Decidable (startsWithDash argString) :=
  inferInstanceAs (Decidable (_ = _))

def setFromString (argString : Bytes) : OptionsWithRaw :=
  if startsWithDash argString then optionsLoop argString (ltrimForArgs argString) else raw argString

/-! Commands read in two pieces. -/

def Reads (front : Bytes) (entries : List ArgEntry) : Prop :=
  ∀ tail, setCommandString (front ++ tail) = entries ++ setCommandString tail

theorem reads_blanks {front : Bytes} (blanks : ∀ c ∈ front, blank c = true) : Reads front [] := by
  intro tail
  unfold setCommandString ltrimForArgs
  rw [dropWhile_append_of_pos blanks, nil_append]

theorem Reads.append {front back : Bytes} {first second : List ArgEntry} (left : Reads front first)
    (right : Reads back second) : Reads (front ++ back) (first ++ second) := by
  intro tail
  rw [append_assoc, left, right, append_assoc]

theorem Reads.alone {front : Bytes} {entries : List ArgEntry} (reads : Reads front entries) :
    setCommandString front = entries := by
  have whole := reads []
  rwa [append_nil, setCommandString_nil, append_nil] at whole

theorem ltrimForArgs_split (command : Bytes) : ∃ blanks, command = blanks ++ ltrimForArgs command ∧ Reads blanks [] :=
  ⟨command.takeWhile blank, (takeWhile_append_dropWhile).symm, reads_blanks fun _ => mem_takeWhile_imp⟩

theorem reads_argument {c : UInt8} (notBlank : ¬ blank c = true) (rest : Bytes)
    (more : (parseSingleArgument (c :: rest)).command ≠ []) :
    ∃ consumed, c :: rest = consumed ++ (parseSingleArgument (c :: rest)).command ∧ Reads consumed
        [⟨(parseSingleArgument (c :: rest)).arg, (parseSingleArgument (c :: rest)).firstQuoteChar⟩] := by
  obtain ⟨consumed, split, same⟩ := (parseArgument_split [] 0 (c :: rest)).resolve_left more
  refine ⟨consumed, split, fun tail => ?_⟩
  cases consumed with
  | nil =>
    -- An argument takes something off.
    have less := parseArgument_rest [] 0 (c :: rest)
    rw [nil_append] at split
    rw [← split] at less
    exact absurd less (by simp)
  | cons first consumed =>
    obtain rfl : c = first := (List.cons.inj split).1
    have parsed := same tail
    rw [cons_append] at parsed ⊢
    rw [setCommandString_cons notBlank]
    unfold parseSingleArgument
    rw [parsed]
    rfl

structure Splits (argString : Bytes) (options : OptionsWithRaw) : Prop where
  hasArgs : options.hasArgs = true
  whole : options.argStringWithDelimiter ++ options.suffix = argString
  front : options.argString <+: argString
  reparsed : options.args = setCommandString options.argString
  args : options.args = (setCommandString argString).takeWhile (· ≠ delimiter)
  none : delimiter ∉ options.args

theorem optionsLoop_spec {front argString originalArgs : Bytes} {entries : List ArgEntry}
    (split : originalArgs = front ++ argString) (reads : Reads front entries) (before : delimiter ∉ entries)
    (trimmed : ltrimForArgs argString = argString) :
    (delimiter ∈ setCommandString argString → Splits originalArgs (optionsLoop originalArgs argString)) ∧
      (delimiter ∉ setCommandString argString → optionsLoop originalArgs argString = raw originalArgs) := by
  induction argString using optionsLoop.induct originalArgs generalizing front entries with
  | case1 =>
    rw [setCommandString_nil, optionsLoop.eq_def]
    exact ⟨nofun, fun _ => rfl⟩
  | case2 c rest found =>
    set parsed := parseSingleArgument (c :: rest)
    have notBlank := ltrimForArgs_head trimmed
    have here := setCommandString_cons notBlank rest
    have entry : (⟨parsed.arg, parsed.firstQuoteChar⟩ : ArgEntry) = delimiter := by
      rw [found.1, found.2]
      rfl
    rw [entry] at here
    have taken : originalArgs.take (originalArgs.length - (c :: rest).length) = front := by
      simp [split]
    obtain ⟨consumed, rest_⟩ : ∃ consumed, c :: rest = consumed ++ parsed.command := by
      rcases parseArgument_split [] 0 (c :: rest) with ends | ⟨consumed, rest_, -⟩
      · exact ⟨c :: rest, by rw [show parsed.command = [] from ends, append_nil]⟩
      · exact ⟨consumed, rest_⟩
    have value : optionsLoop originalArgs (c :: rest) =
        ⟨true, setCommandString front, front, originalArgs.take (originalArgs.length - parsed.command.length),
          parsed.command⟩ := by
      rw [optionsLoop.eq_def]
      simp only
      rw [if_pos found, taken]
    rw [value, here]
    refine ⟨fun _ => ⟨rfl, ?_, ?_, rfl, ?_, ?_⟩, fun absent => absurd mem_cons_self absent⟩
    · simp [split, rest_, ← append_assoc]
    · exact split ▸ prefix_append _ _
    · rw [reads.alone, split, reads, here, takeWhile_append_of_pos]
      · simp
      · exact fun entry member => decide_eq_true fun same => before (same ▸ member)
    · rwa [reads.alone]
  | case3 c rest notFound ih =>
    set parsed := parseSingleArgument (c :: rest)
    have notBlank := ltrimForArgs_head trimmed
    have here := setCommandString_cons notBlank rest
    have other : (⟨parsed.arg, parsed.firstQuoteChar⟩ : ArgEntry) ≠ delimiter := fun same =>
      notFound ⟨congrArg ArgEntry.quote same, congrArg ArgEntry.ref same⟩
    have next : optionsLoop originalArgs (c :: rest) = optionsLoop originalArgs (ltrimForArgs parsed.command) := by
      rw [optionsLoop.eq_def]
      simp only
      rw [if_neg notFound]
    have same : delimiter ∈ setCommandString (c :: rest) ↔
        delimiter ∈ setCommandString (ltrimForArgs parsed.command) := by
      rw [here, setCommandString_trimmed, mem_cons, or_iff_right other.symm]
    rw [next, same]
    by_cases more : parsed.command = []
    · -- The last argument; nothing is left that could be read.
      have nothing : ltrimForArgs parsed.command = [] := by rw [more]; rfl
      rw [nothing, setCommandString_nil, optionsLoop.eq_def]
      exact ⟨nofun, fun _ => rfl⟩
    · obtain ⟨consumed, rest_, argument⟩ := reads_argument notBlank rest more
      obtain ⟨blanks, behind, skipped⟩ := ltrimForArgs_split parsed.command
      have later := ih ?_ (reads.append (argument.append skipped)) ?_ ?_
      · exact later
      · calc originalArgs = front ++ (consumed ++ parsed.command) := by rw [split]; exact congrArg _ rest_
          _ = front ++ (consumed ++ (blanks ++ ltrimForArgs parsed.command)) := by rw [← behind]
          _ = front ++ (consumed ++ blanks) ++ ltrimForArgs parsed.command := by simp only [append_assoc]
      · rw [append_nil, mem_append, mem_singleton, not_or]
        exact ⟨before, other.symm⟩
      · exact dropWhile_idempotent _ _

/-- Options with a delimiter behind them are split off and parsed; any other string stays whole. -/
theorem setFromString_splits (argString : Bytes) :
    (startsWithDash argString ∧ delimiter ∈ setCommandString argString → Splits argString (setFromString argString)) ∧
      (¬ (startsWithDash argString ∧ delimiter ∈ setCommandString argString) →
        setFromString argString = raw argString) := by
  obtain ⟨blanks, split, skipped⟩ := ltrimForArgs_split argString
  have loop := optionsLoop_spec split skipped not_mem_nil (dropWhile_idempotent _ _)
  rw [setCommandString_trimmed] at loop
  unfold setFromString
  constructor
  · rintro ⟨dashed, delimited⟩
    rw [if_pos dashed]
    exact loop.1 delimited
  · intro notBoth
    by_cases dashed : startsWithDash argString
    · rw [if_pos dashed]
      exact loop.2 fun delimited => notBoth ⟨dashed, delimited⟩
    · rw [if_neg dashed]

end OptionsWithRaw

end Lldb
