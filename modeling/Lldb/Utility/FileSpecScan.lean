import Lldb.Utility.FileSpec

/-! What `needsNormalization` finds in a path, and what it overlooks. -/

set_option autoImplicit false

namespace Lldb

open Library.PosixPath (Path slash dot upward)
open List

def firstPiece (path : Path) : Path := path.takeWhile (! isSeparator ·)

def removable (piece : Path) : Bool := piece = [] || piece = [dot] || piece = upward

def Redundant (path : Path) : Prop :=
  ∃ before c after, path = before ++ c :: after ∧ isSeparator c = true ∧ removable (firstPiece after) = true

theorem redundant_cons (c : UInt8) (rest : Path) :
    Redundant (c :: rest) ↔ isSeparator c = true ∧ removable (firstPiece rest) = true ∨ Redundant rest := by
  constructor
  · rintro ⟨before, c', after, split, separator, found⟩
    cases before with
    | nil =>
      cases split
      exact .inl ⟨separator, found⟩
    | cons first before =>
      cases split
      exact .inr ⟨before, c', after, rfl, separator, found⟩
  · rintro (⟨separator, found⟩ | ⟨before, c', after, rfl, separator, found⟩)
    · exact ⟨[], c, rest, rfl, separator, found⟩
    · exact ⟨c :: before, c', after, rfl, separator, found⟩

theorem not_redundant_nil : ¬ Redundant [] := by
  rintro ⟨before, c, after, split, -⟩
  cases before with
  | nil => cases split
  | cons => cases split

theorem firstPiece_cons (c : UInt8) (rest : Path) :
    firstPiece (c :: rest) = if isSeparator c then [] else c :: firstPiece rest := by
  rw [firstPiece, takeWhile_cons]
  cases isSeparator c with
  | true => rfl
  | false => rfl

theorem safeCharAtIndex_zero_cons (c : UInt8) (rest : Path) : safeCharAtIndex (c :: rest) 0 = c := rfl

theorem safeCharAtIndex_one_cons (c : UInt8) (rest : Path) :
    safeCharAtIndex (c :: rest) 1 = safeCharAtIndex rest 0 := rfl

variable {path others piece : Path} {next c : UInt8} {rest : List Path}

/-- A path without a null character ends, or a piece of it does, where the code sees a null or a separator. -/
theorem ends_iff (noNul : 0 ∉ path) :
    (safeCharAtIndex path 0 = 0 ∨ isSeparator (safeCharAtIndex path 0) = true) ↔ firstPiece path = [] := by
  cases path with
  | nil => exact iff_of_true (.inl rfl) rfl
  | cons c rest =>
    have some_ : c ≠ 0 := fun same => noNul (same ▸ mem_cons_self)
    rw [safeCharAtIndex_zero_cons, firstPiece_cons]
    cases separator : isSeparator c with
    | true => exact iff_of_true (.inr rfl) rfl
    | false => simp [some_]

theorem dotsEnd_iff (noNul : 0 ∉ path) : dotsEnd path = true ↔ firstPiece path = [] ∨ firstPiece path = [dot] := by
  unfold dotsEnd
  dsimp only
  rw [← ends_iff noNul]
  split
  · next ends => exact iff_of_true rfl (.inl ends)
  · next goes =>
    rw [or_iff_right goes]
    cases path with
    | nil => exact absurd (.inl rfl) goes
    | cons c rest =>
      rw [not_or] at goes
      have separator : isSeparator c = false := Bool.eq_false_iff.mpr goes.2
      have later : 0 ∉ rest := fun member => noNul (mem_cons_of_mem c member)
      have ends := ends_iff later
      rw [safeCharAtIndex_zero_cons, safeCharAtIndex_one_cons, firstPiece_cons, separator]
      simp [ends]

theorem removable_cons (noNul : 0 ∉ next :: others) :
    removable (firstPiece (next :: others)) = true ↔ isSeparator next = true ∨ next = dot ∧ dotsEnd others = true := by
  have later : 0 ∉ others := fun member => noNul (mem_cons_of_mem next member)
  rw [dotsEnd_iff later, firstPiece_cons]
  cases separator : isSeparator next with
  | true => exact iff_of_true rfl (.inl rfl)
  | false =>
    simp only [Bool.false_eq_true, if_false, removable, upward, Bool.or_eq_true, decide_eq_true_eq,
      List.cons.injEq]
    tauto

theorem needsNormalizationLoop_false (noNul : 0 ∉ path) : needsNormalizationLoop false path = true ↔ Redundant path := by
  induction path with
  | nil => exact iff_of_false Bool.false_ne_true not_redundant_nil
  | cons c rest ih =>
    have later : 0 ∉ rest := fun member => noNul (mem_cons_of_mem c member)
    rw [redundant_cons, ← ih later, needsNormalizationLoop.eq_def]
    dsimp only
    cases separator : isSeparator c with
    | false => simp
    | true =>
      rw [if_pos rfl]
      cases rest with
      | nil => exact iff_of_true rfl (.inl ⟨rfl, rfl⟩)
      | cons next others =>
        have some_ : next ≠ 0 := fun same => later (same ▸ mem_cons_self)
        rw [removable_cons later]
        dsimp only
        rw [if_neg some_]
        split
        · next found => exact iff_of_true rfl (.inl ⟨rfl, .inl found⟩)
        · split
          · next found => exact iff_of_true rfl (.inl ⟨rfl, .inr found⟩)
          · next plain dots =>
            rw [or_iff_right]
            rintro ⟨-, found | found⟩
            · exact plain found
            · exact dots found

/-! The start of a path. -/

theorem needsNormalization_plain {rest : Path} (noNul : 0 ∉ c :: rest) (plain : isSeparator c = false)
    (other : c ≠ dot) : needsNormalization (c :: rest) = true ↔ Redundant rest := by
  have later : 0 ∉ rest := fun member => noNul (mem_cons_of_mem c member)
  rw [needsNormalization, if_neg other, needsNormalizationLoop.eq_def]
  dsimp only
  rw [plain]
  exact needsNormalizationLoop_false later

theorem separator_ne_dot (separator : isSeparator c = true) : c ≠ dot := by
  rintro rfl
  exact absurd separator (by decide)

theorem needsNormalization_separators (noNul : 0 ∉ c :: next :: others)
    (separator : isSeparator c = true) (second : isSeparator next = true) :
    needsNormalization (c :: next :: others) = true ↔ Redundant others := by
  have some_ : next ≠ 0 := fun same => noNul (same ▸ by simp)
  have later : 0 ∉ others := fun member => noNul (by simp [member])
  rw [needsNormalization, if_neg (separator_ne_dot separator), needsNormalizationLoop.eq_def]
  dsimp only
  rw [if_pos separator, if_neg some_, if_pos second]
  exact needsNormalizationLoop_false later

theorem needsNormalization_rooted (noNul : 0 ∉ c :: next :: others)
    (separator : isSeparator c = true) (plain : isSeparator next = false) :
    needsNormalization (c :: next :: others) = true ↔ Redundant (c :: next :: others) := by
  have some_ : next ≠ 0 := fun same => noNul (same ▸ by simp)
  rw [← needsNormalizationLoop_false noNul, needsNormalization, if_neg (separator_ne_dot separator),
    needsNormalizationLoop.eq_def, needsNormalizationLoop.eq_def]
  dsimp only
  rw [if_pos separator, if_neg some_, if_pos separator, if_neg some_, plain]
  exact Iff.rfl

/-! The pieces between the slashes of a path without redundancies. -/

variable (split : path.splitOn slash = piece :: rest)
include split

theorem head_splitOn :
    path = piece ∧ rest = [] ∨ ∃ more, path = piece ++ slash :: more ∧ more.splitOn slash = rest := by
  have whole : [slash].intercalate (path.splitOn slash) = path := intercalate_splitOn slash
  rw [split] at whole
  cases rest with
  | nil =>
    rw [intercalate_singleton] at whole
    exact .inl ⟨whole.symm, rfl⟩
  | cons next rest =>
    refine .inr ⟨_, whole.symm, splitOn_intercalate slash (fun other member => ?_) (cons_ne_nil _ _)⟩
    exact Library.PosixPath.slash_not_mem (split ▸ mem_cons_of_mem piece member)

theorem removable_firstPiece (found : removable piece = true) : firstPiece path = piece := by
  simp only [removable, Bool.or_eq_true, decide_eq_true_eq, or_assoc] at found
  rcases head_splitOn split with ⟨rfl, -⟩ | ⟨more, rfl, -⟩
  · rcases found with rfl | rfl | rfl
    · rfl
    · rfl
    · rfl
  · rcases found with rfl | rfl | rfl
    · rfl
    · rfl
    · rfl

/-- All pieces but the first stand behind a slash. -/
theorem tail_splitOn (clean : ¬ Redundant path) : ∀ other ∈ rest, removable other = false := by
  induction path generalizing piece rest with
  | nil =>
    cases split
    exact fun _ member => absurd member not_mem_nil
  | cons c path ih =>
    rw [redundant_cons, not_or] at clean
    -- A slash starts a new piece; any other character belongs to the first one, of which nothing is said.
    rw [splitOn_cons_eq_if_modifyHead] at split
    cases parts : path.splitOn slash with
    | nil => exact absurd parts (splitOn_ne_nil slash path)
    | cons first later =>
      have behind := ih parts clean.2
      rw [parts] at split
      split at split
      · next same =>
        cases split
        rw [beq_iff_eq] at same
        intro other member
        rcases mem_cons.mp member with rfl | further
        · rw [Bool.eq_false_iff]
          intro found
          refine clean.1 ⟨same ▸ rfl, ?_⟩
          rw [removable_firstPiece parts found]
          exact found
        · exact behind other further
      · cases split
        exact behind

end Lldb
