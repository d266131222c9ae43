import Lldb.Utility.FileSpecScan

/-! What `FileSpec` keeps of a path: when the fast path around `remove_dots` is sound, that the path of a `FileSpec` is
its own normal form, and when two paths are the same `FileSpec`.
-/

set_option autoImplicit false

namespace Lldb

open Library.PosixPath (Path slash dot upward root pieces rooted splitOn_plain splitOn_slash_cons Settled)
open Library.PosixPath FileSpec List

/-- A pair of separators at the start hides a piece that normalisation removes, and nothing else in the path is
redundant: the path is `//`, starts with `///`, or with `\/` and a removable piece.
-/
def Hidden : Path → Prop
  | first :: second :: rest => second = slash ∧ ¬ Redundant rest ∧ (first = slash ∧ rest.takeWhile (· ≠ slash) = [] ∨
        first = backslash ∧ removable (rest.takeWhile (· ≠ slash)) = true)
  | _ => False

variable {path piece : Path} {rest : List Path}

theorem takeWhile_splitOn (split : path.splitOn slash = piece :: rest) : path.takeWhile (· ≠ slash) = piece := by
  have free : ∀ c ∈ piece, decide (c ≠ slash) = true := fun c member =>
    decide_eq_true fun same =>
      slash_not_mem (split ▸ mem_cons_self : piece ∈ path.splitOn slash) (same ▸ member)
  rcases head_splitOn split with ⟨rfl, -⟩ | ⟨more, rfl, -⟩
  · exact takeWhile_eq_self_iff.mpr free
  · rw [takeWhile_append_of_pos free, takeWhile_cons_of_neg (by simp), List.append_nil]

/-! Paths that are left as they are. -/

theorem kept_of_unremovable (stays : removable piece = false) : kept piece = true ∧ piece ≠ upward := by
  simp only [removable, Bool.or_eq_false_iff, decide_eq_false_iff_not] at stays
  exact ⟨decide_eq_true ⟨stays.1.1, stays.1.2⟩, stays.2⟩

theorem removeDots_eq_self (stay : ∀ piece ∈ pieces path, removable piece = false) : removeDots path = path := by
  refine (removeDots_eq_self_iff path).mpr
    (.inr ⟨fun piece member => ?_, 0, pieces path, rfl, ?_, ?_⟩)
  · exact ⟨(kept_of_unremovable (stay piece member)).1, slash_not_mem_pieces member⟩
  · exact fun member => (kept_of_unremovable (stay upward member)).2 rfl
  · exact fun _ => rfl

theorem removeDots_relative (split : path.splitOn slash = piece :: rest)
    (first : removable piece = false) (stay : ∀ other ∈ rest, removable other = false) :
    removeDots path = path := by
  apply removeDots_eq_self
  cases piece with
  | nil => cases first
  | cons c piece =>
    rw [pieces, split]
    exact forall_mem_cons.mpr ⟨first, stay⟩

theorem removeDots_directory (split : path.splitOn slash = [] :: piece :: rest)
    (first : removable piece = false) (stay : ∀ other ∈ rest, removable other = false) :
    removeDots path = path := by
  apply removeDots_eq_self
  cases piece with
  | nil => cases first
  | cons c piece =>
    rw [pieces, split]
    exact forall_mem_cons.mpr ⟨first, stay⟩

theorem removeDots_name (split : path.splitOn slash = [] :: [] :: piece :: rest)
    (named : piece ≠ []) (stay : ∀ other ∈ rest, removable other = false) :
    removeDots path = path := by
  apply removeDots_eq_self
  cases piece with
  | nil => exact absurd rfl named
  | cons c piece =>
    rw [pieces, split]
    exact stay

theorem unremovable_cons {c : UInt8} (other : c ≠ dot) (piece : Path) : removable (c :: piece) = false := by
  simp [removable, upward, other]

theorem isSeparator_cases {c : UInt8} (separator : isSeparator c = true) : c = slash ∨ c = backslash := by
  simp only [isSeparator, Bool.or_eq_true, decide_eq_true_eq] at separator
  exact separator.symm

theorem removeDots_of_fast (noNul : 0 ∉ path) (fast : needsNormalization path = false)
    (seen : ¬ Hidden path) : removeDots path = path := by
  rw [← Bool.not_eq_true] at fast
  cases path with
  | nil => rfl
  | cons c rest =>
    cases separator : isSeparator c with
    | false =>
      have other : c ≠ dot := by
        rintro rfl
        exact fast rfl
      rw [needsNormalization_plain noNul separator other] at fast
      have plain : c ≠ slash := by
        rintro rfl
        cases separator
      obtain ⟨first, later, parts⟩ := exists_cons_of_ne_nil (splitOn_ne_nil slash rest)
      exact removeDots_relative (splitOn_plain plain parts) (unremovable_cons other first) (tail_splitOn parts fast)
    | true =>
      cases rest with
      | nil =>
        rcases isSeparator_cases separator with rfl | rfl
        · rfl
        · rfl
      | cons next others =>
        -- Only a second separator makes the loop skip anything.
        cases second : isSeparator next with
        | false =>
          rw [needsNormalization_rooted noNul separator second] at fast
          obtain ⟨first, later, parts⟩ := exists_cons_of_ne_nil (splitOn_ne_nil slash (next :: others))
          rw [redundant_cons, not_or] at fast
          have stay := tail_splitOn parts fast.2
          rcases isSeparator_cases separator with rfl | rfl
          · have start : removable first = false := by
              rw [Bool.eq_false_iff]
              intro found
              exact fast.1 ⟨separator, by rw [removable_firstPiece parts found, found]⟩
            refine removeDots_directory ?_ start stay
            simp [parts]
          · exact removeDots_relative (splitOn_plain (by decide) parts) (unremovable_cons (by decide) first) stay
        | true =>
          rw [needsNormalization_separators noNul separator second] at fast
          obtain ⟨first, later, parts⟩ := exists_cons_of_ne_nil (splitOn_ne_nil slash others)
          have stay := tail_splitOn parts fast
          have apart : backslash ≠ slash := by decide
          have other : backslash ≠ dot := by decide
          rcases isSeparator_cases second with rfl | rfl
          · have start := takeWhile_splitOn parts
            rcases isSeparator_cases separator with rfl | rfl
            · refine removeDots_name ?_ (fun empty => seen ⟨rfl, fast, .inl ⟨rfl, start.trans empty⟩⟩) stay
              simp [parts]
            · have unseen : removable first = false := by
                rw [Bool.eq_false_iff]
                exact fun found => seen ⟨rfl, fast, .inr ⟨rfl, by rwa [start]⟩⟩
              refine removeDots_relative (splitOn_plain apart (splitOn_slash_cons others))
                (unremovable_cons other []) ?_
              rw [parts]
              exact forall_mem_cons.mpr ⟨unseen, stay⟩
          · rcases isSeparator_cases separator with rfl | rfl
            · refine removeDots_directory ?_ (unremovable_cons other first) stay
              simp [splitOn_plain apart parts]
            · have split := splitOn_plain apart (splitOn_plain apart parts)
              exact removeDots_relative split (unremovable_cons other _) stay

theorem not_settled_empty {absolute : Bool} : ¬ Settled absolute ([] :: rest) :=
  fun settled => absurd (settled.clean [] mem_cons_self).1 (by decide)

theorem not_settled_removable {absolute : Bool} {first second : Path} (named : first ≠ upward)
    (found : removable second = true) : ¬ Settled absolute (first :: second :: rest) := by
  intro settled
  have kept := (settled.clean second (by simp)).1
  simp only [removable, Bool.or_eq_true, decide_eq_true_eq, or_assoc] at found
  rcases found with rfl | rfl | rfl
  · cases kept
  · cases kept
  · obtain ⟨count, names, split, plain, -⟩ := settled.leading
    cases count with
    | zero =>
      rw [replicate_zero, nil_append] at split
      exact plain (split ▸ by simp)
    | succ count => exact named (cons.inj split).1

/-- Where something is hidden the path is left as it is although it is no normal form. -/
theorem removeDots_of_hidden (noNul : 0 ∉ path) (hidden : Hidden path) :
    needsNormalization path = false ∧ removeDots path ≠ path := by
  cases path with
  | nil => cases hidden
  | cons c rest =>
    cases rest with
    | nil => cases hidden
    | cons next others =>
      obtain ⟨rfl, clean, start⟩ := hidden
      obtain ⟨first, later, parts⟩ := exists_cons_of_ne_nil (splitOn_ne_nil slash others)
      rw [takeWhile_splitOn parts] at start
      have separator : isSeparator c = true := by
        rcases start with ⟨rfl, -⟩ | ⟨rfl, -⟩
        · rfl
        · rfl
      refine ⟨Bool.eq_false_iff.mpr (mt (needsNormalization_separators noNul separator rfl).mp clean), ?_⟩
      rw [Ne, removeDots_eq_self_iff, not_or]
      rcases start with ⟨rfl, rfl⟩ | ⟨rfl, found⟩
      · have split : (slash :: slash :: others).splitOn slash = [] :: [] :: [] :: later := by
          simp [parts]
        rw [pieces, split]
        exact ⟨by simp [rooted], not_settled_empty⟩
      · have split : (backslash :: slash :: others).splitOn slash = [backslash] :: first :: later := by
          rw [splitOn_plain (by decide) (splitOn_slash_cons others), parts]
        rw [pieces, split]
        exact ⟨by simp [rooted], not_settled_removable (show [backslash] ≠ upward by decide) found⟩

/-! A path put together again passes the fast path if the path itself does. -/

theorem Redundant.append (redundant : Redundant path) (front : Path) : Redundant (front ++ path) := by
  obtain ⟨before, c, after, rfl, separator, found⟩ := redundant
  exact ⟨front ++ before, c, after, (append_assoc _ _ _).symm, separator, found⟩

theorem needsNormalization_slash {name : Path} (noNul : 0 ∉ slash :: name) (named : name ≠ [])
    (clean : ¬ Redundant (slash :: name)) : needsNormalization (slash :: name) = false := by
  obtain ⟨c, rest, rfl⟩ := exists_cons_of_ne_nil named
  rw [Bool.eq_false_iff]
  cases separator : isSeparator c with
  | true =>
    refine mt (needsNormalization_separators noNul rfl separator).mp fun redundant => clean ?_
    exact redundant.append [slash, c]
  | false => exact mt (needsNormalization_rooted noNul rfl separator).mp clean

theorem eq_backslash_of_fast {before after : Path} (noNul : 0 ∉ before ++ slash :: after)
    (fast : needsNormalization (before ++ slash :: after) = false) (some_ : before ≠ [])
    (ended : before.getLast? ≠ some slash) (found : removable (firstPiece after) = true) :
    before = [backslash] ∧ ¬ Redundant after := by
  have redundant : ∀ front, Redundant (front ++ slash :: after) := fun front => ⟨front, slash, after, rfl, rfl, found⟩
  rw [← Bool.not_eq_true] at fast
  obtain ⟨c, front, rfl⟩ := exists_cons_of_ne_nil some_
  rw [cons_append] at noNul fast
  cases separator : isSeparator c with
  | false =>
    have other : c ≠ dot := by
      rintro rfl
      exact fast rfl
    rw [needsNormalization_plain noNul separator other] at fast
    exact absurd (redundant front) fast
  | true =>
    cases front with
    | nil =>
      rw [nil_append, needsNormalization_separators noNul separator rfl] at fast
      rcases isSeparator_cases separator with rfl | rfl
      · exact absurd rfl ended
      · exact ⟨rfl, fast⟩
    | cons next front =>
      rw [cons_append] at noNul fast
      cases second : isSeparator next with
      | false =>
        rw [needsNormalization_rooted noNul separator second] at fast
        exact absurd (redundant (c :: next :: front)) fast
      | true =>
        rw [needsNormalization_separators noNul separator second] at fast
        exact absurd (redundant front) fast

theorem replicate_slash {count : Nat} (positive : count ≠ 0) (name : Path) :
    replicate count slash ++ name = slash :: (replicate (count - 1) slash ++ name) := by
  obtain ⟨count, rfl⟩ := Nat.exists_eq_succ_of_ne_zero positive
  rfl

theorem removable_slashes (count : Nat) (name : Path) (tight : count = 0 → name = []) :
    removable (firstPiece (replicate count slash ++ name)) = true := by
  cases count with
  | zero =>
    rw [tight rfl]
    rfl
  | succ count => rfl

theorem needsNormalization_slashes {count : Nat} {name : Path} (noNul : 0 ∉ replicate count slash ++ name)
    (fast : needsNormalization (replicate count slash ++ name) = false) (more : 3 ≤ count) (named : name ≠ []) :
    needsNormalization (slash :: name) = false := by
  obtain ⟨extra, rfl⟩ := Nat.exists_eq_add_of_le' more
  have noNul' : 0 ∉ slash :: name := fun member => noNul (by
    rcases mem_cons.mp member with same | inside
    · cases same
    · exact mem_append_right _ inside)
  rw [← Bool.not_eq_true] at fast
  refine needsNormalization_slash noNul' named fun redundant => ?_
  refine fast ((needsNormalization_separators noNul rfl rfl).mpr ?_)
  show Redundant (replicate (extra + 1) slash ++ name)
  rw [replicate_succ', append_assoc]
  exact redundant.append (replicate extra slash)

open Library.PosixPath in
theorem needsNormalization_rejoin (noNul : 0 ∉ path) (some_ : path ≠ [])
    (fast : needsNormalization path = false) : needsNormalization (rejoin path) = false := by
  obtain ⟨before, count, name, cut, rfl⟩ := exists_cut path
  by_cases tight : Tight before count name
  · rwa [rejoin_tight cut tight]
  · rw [Tight, not_or] at tight
    rw [rejoin_joined cut some_]
    by_cases start : before = []
    · subst start
      by_cases empty : name = []
      · subst empty
        rfl
      · have one : count ≠ 1 := fun one => tight.1 ⟨one, fun none => absurd none empty⟩
        have others : ¬ (count = 0 ∨ count = 2) := fun both => tight.2 ⟨rfl, empty, both⟩
        rw [if_neg fun all => others all.2.2, if_neg fun all => empty all.1, joined_one]
        exact needsNormalization_slashes noNul fast (by omega) empty
    · -- A run of slashes that is too long is seen, unless a backslash in front of it hides its first one.
      have slashes : count ≠ 0 := fun none => start (cut.apart none)
      have split : joined before count name = before ++ slash :: (replicate (count - 1) slash ++ name) := by
        simp [joined, replicate_slash slashes]
      have found : removable (firstPiece (replicate (count - 1) slash ++ name)) = true := by
        refine removable_slashes (count - 1) name fun none => ?_
        by_contra named
        exact tight.1 ⟨by omega, fun empty => absurd empty named⟩
      rw [split] at noNul fast
      obtain ⟨rfl, clean⟩ := eq_backslash_of_fast noNul fast start cut.ended found
      rw [if_neg fun all => start all.1, joined_one]
      by_cases empty : name = []
      · rw [if_pos ⟨empty, start, rfl⟩]
        rfl
      · rw [if_neg fun all => empty all.1, Bool.eq_false_iff]
        have noNul' : 0 ∉ backslash :: slash :: name := fun member => noNul (by
          rcases mem_cons.mp member with same | later
          · cases same
          · rcases mem_cons.mp later with same | inside
            · cases same
            · simp [inside])
        exact mt (needsNormalization_separators noNul' rfl rfl).mp fun redundant => clean (redundant.append _)

/-! The path of a `FileSpec`. -/

def normalised (path : Path) : Path :=
  if needsNormalization path then removeDots path else path

def parts (path : Path) : FileSpec where
  directory := if parentPath path = [] then none else some (parentPath path)
  filename := if filename path = [] then none else some (filename path)
  isResolved := false
  style := .posix

section Documented

variable {host : Host} (documented : host.Documented)

include documented

theorem setFile_posix {path : Path} (some_ : path ≠ []) : setFile host path false .posix =
      if normalised path = [] then ⟨none, some [dot], false, .posix⟩ else parts (normalised path) := by
  simp only [setFile, some_, reduceCtorEq, if_false, documented.removeDots,
    documented.filename, documented.parentPath]
  rfl

end Documented

/-! Taking a `FileSpec` apart and putting its path together. -/

theorem isEmpty_part {part : Path} (noNul : 0 ∉ part) :
    (if part = [] then none else some part : ConstString).isEmpty = decide (part = []) := by
  cases part with
  | nil => rfl
  | cons c rest => exact decide_eq_false fun same => noNul (same ▸ mem_cons_self)

theorem getStringRef_part (part : Path) :
    (if part = [] then none else some part : ConstString).getStringRef = part := by
  cases part with
  | nil => rfl
  | cons c rest => rfl

variable (noNul : 0 ∉ path)
include noNul

theorem not_mem_filename : 0 ∉ filename path := by
  intro member
  rcases mem_of_mem_filename member with inside | same | same
  · exact noNul inside
  · cases same
  · cases same

theorem not_mem_parentPath : 0 ∉ parentPath path := by
  intro member
  rcases mem_of_mem_parentPath member with inside | same
  · exact noNul inside
  · cases same

theorem getPath_parts (denormalized : Bool) : (parts path).getPath denormalized = rejoin path := by
  have same : ∀ path' : Path, denormalize path' .posix = path' := fun _ => if_pos (.inl rfl)
  unfold getPath
  dsimp only
  have inner : (if (!(parts path).directory.isEmpty && !(parts path).filename.isEmpty &&
      decide ((parts path).directory.getStringRef.getLast? ≠ some slash) &&
      decide ((parts path).filename.getStringRef.getLast? ≠ some slash)) = true
      then (parts path).directory.getStringRef ++ slash :: (parts path).filename.getStringRef
      else (parts path).directory.getStringRef ++ (parts path).filename.getStringRef) = rejoin path := by
    simp only [parts, isEmpty_part (not_mem_filename noNul), isEmpty_part (not_mem_parentPath noNul), getStringRef_part]
    unfold rejoin join
    simp [and_assoc]
  rw [inner]
  split
  · exact same _
  · rfl

theorem not_mem_normalised : 0 ∉ normalised path := by
  unfold normalised
  split
  · intro member
    rcases mem_of_mem_removeDots member with inside | same
    · exact noNul inside
    · cases same
  · exact noNul

theorem normalised_rejoin (some_ : normalised path ≠ []) :
    normalised (rejoin (normalised path)) = rejoin (normalised path) := by
  -- A path that has been rid of its redundant pieces stays so, and the fast path stays the fast path.
  by_cases needs : needsNormalization path = true
  · have kept : normalised path = removeDots path := if_pos needs
    rw [kept] at some_ ⊢
    rw [rejoin_removeDots some_]
    unfold normalised
    split
    · exact removeDots_removeDots path
    · rfl
  · have kept : normalised path = path := if_neg needs
    rw [kept] at some_ ⊢
    exact if_neg (Bool.eq_false_iff.mp (needsNormalization_rejoin noNul some_ (Bool.eq_false_iff.mpr needs)))

omit noNul

theorem parts_rejoin (some_ : path ≠ []) : parts (rejoin path) = parts path := by
  rw [parts, parts, parentPath_rejoin some_, filename_rejoin some_]

/-- The path of a `FileSpec` is its own normal form. -/
theorem setFile_getPath {host : Host} (documented : host.Documented) (noNul : 0 ∉ path) (denormalized : Bool) :
    setFile host ((setFile host path false .posix).getPath denormalized) false .posix =
      setFile host path false .posix := by
  by_cases empty : path = []
  · subst empty
    cases denormalized with
    | false => rfl
    | true => rfl
  · rw [setFile_posix documented empty]
    by_cases nothing : normalised path = []
    · have current : (⟨none, some [dot], false, .posix⟩ : FileSpec).getPath denormalized = [dot] := by
        cases denormalized with
        | false => rfl
        | true => rfl
      rw [if_pos nothing, current, setFile_posix documented (cons_ne_nil _ _)]
      rfl
    · have some_ := rejoin_ne_nil nothing
      rw [if_neg nothing, getPath_parts (not_mem_normalised noNul), setFile_posix documented some_,
        normalised_rejoin noNul nothing, if_neg some_, parts_rejoin nothing]

/-! What the fast path is for. -/

/-- The fast path leaves normal forms only, a `FileSpec` made from the path of one of them is the same `FileSpec`, and
two paths with the same names that both or neither are absolute are one.
-/
structure Normalises (host : Host) (first second : Path) : Prop where
  fast : ∀ path, path = first ∨ path = second → needsNormalization path = false → host.removeDots path .posix = path
  stable : ∀ path, path = first ∨ path = second →
    setFile host ((setFile host path false .posix).getPath true) false .posix = setFile host path false .posix
  unique : names first = names second → absolute first = absolute second →
    setFile host first false .posix = setFile host second false .posix

theorem normalised_seen (noNul : 0 ∉ path) (seen : ¬ Hidden path) : normalised path = removeDots path := by
  by_cases needs : needsNormalization path = true
  · exact if_pos needs
  · rw [removeDots_of_fast noNul (Bool.eq_false_iff.mpr needs) seen]
    exact if_neg needs

theorem normalises_iff {host : Host} (documented : host.Documented) {first second : Path} (noNul : 0 ∉ first)
    (noNul' : 0 ∉ second) : Normalises host first second ↔ ¬ Hidden first ∧ ¬ Hidden second := by
  have both : ∀ path, path = first ∨ path = second → 0 ∉ path := by
    rintro path (rfl | rfl)
    · exact noNul
    · exact noNul'
  constructor
  · intro normalises
    have seen : ∀ path, path = first ∨ path = second → ¬ Hidden path := by
      intro path given hidden
      obtain ⟨fast, differs⟩ := removeDots_of_hidden (both path given) hidden
      exact differs ((documented.removeDots path).symm.trans (normalises.fast path given fast))
    exact ⟨seen first (.inl rfl), seen second (.inr rfl)⟩
  · rintro ⟨seen, seen'⟩
    refine ⟨fun path given fast => ?_, fun path given => ?_, fun same based => ?_⟩
    · rw [documented.removeDots]
      rcases given with rfl | rfl
      · exact removeDots_of_fast noNul fast seen
      · exact removeDots_of_fast noNul' fast seen'
    · exact setFile_getPath documented (both path given) true
    · have left := removeDots_eq same based
      have empty := (root_components_eq same based).2.2
      have empty' := (root_components_eq same.symm based.symm).2.2
      by_cases nothing : first = []
      · rw [nothing, empty nothing]
      · rw [setFile_posix documented nothing, setFile_posix documented (mt empty' nothing), normalised_seen noNul seen,
          normalised_seen noNul' seen', left]

/-- `/a//../b` and `/b`. -/
theorem normalises_iff_dots :
    Normalises (Host.posix id) [slash, 0x61, slash, slash, dot, dot, slash, 0x62] [slash, 0x62] :=
  (normalises_iff (Host.posix_documented id) (by decide) (by decide)).mpr
    ⟨fun hidden => absurd hidden.1 (by decide), fun hidden => absurd hidden.1 (by decide)⟩

/-- `///a/b` is not normalised and becomes another `FileSpec` than `/a/b`. -/
theorem not_normalises : needsNormalization [slash, slash, slash, 0x61, slash, 0x62] = false ∧
    setFile (Host.posix id) [slash, slash, slash, 0x61, slash, 0x62] false .posix ≠
      setFile (Host.posix id) [slash, 0x61, slash, 0x62] false .posix ∧
    ¬ Normalises (Host.posix id) [slash, slash, slash, 0x61, slash, 0x62] [slash, 0x61, slash, 0x62] := by
  have differ : setFile (Host.posix id) [slash, slash, slash, 0x61, slash, 0x62] false .posix ≠
      setFile (Host.posix id) [slash, 0x61, slash, 0x62] false .posix := by decide
  exact ⟨by decide, differ, fun normalises => differ (normalises.unique (by decide) (by decide))⟩

end Lldb
