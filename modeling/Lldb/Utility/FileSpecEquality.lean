import Lldb.Utility.FileSpec

/-! `FileSpec::operator==`, which resolves copies of its operands and may mark the operands themselves as resolved. -/

set_option autoImplicit false

namespace Lldb.FileSpec

open List Option

open Library.PosixPath (slash)

variable (host : Host)

variable (spec : FileSpec)

def isCaseSensitive : Bool := spec.style ≠ .windows

def directoryEquals (lhs rhs : FileSpec) : Bool :=
  lhs.directory.equals rhs.directory (lhs.isCaseSensitive || rhs.isCaseSensitive)

def fileEquals (lhs rhs : FileSpec) : Bool :=
  lhs.filename.equals rhs.filename (lhs.isCaseSensitive || rhs.isCaseSensitive)

def resolvePath : Bool × FileSpec :=
  if spec.isResolved then (true, spec)
  else
    let resolved := setFile host (spec.getPath false) true spec.style
    (resolved.isResolved, resolved)

/-- One operand of a comparison: whether its copy can be resolved, and its own flag afterwards. -/
def markResolved : Bool × FileSpec :=
  if spec.isResolved then (true, spec)
  else
    let (resolvable, resolved) := spec.resolvePath host
    if resolvable then (true, { spec with isResolved := spec.directory = resolved.directory }) else (false, spec)

/-- The result, and both operands, whose `m_is_resolved` is mutable. -/
def operatorEq (lhs rhs : FileSpec) : Bool × FileSpec × FileSpec :=
  if !lhs.fileEquals rhs then (false, lhs, rhs)
  else if lhs.directoryEquals rhs then (true, lhs, rhs)
  else if lhs.isResolved && rhs.isResolved then (false, lhs, rhs)
  else
    let (resolvable, lhs) := lhs.markResolved host
    if !resolvable then (false, lhs, rhs)
    else
      let (resolvable, rhs) := rhs.markResolved host
      if !resolvable then (false, lhs, rhs)
      -- the operands themselves are compared, not the resolved copies
      else (lhs.directoryEquals rhs, lhs, rhs)

variable (specs : List FileSpec)

def compareAt (first second : Nat) : Bool × List FileSpec :=
  match specs[first]?, specs[second]? with
  | some lhs, some rhs =>
    let (result, lhs, rhs) := lhs.operatorEq host rhs
    (result, (specs.set first lhs).set second rhs)
  | _, _ => (false, specs)

def compareAll (history : List (Nat × Nat)) : List FileSpec :=
  history.foldl (fun specs pair => (compareAt host specs pair.1 pair.2).2) specs

def ResolvedEqual (lhs rhs : FileSpec) : Prop :=
  (lhs.resolvePath host).1 = true ∧ (rhs.resolvePath host).1 = true ∧
    (lhs.resolvePath host).2.directoryEquals (rhs.resolvePath host).2 = true

/-- Equality sees through resolution, is symmetric, and comparisons leave the results of later ones alone. -/
structure SeesThrough (lhs rhs : FileSpec) : Prop where
  verdict : (lhs.operatorEq host rhs).1 = true ↔ lhs.directoryEquals rhs = true ∨ ResolvedEqual host lhs rhs
  symmetric : (lhs.operatorEq host rhs).1 = (rhs.operatorEq host lhs).1
  stable : ∀ (others : List FileSpec) (history : List (Nat × Nat)) (first second : Nat),
    (compareAt host (compareAll host (lhs :: rhs :: others) history) first second).1 =
      (compareAt host (lhs :: rhs :: others) first second).1

/-! Comparisons change nothing but the flags. -/

structure SameFile (before after : FileSpec) : Prop where
  directory : after.directory = before.directory
  filename : after.filename = before.filename
  style : after.style = before.style

theorem SameFile.refl : SameFile spec spec := ⟨rfl, rfl, rfl⟩

section SameFile

variable {lhs lhs' rhs rhs' : FileSpec} (left : SameFile lhs lhs') (right : SameFile rhs rhs')

include left right

theorem directoryEquals_same : lhs'.directoryEquals rhs' = lhs.directoryEquals rhs := by
  simp [directoryEquals, isCaseSensitive, left.directory, left.style, right.directory, right.style]

theorem fileEquals_same : lhs'.fileEquals rhs' = lhs.fileEquals rhs := by
  simp [fileEquals, isCaseSensitive, left.filename, left.style, right.filename, right.style]

end SameFile

theorem markResolved_same : SameFile spec (spec.markResolved host).2 := by
  unfold markResolved
  dsimp only
  split
  · exact .refl spec
  · split
    · exact ⟨rfl, rfl, rfl⟩
    · exact .refl spec

theorem operatorEq_same (lhs rhs : FileSpec) :
    SameFile lhs (lhs.operatorEq host rhs).2.1 ∧ SameFile rhs (lhs.operatorEq host rhs).2.2 := by
  have left := markResolved_same host lhs
  have right := markResolved_same host rhs
  unfold operatorEq
  dsimp only
  split
  · exact ⟨.refl lhs, .refl rhs⟩
  · split
    · exact ⟨.refl lhs, .refl rhs⟩
    · split
      · exact ⟨.refl lhs, .refl rhs⟩
      · split
        · exact ⟨left, .refl rhs⟩
        · split
          · exact ⟨left, right⟩
          · exact ⟨left, right⟩

/-- Whatever is resolved on the way, the result says whether the files and the directories are equal as they are. -/
theorem operatorEq_result (lhs rhs : FileSpec) :
    (lhs.operatorEq host rhs).1 = (lhs.fileEquals rhs && lhs.directoryEquals rhs) := by
  have operands := directoryEquals_same (markResolved_same host lhs) (markResolved_same host rhs)
  unfold operatorEq
  dsimp only
  split
  · next differ =>
    rw [Bool.not_eq_true'] at differ
    simp [differ]
  · next same =>
    rw [Bool.not_eq_true', Bool.not_eq_false] at same
    rw [same]
    split
    · next equal => exact equal.symm
    · next differ =>
      rw [Bool.not_eq_true] at differ
      rw [differ]
      -- Every exit from here on returns false, the last one because the directories still differ.
      split
      · rfl
      · split
        · rfl
        · split
          · rfl
          · exact operands.trans differ

theorem equals_comm (lhs rhs : ConstString) (caseSensitive : Bool) :
    lhs.equals rhs caseSensitive = rhs.equals lhs caseSensitive := by
  unfold ConstString.equals
  by_cases same : lhs = rhs
  · rw [if_pos same, if_pos same.symm]
  · rw [if_neg same, if_neg (Ne.symm same)]
    split
    · rfl
    · exact decide_eq_decide.mpr eq_comm

theorem operatorEq_comm (lhs rhs : FileSpec) : (lhs.operatorEq host rhs).1 = (rhs.operatorEq host lhs).1 := by
  simp [operatorEq_result, fileEquals, directoryEquals, Bool.or_comm, equals_comm lhs.filename, equals_comm lhs.directory]

/-! Histories of comparisons. -/

def file : ConstString × ConstString × Style := (spec.directory, spec.filename, spec.style)

theorem sameFile_iff (before after : FileSpec) : SameFile before after ↔ after.file = before.file := by
  constructor
  · intro same
    rw [file, file, same.directory, same.filename, same.style]
  · intro same
    exact ⟨congrArg (·.1) same, congrArg (·.2.1) same, congrArg (·.2.2) same⟩

theorem map_file_set {specs : List FileSpec} {index : Nat} {spec spec' : FileSpec}
    (found : (specs.map file)[index]? = some spec.file) (same : SameFile spec spec') :
    (specs.set index spec').map file = specs.map file := by
  rw [map_set, (sameFile_iff spec spec').mp same]
  obtain ⟨inside, here⟩ := List.getElem?_eq_some_iff.mp found
  rw [← here]
  exact List.set_getElem_self inside

theorem map_file_compareAt (first second : Nat) :
    (compareAt host specs first second).2.map file = specs.map file := by
  rw [compareAt.eq_def]
  cases here : specs[first]? with
  | none => rfl
  | some lhs =>
    cases there : specs[second]? with
    | none => rfl
    | some rhs =>
      obtain ⟨left, right⟩ := operatorEq_same host lhs rhs
      have marked := @map_file_set specs first lhs _ (by rw [getElem?_map, here]; rfl) left
      refine (map_file_set ?_ right).trans marked
      simp [marked, there]

theorem map_file_compareAll (history : List (Nat × Nat)) :
    (compareAll host specs history).map file = specs.map file := by
  induction history generalizing specs with
  | nil => rfl
  | cons pair history ih => exact (ih _).trans (map_file_compareAt host specs pair.1 pair.2)

theorem compareAt_congr {specs specs' : List FileSpec} (same : specs'.map file = specs.map file) (first second : Nat) :
    (compareAt host specs' first second).1 = (compareAt host specs first second).1 := by
  have at_ : ∀ index : Nat, (specs'[index]?).map file = (specs[index]?).map file := by
    intro index
    simp [← getElem?_map, same]
  have left := at_ first
  have right := at_ second
  rw [compareAt.eq_def, compareAt.eq_def]
  cases here : specs[first]? with
  | none =>
    rw [here, map_none, map_eq_none_iff] at left
    rw [left]
  | some lhs =>
    rw [here, map_some, map_eq_some_iff] at left
    obtain ⟨lhs', found, same⟩ := left
    rw [found]
    cases there : specs[second]? with
    | none =>
      rw [there, map_none, map_eq_none_iff] at right
      rw [right]
    | some rhs =>
      rw [there, map_some, map_eq_some_iff] at right
      obtain ⟨rhs', found', same'⟩ := right
      rw [found']
      have left' := (sameFile_iff lhs lhs').mpr same
      have right' := (sameFile_iff rhs rhs').mpr same'
      simp [operatorEq_result, fileEquals_same left' right', directoryEquals_same left' right']

theorem seesThrough_iff (lhs rhs : FileSpec) (names : lhs.fileEquals rhs = true) :
    SeesThrough host lhs rhs ↔ (ResolvedEqual host lhs rhs → lhs.directoryEquals rhs = true) := by
  have result := operatorEq_result host lhs rhs
  rw [names, Bool.true_and] at result
  constructor
  · intro sees resolved
    rw [← result]
    exact sees.verdict.mpr (.inr resolved)
  · intro enough
    refine ⟨?_, operatorEq_comm host lhs rhs, fun others history first second => ?_⟩
    · rw [result]
      exact ⟨.inl, fun both => both.elim id enough⟩
    · exact compareAt_congr host (map_file_compareAll host _ history) first second

/-- `/a` and `/a` again, resolved, by a file system that leaves paths as they are. -/
theorem seesThrough_same : SeesThrough (Host.posix id) (setFile (Host.posix id) [slash, 0x61] false .posix)
    (setFile (Host.posix id) [slash, 0x61] true .posix) :=
  (seesThrough_iff (Host.posix id) (setFile (Host.posix id) [slash, 0x61] false .posix)
    (setFile (Host.posix id) [slash, 0x61] true .posix) (by decide)).mpr fun _ => by decide

/-- `/t/a` and `/p/t/a`, on a file system where the former resolves to the latter. -/
theorem not_seesThrough : let host := Host.posix fun path =>
      if path = [slash, 0x74, slash, 0x61] then [slash, 0x70, slash, 0x74, slash, 0x61] else path
    let lhs := setFile host [slash, 0x74, slash, 0x61] false .posix
    let rhs := setFile host [slash, 0x70, slash, 0x74, slash, 0x61] false .posix
    lhs.fileEquals rhs = true ∧ ¬ (lhs.isResolved = true ∧ rhs.isResolved = true) ∧ ResolvedEqual host lhs rhs ∧
      (lhs.operatorEq host rhs).1 = false ∧ ¬ SeesThrough host lhs rhs := by
  intro host lhs rhs
  have resolved : ResolvedEqual host lhs rhs := ⟨by decide, by decide, by decide⟩
  have result : (lhs.operatorEq host rhs).1 = false := by decide
  refine ⟨by decide, by decide, resolved, result, fun sees => ?_⟩
  rw [sees.verdict.mpr (.inr resolved)] at result
  cases result

end Lldb.FileSpec
