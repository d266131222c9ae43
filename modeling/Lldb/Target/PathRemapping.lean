import Lldb.Library.PosixAppend
import Lldb.Target.PathMappingList

/-! Remapping a path, and finding the path that was remapped: by characters in the code, by components in what it is
meant to do.
-/

set_option autoImplicit false

namespace Lldb.PathMappingList

open Library.PosixPath (Path slash dot Normal elements remaining fragments appended bareName)
open FileSpec List Option

variable (host : Host) (list : PathMappingList)

/-- `StringRef::consume_front`. -/
def consumeFront (path front : Path) : Option Path :=
  if front.isPrefixOf path then some (path.drop front.length) else none

/-- The path of a `FileSpec` for one path with another one appended to it. -/
def appendedPath (path component : Path) : Path :=
  ((setFile host path false .native).appendPathComponent host component).getPath true

/-- The loop of `RemapPath`. Whether the path is relative is only asked for once there, with the same answer. -/
def remapPathLoop (path : Path) : List (ConstString × ConstString) → Option Path
  | [] => none
  | it :: rest =>
    match consumeFront path it.1.getStringRef with
    | some behind => some (appendedPath host it.2.getStringRef behind)
    | none =>
      if it.1.getStringRef ≠ [dot] then remapPathLoop path rest
      else if !(setFile host path false .native).isRelative host then remapPathLoop path rest
      else some (appendedPath host it.2.getStringRef path)

def remapPath (path : Path) : Option Path :=
  if list.pairs = [] ∨ path = [] then none else remapPathLoop host path list.pairs

def reverseRemapPathLoop (path : Path) : List (ConstString × ConstString) → Option FileSpec
  | [] => none
  | it :: rest =>
    match consumeFront path it.2.getStringRef with
    | some behind => some ((setFile host it.1.getStringRef false .native).appendPathComponent host behind)
    | none => reverseRemapPathLoop path rest

def reverseRemapPath (file : FileSpec) : Option FileSpec := reverseRemapPathLoop host (file.getPath true) list.pairs

/-! What remapping is meant to do. -/

/-- A relative path has no root, and `~` in front of it is one. -/
def relative (path : Path) : Bool := path ≠ [] && Library.PosixPath.root path = .none && path.head? ≠ some 0x7e

/-- Component by component the source is a prefix of the path, and one without components of every relative path. -/
def covers (source path : Path) : Bool :=
  if elements source = [] then relative path else (elements source).isPrefixOf (elements path)

/-- The first mapping that covers the path decides, and its replacement gets the remaining components; a single mapping
is undone by `reverseRemapPath`.
-/
structure WholeComponents (path : Path) : Prop where
  remap : list.remapPath host path = (list.pairs.find? fun pair => covers pair.1.getStringRef path).map fun pair =>
      appended pair.2.getStringRef (remaining pair.1.getStringRef path)
  reverse : ∀ pair, list.pairs = [pair] → ∀ result, list.remapPath host path = some result →
    ∃ fixed, list.reverseRemapPath host (setFile host result false .native) = some fixed ∧ fixed.getPath true = path

/-! What goes well. -/

/-- What the loop looks for: the characters of the source in front of those of the path, or `.` and a path that does
not count as absolute.
-/
def matched (source path : Path) : Bool :=
  source.isPrefixOf path ||
    source = [dot] && !(path.head? = some 0x7e || Library.PosixPath.absolute path)

def behind (source path : Path) : Path := if source.isPrefixOf path then path.drop source.length else path

/-- Characters that spell components are appended to a path as these components. -/
structure Joins (path chars : Path) (rest : List Path) : Prop where
  spells : fragments chars = rest
  anchored : path = [] → chars.head? ≠ some slash ∧ (rest = [] → chars = [])
  based : bareName path = true → rest ≠ []
  seen : ¬ Hidden (Library.PosixPath.append path chars)

/-- The first mapping that matches the characters of the path covers it by components, and its replacement can be joined
with the rest; where it is the only mapping, its source can be joined with what follows the replacement in the result.
-/
structure Clear (path : Path) : Prop where
  seen : ¬ Hidden path ∧ ∀ pair ∈ list.pairs, ¬ Hidden pair.1.getStringRef ∧ ¬ Hidden pair.2.getStringRef
  first : path ≠ [] → ∀ pair, (list.pairs.find? fun pair => matched pair.1.getStringRef path) = some pair →
    covers pair.1.getStringRef path = true ∧
      Joins pair.2.getStringRef (behind pair.1.getStringRef path) (remaining pair.1.getStringRef path)
  single : ∀ pair, list.pairs = [pair] → covers pair.1.getStringRef path = true →
    (pair.1.getStringRef = [] → remaining pair.1.getStringRef path ≠ []) ∧
      ∃ chars, appended pair.2.getStringRef (remaining pair.1.getStringRef path) = pair.2.getStringRef ++ chars ∧
        Joins pair.1.getStringRef chars (remaining pair.1.getStringRef path)

/-- A path that `NormalizePath` leaves as it is. -/
structure IsNormalised (path : Path) : Prop where
  noNul : 0 ∉ path
  same : normalizePath host (some path) = some path

/-! The path of a `FileSpec`. -/

section Documented

variable {host : Host} (documented : host.Documented)

include documented

theorem getPath_setFile {path : Path} (noNul : 0 ∉ path) (denormalized : Bool) :
    (setFile host path false .native).getPath denormalized =
      if path = [] then [] else if normalised path = [] then [dot]
      else Library.PosixPath.rejoin (normalised path) := by
  show (setFile host path false .posix).getPath denormalized = _
  by_cases empty : path = []
  · subst empty
    cases denormalized with
    | false => rfl
    | true => rfl
  · rw [setFile_posix documented empty]
    split
    · cases denormalized with
      | false => rfl
      | true => rfl
    · exact getPath_parts (not_mem_normalised noNul) denormalized

theorem not_mem_getPath {path : Path} (noNul : 0 ∉ path) (denormalized : Bool) :
    0 ∉ (setFile host path false .native).getPath denormalized := by
  rw [getPath_setFile documented noNul]
  split
  · exact not_mem_nil
  · split
    · decide
    · have left := not_mem_parentPath (not_mem_normalised noNul)
      have right := not_mem_filename (not_mem_normalised noNul)
      unfold Library.PosixPath.rejoin Library.PosixPath.join
      split
      · intro member
        rcases mem_append.mp member with inside | later
        · exact left inside
        · rcases mem_cons.mp later with same | inside
          · cases same
          · exact right inside
      · exact fun member => (mem_append.mp member).elim left right

theorem getPath_seen {path : Path} (noNul : 0 ∉ path) (seen : ¬ Hidden path) (denormalized : Bool) :
    (setFile host path false .native).getPath denormalized =
      if Library.PosixPath.removeDots path = [] ∧ path ≠ [] then [dot] else Library.PosixPath.removeDots path := by
  rw [getPath_setFile documented noNul, normalised_seen noNul seen]
  by_cases empty : path = []
  · subst empty
    rfl
  · rw [if_neg empty]
    by_cases nothing : Library.PosixPath.removeDots path = []
    · rw [if_pos nothing, if_pos ⟨nothing, empty⟩]
    · rw [if_neg nothing, if_neg fun both => nothing both.1, Library.PosixPath.rejoin_removeDots nothing]

theorem IsNormalised.getPath {path : Path} (normalised : IsNormalised host path) (denormalized : Bool) :
    (setFile host path false .native).getPath denormalized = path := by
  have same := Option.some.inj normalised.same
  rw [ConstString.getStringRef, getD_some, getPath_setFile documented normalised.noNul] at same
  rw [getPath_setFile documented normalised.noNul, same]

theorem IsNormalised.normal {path : Path} (normalised : IsNormalised host path) (seen : ¬ Hidden path) :
    Normal path := by
  have same := normalised.getPath documented true
  rw [getPath_seen documented normalised.noNul seen] at same
  split at same
  · exact .inl same.symm
  · exact .inr same

theorem setFile_style (path : Path) : (setFile host path false .native).style = .posix := by
  show (setFile host path false .posix).style = .posix
  by_cases empty : path = []
  · rw [empty]
    rfl
  · rw [setFile_posix documented empty]
    split
    · rfl
    · rfl

omit documented in
theorem not_mem_append {path chars : Path} (noNul : 0 ∉ path) (noNul' : 0 ∉ chars) :
    0 ∉ Library.PosixPath.append path chars := by
  intro member
  rcases Library.PosixPath.mem_of_mem_append member with inside | later | same
  · exact noNul inside
  · exact noNul' later
  · cases same

theorem appendedPath_joins {path chars : Path} {rest : List Path} (normalised : IsNormalised host path)
    (normal : Normal path) (noNul : 0 ∉ chars) (joins : Joins path chars rest) :
    appendedPath host path chars = appended path rest := by
  have spelled := Library.PosixPath.appended_append normal (fun empty => (joins.anchored empty).1)
    (by rw [joins.spells]; exact joins.based)
  rw [joins.spells] at spelled
  have nothing : Library.PosixPath.append path chars ≠ [] ↔ ¬ (path = [] ∧ rest = []) := by
    rw [Ne, Library.PosixPath.append_eq_nil_iff]
    refine not_congr (and_congr_right fun empty => ⟨fun none => ?_, (joins.anchored empty).2⟩)
    rw [← joins.spells, none]
    rfl
  unfold appendedPath appendPathComponent
  rw [setFile_style documented, documented.append, normalised.getPath documented, spelled]
  exact (getPath_seen documented (not_mem_append normalised.noNul noNul) joins.seen true).trans
    (if_congr (and_congr Iff.rfl nothing) rfl rfl)

/-- What comes out of a `FileSpec` is normalised. -/
theorem isNormalised_getPath {path : Path} (noNul : 0 ∉ path) :
    IsNormalised host ((setFile host path false .native).getPath true) :=
  ⟨not_mem_getPath documented noNul true,
    congrArg (fun spec : FileSpec => some (spec.getPath true)) (setFile_getPath documented noNul true)⟩

theorem isNormalised_appendedPath {path chars : Path} (normalised : IsNormalised host path) (noNul : 0 ∉ chars) :
    IsNormalised host (appendedPath host path chars) := by
  unfold appendedPath appendPathComponent
  rw [setFile_style documented, documented.append, normalised.getPath documented]
  exact isNormalised_getPath documented (not_mem_append normalised.noNul noNul)

omit documented in
theorem not_mem_behind {path : Path} (noNul : 0 ∉ path) (source : Path) : 0 ∉ behind source path := by
  unfold behind
  split
  · exact fun inside => noNul (mem_of_mem_drop inside)
  · exact noNul

/-! The loops. -/

theorem isRelative_normalised {path : Path} (normalised : IsNormalised host path) (some_ : path ≠ []) :
    (setFile host path false .native).isRelative host =
      !(path.head? = some 0x7e || Library.PosixPath.absolute path) := by
  obtain ⟨c, rest, rfl⟩ := exists_cons_of_ne_nil some_
  rw [isRelative, isAbsolute, normalised.getPath documented, setFile_style documented]
  dsimp only
  rw [documented.isAbsolute]
  by_cases home : c = 0x7e
  · simp [home]
  · simp [home]

theorem remapPathLoop_eq {path : Path} (normalised : IsNormalised host path) (some_ : path ≠ [])
    (pairs : List (ConstString × ConstString)) : remapPathLoop host path pairs =
      (pairs.find? fun pair => matched pair.1.getStringRef path).map fun pair =>
        appendedPath host pair.2.getStringRef (behind pair.1.getStringRef path) := by
  induction pairs with
  | nil => rfl
  | cons it rest ih =>
    rw [remapPathLoop, find?_cons]
    by_cases front : it.1.getStringRef.isPrefixOf path = true
    · have found : matched it.1.getStringRef path = true := by rw [matched, front, Bool.true_or]
      rw [consumeFront, if_pos front, found]
      dsimp only
      rw [map_some, behind, if_pos front]
    · -- Only for the source `.` does the loop look at anything but the characters.
      rw [consumeFront, if_neg front]
      dsimp only
      rw [isRelative_normalised documented normalised some_, ih]
      rw [Bool.not_eq_true] at front
      by_cases current : it.1.getStringRef = [dot]
      · have found : matched it.1.getStringRef path = !(path.head? = some 0x7e || Library.PosixPath.absolute path) := by
          simp [matched, front, decide_eq_true current]
        rw [if_neg (not_not.mpr current), found]
        split
        · next outside =>
          rw [Bool.not_eq_true'] at outside
          rw [outside]
        · next inside =>
          rw [Bool.not_eq_true', Bool.not_eq_false] at inside
          rw [inside]
          dsimp only
          rw [map_some, behind, front, if_neg Bool.false_ne_true]
      · have missed : matched it.1.getStringRef path = false := by
          simp [matched, front, decide_eq_false current]
        rw [if_pos current, missed]

omit documented in
theorem reverseRemapPathLoop_single (path chars : Path) (pair : ConstString × ConstString)
    (second : pair.2.getStringRef = path) : reverseRemapPathLoop host (path ++ chars) [pair] =
      some ((setFile host pair.1.getStringRef false .native).appendPathComponent host chars) := by
  have front : path.isPrefixOf (path ++ chars) = true := by
    rw [List.isPrefixOf_iff_prefix]
    exact prefix_append path chars
  simp [reverseRemapPathLoop, consumeFront, second]

end Documented

/-! By components and by characters. -/

theorem matched_of_covers {source path : Path} (normal : Normal source) (normal' : Normal path)
    (covered : covers source path = true) : matched source path = true := by
  unfold covers at covered
  split at covered
  · next none =>
    rcases normal.of_elements_nil none with rfl | rfl
    · rfl
    · -- The source is `.`, which the loop matches with whatever does not count as absolute.
      simp only [relative, Bool.and_eq_true, decide_eq_true_eq] at covered
      have rootless : Library.PosixPath.absolute path = false := by rw [Library.PosixPath.absolute, covered.1.2]; rfl
      rw [matched, decide_eq_true rfl, decide_eq_false covered.2, rootless]
      simp
  · next some_ =>
    rw [List.isPrefixOf_iff_prefix] at covered
    have some_' : elements path ≠ [] := fun none => some_ (prefix_nil.mp (none ▸ covered))
    obtain ⟨chars, split, -⟩ := Library.PosixPath.chars_of_prefix (normal.removeDots_eq some_)
      (normal'.removeDots_eq some_') some_ covered
    have front : source.isPrefixOf path = true := by
      rw [List.isPrefixOf_iff_prefix, split]
      exact prefix_append source chars
    simp [matched, front]

theorem appended_of_covers {source path : Path} (normal : Normal source) (normal' : Normal path)
    (covered : covers source path = true) (based : bareName source = true → remaining source path ≠ [])
    (named : source = [] → remaining source path ≠ []) : appended source (remaining source path) = path := by
  unfold covers at covered
  split at covered
  · next none =>
    simp only [relative, Bool.and_eq_true, decide_eq_true_eq] at covered
    have current := normal.of_elements_nil none
    have rest : remaining source path = Library.PosixPath.components path := by
      rcases current with rfl | rfl
      · rfl
      · rfl
    rw [rest] at named ⊢
    exact Library.PosixPath.appended_current normal' current covered.1.2 covered.1.1 named
  · next some_ =>
    rw [List.isPrefixOf_iff_prefix] at covered
    have some_' : elements path ≠ [] := fun none => some_ (prefix_nil.mp (none ▸ covered))
    exact Library.PosixPath.appended_remaining (normal'.removeDots_eq some_') some_ covered based

/-! The first mapping that is matched is the first one that covers. -/

/-- Of two tests, the first to succeed is the same if the stricter one holds where the other one holds first. -/
theorem find?_eq_of_first {α : Type} {strict loose : α → Bool} {items : List α}
    (weaker : ∀ item ∈ items, strict item = true → loose item = true)
    (first : ∀ item, items.find? loose = some item → strict item = true) : items.find? strict = items.find? loose := by
  induction items with
  | nil => rfl
  | cons item items ih =>
    rw [find?_cons, find?_cons]
    cases here : loose item with
    | true =>
      rw [first item (by rw [find?_cons, here])]
    | false =>
      have missed : strict item = false := by
        rw [Bool.eq_false_iff]
        intro found
        rw [weaker item mem_cons_self found] at here
        cases here
      rw [missed]
      refine ih (fun other member => weaker other (mem_cons_of_mem item member)) fun other found => ?_
      exact first other (by rw [find?_cons, here]; exact found)

theorem covers_nil (source : Path) : covers source [] = false := by
  unfold covers
  split
  · rfl
  · next some_ =>
    rw [Bool.eq_false_iff]
    intro front
    exact some_ (prefix_nil.mp (List.isPrefixOf_iff_prefix.mp front))

section Clear

variable {host : Host} (documented : host.Documented) {list : PathMappingList} {path : Path}
  (normalised : IsNormalised host path)
  (mappings : ∀ pair ∈ list.pairs, IsNormalised host pair.1.getStringRef ∧ IsNormalised host pair.2.getStringRef)

include documented normalised mappings

theorem remapPath_normalised {result : Path} (remapped : list.remapPath host path = some result) :
    IsNormalised host result := by
  unfold remapPath at remapped
  split at remapped
  · cases remapped
  · next some_ =>
    rw [remapPathLoop_eq documented normalised fun empty => some_ (.inr empty), map_eq_some_iff] at remapped
    obtain ⟨pair, found, rfl⟩ := remapped
    exact isNormalised_appendedPath documented (mappings pair (mem_of_find?_eq_some found)).2
      (not_mem_behind normalised.noNul _)

variable (clear : Clear list path)

include clear

theorem remapPath_clear : list.remapPath host path =
    (list.pairs.find? fun pair => covers pair.1.getStringRef path).map fun pair =>
      appended pair.2.getStringRef (remaining pair.1.getStringRef path) := by
  have normal := normalised.normal documented clear.seen.1
  unfold remapPath
  by_cases empty : path = []
  · rw [if_pos (.inr empty), empty, find?_eq_none.mpr fun pair _ => by rw [covers_nil]; exact Bool.false_ne_true]
    rfl
  · by_cases none : list.pairs = []
    · rw [none]
      rfl
    · have first := @find?_eq_of_first _ (fun pair => covers pair.1.getStringRef path)
        (fun pair => matched pair.1.getStringRef path) list.pairs
        (fun pair member =>
          matched_of_covers ((mappings pair member).1.normal documented (clear.seen.2 pair member).1) normal)
        fun pair found => (clear.first empty pair found).1
      rw [if_neg (not_or.mpr ⟨none, empty⟩), remapPathLoop_eq documented normalised empty, first]
      cases found : list.pairs.find? fun pair => matched pair.1.getStringRef path with
      | none => rfl
      | some pair =>
        have member := mem_of_find?_eq_some found
        have joins := (clear.first empty pair found).2
        have noNul := not_mem_behind normalised.noNul pair.1.getStringRef
        simp [appendedPath_joins documented (mappings pair member).2
          ((mappings pair member).2.normal documented (clear.seen.2 pair member).2) noNul joins]

theorem reverseRemapPath_clear {pair : ConstString × ConstString} (single : list.pairs = [pair]) {result : Path}
    (remapped : list.remapPath host path = some result) :
    ∃ fixed, list.reverseRemapPath host (setFile host result false .native) = some fixed ∧
      fixed.getPath true = path := by
  have normal := normalised.normal documented clear.seen.1
  have member : pair ∈ list.pairs := single ▸ mem_singleton_self pair
  obtain ⟨source, replacement⟩ := mappings pair member
  have source_normal := source.normal documented (clear.seen.2 pair member).1
  have stable := remapPath_normalised documented normalised mappings remapped
  rw [remapPath_clear documented normalised mappings clear, single, find?_singleton] at remapped
  split at remapped
  · next covered =>
    obtain ⟨named, chars, split, joins⟩ := clear.single pair single covered
    have same : result = pair.2.getStringRef ++ chars := (Option.some.inj remapped).symm.trans split
    have whole := appended_of_covers source_normal normal covered joins.based named
    have noNul : 0 ∉ chars := fun inside => stable.noNul (same ▸ mem_append_right _ inside)
    refine ⟨_, ?_, (appendedPath_joins documented source source_normal noNul joins).trans whole⟩
    rw [reverseRemapPath, stable.getPath documented, single, same]
    exact reverseRemapPathLoop_single _ chars pair rfl
  · cases remapped

end Clear

theorem wholeComponents {host : Host} (documented : host.Documented) (list : PathMappingList) {path : Path}
    (normalised : IsNormalised host path)
    (mappings : ∀ pair ∈ list.pairs, IsNormalised host pair.1.getStringRef ∧ IsNormalised host pair.2.getStringRef)
    (clear : Clear list path) : WholeComponents host list path :=
  ⟨remapPath_clear documented normalised mappings clear, fun _ single _ remapped =>
    reverseRemapPath_clear documented normalised mappings clear single remapped⟩

/-- `/o` is mapped to `/n`, and the path is `/o/f`. -/
theorem wholeComponents_file : WholeComponents (Host.posix id) ⟨[(some [slash, 0x6f], some [slash, 0x6e])], 1, false, 0⟩
      [slash, 0x6f, slash, 0x66] := by
  refine wholeComponents (Host.posix_documented id) ⟨[(some [slash, 0x6f], some [slash, 0x6e])], 1, false, 0⟩
    ⟨by decide, by decide⟩ (fun pair member => ?_) ⟨⟨fun hidden => absurd hidden.1 (by decide), fun pair member => ?_⟩,
      fun _ pair found => ?_, fun pair single _ => ?_⟩
  · cases mem_singleton.mp member
    exact ⟨⟨by decide, by decide⟩, by decide, by decide⟩
  · cases mem_singleton.mp member
    exact ⟨fun hidden => absurd hidden.1 (by decide), fun hidden => absurd hidden.1 (by decide)⟩
  · cases mem_singleton.mp (mem_of_find?_eq_some found)
    exact ⟨by decide, by decide, fun empty => absurd empty (by decide), fun _ => by decide,
      fun hidden => absurd hidden.1 (by decide)⟩
  · cases single
    exact ⟨fun empty => absurd empty (by decide), [slash, 0x66], by decide, by decide,
      fun empty => absurd empty (by decide), fun _ => by decide, fun hidden => absurd hidden.1 (by decide)⟩

/-- `/of` is taken for a file `f` in `/o`, and `..` for `.` in front of another `.`. -/
theorem not_wholeComponents : let host := Host.posix id
    let directory : PathMappingList := ⟨[(some [slash, 0x6f], some [slash, 0x6e])], 1, false, 0⟩
    let current : PathMappingList := ⟨[(some [dot], some [slash, 0x6e])], 1, false, 0⟩
    IsNormalised host [slash, 0x6f] ∧ IsNormalised host [dot] ∧ IsNormalised host [slash, 0x6e] ∧
      (IsNormalised host [slash, 0x6f, 0x66] ∧
        directory.remapPath host [slash, 0x6f, 0x66] = some [slash, 0x6e, slash, 0x66] ∧
        ¬ WholeComponents host directory [slash, 0x6f, 0x66]) ∧
      IsNormalised host [dot, dot] ∧ current.remapPath host [dot, dot] = some [slash, 0x6e] ∧
        ¬ WholeComponents host current [dot, dot] := by
  intro host directory current
  refine ⟨⟨by decide, by decide⟩, ⟨by decide, by decide⟩, ⟨by decide, by decide⟩,
    ⟨⟨by decide, by decide⟩, by decide, fun whole => ?_⟩, ⟨by decide, by decide⟩, by decide, fun whole => ?_⟩
  · -- No component of `/of` is `o`, so nothing covers it.
    exact absurd whole.remap (by decide)
  · -- What is left of `..` is the component itself.
    exact absurd whole.remap (by decide)

end Lldb.PathMappingList
